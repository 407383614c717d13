import HookPatch.Proofs.Image.Units
import HookPatch.Proofs.Outcomes

namespace HookPatch

def Image.resolve (image : Image) (name : String) : Option CodeUnit :=
  match image.unit? name with
  | some u => some u
  | none => do
    let f ← image.function? name
    image.unit? (← f.code)

namespace Image

variable {image : Image} {name : String} {u : CodeUnit}

theorem resolve_of_unit? (h : image.unit? name = some u) : image.resolve name = some u := by
  rw [resolve, h]

theorem mem_units_of_resolve (h : image.resolve name = some u) : u ∈ image.units := by
  rw [resolve] at h
  split at h
  · rename_i v hv
    cases h
    exact (unit?_eq_some hv).1
  · obtain ⟨f, -, h⟩ := Option.bind_eq_some_iff.mp h
    obtain ⟨code, -, h⟩ := Option.bind_eq_some_iff.mp h
    exact (unit?_eq_some h).1

end Image

namespace Machine

inductive Value
  | int (n : Int)
  | text (s : String)
  | function (name : String)
  deriving DecidableEq, Repr

inductive Fault
  | tooDeep (name : String)
  | missingOperand
  | mismatch (a b : Value)
  deriving DecidableEq, Repr

inductive Entry
  | unit (name : String) (args : List Value)
  | native (name : String) (args : List Value)
  deriving DecidableEq, Repr

abbrev Outcome := Except Fault (Value × List Entry)

def Value.add : Value → Value → Except Fault Value
  | int m, int n => .ok (int (m + n))
  | text s, text t => .ok (text (s ++ t))
  | a, b => .error (.mismatch a b)

/-- Runs a body on a stack, top first, where `call` runs what the body calls. -/
def runBody (call : String → List Value → Outcome) (args : List Value) :
    List Instruction → List Value → Outcome
  | [], _ => .ok (.int 0, [])
  | .pushInt n :: rest, stack => runBody call args rest (.int n.toInt :: stack)
  | .pushString s :: rest, stack => runBody call args rest (.text s :: stack)
  | .pushFunction name :: rest, stack => runBody call args rest (.function name :: stack)
  | .pushArgument i :: rest, stack =>
    runBody call args rest (args[i.toNat]?.getD (.int 0) :: stack)
  | .pop :: rest, stack => runBody call args rest stack.tail
  | .add :: rest, b :: a :: stack => do runBody call args rest ((← a.add b) :: stack)
  | .add :: _, _ => .error .missingOperand
  | .call target argc :: rest, stack => do
    let (value, trace) ← call target (stack.take argc.toNat).reverse
    let (result, later) ← runBody call args rest (value :: stack.drop argc.toNat)
    return (result, trace ++ later)
  | .ret :: _, stack => .ok (stack.headD (.int 0), [])
  | .exit :: _, _ => .ok (.int 0, [])
  | .nop :: rest, stack => runBody call args rest stack

def runUnit (call : String → List Value → Outcome) (u : CodeUnit) (args : List Value) : Outcome := do
  let (value, trace) ← runBody call args u.body []
  return (value, .unit u.name args :: trace)

/-- Calls a name with arguments, where calls may be nested `depth` deep. -/
def enter (image : Image) : Nat → String → List Value → Outcome
  | 0, name, _ => .error (.tooDeep name)
  | depth + 1, name, args =>
    match image.resolve name with
    | none => .ok (.int 0, [.native name args])
    | some u => runUnit (enter image depth) u args

variable {call call' : String → List Value → Outcome} {args stack : List Value} {value : Value}
  {trace : List Entry}

theorem runBody_call_eq_ok_iff {target : String} {argc : UInt16} {rest : List Instruction} :
    runBody call args (.call target argc :: rest) stack = .ok (value, trace) ↔
      ∃ result inner later, call target (stack.take argc.toNat).reverse = .ok (result, inner) ∧
        runBody call args rest (result :: stack.drop argc.toNat) = .ok (value, later) ∧
        trace = inner ++ later := by
  rw [runBody, except_bind_eq_ok_iff]
  constructor
  · rintro ⟨⟨result, inner⟩, hcall, h⟩
    obtain ⟨⟨final, later⟩, hrest, h⟩ := except_bind_eq_ok_iff.mp h
    cases h
    exact ⟨result, inner, later, hcall, hrest, rfl⟩
  · rintro ⟨result, inner, later, hcall, hrest, rfl⟩
    exact ⟨_, hcall, except_bind_eq_ok_iff.mpr ⟨_, hrest, rfl⟩⟩

theorem runUnit_eq_ok_iff {u : CodeUnit} : runUnit call u args = .ok (value, trace) ↔
    ∃ inner, runBody call args u.body [] = .ok (value, inner) ∧
      trace = .unit u.name args :: inner := by
  rw [runUnit, except_bind_eq_ok_iff]
  constructor
  · rintro ⟨⟨result, inner⟩, hbody, h⟩
    cases h
    exact ⟨inner, hbody, rfl⟩
  · rintro ⟨inner, hbody, rfl⟩
    exact ⟨_, hbody, rfl⟩

/-- A body behaves alike under two kinds of calls if the calls do, up to what is entered: a relation
between what the calls enter that joins up is one between what the bodies enter. -/
theorem runBody_related {body : List Instruction} {Q : Entry → Prop}
    {R : List Entry → List Entry → Prop} (hnil : R [] [])
    (happend : ∀ {first first' later later'}, R first first' → R later later' →
      R (first ++ later) (first' ++ later'))
    (hcall : ∀ target argc, .call target argc ∈ body → ∀ args value trace,
      call target args = .ok (value, trace) → (∀ entry ∈ trace, Q entry) →
        ∃ trace', call' target args = .ok (value, trace') ∧ R trace trace')
    (h : runBody call args body stack = .ok (value, trace)) (hQ : ∀ entry ∈ trace, Q entry) :
    ∃ trace', runBody call' args body stack = .ok (value, trace') ∧ R trace trace' := by
  induction body generalizing stack trace with
  | nil =>
    cases h
    exact ⟨[], rfl, hnil⟩
  | cons i rest ih =>
    have hcalls := fun target argc hmem ↦ hcall target argc (List.mem_cons_of_mem i hmem)
    cases i with
    | call target argc =>
      obtain ⟨result, first, later, hfirst, hlater, rfl⟩ := runBody_call_eq_ok_iff.mp h
      rw [List.forall_mem_append] at hQ
      obtain ⟨first', hfirst', hR⟩ := hcall target argc List.mem_cons_self _ _ _ hfirst hQ.1
      obtain ⟨later', hlater', hR'⟩ := ih hcalls hlater hQ.2
      exact ⟨first' ++ later', runBody_call_eq_ok_iff.mpr ⟨result, _, _, hfirst', hlater', rfl⟩,
        happend hR hR'⟩
    | add =>
      rcases stack with - | ⟨b, - | ⟨a, stack⟩⟩
      · cases h
      · cases h
      · obtain ⟨sum, hsum, hlater⟩ := except_bind_eq_ok_iff.mp h
        obtain ⟨trace', hlater', hR⟩ := ih hcalls hlater hQ
        exact ⟨trace', except_bind_eq_ok_iff.mpr ⟨sum, hsum, hlater'⟩, hR⟩
    | ret =>
      cases h
      exact ⟨[], rfl, hnil⟩
    | exit =>
      cases h
      exact ⟨[], rfl, hnil⟩
    | pushInt n => exact ih hcalls h hQ
    | pushString s => exact ih hcalls h hQ
    | pushFunction name => exact ih hcalls h hQ
    | pushArgument k => exact ih hcalls h hQ
    | pop => exact ih hcalls h hQ
    | nop => exact ih hcalls h hQ

theorem runBody_forall {body : List Instruction} {P : Entry → Prop}
    (hcall : ∀ target argc, .call target argc ∈ body → ∀ args value trace,
      call target args = .ok (value, trace) → ∀ entry ∈ trace, P entry)
    (h : runBody call args body stack = .ok (value, trace)) : ∀ entry ∈ trace, P entry := by
  obtain ⟨trace', -, hentries⟩ : ∃ trace', runBody call args body stack = .ok (value, trace') ∧
      ∀ entry ∈ trace, P entry :=
    runBody_related (Q := fun _ ↦ True) (R := fun first _ ↦ ∀ entry ∈ first, P entry)
      (List.forall_mem_nil P) (fun h h' ↦ List.forall_mem_append.mpr ⟨h, h'⟩)
      (fun target argc hmem args value trace hok _ ↦
        ⟨trace, hok, hcall target argc hmem args value trace hok⟩)
      h (fun _ _ ↦ trivial)
  exact hentries

variable {image : Image} {name : String}

theorem enter_of_resolve {u : CodeUnit} (h : image.resolve name = some u) (depth : Nat) :
    enter image (depth + 1) name args = runUnit (enter image depth) u args := by
  rw [enter, h]

theorem enter_of_resolve_eq_none (h : image.resolve name = none) (depth : Nat) :
    enter image (depth + 1) name args = .ok (.int 0, [.native name args]) := by
  rw [enter, h]

theorem mem_units_of_enter {depth : Nat}
    (h : enter image depth name args = .ok (value, trace)) :
    ∀ entry ∈ trace, ∀ target args', entry = .unit target args' →
      target ∈ image.units.map (·.name) := by
  induction depth generalizing name args value trace with
  | zero => cases h
  | succ depth ih =>
    cases hresolve : image.resolve name with
    | none =>
      rw [enter_of_resolve_eq_none hresolve] at h
      cases h
      exact List.forall_mem_singleton.mpr nofun
    | some v =>
      rw [enter_of_resolve hresolve, runUnit_eq_ok_iff] at h
      obtain ⟨inner, hbody, rfl⟩ := h
      refine List.forall_mem_cons.mpr ⟨?_, runBody_forall (fun _ _ _ _ _ _ hok ↦ ih hok) hbody⟩
      rintro target args' ⟨⟩
      exact List.mem_map_of_mem (Image.mem_units_of_resolve hresolve)

end Machine

end HookPatch
