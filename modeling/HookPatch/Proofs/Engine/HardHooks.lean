import HookPatch.Proofs.Engine.Frames
import HookPatch.Proofs.Engine.LastHook

namespace HookPatch

open Assembly

structure HardHook where
  source : String
  placeholder : String
  redirect : Redirect
  deriving DecidableEq, Repr

namespace HardHook

abbrev unit (h : HardHook) : String := h.redirect.replacement

/-- Whether the unit of a hook is there, for its number of arguments, with its source as body, in
which the placeholder stands for `below`. -/
def Built (h : HardHook) (image : Image) (below : String) : Prop :=
  ∃ u, image.unit? h.unit = some u ∧ u.arity = h.redirect.argc ∧
    AssemblesTo (substitute h.placeholder below h.source) u.body

theorem Built.of_code {h : HardHook} {image image' : Image} {below : String}
    (hbuilt : h.Built image below) (hcode : image'.code.lookup h.unit = image.code.lookup h.unit) :
    h.Built image' below := by
  obtain ⟨u, hu, hargc, hbody⟩ := hbuilt
  rw [Image.lookup_code, Image.lookup_code, hu] at hcode
  obtain ⟨u', hu', heq⟩ := Option.map_eq_some_iff.mp hcode
  obtain ⟨hbody', hargc'⟩ := Prod.mk.inj heq
  exact ⟨u', hu', hargc'.trans hargc, hbody' ▸ hbody⟩

end HardHook

namespace Redirects

variable {t : Redirects} {entries : List (String × Redirect)} {function : String} {r : Redirect}
  {i : Instruction}

/-- If its unit is not redirected itself, a redirection has the last word. -/
theorem pass_eq_apply (hr : t.get? function = some r) (hnone : t.get? r.replacement = none)
    (hhits : r.Hits function i) : pass t.entries i = r.apply function i := by
  have hspared := not_hits_of_get?_eq_none hhits.apply_reference hnone
  rw [pass_of_get? hr hhits, (spared hspared).1, ite_self]

theorem not_hits_pass_of_not_hits (hne : ∀ e ∈ entries, e.2.replacement ≠ function)
    (h : ¬ r.Hits function i) : ¬ r.Hits function (pass entries i) := by
  induction entries generalizing i with
  | nil => exact h
  | cons e entries ih =>
    rw [pass_cons]
    refine ih (fun e' he' ↦ hne e' (List.mem_cons_of_mem _ he')) fun hagain ↦ ?_
    by_cases hhits : e.2.Hits e.1 i
    · have href := hagain.reference
      rw [hhits.apply_reference, Option.some.injEq] at href
      exact hne e List.mem_cons_self href
    · rw [e.2.apply_of_not_hits hhits] at hagain
      exact h hagain

theorem not_hits_pass (hr : (function, r) ∈ entries)
    (hne : ∀ e ∈ entries, e.2.replacement ≠ function) (i : Instruction) :
    ¬ r.Hits function (pass entries i) := by
  induction entries generalizing i with
  | nil => cases hr
  | cons e entries ih =>
    have hrest := fun e' he' ↦ hne e' (List.mem_cons_of_mem e he')
    rw [pass_cons]
    rcases List.mem_cons.mp hr with rfl | hr
    · have hself : r.replacement ≠ function := hne (function, r) List.mem_cons_self
      exact not_hits_pass_of_not_hits hrest (Redirect.not_hits_apply hself i)
    · exact ih hr hrest _

end Redirects

/-- Hooks on top of each other, the lowest first, which wraps `below`. -/
def Tower (image : Image) (below : String) : List HardHook → Prop
  | [] => True
  | h :: hooks => h.Built image below ∧ Tower image h.unit hooks

def summit (below : String) (hooks : List HardHook) : String :=
  (hooks.getLast?.map (·.unit)).getD below

theorem summit_cons (below : String) (h : HardHook) (hooks : List HardHook) :
    summit below (h :: hooks) = summit h.unit hooks := by
  rw [summit, summit, List.getLast?_cons]
  cases hooks.getLast? <;> rfl

theorem tower_concat {image : Image} {below : String} {hooks : List HardHook} {h : HardHook} :
    Tower image below (hooks ++ [h]) ↔
      Tower image below hooks ∧ h.Built image (summit below hooks) := by
  induction hooks generalizing below with
  | nil => simp [Tower, summit]
  | cons g hooks ih => rw [List.cons_append, Tower, Tower, ih, summit_cons, and_assoc]

theorem Tower.of_code {image image' : Image} {below : String} {hooks : List HardHook}
    (h : Tower image below hooks)
    (hcode : ∀ g ∈ hooks, image'.code.lookup g.unit = image.code.lookup g.unit) :
    Tower image' below hooks := by
  induction hooks generalizing below with
  | nil => trivial
  | cons g hooks ih =>
    exact ⟨h.1.of_code (hcode g List.mem_cons_self),
      ih h.2 fun g' hg' ↦ hcode g' (List.mem_cons_of_mem _ hg')⟩

namespace Engine

variable {strictness : Strictness} {w w' : Workspace} {function : String}

def Operation.source? : Operation → Option (String × String)
  | hardHook _ source _ placeholder | arityHook _ source placeholder => some (source, placeholder)
  | _ => none

def Operation.hardHookOf (strictness : Strictness) (function : String) (op : Operation)
    (w : Workspace) : Option HardHook :=
  match op.source?, op.redirect? strictness w with
  | some (source, placeholder), some (target, redirect) =>
    if target = function then some { source, placeholder, redirect } else none
  | _, _ => none

def Operation.created? (strictness : Strictness) : Operation → Workspace → Option String
  | defineFunction name source argc, w =>
    (value? (Engine.defineFunction strictness name source argc) w).map fun _ ↦ name
  | registerExport x modId, w => (value? (x.register strictness modId) w).map fun _ ↦ x.name
  | _, _ => none

def gather {α : Type} (strictness : Strictness) (given? : Operation → Workspace → Option α) :
    List Operation → Workspace → List α
  | [], _ => []
  | op :: ops, w =>
    (given? op w).toList ++ gather strictness given? ops (op.after strictness w)

def hardHooks (strictness : Strictness) (function : String) : List Operation → Workspace →
    List HardHook :=
  gather strictness (Operation.hardHookOf strictness function)

def created (strictness : Strictness) : List Operation → Workspace → List String :=
  gather strictness (Operation.created? strictness)

/-- All that a hard hook does when it succeeds. -/
theorem hardHook_spec {source placeholder fresh : String} {argc : UInt16}
    (hspare : w.image.isCallable function → w.image.HasSpareName function "hook")
    (h : value? (hardHook strictness function source argc placeholder) w = some fresh) :
    ∃ body, w.image.isCallable function ∧ fresh ∉ w.image.names ∧
      AssemblesTo (substitute placeholder (wrapped w.session.redirects function) source) body ∧
      (stateAfter (hardHook strictness function source argc placeholder) w).image =
        w.image.define fresh argc body := by
  rcases hardHook_cases strictness w function source argc placeholder with
    ⟨-, heq⟩ | ⟨name, names, hcall, hnext, ⟨_, heq⟩ | ⟨body, hbody, heq⟩⟩
  · rw [value?, heq] at h; cases h
  · rw [value?, heq] at h; cases h
  · rw [value?, heq, Option.some.injEq] at h
    subst h
    have hfresh := w.session.names.next_fresh (hspare hcall)
    rw [hnext] at hfresh
    rw [stateAfter_ok heq]
    exact ⟨body, hcall, hfresh, assemblesTo_of_assembleFor hbody, rfl⟩

theorem Operation.redirect?_spec {op : Operation} (hreturns : op.Returns w) {r : Redirect}
    (h : op.redirect? strictness w = some (function, r)) :
    ∃ source placeholder body, op.source? = some (source, placeholder) ∧
      op.target? = some function ∧ w.image.isCallable function ∧ r.replacement ∉ w.image.names ∧
      AssemblesTo (substitute placeholder (wrapped w.session.redirects function) source) body ∧
      (op.after strictness w).image = w.image.define r.replacement r.argc body := by
  cases op with
  | hardHook target source argc placeholder =>
    simp only [redirect?, Option.map_eq_some_iff, Prod.mk.injEq] at h
    obtain ⟨name, hvalue, rfl, rfl⟩ := h
    obtain ⟨body, hspec⟩ := hardHook_spec hreturns hvalue
    exact ⟨source, placeholder, body, rfl, rfl, hspec⟩
  | arityHook target source placeholder =>
    simp only [redirect?, Option.bind_eq_some_iff, Option.map_eq_some_iff, Prod.mk.injEq] at h
    obtain ⟨argc, hargc, name, hvalue, rfl, rfl⟩ := h
    have heq : Engine.arityHook strictness target source placeholder w =
        Engine.hardHook strictness target source argc placeholder w := by
      simp only [Engine.arityHook, hargc]
    rw [value?, heq] at hvalue
    obtain ⟨body, hspec⟩ := hardHook_spec (hreturns (hargc ▸ rfl)) hvalue
    refine ⟨source, placeholder, body, rfl, rfl, ?_⟩
    rwa [Operation.after, stateAfter_congr heq]
  | _ => cases h

theorem Operation.hardHookOf_eq_some {op : Operation} {h : HardHook}
    (hh : op.hardHookOf strictness function w = some h) :
    op.source? = some (h.source, h.placeholder) ∧
      op.redirect? strictness w = some (function, h.redirect) := by
  rw [hardHookOf] at hh
  split at hh
  · rename_i source placeholder target redirect hsource hredirect
    split at hh
    · rename_i heq
      cases hh
      exact ⟨hsource, heq ▸ hredirect⟩
    · cases hh
  · cases hh

theorem Operation.hardHookOf_eq_none {op : Operation} (hreturns : op.Returns w)
    (hh : op.hardHookOf strictness function w = none) (r : Redirect) :
    op.redirect? strictness w ≠ some (function, r) := by
  intro hredirect
  obtain ⟨source, placeholder, -, hsource, -⟩ := op.redirect?_spec hreturns hredirect
  simp [hardHookOf, hsource, hredirect] at hh

/-- The hooks of a function stand on each other, in generated units that hold no preserved bodies, and
the last one is pending. -/
structure Stands (w : Workspace) (function : String) (hooks : List HardHook) : Prop where
  housed : w.Housed
  tower : Tower w.image function hooks
  apart : ∀ h ∈ hooks, w.StandsApart h.unit
  generated : ∀ h ∈ hooks, isGenerated h.unit
  pending : w.session.redirects.get? function = hooks.getLast?.map (·.redirect)

theorem Stands.wrapped {hooks : List HardHook} (h : Stands w function hooks) :
    wrapped w.session.redirects function = summit function hooks := by
  rw [Engine.wrapped, h.pending, Option.map_map]
  rfl

theorem Stands.built {hooks : List HardHook} (h : Stands w function hooks) {op : Operation}
    (hop : op ≠ .applyRedirects) (hreturns : op.Returns w) {g : HardHook}
    (hhook : op.hardHookOf strictness function w = some g) :
    g.Built (op.after strictness w).image (summit function hooks) ∧
      (op.after strictness w).StandsApart g.unit ∧ isGenerated g.unit := by
  obtain ⟨hsource, hredirect⟩ := Operation.hardHookOf_eq_some hhook
  obtain ⟨source, placeholder, body, hsource', -, hcall, hfresh, hbody, himage⟩ :=
    op.redirect?_spec hreturns hredirect
  rw [hsource] at hsource'
  cases hsource'
  have hunit := (Image.not_mem_names.mp hfresh).1
  have hcode : (op.after strictness w).image.code.lookup g.unit = some (body, g.redirect.argc) := by
    rw [himage, Image.code_define]
    rw [← Image.map_fst_code] at hunit
    exact lookup_append_cons_self hunit _ []
  have hhooks : (op.after strictness w).session.hooks = w.session.hooks := by
    refine after_hooks hop hreturns fun _ _ _ heq ↦ ?_
    rw [heq] at hsource
    cases hsource
  refine ⟨?_, ⟨Image.mem_names_of_lookup_code hcode, fun other hp ↦ hunit ?_⟩,
    (op.redirect?_anchored hreturns hredirect).2.1⟩
  · obtain ⟨u, hu, hbody', hargc⟩ := Image.unit?_of_lookup_code hcode
    rw [h.wrapped] at hbody
    exact ⟨u, hu, hargc, hbody' ▸ hbody⟩
  · rw [hhooks] at hp
    exact h.housed other _ hp

/-- An operation on no unit of the tower leaves it as it is, or puts one more hook on it. -/
theorem Stands.after {hooks : List HardHook} (h : Stands w function hooks) {op : Operation}
    (hop : op ≠ .applyRedirects) (hreturns : op.Returns w)
    (huntouched : ∀ g ∈ hooks, op.target? ≠ some g.unit) :
    Stands (op.after strictness w) function
      (hooks ++ (op.hardHookOf strictness function w).toList) := by
  have hrecords : w.Records (op.after strictness w) _ := after_records hop
  have htower : Tower (op.after strictness w).image function hooks :=
    h.tower.of_code fun g hg ↦ after_code hop hreturns (h.apart g hg) (huntouched g hg)
  have hapart : ∀ g ∈ hooks, (op.after strictness w).StandsApart g.unit :=
    fun g hg ↦ after_standsApart (h.apart g hg) hop hreturns
  have hhoused : (op.after strictness w).Housed := after_housed h.housed hop hreturns
  cases hhook : op.hardHookOf strictness function w with
  | none =>
    rw [Option.toList_none, List.append_nil]
    refine ⟨hhoused, htower, hapart, h.generated, ?_⟩
    rw [hrecords.redirects, ← h.pending]
    cases hredirect : op.redirect? strictness w with
    | none => rfl
    | some e =>
      have hne : function ≠ e.1 := by
        rintro rfl
        exact Operation.hardHookOf_eq_none hreturns hhook e.2 hredirect
      exact (Redirects.get?_insert _ _ _ _).trans (if_neg hne)
  | some g =>
    obtain ⟨hbuilt, hstandsApart, hgenerated⟩ := h.built hop hreturns hhook
    rw [Option.toList_some]
    constructor
    · exact hhoused
    · exact tower_concat.mpr ⟨htower, hbuilt⟩
    · exact List.forall_mem_append.mpr ⟨hapart, List.forall_mem_singleton.mpr hstandsApart⟩
    · exact List.forall_mem_append.mpr ⟨h.generated, List.forall_mem_singleton.mpr hgenerated⟩
    · rw [hrecords.redirects, (Operation.hardHookOf_eq_some hhook).2, List.getLast?_concat]
      exact (Redirects.get?_insert _ _ _ _).trans (if_pos rfl)

theorem Run.stands {ops : List Operation} (hrun : Run strictness ops w w') {below : List HardHook}
    (h : Stands w function below) (hops : .applyRedirects ∉ ops)
    (huntouched : ∀ g ∈ below ++ hardHooks strictness function ops w, ∀ op ∈ ops,
      op.target? ≠ some g.unit) :
    Stands w' function (below ++ hardHooks strictness function ops w) := by
  induction hrun generalizing below with
  | nil w => rwa [hardHooks, gather, List.append_nil]
  | @cons op ops w w' hreturns _ ih =>
    rw [List.mem_cons, not_or] at hops
    rw [hardHooks, gather, ← List.append_assoc] at huntouched ⊢
    have hafter : Stands (op.after strictness w) function _ :=
      h.after (Ne.symm hops.1) hreturns fun g hg ↦
        huntouched g (List.mem_append_left _ (List.mem_append_left _ hg)) op List.mem_cons_self
    exact ih hafter hops.2 fun g hg op' hop' ↦ huntouched g hg op' (List.mem_cons_of_mem _ hop')

theorem stands_of_fresh (image : Image) (function : String) : Stands { image } function [] where
  housed := Workspace.housed_of_fresh image
  tower := trivial
  apart h hh := by cases hh
  generated h hh := by cases hh
  pending := rfl

theorem Run.get?_of_untouched {ops : List Operation} (hrun : Run strictness ops w w')
    (hops : .applyRedirects ∉ ops) (huntouched : ∀ op ∈ ops, op.target? ≠ some function) :
    w'.session.redirects.get? function = w.session.redirects.get? function := by
  induction hrun with
  | nil => rfl
  | @cons op ops w w' hreturns _ ih =>
    rw [List.mem_cons, not_or] at hops
    rw [ih hops.2 fun op hop ↦ huntouched op (List.mem_cons_of_mem _ hop),
      (after_records (Ne.symm hops.1)).redirects]
    cases hredirect : op.redirect? strictness w with
    | none => rfl
    | some e =>
      have hne : function ≠ e.1 := by
        rintro rfl
        obtain ⟨_, _, _, -, htarget, -⟩ := op.redirect?_spec (r := e.2) hreturns hredirect
        exact huntouched op List.mem_cons_self htarget
      exact (Redirects.get?_insert _ _ _ _).trans (if_neg hne)

theorem isCallable_of_defineFunction {name source : String} {argc : UInt16}
    (h : (value? (defineFunction strictness name source argc) w).isSome) :
    ¬ w.image.isCallable name ∧
      (stateAfter (defineFunction strictness name source argc) w).image.isCallable name := by
  rcases defineFunction_cases strictness w name source argc with
    ⟨_, heq⟩ | ⟨body, hfresh, -, heq⟩
  · rw [value?, heq] at h; cases h
  · have hfree := Image.not_mem_names.mp hfresh
    rw [stateAfter_ok heq, Image.isCallable_iff, Image.isCallable_iff, Image.define_units]
    exact ⟨not_or.mpr ⟨hfree.1, hfree.2.1⟩, .inl (by simp)⟩

theorem Operation.created?_spec {op : Operation}
    (h : op.created? strictness w = some function) :
    ¬ w.image.isCallable function ∧ (op.after strictness w).image.isCallable function ∧
      op.redirect? strictness w = none := by
  cases op with
  | defineFunction name source argc =>
    simp only [created?, Option.map_eq_some_iff] at h
    obtain ⟨_, hvalue, rfl⟩ := h
    obtain ⟨hnot, hcall⟩ := isCallable_of_defineFunction (Option.isSome_of_eq_some hvalue)
    exact ⟨hnot, hcall, rfl⟩
  | registerExport x modId =>
    simp only [created?, Option.map_eq_some_iff] at h
    obtain ⟨_, hvalue, rfl⟩ := h
    rcases register_cases strictness w x modId with ⟨_, _, heq⟩ | ⟨_, image, ids, -, -, hadd, heq⟩
    · rw [value?, heq] at hvalue; cases hvalue
    · obtain ⟨hunits, hfunctions, -⟩ := Export.addNative_spec hadd
      rw [value?, heq, ← value?] at hvalue
      obtain ⟨hnot, hcall⟩ := isCallable_of_defineFunction (Option.isSome_of_eq_some hvalue)
      rw [Image.isCallable_iff, hunits, hfunctions, ← Image.isCallable_iff] at hnot
      rw [Operation.after, stateAfter_congr heq]
      exact ⟨hnot, hcall, rfl⟩
  | _ => cases h

theorem Run.not_mem_created {ops : List Operation} (hrun : Run strictness ops w w')
    (hops : .applyRedirects ∉ ops) (h : w.image.isCallable function) :
    function ∉ created strictness ops w := by
  induction hrun with
  | nil => exact List.not_mem_nil
  | @cons op ops w w' hreturns _ ih =>
    rw [List.mem_cons, not_or] at hops
    rw [created, gather, List.mem_append, not_or]
    refine ⟨fun hmem ↦ ?_, ih hops.2 (after_isCallable (Ne.symm hops.1) hreturns h)⟩
    exact (Operation.created?_spec (Option.mem_toList.mp hmem)).1 h

/-- No pending redirection leads to a function that was there from the start or has been created. -/
theorem Run.replacement_ne {ops : List Operation} (hrun : Run strictness ops w w')
    (hops : .applyRedirects ∉ ops)
    (hdeclared : w.image.isCallable function ∨ function ∈ created strictness ops w)
    (h : ∀ e ∈ w.session.redirects.entries, e.2.replacement ≠ function) :
    ∀ e ∈ w'.session.redirects.entries, e.2.replacement ≠ function := by
  induction hrun with
  | nil => exact h
  | @cons op ops w w' hreturns hrest ih =>
    rw [List.mem_cons, not_or] at hops
    have hafter : w.image.isCallable function → (op.after strictness w).image.isCallable function :=
      after_isCallable (Ne.symm hops.1) hreturns
    rw [created, gather, List.mem_append, Option.mem_toList] at hdeclared
    refine ih hops.2 ?_ fun e he ↦ ?_
    · rcases hdeclared with hcall | hnow | hlater
      · exact .inl (hafter hcall)
      · exact .inl (Operation.created?_spec hnow).2.1
      · exact .inr hlater
    rw [(after_records (Ne.symm hops.1)).redirects] at he
    cases hredirect : op.redirect? strictness w with
    | none =>
      rw [hredirect] at he
      exact h e he
    | some e' =>
      rw [hredirect] at he
      rcases Redirects.mem_insert he with rfl | he
      · obtain ⟨_, _, body, -, -, -, hfresh, -, himage⟩ :=
          op.redirect?_spec (r := e'.2) hreturns hredirect
        rintro rfl
        have hfree := Image.not_mem_names.mp hfresh
        rcases hdeclared with hcall | hnow | hlater
        · exact (Image.isCallable_iff.mp hcall).elim hfree.1 hfree.2.1
        · rw [(Operation.created?_spec hnow).2.2] at hredirect
          cases hredirect
        · refine hrest.not_mem_created hops.2 ?_ hlater
          rw [himage, Image.isCallable_iff, Image.define_units]
          exact .inl (by simp)
      · exact h e he

/-- All hard hooks of a function that is there from the start or that the run creates, for calls with
`n` arguments. Each wraps the one below it. If no operation acts on their units, then in the end all
calls and references lead to the topmost, whatever else has been hooked. -/
theorem run_hardHooks {image : Image} {ops : List Operation}
    (hrun : Run strictness ops { image } w) (hops : .applyRedirects ∉ ops)
    (hdeclared : image.isCallable function ∨ function ∈ created strictness ops { image })
    {lower : List HardHook} {top : HardHook}
    (hhooks : hardHooks strictness function ops { image } = lower ++ [top])
    {n : UInt16} (hargc : ∀ h ∈ lower ++ [top], h.redirect.argc = n)
    (huntouched : ∀ h ∈ lower ++ [top], ∀ op ∈ ops, op.target? ≠ some h.unit) :
    w.session.redirects.get? function = some { replacement := top.unit, argc := n } ∧
      Tower w.image function (lower ++ [top]) ∧
      ∃ count w', applyRedirects w = .ok count w' ∧
        (∀ k : Nat, ∀ u, w.image.units[k]? = some u → u.parent = none → ¬ isGenerated u.name →
          ∃ u', w'.image.units[k]? = some u' ∧ u'.name = u.name ∧ ∀ j : Nat,
            (u.body[j]? = some (.call function n) → u'.body[j]? = some (.call top.unit n)) ∧
            (u.body[j]? = some (.pushFunction function) →
              u'.body[j]? = some (.pushFunction top.unit))) ∧
        (∀ u' ∈ w'.image.units, u'.parent = none → ¬ isGenerated u'.name → ∀ i ∈ u'.body,
          i ≠ .call function n ∧ i ≠ .pushFunction function) ∧
        ∀ h ∈ lower ++ [top], w'.image.unit? h.unit = w.image.unit? h.unit := by
  have hstands := hrun.stands (stands_of_fresh image function) hops
    (by rwa [List.nil_append, hhooks])
  rw [List.nil_append, hhooks] at hstands
  have htop : top ∈ lower ++ [top] := List.mem_concat_self
  have hpending : w.session.redirects.get? function = some top.redirect := by
    rw [hstands.pending, List.getLast?_concat, Option.map_some]
  have hlast : w.session.redirects.get? top.unit = none :=
    hrun.get?_of_untouched hops (huntouched top htop)
  have hback : ∀ e ∈ w.session.redirects.entries, e.2.replacement ≠ function :=
    hrun.replacement_ne hops hdeclared fun e he ↦ by cases he
  have hanchored := hrun.anchored (anchored_of_empty rfl)
  obtain ⟨count, hok⟩ := applyRedirects_of_anchored hanchored
  let g := Redirects.pass w.session.redirects.entries
  have hcall : g (.call function n) = .call top.unit n := by
    rw [← hargc top htop]
    exact (Redirects.pass_eq_apply hpending hlast (.inl rfl)).trans (if_pos rfl)
  have hreference : g (.pushFunction function) = .pushFunction top.unit := by
    refine (Redirects.pass_eq_apply hpending hlast (.inr rfl)).trans ?_
    rw [Redirect.apply, if_neg Instruction.noConfusion, if_pos rfl]
  refine ⟨?_, hstands.tower, count, _, hok, ?_, ?_, ?_⟩
  · rw [hpending, ← hargc top htop]
  · intro k u hu hparent hname
    have hbody := CodeUnit.getElem?_redirectedBy g (CodeUnit.isRedirected_iff.mpr ⟨hparent, hname⟩)
    refine ⟨u.redirectedBy g, ?_, u.redirectedBy_name g, fun j ↦ ⟨fun hj ↦ ?_, fun hj ↦ ?_⟩⟩
    · rw [Image.redirectedBy, List.getElem?_map, hu]
      rfl
    · rw [hbody, hj, Option.map_some, hcall]
    · rw [hbody, hj, Option.map_some, hreference]
  · intro u' hu' hparent hname i hi
    obtain ⟨u, hu, rfl⟩ := List.mem_map.mp hu'
    have hred : u.isRedirected := by
      rw [← u.redirectedBy_isRedirected g]
      exact CodeUnit.isRedirected_iff.mpr ⟨hparent, hname⟩
    rw [CodeUnit.redirectedBy, if_pos hred] at hi
    obtain ⟨i, -, rfl⟩ := List.mem_map.mp hi
    have hpass : ¬ top.redirect.Hits function (g i) :=
      Redirects.not_hits_pass (Redirects.get?_eq_some_iff.mp hpending) hback i
    rw [Redirect.Hits, hargc top htop] at hpass
    exact not_or.mp hpass
  · intro h hh
    exact Image.unit?_redirectedBy_of_isGenerated g w.image (hstands.generated h hh)

def towerHooks : List Operation :=
  [.hardHook "f" "call #orig#(argc=1)\nret" 1 "#orig#", .softHook "f" "call #orig#(argc=1)" "#orig#",
    .defineFunction "late" "call f(argc=1)" 0, .hardHook "late" "ret" 0 "#orig#",
    .arityHook "f" "push.f old" "old"]

theorem run_hardHooks_two :
    ∃ w count w', Run .strict towerHooks { image := aritiesImage } w ∧
      w.session.redirects.get? "f" = some { replacement := "__hook_f_hook_5", argc := 1 } ∧
      Tower w.image "f" [
        ⟨"call #orig#(argc=1)\nret", "#orig#", { replacement := "__hook_f_hook_2", argc := 1 }⟩,
        ⟨"push.f old", "old", { replacement := "__hook_f_hook_5", argc := 1 }⟩] ∧
      applyRedirects w = .ok count w' ∧
      (∃ main, w'.image.units[0]? = some main ∧ main.name = "main" ∧
        main.body[0]? = some (.call "__hook_f_hook_5" 1) ∧
        main.body[2]? = some (.pushFunction "__hook_f_hook_5")) ∧
      w'.image.unit? "__hook_f_hook_2" = w.image.unit? "__hook_f_hook_2" := by
  let w := afterAll .strict towerHooks { image := aritiesImage }
  have hwf := fresh_wellFormed aritiesImage_wellFormed
  have hrun : Run .strict towerHooks { image := aritiesImage } w := run_afterAll hwf (by decide)
  have hhooks : hardHooks .strict "f" towerHooks { image := aritiesImage } =
      [⟨"call #orig#(argc=1)\nret", "#orig#", { replacement := "__hook_f_hook_2", argc := 1 }⟩] ++
        [⟨"push.f old", "old", { replacement := "__hook_f_hook_5", argc := 1 }⟩] := by
    decide +kernel
  obtain ⟨hpending, htower, count, w', hok, hsites, -, hbodies⟩ :=
    run_hardHooks hrun (by simp [towerHooks]) (.inl (by decide)) hhooks (n := 1) (by decide)
      (by simp [towerHooks, Operation.target?, HardHook.unit])
  have hmain : w.image.units[0]? = some {
      name := "main", body := [.call "f" 1, .call "f" 2, .pushFunction "f"],
      children := ["part"] } := by decide +kernel
  obtain ⟨main, hmain', hname, hbody⟩ := hsites 0 _ hmain rfl (by decide)
  exact ⟨w, count, w', hrun, hpending, htower, hok,
    ⟨main, hmain', hname, (hbody 0).1 rfl, (hbody 2).2 rfl⟩, hbodies _ List.mem_cons_self⟩

end Engine

end HookPatch
