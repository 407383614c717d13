import HookPatch.Proofs.Engine.PassThrough
import HookPatch.Proofs.Evaluation.Machine
import Mathlib.Data.List.Count

namespace HookPatch

open Assembly Machine

def Image.RefersTo (image : Image) (name : String) : Prop :=
  (∃ u ∈ image.units, ∃ i ∈ u.body, i.reference? = some name) ∨
    ∃ f ∈ image.functions, f.code = some name

instance (image : Image) (name : String) : Decidable (image.RefersTo name) :=
  inferInstanceAs (Decidable (_ ∨ _))

namespace Machine

variable {call : String → List Value → Outcome} {args stack : List Value}

theorem runBody_pushArguments (ks : List UInt16) (rest : List Instruction) :
    runBody call args (ks.map .pushArgument ++ rest) stack =
      runBody call args rest ((ks.map fun k ↦ args[k.toNat]?.getD (.int 0)).reverse ++ stack) := by
  induction ks generalizing stack with
  | nil => rfl
  | cons k ks ih =>
    rw [List.map_cons, List.cons_append, runBody, ih, List.map_cons, List.reverse_cons,
      List.append_assoc, List.singleton_append]

theorem runBody_forwardBody {argc : UInt16} (hargs : args.length = argc.toNat) (target : String) :
    runBody call args (forwardBody target argc) [] = call target args := by
  let ks := (List.range argc.toNat).map UInt16.ofNat
  have hpushed : ks.map (fun k ↦ args[k.toNat]?.getD (.int 0)) = args := by
    refine List.ext_getElem ?_ fun i hi hi' ↦ ?_
    · simp only [ks, List.length_map, List.length_range, hargs]
    · have hlt : i < UInt16.size := Nat.lt_of_lt_of_le (hargs ▸ hi') (Nat.le_of_lt argc.toNat_lt)
      simp only [ks, List.getElem_map, List.getElem_range, UInt16.toNat_ofNat_of_lt' hlt,
        List.getElem?_eq_getElem hi', Option.getD_some]
  have hbody : forwardBody target argc = ks.map .pushArgument ++ [.call target argc, .ret] := by
    rw [forwardBody, List.map_map]
    rfl
  rw [hbody, runBody_pushArguments, hpushed, List.append_nil, runBody, ← hargs,
    List.take_of_length_le (by simp), List.reverse_reverse]
  cases h : call target args with
  | error fault => rfl
  | ok outcome =>
    simp only [bind, Except.bind, runBody, pure, Except.pure, List.headD_cons, List.append_nil]

end Machine

namespace Image

theorem Leads.last {image : Image} {body : List Instruction} {argc : UInt16} {name : String}
    {ps : List String} (h : image.Leads body argc name ps) :
    image.code.lookup (ps.getLastD name) = some (body, argc) := by
  induction ps generalizing name with
  | nil => exact h
  | cons p ps ih =>
    rw [List.getLastD_cons]
    exact ih h.2

/-- A call of bodies that hand on goes through all of them and does what the last one does. -/
theorem Leads.enter_eq {image : Image} {body : List Instruction} {argc : UInt16} {name : String}
    {ps : List String} (h : image.Leads body argc name ps) {args : List Value}
    (hargs : args.length = argc.toNat) {depth : Nat} {value : Value} {trace : List Machine.Entry}
    (hbody : runBody (enter image depth) args body [] = .ok (value, trace)) :
    enter image (depth + ps.length + 1) name args =
      .ok (value, (name :: ps).map (.unit · args) ++ trace) := by
  induction ps generalizing name with
  | nil =>
    obtain ⟨v, hv, rfl, -⟩ := unit?_of_lookup_code h
    obtain ⟨-, rfl⟩ := unit?_eq_some hv
    rw [enter_of_resolve (resolve_of_unit? hv), runUnit_eq_ok_iff]
    exact ⟨trace, hbody, rfl⟩
  | cons p ps ih =>
    obtain ⟨v, hv, hforward, -⟩ := unit?_of_lookup_code h.1
    obtain ⟨-, rfl⟩ := unit?_eq_some hv
    rw [enter_of_resolve (resolve_of_unit? hv), runUnit_eq_ok_iff, hforward,
      runBody_forwardBody hargs]
    exact ⟨_, ih h.2, rfl⟩

end Image

/-- What is entered in place of an entry when `ps` hand on the calls of the unit `name`. -/
def forwarded (name : String) (ps : List String) : Machine.Entry → List Machine.Entry
  | .unit target args =>
    if target = name then (name :: ps).map (.unit · args) else [.unit target args]
  | .native target args => [.native target args]

/-- The unit that has the body of the unit `target` when `ps`, newest first, hand on for `name`. -/
def bodyHolder (name : String) (ps : List String) (target : String) : String :=
  if target = name then ps.getLastD name else target

theorem bodyHolder_mem_iff {name : String} {ps : List String} {target : String}
    (h : target ∉ ps) : bodyHolder name ps target ∈ name :: ps ↔ target = name := by
  rw [bodyHolder]
  split
  · rename_i heq
    exact iff_of_true List.getLastD_mem_cons heq
  · rename_i hne
    exact iff_of_false (List.not_mem_cons_of_ne_of_not_mem hne h) hne

theorem count_forwarded {name : String} {ps : List String} (hnodup : (name :: ps).Nodup)
    {target : String} (htarget : target ∉ ps) (args : List Value) {entry : Machine.Entry}
    (hentry : ∀ other args', entry = .unit other args' → other ∉ ps) :
    (forwarded name ps entry).count (.unit (bodyHolder name ps target) args) =
      if entry = .unit target args then 1 else 0 := by
  have hholder : bodyHolder name ps target ∈ name :: ps ↔ target = name :=
    bodyHolder_mem_iff htarget
  cases entry with
  | native other args' => simp [forwarded]
  | unit other args' =>
    have hother : other ∉ ps := hentry other args' rfl
    rw [forwarded]
    by_cases heq : other = name
    · subst heq
      rw [if_pos rfl]
      by_cases hargs : args' = args
      · have hinjective : Function.Injective (Machine.Entry.unit · args') := by
          rintro p q ⟨⟩
          rfl
        rw [← hargs, List.count_map_of_injective _ _ hinjective, hnodup.count]
        simp only [hholder, Machine.Entry.unit.injEq, and_true, eq_comm]
      · rw [if_neg (by simp [hargs]), List.count_eq_zero]
        intro hmem
        obtain ⟨p, -, heq⟩ := List.mem_map.mp hmem
        exact hargs (Machine.Entry.unit.inj heq).2
    · rw [if_neg heq, List.count_singleton]
      have hsame : other = bodyHolder name ps target ↔ other = target := by
        by_cases hname : target = name
        · refine iff_of_false (fun h ↦ ?_) (hname ▸ heq)
          exact List.not_mem_cons_of_ne_of_not_mem heq hother (h ▸ hholder.mpr hname)
        · rw [bodyHolder, if_neg hname]
      simp only [beq_iff_eq, Machine.Entry.unit.injEq, hsame]

/-- A body runs as often, and with the same arguments, as before its calls were handed on. -/
theorem count_flatMap_forwarded {name : String} {ps : List String} (hnodup : (name :: ps).Nodup)
    {target : String} (htarget : target ∉ ps) (args : List Value) {trace : List Machine.Entry}
    (htrace : ∀ entry ∈ trace, ∀ other args', entry = .unit other args' → other ∉ ps) :
    (trace.flatMap (forwarded name ps)).count (.unit (bodyHolder name ps target) args) =
      trace.count (.unit target args) := by
  induction trace with
  | nil => rfl
  | cons entry trace ih =>
    rw [List.forall_mem_cons] at htrace
    rw [List.flatMap_cons, List.count_append, count_forwarded hnodup htarget args htrace.1,
      ih htrace.2, List.count_cons, Nat.add_comm]
    simp only [beq_iff_eq]

namespace Forwards

variable {u : CodeUnit} {image image' : Image} {ps : List String}

theorem isSome_unit? (h : Forwards u image image' ps) (hu : image.unit? u.name = some u)
    {name : String} (hname : name ∉ ps) :
    (image'.unit? name).isSome = (image.unit? name).isSome := by
  by_cases heq : name = u.name
  · rw [heq, hu, Image.isSome_unit?.mpr (h.leads.mem_units u.name List.mem_cons_self)]
    rfl
  · have hlookup := h.others name heq hname
    rw [Image.lookup_code, Image.lookup_code] at hlookup
    rw [← Option.isSome_map, hlookup, Option.isSome_map]

theorem function?_eq (h : Forwards u image image' ps) {name : String} (hname : name ∉ ps) :
    image'.function? name = image.function? name := by
  have hnone : (ps.reverse.map fun p ↦ (⟨p, some p⟩ : Declaration)).find? (·.name = name) = none := by
    rw [List.find?_eq_none]
    intro f hf
    obtain ⟨p, hp, rfl⟩ := List.mem_map.mp hf
    simp only [decide_eq_true_eq]
    rintro rfl
    exact hname (List.mem_reverse.mp hp)
  rw [Image.function?, Image.function?, h.functions, List.find?_append, hnone, Option.or_none]

theorem resolve_cases (h : Forwards u image image' ps) (hu : image.unit? u.name = some u)
    (hps : ∀ p ∈ ps, ¬image.RefersTo p) {name : String} (hname : name ∉ ps) :
    image.resolve name = none ∧ image'.resolve name = none ∨
    ∃ v v', image.resolve name = some v ∧ image'.resolve name = some v' ∧
      image.unit? v.name = some v ∧ image'.unit? v.name = some v' := by
  have hunit : ∀ target ∉ ps, image.unit? target = none ∧ image'.unit? target = none ∨
      ∃ v v', image.unit? target = some v ∧ image'.unit? target = some v' := by
    intro target htarget
    have hsome := h.isSome_unit? hu htarget
    cases hv : image.unit? target with
    | none =>
      rw [hv, Option.isSome_none, Option.isSome_eq_false_iff, Option.isNone_iff_eq_none] at hsome
      exact .inl ⟨rfl, hsome⟩
    | some v =>
      rw [hv, Option.isSome_some, Option.isSome_iff_exists] at hsome
      obtain ⟨v', hv'⟩ := hsome
      exact .inr ⟨v, v', rfl, hv'⟩
  rcases hunit name hname with ⟨hnone, hnone'⟩ | ⟨v, v', hv, hv'⟩
  · rw [Image.resolve, Image.resolve, hnone, hnone', h.function?_eq hname]
    cases hf : image.function? name with
    | none => exact .inl ⟨rfl, rfl⟩
    | some f =>
      cases hcode : f.code with
      | none => exact .inl ⟨by simp [hcode], by simp [hcode]⟩
      | some target =>
        have htarget : target ∉ ps := fun hp ↦
          hps target hp (.inr ⟨f, List.mem_of_find?_eq_some hf, hcode⟩)
        rcases hunit target htarget with ⟨hnone, hnone'⟩ | ⟨v, v', hv, hv'⟩
        · exact .inl ⟨by simp [hcode, hnone], by simp [hcode, hnone']⟩
        · obtain ⟨-, rfl⟩ := Image.unit?_eq_some hv
          exact .inr ⟨v, v', by simp [hcode, hv], by simp [hcode, hv'], hv, hv'⟩
  · obtain ⟨-, rfl⟩ := Image.unit?_eq_some hv
    exact .inr ⟨v, v', Image.resolve_of_unit? hv, Image.resolve_of_unit? hv', hv, hv'⟩

theorem body_eq (h : Forwards u image image' ps) {v v' : CodeUnit}
    (hv : image.unit? v.name = some v) (hv' : image'.unit? v.name = some v')
    (hne : v.name ≠ u.name) : v'.body = v.body := by
  have hname : v.name ∉ ps := fun hp ↦
    h.fresh v.name hp (List.mem_map_of_mem (Image.unit?_eq_some hv).1)
  have hlookup := h.others v.name hne hname
  rw [Image.lookup_code, Image.lookup_code, hv, hv'] at hlookup
  exact (Prod.mk.inj (Option.some.inj hlookup)).1

/-- A run of the image before the hooks is one of the image after them, if every call may be as much
deeper as there are hooks. -/
theorem enter_eq (h : Forwards u image image' ps) (hu : image.unit? u.name = some u)
    (hps : ∀ p ∈ ps, ¬image.RefersTo p) {depth depth' : Nat} {name : String} {args : List Value}
    {value : Value} {trace : List Machine.Entry} (hname : name ∉ ps)
    (hok : enter image depth name args = .ok (value, trace))
    (hargs : ∀ entry ∈ trace, ∀ args', entry = .unit u.name args' → args'.length = u.arity.toNat)
    (hdepth : depth * (ps.length + 1) ≤ depth') :
    enter image' depth' name args = .ok (value, trace.flatMap (forwarded u.name ps)) := by
  induction depth generalizing depth' name args value trace with
  | zero => cases hok
  | succ depth ih =>
    obtain ⟨k, rfl⟩ : ∃ k, depth' = k + ps.length + 1 :=
      ⟨depth' - (ps.length + 1), by rw [Nat.succ_mul] at hdepth; omega⟩
    have hk : depth * (ps.length + 1) ≤ k := by rw [Nat.succ_mul] at hdepth; omega
    rcases h.resolve_cases hu hps hname with ⟨hnone, hnone'⟩ | ⟨v, v', hv, hv', hunit, hunit'⟩
    · rw [enter_of_resolve_eq_none hnone] at hok
      cases hok
      exact enter_of_resolve_eq_none hnone' _
    rw [enter_of_resolve hv, runUnit_eq_ok_iff] at hok
    obtain ⟨inner, hbody, rfl⟩ := hok
    rw [List.forall_mem_cons] at hargs
    have hinner : ∀ e, depth * (ps.length + 1) ≤ e →
        runBody (enter image' e) args v.body [] =
          .ok (value, inner.flatMap (forwarded u.name ps)) := by
      intro e he
      have htarget : ∀ target argc, .call target argc ∈ v.body → target ∉ ps :=
        fun target argc hmem hp ↦
          hps target hp (.inl ⟨v, (Image.unit?_eq_some hunit).1, _, hmem, rfl⟩)
      obtain ⟨trace', hrun, rfl⟩ : ∃ trace', runBody (enter image' e) args v.body [] =
          .ok (value, trace') ∧ trace' = inner.flatMap (forwarded u.name ps) :=
        runBody_related (R := fun first first' ↦ first' = first.flatMap (forwarded u.name ps)) rfl
          (by rintro _ _ _ _ rfl rfl; exact List.flatMap_append.symm)
          (fun target argc hmem args value trace hok hargs ↦
            ⟨_, ih (htarget target argc hmem) hok hargs he, rfl⟩)
          hbody hargs.2
      exact hrun
    obtain ⟨-, hname'⟩ := Image.unit?_eq_some hunit'
    by_cases heq : v.name = u.name
    · -- the hooks use up `ps.length` levels, and the body runs with the `k` that are left
      obtain rfl : v = u := Option.some.inj ((heq ▸ hunit).symm.trans hu)
      have hlast := h.leads.enter_eq (hargs.1 args rfl) (hinner k hk)
      rw [enter_of_resolve hv', ← enter_of_resolve (Image.resolve_of_unit? hunit'), hlast,
        List.flatMap_cons, forwarded, if_pos rfl]
    · rw [enter_of_resolve hv', runUnit_eq_ok_iff, h.body_eq hunit hunit' heq]
      refine ⟨_, hinner _ (Nat.le_add_right_of_le hk), ?_⟩
      rw [List.flatMap_cons, forwarded, if_neg heq, hname']
      rfl

theorem unit?_bodyHolder (h : Forwards u image image' ps) (hu : image.unit? u.name = some u)
    {v : CodeUnit} (hv : image.unit? v.name = some v) :
    ∃ v', image'.unit? (bodyHolder u.name ps v.name) = some v' ∧ v'.body = v.body := by
  rw [bodyHolder]
  split
  · rename_i heq
    obtain rfl : v = u := Option.some.inj ((heq ▸ hv).symm.trans hu)
    obtain ⟨v', hv', hbody, -⟩ := Image.unit?_of_lookup_code h.leads.last
    exact ⟨v', hv', hbody⟩
  · rename_i hne
    have hname : v.name ∉ ps := fun hp ↦
      h.fresh v.name hp (List.mem_map_of_mem (Image.unit?_eq_some hv).1)
    have hsome := h.isSome_unit? hu hname
    rw [hv, Option.isSome_some, Option.isSome_iff_exists] at hsome
    obtain ⟨v', hv'⟩ := hsome
    exact ⟨v', hv', h.body_eq hv hv' hne⟩

end Forwards

namespace Engine

/-- Hooks that only hand on leave a program as it was: a run that comes to an end does so with the
same result, and enters the hooked unit, then the preserved ones, newest first, where it entered the
hooked unit. Each body runs as often as before. -/
theorem run_forwards_enter {u : CodeUnit} {strictness : Strictness} {n : Nat} {w w' : Workspace}
    (hnodup : (w.image.units.map (·.name)).Nodup) (hu : u ∈ w.image.units)
    (hname : isIdentifier u.name.toList)
    (hrun : Run strictness (List.replicate n (forwardHook u)) w w')
    (hspares : SparesAll strictness u.name (List.replicate n (forwardHook u)) w) {ps : List String}
    (hps : w'.session.hooks.chain u.name = w.session.hooks.chain u.name ++ ps)
    (hrefers : ∀ p ∈ ps, ¬w.image.RefersTo p) {depth : Nat} {entry : String} (hentry : entry ∉ ps)
    {args : List Value} {value : Value} {trace : List Machine.Entry}
    (hok : enter w.image depth entry args = .ok (value, trace))
    (hargs : ∀ args', .unit u.name args' ∈ trace → args'.length = u.arity.toNat) :
    enter w'.image (depth * (n + 1)) entry args =
      .ok (value, trace.flatMap (forwarded u.name ps.reverse)) ∧
    ∀ v ∈ w.image.units, ∃ v',
      w'.image.unit? (bodyHolder u.name ps.reverse v.name) = some v' ∧ v'.body = v.body ∧
      ∀ args', (trace.flatMap (forwarded u.name ps.reverse)).count (.unit v'.name args') =
        trace.count (.unit v.name args') := by
  have hunit := (Image.unit?_eq_some_iff hnodup).mpr ⟨hu, rfl⟩
  obtain ⟨later, h, hlength, hchain⟩ := hrun.forwards hu hname hspares (.initial hnodup hu)
  obtain rfl : later = ps := List.append_cancel_left (hchain.symm.trans hps)
  rw [List.append_nil] at h
  constructor
  · refine h.enter_eq hunit (by simpa using hrefers) (by simpa using hentry) hok ?_ ?_
    · rintro _ hmem args' rfl
      exact hargs args' hmem
    · rw [List.length_reverse, hlength]
  · intro v hv
    have hv := (Image.unit?_eq_some_iff hnodup).mpr ⟨hv, rfl⟩
    obtain ⟨v', hv', hbody⟩ := h.unit?_bodyHolder hunit hv
    refine ⟨v', hv', hbody, fun args' ↦ ?_⟩
    rw [(Image.unit?_eq_some hv').2]
    have hmem : ∀ target ∈ w.image.units.map (·.name), target ∉ later.reverse :=
      fun target htarget hp ↦ h.fresh target hp htarget
    refine count_flatMap_forwarded (List.nodup_cons.mpr ⟨?_, h.nodup⟩) ?_ args' ?_
    · exact hmem u.name (List.mem_map_of_mem hu)
    · exact hmem v.name (List.mem_map_of_mem (Image.unit?_eq_some hv).1)
    · intro e he target args' heq
      exact hmem target (mem_units_of_enter hok e he target args' heq)

def scoreUnit : CodeUnit :=
  { name := "score", body := [.pushArgument 0, .pushInt 1, .add, .ret], arity := 1 }

def scoringImage : Image where
  units := [{ name := "main", body := [.call "beep" 0, .pop, .pushInt 10, .call "score" 1,
    .call "alias" 1, .ret] }, scoreUnit]
  functions := [⟨"alias", some "score"⟩]

theorem run_forwards_enter_score :
    ∃ w, Run .strict (List.replicate 2 (forwardHook scoreUnit)) { image := scoringImage } w ∧
      enter scoringImage 2 "main" [] = .ok (.int 12, [.unit "main" [], .native "beep" [],
        .unit "score" [.int 10], .unit "score" [.int 11]]) ∧
      enter w.image 6 "main" [] = .ok (.int 12, [.unit "main" [], .native "beep" [],
        .unit "score" [.int 10], .unit "__hook_score_orig_2" [.int 10],
        .unit "__hook_score_orig_1" [.int 10],
        .unit "score" [.int 11], .unit "__hook_score_orig_2" [.int 11],
        .unit "__hook_score_orig_1" [.int 11]]) ∧
      ∃ v, w.image.unit? "__hook_score_orig_1" = some v ∧ v.body = scoreUnit.body := by
  let w := afterAll .strict (List.replicate 2 (forwardHook scoreUnit)) { image := scoringImage }
  have hwf : Workspace.WellFormed { image := scoringImage } := fresh_wellFormed (by decide)
  have hrun : Run .strict (List.replicate 2 (forwardHook scoreUnit)) { image := scoringImage } w :=
    run_afterAll hwf (by decide)
  have hu : scoreUnit ∈ scoringImage.units := by decide
  have hok : enter scoringImage 2 "main" [] = .ok (.int 12, [.unit "main" [], .native "beep" [],
      .unit "score" [.int 10], .unit "score" [.int 11]]) := by decide +kernel
  have hchain : w.session.hooks.chain "score" =
      ({ image := scoringImage } : Workspace).session.hooks.chain "score" ++
        ["__hook_score_orig_1", "__hook_score_orig_2"] := by decide +kernel
  obtain ⟨henter, hbodies⟩ := run_forwards_enter hwf.image.units_nodup hu (by decide) hrun
    (by decide +kernel) hchain (by decide +kernel) (by decide) hok (by simp [scoreUnit])
  obtain ⟨v, hv, hbody, -⟩ := hbodies scoreUnit hu
  exact ⟨w, hrun, hok, henter, v, hv, hbody⟩

end Engine

end HookPatch
