import HookPatch.Proofs.Assembly.Printing
import HookPatch.Proofs.Engine.HookRow
import HookPatch.Proofs.Image.Code

namespace HookPatch

open Assembly Text

def forwardBody (target : String) (argc : UInt16) : List Instruction :=
  (List.range argc.toNat).map (fun i ↦ .pushArgument (UInt16.ofNat i)) ++ [.call target argc, .ret]

def forwardSource (argc : UInt16) : String :=
  "\n".intercalate ((forwardBody defaultPlaceholder argc).map line)

theorem intercalate_append_cons {α : Type} (separator : List α) (parts : List (List α)) (part : List α)
    (rest : List (List α)) : separator.intercalate (parts ++ part :: rest) =
      parts.flatMap (· ++ separator) ++ separator.intercalate (part :: rest) := by
  induction parts with
  | nil => rfl
  | cons p parts ih =>
    rw [List.cons_append, List.intercalate_cons_of_ne_nil (by simp), ih, List.flatMap_cons]
    simp only [List.append_assoc]

def forwardStart (argc : UInt16) : List Char :=
  (List.range argc.toNat).flatMap (fun i ↦ (line (.pushArgument (UInt16.ofNat i))).toList ++ ['\n']) ++
    "call ".toList

def forwardEnd (argc : UInt16) : List Char :=
  "(argc=".toList ++ (toString argc.toNat).toList ++ ")".toList ++ ['\n'] ++ "ret".toList

theorem toList_printed_forwardBody (target : String) (argc : UInt16) :
    ("\n".intercalate ((forwardBody target argc).map line)).toList =
      forwardStart argc ++ target.toList ++ forwardEnd argc := by
  have hcall : (line (.call target argc)).toList = "call ".toList ++ target.toList ++
      "(argc=".toList ++ (toString argc.toNat).toList ++ ")".toList := by
    rw [line, String.toList_append, String.toList_append, String.toList_append,
      String.toList_append]
  have hlast : ['\n'].intercalate [(line (.call target argc)).toList, (line .ret).toList] =
      "call ".toList ++ target.toList ++ forwardEnd argc := by
    unfold forwardEnd
    rw [List.intercalate_cons_cons, List.intercalate_singleton, hcall]
    simp only [List.append_assoc]
    rfl
  rw [String.toList_intercalate, forwardBody, List.map_append, List.map_append]
  refine (intercalate_append_cons ['\n'] _ _ _).trans ?_
  rw [List.map_cons, List.map_nil, List.map_cons, List.map_nil, hlast, forwardStart, List.map_map,
    List.map_map, List.flatMap_map]
  simp only [List.append_assoc, Function.comp_apply]

theorem not_mem_forwardStart (argc : UInt16) : '#' ∉ forwardStart argc := by
  rw [forwardStart, List.mem_append, List.mem_flatMap, not_or]
  refine ⟨?_, by decide⟩
  rintro ⟨i, -, hmem⟩
  have hi : (Instruction.pushArgument (UInt16.ofNat i)).WellNamed := nofun
  rcases List.mem_append.mp hmem with hmem | hmem
  · exact absurd (isPrinted_line hi nofun _ hmem) (by decide)
  · exact absurd hmem (by decide)

theorem not_mem_forwardEnd (argc : UInt16) : '#' ∉ forwardEnd argc := by
  unfold forwardEnd
  simp only [List.mem_append, not_or]
  refine ⟨⟨⟨⟨by decide, fun hmem ↦ ?_⟩, by decide⟩, by decide⟩, by decide⟩
  exact absurd (isPrinted_toString_nat argc.toNat _ hmem) (by decide)

theorem substitute_forwardSource (argc : UInt16) (target : String) :
    substitute defaultPlaceholder target (forwardSource argc) =
      "\n".intercalate ((forwardBody target argc).map line) := by
  have htoken : defaultPlaceholder.toList = '#' :: "orig#".toList := rfl
  rw [← String.toList_inj, substitute, String.toList_ofList, forwardSource,
    toList_printed_forwardBody, toList_printed_forwardBody, htoken]
  exact replaceAll_once (not_mem_forwardStart argc) (not_mem_forwardEnd argc) _ _

example : substitute defaultPlaceholder "f" (forwardSource 2) =
    "push.a 0\npush.a 1\ncall f(argc=2)\nret" := by decide +kernel

theorem isIdentifier_append {s t : List Char} (hs : isIdentifier s) (ht : ∀ c ∈ t, isIdentifierChar c) :
    isIdentifier (s ++ t) := by
  obtain ⟨hne, hchars⟩ := isIdentifier_iff.mp hs
  exact isIdentifier_iff.mpr ⟨List.append_ne_nil_of_left_ne_nil hne t,
    List.forall_mem_append.mpr ⟨hchars, ht⟩⟩

theorem isIdentifier_name {base role : String} (hbase : isIdentifier base.toList)
    (hrole : isIdentifier role.toList) (n : UInt32) :
    isIdentifier (GeneratedNames.name base role n).toList := by
  have hmark : isIdentifier generatedMark.toList := by decide
  have hnumber : ∀ c ∈ (toString n.toNat).toList, isIdentifierChar c := by
    rw [Nat.toString_eq_repr, Nat.toList_repr]
    exact (isIdentifier_iff.mp (isIdentifier_of_digits (digits_toDigits n.toNat))).2
  simp only [GeneratedNames.name, String.toList_append]
  refine isIdentifier_append (isIdentifier_append (isIdentifier_append (isIdentifier_append
    (isIdentifier_append hmark ?_) ?_) ?_) ?_) hnumber
  · exact (isIdentifier_iff.mp hbase).2
  · exact List.all_eq_true.mp (by decide)
  · exact (isIdentifier_iff.mp hrole).2
  · exact List.all_eq_true.mp (by decide)

theorem reference_forwardBody {target : String} {argc : UInt16} {i : Instruction}
    (hi : i ∈ forwardBody target argc) : ∀ name ∈ i.reference?, name = target := by
  rw [forwardBody, List.mem_append, List.mem_map] at hi
  rcases hi with ⟨k, -, rfl⟩ | hi
  · exact nofun
  · simp only [List.mem_cons, List.not_mem_nil, or_false] at hi
    rcases hi with rfl | rfl
    · exact fun name hname ↦ (Option.mem_some.mp hname).symm
    · exact nofun

theorem assemblesTo_forwardBody {target : String} (h : isIdentifier target.toList) (argc : UInt16) :
    AssemblesTo (substitute defaultPlaceholder target (forwardSource argc))
      (forwardBody target argc) := by
  rw [substitute_forwardSource]
  exact assemblesTo_printed fun i hi name hname ↦ reference_forwardBody hi name hname ▸ h

namespace Engine

theorem softHook_lookup {strictness : Strictness} {w : Workspace}
    (hnodup : (w.image.units.map (·.name)).Nodup) {code source placeholder : String}
    (hspare : (w.image.unit? code).isSome → w.image.HasSpareName code "orig")
    (hsucceeds : succeeds (softHook strictness code source placeholder) w) :
    ∃ w' n name body old argc, stateAfter (softHook strictness code source placeholder) w = w' ∧
      name = GeneratedNames.name code "orig" n ∧ name ∉ w.image.names ∧
      w.image.code.lookup code = some (old, argc) ∧
      AssemblesTo (substitute placeholder name source) body ∧
      (∀ other, w'.image.code.lookup other = if other = code then some (body, argc)
        else if other = name then some (old, argc) else w.image.code.lookup other) ∧
      w'.image.functions = w.image.functions ++ [⟨name, some name⟩] ∧
      w'.session.hooks = w.session.hooks.record code name ∧
      (w'.image.units.map (·.name)).Nodup := by
  obtain ⟨preserved, w'', hok⟩ := succeeds_iff.mp hsucceeds
  rcases softHook_code strictness source placeholder hspare with
    heq | ⟨w', l₁, u, l₂, n, name, body, heq, rfl, hunits, hn, hfresh, hcode, hfunctions, hhooks, hbody⟩
  · rw [hok] at heq; cases heq
  have hunit := (Image.not_mem_names.mp hfresh).1
  have hold : w.image.code = l₁.map CodeUnit.code ++ (u.name, u.body, u.arity) ::
      l₂.map CodeUnit.code := by
    rw [Image.code, hunits, List.map_append, List.map_cons]
    rfl
  rw [← Image.map_fst_code, hold, List.map_append, List.map_cons] at hnodup hunit
  have hdistinct := (List.nodup_cons.mp (List.nodup_middle.mp hnodup)).1
  rw [List.mem_append, not_or] at hdistinct
  rw [List.mem_append, List.mem_cons, not_or, not_or] at hunit
  refine ⟨w', n, name, body, u.body, u.arity, heq, hn, hfresh, ?_, hbody _ _ hok, fun other ↦ ?_,
    hfunctions, hhooks, ?_⟩
  · rw [hold, lookup_append_cons_self hdistinct.1]
  · rw [hcode, hold]
    by_cases hother : other = u.name
    · rw [if_pos hother, hother, lookup_append_cons_self hdistinct.1]
    rw [if_neg hother, lookup_append_cons_of_ne hother, lookup_append_cons_of_ne hother]
    by_cases hname : other = name
    · rw [if_pos hname, hname, lookup_append_cons_self hunit.1]
    · rw [if_neg hname, lookup_append_cons_of_ne hname]
  · have hnames := List.nodup_cons.mpr ⟨mt List.mem_append.mp (not_or.mpr ⟨hunit.1, ?_⟩), hnodup⟩
    · rw [← Image.map_fst_code, hcode, List.map_append, List.map_cons, List.map_cons]
      refine (List.Perm.nodup_iff ?_).mpr hnames
      exact ((List.Perm.swap name u.name _).append_left _).trans List.perm_middle
    · rw [List.mem_cons, not_or]
      exact hunit.2

end Engine

/-- Bodies that hand on, each to the next, down to a last one. -/
def Image.Leads (image : Image) (body : List Instruction) (argc : UInt16) (name : String) :
    List String → Prop
  | [] => image.code.lookup name = some (body, argc)
  | p :: ps => image.code.lookup name = some (forwardBody p argc, argc) ∧ image.Leads body argc p ps

theorem Image.Leads.congr {image image' : Image} {body : List Instruction} {argc : UInt16}
    {name name' : String} {ps : List String} (h : image.Leads body argc name ps)
    (hname : image'.code.lookup name' = image.code.lookup name)
    (hps : ∀ p ∈ ps, image'.code.lookup p = image.code.lookup p) :
    image'.Leads body argc name' ps := by
  induction ps generalizing name name' with
  | nil => exact hname.trans h
  | cons p ps ih =>
    exact ⟨hname.trans h.1, ih h.2 (hps p List.mem_cons_self)
      fun q hq ↦ hps q (List.mem_cons_of_mem _ hq)⟩

theorem Image.Leads.mem_units {image : Image} {body : List Instruction} {argc : UInt16}
    {name : String} {ps : List String} (h : image.Leads body argc name ps) :
    ∀ p ∈ name :: ps, p ∈ image.units.map (·.name) := by
  induction ps generalizing name with
  | nil => exact List.forall_mem_singleton.mpr (mem_names_of_lookup_code h)
  | cons p ps ih => exact List.forall_mem_cons.mpr ⟨mem_names_of_lookup_code h.1, ih h.2⟩

theorem Image.Leads.argc_eq {image : Image} {body old : List Instruction} {argc argc' : UInt16}
    {name : String} {ps : List String} (h : image.Leads body argc name ps)
    (hold : image.code.lookup name = some (old, argc')) : argc' = argc := by
  cases ps with
  | nil => exact (Prod.mk.inj (Option.some.inj (hold.symm.trans h))).2
  | cons p ps => exact (Prod.mk.inj (Option.some.inj (hold.symm.trans h.1))).2

/-- An image before and after hooks of the unit `u` that only hand on, of which `ps` are the preserved
units, newest first. -/
structure Forwards (u : CodeUnit) (image image' : Image) (ps : List String) : Prop where
  units_nodup : (image'.units.map (·.name)).Nodup
  nodup : ps.Nodup
  fresh : ∀ p ∈ ps, p ∉ image.units.map (·.name)
  leads : image'.Leads u.body u.arity u.name ps
  others : ∀ name, name ≠ u.name → name ∉ ps → image'.code.lookup name = image.code.lookup name
  functions : image'.functions = image.functions ++ ps.reverse.map fun p ↦ ⟨p, some p⟩

namespace Forwards

variable {u : CodeUnit} {image : Image} {ps : List String}

theorem initial (hnodup : (image.units.map (·.name)).Nodup) (hu : u ∈ image.units) :
    Forwards u image image [] where
  units_nodup := hnodup
  nodup := List.nodup_nil
  fresh p hp := by cases hp
  leads := by
    have hunit := (Image.unit?_eq_some_iff hnodup).mpr ⟨hu, rfl⟩
    rw [Image.Leads, Image.lookup_code, hunit]
    rfl
  others name _ _ := rfl
  functions := (List.append_nil _).symm

theorem units_subset {image' : Image} (h : Forwards u image image' ps) :
    image.units.map (·.name) ⊆ image'.units.map (·.name) := by
  intro name hname
  by_cases hu : name = u.name
  · exact hu ▸ h.leads.mem_units u.name List.mem_cons_self
  · rw [← Image.isSome_unit?] at hname ⊢
    have hlookup := h.others name hu fun hp ↦ h.fresh name hp (Image.isSome_unit?.mp hname)
    rw [Image.lookup_code, Image.lookup_code] at hlookup
    rw [← Option.isSome_map, hlookup, Option.isSome_map]
    exact hname

open Engine

theorem hook {w : Workspace} (h : Forwards u image w.image ps) (hu : u ∈ image.units)
    (hname : isIdentifier u.name.toList) {strictness : Strictness}
    (hspare : (w.image.unit? u.name).isSome → w.image.HasSpareName u.name "orig")
    (hsucceeds : succeeds
      (softHook strictness u.name (forwardSource u.arity) defaultPlaceholder) w) :
    ∃ w' p, stateAfter (softHook strictness u.name (forwardSource u.arity) defaultPlaceholder) w =
        w' ∧ Forwards u image w'.image (p :: ps) ∧
      w'.session.hooks.chain u.name = w.session.hooks.chain u.name ++ [p] := by
  obtain ⟨w', n, p, body, old, argc, heq, hp, hfresh, hold, hbody, hlookup, hfunctions, hhooks,
    hnodup⟩ := softHook_lookup h.units_nodup hspare hsucceeds
  have hunit := (Image.not_mem_names.mp hfresh).1
  have hchain := h.leads.mem_units
  have hargc := h.leads.argc_eq hold
  have hforward : body = forwardBody p u.arity :=
    hbody.unique (assemblesTo_forwardBody (hp ▸ isIdentifier_name hname (by decide) n) u.arity)
  have hne : ∀ q ∈ ps, q ≠ u.name := by
    rintro q hq rfl
    exact h.fresh _ hq (List.mem_map_of_mem hu)
  refine ⟨w', p, heq, ?_, ?_⟩
  · constructor
    · exact hnodup
    · exact List.nodup_cons.mpr ⟨fun hmem ↦ hunit (hchain p (List.mem_cons_of_mem _ hmem)), h.nodup⟩
    · exact List.forall_mem_cons.mpr ⟨fun hmem ↦ hunit (h.units_subset hmem), h.fresh⟩
    · have hnew : p ≠ u.name := fun heq ↦ hunit (heq ▸ hchain u.name List.mem_cons_self)
      refine ⟨?_, h.leads.congr ?_ fun q hq ↦ ?_⟩
      · rw [hlookup, if_pos rfl, hforward, hargc]
      · rw [hlookup, if_neg hnew, if_pos rfl, hold]
      · have hq' : q ≠ p := by
          rintro rfl
          exact hunit (hchain q (List.mem_cons_of_mem _ hq))
        rw [hlookup, if_neg (hne q hq), if_neg hq']
    · intro name hu' hps
      rw [List.mem_cons, not_or] at hps
      rw [hlookup, if_neg hu', if_neg hps.1, h.others name hu' hps.2]
    · rw [hfunctions, h.functions, List.reverse_cons, List.map_append, List.append_assoc]
      rfl
  · rw [hhooks, HookChains.chain_record, if_pos rfl]

end Forwards

namespace Engine

def forwardHook (u : CodeUnit) : Operation :=
  .softHook u.name (forwardSource u.arity) defaultPlaceholder

theorem Run.forwards {u : CodeUnit} {image : Image} (hu : u ∈ image.units)
    (hname : isIdentifier u.name.toList) {strictness : Strictness} {n : Nat} {w w' : Workspace}
    (hrun : Run strictness (List.replicate n (forwardHook u)) w w')
    (hspares : SparesAll strictness u.name (List.replicate n (forwardHook u)) w) {ps : List String}
    (h : Forwards u image w.image ps) :
    ∃ later, Forwards u image w'.image (later.reverse ++ ps) ∧ later.length = n ∧
      w'.session.hooks.chain u.name = w.session.hooks.chain u.name ++ later := by
  induction n generalizing w ps with
  | zero =>
    cases hrun
    exact ⟨[], h, rfl, (List.append_nil _).symm⟩
  | succ n ih =>
    rw [List.replicate_succ] at hrun hspares
    obtain - | ⟨hreturns, hrest⟩ := hrun
    obtain ⟨hfirst, hlater⟩ := hspares
    have hsucceeds := (hfirst.resolve_right fun hother ↦ hother.1 rfl).2
    obtain ⟨w₁, p, heq, hhook, hchain⟩ := h.hook hu hname hreturns hsucceeds
    rw [forwardHook, Operation.after, heq] at hrest hlater
    obtain ⟨later, hforwards, hlength, hchain'⟩ := ih hrest hlater hhook
    refine ⟨p :: later, ?_, by rw [List.length_cons, hlength], ?_⟩
    · rwa [List.reverse_cons, List.append_assoc, List.singleton_append]
    · rw [hchain', hchain, List.append_assoc, List.singleton_append]

end Engine

end HookPatch
