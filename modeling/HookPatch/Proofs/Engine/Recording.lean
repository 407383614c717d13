import HookPatch.Proofs.Engine.CallSites
import HookPatch.Proofs.Engine.WellFormed
import HookPatch.Proofs.Session.Tables
import Mathlib.Data.List.Induction

namespace HookPatch

namespace Redirects

def insertAll (t : Redirects) (l : List (String × Redirect)) : Redirects :=
  l.foldl (fun t e ↦ t.insert e.1 e.2) t

theorem insertAll_append (t : Redirects) (l later : List (String × Redirect)) :
    t.insertAll (l ++ later) = (t.insertAll l).insertAll later := List.foldl_append

/-- The last redirection of a function is the one that counts. -/
theorem get?_insertAll (t : Redirects) (l : List (String × Redirect)) (function : String) :
    (t.insertAll l).get? function =
      (((l.filter (·.1 = function)).getLast?).map (·.2)).or (t.get? function) := by
  induction l using List.reverseRecOn with
  | nil => rfl
  | append_singleton l e ih =>
    have hlast : (t.insertAll (l ++ [e])).get? function =
        if function = e.1 then some e.2 else (t.insertAll l).get? function := by
      rw [insertAll_append]
      exact get?_insert _ e.1 e.2 function
    rw [hlast, ih, List.filter_append]
    by_cases h : function = e.1
    · simp [h]
    · simp [h, Ne.symm h]

end Redirects

theorem isGenerated_name (base role : String) (n : UInt32) :
    isGenerated (GeneratedNames.name base role n) := by
  rw [isGenerated, List.isPrefixOf_iff_prefix]
  simp only [GeneratedNames.name, String.toList_append, List.append_assoc]
  exact List.prefix_append _ _

theorem isGenerated_next (g : GeneratedNames) (image : Image) (base role : String) :
    isGenerated (g.next image base role).1 := isGenerated_name base role _

namespace Engine

open Assembly

def Operation.redirect? (strictness : Strictness) : Operation → Workspace → Option (String × Redirect)
  | hardHook function source argc placeholder, w =>
    (value? (Engine.hardHook strictness function source argc placeholder) w).map
      fun name ↦ (function, { replacement := name, argc })
  | arityHook function source placeholder, w =>
    (w.image.arity? function).bind fun argc ↦
      (value? (Engine.arityHook strictness function source placeholder) w).map
        fun name ↦ (function, { replacement := name, argc })
  | _, _ => none

def recorded (strictness : Strictness) : List Operation → Workspace → List (String × Redirect)
  | [], _ => []
  | op :: ops, w =>
    (op.redirect? strictness w).toList ++ recorded strictness ops (op.after strictness w)

end Engine

namespace Image

variable (image : Image)

theorem adopt_names (parent : String) (children : List String) :
    (image.adopt parent children).units.map (·.name) = image.units.map (·.name) := by
  induction children generalizing image with
  | nil => rfl
  | cons c cs ih =>
    exact (ih _).trans (map_modifyFirst_eq (·.name = c) (·.name)
      (fun u ↦ { u with parent := some parent }) (fun _ ↦ rfl) image.units)

theorem moveBody_names_subset (index : Nat) (u : CodeUnit) (name : String) :
    image.units.map (·.name) ⊆ (image.moveBody index u name).units.map (·.name) := by
  let emptied : Image := { image with units := image.units.modify index CodeUnit.emptied }
  have hnames : (emptied.adopt name u.children).units.map (·.name) = image.units.map (·.name) :=
    (emptied.adopt_names name u.children).trans
      (map_modify_eq (·.name) CodeUnit.emptied (fun _ ↦ rfl) image.units index)
  intro other hother
  rw [← hnames] at hother
  obtain ⟨v, hv, rfl⟩ := List.mem_map.mp hother
  refine List.mem_map_of_mem ?_
  rw [moveBody, declare_units, insertBehind]
  exact (List.mem_insertIdx (Nat.min_le_right _ _)).mpr (.inr hv)

theorem define_names_subset (name : String) (argc : UInt16) (body : List Instruction) :
    image.units.map (·.name) ⊆ (image.define name argc body).units.map (·.name) := by
  rw [define_units, List.map_append]
  exact List.subset_append_left _ _

end Image

/-- Every pending redirection leads to a generated unit, other than the function itself. -/
def Workspace.Anchored (w : Workspace) : Prop :=
  ∀ e ∈ w.session.redirects.entries,
    e.2.replacement ∈ w.image.units.map (·.name) ∧ isGenerated e.2.replacement ∧
      e.2.replacement ≠ e.1

theorem Workspace.Anchored.dangling? {w : Workspace} (h : w.Anchored) :
    w.session.redirects.dangling? w.image = none :=
  dangling?_eq_none_iff.mpr fun e he ↦ (h e he).1

/-- No unit is taken away from a workspace, new members of chains are generated, and `l` is recorded. -/
structure Workspace.Records (w w' : Workspace) (l : List (String × Redirect)) : Prop where
  units : w.image.units.map (·.name) ⊆ w'.image.units.map (·.name)
  chain : ∀ name, ∀ p ∈ w'.session.hooks.chain name, p ∈ w.session.hooks.chain name ∨ isGenerated p
  redirects : w'.session.redirects = w.session.redirects.insertAll l

namespace Workspace.Records

variable {w w' w'' : Workspace} {l later : List (String × Redirect)}

theorem trans (h : w.Records w' l) (h' : w'.Records w'' later) : w.Records w'' (l ++ later) where
  units := List.Subset.trans h.units h'.units
  chain := fun name p hp ↦ (h'.chain name p hp).elim (h.chain name p) .inr
  redirects := by rw [h'.redirects, h.redirects, Redirects.insertAll_append]

theorem of_units (hunits : w.image.units.map (·.name) ⊆ w'.image.units.map (·.name))
    (hhooks : w'.session.hooks = w.session.hooks)
    (hredirects : w'.session.redirects = w.session.redirects) : w.Records w' [] :=
  ⟨hunits, fun _ _ hp ↦ .inl (hhooks ▸ hp), hredirects⟩

theorem refl (w : Workspace) : w.Records w [] := of_units (List.Subset.refl _) rfl rfl

end Workspace.Records

namespace Engine

open Assembly Workspace

variable {strictness : Strictness} {w w' : Workspace}

theorem softHook_records (code source placeholder : String) :
    w.Records (stateAfter (softHook strictness code source placeholder) w) [] := by
  rcases softHook_cases strictness w code source placeholder with
    ⟨-, heq⟩ | ⟨l₁, u, l₂, name, moved, -, -, -, hmove, hresult⟩
  · rw [stateAfter_error heq]; exact .refl w
  obtain ⟨names, hnext, rfl⟩ := preserve_eq hmove
  have hmoved := w.image.moveBody_names_subset l₁.length u name
  have hname : isGenerated name := by
    have h := isGenerated_next w.session.names w.image u.name "orig"
    rwa [hnext] at h
  have hchain : ∀ other, ∀ p ∈ (w.session.hooks.record u.name name).chain other,
      p ∈ w.session.hooks.chain other ∨ isGenerated p := by
    intro other p hp
    rw [HookChains.chain_record] at hp
    split at hp
    · rename_i heq
      rcases List.mem_append.mp hp with hp | hp
      · exact .inl (heq ▸ hp)
      · exact .inr (List.mem_singleton.mp hp ▸ hname)
    · exact .inl hp
  rcases hresult with ⟨e, -, heq⟩ | ⟨body, -, heq⟩
  · rw [stateAfter_error heq]; exact ⟨hmoved, hchain, rfl⟩
  · have hbody : ((w.image.moveBody l₁.length u name).setBody l₁.length body).units.map (·.name) =
        (w.image.moveBody l₁.length u name).units.map (·.name) :=
      Image.names_eq_of_outline (Image.setBody_outline l₁.length body)
    rw [stateAfter_ok heq]
    exact ⟨hbody ▸ hmoved, hchain, rfl⟩

theorem hardHook_records (function source : String) (argc : UInt16) (placeholder : String) :
    w.Records (stateAfter (hardHook strictness function source argc placeholder) w)
      ((Operation.hardHook function source argc placeholder).redirect? strictness w).toList := by
  rw [Operation.redirect?]
  rcases hardHook_cases strictness w function source argc placeholder with
    ⟨-, heq⟩ | ⟨name, names, -, -, ⟨e, heq⟩ | ⟨body, -, heq⟩⟩
  · rw [stateAfter_error heq, value?, heq]; exact .refl w
  · rw [stateAfter_error heq, value?, heq]; exact .of_units (List.Subset.refl _) rfl rfl
  · rw [stateAfter_ok heq, value?, heq]
    exact ⟨w.image.define_names_subset name argc body, fun _ _ hp ↦ .inl hp, rfl⟩

theorem defineFunction_records (name source : String) (argc : UInt16) :
    w.Records (stateAfter (defineFunction strictness name source argc) w) [] := by
  rcases defineFunction_cases strictness w name source argc with ⟨e, heq⟩ | ⟨body, -, -, heq⟩
  · rw [stateAfter_error heq]; exact .refl w
  · rw [stateAfter_ok heq]
    exact .of_units (w.image.define_names_subset name argc body) rfl rfl

theorem arityHook_eq (strictness : Strictness) {function source placeholder : String} {argc : UInt16}
    (h : w.image.arity? function = some argc) :
    (Operation.arityHook function source placeholder).after strictness w =
        (Operation.hardHook function source argc placeholder).after strictness w ∧
      (Operation.arityHook function source placeholder).redirect? strictness w =
        (Operation.hardHook function source argc placeholder).redirect? strictness w := by
  have heq : arityHook strictness function source placeholder w =
      hardHook strictness function source argc placeholder w := by simp only [arityHook, h]
  refine ⟨stateAfter_congr heq, ?_⟩
  rw [Operation.redirect?, Operation.redirect?, h, value?, value?, heq]
  rfl

theorem after_records {op : Operation} (hop : op ≠ .applyRedirects) :
    w.Records (op.after strictness w) (op.redirect? strictness w).toList := by
  cases op with
  | softHook code source placeholder => exact softHook_records code source placeholder
  | hardHook function source argc placeholder =>
    exact hardHook_records function source argc placeholder
  | arityHook function source placeholder =>
    cases hargc : w.image.arity? function with
    | none =>
      have heq : arityHook strictness function source placeholder w =
          .error (.unknownName function) w := by simp only [arityHook, hargc]
      rw [Operation.after, Operation.redirect?, stateAfter_error heq, hargc]
      exact .refl w
    | some argc =>
      obtain ⟨hafter, hredirect⟩ := arityHook_eq strictness hargc
      rw [hafter, hredirect]
      exact hardHook_records function source argc placeholder
  | editInnermost name edit =>
    rw [Operation.after]
    rcases editInnermost_cases w name fun c ↦ ((), edit c) with heq | ⟨target, u, -, -, heq⟩
    · rw [stateAfter_error heq]; exact .refl w
    · have hnames := Image.names_eq_of_outline
        (Image.modifyUnit_outline w.image target (edit { code := u.body }).code)
      rw [stateAfter_ok heq]
      exact .of_units (by rw [hnames]; exact List.Subset.refl _) rfl rfl
  | defineFunction name source argc => exact defineFunction_records name source argc
  | addSelector library =>
    rw [Operation.after]
    rcases addSelector_cases w library with heq | ⟨extension, f, ids, -, -, -, heq⟩
    · rw [stateAfter_error heq]; exact .refl w
    · rw [stateAfter_ok heq]; exact .of_units (List.Subset.refl _) rfl rfl
  | registerExport x modId =>
    rw [Operation.after]
    rcases register_cases strictness w x modId with
      ⟨e, ids, heq⟩ | ⟨f, image, ids, -, -, hadd, heq⟩
    · rw [stateAfter_error heq]; exact .of_units (List.Subset.refl _) rfl rfl
    · obtain ⟨hunits, -, -⟩ := Export.addNative_spec hadd
      have hadded : w.Records { image, session := { w.session with ids } } [] :=
        .of_units (by rw [hunits]; exact List.Subset.refl _) rfl rfl
      rw [stateAfter_congr heq]
      exact hadded.trans (defineFunction_records x.name (x.wrapperText modId) x.argc)
  | applyRedirects => exact absurd rfl hop

theorem Run.records {ops : List Operation} (hrun : Run strictness ops w w')
    (hops : .applyRedirects ∉ ops) : w.Records w' (recorded strictness ops w) := by
  induction hrun with
  | nil w => exact .refl w
  | cons _ _ ih =>
    rw [List.mem_cons, not_or] at hops
    exact (after_records (Ne.symm hops.1)).trans (ih hops.2)

theorem hardHook_redirect? {function source placeholder : String} {argc : UInt16}
    {e : String × Redirect} (hspare : w.image.isCallable function → w.image.HasSpareName function "hook")
    (he : (Operation.hardHook function source argc placeholder).redirect? strictness w = some e) :
    e.2.replacement ∈ (stateAfter (hardHook strictness function source argc placeholder)
        w).image.units.map (·.name) ∧ isGenerated e.2.replacement ∧ e.2.replacement ≠ e.1 := by
  rw [Operation.redirect?] at he
  rcases hardHook_cases strictness w function source argc placeholder with
    ⟨-, heq⟩ | ⟨name, names, hcall, hnext, ⟨e', heq⟩ | ⟨body, -, heq⟩⟩
  · rw [value?, heq] at he; cases he
  · rw [value?, heq] at he; cases he
  · rw [value?, heq] at he
    cases he
    have hfresh := w.session.names.next_fresh (hspare hcall)
    have hgenerated := isGenerated_next w.session.names w.image function "hook"
    rw [hnext] at hfresh hgenerated
    rw [stateAfter_ok heq]
    refine ⟨by simp, hgenerated, ?_⟩
    intro (hsame : name = function)
    subst hsame
    have hfree := Image.not_mem_names.mp hfresh
    exact (Image.isCallable_iff.mp hcall).elim hfree.1 hfree.2.1

theorem Operation.redirect?_anchored {op : Operation} (hreturns : op.Returns w)
    {e : String × Redirect} (he : op.redirect? strictness w = some e) :
    e.2.replacement ∈ (op.after strictness w).image.units.map (·.name) ∧
      isGenerated e.2.replacement ∧ e.2.replacement ≠ e.1 := by
  cases op with
  | hardHook function source argc placeholder => exact hardHook_redirect? hreturns he
  | arityHook function source placeholder =>
    cases hargc : w.image.arity? function with
    | none => simp [Operation.redirect?, hargc] at he
    | some argc =>
      obtain ⟨hafter, hredirect⟩ := arityHook_eq strictness hargc
      rw [hredirect] at he
      rw [hafter]
      exact hardHook_redirect? (hreturns (hargc ▸ rfl)) he
  | _ => simp [Operation.redirect?] at he

theorem after_anchored (h : w.Anchored) {op : Operation} (hreturns : op.Returns w) :
    (op.after strictness w).Anchored := by
  by_cases hop : op = .applyRedirects
  · subst hop
    intro e he
    rw [Operation.after] at he
    rcases applyRedirects_cases w with ⟨n, heq⟩ | ⟨e', heq⟩ | ⟨n, image, -, heq⟩
    · rw [stateAfter_ok heq] at he; simp at he
    · rw [stateAfter_error heq] at he; simp at he
    · rw [stateAfter_ok heq] at he; simp at he
  · have hrecords : w.Records (op.after strictness w) _ := after_records hop
    intro e he
    rw [hrecords.redirects] at he
    cases hredirect : op.redirect? strictness w with
    | none =>
      rw [hredirect] at he
      exact (h e he).imp_left fun hmem ↦ hrecords.units hmem
    | some e' =>
      rw [hredirect] at he
      rcases Redirects.mem_insert he with rfl | he
      · exact op.redirect?_anchored hreturns hredirect
      · exact (h e he).imp_left fun hmem ↦ hrecords.units hmem

theorem Run.anchored {ops : List Operation} (hrun : Run strictness ops w w') (h : w.Anchored) :
    w'.Anchored := by
  induction hrun with
  | nil => exact h
  | cons hreturns _ ih => exact ih (after_anchored h hreturns)

theorem anchored_of_empty (h : w.session.redirects = .empty) : w.Anchored := by
  intro e he
  rw [h] at he
  cases he

theorem applyRedirects_of_anchored (h : w.Anchored) : ∃ count, applyRedirects w = .ok count {
    image := w.image.redirectedBy (Redirects.pass w.session.redirects.entries)
    session := { w.session with redirects := .empty } } := by
  by_cases hempty : w.session.redirects.entries.isEmpty
  · have hpass : Redirects.pass w.session.redirects.entries = id := by
      rw [List.isEmpty_iff.mp hempty]; rfl
    have hsame : w.image.redirectedBy id = w.image :=
      w.image.redirectedBy_eq_self id fun _ _ ↦ rfl
    exact ⟨0, by simp only [applyRedirects, hempty, if_true, hpass, hsame]⟩
  · refine ⟨(w.image.callSites.map (Redirects.changes w.session.redirects.entries)).sum, ?_⟩
    simp only [applyRedirects, hempty, redirectImage_eq_ok h.dangling?]
    rfl

end Engine

end HookPatch
