import HookPatch.Proofs.Engine.HookStack
import HookPatch.Proofs.Engine.Runs

namespace HookPatch

open Assembly

/-- A unit that is not part of a run of neighbours has all of it on one side. -/
theorem infix_of_append_cons {α : Type} {block l₁ l₂ : List α} {a : α}
    (h : block <:+: l₁ ++ a :: l₂) (ha : a ∉ block) : block <:+: l₁ ∨ block <:+: l₂ := by
  obtain ⟨s, t, h⟩ := h
  rcases List.append_eq_append_iff.mp h with ⟨r, hl₁, -⟩ | ⟨r, hs, hl₂⟩
  · exact .inl ⟨s, r, hl₁.symm⟩
  · cases r with
    | nil => exact .inl ⟨s, [], by simpa using hs⟩
    | cons b r =>
      obtain ⟨rfl, rfl⟩ := List.cons.inj hl₂
      rcases List.append_eq_append_iff.mp hs with ⟨q, -, hblock⟩ | ⟨q, -, hrest⟩
      · exact absurd (by simp [hblock]) ha
      · cases q with
        | nil =>
          have hblock : block = a :: r := by simpa using hrest.symm
          exact absurd (by simp [hblock]) ha
        | cons c q =>
          obtain ⟨rfl, rfl⟩ := List.cons.inj hrest
          exact .inr ⟨q, t, rfl⟩

namespace Workspace

/-- The unit named as `u` carries the hooks of `u`, which the session has recorded, and no other
unit has its preserved bodies among them. -/
structure Holds (w : Workspace) (u : CodeUnit) (hooks : List (String × String)) : Prop where
  units_nodup : (w.image.units.map (·.name)).Nodup
  apart : ∀ other ≠ u.name, ∀ p ∈ w.session.hooks.chain other,
    p ∈ w.image.units.map (·.name) ∧ p ≠ u.name ∧ p ∉ w.session.hooks.chain u.name
  block : ∃ top ps, HookStack u hooks (ps ++ [top]) ∧ top.name = u.name ∧
    top :: ps.reverse <:+: w.image.units ∧ w.session.hooks.chain u.name = ps.map (·.name)

variable {w w' : Workspace} {u : CodeUnit} {hooks : List (String × String)}

theorem Holds.of_block (h : w.Holds u hooks) (f : CodeUnit → CodeUnit)
    (hname : ∀ p, (f p).name = p.name) (hcontent : ∀ p, (f p).content = p.content)
    (hblock : ∀ block, block <:+: w.image.units →
      (∀ p ∈ block, p.name = u.name ∨ p.name ∈ w.session.hooks.chain u.name) →
      block.map f <:+: w'.image.units)
    (hnodup : (w'.image.units.map (·.name)).Nodup)
    (hchain : w'.session.hooks.chain u.name = w.session.hooks.chain u.name)
    (hapart : ∀ other ≠ u.name, ∀ p ∈ w'.session.hooks.chain other,
      p ∈ w'.image.units.map (·.name) ∧ p ≠ u.name ∧ p ∉ w'.session.hooks.chain u.name) :
    w'.Holds u hooks := by
  obtain ⟨top, ps, hstack, htop, hrow, hps⟩ := h.block
  refine ⟨hnodup, hapart, f top, ps.map f, ?_, (hname top).trans htop, ?_, ?_⟩
  · simpa using hstack.map hname hcontent
  · have hmap := hblock _ hrow ?_
    · simpa using hmap
    · intro p hp
      rcases List.mem_cons.mp hp with rfl | hp
      · exact .inl htop
      · exact .inr (hps ▸ List.mem_map_of_mem (List.mem_reverse.mp hp))
  · rw [hchain, hps, List.map_map]
    exact List.map_congr_left fun p _ ↦ (hname p).symm

theorem Holds.name_mem (h : w.Holds u hooks) : u.name ∈ w.image.units.map (·.name) := by
  obtain ⟨top, ps, -, htop, hrow, -⟩ := h.block
  exact htop ▸ List.mem_map_of_mem (hrow.mem List.mem_cons_self)

theorem Holds.chain_mem (h : w.Holds u hooks) {p : String}
    (hp : p ∈ w.session.hooks.chain u.name) : p ∈ w.image.units.map (·.name) := by
  obtain ⟨top, ps, -, -, hrow, hps⟩ := h.block
  rw [hps] at hp
  obtain ⟨q, hq, rfl⟩ := List.mem_map.mp hp
  exact List.mem_map_of_mem (hrow.mem (List.mem_cons_of_mem _ (List.mem_reverse.mpr hq)))

theorem Holds.grow (h : w.Holds u hooks) {l : List CodeUnit}
    (hunits : w'.image.units = w.image.units ++ l) (hnodup : (w'.image.units.map (·.name)).Nodup)
    (hhooks : w'.session.hooks = w.session.hooks) : w'.Holds u hooks := by
  refine h.of_block id (fun p ↦ rfl) (fun p ↦ rfl) ?_ hnodup (by rw [hhooks]) ?_
  · intro block hrow _
    rw [List.map_id, hunits]
    exact List.infix_append_of_infix_left hrow
  · intro other hother p hp
    rw [hhooks] at hp ⊢
    have hapart := h.apart other hother p hp
    rw [hunits, List.map_append]
    exact ⟨List.mem_append_left _ hapart.1, hapart.2⟩

theorem Holds.with_session (h : w.Holds u hooks) {session : Session}
    (hhooks : session.hooks = w.session.hooks) :
    Workspace.Holds { w with session } u hooks :=
  h.grow (List.append_nil _).symm h.units_nodup hhooks

end Workspace

namespace Engine

/-- What a soft hook of a unit that exists does to the units, whether its source assembles or not. -/
theorem softHook_units (strictness : Strictness) {w : Workspace}
    (hnodup : (w.image.units.map (·.name)).Nodup) {code : String} (source placeholder : String)
    (hspare : (w.image.unit? code).isSome → w.image.HasSpareName code "orig") :
    stateAfter (softHook strictness code source placeholder) w = w ∧
      softHook strictness code source placeholder w = .error (.unknownName code) w ∨
    ∃ w' l₁ v l₂ name body, stateAfter (softHook strictness code source placeholder) w = w' ∧
      v.name = code ∧ w.image.units = l₁ ++ v :: l₂ ∧ name ∉ w.image.names ∧
      w'.image.units = l₁.map (v.afterMove name) ++
        (v.afterMove name v).withBody body :: v.preservedAs name :: l₂.map (v.afterMove name) ∧
      w'.session.hooks = w.session.hooks.record code name ∧
      ∀ preserved w'', softHook strictness code source placeholder w = .ok preserved w'' →
        AssemblesTo (substitute placeholder name source) body := by
  rcases softHook_cases strictness w code source placeholder with
    ⟨-, heq⟩ | ⟨l₁, v, l₂, name, moved, hv, rfl, hunits, hmove, hresult⟩
  · exact .inl ⟨stateAfter_error heq, heq⟩
  obtain ⟨names, hnext, rfl⟩ := Workspace.preserve_eq hmove
  have hname := w.session.names.next_fresh (hspare (hv ▸ rfl))
  rw [hnext] at hname
  have hmoved : (w.image.moveBody l₁.length v name).units = _ :=
    Image.moveBody_units hunits hnodup
  rcases hresult with ⟨e, -, heq⟩ | ⟨body, hbody, heq⟩
  · refine .inr ⟨_, l₁, v, l₂, name, (v.afterMove name v).body, stateAfter_error heq, rfl, hunits,
      hname, hmoved, rfl, ?_⟩
    intro preserved w'' hok
    rw [heq] at hok
    cases hok
  · refine .inr ⟨_, l₁, v, l₂, name, body, stateAfter_ok heq, rfl, hunits, hname, ?_, rfl, ?_⟩
    · have hlength : l₁.length = (l₁.map (v.afterMove name)).length := by rw [List.length_map]
      simp only [Image.setBody, hmoved]
      rw [hlength, modify_append_cons]
      rfl
    · exact fun _ _ _ ↦ assemblesTo_of_assembleFor hbody

end Engine

namespace Workspace

open Engine

variable {w w' : Workspace} {u : CodeUnit} {hooks : List (String × String)} {strictness : Strictness}
  {code source placeholder : String}

theorem Holds.softHook_other (h : w.Holds u hooks) (hcode : code ≠ u.name)
    (hchain : code ∉ w.session.hooks.chain u.name)
    (hspare : (w.image.unit? code).isSome → w.image.HasSpareName code "orig") :
    (stateAfter (softHook strictness code source placeholder) w).Holds u hooks := by
  rcases softHook_units strictness h.units_nodup source placeholder hspare with
    ⟨heq, -⟩ | ⟨w', l₁, v, l₂, name, body, heq, rfl, hunits, hname, hunits', hhooks, -⟩
  · rw [heq]; exact h
  rw [heq]
  have hunit := (Image.not_mem_names.mp hname).1
  have hnames : (w'.image.units.map (·.name)).Perm (name :: w.image.units.map (·.name)) := by
    rw [hunits', hunits]
    exact Image.moved_names (v.afterMove_name name v)
  have hchain' : w'.session.hooks.chain u.name = w.session.hooks.chain u.name := by
    rw [hhooks, HookChains.chain_record, if_neg hcode.symm]
  refine h.of_block (·.adoptedBy name v.children) (fun p ↦ p.adoptedBy_name name v.children)
    (fun p ↦ by simp [CodeUnit.content]) ?_ ?_ hchain' ?_
  · intro block hrow hblock
    have hother : ∀ p ∈ block, p.name ≠ v.name := fun p hp hpv ↦
      (hblock p hp).elim (fun hpu ↦ hcode (hpv ▸ hpu)) (fun hpc ↦ hchain (hpv ▸ hpc))
    have hmap : block.map (·.adoptedBy name v.children) = block.map (v.afterMove name) :=
      List.map_congr_left fun p hp ↦ by rw [CodeUnit.afterMove, if_neg (hother p hp)]
    rw [hunits] at hrow
    rw [hmap, hunits']
    rcases infix_of_append_cons hrow (fun hv ↦ hother v hv rfl) with hrow | hrow
    · exact List.infix_append_of_infix_left (hrow.map _)
    · exact List.infix_append_of_infix_right (List.infix_cons (List.infix_cons (hrow.map _)))
  · rw [hnames.nodup_iff]
    exact List.nodup_cons.mpr ⟨hunit, h.units_nodup⟩
  · intro other hother p hp
    rw [hchain', hnames.mem_iff]
    have hnew : p = name ∨ p ∈ w.session.hooks.chain other := by
      rw [hhooks, HookChains.chain_record] at hp
      split at hp
      · rename_i heq
        rcases List.mem_append.mp hp with hp | hp
        · exact .inr (heq ▸ hp)
        · exact .inl (List.mem_singleton.mp hp)
      · exact .inr hp
    rcases hnew with rfl | hp
    · exact ⟨List.mem_cons_self, fun hpu ↦ hunit (hpu ▸ h.name_mem),
        fun hpc ↦ hunit (h.chain_mem hpc)⟩
    · have hapart := h.apart other hother p hp
      exact ⟨List.mem_cons_of_mem _ hapart.1, hapart.2⟩

theorem row_of_split {image : Image} {l₁ l₂ row : List CodeUnit} {top v : CodeUnit}
    (hnodup : (image.units.map (·.name)).Nodup) (hunits : image.units = l₁ ++ v :: l₂)
    (hrow : top :: row <:+: image.units) (htop : top.name = v.name) : top = v ∧ row <+: l₂ := by
  have hv : v ∈ image.units := by simp [hunits]
  obtain rfl := List.inj_on_of_nodup_map hnodup (hrow.mem List.mem_cons_self) hv htop
  obtain ⟨s, t, hst⟩ := hrow
  have hsplit : image.units = s ++ top :: (row ++ t) := by rw [← hst]; simp
  have hs : top ∉ s := fun hs ↦
    Image.name_ne_of_split hsplit hnodup (List.mem_append_left _ hs) rfl
  have ht : top ∉ row ++ t := fun ht ↦
    Image.name_ne_of_split hsplit hnodup (List.mem_append_right _ ht) rfl
  obtain ⟨-, -, hl₂⟩ := (List.append_cons_inj_of_notMem hs ht).mp (hsplit.symm.trans hunits)
  exact ⟨rfl, t, hl₂⟩

theorem Holds.softHook_own (h : w.Holds u hooks)
    (hspare : (w.image.unit? u.name).isSome → w.image.HasSpareName u.name "orig")
    {preserved : String}
    (hok : softHook strictness u.name source placeholder w = .ok preserved w') :
    w'.Holds u (hooks ++ [(source, placeholder)]) := by
  rcases softHook_units strictness h.units_nodup source placeholder hspare with
    ⟨-, herror⟩ | ⟨w'', l₁, v, l₂, name, body, heq, hv, hunits, hname, hunits', hhooks, hbody⟩
  · rw [hok] at herror; cases herror
  obtain rfl : w' = w'' := (stateAfter_ok hok).symm.trans heq
  obtain ⟨top, ps, hstack, htop, hrow, hps⟩ := h.block
  obtain ⟨rfl, hrest⟩ := row_of_split h.units_nodup hunits hrow (htop.trans hv.symm)
  have hunit := (Image.not_mem_names.mp hname).1
  have hnames : (w'.image.units.map (·.name)).Perm (name :: w.image.units.map (·.name)) := by
    rw [hunits', hunits]
    exact Image.moved_names (top.afterMove_name name top)
  have hchain' : w'.session.hooks.chain u.name = w.session.hooks.chain u.name ++ [name] := by
    rw [hhooks, HookChains.chain_record, if_pos rfl]
  have hadopted : ps.map (·.adoptedBy name top.children) = ps.map (top.afterMove name) := by
    refine List.map_congr_left fun p hp ↦ ?_
    have hp' : p ∈ l₁ ++ l₂ := List.mem_append_right _ (hrest.mem (List.mem_reverse.mpr hp))
    rw [CodeUnit.afterMove, if_neg (Image.name_ne_of_split hunits h.units_nodup hp')]
  -- The old top goes on as the newest preserved body, and the hook calls it by its new name.
  have hmoved : HookStack u hooks (ps.map (top.afterMove name) ++ [top.preservedAs name]) := by
    have hmap := hstack.map (fun p ↦ p.adoptedBy_name name top.children)
      (fun p ↦ by simp [CodeUnit.content])
    rw [List.map_append, hadopted] at hmap
    exact hmap.move (by simp [CodeUnit.content, CodeUnit.preservedAs])
  have hself : top.afterMove name top = top.emptied.adoptedBy name top.children := by
    rw [CodeUnit.afterMove, if_pos rfl]
  have hpushed : HookStack u (hooks ++ [(source, placeholder)])
      (ps.map (top.afterMove name) ++ [top.preservedAs name] ++
        [(top.afterMove name top).withBody body]) := by
    refine hmoved.push (hbody preserved w' hok) ?_ ?_ ?_ ?_ <;>
      simp [hself, CodeUnit.withBody, CodeUnit.emptied, CodeUnit.preservedAs]
  refine ⟨?_, ?_, _, _, hpushed, ?_, ?_, ?_⟩
  · rw [hnames.nodup_iff]
    exact List.nodup_cons.mpr ⟨hunit, h.units_nodup⟩
  · intro other hother p hp
    rw [hhooks, HookChains.chain_record, if_neg hother] at hp
    obtain ⟨hmem, hne, hnot⟩ := h.apart other hother p hp
    rw [hchain', hnames.mem_iff, List.mem_append, List.mem_singleton]
    exact ⟨List.mem_cons_of_mem _ hmem, hne, fun hp ↦
      hp.elim hnot fun hpn ↦ hunit (hpn ▸ hmem)⟩
  · exact (top.afterMove_name name top).trans htop
  · rw [hunits', List.reverse_append, List.reverse_singleton, ← List.map_reverse]
    obtain ⟨t, rfl⟩ := hrest
    refine ⟨l₁.map (top.afterMove name), t.map (top.afterMove name), ?_⟩
    simp
  · rw [hchain', hps]
    simp [CodeUnit.preservedAs]

theorem Holds.editInnermost_other (h : w.Holds u hooks) {other : String} (hother : other ≠ u.name)
    (hchain : other ∉ w.session.hooks.chain u.name) (edit : Cursor → Cursor) :
    (stateAfter (editInnermost other fun c ↦ ((), edit c)) w).Holds u hooks := by
  rcases editInnermost_cases w other fun c ↦ ((), edit c) with heq | ⟨target, v, htarget, -, heq⟩
  · rw [stateAfter_error heq]; exact h
  rw [stateAfter_ok heq]
  have hapart : target ≠ u.name ∧ target ∉ w.session.hooks.chain u.name := by
    cases hhead : w.session.hooks.innermost? other with
    | none =>
      rw [hhead] at htarget
      exact htarget ▸ ⟨hother, hchain⟩
    | some p =>
      rw [hhead] at htarget
      exact htarget ▸ (h.apart other hother p (List.mem_of_head? hhead)).2
  have hunits := Image.modifyUnit_units h.units_nodup target
    (·.withBody (edit { code := v.body }).code)
  have hnames := Image.names_eq_of_outline
    (Image.modifyUnit_outline w.image target (edit { code := v.body }).code)
  refine h.of_block id (fun p ↦ rfl) (fun p ↦ rfl) ?_ (hnames ▸ h.units_nodup) rfl ?_
  · intro block hrow hblock
    have hsame : block = block.map fun p ↦
        if p.name = target then p.withBody (edit { code := v.body }).code else p := by
      refine (List.map_id block).symm.trans (List.map_congr_left fun p hp ↦ ?_)
      rw [if_neg, id]
      intro htarget
      exact (hblock p hp).elim (fun hp ↦ hapart.1 (htarget ▸ hp))
        (fun hp ↦ hapart.2 (htarget ▸ hp))
    rw [List.map_id, hunits, hsame]
    exact hrow.map _
  · intro other' hother' p hp
    have hold := h.apart other' hother' p hp
    exact ⟨hnames ▸ hold.1, hold.2⟩

theorem Holds.define (h : w.Holds u hooks) {name : String} (hname : name ∉ w.image.names)
    (argc : UInt16) (body : List Instruction) {session : Session}
    (hhooks : session.hooks = w.session.hooks) :
    Workspace.Holds { image := w.image.define name argc body, session } u hooks :=
  h.grow (Image.define_units name argc body) (Image.define_units_nodup h.units_nodup hname argc body)
    hhooks

theorem Holds.hardHook (h : w.Holds u hooks) {function : String} {argc : UInt16}
    (hspare : w.image.isCallable function → w.image.HasSpareName function "hook") :
    (stateAfter (hardHook strictness function source argc placeholder) w).Holds u hooks := by
  rcases hardHook_cases strictness w function source argc placeholder with
    ⟨-, heq⟩ | ⟨name, names, hcall, hnext, ⟨e, heq⟩ | ⟨body, -, heq⟩⟩
  · rw [stateAfter_error heq]; exact h
  · rw [stateAfter_error heq]; exact h.with_session rfl
  · have hname := w.session.names.next_fresh (hspare hcall)
    rw [hnext] at hname
    rw [stateAfter_ok heq]
    exact h.define hname argc body rfl

theorem Holds.defineFunction (h : w.Holds u hooks) {name : String} {argc : UInt16} :
    (stateAfter (defineFunction strictness name source argc) w).Holds u hooks := by
  rcases defineFunction_cases strictness w name source argc with ⟨e, heq⟩ | ⟨body, hname, -, heq⟩
  · rw [stateAfter_error heq]; exact h
  · rw [stateAfter_ok heq]
    exact h.define hname argc body rfl

end Workspace

namespace Engine

def Operation.hooksOf (name : String) : Operation → List (String × String)
  | softHook code source placeholder => if code = name then [(source, placeholder)] else []
  | _ => []

/-- Whether an operation succeeds in hooking the unit `name`, or leaves it and its preserved bodies
alone. -/
def Operation.Spares (strictness : Strictness) (name : String) : Operation → Workspace → Prop
  | softHook code source placeholder, w =>
    code = name ∧ succeeds (Engine.softHook strictness code source placeholder) w ∨
      code ≠ name ∧ code ∉ w.session.hooks.chain name
  | editInnermost other _, w => other ≠ name ∧ other ∉ w.session.hooks.chain name
  | applyRedirects, _ => False
  | _, _ => True

def SparesAll (strictness : Strictness) (name : String) : List Operation → Workspace → Prop
  | [], _ => True
  | op :: ops, w => op.Spares strictness name w ∧ SparesAll strictness name ops (op.after strictness w)

instance (strictness : Strictness) (name : String) (w : Workspace) :
    ∀ op : Operation, Decidable (op.Spares strictness name w)
  | .softHook code source placeholder => inferInstanceAs (Decidable (
      code = name ∧ succeeds (softHook strictness code source placeholder) w ∨
        code ≠ name ∧ code ∉ w.session.hooks.chain name))
  | .editInnermost other _ => inferInstanceAs (Decidable (
      other ≠ name ∧ other ∉ w.session.hooks.chain name))
  | .applyRedirects => inferInstanceAs (Decidable False)
  | .hardHook .. | .arityHook .. | .defineFunction .. | .addSelector .. | .registerExport .. =>
    inferInstanceAs (Decidable True)

instance decidableSparesAll (strictness : Strictness) (name : String) :
    ∀ (ops : List Operation) (w : Workspace), Decidable (SparesAll strictness name ops w)
  | [], _ => inferInstanceAs (Decidable True)
  | op :: ops, w =>
    have := decidableSparesAll strictness name ops (op.after strictness w)
    inferInstanceAs (Decidable (
      op.Spares strictness name w ∧ SparesAll strictness name ops (op.after strictness w)))

variable {strictness : Strictness} {w w' : Workspace} {u : CodeUnit} {hooks : List (String × String)}

theorem after_holds (h : w.Holds u hooks) {op : Operation} (hreturns : op.Returns w)
    (hspares : op.Spares strictness u.name w) :
    (op.after strictness w).Holds u (hooks ++ op.hooksOf u.name) := by
  cases op with
  | softHook code source placeholder =>
    rw [Operation.hooksOf]
    rcases hspares with ⟨rfl, hsucceeds⟩ | ⟨hcode, hchain⟩
    · obtain ⟨preserved, w', hok⟩ := succeeds_iff.mp hsucceeds
      rw [if_pos rfl, Operation.after, stateAfter_ok hok]
      exact h.softHook_own hreturns hok
    · rw [if_neg hcode, List.append_nil]
      exact h.softHook_other hcode hchain hreturns
  | hardHook =>
    simp only [Operation.hooksOf, List.append_nil]
    exact h.hardHook hreturns
  | arityHook function source placeholder =>
    simp only [Operation.hooksOf, List.append_nil]
    rcases arityHook_cases strictness w function source placeholder with
      ⟨-, heq⟩ | ⟨argc, hargc, heq⟩
    · rw [Operation.after, stateAfter_error heq]; exact h
    · rw [Operation.after, stateAfter_congr heq]
      exact h.hardHook (hreturns (hargc ▸ rfl))
  | editInnermost other edit =>
    simp only [Operation.hooksOf, List.append_nil]
    exact h.editInnermost_other hspares.1 hspares.2 edit
  | defineFunction =>
    simp only [Operation.hooksOf, List.append_nil]
    exact h.defineFunction
  | addSelector library =>
    simp only [Operation.hooksOf, List.append_nil]
    rcases addSelector_cases w library with heq | ⟨extension, f, ids, -, -, -, heq⟩
    · rw [Operation.after, stateAfter_error heq]; exact h
    · rw [Operation.after, stateAfter_ok heq]
      exact h.grow (List.append_nil _).symm h.units_nodup rfl
  | registerExport x modId =>
    simp only [Operation.hooksOf, List.append_nil]
    rcases register_cases strictness w x modId with
      ⟨e, ids, heq⟩ | ⟨f, image, ids, -, -, hadd, heq⟩
    · rw [Operation.after, stateAfter_error heq]; exact h.with_session rfl
    · obtain ⟨hunits, -, -⟩ := Export.addNative_spec hadd
      have hadded : Workspace.Holds { image, session := { w.session with ids } } u hooks :=
        h.grow (hunits.trans (List.append_nil _).symm) (hunits.symm ▸ h.units_nodup) rfl
      rw [Operation.after, stateAfter_congr heq]
      exact hadded.defineFunction
  | applyRedirects => exact hspares.elim

theorem Run.holds {ops : List Operation} (hrun : Run strictness ops w w')
    (hspares : SparesAll strictness u.name ops w) (h : w.Holds u hooks) :
    w'.Holds u (hooks ++ ops.flatMap (·.hooksOf u.name)) := by
  induction hrun generalizing hooks with
  | nil => rwa [List.flatMap_nil, List.append_nil]
  | cons hreturns _ ih =>
    rw [List.flatMap_cons, ← List.append_assoc]
    exact ih hspares.2 (after_holds h hreturns hspares.1)

theorem fresh_holds {image : Image} (hnodup : (image.units.map (·.name)).Nodup)
    (hu : u ∈ image.units) : Workspace.Holds { image } u [] where
  units_nodup := hnodup
  apart other hother p hp := by simp [HookChains.chain] at hp
  block := by
    obtain ⟨l₁, l₂, hunits⟩ := List.append_of_mem hu
    exact ⟨u, [], .initial u, rfl, ⟨l₁, l₂, by simp [hunits]⟩, rfl⟩

/-- Hooks on a unit stack up: the units with the bodies they have replaced stand right behind it,
newest first, as the session has recorded them. -/
theorem run_hookStack {image : Image} (hnodup : (image.units.map (·.name)).Nodup)
    (hu : u ∈ image.units) {ops : List Operation} (hrun : Run strictness ops { image } w)
    (hspares : SparesAll strictness u.name ops { image }) :
    ∃ top ps, w.image.unit? u.name = some top ∧ top :: ps.reverse <:+: w.image.units ∧
      w.session.hooks.chain u.name = ps.map (·.name) ∧
      HookStack u (ops.flatMap (·.hooksOf u.name)) (ps ++ [top]) := by
  have h := hrun.holds hspares (fresh_holds hnodup hu)
  obtain ⟨top, ps, hstack, htop, hrow, hps⟩ := h.block
  exact ⟨top, ps, (Image.unit?_eq_some_iff h.units_nodup).mpr
    ⟨hrow.mem List.mem_cons_self, htop⟩, hrow, hps, hstack⟩

theorem run_hookStack_linked :
    ∃ w top ps,
      Run .strict [.softHook "main" "call #orig#(argc=0)" "#orig#", .softHook "part" "ret" "#orig#",
        .defineFunction "late" "call main(argc=0)" 0, .softHook "main" "call old(argc=0)" "old"]
        { image := linkedImage } w ∧
      w.image.unit? "main" = some top ∧ top :: ps.reverse <:+: w.image.units ∧
      w.session.hooks.chain "main" = ps.map (·.name) ∧
      HookStack { name := "main", children := ["part"] }
        [("call #orig#(argc=0)", "#orig#"), ("call old(argc=0)", "old")] (ps ++ [top]) := by
  have hwf : Workspace.WellFormed { image := linkedImage } := fresh_wellFormed (by decide)
  have hu : ({ name := "main", children := ["part"] } : CodeUnit) ∈ linkedImage.units := by decide
  obtain ⟨w, hrun⟩ : ∃ w, Run .strict [.softHook "main" "call #orig#(argc=0)" "#orig#",
      .softHook "part" "ret" "#orig#", .defineFunction "late" "call main(argc=0)" 0,
      .softHook "main" "call old(argc=0)" "old"] { image := linkedImage } w :=
    exists_run hwf (by decide)
  obtain ⟨top, ps, h⟩ := run_hookStack hwf.image.units_nodup hu hrun (by decide +kernel)
  exact ⟨w, top, ps, hrun, h⟩

end Engine

end HookPatch
