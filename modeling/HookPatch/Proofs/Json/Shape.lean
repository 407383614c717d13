import HookPatch.Proofs.Json.Members
import Mathlib.Logic.Relation
import Mathlib.Tactic.SplitIfs

namespace HookPatch.Json

/-- The shape of the documents of a type: which changes in a single place mean nothing, and what is no
document of the type. -/
structure Shape where
  edit : Json → Json → Prop
  fault : Json → Prop

/-- A field of a record, and what it is when it is left out. -/
structure Field where
  name : String
  shape : Shape
  default? : Option Json

/-- What is no value of a field, where `none` is the lack of one. -/
inductive Field.Faulty (field : Field) : Option Json → Prop
  | missing : field.default? = none → Faulty field none
  | inside {j : Json} : field.shape.fault j → Faulty field (some j)

namespace Shape

inductive ItemEdit (f : Shape) : Json → Json → Prop
  | item {before after : List Json} {j j' : Json} : f.edit j j' →
      ItemEdit f (.array (before ++ j :: after)) (.array (before ++ j' :: after))

inductive ItemFault (f : Shape) : Json → Prop
  | item {items : List Json} {j : Json} : j ∈ items → f.fault j → ItemFault f (.array items)

inductive RecordEdit (fields : List Field) : Json → Json → Prop
  | reorder {members members' : List (Option String × Json)} : members.Perm members' →
      RecordEdit fields (.object members) (.object members')
  | add {members : List (Option String × Json)} {key : String} {value : Json} :
      key ∉ fields.map (·.name) →
      RecordEdit fields (.object members) (.object ((some key, value) :: members))
  | leaveOut {members : List (Option String × Json)} {field : Field} {value : Json} :
      field ∈ fields → field.default? = some value →
      RecordEdit fields (.object ((some field.name, value) :: members)) (.object members)
  | inside {members : List (Option String × Json)} {field : Field} {j j' : Json} :
      field ∈ fields → field.shape.edit j j' →
      RecordEdit fields (.object ((some field.name, j) :: members))
        (.object ((some field.name, j') :: members))

inductive RecordFault (fields : List Field) : Json → Prop
  | missing {members : List (Option String × Json)} {field : Field} :
      field ∈ fields → field.default? = none → some field.name ∉ members.map Prod.fst →
      RecordFault fields (.object members)
  | twice {members rest : List (Option String × Json)} {field : Field} {j j' : Json} :
      field ∈ fields → members.Perm ((some field.name, j) :: (some field.name, j') :: rest) →
      RecordFault fields (.object members)
  | inside {members : List (Option String × Json)} {field : Field} {j : Json} :
      field ∈ fields → (some field.name, j) ∈ members → field.shape.fault j →
      RecordFault fields (.object members)
  | listed {items : List Json} {i : Nat} {field : Field} :
      fields[i]? = some field → field.Faulty items[i]? → RecordFault fields (.array items)

/-- An object that has a single key, here `name`. -/
inductive VariantEdit (name : String) (f : Shape) : Json → Json → Prop
  | inside {j j' : Json} : f.edit j j' →
      VariantEdit name f (.object [(some name, j)]) (.object [(some name, j')])

inductive VariantFault (name : String) (f : Shape) : Json → Prop
  | several {m m' : Option String × Json} {members : List (Option String × Json)} :
      VariantFault name f (.object (m :: m' :: members))
  | inside {j : Json} : f.fault j → VariantFault name f (.object [(some name, j)])

def rigid : Shape where
  edit _ _ := False
  fault _ := False

def items (f : Shape) : Shape where
  edit := f.ItemEdit
  fault := f.ItemFault

def variant (f : Shape) (name : String) : Shape where
  edit := VariantEdit name f
  fault := VariantFault name f

def record (fields : List Field) : Shape where
  edit := RecordEdit fields
  fault := RecordFault fields

end Shape

namespace Field

def required (name : String) (f : Shape) : Field := ⟨name, f, none⟩

def optional (name : String) (f : Shape) (d : Json) : Field := ⟨name, f, some d⟩

/-- Whether a field may go from one value to another, where `none` is no value. -/
inductive Alike (field : Field) : Option Json → Option Json → Prop
  | same (value : Option Json) : Alike field value value
  | leftOut {j : Json} : field.default? = some j → Alike field (some j) none
  | inside {j j' : Json} : field.shape.edit j j' → Alike field (some j) (some j')

end Field

variable {α β : Type} {f : Shape} {field : Field} {fields : List Field}

structure Shape.Suits (f : Shape) (read : Json → Option α) : Prop where
  edit {j j' : Json} {a : α} : f.edit j j' → read j = some a → read j' = some a
  fault {j : Json} : f.fault j → read j = none

structure Field.Suits (field : Field) (read : Option Json → Option α) : Prop where
  alike {value value' : Option Json} {a : α} :
    field.Alike value value' → read value = some a → read value' = some a
  faulty {value : Option Json} : field.Faulty value → read value = none

/-- Whether a reader of fields, given by name, suits the shapes of the fields. -/
structure Reads (fields : List Field) (run : (String → Option Json) → Option α) : Prop where
  alike {values values' : String → Option Json} {a : α} :
    (∀ field ∈ fields, field.Alike (values field.name) (values' field.name)) →
    run values = some a → run values' = some a
  faulty {values : String → Option Json} :
    (∃ field ∈ fields, field.Faulty (values field.name)) → run values = none

theorem Shape.Suits.edits {read : Json → Option α} (h : f.Suits read) {j j' : Json} {a : α}
    (hedits : Relation.ReflTransGen f.edit j j') (hread : read j = some a) : read j' = some a := by
  induction hedits with
  | refl => exact hread
  | tail _ hedit ih => exact h.edit hedit ih

theorem Shape.Suits.rigid (read : Json → Option α) : Shape.rigid.Suits read := ⟨nofun, nofun⟩

theorem Shape.Suits.variant {name : String} {read operand : Json → Option α}
    (hone : ∀ j, read (.object [(some name, j)]) = operand j)
    (hseveral : ∀ m m' members, read (.object (m :: m' :: members)) = none)
    (h : f.Suits operand) : (f.variant name).Suits read where
  edit := by
    rintro _ _ a ⟨hedit⟩ hread
    rw [hone] at hread ⊢
    exact h.edit hedit hread
  fault := by
    rintro _ (_ | hfault)
    · exact hseveral _ _ _
    · rw [hone]
      exact h.fault hfault

theorem Shape.Suits.items {read : Json → Option α} (h : f.Suits read) :
    f.items.Suits (list? read) where
  edit := by
    rintro _ _ as ⟨hedit⟩ hread
    simp only [list?, List.mapM_append, List.mapM_cons, Option.bind_eq_bind,
      Option.bind_eq_some_iff, pure, Option.some.injEq] at hread ⊢
    obtain ⟨xs, hbefore, _, ⟨a, hj, hafter⟩, rfl⟩ := hread
    exact ⟨xs, hbefore, _, ⟨a, h.edit hedit hj, hafter⟩, rfl⟩
  fault := by
    rintro _ ⟨hmem, hfault⟩
    obtain ⟨before, after, rfl⟩ := List.append_of_mem hmem
    rw [list?, List.mapM_append, List.mapM_cons, h.fault hfault]
    cases before.mapM read <;> rfl

theorem Field.Suits.required {read : Json → Option α} (name : String) (h : f.Suits read) :
    (Field.required name f).Suits (Json.required read) where
  alike := by
    rintro _ _ a (_ | hdefault | hedit) hread
    · exact hread
    · cases hdefault
    · exact h.edit hedit hread
  faulty := by
    rintro _ (_ | hfault)
    · rfl
    · exact h.fault hfault

theorem Field.Suits.optional {read : Json → Option α} {d : Json} {a : α} (name : String)
    (h : f.Suits read) (hd : read d = some a) :
    (Field.optional name f d).Suits (orDefault a read) where
  alike := by
    rintro _ _ b (_ | hdefault | hedit) hread
    · exact hread
    · obtain rfl := Option.some.inj hdefault
      exact hd.symm.trans hread
    · exact h.edit hedit hread
  faulty := by
    rintro _ (hdefault | hfault)
    · cases hdefault
    · exact h.fault hfault

theorem reads_nil (a : α) : Reads [] fun _ ↦ some a := ⟨fun _ h ↦ h, nofun⟩

theorem reads_cons {read : Option Json → Option β} {run : β → (String → Option Json) → Option α}
    (hfield : field.Suits read) (hrun : ∀ b, Reads fields (run b)) :
    Reads (field :: fields) fun values ↦ (read (values field.name)).bind fun b ↦ run b values where
  alike := by
    intro values values' a halike h
    obtain ⟨hhead, htail⟩ := List.forall_mem_cons.mp halike
    obtain ⟨b, hb, hrest⟩ := Option.bind_eq_some_iff.mp h
    exact Option.bind_eq_some_iff.mpr ⟨b, hfield.alike hhead hb, (hrun b).alike htail hrest⟩
  faulty := by
    intro values hfaulty
    obtain ⟨g, hg, hfault⟩ := hfaulty
    rcases List.mem_cons.mp hg with rfl | hg
    · rw [hfield.faulty hfault, Option.bind_none]
    · exact Option.bind_eq_none_iff.mpr fun b _ ↦ (hrun b).faulty ⟨g, hg, hfault⟩

section Members

variable {members members' : List (Option String × Json)} {names : List String}

/-- A change in a record changes the value of a field, if at all, as the field allows it. -/
theorem Shape.RecordEdit.exists_alike (hnodup : (fields.map (·.name)).Nodup)
    (h : RecordEdit fields (.object members) (.object members')) (hfield : field ∈ fields)
    {value : Option Json} (hvalue : member? members field.name = some value) :
    ∃ value', member? members' field.name = some value' ∧ field.Alike value value' := by
  have hsame {g : Field} (hg : g ∈ fields) (hname : g.name = field.name) : g = field :=
    List.inj_on_of_nodup_map hnodup hg hfield hname
  cases h with
  | reorder hperm => exact ⟨value, (member?_perm hperm _).symm.trans hvalue, .same value⟩
  | add hnew =>
    refine ⟨value, ?_, .same value⟩
    rwa [member?_cons_of_ne]
    intro heq
    exact hnew (Option.some.inj heq ▸ List.mem_map_of_mem hfield)
  | @leaveOut _ g d hg hdefault =>
    by_cases hname : g.name = field.name
    · obtain rfl := hsame hg hname
      obtain ⟨rfl, hrest⟩ := member?_cons_self_eq_some hvalue
      exact ⟨none, member?_of_not_mem hrest, .leftOut hdefault⟩
    · rw [member?_cons_of_ne (mt Option.some.inj hname)] at hvalue
      exact ⟨value, hvalue, .same value⟩
  | @inside _ g j j' hg hedit =>
    by_cases hname : g.name = field.name
    · obtain rfl := hsame hg hname
      obtain ⟨rfl, hrest⟩ := member?_cons_self_eq_some hvalue
      exact ⟨some j', member?_cons_self_of_not_mem hrest, .inside hedit⟩
    · rw [member?_cons_of_ne (mt Option.some.inj hname)] at hvalue ⊢
      exact ⟨value, hvalue, .same value⟩

theorem Shape.RecordEdit.isSome_key (h : RecordEdit fields (.object members) (.object members'))
    (hkeys : ∀ m ∈ members, m.1.isSome) : ∀ m ∈ members', m.1.isSome := by
  cases h with
  | reorder hperm => exact fun m hm ↦ hkeys m (hperm.mem_iff.mpr hm)
  | add => exact List.forall_mem_cons.mpr ⟨rfl, hkeys⟩
  | leaveOut => exact (List.forall_mem_cons.mp hkeys).2
  | inside => exact List.forall_mem_cons.mpr ⟨rfl, (List.forall_mem_cons.mp hkeys).2⟩

theorem Shape.RecordFault.faulty (h : RecordFault fields (.object members))
    (hmembers : Readable (fields.map (·.name)) members) :
    ∃ field ∈ fields, field.Faulty (valueOf members field.name) := by
  have hsome {field : Field} (hfield : field ∈ fields) :
      (member? members field.name).isSome := hmembers.2 _ (List.mem_map_of_mem hfield)
  cases h with
  | missing hfield hdefault hnone =>
    refine ⟨_, hfield, ?_⟩
    rw [valueOf, member?_of_not_mem hnone]
    exact .missing hdefault
  | @twice _ rest field j j' hfield hperm =>
    have hmem : some field.name ∈ ((some field.name, j') :: rest).map Prod.fst :=
      List.mem_cons_self
    have h := hsome hfield
    rw [member?_perm hperm, member?_cons_self_of_mem hmem] at h
    cases h
  | @inside _ field j hfield hmem hfault =>
    obtain ⟨before, after, rfl⟩ := List.append_of_mem hmem
    have hperm : (before ++ (some field.name, j) :: after).Perm
        ((some field.name, j) :: (before ++ after)) := List.perm_middle
    obtain ⟨value, hvalue⟩ := Option.isSome_iff_exists.mp (hsome hfield)
    refine ⟨field, hfield, ?_⟩
    rw [valueOf, hvalue]
    rw [member?_perm hperm] at hvalue
    obtain ⟨rfl, -⟩ := member?_cons_self_eq_some hvalue
    exact .inside hfault

theorem Shape.RecordEdit.readable (hnodup : (fields.map (·.name)).Nodup)
    (h : RecordEdit fields (.object members) (.object members'))
    (hmembers : Readable (fields.map (·.name)) members) :
    Readable (fields.map (·.name)) members' ∧
      ∀ field ∈ fields, field.Alike (valueOf members field.name) (valueOf members' field.name) := by
  have halike (field : Field) (hfield : field ∈ fields) :
      (member? members' field.name).isSome ∧
        field.Alike (valueOf members field.name) (valueOf members' field.name) := by
    obtain ⟨value, hvalue⟩ :=
      Option.isSome_iff_exists.mp (hmembers.2 _ (List.mem_map_of_mem hfield))
    obtain ⟨value', hvalue', hfieldAlike⟩ := h.exists_alike hnodup hfield hvalue
    rw [valueOf, valueOf, hvalue, hvalue']
    exact ⟨rfl, hfieldAlike⟩
  exact ⟨⟨h.isSome_key hmembers.1, List.forall_mem_map.mpr fun g hg ↦ (halike g hg).1⟩,
    fun g hg ↦ (halike g hg).2⟩

/-- The values that an array lists are those of the fields under some names. -/
theorem exists_values (hnodup : names.Nodup) {listed : List (Option Json)}
    (hlength : listed.length = names.length) :
    ∃ values : String → Option Json, names.map values = listed := by
  refine ⟨fun name ↦ (listed[names.idxOf name]?).join, ?_⟩
  refine List.ext_getElem (by rw [List.length_map, hlength]) fun i hi hi' ↦ ?_
  have hname : i < names.length := hlength ▸ hi'
  rw [List.getElem_map, hnodup.idxOf_getElem i hname, List.getElem?_eq_getElem hi',
    Option.join_some]

theorem Reads.eq_none_of_listed {run : (String → Option Json) → Option α}
    {ofValues : List (Option Json) → Option α} (hnodup : (fields.map (·.name)).Nodup)
    (hrun : Reads fields run)
    (hvalues : ∀ values : String → Option Json,
      ofValues ((fields.map (·.name)).map values) = run values)
    {items : List Json} {i : Nat} (hfield : fields[i]? = some field)
    (hfaulty : field.Faulty items[i]?) :
    ((array items).fields? (fields.map (·.name))).bind ofValues = none := by
  rw [fields?, List.length_map]
  split_ifs with hlength
  · let listed := items.map some ++ List.replicate (fields.length - items.length) none
    have hlisted : listed.length = (fields.map (·.name)).length := by
      simp only [listed, List.length_append, List.length_map, List.length_replicate]
      omega
    obtain ⟨values, hmap⟩ := exists_values hnodup hlisted
    have hvalue : values field.name = items[i]? := by
      have hi : listed[i]? = some (values field.name) := by
        rw [← hmap, List.getElem?_map, List.getElem?_map, hfield]
        rfl
      rw [List.getElem?_append, List.length_map] at hi
      split_ifs at hi with hinside
      · rw [List.getElem?_map, List.getElem?_eq_getElem hinside] at hi
        rw [List.getElem?_eq_getElem hinside]
        exact (Option.some.inj hi).symm
      · rw [List.getElem?_eq_none (Nat.not_lt.mp hinside)]
        exact List.eq_of_mem_replicate (List.mem_of_getElem? hi)
    change ofValues listed = none
    rw [← hmap, hvalues]
    exact hrun.faulty ⟨field, List.mem_of_getElem? hfield, hvalue ▸ hfaulty⟩
  · rfl

theorem Shape.Suits.record {read : Json → Option α} {run : (String → Option Json) → Option α}
    {ofValues : List (Option Json) → Option α} (hnodup : (fields.map (·.name)).Nodup)
    (hrun : Reads fields run)
    (hread : ∀ j, read j = (j.fields? (fields.map (·.name))).bind ofValues)
    (hvalues : ∀ values : String → Option Json,
      ofValues ((fields.map (·.name)).map values) = run values) :
    (Shape.record fields).Suits read := by
  have hobject (members : List (Option String × Json)) : read (.object members) =
      if Readable (fields.map (·.name)) members then run (valueOf members) else none := by
    rw [hread, fields?_object]
    split_ifs
    · exact hvalues _
    · rfl
  refine ⟨fun {j j' a} hedit h ↦ ?_, fun {j} hfault ↦ ?_⟩
  · obtain ⟨members, members', rfl, rfl⟩ : ∃ members members', j = .object members ∧
        j' = .object members' := by
      cases hedit <;> exact ⟨_, _, rfl, rfl⟩
    rw [hobject] at h ⊢
    split_ifs at h with hmembers
    obtain ⟨hmembers', halike⟩ := hedit.readable hnodup hmembers
    rw [if_pos hmembers']
    exact hrun.alike halike h
  · cases j with
    | object members =>
      rw [hobject]
      split_ifs with hmembers
      · exact hrun.faulty (hfault.faulty hmembers)
      · rfl
    | array items =>
      cases hfault with
      | listed hfield hfaulty =>
        rw [hread]
        exact hrun.eq_none_of_listed hnodup hvalues hfield hfaulty
    | _ => cases hfault

end Members

end HookPatch.Json
