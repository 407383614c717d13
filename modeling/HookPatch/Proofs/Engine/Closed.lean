import HookPatch.Proofs.Engine.Recording
import HookPatch.Proofs.Engine.Runs
import HookPatch.Proofs.Engine.Simultaneous
import HookPatch.Proofs.Image.Code

namespace HookPatch

open Assembly

namespace Image

/-- Whether all names to which a body refers are taken. -/
def Resolves (image : Image) (body : List Instruction) : Prop :=
  ∀ i ∈ body, ∀ name ∈ i.reference?, image.hasName name

def Closed (image : Image) : Prop := ∀ u ∈ image.units, image.Resolves u.body

instance (image : Image) : Decidable image.Closed :=
  inferInstanceAs (Decidable (∀ u ∈ image.units, ∀ i ∈ u.body, ∀ name ∈ i.reference?,
    image.hasName name))

variable {image image' : Image} {body : List Instruction}

theorem Resolves.mono (h : image.Resolves body) (hnames : image.names ⊆ image'.names) :
    image'.Resolves body :=
  fun i hi name hname ↦ hasName_iff.mpr (hnames (hasName_iff.mp (h i hi name hname)))

theorem resolves_of_knows {target : String} (h : ∀ i ∈ body, Knows image target i)
    (hnames : image.names ⊆ image'.names) (htarget : target ∈ image'.names) :
    image'.Resolves body := by
  intro i hi name hname
  rw [hasName_iff]
  rcases h i hi name hname with rfl | hknown
  · exact htarget
  · exact hnames (hasName_iff.mp hknown)

/-- What another image has to have to be closed, too: all names, and bodies that it has from this
one or that refer to names it has taken. -/
theorem Closed.of_code (h : image.Closed) (hnames : image.names ⊆ image'.names)
    (hcode : ∀ c ∈ image'.code, c.2.1 ∈ image.code.map (·.2.1) ∨ image'.Resolves c.2.1) :
    image'.Closed := by
  intro u hu
  rcases hcode u.code (List.mem_map_of_mem hu) with hold | hnew
  · simp only [code, List.map_map, List.mem_map] at hold
    obtain ⟨v, hv, hbody⟩ := hold
    have hbody : v.body = u.body := hbody
    exact hbody ▸ (h v hv).mono hnames
  · exact hnew

theorem names_subset (hunits : image.units.map (·.name) ⊆ image'.units.map (·.name))
    (hfunctions : image.functions ⊆ image'.functions)
    (hnatives : image.nativeFunctions ⊆ image'.nativeFunctions) : image.names ⊆ image'.names := by
  intro name hname
  simp only [names, List.mem_append] at hname ⊢
  rcases hname with (hname | hname) | hname
  · exact .inl (.inl (hunits hname))
  · exact .inl (.inr (List.map_subset _ hfunctions hname))
  · exact .inr (List.map_subset _ hnatives hname)

theorem functions_subset_declare (image : Image) (name : String) (code : Option String) :
    image.functions ⊆ (image.declare name code).functions := by
  rw [declare]
  split
  · exact List.Subset.refl _
  · exact List.subset_append_left _ _

theorem names_subset_moveBody (image : Image) (index : Nat) (u : CodeUnit) (name : String) :
    image.names ⊆ (image.moveBody index u name).names := by
  refine names_subset (moveBody_names_subset image index u name) ?_ ?_
  · have hfunctions : (({ image with units := image.units.modify index CodeUnit.emptied }.adopt name
        u.children).insertBehind index (u.preservedAs name)).functions = image.functions :=
      adopt_functions _ _
    intro f hf
    exact functions_subset_declare _ name (some name) (by rw [hfunctions]; exact hf)
  · rw [nativeFunctions, nativeFunctions, moveBody_extensions]
    exact List.Subset.refl _

theorem names_subset_define (image : Image) (name : String) (argc : UInt16)
    (body : List Instruction) : image.names ⊆ (image.define name argc body).names := by
  refine names_subset (define_names_subset image name argc body)
    (functions_subset_define image name argc body) ?_
  rw [nativeFunctions, nativeFunctions, define_extensions]
  exact List.Subset.refl _

theorem Closed.define (h : image.Closed) {name : String} (argc : UInt16)
    (hbody : ∀ i ∈ body, Knows image name i) : (image.define name argc body).Closed := by
  refine h.of_code (names_subset_define image name argc body) fun c hc ↦ ?_
  rw [code_define, List.mem_append, List.mem_singleton] at hc
  rcases hc with hc | rfl
  · exact .inl (List.mem_map_of_mem hc)
  · refine .inr (resolves_of_knows hbody (names_subset_define image name argc body) ?_)
    simp [names]

theorem Closed.moveBody (h : image.Closed) {l₁ l₂ : List CodeUnit} {u : CodeUnit}
    (hunits : image.units = l₁ ++ u :: l₂) (name : String) :
    (image.moveBody l₁.length u name).Closed := by
  have hold : image.code = l₁.map CodeUnit.code ++ u.code :: l₂.map CodeUnit.code := by
    rw [code, hunits, List.map_append, List.map_cons]
  refine h.of_code (names_subset_moveBody image _ u name) fun c hc ↦ ?_
  rw [moveBody_code hunits, List.mem_append, List.mem_cons, List.mem_cons] at hc
  rw [hold]
  rcases hc with hc | rfl | rfl | hc
  · exact .inl (List.mem_map_of_mem (List.mem_append_left _ hc))
  · exact .inr fun i hi ↦ absurd hi List.not_mem_nil
  · exact .inl (List.mem_map.mpr ⟨u.code, by simp, rfl⟩)
  · exact .inl (List.mem_map_of_mem (List.mem_append_right _ (List.mem_cons_of_mem _ hc)))

theorem Closed.setBody (h : image.Closed) {c₁ c₂ : List (String × List Instruction × UInt16)}
    {name : String} {old : List Instruction} {argc : UInt16}
    (hcode : image.code = c₁ ++ (name, old, argc) :: c₂) (hbody : ∀ i ∈ body, Knows image name i) :
    (image.setBody c₁.length body).Closed := by
  have hnames : image.names ⊆ (image.setBody c₁.length body).names := by
    refine names_subset ?_ (List.Subset.refl _) (List.Subset.refl _)
    rw [names_eq_of_outline (setBody_outline _ body)]
    exact List.Subset.refl _
  have hname : name ∈ image.names := by
    have hunit : name ∈ image.units.map (·.name) := by
      rw [← map_fst_code, hcode]
      simp
    exact List.mem_append_left _ (List.mem_append_left _ hunit)
  refine h.of_code hnames fun c hc ↦ ?_
  rw [setBody_code hcode, List.mem_append, List.mem_cons] at hc
  rw [hcode]
  rcases hc with hc | rfl | hc
  · exact .inl (List.mem_map_of_mem (List.mem_append_left _ hc))
  · exact .inr (resolves_of_knows hbody hnames (hnames hname))
  · exact .inl (List.mem_map_of_mem (List.mem_append_right _ (List.mem_cons_of_mem _ hc)))

theorem reference_pass {entries : List (String × Redirect)} {i : Instruction} {name : String}
    (h : (Redirects.pass entries i).reference? = some name) :
    i.reference? = some name ∨ ∃ e ∈ entries, e.2.replacement = name := by
  induction entries generalizing i with
  | nil => exact .inl h
  | cons e entries ih =>
    rw [Redirects.pass_cons] at h
    rcases ih h with hi | ⟨e', he', hname⟩
    · by_cases hhits : e.2.Hits e.1 i
      · rw [hhits.apply_reference, Option.some.injEq] at hi
        exact .inr ⟨e, List.mem_cons_self, hi⟩
      · rw [e.2.apply_of_not_hits hhits] at hi
        exact .inl hi
    · exact .inr ⟨e', List.mem_cons_of_mem _ he', hname⟩

theorem Closed.redirectedBy (h : image.Closed) {t : Redirects}
    (hdangling : t.dangling? image = none) :
    (image.redirectedBy (Redirects.pass t.entries)).Closed := by
  have hunits : (image.redirectedBy (Redirects.pass t.entries)).units.map (·.name) =
      image.units.map (·.name) := by
    rw [Image.redirectedBy, List.map_map]
    exact List.map_congr_left fun u _ ↦ u.redirectedBy_name _
  have hnames : image.names ⊆ (image.redirectedBy (Redirects.pass t.entries)).names :=
    names_subset (hunits ▸ List.Subset.refl _) (List.Subset.refl _) (List.Subset.refl _)
  intro u hu
  obtain ⟨v, hv, rfl⟩ := List.mem_map.mp hu
  rw [CodeUnit.redirectedBy]
  split
  · intro i hi name hname
    obtain ⟨j, hj, rfl⟩ := List.mem_map.mp hi
    rcases reference_pass hname with hold | ⟨e, he, rfl⟩
    · exact (h v hv).mono hnames j hj name hold
    · refine hasName_iff.mpr (hnames (List.mem_append_left _ (List.mem_append_left _ ?_)))
      exact dangling?_eq_none_iff.mp hdangling e he
  · exact (h v hv).mono hnames

end Image

namespace Engine

variable {w : Workspace}

theorem knows_of_assembleFor {image : Image} {target source : String} {body : List Instruction}
    (h : assembleFor .strict image target source = .ok body) :
    ∀ i ∈ body, Knows image target i := by
  rw [assembleFor] at h
  cases hassemble : assemble .strict image target source with
  | error e =>
    rw [hassemble] at h
    cases h
  | ok body' =>
    rw [hassemble] at h
    cases h
    exact (assemble_strict_iff.mp hassemble).2

def Operation.isEdit : Operation → Bool
  | editInnermost _ _ => true
  | _ => false

section Step

variable (h : w.image.Closed)

include h

theorem softHook_closed (code source placeholder : String) :
    (stateAfter (softHook .strict code source placeholder) w).image.Closed := by
  rcases softHook_cases .strict w code source placeholder with
    ⟨-, heq⟩ | ⟨l₁, u, l₂, preserved, moved, -, rfl, hunits, hmove, hresult⟩
  · rw [stateAfter_error heq]
    exact h
  obtain ⟨names, -, rfl⟩ := Workspace.preserve_eq hmove
  have hmoved : (w.image.moveBody l₁.length u preserved).Closed := h.moveBody hunits preserved
  rcases hresult with ⟨e, -, heq⟩ | ⟨body, hbody, heq⟩
  · rw [stateAfter_error heq]
    exact hmoved
  · rw [stateAfter_ok heq]
    have hset := hmoved.setBody (Image.moveBody_code hunits preserved) (knows_of_assembleFor hbody)
    rwa [List.length_map] at hset

theorem hardHook_closed (function source : String) (argc : UInt16) (placeholder : String) :
    (stateAfter (hardHook .strict function source argc placeholder) w).image.Closed := by
  rcases hardHook_cases .strict w function source argc placeholder with
    ⟨-, heq⟩ | ⟨name, names, -, -, ⟨e, heq⟩ | ⟨body, hbody, heq⟩⟩
  · rw [stateAfter_error heq]
    exact h
  · rw [stateAfter_error heq]
    exact h
  · rw [stateAfter_ok heq]
    exact h.define argc (knows_of_assembleFor hbody)

theorem arityHook_closed (function source placeholder : String) :
    (stateAfter (arityHook .strict function source placeholder) w).image.Closed := by
  rcases arityHook_cases .strict w function source placeholder with ⟨-, heq⟩ | ⟨argc, -, heq⟩
  · rw [stateAfter_error heq]
    exact h
  · rw [stateAfter_congr heq]
    exact hardHook_closed h function source argc placeholder

theorem defineFunction_closed (name source : String) (argc : UInt16) :
    (stateAfter (defineFunction .strict name source argc) w).image.Closed := by
  rcases defineFunction_cases .strict w name source argc with ⟨e, heq⟩ | ⟨body, -, hbody, heq⟩
  · rw [stateAfter_error heq]
    exact h
  · rw [stateAfter_ok heq]
    exact h.define argc (knows_of_assembleFor hbody)

theorem addSelector_closed (library : String) :
    (stateAfter (Export.addSelector library) w).image.Closed := by
  rcases addSelector_cases w library with heq | ⟨extension, f, ids, -, -, -, heq⟩
  · rw [stateAfter_error heq]
    exact h
  · rw [stateAfter_ok heq]
    have hnames : w.image.names ⊆ (w.image.addExtension extension).names := by
      refine Image.names_subset (List.Subset.refl _) (List.Subset.refl _) ?_
      rw [Image.nativeFunctions, Image.nativeFunctions, Image.addExtension, List.flatMap_append]
      exact List.subset_append_left _ _
    exact fun u hu ↦ (h u hu).mono hnames

theorem register_closed (x : Export) (modId : String) :
    (stateAfter (x.register .strict modId) w).image.Closed := by
  rcases register_cases .strict w x modId with
    ⟨e, ids, heq⟩ | ⟨f, image, ids, -, -, hadd, heq⟩
  · rw [stateAfter_error heq]
    exact h
  · obtain ⟨hunits, hfunctions, hnatives⟩ := Export.addNative_spec hadd
    have hnames : w.image.names ⊆ image.names :=
      Image.names_subset (hunits ▸ List.Subset.refl _) (hfunctions ▸ List.Subset.refl _)
        fun g hg ↦ hnatives.mem_iff.mpr (List.mem_cons_of_mem _ hg)
    have himage : image.Closed := fun u hu ↦ (h u (hunits ▸ hu)).mono hnames
    rw [stateAfter_congr heq]
    exact defineFunction_closed himage x.name _ x.argc

theorem applyRedirects_closed : (stateAfter applyRedirects w).image.Closed := by
  rcases applyRedirects_cases w with ⟨n, heq⟩ | ⟨e, heq⟩ | ⟨n, image, himage, heq⟩
  · rw [stateAfter_ok heq]
    exact h
  · rw [stateAfter_error heq]
    exact h
  · rw [stateAfter_ok heq]
    cases hdangling : w.session.redirects.dangling? w.image with
    | some e =>
      rw [redirectImage_eq_error hdangling] at himage
      cases himage
    | none =>
      rw [redirectImage_eq_ok hdangling] at himage
      cases himage
      exact h.redirectedBy hdangling

theorem after_closed {op : Operation} (hop : ¬ op.isEdit) : (op.after .strict w).image.Closed := by
  cases op with
  | softHook code source placeholder => exact softHook_closed h code source placeholder
  | hardHook function source argc placeholder =>
    exact hardHook_closed h function source argc placeholder
  | arityHook function source placeholder => exact arityHook_closed h function source placeholder
  | editInnermost name edit => exact absurd rfl hop
  | defineFunction name source argc => exact defineFunction_closed h name source argc
  | addSelector library => exact addSelector_closed h library
  | registerExport x modId => exact register_closed h x modId
  | applyRedirects => exact applyRedirects_closed h

end Step

/-- With the strict assembler a closed image stays closed, whatever operations there are, those that
fail included. Only an edit by a cursor may write a name that nothing has. -/
theorem afterAll_closed (h : w.image.Closed) {ops : List Operation}
    (hops : ∀ op ∈ ops, ¬ op.isEdit) :
    (afterAll .strict ops w).image.Closed := by
  induction ops generalizing w with
  | nil => exact h
  | cons op ops ih =>
    obtain ⟨hop, hops⟩ := List.forall_mem_cons.mp hops
    exact ih (after_closed h hop) hops

def exportingHooks : List Operation :=
  [.softHook "main" "call #orig#(argc=0)\npush.f main" "#orig#",
    .softHook "main" "call nowhere(argc=0)" "#orig#",
    .hardHook "f" "call #orig#(argc=1)" 1 "#orig#", .addSelector "host.dll",
    .registerExport { name := "score", argc := 1, symbol := "on_score" } "mod",
    .registerExport { name := "f", argc := 1, symbol := "on_f" } "mod", .applyRedirects]

theorem afterAll_closed_exporting :
    aritiesImage.Closed ∧ (∀ op ∈ exportingHooks, ¬ op.isEdit) ∧
      (afterAll .strict exportingHooks { image := aritiesImage }).image.Closed := by
  have hclosed : aritiesImage.Closed := by decide
  have hops : ∀ op ∈ exportingHooks, ¬ op.isEdit := by decide
  exact ⟨hclosed, hops, afterAll_closed hclosed hops⟩

end Engine

end HookPatch
