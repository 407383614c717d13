import HookPatch.Proofs.ImageFile
import HookPatch.Proofs.Mod.Discovery
import HookPatch.Proofs.Run.Calls

namespace HookPatch

variable {σ α β : Type}

def phases (rebuilds : Bool) (ids : List String) : List Event :=
  ids.map .instantiate ++
    ((if rebuilds then ids.map .prepare ++ ids.map .patch else []) ++ ids.map .start)

theorem nodup_phases {ids : List String} (h : ids.Nodup) (rebuilds : Bool) :
    (phases rebuilds ids).Nodup := by
  have hinstantiate : (ids.map Event.instantiate).Nodup :=
    h.map fun _ _ h ↦ Event.instantiate.inj h
  have hprepare : (ids.map Event.prepare).Nodup := h.map fun _ _ h ↦ Event.prepare.inj h
  have hpatch : (ids.map Event.patch).Nodup := h.map fun _ _ h ↦ Event.patch.inj h
  have hstart : (ids.map Event.start).Nodup := h.map fun _ _ h ↦ Event.start.inj h
  rw [phases]
  cases rebuilds
  all_goals
    simp only [List.nodup_append, hinstantiate, hprepare, hpatch, hstart, if_true, if_false,
      Bool.false_eq_true, List.nodup_nil]
    grind

namespace Patcher

open Run

def decideFor (l : Patcher σ) (mods : List Mod) : Run σ Bool := do
  let f ← surveying fun t ↦ l.fingerprint t mods
  let _ ← mods.mapM l.instantiate
  reading (l.isStale f)

/-- Whether a run comes to build the patched image, which it only does if every mod can be
instantiated. -/
def isRebuilding (l : Patcher σ) (p : Progress σ) : Bool :=
  value? (do let order ← surveying l.loadOrder; l.decideFor order.mods) p = some true

theorem foldlM_registerExport (l : Patcher σ) (m : LoadedMod σ) (exports : List Export)
    (work : Workspace) (p : Progress σ) : exports.foldlM (l.registerExport m) work p =
      let begun := Export.begun l.strictness m.mod.id exports work
      let q := { p with events := p.events ++ begun.map fun x ↦ .registerExport m.mod.id x.name }
      match Export.registerAll l.strictness m.mod.id exports work with
      | .ok _ work => .ok work q
      | .error e _ => .error (.modFailed m.mod.id .interop e.failure) q := by
  induction exports generalizing work p with
  | nil => simp [Export.begun, Export.registerAll, pure, EStateM.pure]
  | cons x exports ih =>
    have hregister : l.registerExport m work x p =
        match x.register l.strictness m.mod.id work with
        | .ok _ work => .ok work (p.noted (.registerExport m.mod.id x.name))
        | .error e _ => .error (.modFailed m.mod.id .interop e.failure)
            (p.noted (.registerExport m.mod.id x.name)) := by
      rw [registerExport, note_bind, editing]
      cases x.register l.strictness m.mod.id work <;> rfl
    have hall : Export.registerAll l.strictness m.mod.id (x :: exports) =
        x.register l.strictness m.mod.id >>= fun _ ↦
          Export.registerAll l.strictness m.mod.id exports := rfl
    rw [List.foldlM_cons, hall, Export.begun]
    cases hx : x.register l.strictness m.mod.id work with
    | error e work' =>
      rw [hx] at hregister
      rw [HookPatch.bind_error hregister, HookPatch.bind_error hx]
      rfl
    | ok _ work' =>
      rw [hx] at hregister
      rw [HookPatch.bind_ok hregister, HookPatch.bind_ok hx, ih]
      simp [Progress.noted]

variable {l : Patcher σ} {ids : List String} {mode : Assembly.Strictness}

section Phases

theorem silent_reading (f : FileTree → Except RunError α) (p : Progress (Journaled σ)) :
    Performs.Silent (reading f) p := by
  rw [Performs.Silent, stateAfter, reading]
  cases f p.host.files <;> exact ⟨rfl, rfl⟩

theorem silent_surveying (f : FileTree → Survey α) (p : Progress (Journaled σ)) :
    Performs.Silent (surveying f) p := by
  rw [Performs.Silent, stateAfter, surveying]
  cases f p.host.files p.host.warnings <;> exact ⟨rfl, rfl⟩

theorem silent_writing (x : EStateM RunError FileTree α) (p : Progress (Journaled σ)) :
    Performs.Silent (writing x) p := by
  rw [Performs.Silent, stateAfter, writing]
  cases x p.host.files <;> exact ⟨rfl, rfl⟩

theorem silent_editing (blame : EditError → RunError) (x : Edit Unit) (w : Workspace)
    (p : Progress (Journaled σ)) : Performs.Silent (editing blame x w) p := by
  rw [Performs.Silent, stateAfter, editing]
  cases x w <;> exact ⟨rfl, rfl⟩

theorem calling_journaled (call : Option Failure → Call) (event : Event)
    (blame : Failure → RunError) (x : Callback σ α) (g : α → β) (p : Progress (Journaled σ)) :
    calling event blame (Callback.journaled x call g) p =
      let noted (host : Host σ) (c : Call) : Progress (Journaled σ) :=
        ⟨host.journaled (p.host.state.calls ++ [c]), p.events ++ [event]⟩
      match x p.host.plain with
      | .ok a host => .ok (g a) (noted host (call none))
      | .error e host => .error (blame e) (noted host (call (some e))) := by
  rw [calling_eq, Callback.journaled]
  cases x p.host.plain <;> rfl

theorem performs_calling (call : Option Failure → Call) {event : Event}
    {blame : Failure → RunError} (hevent : ∀ cause, (call cause).event = event)
    (hevents : ∀ cause, (call cause).events mode = [event])
    (hfailure : ∀ cause, (call cause).failure? mode = cause.map blame) (x : Callback σ α)
    (g : α → β) (p : Progress (Journaled σ)) :
    ∃ calls, Performs mode [event] (calling event blame (Callback.journaled x call g)) p calls := by
  have hcalling := calling_journaled call event blame x g p
  cases hx : x p.host.plain with
  | ok a host =>
    rw [hx] at hcalling
    refine ⟨[call none], Performs.single (hevent none) ?_ ?_ ?_⟩
    · rw [stateAfter_ok hcalling]
      rfl
    · rw [stateAfter_ok hcalling, List.filter_append, ← hevents none, Call.filter_events]
    · rw [failure?_ok hcalling, hfailure]
      rfl
  | error e host =>
    rw [hx] at hcalling
    refine ⟨[call (some e)], Performs.single (hevent (some e)) ?_ ?_ ?_⟩
    · rw [stateAfter_error hcalling]
      rfl
    · rw [stateAfter_error hcalling, List.filter_append, ← hevents (some e), Call.filter_events]
    · rw [failure?_error hcalling, hfailure]
      rfl

theorem performs_instantiate {m : Mod} (h : m.id ∈ ids) (p : Progress (Journaled σ)) :
    ∃ calls, Performs mode [.instantiate m.id] ((l.journaled ids).instantiate m) p calls := by
  apply Performs.before
  · change ∃ calls, Performs mode _ (calling _ _ ((l.catalog.journaled ids).instantiate m)) p calls
    rw [Catalog.instantiate_journaled h]
    exact performs_calling (.instantiate m.id) (fun _ ↦ rfl) (fun _ ↦ rfl) (fun _ ↦ rfl) _ _ p
  · intro logic q _
    exact Performs.pure _ q

theorem performs_prepare (image : Image) (m : LoadedMod σ) (p : Progress (Journaled σ)) :
    ∃ calls, Performs mode [.prepare m.mod.id] (prepare image m.journaled) p calls := by
  apply Performs.after (silent_reading _ p)
  intro env q _
  apply Performs.before
  · exact performs_calling (.prepare m.mod.id) (fun _ ↦ rfl) (fun _ ↦ rfl) (fun _ ↦ rfl) _ _ q
  · intro _ q _
    exact Performs.pure _ q

theorem performs_start (m : LoadedMod σ) (p : Progress (Journaled σ)) :
    ∃ calls, Performs mode [.start m.mod.id] (start m.journaled) p calls :=
  performs_calling (.start m.mod.id) (fun _ ↦ rfl) (fun _ ↦ rfl) (fun _ ↦ rfl) _ _ p

variable (l ids) in
theorem patch_journaled (m : LoadedMod σ) (env : Environment) (work : Workspace)
    (p : Progress (Journaled σ)) : (l.journaled ids).patch work (m.journaled, env) p =
      let noted (host : Host σ) (c : Call) : Progress (Journaled σ) :=
        ⟨host.journaled (p.host.state.calls ++ [c]), p.events ++ c.events l.strictness⟩
      match l.patching m env work p.host.plain with
      | .error e host => .error (.modFailed m.mod.id .patch e)
          (noted host (.patch m.mod.id work (.error e)))
      | .ok left host =>
        let exports := m.logic.exports host
        let q := noted host (.patch m.mod.id work (.ok (left, exports)))
        match Export.registerAll l.strictness m.mod.id exports left with
        | .ok _ w => .ok w q
        | .error e _ => .error (.modFailed m.mod.id .interop e.failure) q := by
  have hpatching := patching_journaled l ids m env work p.host
  cases hx : l.patching m env work p.host.plain with
  | error e host =>
    apply HookPatch.bind_error
    rw [calling_eq, hpatching, hx]
    rfl
  | ok left host =>
    let exports := m.logic.exports host
    let c := Call.patch m.mod.id work (.ok (left, exports))
    let q : Progress (Journaled σ) :=
      ⟨host.journaled (p.host.state.calls ++ [c]), p.events ++ [.patch m.mod.id]⟩
    have hcalling : calling (.patch m.mod.id) (.modFailed m.mod.id .patch)
        ((l.journaled ids).patching m.journaled env work) p = .ok left q := by
      rw [calling_eq, hpatching, hx]
    have hfold := foldlM_registerExport (l.journaled ids) m.journaled exports left q
    simp only [q, List.append_assoc] at hfold
    exact (HookPatch.bind_ok hcalling).trans hfold

variable (l ids) in
/-- A mod patches, and the exports that it then asks for are registered. -/
theorem performs_patch (m : LoadedMod σ) (env : Environment) (work : Workspace)
    (p : Progress (Journaled σ)) :
    ∃ c : Call, c.given? = some work ∧
      Performs l.strictness [.patch m.mod.id] ((l.journaled ids).patch work (m.journaled, env)) p
        [c] ∧
      ∀ work' q, (l.journaled ids).patch work (m.journaled, env) p = .ok work' q →
        c.handedOn? l.strictness = some work' := by
  have hpatch := patch_journaled l ids m env work p
  cases hx : l.patching m env work p.host.plain with
  | error e host =>
    rw [hx] at hpatch
    refine ⟨.patch m.mod.id work (.error e), rfl, ?_, fun work' q h ↦ ?_⟩
    · refine Performs.single rfl ?_ ?_ ?_
      · rw [stateAfter_error hpatch]
        rfl
      · rw [stateAfter_error hpatch, List.filter_append, Call.filter_events]
      · exact failure?_error hpatch
    · rw [hpatch] at h
      cases h
  | ok left host =>
    let c := Call.patch m.mod.id work (.ok (left, m.logic.exports host))
    rw [hx] at hpatch
    refine ⟨c, rfl, ?_⟩
    cases hall : Export.registerAll l.strictness m.mod.id (m.logic.exports host) left with
    | ok _ w =>
      simp only [hall] at hpatch
      refine ⟨?_, fun work' q h ↦ ?_⟩
      · refine Performs.single rfl ?_ ?_ ?_
        · rw [stateAfter_ok hpatch]
          rfl
        · rw [stateAfter_ok hpatch, List.filter_append, Call.filter_events]
        · rw [failure?_ok hpatch, Call.failure?, failure?_ok hall]
          rfl
      · rw [hpatch] at h
        cases h
        rw [Call.handedOn?, stateAfter_ok hall]
    | error e w =>
      simp only [hall] at hpatch
      refine ⟨?_, fun work' q h ↦ ?_⟩
      · refine Performs.single rfl ?_ ?_ ?_
        · rw [stateAfter_error hpatch]
          rfl
        · rw [stateAfter_error hpatch, List.filter_append, Call.filter_events]
        · rw [failure?_error hpatch, Call.failure?, failure?_error hall]
          rfl
      · rw [hpatch] at h
        cases h

variable (l ids) in
theorem performs_patches (pairs : List (LoadedMod σ × Environment)) (work : Workspace)
    (p : Progress (Journaled σ)) :
    ∃ calls, Performs l.strictness (pairs.map fun pair ↦ .patch pair.1.mod.id)
        ((pairs.map (Prod.map LoadedMod.journaled id)).foldlM (l.journaled ids).patch work) p calls ∧
      ∀ c ∈ calls.head?, c.given? = some work := by
  induction pairs generalizing work p with
  | nil =>
    obtain ⟨calls, h⟩ := @Performs.pure _ _ l.strictness work p
    refine ⟨calls, h, fun c hc ↦ ?_⟩
    have hnil : calls = [] := List.map_eq_nil_iff.mp (List.prefix_nil.mp h.ordered)
    simp [hnil] at hc
  | cons pair pairs ih =>
    obtain ⟨m, env⟩ := pair
    obtain ⟨c, hgiven, hpatch, hhanded⟩ := performs_patch l ids m env work p
    have hhead (calls : List Call) : ∀ c' ∈ (c :: calls).head?, c'.given? = some work := by
      simp [hgiven]
    rw [List.map_cons, List.map_cons, List.foldlM_cons, ← List.singleton_append]
    cases hx : (l.journaled ids).patch work (m.journaled, env) p with
    | error e q => exact ⟨[c], hpatch.bind_error hx, hhead []⟩
    | ok work' q =>
      obtain ⟨calls, hrest, hgiven'⟩ := ih work' q
      refine ⟨c :: calls, hpatch.bind_ok hx hrest ?_, hhead calls⟩
      intro c₁ hc₁ c₂ hc₂ w hw w' hw'
      obtain rfl : c = c₁ := by simpa using hc₁
      rw [hhanded work' q hx] at hw
      rw [hgiven' c₂ hc₂] at hw'
      cases hw
      cases hw'
      rfl

theorem silent_openImage (p : Progress (Journaled σ)) :
    Performs.Silent (l.journaled ids).openImage p := by
  rw [Performs.Silent, stateAfter, openImage, reading_bind]
  cases (Image.load (l.journaled ids).zstd p.host.files
      (l.journaled ids).config.baseImagePath).mapError RunError.image with
  | error e => exact ⟨rfl, rfl⟩
  | ok image => exact silent_editing _ _ _ p

end Phases

section Loaded

theorem forall₂_mapM {f : α → Run σ β} {R : α → β → Prop} {as : List α} {bs : List β}
    {p q : Progress σ} (h : ∀ a p b q, f a p = .ok b q → R a b) (hl : as.mapM f p = .ok bs q) :
    List.Forall₂ R as bs := by
  induction as generalizing bs p with
  | nil =>
    cases hl
    exact .nil
  | cons a as ih =>
    rw [List.mapM_cons] at hl
    obtain ⟨b, p', hb, hl⟩ := bind_eq_ok_iff.mp hl
    obtain ⟨rest, _, hrest, hl⟩ := bind_eq_ok_iff.mp hl
    cases hl
    exact .cons (h a p b p' hb) (ih hrest)

theorem mods_instantiate {mods : List Mod} {loaded : List (LoadedMod σ)} {p q : Progress σ}
    (h : mods.mapM l.instantiate p = .ok loaded q) : loaded.map (·.mod) = mods := by
  have hmods : List.Forall₂ (fun m loaded ↦ m = loaded.mod) mods loaded := by
    refine forall₂_mapM (fun m p loaded q hm ↦ ?_) h
    obtain ⟨logic, _, _, hpure⟩ := bind_eq_ok_iff.mp hm
    cases hpure
    rfl
  rw [← List.forall₂_map_right_iff, List.forall₂_eq_eq_eq] at hmods
  exact hmods.symm

theorem loaded_journaled {mods : List Mod} (h : ∀ m ∈ mods, m.id ∈ ids)
    {loaded' : List (LoadedMod (Journaled σ))} {p q : Progress (Journaled σ)}
    (hl : mods.mapM (l.journaled ids).instantiate p = .ok loaded' q) :
    ∃ loaded, mods.mapM l.instantiate p.plain = .ok loaded q.plain ∧
      loaded.map LoadedMod.journaled = loaded' := by
  have hmirrors := Mirrors.mapM id mods fun m hm ↦ mirrors_instantiate (l := l) (h m hm)
  rw [List.map_id] at hmirrors
  obtain ⟨loaded, q', hx, hy⟩ | ⟨e, q', -, hy⟩ := hmirrors p
  · rw [hl] at hy
    cases hy
    exact ⟨loaded, hx, rfl⟩
  · rw [hl] at hy
    cases hy

end Loaded

section Parts

theorem performs_rebuild (loaded : List (LoadedMod σ)) (p : Progress (Journaled σ)) :
    ∃ calls, Performs l.strictness
      (loaded.map (.prepare ·.mod.id) ++ loaded.map (.patch ·.mod.id))
      ((l.journaled ids).rebuild (loaded.map LoadedMod.journaled)) p calls := by
  apply Performs.after (silent_openImage p)
  intro work p _
  have hprepare : ∃ calls, Performs l.strictness (loaded.map (.prepare ·.mod.id))
      ((loaded.map LoadedMod.journaled).mapM (prepare work.image)) p calls := by
    have hevents : loaded.map (Event.prepare ·.mod.id) =
        (loaded.map LoadedMod.journaled).map (.prepare ·.mod.id) := by
      rw [List.map_map]
      rfl
    rw [hevents]
    apply Performs.mapM (by simp [Event.isPatch])
    intro m' hm' p
    obtain ⟨m, -, rfl⟩ := List.mem_map.mp hm'
    exact performs_prepare work.image m p
  apply Performs.bind (.inl (by simp [Event.isPatch])) hprepare
  intro environments p' henvironments
  have hlength := (forall₂_mapM (R := fun _ _ ↦ True) (fun _ _ _ _ _ ↦ trivial)
    henvironments).length_eq
  rw [List.length_map] at hlength
  have hevents : loaded.map (Event.patch ·.mod.id) =
      (loaded.zip environments).map fun pair ↦ .patch pair.1.mod.id := by
    calc loaded.map (Event.patch ·.mod.id)
        = ((loaded.zip environments).map Prod.fst).map (.patch ·.mod.id) := by
          rw [List.map_fst_zip (Nat.le_of_eq hlength)]
      _ = (loaded.zip environments).map fun pair ↦ .patch pair.1.mod.id := by
          rw [List.map_map]
          rfl
  rw [hevents, List.zip_map_left]
  obtain ⟨calls, hpatches, -⟩ :=
    performs_patches l ids (loaded.zip environments) work p'
  apply Performs.before ⟨calls, hpatches⟩
  intro work p _
  apply Performs.after (silent_editing _ _ _ p)
  intro work p _
  exact Performs.pure work.image p

theorem performs_provideImage (loaded : List (LoadedMod σ)) (f : Fingerprint)
    (p : Progress (Journaled σ)) :
    ∃ calls, Performs l.strictness
      (if l.isStale f p.host.files = .ok true then
        loaded.map (.prepare ·.mod.id) ++ loaded.map (.patch ·.mod.id) else [])
      ((l.journaled ids).provideImage (loaded.map LoadedMod.journaled) f) p calls := by
  cases hstale : l.isStale f p.host.files with
  | error e =>
    apply Performs.silent
    have hstale' : (l.journaled ids).isStale f p.host.files = .error e := hstale
    rw [Performs.Silent, stateAfter, provideImage, reading_bind, hstale']
    exact ⟨rfl, rfl⟩
  | ok stale =>
    apply Performs.after (silent_reading _ p)
    intro stale' q hread
    obtain ⟨hstale', rfl⟩ := reading_eq_ok_iff.mp hread
    obtain rfl : stale = stale' := Except.ok.inj (hstale.symm.trans hstale')
    cases stale with
    | false =>
      exact Performs.nothing [.reuse f] rfl rfl (by simp [Event.isCall, Event.modId?]) fun _ ↦ rfl
    | true =>
      apply Performs.before (performs_rebuild loaded p)
      intro image q _
      apply Performs.after (silent_writing _ q)
      intro _ q _
      exact Performs.nothing [.build f] rfl rfl (by simp [Event.isCall, Event.modId?]) fun _ ↦ rfl

theorem performs_runMods {mods : List Mod} (h : ∀ m ∈ mods, m.id ∈ ids)
    (p : Progress (Journaled σ)) :
    ∃ calls, Performs l.strictness
      (phases (value? (l.decideFor mods) p.plain = some true) (mods.map Mod.id))
      ((l.journaled ids).runMods mods) p calls := by
  rw [phases, List.map_map, List.map_map, List.map_map, List.map_map, runMods]
  simp only [fingerprint_journaled h]
  apply Performs.after (silent_surveying _ p)
  intro f p₁ hf
  have hinstantiate : ∃ calls, Performs l.strictness (mods.map (.instantiate ·.id))
      (mods.mapM (l.journaled ids).instantiate) p₁ calls :=
    Performs.mapM (by simp [Event.isPatch]) (fun m hm p ↦ performs_instantiate (h m hm) p) p₁
  apply Performs.bind (.inl (by simp [Event.isPatch])) hinstantiate
  intro loaded' p₂ hloaded'
  obtain ⟨loaded, hloaded, rfl⟩ := loaded_journaled h hloaded'
  have hdecide : (value? (l.decideFor mods) p.plain = some true) =
      (l.isStale f p₂.host.files = .ok true) := by
    obtain ⟨ws, hsurvey, hp₁⟩ := surveying_eq_ok_iff.mp hf
    have hplain : surveying (fun t ↦ l.fingerprint t mods) p.plain = .ok f p₁.plain :=
      surveying_eq_ok_iff.mpr ⟨ws, hsurvey, hp₁ ▸ rfl⟩
    have hfiles : p₂.plain.host.files = p₂.host.files := rfl
    rw [decideFor, value?, HookPatch.bind_ok hplain, HookPatch.bind_ok hloaded, reading, hfiles]
    cases l.isStale f p₂.host.files <;> simp
  have hmods : loaded.map (·.mod) = mods := mods_instantiate hloaded
  simp only [hdecide, decide_eq_true_eq]
  simp only [← hmods, List.map_map]
  apply Performs.bind (.inr (by simp [Event.isPatch]))
  · exact performs_provideImage loaded f p₂
  intro rebuilt p₃ _
  have hstart : ∃ calls, Performs l.strictness (loaded.map (.start ·.mod.id))
      ((loaded.map LoadedMod.journaled).forM start) p₃ calls := by
    have hevents : loaded.map (Event.start ·.mod.id) =
        (loaded.map LoadedMod.journaled).map (.start ·.mod.id) := by
      rw [List.map_map]
      rfl
    rw [hevents]
    apply Performs.forM (by simp [Event.isPatch])
    intro m' hm' p
    obtain ⟨m, -, rfl⟩ := List.mem_map.mp hm'
    exact performs_start m p
  apply Performs.before hstart
  intro _ p₄ _
  apply Performs.after (silent_writing _ p₄)
  intro _ p₅ _
  exact Performs.pure _ p₅

theorem rebuilt_provideImage {loaded : List (LoadedMod σ)} {f : Fingerprint} {p q : Progress σ}
    {rebuilt : Bool} (h : l.provideImage loaded f p = .ok rebuilt q) :
    l.isStale f p.host.files = .ok rebuilt := by
  obtain ⟨stale, _, hread, h⟩ := bind_eq_ok_iff.mp h
  obtain ⟨hstale, rfl⟩ := reading_eq_ok_iff.mp hread
  cases stale with
  | false =>
    cases h
    exact hstale
  | true =>
    obtain ⟨_, _, -, h⟩ := bind_eq_ok_iff.mp h
    obtain ⟨_, _, -, h⟩ := bind_eq_ok_iff.mp h
    cases h
    exact hstale

theorem rebuilt_runMods {mods : List Mod} {p q : Progress σ} {outcome : Outcome}
    (h : l.runMods mods p = .ok outcome q) : value? (l.decideFor mods) p = some outcome.rebuilt := by
  obtain ⟨f, p₁, hf, h⟩ := bind_eq_ok_iff.mp h
  obtain ⟨loaded, p₂, hloaded, h⟩ := bind_eq_ok_iff.mp h
  obtain ⟨rebuilt, p₃, hprovide, h⟩ := bind_eq_ok_iff.mp h
  obtain ⟨_, _, -, h⟩ := bind_eq_ok_iff.mp h
  obtain ⟨_, _, -, h⟩ := bind_eq_ok_iff.mp h
  cases h
  rw [decideFor, value?, HookPatch.bind_ok hf, HookPatch.bind_ok hloaded, reading,
    rebuilt_provideImage hprovide]

end Parts

theorem isRebuilding_eq {p : Progress σ} {order : LoadOrder} {ws : List Warning}
    (horder : l.loadOrder p.host.files p.host.warnings = .ok order ws) :
    l.isRebuilding p =
      decide (value? (l.decideFor order.mods) { p with host := { p.host with warnings := ws } } =
        some true) := by
  have hsurvey : surveying l.loadOrder p =
      .ok order { p with host := { p.host with warnings := ws } } :=
    surveying_eq_ok_iff.mpr ⟨ws, horder, rfl⟩
  rw [isRebuilding, value?, value?, HookPatch.bind_ok hsurvey]

theorem run_eq (l : Patcher σ) (p : Progress σ) : l.run p =
    if p.host.files.isFile l.config.baseImagePath then
      (do
        let order ← surveying l.loadOrder
        if order.mods.isEmpty then l.runPlain else l.runMods order.mods : Run σ Outcome) p
    else .error (.missingBaseImage l.config.baseImagePath) p := by
  rw [run]
  change (if (!p.host.files.isFile l.config.baseImagePath) = true then
    (throw (.missingBaseImage l.config.baseImagePath) >>= _ : Run σ Outcome)
    else surveying l.loadOrder >>= _) p = _
  cases p.host.files.isFile l.config.baseImagePath <;> rfl

theorem run_of_loadOrder {p : Progress σ} {order : LoadOrder} {ws : List Warning}
    (horder : l.loadOrder p.host.files p.host.warnings = .ok order ws) (hmods : order.mods ≠ []) :
    l.run p = if p.host.files.isFile l.config.baseImagePath then
        l.runMods order.mods { p with host := { p.host with warnings := ws } }
      else .error (.missingBaseImage l.config.baseImagePath) p := by
  have hsurvey : surveying l.loadOrder p =
      .ok order { p with host := { p.host with warnings := ws } } :=
    surveying_eq_ok_iff.mpr ⟨ws, horder, rfl⟩
  rw [run_eq, HookPatch.bind_ok hsurvey]
  split
  · rw [if_neg (by simpa using hmods)]
  · rfl

theorem performs_run {p : Progress (Journaled σ)} {order : LoadOrder} {ws : List Warning}
    (horder : l.loadOrder p.host.files p.host.warnings = .ok order ws) (hmods : order.mods ≠ []) :
    ∃ calls, Performs l.strictness (phases (l.isRebuilding p.plain) order.ids)
      (l.journaled order.ids).run p calls := by
  have hids : ∀ m ∈ order.mods, m.id ∈ order.ids := fun m hm ↦ List.mem_map_of_mem hm
  have hloadOrder : (l.journaled order.ids).loadOrder = l.loadOrder := rfl
  rw [isRebuilding_eq (p := p.plain) horder, run]
  apply Performs.after (x := get) ⟨rfl, rfl⟩
  intro _ _ hget
  cases hget
  cases hbase : p.host.files.isFile (l.journaled order.ids).config.baseImagePath with
  | false =>
    exact Performs.nothing [] rfl (List.append_nil _).symm (by simp) (fun h ↦ by cases h)
  | true =>
    apply Performs.after (silent_surveying _ p)
    intro order' q hsurvey
    obtain ⟨ws', horder', rfl⟩ := surveying_eq_ok_iff.mp hsurvey
    rw [hloadOrder, horder] at horder'
    cases horder'
    rw [if_neg (by simpa using hmods)]
    exact performs_runMods (l := l) hids { p with host := { p.host with warnings := ws } }

/-- Mods that keep a journal change nothing else about a run. -/
theorem run_journaled {p : Progress (Journaled σ)} {order : LoadOrder} {ws : List Warning}
    (horder : l.loadOrder p.host.files p.host.warnings = .ok order ws) (hmods : order.mods ≠ []) :
    plainResult ((l.journaled order.ids).run p) = l.run p.plain := by
  have hids : ∀ m ∈ order.mods, m.id ∈ order.ids := fun m hm ↦ List.mem_map_of_mem hm
  have hbase : p.plain.host.files.isFile l.config.baseImagePath =
      p.host.files.isFile (l.journaled order.ids).config.baseImagePath := rfl
  rw [run_of_loadOrder (l := l.journaled order.ids) horder hmods,
    run_of_loadOrder (p := p.plain) horder hmods, hbase]
  cases p.host.files.isFile (l.journaled order.ids).config.baseImagePath with
  | false => rfl
  | true =>
    obtain ⟨outcome, q, hx, hy⟩ | ⟨e, q, hx, hy⟩ :=
      mirrors_runMods (l := l) hids { p with host := { p.host with warnings := ws } }
    · exact (congrArg plainResult hy).trans hx.symm
    · exact (congrArg plainResult hy).trans hx.symm

/-- The code of mods is called as the phases of a run have it, until a call fails. The calls are those
that the code itself enters in a journal, which changes nothing else about the run. -/
theorem run_phases (l : Patcher σ) (h : Host σ) {order : LoadOrder} {ws : List Warning}
    (horder : l.loadOrder h.files h.warnings = .ok order ws) (hmods : order.mods ≠ []) :
    let p : Progress σ := { host := h }
    let r := (l.journaled order.ids).run { host := h.journaled [] }
    let calls := (resultState r).host.state.calls
    plainResult r = l.run p ∧
      calls.map Call.event <+: phases (l.isRebuilding p) order.ids ∧
      (calls.map Call.event).Nodup ∧
      (∀ c ∈ calls.dropLast, c.failure? l.strictness = none) ∧
      (∀ c ∈ calls, ∀ e, c.failure? l.strictness = some e → failure? l.run p = some e) ∧
      (∀ outcome q, l.run p = .ok outcome q → outcome.rebuilt = l.isRebuilding p ∧
        calls.map Call.event = phases outcome.rebuilt order.ids ∧
        ∀ c ∈ calls, c.failure? l.strictness = none) ∧
      calls.IsChain (Call.Linked l.strictness) ∧
      (stateAfter l.run p).events.filter Event.isCall =
        calls.flatMap (Call.events l.strictness) := by
  intro p r calls
  have hplain : plainResult r = l.run p := run_journaled horder hmods
  obtain ⟨calls', hperforms⟩ := performs_run (p := { host := h.journaled [] }) horder hmods
  obtain rfl : calls = calls' := hperforms.made
  have hfailure := failure?_plain hplain
  refine ⟨hplain, hperforms.ordered, ?_, hperforms.undisturbed, ?_, ?_, hperforms.linked, ?_⟩
  · have hnodup : order.ids.Nodup := LoadOrder.nodup_of_load (value?_eq_some.mpr ⟨ws, horder⟩)
    exact hperforms.ordered.sublist.nodup (nodup_phases hnodup _)
  · intro c hc e he
    rw [← hfailure]
    exact hperforms.blamed c hc e he
  · intro outcome q hrun
    have hfine := hfailure.trans (failure?_ok hrun)
    have hrebuilt : outcome.rebuilt = l.isRebuilding p := by
      rw [run_of_loadOrder (p := p) horder hmods] at hrun
      split at hrun
      · rw [isRebuilding_eq (p := p) horder, rebuilt_runMods hrun]
        simp
      · cases hrun
    exact ⟨hrebuilt, hrebuilt ▸ hperforms.complete hfine, hperforms.failure_eq_none hfine⟩
  · rw [← stateAfter_plain hplain]
    exact hperforms.noted

section Example

def exportingTwice : Registration Unit where
  id := "m"
  build _ := pure {
    patch := fun _ ↦ pure ()
    exports := fun _ ↦ List.replicate 2 { name := "f", argc := 0, symbol := "" } }

def twicePatcher : Patcher Unit where
  config := {}
  zstd := Image.quotingZstd
  catalog := { entries := [exportingTwice] }
  exeName := ""

def twiceHost : Host Unit where
  files := {
    entries := [(["data.win"], .file "\x7b\"code\":[]\x7d".toUTF8), (["bcpatch"], .directory),
      (["bcpatch", "mods"], .directory), (["bcpatch", "mods", "m"], .directory),
      (["bcpatch", "mods", "m", "mod.json"],
        .file "\x7b\"name\":\"\",\"id\":\"m\",\"version\":\"\"\x7d".toUTF8),
      (["bcpatch", "mods", "n"], .directory),
      (["bcpatch", "mods", "n", "mod.json"],
        .file "\x7b\"name\":\"\",\"id\":\"n\",\"version\":\"\"\x7d".toUTF8),
      (["bcpatch", "mods", "n", "patches.json"], .file "\x7b\x7d".toUTF8)] }
  state := ()

def twiceMod (id : String) : Mod where
  metadata := { name := "", id, version := "" }
  directory := ⟨"./bcpatch/mods/" ++ id⟩

theorem loadOrder_twice : twicePatcher.loadOrder twiceHost.files twiceHost.warnings =
    .ok { mods := [twiceMod "m", twiceMod "n"] } [] := by
  have hnames : twiceHost.files.namesIn ["bcpatch", "mods"] = ["m", "n"] :=
    List.mergeSort_of_pairwise (by decide +kernel)
  have hlist : twiceHost.files.list twicePatcher.config.modsPath = .ok ["m", "n"] :=
    congrArg Except.ok hnames
  exact LoadOrder.load_of_mods [twiceMod "m", twiceMod "n"] (by decide +kernel) hlist
    (by decide +kernel) rfl rfl (by decide +kernel) rfl

/-- The second export of `m` fails: `n` does not patch, and no mod starts. -/
theorem run_phases_exporting_twice :
    let r := (twicePatcher.journaled ["m", "n"]).run { host := twiceHost.journaled [] }
    plainResult r = twicePatcher.run { host := twiceHost } ∧
      (resultState r).host.state.calls.map Call.event =
        [.instantiate "m", .instantiate "n", .prepare "m", .prepare "n", .patch "m"] ∧
      failure? twicePatcher.run { host := twiceHost } =
        some (.modFailed "m" .interop (EditError.nameTaken "f_interop").failure) := by
  intro r
  have hne : [twiceMod "m", twiceMod "n"] ≠ [] := by simp
  have hrun : r = (twicePatcher.journaled ["m", "n"]).runMods [twiceMod "m", twiceMod "n"]
      { host := twiceHost.journaled [] } := by
    have hrun := run_of_loadOrder (l := twicePatcher.journaled ["m", "n"])
      (p := { host := twiceHost.journaled [] }) loadOrder_twice hne
    exact hrun.trans (if_pos (by decide +kernel))
  have hcalls : (resultState r).host.state.calls.map Call.event =
      [.instantiate "m", .instantiate "n", .prepare "m", .prepare "n", .patch "m"] := by
    rw [hrun]
    decide +kernel
  have hfails : (resultState r).host.state.calls.getLast?.bind (Call.failure? .strict) =
      some (.modFailed "m" .interop (EditError.nameTaken "f_interop").failure) := by
    rw [hrun]
    decide +kernel
  obtain ⟨hplain, -, -, -, hblamed, -⟩ := run_phases twicePatcher twiceHost loadOrder_twice hne
  obtain ⟨c, hlast, hc⟩ := Option.bind_eq_some_iff.mp hfails
  exact ⟨hplain, hcalls, hblamed c (List.mem_of_getLast? hlast) _ hc⟩

end Example

end Patcher

end HookPatch
