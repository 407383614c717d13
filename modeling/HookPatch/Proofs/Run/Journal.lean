import HookPatch.Proofs.Run.Steps

namespace HookPatch

variable {σ : Type}

/-- A call of the code of a mod, with what the code fails with. Of a patch it also holds the workspace
that the mod is given, and, if it succeeds, the one that it leaves and the exports that it then asks
for. -/
inductive Call
  | instantiate (modId : String) (failure : Option Failure)
  | prepare (modId : String) (failure : Option Failure)
  | patch (modId : String) (given : Workspace) (result : Except Failure (Workspace × List Export))
  | start (modId : String) (failure : Option Failure)

structure Journaled (σ : Type) where
  state : σ
  calls : List Call

namespace Host

def journaled (h : Host σ) (calls : List Call) : Host (Journaled σ) where
  files := h.files
  warnings := h.warnings
  state := { state := h.state, calls }

def plain (h : Host (Journaled σ)) : Host σ where
  files := h.files
  warnings := h.warnings
  state := h.state.state

end Host

def Callback.journaled {α β : Type} (x : Callback σ α) (call : Option Failure → Call) (g : α → β) :
    Callback (Journaled σ) β := fun h ↦
  match x h.plain with
  | .ok a h' => .ok (g a) (h'.journaled (h.state.calls ++ [call none]))
  | .error e h' => .error e (h'.journaled (h.state.calls ++ [call (some e)]))

def Patching.journaled (p : Patching σ) (calls : List Call) : Patching (Journaled σ) where
  host := p.host.journaled calls
  work := p.work

def Patching.plain (p : Patching (Journaled σ)) : Patching σ where
  host := p.host.plain
  work := p.work

/-- The code of a mod, which now tells of each call of it when it is done. -/
def ModLogic.journaled (m : ModLogic σ) (modId : String) : ModLogic (Journaled σ) where
  prepare env image := Callback.journaled (m.prepare env image) (.prepare modId) id
  patch context p :=
    match m.patch context p.plain with
    | .ok _ p' =>
      let call := Call.patch modId p.work (.ok (p'.work, m.exports p'.host))
      .ok () (p'.journaled (p.host.state.calls ++ [call]))
    | .error e p' => .error e (p'.journaled (p.host.state.calls ++ [.patch modId p.work (.error e)]))
  start mod := Callback.journaled (m.start mod) (.start modId) id
  exports h := m.exports h.plain

def LoadedMod.journaled (m : LoadedMod σ) : LoadedMod (Journaled σ) where
  mod := m.mod
  logic := m.logic.journaled m.mod.id

namespace Catalog

/-- What a catalog has for a mod, be it code or a manifest. An empty version adds nothing to a
fingerprint, as no version does, and there is no warning where there is one. -/
def journaledEntry (c : Catalog σ) (id : String) : Registration (Journaled σ) where
  id := id
  buildVersion := if c.contains id then c.buildVersion? id else some ""
  build m := Callback.journaled (c.instantiate m) (.instantiate m.id) (·.journaled m.id)

def journaled (c : Catalog σ) (ids : List String) : Catalog (Journaled σ) where
  entries := ids.map c.journaledEntry

end Catalog

/-- The same patcher with mods that keep a journal, as far as they have some ids. -/
def Patcher.journaled (l : Patcher σ) (ids : List String) : Patcher (Journaled σ) where
  config := l.config
  zstd := l.zstd
  catalog := l.catalog.journaled ids
  exeName := l.exeName
  strictness := l.strictness

def Progress.plain (p : Progress (Journaled σ)) : Progress σ where
  host := p.host.plain
  events := p.events

def plainResult {α : Type} : EStateM.Result RunError (Progress (Journaled σ)) α →
    EStateM.Result RunError (Progress σ) α
  | .ok a p => .ok a p.plain
  | .error e p => .error e p.plain

section

variable {α : Type} {x : Run (Journaled σ) α} {y : Run σ α} {p : Progress (Journaled σ)}
  {q : Progress σ} (h : plainResult (x p) = y q)

include h

theorem failure?_plain : failure? x p = failure? y q := by
  rw [failure?, failure?, ← h]
  cases x p <;> rfl

theorem stateAfter_plain : (stateAfter x p).plain = stateAfter y q := by
  rw [stateAfter, stateAfter, ← h]
  cases x p <;> rfl

end

section

variable {ε s t α β γ δ : Type} {π : t → s} {g : α → β} {k : γ → δ}

/-- Whether `y` does what `x` does, if its states are seen through `π`, and comes to `g a` when `x`
comes to `a`. -/
def Mirrors (π : t → s) (g : α → β) (x : EStateM ε s α) (y : EStateM ε t β) : Prop :=
  ∀ p, (∃ a q, x (π p) = .ok a (π q) ∧ y p = .ok (g a) q) ∨
    ∃ e q, x (π p) = .error e (π q) ∧ y p = .error e q

namespace Mirrors

theorem pure (a : α) : Mirrors π g (Pure.pure a : EStateM ε s α) (Pure.pure (g a)) :=
  fun p ↦ .inl ⟨a, p, rfl, rfl⟩

theorem throw (e : ε) : Mirrors π g (MonadExcept.throw e : EStateM ε s α) (MonadExcept.throw e) :=
  fun p ↦ .inr ⟨e, p, rfl, rfl⟩

theorem bind {x : EStateM ε s α} {y : EStateM ε t β} {f : α → EStateM ε s γ}
    {f' : β → EStateM ε t δ} (h : Mirrors π g x y) (hf : ∀ a, Mirrors π k (f a) (f' (g a))) :
    Mirrors π k (x >>= f) (y >>= f') := by
  intro p
  obtain ⟨a, q, hx, hy⟩ | ⟨e, q, hx, hy⟩ := h p
  · rw [bind_ok hx, bind_ok hy]
    exact hf a q
  · exact .inr ⟨e, q, bind_error hx, bind_error hy⟩

section Loops

variable {ι κ : Type} (i : ι → κ) (as : List ι)

theorem mapM {f : ι → EStateM ε s α} {f' : κ → EStateM ε t β}
    (h : ∀ a ∈ as, Mirrors π g (f a) (f' (i a))) :
    Mirrors π (List.map g) (as.mapM f) ((as.map i).mapM f') := by
  induction as with
  | nil => exact .pure []
  | cons a as ih =>
    rw [List.map_cons, List.mapM_cons, List.mapM_cons]
    refine (h a List.mem_cons_self).bind fun b ↦ ?_
    exact (ih fun a ha ↦ h a (List.mem_cons_of_mem _ ha)).bind fun bs ↦ .pure (b :: bs)

theorem forM {f : ι → EStateM ε s PUnit} {f' : κ → EStateM ε t PUnit}
    (h : ∀ a ∈ as, Mirrors π id (f a) (f' (i a))) :
    Mirrors π id (as.forM f) ((as.map i).forM f') := by
  induction as with
  | nil => exact .pure _
  | cons a as ih =>
    change Mirrors π id (f a >>= fun _ ↦ as.forM f) (f' (i a) >>= fun _ ↦ (as.map i).forM f')
    exact (h a List.mem_cons_self).bind fun _ ↦ ih fun a ha ↦ h a (List.mem_cons_of_mem _ ha)

theorem foldlM {f : α → ι → EStateM ε s α} {f' : α → κ → EStateM ε t α}
    (h : ∀ b, ∀ a ∈ as, Mirrors π id (f b a) (f' b (i a))) (b : α) :
    Mirrors π id (as.foldlM f b) ((as.map i).foldlM f' b) := by
  induction as generalizing b with
  | nil => exact .pure b
  | cons a as ih =>
    rw [List.map_cons, List.foldlM_cons, List.foldlM_cons]
    exact (h b a List.mem_cons_self).bind fun b ↦
      ih (fun b a ha ↦ h b a (List.mem_cons_of_mem _ ha)) b

end Loops

end Mirrors

end

theorem mirrors_callback {α β : Type} (x : Callback σ α) (call : Option Failure → Call) (g : α → β) :
    Mirrors Host.plain g x (x.journaled call g) := by
  intro h
  rw [Callback.journaled]
  cases hx : x h.plain with
  | ok a h' => exact .inl ⟨a, _, rfl, rfl⟩
  | error e h' => exact .inr ⟨e, _, rfl, rfl⟩

namespace Run

variable {α β : Type}

theorem mirrors_note (e : Event) : Mirrors Progress.plain id (note e : Run σ Unit) (note e) :=
  fun p ↦ .inl ⟨(), p.noted e, rfl, rfl⟩

theorem mirrors_reading (f : FileTree → Except RunError α) :
    Mirrors Progress.plain id (reading f : Run σ α) (reading f) := by
  intro p
  have hfiles : p.plain.host.files = p.host.files := rfl
  rw [reading, reading, hfiles]
  cases f p.host.files with
  | ok a => exact .inl ⟨a, p, rfl, rfl⟩
  | error e => exact .inr ⟨e, p, rfl, rfl⟩

theorem mirrors_surveying (f : FileTree → Survey α) :
    Mirrors Progress.plain id (surveying f : Run σ α) (surveying f) := by
  intro p
  have hfiles : p.plain.host.files = p.host.files := rfl
  have hwarnings : p.plain.host.warnings = p.host.warnings := rfl
  rw [surveying, surveying, hfiles, hwarnings]
  cases f p.host.files p.host.warnings with
  | ok a warnings => exact .inl ⟨a, { p with host := { p.host with warnings } }, rfl, rfl⟩
  | error e warnings => exact .inr ⟨e, { p with host := { p.host with warnings } }, rfl, rfl⟩

theorem mirrors_writing (x : EStateM RunError FileTree α) :
    Mirrors Progress.plain id (writing x : Run σ α) (writing x) := by
  intro p
  have hfiles : p.plain.host.files = p.host.files := rfl
  rw [writing, writing, hfiles]
  cases x p.host.files with
  | ok a files => exact .inl ⟨a, p.withFiles files, rfl, rfl⟩
  | error e files => exact .inr ⟨e, p.withFiles files, rfl, rfl⟩

theorem mirrors_editing (blame : EditError → RunError) (x : Edit Unit) (w : Workspace) :
    Mirrors Progress.plain id (editing blame x w : Run σ Workspace) (editing blame x w) := by
  rw [editing, editing]
  cases x w with
  | ok _ w' => exact .pure w'
  | error e w' => exact .throw (blame e)

theorem mirrors_calling (e : Event) (blame : Failure → RunError) {g : α → β} {x : Callback σ α}
    {y : Callback (Journaled σ) β} (h : Mirrors Host.plain g x y) :
    Mirrors Progress.plain g (calling e blame x) (calling e blame y) := by
  intro p
  have hhost : p.plain.host = p.host.plain := rfl
  rw [calling_eq, calling_eq, hhost]
  obtain ⟨a, host, hx, hy⟩ | ⟨f, host, hx, hy⟩ := h p.host
  · rw [hx, hy]
    exact .inl ⟨a, { host, events := p.events ++ [e] }, rfl, rfl⟩
  · rw [hx, hy]
    exact .inr ⟨blame f, { host, events := p.events ++ [e] }, rfl, rfl⟩

end Run

namespace Catalog

variable {c : Catalog σ} {ids : List String}

theorem find?_journaled {id : String} (h : id ∈ ids) :
    (c.journaled ids).find? id = some (c.journaledEntry id) := by
  have hfind : ids.find? (fun id' ↦ decide (id' = id)) = some id := by
    induction ids with
    | nil => cases h
    | cons a ids ih =>
      rw [List.find?_cons]
      by_cases heq : a = id
      · simp [heq]
      · simp only [heq, decide_false]
        exact ih ((List.mem_cons.mp h).resolve_left (Ne.symm heq))
  rw [find?, journaled, List.find?_map]
  exact congrArg (Option.map c.journaledEntry) hfind

theorem instantiate_journaled {m : Mod} (h : m.id ∈ ids) : (c.journaled ids).instantiate m =
    Callback.journaled (c.instantiate m) (.instantiate m.id) (·.journaled m.id) := by
  funext host
  rw [instantiate, find?_journaled h]
  rfl

end Catalog

theorem Fingerprint.part_journaled {c : Catalog σ} {ids : List String} (t : FileTree) {m : Mod}
    (h : m.id ∈ ids) : part t (c.journaled ids) m = part t c m := by
  have hcontains : (c.journaled ids).contains m.id := by
    rw [Catalog.contains, Catalog.find?_journaled h]
    rfl
  have hversion : (c.journaled ids).buildVersion? m.id =
      if c.contains m.id then c.buildVersion? m.id else some "" := by
    rw [Catalog.buildVersion?, Catalog.find?_journaled h]
    rfl
  cases hc : c.contains m.id with
  | true => simp only [part, hcontains, hversion, hc, if_true]
  | false =>
    have hnone : c.buildVersion? m.id = none := by
      rw [Catalog.contains, Option.isSome_eq_false_iff, Option.isNone_iff_eq_none] at hc
      rw [Catalog.buildVersion?, hc, Option.bind_none]
    simp [part, hcontains, hversion, hc, hnone]

namespace ModLogic

variable {m : ModLogic σ} {modId : String} {context : PatchContext} {p : Patching (Journaled σ)}
  {p' : Patching σ}

theorem patch_journaled_ok {u : Unit} (h : m.patch context p.plain = .ok u p') :
    (m.journaled modId).patch context p = .ok () (p'.journaled (p.host.state.calls ++
      [.patch modId p.work (.ok (p'.work, m.exports p'.host))])) := by
  simp only [journaled, h]

theorem patch_journaled_error {e : Failure} (h : m.patch context p.plain = .error e p') :
    (m.journaled modId).patch context p = .error e (p'.journaled (p.host.state.calls ++
      [.patch modId p.work (.error e)])) := by
  simp only [journaled, h]

end ModLogic

namespace Patcher

open Run

variable {l : Patcher σ} {ids : List String}

theorem fingerprint_journaled {mods : List Mod} (h : ∀ m ∈ mods, m.id ∈ ids) (t : FileTree) :
    (l.journaled ids).fingerprint t mods = l.fingerprint t mods := by
  have hparts : mods.mapM (Fingerprint.part t (l.catalog.journaled ids)) =
      mods.mapM (Fingerprint.part t l.catalog) :=
    mapM_congr fun m hm ↦ Fingerprint.part_journaled t (h m hm)
  simp only [fingerprint, Fingerprint.ofRun, Fingerprint.compute, journaled, hparts]

theorem mirrors_instantiate {m : Mod} (h : m.id ∈ ids) :
    Mirrors Progress.plain LoadedMod.journaled (l.instantiate m)
      ((l.journaled ids).instantiate m) := by
  refine (mirrors_calling _ _ ?_).bind fun logic ↦ .pure (LoadedMod.mk m logic)
  change Mirrors _ _ _ ((l.catalog.journaled ids).instantiate m)
  rw [Catalog.instantiate_journaled h]
  exact mirrors_callback _ _ _

theorem mirrors_prepare (image : Image) (m : LoadedMod σ) :
    Mirrors Progress.plain id (prepare image m) (prepare image m.journaled) := by
  refine (mirrors_reading _).bind fun env ↦ ?_
  exact (mirrors_calling _ _ (mirrors_callback _ _ _)).bind fun _ ↦ .pure env

variable (l ids) in
theorem patching_journaled (m : LoadedMod σ) (env : Environment) (work : Workspace)
    (h : Host (Journaled σ)) : (l.journaled ids).patching m.journaled env work h =
      match l.patching m env work h.plain with
      | .ok work' host =>
        let call := Call.patch m.mod.id work (.ok (work', m.logic.exports host))
        .ok work' (host.journaled (h.state.calls ++ [call]))
      | .error e host =>
        .error e (host.journaled (h.state.calls ++ [.patch m.mod.id work (.error e)])) := by
  cases hpatch : m.logic.patch (l.context env) { host := h.plain, work } with
  | ok _ p =>
    rw [patching_ok hpatch]
    exact @patching_ok _ (l.journaled ids) m.journaled _ _ _ _ _ (ModLogic.patch_journaled_ok hpatch)
  | error e p =>
    rw [patching_error hpatch]
    exact @patching_error _ (l.journaled ids) m.journaled _ _ _ _ _
      (ModLogic.patch_journaled_error hpatch)

theorem mirrors_patching (m : LoadedMod σ) (env : Environment) (work : Workspace) :
    Mirrors Host.plain id (l.patching m env work)
      ((l.journaled ids).patching m.journaled env work) := by
  intro h
  rw [patching_journaled]
  cases l.patching m env work h.plain with
  | ok work' host => exact .inl ⟨work', _, rfl, rfl⟩
  | error e host => exact .inr ⟨e, _, rfl, rfl⟩

variable (l ids) in
theorem mirrors_registerExport (m : LoadedMod σ) (work : Workspace) (x : Export) :
    Mirrors Progress.plain id (l.registerExport m work x)
      ((l.journaled ids).registerExport m.journaled work x) :=
  (mirrors_note _).bind fun _ ↦ mirrors_editing _ _ _

theorem mirrors_patch (m : LoadedMod σ) (env : Environment) (work : Workspace) :
    Mirrors Progress.plain id (l.patch work (m, env))
      ((l.journaled ids).patch work (m.journaled, env)) := by
  refine (mirrors_calling _ _ (mirrors_patching m env work)).bind fun work' p ↦ ?_
  have hexports := Mirrors.foldlM id (m.logic.exports p.host.plain)
    (fun work x _ ↦ mirrors_registerExport l ids m work x) work'
  rw [List.map_id] at hexports
  exact hexports p

theorem mirrors_rebuild (loaded : List (LoadedMod σ)) :
    Mirrors Progress.plain id (l.rebuild loaded)
      ((l.journaled ids).rebuild (loaded.map LoadedMod.journaled)) := by
  refine Mirrors.bind (g := id) ?_ fun work ↦ ?_
  · exact (mirrors_reading _).bind fun image ↦ mirrors_editing _ _ _
  have hprepare := Mirrors.mapM LoadedMod.journaled loaded
    fun m _ ↦ mirrors_prepare work.image m
  refine hprepare.bind fun environments ↦ ?_
  rw [List.map_id, List.zip_map_left]
  refine (Mirrors.foldlM _ _ (fun work pair _ ↦ mirrors_patch pair.1 pair.2 work) work).bind
    fun work ↦ ?_
  exact (mirrors_editing _ _ _).bind fun work ↦ .pure work.image

theorem mirrors_start (m : LoadedMod σ) :
    Mirrors Progress.plain id (start m) (start m.journaled) :=
  mirrors_calling _ _ (mirrors_callback _ _ _)

theorem mirrors_provideImage (loaded : List (LoadedMod σ)) (f : Fingerprint) :
    Mirrors Progress.plain id (l.provideImage loaded f)
      ((l.journaled ids).provideImage (loaded.map LoadedMod.journaled) f) := by
  refine (mirrors_reading _).bind fun stale ↦ ?_
  cases stale with
  | false => exact (mirrors_note _).bind fun _ ↦ .pure false
  | true =>
    refine (mirrors_rebuild loaded).bind fun image ↦ (mirrors_writing _).bind fun _ ↦ ?_
    exact (mirrors_note _).bind fun _ ↦ .pure true

theorem mirrors_runMods {mods : List Mod} (h : ∀ m ∈ mods, m.id ∈ ids) :
    Mirrors Progress.plain id (l.runMods mods) ((l.journaled ids).runMods mods) := by
  rw [runMods, runMods]
  simp only [fingerprint_journaled h]
  refine (mirrors_surveying _).bind fun f ↦ ?_
  have hloaded := Mirrors.mapM id mods fun m hm ↦ mirrors_instantiate (l := l) (h m hm)
  rw [List.map_id] at hloaded
  refine hloaded.bind fun loaded ↦ (mirrors_provideImage loaded f).bind fun rebuilt ↦ ?_
  refine (Mirrors.forM _ _ fun m _ ↦ mirrors_start m).bind fun _ ↦ ?_
  exact (mirrors_writing _).bind fun _ ↦ .pure _

end Patcher

end HookPatch
