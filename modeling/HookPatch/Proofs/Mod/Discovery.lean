import HookPatch.Mod.Discovery
import HookPatch.Proofs.Mod.LoadOrder
import HookPatch.Proofs.Outcomes

namespace HookPatch

variable {t : FileTree} {path : Path} {ws : List Warning}

theorem forM_warn {α : Type} (l : List α) (f : α → Warning) (ws : List Warning) :
    (l.forM fun a ↦ warn (f a)) ws = .ok () (ws ++ l.map f) := by
  induction l generalizing ws with
  | nil =>
    rw [List.map_nil, List.append_nil]
    rfl
  | cons a l ih =>
    change (warn (f a) >>= fun _ ↦ l.forM fun a ↦ warn (f a)) ws = _
    rw [bind_ok (rfl : warn (f a) ws = .ok () (ws ++ [f a])), ih, List.append_assoc]
    rfl

namespace Mod

def inDirectory? (t : FileTree) (directory : Path) : Option Mod := (inDirectory t directory).toOption

theorem inDirectory_eq_match (t : FileTree) (directory : Path) : inDirectory t directory =
    match metadataFile? t directory with
    | none => .error (.missingMetadata directory)
    | some path =>
      match Metadata.load t path with
      | .error _ => .error (.skippedMod directory)
      | .ok metadata => .ok { metadata, directory } := (rfl)

theorem inDirectories_cons (t : FileTree) (directory : Path) (rest : List Path) :
    inDirectories t (directory :: rest) =
      match inDirectory t directory with
      | .error w => do
        warn w
        inDirectories t rest
      | .ok m => do
        let mods ← inDirectories t rest
        return m :: mods := (rfl)

theorem value?_inDirectories (directories : List Path) :
    value? (inDirectories t directories) ws = some (directories.filterMap (inDirectory? t)) := by
  induction directories generalizing ws with
  | nil => rfl
  | cons directory rest ih =>
    rw [inDirectories_cons, List.filterMap_cons, inDirectory?]
    cases inDirectory t directory with
    | error w =>
      simp only [Except.toOption, value?_bind_eq_some]
      exact ⟨(), ws ++ [w], rfl, ih⟩
    | ok m =>
      simp only [Except.toOption, value?_bind_eq_some]
      have hvalue : value? (inDirectories t rest) ws = some (rest.filterMap (inDirectory? t)) := ih
      obtain ⟨q, hrest⟩ := value?_eq_some.mp hvalue
      exact ⟨_, q, hrest, rfl⟩

/-- There is nothing to warn of where every directory holds a mod. -/
theorem inDirectories_eq_ok {directories : List Path} {mods : List Mod}
    (h : directories.mapM (inDirectory t) = .ok mods) :
    inDirectories t directories ws = .ok mods ws := by
  induction directories generalizing mods with
  | nil =>
    cases h
    rfl
  | cons directory rest ih =>
    rw [List.mapM_cons] at h
    obtain ⟨m, hm, h⟩ := except_bind_eq_ok_iff.mp h
    obtain ⟨mods', hmods', h⟩ := except_bind_eq_ok_iff.mp h
    cases h
    rw [inDirectories_cons, hm]
    exact bind_ok (ih hmods')

def found (t : FileTree) (path : Path) (names : List String) : List Mod :=
  names.filterMap fun name ↦
    if t.isDirectory (path.child name) then inDirectory? t (path.child name) else none

theorem directory_of_inDirectory? {directory : Path} {m : Mod}
    (h : inDirectory? t directory = some m) : m.directory = directory := by
  rw [inDirectory?, inDirectory_eq_match] at h
  split at h
  · cases h
  · split at h
    · cases h
    · cases h
      rfl

theorem mem_found {names : List String} {m : Mod} (h : m ∈ found t path names) :
    ∃ name ∈ names, m.directory = path.child name ∧ t.isDirectory m.directory := by
  obtain ⟨name, hname, h⟩ := List.mem_filterMap.mp h
  split at h
  · rename_i hdir
    have hdirectory := directory_of_inDirectory? h
    exact ⟨name, hname, hdirectory, by rwa [hdirectory]⟩
  · cases h

theorem findAll_of_list {names : List String} (hpath : t.existsAt path)
    (hlist : t.list path = .ok names) :
    findAll t path = inDirectories t ((names.map path.child).filter t.isDirectory) := by
  rw [findAll, if_pos hpath, hlist]

theorem value?_findAll (hpath : t.existsAt path) {mods : List Mod} :
    value? (findAll t path) ws = some mods ↔ ∃ names, t.list path = .ok names ∧
      mods = found t path names := by
  rw [findAll, if_pos hpath]
  cases t.list path with
  | error fault =>
    change none = some mods ↔ _
    simp
  | ok names =>
    have hfilter : ((names.map path.child).filter t.isDirectory).filterMap (inDirectory? t) =
        found t path names := by
      rw [List.filterMap_filter, List.filterMap_map]
      rfl
    simp only [value?_inDirectories, hfilter, Option.some.injEq, Except.ok.injEq, exists_eq_left']
    exact eq_comm

theorem findAll_eq_nil (hpath : ¬ t.existsAt path) {mods : List Mod}
    (h : value? (findAll t path) ws = some mods) : mods = [] := by
  rw [findAll, if_neg hpath, value?_bind_eq_some] at h
  obtain ⟨_, q, -, h⟩ := h
  exact (Option.some.inj h).symm

end Mod

namespace LoadOrder

variable {order : LoadOrder}

theorem value?_load : value? (LoadOrder.load t path) ws = some order ↔
    ∃ available allowed denied, value? (Mod.findAll t path) ws = some available ∧
      readList t (path.child allowListName) = .ok allowed ∧
      readList t (path.child denyListName) = .ok denied ∧
      order = ofMods available allowed denied := by
  have hend (available : List Mod) (allowed denied : List String) (ws : List Warning) :
      value? (do
        (ofMods available allowed denied).excluded.forM fun reason ↦ warn (.excludedMod reason)
        return ofMods available allowed denied : Survey LoadOrder) ws =
          some (ofMods available allowed denied) :=
    value?_bind_eq_some.mpr ⟨(), _, forM_warn _ _ ws, rfl⟩
  simp only [LoadOrder.load, value?_bind_eq_some, ofExcept_eq_ok_iff, hend, Option.some.injEq]
  constructor
  · rintro ⟨available, _, hfound, allowed, _, ⟨hallowed, -⟩, denied, _, ⟨hdenied, -⟩, horder⟩
    exact ⟨available, allowed, denied, value?_eq_some.mpr ⟨_, hfound⟩, hallowed, hdenied, horder.symm⟩
  · rintro ⟨available, allowed, denied, hfound, hallowed, hdenied, rfl⟩
    obtain ⟨ws', hfound⟩ := value?_eq_some.mp hfound
    exact ⟨available, ws', hfound, allowed, ws', ⟨hallowed, rfl⟩, denied, ws', ⟨hdenied, rfl⟩, rfl⟩

theorem load_of_mods {names : List String} (available : List Mod) {allowed denied : List String}
    (hpath : t.existsAt path) (hlist : t.list path = .ok names)
    (hmods : ((names.map path.child).filter t.isDirectory).mapM (Mod.inDirectory t) = .ok available)
    (hallowed : readList t (path.child allowListName) = .ok allowed)
    (hdenied : readList t (path.child denyListName) = .ok denied)
    (horder : ofMods available allowed denied = order) (hexcluded : order.excluded = []) :
    LoadOrder.load t path ws = .ok order ws := by
  have hread (entries : List String) : (MonadExcept.ofExcept (.ok entries) : Survey _) ws =
      .ok entries ws := rfl
  rw [LoadOrder.load, Mod.findAll_of_list hpath hlist, hallowed, hdenied]
  refine (bind_ok (Mod.inDirectories_eq_ok hmods)).trans ?_
  refine (bind_ok (hread allowed)).trans ((bind_ok (hread denied)).trans ?_)
  simp only [horder, hexcluded]
  rfl

theorem nodup_of_load (h : value? (LoadOrder.load t path) ws = some order) : order.ids.Nodup := by
  obtain ⟨available, allowed, denied, -, -, -, rfl⟩ := value?_load.mp h
  exact ids_nodup available allowed denied

end LoadOrder

end HookPatch
