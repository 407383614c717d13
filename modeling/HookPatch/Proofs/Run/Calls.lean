import HookPatch.Proofs.Run.Journal
import Mathlib.Data.List.Chain

namespace HookPatch

variable {σ : Type}

namespace Event

def modId? : Event → Option String
  | instantiate id | prepare id | patch id | registerExport id _ | start id => some id
  | copy | reuse _ | build _ => none

def isCall (e : Event) : Bool := e.modId?.isSome

def isPatch : Event → Bool
  | patch _ => true
  | _ => false

end Event

namespace Export

def registerAll (mode : Assembly.Strictness) (modId : String) (exports : List Export) : Edit Unit :=
  exports.forM fun x ↦ x.register mode modId

/-- The exports that are begun with when some are registered. -/
def begun (mode : Assembly.Strictness) (modId : String) : List Export → Workspace → List Export
  | [], _ => []
  | x :: exports, w =>
    x :: match x.register mode modId w with
      | .ok _ w => begun mode modId exports w
      | .error _ _ => []

end Export

namespace Call

variable (mode : Assembly.Strictness)

def event : Call → Event
  | instantiate id _ => .instantiate id
  | prepare id _ => .prepare id
  | patch id _ _ => .patch id
  | start id _ => .start id

/-- What a run fails with when it makes a call, or when it registers the exports of a patch. -/
def failure? : Call → Option RunError
  | instantiate id cause => cause.map (.modFailed id .instantiate)
  | prepare id cause => cause.map (.modFailed id .prepare)
  | patch id _ (.error cause) => some (.modFailed id .patch cause)
  | patch id _ (.ok (work, exports)) =>
    (HookPatch.failure? (Export.registerAll mode id exports) work).map fun e ↦
      .modFailed id .interop e.failure
  | start id cause => cause.map (.startFailed id)

def events : Call → List Event
  | patch id _ (.ok (work, exports)) =>
    .patch id :: (Export.begun mode id exports work).map fun x ↦ .registerExport id x.name
  | c => [c.event]

def given? : Call → Option Workspace
  | patch _ work _ => some work
  | _ => none

/-- What the next mod is given to patch: what this one leaves, with its exports. -/
def handedOn? : Call → Option Workspace
  | patch id _ (.ok (work, exports)) => some (stateAfter (Export.registerAll mode id exports) work)
  | _ => none

/-- Whether the exports of a mod are registered between its own patch and the next. -/
def Linked (c c' : Call) : Prop := ∀ w ∈ c.handedOn? mode, ∀ w' ∈ c'.given?, w' = w

theorem filter_events (c : Call) : (c.events mode).filter Event.isCall = c.events mode := by
  rw [List.filter_eq_self]
  intro e he
  cases c with
  | patch id given result =>
    cases result with
    | ok left => grind [events, Event.isCall, Event.modId?]
    | error e => grind [events, event, Event.isCall, Event.modId?]
  | _ => grind [events, event, Event.isCall, Event.modId?]

end Call

/-- Whether some calls that a part of a run makes are those of a schedule, in order, until one fails;
the part then fails with the same. -/
structure Performs (mode : Assembly.Strictness) (schedule : List Event) {α : Type}
    (x : Run (Journaled σ) α) (p : Progress (Journaled σ)) (calls : List Call) : Prop where
  made : (stateAfter x p).host.state.calls = p.host.state.calls ++ calls
  noted : (stateAfter x p).events.filter Event.isCall =
    p.events.filter Event.isCall ++ calls.flatMap (Call.events mode)
  ordered : calls.map Call.event <+: schedule
  linked : calls.IsChain (Call.Linked mode)
  undisturbed : ∀ c ∈ calls.dropLast, c.failure? mode = none
  blamed : ∀ c ∈ calls, ∀ e, c.failure? mode = some e → failure? x p = some e
  complete : failure? x p = none → calls.map Call.event = schedule

namespace Performs

variable {α β : Type} {mode : Assembly.Strictness} {schedule schedule' : List Event}
  {x : Run (Journaled σ) α} {f : α → Run (Journaled σ) β} {p q : Progress (Journaled σ)}
  {calls calls' : List Call}

theorem failure_eq_none (h : Performs mode schedule x p calls) (hx : failure? x p = none) :
    ∀ c ∈ calls, c.failure? mode = none := by
  intro c hc
  rw [Option.eq_none_iff_forall_ne_some]
  intro e he
  rw [h.blamed c hc e he] at hx
  cases hx

/-- Calls other than patches hand nothing on, and are given nothing. -/
theorem linked_of_not_isPatch {c c' : Call} (h : ¬ c.event.isPatch ∨ ¬ c'.event.isPatch) :
    c.Linked mode c' := by
  intro w hw w' hw'
  rcases h with h | h
  · cases c with
    | patch => exact absurd rfl h
    | _ => cases hw
  · cases c' with
    | patch => exact absurd rfl h
    | _ => cases hw'

theorem bind_ok {a : α} (hx : x p = .ok a q) (h : Performs mode schedule x p calls)
    (h' : Performs mode schedule' (f a) q calls')
    (hlinked : ∀ c ∈ calls.getLast?, ∀ c' ∈ calls'.head?, c.Linked mode c') :
    Performs mode (schedule ++ schedule') (x >>= f) p (calls ++ calls') := by
  have hnone := h.failure_eq_none (failure?_ok hx)
  have hbind : failure? (x >>= f) p = failure? (f a) q := by
    rw [failure?, failure?, HookPatch.bind_ok hx]
  have hstate : stateAfter (x >>= f) p = stateAfter (f a) q :=
    stateAfter_congr (HookPatch.bind_ok hx)
  have hcomplete := h.complete (failure?_ok hx)
  have hmade := h.made
  have hnoted := h.noted
  rw [stateAfter_ok hx] at hmade hnoted
  refine ⟨?_, ?_, ?_, h.linked.append h'.linked hlinked, ?_, ?_, ?_⟩
  · rw [hstate, h'.made, hmade, List.append_assoc]
  · rw [hstate, h'.noted, hnoted, List.flatMap_append, List.append_assoc]
  · rw [List.map_append, hcomplete]
    exact (List.prefix_append_right_inj schedule).mpr h'.ordered
  · intro c hc
    cases calls' with
    | nil =>
      rw [List.append_nil] at hc
      exact h.undisturbed c hc
    | cons c' rest =>
      rw [List.dropLast_append_of_ne_nil (List.cons_ne_nil c' rest)] at hc
      exact (List.mem_append.mp hc).elim (hnone c) (h'.undisturbed c)
  · intro c hc e he
    rw [hbind]
    rcases List.mem_append.mp hc with hc | hc
    · rw [hnone c hc] at he
      cases he
    · exact h'.blamed c hc e he
  · intro hfine
    rw [List.map_append, hcomplete, h'.complete (hbind ▸ hfine)]

theorem bind_error {e : RunError} (hx : x p = .error e q)
    (h : Performs mode schedule x p calls) :
    Performs mode (schedule ++ schedule') (x >>= f) p calls := by
  have hbind : failure? (x >>= f) p = some e := failure?_error (HookPatch.bind_error hx)
  have hstate : stateAfter (x >>= f) p = stateAfter x p := by
    rw [stateAfter_error (HookPatch.bind_error hx), stateAfter_error hx]
  refine ⟨hstate ▸ h.made, hstate ▸ h.noted, h.ordered.trans (List.prefix_append _ _), h.linked,
    h.undisturbed, ?_, ?_⟩
  · intro c hc e' he'
    rw [hbind, ← failure?_error hx]
    exact h.blamed c hc e' he'
  · intro hfine
    rw [hbind] at hfine
    cases hfine

/-- The schedules of two parts follow each other if not both have patches. -/
theorem bind (hpatch : (∀ e ∈ schedule, ¬ e.isPatch) ∨ ∀ e ∈ schedule', ¬ e.isPatch)
    (h : ∃ calls, Performs mode schedule x p calls)
    (h' : ∀ a q, x p = .ok a q → ∃ calls', Performs mode schedule' (f a) q calls') :
    ∃ calls, Performs mode (schedule ++ schedule') (x >>= f) p calls := by
  obtain ⟨calls, h⟩ := h
  cases hx : x p with
  | error e q => exact ⟨calls, h.bind_error hx⟩
  | ok a q =>
    obtain ⟨calls', h'⟩ := h' a q hx
    refine ⟨calls ++ calls', h.bind_ok hx h' fun c hc c' hc' ↦ linked_of_not_isPatch ?_⟩
    have hmem : c.event ∈ schedule :=
      h.ordered.subset (List.mem_map_of_mem (List.mem_of_mem_getLast? hc))
    have hmem' : c'.event ∈ schedule' :=
      h'.ordered.subset (List.mem_map_of_mem (List.mem_of_mem_head? hc'))
    exact hpatch.imp (fun h ↦ h _ hmem) (fun h ↦ h _ hmem')

/-- A part that calls nothing keeps to any schedule when it fails, and otherwise to the empty one. -/
theorem nothing (es : List Event) (hcalls : (stateAfter x p).host.state.calls = p.host.state.calls)
    (hevents : (stateAfter x p).events = p.events ++ es) (hes : ∀ e ∈ es, ¬ e.isCall)
    (hschedule : failure? x p = none → schedule = []) : ∃ calls, Performs mode schedule x p calls := by
  have hnoted : (p.events ++ es).filter Event.isCall = p.events.filter Event.isCall := by
    rw [List.filter_append, List.filter_eq_nil_iff.mpr hes, List.append_nil]
  refine ⟨[], by simpa using hcalls, by simpa [hevents] using hnoted, List.nil_prefix, .nil, ?_, ?_,
    fun hx ↦ (hschedule hx).symm⟩
  all_goals simp

/-- Whether a part of a run calls no code of mods, and notes nothing. -/
def Silent (x : Run (Journaled σ) α) (p : Progress (Journaled σ)) : Prop :=
  (stateAfter x p).host.state.calls = p.host.state.calls ∧ (stateAfter x p).events = p.events

theorem silent (h : Silent x p) : ∃ calls, Performs mode [] x p calls :=
  nothing [] h.1 (h.2.trans (List.append_nil _).symm) (by simp) (fun _ ↦ rfl)

theorem pure (a : α) (p : Progress (Journaled σ)) :
    ∃ calls, Performs mode [] (Pure.pure a : Run (Journaled σ) α) p calls := silent ⟨rfl, rfl⟩

theorem after (hsilent : Silent x p)
    (h : ∀ a q, x p = .ok a q → ∃ calls, Performs mode schedule (f a) q calls) :
    ∃ calls, Performs mode schedule (x >>= f) p calls := by
  rw [← List.nil_append schedule]
  exact bind (.inl (by simp)) (silent hsilent) h

theorem before (h : ∃ calls, Performs mode schedule x p calls)
    (h' : ∀ a q, x p = .ok a q → ∃ calls, Performs mode [] (f a) q calls) :
    ∃ calls, Performs mode schedule (x >>= f) p calls := by
  rw [← List.append_nil schedule]
  exact bind (.inr (by simp)) h h'

theorem single {c : Call} {event : Event} (hevent : c.event = event)
    (hmade : (stateAfter x p).host.state.calls = p.host.state.calls ++ [c])
    (hnoted : (stateAfter x p).events.filter Event.isCall =
      p.events.filter Event.isCall ++ c.events mode)
    (hfailure : failure? x p = c.failure? mode) : Performs mode [event] x p [c] := by
  subst hevent
  refine ⟨hmade, by simpa using hnoted, List.prefix_rfl, .singleton c, ?_, ?_, fun _ ↦ rfl⟩
  · simp
  · simp [hfailure]

section Loops

variable {ι : Type} {as : List ι} {event : ι → Event} (hevent : ∀ a, ¬ (event a).isPatch)

include hevent

theorem mapM {f : ι → Run (Journaled σ) β}
    (h : ∀ a ∈ as, ∀ p, ∃ calls, Performs mode [event a] (f a) p calls)
    (p : Progress (Journaled σ)) : ∃ calls, Performs mode (as.map event) (as.mapM f) p calls := by
  induction as generalizing p with
  | nil => exact pure _ p
  | cons a as ih =>
    rw [List.mapM_cons, List.map_cons, ← List.singleton_append]
    apply Performs.bind (.inl (by simpa using hevent a)) (h a List.mem_cons_self p)
    intro b q _
    apply Performs.before (ih (fun a ha ↦ h a (List.mem_cons_of_mem _ ha)) q)
    intro bs r _
    exact pure _ r

theorem forM {f : ι → Run (Journaled σ) PUnit}
    (h : ∀ a ∈ as, ∀ p, ∃ calls, Performs mode [event a] (f a) p calls)
    (p : Progress (Journaled σ)) : ∃ calls, Performs mode (as.map event) (as.forM f) p calls := by
  induction as generalizing p with
  | nil => exact pure _ p
  | cons a as ih =>
    rw [List.map_cons, ← List.singleton_append]
    change ∃ calls, Performs mode _ (f a >>= fun _ ↦ as.forM f) p calls
    apply Performs.bind (.inl (by simpa using hevent a)) (h a List.mem_cons_self p)
    intro _ q _
    exact ih (fun a ha ↦ h a (List.mem_cons_of_mem _ ha)) q

end Loops

end Performs

end HookPatch
