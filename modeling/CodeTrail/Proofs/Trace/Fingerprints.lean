import CodeTrail.Proofs.Code.Pool
import CodeTrail.Trace.Report
import Mathlib.Data.List.Forall2

/-!
# Fetching code adds hashes to events and does nothing else

The events of a trace are those of its reconstruction, each with the fingerprint that its own address
has at the source. `events_eq` says so for the rounds of `Code.Pool.map`. `Yields` leaves open in
which order the code comes in: it takes any run of the pool, and `yields_iff` shows that all of them
yield the result of the rounds, which no choice and no bound on the number of fetches changes
(`events_eq_of_fetchConcurrency`). Two sources that differ at one address only change the hashes of
the events of that address (`agreeOff_events`).

`Trace.events_fetched` puts these together.
-/

set_option autoImplicit false
set_option relaxedAutoImplicit false

namespace CodeTrail

variable {sender : Address} {source : Code.Source} {settings : Settings} {trace : Trace}

/-! ### The hash of an event -/

/-- An event with the fingerprint of its own address. -/
def Event.fetched (source : Code.Source) (settings : Settings) (event : Event) : Event :=
  { event with codeHash := Code.fingerprint? source settings.fetchTimeout event.address }

/-- Hashes in the order of the events go to their own events. -/
theorem fingerprinted_map (hash : Event → Option Digest) (events : List Event) :
    fingerprinted events (events.map hash) =
      events.map fun event ↦ { event with codeHash := hash event } := by
  induction events with
  | nil => rfl
  | cons event events ih => rw [List.map_cons, List.map_cons, ← ih]; rfl

theorem fingerprinted_fetched (source : Code.Source) (settings : Settings) (events : List Event) :
    fingerprinted events
        ((events.map (·.address)).map (Code.fingerprint? source settings.fetchTimeout)) =
      events.map (Event.fetched source settings) := by
  rw [List.map_map, fingerprinted_map]
  rfl

/-! ### The result for a trace -/

namespace Trace

/-- The events of a trace, without any pool. -/
theorem events_eq (sender : Address) (source : Code.Source) (settings : Settings)
    (choices : List Nat) (trace : Trace) :
    trace.events sender source settings choices =
      match trace.steps with
      | none => .ok none
      | some steps =>
        (reconstruct sender settings steps).map fun events ↦
          some (events.map (Event.fetched source settings)) := by
  unfold events
  cases trace.steps with
  | none => rfl
  | some steps =>
    simp only [Code.Pool.map_eq_map, fingerprinted_fetched]
    cases reconstruct sender settings steps <;> rfl

/-- What a trace can yield when the code comes in in some order: the pool of fetches runs in any way
until it is finished. -/
inductive Yields (sender : Address) (source : Code.Source) (settings : Settings) (trace : Trace) :
    Except TraceError (Option (List Event)) → Prop
  | absent (hsteps : trace.steps = none) : Yields sender source settings trace (.ok none)
  | failed {steps : List Step} (hsteps : trace.steps = some steps) {error : TraceError}
    (hfailed : reconstruct sender settings steps = .error error) :
    Yields sender source settings trace (.error error)
  | fetched {steps : List Step} (hsteps : trace.steps = some steps) {events : List Event}
    (hevents : reconstruct sender settings steps = .ok events)
    {pool : Code.Pool Address (Option Digest)}
    (hrun : Code.Pool.Run (max settings.fetchConcurrency.toNat 1)
      (Code.fingerprint? source settings.fetchTimeout) ⟨[], [], events.map (·.address)⟩ pool)
    (hfinished : pool.Finished) :
    Yields sender source settings trace (.ok (some (fingerprinted events pool.handedOn)))

/-- The order in which the code comes in does not matter. -/
theorem yields_iff (choices : List Nat) {result : Except TraceError (Option (List Event))} :
    Yields sender source settings trace result ↔
      trace.events sender source settings choices = result := by
  rw [events_eq]
  constructor
  · intro hyields
    cases hyields with
    | absent hsteps => rw [hsteps]
    | failed hsteps hfailed => rw [hsteps]; dsimp only; rw [hfailed]; rfl
    | fetched hsteps hevents hrun hfinished =>
      rw [hsteps, Code.Pool.handedOn_of_finished hrun hfinished, fingerprinted_fetched]
      dsimp only
      rw [hevents]
      rfl
  · rintro rfl
    cases hsteps : trace.steps with
    | none => exact .absent hsteps
    | some steps =>
      dsimp only
      cases hevents : reconstruct sender settings steps with
      | error error => exact .failed hsteps hevents
      | ok events =>
        obtain ⟨pool, hrun, hfinished⟩ := Code.Pool.exists_finished_run
          (Nat.le_max_right settings.fetchConcurrency.toNat 1)
          (Code.fingerprint? source settings.fetchTimeout) (events.map (·.address))
        have hyields := Yields.fetched hsteps hevents hrun hfinished
        rwa [Code.Pool.handedOn_of_finished hrun hfinished, fingerprinted_fetched] at hyields

/-- Without steps there is nothing. -/
theorem events_eq_ok_none_iff (choices : List Nat) :
    trace.events sender source settings choices = .ok none ↔ trace.steps = none := by
  rw [events_eq]
  cases trace.steps with
  | none => simp
  | some steps => cases hevents : reconstruct sender settings steps <;> simp [hevents, Except.map]

/-- An error is an error of the reconstruction. -/
theorem events_eq_error_iff (choices : List Nat) {error : TraceError} :
    trace.events sender source settings choices = .error error ↔
      ∃ steps, trace.steps = some steps ∧ reconstruct sender settings steps = .error error := by
  rw [events_eq]
  cases trace.steps with
  | none => simp
  | some steps => cases hevents : reconstruct sender settings steps <;> simp [hevents, Except.map]

/-- Events are the events of the reconstruction, each with its own hash. -/
theorem events_eq_ok_some_iff (choices : List Nat) {found : List Event} :
    trace.events sender source settings choices = .ok (some found) ↔
      ∃ steps events, trace.steps = some steps ∧ reconstruct sender settings steps = .ok events ∧
        found = events.map (Event.fetched source settings) := by
  rw [events_eq]
  cases trace.steps with
  | none => simp
  | some steps =>
    cases hevents : reconstruct sender settings steps <;> simp [hevents, Except.map, eq_comm]

/-! ### Isolation -/

/-- Two events agree, up to the hash if they are events of a given address. -/
structure AgreeOff (address : Address) (event other : Event) : Prop where
  eq_codeHash : other = { event with codeHash := other.codeHash }
  eq_of_ne : event.address ≠ address → other = event

/-- Two results agree, up to the hashes of the events of a given address. -/
inductive ResultsAgreeOff (address : Address) :
    Except TraceError (Option (List Event)) → Except TraceError (Option (List Event)) → Prop
  | failed (error : TraceError) : ResultsAgreeOff address (.error error) (.error error)
  | absent : ResultsAgreeOff address (.ok none) (.ok none)
  | fetched {events others : List Event} (hevents : List.Forall₂ (AgreeOff address) events others) :
    ResultsAgreeOff address (.ok (some events)) (.ok (some others))

/-- The hash of an event depends on what its own address answers. -/
theorem agreeOff_fetched {address : Address} {first second : Code.Source}
    (hsources : ∀ other, other ≠ address → first other = second other) (settings : Settings)
    (event : Event) :
    AgreeOff address (event.fetched first settings) (event.fetched second settings) where
  eq_codeHash := rfl
  eq_of_ne hne := by
    have hsource : first event.address = second event.address := hsources event.address hne
    simp only [Event.fetched, Code.fingerprint?, Code.tryFingerprint, hsource]

theorem agreeOff_events {address : Address} {first second : Code.Source}
    (hsources : ∀ other, other ≠ address → first other = second other) (sender : Address)
    (settings : Settings) (choices : List Nat) (trace : Trace) :
    ResultsAgreeOff address (trace.events sender first settings choices)
      (trace.events sender second settings choices) := by
  rw [events_eq, events_eq]
  cases trace.steps with
  | none => exact .absent
  | some steps =>
    dsimp only
    cases reconstruct sender settings steps with
    | error error => exact .failed error
    | ok events =>
      refine .fetched (List.forall₂_map_left_iff.mpr (List.forall₂_map_right_iff.mpr ?_))
      exact List.forall₂_same.mpr fun event _ ↦ agreeOff_fetched hsources settings event

/-- Neither the bound on the number of fetches nor the choices matter. -/
theorem events_eq_of_fetchConcurrency (sender : Address) (source : Code.Source)
    (settings : Settings) (trace : Trace) (concurrency : UInt64) (choices choices' : List Nat) :
    trace.events sender source { settings with fetchConcurrency := concurrency } choices =
      trace.events sender source settings choices' := by
  rw [events_eq, events_eq]
  rfl

/-- Fetching code adds hashes to events and does nothing else. A trace yields nothing where it has
no steps, an error where the reconstruction fails, with that error, and otherwise the events of the
reconstruction, in their order, each with the fingerprint of its own address. That holds for every
order in which the code comes in and for every bound on the number of fetches. What the source does
at one address is seen in the hashes of the events of that address and nowhere else. -/
theorem events_fetched (sender : Address) (settings : Settings) (trace : Trace) :
    (∀ source choices,
      (trace.events sender source settings choices = .ok none ↔ trace.steps = none) ∧
      (∀ error, trace.events sender source settings choices = .error error ↔
        ∃ steps, trace.steps = some steps ∧ reconstruct sender settings steps = .error error) ∧
      (∀ found, trace.events sender source settings choices = .ok (some found) ↔
        ∃ steps events, trace.steps = some steps ∧ reconstruct sender settings steps = .ok events ∧
          found = events.map (Event.fetched source settings)) ∧
      (∀ result, Yields sender source settings trace result ↔
        trace.events sender source settings choices = result) ∧
      ∀ concurrency choices',
        trace.events sender source { settings with fetchConcurrency := concurrency } choices' =
          trace.events sender source settings choices) ∧
      ∀ address first second choices, (∀ other, other ≠ address → first other = second other) →
        ResultsAgreeOff address (trace.events sender first settings choices)
          (trace.events sender second settings choices) := by
  refine ⟨fun source choices ↦ ⟨?_, ?_, ?_, ?_, ?_⟩, ?_⟩
  · exact events_eq_ok_none_iff choices
  · exact fun error ↦ events_eq_error_iff choices
  · exact fun found ↦ events_eq_ok_some_iff choices
  · exact fun result ↦ yields_iff choices
  · exact fun concurrency choices' ↦
      events_eq_of_fetchConcurrency sender source settings trace concurrency choices' choices
  · exact fun address first second choices hsources ↦
      agreeOff_events hsources sender settings choices trace

/-- Two calls, of the addresses one and two. The first source never answers for address one, the
second one does. -/
theorem events_fetched_beside_silent_address :
    let trace : Trace :=
      { steps := some [⟨0, "CALL", 1, ["0", "0", "0", "1", "0"], none⟩,
          ⟨9, "CALL", 1, ["0", "0", "0", "2", "0"], none⟩] }
    let sender : Address := ⟨List.replicate 20 0, rfl⟩
    let one : Address := ⟨List.replicate 19 0 ++ [1], rfl⟩
    let first : Code.Source := fun address ↦
      if address = one then ⟨0, none⟩ else ⟨7, some (.code "0x00")⟩
    let second : Code.Source := fun address ↦
      if address = one then ⟨9, some (.code "0x01")⟩ else first address
    ResultsAgreeOff one (trace.events sender first {} []) (trace.events sender second {} []) ∧
      (trace.events sender first {} []).map (·.map (·.map (·.codeHash.isSome))) =
        .ok (some [false, true]) ∧
      (trace.events sender second {} []).map (·.map (·.map (·.codeHash.isSome))) =
        .ok (some [true, true]) := by
  intro trace sender one first second
  have hsources (other : Address) (hother : other ≠ one) : first other = second other :=
    (if_neg hother).symm
  refine ⟨(events_fetched sender {} trace).2 one first second [] hsources, ?_, ?_⟩
  · decide +kernel
  · decide +kernel

end Trace

end CodeTrail
