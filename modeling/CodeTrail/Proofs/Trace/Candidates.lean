import CodeTrail.Proofs.Trace.Event

/-!
# Candidates and what becomes of those that cannot be read

A step is a candidate for an event by its mnemonic or by its place (`Step.IsCandidate`), and
`isSome_kind?_iff` says that these are the steps that get a kind. `OutcomeAt` relates the index of a
candidate to its event or to the reason why it cannot be read. Leaving out what cannot be read keeps
the events of all other candidates, one for each and in their order (`EventsOf`). Stopping at the
first candidate that cannot be read either keeps the same events, as `allEvents_eq_ok_iff` tells, or
ends with the error of that candidate (`allEvents_eq_error_iff`). `reconstruct_skip_and_fail` puts
the two together.
-/

set_option autoImplicit false
set_option relaxedAutoImplicit false

namespace CodeTrail

/-! ### Candidates -/

namespace CallKind

/-- The mnemonic of a kind. -/
def mnemonic : CallKind → String
  | .call => "call"
  | .callCode => "callcode"
  | .delegateCall => "delegatecall"
  | .staticCall => "staticcall"
  | .create => "create"
  | .create2 => "create2"

/-- The mnemonics of all kinds. -/
def mnemonics : List String :=
  ["call", "callcode", "delegatecall", "staticcall", "create", "create2"]

theorem mem_mnemonics_iff {name : String} :
    name ∈ mnemonics ↔ ∃ kind : CallKind, name = kind.mnemonic := by
  constructor
  · intro hname
    simp only [mnemonics, List.mem_cons, List.not_mem_nil, or_false] at hname
    rcases hname with rfl | rfl | rfl | rfl | rfl | rfl
    · exact ⟨.call, rfl⟩
    · exact ⟨.callCode, rfl⟩
    · exact ⟨.delegateCall, rfl⟩
    · exact ⟨.staticCall, rfl⟩
    · exact ⟨.create, rfl⟩
    · exact ⟨.create2, rfl⟩
  · rintro ⟨kind, rfl⟩
    cases kind <;> decide

/-- The opcodes of the table that have a kind are those with its mnemonic. -/
theorem mnemonic_of_mem_entries (entry : Opcode.Entry) (hentry : entry ∈ Opcode.entries)
    (kind : CallKind) (hkind : ofOpcode? ⟨entry.byte⟩ = some kind) :
    entry.mnemonic = kind.mnemonic := by
  have hall : ∀ entry ∈ Opcode.entries, ∀ kind ∈ ofOpcode? ⟨entry.byte⟩,
      entry.mnemonic = kind.mnemonic := by
    decide +kernel
  exact hall entry hentry kind hkind

theorem bind_ofOpcode?_eq_some_iff {name : String} {kind : CallKind} :
    (Opcode.named? name).bind ofOpcode? = some kind ↔ name = kind.mnemonic := by
  constructor
  · intro hkind
    obtain ⟨opcode, hopcode, hkind⟩ := Option.bind_eq_some_iff.mp hkind
    obtain ⟨entry, hentry, rfl⟩ := Option.map_eq_some_iff.mp hopcode
    have hname : entry.mnemonic = name := by simpa using List.find?_some hentry
    rw [← hname]
    exact mnemonic_of_mem_entries entry (List.mem_of_find?_eq_some hentry) kind hkind
  · rintro rfl
    cases kind <;> decide +kernel

end CallKind

namespace Step

/-- A candidate for an event: the mnemonic is that of a call or a creation, in any case, or the place
is one of those that count as calls. -/
def IsCandidate (legacyCallPcs : List UInt32) (step : Step) : Prop :=
  step.mnemonic ∈ CallKind.mnemonics ∨ step.pc ∈ legacyCallPcs

/-- The mnemonic decides first, then the place. -/
theorem kind?_eq_some_iff {legacyCallPcs : List UInt32} {step : Step} {kind : CallKind} :
    step.kind? legacyCallPcs = some kind ↔
      step.mnemonic = kind.mnemonic ∨
        step.mnemonic ∉ CallKind.mnemonics ∧ step.pc ∈ legacyCallPcs ∧ kind = .call := by
  unfold kind?
  cases hnamed : (Opcode.named? step.mnemonic).bind CallKind.ofOpcode? with
  | none =>
    have hother (other : CallKind) : step.mnemonic ≠ other.mnemonic := by
      intro hname
      rw [CallKind.bind_ofOpcode?_eq_some_iff.mpr hname] at hnamed
      cases hnamed
    simp [CallKind.mem_mnemonics_iff, hother, eq_comm]
  | some found =>
    have hfound := CallKind.bind_ofOpcode?_eq_some_iff.mp hnamed
    have hname : step.mnemonic = kind.mnemonic ↔ found = kind := by
      rw [← CallKind.bind_ofOpcode?_eq_some_iff, hnamed, Option.some.injEq]
    have hmem := CallKind.mem_mnemonics_iff.mpr ⟨found, hfound⟩
    simp [hname, hmem]

/-- The steps that have a kind are the candidates. -/
theorem isSome_kind?_iff {legacyCallPcs : List UInt32} {step : Step} :
    (step.kind? legacyCallPcs).isSome ↔ step.IsCandidate legacyCallPcs := by
  rw [IsCandidate, Option.isSome_iff_exists]
  simp only [kind?_eq_some_iff]
  by_cases hname : step.mnemonic ∈ CallKind.mnemonics
  · obtain ⟨kind, hkind⟩ := CallKind.mem_mnemonics_iff.mp hname
    exact ⟨fun _ ↦ Or.inl hname, fun _ ↦ ⟨kind, Or.inl hkind⟩⟩
  · have hother (kind : CallKind) : step.mnemonic ≠ kind.mnemonic := fun hkind ↦
      hname (CallKind.mem_mnemonics_iff.mpr ⟨kind, hkind⟩)
    simp [hname, hother]

end Step

/-! ### Outcomes of candidates -/

/-- The step at an index is a candidate, and making its event has a given result. -/
def OutcomeAt (sender : Address) (legacyCallPcs : List UInt32) (steps : List Step) (index : Nat)
    (result : Except TraceError Event) : Prop :=
  ∃ step kind, steps[index]? = some step ∧ step.kind? legacyCallPcs = some kind ∧
    step.event sender (steps.drop (index + 1)) kind = result

/-- The candidate at an index cannot be read, and it is the first of that sort. -/
def FirstFailure (sender : Address) (legacyCallPcs : List UInt32) (steps : List Step) (index : Nat)
    (error : TraceError) : Prop :=
  OutcomeAt sender legacyCallPcs steps index (.error error) ∧
    ∀ earlier < index, ∀ other, ¬ OutcomeAt sender legacyCallPcs steps earlier (.error other)

/-- Events are those of the candidates at given places: the places go up, each has its own event with
the depth of its step, and no candidate that can be read is missing. -/
structure EventsOf (sender : Address) (legacyCallPcs : List UInt32) (steps : List Step)
    (places : List Nat) (events : List Event) : Prop where
  increasing : places.Pairwise (· < ·)
  outcomes : List.Forall₂ (fun place event ↦
    OutcomeAt sender legacyCallPcs steps place (.ok event)) places events
  depths : List.Forall₂ (fun place event ↦
    ∃ step, steps[place]? = some step ∧ event.depth = step.depth) places events
  complete : ∀ place event, OutcomeAt sender legacyCallPcs steps place (.ok event) → place ∈ places

section Outcomes

variable {sender : Address} {legacyCallPcs : List UInt32} {steps : List Step} {index : Nat}

theorem outcomeAt_iff {result : Except TraceError Event} :
    OutcomeAt sender legacyCallPcs steps index result ↔
      (outcomes sender legacyCallPcs steps)[index]? = some (some result) := by
  rw [getElem?_outcomes, Option.map_eq_some_iff, OutcomeAt]
  simp only [Step.outcome?, Option.map_eq_some_iff]
  constructor
  · rintro ⟨step, kind, hstep, hkind, hevent⟩
    exact ⟨step, hstep, kind, hkind, hevent⟩
  · rintro ⟨step, hstep, kind, hkind, hevent⟩
    exact ⟨step, kind, hstep, hkind, hevent⟩

/-- The outcome at a step of a given kind is that of making the step's event. -/
theorem outcomeAt_iff_event_eq {step : Step} {kind : CallKind} {result : Except TraceError Event}
    (hstep : steps[index]? = some step) (hkind : step.kind? legacyCallPcs = some kind) :
    OutcomeAt sender legacyCallPcs steps index result ↔
      step.event sender (steps.drop (index + 1)) kind = result := by
  constructor
  · rintro ⟨other, kind', hother, hkind', hevent⟩
    obtain rfl := Option.some.inj (hstep.symm.trans hother)
    obtain rfl := Option.some.inj (hkind.symm.trans hkind')
    exact hevent
  · exact fun hevent ↦ ⟨step, kind, hstep, hkind, hevent⟩

theorem eventAt?_eq_some_iff {event : Event} :
    eventAt? sender legacyCallPcs steps index = some event ↔
      OutcomeAt sender legacyCallPcs steps index (.ok event) := by
  rw [outcomeAt_iff, eventAt?, Option.bind_eq_some_iff]
  constructor
  · rintro ⟨outcome, houtcome, hevent⟩
    obtain ⟨result, rfl, hresult⟩ := Option.bind_eq_some_iff.mp hevent
    cases result with
    | error error => cases hresult
    | ok other =>
      obtain rfl := Option.some.inj hresult
      exact houtcome
  · intro houtcome
    exact ⟨some (.ok event), houtcome, rfl⟩

theorem exists_outcomeAt_iff {step : Step} (hstep : steps[index]? = some step) :
    (∃ result, OutcomeAt sender legacyCallPcs steps index result) ↔
      step.IsCandidate legacyCallPcs := by
  rw [← Step.isSome_kind?_iff, Option.isSome_iff_exists]
  constructor
  · rintro ⟨result, other, kind, hother, hkind, -⟩
    rw [hstep] at hother
    obtain rfl := Option.some.inj hother
    exact ⟨kind, hkind⟩
  · rintro ⟨kind, hkind⟩
    exact ⟨_, step, kind, hstep, hkind, rfl⟩

/-- The places of the events of a trace. -/
theorem exists_eventsOf (sender : Address) (legacyCallPcs : List UInt32) (steps : List Step) :
    ∃ places, EventsOf sender legacyCallPcs steps places
      (goodEvents (outcomes sender legacyCallPcs steps)) := by
  have hevents : goodEvents (outcomes sender legacyCallPcs steps) =
      (List.range steps.length).filterMap (eventAt? sender legacyCallPcs steps) := by
    rw [← goodEvents_take_outcomes (Nat.le_refl _), ← length_outcomes sender, List.take_length]
  set places := (List.range steps.length).filter
    fun place ↦ (eventAt? sender legacyCallPcs steps place).isSome
  have hmap : places.map (eventAt? sender legacyCallPcs steps) =
      (goodEvents (outcomes sender legacyCallPcs steps)).map some := by
    rw [hevents, List.map_filterMap_some_eq_filter_map_isSome, List.filter_map]
    rfl
  have houtcomes : List.Forall₂ (fun place event ↦
      OutcomeAt sender legacyCallPcs steps place (.ok event)) places
      (goodEvents (outcomes sender legacyCallPcs steps)) := by
    simp only [← eventAt?_eq_some_iff]
    rw [← List.forall₂_map_left_iff (R := fun found event ↦ found = some event),
      ← List.forall₂_map_right_iff (R := Eq), hmap, List.forall₂_eq_eq_eq]
  refine ⟨places, List.pairwise_lt_range.filter _, houtcomes, ?_, fun place event houtcome ↦ ?_⟩
  · refine houtcomes.imp fun place event ↦ ?_
    rintro ⟨step, kind, hstep, -, hevent⟩
    exact ⟨step, hstep, Step.depth_of_event hevent⟩
  · have hevent := eventAt?_eq_some_iff.mpr houtcome
    obtain ⟨step, -, hstep, -⟩ := houtcome
    refine List.mem_filter.mpr ⟨List.mem_range.mpr ?_, by rw [hevent]; rfl⟩
    exact (List.getElem?_eq_some_iff.mp hstep).1

end Outcomes

/-! ### Stopping at the first failure -/

/-- The outcome at an index is an error, and none before it is. -/
def StopsAt (outcomes : List (Option (Except TraceError Event))) (index : Nat)
    (error : TraceError) : Prop :=
  outcomes[index]? = some (some (.error error)) ∧
    ∀ earlier < index, ∀ other, outcomes[earlier]? ≠ some (some (.error other))

theorem StopsAt.cons {outcome : Option (Except TraceError Event)}
    (houtcome : ∀ other, outcome ≠ some (.error other))
    {rest : List (Option (Except TraceError Event))} {index : Nat} {error : TraceError}
    (hstops : StopsAt rest index error) : StopsAt (outcome :: rest) (index + 1) error := by
  refine ⟨by rw [List.getElem?_cons_succ, hstops.1], fun earlier hlt other ↦ ?_⟩
  cases earlier with
  | zero => simpa using houtcome other
  | succ earlier =>
    rw [List.getElem?_cons_succ]
    exact hstops.2 earlier (by omega) other

theorem StopsAt.unique {outcomes : List (Option (Except TraceError Event))} {first second : Nat}
    {error other : TraceError} (hfirst : StopsAt outcomes first error)
    (hsecond : StopsAt outcomes second other) : first = second ∧ error = other := by
  have hplace : first = second := by
    rcases Nat.lt_trichotomy first second with hlt | heq | hgt
    · exact (hsecond.2 first hlt error hfirst.1).elim
    · exact heq
    · exact (hfirst.2 second hgt other hsecond.1).elim
  subst hplace
  have hsame := hfirst.1.symm.trans hsecond.1
  exact ⟨rfl, by simpa using hsame⟩

/-- Without errors all events are found; otherwise the first error is. -/
theorem allEvents_cases (outcomes : List (Option (Except TraceError Event))) :
    (∀ (index : Nat) (error : TraceError), outcomes[index]? ≠ some (some (.error error))) ∧
        allEvents outcomes = .ok (goodEvents outcomes) ∨
      ∃ index error, StopsAt outcomes index error ∧ allEvents outcomes = .error error := by
  induction outcomes with
  | nil => exact Or.inl ⟨by simp, rfl⟩
  | cons outcome rest ih =>
    match outcome with
    | none =>
      rcases ih with ⟨hnone, hall⟩ | ⟨index, error, hstops, hall⟩
      · refine Or.inl ⟨fun index error ↦ ?_, hall⟩
        cases index with
        | zero => simp
        | succ index => exact hnone index error
      · exact Or.inr ⟨index + 1, error, hstops.cons (by simp), hall⟩
    | some (.error error) => exact Or.inr ⟨0, error, ⟨rfl, by simp⟩, rfl⟩
    | some (.ok event) =>
      rcases ih with ⟨hnone, hall⟩ | ⟨index, error, hstops, hall⟩
      · refine Or.inl ⟨fun index error ↦ ?_, by rw [allEvents, hall]; rfl⟩
        cases index with
        | zero => simp
        | succ index => exact hnone index error
      · exact Or.inr ⟨index + 1, error, hstops.cons (by simp), by rw [allEvents, hall]; rfl⟩

theorem allEvents_eq_ok_iff {outcomes : List (Option (Except TraceError Event))}
    {events : List Event} :
    allEvents outcomes = .ok events ↔
      (∀ (index : Nat) (error : TraceError), outcomes[index]? ≠ some (some (.error error))) ∧
        events = goodEvents outcomes := by
  rcases allEvents_cases outcomes with ⟨hnone, hall⟩ | ⟨index, error, hstops, hall⟩
  · simp [hall, hnone, eq_comm]
  · rw [hall]
    exact ⟨nofun, fun hnone ↦ (hnone.1 index error hstops.1).elim⟩

theorem allEvents_eq_error_iff {outcomes : List (Option (Except TraceError Event))}
    {error : TraceError} :
    allEvents outcomes = .error error ↔ ∃ index, StopsAt outcomes index error := by
  rcases allEvents_cases outcomes with ⟨hnone, hall⟩ | ⟨index, first, hstops, hall⟩
  · rw [hall]
    exact ⟨nofun, fun ⟨index, hstops⟩ ↦ (hnone index error hstops.1).elim⟩
  · rw [hall, Except.error.injEq]
    constructor
    · rintro rfl
      exact ⟨index, hstops⟩
    · rintro ⟨place, hplace⟩
      exact (hstops.unique hplace).2

/-! ### The two policies -/

section Policies

variable {sender : Address} {legacyCallPcs : List UInt32} {steps : List Step} {index : Nat}

theorem firstFailure_iff {error : TraceError} :
    FirstFailure sender legacyCallPcs steps index error ↔
      StopsAt (outcomes sender legacyCallPcs steps) index error := by
  simp only [FirstFailure, StopsAt, outcomeAt_iff, ne_eq]

end Policies

/-- Leaving out the candidates that cannot be read and stopping at the first one agree. Leaving them
out never fails and gives the events of all others. Stopping succeeds exactly when all candidates can
be read, and then with the same events; otherwise it ends with the error of the first one that cannot
be read, and the events of the candidates before it are the first events of the others. -/
theorem reconstruct_skip_and_fail (sender : Address) (settings : Settings) (steps : List Step) :
    (∀ index step, steps[index]? = some step →
      ((∃ result, OutcomeAt sender settings.legacyCallPcs steps index result) ↔
        step.IsCandidate settings.legacyCallPcs)) ∧
    ∃ places events, EventsOf sender settings.legacyCallPcs steps places events ∧
      reconstruct sender { settings with malformedStep := .skip } steps = .ok events ∧
      (∀ found, reconstruct sender { settings with malformedStep := .fail } steps = .ok found ↔
        (∀ index error, ¬ OutcomeAt sender settings.legacyCallPcs steps index (.error error)) ∧
          found = events) ∧
      (∀ error, reconstruct sender { settings with malformedStep := .fail } steps = .error error ↔
        ∃ index, FirstFailure sender settings.legacyCallPcs steps index error) ∧
      ∀ index error, FirstFailure sender settings.legacyCallPcs steps index error →
        (List.range index).filterMap (eventAt? sender settings.legacyCallPcs steps) <+: events := by
  obtain ⟨places, hplaces⟩ := exists_eventsOf sender settings.legacyCallPcs steps
  refine ⟨fun index step hstep ↦ exists_outcomeAt_iff hstep, places, _, hplaces, rfl, ?_, ?_, ?_⟩
  · intro found
    simp only [outcomeAt_iff]
    exact allEvents_eq_ok_iff
  · intro error
    simp only [firstFailure_iff]
    exact allEvents_eq_error_iff
  · intro index error hfailure
    obtain ⟨⟨step, -, hstep, -⟩, -⟩ := hfailure
    have hindex : index ≤ steps.length := (List.getElem?_eq_some_iff.mp hstep).1.le
    rw [← goodEvents_take_outcomes hindex]
    exact (List.take_prefix _ _).filterMap _

/-- Three candidates: a call in lower case that can be read, a call with too short a stack, and another
instruction at a place that counts as a call. -/
theorem reconstruct_skip_and_fail_at_short_stack :
    let sender : Address := ⟨List.replicate 20 0, rfl⟩
    let steps : List Step := [⟨5, "call", 1, ["0", "0", "0", "1", "0"], none⟩,
      ⟨6, "CALL", 2, ["0"], none⟩, ⟨7, "ADD", 3, ["0", "0", "0", "2", "0"], none⟩]
    let settings : Settings := { legacyCallPcs := [7] }
    FirstFailure sender [7] steps 1 (.stackUnderflow "CALL" 6 5 1) ∧
      reconstruct sender { settings with malformedStep := .fail } steps =
        .error (.stackUnderflow "CALL" 6 5 1) ∧
      ∃ places events, EventsOf sender [7] steps places events ∧ events.map (·.depth) = [1, 3] ∧
        (List.range 1).filterMap (eventAt? sender [7] steps) <+: events := by
  intro sender steps settings
  obtain ⟨-, places, events, hplaces, hskip, -, herror, hfirst⟩ :=
    reconstruct_skip_and_fail sender settings steps
  have hread : (eventAt? sender [7] steps 0).isSome = true := by decide +kernel
  have hfailure : FirstFailure sender [7] steps 1 (.stackUnderflow "CALL" 6 5 1) := by
    refine ⟨⟨_, .call, rfl, by decide +kernel, rfl⟩, fun earlier hlt other houtcome ↦ ?_⟩
    obtain rfl : earlier = 0 := by omega
    rw [eventAt?, outcomeAt_iff.mp houtcome] at hread
    cases hread
  have hdepths : (reconstruct sender { settings with malformedStep := .skip } steps).map
      (·.map (·.depth)) = .ok [1, 3] := by decide +kernel
  rw [hskip] at hdepths
  exact ⟨hfailure, (herror _).mpr ⟨1, hfailure⟩, places, events, hplaces,
    Except.ok.inj hdepths, hfirst 1 _ hfailure⟩

end CodeTrail
