import CodeTrail.Proofs.Trace.Continuation

/-!
# What an event tells

An event comes from reads that all succeed. `region_eq_ok_iff` says what a region of memory reads as:
`HoldsAt` names the digits that the memory shows at the numbers of the two words. Counts of bytes end
at the largest 64-bit number when a word is read and again when a region is cut out, and the second
time changes nothing (`clampedAt_min`). An event has the depth of its step (`depth_of_event`), and
what is returned in the event of a call is what the call returns (`returnData_of_event`).
-/

set_option autoImplicit false
set_option relaxedAutoImplicit false

namespace CodeTrail

/-- A result that comes from two steps comes from a result of the first one. -/
theorem TraceError.exists_of_bind_eq_ok {α β : Type} {first : Except TraceError α}
    {next : α → Except TraceError β} {result : β} (hresult : (first >>= next) = .ok result) :
    ∃ value, first = .ok value ∧ next value = .ok result := by
  cases first with
  | error error => cases hresult
  | ok value => exact ⟨value, rfl, hresult⟩

namespace Step

open Hex.Word (value? allDigits? countLimit)

/-! ### Regions of memory -/

/-- The memory of a step holds a text at a region: nothing where the region is empty, and otherwise
the digits of all its words, cut as `clampedAt` cuts them. -/
def HoldsAt (step : Step) (offset size : Nat) (text : String) : Prop :=
  size = 0 ∧ text = "" ∨
    size ≠ 0 ∧ ∃ values, allDigits? step.words = some values ∧
      text = markedDigits (clampedAt (values.map Hex.digitChar) offset size)

/-- A region is the same one when its counts end at the largest 64-bit number. -/
theorem holdsAt_min_iff {step : Step} {offset size : Nat} {text : String} :
    step.HoldsAt (min offset countLimit) (min size countLimit) text ↔
      step.HoldsAt offset size text := by
  have hzero : min size countLimit = 0 ↔ size = 0 := by
    have hlimit : countLimit ≠ 0 := by decide
    omega
  simp only [HoldsAt, clampedAt_min, hzero, ne_eq]

theorem slice_eq_ok_iff {step : Step} {offset size : Nat} {text : String} :
    step.slice offset size = .ok text ↔ step.HoldsAt offset size text := by
  have hmemory := toOption_memoryDigits step.words
  rw [slice_eq, HoldsAt]
  by_cases hsize : size = 0
  · simp [hsize, eq_comm]
  · cases hdigits : memoryDigits step.words with
    | error word =>
      rw [hdigits] at hmemory
      simp [hsize, Option.map_eq_none_iff.mp hmemory.symm]
    | ok digits =>
      rw [hdigits] at hmemory
      obtain ⟨values, hvalues, rfl⟩ := Option.map_eq_some_iff.mp hmemory.symm
      simp [hsize, hvalues, eq_comm]

/-- A region is read at the numbers of its two words. -/
theorem region_eq_ok_iff {step : Step} {offset size text : String} :
    step.region offset size = .ok text ↔
      ∃ start count, value? offset = some start ∧ value? size = some count ∧
        step.HoldsAt start count text := by
  unfold region read
  rw [Hex.Word.count?_eq, Hex.Word.count?_eq]
  cases value? offset with
  | none => simp [bind, Except.bind]
  | some start =>
    cases value? size with
    | none => simp [bind, Except.bind]
    | some count => simp [bind, Except.bind, slice_eq_ok_iff, holdsAt_min_iff]

/-- Memory that was not recorded holds nothing. -/
theorem HoldsAt.eq_empty {step : Step} {offset size : Nat} {text : String}
    (hholds : step.HoldsAt offset size text) (hmemory : step.memory = none) : text = "" := by
  rcases hholds with ⟨-, htext⟩ | ⟨-, values, hvalues, rfl⟩
  · exact htext
  · rw [words, hmemory] at hvalues
    have hnone : values = [] := (Option.some.inj hvalues).symm
    rw [hnone, List.map_nil, clampedAt_nil, markedDigits]

/-! ### Parts of an event -/

variable {sender : Address} {step : Step} {later : List Step} {kind : CallKind} {event : Event}

theorem depth_of_callEvent {target : String} {amount : Option String} {offset size : String}
    (hevent : step.callEvent later kind target amount offset size = .ok event) :
    event.depth = step.depth := by
  obtain ⟨address, -, hevent⟩ := TraceError.exists_of_bind_eq_ok hevent
  have hrest (value : Option String) (hrest : (do
        let input ← step.region offset size
        let returnData ← step.returnData later
        return { kind, address, value, input, returnData, depth := step.depth, codeHash := none }) =
          (.ok event : Except TraceError Event)) : event.depth = step.depth := by
    obtain ⟨input, -, hrest⟩ := TraceError.exists_of_bind_eq_ok hrest
    obtain ⟨data, -, hrest⟩ := TraceError.exists_of_bind_eq_ok hrest
    obtain rfl := Except.ok.inj hrest
    rfl
  cases amount with
  | none => exact hrest none hevent
  | some amount =>
    obtain ⟨value, -, hevent⟩ := TraceError.exists_of_bind_eq_ok hevent
    exact hrest value hevent

theorem depth_of_createEvent {amount size offset : String}
    (hevent : createEvent sender step kind amount size offset = .ok event) :
    event.depth = step.depth := by
  obtain ⟨input, -, hevent⟩ := TraceError.exists_of_bind_eq_ok hevent
  obtain ⟨codeHash, -, hevent⟩ := TraceError.exists_of_bind_eq_ok hevent
  obtain ⟨salt, -, hevent⟩ := TraceError.exists_of_bind_eq_ok hevent
  obtain ⟨value, -, hevent⟩ := TraceError.exists_of_bind_eq_ok hevent
  obtain rfl := Except.ok.inj hevent
  rfl

/-- An event has the depth of its step. -/
theorem depth_of_event (hevent : step.event sender later kind = .ok event) :
    event.depth = step.depth := by
  rw [event_eq] at hevent
  cases hoperands : operands? kind step.topDown with
  | none =>
    rw [hoperands] at hevent
    cases hevent
  | some operands =>
    rw [hoperands] at hevent
    cases operands with
    | call target amount offset size => exact depth_of_callEvent hevent
    | creation amount size offset => exact depth_of_createEvent hevent

/-- The event of a call tells what the call returns. -/
theorem returnData_of_event (hkind : kind.IsCall)
    (hevent : step.event sender later kind = .ok event) :
    step.returnData later = .ok event.returnData := by
  rw [event_eq_of_isCall hkind] at hevent
  obtain ⟨early, -, hevent⟩ := TraceError.exists_of_bind_eq_ok hevent
  cases hdata : step.returnData later with
  | error error =>
    rw [hdata] at hevent
    cases hevent
  | ok data =>
    rw [hdata] at hevent
    obtain rfl := Except.ok.inj hevent
    rfl

end Step

end CodeTrail
