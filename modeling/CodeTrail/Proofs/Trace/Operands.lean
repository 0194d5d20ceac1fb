import CodeTrail.Proofs.Trace.Event

/-!
# The words and the digits of an event

Words of the stack are named by their places, counted from the top: `CallKind.amountPlace?`,
`CallKind.offsetPlace` and `CallKind.sizePlace` say where an event finds its words, and `numberAt?` is
the number that the word at a place denotes. `event_eq_eventOr` makes an event from the words at these
places. It puts a given word where the stack holds none, and the result is the same whichever word that
is, so no event is made from it.

The memory is a text of digits (`memoryText`), and a region is cut out of it by counts that end at the
largest 64-bit number (`HoldsAt.exists_digits`). On a text that fits a machine the end of the counts is
not seen (`clampedAt_eq`): there a region reads as the digits between two positions
(`digitsAt`, `HoldsAt.toList_eq`).
-/

set_option autoImplicit false
set_option relaxedAutoImplicit false

namespace CodeTrail

open Hex.Word (value? allDigits?)

/-! ### Places on the stack -/

namespace CallKind

/-- The place of the word for the amount that is sent along, where one can be sent. -/
def amountPlace? : CallKind → Option Nat
  | .call | .callCode => some 3
  | .delegateCall | .staticCall => none
  | .create | .create2 => some 1

/-- The place of the word for the offset of the input. -/
def offsetPlace : CallKind → Nat
  | .call | .callCode => 4
  | .delegateCall | .staticCall => 3
  | .create | .create2 => 3

/-- The place of the word for the size of the input. -/
def sizePlace : CallKind → Nat
  | .call | .callCode => 5
  | .delegateCall | .staticCall => 4
  | .create | .create2 => 2

theorem offsetPlace_pos (kind : CallKind) : 0 < kind.offsetPlace := by
  cases kind <;> decide

theorem offsetPlace_le (kind : CallKind) : kind.offsetPlace ≤ kind.operandCount := by
  cases kind <;> decide

theorem sizePlace_pos (kind : CallKind) : 0 < kind.sizePlace := by
  cases kind <;> decide

theorem sizePlace_le (kind : CallKind) : kind.sizePlace ≤ kind.operandCount := by
  cases kind <;> decide

end CallKind

namespace Step

/-- The number that the word at a place counted from the top of the stack denotes. -/
def numberAt? (step : Step) (place : Nat) : Option Nat :=
  (step.fromTop? place).bind value?

/-- The word at a place counted from the top of the stack, and a given one where the stack has no such
place. -/
def wordOr (missing : String) (step : Step) (place : Nat) : String :=
  (step.fromTop? place).getD missing

section Places

variable {step : Step} {place : Nat}

theorem fromTop?_succ (step : Step) (place : Nat) :
    step.fromTop? (place + 1) = step.topDown[place]? := by
  rw [fromTop?, topDown]
  split_ifs with hplace
  · rw [List.getElem?_reverse hplace]
    congr 1
    omega
  · rw [List.getElem?_eq_none (by rw [List.length_reverse]; omega)]

theorem fromTop?_eq_some (missing : String) (hpos : 0 < place) (hplace : place ≤ step.stack.length) :
    step.fromTop? place = some (step.wordOr missing place) := by
  have hbound : step.stack.length - place < step.stack.length := by omega
  rw [wordOr, fromTop?, if_pos hplace, List.getElem?_eq_getElem hbound, Option.getD_some]

theorem value?_wordOr (missing : String) (hpos : 0 < place) (hplace : place ≤ step.stack.length) :
    value? (step.wordOr missing place) = step.numberAt? place := by
  rw [numberAt?, fromTop?_eq_some missing hpos hplace, Option.bind_some]

end Places

/-- The event of a step from the words at their places, with a given word for those that the stack
does not hold. -/
def eventOr (missing : String) (sender : Address) (step : Step) (later : List Step) (kind : CallKind) :
    Except TraceError Event :=
  let word := step.wordOr missing
  if step.stack.length < kind.operandCount then
    .error (.stackUnderflow step.op step.pc kind.operandCount step.stack.length)
  else
    match kind with
    | .create | .create2 => createEvent sender step kind (word 1) (word 2) (word 3)
    | .call | .callCode | .delegateCall | .staticCall =>
      step.callEvent later kind (word 2) (kind.amountPlace?.map word) (word kind.offsetPlace)
        (word kind.sizePlace)

/-- No event is made from a word that the stack does not hold. -/
theorem event_eq_eventOr (missing : String) (sender : Address) (step : Step) (later : List Step)
    (kind : CallKind) : step.event sender later kind = step.eventOr missing sender later kind := by
  have hword (place : Nat) : step.wordOr missing (place + 1) = step.topDown[place]?.getD missing := by
    rw [wordOr, fromTop?_succ]
  have hlength : step.stack.length = step.topDown.length := List.length_reverse.symm
  unfold eventOr
  rw [event_eq]
  simp only [hlength]
  cases kind with
  | call | callCode =>
    dsimp only [CallKind.amountPlace?, CallKind.offsetPlace, CallKind.sizePlace, Option.map_some]
    rw [hword 1, hword 2, hword 3, hword 4]
    match step.topDown with
    | [] | [_] | [_, _] | [_, _, _] | [_, _, _, _] => rfl
    | _ :: _ :: _ :: _ :: _ :: _ => rw [if_neg (by simp [CallKind.operandCount])]; rfl
  | delegateCall | staticCall =>
    dsimp only [CallKind.amountPlace?, CallKind.offsetPlace, CallKind.sizePlace, Option.map_none]
    rw [hword 1, hword 2, hword 3]
    match step.topDown with
    | [] | [_] | [_, _] | [_, _, _] => rfl
    | _ :: _ :: _ :: _ :: _ => rw [if_neg (by simp [CallKind.operandCount])]; rfl
  | create | create2 =>
    rw [hword 0, hword 1, hword 2]
    match step.topDown with
    | [] | [_] | [_, _] => rfl
    | _ :: _ :: _ :: _ => rw [if_neg (by simp [CallKind.operandCount])]; rfl

section Kinds

variable {sender : Address} {step : Step} {later : List Step} {kind : CallKind}

theorem event_eq_underflow (hshort : step.stack.length < kind.operandCount) :
    step.event sender later kind =
      .error (.stackUnderflow step.op step.pc kind.operandCount step.stack.length) := by
  rw [event_eq_eventOr "", eventOr.eq_def]
  exact if_pos hshort

theorem operandCount_le_of_event {event : Event}
    (hevent : step.event sender later kind = .ok event) : kind.operandCount ≤ step.stack.length := by
  by_contra hshort
  rw [event_eq_underflow (Nat.lt_of_not_le hshort)] at hevent
  cases hevent

theorem event_eq_callEvent (missing : String) (hkind : kind.IsCall)
    (hlength : kind.operandCount ≤ step.stack.length) :
    step.event sender later kind =
      step.callEvent later kind (step.wordOr missing 2)
        (kind.amountPlace?.map (step.wordOr missing)) (step.wordOr missing kind.offsetPlace)
        (step.wordOr missing kind.sizePlace) := by
  rw [event_eq_eventOr missing, eventOr.eq_def, if_neg (Nat.not_lt_of_le hlength)]
  cases kind with
  | create => exact (hkind.1 rfl).elim
  | create2 => exact (hkind.2 rfl).elim
  | call | callCode | delegateCall | staticCall => rfl

theorem event_eq_createEvent (missing : String) (hkind : ¬ kind.IsCall)
    (hlength : kind.operandCount ≤ step.stack.length) :
    step.event sender later kind =
      createEvent sender step kind (step.wordOr missing 1) (step.wordOr missing 2)
        (step.wordOr missing 3) := by
  rw [event_eq_eventOr missing, eventOr.eq_def, if_neg (Nat.not_lt_of_le hlength)]
  cases kind with
  | create | create2 => rfl
  | call | callCode | delegateCall | staticCall => simp [CallKind.IsCall] at hkind

end Kinds

/-! ### Digits of the memory -/

/-- The digits of the words of the memory one after the other, in lower case and without marks. -/
def memoryText (step : Step) : List Char :=
  step.words.flatMap fun word ↦ (Hex.dropMark word.toList).map Char.toLower

/-- The digits of the memory in a region that is given in bytes. -/
def digitsAt (step : Step) (offset size : Nat) : List Char :=
  step.memoryText.extract (2 * offset) (2 * offset + 2 * size)

theorem flatMap_toLower_of_allDigits? {words : List String} {values : List (Fin 16)}
    (hvalues : allDigits? words = some values) :
    (words.flatMap fun word ↦ (Hex.dropMark word.toList).map Char.toLower) =
      values.map Hex.digitChar := by
  induction words generalizing values with
  | nil =>
    cases hvalues
    rfl
  | cons word rest ih =>
    rw [Hex.Word.allDigits?_cons] at hvalues
    obtain ⟨first, hfirst, hrest⟩ := Option.bind_eq_some_iff.mp hvalues
    obtain ⟨others, hothers, rfl⟩ := Option.map_eq_some_iff.mp hrest
    rw [List.flatMap_cons, ih hothers, Hex.map_toLower_of_digits?_eq_some hfirst, List.map_append]

/-- A region that can be read holds digits, and it reads as these digits. -/
theorem HoldsAt.exists_digits {step : Step} {offset size : Nat} {text : String}
    (hholds : step.HoldsAt offset size text) :
    ∃ values : List (Fin 16), values.map Hex.digitChar = clampedAt step.memoryText offset size ∧
      text = markedDigits (values.map Hex.digitChar) := by
  rcases hholds with ⟨rfl, rfl⟩ | ⟨-, values, hvalues, rfl⟩
  · exact ⟨[], by rw [clampedAt_zero, List.map_nil], rfl⟩
  · rw [memoryText, flatMap_toLower_of_allDigits? hvalues]
    simp only [clampedAt, List.extract_eq_take_drop, ← List.map_drop, ← List.map_take]
    exact ⟨_, rfl, rfl⟩

theorem toList_markedDigits (digits : List Char) :
    (markedDigits digits).toList = if digits = [] then [] else '0' :: 'x' :: digits := by
  cases digits with
  | nil => rfl
  | cons first rest => rw [if_neg (List.cons_ne_nil _ _), markedDigits, String.toList_ofList]; simp

/-- On the memory of a machine a region reads as the digits between two positions, behind a mark if there
are any. -/
theorem HoldsAt.toList_eq {step : Step} {offset size : Nat} {text : String}
    (hholds : step.HoldsAt offset size text) (hmemory : step.memoryText.length < Nat.pow 2 63) :
    text.toList =
      if step.digitsAt offset size = [] then [] else '0' :: 'x' :: step.digitsAt offset size := by
  obtain ⟨values, hvalues, rfl⟩ := hholds.exists_digits
  rw [hvalues, clampedAt_eq hmemory, toList_markedDigits, digitsAt]

/-! ### Words that are read -/

variable {step : Step}

theorem read_eq_ok_iff {α : Type} {reader : String → Option α} {word : String} {value : α} :
    step.read reader word = .ok value ↔ reader word = some value := by
  rw [read]
  cases reader word <;> simp

/-- An amount is read as a decimal number, absent for zero, if it has at most 256 bits. -/
theorem amount_eq_ok_iff {word : String} {value : Option String} :
    step.amount word = .ok value ↔
      ∃ amount, value? word = some amount ∧ amount < Nat.pow 2 256 ∧
        value = if amount = 0 then none else some (toString amount) := by
  unfold amount read
  rw [Hex.Word.amount?_eq]
  cases value? word with
  | none => simp [bind, Except.bind]
  | some amount =>
    rw [Option.filter_some]
    split_ifs with hamount <;>
      simp_all [bind, Except.bind, pure, Except.pure, eq_comm]

/-- The value of an event from the word for its amount, where it has one. -/
def valueOf (step : Step) : Option String → Except TraceError (Option String)
  | some word => step.amount word
  | none => .ok none

theorem callEvent_eq_bind (step : Step) (later : List Step) (kind : CallKind) (target : String)
    (amount : Option String) (offset size : String) :
    step.callEvent later kind target amount offset size = (do
      let address ← step.read Hex.Word.address? target
      let value ← step.valueOf amount
      let input ← step.region offset size
      let returnData ← step.returnData later
      return { kind, address, value, input, returnData, depth := step.depth, codeHash := none }) := by
  cases amount <;> rfl

end Step

end CodeTrail
