import CodeTrail.Proofs.Trace.Creations
import CodeTrail.Proofs.Trace.Frames

/-!
# Candidates that cannot be read

A candidate fails for one of two reasons. Its stack is too short for its kind, and then nothing is
read. Or a word that is looked at is no number, an amount is too large, the memory that is looked at
holds something else than digits, the code of a creation ends within a byte, or the step in front of
the one where a call resumes shows a region that cannot be read; `Malformed` lists these cases.

Readers fail with texts that are not hexadecimal only (`OnlyInvalidHex`), so it is enough to know when
they fail: `toOption_callEvent_eq_none_iff` and `toOption_createEvent_eq_none_iff` collect the cases of
an event from those of its parts. `outcomeAt_error_iff` says that there are no cases but those of
`Malformed`.
-/

set_option autoImplicit false
set_option relaxedAutoImplicit false

namespace CodeTrail

open Hex.Word (value?)

/-! ### The kind of a failure -/

namespace TraceError

/-- Where a result fails, it fails with a text that is not hexadecimal. -/
def OnlyInvalidHex {α : Type} (result : Except TraceError α) : Prop :=
  ∀ error, result = .error error → ∃ pc value, error = .invalidHex pc value

theorem onlyInvalidHex_ok {α : Type} (value : α) : OnlyInvalidHex (.ok value) :=
  fun _ herror ↦ nomatch herror

theorem onlyInvalidHex_invalidHex {α : Type} (pc : UInt32) (value : String) :
    OnlyInvalidHex (.error (.invalidHex pc value) : Except TraceError α) :=
  fun _ herror ↦ ⟨pc, value, (Except.error.inj herror).symm⟩

theorem OnlyInvalidHex.bind {α β : Type} {first : Except TraceError α}
    {next : α → Except TraceError β} (hfirst : OnlyInvalidHex first)
    (hnext : ∀ value, OnlyInvalidHex (next value)) : OnlyInvalidHex (first >>= next) := by
  cases first with
  | error error =>
    intro other hother
    obtain rfl := Except.error.inj hother
    exact hfirst error rfl
  | ok value => exact hnext value

/-- Where a result can fail in one way only, it fails in that way when it fails. -/
theorem OnlyInvalidHex.exists_iff {α : Type} {result : Except TraceError α}
    (honly : OnlyInvalidHex result) :
    (∃ pc value, result = .error (.invalidHex pc value)) ↔ result.toOption = none := by
  cases result with
  | ok value => simp [Except.toOption]
  | error error =>
    obtain ⟨pc, value, rfl⟩ := honly error rfl
    simp [Except.toOption]

theorem toOption_ok_eq_none_iff {α : Type} (value : α) :
    (Except.ok value : Except TraceError α).toOption = none ↔ False :=
  ⟨nofun, False.elim⟩

/-- Two steps fail when the first one fails or, whatever it results in, the second one does. -/
theorem toOption_bind_eq_none_iff {α β : Type} {first : Except TraceError α}
    {next : α → Except TraceError β} {fails : Prop}
    (hnext : ∀ value, first = .ok value → ((next value).toOption = none ↔ fails)) :
    (first >>= next).toOption = none ↔ first.toOption = none ∨ fails := by
  cases first with
  | error error => exact ⟨fun _ ↦ Or.inl rfl, fun _ ↦ rfl⟩
  | ok value => exact (hnext value rfl).trans (or_iff_right (Option.some_ne_none value)).symm

end TraceError

namespace Step

open TraceError

variable {sender : Address} {step : Step} {later : List Step} {kind : CallKind}

theorem onlyInvalidHex_read {α : Type} (reader : String → Option α) (word : String) :
    OnlyInvalidHex (step.read reader word) := by
  rw [read]
  cases reader word with
  | none => exact onlyInvalidHex_invalidHex step.pc word
  | some value => exact onlyInvalidHex_ok value

theorem onlyInvalidHex_slice (offset size : Nat) : OnlyInvalidHex (step.slice offset size) := by
  rw [slice_eq]
  split_ifs with hsize
  · exact onlyInvalidHex_ok ""
  · cases memoryDigits step.words with
    | error word => exact onlyInvalidHex_invalidHex step.pc word
    | ok digits => exact onlyInvalidHex_ok _

theorem onlyInvalidHex_region (offset size : String) : OnlyInvalidHex (step.region offset size) :=
  (onlyInvalidHex_read _ offset).bind fun start ↦
    (onlyInvalidHex_read _ size).bind fun count ↦ onlyInvalidHex_slice start count

theorem onlyInvalidHex_amount (word : String) : OnlyInvalidHex (step.amount word) :=
  (onlyInvalidHex_read _ word).bind fun _ ↦ onlyInvalidHex_ok _

theorem onlyInvalidHex_valueOf (amount : Option String) : OnlyInvalidHex (step.valueOf amount) := by
  cases amount with
  | none => exact onlyInvalidHex_ok none
  | some word => exact onlyInvalidHex_amount word

theorem onlyInvalidHex_returnData : OnlyInvalidHex (step.returnData later) := by
  unfold returnData
  split
  · exact onlyInvalidHex_ok ""
  · split
    · exact onlyInvalidHex_region _ _
    · exact onlyInvalidHex_ok ""

/-- A candidate whose stack is long enough fails with a text that is not hexadecimal, if it fails. -/
theorem onlyInvalidHex_event (hlength : kind.operandCount ≤ step.stack.length) :
    OnlyInvalidHex (step.event sender later kind) := by
  by_cases hkind : kind.IsCall
  · rw [event_eq_callEvent "" hkind hlength, callEvent_eq_bind]
    exact (onlyInvalidHex_read _ _).bind fun address ↦ (onlyInvalidHex_valueOf _).bind fun value ↦
      (onlyInvalidHex_region _ _).bind fun input ↦ onlyInvalidHex_returnData.bind fun data ↦
        onlyInvalidHex_ok _
  · rw [event_eq_createEvent "" hkind hlength]
    exact (onlyInvalidHex_region _ _).bind fun input ↦ (onlyInvalidHex_read _ _).bind fun codeHash ↦
      (onlyInvalidHex_read _ _).bind fun salt ↦ (onlyInvalidHex_amount _).bind fun value ↦
        onlyInvalidHex_ok _

/-! ### Failures of the parts of an event -/

theorem toOption_read_eq_none_iff {α : Type} {reader : String → Option α} {word : String} :
    (step.read reader word).toOption = none ↔ reader word = none := by
  rw [read]
  cases reader word <;> simp [Except.toOption]

/-- An amount is no number, or has more than 256 bits. -/
theorem toOption_amount_eq_none_iff {word : String} :
    (step.amount word).toOption = none ↔
      value? word = none ∨ ∃ amount, value? word = some amount ∧ Nat.pow 2 256 ≤ amount := by
  cases hamount : step.amount word with
  | ok value =>
    obtain ⟨amount, hvalue, hsmall, -⟩ := amount_eq_ok_iff.mp hamount
    simpa [hvalue, Except.toOption] using hsmall
  | error error =>
    have hnever (amount : Nat) (hvalue : value? word = some amount) : Nat.pow 2 256 ≤ amount := by
      by_contra hsmall
      have hok : step.amount word = .ok (if amount = 0 then none else some (toString amount)) :=
        amount_eq_ok_iff.mpr ⟨amount, hvalue, Nat.lt_of_not_le hsmall, rfl⟩
      rw [hamount] at hok
      cases hok
    cases hvalue : value? word with
    | none => simp [Except.toOption]
    | some amount => simpa [Except.toOption] using hnever amount hvalue

/-- The event of a call cannot be made when one of its parts cannot be read. -/
theorem toOption_callEvent_eq_none_iff {target offset size : String} {amount : Option String} :
    (step.callEvent later kind target amount offset size).toOption = none ↔
      value? target = none ∨ (step.valueOf amount).toOption = none ∨ step.Unreadable offset size ∨
        step.ReturnsUnreadable later := by
  have htarget : value? target = none ↔ (step.read Hex.Word.address? target).toOption = none := by
    rw [toOption_read_eq_none_iff, Hex.Word.address?, value?, Option.map_eq_none_iff,
      Option.map_eq_none_iff]
  rw [callEvent_eq_bind, htarget]
  refine toOption_bind_eq_none_iff fun address _ ↦ toOption_bind_eq_none_iff fun value _ ↦ ?_
  rw [← toOption_region_eq_none_iff, ← toOption_returnData_eq_none_iff]
  refine toOption_bind_eq_none_iff fun input _ ↦ ?_
  exact (toOption_bind_eq_none_iff fun data _ ↦ toOption_ok_eq_none_iff _).trans
    (or_iff_left not_false)

/-- The code of a creation ends within a byte. -/
def CodeSplit (step : Step) (offset size : String) : Prop :=
  ∃ start count, value? offset = some start ∧ value? size = some count ∧
    (clampedAt step.memoryText start count).length % 2 = 1

/-- The event of a creation cannot be made when its region or its amount cannot be read, or when the
code in the region ends within a byte. -/
theorem toOption_createEvent_eq_none_iff {amount size offset : String} :
    (createEvent sender step kind amount size offset).toOption = none ↔
      step.Unreadable offset size ∨ step.CodeSplit offset size ∨
        (step.amount amount).toOption = none := by
  rw [← toOption_region_eq_none_iff]
  refine toOption_bind_eq_none_iff fun input hinput ↦ ?_
  obtain ⟨start, count, hstart, hcount, hholds⟩ := region_eq_ok_iff.mp hinput
  obtain ⟨values, hvalues, rfl⟩ := hholds.exists_digits
  have hsplit : step.CodeSplit offset size ↔ values.length % 2 = 1 := by
    simp only [CodeSplit, hstart, hcount, Option.some.injEq, exists_and_left, exists_eq_left',
      ← hvalues, List.length_map]
  have hhash : (step.read (fun text ↦ (Code.hash text).toOption)
      (markedDigits (values.map Hex.digitChar))).toOption = none ↔ step.CodeSplit offset size := by
    rw [toOption_read_eq_none_iff, hash_markedDigits, hsplit, ite_eq_left_iff]
    simp
  -- The word of the salt is that of the offset, which has been read as a number already.
  have hsalt : ¬ (step.read Hex.Word.salt? offset).toOption = none := by
    rw [toOption_read_eq_none_iff, Hex.Word.salt?, Option.map_eq_none_iff]
    intro hnone
    rw [value?, hnone] at hstart
    cases hstart
  rw [← hhash]
  refine toOption_bind_eq_none_iff fun codeHash _ ↦ ?_
  refine (toOption_bind_eq_none_iff fun salt _ ↦ ?_).trans (or_iff_right hsalt)
  exact (toOption_bind_eq_none_iff fun value _ ↦ toOption_ok_eq_none_iff _).trans
    (or_iff_left not_false)

/-! ### Words and memory that cannot be read -/

end Step

/-- A word that holds, behind its mark, something else than digits. -/
def Hex.Word.Illegible (word : String) : Prop :=
  ∃ character ∈ Hex.dropMark word.toList, Hex.isDigit character = false

theorem Hex.Word.illegible_iff {word : String} : Illegible word ↔ value? word = none := by
  rw [value?, Option.map_eq_none_iff, ← Option.not_isSome_iff_eq_none, digits?, isSome_digits?,
    Bool.not_eq_true, List.all_eq_false]
  simp only [Illegible, Bool.not_eq_true]

namespace Step

variable {step : Step} {later : List Step}

/-- The memory was recorded, and a word of it, at any place, holds something else than digits. -/
def MemoryIllegible (step : Step) : Prop :=
  ∃ words, step.memory = some words ∧ ∃ word ∈ words, Hex.Word.Illegible word

theorem memoryIllegible_iff : step.MemoryIllegible ↔ ∃ word ∈ step.words, value? word = none := by
  simp only [MemoryIllegible, Hex.Word.illegible_iff, words]
  cases step.memory <;> simp

theorem unreadable_iff {offset size : String} :
    step.Unreadable offset size ↔
      value? offset = none ∨ value? size = none ∨
        ∃ count, value? size = some count ∧ count ≠ 0 ∧ step.MemoryIllegible := by
  rw [Unreadable, memoryIllegible_iff]
  cases value? size <;> simp

/-- The last step inside a call is the one in front of the first later step right behind the call,
unless that step follows the call at once. -/
theorem lastInside_drop_iff {steps : List Step} {index : Nat} {last : Step} :
    step.LastInside (steps.drop (index + 1)) last ↔
      ∃ resumed next, index + 1 < resumed ∧ steps[resumed]? = some next ∧ Resumes step next ∧
        (∀ between inner, index < between → between < resumed → steps[between]? = some inner →
          ¬ Resumes step inner) ∧ steps[resumed - 1]? = some last := by
  rw [← bind_getLast?_inside?_eq_some_iff, Option.bind_eq_some_iff]
  simp only [inside?_eq_some_iff_take, List.getElem?_drop]
  constructor
  · rintro ⟨_, ⟨count, next, rfl, hnext, hresumes, hearlier⟩, hlast⟩
    have hbound := (List.getElem?_eq_some_iff.mp hnext).1
    rw [List.getLast?_take, List.getElem?_drop] at hlast
    split_ifs at hlast with hcount
    have hend : index + 1 + (count - 1) = index + 1 + count - 1 := by omega
    rw [hend, List.getElem?_eq_getElem (by omega), Option.some_or] at hlast
    refine ⟨index + 1 + count, next, by omega, hnext, hresumes, ?_,
      by rw [List.getElem?_eq_getElem (by omega), hlast]⟩
    intro between inner hafter hbefore hinner
    refine hearlier (between - (index + 1)) inner (by omega) ?_
    rwa [Nat.add_sub_cancel' hafter]
  · rintro ⟨resumed, next, hlt, hnext, hresumes, hearlier, hlast⟩
    have hcancel : index + 1 + (resumed - (index + 1)) = resumed := Nat.add_sub_cancel' hlt.le
    have hend : index + 1 + (resumed - (index + 1) - 1) = resumed - 1 := by omega
    refine ⟨_, ⟨resumed - (index + 1), next, rfl, by rwa [hcancel], hresumes, ?_⟩, ?_⟩
    · exact fun earlier other hbefore ↦ hearlier (index + 1 + earlier) other (by omega) (by omega)
    · rw [List.getLast?_take, if_neg (by omega), List.getElem?_drop, hend, hlast, Option.some_or]

theorem exists_topDown_eq_iff {offset size : String} :
    (∃ others, step.topDown = offset :: size :: others) ↔
      step.fromTop? 1 = some offset ∧ step.fromTop? 2 = some size := by
  rw [fromTop?_succ step 0, fromTop?_succ step 1]
  rcases step.topDown with - | ⟨first, - | ⟨second, others⟩⟩ <;> simp

/-- What a call returns, with a given word for those that the stack of the last step inside it does not
hold. -/
def returnDataOr (missing : String) (step : Step) (later : List Step) : Except TraceError String :=
  match (step.inside? later).bind List.getLast? with
  | none => .ok ""
  | some last =>
    if last.stack.length < 2 then .ok ""
    else last.region (last.wordOr missing 1) (last.wordOr missing 2)

/-- No return data is read at a word that the stack does not hold. -/
theorem returnData_eq_returnDataOr (missing : String) (step : Step) (later : List Step) :
    step.returnData later = step.returnDataOr missing later := by
  rw [returnData, returnDataOr]
  cases (step.inside? later).bind List.getLast? with
  | none => rfl
  | some last =>
    dsimp only
    rw [wordOr, wordOr, fromTop?_succ last 0, fromTop?_succ last 1, ← length_topDown]
    rcases last.topDown with - | ⟨offset, - | ⟨size, rest⟩⟩
    · rfl
    · rfl
    · rw [if_neg (by simp)]
      rfl

end Step

/-! ### What is wrong with a candidate -/

/-- The place of the first word that an event of a kind is made from; the gas of a call is not looked
at. -/
def CallKind.firstPlace : CallKind → Nat
  | .call | .callCode | .delegateCall | .staticCall => 2
  | .create | .create2 => 1

/-- The places of the words of an event go from the first one to the last one. -/
theorem CallKind.isPlace_iff (kind : CallKind) (place : Nat) :
    kind.firstPlace ≤ place ∧ place ≤ kind.operandCount ↔
      kind.IsCall ∧ place = 2 ∨ kind.amountPlace? = some place ∨ place = kind.offsetPlace ∨
        place = kind.sizePlace := by
  cases kind <;>
    simp [firstPlace, operandCount, IsCall, amountPlace?, offsetPlace, sizePlace] <;> omega

/-- The first step behind a call at an index that stands right behind it does not follow it at once,
and the step in front of that one shows a region on top of its stack that cannot be read. -/
structure IllegibleReturn (steps : List Step) (index : Nat) (call : Step) (resumed : Nat)
    (next last : Step) (offset size : String) : Prop where
  place_lt : call.pc.toNat < Nat.pow 2 32 - 1
  index_lt : index + 1 < resumed
  getElem?_resumed : steps[resumed]? = some next
  behind : next.pc.toNat = call.pc.toNat + 1
  first : ∀ between inner, index < between → between < resumed → steps[between]? = some inner →
    inner.pc.toNat ≠ call.pc.toNat + 1
  getElem?_last : steps[resumed - 1]? = some last
  two_le_length : 2 ≤ last.stack.length
  offset_eq : last.fromTop? 1 = some offset
  size_eq : last.fromTop? 2 = some size
  illegible : Hex.Word.Illegible offset ∨ Hex.Word.Illegible size ∨
    ∃ count, value? size = some count ∧ count ≠ 0 ∧ last.MemoryIllegible

/-- Why the candidate at an index cannot be read although its stack is long enough. -/
inductive Malformed (steps : List Step) (index : Nat) (step : Step) (kind : CallKind) : Prop where
  /-- A word that is looked at holds something else than digits. -/
  | word (place : Nat) (word : String) (hfirst : kind.firstPlace ≤ place)
      (hlast : place ≤ kind.operandCount) (hword : step.fromTop? place = some word)
      (hillegible : Hex.Word.Illegible word)
  /-- The amount has more than 256 bits. -/
  | amount (place amount : Nat) (hplace : kind.amountPlace? = some place)
      (hamount : step.numberAt? place = some amount) (hlarge : Nat.pow 2 256 ≤ amount)
  /-- The input is not empty, and the memory cannot be read. -/
  | memory (size : Nat) (hsize : step.numberAt? kind.sizePlace = some size) (hnonzero : size ≠ 0)
      (hmemory : step.MemoryIllegible)
  /-- The code of a creation, as far as the memory goes, ends within a byte. -/
  | code (offset size : Nat) (hkind : kind.IsCreation)
      (hoffset : step.numberAt? kind.offsetPlace = some offset)
      (hsize : step.numberAt? kind.sizePlace = some size)
      (hodd : (Step.clampedAt step.memoryText offset size).length % 2 = 1)
  /-- What a call returns cannot be read. -/
  | returned (resumed : Nat) (next last : Step) (offset size : String) (hkind : kind.IsCall)
      (hreturn : IllegibleReturn steps index step resumed next last offset size)

theorem CallKind.not_isCall_iff {kind : CallKind} : ¬ kind.IsCall ↔ kind.IsCreation := by
  rw [IsCall, IsCreation, not_and_or, ne_eq, ne_eq, not_not, not_not]

section Candidates

variable {sender : Address} {steps : List Step} {index : Nat} {step : Step} {kind : CallKind}

/-- What a call returns cannot be read exactly when the step in front of the first later step right
behind the call shows a region that cannot be read. -/
theorem returnsUnreadable_drop_iff :
    step.ReturnsUnreadable (steps.drop (index + 1)) ↔
      ∃ resumed next last offset size,
        IllegibleReturn steps index step resumed next last offset size := by
  simp only [Step.ReturnsUnreadable, Step.lastInside_drop_iff, Step.unreadable_iff,
    ← Hex.Word.illegible_iff]
  constructor
  · rintro ⟨last, offset, size, others, ⟨resumed, next, hlt, hnext, hresumes, hfirst, hlast⟩, htop,
      hillegible⟩
    obtain ⟨hoffset, hsize⟩ := Step.exists_topDown_eq_iff.mp ⟨others, htop⟩
    have hplace : step.pc.toNat < Nat.pow 2 32 - 1 := by
      have hbound := next.pc.toNat_lt
      rw [Step.Resumes] at hresumes
      have hpow : Nat.pow 2 32 = 2 ^ 32 := rfl
      omega
    have hlength : 2 ≤ last.stack.length := by
      rw [← Step.length_topDown, htop, List.length_cons, List.length_cons]
      omega
    exact ⟨resumed, next, last, offset, size, hplace, hlt, hnext, hresumes, hfirst, hlast, hlength,
      hoffset, hsize, hillegible⟩
  · rintro ⟨resumed, next, last, offset, size, hreturn⟩
    obtain ⟨others, htop⟩ := Step.exists_topDown_eq_iff.mpr ⟨hreturn.offset_eq, hreturn.size_eq⟩
    exact ⟨last, offset, size, others, ⟨resumed, next, hreturn.index_lt, hreturn.getElem?_resumed,
      hreturn.behind, hreturn.first, hreturn.getElem?_last⟩, htop, hreturn.illegible⟩

section Numbers

variable (hlength : kind.operandCount ≤ step.stack.length)

include hlength

theorem Step.numberAt?_eq_none_iff {place : Nat}
    (hplace : kind.firstPlace ≤ place ∧ place ≤ kind.operandCount) :
    step.numberAt? place = none ↔
      ∃ word, step.fromTop? place = some word ∧ Hex.Word.Illegible word := by
  have hpos : 0 < place := by
    have hfirst : 0 < kind.firstPlace := by cases kind <;> decide
    exact hfirst.trans_le hplace.1
  have hword := fromTop?_eq_some "" hpos (hplace.2.trans hlength)
  rw [numberAt?, hword, Option.bind_some, ← Hex.Word.illegible_iff]
  simp

theorem Step.toOption_valueOf_eq_none_iff (missing : String) :
    (step.valueOf (kind.amountPlace?.map (step.wordOr missing))).toOption = none ↔
      ∃ place, kind.amountPlace? = some place ∧ (step.numberAt? place = none ∨
        ∃ amount, step.numberAt? place = some amount ∧ Nat.pow 2 256 ≤ amount) := by
  cases hplace : kind.amountPlace? with
  | none => exact ⟨nofun, fun ⟨place, hsome, _⟩ ↦ nomatch hsome⟩
  | some place =>
    have hbounds : 0 < place ∧ place ≤ kind.operandCount := by
      cases kind <;> cases hplace <;> decide
    rw [Option.map_some, valueOf, toOption_amount_eq_none_iff,
      value?_wordOr missing hbounds.1 (hbounds.2.trans hlength)]
    simp only [Option.some.injEq, exists_eq_left']

/-- The event of a candidate cannot be made when one of its parts cannot be read. -/
theorem Step.toOption_event_eq_none_iff {later : List Step} :
    (step.event sender later kind).toOption = none ↔
      (kind.IsCall ∧ step.numberAt? 2 = none) ∨
      (∃ place, kind.amountPlace? = some place ∧ (step.numberAt? place = none ∨
        ∃ amount, step.numberAt? place = some amount ∧ Nat.pow 2 256 ≤ amount)) ∨
      (step.numberAt? kind.offsetPlace = none ∨ step.numberAt? kind.sizePlace = none ∨
        ∃ size, step.numberAt? kind.sizePlace = some size ∧ size ≠ 0 ∧ step.MemoryIllegible) ∨
      (kind.IsCreation ∧ ∃ offset size, step.numberAt? kind.offsetPlace = some offset ∧
        step.numberAt? kind.sizePlace = some size ∧
        (clampedAt step.memoryText offset size).length % 2 = 1) ∨
      (kind.IsCall ∧ step.ReturnsUnreadable later) := by
  have htwo : 2 ≤ kind.operandCount := by cases kind <;> decide
  rw [← toOption_valueOf_eq_none_iff hlength "", ← value?_wordOr "" (by decide) (htwo.trans hlength),
    ← value?_wordOr "" kind.offsetPlace_pos (kind.offsetPlace_le.trans hlength),
    ← value?_wordOr "" kind.sizePlace_pos (kind.sizePlace_le.trans hlength), ← unreadable_iff,
    ← CodeSplit]
  by_cases hkind : kind.IsCall
  · have hcreation : ¬ kind.IsCreation := fun hcreation ↦ hcreation.not_isCall hkind
    rw [event_eq_callEvent "" hkind hlength, toOption_callEvent_eq_none_iff]
    simp only [hkind, hcreation, true_and, false_and, false_or]
  · have hcreation := CallKind.not_isCall_iff.mp hkind
    rw [event_eq_createEvent "" hkind hlength, toOption_createEvent_eq_none_iff]
    simp only [hkind, hcreation, true_and, false_and, false_or, or_false]
    rcases hcreation with rfl | rfl <;> exact or_rotate.symm

/-- A candidate whose stack is long enough cannot be read exactly when it is malformed. -/
theorem toOption_event_eq_none_iff_malformed :
    (step.event sender (steps.drop (index + 1)) kind).toOption = none ↔
      Malformed steps index step kind := by
  have hillegible {place : Nat} (hplace : kind.firstPlace ≤ place ∧ place ≤ kind.operandCount)
      (hnone : step.numberAt? place = none) : Malformed steps index step kind := by
    obtain ⟨word, hword, hbad⟩ := (Step.numberAt?_eq_none_iff hlength hplace).mp hnone
    exact .word place word hplace.1 hplace.2 hword hbad
  rw [Step.toOption_event_eq_none_iff hlength, returnsUnreadable_drop_iff]
  constructor
  · rintro (⟨hkind, hnone⟩ | ⟨place, hplace, hnone | ⟨amount, hnumber, hlarge⟩⟩ |
      (hnone | hnone | ⟨size, hnumber, hnonzero, hmemory⟩) |
      ⟨hkind, offset, size, hstart, hcount, hodd⟩ |
      ⟨hkind, resumed, next, last, offset, size, hreturn⟩)
    · exact hillegible ((kind.isPlace_iff _).mpr (Or.inl ⟨hkind, rfl⟩)) hnone
    · exact hillegible ((kind.isPlace_iff _).mpr (Or.inr (Or.inl hplace))) hnone
    · exact .amount place amount hplace hnumber hlarge
    · exact hillegible ((kind.isPlace_iff _).mpr (Or.inr (Or.inr (Or.inl rfl)))) hnone
    · exact hillegible ((kind.isPlace_iff _).mpr (Or.inr (Or.inr (Or.inr rfl)))) hnone
    · exact .memory size hnumber hnonzero hmemory
    · exact .code offset size hkind hstart hcount hodd
    · exact .returned resumed next last offset size hkind hreturn
  · intro hmalformed
    cases hmalformed with
    | word place word hfirst hlast hword hbad =>
      have hnone := (Step.numberAt?_eq_none_iff hlength ⟨hfirst, hlast⟩).mpr ⟨word, hword, hbad⟩
      rcases (kind.isPlace_iff place).mp ⟨hfirst, hlast⟩ with ⟨hkind, rfl⟩ | hplace | rfl | rfl
      · exact Or.inl ⟨hkind, hnone⟩
      · exact Or.inr (Or.inl ⟨place, hplace, Or.inl hnone⟩)
      · exact Or.inr (Or.inr (Or.inl (Or.inl hnone)))
      · exact Or.inr (Or.inr (Or.inl (Or.inr (Or.inl hnone))))
    | amount place amount hplace hnumber hlarge =>
      exact Or.inr (Or.inl ⟨place, hplace, Or.inr ⟨amount, hnumber, hlarge⟩⟩)
    | memory size hnumber hnonzero hmemory =>
      exact Or.inr (Or.inr (Or.inl (Or.inr (Or.inr ⟨size, hnumber, hnonzero, hmemory⟩))))
    | code offset size hkind hstart hcount hodd =>
      exact Or.inr (Or.inr (Or.inr (Or.inl ⟨hkind, offset, size, hstart, hcount, hodd⟩)))
    | returned resumed next last offset size hkind hreturn =>
      exact Or.inr (Or.inr (Or.inr (Or.inr ⟨hkind, resumed, next, last, offset, size, hreturn⟩)))

end Numbers

end Candidates

/-- When a candidate fails, and how. It fails with a stack that is too short exactly when its stack
holds fewer words than its kind needs. Otherwise all the words it looks at are there, so no other text
is ever read in place of one, be it a word of its own stack or of the one where a called frame ends; and
it fails with a text that is not hexadecimal exactly in the cases of `Malformed`. -/
theorem outcomeAt_error_iff (sender : Address) (legacyCallPcs : List UInt32) {steps : List Step}
    {index : Nat} {step : Step} {kind : CallKind} (hstep : steps[index]? = some step)
    (hkind : step.kind? legacyCallPcs = some kind) :
    (∀ op pc needed found,
      OutcomeAt sender legacyCallPcs steps index (.error (.stackUnderflow op pc needed found)) ↔
        step.stack.length < kind.operandCount ∧ op = step.op ∧ pc = step.pc ∧
          needed = kind.operandCount ∧ found = step.stack.length) ∧
    (kind.operandCount ≤ step.stack.length →
      (∀ place, 1 ≤ place → place ≤ kind.operandCount → ∃ word, step.fromTop? place = some word) ∧
      (∀ missing, OutcomeAt sender legacyCallPcs steps index
        (step.eventOr missing sender (steps.drop (index + 1)) kind)) ∧
      (∀ missing, step.returnData (steps.drop (index + 1)) =
        step.returnDataOr missing (steps.drop (index + 1))) ∧
      ((∃ pc value, OutcomeAt sender legacyCallPcs steps index (.error (.invalidHex pc value))) ↔
        Malformed steps index step kind)) := by
  simp only [outcomeAt_iff_event_eq hstep hkind]
  refine ⟨fun op pc needed found ↦ ?_, fun hlength ↦ ⟨fun place hpos hplace ↦ ?_, fun missing ↦ ?_,
    fun missing ↦ ?_, ?_⟩⟩
  · by_cases hshort : step.stack.length < kind.operandCount
    · rw [Step.event_eq_underflow hshort]
      simp [hshort, eq_comm]
    · refine ⟨fun hevent ↦ ?_, fun h ↦ (hshort h.1).elim⟩
      obtain ⟨pc', value, hother⟩ :=
        Step.onlyInvalidHex_event (Nat.le_of_not_lt hshort) _ hevent
      cases hother
  · exact ⟨_, Step.fromTop?_eq_some "" hpos (hplace.trans hlength)⟩
  · exact Step.event_eq_eventOr missing sender step _ kind
  · exact Step.returnData_eq_returnDataOr missing step _
  · rw [(Step.onlyInvalidHex_event hlength).exists_iff, toOption_event_eq_none_iff_malformed hlength]

/-- A call whose frame ends at a step that returns the first byte of its memory. The call fails because
of the second word of that memory, which the region does not reach. -/
theorem outcomeAt_error_of_illegible_return :
    let sender : Address := ⟨List.replicate 20 0, rfl⟩
    let call : Step := ⟨10, "CALL", 1, ["0", "0", "0", "1", "0"], none⟩
    let last : Step := ⟨0, "RETURN", 2, ["0x1", "0x0"], some ["aa", "zz"]⟩
    let next : Step := ⟨11, "POP", 1, [], none⟩
    let steps : List Step := [call, last, next]
    steps[0]? = some call ∧ call.kind? [] = some .call ∧
      IllegibleReturn steps 0 call 2 next last "0x0" "0x1" ∧
      (∃ pc value, OutcomeAt sender [] steps 0 (.error (.invalidHex pc value))) ∧
      ∀ op pc needed found,
        ¬ OutcomeAt sender [] steps 0 (.error (.stackUnderflow op pc needed found)) := by
  intro sender call last next steps
  have hkind : call.kind? [] = some .call := by decide +kernel
  have hcall : CallKind.call.IsCall := ⟨by decide, by decide⟩
  have hfirst (between : Nat) (inner : Step) (hafter : 0 < between) (hbefore : between < 2)
      (hinner : steps[between]? = some inner) : inner.pc.toNat ≠ call.pc.toNat + 1 := by
    obtain rfl : between = 1 := by omega
    obtain rfl := Option.some.inj hinner
    decide
  have hmemory : last.MemoryIllegible := ⟨_, rfl, "zz", by decide, 'z', by decide, by decide⟩
  have hreturn : IllegibleReturn steps 0 call 2 next last "0x0" "0x1" :=
    ⟨by decide, by decide, rfl, by decide, hfirst, rfl, by decide, rfl, rfl,
      Or.inr (Or.inr ⟨1, by decide +kernel, by decide, hmemory⟩)⟩
  obtain ⟨hunderflow, hrest⟩ := outcomeAt_error_iff sender [] (rfl : steps[0]? = some call) hkind
  obtain ⟨-, -, -, hfails⟩ := hrest (by decide)
  refine ⟨rfl, hkind, hreturn, hfails.mpr (.returned 2 next last "0x0" "0x1" hcall hreturn), ?_⟩
  intro op pc needed found hoverrun
  exact absurd ((hunderflow op pc needed found).mp hoverrun).1 (by decide)

end CodeTrail
