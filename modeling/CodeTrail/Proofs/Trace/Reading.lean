import CodeTrail.Proofs.Hex.Word
import CodeTrail.Trace.Reconstruction

/-!
# What is read off a step

The memory of a step is read as the digits of all its words together (`Hex.Word.allDigits?`,
`toOption_memoryDigits`), and memory that was not recorded as no digits (`slice_eq`). So a region can
be read exactly when both its words are numbers and the memory, unless the region is empty, holds
digits only (`toOption_region_eq_none_iff`). Counts of bytes end at the largest 64-bit number, and
doubling them or adding them ends there as well; none of this is seen on a text that fits a machine
(`clampedAt_eq`).

A call resumes at the first later step that stands right behind it (`Resumes`); `inside?_eq_some_iff`
cuts the later steps there. What a call returns depends on nothing behind that place
(`returnData_append`), and on nothing at all as long as the call is not resumed
(`returnData_of_not_resumed`). `toOption_returnData_eq_none_iff` says when it cannot be read.

`Operands` names the words of the stack that an event is made from; `event_eq` splits making an event
into finding them and reading them.
-/

set_option autoImplicit false
set_option relaxedAutoImplicit false

namespace CodeTrail

/-! ### Digits of words -/

namespace Hex

/-- A digit in lower case is the one that its value is written with. -/
theorem toLower_of_digit?_eq_some {character : Char} {value : Fin 16}
    (hdigit : digit? character = some value) : character.toLower = digitChar value := by
  rcases eq_digitChar_of_digit? hdigit with rfl | rfl <;> clear hdigit <;> revert value <;> decide

/-- A text of digits in lower case is the one that their values are written with. -/
theorem map_toLower_of_digits?_eq_some {text : List Char} {values : List (Fin 16)}
    (hdigits : digits? text = some values) : text.map Char.toLower = values.map digitChar := by
  induction text generalizing values with
  | nil =>
    cases hdigits
    rfl
  | cons first rest ih =>
    rw [digits?_cons] at hdigits
    obtain ⟨value, hvalue, hrest⟩ := Option.bind_eq_some_iff.mp hdigits
    obtain ⟨others, hothers, rfl⟩ := Option.map_eq_some_iff.mp hrest
    rw [List.map_cons, List.map_cons, toLower_of_digit?_eq_some hvalue, ih hothers]

namespace Word

/-- The digits of words put together, or nothing when one of the words holds a character that is no
digit. -/
def allDigits? (words : List String) : Option (List (Fin 16)) :=
  (words.mapM digits?).map List.flatten

theorem allDigits?_cons (word : String) (rest : List String) :
    allDigits? (word :: rest) =
      (digits? word).bind fun values ↦ (allDigits? rest).map (values ++ ·) := by
  rw [allDigits?, List.mapM_cons, allDigits?]
  cases digits? word with
  | none => rfl
  | some values => cases rest.mapM digits? <;> rfl

theorem allDigits?_eq_none_iff {words : List String} :
    allDigits? words = none ↔ ∃ word ∈ words, value? word = none := by
  induction words with
  | nil => simp [allDigits?]
  | cons word rest ih =>
    rw [allDigits?_cons, List.exists_mem_cons_iff, ← ih, value?]
    cases digits? word with
    | none => simp
    | some values => simp

end Word

end Hex

namespace Step

open Hex.Word (value? allDigits? countLimit)

/-! ### Regions of a text -/

@[simp] theorem clampedAt_nil (offset size : Nat) : clampedAt [] offset size = [] := by
  rw [clampedAt, List.extract_eq_take_drop, List.drop_nil, List.take_nil]

@[simp] theorem clampedAt_zero (text : List Char) (offset : Nat) : clampedAt text offset 0 = [] := by
  rw [clampedAt, List.extract_eq_take_drop, List.take_eq_nil_iff]
  exact Or.inl (by omega)

/-- Counts that end at the largest 64-bit number already are cut no further. -/
theorem clampedAt_min (text : List Char) (offset size : Nat) :
    clampedAt text (min offset countLimit) (min size countLimit) = clampedAt text offset size := by
  simp only [clampedAt, min_assoc, min_self]

/-- Counts that end at the largest 64-bit number cut a text that fits a machine like any others. -/
theorem clampedAt_eq {text : List Char} (htext : text.length < Nat.pow 2 63) (offset size : Nat) :
    clampedAt text offset size = text.extract (2 * offset) (2 * offset + 2 * size) := by
  have hlimit : 2 * countLimit + 2 = 4 * Nat.pow 2 63 := by decide
  apply List.ext_getElem?
  intro index
  simp only [clampedAt, List.extract_eq_take_drop, List.getElem?_take, List.getElem?_drop,
    Nat.add_sub_cancel_left]
  by_cases hindex : 2 * offset + index < text.length
  · have hstart : min (min (2 * min offset countLimit) countLimit) text.length = 2 * offset := by omega
    rw [hstart]
    congr 1
    rw [eq_iff_iff]
    omega
  · have hbehind : text[2 * offset + index]? = none := List.getElem?_eq_none (by omega)
    rw [hbehind, ite_self]
    split_ifs with hinside
    · exact List.getElem?_eq_none (by omega)
    · rfl

/-! ### Regions of memory -/

/-- The words of the memory of a step; none where the memory was not recorded. -/
def words (step : Step) : List String :=
  step.memory.getD []

/-- The memory is read as the digits of its words in lower case. -/
theorem toOption_memoryDigits (words : List String) :
    (memoryDigits words).toOption = (allDigits? words).map (List.map Hex.digitChar) := by
  induction words with
  | nil => rfl
  | cons word rest ih =>
    rw [Hex.Word.allDigits?_cons, memoryDigits, Hex.Word.digits?]
    cases hdigits : Hex.digits? (Hex.dropMark word.toList) with
    | none =>
      rw [if_neg (by rw [← Hex.isSome_digits?, hdigits]; decide)]
      rfl
    | some values =>
      rw [if_pos (by rw [← Hex.isSome_digits?, hdigits]; rfl),
        Hex.map_toLower_of_digits?_eq_some hdigits, Option.bind_some, Option.map_map]
      rw [← Hex.Word.digits?] at hdigits
      cases hrest : memoryDigits rest with
      | error word =>
        rw [hrest] at ih
        rw [(Option.map_eq_none_iff.mp ih.symm)]
        rfl
      | ok digits =>
        rw [hrest] at ih
        obtain ⟨others, hothers, hsame⟩ := Option.map_eq_some_iff.mp ih.symm
        rw [hothers, ← hsame]
        simp [Except.map, Except.toOption]

/-- Memory that was not recorded is read like memory without words. -/
theorem slice_eq (step : Step) (offset size : Nat) :
    step.slice offset size =
      if size = 0 then .ok ""
      else match memoryDigits step.words with
        | .error word => .error (.invalidHex step.pc word)
        | .ok digits => .ok (markedDigits (clampedAt digits offset size)) := by
  unfold slice words
  cases step.memory with
  | none =>
    rw [Option.getD_none, memoryDigits]
    dsimp only
    rw [clampedAt_nil, markedDigits, ite_self]
  | some words => rfl

/-- Why a region cannot be read: one of its words holds a character that is no digit, or the region
is not empty and a word of the memory holds one. -/
def Unreadable (step : Step) (offset size : String) : Prop :=
  value? offset = none ∨ value? size = none ∨
    (value? size ≠ some 0 ∧ ∃ word ∈ step.words, value? word = none)

theorem toOption_slice_eq_none_iff {step : Step} {offset size : Nat} :
    (step.slice offset size).toOption = none ↔
      size ≠ 0 ∧ ∃ word ∈ step.words, value? word = none := by
  have hmemory := toOption_memoryDigits step.words
  rw [slice_eq, ← Hex.Word.allDigits?_eq_none_iff]
  split_ifs with hsize
  · simp [Except.toOption, hsize]
  · cases hdigits : memoryDigits step.words with
    | error word =>
      rw [hdigits] at hmemory
      simp [Except.toOption, hsize, Option.map_eq_none_iff.mp hmemory.symm]
    | ok digits =>
      rw [hdigits] at hmemory
      obtain ⟨values, hvalues, -⟩ := Option.map_eq_some_iff.mp hmemory.symm
      simp [Except.toOption, hvalues]

/-- A region is read unless there is a reason why it cannot be. -/
theorem toOption_region_eq_none_iff {step : Step} {offset size : String} :
    (step.region offset size).toOption = none ↔ step.Unreadable offset size := by
  have hcount (word : String) : Hex.Word.count? word = (value? word).map (min · countLimit) :=
    Hex.Word.count?_eq word
  unfold region read Unreadable
  rw [hcount, hcount]
  cases value? offset with
  | none => simp [bind, Except.bind, Except.toOption]
  | some start =>
    cases value? size with
    | none => simp [bind, Except.bind, Except.toOption]
    | some count =>
      have hzero : min count countLimit = 0 ↔ count = 0 := by
        have hlimit : countLimit ≠ 0 := by decide
        omega
      simp only [Option.map_some, bind, Except.bind, toOption_slice_eq_none_iff, ne_eq, hzero,
        Option.some.injEq, reduceCtorEq, false_or]

/-! ### Where a call resumes -/

/-- A step stands right behind another. -/
def Resumes (step next : Step) : Prop :=
  next.pc.toNat = step.pc.toNat + 1

instance decidableResumes (step next : Step) : Decidable (Resumes step next) :=
  inferInstanceAs (Decidable (_ = _))

/-- Nothing stands behind the last place. -/
theorem resumes_iff {step next : Step} :
    Resumes step next ↔ step.pc ≠ 0xffffffff ∧ next.pc = step.pc + 1 := by
  have hstep := step.pc.toNat_lt
  have hnext := next.pc.toNat_lt
  have hlast : step.pc = 0xffffffff ↔ step.pc.toNat = 0xffffffff := UInt32.toNat_inj.symm
  have hsum : (step.pc + 1).toNat = (step.pc.toNat + 1) % 2 ^ 32 := UInt32.toNat_add _ _
  rw [Resumes, ne_eq, hlast, ← UInt32.toNat_inj, hsum]
  omega

theorem inside?_cons (step next : Step) (rest : List Step) :
    step.inside? (next :: rest) =
      if Resumes step next then some [] else (step.inside? rest).map (next :: ·) := by
  simp only [resumes_iff]
  unfold inside?
  by_cases hlast : step.pc = 0xffffffff
  · simp [hlast]
  · by_cases hnext : next.pc = step.pc + 1
    · simp [hlast, hnext]
    · by_cases hrest : rest.any (·.pc == step.pc + 1) = true
      · simp [hlast, hnext, hrest]
      · simp [hlast, hnext, hrest]

/-- The steps inside a call are those before the first that stands right behind it. -/
theorem inside?_eq_some_iff {step : Step} {later between : List Step} :
    step.inside? later = some between ↔
      ∃ next rest, later = between ++ next :: rest ∧ Resumes step next ∧
        ∀ other ∈ between, ¬ Resumes step other := by
  induction later generalizing between with
  | nil => simp [inside?]
  | cons first later ih =>
    rw [inside?_cons]
    split_ifs with hfirst
    · constructor
      · intro hbetween
        obtain rfl := Option.some.inj hbetween
        exact ⟨first, later, rfl, hfirst, by simp⟩
      · rintro ⟨next, rest, hlater, -, hbetween⟩
        cases between with
        | nil => rfl
        | cons other others =>
          rw [List.cons_append, List.cons_eq_cons] at hlater
          exact (hbetween other List.mem_cons_self (hlater.1 ▸ hfirst)).elim
    · rw [Option.map_eq_some_iff]
      constructor
      · rintro ⟨others, hothers, rfl⟩
        obtain ⟨next, rest, rfl, hnext, hbetween⟩ := ih.mp hothers
        exact ⟨next, rest, rfl, hnext, List.forall_mem_cons.mpr ⟨hfirst, hbetween⟩⟩
      · rintro ⟨next, rest, hlater, hnext, hbetween⟩
        cases between with
        | nil =>
          rw [List.nil_append, List.cons_eq_cons] at hlater
          exact (hfirst (hlater.1 ▸ hnext)).elim
        | cons other others =>
          rw [List.cons_append, List.cons_eq_cons] at hlater
          obtain ⟨rfl, hlater⟩ := hlater
          exact ⟨others, ih.mpr ⟨next, rest, hlater, hnext, (List.forall_mem_cons.mp hbetween).2⟩, rfl⟩

/-- A call is not resumed when no later step stands right behind it. -/
theorem inside?_eq_none_iff {step : Step} {later : List Step} :
    step.inside? later = none ↔ ∀ next ∈ later, ¬ Resumes step next := by
  induction later with
  | nil => simp [inside?]
  | cons first later ih =>
    rw [inside?_cons, List.forall_mem_cons, ← ih]
    split_ifs with hfirst
    · simp [hfirst]
    · simp [hfirst]

/-! ### What a call returns -/

theorem returnData_of_not_resumed {step : Step} {later : List Step}
    (hlater : ∀ next ∈ later, ¬ Resumes step next) : step.returnData later = .ok "" := by
  rw [returnData, inside?_eq_none_iff.mpr hlater]
  rfl

/-- Where a call is resumed already, steps that are added do not change what it returns. -/
theorem returnData_append {step : Step} {later : List Step}
    (hlater : ∃ next ∈ later, Resumes step next) (more : List Step) :
    step.returnData (later ++ more) = step.returnData later := by
  cases hinside : step.inside? later with
  | none =>
    obtain ⟨next, hnext, hresumes⟩ := hlater
    exact (inside?_eq_none_iff.mp hinside next hnext hresumes).elim
  | some between =>
    obtain ⟨next, rest, hsplit, hresumes, hbetween⟩ := inside?_eq_some_iff.mp hinside
    have hmore : step.inside? (later ++ more) = some between :=
      inside?_eq_some_iff.mpr ⟨next, rest ++ more, by simp [hsplit], hresumes, hbetween⟩
    rw [returnData, returnData, hinside, hmore]

/-- The last step inside a call: the one just before the first later step that stands right behind
the call. -/
def LastInside (step : Step) (later : List Step) (last : Step) : Prop :=
  ∃ front next rest, later = front ++ last :: next :: rest ∧ Resumes step next ∧
    (∀ other ∈ front, ¬ Resumes step other) ∧ ¬ Resumes step last

theorem bind_getLast?_inside?_eq_some_iff {step last : Step} {later : List Step} :
    (step.inside? later).bind List.getLast? = some last ↔ step.LastInside later last := by
  constructor
  · intro hlast
    obtain ⟨between, hinside, hend⟩ := Option.bind_eq_some_iff.mp hlast
    obtain ⟨next, rest, rfl, hresumes, hbetween⟩ := inside?_eq_some_iff.mp hinside
    obtain ⟨front, rfl⟩ := List.getLast?_eq_some_iff.mp hend
    rw [List.forall_mem_append, List.forall_mem_singleton] at hbetween
    exact ⟨front, next, rest, by simp, hresumes, hbetween.1, hbetween.2⟩
  · rintro ⟨front, next, rest, rfl, hresumes, hfront, hlast⟩
    have hinside : step.inside? (front ++ last :: next :: rest) = some (front ++ [last]) := by
      refine inside?_eq_some_iff.mpr ⟨next, rest, by simp, hresumes, ?_⟩
      rw [List.forall_mem_append, List.forall_mem_singleton]
      exact ⟨hfront, hlast⟩
    rw [hinside, Option.bind_some, List.getLast?_concat]

/-- The last step inside a call shows a region on top of its stack that cannot be read. -/
def ReturnsUnreadable (step : Step) (later : List Step) : Prop :=
  ∃ last offset size others, step.LastInside later last ∧
    last.topDown = offset :: size :: others ∧ last.Unreadable offset size

theorem toOption_returnData_eq_none_iff {step : Step} {later : List Step} :
    (step.returnData later).toOption = none ↔ step.ReturnsUnreadable later := by
  unfold returnData ReturnsUnreadable
  simp only [← bind_getLast?_inside?_eq_some_iff]
  cases (step.inside? later).bind List.getLast? with
  | none => simp [Except.toOption]
  | some last =>
    dsimp only
    match htop : last.topDown with
    | [] => simp [Except.toOption, htop]
    | [_] => simp [Except.toOption, htop]
    | offset :: size :: others =>
      dsimp only
      rw [toOption_region_eq_none_iff]
      constructor
      · intro hunreadable
        exact ⟨last, offset, size, others, rfl, htop, hunreadable⟩
      · rintro ⟨last', offset', size', others', hsame, htop', hunreadable⟩
        obtain rfl := Option.some.inj hsame
        rw [htop, List.cons_eq_cons, List.cons_eq_cons] at htop'
        obtain ⟨rfl, rfl, -⟩ := htop'
        exact hunreadable

/-! ### The words that an event is made from -/

/-- The words on top of a stack that an event is made from. -/
inductive Operands where
  | call (target : String) (amount : Option String) (offset size : String)
  | creation (amount size offset : String)

/-- The words that the event of a kind is made from, if the stack holds enough of them. -/
def operands? : CallKind → List String → Option Operands
  | .call, _ :: target :: amount :: offset :: size :: _
  | .callCode, _ :: target :: amount :: offset :: size :: _ =>
    some (.call target (some amount) offset size)
  | .delegateCall, _ :: target :: offset :: size :: _
  | .staticCall, _ :: target :: offset :: size :: _ => some (.call target none offset size)
  | .create, amount :: size :: offset :: _
  | .create2, amount :: size :: offset :: _ => some (.creation amount size offset)
  | _, _ => none

/-- The event of a step is that of its operands. -/
theorem event_eq (sender : Address) (step : Step) (later : List Step) (kind : CallKind) :
    step.event sender later kind =
      match operands? kind step.topDown with
      | some (.call target amount offset size) =>
        step.callEvent later kind target amount offset size
      | some (.creation amount size offset) => createEvent sender step kind amount size offset
      | none => .error (.stackUnderflow step.op step.pc kind.operandCount step.stack.length) := by
  unfold event
  generalize step.topDown = stack
  cases kind with
  | call | callCode =>
    match stack with
    | [] | [_] | [_, _] | [_, _, _] | [_, _, _, _] => rfl
    | _ :: _ :: _ :: _ :: _ :: _ => rfl
  | delegateCall | staticCall =>
    match stack with
    | [] | [_] | [_, _] | [_, _, _] => rfl
    | _ :: _ :: _ :: _ :: _ => rfl
  | create | create2 =>
    match stack with
    | [] | [_] | [_, _] => rfl
    | _ :: _ :: _ :: _ => rfl

end Step

end CodeTrail
