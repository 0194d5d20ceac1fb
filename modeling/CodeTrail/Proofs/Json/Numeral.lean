import CodeTrail.Json.Printer
import CodeTrail.Json.Reader
import Mathlib.Data.List.TakeDrop

/-!
# Integers read back

The digits that an integer is written with are read as that integer, as long as it fits 64 bits and
nothing follows it that belongs to a number (`number?_integerChars`). `EndsNumber` says what may
follow.
-/

set_option autoImplicit false
set_option relaxedAutoImplicit false

namespace CodeTrail.Json

/-- What follows does not belong to a number. -/
def EndsNumber (after : List Char) : Prop :=
  ∀ character ∈ after.head?, character.isDigit = false ∧ character ≠ '.' ∧ character ≠ 'e' ∧
    character ≠ 'E'

namespace Numeral

theorem value_eq_ofDigitChars (digits : List Char) : value digits = Nat.ofDigitChars 10 digits 0 :=
  rfl

/-! ### The digits of a natural number -/

theorem isDigit_of_mem_toDigits {number : Nat} {character : Char}
    (hcharacter : character ∈ Nat.toDigits 10 number) : character.isDigit = true :=
  Nat.isDigit_of_mem_toDigits (by decide) (by decide) hcharacter

theorem exists_toDigits_eq_cons (number : Nat) :
    ∃ first rest, Nat.toDigits 10 number = first :: rest ∧ first.isDigit = true := by
  obtain ⟨first, rest, hdigits⟩ :=
    List.exists_cons_of_ne_nil (Nat.toDigits_ne_nil (n := number) (b := 10))
  exact ⟨first, rest, hdigits, isDigit_of_mem_toDigits (hdigits ▸ List.mem_cons_self)⟩

/-- Digits do not start with a zero, unless there is only one. -/
theorem toDigits_ne_zero_cons (number : Nat) (second : Char) (rest : List Char) :
    Nat.toDigits 10 number ≠ '0' :: second :: rest := by
  induction number using Nat.strongRecOn generalizing second rest with
  | ind number ih =>
    intro hdigits
    rcases Nat.lt_or_ge number 10 with hsmall | hlarge
    · rw [Nat.toDigits_of_lt_base hsmall] at hdigits
      simp at hdigits
    · rw [Nat.toDigits_of_base_le (by decide) hlarge] at hdigits
      match hfront : Nat.toDigits 10 (number / 10) with
      | [] => exact Nat.toDigits_ne_nil hfront
      | [only] =>
        rw [hfront, List.singleton_append, List.cons_eq_cons] at hdigits
        obtain rfl := hdigits.1
        have hvalue : number / 10 = 0 := by
          rw [← Nat.ofDigitChars_ten_toDigits (n := number / 10), hfront]
          rfl
        omega
      | first :: other :: others =>
        rw [hfront, List.cons_append, List.cons_eq_cons] at hdigits
        obtain rfl := hdigits.1
        exact ih (number / 10) (by omega) other others hfront

theorem digits?_append {digits after : List Char}
    (hdigits : ∀ character ∈ digits, character.isDigit = true) (hne : digits ≠ [])
    (hafter : EndsNumber after) : digits? (digits ++ after) = some (digits, after) := by
  have htake : after.takeWhile Char.isDigit = [] := by
    cases after with
    | nil => rfl
    | cons character _ => rw [List.takeWhile_cons, (hafter character rfl).1]; rfl
  have hdrop : after.dropWhile Char.isDigit = after := by
    cases after with
    | nil => rfl
    | cons character _ => rw [List.dropWhile_cons, (hafter character rfl).1]; rfl
  rw [digits?, List.span_eq_takeWhile_dropWhile, List.takeWhile_append_of_pos hdigits,
    List.dropWhile_append_of_pos hdigits, htake, hdrop, List.append_nil]
  cases digits with
  | nil => exact (hne rfl).elim
  | cons first rest => rfl

theorem whole?_toDigits (number : Nat) {after : List Char} (hafter : EndsNumber after) :
    whole? (Nat.toDigits 10 number ++ after) = some (Nat.toDigits 10 number, after) := by
  rw [whole?, digits?_append (fun _ ↦ isDigit_of_mem_toDigits) Nat.toDigits_ne_nil hafter]
  split
  · rename_i second rest _ hsame
    have hdigits := congrArg Prod.fst (Option.some.inj hsame)
    exact (toDigits_ne_zero_cons number _ _ hdigits).elim
  · rfl

theorem fraction?_of_endsNumber {after : List Char} (hafter : EndsNumber after) :
    fraction? after = some ([], after) := by
  unfold fraction?
  split
  · exact ((hafter '.' rfl).2.1 rfl).elim
  · rfl

theorem exponent?_of_endsNumber {after : List Char} (hafter : EndsNumber after) :
    exponent? after = some (none, after) := by
  cases after with
  | nil => rfl
  | cons mark rest =>
    obtain ⟨-, -, hlower, hupper⟩ := hafter mark rfl
    unfold exponent?
    exact if_neg (not_or.mpr ⟨hlower, hupper⟩)

/-- The digits of a natural number are read as its whole part. -/
theorem read?_toDigits (number : Nat) {after : List Char} (hafter : EndsNumber after) :
    read? (Nat.toDigits 10 number ++ after) =
      some (⟨false, Nat.toDigits 10 number, [], none⟩, after) := by
  have hwhole := whole?_toDigits number hafter
  obtain ⟨first, rest, hdigits, hfirst⟩ := exists_toDigits_eq_cons number
  rw [hdigits, List.cons_append] at hwhole ⊢
  have hsign : first ≠ '-' := by
    rintro rfl
    exact absurd hfirst (by decide)
  simp [read?, hwhole, fraction?_of_endsNumber hafter, exponent?_of_endsNumber hafter, hsign]

theorem read?_neg_toDigits (number : Nat) {after : List Char} (hafter : EndsNumber after) :
    read? ('-' :: (Nat.toDigits 10 number ++ after)) =
      some (⟨true, Nat.toDigits 10 number, [], none⟩, after) := by
  simp [read?, whole?_toDigits number hafter, fraction?_of_endsNumber hafter,
    exponent?_of_endsNumber hafter]

/-! ### The estimate of an integer -/

theorem le_ofDigitChars (digits : List Char) (number : Nat) :
    number ≤ Nat.ofDigitChars 10 digits number := by
  rw [Nat.ofDigitChars_eq_ofDigitChars_zero]
  have hpow : 0 < 10 ^ digits.length := Nat.pow_pos (by decide)
  exact Nat.le_trans (Nat.le_mul_of_pos_left _ hpow) (Nat.le_add_right _ _)

/-- What 64 bits hold is taken as a whole. -/
theorem extended_eq {digits : List Char} {number : Nat}
    (hsize : Nat.ofDigitChars 10 digits number < UInt64.size) :
    extended number digits = (Nat.ofDigitChars 10 digits number, digits.length) := by
  induction digits generalizing number with
  | nil => rfl
  | cons digit rest ih =>
    change Nat.ofDigitChars 10 rest (10 * number + (digit.toNat - 48)) < UInt64.size at hsize
    have hle := le_ofDigitChars rest (10 * number + (digit.toNat - 48))
    have hlonger : 10 * number + (digit.toNat - 48) < UInt64.size := Nat.lt_of_le_of_lt hle hsize
    rw [extended, if_pos hlonger, ih hsize]
    rfl

/-- An integer of at most 64 bits fits. -/
theorem fits_toDigits (negative : Bool) {number : Nat} (hnumber : number < UInt64.size) :
    fits ⟨negative, Nat.toDigits 10 number, [], none⟩ = true := by
  have hwhole :
      extended 0 (Nat.toDigits 10 number) = (number, (Nat.toDigits 10 number).length) := by
    have hvalue := Nat.ofDigitChars_ten_toDigits (n := number)
    rw [extended_eq (by rw [hvalue]; exact hnumber), hvalue]
  have hleading : leading ⟨negative, Nat.toDigits 10 number, [], none⟩ = (number, 0) := by
    simp [leading, hwhole, extended, power]
  rw [fits, hleading]
  cases number <;> rfl

end Numeral

/-- The characters that a value other than a number, a blank or a closing bracket starts with. -/
def startsOther : List Char :=
  ['n', 't', 'f', '"', '[', '\x7b', ']', ' ', '\t', '\n', '\r']

/-- An integer starts like no other value. -/
theorem exists_integerChars_eq_cons (number : Int) :
    ∃ first rest, integerChars number = first :: rest ∧ first ∉ startsOther := by
  cases number with
  | ofNat number =>
    obtain ⟨first, rest, hdigits, hfirst⟩ := Numeral.exists_toDigits_eq_cons number
    have hother : ∀ character ∈ startsOther, character.isDigit = false := by simp [startsOther]
    refine ⟨first, rest, hdigits, fun hmem ↦ ?_⟩
    rw [hother first hmem] at hfirst
    exact absurd hfirst (by decide)
  | negSucc number => exact ⟨'-', _, rfl, by decide⟩

/-- An integer of at most 64 bits is read back. -/
theorem number?_integerChars {number : Int} (hnumber : number.natAbs < UInt64.size)
    {after : List Char} (hafter : EndsNumber after) :
    number? (integerChars number ++ after) = some (.integer number, after) := by
  cases number with
  | ofNat number =>
    change number < UInt64.size at hnumber
    rw [integerChars, number?, Numeral.read?_toDigits number hafter]
    dsimp only
    rw [if_pos (Numeral.fits_toDigits false hnumber)]
    simp [Numeral.toJson, Numeral.value_eq_ofDigitChars]
  | negSucc number =>
    change number + 1 < UInt64.size at hnumber
    rw [integerChars, List.cons_append, number?, Numeral.read?_neg_toDigits (number + 1) hafter]
    dsimp only
    rw [if_pos (Numeral.fits_toDigits true hnumber)]
    simp [Numeral.toJson, Numeral.value_eq_ofDigitChars, Int.negSucc_eq]

end CodeTrail.Json
