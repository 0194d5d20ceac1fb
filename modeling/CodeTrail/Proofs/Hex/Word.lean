import CodeTrail.Hex.Word
import CodeTrail.Proofs.Instruction.Texts
import Mathlib.Tactic.Ring

/-!
# The number of a word

Digits that pair up and the bytes they denote determine each other (`Octets.digits_pairUp`,
`Octets.pairUp_digits`), so a byte string is read back from its text (`Octets.read?_text`), and from any
other text that is spelled alike (`Octets.read?_congr`).

`Word.value?` is the natural number that a word denotes. All readers of words see nothing else of it:
`count?_eq` and `amount?_eq` say so of counts and amounts, and `map_bigEndian_address?` and
`map_bigEndian_salt?` of low bytes, which determine the byte string because its length is fixed
(`Octets.bigEndian_injective`). So words that denote one number are read alike, whatever their mark,
their case and their zeros in front (`address?_congr`, `salt?_congr`).
-/

set_option autoImplicit false
set_option relaxedAutoImplicit false

namespace CodeTrail

namespace Hex

/-! ### Digits of a text -/

theorem digits?_cons (first : Char) (rest : List Char) :
    digits? (first :: rest) =
      (digit? first).bind fun value ↦ (digits? rest).map (value :: ·) := by
  rw [digits?, List.mapM_cons, digits?]
  cases digit? first with
  | none => rfl
  | some value => cases rest.mapM digit? <;> rfl

theorem isSome_digits? (text : List Char) : (digits? text).isSome = text.all isDigit := by
  induction text with
  | nil => rfl
  | cons first rest ih =>
    rw [digits?_cons, List.all_cons, ← ih, isDigit]
    cases digit? first with
    | none => rfl
    | some value => cases digits? rest <;> rfl

theorem digit?_toLower (character : Char) : digit? character.toLower = digit? character := by
  have hascii (code : Fin 128) :
      digit? (Char.ofNat code.val).toLower = digit? (Char.ofNat code.val) := by
    revert code
    decide
  by_cases hcode : character.toNat < 128
  · have hchar := hascii ⟨character.toNat, hcode⟩
    rwa [Char.ofNat_toNat] at hchar
  · have hsame : character.toLower = character := by
      unfold Char.toLower
      refine dif_neg fun hupper ↦ hcode ?_
      exact Nat.lt_of_le_of_lt (UInt32.le_iff_toNat_le.mp hupper.2) (by decide)
    rw [hsame]

theorem digits?_map_toLower (text : List Char) : digits? (text.map Char.toLower) = digits? text := by
  induction text with
  | nil => rfl
  | cons first rest ih => rw [List.map_cons, digits?_cons, digits?_cons, digit?_toLower, ih]

/-! ### Numbers of digits -/

theorem number_append_singleton (values : List (Fin 16)) (value : Fin 16) :
    number (values ++ [value]) = 16 * number values + value.val := by
  simp [number]

theorem number_append (first second : List (Fin 16)) :
    number (first ++ second) = Nat.pow 16 second.length * number first + number second := by
  induction second using List.reverseRecOn with
  | nil => simp [number]
  | append_singleton rest value ih =>
    rw [← List.append_assoc, number_append_singleton, ih, number_append_singleton,
      List.length_append, List.length_singleton]
    change _ = Nat.pow 16 rest.length * 16 * number first + _
    ring

theorem number_lt (values : List (Fin 16)) : number values < Nat.pow 16 values.length := by
  induction values using List.reverseRecOn with
  | nil => decide
  | append_singleton rest value ih =>
    have hvalue := value.isLt
    rw [number_append_singleton, List.length_append, List.length_singleton]
    change _ < Nat.pow 16 rest.length * 16
    omega

/-- A number is at least as large as the place of its first significant digit. -/
theorem pow_le_number {first : Fin 16} (hfirst : first ≠ 0) (rest : List (Fin 16)) :
    Nat.pow 16 rest.length ≤ number (first :: rest) := by
  have hpos : 0 < first.val := Nat.pos_of_ne_zero fun h ↦ hfirst (Fin.ext h)
  have hsplit := number_append [first] rest
  rw [List.singleton_append] at hsplit
  have hsingle : number [first] = first.val := by simp [number]
  rw [hsplit, hsingle]
  exact Nat.le_trans (Nat.le_mul_of_pos_right _ hpos) (Nat.le_add_right _ _)

/-! ### Bytes of digits -/

theorem bigEndian_append_singleton (bytes : List UInt8) (byte : UInt8) :
    bigEndian (bytes ++ [byte]) = 256 * bigEndian bytes + byte.toNat := by
  simp [bigEndian]

/-- Byte strings of one length with one number are the same. -/
theorem eq_of_bigEndian_eq {first second : List UInt8} (hlength : first.length = second.length)
    (hnumber : bigEndian first = bigEndian second) : first = second := by
  induction first using List.reverseRecOn generalizing second with
  | nil => exact (List.length_eq_zero_iff.mp hlength.symm).symm
  | append_singleton rest byte ih =>
    cases second using List.reverseRecOn with
    | nil => simp at hlength
    | append_singleton others other =>
      have hbyte := byte.toNat_lt
      have hother := other.toNat_lt
      rw [List.length_append, List.length_append, List.length_singleton, List.length_singleton,
        Nat.add_right_cancel_iff] at hlength
      rw [bigEndian_append_singleton, bigEndian_append_singleton] at hnumber
      have hlast : byte = other := UInt8.toNat_inj.mp (by omega)
      rw [ih hlength (by omega), hlast]

theorem toNat_byteOf (high low : Fin 16) : (byteOf high low).toNat = 16 * high.val + low.val := by
  have hhigh := high.isLt
  have hlow := low.isLt
  exact UInt8.toNat_ofNat_of_lt' (by simp only [UInt8.size]; omega)

end Hex

namespace Octets

open Hex

theorem pairUp_digits (bytes : List UInt8) : pairUp (digits bytes) = bytes := by
  induction bytes with
  | nil => rfl
  | cons byte rest ih => rw [digits_cons, pairUp, byteOf_digits, ih]

/-- Digits that pair up are those of their bytes. -/
theorem digits_pairUp {values : List (Fin 16)} (heven : values.length % 2 = 0) :
    digits (pairUp values) = values := by
  fun_induction pairUp values with
  | case1 high low rest ih =>
    rw [List.length_cons, List.length_cons] at heven
    have hhigh : (byteOf high low).toNat / 16 = high.val := by
      rw [toNat_byteOf]
      omega
    have hlow : (byteOf high low).toNat % 16 = low.val := by
      rw [toNat_byteOf]
      omega
    rw [digits_cons, ih (by omega), hhigh, hlow]
    simp
  | case2 values hvalues =>
    rcases values with _ | ⟨high, _ | ⟨low, rest⟩⟩
    · rfl
    · simp at heven
    · exact (hvalues high low rest rfl).elim

/-- A byte string is read back from its text. -/
theorem read?_text {length : Nat} (octets : Octets length) :
    read? length octets.text = some octets := by
  obtain ⟨bytes, hlength⟩ := octets
  have hdigits : digits? (dropMark (text ⟨bytes, hlength⟩ : String).toList) =
      some (digits bytes) := by
    rw [text, marked, String.toList_ofList, dropMark, write_eq_map_digitChar, digits?_map_digitChar]
  have hcount : (digits bytes).length = 2 * length := by rw [length_digits, hlength]
  simp only [read?, hdigits, dif_pos hcount, pairUp_digits]

/-- Two texts differ in the case of letters and in a mark only. -/
def SpelledAlike (first second : String) : Prop :=
  (dropMark first.toList).map Char.toLower = (dropMark second.toList).map Char.toLower

instance (first second : String) : Decidable (SpelledAlike first second) :=
  inferInstanceAs (Decidable (_ = _))

/-- Neither case nor mark makes another byte string. -/
theorem read?_congr {first second : String} (halike : SpelledAlike first second)
    (length : Nat) : read? length first = read? length second := by
  have hdigits := congrArg digits? halike
  rw [digits?_map_toLower, digits?_map_toLower] at hdigits
  rw [read?, hdigits, read?]

/-- Digits that pair up denote the number of their bytes. -/
theorem bigEndian_pairUp {digits : List (Fin 16)} (heven : digits.length % 2 = 0) :
    bigEndian (pairUp digits) = number digits := by
  have hfrom (value : Nat) :
      (pairUp digits).foldl (fun value byte ↦ 256 * value + byte.toNat) value =
        digits.foldl (fun value digit ↦ 16 * value + digit.val) value := by
    fun_induction pairUp digits generalizing value with
    | case1 high low rest ih =>
      rw [List.length_cons, List.length_cons] at heven
      have hpair : 256 * value + (byteOf high low).toNat = 16 * (16 * value + high.val) + low.val := by
        rw [toNat_byteOf]
        ring
      rw [List.foldl_cons, List.foldl_cons, List.foldl_cons, ih (by omega), hpair]
    | case2 digits h =>
      rcases digits with _ | ⟨high, _ | ⟨low, rest⟩⟩
      · rfl
      · simp at heven
      · exact (h high low rest rfl).elim
  exact hfrom 0

/-- The last digits of a number are those of the number modulo a power of sixteen. -/
theorem number_lastDigits (count : Nat) (digits : List (Fin 16)) :
    number (lastDigits count digits) = number digits % Nat.pow 16 count := by
  rw [lastDigits, number_replicate_zero_append]
  by_cases hshort : digits.length ≤ count
  · have hlt := number_lt digits
    have hle : Nat.pow 16 digits.length ≤ Nat.pow 16 count := Nat.pow_le_pow_right (by decide) hshort
    rw [Nat.sub_eq_zero_of_le hshort, List.drop_zero, Nat.mod_eq_of_lt (Nat.lt_of_lt_of_le hlt hle)]
  · have hsplit := number_append (digits.take (digits.length - count))
      (digits.drop (digits.length - count))
    have hlt := number_lt (digits.drop (digits.length - count))
    have hlength : (digits.drop (digits.length - count)).length = count := by
      rw [List.length_drop]
      omega
    rw [hlength] at hsplit hlt
    rw [List.take_append_drop] at hsplit
    rw [hsplit, Nat.mul_add_mod, Nat.mod_eq_of_lt hlt]

/-- The low bytes of a number denote the number modulo a power of 256. -/
theorem bigEndian_lowest (length : Nat) (digits : List (Fin 16)) :
    bigEndian (lowest length digits).bytes = number digits % Nat.pow 256 length := by
  have hpow : Nat.pow 16 (2 * length) = Nat.pow 256 length := Nat.pow_mul 16 2 length
  rw [lowest]
  dsimp only
  rw [bigEndian_pairUp (by rw [length_lastDigits, Nat.mul_mod_right]), number_lastDigits, hpow]

/-- Byte strings of a fixed length are determined by their number. -/
theorem bigEndian_injective (length : Nat) :
    Function.Injective fun octets : Octets length ↦ bigEndian octets.bytes := by
  rintro ⟨first, hfirst⟩ ⟨second, hsecond⟩ hnumber
  have hsame : first = second := eq_of_bigEndian_eq (hfirst.trans hsecond.symm) hnumber
  subst hsame
  rfl

end Octets

/-! ### Readers of words -/

namespace Hex.Word

/-- The number that a word denotes, or nothing when it holds a character that is no digit. -/
def value? (word : String) : Option Nat :=
  (digits? word).map number

theorem ne_zero_of_significant_eq_cons {digits rest : List (Fin 16)} {first : Fin 16}
    (hdigits : significant digits = first :: rest) : first ≠ 0 := by
  have hhead := List.head?_dropWhile_not (· == 0) digits
  change digits.dropWhile (· == 0) = first :: rest at hdigits
  rw [hdigits] at hhead
  simpa using hhead

/-- As many significant digits as a number has, so large it is. -/
theorem length_significant_le_iff (digits : List (Fin 16)) (count : Nat) :
    (significant digits).length ≤ count ↔ number digits < Nat.pow 16 count := by
  have hnumber : number (significant digits) = number digits := number_dropWhile_zero digits
  rw [← hnumber]
  constructor
  · intro hlength
    exact Nat.lt_of_lt_of_le (number_lt _) (Nat.pow_le_pow_right (by decide) hlength)
  · intro hlt
    cases hdigits : significant digits with
    | nil => exact Nat.zero_le count
    | cons first rest =>
      have hle := pow_le_number (ne_zero_of_significant_eq_cons hdigits) rest
      rw [hdigits] at hlt
      exact (Nat.pow_lt_pow_iff_right (by decide)).mp (Nat.lt_of_le_of_lt hle hlt)

/-- A count of bytes is the number of the word, as far as counts go. -/
theorem count?_eq (word : String) : count? word = (value? word).map (min · countLimit) := by
  rw [count?, value?, Option.map_map]
  congr 1
  funext digits
  have hnumber : number (significant digits) = number digits := number_dropWhile_zero digits
  have hiff := length_significant_le_iff digits 16
  have hlimit : Nat.pow 16 16 = countLimit + 1 := by decide
  rw [Function.comp_apply]
  dsimp only
  rw [hnumber]
  split_ifs with hlength
  · rw [Nat.min_eq_left (by omega)]
  · rw [Nat.min_eq_right (by omega)]

/-- An amount is the number of the word, if it has at most 256 bits. -/
theorem amount?_eq (word : String) : amount? word = (value? word).filter (· < Nat.pow 2 256) := by
  rw [amount?, value?]
  cases digits? word with
  | none => rfl
  | some digits =>
    have hnumber : number (significant digits) = number digits := number_dropWhile_zero digits
    have hiff := length_significant_le_iff digits 64
    have hlimit : Nat.pow 16 64 = Nat.pow 2 256 := by decide
    rw [hlimit] at hiff
    dsimp only
    rw [hnumber, Option.map_some, Option.filter_some]
    simp only [hiff, decide_eq_true_eq]

/-- The low bytes of a word are those of its number. -/
theorem map_bigEndian_address? (word : String) :
    (address? word).map (bigEndian ·.bytes) = (value? word).map (· % Nat.pow 256 20) := by
  rw [address?, value?, Option.map_map, Option.map_map]
  congr 1
  funext digits
  exact Octets.bigEndian_lowest 20 digits

theorem map_bigEndian_salt? (word : String) :
    (salt? word).map (bigEndian ·.bytes) = (value? word).map (· % Nat.pow 256 32) := by
  rw [salt?, value?, Option.map_map, Option.map_map]
  congr 1
  funext digits
  exact Octets.bigEndian_lowest 32 digits

/-! ### Words that denote one number -/

section Congr

variable {first second : String} (hvalue : value? first = value? second)

include hvalue

theorem count?_congr : count? first = count? second := by
  rw [count?_eq, count?_eq, hvalue]

theorem amount?_congr : amount? first = amount? second := by
  rw [amount?_eq, amount?_eq, hvalue]

theorem address?_congr : address? first = address? second := by
  apply Option.map_injective (Octets.bigEndian_injective 20)
  rw [map_bigEndian_address?, map_bigEndian_address?, hvalue]

theorem salt?_congr : salt? first = salt? second := by
  apply Option.map_injective (Octets.bigEndian_injective 32)
  rw [map_bigEndian_salt?, map_bigEndian_salt?, hvalue]

end Congr

end Hex.Word

end CodeTrail
