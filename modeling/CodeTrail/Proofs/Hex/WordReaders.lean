import CodeTrail.Proofs.Hex.Readers
import CodeTrail.Proofs.Hex.Word
import Mathlib.Data.Nat.Digits.Defs

/-!
# All readers of a word see one number

Behind its mark a word holds a text of hexadecimal digits, and these denote a number, `numeral`, place
by place and as large as there are digits. Each reader gives its own view of that number (`ReadAs`): cut
off at the largest count, refused beyond 256 bits, or its low bytes, which `lowBytes` takes from the
number itself. With any other character behind its mark a word is refused by all of them
(`value?_eq_none`). `readers_of_word` says both, and that the low digits may be cut off by counting
bytes of text: a digit is one byte, so the cut never lies inside a character
(`isValid_utf8ByteSize_sub`).
-/

set_option autoImplicit false
set_option relaxedAutoImplicit false

namespace CodeTrail

/-! ### Low bytes -/

/-- The low bytes of a number, most significant first. -/
def lowBytes : Nat → Nat → List UInt8
  | 0, _ => []
  | length + 1, value => lowBytes length (value / 256) ++ [UInt8.ofNat value]

theorem length_lowBytes (length value : Nat) : (lowBytes length value).length = length := by
  induction length generalizing value with
  | zero => rfl
  | succ length ih => rw [lowBytes, List.length_append, ih, List.length_singleton]

theorem bigEndian_lowBytes (length value : Nat) :
    Hex.bigEndian (lowBytes length value) = value % Nat.pow 256 length := by
  induction length generalizing value with
  | zero => exact (Nat.mod_one value).symm
  | succ length ih =>
    have hbyte : (UInt8.ofNat value).toNat = value % 256 := UInt8.toNat_ofNat
    have hpow : Nat.pow 256 (length + 1) = 256 * Nat.pow 256 length := Nat.mul_comm _ _
    have hsplit : value % (256 * Nat.pow 256 length) =
        value % 256 + 256 * (value / 256 % Nat.pow 256 length) := Nat.mod_mul
    rw [lowBytes, Hex.bigEndian_append_singleton, ih, hbyte, hpow, hsplit, Nat.add_comm]

/-- The byte string of a fixed length that holds the low bytes of a number. -/
def Octets.ofNat (length value : Nat) : Octets length :=
  ⟨lowBytes length value, length_lowBytes length value⟩

theorem Octets.bigEndian_ofNat (length value : Nat) :
    Hex.bigEndian (ofNat length value).bytes = value % Nat.pow 256 length :=
  bigEndian_lowBytes length value

namespace Hex

/-! ### Digits of a text -/

theorem isSome_digit?_iff (character : Char) :
    (digit? character).isSome = true ↔ character.isHexDigit = true := by
  have hleft (bound : Char) : bound.val ≤ character.val ↔ bound.toNat ≤ character.toNat :=
    UInt32.le_iff_toNat_le
  have hright (bound : Char) : character.val ≤ bound.val ↔ character.toNat ≤ bound.toNat :=
    UInt32.le_iff_toNat_le
  simp only [Char.isHexDigit, Char.isDigit, Bool.or_eq_true, Bool.and_eq_true, decide_eq_true_eq,
    ge_iff_le, hleft, hright, Char.reduceToNat]
  unfold digit?
  dsimp only
  split_ifs <;> simp <;> omega

/-- A text reads as digits exactly if it holds nothing else. -/
theorem isSome_digits?_iff (text : List Char) :
    (digits? text).isSome = true ↔ ∀ character ∈ text, character.isHexDigit = true := by
  rw [isSome_digits?, List.all_eq_true]
  exact forall₂_congr fun character _ ↦ isSome_digit?_iff character

/-- Digits are single bytes of text. -/
theorem utf8ByteSize_ofList {text : List Char}
    (hdigits : ∀ character ∈ text, character.isHexDigit = true) :
    (String.ofList text).utf8ByteSize = text.length := by
  induction text with
  | nil => rfl
  | cons first rest ih =>
    obtain ⟨hfirst, hrest⟩ := List.forall_mem_cons.mp hdigits
    obtain ⟨value, hvalue⟩ := Option.isSome_iff_exists.mp ((isSome_digit?_iff first).mpr hfirst)
    have hsize : first.utf8Size = 1 := by
      rw [← String.length_utf8EncodeChar, (utf8EncodeChar_of_digit? hvalue).1, List.length_singleton]
    rw [String.ofList_cons, String.utf8ByteSize_append, String.utf8ByteSize_singleton, hsize, ih hrest,
      List.length_cons, Nat.add_comm]

/-- A number of bytes before its end, a text of digits can be cut. -/
theorem isValid_utf8ByteSize_sub {text : List Char}
    (hdigits : ∀ character ∈ text, character.isHexDigit = true) (count : Nat) :
    String.Pos.Raw.IsValid (String.ofList text)
      ⟨(String.ofList text).utf8ByteSize - count⟩ := by
  refine String.Pos.Raw.isValid_ofList.mpr ⟨text.length - count, ?_⟩
  rw [utf8ByteSize_ofList hdigits, utf8ByteSize_ofList fun character hcharacter ↦
    hdigits character (List.mem_of_mem_take hcharacter), List.length_take]
  exact (Nat.min_eq_left (Nat.sub_le _ _)).symm

/-! ### Numbers of a text -/

/-- What a digit counts in its place; other characters count nothing. -/
def placeValue (character : Char) : Nat :=
  ((digit? character).map (·.val)).getD 0

/-- The number that a text of digits denotes, its last digit being the lowest. -/
def numeral (text : List Char) : Nat :=
  Nat.ofDigits 16 (text.reverse.map placeValue)

theorem number_eq_ofDigits (values : List (Fin 16)) :
    number values = Nat.ofDigits 16 (values.reverse.map (·.val)) := by
  induction values using List.reverseRecOn with
  | nil => rfl
  | append_singleton rest value ih =>
    rw [number_append_singleton, ih, List.reverse_append, List.reverse_singleton,
      List.singleton_append, List.map_cons, Nat.ofDigits_cons, Nat.add_comm]

theorem map_placeValue {text : List Char} {values : List (Fin 16)}
    (htext : digits? text = some values) : text.map placeValue = values.map (·.val) := by
  induction text generalizing values with
  | nil =>
    cases htext
    rfl
  | cons first rest ih =>
    rw [digits?_cons] at htext
    obtain ⟨value, hvalue, hrest⟩ := Option.bind_eq_some_iff.mp htext
    obtain ⟨others, hothers, rfl⟩ := Option.map_eq_some_iff.mp hrest
    rw [List.map_cons, List.map_cons, ih hothers, placeValue, hvalue]
    rfl

theorem number_eq_numeral {text : List Char} {values : List (Fin 16)}
    (htext : digits? text = some values) : number values = numeral text := by
  rw [number_eq_ofDigits, numeral, List.map_reverse, List.map_reverse, map_placeValue htext]

namespace Word

theorem value?_eq_some {word : String}
    (hdigits : ∀ character ∈ dropMark word.toList, character.isHexDigit = true) :
    value? word = some (numeral (dropMark word.toList)) := by
  obtain ⟨values, hvalues⟩ := Option.isSome_iff_exists.mp ((isSome_digits?_iff _).mpr hdigits)
  rw [value?, digits?, hvalues, Option.map_some, number_eq_numeral hvalues]

theorem value?_eq_none {word : String}
    (hstray : ∃ character ∈ dropMark word.toList, character.isHexDigit = false) :
    value? word = none := by
  obtain ⟨character, hcharacter, hnone⟩ := hstray
  rw [value?, Option.map_eq_none_iff, digits?, ← Option.not_isSome_iff_eq_none, isSome_digits?_iff]
  intro hdigits
  rw [hdigits character hcharacter] at hnone
  cases hnone

/-! ### Views of one number -/

/-- What the readers make of a word that denotes a number. -/
structure ReadAs (word : String) (value : Nat) : Prop where
  count : count? word = some (min value (Nat.pow 2 64 - 1))
  amount : amount? word = if value < Nat.pow 2 256 then some value else none
  address : address? word = some (.ofNat 20 (value % Nat.pow 2 160))
  salt : salt? word = some (.ofNat 32 (value % Nat.pow 2 256))

/-- Each reader sees the number of a word and nothing else of it. -/
theorem readAs_of_value? {word : String} {value : Nat} (hvalue : value? word = some value) :
    ReadAs word value where
  count := by
    rw [count?_eq, hvalue]
    rfl
  amount := by
    rw [amount?_eq, hvalue, Option.filter_some]
    simp only [decide_eq_true_eq]
  address := by
    apply Option.map_injective (Octets.bigEndian_injective 20)
    have hpow : Nat.pow 2 160 = Nat.pow 256 20 := by decide
    rw [map_bigEndian_address?, hvalue, Option.map_some, Option.map_some, Octets.bigEndian_ofNat, hpow,
      Nat.mod_mod]
  salt := by
    apply Option.map_injective (Octets.bigEndian_injective 32)
    have hpow : Nat.pow 2 256 = Nat.pow 256 32 := by decide
    rw [map_bigEndian_salt?, hvalue, Option.map_some, Option.map_some, Octets.bigEndian_ofNat, hpow,
      Nat.mod_mod]

/-- No reader makes anything of a word without a number. -/
structure Refused (word : String) : Prop where
  count : count? word = none
  amount : amount? word = none
  address : address? word = none
  salt : salt? word = none

theorem refused_of_value? {word : String} (hvalue : value? word = none) : Refused word where
  count := by rw [count?_eq, hvalue, Option.map_none]
  amount := by rw [amount?_eq, hvalue, Option.filter_none]
  address := by
    apply Option.map_injective (Octets.bigEndian_injective 20)
    rw [map_bigEndian_address?, hvalue, Option.map_none, Option.map_none]
  salt := by
    apply Option.map_injective (Octets.bigEndian_injective 32)
    rw [map_bigEndian_salt?, hvalue, Option.map_none, Option.map_none]

/-- A word with a stray character behind its mark is refused by every reader. Any other denotes a
number, which all of them see, and its digits can be cut at any number of bytes from their end. -/
theorem readers_of_word (word : String) :
    ((∃ character ∈ dropMark word.toList, character.isHexDigit = false) → Refused word) ∧
      ((∀ character ∈ dropMark word.toList, character.isHexDigit = true) →
        ReadAs word (numeral (dropMark word.toList)) ∧
          ∀ count, String.Pos.Raw.IsValid (String.ofList (dropMark word.toList))
            ⟨(String.ofList (dropMark word.toList)).utf8ByteSize - count⟩) := by
  refine ⟨fun hstray ↦ refused_of_value? (value?_eq_none hstray), fun hdigits ↦ ⟨?_, ?_⟩⟩
  · exact readAs_of_value? (value?_eq_some hdigits)
  · exact isValid_utf8ByteSize_sub hdigits

/-- A word of sixty-six digits has too many bits for an amount and keeps its low ones in an address. A
letter behind `f` spoils a word. -/
theorem readers_of_long_word :
    let word := "0X1000000000000000000000000000000000000000000000000000000000000000aB"
    (∀ character ∈ dropMark word.toList, character.isHexDigit = true) ∧
      ReadAs word (Nat.pow 16 65 + 0xab) ∧
      address? word = some ⟨List.replicate 19 0 ++ [0xab], rfl⟩ ∧
      (∃ character ∈ dropMark "0x1g".toList, character.isHexDigit = false) ∧ Refused "0x1g" := by
  intro word
  have hall : (dropMark word.toList).all Char.isHexDigit = true := by decide +kernel
  have hdigits := List.all_eq_true.mp hall
  have hnumeral : numeral (dropMark word.toList) = Nat.pow 16 65 + 0xab := by decide +kernel
  have hread := ((readers_of_word word).2 hdigits).1
  have hstray : ∃ character ∈ dropMark "0x1g".toList, character.isHexDigit = false :=
    ⟨'g', by decide, rfl⟩
  rw [hnumeral] at hread
  refine ⟨hdigits, hread, ?_, hstray, (readers_of_word "0x1g").1 hstray⟩
  rw [hread.address]
  decide +kernel

end Word

end Hex

end CodeTrail
