import CodeTrail.Hex.Octets

/-!
# Bytes written as digits read back

`code` names the bytes that a text of code denotes. Every digit of `write` and `marked` is one of the
sixteen lowercase characters of `digitChar`, which are single bytes of text and neither blank nor
part of a mark; `digits` lists their values. So a written text survives trimming, unmarking and both
readers: `code_marked` and `code_write` for the tolerant one, `bytes_body_marked` for the strict one,
and `marked_injective` says that different bytes are written differently. What else reads as a digit
is one of the sixteen in upper case (`eq_digitChar_of_digit?`).
-/

set_option autoImplicit false
set_option relaxedAutoImplicit false

namespace CodeTrail

theorem Text.dropWhile_isBlank_eq_self {text : List Char}
    (htext : ∀ character ∈ text, isBlank character = false) : text.dropWhile isBlank = text := by
  cases text with
  | nil => rfl
  | cons first rest => simp [htext first]

/-- Trimming leaves a text alone that holds no blank. -/
theorem Text.trim_eq_self {text : List Char} (htext : ∀ character ∈ text, isBlank character = false) :
    trim text = text := by
  have hback : text.reverse.dropWhile isBlank = text.reverse :=
    dropWhile_isBlank_eq_self fun character hmem ↦ htext character (List.mem_reverse.mp hmem)
  rw [trim, dropWhile_isBlank_eq_self htext, hback, List.reverse_reverse]

namespace Hex

/-- The bytes that a text of code denotes, up to the first pair that is not two digits. -/
def code (text : String) : List UInt8 :=
  leadingBytes (body text)

/-! ### Single digits -/

/-- The byte of text that a digit is written as. -/
def digitByte (value : Fin 16) : UInt8 :=
  UInt8.ofNat (digitChar value).toNat

theorem utf8EncodeChar_digitChar (value : Fin 16) :
    String.utf8EncodeChar (digitChar value) = [digitByte value] := by
  revert value
  decide

@[simp] theorem byteDigit?_digitByte (value : Fin 16) : byteDigit? (digitByte value) = some value := by
  revert value
  decide

theorem isBlank_digitChar (value : Fin 16) : Text.isBlank (digitChar value) = false := by
  revert value
  decide

/-- No digit is a letter of a mark. -/
theorem digitChar_ne_mark (value : Fin 16) : digitChar value ≠ 'x' ∧ digitChar value ≠ 'X' := by
  revert value
  decide

/-- A digit is the lowercase one of its value or that one in upper case. -/
theorem eq_digitChar_of_digit? {character : Char} {value : Fin 16}
    (hdigit : digit? character = some value) :
    character = digitChar value ∨ character = (digitChar value).toUpper := by
  have hascii (code : Fin 128) (value : Fin 16) (h : digit? (Char.ofNat code.val) = some value) :
      Char.ofNat code.val = digitChar value ∨ Char.ofNat code.val = (digitChar value).toUpper := by
    revert code value
    decide
  have hcode : character.toNat < 128 := by
    refine Nat.lt_of_not_le fun hlarge ↦ ?_
    unfold digit? at hdigit
    dsimp only at hdigit
    rw [if_neg (by omega), if_neg (by omega), if_neg (by omega)] at hdigit
    cases hdigit
  have hchar := hascii ⟨character.toNat, hcode⟩ value
  rw [Char.ofNat_toNat] at hchar
  exact hchar hdigit

/-! ### The digits of bytes -/

/-- The digits of bytes, two to a byte. -/
def digits (bytes : List UInt8) : List (Fin 16) :=
  bytes.flatMap fun byte ↦ [Fin.ofNat 16 (byte.toNat / 16), Fin.ofNat 16 (byte.toNat % 16)]

@[simp] theorem digits_cons (byte : UInt8) (rest : List UInt8) :
    digits (byte :: rest) =
      Fin.ofNat 16 (byte.toNat / 16) :: Fin.ofNat 16 (byte.toNat % 16) :: digits rest :=
  rfl

/-- A byte is put together again from its two digits. -/
@[simp] theorem byteOf_digits (byte : UInt8) :
    byteOf (Fin.ofNat 16 (byte.toNat / 16)) (Fin.ofNat 16 (byte.toNat % 16)) = byte := by
  have hbyte := byte.toNat_lt
  have hhigh : (Fin.ofNat 16 (byte.toNat / 16)).val = byte.toNat / 16 :=
    Nat.mod_eq_of_lt (by omega)
  have hlow : (Fin.ofNat 16 (byte.toNat % 16)).val = byte.toNat % 16 :=
    Nat.mod_eq_of_lt (by omega)
  rw [byteOf, hhigh, hlow, Nat.div_add_mod, UInt8.ofNat_toNat]

theorem write_eq_map_digitChar (bytes : List UInt8) : write bytes = (digits bytes).map digitChar := by
  rw [write, digits, List.map_flatMap]
  rfl

theorem utf8_map_digitChar (values : List (Fin 16)) :
    utf8 (values.map digitChar) = values.map digitByte := by
  rw [utf8, List.flatMap_map]
  simp only [utf8EncodeChar_digitChar]
  exact List.map_eq_flatMap.symm

theorem leadingBytes_digits (bytes : List UInt8) :
    leadingBytes ((digits bytes).map digitByte) = bytes := by
  induction bytes with
  | nil => rfl
  | cons byte rest ih =>
    rw [digits_cons, List.map_cons, List.map_cons, leadingBytes, byteDigit?_digitByte,
      byteDigit?_digitByte]
    dsimp only
    rw [byteOf_digits, ih]

theorem pairsFrom_digits (position : Nat) (bytes : List UInt8) :
    pairsFrom position ((digits bytes).map digitByte) = .ok bytes := by
  induction bytes generalizing position with
  | nil => rfl
  | cons byte rest ih =>
    rw [digits_cons, List.map_cons, List.map_cons, pairsFrom, digitAt, digitAt,
      byteDigit?_digitByte, byteDigit?_digitByte, ih]
    exact congrArg (fun first ↦ Except.ok (first :: rest)) (byteOf_digits byte)

theorem length_digits (bytes : List UInt8) : (digits bytes).length = 2 * bytes.length := by
  induction bytes with
  | nil => rfl
  | cons byte rest ih =>
    rw [digits_cons, List.length_cons, List.length_cons, List.length_cons, ih]
    omega

/-! ### Written texts -/

theorem trim_map_digitChar (values : List (Fin 16)) :
    Text.trim (values.map digitChar) = values.map digitChar := by
  refine Text.trim_eq_self fun character hcharacter ↦ ?_
  obtain ⟨value, -, rfl⟩ := List.mem_map.mp hcharacter
  exact isBlank_digitChar value

theorem dropMark_map_digitChar (values : List (Fin 16)) :
    dropMark (values.map digitChar) = values.map digitChar := by
  match values with
  | [] => rfl
  | [_] => simp [dropMark]
  | _ :: second :: _ =>
    obtain ⟨hlower, hupper⟩ := digitChar_ne_mark second
    simp [dropMark, hlower, hupper]

/-- A mark in front of digits is dropped with nothing else. -/
theorem body_ofList_mark (values : List (Fin 16)) :
    body (String.ofList ('0' :: 'x' :: values.map digitChar)) = values.map digitByte := by
  have hblank : ∀ character ∈ '0' :: 'x' :: values.map digitChar,
      Text.isBlank character = false := by
    intro character hcharacter
    simp only [List.mem_cons, List.mem_map] at hcharacter
    rcases hcharacter with rfl | rfl | ⟨value, -, rfl⟩
    · decide
    · decide
    · exact isBlank_digitChar value
  rw [body, String.toList_ofList, Text.trim_eq_self hblank, dropMark, utf8_map_digitChar]

theorem body_marked (bytes : List UInt8) : body (marked bytes) = (digits bytes).map digitByte := by
  rw [marked, write_eq_map_digitChar, body_ofList_mark]

/-- Digits without a mark are taken as they are. -/
theorem body_write (bytes : List UInt8) :
    body (String.ofList (write bytes)) = (digits bytes).map digitByte := by
  rw [body, String.toList_ofList, write_eq_map_digitChar, trim_map_digitChar, dropMark_map_digitChar,
    utf8_map_digitChar]

@[simp] theorem code_marked (bytes : List UInt8) : code (marked bytes) = bytes := by
  rw [code, body_marked, leadingBytes_digits]

@[simp] theorem code_write (bytes : List UInt8) : code (String.ofList (write bytes)) = bytes := by
  rw [code, body_write, leadingBytes_digits]

theorem bytes_body_marked (bytes : List UInt8) : Hex.bytes (body (marked bytes)) = .ok bytes := by
  have heven : ((digits bytes).map digitByte).length % 2 ≠ 1 := by
    rw [List.length_map, length_digits]
    omega
  rw [body_marked, Hex.bytes, if_neg heven, pairsFrom_digits]

theorem marked_injective : Function.Injective marked := by
  intro first second h
  rw [← code_marked first, h, code_marked]

end Hex

end CodeTrail
