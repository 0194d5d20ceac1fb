import CodeTrail.Hex.Digit
import CodeTrail.Text.Blank
import CodeTrail.Text.Quoted

/-!
# Bytes written as hexadecimal digits

Code is handed around as text with two digits to a byte. `body` is what such a text holds between
its blanks and after its mark, as UTF-8 bytes. Two readers work on it: `leadingBytes` takes bytes
for as long as both digits of a pair are digits and never fails, and `bytes` takes all of the text
or says why it cannot, an odd number of digits before a stray character. `write` goes the other
way, with lowercase digits.
-/

set_option autoImplicit false
set_option relaxedAutoImplicit false

namespace CodeTrail.Hex

/-- Why a text does not read as bytes. -/
inductive Error where
  /-- The digits do not pair up. -/
  | oddLength
  /-- A byte of the text is no digit; its position counts the bytes before it. -/
  | invalidDigit (byte : UInt8) (position : Nat)
  deriving DecidableEq, Repr

/-- The wording of a reading error. -/
def Error.message : Error → String
  | .oddLength => "Odd number of digits"
  | .invalidDigit byte position =>
    "Invalid character " ++ Text.quoted byte ++ " at position " ++ toString position

/-- The byte with a given high and low digit. -/
def byteOf (high low : Fin 16) : UInt8 :=
  UInt8.ofNat (16 * high.val + low.val)

/-- The value of a byte of text that stands for a digit. -/
def byteDigit? (byte : UInt8) : Option (Fin 16) :=
  digit? (Char.ofUInt8 byte)

/-- The UTF-8 bytes of a text. -/
def utf8 (text : List Char) : List UInt8 :=
  text.flatMap String.utf8EncodeChar

/-- What a text of code holds once its outer blanks and then one `0x` or `0X` are dropped, as
UTF-8 bytes. -/
def body (text : String) : List UInt8 :=
  utf8 (dropMark (Text.trim text.toList))

/-- The bytes that pairs of digits denote, up to the first pair that is not two digits. -/
def leadingBytes : List UInt8 → List UInt8
  | high :: low :: rest =>
    match byteDigit? high, byteDigit? low with
    | some high, some low => byteOf high low :: leadingBytes rest
    | _, _ => []
  | _ => []

/-- The digit that a byte of text stands for, or the complaint about it. -/
def digitAt (position : Nat) (byte : UInt8) : Except Error (Fin 16) :=
  match byteDigit? byte with
  | some digit => .ok digit
  | none => .error (.invalidDigit byte position)

/-- The bytes that pairs of digits denote, or the complaint about the first byte of text that is no
digit; the position counts from a given start. -/
def pairsFrom (position : Nat) : List UInt8 → Except Error (List UInt8)
  | high :: low :: rest => do
    let high ← digitAt position high
    let low ← digitAt (position + 1) low
    let bytes ← pairsFrom (position + 2) rest
    return byteOf high low :: bytes
  | _ => .ok []

/-- The bytes that a text of digits denotes. An odd length is reported before any stray
character. -/
def bytes (text : List UInt8) : Except Error (List UInt8) :=
  if text.length % 2 = 1 then .error .oddLength else pairsFrom 0 text

/-- The two lowercase digits of a byte. -/
def bytePair (byte : UInt8) : List Char :=
  [digitChar (Fin.ofNat 16 (byte.toNat / 16)), digitChar (Fin.ofNat 16 (byte.toNat % 16))]

/-- Bytes as lowercase digits, two to a byte. -/
def write (bytes : List UInt8) : List Char :=
  bytes.flatMap bytePair

/-- Bytes as lowercase digits behind `0x`. -/
def marked (bytes : List UInt8) : String :=
  String.ofList ('0' :: 'x' :: write bytes)

end CodeTrail.Hex
