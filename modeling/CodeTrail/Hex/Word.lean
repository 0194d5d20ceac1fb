import CodeTrail.Octets

/-!
# Stack words

A word of a machine stack is written as hexadecimal digits of either case, with or without a mark
and with any number of leading zeros. The readers here see different parts of it: `count?` an
amount of bytes that stops growing at the largest 64-bit number, `amount?` all of it as long as it
has at most 256 bits, and `address?` and `salt?` its low bytes. Each refuses a word with a
character that is no digit.
-/

set_option autoImplicit false
set_option relaxedAutoImplicit false

namespace CodeTrail.Hex.Word

/-- The digits of a word, or nothing when it holds a character that is no digit. -/
def digits? (word : String) : Option (List (Fin 16)) :=
  Hex.digits? (dropMark word.toList)

/-- Digits without the zeros in front. -/
def significant (digits : List (Fin 16)) : List (Fin 16) :=
  digits.dropWhile (· == 0)

/-- The largest count of bytes. -/
def countLimit : Nat := UInt64.size - 1

/-- A word as a count of bytes. More than sixteen significant digits are as good as the largest
count. -/
def count? (word : String) : Option Nat :=
  (digits? word).map fun digits ↦
    let digits := significant digits
    if digits.length ≤ 16 then number digits else countLimit

/-- A word as a number of at most 256 bits. -/
def amount? (word : String) : Option Nat :=
  match digits? word with
  | none => none
  | some digits =>
    let digits := significant digits
    if digits.length ≤ 64 then some (number digits) else none

/-- The low twenty bytes of a word. -/
def address? (word : String) : Option Address :=
  (digits? word).map (Octets.lowest 20)

/-- The low thirty-two bytes of a word. -/
def salt? (word : String) : Option Digest :=
  (digits? word).map (Octets.lowest 32)

end CodeTrail.Hex.Word
