/-!
# Hexadecimal digits

`digit?` gives the value of one digit of either case, `digitChar` the lowercase digit of a value,
and `digit?_digitChar` says that the second is read back by the first. `digits?` reads a whole text
or nothing, `number` is the natural number that digits denote, most significant first, and
`dropMark` takes one leading `0x` or `0X` off a text.
-/

set_option autoImplicit false
set_option relaxedAutoImplicit false

namespace CodeTrail.Hex

/-- Sixteen is not zero, so numbers can be cut down to digits. -/
instance neZeroSixteen : @NeZero Nat Zero.ofOfNat0 16 :=
  ⟨by decide⟩

/-- The value of a hexadecimal digit, of either case. -/
def digit? (character : Char) : Option (Fin 16) :=
  let code := character.toNat
  if 48 ≤ code ∧ code ≤ 57 then some (Fin.ofNat 16 (code - 48))
  else if 97 ≤ code ∧ code ≤ 102 then some (Fin.ofNat 16 (code - 87))
  else if 65 ≤ code ∧ code ≤ 70 then some (Fin.ofNat 16 (code - 55))
  else none

/-- The lowercase digit of a value. -/
def digitChar (value : Fin 16) : Char :=
  #v['0', '1', '2', '3', '4', '5', '6', '7', '8', '9', 'a', 'b', 'c', 'd', 'e', 'f'][value]

@[simp] theorem digit?_digitChar (value : Fin 16) : digit? (digitChar value) = some value := by
  revert value
  decide

/-- Whether a character is a hexadecimal digit. -/
def isDigit (character : Char) : Bool :=
  (digit? character).isSome

/-- The values of the digits of a text, or nothing when one of its characters is no digit. -/
def digits? (text : List Char) : Option (List (Fin 16)) :=
  text.mapM digit?

/-- The natural number that digits denote, most significant first; no digits denote zero. -/
def number (digits : List (Fin 16)) : Nat :=
  digits.foldl (fun value digit ↦ 16 * value + digit.val) 0

/-- A text without one leading `0x` or `0X`. -/
def dropMark : List Char → List Char
  | '0' :: 'x' :: rest => rest
  | '0' :: 'X' :: rest => rest
  | text => text

end CodeTrail.Hex
