import CodeTrail.Double
import CodeTrail.Json.Basic

/-!
# Numbers in JSON text

A number has a whole part without needless zeros in front, then perhaps a fraction and an exponent.
Without either it is an integer, unless it is a zero with a sign. A number too large for a double
is refused, whatever its form. Its size is that of an estimate: the product of two doubles, one for
its leading digits and one for a power of ten.
-/

set_option autoImplicit false
set_option relaxedAutoImplicit false

namespace CodeTrail.Json

/-- The parts of a number in a text. -/
structure Numeral where
  negative : Bool
  whole : List Char
  fraction : List Char
  exponent : Option (Bool × List Char)

namespace Numeral

/-- The number that decimal digits denote. -/
def value (digits : List Char) : Nat :=
  digits.foldl (fun value digit ↦ 10 * value + (digit.toNat - 48)) 0

/-- A run of at least one decimal digit at the front of a text. -/
def digits? (text : List Char) : Option (List Char × List Char) :=
  match text.span Char.isDigit with
  | ([], _) => none
  | (digits, rest) => some (digits, rest)

/-- A whole part at the front of a text: a zero, or digits that do not start with one. -/
def whole? (text : List Char) : Option (List Char × List Char) :=
  match digits? text with
  | some ('0' :: _ :: _, _) => none
  | other => other

/-- A fraction at the front of a text, which may be missing. -/
def fraction? : List Char → Option (List Char × List Char)
  | '.' :: rest => digits? rest
  | text => some ([], text)

/-- An exponent at the front of a text, which may be missing; it is negative or not and has
digits. -/
def exponent? : List Char → Option (Option (Bool × List Char) × List Char)
  | mark :: text =>
    if mark = 'e' ∨ mark = 'E' then
      match text with
      | '-' :: rest => (digits? rest).map fun found ↦ (some (true, found.1), found.2)
      | '+' :: rest => (digits? rest).map fun found ↦ (some (false, found.1), found.2)
      | rest => (digits? rest).map fun found ↦ (some (false, found.1), found.2)
    else some (none, mark :: text)
  | [] => some (none, [])

/-- The number at the front of a text. -/
def read? (text : List Char) : Option (Numeral × List Char) := do
  let (negative, text) := match text with
    | '-' :: rest => (true, rest)
    | _ => (false, text)
  let (whole, text) ← whole? text
  let (fraction, text) ← fraction? text
  let (exponent, text) ← exponent? text
  return (⟨negative, whole, fraction, exponent⟩, text)

/-- A number with decimal digits put behind it, for as long as 64 bits hold it, and how many of them
were put there. -/
def extended (number : Nat) : List Char → Nat × Nat
  | [] => (number, 0)
  | digit :: rest =>
    let longer := 10 * number + (digit.toNat - 48)
    if longer < UInt64.size then
      let (number, count) := extended longer rest
      (number, count + 1)
    else (number, 0)

/-- The exponent of a number, zero where it has none. -/
def power (numeral : Numeral) : Int :=
  match numeral.exponent with
  | some (true, digits) => -(value digits : Int)
  | some (false, digits) => value digits
  | none => 0

/-- The leading digits of a number as far as 64 bits hold them, and the power of ten that they
count. Digits of the whole part that are left out still count as places, those of the fraction do
not. -/
def leading (numeral : Numeral) : Nat × Int :=
  let (whole, wholeCount) := extended 0 numeral.whole
  let (digits, fractionCount) := extended whole numeral.fraction
  let places : Int := (numeral.whole.length - wholeCount : Nat)
  (digits, places - fractionCount + numeral.power)

/-- Whether the estimate of a number fits a double: the product of its leading digits and their
power of ten, both rounded before. What 64 bits hold always fits. -/
def fits (numeral : Numeral) : Bool :=
  match numeral.leading with
  | (0, _) => true
  | (_, .negSucc _) => true
  | (_, .ofNat 0) => true
  | (digits, .ofNat power) =>
    if power ≤ 308 then Double.nearest digits * Double.nearest (Nat.pow 10 power) < Double.limit
    else false

/-- The spelling of a number. -/
def spelling (numeral : Numeral) : String :=
  let sign := if numeral.negative then ['-'] else []
  let fraction := if numeral.fraction.isEmpty then [] else '.' :: numeral.fraction
  let exponent := match numeral.exponent with
    | some (true, digits) => 'e' :: '-' :: digits
    | some (false, digits) => 'e' :: digits
    | none => []
  String.ofList (sign ++ numeral.whole ++ fraction ++ exponent)

/-- The value that a number is. -/
def toJson (numeral : Numeral) : Json :=
  let whole := value numeral.whole
  if numeral.fraction.isEmpty && numeral.exponent.isNone && !(numeral.negative && whole == 0) then
    .integer (if numeral.negative then -(whole : Int) else whole)
  else .decimal numeral.spelling

end Numeral

end CodeTrail.Json
