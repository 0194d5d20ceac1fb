import CodeTrail.Double
import CodeTrail.Hex.Digit
import CodeTrail.Toml.Basic

/-!
# Bare values in TOML text

Truth values, numbers and dates are written without quotes. Integers are decimal, or of base
sixteen, eight or two behind a mark, and underscores may stand between their digits. What is not an
integer keeps its spelling; a number with a fraction or an exponent must fit a double.
-/

set_option autoImplicit false
set_option relaxedAutoImplicit false

namespace CodeTrail.Toml

/-- The value of a digit below a base. -/
def digitBelow? (base : Nat) (character : Char) : Option Nat :=
  ((Hex.digit? character).map Fin.val).filter (· < base)

/-- The digits of a run in which single underscores may stand between digits. -/
def digitRun? (base : Nat) : List Char → Option (List Nat)
  | [] => none
  | [character] => (digitBelow? base character).map fun digit ↦ [digit]
  | character :: '_' :: rest =>
    match digitBelow? base character, digitRun? base rest with
    | some digit, some digits => some (digit :: digits)
    | _, _ => none
  | character :: rest =>
    match digitBelow? base character, digitRun? base rest with
    | some digit, some digits => some (digit :: digits)
    | _, _ => none

/-- The number that digits of a base denote. -/
def numberOf (base : Nat) (digits : List Nat) : Nat :=
  digits.foldl (fun value digit ↦ base * value + digit) 0

/-- Decimal digits that do not start with a needless zero. -/
def decimalRun? (text : List Char) : Option (List Nat) :=
  match digitRun? 10 text with
  | some (0 :: _ :: _) => none
  | other => other

/-- A text without a sign in front, and whether it was a minus. -/
def unsigned : List Char → Bool × List Char
  | '-' :: rest => (true, rest)
  | '+' :: rest => (false, rest)
  | text => (false, text)

/-- The integer that a text is, without regard to its size. -/
def anyInteger? : List Char → Option Int
  | '0' :: 'x' :: rest => (digitRun? 16 rest).map fun digits ↦ (numberOf 16 digits : Int)
  | '0' :: 'o' :: rest => (digitRun? 8 rest).map fun digits ↦ (numberOf 8 digits : Int)
  | '0' :: 'b' :: rest => (digitRun? 2 rest).map fun digits ↦ (numberOf 2 digits : Int)
  | text =>
    let (negative, text) := unsigned text
    (decimalRun? text).map fun digits ↦
      if negative then -(numberOf 10 digits : Int) else numberOf 10 digits

/-- The integer that a text is, if it has at most 128 bits. -/
def integer? (text : List Char) : Option Int :=
  (anyInteger? text).filter fun value ↦
    -(Nat.pow 2 127 : Int) ≤ value && value < (Nat.pow 2 128 : Int)

/-- The exponent that a text is, behind its mark. -/
def exponent? (text : List Char) : Option Int :=
  let (negative, text) := unsigned text
  (digitRun? 10 text).map fun digits ↦
    if negative then -(numberOf 10 digits : Int) else numberOf 10 digits

/-- The digits of a number without sign that has a fraction or an exponent, and the power of ten
that they count. -/
def scaled? (text : List Char) : Option (List Nat × Int) := do
  let isMark (character : Char) : Bool := character == 'e' || character == 'E'
  let (mantissa, exponent) := text.span (!isMark ·)
  let (whole, fraction) := mantissa.span (· != '.')
  let whole ← decimalRun? whole
  match fraction, exponent with
  | [], [] => none
  | [], _ :: exponent => return (whole, ← exponent? exponent)
  | _ :: fraction, [] =>
    let fraction ← digitRun? 10 fraction
    return (whole ++ fraction, -fraction.length)
  | _ :: fraction, _ :: exponent =>
    let fraction ← digitRun? 10 fraction
    return (whole ++ fraction, (← exponent? exponent) - fraction.length)

/-- Whether a text is a number with a fraction or an exponent that fits a double, or one of the
named ones. -/
def isFloat (text : List Char) : Bool :=
  let (_, text) := unsigned text
  if text == "inf".toList || text == "nan".toList then true
  else
    match scaled? text with
    | some (digits, power) => Double.fits digits power
    | none => false

/-- A number of exactly so many decimal digits at the front of a text. -/
def fixed? (count : Nat) (text : List Char) : Option (Nat × List Char) :=
  let digits := text.take count
  if digits.length = count ∧ digits.all Char.isDigit then
    (digitRun? 10 digits).map fun digits ↦ (numberOf 10 digits, text.drop count)
  else none

/-- A number of two decimal digits between two bounds at the front of a text. -/
def twoDigits? (low high : Nat) (text : List Char) : Option (Nat × List Char) :=
  match fixed? 2 text with
  | some (value, rest) => if low ≤ value ∧ value ≤ high then some (value, rest) else none
  | none => none

/-- A text without a given character in front. -/
def expect? (character : Char) : List Char → Option (List Char)
  | first :: rest => if first = character then some rest else none
  | [] => none

/-- The number of days in a month. -/
def daysIn (year month : Nat) : Nat :=
  if month = 2 then
    if (year % 4 = 0 ∧ year % 100 ≠ 0) ∨ year % 400 = 0 then 29 else 28
  else if [4, 6, 9, 11].contains month then 30
  else 31

/-- What follows a date. -/
def afterDate? (text : List Char) : Option (List Char) := do
  let (year, text) ← fixed? 4 text
  let text ← expect? '-' text
  let (month, text) ← twoDigits? 1 12 text
  let text ← expect? '-' text
  let (_, text) ← twoDigits? 1 (daysIn year month) text
  return text

/-- What follows hours and minutes. -/
def afterMinutes? (text : List Char) : Option (List Char) := do
  let (_, text) ← twoDigits? 0 23 text
  let text ← expect? ':' text
  let (_, text) ← twoDigits? 0 59 text
  return text

/-- What follows a time of day, which may lack its seconds. -/
def afterTime? (text : List Char) : Option (List Char) := do
  match ← afterMinutes? text with
  | ':' :: text =>
    let (_, text) ← twoDigits? 0 60 text
    match text with
    | '.' :: rest =>
      if (rest.takeWhile Char.isDigit).isEmpty then none else some (rest.dropWhile Char.isDigit)
    | text => some text
  | text => some text

/-- Whether a text is a difference to universal time, or nothing. -/
def isZone (text : List Char) : Bool :=
  match text with
  | [] | ['Z'] | ['z'] => true
  | sign :: rest => (sign == '+' || sign == '-') && afterMinutes? rest == some []

/-- Whether a text is a date, a time of day, or both. -/
def isDate (text : List Char) : Bool :=
  match afterDate? text with
  | none => afterTime? text == some []
  | some [] => true
  | some (mark :: rest) =>
    (mark == 'T' || mark == 't' || mark == ' ') && ((afterTime? rest).map isZone).getD false

/-- The value that a text without quotes is. -/
def bare? (text : List Char) : Option Value :=
  if text == "true".toList then some (.boolean true)
  else if text == "false".toList then some (.boolean false)
  else
    match integer? text with
    | some value => some (.integer value)
    | none => if isFloat text || isDate text then some (.other (String.ofList text)) else none

/-- Whether a character ends a value without quotes. -/
def endsBare (character : Char) : Bool :=
  [' ', '\t', '\n', '\r', ',', ']', '\x7d', '#', '='].contains character

/-- The value without quotes at the front of a text. A date goes on behind one blank with a time of
day. -/
def bareValue? (text : List Char) : Option (Value × List Char) :=
  let (token, rest) := text.span (!endsBare ·)
  let (token, rest) := match rest with
    | ' ' :: more =>
      let (time, after) := more.span (!endsBare ·)
      if afterDate? token == some [] && isDate (token ++ ' ' :: time) then
        (token ++ ' ' :: time, after)
      else (token, rest)
    | rest => (token, rest)
  (bare? token).map fun value ↦ (value, rest)

end CodeTrail.Toml
