import CodeTrail.Hex.Digit
import CodeTrail.Json.Numeral

/-!
# JSON values from text

`value?` takes a value off the front of a text and hands back what follows it; `read?` is for a
text that holds one value between blanks and nothing else. Values may be nested to a limited depth.
The first argument of `value?` and its companions bounds the number of steps; `read?` gives as many
as the text can need.
-/

set_option autoImplicit false
set_option relaxedAutoImplicit false

namespace CodeTrail.Json

/-- The blanks between tokens. -/
def isSpace (character : Char) : Bool :=
  character == ' ' || character == '\t' || character == '\n' || character == '\r'

/-- A text without the blanks in front. -/
def skipSpace (text : List Char) : List Char :=
  text.dropWhile isSpace

/-- The code unit that four hexadecimal digits denote. -/
def codeUnit? (a b c d : Char) : Option Nat :=
  (Hex.digits? [a, b, c, d]).map Hex.number

/-- The character for the letter of a short escape. -/
def shortEscape? (letter : Char) : Option Char :=
  if letter = '"' then some '"'
  else if letter = '\\' then some '\\'
  else if letter = '/' then some '/'
  else if letter = 'b' then some '\x08'
  else if letter = 'f' then some '\x0c'
  else if letter = 'n' then some '\n'
  else if letter = 'r' then some '\r'
  else if letter = 't' then some '\t'
  else none

/-- The character that two code units denote together: the first half of a pair, then the second. -/
def pairedChar? (high low : Nat) : Option Char :=
  if 0xd800 ≤ high ∧ high < 0xdc00 ∧ 0xdc00 ≤ low ∧ low < 0xe000 then
    some (Char.ofNat (0x10000 + (high - 0xd800) * 0x400 + (low - 0xdc00)))
  else none

/-- The characters of a text up to its closing quote, and what follows the quote. -/
def textBody? : List Char → Option (List Char × List Char)
  | [] => none
  | '"' :: rest => some ([], rest)
  | '\\' :: 'u' :: a :: b :: c :: d :: rest =>
    match codeUnit? a b c d with
    | none => none
    | some unit =>
      if 0xd800 ≤ unit ∧ unit < 0xe000 then
        match rest with
        | '\\' :: 'u' :: e :: f :: g :: h :: rest =>
          match (codeUnit? e f g h).bind (pairedChar? unit) with
          | none => none
          | some character => (textBody? rest).map fun found ↦ (character :: found.1, found.2)
        | _ => none
      else (textBody? rest).map fun found ↦ (Char.ofNat unit :: found.1, found.2)
  | '\\' :: letter :: rest =>
    match shortEscape? letter with
    | none => none
    | some character => (textBody? rest).map fun found ↦ (character :: found.1, found.2)
  | character :: rest =>
    if character = '\\' ∨ character.toNat < 0x20 then none
    else (textBody? rest).map fun found ↦ (character :: found.1, found.2)

/-- A quoted text at the front of a text. -/
def quoted? : List Char → Option (String × List Char)
  | '"' :: rest => (textBody? rest).map fun found ↦ (String.ofList found.1, found.2)
  | _ => none

/-- A number at the front of a text. -/
def number? (text : List Char) : Option (Json × List Char) :=
  match Numeral.read? text with
  | some (numeral, rest) => if numeral.fits then some (numeral.toJson, rest) else none
  | none => none

mutual

/-- The value at the front of a text, nested at most to a given depth. -/
def value? : Nat → Nat → List Char → Option (Json × List Char)
  | 0, _, _ => none
  | steps + 1, depth, text =>
    match text with
    | 'n' :: 'u' :: 'l' :: 'l' :: rest => some (.null, rest)
    | 't' :: 'r' :: 'u' :: 'e' :: rest => some (.boolean true, rest)
    | 'f' :: 'a' :: 'l' :: 's' :: 'e' :: rest => some (.boolean false, rest)
    | '"' :: rest => (quoted? ('"' :: rest)).map fun found ↦ (.string found.1, found.2)
    | '[' :: rest =>
      match depth, skipSpace rest with
      | 0, _ => none
      | _ + 1, ']' :: rest => some (.array [], rest)
      | depth + 1, rest => (items? steps depth rest).map fun found ↦ (.array found.1, found.2)
    | '\x7b' :: rest =>
      match depth, skipSpace rest with
      | 0, _ => none
      | _ + 1, '\x7d' :: rest => some (.object [], rest)
      | depth + 1, rest => (members? steps depth rest).map fun found ↦ (.object found.1, found.2)
    | text => number? text

/-- The items of an array up to its closing bracket, at least one. -/
def items? : Nat → Nat → List Char → Option (List Json × List Char)
  | 0, _, _ => none
  | steps + 1, depth, text =>
    match value? steps depth text with
    | none => none
    | some (item, rest) =>
      match skipSpace rest with
      | ']' :: rest => some ([item], rest)
      | ',' :: rest =>
        (items? steps depth (skipSpace rest)).map fun found ↦ (item :: found.1, found.2)
      | _ => none

/-- The members of an object up to its closing brace, at least one. -/
def members? : Nat → Nat → List Char → Option (List (String × Json) × List Char)
  | 0, _, _ => none
  | steps + 1, depth, text =>
    match quoted? text with
    | none => none
    | some (name, rest) =>
      match skipSpace rest with
      | ':' :: rest =>
        match value? steps depth (skipSpace rest) with
        | none => none
        | some (value, rest) =>
          match skipSpace rest with
          | '\x7d' :: rest => some ([(name, value)], rest)
          | ',' :: rest =>
            (members? steps depth (skipSpace rest)).map fun found ↦
              ((name, value) :: found.1, found.2)
          | _ => none
      | _ => none

end

/-- How deep values may be nested. -/
def maxDepth : Nat := 127

/-- The value that a text holds. -/
def read? (text : String) : Option Json :=
  let text := text.toList
  match value? (2 * text.length + 2) maxDepth (skipSpace text) with
  | some (json, rest) => if (skipSpace rest).isEmpty then some json else none
  | none => none

end CodeTrail.Json
