import CodeTrail.Hex.Digit
import CodeTrail.Json.Basic

/-!
# JSON text from values

`put` writes a value in front of a text that follows it. A `Layout` says what stands between the
tokens: `Layout.lines` starts a line for every item and member, indented by two blanks a level, and
`Layout.compact` puts nothing in between. A list without items is written as two brackets in
either.
-/

set_option autoImplicit false
set_option relaxedAutoImplicit false

namespace CodeTrail.Json

/-- What stands between the tokens of a text. -/
structure Layout where
  /-- What comes before an item at a given level. -/
  line : Nat → List Char
  /-- What comes between a name and its value. -/
  colon : List Char

/-- A line for each item, indented by two blanks a level. -/
def Layout.lines : Layout where
  line := fun level ↦ '\n' :: List.replicate (2 * level) ' '
  colon := [':', ' ']

/-- Nothing between the tokens. -/
def Layout.compact : Layout where
  line := fun _ ↦ []
  colon := [':']

/-- A character inside a quoted text: quotes, backslashes and control characters are escaped. -/
def escaped (character : Char) : List Char :=
  if character = '"' then ['\\', '"']
  else if character = '\\' then ['\\', '\\']
  else if character = '\n' then ['\\', 'n']
  else if character = '\r' then ['\\', 'r']
  else if character = '\t' then ['\\', 't']
  else if character = '\x08' then ['\\', 'b']
  else if character = '\x0c' then ['\\', 'f']
  else if character.toNat < 0x20 then
    ['\\', 'u', '0', '0', Hex.digitChar (Fin.ofNat 16 (character.toNat / 16)),
      Hex.digitChar (Fin.ofNat 16 (character.toNat % 16))]
  else [character]

/-- Writes a quoted text in front of what follows it. -/
def putText (text : String) (after : List Char) : List Char :=
  '"' :: (text.toList.flatMap escaped ++ '"' :: after)

/-- The digits of an integer. -/
def integerChars : Int → List Char
  | .ofNat value => Nat.toDigits 10 value
  | .negSucc value => '-' :: Nat.toDigits 10 (value + 1)

mutual

/-- Writes a value at a given level in front of what follows it. -/
def put (layout : Layout) (level : Nat) : Json → List Char → List Char
  | .null, after => 'n' :: 'u' :: 'l' :: 'l' :: after
  | .boolean true, after => 't' :: 'r' :: 'u' :: 'e' :: after
  | .boolean false, after => 'f' :: 'a' :: 'l' :: 's' :: 'e' :: after
  | .integer value, after => integerChars value ++ after
  | .decimal spelling, after => spelling.toList ++ after
  | .string value, after => putText value after
  | .array [], after => '[' :: ']' :: after
  | .array (item :: rest), after =>
    '[' :: (layout.line (level + 1) ++
      put layout (level + 1) item (putItems layout level rest after))
  | .object [], after => '\x7b' :: '\x7d' :: after
  | .object ((name, value) :: rest), after =>
    '\x7b' :: (layout.line (level + 1) ++
      putText name (layout.colon ++
        put layout (level + 1) value (putMembers layout level rest after)))

/-- Writes the items behind the first of an array that stands at a given level. -/
def putItems (layout : Layout) (level : Nat) : List Json → List Char → List Char
  | [], after => layout.line level ++ ']' :: after
  | item :: rest, after =>
    ',' :: (layout.line (level + 1) ++
      put layout (level + 1) item (putItems layout level rest after))

/-- Writes the members behind the first of an object that stands at a given level. -/
def putMembers (layout : Layout) (level : Nat) : List (String × Json) → List Char → List Char
  | [], after => layout.line level ++ '\x7d' :: after
  | (name, value) :: rest, after =>
    ',' :: (layout.line (level + 1) ++
      putText name (layout.colon ++
        put layout (level + 1) value (putMembers layout level rest after)))

end

/-- A value on indented lines. -/
def pretty (json : Json) : String :=
  String.ofList (put Layout.lines 0 json [])

/-- A value on one line. -/
def compact (json : Json) : String :=
  String.ofList (put Layout.compact 0 json [])

end CodeTrail.Json
