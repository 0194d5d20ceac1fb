import CodeTrail.Toml.Scalar

/-!
# TOML documents from text

A text is read line by line: blanks and comments, names with values, and headers. A header opens a
table, which the names with values behind it belong to. Values are nested and names are dotted to a
limited depth. `value?` and its companions take a bound on the number of steps first; `read?` gives
as many as the text can need.
-/

set_option autoImplicit false
set_option relaxedAutoImplicit false

namespace CodeTrail.Toml

/-! ### Blanks and comments -/

/-- A text without the blanks in front. -/
def skipBlanks (text : List Char) : List Char :=
  text.dropWhile fun character ↦ character == ' ' || character == '\t'

/-- Whether a character may not stand in a text as it is. -/
def isForbidden (character : Char) : Bool :=
  (character.toNat < 0x20 && character != '\t') || character.toNat == 0x7f

/-- A text without a comment in front, if there is one. -/
def skipComment? : List Char → Option (List Char)
  | '#' :: rest =>
    match rest.dropWhile (!isForbidden ·) with
    | [] => some []
    | '\n' :: rest => some ('\n' :: rest)
    | '\r' :: '\n' :: rest => some ('\n' :: rest)
    | _ => none
  | text => some text

/-- What follows the end of a line, where nothing but blanks and a comment may come before it. -/
def endLine? (text : List Char) : Option (List Char) :=
  match skipComment? (skipBlanks text) with
  | some [] => some []
  | some ('\n' :: rest) => some rest
  | some ('\r' :: '\n' :: rest) => some rest
  | _ => none

/-- A text without the blanks, ends of lines and comments in front, within a number of steps. -/
def skipLines : Nat → List Char → List Char
  | 0, text => text
  | steps + 1, text =>
    match skipBlanks text with
    | [] => []
    | text =>
      match endLine? text with
      | some rest => skipLines steps rest
      | none => text

/-! ### Quoted texts -/

/-- The character with the code that hexadecimal digits denote. -/
def charOfDigits? (digits : List Char) : Option Char :=
  match (Hex.digits? digits).map Hex.number with
  | some code => if code.isValidChar then some (Char.ofNat code) else none
  | none => none

/-- The character for the letter of a short escape. -/
def shortEscape? (letter : Char) : Option Char :=
  if letter = 'b' then some '\x08'
  else if letter = 't' then some '\t'
  else if letter = 'n' then some '\n'
  else if letter = 'e' then some '\x1b'
  else if letter = 'f' then some '\x0c'
  else if letter = 'r' then some '\r'
  else if letter = '"' then some '"'
  else if letter = '\\' then some '\\'
  else none

/-- The character with a code of so many digits at the front of a text. -/
def coded? (count : Nat) (text : List Char) : Option (Char × List Char) :=
  if text.length < count then none
  else (charOfDigits? (text.take count)).map fun character ↦ (character, text.drop count)

/-- The escaped character at the front of a text, behind the backslash. -/
def escape? : List Char → Option (Char × List Char)
  | 'x' :: rest => coded? 2 rest
  | 'u' :: rest => coded? 4 rest
  | 'U' :: rest => coded? 8 rest
  | letter :: rest => (shortEscape? letter).map fun character ↦ (character, rest)
  | [] => none

/-- The characters of a text on one line up to its closing quote, and what follows the quote. -/
def lineText? (quote : Char) : Nat → List Char → Option (List Char × List Char)
  | 0, _ => none
  | _, [] => none
  | steps + 1, character :: rest =>
    if character = quote then some ([], rest)
    else if character = '\\' ∧ quote = '"' then
      match escape? rest with
      | some (character, rest) =>
        (lineText? quote steps rest).map fun found ↦ (character :: found.1, found.2)
      | none => none
    else if isForbidden character then none
    else (lineText? quote steps rest).map fun found ↦ (character :: found.1, found.2)

/-- Whether nothing but blanks comes before the end of the line. -/
def isLineEnd (text : List Char) : Bool :=
  match skipBlanks text with
  | '\n' :: _ | '\r' :: '\n' :: _ => true
  | _ => false

/-- A text without the blanks and the ends of lines in front. -/
def skipBlankLines : List Char → List Char
  | ' ' :: rest | '\t' :: rest | '\n' :: rest => skipBlankLines rest
  | '\r' :: '\n' :: rest => skipBlankLines rest
  | text => text

/-- The characters of a text on several lines up to its three closing quotes, and what follows. Up
to two quotes may stand right before the closing ones. -/
def linesText? (quote : Char) : Nat → List Char → Option (List Char × List Char)
  | 0, _ => none
  | _, [] => none
  | steps + 1, character :: rest =>
    if character = quote then
      let quotes := (character :: rest).takeWhile (· == quote)
      let after := (character :: rest).dropWhile (· == quote)
      if quotes.length ≤ 2 then
        (linesText? quote steps after).map fun found ↦ (quotes ++ found.1, found.2)
      else if quotes.length ≤ 5 then some (quotes.drop 3, after)
      else none
    else if character = '\\' ∧ quote = '"' then
      if isLineEnd rest then linesText? quote steps (skipBlankLines rest)
      else
        match escape? rest with
        | some (character, rest) =>
          (linesText? quote steps rest).map fun found ↦ (character :: found.1, found.2)
        | none => none
    else if character = '\r' then
      match rest with
      | '\n' :: rest =>
        (linesText? quote steps rest).map fun found ↦ ('\r' :: '\n' :: found.1, found.2)
      | _ => none
    else if isForbidden character ∧ character ≠ '\n' then none
    else (linesText? quote steps rest).map fun found ↦ (character :: found.1, found.2)

/-- A text without the end of a line in front. -/
def dropLineEnd : List Char → List Char
  | '\n' :: rest => rest
  | '\r' :: '\n' :: rest => rest
  | text => text

/-- A quoted text on one line. -/
def quoted? : List Char → Option (String × List Char)
  | quote :: rest =>
    if quote = '"' ∨ quote = '\'' then
      (lineText? quote (rest.length + 1) rest).map fun found ↦ (String.ofList found.1, found.2)
    else none
  | [] => none

/-- A quoted text on one or several lines. -/
def anyQuoted? (text : List Char) : Option (String × List Char) :=
  match text with
  | '"' :: '"' :: '"' :: rest =>
    (linesText? '"' (rest.length + 1) (dropLineEnd rest)).map fun found ↦
      (String.ofList found.1, found.2)
  | '\'' :: '\'' :: '\'' :: rest =>
    (linesText? '\'' (rest.length + 1) (dropLineEnd rest)).map fun found ↦
      (String.ofList found.1, found.2)
  | text => quoted? text

/-! ### Names -/

/-- Whether a character may stand in a name without quotes. -/
def isNameChar (character : Char) : Bool :=
  character.isAlphanum || character == '_' || character == '-'

/-- One part of a name. -/
def namePart? (text : List Char) : Option (String × List Char) :=
  match text.span isNameChar with
  | ([], rest) => quoted? rest
  | (name, rest) => some (String.ofList name, rest)

/-- A name of parts with dots between them, within a number of steps. -/
def name? : Nat → List Char → Option (List String × List Char)
  | 0, _ => none
  | steps + 1, text =>
    match namePart? (skipBlanks text) with
    | none => none
    | some (part, rest) =>
      match skipBlanks rest with
      | '.' :: rest => (name? steps rest).map fun found ↦ (part :: found.1, found.2)
      | rest => some ([part], rest)

/-- How deep values may be nested, and how many parts a name may have. -/
def maxDepth : Nat := 80

/-- A name at the front of a text. -/
def path? (text : List Char) : Option (List String × List Char) :=
  (name? text.length text).filter (·.1.length ≤ maxDepth)

/-! ### Values -/

mutual

/-- The value at the front of a text, nested at most to a given depth. -/
def value? : Nat → Nat → List Char → Option (Value × List Char)
  | 0, _, _ => none
  | steps + 1, depth, text =>
    match text, depth with
    | '"' :: _, _ | '\'' :: _, _ => (anyQuoted? text).map fun found ↦ (.string found.1, found.2)
    | '[' :: _, 0 | '\x7b' :: _, 0 => none
    | '[' :: rest, depth + 1 => (items? steps depth rest).map fun found ↦ (.array found.1, found.2)
    | '\x7b' :: rest, depth + 1 =>
      (entries? steps depth [] rest).map fun found ↦ (.table .braces found.1, found.2)
    | text, _ => bareValue? text

/-- The items of an array up to its closing bracket. A comma may stand behind the last one. -/
def items? : Nat → Nat → List Char → Option (List Value × List Char)
  | 0, _, _ => none
  | steps + 1, depth, text =>
    match skipLines text.length text with
    | ']' :: rest => some ([], rest)
    | text =>
      match value? steps depth text with
      | none => none
      | some (item, rest) =>
        match skipLines rest.length rest with
        | ']' :: rest => some ([item], rest)
        | ',' :: rest => (items? steps depth rest).map fun found ↦ (item :: found.1, found.2)
        | _ => none

/-- The entries in braces up to the closing one, added to those already read. A comma may stand
behind the last one, and lines may end anywhere but inside a name. -/
def entries? : Nat → Nat → Entries → List Char → Option (Entries × List Char)
  | 0, _, _, _ => none
  | steps + 1, depth, entries, text =>
    match skipLines text.length text with
    | '\x7d' :: rest => some (entries, rest)
    | text =>
      match path? text with
      | none => none
      | some (name, rest) =>
        match skipLines rest.length rest with
        | '=' :: rest =>
          match value? steps depth (skipLines rest.length rest) with
          | none => none
          | some (value, rest) =>
            match assign value name entries, skipLines rest.length rest with
            | some entries, '\x7d' :: rest => some (entries, rest)
            | some entries, ',' :: rest => entries? steps depth entries rest
            | _, _ => none
        | _ => none

end

/-! ### Lines -/

/-- The header at the front of a line: its name, whether it adds an item to an array of tables, and
what follows it. -/
def header? (text : List Char) : Option (List String × Bool × List Char) :=
  match text with
  | '[' :: '[' :: rest =>
    match path? rest with
    | some (name, ']' :: ']' :: rest) => some (name, true, rest)
    | _ => none
  | '[' :: rest =>
    match path? rest with
    | some (name, ']' :: rest) => some (name, false, rest)
    | _ => none
  | _ => none

/-- The entry at the front of a line: its name, its value, and what follows it. -/
def entry? (text : List Char) : Option (List String × Value × List Char) :=
  match path? text with
  | some (name, '=' :: rest) =>
    (value? (2 * rest.length + 2) maxDepth (skipBlanks rest)).map fun found ↦
      (name, found.1, found.2)
  | _ => none

/-- Reads lines, given the name of the open table and the document so far. -/
def lines? : Nat → List String → Entries → List Char → Option Entries
  | 0, _, _, _ => none
  | steps + 1, opened, document, text =>
    match skipLines text.length text with
    | [] => some document
    | '[' :: rest =>
      match header? ('[' :: rest) with
      | none => none
      | some (name, isItem, rest) =>
        match define isItem name document, endLine? rest with
        | some document, some rest => lines? steps name document rest
        | _, _ => none
    | text =>
      match entry? text with
      | none => none
      | some (name, value, rest) =>
        match within (assign value name) opened document, endLine? rest with
        | some document, some rest => lines? steps opened document rest
        | _, _ => none

/-- The entries of the document that a text holds. A byte-order mark in front does not count. -/
def read? (text : String) : Option Entries :=
  let text := match text.toList with
    | '\ufeff' :: rest => rest
    | text => text
  lines? (text.length + 1) [] [] text

/-- The document that a text holds as a JSON object. -/
def readJson? (text : String) : Option Json :=
  (read? text).map fun entries ↦ .object (entriesToJson entries)

end CodeTrail.Toml
