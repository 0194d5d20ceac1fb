/-!
# Quoted characters in messages

A message that names a stray byte shows it as the character with that code point, between single
quotes. `escaped` is the form of one character there: the characters that would break the quotes
or the line have a short escape, the other invisible ones their code point in braces, and every
other character stands for itself. `quoted` covers the code points below 256, which is what a byte
can be.
-/

set_option autoImplicit false
set_option relaxedAutoImplicit false

namespace CodeTrail.Text

/-- The code points below 256 with no visible form: the two control ranges, the no-break space
and the soft hyphen. -/
def isInvisible (character : Char) : Bool :=
  character.toNat < 0x20 || (0x7f ≤ character.toNat && character.toNat ≤ 0xa0) ||
    character.toNat == 0xad

/-- A character as it is written between single quotes. -/
def escaped (character : Char) : List Char :=
  if character = '\x00' then ['\\', '0']
  else if character = '\t' then ['\\', 't']
  else if character = '\n' then ['\\', 'n']
  else if character = '\r' then ['\\', 'r']
  else if character = '\'' then ['\\', '\'']
  else if character = '\\' then ['\\', '\\']
  else if isInvisible character then
    ['\\', 'u', '\x7b'] ++ Nat.toDigits 16 character.toNat ++ ['\x7d']
  else [character]

/-- A byte as a quoted character. -/
def quoted (byte : UInt8) : String :=
  String.ofList ('\'' :: escaped (Char.ofUInt8 byte) ++ ['\''])

end CodeTrail.Text
