import CodeTrail.Hex.Digit

/-!
# Instructions of a listing

An instruction is a mnemonic with its place, its size and what it does to the stack, together with
what an annotation adds: a label, comments and the index of the instruction that a jump lands on.
The texts are free. `immediateNumber?` reads the immediate as a number; its reader is lenient about
repeated marks and a sign, as `Immediate.number?` tells.
-/

set_option autoImplicit false
set_option relaxedAutoImplicit false

namespace CodeTrail

/-- One instruction of a program. -/
structure Instruction where
  /-- The mnemonic, or the byte as `0x..` when nothing is assigned to it. -/
  opcode : String
  /-- The place of its first byte, counted from the start of its segment once annotated. -/
  offset : UInt32
  /-- The number of bytes it stands for, all immediate bytes counted even if some are missing. -/
  length : UInt32
  /-- How many stack items it takes. -/
  stackInputs : UInt8
  /-- How many stack items it leaves. -/
  stackOutputs : UInt8
  /-- The immediate bytes that were present, as text. -/
  immediate : Option String := none
  /-- The name under which jumps refer to it. -/
  label : Option String := none
  /-- The lines above it. -/
  comments : List String := []
  /-- The index of the instruction that a jump lands on. -/
  jumpTarget : Option Nat := none
  deriving DecidableEq, Repr

namespace Immediate

/-- A text without any of the `0x` it starts with. -/
def dropMarks : List Char → List Char
  | '0' :: 'x' :: rest => dropMarks rest
  | text => text

/-- A text without one `+` in front of something. -/
def dropSign : List Char → List Char
  | '+' :: character :: rest => character :: rest
  | text => text

/-- The number that an immediate denotes. All marks and then all zeros in front are dropped; nothing
left is zero, and otherwise one sign may stand before the digits. There is no number for any other
text, nor for one of more than 64 bits. -/
def number? (immediate : String) : Option Nat :=
  match (dropMarks immediate.toList).dropWhile (· == '0') with
  | [] => some 0
  | text => ((Hex.digits? (dropSign text)).map Hex.number).filter (· < UInt64.size)

end Immediate

/-- The number that the immediate of an instruction denotes. -/
def Instruction.immediateNumber? (instruction : Instruction) : Option Nat :=
  instruction.immediate.bind Immediate.number?

end CodeTrail
