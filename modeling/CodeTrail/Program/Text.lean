import CodeTrail.Program.Listing

/-!
# The text of a listing

A listing is written line by line: the comments of an instruction, its label, and the instruction
itself with the label it jumps to, its immediate and its offset, as far as it has them. `lines`
says which lines there are and `Line.chars` how each is written.
-/

set_option autoImplicit false
set_option relaxedAutoImplicit false

namespace CodeTrail

/-- A line of a listing. -/
inductive Line where
  | comment (text : String)
  | label (name : String)
  | instruction (opcode : String) (target : Option String) (immediate : Option String)
      (offset : UInt32)
  deriving DecidableEq, Repr

namespace Line

/-- An operand behind a blank, if there is one. -/
def operand : Option String → List Char
  | some text => ' ' :: text.toList
  | none => []

/-- A line as characters, with its end. -/
def chars : Line → List Char
  | .comment text => [';', ';', ' '] ++ text.toList ++ ['\n']
  | .label name => name.toList ++ [':', '\n']
  | .instruction opcode target immediate offset =>
    [' ', ' '] ++ opcode.toList ++ operand target ++ operand immediate ++
      [' ', '#', '0', 'x'] ++ Nat.toDigits 16 offset.toNat ++ ['\n']

end Line

namespace Listing

/-- The lines of an instruction, given the labels of all instructions. -/
def linesOf (labelAt : Nat → Option String) (instruction : Instruction) : List Line :=
  instruction.comments.map .comment ++ (instruction.label.map Line.label).toList ++
    [.instruction instruction.opcode (instruction.jumpTarget.bind labelAt) instruction.immediate
      instruction.offset]

/-- The lines of a listing. -/
def lines (listing : Listing) : List Line :=
  let instructions := listing.instructions.toArray
  listing.instructions.flatMap (linesOf fun index ↦ instructions[index]?.bind (·.label))

/-- The text of a listing. -/
def text (listing : Listing) : String :=
  String.ofList (listing.lines.flatMap Line.chars)

end Listing

/-- The listing of the program that a text of digits holds, as text. -/
def disassemble (code : String) : String :=
  (Listing.of (Program.decode code)).text

end CodeTrail
