import CodeTrail.Bytecode.Chunk
import CodeTrail.Instruction

/-!
# Decoded programs

A program is a list of instructions in the order of their bytes. `Chunk.instruction` names a chunk
at its place, `place` walks a list of chunks and counts the places up, and `decode` does so for the
bytes that a text of digits starts with. Decoding never fails.
-/

set_option autoImplicit false
set_option relaxedAutoImplicit false

namespace CodeTrail

/-- The instruction that a chunk is at a given place. -/
def Chunk.instruction (offset : UInt32) (chunk : Chunk) : Instruction where
  opcode := chunk.opcode.mnemonic
  offset := offset
  length := UInt32.ofNat chunk.width
  stackInputs := (chunk.opcode.entry?.map (·.stackInputs)).getD 0
  stackOutputs := (chunk.opcode.entry?.map (·.stackOutputs)).getD 0
  immediate := if chunk.immediate.isEmpty then none else some (Hex.marked chunk.immediate)

/-- A list of instructions in the order of their bytes. -/
structure Program where
  instructions : List Instruction
  deriving DecidableEq, Repr

namespace Program

/-- The instructions that chunks are from a given place on. -/
def place (offset : UInt32) : List Chunk → List Instruction
  | [] => []
  | chunk :: rest => chunk.instruction offset :: place (offset + UInt32.ofNat chunk.width) rest

/-- The program that a byte string holds. -/
def ofBytes (bytes : List UInt8) : Program :=
  ⟨place 0 (Chunk.listed (Chunk.sweep bytes))⟩

/-- The program that a text of digits holds, as far as it can be read. -/
def decode (text : String) : Program :=
  ofBytes (Hex.leadingBytes (Hex.body text))

end Program

end CodeTrail
