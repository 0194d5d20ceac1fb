import CodeTrail.Opcode

/-!
# Cutting a byte string into chunks

A chunk is an opcode with the immediate bytes that were present behind it. `sweep` cuts a whole
byte string, one chunk after the other, and `bytes` puts chunks together again. `listed` is the
part of a sweep that counts as code: behind a chunk that closes the code, reading goes on only
where the next chunk opens it again, so that data behind the last instruction is left out.
-/

set_option autoImplicit false
set_option relaxedAutoImplicit false

namespace CodeTrail

/-- An opcode with the immediate bytes that were present behind it. -/
structure Chunk where
  opcode : Opcode
  immediate : List UInt8
  deriving DecidableEq, Repr

namespace Chunk

/-- The bytes of a chunk. -/
def bytes (chunk : Chunk) : List UInt8 :=
  chunk.opcode.byte :: chunk.immediate

/-- The number of bytes that a chunk asks for. -/
def width (chunk : Chunk) : Nat :=
  1 + chunk.opcode.immediateSize

/-- Cuts a byte string into chunks; the last one may lack some of its immediate bytes. -/
def sweep : List UInt8 → List Chunk
  | [] => []
  | byte :: rest =>
    let size := (Opcode.mk byte).immediateSize
    ⟨⟨byte⟩, rest.take size⟩ :: sweep (rest.drop size)
  termination_by bytes => bytes.length

/-- Whether a chunk closes the code, given the opcode just before it: it halts, or it is the
failure behind a return. -/
def closes (before : Option Opcode) (chunk : Chunk) : Bool :=
  chunk.opcode == .stop || (chunk.opcode == .invalid && before == some .return_)

/-- Whether a chunk opens the code again behind one that closed it. -/
def opens (chunk : Chunk) : Bool :=
  chunk.opcode == .push1 || chunk.opcode == .jumpdest

/-- The chunks up to the first that closes the code with none behind it that opens it again; the
opcode just before them is given. -/
def listedAfter (before : Option Opcode) : List Chunk → List Chunk
  | [] => []
  | [chunk] => [chunk]
  | chunk :: next :: rest =>
    if closes before chunk && !opens next then [chunk]
    else chunk :: listedAfter (some chunk.opcode) (next :: rest)

/-- The chunks of a sweep that count as code. -/
def listed (chunks : List Chunk) : List Chunk :=
  listedAfter none chunks

end Chunk

end CodeTrail
