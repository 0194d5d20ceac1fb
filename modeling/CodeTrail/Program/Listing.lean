import CodeTrail.Program.Basic

/-!
# Annotated programs

`Listing.of` annotates a program. Contract code as it is deployed holds two programs, the one that
runs once and the one that stays, and each starts by setting up the free-memory pointer; the second
such prologue therefore starts the runtime segment, whose offsets count from there. Every place
where a jump may land gets a label, in order, and a jump whose target is pushed right before it is
resolved inside its own segment.

Each pass is a function on the list of instructions: `noted` adds the comments, `rebased` moves the
runtime offsets, `labelled` names the landing places and `resolved` the jumps.
-/

set_option autoImplicit false
set_option relaxedAutoImplicit false

namespace CodeTrail

/-- A program with its annotations. -/
structure Listing where
  instructions : List Instruction
  /-- The indices where a prologue starts. -/
  prologues : List Nat
  /-- The index where the runtime segment starts. -/
  runtimeStart : Option Nat
  deriving DecidableEq, Repr

/-- The two parts of deployed code. -/
inductive Segment where
  /-- What runs once, and all code without a second prologue. -/
  | initialization
  /-- What stays. -/
  | runtime
  deriving DecidableEq, Repr

namespace Instruction

/-- Whether an instruction has a given mnemonic. -/
def is (instruction : Instruction) (mnemonic : String) : Bool :=
  instruction.opcode == mnemonic

/-- Whether an instruction pushes one byte, written in a given way. -/
def pushes (instruction : Instruction) (value : String) : Bool :=
  instruction.is "push1" && instruction.immediate == some value

/-- Whether an instruction is a jump, with or without a condition. -/
def isJump (instruction : Instruction) : Bool :=
  instruction.is "jump" || instruction.is "jumpi"

/-- Whether an instruction pushes one or two bytes. -/
def isShortPush (instruction : Instruction) : Bool :=
  instruction.is "push1" || instruction.is "push2"

/-- The offset that a jump goes to, given the instruction just before it: what that one pushes, as
long as it is a possible offset. -/
def jumpOffset? (before : Option Instruction) (instruction : Instruction) : Option UInt32 :=
  match before with
  | none => none
  | some before =>
    if instruction.isJump && before.isShortPush then
      (before.immediateNumber?.filter (· < UInt32.size)).map UInt32.ofNat
    else none

end Instruction

namespace Listing

/-! ### Prologues -/

/-- Whether a list of instructions starts by setting up the free-memory pointer. -/
def startsPrologue : List Instruction → Bool
  | first :: second :: third :: _ =>
    first.pushes "0x80" && second.pushes "0x40" && third.is "mstore"
  | _ => false

/-- The indices where a prologue starts, counted from a given index. -/
def prologuesFrom (index : Nat) : List Instruction → List Nat
  | [] => []
  | instruction :: rest =>
    if startsPrologue (instruction :: rest) then index :: prologuesFrom (index + 1) rest
    else prologuesFrom (index + 1) rest

/-! ### The passes -/

/-- Adds a comment to the instruction at an index, if there is one. -/
def commented (comment : String) (index : Option Nat) (instructions : List Instruction) :
    List Instruction :=
  match index with
  | some index =>
    instructions.modify index fun instruction ↦
      { instruction with comments := instruction.comments ++ [comment] }
  | none => instructions

/-- Adds the comments over the first and the second prologue. -/
def noted (prologues : List Nat) (instructions : List Instruction) : List Instruction :=
  commented "Contract" prologues[1]? (commented "Initialization" prologues[0]? instructions)

/-- Counts the offsets of a segment from its first instruction. -/
def rebasedSegment : List Instruction → List Instruction
  | [] => []
  | first :: rest =>
    (first :: rest).map fun instruction ↦
      { instruction with offset := instruction.offset - first.offset }

/-- Counts the offsets from the start of the runtime segment on from there. -/
def rebased (split : Nat) (instructions : List Instruction) : List Instruction :=
  instructions.take split ++ rebasedSegment (instructions.drop split)

/-- Labels the places where a jump may land, in order, from a given number on. -/
def labelled (number : Nat) : List Instruction → List Instruction
  | [] => []
  | instruction :: rest =>
    if instruction.is "jumpdest" then
      { instruction with label := some ("label" ++ toString number) } :: labelled (number + 1) rest
    else instruction :: labelled number rest

/-- The index of the last instruction of a segment at an offset; the first instruction of the
segment has a given index. -/
def indexAt? (start : Nat) (segment : List Instruction) (offset : UInt32) : Option Nat :=
  ((segment.zipIdx start).reverse.find? (·.1.offset == offset)).map (·.2)

/-- Sets the target of a jump whose offset is known. -/
def linked (find : UInt32 → Option Nat) (before : Option Instruction)
    (instruction : Instruction) : Instruction :=
  match instruction.jumpOffset? before with
  | some offset => { instruction with jumpTarget := find offset }
  | none => instruction

/-- Resolves the jumps of a segment whose first instruction has a given index. -/
def resolvedSegment (start : Nat) (segment : List Instruction) : List Instruction :=
  List.zipWith (linked (indexAt? start segment)) (none :: segment.map some) segment

/-- Resolves the jumps of both segments, each on its own. -/
def resolved (split : Nat) (instructions : List Instruction) : List Instruction :=
  resolvedSegment 0 (instructions.take split) ++ resolvedSegment split (instructions.drop split)

/-- The listing of a program. -/
def of (program : Program) : Listing :=
  let prologues := prologuesFrom 0 program.instructions
  let split := prologues[1]?.getD program.instructions.length
  { instructions :=
      resolved split (labelled 1 (rebased split (noted prologues program.instructions)))
    prologues := prologues
    runtimeStart := prologues[1]? }

/-! ### Questions about a listing -/

/-- The segment that an index lies in. -/
def segmentOf (listing : Listing) (index : Nat) : Segment :=
  match listing.runtimeStart with
  | some start => if start ≤ index then .runtime else .initialization
  | none => .initialization

/-- The label of the instruction at an index. -/
def labelOf? (listing : Listing) (index : Nat) : Option String :=
  listing.instructions[index]?.bind (·.label)

/-- The instruction that a resolved jump at an index lands on. -/
def jumpTarget? (listing : Listing) (index : Nat) : Option Instruction :=
  (listing.instructions[index]?.bind (·.jumpTarget)).bind fun target ↦
    listing.instructions[target]?

end Listing

end CodeTrail
