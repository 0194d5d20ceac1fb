import CodeTrail.Program.Listing

/-!
# Expressions

Instructions are grouped into expressions by what they take from the stack and leave on it: an
instruction becomes the parent of the latest expressions that together leave what it takes. The
grouping is a view for readers; copies and swaps are not followed. Beside it stands a rough picture
of the stack after each instruction, which knows only what was pushed and what a store takes.

`Expression.grouped` is the grouping, `snapshots` the picture, and `Grouping.of` gives both.
-/

set_option autoImplicit false
set_option relaxedAutoImplicit false

namespace CodeTrail

/-- An expression: the span of instructions it covers, the number of items it leaves, and the
expressions it is made from. -/
structure Expression where
  spanStart : Nat
  spanEnd : Nat
  produced : UInt8
  children : List Expression

namespace Expression

/-- Takes expressions off the top until enough items are found or nothing is left. The ones taken
come out in program order, in front of those already taken. -/
def takeOperands (missing : Nat) (taken : List Expression) :
    List Expression → List Expression × List Expression
  | [] => (taken, [])
  | top :: rest =>
    if missing = 0 then (taken, top :: rest)
    else takeOperands (missing - top.produced.toNat) (top :: taken) rest

/-- Adds the instruction at an index to the open expressions, the latest on top. -/
def push (instruction : Instruction) (index : Nat) (expressions : List Expression) :
    List Expression :=
  let (children, rest) := takeOperands instruction.stackInputs.toNat [] expressions
  { spanStart := match children with
      | first :: _ => first.spanStart
      | [] => index
    spanEnd := index
    produced := instruction.stackOutputs
    children := children } :: rest

/-- The expressions that instructions form, in program order. -/
def grouped (instructions : List Instruction) : List Expression :=
  (instructions.zipIdx.foldl (fun expressions item ↦ push item.1 item.2 expressions) []).reverse

mutual

/-- An expression and all below it with their depths, each before its children. -/
def preorder (depth : Nat) : Expression → List (Nat × Expression)
  | ⟨spanStart, spanEnd, produced, children⟩ =>
    (depth, ⟨spanStart, spanEnd, produced, children⟩) :: preorderAll (depth + 1) children

/-- All expressions of a forest with their depths, each before its children. -/
def preorderAll (depth : Nat) : List Expression → List (Nat × Expression)
  | [] => []
  | expression :: rest => preorder depth expression ++ preorderAll depth rest

end

end Expression

namespace Instruction

/-- Whether a mnemonic is one of a push. -/
def isPush (instruction : Instruction) : Bool :=
  ['p', 'u', 's', 'h'].isPrefixOf instruction.opcode.toList

/-- What an instruction does to the picture of the stack, the top first. -/
def picture (instruction : Instruction) (stack : List String) : List String :=
  if instruction.is "push0" then "0x0" :: stack
  else if instruction.isPush then instruction.immediate.toList ++ stack
  else if instruction.is "mstore" then stack.drop 2
  else stack

end Instruction

/-- The pictures of the stack after each of a list of instructions, the top first. -/
def snapshots (stack : List String) : List Instruction → List (List String)
  | [] => []
  | instruction :: rest =>
    let stack := instruction.picture stack
    stack :: snapshots stack rest

/-- The pictures of the stack after each instruction, the top last, and the expressions. -/
structure Grouping where
  pictures : List (List String)
  expressions : List Expression

/-- The grouping of a listing. -/
def Grouping.of (listing : Listing) : Grouping where
  pictures := (snapshots [] listing.instructions).map List.reverse
  expressions := Expression.grouped listing.instructions

end CodeTrail
