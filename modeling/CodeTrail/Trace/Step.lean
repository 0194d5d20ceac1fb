import CodeTrail.Opcode

/-!
# Recorded steps

A trace records a step of the machine before each instruction: where it stands, what it is about to
do, how deep the calls are nested, and the stack and memory it sees. `CallKind` names the six
instructions that call or create a contract, and `Step.kind?` finds them by mnemonic, of any case;
a step with another mnemonic can still be a call by the place it stands at.
-/

set_option autoImplicit false
set_option relaxedAutoImplicit false

namespace CodeTrail

/-- One recorded step. -/
structure Step where
  pc : UInt32
  op : String
  depth : UInt32
  /-- The words of the stack, the top last. -/
  stack : List String := []
  /-- The words of the memory in order, if they were recorded. -/
  memory : Option (List String) := none
  deriving DecidableEq, Repr

/-- A recorded execution, as far as the machine reports it. -/
structure Trace where
  steps : Option (List Step) := none
  gas : Option UInt64 := none
  failed : Option Bool := none
  returnValue : Option String := none
  deriving DecidableEq, Repr

/-- The instructions that call or create a contract. -/
inductive CallKind where
  | call
  | callCode
  | delegateCall
  | staticCall
  | create
  | create2
  deriving DecidableEq, Repr

namespace CallKind

/-- The name of a kind in events. -/
def name : CallKind → String
  | .call => "CALL"
  | .callCode => "CALLCODE"
  | .delegateCall => "DELEGATECALL"
  | .staticCall => "STATICCALL"
  | .create => "CREATE"
  | .create2 => "CREATE2"

/-- Every kind. -/
def all : List CallKind :=
  [.call, .callCode, .delegateCall, .staticCall, .create, .create2]

/-- The kind with a given name. -/
def named? (name : String) : Option CallKind :=
  all.find? (·.name == name)

/-- The kind of an opcode. -/
def ofOpcode? (opcode : Opcode) : Option CallKind :=
  if opcode.byte = 0xf0 then some .create
  else if opcode.byte = 0xf1 then some .call
  else if opcode.byte = 0xf2 then some .callCode
  else if opcode.byte = 0xf4 then some .delegateCall
  else if opcode.byte = 0xf5 then some .create2
  else if opcode.byte = 0xfa then some .staticCall
  else none

/-- The number of stack items that an event is made from. -/
def operandCount : CallKind → Nat
  | .call | .callCode => 5
  | .delegateCall | .staticCall => 4
  | .create | .create2 => 3

end CallKind

namespace Step

/-- The word at a place counted from the top of the stack, which is place one. -/
def fromTop? (step : Step) (place : Nat) : Option String :=
  if place ≤ step.stack.length then step.stack[step.stack.length - place]? else none

/-- The words of the stack, the top first. -/
def topDown (step : Step) : List String :=
  step.stack.reverse

/-- The mnemonic of a step in lower case. -/
def mnemonic (step : Step) : String :=
  String.ofList (step.op.toList.map Char.toLower)

/-- The kind of call or creation that a step is, given the places that count as calls whatever the
mnemonic. -/
def kind? (legacyCallPcs : List UInt32) (step : Step) : Option CallKind :=
  match (Opcode.named? step.mnemonic).bind CallKind.ofOpcode? with
  | some kind => some kind
  | none => if legacyCallPcs.contains step.pc then some .call else none

end Step

end CodeTrail
