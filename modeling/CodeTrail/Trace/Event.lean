import CodeTrail.Trace.Step
import CodeTrail.Octets

/-!
# Events of a trace

An event is a call or a creation of a contract as it can be read off a trace. `TraceError` says why
a step cannot be read.
-/

set_option autoImplicit false
set_option relaxedAutoImplicit false

namespace CodeTrail

/-- A call or a creation of a contract. -/
structure Event where
  kind : CallKind
  /-- The contract that is called or created. -/
  address : Address
  /-- The amount sent along in decimal digits, absent for zero and where none can be sent. -/
  value : Option String
  /-- The call data or the code that creates the contract. -/
  input : String
  returnData : String
  depth : UInt32
  /-- The hash of the code at the address, where it is known. -/
  codeHash : Option Digest
  deriving DecidableEq

/-- Why a step cannot be read. -/
inductive TraceError where
  /-- The stack is too short for the instruction. -/
  | stackUnderflow (op : String) (pc : UInt32) (needed found : Nat)
  /-- A text that should hold hexadecimal digits does not. -/
  | invalidHex (pc : UInt32) (value : String)
  deriving DecidableEq, Repr

/-- The wording of an error. -/
def TraceError.message : TraceError → String
  | .stackUnderflow op pc needed found =>
    op ++ " at pc " ++ toString pc.toNat ++ " needs " ++ toString needed ++
      " stack items, found " ++ toString found
  | .invalidHex pc value => "invalid hex word at pc " ++ toString pc.toNat ++ ": " ++ value

end CodeTrail
