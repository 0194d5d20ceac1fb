/-!
# Settings of a reconstruction

How long and how many at a time code is asked for, which places count as calls whatever the
mnemonic, and what becomes of a step that cannot be read.
-/

set_option autoImplicit false
set_option relaxedAutoImplicit false

namespace CodeTrail

/-- What becomes of a call or creation that cannot be read. -/
inductive MalformedStep where
  /-- It is left out. -/
  | skip
  /-- It ends the reconstruction. -/
  | fail
  deriving DecidableEq, Repr

/-- The name of a choice. -/
def MalformedStep.name : MalformedStep → String
  | .skip => "skip"
  | .fail => "fail"

/-- The choice with a given name. -/
def MalformedStep.named? (name : String) : Option MalformedStep :=
  [MalformedStep.skip, .fail].find? (·.name == name)

/-- The settings of a reconstruction. -/
structure Settings where
  /-- The milliseconds that the code at an address is waited for. -/
  fetchTimeout : UInt64 := 5000
  /-- How many addresses are asked for at a time. -/
  fetchConcurrency : UInt64 := 8
  /-- The places that count as calls. -/
  legacyCallPcs : List UInt32 := []
  malformedStep : MalformedStep := .skip
  deriving DecidableEq, Repr

end CodeTrail
