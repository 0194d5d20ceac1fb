import CodeTrail.Code.Duration
import CodeTrail.Keccak

/-!
# Fingerprints of deployed code

The fingerprint of a contract is the hash of its code. A source of code is asked for the code at an
address and answers after some time, with code or with a failure, or never. `tryFingerprint` waits
for a limited time and says what went wrong, `fingerprint?` only that something did. Time is counted
from the moment a source is asked.
-/

set_option autoImplicit false
set_option relaxedAutoImplicit false

namespace CodeTrail.Code

/-- The hash of code that is given as digits, between blanks and with or without a mark. -/
def hash (text : String) : Except Hex.Error Digest :=
  (Hex.bytes (Hex.body text)).map Keccak.keccak256

/-- What a source answers. -/
inductive Reply where
  | code (text : String)
  | failure (message : String)
  deriving DecidableEq, Repr

/-- How a source behaves when it is asked: the milliseconds that pass before it does anything, and
its answer, if there ever is one. -/
structure Behaviour where
  delay : Nat := 0
  reply : Option Reply
  deriving DecidableEq, Repr

/-- A source of code: how it behaves for each address. -/
abbrev Source := Address → Behaviour

/-- The source that a list of behaviours describes: the last one for an address counts, and any
other address has empty code at once. -/
def scripted (script : List (Address × Behaviour)) : Source :=
  fun address ↦
    match script.reverse.find? (·.1 == address) with
    | some entry => entry.2
    | none => ⟨0, some (.code "")⟩

/-- The answer that comes within a limit of milliseconds. An answer without delay is always in
time. -/
def Behaviour.replyWithin (limit : Nat) (behaviour : Behaviour) : Option Reply :=
  if behaviour.delay = 0 ∨ behaviour.delay < limit then behaviour.reply else none

/-- Why there is no fingerprint. -/
inductive FetchError where
  | rpc (message : String)
  | timeout (limit : UInt64)
  | emptyCode
  | invalidCode (error : Hex.Error)
  deriving DecidableEq, Repr

/-- The wording of an error. -/
def FetchError.message : FetchError → String
  | .rpc message => "rpc error: " ++ message
  | .timeout limit => "code fetch timed out after " ++ durationText limit.toNat
  | .emptyCode => "no code deployed"
  | .invalidCode error => "invalid bytecode hex: " ++ error.message

/-- The fingerprint of a text of code, which must not be empty. -/
def fingerprintOf (text : String) : Except FetchError Digest :=
  if (Hex.body text).isEmpty then .error .emptyCode
  else (hash text).mapError .invalidCode

/-- The fingerprint of the code at an address, if the source hands it out within a limit of
milliseconds. -/
def tryFingerprint (source : Source) (limit : UInt64) (address : Address) :
    Except FetchError Digest :=
  match (source address).replyWithin limit.toNat with
  | none => .error (.timeout limit)
  | some (.failure message) => .error (.rpc message)
  | some (.code text) => fingerprintOf text

/-- The fingerprint of the code at an address, whatever the reason that there is none. -/
def fingerprint? (source : Source) (limit : UInt64) (address : Address) : Option Digest :=
  (tryFingerprint source limit address).toOption

end CodeTrail.Code
