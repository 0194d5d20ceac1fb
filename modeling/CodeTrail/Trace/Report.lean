import CodeTrail.Code.Pool
import CodeTrail.Code.Store
import CodeTrail.Trace.Reconstruction

/-!
# Events with fingerprints

The events of a trace get the fingerprints of the contracts they touch. Sources are asked side by
side within the bound of the settings, and a source that fails or does not answer in time leaves
just its own events without fingerprint.
-/

set_option autoImplicit false
set_option relaxedAutoImplicit false

namespace CodeTrail

/-- Sets the fingerprints of events, given in the order of the events. -/
def fingerprinted (events : List Event) (hashes : List (Option Digest)) : List Event :=
  List.zipWith (fun event hash ↦ { event with codeHash := hash }) events hashes

/-- The events of a trace with their fingerprints; nothing for a trace without steps. The choices
tell which of the sources asked side by side answers next. -/
def Trace.events (sender : Address) (source : Code.Source) (settings : Settings)
    (choices : List Nat) (trace : Trace) : Except TraceError (Option (List Event)) :=
  match trace.steps with
  | none => .ok none
  | some steps => do
    let events ← reconstruct sender settings steps
    let hashes := Code.Pool.map settings.fetchConcurrency.toNat choices
      (Code.fingerprint? source settings.fetchTimeout) (events.map (·.address))
    return some (fingerprinted events hashes)

end CodeTrail
