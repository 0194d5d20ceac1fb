import CodeTrail.Json.Record
import CodeTrail.Trace.Event
import CodeTrail.Trace.Settings

/-!
# Traces, settings and events in JSON

Each type has a writer `toJson` and a reader `ofJson?`. A step always has its stack written and its
memory only if it was recorded; what a trace does not report is left out; settings and events are
written in full.
-/

set_option autoImplicit false
set_option relaxedAutoImplicit false

namespace CodeTrail

open Json

namespace Step

/-- A step as a value. -/
def toJson (step : Step) : Json :=
  .object (
    [("pc", ofNat step.pc.toNat), ("op", .string step.op), ("depth", ofNat step.depth.toNat),
      ("stack", ofTexts step.stack)] ++
    optionalMember "memory" ofTexts step.memory)

/-- The step that a value is. A stack may be null, which is an empty one. -/
def ofJson? (json : Json) : Option Step := do
  let record ← Record.of? 5 json
  let pc ← record.required 0 "pc" uint32?
  let op ← record.required 1 "op" string?
  let depth ← record.required 2 "depth" uint32?
  let stack ← record.optional 3 "stack" (list? string?)
  let memory ← record.optional 4 "memory" (list? string?)
  return ⟨pc, op, depth, stack.getD [], memory⟩

end Step

namespace Trace

/-- A trace as a value. -/
def toJson (trace : Trace) : Json :=
  .object (
    optionalMember "structLogs" (fun steps ↦ .array (steps.map Step.toJson)) trace.steps ++
    optionalMember "gas" (fun gas ↦ ofNat gas.toNat) trace.gas ++
    optionalMember "failed" .boolean trace.failed ++
    optionalMember "returnValue" .string trace.returnValue)

/-- The trace that a value is. -/
def ofJson? (json : Json) : Option Trace := do
  let record ← Record.of? 4 json
  let steps ← record.optional 0 "structLogs" (list? Step.ofJson?)
  let gas ← record.optional 1 "gas" uint64?
  let failed ← record.optional 2 "failed" boolean?
  let returnValue ← record.optional 3 "returnValue" string?
  return ⟨steps, gas, failed, returnValue⟩

end Trace

namespace Settings

/-- Settings as a value. -/
def toJson (settings : Settings) : Json :=
  .object [("fetch_timeout_ms", ofNat settings.fetchTimeout.toNat),
    ("fetch_concurrency", ofNat settings.fetchConcurrency.toNat),
    ("legacy_call_pcs", .array (settings.legacyCallPcs.map fun pc ↦ ofNat pc.toNat)),
    ("malformed_step", .string settings.malformedStep.name)]

/-- The settings that a value is; what is missing has its default. -/
def ofJson? (json : Json) : Option Settings := do
  let record ← Record.of? 4 json
  let standard : Settings := {}
  let fetchTimeout ← record.defaulted 0 "fetch_timeout_ms" standard.fetchTimeout uint64?
  let fetchConcurrency ←
    record.defaulted 1 "fetch_concurrency" standard.fetchConcurrency uint64?
  let legacyCallPcs ←
    record.defaulted 2 "legacy_call_pcs" standard.legacyCallPcs (list? uint32?)
  let malformedStep ← record.defaulted 3 "malformed_step" standard.malformedStep fun json ↦
    json.name?.bind MalformedStep.named?
  return ⟨fetchTimeout, fetchConcurrency, legacyCallPcs, malformedStep⟩

end Settings

/-- The bytes that a value denotes as text or as a list of numbers. -/
def Octets.ofJson? (length : Nat) (json : Json) : Option (Octets length) :=
  match json with
  | .string text => Octets.read? length text
  | .array items =>
    match items.mapM uint8? with
    | none => none
    | some bytes => if h : bytes.length = length then some ⟨bytes, h⟩ else none
  | _ => none

namespace Event

/-- An event as a value. -/
def toJson (event : Event) : Json :=
  .object [("op", .string event.kind.name), ("address", .string event.address.text),
    ("value", ofOption .string event.value), ("input", .string event.input),
    ("returnData", .string event.returnData), ("depth", ofNat event.depth.toNat),
    ("contractHashedBytecode", ofOption (fun hash ↦ .string hash.text) event.codeHash)]

/-- The event that a value is. -/
def ofJson? (json : Json) : Option Event := do
  let record ← Record.of? 7 json
  let kind ← record.required 0 "op" fun json ↦ json.name?.bind CallKind.named?
  let address ← record.required 1 "address" (Octets.ofJson? 20)
  let value ← record.nullable 2 "value" string?
  let input ← record.required 3 "input" string?
  let returnData ← record.required 4 "returnData" string?
  let depth ← record.required 5 "depth" uint32?
  let codeHash ← record.nullable 6 "contractHashedBytecode" (Octets.ofJson? 32)
  return ⟨kind, address, value, input, returnData, depth, codeHash⟩

end Event

/-- The events of a trace as a value, null for a trace without steps. -/
def Event.listToJson (events : Option (List Event)) : Json :=
  ofOption (fun events ↦ .array (events.map Event.toJson)) events

end CodeTrail
