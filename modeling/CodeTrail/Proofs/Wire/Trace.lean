import CodeTrail.Proofs.Hex.Word
import CodeTrail.Proofs.Json.Record
import CodeTrail.Wire.Trace

/-!
# Traces, settings and events kept in JSON

Steps, traces, settings and events are faithful records. Their numbers have fixed widths and so are
always in range. A stack is written even where it is empty, and a memory without words is told apart
from one that was not recorded.
-/

set_option autoImplicit false
set_option relaxedAutoImplicit false

namespace CodeTrail

open Json

namespace Octets

theorem ofJson?_string_text {length : Nat} (octets : Octets length) :
    ofJson? length (.string octets.text) = some octets :=
  read?_text octets

end Octets

namespace Step

/-- The declared fields of a step. -/
def fields : List Field :=
  [{ name := "pc" }, { name := "op" }, { name := "depth" },
    { name := "stack", default? := some .null }, .leftOut "memory" .null]

/-- What stands in each field of a written step. -/
theorem map_member?_toJson (step : Step) :
    fields.map (fun field ↦ step.toJson.member? field.name) =
      [some (ofNat step.pc.toNat), some (.string step.op), some (ofNat step.depth.toNat),
        some (ofTexts step.stack), step.memory.map ofTexts] := by
  simp [fields, Field.leftOut, toJson, member?_cons, member?_optionalMember]

theorem ofJson?_toJson (step : Step) : ofJson? step.toJson = some step := by
  have hmembers := map_member?_toJson step
  simp only [fields, Field.leftOut, List.map_cons, List.cons.injEq] at hmembers
  obtain ⟨hpc, hop, hdepth, hstack, hmemory, -⟩ := hmembers
  have hrecord : Record.of? 5 step.toJson = some (.named step.toJson) := rfl
  have hstackMember : step.toJson.member? "stack" = (some step.stack).map ofTexts := hstack
  simp only [ofJson?, hrecord, Option.bind_eq_bind, Option.bind_some,
    Record.required_of_member? 0 hpc (uint32?_ofNat _),
    Record.required_of_member? 1 hop (string?_string _),
    Record.required_of_member? 2 hdepth (uint32?_ofNat _),
    Record.optional_of_member? 3 hstackMember fun _ _ ↦ nullable?_eq_some (by simp) (list?_ofTexts _),
    Record.optional_of_member? 4 hmemory fun _ _ ↦ nullable?_eq_some (by simp) (list?_ofTexts _)]
  rfl

theorem ofJson?_eq_of_respelled (json other : Json) (hspelled : Respelled fields json other) :
    ofJson? json = ofJson? other := by
  refine hspelled.read_eq fun first second hfields ↦ ?_
  refine bind_congr_of_eq ((hfields 0 _ rfl).required_eq (read_eq_of_eq _) rfl) fun _ ↦ ?_
  refine bind_congr_of_eq ((hfields 1 _ rfl).required_eq (read_eq_of_eq _) rfl) fun _ ↦ ?_
  refine bind_congr_of_eq ((hfields 2 _ rfl).required_eq (read_eq_of_eq _) rfl) fun _ ↦ ?_
  refine bind_congr_of_eq ((hfields 3 _ rfl).optional_eq (read_eq_of_eq _) rfl) fun _ ↦ ?_
  exact bind_congr_of_eq ((hfields 4 _ rfl).optional_eq (read_eq_of_eq _) rfl) fun _ ↦ rfl

theorem writtenIn_toJson (step : Step) : ∀ field ∈ fields, field.WrittenIn step.toJson := by
  have hmembers := map_member?_toJson step
  simp only [fields, Field.leftOut, List.map_cons, List.cons.injEq] at hmembers
  simp [fields, Field.leftOut, Field.WrittenIn, hmembers]

theorem faithful : Faithful fields (fun _ ↦ True) toJson ofJson? :=
  faithful_of (fun _ ↦ rfl) (fun step _ ↦ ofJson?_toJson step) ofJson?_eq_of_respelled
    (by simp [fields, Field.leftOut]) writtenIn_toJson

end Step

namespace Trace

/-- The declared fields of a trace. -/
def fields : List Field :=
  [{ Field.leftOut "structLogs" .null with
      Respelled := ListRespelled (Json.Respelled Step.fields) },
    .leftOut "gas" .null, .leftOut "failed" .null, .leftOut "returnValue" .null]

/-- What stands in each field of a written trace. -/
theorem map_member?_toJson (trace : Trace) :
    fields.map (fun field ↦ trace.toJson.member? field.name) =
      [trace.steps.map fun steps ↦ .array (steps.map Step.toJson),
        trace.gas.map fun gas ↦ ofNat gas.toNat, trace.failed.map .boolean,
        trace.returnValue.map .string] := by
  simp [fields, Field.leftOut, toJson, member?_append, member?_optionalMember]

theorem ofJson?_toJson (trace : Trace) : ofJson? trace.toJson = some trace := by
  have hmembers := map_member?_toJson trace
  simp only [fields, Field.leftOut, List.map_cons, List.cons.injEq] at hmembers
  obtain ⟨hsteps, hgas, hfailed, hreturnValue, -⟩ := hmembers
  have hrecord : Record.of? 4 trace.toJson = some (.named trace.toJson) := rfl
  simp only [ofJson?, hrecord, Option.bind_eq_bind, Option.bind_some,
    Record.optional_of_member? 0 hsteps fun steps _ ↦ nullable?_eq_some (by simp)
      (list?_array_map fun step _ ↦ Step.ofJson?_toJson step),
    Record.optional_of_member? 1 hgas fun gas _ ↦ nullable?_eq_some (by simp) (uint64?_ofNat gas),
    Record.optional_of_member? 2 hfailed fun _ _ ↦ nullable?_eq_some (by simp) (boolean?_boolean _),
    Record.optional_of_member? 3 hreturnValue fun _ _ ↦ nullable?_eq_some (by simp) (string?_string _)]
  rfl

theorem ofJson?_eq_of_respelled (json other : Json) (hspelled : Respelled fields json other) :
    ofJson? json = ofJson? other := by
  refine hspelled.read_eq fun first second hfields ↦ ?_
  refine bind_congr_of_eq ((hfields 0 _ rfl).optional_eq
    (nullable?_list?_eq_of_respelled Step.ofJson?_eq_of_respelled) rfl) fun _ ↦ ?_
  refine bind_congr_of_eq ((hfields 1 _ rfl).optional_eq (read_eq_of_eq _) rfl) fun _ ↦ ?_
  refine bind_congr_of_eq ((hfields 2 _ rfl).optional_eq (read_eq_of_eq _) rfl) fun _ ↦ ?_
  exact bind_congr_of_eq ((hfields 3 _ rfl).optional_eq (read_eq_of_eq _) rfl) fun _ ↦ rfl

theorem writtenIn_toJson (trace : Trace) : ∀ field ∈ fields, field.WrittenIn trace.toJson := by
  have hmembers := map_member?_toJson trace
  simp only [fields, Field.leftOut, List.map_cons, List.cons.injEq] at hmembers
  simp [fields, Field.leftOut, Field.WrittenIn, hmembers]

theorem faithful : Faithful fields (fun _ ↦ True) toJson ofJson? :=
  faithful_of (fun _ ↦ rfl) (fun trace _ ↦ ofJson?_toJson trace) ofJson?_eq_of_respelled
    (by simpa [fields, Field.leftOut] using ListRespelled.same) writtenIn_toJson

end Trace

theorem MalformedStep.named?_name (choice : MalformedStep) :
    MalformedStep.named? choice.name = some choice := by
  cases choice <;> rfl

namespace Settings

/-- The declared fields of settings, all with defaults. -/
def fields : List Field :=
  [{ name := "fetch_timeout_ms", default? := some (ofNat 5000) },
    { name := "fetch_concurrency", default? := some (ofNat 8) },
    { name := "legacy_call_pcs", default? := some (.array []) },
    { name := "malformed_step", default? := some (.string "skip") }]

/-- What stands in each field of written settings. -/
theorem map_member?_toJson (settings : Settings) :
    fields.map (fun field ↦ settings.toJson.member? field.name) =
      [some (ofNat settings.fetchTimeout.toNat), some (ofNat settings.fetchConcurrency.toNat),
        some (.array (settings.legacyCallPcs.map fun pc ↦ ofNat pc.toNat)),
        some (.string settings.malformedStep.name)] :=
  rfl

theorem ofJson?_toJson (settings : Settings) : ofJson? settings.toJson = some settings := by
  have hmembers := map_member?_toJson settings
  simp only [fields, List.map_cons, List.cons.injEq] at hmembers
  obtain ⟨htimeout, hconcurrency, hpcs, hmalformed, -⟩ := hmembers
  have hrecord : Record.of? 4 settings.toJson = some (.named settings.toJson) := rfl
  have hchoice : (Record.named settings.toJson).defaulted 3 "malformed_step"
      ({} : Settings).malformedStep (fun json ↦ json.name?.bind MalformedStep.named?) =
        some settings.malformedStep :=
    Record.defaulted_of_member? 3 _ hmalformed (MalformedStep.named?_name _)
  simp only [ofJson?, hrecord, hchoice, Option.bind_eq_bind, Option.bind_some,
    Record.defaulted_of_member? 0 _ htimeout (uint64?_ofNat _),
    Record.defaulted_of_member? 1 _ hconcurrency (uint64?_ofNat _),
    Record.defaulted_of_member? 2 _ hpcs (list?_array_map fun pc _ ↦ uint32?_ofNat pc)]
  rfl

theorem ofJson?_eq_of_respelled (json other : Json) (hspelled : Respelled fields json other) :
    ofJson? json = ofJson? other := by
  refine hspelled.read_eq fun first second hfields ↦ ?_
  refine bind_congr_of_eq ((hfields 0 _ rfl).defaulted_eq (read_eq_of_eq _) rfl rfl) fun _ ↦ ?_
  refine bind_congr_of_eq ((hfields 1 _ rfl).defaulted_eq (read_eq_of_eq _) rfl rfl) fun _ ↦ ?_
  refine bind_congr_of_eq ((hfields 2 _ rfl).defaulted_eq (read_eq_of_eq _) rfl rfl) fun _ ↦ ?_
  exact bind_congr_of_eq ((hfields 3 _ rfl).defaulted_eq (read_eq_of_eq _) rfl rfl) fun _ ↦ rfl

theorem writtenIn_toJson (settings : Settings) :
    ∀ field ∈ fields, field.WrittenIn settings.toJson := by
  have hmembers := map_member?_toJson settings
  simp only [fields, List.map_cons, List.cons.injEq] at hmembers
  simp [fields, Field.WrittenIn, hmembers]

theorem faithful : Faithful fields (fun _ ↦ True) toJson ofJson? :=
  faithful_of (fun _ ↦ rfl) (fun settings _ ↦ ofJson?_toJson settings) ofJson?_eq_of_respelled
    (by simp [fields]) writtenIn_toJson

end Settings

theorem CallKind.named?_name (kind : CallKind) : CallKind.named? kind.name = some kind := by
  cases kind <;> rfl

namespace Event

/-- The declared fields of an event. The value and the hash are null where there are none. -/
def fields : List Field :=
  [{ name := "op" }, { name := "address" }, { name := "value", default? := some .null },
    { name := "input" }, { name := "returnData" }, { name := "depth" },
    { name := "contractHashedBytecode", default? := some .null }]

/-- What stands in each field of a written event. -/
theorem map_member?_toJson (event : Event) :
    fields.map (fun field ↦ event.toJson.member? field.name) =
      [some (.string event.kind.name), some (.string event.address.text),
        some (ofOption .string event.value), some (.string event.input),
        some (.string event.returnData), some (ofNat event.depth.toNat),
        some (ofOption (fun hash ↦ .string hash.text) event.codeHash)] :=
  rfl

theorem ofJson?_toJson (event : Event) : ofJson? event.toJson = some event := by
  have hmembers := map_member?_toJson event
  simp only [fields, List.map_cons, List.cons.injEq] at hmembers
  obtain ⟨hkind, haddress, hvalue, hinput, hreturnData, hdepth, hhash, -⟩ := hmembers
  have hrecord : Record.of? 7 event.toJson = some (.named event.toJson) := rfl
  have hkindRead : (Record.named event.toJson).required 0 "op"
      (fun json ↦ json.name?.bind CallKind.named?) = some event.kind :=
    Record.required_of_member? 0 hkind (CallKind.named?_name _)
  simp only [ofJson?, hrecord, hkindRead, Option.bind_eq_bind, Option.bind_some,
    Record.required_of_member? 1 haddress (Octets.ofJson?_string_text _),
    Record.nullable_of_member? 2 hvalue fun _ _ ↦ nullable?_eq_some (by simp) (string?_string _),
    Record.required_of_member? 3 hinput (string?_string _),
    Record.required_of_member? 4 hreturnData (string?_string _),
    Record.required_of_member? 5 hdepth (uint32?_ofNat _),
    Record.nullable_of_member? 6 hhash fun _ _ ↦
      nullable?_eq_some (by simp) (Octets.ofJson?_string_text _)]
  rfl

theorem ofJson?_eq_of_respelled (json other : Json) (hspelled : Respelled fields json other) :
    ofJson? json = ofJson? other := by
  refine hspelled.read_eq fun first second hfields ↦ ?_
  refine bind_congr_of_eq ((hfields 0 _ rfl).required_eq (read_eq_of_eq _) rfl) fun _ ↦ ?_
  refine bind_congr_of_eq ((hfields 1 _ rfl).required_eq (read_eq_of_eq _) rfl) fun _ ↦ ?_
  refine bind_congr_of_eq ((hfields 2 _ rfl).nullable_eq (read_eq_of_eq _) rfl) fun _ ↦ ?_
  refine bind_congr_of_eq ((hfields 3 _ rfl).required_eq (read_eq_of_eq _) rfl) fun _ ↦ ?_
  refine bind_congr_of_eq ((hfields 4 _ rfl).required_eq (read_eq_of_eq _) rfl) fun _ ↦ ?_
  refine bind_congr_of_eq ((hfields 5 _ rfl).required_eq (read_eq_of_eq _) rfl) fun _ ↦ ?_
  exact bind_congr_of_eq ((hfields 6 _ rfl).nullable_eq (read_eq_of_eq _) rfl) fun _ ↦ rfl

theorem writtenIn_toJson (event : Event) : ∀ field ∈ fields, field.WrittenIn event.toJson := by
  have hmembers := map_member?_toJson event
  simp only [fields, List.map_cons, List.cons.injEq] at hmembers
  simp [fields, Field.WrittenIn, hmembers]

theorem faithful : Faithful fields (fun _ ↦ True) toJson ofJson? :=
  faithful_of (fun _ ↦ rfl) (fun event _ ↦ ofJson?_toJson event) ofJson?_eq_of_respelled
    (by simp [fields]) writtenIn_toJson

end Event

end CodeTrail
