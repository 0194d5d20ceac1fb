import CodeTrail.CommandLine.Arguments
import CodeTrail.CommandLine.Plan
import CodeTrail.Json.Printer
import CodeTrail.Json.Reader
import CodeTrail.Toml.Reader
import CodeTrail.Trace.Report
import CodeTrail.Wire.Trace

/-!
# The command that reports the events of a trace

The command reads settings, the code of contracts and a trace, in this order, and writes the events
of the trace as JSON. Settings come from a TOML file and from options, which come first. The code
comes from a file with an object that maps addresses to code. The trace may stand inside a response
that holds it as its result.
-/

set_option autoImplicit false
set_option relaxedAutoImplicit false

namespace CodeTrail.CommandLine

/-- What the arguments of the command say. -/
structure EventReport where
  input : Channel
  sender : Address
  codes : Option Channel
  settings : Option Channel
  fetchTimeout : Option UInt64
  fetchConcurrency : Option UInt64
  isStrict : Bool

namespace EventReport

/-! ### Arguments -/

/-- The options of the command. -/
def options : List KnownOption :=
  [⟨"sender", some 's', true⟩, ⟨"codes", none, true⟩, ⟨"config", none, true⟩,
    ⟨"timeout-ms", none, true⟩, ⟨"concurrency", none, true⟩, ⟨"strict", none, false⟩]

/-- The 64-bit number that a text is: decimal digits, perhaps behind a plus sign. -/
def number? (text : String) : Option UInt64 :=
  let digits := match text.toList with
    | '+' :: rest => rest
    | digits => digits
  if digits.isEmpty || !digits.all Char.isDigit then none
  else
    let number := digits.foldl (fun number digit ↦ 10 * number + (digit.toNat - 48)) 0
    if number < UInt64.size then some (UInt64.ofNat number) else none

/-- The file with a given path, which must not be empty. -/
def file? (path : String) : Option Channel :=
  if path.isEmpty then none else some (.file path)

/-- The value of an option as read by a given reader; there is none where the option is not
given. -/
def valueOf? {α : Type} (arguments : Arguments) (name : String) (read : String → Option α) :
    Option (Option α) :=
  match arguments.value? name with
  | some text => (read text).map some
  | none => some none

/-- What arguments say. -/
def ofArguments? (arguments : List String) : Option EventReport := do
  let arguments ← Arguments.parse? options arguments
  let input ← arguments.operand? "-"
  let sender ← (arguments.value? "sender").bind (Octets.read? 20)
  let codes ← valueOf? arguments "codes" file?
  let settings ← valueOf? arguments "config" file?
  let fetchTimeout ← valueOf? arguments "timeout-ms" number?
  let fetchConcurrency ← valueOf? arguments "concurrency" number?
  return ⟨.ofOperand input, sender, codes, settings, fetchTimeout, fetchConcurrency,
    arguments.has "strict"⟩

/-! ### Inputs -/

/-- The settings that a file holds, and the default ones without a file. -/
def fileSettings (contents : Contents) : Option Channel → Except String Settings
  | none => .ok {}
  | some channel => do
    let text ← contents.text channel
    match (Toml.readJson? text).bind Settings.ofJson? with
    | some settings => .ok settings
    | none => .error ("parsing " ++ channel.name)

/-- Settings with what the options say instead. -/
def overridden (report : EventReport) (settings : Settings) : Settings :=
  { settings with
    fetchTimeout := report.fetchTimeout.getD settings.fetchTimeout
    fetchConcurrency := report.fetchConcurrency.getD settings.fetchConcurrency
    malformedStep := if report.isStrict then .fail else settings.malformedStep }

/-- The last text of each name, where a name that comes again moves to the end. -/
def lastTexts (texts : List (String × String)) : List (String × String) :=
  texts.foldl (fun kept text ↦ kept.filter (fun other ↦ other.1 != text.1) ++ [text]) []

/-- A member of an object whose value is a text. -/
def namedText? (member : String × Json) : Option (String × String) :=
  member.2.string?.map fun text ↦ (member.1, text)

/-- The texts under the names of an object, the last one of each name. -/
def namedTexts? : Json → Option (List (String × String))
  | .object members =>
    (members.mapM namedText?).map lastTexts
  | _ => none

/-- The store of code that is given under texts, each of which must be an address. -/
def storeOf (texts : List (String × String)) : Except String Code.Store := do
  let pairs ← texts.mapM fun (name, code) ↦
    match Octets.read? 20 name with
    | some address => Except.ok (address, code)
    | none => .error ("invalid address " ++ name)
  return .ofList pairs

/-- The store of the code of contracts that a file holds. -/
def fileCodes (contents : Contents) : Option Channel → Except String Code.Store
  | none => .ok .empty
  | some channel => do
    let text ← contents.text channel
    match (Json.read? text).bind namedTexts? with
    | some texts => storeOf texts
    | none => .error ("parsing " ++ channel.name)

/-- The trace that a text holds, on its own or as the result in a response. -/
def traceOf (text : String) : Except String Trace :=
  match Json.read? text with
  | none => .error "trace is not valid JSON"
  | some json =>
    match Trace.ofJson? ((json.member? "result").getD json) with
    | some trace => .ok trace
    | none => .error "unexpected trace shape"

/-! ### The report -/

/-- What the command writes. -/
def result (report : EventReport) (contents : Contents) : Except String String := do
  let settings ← fileSettings contents report.settings
  let store ← fileCodes contents report.codes
  let text ← contents.text report.input
  let trace ← traceOf text
  let events ← (trace.events report.sender store.source (report.overridden settings) []).mapError
    TraceError.message
  return (Event.listToJson events).pretty ++ "\n"

/-- What the command does. -/
def plan (report : EventReport) : Plan where
  channels := report.settings.toList ++ report.codes.toList ++ [report.input]
  result := report.result

/-- What the command does for arguments that make sense. -/
def plan? (arguments : List String) : Option Plan :=
  (ofArguments? arguments).map plan

end EventReport

end CodeTrail.CommandLine
