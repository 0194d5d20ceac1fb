import CodeTrail.Code.Fingerprint
import CodeTrail.Hex.Word
import CodeTrail.Trace.Event
import CodeTrail.Trace.Settings

/-!
# Events from recorded steps

An event is read off the stack and the memory of the step that calls or creates. What a call
returns is read off a later step: the caller goes on at the place behind the call, so the first
later step at that place is where it resumes, and the step just before that one is the last of the
callee, with the returned region of memory on top of its stack.

`outcome?` is the event of one step or the reason why there is none, `outcomes` those of all steps,
and `reconstruct` keeps the events or stops at the first reason, as the settings say.
-/

set_option autoImplicit false
set_option relaxedAutoImplicit false

namespace CodeTrail

namespace Step

open Hex.Word (countLimit)

/-! ### Reading stack and memory -/

/-- A word of a step as read by a given reader. -/
def read {α : Type} (step : Step) (reader : String → Option α) (word : String) :
    Except TraceError α :=
  match reader word with
  | some value => .ok value
  | none => .error (.invalidHex step.pc word)

/-- The digits of memory words put together in lower case, or the first word that holds something
else. -/
def memoryDigits : List String → Except String (List Char)
  | [] => .ok []
  | word :: rest =>
    let digits := Hex.dropMark word.toList
    if digits.all Hex.isDigit then
      (memoryDigits rest).map fun more ↦ digits.map Char.toLower ++ more
    else .error word

/-- Digits behind `0x`, and nothing where there are no digits. -/
def markedDigits : List Char → String
  | [] => ""
  | digits => String.ofList ('0' :: 'x' :: digits)

/-- A region is cut out of a text by counts that end at the largest 64-bit number, and so do twice a
count and the sum of two; positions behind the text are taken back to its end. -/
def clampedAt (text : List Char) (offset size : Nat) : List Char :=
  let start := min (min (2 * min offset countLimit) countLimit) text.length
  let stop := min (min (start + min (2 * min size countLimit) countLimit) countLimit) text.length
  text.extract start stop

/-- A region of the memory of a step, as far as memory was recorded. A region without bytes does
not look at the memory. -/
def slice (step : Step) (offset size : Nat) : Except TraceError String :=
  match step.memory with
  | none => .ok ""
  | some words =>
    if size = 0 then .ok ""
    else
      match memoryDigits words with
      | .error word => .error (.invalidHex step.pc word)
      | .ok digits => .ok (markedDigits (clampedAt digits offset size))

/-- The region of memory that two words give by offset and size. -/
def region (step : Step) (offset size : String) : Except TraceError String := do
  let offset ← step.read Hex.Word.count? offset
  let size ← step.read Hex.Word.count? size
  step.slice offset size

/-- An amount in decimal digits, absent for zero. -/
def amount (step : Step) (word : String) : Except TraceError (Option String) := do
  let amount ← step.read Hex.Word.amount? word
  return if amount = 0 then none else some (toString amount)

/-! ### What a call returns -/

/-- The steps between a step and the first later one at the place behind it, if there is one. -/
def inside? (step : Step) (later : List Step) : Option (List Step) :=
  if step.pc = 0xffffffff then none
  else if later.any (·.pc == step.pc + 1) then
    some (later.takeWhile (·.pc != step.pc + 1))
  else none

/-- What a call returns: the region on top of the stack of the last step inside it. -/
def returnData (step : Step) (later : List Step) : Except TraceError String :=
  match (step.inside? later).bind List.getLast? with
  | none => .ok ""
  | some last =>
    match last.topDown with
    | offset :: size :: _ => last.region offset size
    | _ => .ok ""

/-! ### The event of a step -/

/-- The event of a call, from the words for its target, the amount it sends where it can send one,
and the region of its call data. -/
def callEvent (step : Step) (later : List Step) (kind : CallKind) (target : String)
    (amount : Option String) (offset size : String) : Except TraceError Event := do
  let address ← step.read Hex.Word.address? target
  let value ← match amount with
    | some amount => step.amount amount
    | none => .ok none
  let input ← step.region offset size
  let returnData ← step.returnData later
  return { kind, address, value, input, returnData, depth := step.depth, codeHash := none }

/-- The address of a contract that a sender creates from a salt and the hash of the code that
creates it. -/
def createdAddress (sender : Address) (salt codeHash : Digest) : Address :=
  let digest := Keccak.keccak256 (0xff :: (sender.bytes ++ salt.bytes ++ codeHash.bytes))
  ⟨digest.bytes.drop 12, by simp [digest.length_bytes]⟩

/-- The event of a creation, from the words for the amount it sends and for the region of the code
that creates the contract. The word for the offset is the salt as well. -/
def createEvent (sender : Address) (step : Step) (kind : CallKind) (amount size offset : String) :
    Except TraceError Event := do
  let input ← step.region offset size
  let codeHash ← step.read (fun text ↦ (Code.hash text).toOption) input
  let salt ← step.read Hex.Word.salt? offset
  let value ← step.amount amount
  return { kind, address := createdAddress sender salt codeHash, value, input, returnData := "",
           depth := step.depth, codeHash := none }

/-- The event of a step of a given kind, or the reason why there is none. -/
def event (sender : Address) (step : Step) (later : List Step) (kind : CallKind) :
    Except TraceError Event :=
  match kind, step.topDown with
  | .call, _ :: target :: amount :: offset :: size :: _
  | .callCode, _ :: target :: amount :: offset :: size :: _ =>
    step.callEvent later kind target (some amount) offset size
  | .delegateCall, _ :: target :: offset :: size :: _
  | .staticCall, _ :: target :: offset :: size :: _ =>
    step.callEvent later kind target none offset size
  | .create, amount :: size :: offset :: _
  | .create2, amount :: size :: offset :: _ =>
    createEvent sender step kind amount size offset
  | kind, _ =>
    .error (.stackUnderflow step.op step.pc kind.operandCount step.stack.length)

/-- The event of a step or the reason why there is none; nothing for a step that neither calls nor
creates. -/
def outcome? (sender : Address) (legacyCallPcs : List UInt32) (step : Step) (later : List Step) :
    Option (Except TraceError Event) :=
  (step.kind? legacyCallPcs).map (step.event sender later)

end Step

/-! ### All steps -/

/-- The outcome of each step, in order. -/
def outcomes (sender : Address) (legacyCallPcs : List UInt32) :
    List Step → List (Option (Except TraceError Event))
  | [] => []
  | step :: later =>
    step.outcome? sender legacyCallPcs later :: outcomes sender legacyCallPcs later

/-- The events among outcomes, or the first error if there is one. -/
def allEvents : List (Option (Except TraceError Event)) → Except TraceError (List Event)
  | [] => .ok []
  | some (.error error) :: _ => .error error
  | some (.ok event) :: rest => (allEvents rest).map (event :: ·)
  | none :: rest => allEvents rest

/-- The events among outcomes. -/
def goodEvents (outcomes : List (Option (Except TraceError Event))) : List Event :=
  outcomes.filterMap fun outcome ↦ outcome.bind Except.toOption

/-- The events of recorded steps, without fingerprints. -/
def reconstruct (sender : Address) (settings : Settings) (steps : List Step) :
    Except TraceError (List Event) :=
  let outcomes := outcomes sender settings.legacyCallPcs steps
  match settings.malformedStep with
  | .skip => .ok (goodEvents outcomes)
  | .fail => allEvents outcomes

end CodeTrail
