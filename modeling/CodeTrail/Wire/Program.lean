import CodeTrail.Json.Record
import CodeTrail.Program.Expression

/-!
# Programs in JSON

Each type has a writer `toJson` and a reader `ofJson?`. What an annotation may add to an
instruction is left out where it is absent; the start of the runtime segment is written as null
instead.
-/

set_option autoImplicit false
set_option relaxedAutoImplicit false

namespace CodeTrail

open Json

namespace Instruction

/-- An instruction as a value. -/
def toJson (instruction : Instruction) : Json :=
  .object (
    [("opcode", .string instruction.opcode),
      ("offset", ofNat instruction.offset.toNat),
      ("length", ofNat instruction.length.toNat),
      ("stackInputs", ofNat instruction.stackInputs.toNat),
      ("stackOutputs", ofNat instruction.stackOutputs.toNat)] ++
    optionalMember "immediateValue" .string instruction.immediate ++
    optionalMember "label" .string instruction.label ++
    (if instruction.comments.isEmpty then [] else [("comments", ofTexts instruction.comments)]) ++
    optionalMember "jumpTargetIndex" ofNat instruction.jumpTarget)

/-- The instruction that a value is. -/
def ofJson? (json : Json) : Option Instruction := do
  let record ← Record.of? 9 json
  let opcode ← record.required 0 "opcode" string?
  let offset ← record.required 1 "offset" uint32?
  let length ← record.required 2 "length" uint32?
  let stackInputs ← record.required 3 "stackInputs" uint8?
  let stackOutputs ← record.required 4 "stackOutputs" uint8?
  let immediate ← record.optional 5 "immediateValue" string?
  let label ← record.optional 6 "label" string?
  let comments ← record.defaulted 7 "comments" [] (list? string?)
  let jumpTarget ← record.optional 8 "jumpTargetIndex" index?
  return ⟨opcode, offset, length, stackInputs, stackOutputs, immediate, label, comments,
    jumpTarget⟩

end Instruction

namespace Program

/-- A program as a value. -/
def toJson (program : Program) : Json :=
  .object [("instructions", .array (program.instructions.map Instruction.toJson))]

/-- The program that a value is. -/
def ofJson? (json : Json) : Option Program := do
  let record ← Record.of? 1 json
  let instructions ← record.required 0 "instructions" (list? Instruction.ofJson?)
  return ⟨instructions⟩

end Program

namespace Listing

/-- A listing as a value. -/
def toJson (listing : Listing) : Json :=
  .object [("instructions", .array (listing.instructions.map Instruction.toJson)),
    ("initMarkers", .array (listing.prologues.map ofNat)),
    ("runtimeStart", ofOption ofNat listing.runtimeStart)]

/-- The listing that a value is. -/
def ofJson? (json : Json) : Option Listing := do
  let record ← Record.of? 3 json
  let instructions ← record.required 0 "instructions" (list? Instruction.ofJson?)
  let prologues ← record.required 1 "initMarkers" (list? index?)
  let runtimeStart ← record.nullable 2 "runtimeStart" index?
  return ⟨instructions, prologues, runtimeStart⟩

end Listing

namespace Expression

mutual

/-- An expression as a value. -/
def toJson : Expression → Json
  | ⟨spanStart, spanEnd, produced, children⟩ =>
    let items := toJsonAll children
    .object (
      [("spanStart", ofNat spanStart), ("spanEnd", ofNat spanEnd),
        ("producedCount", ofNat produced.toNat)] ++
      if items.isEmpty then [] else [("children", .array items)])

/-- Expressions as values. -/
def toJsonAll : List Expression → List Json
  | [] => []
  | expression :: rest => toJson expression :: toJsonAll rest

end

/-- The expression that a value is, as far as a number of levels. -/
def ofJsonWithin? : Nat → Json → Option Expression
  | 0, _ => none
  | levels + 1, json => do
    let record ← Record.of? 4 json
    let spanStart ← record.required 0 "spanStart" index?
    let spanEnd ← record.required 1 "spanEnd" index?
    let produced ← record.required 2 "producedCount" uint8?
    let children ← record.defaulted 3 "children" [] (list? (ofJsonWithin? levels))
    return ⟨spanStart, spanEnd, produced, children⟩

/-- The expression that a value is. -/
def ofJson? (json : Json) : Option Expression :=
  ofJsonWithin? json.height json

end Expression

namespace Grouping

/-- A grouping as a value. -/
def toJson (grouping : Grouping) : Json :=
  .object [("stacks", .array (grouping.pictures.map ofTexts)),
    ("nodes", .array (Expression.toJsonAll grouping.expressions))]

/-- The grouping that a value is. -/
def ofJson? (json : Json) : Option Grouping := do
  let record ← Record.of? 2 json
  let pictures ← record.required 0 "stacks" (list? (list? string?))
  let expressions ← record.required 1 "nodes" (list? Expression.ofJson?)
  return ⟨pictures, expressions⟩

end Grouping

end CodeTrail
