import CodeTrail.CommandLine.Arguments
import CodeTrail.CommandLine.Plan
import CodeTrail.Json.Printer
import CodeTrail.Program.Text
import CodeTrail.Wire.Program

/-!
# The command that lists code

The command reads the digits of a program and writes its listing, as text or as JSON, and on demand
the grouping of its instructions into expressions behind it.
-/

set_option autoImplicit false
set_option relaxedAutoImplicit false

namespace CodeTrail.CommandLine

/-- The forms of a listing. -/
inductive ListingForm where
  | text
  | json
  deriving DecidableEq, Repr

/-- The form with a given name. -/
def ListingForm.named? (name : String) : Option ListingForm :=
  if name = "text" then some .text else if name = "json" then some .json else none

/-- A listing in a form, with the end of its last line. -/
def ListingForm.write (form : ListingForm) (listing : Listing) : String :=
  match form with
  | .text => listing.text
  | .json => listing.toJson.pretty ++ "\n"

/-- What the arguments of the command say. -/
structure Disassembly where
  input : Channel
  form : ListingForm
  withExpressions : Bool
  deriving DecidableEq, Repr

namespace Disassembly

/-- The options of the command. -/
def options : List KnownOption :=
  [⟨"format", some 'f', true⟩, ⟨"expressions", some 'e', false⟩]

/-- What arguments say. -/
def ofArguments? (arguments : List String) : Option Disassembly := do
  let arguments ← Arguments.parse? options arguments
  let input ← arguments.operand? "-"
  let form ← ListingForm.named? ((arguments.value? "format").getD "text")
  return ⟨.ofOperand input, form, arguments.has "expressions"⟩

/-- What the command writes for the digits of a program. -/
def output (disassembly : Disassembly) (code : String) : String :=
  let listing := Listing.of (Program.decode code)
  disassembly.form.write listing ++
    if disassembly.withExpressions then (Grouping.of listing).toJson.pretty ++ "\n" else ""

/-- What the command does. -/
def plan (disassembly : Disassembly) : Plan where
  channels := [disassembly.input]
  result := fun contents ↦ (contents.text disassembly.input).map disassembly.output

/-- What the command does for arguments that make sense. -/
def plan? (arguments : List String) : Option Plan :=
  (ofArguments? arguments).map plan

end Disassembly

end CodeTrail.CommandLine
