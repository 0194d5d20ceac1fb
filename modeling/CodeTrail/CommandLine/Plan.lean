/-!
# What a command does

A command reads texts through channels and gives a text back or complains. A `Plan` is what its
arguments ask for: the channels it may read, and its result for what they hold. `Outcome` is the
end of a run as its caller sees it.
-/

set_option autoImplicit false
set_option relaxedAutoImplicit false

namespace CodeTrail.CommandLine

/-- Where a text comes from. -/
inductive Channel where
  | standardInput
  | file (path : String)
  deriving DecidableEq, Repr

/-- The channel that an operand names. -/
def Channel.ofOperand (operand : String) : Channel :=
  if operand = "-" then .standardInput else .file operand

/-- The name of a channel in messages. -/
def Channel.name : Channel → String
  | .standardInput => "stdin"
  | .file path => path

/-- What channels hold, for those that can be read. -/
abbrev Contents := Channel → Option ByteArray

/-- The text that a channel holds, or the complaint that there is none. -/
def Contents.text (contents : Contents) (channel : Channel) : Except String String :=
  match (contents channel).bind String.fromUTF8? with
  | some text => .ok text
  | none => .error ("reading " ++ channel.name)

/-- What the arguments of a command ask for. -/
structure Plan where
  channels : List Channel
  result : Contents → Except String String

/-- The end of a run. -/
inductive Outcome where
  | success (output : String)
  | failure (complaint : String)
  /-- The arguments make no sense. -/
  | misuse
  deriving DecidableEq, Repr

namespace Outcome

/-- The exit code of a run. -/
def exitCode : Outcome → UInt8
  | .success _ => 0
  | .failure _ => 1
  | .misuse => 2

/-- What a run writes. -/
def output : Outcome → String
  | .success output => output
  | _ => ""

/-- What a run complains about. -/
def complaint? : Outcome → Option String
  | .failure complaint => some complaint
  | _ => none

/-- The end of a run of a command. -/
def of (plan? : List String → Option Plan) (arguments : List String) (contents : Contents) :
    Outcome :=
  match plan? arguments with
  | none => .misuse
  | some plan =>
    match plan.result contents with
    | .ok output => .success output
    | .error complaint => .failure complaint

end Outcome

end CodeTrail.CommandLine
