import CodeTrail.CommandLine.Disassemble
import CodeTrail.CommandLine.Events

/-!
# The program

The first argument names the command, `disassemble` or `events`, and the others are its own. All
channels that the command may read are read first; what it writes goes to standard output, and what
it complains about to standard error.
-/

set_option autoImplicit false
set_option relaxedAutoImplicit false

namespace CodeTrail.CommandLine

/-- The command with a given name. -/
def command? (name : String) : Option (List String → Option Plan) :=
  if name = "disassemble" then some Disassembly.plan?
  else if name = "events" then some EventReport.plan?
  else none

/-- What a channel holds, if it can be read. -/
def Channel.read (channel : Channel) : IO (Option ByteArray) := do
  try
    match channel with
    | .standardInput => return some (← (← IO.getStdin).readBinToEnd)
    | .file path => return some (← IO.FS.readBinFile path)
  catch _ => return none

/-- Reads channels, each of them once. -/
def readChannels (channels : List Channel) : IO Contents :=
  let read (contents : Contents) (channel : Channel) : IO Contents := do
    let content ← channel.read
    return fun other ↦ if other = channel then content else contents other
  channels.eraseDups.foldlM read fun _ ↦ none

/-- Runs a command. -/
def run (plan? : List String → Option Plan) (arguments : List String) : IO UInt32 := do
  let channels := ((plan? arguments).map (·.channels)).getD []
  let outcome := Outcome.of plan? arguments (← readChannels channels)
  (← IO.getStdout).putStr outcome.output
  match outcome with
  | .success _ => pure ()
  | .failure complaint => (← IO.getStderr).putStrLn ("Error: " ++ complaint)
  | .misuse => (← IO.getStderr).putStrLn "The arguments make no sense."
  return outcome.exitCode.toUInt32

end CodeTrail.CommandLine

open CodeTrail.CommandLine in
/-- Runs the command that the first argument names. -/
def main (arguments : List String) : IO UInt32 := do
  match arguments with
  | name :: rest =>
    match command? name with
    | some plan? => run plan? rest
    | none => run (fun _ ↦ none) rest
  | [] => run (fun _ ↦ none) []
