/-!
# Arguments of a command

An option has a name behind two dashes and sometimes a letter behind one. Its value, if one belongs
to it, is attached to it or is the next argument, which must not look like an option then. Letters
without value may stand together behind one dash. Behind an argument of two dashes there are only
operands. `Arguments.parse?` reads the arguments of a command that knows certain options, and
refuses an unknown option, one given twice, and a value that is missing or out of place.
-/

set_option autoImplicit false
set_option relaxedAutoImplicit false

namespace CodeTrail.CommandLine

/-- An option that a command knows. -/
structure KnownOption where
  name : String
  letter : Option Char := none
  hasValue : Bool := true
  deriving DecidableEq, Repr

/-- What the arguments of a command say: the options with their values, empty where none belongs
to them, and the operands. -/
structure Arguments where
  options : List (String × String) := []
  operands : List String := []
  deriving DecidableEq, Repr

namespace Arguments

/-- Adds an option that is not given yet. -/
def add? (name value : String) (arguments : Arguments) : Option Arguments :=
  if arguments.options.any (·.1 == name) then none
  else some { arguments with options := arguments.options ++ [(name, value)] }

/-- The value of an option. -/
def value? (arguments : Arguments) (name : String) : Option String :=
  (arguments.options.find? (·.1 == name)).map (·.2)

/-- Whether an option is given. -/
def has (arguments : Arguments) (name : String) : Bool :=
  arguments.options.any (·.1 == name)

/-- The only operand, or the default where there is none. -/
def operand? (arguments : Arguments) (default : String) : Option String :=
  match arguments.operands with
  | [] => some default
  | [operand] => some operand
  | _ => none

end Arguments

/-- Arguments that are read in part. -/
structure Reading where
  arguments : Arguments := {}
  /-- The option whose value is the next argument. -/
  awaiting : Option String := none
  /-- Whether only operands may follow. -/
  isClosed : Bool := false

namespace Reading

/-- Reads an option with its value. -/
def option? (reading : Reading) (name value : String) : Option Reading :=
  (reading.arguments.add? name value).map fun arguments ↦
    { reading with arguments := arguments, awaiting := none }

/-- Reads an operand. -/
def operand (reading : Reading) (operand : String) : Reading :=
  { reading with
    arguments := { reading.arguments with operands := reading.arguments.operands ++ [operand] } }

/-- Reads what stands behind two dashes: a name, perhaps with a value behind an equals sign. -/
def name? (known : List KnownOption) (text : List Char) (reading : Reading) : Option Reading :=
  let (name, value) := text.span (· != '=')
  match known.find? (·.name == String.ofList name) with
  | none => none
  | some option =>
    match option.hasValue, value with
    | true, [] => some { reading with awaiting := some option.name }
    | true, _ :: value => reading.option? option.name (String.ofList value)
    | false, [] => reading.option? option.name ""
    | false, _ :: _ => none

/-- Reads what stands behind one dash: letters, the last one perhaps with a value behind it. -/
def letters? (known : List KnownOption) : List Char → Reading → Option Reading
  | [], reading => some reading
  | letter :: rest, reading =>
    match known.find? (·.letter == some letter) with
    | none => none
    | some option =>
      if option.hasValue then
        match rest with
        | [] => some { reading with awaiting := some option.name }
        | '=' :: value => reading.option? option.name (String.ofList value)
        | value => reading.option? option.name (String.ofList value)
      else (reading.option? option.name "").bind (letters? known rest)

/-- Reads one argument. -/
def next? (known : List KnownOption) (reading : Reading) (argument : String) : Option Reading :=
  if reading.isClosed then some (reading.operand argument)
  else
    match reading.awaiting, argument.toList with
    | some _, '-' :: _ :: _ => none
    | some name, _ => reading.option? name argument
    | none, ['-', '-'] => some { reading with isClosed := true }
    | none, '-' :: '-' :: text => reading.name? known text
    | none, '-' :: letter :: rest => reading.letters? known (letter :: rest)
    | none, _ => some (reading.operand argument)

end Reading

/-- What arguments say to a command that knows certain options. -/
def Arguments.parse? (known : List KnownOption) (arguments : List String) : Option Arguments :=
  match arguments.foldlM (Reading.next? known) {} with
  | some reading => if reading.awaiting.isNone then some reading.arguments else none
  | none => none

end CodeTrail.CommandLine
