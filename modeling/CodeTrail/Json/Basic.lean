/-!
# JSON values

A value as it stands in a text: integers are exact and of any size, a number with a fraction or an
exponent keeps its spelling, and the members of an object keep their order and may repeat a name,
in which case the last one counts. The readers of scalars and lists refuse every value of another
kind, and an integer outside the range they are asked for.
-/

set_option autoImplicit false
set_option relaxedAutoImplicit false

namespace CodeTrail

/-- A JSON value. -/
inductive Json where
  | null
  | boolean (value : Bool)
  | integer (value : Int)
  | decimal (spelling : String)
  | string (value : String)
  | array (items : List Json)
  | object (members : List (String × Json))

namespace Json

/-- The member of an object with a given name, the last one if there are several. -/
def member? (name : String) : Json → Option Json
  | .object members => (members.reverse.find? (·.1 == name)).map (·.2)
  | _ => none

/-- The text that a value is. -/
def string? : Json → Option String
  | .string value => some value
  | _ => none

/-- The truth value that a value is. -/
def boolean? : Json → Option Bool
  | .boolean value => some value
  | _ => none

/-- The natural number below a limit that a value is. -/
def natBelow? (limit : Nat) : Json → Option Nat
  | .integer (.ofNat value) => if value < limit then some value else none
  | _ => none

/-- The 8-bit number that a value is. -/
def uint8? (json : Json) : Option UInt8 :=
  (json.natBelow? UInt8.size).map UInt8.ofNat

/-- The 32-bit number that a value is. -/
def uint32? (json : Json) : Option UInt32 :=
  (json.natBelow? UInt32.size).map UInt32.ofNat

/-- The 64-bit number that a value is. -/
def uint64? (json : Json) : Option UInt64 :=
  (json.natBelow? UInt64.size).map UInt64.ofNat

/-- The position in a list that a value is. -/
def index? (json : Json) : Option Nat :=
  json.natBelow? UInt64.size

/-- The list that a value is, each item read alike. -/
def list? {α : Type} (read : Json → Option α) : Json → Option (List α)
  | .array items => items.mapM read
  | _ => none

/-- The item that a value is, or no item where it is null. -/
def nullable? {α : Type} (read : Json → Option α) : Json → Option (Option α)
  | .null => some none
  | json => (read json).map some

/-- The name that a value is: the text itself, or an object whose only member has that name and is
null. -/
def name? : Json → Option String
  | .string value => some value
  | .object members =>
    match members.getLast? with
    | some (name, .null) => if members.all (·.1 == name) then some name else none
    | _ => none
  | _ => none

/-- A natural number as a value. -/
def ofNat (value : Nat) : Json :=
  .integer (.ofNat value)

/-- A list of texts as a value. -/
def ofTexts (texts : List String) : Json :=
  .array (texts.map .string)

/-- An optional item as a value, null where there is none. -/
def ofOption {α : Type} (write : α → Json) : Option α → Json
  | some item => write item
  | none => .null

/-- The member for an optional item, left out where there is none. -/
def optionalMember {α : Type} (name : String) (write : α → Json) :
    Option α → List (String × Json)
  | some item => [(name, write item)]
  | none => []

mutual

/-- The number of nested lists and objects in a value, and one more. -/
def height : Json → Nat
  | .array items => heightItems items + 1
  | .object members => heightMembers members + 1
  | _ => 1

/-- The largest height of the items of an array. -/
def heightItems : List Json → Nat
  | [] => 0
  | item :: rest => max item.height (heightItems rest)

/-- The largest height of the members of an object. -/
def heightMembers : List (String × Json) → Nat
  | [] => 0
  | (_, value) :: rest => max value.height (heightMembers rest)

end

end Json

end CodeTrail
