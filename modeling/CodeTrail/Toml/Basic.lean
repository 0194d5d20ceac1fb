import CodeTrail.Json.Basic

/-!
# TOML documents

A document is a table: names with values, in order and without repetition. What may be added to a
table later depends on how it came about, which is its `Origin`. `assign` adds a value under a
dotted name, `define` opens the table behind a header, and `within` goes to a table that is open.
Nothing may be said twice.
-/

set_option autoImplicit false
set_option relaxedAutoImplicit false

namespace CodeTrail.Toml

/-- How a table came about. -/
inductive Origin where
  /-- By its own header. -/
  | header
  /-- As a table around one with a header. -/
  | around
  /-- By a dotted name. -/
  | dotted
  /-- In braces. -/
  | braces
  deriving DecidableEq, Repr

/-- A value of a document. Numbers that are not integers, and dates, keep their spelling. -/
inductive Value where
  | integer (value : Int)
  | string (value : String)
  | boolean (value : Bool)
  | other (spelling : String)
  | array (items : List Value)
  | table (origin : Origin) (entries : List (String × Value))
  | tables (items : List (List (String × Value)))

/-- The entries of a table. -/
abbrev Entries := List (String × Value)

/-- The value under a name. -/
def Entries.find? (entries : Entries) (name : String) : Option Value :=
  (List.find? (·.1 == name) entries).map (·.2)

/-- Entries with the value under a name replaced. -/
def Entries.replace (entries : Entries) (name : String) (value : Value) : Entries :=
  List.map (fun entry ↦ if entry.1 == name then (name, value) else entry) entries

/-- Adds a value under a dotted name. A table on the way must be new or come from dotted names. It
may also be one around a table with a header, or the last of an array of tables, as long as the
value does not become an entry of that one itself. -/
def assign (value : Value) : List String → Entries → Option Entries
  | [], _ => none
  | [name], entries =>
    match Entries.find? entries name with
    | none => some (entries ++ [(name, value)])
    | some _ => none
  | name :: part :: path, entries =>
    match Entries.find? entries name with
    | none =>
      (assign value (part :: path) []).map fun inner ↦
        entries ++ [(name, .table .dotted inner)]
    | some (.table .dotted inner) =>
      (assign value (part :: path) inner).map fun inner ↦
        Entries.replace entries name (.table .dotted inner)
    | some (.table .around inner) =>
      if path.isEmpty then none
      else
        (assign value (part :: path) inner).map fun inner ↦
          Entries.replace entries name (.table .around inner)
    | some (.tables items) =>
      match items.getLast? with
      | none => none
      | some last =>
        if path.isEmpty then none
        else
          (assign value (part :: path) last).map fun last ↦
            Entries.replace entries name (.tables (items.dropLast ++ [last]))
    | some _ => none

/-- Opens the table behind a header, or one more item of an array of tables. A table around others
with headers may get a header of its own later. -/
def define (isItem : Bool) : List String → Entries → Option Entries
  | [], _ => none
  | [name], entries =>
    match Entries.find? entries name, isItem with
    | none, false => some (entries ++ [(name, .table .header [])])
    | none, true => some (entries ++ [(name, .tables [[]])])
    | some (.table .around inner), false =>
      some (Entries.replace entries name (.table .header inner))
    | some (.tables items), true => some (Entries.replace entries name (.tables (items ++ [[]])))
    | _, _ => none
  | name :: path, entries =>
    match Entries.find? entries name with
    | none => (define isItem path []).map fun inner ↦ entries ++ [(name, .table .around inner)]
    | some (.table .braces _) => none
    | some (.table origin inner) =>
      (define isItem path inner).map fun inner ↦
        Entries.replace entries name (.table origin inner)
    | some (.tables items) =>
      match items.getLast? with
      | none => none
      | some last =>
        (define isItem path last).map fun last ↦
          Entries.replace entries name (.tables (items.dropLast ++ [last]))
    | some _ => none

/-- Changes the entries of an open table, the last one of an array of tables on the way. -/
def within (change : Entries → Option Entries) : List String → Entries → Option Entries
  | [], entries => change entries
  | name :: path, entries =>
    match Entries.find? entries name with
    | some (.table origin inner) =>
      (within change path inner).map fun inner ↦
        Entries.replace entries name (.table origin inner)
    | some (.tables items) =>
      match items.getLast? with
      | none => none
      | some last =>
        (within change path last).map fun last ↦
          Entries.replace entries name (.tables (items.dropLast ++ [last]))
    | _ => none

/-! ### As JSON -/

/-- The members of an object in the place of a table. There is no null in a document: a name
without content is a table whose only entry is empty. -/
def named : List (String × Json) → List (String × Json)
  | [(name, .array [])] => [(name, .null)]
  | [(name, .object [])] => [(name, .null)]
  | members => members

mutual

/-- A value as JSON. -/
def Value.toJson : Value → Json
  | .integer value => .integer value
  | .string value => .string value
  | .boolean value => .boolean value
  | .other spelling => .decimal spelling
  | .array items => .array (itemsToJson items)
  | .table _ entries => .object (named (entriesToJson entries))
  | .tables items => .array (tablesToJson items)

/-- The items of an array as JSON. -/
def itemsToJson : List Value → List Json
  | [] => []
  | item :: rest => item.toJson :: itemsToJson rest

/-- The entries of a table as the members of an object. -/
def entriesToJson : List (String × Value) → List (String × Json)
  | [] => []
  | (name, value) :: rest => (name, value.toJson) :: entriesToJson rest

/-- The tables of an array as JSON. -/
def tablesToJson : List (List (String × Value)) → List Json
  | [] => []
  | entries :: rest => .object (entriesToJson entries) :: tablesToJson rest

end

end CodeTrail.Toml
