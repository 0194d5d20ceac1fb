import CodeTrail.Json.Basic

/-!
# Records in JSON

A record is given as an object, where its fields are found by name and other members do not
matter, or as an array of its fields in their declared order, where the last ones may be missing.
The four readers of a field differ in what a missing field and a null mean.
-/

set_option autoImplicit false
set_option relaxedAutoImplicit false

namespace CodeTrail.Json

/-- The fields of a record, by name or by position. -/
inductive Record where
  | named (json : Json)
  | listed (items : List Json)

namespace Record

/-- The record that a value is, with a given number of declared fields. -/
def of? (fieldCount : Nat) : Json → Option Record
  | .object members => some (.named (.object members))
  | .array items => if items.length ≤ fieldCount then some (.listed items) else none
  | _ => none

/-- The value of the field at a position of the declared order, if it is given. -/
def field? (record : Record) (position : Nat) (name : String) : Option Json :=
  match record with
  | .named json => json.member? name
  | .listed items => items[position]?

variable {α : Type}

/-- A field that has to be given. -/
def required (record : Record) (position : Nat) (name : String) (read : Json → Option α) :
    Option α :=
  (record.field? position name).bind read

/-- A field with a default, which stands in for a missing field but not for null. -/
def defaulted (record : Record) (position : Nat) (name : String) (default : α)
    (read : Json → Option α) : Option α :=
  match record.field? position name with
  | some json => read json
  | none => some default

/-- A field that may be missing or null. -/
def optional (record : Record) (position : Nat) (name : String) (read : Json → Option α) :
    Option (Option α) :=
  record.defaulted position name none (nullable? read)

/-- A field that may be null, and may be missing where fields are found by name. -/
def nullable (record : Record) (position : Nat) (name : String) (read : Json → Option α) :
    Option (Option α) :=
  match record with
  | .named _ => record.optional position name read
  | .listed _ => record.required position name (nullable? read)

end Record

end CodeTrail.Json
