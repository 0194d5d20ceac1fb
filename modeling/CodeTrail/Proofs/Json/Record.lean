import CodeTrail.Json.Record
import Mathlib.Data.List.Forall2

/-!
# Spellings of a record

One record can be given in many ways: as an object with its fields in any order and members of
other names among them, or as an array of its fields in their declared order. A `Field` says what a
declared field is like, and `Respelled` which two values give the same record, as far as the values
in its fields may themselves be spelled in several ways. A reader that asks for each of its fields
by position and name cannot tell two spellings apart: `Record.Agree` is what two records have in
common then, and each of the four readers of a field respects it.

`Faithful` collects what is to be shown of a record type: its values are read back from what is
written for them and from every spelling of it, and fields are left out just where they hold their
default.
-/

set_option autoImplicit false
set_option relaxedAutoImplicit false

namespace CodeTrail.Json

/-! ### Members of an object -/

theorem member?_append (name : String) (members others : List (String × Json)) :
    (Json.object (members ++ others)).member? name =
      ((Json.object others).member? name).or ((Json.object members).member? name) := by
  simp only [member?, List.reverse_append, List.find?_append, Option.map_or]

theorem member?_cons (name other : String) (value : Json) (members : List (String × Json)) :
    (Json.object ((other, value) :: members)).member? name =
      ((Json.object members).member? name).or (if other = name then some value else none) := by
  rw [← List.singleton_append, member?_append]
  congr 1
  by_cases hname : other = name <;> simp [member?, hname]

theorem member?_nil (name : String) : (Json.object []).member? name = none :=
  rfl

theorem member?_optionalMember {α : Type} (name other : String) (write : α → Json)
    (item : Option α) : (Json.object (optionalMember other write item)).member? name =
      if other = name then item.map write else none := by
  cases item with
  | none => simp [optionalMember, member?_nil]
  | some item => simp [optionalMember, member?_cons, member?_nil]

theorem member?_ite (name other : String) (value : Json) (isEmpty : Bool) :
    (Json.object (if isEmpty then [] else [(other, value)])).member? name =
      if other = name then (if isEmpty then none else some value) else none := by
  cases isEmpty <;> simp [member?_cons, member?_nil]

/-- A member of another name does not matter. -/
theorem member?_unknown {name other : String} (hname : other ≠ name) (value : Json)
    (before after : List (String × Json)) :
    (Json.object (before ++ (other, value) :: after)).member? name =
      (Json.object (before ++ after)).member? name := by
  rw [member?_append, member?_append, member?_cons, if_neg hname, Option.or_none]

/-! ### Values read back -/

@[simp] theorem ofNat_ne_null (number : Nat) : ofNat number ≠ .null :=
  Json.noConfusion

@[simp] theorem ofTexts_ne_null (texts : List String) : ofTexts texts ≠ .null :=
  Json.noConfusion

@[simp] theorem ofTexts_eq_nil_iff (texts : List String) : ofTexts texts = .array [] ↔ texts = [] := by
  simp [ofTexts]

@[simp] theorem string?_string (text : String) : string? (.string text) = some text :=
  rfl

@[simp] theorem boolean?_boolean (value : Bool) : boolean? (.boolean value) = some value :=
  rfl

@[simp] theorem uint8?_ofNat (number : UInt8) : uint8? (ofNat number.toNat) = some number := by
  simp [uint8?, ofNat, natBelow?, UInt8.toNat_lt_size number]

@[simp] theorem uint32?_ofNat (number : UInt32) : uint32? (ofNat number.toNat) = some number := by
  simp [uint32?, ofNat, natBelow?, UInt32.toNat_lt_size number]

@[simp] theorem uint64?_ofNat (number : UInt64) : uint64? (ofNat number.toNat) = some number := by
  simp [uint64?, ofNat, natBelow?, UInt64.toNat_lt_size number]

theorem index?_ofNat {index : Nat} (hindex : index < UInt64.size) :
    index? (ofNat index) = some index :=
  if_pos hindex

theorem nullable?_eq_some {α : Type} {read : Json → Option α} {json : Json} {item : α}
    (hjson : json ≠ .null) (hread : read json = some item) :
    nullable? read json = some (some item) := by
  rw [nullable?, hread, Option.map_some]
  exact hjson

theorem list?_array_map {α : Type} {write : α → Json} {read : Json → Option α} {items : List α}
    (hread : ∀ item ∈ items, read (write item) = some item) :
    list? read (.array (items.map write)) = some items := by
  rw [list?]
  induction items with
  | nil => rfl
  | cons item rest ih =>
    have hrest := ih fun other hother ↦ hread other (List.mem_cons_of_mem _ hother)
    rw [List.map_cons, List.mapM_cons, hread item List.mem_cons_self, hrest]
    rfl

@[simp] theorem list?_ofTexts (texts : List String) : list? string? (ofTexts texts) = some texts :=
  list?_array_map fun _ _ ↦ rfl

namespace Record

variable {α : Type} {json value : Json} {name : String} {item : α} {read : Json → Option α}
  {write : α → Json}

theorem required_of_member? (position : Nat) (hmember : json.member? name = some value)
    (hread : read value = some item) :
    (named json).required position name read = some item := by
  rw [required, field?, hmember, Option.bind_some, hread]

theorem defaulted_of_member? (position : Nat) (default : α)
    (hmember : json.member? name = some value) (hread : read value = some item) :
    (named json).defaulted position name default read = some item := by
  rw [defaulted, field?, hmember]
  exact hread

/-- A list that is left out where it is empty is read back. -/
theorem defaulted_of_isEmpty {read : Json → Option (List α)} {items : List α} (position : Nat)
    (hmember : json.member? name = if items.isEmpty then none else some value)
    (hread : read value = some items) :
    (named json).defaulted position name [] read = some items := by
  rw [defaulted, field?, hmember]
  cases items with
  | nil => rfl
  | cons item rest => exact hread

/-- An item that is left out where there is none is read back. -/
theorem optional_of_member? {found : Option α} (position : Nat)
    (hmember : json.member? name = found.map write)
    (hread : ∀ item ∈ found, nullable? read (write item) = some (some item)) :
    (named json).optional position name read = some found := by
  rw [optional, defaulted, field?, hmember]
  cases found with
  | none => rfl
  | some item => exact hread item rfl

/-- An item that is null where there is none is read back. -/
theorem nullable_of_member? {found : Option α} (position : Nat)
    (hmember : json.member? name = some (ofOption write found))
    (hread : ∀ item ∈ found, nullable? read (write item) = some (some item)) :
    (named json).nullable position name read = some found := by
  rw [nullable, optional, defaulted, field?, hmember]
  cases found with
  | none => rfl
  | some item => exact hread item rfl

end Record

/-! ### Heights -/

theorem height_pos (json : Json) : 0 < json.height := by
  cases json with
  | array items => exact Nat.succ_pos _
  | object members => exact Nat.succ_pos _
  | _ => exact Nat.one_pos

theorem height_le_heightItems {item : Json} {items : List Json} (hitem : item ∈ items) :
    item.height ≤ heightItems items := by
  induction items with
  | nil => exact absurd hitem List.not_mem_nil
  | cons first rest ih =>
    rw [heightItems]
    rcases List.mem_cons.mp hitem with rfl | hrest
    · exact Nat.le_max_left _ _
    · exact Nat.le_trans (ih hrest) (Nat.le_max_right _ _)

theorem height_le_heightMembers {member : String × Json} {members : List (String × Json)}
    (hmember : member ∈ members) : member.2.height ≤ heightMembers members := by
  induction members with
  | nil => exact absurd hmember List.not_mem_nil
  | cons first rest ih =>
    rw [heightMembers]
    rcases List.mem_cons.mp hmember with rfl | hrest
    · exact Nat.le_max_left _ _
    · exact Nat.le_trans (ih hrest) (Nat.le_max_right _ _)

/-- What stands in a field of a record lies below it. -/
theorem height_lt_of_field? {fieldCount position : Nat} {name : String} {json value : Json}
    {record : Record} (hrecord : Record.of? fieldCount json = some record)
    (hfield : record.field? position name = some value) : value.height < json.height := by
  cases json with
  | array items =>
    obtain ⟨-, rfl⟩ : _ ∧ .listed items = record := by simpa [Record.of?] using hrecord
    exact Nat.lt_succ_of_le (height_le_heightItems (List.mem_of_getElem? hfield))
  | object members =>
    obtain rfl : .named (.object members) = record := by simpa [Record.of?] using hrecord
    obtain ⟨member, hfind, rfl⟩ := Option.map_eq_some_iff.mp hfield
    exact Nat.lt_succ_of_le
      (height_le_heightMembers (List.mem_reverse.mp (List.mem_of_find?_eq_some hfind)))
  | _ => exact absurd hrecord (by simp [Record.of?])

/-- Two readers that agree on what lies below a value read it as the same list. -/
theorem list?_eq_of_height {α : Type} {read other : Json → Option α} {json : Json}
    (hread : ∀ item, item.height < json.height → read item = other item) :
    list? read json = list? other json := by
  cases json with
  | array items =>
    have hitems : ∀ item ∈ items, read item = other item := fun item hitem ↦
      hread item (Nat.lt_succ_of_le (height_le_heightItems hitem))
    rw [list?, list?]
    clear hread
    induction items with
    | nil => rfl
    | cons item rest ih =>
      rw [List.mapM_cons, List.mapM_cons, hitems item List.mem_cons_self,
        ih fun next hnext ↦ hitems next (List.mem_cons_of_mem _ hnext)]
  | _ => rfl

/-! ### Spellings -/

/-- A declared field of a record. -/
structure Field where
  name : String
  /-- The value that stands for the field in an array where objects may go without it. -/
  default? : Option Json := none
  /-- Whether objects are written without the field where it holds its default. -/
  isLeftOut : Bool := false
  /-- Which values say the same in this field. -/
  Respelled : Json → Json → Prop := Eq

/-- A field that objects are written without where it holds its default. -/
def Field.leftOut (name : String) (default : Json) : Field :=
  { name, default? := some default, isLeftOut := true }

/-- Two records hold the same in the field at a position. In an array the field is given even where
it holds its default. -/
inductive Record.Agree (field : Field) (position : Nat) : Record → Record → Prop
  | named {json other : Json}
    (hmember : Option.Rel field.Respelled (json.member? field.name) (other.member? field.name)) :
    Agree field position (.named json) (.named other)
  | listed {items others : List Json}
    (hitem : Option.Rel field.Respelled items[position]? others[position]?) :
    Agree field position (.listed items) (.listed others)
  | rearranged {json value item : Json} {items : List Json}
    (hmember : (json.member? field.name).or field.default? = some value)
    (hitem : items[position]? = some item) (hvalue : field.Respelled value item) :
    Agree field position (.named json) (.listed items)

/-- Two values give the same record with the given fields. -/
inductive Respelled (fields : List Field) : Json → Json → Prop
  | same (json : Json) : Respelled fields json json
  | record {json other : Json} {first second : Record}
    (hfirst : Record.of? fields.length json = some first)
    (hsecond : Record.of? fields.length other = some second)
    (hfields : ∀ position field, fields[position]? = some field →
      Record.Agree field position first second) : Respelled fields json other

/-- Two values give the same list, item by item. -/
inductive ListRespelled (Respelled : Json → Json → Prop) : Json → Json → Prop
  | same (json : Json) : ListRespelled Respelled json json
  | items {items others : List Json} (hitems : List.Forall₂ Respelled items others) :
    ListRespelled Respelled (.array items) (.array others)

/-- A member of an unknown name can be put anywhere. -/
theorem respelled_unknown {fields : List Field} {name : String}
    (hname : ∀ field ∈ fields, name ≠ field.name) (value : Json)
    (hrefl : ∀ field ∈ fields, ∀ json, field.Respelled json json)
    (before after : List (String × Json)) :
    Respelled fields (.object (before ++ after)) (.object (before ++ (name, value) :: after)) := by
  refine .record rfl rfl fun position field hfield ↦ .named ?_
  have hmem := List.mem_of_getElem? hfield
  rw [member?_unknown (hname field hmem)]
  cases (Json.object (before ++ after)).member? field.name with
  | none => exact .none
  | some json => exact .some (hrefl field hmem json)

/-! ### Readers of a field -/

/-- A field whose values have no other spelling. -/
theorem read_eq_of_eq {β : Type} (read : Json → β) (json other : Json) (hsame : json = other) :
    read json = read other :=
  congrArg read hsame

/-- Two readings that start alike and go on alike are alike. -/
theorem bind_congr_of_eq {α β : Type} {first second : Option α} {read other : α → Option β}
    (hfirst : first = second) (hread : ∀ item, read item = other item) :
    first >>= read = second >>= other := by
  rw [hfirst, funext hread]

theorem list?_eq_of_respelled {α : Type} {read : Json → Option α} {Respelled : Json → Json → Prop}
    (hread : ∀ json other, Respelled json other → read json = read other) (json other : Json)
    (hlist : ListRespelled Respelled json other) : list? read json = list? read other := by
  cases hlist with
  | same => rfl
  | items hitems =>
    rw [list?, list?]
    induction hitems with
    | nil => rfl
    | cons hitem _ ih => rw [List.mapM_cons, List.mapM_cons, hread _ _ hitem, ih]

theorem nullable?_list?_eq_of_respelled {α : Type} {read : Json → Option α}
    {Respelled : Json → Json → Prop}
    (hread : ∀ json other, Respelled json other → read json = read other) (json other : Json)
    (hlist : ListRespelled Respelled json other) :
    nullable? (list? read) json = nullable? (list? read) other := by
  have hsame := list?_eq_of_respelled hread json other hlist
  cases hlist with
  | same => rfl
  | items => rw [nullable?, nullable?, hsame] <;> simp

theorem bind_eq_of_rel {α : Type} {read : Json → Option α} {Respelled : Json → Json → Prop}
    (hread : ∀ json other, Respelled json other → read json = read other)
    {first second : Option Json} (hrel : Option.Rel Respelled first second)
    (default? : Option Json) :
    (first.or default?).bind read = (second.or default?).bind read := by
  cases hrel with
  | none => rfl
  | some hvalue => exact hread _ _ hvalue

namespace Record.Agree

variable {α : Type} {field : Field} {position : Nat} {first second : Record}
  {read : Json → Option α}

/-- A field reads alike where a default stands in for a missing one. -/
theorem bind_eq (hagree : Agree field position first second)
    (hread : ∀ json other, field.Respelled json other → read json = read other) :
    ((first.field? position field.name).or field.default?).bind read =
      ((second.field? position field.name).or field.default?).bind read := by
  cases hagree with
  | named hmember => exact bind_eq_of_rel hread hmember _
  | listed hitem => exact bind_eq_of_rel hread hitem _
  | rearranged hmember hitem hvalue =>
    rw [field?, field?, hmember, hitem]
    exact hread _ _ hvalue

theorem required_eq (hagree : Agree field position first second)
    (hread : ∀ json other, field.Respelled json other → read json = read other)
    (hdefault : field.default? = none) :
    first.required position field.name read = second.required position field.name read := by
  have hbind := hagree.bind_eq hread
  rwa [hdefault, Option.or_none, Option.or_none] at hbind

theorem defaulted_eq_bind {default : α} {json : Json} (hdefault : read json = some default)
    (record : Record) (name : String) :
    record.defaulted position name default read =
      ((record.field? position name).or (some json)).bind read := by
  rw [defaulted]
  cases record.field? position name with
  | none => exact hdefault.symm
  | some _ => rfl

theorem defaulted_eq (hagree : Agree field position first second)
    (hread : ∀ json other, field.Respelled json other → read json = read other) {json : Json}
    (hjson : field.default? = some json) {default : α} (hdefault : read json = some default) :
    first.defaulted position field.name default read =
      second.defaulted position field.name default read := by
  have hbind := hagree.bind_eq hread
  rwa [hjson, ← defaulted_eq_bind hdefault, ← defaulted_eq_bind hdefault] at hbind

theorem optional_eq (hagree : Agree field position first second)
    (hread : ∀ json other, field.Respelled json other → nullable? read json = nullable? read other)
    (hnull : field.default? = some .null) :
    first.optional position field.name read = second.optional position field.name read :=
  defaulted_eq hagree hread hnull rfl

theorem nullable_eq (hagree : Agree field position first second)
    (hread : ∀ json other, field.Respelled json other → nullable? read json = nullable? read other)
    (hnull : field.default? = some .null) :
    first.nullable position field.name read = second.nullable position field.name read := by
  have hoptional := hagree.optional_eq hread hnull
  cases hagree with
  | named => exact hoptional
  | listed hitem =>
    have hbind := bind_eq_of_rel hread hitem none
    rwa [Option.or_none, Option.or_none] at hbind
  | rearranged hmember hitem hvalue =>
    rw [nullable, hoptional, nullable, required, optional, defaulted, field?, hitem]
    rfl

end Record.Agree

/-- A reader of records that respects their fields reads all spellings alike. -/
theorem Respelled.read_eq {α : Type} {fields : List Field} {read : Record → Option α}
    {json other : Json} (hspelled : Respelled fields json other)
    (hread : ∀ first second, (∀ position field, fields[position]? = some field →
      Record.Agree field position first second) → read first = read second) :
    Record.of? fields.length json >>= read = Record.of? fields.length other >>= read := by
  cases hspelled with
  | same => rfl
  | record hfirst hsecond hfields =>
    rw [hfirst, hsecond]
    exact hread _ _ hfields

/-! ### Faithful records -/

/-- Whether a field is written in a value: always, or unless it holds its default. -/
def Field.WrittenIn (field : Field) (json : Json) : Prop :=
  if field.isLeftOut then json.member? field.name ≠ field.default?
  else (json.member? field.name).isSome = true

/-- A record type with its writer and its reader keeps its values. Those in range are read back
from what is written for them, from the array of their fields, and from every other spelling. No
value reads differently with a member of an unknown name, or spelled in another way. What is written
holds the fields that are not left out. -/
structure Faithful {α : Type} (fields : List Field) (InRange : α → Prop) (write : α → Json)
    (read : Json → Option α) : Prop where
  read_write : ∀ item, InRange item → read (write item) = some item
  read_listed : ∀ item items, InRange item →
    List.Forall₂ (fun field value ↦ ∃ given,
      ((write item).member? field.name).or field.default? = some given ∧
        field.Respelled given value) fields items →
    read (.array items) = some item
  read_respelled : ∀ item json, InRange item → Respelled fields (write item) json →
    read json = some item
  read_unknown : ∀ name value, (∀ field ∈ fields, name ≠ field.name) → ∀ before after,
    read (.object (before ++ (name, value) :: after)) = read (.object (before ++ after))
  read_eq : ∀ json other, Respelled fields json other → read json = read other
  written : ∀ item, ∀ field ∈ fields, field.WrittenIn (write item)

/-- The array of the fields of a record is a spelling of it. -/
theorem respelled_listed {fields : List Field} {json : Json}
    (hjson : Record.of? fields.length json = some (.named json)) {items : List Json}
    (hitems : List.Forall₂ (fun field value ↦ ∃ given,
      (json.member? field.name).or field.default? = some given ∧
        field.Respelled given value) fields items) :
    Respelled fields json (.array items) := by
  have hlength := hitems.length_eq
  have hlisted : Record.of? fields.length (.array items) = some (.listed items) :=
    if_pos (Nat.le_of_eq hlength.symm)
  refine .record hjson hlisted fun position field hfield ↦ ?_
  obtain ⟨hposition, rfl⟩ := List.getElem?_eq_some_iff.mp hfield
  obtain ⟨given, hmember, hvalue⟩ :=
    (List.forall₂_iff_get.mp hitems).2 position hposition (hlength ▸ hposition)
  exact .rearranged hmember (List.getElem?_eq_getElem _) hvalue

theorem faithful_of {α : Type} {fields : List Field} {InRange : α → Prop} {write : α → Json}
    {read : Json → Option α}
    (hobject : ∀ item, Record.of? fields.length (write item) = some (.named (write item)))
    (hwrite : ∀ item, InRange item → read (write item) = some item)
    (hread : ∀ json other, Respelled fields json other → read json = read other)
    (hrefl : ∀ field ∈ fields, ∀ json, field.Respelled json json)
    (hwritten : ∀ item, ∀ field ∈ fields, field.WrittenIn (write item)) :
    Faithful fields InRange write read := by
  have hspelled : ∀ item json, InRange item → Respelled fields (write item) json →
      read json = some item := by
    intro item json hrange hjson
    rw [← hread _ _ hjson, hwrite item hrange]
  exact {
    read_write := hwrite
    read_listed := fun item items hrange hitems ↦
      hspelled item _ hrange (respelled_listed (hobject item) hitems)
    read_respelled := hspelled
    read_unknown := fun name value hname before after ↦
      (hread _ _ (respelled_unknown hname value hrefl before after)).symm
    read_eq := hread
    written := hwritten }

end CodeTrail.Json
