import CodeTrail.Proofs.Json.Record
import CodeTrail.Wire.Program

/-!
# Programs kept in JSON

Instructions, programs, listings, expressions and groupings are faithful records. For each of them,
`fields` lists what is declared, `map_member?_toJson` says what stands in each field of a written
value, and `faithful` puts together what follows for the reader. Expressions hold expressions: their
reader takes a number of levels, of which it never runs out (`Expression.ofJson?_eq`), and their
spellings may differ at any depth.
-/

set_option autoImplicit false
set_option relaxedAutoImplicit false

namespace CodeTrail

open Json

namespace Instruction

/-- The declared fields of an instruction. -/
def fields : List Field :=
  [{ name := "opcode" }, { name := "offset" }, { name := "length" }, { name := "stackInputs" },
    { name := "stackOutputs" }, .leftOut "immediateValue" .null, .leftOut "label" .null,
    .leftOut "comments" (.array []), .leftOut "jumpTargetIndex" .null]

/-- The index that a jump lands on fits 64 bits. -/
def InRange (instruction : Instruction) : Prop :=
  ∀ target ∈ instruction.jumpTarget, target < UInt64.size

/-- What stands in each field of a written instruction. -/
theorem map_member?_toJson (instruction : Instruction) :
    fields.map (fun field ↦ instruction.toJson.member? field.name) =
      [some (.string instruction.opcode), some (ofNat instruction.offset.toNat),
        some (ofNat instruction.length.toNat), some (ofNat instruction.stackInputs.toNat),
        some (ofNat instruction.stackOutputs.toNat), instruction.immediate.map .string,
        instruction.label.map .string,
        if instruction.comments.isEmpty then none else some (ofTexts instruction.comments),
        instruction.jumpTarget.map ofNat] := by
  simp [fields, toJson, Field.leftOut, member?_cons, member?_append, member?_optionalMember,
    member?_ite, -List.isEmpty_iff]

theorem ofJson?_toJson (instruction : Instruction) (hrange : instruction.InRange) :
    ofJson? instruction.toJson = some instruction := by
  have hmembers := map_member?_toJson instruction
  simp only [fields, Field.leftOut, List.map_cons, List.cons.injEq] at hmembers
  obtain ⟨hopcode, hoffset, hlength, hinputs, houtputs, himmediate, hlabel, hcomments, htarget, -⟩ :=
    hmembers
  have hrecord : Record.of? 9 instruction.toJson = some (.named instruction.toJson) := rfl
  simp only [ofJson?, hrecord, Option.bind_eq_bind, Option.bind_some,
    Record.required_of_member? 0 hopcode (string?_string _),
    Record.required_of_member? 1 hoffset (uint32?_ofNat _),
    Record.required_of_member? 2 hlength (uint32?_ofNat _),
    Record.required_of_member? 3 hinputs (uint8?_ofNat _),
    Record.required_of_member? 4 houtputs (uint8?_ofNat _),
    Record.optional_of_member? 5 himmediate fun _ _ ↦ nullable?_eq_some (by simp) (string?_string _),
    Record.optional_of_member? 6 hlabel fun _ _ ↦ nullable?_eq_some (by simp) (string?_string _),
    Record.defaulted_of_isEmpty 7 hcomments (list?_ofTexts _),
    Record.optional_of_member? 8 htarget fun _ hmem ↦
      nullable?_eq_some (by simp) (index?_ofNat (hrange _ hmem))]
  rfl

theorem ofJson?_eq_of_respelled (json other : Json) (hspelled : Respelled fields json other) :
    ofJson? json = ofJson? other := by
  refine hspelled.read_eq fun first second hfields ↦ ?_
  refine bind_congr_of_eq ((hfields 0 _ rfl).required_eq (read_eq_of_eq _) rfl) fun _ ↦ ?_
  refine bind_congr_of_eq ((hfields 1 _ rfl).required_eq (read_eq_of_eq _) rfl) fun _ ↦ ?_
  refine bind_congr_of_eq ((hfields 2 _ rfl).required_eq (read_eq_of_eq _) rfl) fun _ ↦ ?_
  refine bind_congr_of_eq ((hfields 3 _ rfl).required_eq (read_eq_of_eq _) rfl) fun _ ↦ ?_
  refine bind_congr_of_eq ((hfields 4 _ rfl).required_eq (read_eq_of_eq _) rfl) fun _ ↦ ?_
  refine bind_congr_of_eq ((hfields 5 _ rfl).optional_eq (read_eq_of_eq _) rfl) fun _ ↦ ?_
  refine bind_congr_of_eq ((hfields 6 _ rfl).optional_eq (read_eq_of_eq _) rfl) fun _ ↦ ?_
  refine bind_congr_of_eq ((hfields 7 _ rfl).defaulted_eq (read_eq_of_eq _) rfl rfl) fun _ ↦ ?_
  exact bind_congr_of_eq ((hfields 8 _ rfl).optional_eq (read_eq_of_eq _) rfl) fun _ ↦ rfl

theorem writtenIn_toJson (instruction : Instruction) :
    ∀ field ∈ fields, field.WrittenIn instruction.toJson := by
  have hmembers := map_member?_toJson instruction
  simp only [fields, Field.leftOut, List.map_cons, List.cons.injEq] at hmembers
  simp [fields, Field.leftOut, Field.WrittenIn, hmembers]

theorem faithful : Faithful fields InRange toJson ofJson? :=
  faithful_of (fun _ ↦ rfl) ofJson?_toJson ofJson?_eq_of_respelled
    (by simp [fields, Field.leftOut]) writtenIn_toJson

end Instruction

namespace Program

/-- The declared field of a program. -/
def fields : List Field :=
  [{ name := "instructions", Respelled := ListRespelled (Json.Respelled Instruction.fields) }]

/-- The instructions are in range. -/
def InRange (program : Program) : Prop :=
  ∀ instruction ∈ program.instructions, instruction.InRange

/-- What stands in the field of a written program. -/
theorem member?_toJson (program : Program) :
    program.toJson.member? "instructions" =
      some (.array (program.instructions.map Instruction.toJson)) :=
  rfl

theorem ofJson?_toJson (program : Program) (hrange : program.InRange) :
    ofJson? program.toJson = some program := by
  have hrecord : Record.of? 1 program.toJson = some (.named program.toJson) := rfl
  have hinstructions := list?_array_map fun instruction hmem ↦
    Instruction.ofJson?_toJson instruction (hrange instruction hmem)
  simp only [ofJson?, hrecord, Option.bind_eq_bind, Option.bind_some,
    Record.required_of_member? 0 (member?_toJson program) hinstructions]
  rfl

theorem ofJson?_eq_of_respelled (json other : Json) (hspelled : Respelled fields json other) :
    ofJson? json = ofJson? other := by
  refine hspelled.read_eq fun first second hfields ↦ ?_
  exact bind_congr_of_eq ((hfields 0 _ rfl).required_eq
    (list?_eq_of_respelled Instruction.ofJson?_eq_of_respelled) rfl) fun _ ↦ rfl

theorem faithful : Faithful fields InRange toJson ofJson? :=
  faithful_of (fun _ ↦ rfl) ofJson?_toJson ofJson?_eq_of_respelled
    (by simpa [fields] using ListRespelled.same)
    (by simp [fields, Field.WrittenIn, member?_toJson])

end Program

namespace Listing

/-- The declared fields of a listing. The start of the runtime segment is null where there is
none. -/
def fields : List Field :=
  [{ name := "instructions", Respelled := ListRespelled (Json.Respelled Instruction.fields) },
    { name := "initMarkers" }, { name := "runtimeStart", default? := some .null }]

/-- The instructions are in range, and the indices fit 64 bits. -/
def InRange (listing : Listing) : Prop :=
  (∀ instruction ∈ listing.instructions, instruction.InRange) ∧
    (∀ index ∈ listing.prologues, index < UInt64.size) ∧
    ∀ index ∈ listing.runtimeStart, index < UInt64.size

/-- What stands in each field of a written listing. -/
theorem map_member?_toJson (listing : Listing) :
    fields.map (fun field ↦ listing.toJson.member? field.name) =
      [some (.array (listing.instructions.map Instruction.toJson)),
        some (.array (listing.prologues.map ofNat)),
        some (ofOption ofNat listing.runtimeStart)] :=
  rfl

theorem ofJson?_toJson (listing : Listing) (hrange : listing.InRange) :
    ofJson? listing.toJson = some listing := by
  obtain ⟨hinstructions, hprologues, hstart⟩ := hrange
  have hmembers := map_member?_toJson listing
  simp only [fields, List.map_cons, List.cons.injEq] at hmembers
  obtain ⟨hinstructionsMember, hprologuesMember, hstartMember, -⟩ := hmembers
  have hrecord : Record.of? 3 listing.toJson = some (.named listing.toJson) := rfl
  simp only [ofJson?, hrecord, Option.bind_eq_bind, Option.bind_some,
    Record.required_of_member? 0 hinstructionsMember (list?_array_map fun instruction hmem ↦
      Instruction.ofJson?_toJson instruction (hinstructions instruction hmem)),
    Record.required_of_member? 1 hprologuesMember (list?_array_map fun index hmem ↦
      index?_ofNat (hprologues index hmem)),
    Record.nullable_of_member? 2 hstartMember fun index hmem ↦
      nullable?_eq_some (by simp) (index?_ofNat (hstart index hmem))]
  rfl

theorem ofJson?_eq_of_respelled (json other : Json) (hspelled : Respelled fields json other) :
    ofJson? json = ofJson? other := by
  refine hspelled.read_eq fun first second hfields ↦ ?_
  refine bind_congr_of_eq ((hfields 0 _ rfl).required_eq
    (list?_eq_of_respelled Instruction.ofJson?_eq_of_respelled) rfl) fun _ ↦ ?_
  refine bind_congr_of_eq ((hfields 1 _ rfl).required_eq (read_eq_of_eq _) rfl) fun _ ↦ ?_
  exact bind_congr_of_eq ((hfields 2 _ rfl).nullable_eq (read_eq_of_eq _) rfl) fun _ ↦ rfl

theorem writtenIn_toJson (listing : Listing) : ∀ field ∈ fields, field.WrittenIn listing.toJson := by
  have hmembers := map_member?_toJson listing
  simp only [fields, List.map_cons, List.cons.injEq] at hmembers
  simp [fields, Field.WrittenIn, hmembers]

theorem faithful : Faithful fields InRange toJson ofJson? :=
  faithful_of (fun _ ↦ rfl) ofJson?_toJson ofJson?_eq_of_respelled
    (by simpa [fields] using ListRespelled.same) writtenIn_toJson

end Listing

namespace Expression

/-- The declared fields of an expression, given which values give the same child. -/
def fieldsOver (Respelled : Json → Json → Prop) : List Field :=
  [{ name := "spanStart" }, { name := "spanEnd" }, { name := "producedCount" },
    { Field.leftOut "children" (.array []) with Respelled := ListRespelled Respelled }]

/-- Two values give the same expression and differ in no more than a number of levels. -/
def RespelledWithin : Nat → Json → Json → Prop
  | 0 => Eq
  | levels + 1 => Json.Respelled (fieldsOver (RespelledWithin levels))

/-- The declared fields of an expression, whose children may differ at any depth. -/
def fields : List Field :=
  fieldsOver fun json other ↦ ∃ levels, RespelledWithin levels json other

mutual

/-- The spans of an expression and of all below it fit 64 bits. -/
def InRange : Expression → Prop
  | ⟨spanStart, spanEnd, _, children⟩ =>
    spanStart < UInt64.size ∧ spanEnd < UInt64.size ∧ AreInRange children

/-- The spans of expressions and of all below them fit 64 bits. -/
def AreInRange : List Expression → Prop
  | [] => True
  | expression :: rest => expression.InRange ∧ AreInRange rest

end

/-! ### Levels -/

/-- The expression that a record is, given a reader of its children. -/
def ofRecord? (read : Json → Option Expression) (record : Record) : Option Expression := do
  let spanStart ← record.required 0 "spanStart" index?
  let spanEnd ← record.required 1 "spanEnd" index?
  let produced ← record.required 2 "producedCount" uint8?
  let children ← record.defaulted 3 "children" [] (list? read)
  return ⟨spanStart, spanEnd, produced, children⟩

theorem ofRecord?_eq {json : Json} {record : Record} (hrecord : Record.of? 4 json = some record)
    {read other : Json → Option Expression}
    (hread : ∀ item, item.height < json.height → read item = other item) :
    ofRecord? read record = ofRecord? other record := by
  have hchildren : record.defaulted 3 "children" [] (list? read) =
      record.defaulted 3 "children" [] (list? other) := by
    rw [Record.defaulted, Record.defaulted]
    cases hfield : record.field? 3 "children" with
    | none => rfl
    | some value =>
      refine list?_eq_of_height fun item hitem ↦ hread item ?_
      exact Nat.lt_trans hitem (height_lt_of_field? hrecord hfield)
  rw [ofRecord?, ofRecord?, hchildren]

/-- More levels than a value has do not matter. -/
theorem ofJsonWithin?_eq_of_le {levels more : Nat} {json : Json} (hlevels : json.height ≤ levels)
    (hmore : json.height ≤ more) : ofJsonWithin? levels json = ofJsonWithin? more json := by
  induction levels generalizing more json with
  | zero => exact absurd hlevels (Nat.not_le_of_lt json.height_pos)
  | succ levels ih =>
    cases more with
    | zero => exact absurd hmore (Nat.not_le_of_lt json.height_pos)
    | succ more =>
      change Record.of? 4 json >>= ofRecord? (ofJsonWithin? levels) =
        Record.of? 4 json >>= ofRecord? (ofJsonWithin? more)
      cases hrecord : Record.of? 4 json with
      | none => rfl
      | some record =>
        exact ofRecord?_eq hrecord fun item hitem ↦ ih (by omega) (by omega)

/-- An expression is read field by field, and its children are read as expressions. -/
theorem ofJson?_eq (json : Json) : ofJson? json = Record.of? 4 json >>= ofRecord? ofJson? := by
  have hpos := json.height_pos
  rw [ofJson?, show json.height = json.height - 1 + 1 by omega]
  change Record.of? 4 json >>= ofRecord? (ofJsonWithin? (json.height - 1)) = _
  cases hrecord : Record.of? 4 json with
  | none => rfl
  | some record =>
    exact ofRecord?_eq hrecord fun item hitem ↦ ofJsonWithin?_eq_of_le (by omega) (Nat.le_refl _)

/-! ### Expressions read back -/

theorem toJsonAll_eq_map (expressions : List Expression) :
    toJsonAll expressions = expressions.map toJson := by
  induction expressions with
  | nil => rfl
  | cons expression rest ih => rw [toJsonAll, ih, List.map_cons]

/-- What stands in each field of a written expression. -/
theorem map_member?_toJson (expression : Expression) :
    fields.map (fun field ↦ expression.toJson.member? field.name) =
      [some (ofNat expression.spanStart), some (ofNat expression.spanEnd),
        some (ofNat expression.produced.toNat),
        if expression.children.isEmpty then none
        else some (.array (expression.children.map toJson))] := by
  obtain ⟨spanStart, spanEnd, produced, children⟩ := expression
  simp [fields, fieldsOver, toJson, toJsonAll_eq_map, Field.leftOut, member?_cons, member?_ite,
    -List.isEmpty_iff]

mutual

theorem ofJson?_toJson : ∀ (expression : Expression), expression.InRange →
    ofJson? expression.toJson = some expression
  | ⟨spanStart, spanEnd, produced, children⟩, hrange => by
    obtain ⟨hstart, hend, hchildren⟩ := hrange
    have hmembers := map_member?_toJson ⟨spanStart, spanEnd, produced, children⟩
    simp only [fields, fieldsOver, Field.leftOut, List.map_cons, List.cons.injEq] at hmembers
    obtain ⟨hstartMember, hendMember, hproducedMember, hchildrenMember, -⟩ := hmembers
    have hrecord : Record.of? 4 (toJson ⟨spanStart, spanEnd, produced, children⟩) =
      some (.named (toJson ⟨spanStart, spanEnd, produced, children⟩)) := rfl
    simp only [ofJson?_eq, ofRecord?, hrecord, Option.bind_eq_bind, Option.bind_some,
      Record.required_of_member? 0 hstartMember (index?_ofNat hstart),
      Record.required_of_member? 1 hendMember (index?_ofNat hend),
      Record.required_of_member? 2 hproducedMember (uint8?_ofNat _),
      Record.defaulted_of_isEmpty 3 hchildrenMember (list?_map_toJson children hchildren)]
    rfl

theorem list?_map_toJson : ∀ (expressions : List Expression), AreInRange expressions →
    list? ofJson? (.array (expressions.map toJson)) = some expressions
  | [], _ => rfl
  | expression :: rest, hrange => by
    have hrest := list?_map_toJson rest hrange.2
    rw [list?] at hrest ⊢
    rw [List.map_cons, List.mapM_cons, ofJson?_toJson expression hrange.1, hrest]
    rfl

end

/-! ### Spellings of expressions -/

theorem ofJson?_eq_of_fieldsOver {Respelled : Json → Json → Prop}
    (hchild : ∀ json other, Respelled json other → ofJson? json = ofJson? other)
    (json other : Json) (hspelled : Json.Respelled (fieldsOver Respelled) json other) :
    ofJson? json = ofJson? other := by
  rw [ofJson?_eq, ofJson?_eq]
  refine hspelled.read_eq fun first second hfields ↦ ?_
  refine bind_congr_of_eq ((hfields 0 _ rfl).required_eq (read_eq_of_eq _) rfl) fun _ ↦ ?_
  refine bind_congr_of_eq ((hfields 1 _ rfl).required_eq (read_eq_of_eq _) rfl) fun _ ↦ ?_
  refine bind_congr_of_eq ((hfields 2 _ rfl).required_eq (read_eq_of_eq _) rfl) fun _ ↦ ?_
  exact bind_congr_of_eq ((hfields 3 _ rfl).defaulted_eq (list?_eq_of_respelled hchild) rfl rfl)
    fun _ ↦ rfl

theorem ofJson?_eq_of_respelledWithin (levels : Nat) :
    ∀ json other, RespelledWithin levels json other → ofJson? json = ofJson? other := by
  induction levels with
  | zero => exact fun _ _ hsame ↦ congrArg ofJson? hsame
  | succ levels ih => exact ofJson?_eq_of_fieldsOver ih

theorem ofJson?_eq_of_respelled (json other : Json) (hspelled : Respelled fields json other) :
    ofJson? json = ofJson? other :=
  ofJson?_eq_of_fieldsOver
    (fun json other ⟨levels, hwithin⟩ ↦ ofJson?_eq_of_respelledWithin levels json other hwithin)
    json other hspelled

theorem writtenIn_toJson (expression : Expression) :
    ∀ field ∈ fields, field.WrittenIn expression.toJson := by
  have hmembers := map_member?_toJson expression
  simp only [fields, fieldsOver, Field.leftOut, List.map_cons, List.cons.injEq] at hmembers
  simp [fields, fieldsOver, Field.leftOut, Field.WrittenIn, hmembers]

theorem faithful : Faithful fields InRange toJson ofJson? :=
  faithful_of (fun ⟨_, _, _, _⟩ ↦ rfl) ofJson?_toJson ofJson?_eq_of_respelled
    (by simpa [fields, fieldsOver, Field.leftOut] using ListRespelled.same) writtenIn_toJson

end Expression

namespace Grouping

/-- The declared fields of a grouping. -/
def fields : List Field :=
  [{ name := "stacks" },
    { name := "nodes", Respelled := ListRespelled (Json.Respelled Expression.fields) }]

/-- The expressions are in range. -/
def InRange (grouping : Grouping) : Prop :=
  Expression.AreInRange grouping.expressions

/-- What stands in each field of a written grouping. -/
theorem map_member?_toJson (grouping : Grouping) :
    fields.map (fun field ↦ grouping.toJson.member? field.name) =
      [some (.array (grouping.pictures.map ofTexts)),
        some (.array (grouping.expressions.map Expression.toJson))] := by
  rw [← Expression.toJsonAll_eq_map]
  rfl

theorem ofJson?_toJson (grouping : Grouping) (hrange : grouping.InRange) :
    ofJson? grouping.toJson = some grouping := by
  have hmembers := map_member?_toJson grouping
  simp only [fields, List.map_cons, List.cons.injEq] at hmembers
  obtain ⟨hpictures, hexpressions, -⟩ := hmembers
  have hrecord : Record.of? 2 grouping.toJson = some (.named grouping.toJson) := rfl
  simp only [ofJson?, hrecord, Option.bind_eq_bind, Option.bind_some,
    Record.required_of_member? 0 hpictures (list?_array_map fun picture _ ↦ list?_ofTexts picture),
    Record.required_of_member? 1 hexpressions (Expression.list?_map_toJson _ hrange)]
  rfl

theorem ofJson?_eq_of_respelled (json other : Json) (hspelled : Respelled fields json other) :
    ofJson? json = ofJson? other := by
  refine hspelled.read_eq fun first second hfields ↦ ?_
  refine bind_congr_of_eq ((hfields 0 _ rfl).required_eq (read_eq_of_eq _) rfl) fun _ ↦ ?_
  exact bind_congr_of_eq ((hfields 1 _ rfl).required_eq
    (list?_eq_of_respelled Expression.ofJson?_eq_of_respelled) rfl) fun _ ↦ rfl

theorem writtenIn_toJson (grouping : Grouping) :
    ∀ field ∈ fields, field.WrittenIn grouping.toJson := by
  have hmembers := map_member?_toJson grouping
  simp only [fields, List.map_cons, List.cons.injEq] at hmembers
  simp [fields, Field.WrittenIn, hmembers]

theorem faithful : Faithful fields InRange toJson ofJson? :=
  faithful_of (fun _ ↦ rfl) ofJson?_toJson ofJson?_eq_of_respelled
    (by simpa [fields] using ListRespelled.same) writtenIn_toJson

end Grouping

end CodeTrail
