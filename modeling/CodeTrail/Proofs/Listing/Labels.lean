import CodeTrail.Proofs.Listing.Jumps
import CodeTrail.Proofs.Listing.Rows

/-!
# Labels in the text of a listing

In the text of a listing a jump to a label stands right below the push of its target, and the label
stands in one row only, right above the place where the jump lands. `labelled_disassemble` says so for
every code, and that no label is missing: a jump below a push shows a label as soon as its side of the
text has a place where a jump may land at the offset pushed. It speaks of rows alone.

Three facts about rows carry it. The row above the runtime segment divides the rows as the segments
divide the instructions (`sameSide_placeOf_iff`). Labels are numbered in order, so a name belongs to
one place (`labelNumber_inj`). And a row of some kind belongs to an instruction of that kind:
`getElem?_rows_eq_jumpdest_iff_exists` and `getElem?_rows_eq_label_iff_exists` for the places where a
jump may land and their labels, `exists_pushes_iff_exists` for pushes and `exists_jumpsTo_iff_exists`
for jumps, which show a label exactly where the jump is resolved to a place that has one.
-/

set_option autoImplicit false
set_option relaxedAutoImplicit false

namespace CodeTrail.Listing

open Program (decode)

/-! ### Numbers of labels -/

theorem labelName_injective : Function.Injective labelName := by
  intro first second hname
  have hdigits := congrArg String.toList hname
  rw [labelName, labelName, String.toList_append, String.toList_append] at hdigits
  exact Opcode.toString_injective (String.toList_inj.mp (List.append_cancel_left hdigits))

/-- The number of the label at an index. -/
def labelNumber (program : Program) (index : Nat) : Nat :=
  1 + landings (program.instructions.take index)

section Program

variable {program : Program} {index other : Nat} {instruction next : Instruction}

theorem labelNumber_lt (hinstruction : program.instructions[index]? = some instruction)
    (hlanding : instruction.is "jumpdest" = true) (hlt : index < other) :
    labelNumber program index < labelNumber program other := by
  obtain ⟨rest, hrest⟩ := List.take_prefix_take_left (Nat.succ_le_of_lt hlt) (l := program.instructions)
  rw [labelNumber, labelNumber, ← hrest, List.take_add_one, hinstruction, Option.toList_some,
    landings_append, landings_append, landings_cons, if_pos hlanding]
  omega

/-- No two labels have one number. -/
theorem labelNumber_inj (hinstruction : program.instructions[index]? = some instruction)
    (hlanding : instruction.is "jumpdest" = true)
    (hother : program.instructions[other]? = some next) (hnext : next.is "jumpdest" = true)
    (hnumber : labelNumber program index = labelNumber program other) : index = other := by
  rcases Nat.lt_trichotomy index other with hlt | heq | hgt
  · have hless := labelNumber_lt hinstruction hlanding hlt
    omega
  · exact heq
  · have hless := labelNumber_lt hother hnext hgt
    omega

end Program

/-! ### Annotated instructions -/

section Annotated

variable {text : String} {index : Nat} {instruction shown : Instruction}

/-- What a listing shows of an instruction. -/
structure Annotates (program : Program) (index : Nat) (instruction shown : Instruction) : Prop where
  opcode : shown.opcode = instruction.opcode
  immediate : shown.immediate = instruction.immediate
  comments : shown.comments = commentsAt (prologuesFrom 0 program.instructions) index
  label : shown.label =
    if instruction.is "jumpdest" then some (labelName (labelNumber program index)) else none
  offset : shown.offset.toNat + segmentBase program index = instruction.offset.toNat

/-- Only pushes have an immediate. -/
theorem immediate_eq_none (hinstruction : (decode text).instructions[index]? = some instruction)
    (hname : instruction.opcode.toList.head? ≠ some 'p') : instruction.immediate = none := by
  obtain ⟨chunk, hchunk, rfl⟩ := Program.exists_chunk hinstruction
  have himmediate := (Program.getElem?_of_chunks hchunk).2
  have hsize : chunk.opcode.immediateSize = 0 := by
    by_contra hpush
    rw [Chunk.opcode_instruction, Opcode.mnemonic_eq_push hpush, String.toList_append] at hname
    exact hname rfl
  rw [hsize, List.take_zero] at himmediate
  rw [Chunk.immediate_instruction, if_pos himmediate]

/-- The text of an immediate is one of bytes. -/
theorem exists_marked_of_immediate {content : String}
    (hinstruction : (decode text).instructions[index]? = some instruction)
    (himmediate : instruction.immediate = some content) : ∃ bytes, content = Hex.marked bytes := by
  obtain ⟨chunk, -, rfl⟩ := Program.exists_chunk hinstruction
  rw [Chunk.immediate_instruction, Option.ite_none_left_eq_some] at himmediate
  exact ⟨chunk.immediate, (Option.some.inj himmediate.2).symm⟩

/-- Only jumps have a target. -/
theorem jumpTarget_eq_none (hinstruction : (decode text).instructions[index]? = some instruction)
    (hshown : (of (decode text)).instructions[index]? = some shown)
    (hjump : instruction.isJump = false) : shown.jumpTarget = none := by
  have hstatic (pushed : Instruction) : ¬ StaticJump (decode text) index pushed := by
    intro hstatic
    obtain ⟨jump, hfound, hisJump⟩ := hstatic.exists_jump
    rw [hinstruction] at hfound
    rw [← Option.some.inj hfound, hjump] at hisJump
    cases hisJump
  have htarget : ((of (decode text)).instructions[index]?.bind (·.jumpTarget)) = none :=
    bind_jumpTarget_eq_none hstatic
  rwa [hshown, Option.bind_some] at htarget

/-- Where a jump may land there is no jump. -/
theorem isJump_eq_false_of_is_jumpdest (hlanding : instruction.is "jumpdest" = true) :
    instruction.isJump = false := by
  rw [Instruction.is, beq_iff_eq] at hlanding
  rw [Instruction.isJump, Instruction.is, Instruction.is, hlanding]
  decide

/-- A jump has neither comments nor a label. -/
theorem comments_label_of_isJump (hannotates : Annotates (decode text) index instruction shown)
    (hinstruction : (decode text).instructions[index]? = some instruction)
    (hjump : instruction.isJump = true) : shown.comments = [] ∧ shown.label = none := by
  constructor
  · rw [hannotates.comments, List.eq_nil_iff_forall_not_mem]
    intro comment hcomment
    have hprologue : index ∈ prologuesFrom 0 (decode text).instructions := by
      rcases mem_commentsAt_iff.mp hcomment with ⟨-, hfound⟩ | ⟨-, hfound⟩ <;>
        exact List.mem_of_getElem? hfound
    rw [isJump_eq_false_of_mem_prologuesFrom hprologue hinstruction] at hjump
    cases hjump
  · rw [hannotates.label, if_neg]
    intro hlanding
    rw [isJump_eq_false_of_is_jumpdest hlanding] at hjump
    cases hjump

variable (hsize : (Hex.code text).length ≤ UInt32.size - 33)

include hsize

theorem annotates_annotatedAt
    (hinstruction : (decode text).instructions[index]? = some instruction) :
    Annotates (decode text) index instruction
      (annotatedAt (decode text) index instruction) := by
  obtain ⟨hbound, -⟩ := List.getElem?_eq_some_iff.mp hinstruction
  have hbase : baseAt (splitOf (decode text)) (decode text).instructions index ≤
      instruction.offset := baseAt_le_offset hsize hinstruction
  obtain ⟨chunk, -, hchunk⟩ := Program.exists_chunk hinstruction
  have hcomments : instruction.comments = [] := by rw [hchunk, Chunk.instruction]
  have hlabel : instruction.label = none := by rw [hchunk, Chunk.instruction]
  refine ⟨rfl, rfl, ?_, ?_, ?_⟩
  · rw [annotatedAt, hcomments, List.nil_append]
  · rw [annotatedAt, labelFor, hlabel]
    rfl
  · exact toNat_offset_annotatedAt hbound hbase

/-- Every instruction of a program is shown. -/
theorem exists_shown
    (hinstruction : (decode text).instructions[index]? = some instruction) :
    ∃ shown, (of (decode text)).instructions[index]? = some shown ∧
      Annotates (decode text) index instruction shown := by
  refine ⟨_, ?_, annotates_annotatedAt hsize hinstruction⟩
  rw [getElem?_instructions_of, hinstruction, Option.map_some]

/-- Nothing else is shown. -/
theorem exists_instruction
    (hshown : (of (decode text)).instructions[index]? = some shown) :
    ∃ instruction, (decode text).instructions[index]? = some instruction ∧
      Annotates (decode text) index instruction shown := by
  rw [getElem?_instructions_of] at hshown
  obtain ⟨instruction, hinstruction, rfl⟩ := Option.map_eq_some_iff.mp hshown
  exact ⟨instruction, hinstruction, annotates_annotatedAt hsize hinstruction⟩

/-- A place where a jump may land leaves a place above it for its label. -/
theorem exists_above
    (hinstruction : (decode text).instructions[index]? = some instruction)
    (hlanding : instruction.is "jumpdest" = true) :
    ∃ above, above + 1 = (of (decode text)).placeOf index := by
  obtain ⟨shown, hshown, hannotates⟩ := exists_shown hsize hinstruction
  exact exists_succ_eq_placeOf hshown (by rw [hannotates.label, if_pos hlanding])

end Annotated

/-! ### The row above the runtime segment -/

theorem nodup_commentsAt (prologues : List Nat) (index : Nat) :
    (commentsAt prologues index).Nodup := by
  rw [commentsAt]
  split_ifs <;> decide

section Border

variable {text : String} {index border : Nat} {instruction : Instruction}
  (hsize : (Hex.code text).length ≤ UInt32.size - 33)

include hsize

/-- The row stands among the comments of the instruction that the runtime segment starts with. -/
theorem exists_of_shows_contract
    (hborder : (of (decode text)).Shows border (.comment "Contract")) :
    ∃ inner, (prologuesFrom 0 (decode text).instructions)[1]? = some (splitOf (decode text)) ∧
      (commentsAt (prologuesFrom 0 (decode text).instructions) (splitOf (decode text)))[inner]? =
        some "Contract" ∧
      border = (of (decode text)).startOf (splitOf (decode text)) + inner ∧
      border < (of (decode text)).placeOf (splitOf (decode text)) := by
  cases hborder with
  | @comment index inner shown _ hshown hcomment =>
    obtain ⟨instruction, hinstruction, hannotates⟩ := exists_instruction hsize hshown
    obtain ⟨hinner, -⟩ := List.getElem?_eq_some_iff.mp hcomment
    have habove := startOf_add_lt_placeOf hshown hinner
    rw [hannotates.comments] at hcomment
    have hruntime : (prologuesFrom 0 (decode text).instructions)[1]? = some index := by
      rcases mem_commentsAt_iff.mp (List.mem_of_getElem? hcomment) with ⟨hother, -⟩ | ⟨-, hfound⟩
      · exact absurd hother (by decide)
      · exact hfound
    have hsplit : splitOf (decode text) = index := by
      rw [splitOf, hruntime, Option.getD_some]
    rw [hsplit]
    exact ⟨inner, hruntime, hcomment, rfl, habove⟩

/-- There is at most one such row. -/
theorem border_unique {border' : Nat}
    (hborder : (of (decode text)).Shows border (.comment "Contract"))
    (hborder' : (of (decode text)).Shows border' (.comment "Contract")) : border = border' := by
  obtain ⟨inner, -, hcomment, hplace, -⟩ := exists_of_shows_contract hsize hborder
  obtain ⟨inner', -, hcomment', hplace', -⟩ := exists_of_shows_contract hsize hborder'
  obtain ⟨hinner, -⟩ := List.getElem?_eq_some_iff.mp hcomment
  have hsame : inner = inner' :=
    (List.getElem?_inj hinner (nodup_commentsAt _ _)).mp (hcomment.trans hcomment'.symm)
  rw [hplace, hplace', hsame]

/-- The instructions above the row are those in front of the runtime segment. -/
theorem placeOf_lt_border_iff
    (hborder : (of (decode text)).Shows border (.comment "Contract"))
    (hinstruction : (decode text).instructions[index]? = some instruction) :
    (of (decode text)).placeOf index < border ↔ index < splitOf (decode text) := by
  obtain ⟨inner, hruntime, -, hplace, habove⟩ := exists_of_shows_contract hsize hborder
  obtain ⟨shown, hshown, -⟩ := exists_shown hsize hinstruction
  have hsplit := lt_length_of_mem_prologuesFrom (List.mem_of_getElem? hruntime)
  obtain ⟨start, hstart, -⟩ := exists_shown hsize (List.getElem?_eq_getElem hsplit)
  have horder := placeOf_lt_placeOf_iff hshown hstart
  constructor
  · intro hlt
    exact horder.mp (Nat.lt_trans hlt habove)
  · intro hlt
    have hend := (startOf_le_placeOf hshown).2
    have hmono := startOf_succ_le (of (decode text)) hlt
    omega

/-- Where there is a runtime segment, there is such a row. -/
theorem exists_border
    (hruntime : (prologuesFrom 0 (decode text).instructions)[1]? = some index) :
    ∃ border, (of (decode text)).Shows border (.comment "Contract") := by
  have hindex := lt_length_of_mem_prologuesFrom (List.mem_of_getElem? hruntime)
  obtain ⟨shown, hshown, hannotates⟩ := exists_shown hsize (List.getElem?_eq_getElem hindex)
  have hmem : "Contract" ∈ shown.comments := by
    rw [hannotates.comments]
    exact mem_commentsAt_iff.mpr (.inr ⟨rfl, hruntime⟩)
  obtain ⟨inner, hinner⟩ := List.mem_iff_getElem?.mp hmem
  exact ⟨_, .comment hshown hinner⟩

/-- Rows lie on the same side when their instructions lie in one segment. -/
theorem sameSide_placeOf_iff {other : Nat} {next : Instruction}
    (hinstruction : (decode text).instructions[index]? = some instruction)
    (hnext : (decode text).instructions[other]? = some next) :
    Row.SameSide (rows (disassemble text)) ((of (decode text)).placeOf index)
        ((of (decode text)).placeOf other) ↔
      (of (decode text)).segmentOf other = (of (decode text)).segmentOf index := by
  obtain ⟨hindex, -⟩ := List.getElem?_eq_some_iff.mp hinstruction
  obtain ⟨hother, -⟩ := List.getElem?_eq_some_iff.mp hnext
  rw [segmentOf_eq_iff hindex hother]
  constructor
  · intro hside
    cases hruntime : (prologuesFrom 0 (decode text).instructions)[1]? with
    | none =>
      have hsplit : splitOf (decode text) = (decode text).instructions.length := by
        rw [splitOf, hruntime, Option.getD_none]
      rw [hsplit]
      exact iff_of_true hother hindex
    | some split =>
      obtain ⟨border, hborder⟩ := exists_border hsize hruntime
      have hsame := hside border (getElem?_rows_eq_contract_iff.mpr hborder)
      have hfirst := placeOf_lt_border_iff hsize hborder hinstruction
      have hsecond := placeOf_lt_border_iff hsize hborder hnext
      exact (hsecond.symm.trans hsame.symm).trans hfirst
  · intro hsegment border hborder
    rw [getElem?_rows_eq_contract_iff] at hborder
    have hfirst := placeOf_lt_border_iff hsize hborder hinstruction
    have hsecond := placeOf_lt_border_iff hsize hborder hnext
    exact (hfirst.trans hsegment.symm).trans hsecond.symm

end Border

/-! ### Rows of instructions -/

section Rows

variable {text : String} {index place value number : Nat} {shown : Instruction}
  (hsize : (Hex.code text).length ≤ UInt32.size - 33)

include hsize

/-- A row with a place where a jump may land belongs to such an instruction. -/
theorem getElem?_rows_eq_jumpdest_iff_exists :
    (rows (disassemble text))[place]? = some (Row.jumpdest value) ↔
      ∃ index instruction, (decode text).instructions[index]? = some instruction ∧
        instruction.is "jumpdest" = true ∧ place = (of (decode text)).placeOf index ∧
          instruction.offset.toNat = value + segmentBase (decode text) index := by
  rw [getElem?_rows_eq_jumpdest_iff]
  constructor
  · rintro ⟨offset, hshows, rfl⟩
    obtain ⟨index, shown, hshown, rfl, hopcode, -, -, rfl⟩ := hshows.exists_instruction
    obtain ⟨instruction, hinstruction, hannotates⟩ := exists_instruction hsize hshown
    refine ⟨index, instruction, hinstruction, ?_, rfl, hannotates.offset.symm⟩
    rw [Instruction.is, ← hannotates.opcode, hopcode, beq_self_eq_true]
  · rintro ⟨index, instruction, hinstruction, hlanding, rfl, hoffset⟩
    obtain ⟨shown, hshown, hannotates⟩ := exists_shown hsize hinstruction
    have htarget :=
      jumpTarget_eq_none hinstruction hshown (isJump_eq_false_of_is_jumpdest hlanding)
    rw [Instruction.is, beq_iff_eq] at hlanding
    have himmediate := immediate_eq_none hinstruction (by rw [hlanding]; decide)
    have hshows := Shows.instruction hshown
    rw [hannotates.opcode, hlanding, htarget, hannotates.immediate, himmediate] at hshows
    refine ⟨shown.offset, hshows, ?_⟩
    have hsame := hannotates.offset
    omega

/-- A row with a label belongs to the place where a jump may land that has its number. -/
theorem getElem?_rows_eq_label_iff_exists :
    (rows (disassemble text))[place]? = some (Row.label (labelName number)) ↔
      ∃ index instruction, (decode text).instructions[index]? = some instruction ∧
        instruction.is "jumpdest" = true ∧ place + 1 = (of (decode text)).placeOf index ∧
          number = labelNumber (decode text) index := by
  have hname : IsMarkedWord 'l' (labelName number).toList := isMarkedWord_label number
  rw [getElem?_rows_eq_label_iff hname]
  constructor
  · intro hshows
    generalize hname : labelName number = name at hshows
    cases hshows with
    | @label index _ shown _ hshown hlabel hplace =>
      obtain ⟨instruction, hinstruction, hannotates⟩ := exists_instruction hsize hshown
      rw [hannotates.label] at hlabel
      split_ifs at hlabel with hlanding
      rw [← hname] at hlabel
      exact ⟨index, instruction, hinstruction, hlanding, hplace,
        (labelName_injective (Option.some.inj hlabel)).symm⟩
  · rintro ⟨index, instruction, hinstruction, hlanding, hplace, rfl⟩
    obtain ⟨shown, hshown, hannotates⟩ := exists_shown hsize hinstruction
    exact .label hshown (by rw [hannotates.label, if_pos hlanding]) hplace

/-- A row with a push of one or two bytes belongs to a push of their number. -/
theorem exists_pushes_iff_exists :
    (∃ row ∈ (rows (disassemble text))[place]?, Row.Pushes value row) ↔
      ∃ index instruction bytes, (decode text).instructions[index]? = some instruction ∧
        instruction.isShortPush = true ∧ place = (of (decode text)).placeOf index ∧
          instruction.immediate = some (Hex.marked bytes) ∧ Hex.bigEndian bytes = value := by
  simp only [Option.mem_def, getElem?_rows_eq_some_iff]
  constructor
  · rintro ⟨row, ⟨line, hshows, rfl⟩, hpushes⟩
    obtain ⟨opcode, hopcode, target, digits, offset, hvalue, rfl⟩ :=
      Line.eq_of_pushes hshows.wellFormed hpushes
    obtain ⟨index, shown, hshown, rfl, rfl, -, himmediate, -⟩ := hshows.exists_instruction
    obtain ⟨instruction, hinstruction, hannotates⟩ := exists_instruction hsize hshown
    rw [hannotates.opcode] at hopcode
    rw [hannotates.immediate] at himmediate
    obtain ⟨bytes, hbytes⟩ := exists_marked_of_immediate hinstruction himmediate
    refine ⟨index, instruction, bytes, hinstruction, ?_, rfl, by rw [himmediate, hbytes], ?_⟩
    · simpa [Instruction.isShortPush, Instruction.is] using hopcode
    · exact Line.bigEndian_eq_of_marked hbytes hvalue
  · rintro ⟨index, instruction, bytes, hinstruction, hshort, rfl, himmediate, rfl⟩
    obtain ⟨shown, hshown, hannotates⟩ := exists_shown hsize hinstruction
    have htarget := jumpTarget_eq_none hinstruction hshown (isJump_eq_false_of_isShortPush hshort)
    have hshows := Shows.instruction hshown
    rw [hannotates.opcode, htarget, hannotates.immediate, himmediate] at hshows
    refine ⟨_, ⟨_, hshows, rfl⟩, Line.pushes_body ?_ bytes shown.offset⟩
    simpa [Instruction.isShortPush, Instruction.is] using hshort

/-- A row with a jump belongs to a jump. -/
theorem exists_jumps {row : List Char}
    (hrow : (rows (disassemble text))[place]? = some row) (hjumps : Row.Jumps row) :
    ∃ index instruction, (decode text).instructions[index]? = some instruction ∧
      instruction.isJump = true ∧ place = (of (decode text)).placeOf index := by
  obtain ⟨line, hshows, rfl⟩ := getElem?_rows_eq_some_iff.mp hrow
  obtain ⟨opcode, hopcode, target, immediate, offset, rfl⟩ := Line.eq_of_jumps hshows.wellFormed hjumps
  obtain ⟨index, shown, hshown, rfl, rfl, -⟩ := hshows.exists_instruction
  obtain ⟨instruction, hinstruction, hannotates⟩ := exists_instruction hsize hshown
  refine ⟨index, instruction, hinstruction, ?_, rfl⟩
  rw [hannotates.opcode] at hopcode
  simpa [Instruction.isJump, Instruction.is] using hopcode

/-- A label is that of a place where a jump may land. -/
theorem labelOf?_eq_some_iff {name : String} :
    (of (decode text)).labelOf? index = some name ↔
      ∃ instruction, (decode text).instructions[index]? = some instruction ∧
        instruction.is "jumpdest" = true ∧ name = labelName (labelNumber (decode text) index) := by
  rw [labelOf?, Option.bind_eq_some_iff]
  constructor
  · rintro ⟨shown, hshown, hlabel⟩
    obtain ⟨instruction, hinstruction, hannotates⟩ := exists_instruction hsize hshown
    rw [hannotates.label] at hlabel
    split_ifs at hlabel with hlanding
    exact ⟨instruction, hinstruction, hlanding, (Option.some.inj hlabel).symm⟩
  · rintro ⟨instruction, hinstruction, hlanding, rfl⟩
    obtain ⟨shown, hshown, hannotates⟩ := exists_shown hsize hinstruction
    exact ⟨shown, hshown, by rw [hannotates.label, if_pos hlanding]⟩

/-- The label that is shown with a jump behind a short push. -/
theorem bind_labelOf?_eq_some_iff
    {pushed : Instruction} {bytes : List UInt8} {name : String}
    (hstatic : StaticJump (decode text) index pushed)
    (hbytes : pushed.immediate = some (Hex.marked bytes))
    (hshown : (of (decode text)).instructions[index]? = some shown) :
    shown.jumpTarget.bind (of (decode text)).labelOf? = some name ↔
      ∃ target, LandsOn (decode text) index (Hex.bigEndian bytes) target ∧
        ∃ landing, (decode text).instructions[target]? = some landing ∧
          landing.is "jumpdest" = true ∧ name = labelName (labelNumber (decode text) target) := by
  obtain ⟨bytes', hbytes', -, htarget⟩ := StaticJump.exists_bytes hsize hstatic
  obtain rfl : bytes' = bytes :=
    Hex.marked_injective (Option.some.inj (hbytes'.symm.trans hbytes))
  change ∀ target, (of (decode text)).instructions[index]?.bind (·.jumpTarget) = some target ↔
    LandsOn (decode text) index (Hex.bigEndian bytes') target at htarget
  rw [hshown, Option.bind_some] at htarget
  simp only [Option.bind_eq_some_iff, htarget, labelOf?_eq_some_iff hsize]

/-- What is shown with a jump: it stands behind a short push of some bytes and lands on a place with
a label. -/
structure Resolved (program : Program) (index : Nat) (bytes : List UInt8) (target : Nat) : Prop where
  exists_pushed : ∃ pushed, StaticJump program index pushed ∧
    pushed.immediate = some (Hex.marked bytes)
  landsOn : LandsOn program index (Hex.bigEndian bytes) target
  exists_landing : ∃ landing, program.instructions[target]? = some landing ∧
    landing.is "jumpdest" = true

/-- A row with a jump to a label belongs to a jump that lands on the place with this label. -/
theorem exists_jumpsTo_iff_exists
    {name : String} (hname : IsMarkedWord 'l' name.toList) :
    (∃ row ∈ (rows (disassemble text))[place]?, Row.JumpsTo name row) ↔
      ∃ index bytes target, place = (of (decode text)).placeOf index ∧
        Resolved (decode text) index bytes target ∧
          name = labelName (labelNumber (decode text) target) := by
  simp only [Option.mem_def, getElem?_rows_eq_some_iff]
  constructor
  · rintro ⟨row, ⟨line, hshows, rfl⟩, hjumps⟩
    obtain ⟨opcode, -, immediate, offset, rfl⟩ :=
      Line.eq_of_jumpsTo hshows.wellFormed hname hjumps
    obtain ⟨index, shown, hshown, rfl, -, hlabel, -⟩ := hshows.exists_instruction
    by_cases hstatic : ∃ pushed, StaticJump (decode text) index pushed
    · obtain ⟨pushed, hstatic⟩ := hstatic
      obtain ⟨bytes, hbytes, -⟩ := StaticJump.exists_bytes hsize hstatic
      obtain ⟨target, hlands, landing, hlanding, hjumpdest, rfl⟩ :=
        (bind_labelOf?_eq_some_iff hsize hstatic hbytes hshown).mp hlabel
      exact ⟨index, bytes, target, rfl,
        ⟨⟨pushed, hstatic, hbytes⟩, hlands, landing, hlanding, hjumpdest⟩, rfl⟩
    · have htarget : (of (decode text)).instructions[index]?.bind (·.jumpTarget) = none :=
        bind_jumpTarget_eq_none fun pushed hpushed ↦ hstatic ⟨pushed, hpushed⟩
      rw [hshown, Option.bind_some] at htarget
      rw [htarget] at hlabel
      cases hlabel
  · rintro ⟨index, bytes, target, rfl, ⟨⟨pushed, hstatic, hbytes⟩, hlands, hlanding⟩, rfl⟩
    obtain ⟨landing, hlanding, hjumpdest⟩ := hlanding
    obtain ⟨jump, hjump, hisJump⟩ := hstatic.exists_jump
    obtain ⟨shown, hshown, hannotates⟩ := exists_shown hsize hjump
    have hlabel := (bind_labelOf?_eq_some_iff hsize hstatic hbytes hshown).mpr
      ⟨target, hlands, landing, hlanding, hjumpdest, rfl⟩
    have hopcode : jump.opcode ∈ ["jump", "jumpi"] := by
      simpa [Instruction.isJump, Instruction.is] using hisJump
    have hfirst : ∀ opcode ∈ ["jump", "jumpi"], opcode.toList.head? ≠ some 'p' := by decide
    have himmediate := immediate_eq_none hjump (hfirst jump.opcode hopcode)
    have hshows := Shows.instruction hshown
    rw [hannotates.opcode, hlabel, hannotates.immediate, himmediate] at hshows
    exact ⟨_, ⟨_, hshows, rfl⟩, Line.jumpsTo_body hopcode _ shown.offset⟩

/-- A jump stands right below the push before it. -/
theorem StaticJump.placeOf_eq
    {pushed : Instruction} (hstatic : StaticJump (decode text) index pushed) :
    (of (decode text)).placeOf index = (of (decode text)).placeOf (index - 1) + 1 := by
  obtain ⟨jump, hjump, hisJump⟩ := hstatic.exists_jump
  obtain ⟨shown, hshown, hannotates⟩ := exists_shown hsize hjump
  obtain ⟨before, hbefore, -⟩ := exists_shown hsize hstatic.getElem?_before
  obtain ⟨hcomments, hlabel⟩ := comments_label_of_isJump hannotates hjump hisJump
  have hpos := Nat.sub_add_cancel hstatic.pos
  rw [← hpos] at hshown
  have hplace := placeOf_succ hbefore hshown hcomments hlabel
  rwa [hpos] at hplace

end Rows

/-- The labels in the text of a listing lead from jumps to the places where they land, and none is
missing. Assumes: code that is too short for an offset to wrap around. -/
theorem labelled_disassemble (text : String)
    (hsize : (Hex.code text).length ≤ UInt32.size - 33) :
    Row.Labelled (rows (disassemble text)) where
  border_unique := by
    intro first second hfirst hsecond
    rw [getElem?_rows_eq_contract_iff] at hfirst hsecond
    exact border_unique hsize hfirst hsecond
  lands := by
    intro place name hname hjumps
    obtain ⟨index, bytes, target, rfl, hresolved, rfl⟩ :=
      (exists_jumpsTo_iff_exists hsize hname).mp hjumps
    obtain ⟨pushed, hstatic, hbytes⟩ := hresolved.exists_pushed
    obtain ⟨landing, hlanding, hjumpdest⟩ := hresolved.exists_landing
    obtain ⟨jump, hjump, -⟩ := hstatic.exists_jump
    obtain ⟨hsegment, hoffset⟩ := (landsOn_iff hlanding).mp hresolved.landsOn
    obtain ⟨above, habove⟩ := exists_above hsize hlanding hjumpdest
    refine ⟨(of (decode text)).placeOf (index - 1), above, Hex.bigEndian bytes,
      labelNumber (decode text) target, hstatic.placeOf_eq hsize, rfl, ?_, ?_, ?_, ?_, ?_⟩
    · exact (exists_pushes_iff_exists hsize).mpr ⟨index - 1, pushed, bytes,
        hstatic.getElem?_before, hstatic.isShortPush, rfl, hbytes, rfl⟩
    · exact (getElem?_rows_eq_label_iff_exists hsize).mpr
        ⟨target, landing, hlanding, hjumpdest, habove, rfl⟩
    · intro other hother
      obtain ⟨target', landing', hlanding', hjumpdest', hplace, hnumber⟩ :=
        (getElem?_rows_eq_label_iff_exists hsize).mp hother
      obtain rfl := labelNumber_inj hlanding hjumpdest hlanding' hjumpdest' hnumber
      omega
    · rw [habove]
      exact (getElem?_rows_eq_jumpdest_iff_exists hsize).mpr
        ⟨target, landing, hlanding, hjumpdest, rfl, hoffset⟩
    · rw [habove]
      exact (sameSide_placeOf_iff hsize hjump hlanding).mpr hsegment
  shown := by
    intro before value place hpushes hjumps hplace hside
    obtain ⟨first, pushed, bytes, hpushed, hshort, rfl, hbytes, rfl⟩ :=
      (exists_pushes_iff_exists hsize).mp hpushes
    obtain ⟨row, hrow, hjumps⟩ := hjumps
    obtain ⟨index, jump, hjump, hisJump, hbelow⟩ := exists_jumps hsize hrow hjumps
    obtain ⟨target, landing, hlanding, hjumpdest, rfl, hoffset⟩ :=
      (getElem?_rows_eq_jumpdest_iff_exists hsize).mp hplace
    obtain ⟨shownPush, hshownPush, -⟩ := exists_shown hsize hpushed
    obtain ⟨shownJump, hshownJump, -⟩ := exists_shown hsize hjump
    obtain rfl := eq_succ_of_placeOf_eq hshownPush hshownJump hbelow.symm
    have hstatic : StaticJump (decode text) (first + 1) pushed :=
      ⟨Nat.succ_pos first, hpushed, hshort, jump, hjump, hisJump⟩
    rw [hbelow] at hside ⊢
    have hsegment := (sameSide_placeOf_iff hsize hjump hlanding).mp hside
    have hlands : LandsOn (decode text) (first + 1) (Hex.bigEndian bytes) target :=
      (landsOn_iff hlanding).mpr ⟨hsegment, hoffset⟩
    obtain ⟨above, habove⟩ := exists_above hsize hlanding hjumpdest
    refine ⟨above, labelNumber (decode text) target, habove.symm, ?_, ?_⟩
    · exact (getElem?_rows_eq_label_iff_exists hsize).mpr
        ⟨target, landing, hlanding, hjumpdest, habove, rfl⟩
    · exact (exists_jumpsTo_iff_exists hsize (isMarkedWord_label _)).mpr ⟨first + 1, bytes, target,
        rfl, ⟨⟨pushed, hstatic, hbytes⟩, hlands, landing, hlanding, hjumpdest⟩, rfl⟩

theorem labelled_disassemble_of_jump :
    (rows (disassemble "0x6003565b")).map String.ofList =
        ["  push1 0x03 #0x0", "  jump label1 #0x2", "label1:", "  jumpdest #0x3"] ∧
      Row.Labelled (rows (disassemble "0x6003565b")) := by
  refine ⟨?_, labelled_disassemble "0x6003565b" (by decide +kernel)⟩
  decide +kernel

end CodeTrail.Listing
