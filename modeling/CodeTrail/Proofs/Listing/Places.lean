import CodeTrail.Program.Text
import Mathlib.Data.List.Basic

/-!
# Where the lines of a listing stand

The lines of an instruction are its comments, its label and its own line, and the lines of a listing
are those of its instructions one after the other. `Shows` says which line stands at a place, seen
from the instruction it belongs to, and `getElem?_lines_eq_some_iff` says that this is how the lines
of a listing stand. `placeOf` is the place of the own line of an instruction; it grows with the index
(`placeOf_lt_placeOf`), the lines that an instruction has besides its own stand right above that one,
and so an instruction without comments and label stands right below the one before it
(`placeOf_succ`).
-/

set_option autoImplicit false
set_option relaxedAutoImplicit false

namespace CodeTrail

/-! ### Lists of blocks -/

section Blocks

variable {α β : Type} (block : α → List β) {items : List α} {item : α} {index : Nat}

/-- The place where the block of an item starts in the list of all blocks. -/
def blockStart (items : List α) (index : Nat) : Nat :=
  ((items.take index).flatMap block).length

theorem blockStart_succ (hitem : items[index]? = some item) :
    blockStart block items (index + 1) = blockStart block items index + (block item).length := by
  rw [blockStart, blockStart, List.take_add_one, hitem, Option.toList_some, List.flatMap_append,
    List.length_append, List.flatMap_singleton]

theorem blockStart_mono {other : Nat} (hle : index ≤ other) :
    blockStart block items index ≤ blockStart block items other := by
  obtain ⟨rest, hrest⟩ := List.take_prefix_take_left hle (l := items)
  rw [blockStart, blockStart, ← hrest, List.flatMap_append, List.length_append]
  exact Nat.le_add_right _ _

/-- An element of a list of blocks stands inside the block of one item. -/
theorem getElem?_flatMap_eq_some_iff {place : Nat} {element : β} :
    (items.flatMap block)[place]? = some element ↔
      ∃ index item inner, items[index]? = some item ∧ (block item)[inner]? = some element ∧
        place = blockStart block items index + inner := by
  induction items generalizing place with
  | nil => simp
  | cons first rest ih =>
    have hstart (index : Nat) : blockStart block (first :: rest) (index + 1) =
        (block first).length + blockStart block rest index := by
      rw [blockStart, List.take_succ_cons, List.flatMap_cons, List.length_append, blockStart]
    rw [List.flatMap_cons, List.getElem?_append]
    constructor
    · split_ifs with hfirst
      · intro helement
        exact ⟨0, first, place, rfl, helement, by simp [blockStart]⟩
      · intro helement
        obtain ⟨index, item, inner, hitem, hinner, hplace⟩ := ih.mp helement
        exact ⟨index + 1, item, inner, hitem, hinner, by rw [hstart]; omega⟩
    · rintro ⟨index, item, inner, hitem, hinner, rfl⟩
      obtain ⟨hbound, -⟩ := List.getElem?_eq_some_iff.mp hinner
      cases index with
      | zero =>
        obtain rfl : first = item := Option.some.inj hitem
        rw [blockStart, List.take_zero, List.flatMap_nil, List.length_nil, Nat.zero_add,
          if_pos hbound, hinner]
      | succ index =>
        rw [hstart, if_neg (by omega)]
        exact ih.mpr ⟨index, item, inner, hitem, hinner, by omega⟩

end Blocks

namespace Listing

theorem lines_eq (listing : Listing) :
    listing.lines = listing.instructions.flatMap (linesOf listing.labelOf?) := by
  unfold lines labelOf?
  simp only [List.getElem?_toArray]

/-- The place where the lines of an instruction start. -/
def startOf (listing : Listing) (index : Nat) : Nat :=
  blockStart (linesOf listing.labelOf?) listing.instructions index

/-- The place of the own line of an instruction, the last of its lines. -/
def placeOf (listing : Listing) (index : Nat) : Nat :=
  listing.startOf (index + 1) - 1

/-- The line that stands at a place of a listing. -/
inductive Shows (listing : Listing) : Nat → Line → Prop
  | comment {index inner : Nat} {instruction : Instruction} {text : String}
    (hinstruction : listing.instructions[index]? = some instruction)
    (hcomment : instruction.comments[inner]? = some text) :
    Shows listing (listing.startOf index + inner) (.comment text)
  | label {index place : Nat} {instruction : Instruction} {name : String}
    (hinstruction : listing.instructions[index]? = some instruction)
    (hlabel : instruction.label = some name) (hplace : place + 1 = listing.placeOf index) :
    Shows listing place (.label name)
  | instruction {index : Nat} {instruction : Instruction}
    (hinstruction : listing.instructions[index]? = some instruction) :
    Shows listing (listing.placeOf index) (.instruction instruction.opcode
      (instruction.jumpTarget.bind listing.labelOf?) instruction.immediate instruction.offset)

theorem length_linesOf (labelAt : Nat → Option String) (instruction : Instruction) :
    (linesOf labelAt instruction).length =
      instruction.comments.length + instruction.label.toList.length + 1 := by
  cases hlabel : instruction.label <;> simp [linesOf, hlabel]

/-- The lines of an instruction: comments, label and its own line, the label last but one. -/
theorem getElem?_linesOf_eq_some_iff {labelAt : Nat → Option String} {instruction : Instruction}
    {inner : Nat} {line : Line} :
    (linesOf labelAt instruction)[inner]? = some line ↔
      (∃ text, line = .comment text ∧ instruction.comments[inner]? = some text) ∨
        (∃ name, line = .label name ∧ instruction.label = some name ∧
          inner + 2 = (linesOf labelAt instruction).length) ∨
        line = .instruction instruction.opcode (instruction.jumpTarget.bind labelAt)
            instruction.immediate instruction.offset ∧
          inner + 1 = (linesOf labelAt instruction).length := by
  rw [length_linesOf, linesOf, List.append_assoc, List.getElem?_append, List.length_map, List.getElem?_map]
  by_cases hcomment : inner < instruction.comments.length
  · have hlabel (name : String) (hname : instruction.label = some name) : ¬ inner + 2 =
        instruction.comments.length + instruction.label.toList.length + 1 := by
      rw [hname, Option.toList_some, List.length_singleton]
      omega
    rw [if_pos hcomment, Option.map_eq_some_iff]
    constructor
    · rintro ⟨text, htext, rfl⟩
      exact Or.inl ⟨text, rfl, htext⟩
    · rintro (⟨text, rfl, htext⟩ | ⟨name, -, hname, hplace⟩ | ⟨-, hplace⟩)
      · exact ⟨text, htext, rfl⟩
      · exact (hlabel name hname hplace).elim
      · omega
  · obtain ⟨rest, rfl⟩ := Nat.exists_eq_add_of_le (Nat.le_of_not_lt hcomment)
    have hnone : instruction.comments[instruction.comments.length + rest]? = none :=
      List.getElem?_eq_none (Nat.le_add_right _ _)
    rw [if_neg hcomment, Nat.add_sub_cancel_left, hnone]
    cases instruction.label with
    | none =>
      cases rest with
      | zero => simp [eq_comm]
      | succ rest => simp
    | some name =>
      match rest with
      | 0 => simp [eq_comm]
      | 1 => simp [eq_comm]
      | rest + 2 => simp

/-! ### Places of instructions -/

section Places

variable {listing : Listing} {index place : Nat} {instruction : Instruction} {line : Line}

theorem startOf_succ_le (listing : Listing) {other : Nat} (hlt : index < other) :
    listing.startOf (index + 1) ≤ listing.startOf other :=
  blockStart_mono _ hlt

/-- The lines of an instruction end with its own line. -/
theorem startOf_succ (hinstruction : listing.instructions[index]? = some instruction) :
    listing.startOf (index + 1) =
      listing.startOf index + (linesOf listing.labelOf? instruction).length :=
  blockStart_succ _ hinstruction

theorem startOf_le_placeOf (hinstruction : listing.instructions[index]? = some instruction) :
    listing.startOf index ≤ listing.placeOf index ∧
      listing.placeOf index + 1 = listing.startOf (index + 1) := by
  rw [placeOf, startOf_succ hinstruction, length_linesOf]
  omega

/-- Comments stand above the own line of their instruction. -/
theorem startOf_add_lt_placeOf {inner : Nat}
    (hinstruction : listing.instructions[index]? = some instruction)
    (hcomment : inner < instruction.comments.length) :
    listing.startOf index + inner < listing.placeOf index := by
  rw [placeOf, startOf_succ hinstruction, length_linesOf]
  omega

/-- A label leaves a place above the own line of its instruction. -/
theorem exists_succ_eq_placeOf {name : String}
    (hinstruction : listing.instructions[index]? = some instruction)
    (hlabel : instruction.label = some name) : ∃ above, above + 1 = listing.placeOf index := by
  rw [placeOf, startOf_succ hinstruction, length_linesOf, hlabel, Option.toList_some,
    List.length_singleton]
  exact ⟨listing.startOf index + instruction.comments.length, by omega⟩

/-- Own lines stand in the order of their instructions. -/
theorem placeOf_lt_placeOf {other : Nat} {later : Instruction}
    (hinstruction : listing.instructions[index]? = some instruction)
    (hlater : listing.instructions[other]? = some later) (hlt : index < other) :
    listing.placeOf index < listing.placeOf other := by
  have hfirst := startOf_le_placeOf hinstruction
  have hsecond := startOf_le_placeOf hlater
  have hmono := startOf_succ_le listing hlt
  omega

theorem placeOf_lt_placeOf_iff {other : Nat} {later : Instruction}
    (hinstruction : listing.instructions[index]? = some instruction)
    (hlater : listing.instructions[other]? = some later) :
    listing.placeOf index < listing.placeOf other ↔ index < other := by
  refine ⟨fun hplace ↦ ?_, placeOf_lt_placeOf hinstruction hlater⟩
  by_contra hle
  rcases Nat.eq_or_lt_of_le (Nat.le_of_not_lt hle) with heq | hlt
  · rw [heq] at hplace
    exact Nat.lt_irrefl _ hplace
  · exact Nat.lt_asymm hplace (placeOf_lt_placeOf hlater hinstruction hlt)

/-- Own lines right below each other belong to instructions behind each other. -/
theorem eq_succ_of_placeOf_eq {other : Nat} {later : Instruction}
    (hinstruction : listing.instructions[index]? = some instruction)
    (hlater : listing.instructions[other]? = some later)
    (hplace : listing.placeOf other = listing.placeOf index + 1) : other = index + 1 := by
  have hlt := (placeOf_lt_placeOf_iff hinstruction hlater).mp (by omega)
  by_contra hne
  obtain ⟨hbound, -⟩ := List.getElem?_eq_some_iff.mp hlater
  have hnext : index + 1 < listing.instructions.length := by omega
  have hfirst := placeOf_lt_placeOf hinstruction (List.getElem?_eq_getElem hnext)
    (Nat.lt_succ_self index)
  have hsecond := placeOf_lt_placeOf (List.getElem?_eq_getElem hnext) hlater (by omega)
  omega

/-- Without comments and label, an own line stands right below the one before. -/
theorem placeOf_succ {next : Instruction}
    (hinstruction : listing.instructions[index]? = some instruction)
    (hnext : listing.instructions[index + 1]? = some next) (hcomments : next.comments = [])
    (hlabel : next.label = none) :
    listing.placeOf (index + 1) = listing.placeOf index + 1 := by
  have hlength : (linesOf listing.labelOf? next).length = 1 := by
    rw [length_linesOf, hcomments, hlabel]
    rfl
  have hfirst := startOf_le_placeOf hinstruction
  have hsecond := startOf_le_placeOf hnext
  have hsucc := startOf_succ hnext
  omega

/-- The lines of a listing stand where they are shown. -/
theorem getElem?_lines_eq_some_iff : listing.lines[place]? = some line ↔ listing.Shows place line := by
  have hlast {index : Nat} {instruction : Instruction}
      (hinstruction : listing.instructions[index]? = some instruction) :
      listing.placeOf index + 1 =
        listing.startOf index + (linesOf listing.labelOf? instruction).length := by
    rw [← startOf_succ hinstruction, (startOf_le_placeOf hinstruction).2]
  rw [lines_eq, getElem?_flatMap_eq_some_iff]
  change (∃ index item inner, listing.instructions[index]? = some item ∧ _ ∧
    place = listing.startOf index + inner) ↔ _
  constructor
  · rintro ⟨index, instruction, inner, hinstruction, hline, rfl⟩
    have hplace := hlast hinstruction
    rcases getElem?_linesOf_eq_some_iff.mp hline with
      ⟨text, rfl, htext⟩ | ⟨name, rfl, hname, hinner⟩ | ⟨rfl, hinner⟩
    · exact .comment hinstruction htext
    · exact .label hinstruction hname (by omega)
    · rw [← hinner, ← Nat.add_assoc] at hplace
      rw [← Nat.succ.inj hplace]
      exact .instruction hinstruction
  · intro hshows
    cases hshows with
    | @comment index inner instruction text hinstruction hcomment =>
      exact ⟨index, instruction, inner, hinstruction,
        getElem?_linesOf_eq_some_iff.mpr (.inl ⟨text, rfl, hcomment⟩), rfl⟩
    | @label index _ instruction name hinstruction hlabel habove =>
      have hplace := hlast hinstruction
      rw [length_linesOf, hlabel, Option.toList_some, List.length_singleton] at hplace
      refine ⟨index, instruction, instruction.comments.length, hinstruction, ?_, by omega⟩
      refine getElem?_linesOf_eq_some_iff.mpr (.inr (.inl ⟨name, rfl, hlabel, ?_⟩))
      rw [length_linesOf, hlabel, Option.toList_some, List.length_singleton]
    | @instruction index instruction hinstruction =>
      have hplace := hlast hinstruction
      have hlength := length_linesOf listing.labelOf? instruction
      refine ⟨index, instruction, (linesOf listing.labelOf? instruction).length - 1, hinstruction,
        getElem?_linesOf_eq_some_iff.mpr (.inr (.inr ⟨rfl, by omega⟩)), by omega⟩

/-- The line of an instruction stands at the place of one that reads like it. -/
theorem Shows.exists_instruction {opcode : String} {target immediate : Option String}
    {offset : UInt32} (hshows : listing.Shows place (.instruction opcode target immediate offset)) :
    ∃ index instruction, listing.instructions[index]? = some instruction ∧
      place = listing.placeOf index ∧ instruction.opcode = opcode ∧
        instruction.jumpTarget.bind listing.labelOf? = target ∧
          instruction.immediate = immediate ∧ instruction.offset = offset := by
  generalize hline : Line.instruction opcode target immediate offset = line at hshows
  cases hshows with
  | comment => cases hline
  | label => cases hline
  | @instruction index instruction hinstruction =>
    obtain ⟨rfl, rfl, rfl, rfl⟩ := Line.instruction.inj hline
    exact ⟨index, instruction, hinstruction, rfl, rfl, rfl, rfl, rfl⟩

end Places

end Listing

end CodeTrail
