import CodeTrail.Proofs.Listing.Labels
import CodeTrail.Proofs.Program.Positions

/-!
# Labels stand where a jump may land

A jump may land on a code position whose byte marks it so. `labels_of_decode` says that these are the
positions that get a label, as far as the program reaches: its instructions start exactly at the code
positions, the one at a position is a landing place exactly if the byte there says so
(`is_jumpdest_iff`), and a byte that is pushed is no position. The labels count the marked positions
in their order, because the number of a label is the number of landing places up to it
(`labelledAt_iff_getElem?`).
-/

set_option autoImplicit false
set_option relaxedAutoImplicit false

namespace CodeTrail.Listing

open Opcode (pushSize)
open Program (decode ofBytes StartsAt)

/-- The instruction of a program that starts at a position has a label in the listing. -/
def LabelledAt (program : Program) (position : Nat) (label : String) : Prop :=
  ∃ (index : Nat) (instruction shown : Instruction),
    program.instructions[index]? = some instruction ∧ instruction.offset.toNat = position ∧
      (of program).instructions[index]? = some shown ∧ shown.label = some label

/-- Of the elements of a kind, the one with a number is the one that has as many before it. -/
theorem getElem?_filter_eq_some_iff {α : Type} {kind : α → Bool} {items : List α} {item : α}
    {number : Nat} :
    (items.filter kind)[number]? = some item ↔
      ∃ index, items[index]? = some item ∧ kind item = true ∧
        (items.take index).countP kind = number := by
  induction items generalizing number with
  | nil => simp
  | cons first rest ih =>
    have hcount (index : Nat) : ((first :: rest).take (index + 1)).countP kind =
        (rest.take index).countP kind + if kind first = true then 1 else 0 :=
      List.countP_cons
    constructor
    · intro hitem
      by_cases hfirst : kind first = true
      · rw [List.filter_cons_of_pos hfirst] at hitem
        cases number with
        | zero =>
          obtain rfl : first = item := Option.some.inj hitem
          exact ⟨0, rfl, hfirst, rfl⟩
        | succ number =>
          obtain ⟨index, hindex, hkind, hnumber⟩ := ih.mp hitem
          exact ⟨index + 1, hindex, hkind, by rw [hcount, if_pos hfirst, hnumber]⟩
      · rw [List.filter_cons_of_neg hfirst] at hitem
        obtain ⟨index, hindex, hkind, hnumber⟩ := ih.mp hitem
        exact ⟨index + 1, hindex, hkind, by rw [hcount, if_neg hfirst, hnumber, Nat.add_zero]⟩
    · rintro ⟨index, hindex, hkind, rfl⟩
      cases index with
      | zero =>
        obtain rfl : first = item := Option.some.inj hindex
        rw [List.filter_cons_of_pos hkind]
        rfl
      | succ index =>
        rw [hcount]
        have htail := ih.mpr ⟨index, hindex, hkind, rfl⟩
        split_ifs with hfirst
        · rwa [List.filter_cons_of_pos hfirst, List.getElem?_cons_succ]
        · rwa [List.filter_cons_of_neg hfirst]

/-- A landing place is told by the byte at its position. -/
theorem is_jumpdest_iff {code : List UInt8} (hsize : code.length ≤ UInt32.size - 33)
    {instruction : Instruction} (hinstruction : instruction ∈ (ofBytes code).instructions) :
    instruction.is "jumpdest" = true ↔ code[instruction.offset.toNat]? = some 0x5b := by
  have hname : Opcode.jumpdest.mnemonic = "jumpdest" :=
    Opcode.mnemonic_of_entry?_eq_some Opcode.entry?_jumpdest
  obtain ⟨hshown, -⟩ := (Program.laidOut_ofBytes hsize).shows instruction hinstruction
  obtain ⟨byte, hbyte, hopcode⟩ := Option.map_eq_some_iff.mp hshown
  rw [hbyte, Option.some.injEq, Instruction.is, beq_iff_eq, ← hopcode, ← hname,
    Opcode.mnemonic_injective.eq_iff]
  exact ⟨congrArg Opcode.byte, Opcode.ext⟩

/-- The positions of the landing places of a program, in order. -/
def landingPositions (program : Program) : List Nat :=
  (program.instructions.filter (·.is "jumpdest")).map (·.offset.toNat)

theorem pairwise_landingPositions {code : List UInt8} (hsize : code.length ≤ UInt32.size - 33) :
    (landingPositions (ofBytes code)).Pairwise (· < ·) := by
  have hoffsets : (ofBytes code).instructions.Pairwise fun first second ↦
      first.offset.toNat < second.offset.toNat := by
    rw [List.pairwise_iff_getElem]
    intro first second hfirst hsecond hlt
    exact Program.offset_lt_offset hsize (List.getElem?_eq_getElem hfirst)
      (List.getElem?_eq_getElem hsecond) hlt
  exact List.pairwise_map.mpr (hoffsets.filter _)

section Landings

variable {text : String} {position : Nat} {label : String}
  (hsize : (Hex.code text).length ≤ UInt32.size - 33)

include hsize

/-- Labels stand at landing places, and count them. -/
theorem labelledAt_iff :
    LabelledAt (decode text) position label ↔
      ∃ index instruction, (decode text).instructions[index]? = some instruction ∧
        instruction.is "jumpdest" = true ∧ instruction.offset.toNat = position ∧
          label = labelName (labelNumber (decode text) index) := by
  constructor
  · rintro ⟨index, instruction, shown, hinstruction, hoffset, hshown, hlabel⟩
    obtain ⟨instruction', hinstruction', hannotates⟩ := exists_instruction hsize hshown
    obtain rfl : instruction = instruction' :=
      Option.some.inj (hinstruction.symm.trans hinstruction')
    rw [hannotates.label, Option.ite_none_right_eq_some, Option.some.injEq] at hlabel
    exact ⟨index, instruction, hinstruction, hlabel.1, hoffset, hlabel.2.symm⟩
  · rintro ⟨index, instruction, hinstruction, hlanding, hoffset, rfl⟩
    obtain ⟨shown, hshown, hannotates⟩ := exists_shown hsize hinstruction
    exact ⟨index, instruction, shown, hinstruction, hoffset, hshown,
      by rw [hannotates.label, if_pos hlanding]⟩

/-- The labels number the positions of the landing places from one on. -/
theorem labelledAt_iff_getElem? :
    LabelledAt (decode text) position label ↔
      ∃ number, (landingPositions (decode text))[number]? = some position ∧
        label = labelName (number + 1) := by
  rw [labelledAt_iff hsize]
  simp only [landingPositions, List.getElem?_map, Option.map_eq_some_iff,
    getElem?_filter_eq_some_iff]
  constructor
  · rintro ⟨index, instruction, hinstruction, hlanding, hoffset, rfl⟩
    refine ⟨_, ⟨instruction, ⟨index, hinstruction, hlanding, rfl⟩, hoffset⟩, ?_⟩
    rw [labelNumber, Nat.add_comm, landings]
  · rintro ⟨number, ⟨instruction, ⟨index, hinstruction, hlanding, rfl⟩, hoffset⟩, rfl⟩
    refine ⟨index, instruction, hinstruction, hlanding, hoffset, ?_⟩
    rw [labelNumber, Nat.add_comm, landings]

/-- A label stands at the start of an instruction where the byte marks a landing place. -/
theorem exists_labelledAt_iff :
    (∃ label, LabelledAt (decode text) position label) ↔
      StartsAt (decode text) position ∧ (Hex.code text)[position]? = some 0x5b := by
  simp only [labelledAt_iff hsize]
  constructor
  · rintro ⟨_, index, instruction, hinstruction, hlanding, rfl, -⟩
    have hmem := List.mem_of_getElem? hinstruction
    exact ⟨⟨instruction, hmem, rfl⟩, (is_jumpdest_iff hsize hmem).mp hlanding⟩
  · rintro ⟨⟨instruction, hmem, rfl⟩, hbyte⟩
    obtain ⟨index, hinstruction⟩ := List.mem_iff_getElem?.mp hmem
    exact ⟨_, index, instruction, hinstruction, (is_jumpdest_iff hsize hmem).mpr hbyte, rfl, rfl⟩

end Landings

/-- The labels of a decoded program. Assumes: code that is too short for an offset to wrap around. As far
as the program reaches into its code, an instruction starts at a position exactly if that is a code
position, and has a label exactly if moreover the byte there marks a landing place. No label stands in
the bytes that a push carries. The labels number their positions in order, from one on. -/
theorem labels_of_decode (text : String) (hsize : (Hex.code text).length ≤ UInt32.size - 33) :
    (∀ position < min (decode text).extent (Hex.code text).length,
        (StartsAt (decode text) position ↔ CodePosition (Hex.code text) position) ∧
          ((∃ label, LabelledAt (decode text) position label) ↔
            CodePosition (Hex.code text) position ∧ (Hex.code text)[position]? = some 0x5b)) ∧
      (∀ position byte inner, CodePosition (Hex.code text) position →
        (Hex.code text)[position]? = some byte → 0 < inner → inner ≤ pushSize byte →
          ¬ StartsAt (decode text) (position + inner) ∧
            ∀ label, ¬ LabelledAt (decode text) (position + inner) label) ∧
      ∃ positions : List Nat, positions.Pairwise (· < ·) ∧
        ∀ position label, LabelledAt (decode text) position label ↔
          ∃ number, positions[number]? = some position ∧
            label = "label" ++ toString (number + 1) := by
  refine ⟨fun position hposition ↦ ?_, fun position byte inner hcode hbyte hpos hpushed ↦ ?_,
    landingPositions (decode text), pairwise_landingPositions hsize,
    fun position label ↦ labelledAt_iff_getElem? hsize⟩
  · have hstarts : StartsAt (decode text) position ↔ CodePosition (Hex.code text) position :=
      Program.startsAt_iff hsize (Nat.lt_of_lt_of_le hposition (Nat.min_le_left _ _))
    rw [exists_labelledAt_iff hsize, hstarts]
    exact ⟨Iff.rfl, Iff.rfl⟩
  · have hstarts : ¬ StartsAt (decode text) (position + inner) := fun hstarts ↦
      not_codePosition_of_pushed hcode hbyte hpos hpushed (hstarts.codePosition hsize)
    exact ⟨hstarts, fun label hlabel ↦
      hstarts ((exists_labelledAt_iff hsize).mp ⟨label, hlabel⟩).1⟩

/-- A landing place behind a push that carries the byte of one, and in front of a push that lacks a byte
and carries two of them. -/
theorem labels_of_decode_beside_pushed_bytes :
    (Hex.code "0x605b5b625b5b").length ≤ UInt32.size - 33 ∧
      (∃ label, LabelledAt (decode "0x605b5b625b5b") 2 label) ∧
      CodePosition (Hex.code "0x605b5b625b5b") 3 ∧
      (Hex.code "0x605b5b625b5b")[5]? = some 0x5b ∧
      ∀ label, ¬ LabelledAt (decode "0x605b5b625b5b") 5 label := by
  have hcode : Hex.code "0x605b5b625b5b" = [0x60, 0x5b, 0x5b, 0x62, 0x5b, 0x5b] := by
    decide +kernel
  have hextent : (decode "0x605b5b625b5b").extent = 7 := by decide +kernel
  have hsize : (Hex.code "0x605b5b625b5b").length ≤ UInt32.size - 33 := by
    rw [hcode]
    decide
  obtain ⟨hpositions, hpushed, -⟩ := labels_of_decode "0x605b5b625b5b" hsize
  rw [hcode, hextent] at hpositions
  rw [hcode] at hpushed hsize ⊢
  have hlanding : CodePosition [0x60, 0x5b, 0x5b, 0x62, 0x5b, 0x5b] 2 :=
    .next (.first (List.cons_ne_nil _ _)) rfl (by decide)
  have hpush : CodePosition [0x60, 0x5b, 0x5b, 0x62, 0x5b, 0x5b] 3 :=
    .next hlanding rfl (by decide)
  exact ⟨hsize, (hpositions 2 (by decide)).2.mpr ⟨hlanding, rfl⟩, hpush, rfl,
    (hpushed 3 0x62 2 hpush rfl (by decide) (by decide)).2⟩

end CodeTrail.Listing
