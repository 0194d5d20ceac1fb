import CodeTrail.Proofs.Listing.Jumps

/-!
# Segments of a listing

A listing falls into two segments, and the second prologue starts the second of them. Offsets count
from the start of the segment, so each segment lies like a program of its own: it starts at zero and
leaves no gap. `segmented_decode` says so for every decoded program, together with where the prologues
are and how the offsets of the listing go back to those of the program.

In a decoded program an offset is the number of bytes that the instructions before it stand for
(`toNat_offset_eq_totalLength`). What a segment counts from is therefore `lengthBefore`, the bytes of
the segment in front (`segmentBase_eq_lengthBefore`), and no instruction of the segment lies before it
(`segmentBase_le_offset`), so that nothing is lost by counting from there (`toNat_offset_of`).
-/

set_option autoImplicit false
set_option relaxedAutoImplicit false

namespace CodeTrail.Listing

open Instruction (totalLength)
open Program (decode ofBytes)

/-- At an index three instructions set up the free-memory pointer. -/
structure PrologueAt (instructions : List Instruction) (index : Nat) : Prop where
  pushes_pointer : ∃ first, instructions[index]? = some first ∧
    first.opcode = "push1" ∧ first.immediate = some "0x80"
  pushes_place : ∃ second, instructions[index + 1]? = some second ∧
    second.opcode = "push1" ∧ second.immediate = some "0x40"
  stores : ∃ third, instructions[index + 2]? = some third ∧ third.opcode = "mstore"

/-- The number of bytes in front of the segment of an index. -/
def lengthBefore (listing : Listing) (index : Nat) : Nat :=
  match listing.segmentOf index, listing.runtimeStart with
  | .runtime, some start => totalLength (listing.instructions.take start)
  | _, _ => 0

/-- How the listing of a program lies in its segments. -/
structure Segmented (program : Program) : Prop where
  /-- Every instruction of the program is listed, and no other. -/
  length_eq : (of program).instructions.length = program.instructions.length
  /-- Offsets count from a place that no instruction of the segment lies before. -/
  base_le : ∀ (index : Nat) (before : Instruction), program.instructions[index]? = some before →
    segmentBase program index ≤ before.offset.toNat
  /-- An offset of the program is the one of the listing and all bytes in front of the segment. -/
  offset_program : ∀ (index : Nat) (before after : Instruction),
    program.instructions[index]? = some before →
      (of program).instructions[index]? = some after →
        before.offset.toNat = after.offset.toNat + (of program).lengthBefore index
  /-- The first instruction of a segment lies at zero. -/
  offset_first : ∀ (index : Nat) (first : Instruction),
    (of program).instructions[index]? = some first →
      (∀ earlier < index, (of program).segmentOf earlier ≠ (of program).segmentOf index) →
        first.offset = 0
  /-- The next instruction of a segment lies where one ends. -/
  offset_next : ∀ (index : Nat) (current next : Instruction),
    (of program).instructions[index]? = some current →
      (of program).instructions[index + 1]? = some next →
        (of program).segmentOf (index + 1) = (of program).segmentOf index →
          next.offset.toNat = current.stop
  /-- No two instructions of a segment lie at one place. -/
  offset_injective : ∀ (first second : Nat) (instruction other : Instruction),
    (of program).instructions[first]? = some instruction →
      (of program).instructions[second]? = some other →
        (of program).segmentOf first = (of program).segmentOf second →
          instruction.offset = other.offset → first = second

/-! ### Prologues -/

theorem startsPrologue_drop_iff {instructions : List Instruction} {index : Nat} :
    startsPrologue (instructions.drop index) = true ↔ PrologueAt instructions index := by
  have hget (place : Nat) : instructions[index + place]? = (instructions.drop index)[place]? := by
    rw [List.getElem?_drop]
  have hpushes {instruction : Instruction} {value : String} :
      instruction.pushes value = true ↔
        instruction.opcode = "push1" ∧ instruction.immediate = some value := by
    rw [Instruction.pushes, Instruction.is, Bool.and_eq_true, beq_iff_eq, beq_iff_eq]
  rw [startsPrologue_iff]
  constructor
  · rintro ⟨first, second, third, rest, hdrop, hfirst, hsecond, hthird⟩
    rw [Instruction.is, beq_iff_eq] at hthird
    rw [hdrop] at hget
    exact ⟨⟨first, hget 0, hpushes.mp hfirst⟩, ⟨second, hget 1, hpushes.mp hsecond⟩,
      ⟨third, hget 2, hthird⟩⟩
  · rintro ⟨⟨first, hfirst, hpointer⟩, ⟨second, hsecond, hplace⟩, ⟨third, hthird, hstores⟩⟩
    rw [← Nat.add_zero index, hget] at hfirst
    rw [hget] at hsecond hthird
    rw [← beq_iff_eq] at hstores
    rcases hdrop : instructions.drop index with _ | ⟨one, _ | ⟨two, _ | ⟨three, rest⟩⟩⟩
    · rw [hdrop] at hfirst; cases hfirst
    · rw [hdrop] at hsecond; cases hsecond
    · rw [hdrop] at hthird; cases hthird
    · rw [hdrop] at hfirst hsecond hthird
      obtain rfl : one = first := Option.some.inj hfirst
      obtain rfl : two = second := Option.some.inj hsecond
      obtain rfl : three = third := Option.some.inj hthird
      exact ⟨one, two, three, rest, rfl, hpushes.mpr hpointer, hpushes.mpr hplace, hstores⟩

/-- The prologues of a listing are the places where one starts. -/
theorem mem_prologues_of_iff {program : Program} {index : Nat} :
    index ∈ (of program).prologues ↔ PrologueAt (of program).instructions index := by
  have hshown : (of program).prologues = prologuesFrom 0 (of program).instructions :=
    (prologuesFrom_congr (map_instructions_of program fun _ _ ↦ rfl) 0).symm
  rw [hshown, mem_prologuesFrom_iff, Nat.sub_zero, startsPrologue_drop_iff]
  exact and_iff_right (Nat.zero_le index)

/-! ### What a segment counts from -/

section Base

variable {code : List UInt8} {index : Nat} {instruction shown : Instruction}

/-- An instruction of a program lies behind the bytes of those before it. -/
theorem toNat_offset_eq_totalLength (hsize : code.length ≤ UInt32.size - 33)
    (hinstruction : (ofBytes code).instructions[index]? = some instruction) :
    instruction.offset.toNat = totalLength ((ofBytes code).instructions.take index) := by
  rw [Program.toNat_offset hsize hinstruction, Program.totalLength_take_ofBytes]

/-- Annotating keeps lengths. -/
theorem totalLength_take_instructions_of (program : Program) (index : Nat) :
    totalLength ((of program).instructions.take index) =
      totalLength (program.instructions.take index) := by
  refine Instruction.totalLength_congr ?_
  rw [List.map_take, List.map_take, map_instructions_of program fun _ _ ↦ rfl]

/-- A segment counts from the end of the bytes in front of it. -/
theorem segmentBase_eq_lengthBefore (hsize : code.length ≤ UInt32.size - 33) (index : Nat) :
    segmentBase (ofBytes code) index = (of (ofBytes code)).lengthBefore index := by
  rw [segmentBase, lengthBefore]
  cases (of (ofBytes code)).segmentOf index with
  | initialization => rfl
  | runtime =>
    cases hruntime : (of (ofBytes code)).runtimeStart with
    | none => rfl
    | some start =>
      have hbound := lt_length_of_mem_prologuesFrom (List.mem_of_getElem? hruntime)
      have hfirst := List.getElem?_eq_getElem hbound
      dsimp only
      rw [hfirst, Option.map_some, Option.getD_some, totalLength_take_instructions_of,
        toNat_offset_eq_totalLength hsize hfirst]

/-- No instruction of a segment lies before the place that the segment counts from. -/
theorem segmentBase_le_offset (hsize : code.length ≤ UInt32.size - 33)
    (hinstruction : (ofBytes code).instructions[index]? = some instruction) :
    segmentBase (ofBytes code) index ≤ instruction.offset.toNat := by
  obtain ⟨hbound, -⟩ := List.getElem?_eq_some_iff.mp hinstruction
  rw [segmentBase_eq hbound, ← UInt32.le_iff_toNat_le]
  exact baseAt_le_offset hsize hinstruction

/-- An instruction of a listing is one of the program, and its offset counts from the segment. -/
theorem toNat_offset_of (hsize : code.length ≤ UInt32.size - 33)
    (hshown : (of (ofBytes code)).instructions[index]? = some shown) :
    ∃ instruction, (ofBytes code).instructions[index]? = some instruction ∧
      shown.length = instruction.length ∧
        shown.offset.toNat + segmentBase (ofBytes code) index = instruction.offset.toNat := by
  rw [getElem?_instructions_of] at hshown
  obtain ⟨instruction, hinstruction, rfl⟩ := Option.map_eq_some_iff.mp hshown
  obtain ⟨hbound, -⟩ := List.getElem?_eq_some_iff.mp hinstruction
  exact ⟨instruction, hinstruction, rfl,
    toNat_offset_annotatedAt hbound (baseAt_le_offset hsize hinstruction)⟩

end Base

/-! ### The segments of a decoded program -/

/-- An instruction with none of its segment before it lies where the segment starts to count. -/
theorem offset_eq_segmentBase {code : List UInt8} {index : Nat} {instruction : Instruction}
    (hinstruction : (ofBytes code).instructions[index]? = some instruction)
    (hfirst : ∀ earlier < index,
      (of (ofBytes code)).segmentOf earlier ≠ (of (ofBytes code)).segmentOf index) :
    instruction.offset.toNat = segmentBase (ofBytes code) index := by
  obtain ⟨hbound, -⟩ := List.getElem?_eq_some_iff.mp hinstruction
  rw [segmentBase_eq hbound, baseAt]
  split_ifs with hsplit
  · have hzero : index = 0 := by
      by_contra hpos
      refine hfirst 0 (by omega) ((segmentOf_eq_iff hbound (by omega)).mpr ?_)
      exact iff_of_true (by omega) hsplit
    obtain ⟨chunk, -, rfl⟩ := Program.exists_chunk hinstruction
    rw [hzero]
    rfl
  · have hstart : index = splitOf (ofBytes code) := by
      by_contra hlater
      refine hfirst (splitOf (ofBytes code)) (by omega)
        ((segmentOf_eq_iff hbound (by omega)).mpr ?_)
      exact iff_of_false (Nat.lt_irrefl _) hsplit
    rw [← hstart, hinstruction, Option.map_some, Option.getD_some]

theorem segmented_ofBytes {code : List UInt8} (hsize : code.length ≤ UInt32.size - 33) :
    Segmented (ofBytes code) where
  length_eq := length_instructions_of (ofBytes code)
  base_le := fun index before hbefore ↦ segmentBase_le_offset hsize hbefore
  offset_program := by
    intro index before after hbefore hafter
    obtain ⟨instruction, hinstruction, -, hoffset⟩ := toNat_offset_of hsize hafter
    obtain rfl : before = instruction := Option.some.inj (hbefore.symm.trans hinstruction)
    rw [← segmentBase_eq_lengthBefore hsize, hoffset]
  offset_first := by
    intro index first hshown hfirst
    obtain ⟨instruction, hinstruction, -, hoffset⟩ := toNat_offset_of hsize hshown
    rw [offset_eq_segmentBase hinstruction hfirst] at hoffset
    exact UInt32.toNat_inj.mp (Nat.add_eq_right.mp hoffset)
  offset_next := by
    intro index current next hcurrent hnext hsegment
    obtain ⟨before, hbefore, hlength, hoffset⟩ := toNat_offset_of hsize hcurrent
    obtain ⟨behind, hbehind, -, hoffset'⟩ := toNat_offset_of hsize hnext
    have hstop := (Program.laidOut_ofBytes hsize).offset_next index before behind hbefore hbehind
    rw [Instruction.stop] at hstop ⊢
    rw [segmentBase_congr hsegment] at hoffset'
    rw [hlength]
    omega
  offset_injective := by
    intro first second instruction other hinstruction hother hsegment hsame
    obtain ⟨before, hbefore, -, hoffset⟩ := toNat_offset_of hsize hinstruction
    obtain ⟨behind, hbehind, -, hoffset'⟩ := toNat_offset_of hsize hother
    rw [← hsame] at hoffset'
    have hfirst : LandsOn (ofBytes code) second instruction.offset.toNat first :=
      (landsOn_iff hbefore).mpr ⟨hsegment, hoffset.symm⟩
    have hsecond : LandsOn (ofBytes code) second instruction.offset.toNat second :=
      (landsOn_iff hbehind).mpr ⟨rfl, hoffset'.symm⟩
    exact hfirst.unique hsize hsecond

/-- The segments of the listing of a decoded program. Assumes: code that is too short for an offset to
wrap around. The prologues of the listing are in order and none overlaps another, the second of them
starts the runtime segment, and each segment starts at zero and goes on without gaps, with its offsets
counted from the end of the bytes in front of it. -/
theorem segmented_decode (text : String) (hsize : (Hex.code text).length ≤ UInt32.size - 33) :
    (∀ index, index ∈ (of (decode text)).prologues ↔
        PrologueAt (of (decode text)).instructions index) ∧
      (of (decode text)).prologues.Pairwise (· + 3 ≤ ·) ∧
      (of (decode text)).runtimeStart = (of (decode text)).prologues[1]? ∧
      Segmented (decode text) :=
  ⟨fun _ ↦ mem_prologues_of_iff, pairwise_prologuesFrom 0 (decode text).instructions, rfl,
    segmented_ofBytes hsize⟩

/-- Data behind a return, a third prologue behind the one that starts the runtime segment, and a
landing place that counts from there. -/
theorem segmented_decode_of_three_prologues :
    (Hex.code "0x6080604052f3fe6080604052005b6080604052ff").length ≤ UInt32.size - 33 ∧
      PrologueAt (of (decode "0x6080604052f3fe6080604052005b6080604052ff")).instructions 10 ∧
      (of (decode "0x6080604052f3fe6080604052005b6080604052ff")).runtimeStart = some 5 ∧
      (of (decode "0x6080604052f3fe6080604052005b6080604052ff")).lengthBefore 10 = 7 ∧
      Segmented (decode "0x6080604052f3fe6080604052005b6080604052ff") := by
  have hsize : (Hex.code "0x6080604052f3fe6080604052005b6080604052ff").length ≤
      UInt32.size - 33 := by
    decide +kernel
  have hprologues : (of (decode "0x6080604052f3fe6080604052005b6080604052ff")).prologues =
      [0, 5, 10] := by
    decide +kernel
  obtain ⟨hprologueAt, -, hruntime, hsegmented⟩ :=
    segmented_decode "0x6080604052f3fe6080604052005b6080604052ff" hsize
  refine ⟨hsize, (hprologueAt 10).mp ?_, ?_, by decide +kernel, hsegmented⟩
  · rw [hprologues]
    decide
  · rw [hruntime, hprologues]
    rfl

end CodeTrail.Listing
