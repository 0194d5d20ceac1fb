import CodeTrail.Proofs.Program.Layout

/-!
# Code positions

Which bytes of a byte string are code does not depend on how it is read: the first byte is, and behind
a byte that is code the next one is the first that it does not push. `CodePosition` is this set, with
the number of pushed bytes told by the opcode byte alone (`pushSize`, which `immediateSize_eq_pushSize`
finds in the table of opcodes).

A sweep walks along this set and leaves none of it out: `codePosition_iff` says that the code positions
are where its chunks start. Bytes that are pushed are therefore no code
(`not_codePosition_of_pushed`), and the instructions of a program start at the code positions as far as
the program reaches (`startsAt_iff`).
-/

set_option autoImplicit false
set_option relaxedAutoImplicit false

namespace CodeTrail

/-! ### The bytes that an opcode pushes -/

namespace Opcode

/-- The number of bytes that an opcode byte pushes, the ones right behind it. -/
def pushSize (byte : UInt8) : Nat :=
  if 0x60 ≤ byte.toNat ∧ byte.toNat ≤ 0x7f then byte.toNat - 0x5f else 0

theorem immediateSize_of_mem_entries (entry : Entry) (hentry : entry ∈ entries) :
    entry.immediateSize = pushSize entry.byte := by
  revert entry
  decide +kernel

/-- Every opcode byte that pushes bytes is assigned. -/
theorem exists_mem_pushEntries {byte : UInt8} (hfirst : 0x60 ≤ byte.toNat)
    (hlast : byte.toNat ≤ 0x7f) : ∃ entry ∈ pushEntries, entry.byte = byte := by
  refine ⟨_, List.mem_map.mpr ⟨byte.toNat - 0x60, List.mem_range.mpr (by omega), rfl⟩, ?_⟩
  rw [← UInt8.toNat_inj, UInt8.toNat_add, UInt8.toNat_ofNat']
  change (0x60 + (byte.toNat - 0x60) % 256) % 256 = byte.toNat
  omega

theorem immediateSize_eq_pushSize (byte : UInt8) : (mk byte).immediateSize = pushSize byte := by
  cases hentry : entry? (mk byte) with
  | some entry =>
    obtain ⟨hmem, hbyte⟩ := mem_entries_of_entry?_eq_some hentry
    rw [immediateSize_of_entry?_eq_some hentry, immediateSize_of_mem_entries entry hmem, hbyte]
  | none =>
    rw [immediateSize_of_entry?_eq_none hentry, pushSize, if_neg]
    rintro ⟨hfirst, hlast⟩
    obtain ⟨entry, hpush, hbyte⟩ := exists_mem_pushEntries hfirst hlast
    have hmem : entry ∈ entries := by simp [entries, hpush]
    rw [entry?_eq_find?, List.find?_eq_none] at hentry
    exact hentry entry hmem (by rw [hbyte, beq_self_eq_true])

end Opcode

/-! ### The positions of a sweep -/

open Chunk (span sweep)
open Opcode (pushSize)

/-- The positions of a byte string that are code: the first, and behind each of them the one past the
bytes that are pushed there, as long as it lies in the byte string. -/
inductive CodePosition (code : List UInt8) : Nat → Prop
  | first (hcode : code ≠ []) : CodePosition code 0
  | next {position : Nat} {byte : UInt8} (hposition : CodePosition code position)
    (hbyte : code[position]? = some byte) (hbound : position + 1 + pushSize byte < code.length) :
    CodePosition code (position + 1 + pushSize byte)

namespace Chunk

variable {code : List UInt8} {index : Nat} {chunk : Chunk}

theorem span_take_succ_of_getElem? {chunks : List Chunk} (hchunk : chunks[index]? = some chunk) :
    span (chunks.take (index + 1)) = span (chunks.take index) + 1 + pushSize chunk.opcode.byte := by
  rw [Program.span_take_succ hchunk, width, Nat.add_assoc, ← Opcode.immediateSize_eq_pushSize]

/-- The code positions are where the chunks of a sweep start. -/
theorem codePosition_iff {position : Nat} :
    CodePosition code position ↔
      ∃ index < (sweep code).length, span ((sweep code).take index) = position := by
  constructor
  · intro hposition
    induction hposition with
    | first hcode =>
      refine ⟨0, ?_, rfl⟩
      rw [List.length_pos_iff, ne_eq, sweep_eq_nil_iff]
      exact hcode
    | @next position byte _ hbyte hbound ih =>
      obtain ⟨index, hindex, rfl⟩ := ih
      have hchunk := List.getElem?_eq_getElem hindex
      rw [(getElem?_sweep hchunk).1, Option.some.injEq] at hbyte
      have hnext := span_take_succ_of_getElem? hchunk
      rw [hbyte] at hnext
      refine ⟨index + 1, ?_, hnext⟩
      -- A sweep does not end before the bytes do.
      by_contra hend
      have hall := length_le_span_sweep code
      rw [← List.take_of_length_le (Nat.le_of_not_lt hend), hnext] at hall
      omega
  · rintro ⟨index, hindex, rfl⟩
    have hcode : code ≠ [] := by
      rintro rfl
      rw [sweep_nil] at hindex
      cases hindex
    induction index with
    | zero => exact .first hcode
    | succ index ih =>
      have hchunk := List.getElem?_eq_getElem (Nat.lt_of_succ_lt hindex)
      obtain ⟨hbound, -⟩ :=
        List.getElem?_eq_some_iff.mp (getElem?_sweep (List.getElem?_eq_getElem hindex)).1
      rw [span_take_succ_of_getElem? hchunk] at hbound ⊢
      exact .next (ih (Nat.lt_of_succ_lt hindex)) (getElem?_sweep hchunk).1 hbound

end Chunk

/-- Bytes that are pushed are no code. -/
theorem not_codePosition_of_pushed {code : List UInt8} {position inner : Nat} {byte : UInt8}
    (hposition : CodePosition code position) (hbyte : code[position]? = some byte)
    (hpos : 0 < inner) (hpushed : inner ≤ pushSize byte) :
    ¬ CodePosition code (position + inner) := by
  intro hinner
  obtain ⟨index, hindex, rfl⟩ := Chunk.codePosition_iff.mp hposition
  obtain ⟨other, -, hother⟩ := Chunk.codePosition_iff.mp hinner
  have hchunk := List.getElem?_eq_getElem hindex
  rw [(Chunk.getElem?_sweep hchunk).1, Option.some.injEq] at hbyte
  have hnext := Chunk.span_take_succ_of_getElem? hchunk
  rw [hbyte] at hnext
  rcases Nat.lt_or_ge index other with hlt | hge
  · have hmono : span ((sweep code).take (index + 1)) ≤ span ((sweep code).take other) :=
      Program.span_take_mono (sweep code) hlt
    omega
  · have hmono := Program.span_take_mono (sweep code) hge
    omega

/-! ### The positions of a program -/

namespace Program

/-- An instruction of a program starts at a position. -/
def StartsAt (program : Program) (position : Nat) : Prop :=
  ∃ instruction ∈ program.instructions, instruction.offset.toNat = position

section Positions

variable {code : List UInt8} (hsize : code.length ≤ UInt32.size - 33) {position : Nat}

include hsize

/-- Instructions start at code positions. -/
theorem StartsAt.codePosition (hstarts : StartsAt (ofBytes code) position) :
    CodePosition code position := by
  obtain ⟨instruction, hinstruction, rfl⟩ := hstarts
  obtain ⟨index, hindex⟩ := List.mem_iff_getElem?.mp hinstruction
  obtain ⟨chunk, hchunk, -⟩ := exists_chunk hindex
  obtain ⟨hlisted, -⟩ := List.getElem?_eq_some_iff.mp hchunk
  obtain ⟨hbound, -⟩ := List.getElem?_eq_some_iff.mp (getElem?_sweep_of_chunks hchunk)
  refine Chunk.codePosition_iff.mpr ⟨index, hbound, ?_⟩
  rw [toNat_offset hsize hindex, take_chunks (Nat.le_of_lt hlisted)]

/-- As far as a program reaches, its instructions start at the code positions. -/
theorem startsAt_iff (hposition : position < (ofBytes code).extent) :
    StartsAt (ofBytes code) position ↔ CodePosition code position := by
  refine ⟨StartsAt.codePosition hsize, fun hcode ↦ ?_⟩
  obtain ⟨index, hindex, rfl⟩ := Chunk.codePosition_iff.mp hcode
  rw [extent_ofBytes hsize] at hposition
  have hlisted : index < (chunks code).length := by
    by_contra hbehind
    have hmono := span_take_mono (sweep code) (Nat.le_of_not_lt hbehind)
    rw [← chunks_eq_take] at hmono
    omega
  have hbound : index < (ofBytes code).instructions.length := by rwa [length_ofBytes]
  have hinstruction := List.getElem?_eq_getElem hbound
  refine ⟨_, List.mem_of_getElem? hinstruction, ?_⟩
  rw [toNat_offset hsize hinstruction, take_chunks (Nat.le_of_lt hlisted)]

end Positions

end Program

end CodeTrail
