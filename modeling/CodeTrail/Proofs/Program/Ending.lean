import CodeTrail.Proofs.Program.Layout
import CodeTrail.Program.Listing

/-!
# Where a program ends

A program leaves out what follows code that is over: an instruction closes the code when it halts, or
when it is the failure right behind a return (`ClosesAt`), and from there a program goes on only at a
push of one byte or at a landing place. `decode_ends` says that this is the only way in which a program
ends before its code does, and that it always ends so. Only instructions count: the bytes that a push
carries are never taken for a halt, a return or a failure.

Of the chunks behind a program all is known from `Chunk.listedAfter`; `closesAt_iff` and
`opens_instruction` carry it over to the instructions, which show their opcodes by name.
-/

set_option autoImplicit false
set_option relaxedAutoImplicit false

namespace CodeTrail

namespace Chunk

/-- An instruction has the mnemonic of an opcode only if it was made from that opcode. -/
theorem is_instruction {opcode : Opcode} {entry : Opcode.Entry} (hentry : opcode.entry? = some entry)
    (chunk : Chunk) (offset : UInt32) :
    (chunk.instruction offset).is entry.mnemonic = (chunk.opcode == opcode) := by
  rw [Instruction.is, opcode_instruction, ← Opcode.mnemonic_of_entry?_eq_some hentry,
    Bool.eq_iff_iff, beq_iff_eq, beq_iff_eq, Opcode.mnemonic_injective.eq_iff]

theorem opens_instruction (chunk : Chunk) (offset : UInt32) :
    chunk.opens = ((chunk.instruction offset).is "push1" ||
      (chunk.instruction offset).is "jumpdest") := by
  rw [is_instruction Opcode.entry?_push1, is_instruction Opcode.entry?_jumpdest, opens]

theorem opens_eq_false_iff {chunk : Chunk} :
    chunk.opens = false ↔ chunk.opcode.byte ≠ 0x60 ∧ chunk.opcode.byte ≠ 0x5b := by
  have hbyte {opcode : Opcode} : chunk.opcode = opcode ↔ chunk.opcode.byte = opcode.byte :=
    ⟨congrArg Opcode.byte, Opcode.ext⟩
  rw [opens, Bool.or_eq_false_iff, beq_eq_false_iff_ne, beq_eq_false_iff_ne, ne_eq, ne_eq, hbyte,
    hbyte]
  rfl

end Chunk

namespace Program

open Chunk (span sweep)

/-- The instruction at an index closes the code: it halts, or it is the failure right behind a
return. -/
inductive ClosesAt (program : Program) : Nat → Prop
  | stop {index : Nat} {instruction : Instruction}
    (hinstruction : program.instructions[index]? = some instruction)
    (hstop : instruction.is "stop" = true) : ClosesAt program index
  | failure {index : Nat} {before instruction : Instruction}
    (hbefore : program.instructions[index]? = some before) (hreturn : before.is "return" = true)
    (hinstruction : program.instructions[index + 1]? = some instruction)
    (hinvalid : instruction.is "invalid" = true) : ClosesAt program (index + 1)

section Closing

variable {code : List UInt8} {index : Nat} {chunk : Chunk}

/-- An instruction has a mnemonic exactly if its chunk has the opcode. -/
theorem is_iff {instruction : Instruction} {opcode : Opcode} {entry : Opcode.Entry}
    (hchunk : (chunks code)[index]? = some chunk)
    (hinstruction : (ofBytes code).instructions[index]? = some instruction)
    (hentry : opcode.entry? = some entry) :
    instruction.is entry.mnemonic = true ↔ chunk.opcode = opcode := by
  rw [getElem?_ofBytes, hchunk] at hinstruction
  rw [← Option.some.inj hinstruction, Chunk.is_instruction hentry, beq_iff_eq]

/-- The instruction of a chunk closes the code if the chunk does. -/
theorem closesAt_iff (hchunk : (chunks code)[index]? = some chunk) :
    (ofBytes code).ClosesAt index ↔
      Chunk.closes (Chunk.lastOpcode none ((sweep code).take index)) chunk = true := by
  obtain ⟨hbound, -⟩ := List.getElem?_eq_some_iff.mp hchunk
  rw [Chunk.closes, Bool.or_eq_true, Bool.and_eq_true, beq_iff_eq, beq_iff_eq, beq_iff_eq]
  constructor
  · intro hcloses
    cases hcloses with
    | stop hinstruction hstop =>
      exact Or.inl ((is_iff hchunk hinstruction Opcode.entry?_stop).mp hstop)
    | @failure index _ _ hbefore hreturn hinstruction hinvalid =>
      obtain ⟨returning, hreturning, -⟩ := exists_chunk hbefore
      refine Or.inr ⟨(is_iff hchunk hinstruction Opcode.entry?_invalid).mp hinvalid, ?_⟩
      rw [Chunk.lastOpcode_take_succ (getElem?_sweep_of_chunks hreturning),
        (is_iff hreturning hbefore Opcode.entry?_return).mp hreturn]
  · have hinstruction : ∀ place < (chunks code).length, ∃ instruction,
        (ofBytes code).instructions[place]? = some instruction := fun place hplace ↦
      ⟨_, List.getElem?_eq_getElem (by rwa [length_ofBytes])⟩
    obtain ⟨instruction, hthis⟩ := hinstruction index hbound
    rintro (hstop | ⟨hinvalid, hreturn⟩)
    · exact .stop hthis ((is_iff hchunk hthis Opcode.entry?_stop).mpr hstop)
    · cases index with
      | zero => cases hreturn
      | succ index =>
        have hreturning : (chunks code)[index]? = some (chunks code)[index] :=
          List.getElem?_eq_getElem (by omega)
        obtain ⟨before, hbefore⟩ := hinstruction index (by omega)
        rw [Chunk.lastOpcode_take_succ (getElem?_sweep_of_chunks hreturning)] at hreturn
        exact .failure hbefore
          ((is_iff hreturning hbefore Opcode.entry?_return).mpr (Option.some.inj hreturn)) hthis
          ((is_iff hchunk hthis Opcode.entry?_invalid).mpr hinvalid)

/-- Right behind an instruction that closes the code stands one that opens it again. -/
theorem opens_of_closesAt {next : Instruction} (hcloses : (ofBytes code).ClosesAt index)
    (hnext : (ofBytes code).instructions[index + 1]? = some next) :
    next.is "push1" = true ∨ next.is "jumpdest" = true := by
  obtain ⟨chunk, hchunk, rfl⟩ := exists_chunk hnext
  obtain ⟨hbound, -⟩ := List.getElem?_eq_some_iff.mp hchunk
  have hclosing : (chunks code)[index]? = some (chunks code)[index] :=
    List.getElem?_eq_getElem (by omega)
  have hopens := Chunk.opens_of_closes hclosing ((closesAt_iff hclosing).mp hcloses) hchunk
  rw [Chunk.opens_instruction, Bool.or_eq_true] at hopens
  exact hopens

/-- Code goes on behind a program only where the program ends with an instruction that closes the code,
and what is there does not open it again. -/
theorem closesAt_of_span_lt (hrest : span (chunks code) < code.length) :
    (∃ last, last + 1 = (ofBytes code).instructions.length ∧ (ofBytes code).ClosesAt last) ∧
      ∃ byte, code[span (chunks code)]? = some byte ∧ byte ≠ 0x60 ∧ byte ≠ 0x5b := by
  have hmore : (chunks code).length < (sweep code).length := by
    by_contra hall
    have hsame := chunks_eq_take code
    rw [List.take_of_length_le (Nat.le_of_not_lt hall)] at hsame
    rw [hsame] at hrest
    exact absurd (Chunk.length_le_span_sweep code) (Nat.not_le_of_lt hrest)
  have hnext : (sweep code)[(chunks code).length]? = some (sweep code)[(chunks code).length] :=
    List.getElem?_eq_getElem hmore
  obtain ⟨hstays, last, chunk, hlast, hchunk, hcloses⟩ := Chunk.exists_closes_of_getElem? hnext
  have hbyte := (Chunk.getElem?_sweep hnext).1
  rw [← chunks_eq_take] at hbyte
  refine ⟨⟨last, hlast.trans (length_ofBytes code).symm, (closesAt_iff hchunk).mpr hcloses⟩, _, hbyte,
    Chunk.opens_eq_false_iff.mp hstays⟩

end Closing

/-- The end of the program of a text. Assumes: code that is too short for an offset to wrap around.
Behind an instruction that closes the code the program goes on with nothing but a push of one byte or a
landing place. Bytes of the code are left over exactly where the last instruction closes the code and
neither opcode stands behind it; so a program is empty only if there is no code. -/
theorem decode_ends (text : String) (hsize : (Hex.code text).length ≤ UInt32.size - 33) :
    (∀ (index : Nat) (next : Instruction), (decode text).ClosesAt index →
        (decode text).instructions[index + 1]? = some next →
          next.is "push1" = true ∨ next.is "jumpdest" = true) ∧
      ((decode text).extent < (Hex.code text).length ↔
        (∃ last, last + 1 = (decode text).instructions.length ∧ (decode text).ClosesAt last) ∧
          ∃ byte, (Hex.code text)[(decode text).extent]? = some byte ∧
            byte ≠ 0x60 ∧ byte ≠ 0x5b) ∧
      ((decode text).instructions = [] ↔ Hex.code text = []) := by
  have hextent : (decode text).extent = span (chunks (Hex.code text)) := extent_ofBytes hsize
  refine ⟨fun index next ↦ opens_of_closesAt, ?_, ?_⟩
  · rw [hextent]
    refine ⟨closesAt_of_span_lt, ?_⟩
    rintro ⟨-, byte, hbyte, -⟩
    exact (List.getElem?_eq_some_iff.mp hbyte).1
  · rw [← List.length_eq_zero_iff, decode_eq_ofBytes, length_ofBytes, List.length_eq_zero_iff]
    constructor
    · intro hempty
      by_contra hcode
      rw [← List.length_eq_zero_iff] at hcode
      have hrest : span (chunks (Hex.code text)) < (Hex.code text).length := by
        rw [hempty, Chunk.span_nil]
        omega
      obtain ⟨⟨last, hlast, -⟩, -⟩ := closesAt_of_span_lt hrest
      rw [length_ofBytes, hempty] at hlast
      cases hlast
    · intro hcode
      rw [hcode, chunks, Chunk.sweep_nil]
      rfl

/-- A failure behind a return is left with data behind it; halts, returns and failures among the bytes
of a push are passed over. -/
theorem decode_ends_behind_failure :
    (Hex.code "0x61f3fefe6000f3fea1").length ≤ UInt32.size - 33 ∧
      (decode "0x61f3fefe6000f3fea1").ClosesAt 4 ∧
      (decode "0x61f3fefe6000f3fea1").extent < (Hex.code "0x61f3fefe6000f3fea1").length ∧
      (decode "0x61f3fefe6000f3fea1").instructions ≠ [] := by
  have hcode : Hex.code "0x61f3fefe6000f3fea1" =
      [0x61, 0xf3, 0xfe, 0xfe, 0x60, 0x00, 0xf3, 0xfe, 0xa1] := by
    decide +kernel
  have hprogram : decode "0x61f3fefe6000f3fea1" =
      ⟨[{ opcode := "push2", offset := 0, length := 3, stackInputs := 0, stackOutputs := 1,
          immediate := some "0xf3fe" },
        { opcode := "invalid", offset := 3, length := 1, stackInputs := 0, stackOutputs := 0 },
        { opcode := "push1", offset := 4, length := 2, stackInputs := 0, stackOutputs := 1,
          immediate := some "0x00" },
        { opcode := "return", offset := 6, length := 1, stackInputs := 2, stackOutputs := 0 },
        { opcode := "invalid", offset := 7, length := 1, stackInputs := 0, stackOutputs := 0 }]⟩ := by
    decide +kernel
  have hsize : (Hex.code "0x61f3fefe6000f3fea1").length ≤ UInt32.size - 33 := by
    rw [hcode]
    decide
  obtain ⟨-, hends, hempty⟩ := decode_ends "0x61f3fefe6000f3fea1" hsize
  have hcloses : (decode "0x61f3fefe6000f3fea1").ClosesAt 4 := by
    rw [hprogram]
    exact .failure rfl rfl rfl rfl
  refine ⟨hsize, hcloses,
    hends.mpr ⟨⟨4, by rw [hprogram]; rfl, hcloses⟩, 0xa1, ?_, by decide, by decide⟩, ?_⟩
  · rw [hprogram, hcode]
    rfl
  · rw [ne_eq, hempty, hcode]
    exact List.cons_ne_nil _ _

end Program

end CodeTrail
