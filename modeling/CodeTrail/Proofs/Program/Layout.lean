import CodeTrail.Proofs.Bytecode.Sweep
import CodeTrail.Proofs.Instruction.Texts

/-!
# How a program lies in its code

The instruction at an index of a program is made from the chunk at that index and lies at the span
of the chunks before it (`getElem?_ofBytes`). As long as the code is so short that no offset wraps
around, `laidOut_ofBytes` follows: offsets start at zero and leave no gap, every instruction starts
inside the code and shows the immediate bytes that are there, and only a push at the very end can
lack some. `extent` is the place behind the last instruction.

`decode_laidOut_and_reassembles` adds that the bytes shown by the instructions are the code up to
the extent, and that they decode to the same program again.
-/

set_option autoImplicit false
set_option relaxedAutoImplicit false

namespace CodeTrail

open Chunk (span sweep)

/-- The place behind an instruction. -/
def Instruction.stop (instruction : Instruction) : Nat :=
  instruction.offset.toNat + instruction.length.toNat

/-- The number of bytes that instructions stand for together. -/
def Instruction.totalLength : List Instruction → Nat
  | [] => 0
  | first :: rest => first.length.toNat + totalLength rest

theorem Instruction.totalLength_congr {first second : List Instruction}
    (hlengths : first.map (·.length) = second.map (·.length)) :
    totalLength first = totalLength second := by
  induction first generalizing second with
  | nil =>
    rw [List.map_nil, eq_comm, List.map_eq_nil_iff] at hlengths
    rw [hlengths]
  | cons instruction rest ih =>
    obtain ⟨other, others, rfl, hlength, hrest⟩ := List.map_eq_cons_iff.mp hlengths.symm
    rw [totalLength, totalLength, hlength, ih hrest.symm]

/-- An instruction that starts further behind. -/
def Instruction.moved (shift : UInt32) (instruction : Instruction) : Instruction :=
  { instruction with offset := shift + instruction.offset }

namespace Program

/-- The place behind the last instruction of a program. -/
def extent (program : Program) : Nat :=
  (program.instructions.getLast?.map Instruction.stop).getD 0

/-- How the instructions of a program lie in the code that they were read from. -/
structure LaidOut (program : Program) (code : List UInt8) : Prop where
  /-- The first instruction starts at zero. -/
  offset_first : ∀ first, program.instructions[0]? = some first → first.offset = 0
  /-- The next instruction starts where one ends. -/
  offset_next : ∀ (index : Nat) (current next : Instruction),
    program.instructions[index]? = some current →
      program.instructions[index + 1]? = some next → next.offset.toNat = current.stop
  /-- No place is too large for an offset. -/
  stop_lt : ∀ instruction ∈ program.instructions, instruction.stop < UInt32.size
  /-- Every instruction starts inside the code. -/
  offset_lt : ∀ instruction ∈ program.instructions, instruction.offset.toNat < code.length
  /-- An instruction shows the opcode byte at its offset and the bytes behind it that are there. -/
  shows : ∀ instruction ∈ program.instructions,
    (code[instruction.offset.toNat]?.map fun byte ↦ Opcode.mnemonic ⟨byte⟩) =
        some instruction.opcode ∧
      instruction.immediateBytes? = some ((code.drop (instruction.offset.toNat + 1)).take
        (instruction.length.toNat - 1)) ∧
      (instruction.immediate = none ↔
        (code.drop (instruction.offset.toNat + 1)).take (instruction.length.toNat - 1) = [])
  /-- Only the last instruction can reach past the end, and then it is a push that keeps the length
  of its name. -/
  truncated : ∀ (index : Nat) (instruction : Instruction),
    program.instructions[index]? = some instruction → code.length < instruction.stop →
      index + 1 = program.instructions.length ∧
        ∃ size, 1 ≤ size ∧ size ≤ 32 ∧ instruction.opcode = "push" ++ toString size ∧
          instruction.length.toNat = 1 + size

/-! ### The chunks of a program -/

/-- The chunks that the program of a byte string is made from. -/
def chunks (code : List UInt8) : List Chunk :=
  Chunk.listed (sweep code)

theorem chunks_isPrefix (code : List UInt8) : chunks code <+: sweep code :=
  Chunk.listedAfter_isPrefix none (sweep code)

theorem chunks_eq_take (code : List UInt8) :
    chunks code = (sweep code).take (chunks code).length :=
  List.prefix_iff_eq_take.mp (chunks_isPrefix code)

theorem take_chunks {code : List UInt8} {index : Nat} (hindex : index ≤ (chunks code).length) :
    (chunks code).take index = (sweep code).take index := by
  rw [chunks_eq_take code, List.take_take, Nat.min_eq_left hindex]

theorem getElem?_sweep_of_chunks {code : List UInt8} {index : Nat} {chunk : Chunk}
    (hchunk : (chunks code)[index]? = some chunk) : (sweep code)[index]? = some chunk := by
  obtain ⟨rest, hrest⟩ := chunks_isPrefix code
  obtain ⟨hindex, -⟩ := List.getElem?_eq_some_iff.mp hchunk
  rw [← hrest, List.getElem?_append_left hindex, hchunk]

/-- A chunk lies behind the span of those before it, with its opcode byte and as many of its immediate
bytes as are there. -/
theorem getElem?_of_chunks {code : List UInt8} {index : Nat} {chunk : Chunk}
    (hchunk : (chunks code)[index]? = some chunk) :
    code[span ((chunks code).take index)]? = some chunk.opcode.byte ∧
      chunk.immediate =
        (code.drop (span ((chunks code).take index) + 1)).take chunk.opcode.immediateSize := by
  obtain ⟨hindex, -⟩ := List.getElem?_eq_some_iff.mp hchunk
  rw [take_chunks (Nat.le_of_lt hindex)]
  exact Chunk.getElem?_sweep (getElem?_sweep_of_chunks hchunk)

/-- The chunks of a program hold the code up to their span. -/
theorem flatMap_bytes_chunks (code : List UInt8) :
    (chunks code).flatMap Chunk.bytes = code.take (span (chunks code)) := by
  rw [chunks_eq_take code, Chunk.flatMap_bytes_take_sweep]

/-- Code that is cut behind a program holds the same program. -/
theorem chunks_take_span (code : List UInt8) :
    chunks (code.take (span (chunks code))) = chunks code := by
  have hsweep : sweep (code.take (span (chunks code))) = chunks code := by
    rw [chunks_eq_take code, Chunk.take_sweep]
  rw [chunks, hsweep]
  exact Chunk.listedAfter_listedAfter none (sweep code)

/-- Code that a program reaches to its end is all listed. -/
theorem chunks_eq_sweep {code : List UInt8} (hwhole : span (chunks code) = code.length) :
    chunks code = sweep code := by
  have hrest := Chunk.drop_sweep code (chunks code).length
  rw [← chunks_eq_take, hwhole, List.drop_length, Chunk.sweep_nil, List.drop_eq_nil_iff] at hrest
  rw [chunks_eq_take code, List.take_of_length_le hrest]

/-- Assumes: code that a program reaches to its end, and more code behind it, which does not start with
the failure behind a return and opens the code again if the program closes it. The program goes on with
the program behind. -/
theorem chunks_append {first second : List UInt8} {chunk : Chunk} {rest : List Chunk}
    (hwhole : span (chunks first) = first.length) (hsecond : sweep second = chunk :: rest)
    (hopens : Chunk.ClosesLast none (chunks first) → chunk.opens = true)
    (hchunk : chunk.opcode = .invalid →
      Chunk.lastOpcode none (chunks first) ≠ some .return_) :
    chunks (first ++ second) = chunks first ++ chunks second := by
  have hfirst := chunks_eq_sweep hwhole
  have hlisted : Chunk.listedAfter none (sweep first) = sweep first := hfirst
  rw [hfirst] at hwhole hopens hchunk
  rw [hfirst, chunks, Chunk.sweep_append hwhole, hsecond, Chunk.listed,
    Chunk.listedAfter_append_of_goesOn hlisted hopens, Chunk.listedAfter_eq_listed hchunk, chunks,
    hsecond]

/-! ### Places -/

theorem place_append (offset : UInt32) (first second : List Chunk) :
    place offset (first ++ second) =
      place offset first ++ place (offset + UInt32.ofNat (span first)) second := by
  induction first generalizing offset with
  | nil => simp [place]
  | cons chunk rest ih =>
    rw [List.cons_append, place, place, ih, List.cons_append, Chunk.span_cons, UInt32.ofNat_add,
      UInt32.add_assoc]

@[simp] theorem length_place (offset : UInt32) (chunks : List Chunk) :
    (place offset chunks).length = chunks.length := by
  induction chunks generalizing offset with
  | nil => rfl
  | cons chunk rest ih => rw [place, List.length_cons, List.length_cons, ih]

theorem getElem?_place (offset : UInt32) (chunks : List Chunk) (index : Nat) :
    (place offset chunks)[index]? =
      chunks[index]?.map (Chunk.instruction (offset + UInt32.ofNat (span (chunks.take index)))) := by
  induction chunks generalizing offset index with
  | nil => rfl
  | cons chunk rest ih =>
    cases index with
    | zero => simp [place]
    | succ index =>
      rw [place, List.getElem?_cons_succ, List.getElem?_cons_succ, ih, List.take_succ_cons,
        Chunk.span_cons, UInt32.ofNat_add, UInt32.add_assoc]

theorem place_eq_map_moved (offset : UInt32) (chunks : List Chunk) :
    place offset chunks = (place 0 chunks).map (Instruction.moved offset) := by
  apply List.ext_getElem?
  intro index
  rw [List.getElem?_map, getElem?_place, getElem?_place, Option.map_map]
  refine congrArg (Option.map · chunks[index]?) (funext fun chunk ↦ ?_)
  rw [Function.comp_apply, Instruction.moved, UInt32.zero_add, Chunk.offset_instruction]
  simp only [Chunk.instruction]

theorem totalLength_place (offset : UInt32) (chunks : List Chunk) :
    Instruction.totalLength (place offset chunks) = span chunks := by
  induction chunks generalizing offset with
  | nil => rfl
  | cons chunk rest ih =>
    rw [place, Instruction.totalLength, ih, Chunk.toNat_length_instruction, Chunk.span_cons]

theorem take_place (offset : UInt32) (chunks : List Chunk) (index : Nat) :
    (place offset chunks).take index = place offset (chunks.take index) := by
  induction chunks generalizing offset index with
  | nil => cases index <;> rfl
  | cons chunk rest ih =>
    cases index with
    | zero => rfl
    | succ index => rw [place, List.take_succ_cons, List.take_succ_cons, place, ih]

theorem ofBytes_eq_place (code : List UInt8) : ofBytes code = ⟨place 0 (chunks code)⟩ :=
  rfl

/-- The instructions before an index stand for the span of the chunks before it. -/
theorem totalLength_take_ofBytes (code : List UInt8) (index : Nat) :
    Instruction.totalLength ((ofBytes code).instructions.take index) =
      span ((chunks code).take index) := by
  rw [ofBytes_eq_place, take_place, totalLength_place]

/-- Chunks behind those of code that a program reaches to its end make instructions behind it. -/
theorem instructions_ofBytes_append {first second : List UInt8} {chunksBehind : List Chunk}
    (hwhole : span (chunks first) = first.length)
    (hchunks : chunks (first ++ second) = chunks first ++ chunksBehind) :
    (ofBytes (first ++ second)).instructions =
      (ofBytes first).instructions ++
        (place 0 chunksBehind).map (Instruction.moved (UInt32.ofNat first.length)) := by
  rw [ofBytes_eq_place, hchunks, ofBytes_eq_place, ← place_eq_map_moved, place_append, hwhole,
    UInt32.zero_add]

theorem getElem?_ofBytes (code : List UInt8) (index : Nat) :
    (ofBytes code).instructions[index]? =
      (chunks code)[index]?.map
        (Chunk.instruction (UInt32.ofNat (span ((chunks code).take index)))) := by
  rw [ofBytes_eq_place, getElem?_place, UInt32.zero_add]

@[simp] theorem length_ofBytes (code : List UInt8) :
    (ofBytes code).instructions.length = (chunks code).length := by
  rw [ofBytes_eq_place, length_place]

/-- The chunk that an instruction of a program is made from. -/
theorem exists_chunk {code : List UInt8} {index : Nat} {instruction : Instruction}
    (hinstruction : (ofBytes code).instructions[index]? = some instruction) :
    ∃ chunk, (chunks code)[index]? = some chunk ∧
      instruction = chunk.instruction (UInt32.ofNat (span ((chunks code).take index))) := by
  rw [getElem?_ofBytes] at hinstruction
  obtain ⟨chunk, hchunk, hsame⟩ := Option.map_eq_some_iff.mp hinstruction
  exact ⟨chunk, hchunk, hsame.symm⟩

/-- The bytes that the instructions of a program show are those of its chunks. -/
theorem mapM_bytes?_place (offset : UInt32) (chunks : List Chunk) :
    (place offset chunks).mapM Instruction.bytes? = some (chunks.map Chunk.bytes) := by
  induction chunks generalizing offset with
  | nil => rfl
  | cons chunk rest ih =>
    rw [place, List.mapM_cons, Chunk.bytes?_instruction, ih]
    rfl

/-! ### Offsets that do not wrap around -/

/-- Chunks start inside the code. -/
theorem span_take_lt {code : List UInt8} {index : Nat} {chunk : Chunk}
    (hchunk : (chunks code)[index]? = some chunk) :
    span ((chunks code).take index) < code.length :=
  (List.getElem?_eq_some_iff.mp (getElem?_of_chunks hchunk).1).1

theorem span_take_succ {chunks : List Chunk} {index : Nat} {chunk : Chunk}
    (hchunk : chunks[index]? = some chunk) :
    span (chunks.take (index + 1)) = span (chunks.take index) + chunk.width := by
  rw [List.take_add_one, hchunk, Option.toList_some, Chunk.span_append, Chunk.span_cons,
    Chunk.span_nil, Nat.add_zero]

/-- A chunk with another one behind it has all its immediate bytes. -/
theorem length_immediate_of_next {code : List UInt8} {index : Nat} {chunk next : Chunk}
    (hchunk : (chunks code)[index]? = some chunk) (hnext : (chunks code)[index + 1]? = some next) :
    chunk.immediate.length = chunk.opcode.immediateSize := by
  have hend := span_take_lt hnext
  rw [span_take_succ hchunk, Chunk.width] at hend
  rw [(getElem?_of_chunks hchunk).2, List.length_take, List.length_drop]
  omega

theorem span_take_mono (chunks : List Chunk) {first second : Nat} (hle : first ≤ second) :
    span (chunks.take first) ≤ span (chunks.take second) := by
  obtain ⟨rest, hrest⟩ := List.take_prefix_take_left hle (l := chunks)
  rw [← hrest, Chunk.span_append]
  exact Nat.le_add_right _ _

/-- The offset of an instruction is the span of the chunks before it. Assumes: code that is too
short for an offset to wrap around. -/
theorem toNat_offset {code : List UInt8} (hsize : code.length ≤ UInt32.size - 33) {index : Nat}
    {instruction : Instruction}
    (hinstruction : (ofBytes code).instructions[index]? = some instruction) :
    instruction.offset.toNat = span ((chunks code).take index) := by
  obtain ⟨chunk, hchunk, rfl⟩ := exists_chunk hinstruction
  have hspan := span_take_lt hchunk
  exact UInt32.toNat_ofNat_of_lt' (by omega)

/-- An instruction ends at the span of the chunks up to it. Assumes: code that is too short for an
offset to wrap around. -/
theorem stop_eq {code : List UInt8} (hsize : code.length ≤ UInt32.size - 33) {index : Nat}
    {instruction : Instruction}
    (hinstruction : (ofBytes code).instructions[index]? = some instruction) :
    instruction.stop = span ((chunks code).take (index + 1)) := by
  rw [Instruction.stop, toNat_offset hsize hinstruction]
  obtain ⟨chunk, hchunk, rfl⟩ := exists_chunk hinstruction
  rw [Chunk.toNat_length_instruction, span_take_succ hchunk]

/-- Offsets grow from instruction to instruction. Assumes: code that is too short for an offset to
wrap around. -/
theorem offset_lt_offset {code : List UInt8} (hsize : code.length ≤ UInt32.size - 33)
    {first second : Nat} {instruction other : Instruction}
    (hinstruction : (ofBytes code).instructions[first]? = some instruction)
    (hother : (ofBytes code).instructions[second]? = some other) (hlt : first < second) :
    instruction.offset.toNat < other.offset.toNat := by
  have hmono := span_take_mono (chunks code) (Nat.succ_le_of_lt hlt)
  rw [toNat_offset hsize hinstruction, toNat_offset hsize hother]
  obtain ⟨chunk, hchunk, -⟩ := exists_chunk hinstruction
  rw [span_take_succ hchunk, Chunk.width] at hmono
  omega

theorem extent_ofBytes {code : List UInt8} (hsize : code.length ≤ UInt32.size - 33) :
    (ofBytes code).extent = span (chunks code) := by
  rw [extent, List.getLast?_eq_getElem?, length_ofBytes]
  cases hlast : (ofBytes code).instructions[(chunks code).length - 1]? with
  | none =>
    rw [List.getElem?_eq_none_iff, length_ofBytes] at hlast
    have hempty : chunks code = [] := List.length_eq_zero_iff.mp (by omega)
    rw [hempty]
    rfl
  | some last =>
    obtain ⟨hindex, -⟩ := List.getElem?_eq_some_iff.mp hlast
    rw [length_ofBytes] at hindex
    have hstop := stop_eq hsize hlast
    rw [Nat.sub_add_cancel (by omega), List.take_length] at hstop
    exact hstop

/-- A program is laid out in its code. Assumes: code that is too short for an offset to wrap
around. -/
theorem laidOut_ofBytes {code : List UInt8} (hsize : code.length ≤ UInt32.size - 33) :
    (ofBytes code).LaidOut code where
  offset_first := by
    intro first hfirst
    obtain ⟨chunk, -, rfl⟩ := exists_chunk hfirst
    rfl
  offset_next := by
    intro index current next hcurrent hnext
    rw [toNat_offset hsize hnext, stop_eq hsize hcurrent]
  stop_lt := by
    intro instruction hinstruction
    obtain ⟨index, hindex⟩ := List.mem_iff_getElem?.mp hinstruction
    obtain ⟨chunk, hchunk, -⟩ := exists_chunk hindex
    have hspan := span_take_lt hchunk
    have hwidth := chunk.width_le
    rw [stop_eq hsize hindex, span_take_succ hchunk]
    omega
  offset_lt := by
    intro instruction hinstruction
    obtain ⟨index, hindex⟩ := List.mem_iff_getElem?.mp hinstruction
    obtain ⟨chunk, hchunk, -⟩ := exists_chunk hindex
    rw [toNat_offset hsize hindex]
    exact span_take_lt hchunk
  shows := by
    intro instruction hinstruction
    obtain ⟨index, hindex⟩ := List.mem_iff_getElem?.mp hinstruction
    rw [toNat_offset hsize hindex]
    obtain ⟨chunk, hchunk, rfl⟩ := exists_chunk hindex
    obtain ⟨hbyte, himmediate⟩ := getElem?_of_chunks hchunk
    rw [Chunk.toNat_length_instruction, Chunk.width, Nat.add_sub_cancel_left, ← himmediate, hbyte,
      Chunk.immediateBytes?_instruction, Chunk.immediate_instruction, Chunk.opcode_instruction]
    refine ⟨rfl, rfl, ?_⟩
    split_ifs with hempty <;> simp [hempty]
  truncated := by
    intro index instruction hinstruction htruncated
    rw [stop_eq hsize hinstruction] at htruncated
    obtain ⟨chunk, hchunk, rfl⟩ := exists_chunk hinstruction
    obtain ⟨hbound, -⟩ := List.getElem?_eq_some_iff.mp hchunk
    have hspan := span_take_lt hchunk
    rw [span_take_succ hchunk, Chunk.width] at htruncated
    -- Nothing of the sweep is left where the chunk would end.
    have hrest := Chunk.drop_sweep code (index + 1)
    rw [← take_chunks hbound, span_take_succ hchunk, Chunk.width,
      List.drop_eq_nil_of_le (Nat.le_of_lt htruncated), Chunk.sweep_nil, List.drop_eq_nil_iff] at hrest
    have hlength := (chunks_isPrefix code).length_le
    have hwide : chunk.opcode.immediateSize ≠ 0 := by omega
    refine ⟨by rw [length_ofBytes]; omega, chunk.opcode.immediateSize, by omega,
      chunk.opcode.immediateSize_le, ?_, ?_⟩
    · rw [Chunk.opcode_instruction, Opcode.mnemonic_eq_push hwide]
    · rw [Chunk.toNat_length_instruction, Chunk.width]

/-! ### Reassembly -/

theorem decode_eq_ofBytes (text : String) : decode text = ofBytes (Hex.code text) :=
  rfl

/-- The program of the part of code that a program reaches is the program itself. -/
theorem ofBytes_take_span (code : List UInt8) :
    ofBytes (code.take (span (chunks code))) = ofBytes code := by
  rw [ofBytes_eq_place, chunks_take_span, ofBytes_eq_place]

/-- The program of a text lies without gaps in the code that the text denotes, and its instructions
show that code up to the end of the last one, or to the end of the code where the last one is a push
that lacks some of its bytes. Written as digits, behind a mark or not, the bytes shown decode to the
same program. Assumes: code that is too short for an offset to wrap around. -/
theorem decode_laidOut_and_reassembles (text : String)
    (hsize : (Hex.code text).length ≤ UInt32.size - 33) :
    (decode text).LaidOut (Hex.code text) ∧
      ∃ shown : List (List UInt8),
        (decode text).instructions.mapM Instruction.bytes? = some shown ∧
        shown.flatten =
          (Hex.code text).take (min (decode text).extent (Hex.code text).length) ∧
        decode (Hex.marked shown.flatten) = decode text ∧
        decode (String.ofList (Hex.write shown.flatten)) = decode text := by
  have hextent : (decode text).extent = span (chunks (Hex.code text)) := extent_ofBytes hsize
  have hbytes : ((chunks (Hex.code text)).map Chunk.bytes).flatten =
      (Hex.code text).take (span (chunks (Hex.code text))) := by
    rw [← List.flatMap_def, flatMap_bytes_chunks]
  refine ⟨laidOut_ofBytes hsize, (chunks (Hex.code text)).map Chunk.bytes,
    mapM_bytes?_place 0 (chunks (Hex.code text)), ?_, ?_, ?_⟩
  · rw [hbytes, hextent, List.take_eq_take_min]
  · rw [hbytes, decode_eq_ofBytes, Hex.code_marked, ofBytes_take_span, decode_eq_ofBytes]
  · rw [hbytes, decode_eq_ofBytes, Hex.code_write, ofBytes_take_span, decode_eq_ofBytes]

theorem reassembles_truncated_push :
    (decode "0x600c0c61").LaidOut [0x60, 0x0c, 0x0c, 0x61] ∧
      ∃ shown : List (List UInt8),
        (decode "0x600c0c61").instructions.mapM Instruction.bytes? = some shown ∧
        shown.flatten = [0x60, 0x0c, 0x0c, 0x61] ∧
        decode (Hex.marked shown.flatten) = decode "0x600c0c61" ∧
        decode (String.ofList (Hex.write shown.flatten)) = decode "0x600c0c61" := by
  have hcode : Hex.code "0x600c0c61" = [0x60, 0x0c, 0x0c, 0x61] := by decide +kernel
  have hextent : (decode "0x600c0c61").extent = 6 := by decide +kernel
  have hparts := decode_laidOut_and_reassembles "0x600c0c61" (by rw [hcode]; decide)
  rw [hcode, hextent] at hparts
  exact hparts

end Program

end CodeTrail
