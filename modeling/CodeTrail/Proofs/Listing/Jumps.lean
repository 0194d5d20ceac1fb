import CodeTrail.Proofs.Listing.Passes
import CodeTrail.Proofs.Listing.Prologues
import CodeTrail.Proofs.Program.Layout

/-!
# Where jumps land

A jump right behind a push of one or two bytes goes to the number pushed, counted from the start of
its own segment. `jumpTarget_decode` says that the target of such a jump in the listing of a decoded
program is the instruction of the segment at that place and absent when there is none, that no two
instructions of a segment lie at one place, and that nothing else has a target.

The push and its jump lie in one segment because a segment starts with a push
(`StaticJump.ne_splitOf`). The push shows all its bytes because the jump lies behind it, so the text
of its immediate reads as their number (`immediateNumber?_of_isShortPush`). Counting from the start of
a segment loses nothing because offsets grow (`baseAt_le_offset`), which also leaves one instruction
for each place (`targetIn_placed_eq_some_iff`).
-/

set_option autoImplicit false
set_option relaxedAutoImplicit false

namespace CodeTrail.Listing

open Program (chunks decode ofBytes)

/-- The place that the offsets of the segment of an index count from. -/
def segmentBase (program : Program) (index : Nat) : Nat :=
  match (of program).segmentOf index, (of program).runtimeStart with
  | .runtime, some start => (program.instructions[start]?.map (·.offset.toNat)).getD 0
  | _, _ => 0

/-- At an index there is a jump, right behind a given push of one or two bytes. -/
structure StaticJump (program : Program) (index : Nat) (pushed : Instruction) : Prop where
  pos : 0 < index
  getElem?_before : program.instructions[index - 1]? = some pushed
  isShortPush : pushed.isShortPush = true
  exists_jump : ∃ jump, program.instructions[index]? = some jump ∧ jump.isJump = true

/-- An index lies in the segment of another, at a value counted from the start of the segment. -/
structure LandsOn (program : Program) (index value target : Nat) : Prop where
  segment : (of program).segmentOf target = (of program).segmentOf index
  offset : ∃ found, program.instructions[target]? = some found ∧
    found.offset.toNat = value + segmentBase program index

/-! ### Segments -/

section Segments

variable {program : Program} {index target : Nat}

theorem segmentOf_eq_iff (hindex : index < program.instructions.length)
    (htarget : target < program.instructions.length) :
    (of program).segmentOf target = (of program).segmentOf index ↔
      (target < splitOf program ↔ index < splitOf program) := by
  rw [segmentOf_of hindex, segmentOf_of htarget]
  by_cases hfirst : target < splitOf program <;> by_cases hsecond : index < splitOf program <;>
    simp [hfirst, hsecond]

/-- The runtime segment starts at the split, if any instruction lies in it. -/
theorem runtimeStart_of_splitOf_le (hindex : index < program.instructions.length)
    (hsplit : splitOf program ≤ index) : (of program).runtimeStart = some (splitOf program) := by
  rw [of, splitOf]
  rw [splitOf] at hsplit
  cases hruntime : (prologuesFrom 0 program.instructions)[1]? with
  | none =>
    rw [hruntime, Option.getD_none] at hsplit
    omega
  | some start => rfl

theorem segmentBase_eq (hindex : index < program.instructions.length) :
    segmentBase program index =
      (baseAt (splitOf program) program.instructions index).toNat := by
  rw [segmentBase, segmentOf_of hindex, baseAt]
  by_cases hsplit : index < splitOf program
  · rw [if_pos hsplit, if_pos hsplit]
    rfl
  · rw [if_neg hsplit, if_neg hsplit,
      runtimeStart_of_splitOf_le hindex (Nat.le_of_not_lt hsplit)]
    dsimp only
    cases program.instructions[splitOf program]? <;> rfl

/-- The offset in a listing counts from the start of the segment, as long as it does not fall below
zero. -/
theorem toNat_offset_annotatedAt {instruction : Instruction}
    (hindex : index < program.instructions.length)
    (hbase : baseAt (splitOf program) program.instructions index ≤ instruction.offset) :
    (annotatedAt program index instruction).offset.toNat + segmentBase program index =
      instruction.offset.toNat := by
  have hoffset := UInt32.toNat_sub_of_le _ _ hbase
  rw [UInt32.le_iff_toNat_le] at hbase
  rw [segmentBase_eq hindex, annotatedAt]
  dsimp only
  omega

/-- The first instruction of a prologue is a push. -/
theorem is_push1_of_mem_prologuesFrom {instruction : Instruction}
    (hprologue : index ∈ prologuesFrom 0 program.instructions)
    (hinstruction : program.instructions[index]? = some instruction) :
    instruction.is "push1" = true := by
  obtain ⟨-, hstarts⟩ := mem_prologuesFrom_iff.mp hprologue
  obtain ⟨first, second, third, rest, hrest, hfirst, -⟩ := startsPrologue_iff.mp hstarts
  have hsame : first = instruction := by
    have hhead := congrArg (·[0]?) hrest
    simp only [Nat.sub_zero, List.getElem?_drop, Nat.add_zero, List.getElem?_cons_zero] at hhead
    rw [hinstruction] at hhead
    exact (Option.some.inj hhead).symm
  rw [Instruction.pushes, Bool.and_eq_true, hsame] at hfirst
  exact hfirst.1

/-- A push is no jump. -/
theorem isJump_eq_false_of_isShortPush {instruction : Instruction}
    (hpush : instruction.isShortPush = true) : instruction.isJump = false := by
  rw [Instruction.isShortPush, Bool.or_eq_true, Instruction.is, Instruction.is, beq_iff_eq,
    beq_iff_eq] at hpush
  rw [Instruction.isJump, Instruction.is, Instruction.is]
  rcases hpush with hpush | hpush <;> rw [hpush] <;> decide

/-- No prologue starts with a jump. -/
theorem isJump_eq_false_of_mem_prologuesFrom {instruction : Instruction}
    (hprologue : index ∈ prologuesFrom 0 program.instructions)
    (hinstruction : program.instructions[index]? = some instruction) :
    instruction.isJump = false := by
  have hpush := is_push1_of_mem_prologuesFrom hprologue hinstruction
  exact isJump_eq_false_of_isShortPush (by rw [Instruction.isShortPush, hpush, Bool.true_or])

/-- A jump and the push before it lie in one segment. -/
theorem StaticJump.ne_splitOf {pushed : Instruction} (hstatic : StaticJump program index pushed) :
    index ≠ splitOf program := by
  rintro rfl
  obtain ⟨jump, hjump, hisJump⟩ := hstatic.exists_jump
  obtain ⟨hbound, -⟩ := List.getElem?_eq_some_iff.mp hjump
  have hruntime : (prologuesFrom 0 program.instructions)[1]? = some (splitOf program) :=
    runtimeStart_of_splitOf_le hbound (Nat.le_refl _)
  rw [isJump_eq_false_of_mem_prologuesFrom (List.mem_of_getElem? hruntime) hjump] at hisJump
  cases hisJump

end Segments

/-! ### Pushed numbers -/

/-- A short push that is not the last instruction shows as many bytes as its name says, and its
immediate reads as their number. -/
theorem immediateNumber?_of_isShortPush {code : List UInt8} {index : Nat}
    {pushed next : Instruction} (hpushed : (ofBytes code).instructions[index]? = some pushed)
    (hnext : (ofBytes code).instructions[index + 1]? = some next)
    (hshort : pushed.isShortPush = true) :
    ∃ bytes, pushed.immediate = some (Hex.marked bytes) ∧ pushed.immediateBytes? = some bytes ∧
      pushed.immediateNumber? = some (Hex.bigEndian bytes) ∧ Hex.bigEndian bytes < UInt16.size := by
  obtain ⟨chunk, hchunk, rfl⟩ := Program.exists_chunk hpushed
  obtain ⟨nextChunk, hnextChunk, -⟩ := Program.exists_chunk hnext
  have hlength := Program.length_immediate_of_next hchunk hnextChunk
  have hsize : chunk.opcode.immediateSize = 1 ∨ chunk.opcode.immediateSize = 2 := by
    rw [Instruction.isShortPush, Bool.or_eq_true, Instruction.is, Instruction.is, beq_iff_eq,
      beq_iff_eq, Chunk.opcode_instruction] at hshort
    rcases hshort with hpush | hpush
    · exact Or.inl (Opcode.immediateSize_of_entry?_eq_some
        (Opcode.entry?_of_mnemonic_eq Opcode.entry?_push1 hpush))
    · exact Or.inr (Opcode.immediateSize_of_entry?_eq_some
        (Opcode.entry?_of_mnemonic_eq Opcode.entry?_push2 hpush))
  have hvalue : Hex.bigEndian chunk.immediate < UInt16.size := by
    have hbound := Hex.bigEndian_lt chunk.immediate
    rcases hsize with hone | htwo
    · rw [hlength, hone] at hbound
      exact Nat.lt_trans hbound (by decide)
    · rw [hlength, htwo] at hbound
      exact hbound
  have hpresent : chunk.immediate ≠ [] := by
    intro hempty
    rw [hempty, List.length_nil] at hlength
    omega
  refine ⟨chunk.immediate, ?_, Chunk.immediateBytes?_instruction chunk _, ?_, hvalue⟩
  · rw [Chunk.immediate_instruction, if_neg hpresent]
  · rw [Chunk.immediateNumber?_instruction hpresent, if_pos (Nat.lt_trans hvalue (by decide))]

/-! ### Places in a segment -/

section Places

variable {code : List UInt8} {index target value : Nat}

/-- No instruction lies before the start of its segment. -/
theorem baseAt_le_offset (hsize : code.length ≤ UInt32.size - 33) {instruction : Instruction}
    (hinstruction : (ofBytes code).instructions[index]? = some instruction) :
    baseAt (splitOf (ofBytes code)) (ofBytes code).instructions index ≤ instruction.offset := by
  rw [baseAt]
  split_ifs with hsplit
  · exact UInt32.zero_le
  · obtain ⟨hbound, -⟩ := List.getElem?_eq_some_iff.mp hinstruction
    obtain ⟨first, hfirst⟩ : ∃ first,
        (ofBytes code).instructions[splitOf (ofBytes code)]? = some first :=
      ⟨_, List.getElem?_eq_getElem (by omega)⟩
    rw [hfirst, Option.map_some, Option.getD_some, UInt32.le_iff_toNat_le]
    rcases Nat.eq_or_lt_of_le (Nat.le_of_not_lt hsplit) with heq | hlt
    · rw [heq, hinstruction] at hfirst
      exact Nat.le_of_eq (by rw [Option.some.inj hfirst])
    · exact Nat.le_of_lt (Program.offset_lt_offset hsize hfirst hinstruction hlt)

/-- An offset counted from the start of a segment tells the place of an instruction. -/
theorem offset_sub_baseAt_eq_iff (hsize : code.length ≤ UInt32.size - 33)
    (hvalue : value < UInt16.size) {instruction : Instruction}
    (hinstruction : (ofBytes code).instructions[index]? = some instruction) :
    instruction.offset - baseAt (splitOf (ofBytes code)) (ofBytes code).instructions index =
        UInt32.ofNat value ↔
      instruction.offset.toNat = value + segmentBase (ofBytes code) index := by
  obtain ⟨hbound, -⟩ := List.getElem?_eq_some_iff.mp hinstruction
  have hbase := baseAt_le_offset hsize hinstruction
  rw [segmentBase_eq hbound, ← UInt32.toNat_inj, UInt32.toNat_sub_of_le _ _ hbase,
    UInt32.toNat_ofNat_of_lt' (Nat.lt_trans hvalue (by decide))]
  rw [UInt32.le_iff_toNat_le] at hbase
  omega

/-- No two instructions of a segment lie at one place. -/
theorem LandsOn.unique (hsize : code.length ≤ UInt32.size - 33) {other : Nat}
    (htarget : LandsOn (ofBytes code) index value target)
    (hother : LandsOn (ofBytes code) index value other) : target = other := by
  obtain ⟨found, hfound, hoffset⟩ := htarget.offset
  obtain ⟨found', hfound', hoffset'⟩ := hother.offset
  rcases Nat.lt_trichotomy target other with hlt | heq | hgt
  · have hless := Program.offset_lt_offset hsize hfound hfound' hlt
    omega
  · exact heq
  · have hless := Program.offset_lt_offset hsize hfound' hfound hgt
    omega

theorem segmentBase_congr {program : Program}
    (hsegment : (of program).segmentOf target = (of program).segmentOf index) :
    segmentBase program target = segmentBase program index := by
  rw [segmentBase, segmentBase, hsegment]

/-- Where a jump lands, by the offset that is shown there. -/
theorem landsOn_iff {program : Program} {landing : Instruction}
    (hlanding : program.instructions[target]? = some landing) :
    LandsOn program index value target ↔
      (of program).segmentOf target = (of program).segmentOf index ∧
        landing.offset.toNat = value + segmentBase program target := by
  constructor
  · intro hlands
    obtain ⟨found, hfound, hoffset⟩ := hlands.offset
    rw [hlanding] at hfound
    rw [Option.some.inj hfound, segmentBase_congr hlands.segment]
    exact ⟨hlands.segment, hoffset⟩
  · rintro ⟨hsegment, hoffset⟩
    rw [segmentBase_congr hsegment] at hoffset
    exact ⟨hsegment, landing, hlanding, hoffset⟩

/-- The search for a target finds the instruction of the segment at a place. -/
theorem targetIn_placed_eq_some_iff (hsize : code.length ≤ UInt32.size - 33)
    (hindex : index < (ofBytes code).instructions.length) (hvalue : value < UInt16.size) :
    targetIn (splitOf (ofBytes code)) (placed (ofBytes code)) index (UInt32.ofNat value) =
        some target ↔
      LandsOn (ofBytes code) index value target := by
  have hplaced {place : Nat} {found : Instruction}
      (hfound : (placed (ofBytes code))[place]? = some found) :
      ∃ instruction, (ofBytes code).instructions[place]? = some instruction ∧
        (found.offset = UInt32.ofNat value ↔
          instruction.offset.toNat = value + segmentBase (ofBytes code) place) := by
    rw [getElem?_placed] at hfound
    obtain ⟨instruction, hinstruction, rfl⟩ := Option.map_eq_some_iff.mp hfound
    exact ⟨instruction, hinstruction, offset_sub_baseAt_eq_iff hsize hvalue hinstruction⟩
  have hlands {place : Nat} {instruction : Instruction}
      (hsplit : place < splitOf (ofBytes code) ↔ index < splitOf (ofBytes code))
      (hinstruction : (ofBytes code).instructions[place]? = some instruction)
      (hoffset : instruction.offset.toNat = value + segmentBase (ofBytes code) place) :
      LandsOn (ofBytes code) index value place := by
    obtain ⟨hbound, -⟩ := List.getElem?_eq_some_iff.mp hinstruction
    have hsegment := (segmentOf_eq_iff hindex hbound).mpr hsplit
    exact ⟨hsegment, instruction, hinstruction, by rw [hoffset, segmentBase_congr hsegment]⟩
  rw [targetIn_eq_some_iff]
  constructor
  · rintro ⟨hsplit, ⟨found, hfound, hoffset⟩, -⟩
    obtain ⟨instruction, hinstruction, hplace⟩ := hplaced hfound
    exact hlands hsplit hinstruction (hplace.mp hoffset)
  · intro hland
    obtain ⟨instruction, hinstruction, hoffset⟩ := hland.offset
    obtain ⟨hbound, -⟩ := List.getElem?_eq_some_iff.mp hinstruction
    rw [← segmentBase_congr hland.segment] at hoffset
    refine ⟨(segmentOf_eq_iff hindex hbound).mp hland.segment, ?_, ?_⟩
    · refine ⟨_, by rw [getElem?_placed, hinstruction, Option.map_some], ?_⟩
      exact (offset_sub_baseAt_eq_iff hsize hvalue hinstruction).mpr hoffset
    · intro later other hlater hsplit hother hsame
      obtain ⟨instruction', hinstruction', hplace⟩ := hplaced hother
      have hunique := LandsOn.unique hsize hland (hlands hsplit hinstruction' (hplace.mp hsame))
      omega

end Places

/-! ### Resolved jumps -/

/-- At an index there is a jump, right behind a push of one or two bytes whose immediate reads as a
possible offset. -/
def KnownJump (program : Program) (index value : Nat) : Prop :=
  ∃ pushed, StaticJump program index pushed ∧ pushed.immediateNumber? = some value ∧
    value < UInt32.size

/-- Exactly the known jumps are resolved, each at its value. -/
theorem jumpOffset?_beforeIn_eq_some_iff {program : Program} {index : Nat} {instruction : Instruction}
    (hinstruction : program.instructions[index]? = some instruction) {offset : UInt32} :
    instruction.jumpOffset? (beforeIn (splitOf program) program.instructions index) = some offset ↔
      KnownJump program index offset.toNat := by
  constructor
  · rw [beforeIn]
    split_ifs with hfirst
    · intro hoffset
      cases hoffset
    · cases hbefore : program.instructions[index - 1]? with
      | none =>
        intro hoffset
        cases hoffset
      | some pushed =>
        rw [Instruction.jumpOffset?, Option.ite_none_right_eq_some, Bool.and_eq_true,
          Option.map_eq_some_iff]
        rintro ⟨⟨hjump, hpush⟩, value, hvalue, rfl⟩
        obtain ⟨hnumber, hbound⟩ := Option.filter_eq_some_iff.mp hvalue
        rw [decide_eq_true_eq] at hbound
        rw [UInt32.toNat_ofNat_of_lt' hbound]
        exact ⟨pushed, ⟨by omega, hbefore, hpush, instruction, hinstruction, hjump⟩, hnumber, hbound⟩
  · rintro ⟨pushed, hstatic, hnumber, hbound⟩
    obtain ⟨jump, hjump, hisJump⟩ := hstatic.exists_jump
    obtain rfl : jump = instruction := Option.some.inj (hjump.symm.trans hinstruction)
    have hpos := hstatic.pos
    have hne := hstatic.ne_splitOf
    rw [beforeIn, if_neg (by omega), hstatic.getElem?_before]
    simp [Instruction.jumpOffset?, hisJump, hstatic.isShortPush, hnumber, hbound]

/-- Without a short push right before a jump nothing is resolved. -/
theorem jumpOffset?_beforeIn_eq_none {program : Program} {index : Nat} {instruction : Instruction}
    (hinstruction : program.instructions[index]? = some instruction)
    (hstatic : ∀ pushed, ¬ StaticJump program index pushed) :
    instruction.jumpOffset? (beforeIn (splitOf program) program.instructions index) = none := by
  rw [Option.eq_none_iff_forall_ne_some]
  intro offset hoffset
  obtain ⟨pushed, hpushed, -⟩ := (jumpOffset?_beforeIn_eq_some_iff hinstruction).mp hoffset
  exact hstatic pushed hpushed

/-- What a jump behind a short push lands on. -/
theorem StaticJump.exists_bytes {code : List UInt8} (hsize : code.length ≤ UInt32.size - 33)
    {index : Nat} {pushed : Instruction} (hstatic : StaticJump (ofBytes code) index pushed) :
    ∃ bytes, pushed.immediate = some (Hex.marked bytes) ∧ pushed.immediateBytes? = some bytes ∧
      ∀ target, ((of (ofBytes code)).instructions[index]?.bind (·.jumpTarget)) = some target ↔
        LandsOn (ofBytes code) index (Hex.bigEndian bytes) target := by
  obtain ⟨jump, hjump, hisJump⟩ := hstatic.exists_jump
  obtain ⟨hbound, -⟩ := List.getElem?_eq_some_iff.mp hjump
  have hpos := hstatic.pos
  have hnext : (ofBytes code).instructions[index - 1 + 1]? = some jump := by
    rw [Nat.sub_add_cancel hpos, hjump]
  obtain ⟨bytes, himmediate, hbytes, hnumber, hvalue⟩ :=
    immediateNumber?_of_isShortPush hstatic.getElem?_before hnext hstatic.isShortPush
  have hword : Hex.bigEndian bytes < UInt32.size := Nat.lt_trans hvalue (by decide)
  have hoffset : jump.jumpOffset? (beforeIn (splitOf (ofBytes code)) (ofBytes code).instructions index) =
      some (UInt32.ofNat (Hex.bigEndian bytes)) := by
    rw [jumpOffset?_beforeIn_eq_some_iff hjump, UInt32.toNat_ofNat_of_lt' hword]
    exact ⟨pushed, hstatic, hnumber, hword⟩
  refine ⟨bytes, himmediate, hbytes, fun target ↦ ?_⟩
  rw [getElem?_instructions_of, hjump, Option.map_some, Option.bind_some, annotatedAt, hoffset]
  exact targetIn_placed_eq_some_iff hsize hbound hvalue

/-- Nothing but a jump behind a short push has a target. -/
theorem bind_jumpTarget_eq_none {code : List UInt8} {index : Nat}
    (hstatic : ∀ pushed, ¬ StaticJump (ofBytes code) index pushed) :
    ((of (ofBytes code)).instructions[index]?.bind (·.jumpTarget)) = none := by
  rw [getElem?_instructions_of]
  cases hinstruction : (ofBytes code).instructions[index]? with
  | none => rfl
  | some instruction =>
    obtain ⟨chunk, -, hchunk⟩ := Program.exists_chunk hinstruction
    rw [Option.map_some, Option.bind_some, annotatedAt,
      jumpOffset?_beforeIn_eq_none hinstruction hstatic]
    dsimp only
    rw [hchunk]
    rfl

/-- The targets of the jumps of a decoded program. Assumes: code that is too short for an offset to
wrap around. A jump right behind a push of one or two bytes has the instruction of its own segment as
its target that lies at the number of the bytes pushed, counted from the start of the segment, and
none if there is no such instruction; there is never more than one. Nothing else has a target. -/
theorem jumpTarget_decode (text : String) (hsize : (Hex.code text).length ≤ UInt32.size - 33) :
    (∀ (index : Nat) (pushed : Instruction), StaticJump (decode text) index pushed →
        ∃ bytes, pushed.immediateBytes? = some bytes ∧
          ∀ target, ((of (decode text)).instructions[index]?.bind (·.jumpTarget)) = some target ↔
            LandsOn (decode text) index (Hex.bigEndian bytes) target) ∧
      (∀ index value first second, LandsOn (decode text) index value first →
        LandsOn (decode text) index value second → first = second) ∧
      ∀ index, (∀ pushed, ¬ StaticJump (decode text) index pushed) →
        ((of (decode text)).instructions[index]?.bind (·.jumpTarget)) = none := by
  refine ⟨fun index pushed hstatic ↦ ?_, fun index value first second ↦ LandsOn.unique hsize,
    fun index ↦ bind_jumpTarget_eq_none⟩
  obtain ⟨bytes, -, hbytes, htarget⟩ := StaticJump.exists_bytes hsize hstatic
  exact ⟨bytes, hbytes, htarget⟩

/-- A constructor of seven bytes that stops, and a contract behind it that jumps to its last
instruction. -/
def jumpBehindStop : Program :=
  ⟨[{ opcode := "push1", offset := 0, length := 2, stackInputs := 0, stackOutputs := 1,
      immediate := some "0x80" },
    { opcode := "push1", offset := 2, length := 2, stackInputs := 0, stackOutputs := 1,
      immediate := some "0x40" },
    { opcode := "mstore", offset := 4, length := 1, stackInputs := 2, stackOutputs := 0 },
    { opcode := "jumpdest", offset := 5, length := 1, stackInputs := 0, stackOutputs := 0 },
    { opcode := "stop", offset := 6, length := 1, stackInputs := 0, stackOutputs := 0 },
    { opcode := "push1", offset := 7, length := 2, stackInputs := 0, stackOutputs := 1,
      immediate := some "0x80" },
    { opcode := "push1", offset := 9, length := 2, stackInputs := 0, stackOutputs := 1,
      immediate := some "0x40" },
    { opcode := "mstore", offset := 11, length := 1, stackInputs := 2, stackOutputs := 0 },
    { opcode := "push1", offset := 12, length := 2, stackInputs := 0, stackOutputs := 1,
      immediate := some "0x08" },
    { opcode := "jump", offset := 14, length := 1, stackInputs := 1, stackOutputs := 0 },
    { opcode := "jumpdest", offset := 15, length := 1, stackInputs := 0, stackOutputs := 0 }]⟩

/-- A jump to the start of its program, and the jump of `jumpBehindStop`. The eight that is pushed
there counts from the start of the runtime segment, which has seven bytes in front of it. -/
theorem jumpTarget_decode_in_each_segment :
    ((of (decode "0x600056")).instructions[1]?.bind (·.jumpTarget)) = some 0 ∧
      decode "0x60806040525b0060806040526008565b" = jumpBehindStop ∧
      (of jumpBehindStop).segmentOf 9 = .runtime ∧ segmentBase jumpBehindStop 9 = 7 ∧
      LandsOn jumpBehindStop 9 8 10 ∧
      (jumpBehindStop.instructions[10]?.map (·.offset)) = some 15 ∧
      ((of jumpBehindStop).instructions[9]?.bind (·.jumpTarget)) = some 10 := by
  have hstart : decode "0x600056" =
      ⟨[{ opcode := "push1", offset := 0, length := 2, stackInputs := 0, stackOutputs := 1,
          immediate := some "0x00" },
        { opcode := "jump", offset := 2, length := 1, stackInputs := 1, stackOutputs := 0 }]⟩ := by
    decide +kernel
  have hbehind : decode "0x60806040525b0060806040526008565b" = jumpBehindStop := by decide +kernel
  have hlands : LandsOn jumpBehindStop 9 8 10 := ⟨by decide +kernel, _, rfl, by decide +kernel⟩
  refine ⟨?_, hbehind, by decide +kernel, by decide +kernel, hlands, rfl, ?_⟩
  · obtain ⟨hstatic, -, -⟩ := jumpTarget_decode "0x600056" (by decide +kernel)
    rw [hstart] at hstatic ⊢
    obtain ⟨bytes, hbytes, htarget⟩ := hstatic 1 _ ⟨Nat.one_pos, rfl, rfl, _, rfl, rfl⟩
    obtain rfl : [0x00] = bytes := Option.some.inj hbytes
    exact (htarget 0).mpr ⟨rfl, _, rfl, rfl⟩
  · obtain ⟨hstatic, -, -⟩ :=
      jumpTarget_decode "0x60806040525b0060806040526008565b" (by decide +kernel)
    rw [hbehind] at hstatic
    obtain ⟨bytes, hbytes, htarget⟩ := hstatic 9 _ ⟨by decide, rfl, rfl, _, rfl, rfl⟩
    obtain rfl : [0x08] = bytes := Option.some.inj hbytes
    exact (htarget 10).mpr hlands

end CodeTrail.Listing
