import CodeTrail.Proofs.Listing.Jumps
import Mathlib.Order.Bounds.Defs

/-!
# What annotating changes

A program may be anything: offsets in any order, labels, comments and targets that are there already.
`Changes` lists what annotating does to the instruction at an index, field by field, and
`changes_of_program` says that it does nothing else, as long as no offset of the runtime segment would
fall below zero (`RuntimeInOrder`).

It also says what happens when a listing is annotated as a program once more: both prologues get their
comment again, and that is all. Prologues are found where they were, since opcodes and immediates are
kept; the runtime segment starts at zero by then, so offsets stay (`baseAt_instructions_of`), and with
them the places that jumps are resolved to (`annotatedAt_annotatedAt`).
-/

set_option autoImplicit false
set_option relaxedAutoImplicit false

namespace CodeTrail.Listing

/-- No instruction from the start of the runtime segment on lies before the one it starts with. -/
def RuntimeInOrder (program : Program) : Prop :=
  ∀ start first, (of program).runtimeStart = some start →
    program.instructions[start]? = some first →
      ∀ instruction ∈ program.instructions.drop start, first.offset ≤ instruction.offset

/-- A place of a listing lies in the segment of an index and is shown at an offset. -/
def LiesAt (listing : Listing) (index value place : Nat) : Prop :=
  listing.segmentOf place = listing.segmentOf index ∧
    ∃ found, listing.instructions[place]? = some found ∧ found.offset.toNat = value

/-- What annotating a program changes in the instruction at an index, and what it keeps. -/
structure Changes (program : Program) (index : Nat) (before after : Instruction) : Prop where
  opcode : after.opcode = before.opcode
  length : after.length = before.length
  stackInputs : after.stackInputs = before.stackInputs
  stackOutputs : after.stackOutputs = before.stackOutputs
  immediate : after.immediate = before.immediate
  /-- The offset counts from the start of the segment. -/
  offset : after.offset.toNat + segmentBase program index = before.offset.toNat
  /-- The first and the second prologue get a comment behind those that are there. -/
  comments : after.comments = before.comments ++ commentsAt (of program).prologues index
  /-- A landing place gets its number among the landing places as its label. -/
  label : after.label =
    if before.is "jumpdest" then
      some ("label" ++ toString (landings (program.instructions.take (index + 1))))
    else before.label
  /-- A known jump gets the last place of its segment at its value as its target, or none. -/
  jumpTarget_of_knownJump : ∀ value, KnownJump program index value →
    ∀ target, after.jumpTarget = some target ↔
      IsGreatest {place | (of program).LiesAt index value place} target
  /-- All other targets stay. -/
  jumpTarget_of_not_knownJump : (∀ value, ¬ KnownJump program index value) →
    after.jumpTarget = before.jumpTarget

/-! ### One run -/

section OneRun

variable {program : Program} {index : Nat} {instruction : Instruction}

/-- No offset falls below zero. -/
theorem RuntimeInOrder.baseAt_le (horder : RuntimeInOrder program)
    (hinstruction : program.instructions[index]? = some instruction) :
    baseAt (splitOf program) program.instructions index ≤ instruction.offset := by
  obtain ⟨hbound, -⟩ := List.getElem?_eq_some_iff.mp hinstruction
  rw [baseAt]
  split_ifs with hsplit
  · exact UInt32.zero_le
  · have hstart := runtimeStart_of_splitOf_le hbound (Nat.le_of_not_lt hsplit)
    have hfirst : program.instructions[splitOf program]? =
        some program.instructions[splitOf program] :=
      List.getElem?_eq_getElem (by omega)
    rw [hfirst, Option.map_some, Option.getD_some]
    refine horder _ _ hstart hfirst instruction (List.mem_of_getElem? (i := index - splitOf program) ?_)
    rw [List.getElem?_drop, Nat.add_sub_cancel' (Nat.le_of_not_lt hsplit), hinstruction]

/-- The target of a jump is the last place of its segment that is shown at its value. -/
theorem targetIn_placed_eq_some_iff_isGreatest (hbound : index < program.instructions.length)
    {offset : UInt32} {target : Nat} :
    targetIn (splitOf program) (placed program) index offset = some target ↔
      IsGreatest {place | (of program).LiesAt index offset.toNat place} target := by
  have hliesAt (place : Nat) : (of program).LiesAt index offset.toNat place ↔
      (place < splitOf program ↔ index < splitOf program) ∧
        ∃ found, (placed program)[place]? = some found ∧ found.offset = offset := by
    rw [LiesAt, getElem?_instructions_of, getElem?_placed]
    cases hplace : program.instructions[place]? with
    | none => simp
    | some there =>
      obtain ⟨hthere, -⟩ := List.getElem?_eq_some_iff.mp hplace
      rw [segmentOf_eq_iff hbound hthere]
      simp [annotatedAt, UInt32.toNat_inj]
  rw [targetIn_eq_some_iff, ← and_assoc]
  refine and_congr (hliesAt target).symm ⟨?_, ?_⟩
  · intro hlast place hplace
    obtain ⟨hsegment, found, hfound, hoffset⟩ := (hliesAt place).mp hplace
    by_contra hlater
    exact hlast place found (Nat.lt_of_not_le hlater) hsegment hfound hoffset
  · intro hgreatest later other hlater hsegment hother hoffset
    exact Nat.not_le_of_lt hlater (hgreatest ((hliesAt later).mpr ⟨hsegment, other, hother, hoffset⟩))

/-- Annotating does to an instruction what it may. -/
theorem changes_annotatedAt (horder : RuntimeInOrder program)
    (hinstruction : program.instructions[index]? = some instruction) :
    Changes program index instruction (annotatedAt program index instruction) where
  opcode := rfl
  length := rfl
  stackInputs := rfl
  stackOutputs := rfl
  immediate := rfl
  offset := by
    obtain ⟨hbound, -⟩ := List.getElem?_eq_some_iff.mp hinstruction
    exact toNat_offset_annotatedAt hbound (horder.baseAt_le hinstruction)
  comments := rfl
  label := by
    rw [annotatedAt, labelFor, List.take_add_one, hinstruction, landings_append, Option.toList_some,
      landings_cons]
    split_ifs with hlanding
    · rw [Nat.add_comm 1]
      rfl
    · rfl
  jumpTarget_of_knownJump := by
    intro value hknown target
    obtain ⟨hbound, -⟩ := List.getElem?_eq_some_iff.mp hinstruction
    have hvalue : value < UInt32.size := by
      obtain ⟨-, -, -, hvalue⟩ := hknown
      exact hvalue
    have hoffset : instruction.jumpOffset?
        (beforeIn (splitOf program) program.instructions index) = some (UInt32.ofNat value) := by
      rw [jumpOffset?_beforeIn_eq_some_iff hinstruction, UInt32.toNat_ofNat_of_lt' hvalue]
      exact hknown
    rw [annotatedAt, hoffset]
    dsimp only
    rw [targetIn_placed_eq_some_iff_isGreatest hbound, UInt32.toNat_ofNat_of_lt' hvalue]
  jumpTarget_of_not_knownJump := by
    intro hunknown
    have hoffset : instruction.jumpOffset?
        (beforeIn (splitOf program) program.instructions index) = none := by
      rw [Option.eq_none_iff_forall_ne_some]
      intro offset hoffset
      exact hunknown _ ((jumpOffset?_beforeIn_eq_some_iff hinstruction).mp hoffset)
    rw [annotatedAt, hoffset]

end OneRun

/-! ### Another run -/

section AnotherRun

variable (program : Program) (index : Nat)

theorem prologuesFrom_instructions_of :
    prologuesFrom 0 (of program).instructions = prologuesFrom 0 program.instructions :=
  prologuesFrom_congr (map_instructions_of program fun _ _ ↦ rfl) 0

theorem splitOf_instructions_of : splitOf ⟨(of program).instructions⟩ = splitOf program := by
  rw [splitOf, splitOf, prologuesFrom_instructions_of, length_instructions_of]

/-- The segments of a listing start at zero. -/
theorem baseAt_instructions_of :
    baseAt (splitOf program) (of program).instructions index = 0 := by
  rw [baseAt]
  split_ifs with hindex
  · rfl
  · rw [getElem?_instructions_of]
    cases hfirst : program.instructions[splitOf program]? with
    | none => rfl
    | some first =>
      rw [Option.map_some, Option.map_some, Option.getD_some, annotatedAt, baseAt,
        if_neg (Nat.lt_irrefl _), hfirst]
      exact UInt32.sub_self first.offset

/-- The offsets of a listing stay. -/
theorem map_offset_placed_instructions_of :
    (placed ⟨(of program).instructions⟩).map (·.offset) = (placed program).map (·.offset) := by
  apply List.ext_getElem?
  intro index
  rw [List.getElem?_map, List.getElem?_map, getElem?_placed, getElem?_placed,
    splitOf_instructions_of, baseAt_instructions_of, getElem?_instructions_of, Option.map_map,
    Option.map_map, Option.map_map]
  congr 1
  funext instruction
  exact UInt32.sub_zero _

theorem jumpOffset?_instructions_of (instruction : Instruction) :
    (annotatedAt program index instruction).jumpOffset?
        (beforeIn (splitOf program) (of program).instructions index) =
      instruction.jumpOffset? (beforeIn (splitOf program) program.instructions index) := by
  rw [beforeIn, beforeIn]
  split_ifs
  · rfl
  · rw [getElem?_instructions_of]
    cases program.instructions[index - 1]? <;> rfl

theorem landings_take_instructions_of :
    landings ((of program).instructions.take index) = landings (program.instructions.take index) :=
  landings_take_congr (map_instructions_of program fun _ _ ↦ rfl) index

/-- Annotating an annotated instruction adds its comments and nothing else. -/
theorem annotatedAt_annotatedAt (instruction : Instruction) :
    annotatedAt ⟨(of program).instructions⟩ index (annotatedAt program index instruction) =
      { annotatedAt program index instruction with
        comments := (annotatedAt program index instruction).comments ++
          commentsAt (of program).prologues index } := by
  have htarget : targetIn (splitOf program) (placed ⟨(of program).instructions⟩) index =
      targetIn (splitOf program) (placed program) index :=
    funext fun offset ↦ targetIn_congr (map_offset_placed_instructions_of program) _ _ offset
  have hlabel : labelFor (1 + landings (program.instructions.take index))
      (annotatedAt program index instruction) = (annotatedAt program index instruction).label := by
    have hlanding : (annotatedAt program index instruction).is "jumpdest" =
        instruction.is "jumpdest" := rfl
    rw [labelFor, hlanding]
    split_ifs with his
    · rw [annotatedAt, labelFor, if_pos his]
    · rfl
  rw [annotatedAt, splitOf_instructions_of, baseAt_instructions_of, landings_take_instructions_of,
    hlabel, prologuesFrom_instructions_of, jumpOffset?_instructions_of, htarget, UInt32.sub_zero]
  cases hoffset : instruction.jumpOffset?
      (beforeIn (splitOf program) program.instructions index) with
  | none => rfl
  | some offset =>
    have hjump : (annotatedAt program index instruction).jumpTarget =
        targetIn (splitOf program) (placed program) index offset := by
      rw [annotatedAt, hoffset]
    dsimp only
    rw [← hjump]
    rfl

/-- A listing annotated once more is the same listing with the comments added again. -/
theorem of_instructions_of :
    of ⟨(of program).instructions⟩ =
      { of program with
        instructions := (of program).instructions.mapIdx fun index instruction ↦
          { instruction with
            comments := instruction.comments ++ commentsAt (of program).prologues index } } := by
  have hinstructions : (of ⟨(of program).instructions⟩).instructions =
      (of program).instructions.mapIdx fun index instruction ↦
        { instruction with
          comments := instruction.comments ++ commentsAt (of program).prologues index } := by
    apply List.ext_getElem?
    intro index
    rw [getElem?_instructions_of, List.getElem?_mapIdx, getElem?_instructions_of, Option.map_map,
      Option.map_map]
    congr 1
    funext instruction
    exact annotatedAt_annotatedAt program index instruction
  have hprologues : (of ⟨(of program).instructions⟩).prologues = (of program).prologues :=
    prologuesFrom_instructions_of program
  have hruntime : (of ⟨(of program).instructions⟩).runtimeStart = (of program).runtimeStart :=
    congrArg (·[1]?) hprologues
  rw [← hinstructions]
  dsimp only
  rw [← hprologues, ← hruntime]

end AnotherRun

/-- What annotating changes in a program whose runtime segment is in order: the number and order of
its instructions stay, each of them is changed as `Changes` tells, where the two prologues with a
comment are not one, and a listing annotated once more is the same but for those comments, which are
added again. -/
theorem changes_of_program {program : Program} (horder : RuntimeInOrder program) :
    (of program).instructions.length = program.instructions.length ∧
      (∀ index before after, program.instructions[index]? = some before →
        (of program).instructions[index]? = some after → Changes program index before after) ∧
      (of program).prologues.Pairwise (· < ·) ∧
      of ⟨(of program).instructions⟩ =
        { of program with
          instructions := (of program).instructions.mapIdx fun index instruction ↦
            { instruction with
              comments := instruction.comments ++ commentsAt (of program).prologues index } } := by
  refine ⟨length_instructions_of program, fun index before after hbefore hafter ↦ ?_,
    (pairwise_prologuesFrom 0 program.instructions).imp fun hfar ↦ by omega,
    of_instructions_of program⟩
  rw [getElem?_instructions_of, hbefore] at hafter
  rw [← Option.some.inj hafter]
  exact changes_annotatedAt horder hbefore

/-- A program made by hand, with a comment, a label and a target that are there already and several
instructions of its runtime segment at one offset. -/
def handmade : Program where
  instructions :=
    [{ opcode := "push1", offset := 7, length := 2, stackInputs := 0, stackOutputs := 1,
       immediate := some "0x80" },
      { opcode := "push1", offset := 7, length := 2, stackInputs := 0, stackOutputs := 1,
        immediate := some "0x40" },
      { opcode := "mstore", offset := 0, length := 1, stackInputs := 2, stackOutputs := 0 },
      { opcode := "push1", offset := 10, length := 2, stackInputs := 0, stackOutputs := 1,
        immediate := some "0x80", comments := ["kept"] },
      { opcode := "push1", offset := 12, length := 2, stackInputs := 0, stackOutputs := 1,
        immediate := some "0x40" },
      { opcode := "mstore", offset := 12, length := 1, stackInputs := 2, stackOutputs := 0 },
      { opcode := "push2", offset := 14, length := 3, stackInputs := 0, stackOutputs := 1,
        immediate := some "0x0x02" },
      { opcode := "jump", offset := 14, length := 1, stackInputs := 1, stackOutputs := 0,
        jumpTarget := some 0 },
      { opcode := "jumpdest", offset := 12, length := 1, stackInputs := 0, stackOutputs := 0,
        label := some "replaced" }]

theorem changes_of_handmade :
    RuntimeInOrder handmade ∧ KnownJump handmade 7 2 ∧
      IsGreatest {place | (of handmade).LiesAt 7 2 place} 8 ∧
      ((of ⟨(of handmade).instructions⟩).instructions[3]?.map (·.comments)) =
        some ["kept", "Contract", "Contract"] := by
  have hruntime : (of handmade).runtimeStart = some 3 := by decide +kernel
  have horder : RuntimeInOrder handmade := by
    intro start first hstart hfirst
    obtain rfl : 3 = start := Option.some.inj (hruntime.symm.trans hstart)
    obtain rfl := Option.some.inj hfirst
    decide +kernel
  have hknown : KnownJump handmade 7 2 :=
    ⟨_, ⟨by decide, rfl, rfl, _, rfl, rfl⟩, by decide +kernel, by decide⟩
  have hjump : (of handmade).instructions[7]? =
      some { opcode := "jump", offset := 4, length := 1, stackInputs := 1, stackOutputs := 0,
             jumpTarget := some 8 } := by
    decide +kernel
  obtain ⟨-, hchanges, -, hagain⟩ := changes_of_program horder
  refine ⟨horder, hknown, ?_, ?_⟩
  · exact ((hchanges 7 _ _ rfl hjump).jumpTarget_of_knownJump 2 hknown 8).mp rfl
  · rw [hagain]
    decide +kernel

end CodeTrail.Listing
