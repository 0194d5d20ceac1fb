import CodeTrail.Program.Listing
import Mathlib.Data.List.Basic

/-!
# What annotating does to the instruction at an index

Each pass keeps the number and order of instructions, so it is told by what it does to the
instruction at an index: `getElem?_noted`, `getElem?_rebased`, `getElem?_labelled` and
`getElem?_resolved`. Together they give `getElem?_instructions_of` and `instructions_of`: a listing
holds the instructions of the program as `annotatedAt` changes them, for every program whatsoever.

The target of a jump is the last instruction of the jump's segment at the offset it goes to
(`targetIn_eq_some_iff`), and it depends on nothing but the offsets (`targetIn_congr`).
-/

set_option autoImplicit false
set_option relaxedAutoImplicit false

namespace CodeTrail

namespace Listing

/-! ### Comments -/

/-- The comments over the prologues that are found at an index. -/
def commentsAt (prologues : List Nat) (index : Nat) : List String :=
  (if prologues[0]? = some index then ["Initialization"] else []) ++
    if prologues[1]? = some index then ["Contract"] else []

theorem mem_commentsAt_iff {prologues : List Nat} {index : Nat} {comment : String} :
    comment ∈ commentsAt prologues index ↔
      (comment = "Initialization" ∧ prologues[0]? = some index) ∨
        (comment = "Contract" ∧ prologues[1]? = some index) := by
  rw [commentsAt, List.mem_append]
  by_cases hfirst : prologues[0]? = some index <;> by_cases hsecond : prologues[1]? = some index <;>
    simp [hfirst, hsecond]

theorem getElem?_commented (comment : String) (place : Option Nat) (instructions : List Instruction)
    (index : Nat) :
    (commented comment place instructions)[index]? =
      instructions[index]?.map fun instruction ↦
        { instruction with
          comments := instruction.comments ++ if place = some index then [comment] else [] } := by
  cases place with
  | none => simp [commented]
  | some place =>
    rw [commented, List.getElem?_modify]
    by_cases hplace : place = index
    · simp [hplace]
    · simp [hplace]

theorem getElem?_noted (prologues : List Nat) (instructions : List Instruction) (index : Nat) :
    (noted prologues instructions)[index]? =
      instructions[index]?.map fun instruction ↦
        { instruction with comments := instruction.comments ++ commentsAt prologues index } := by
  rw [noted, getElem?_commented, getElem?_commented, Option.map_map]
  simp only [Function.comp_def, List.append_assoc, commentsAt]

/-! ### Offsets -/

/-- Two segments that are worked on one by one keep their indices. -/
theorem getElem?_segments {split : Nat} {instructions first second : List Instruction}
    (hfirst : first.length = (instructions.take split).length)
    (hsecond : second.length = (instructions.drop split).length) (index : Nat) :
    (first ++ second)[index]? = if index < split then first[index]? else second[index - split]? := by
  rw [List.length_take] at hfirst
  rw [List.length_drop] at hsecond
  split_ifs with hindex
  · by_cases hbound : index < first.length
    · rw [List.getElem?_append_left hbound]
    · rw [List.getElem?_eq_none (Nat.le_of_not_lt hbound), List.getElem?_eq_none_iff,
        List.length_append]
      omega
  · rw [List.getElem?_append_right (by omega)]
    by_cases hsplit : split ≤ instructions.length
    · rw [hfirst, Nat.min_eq_left hsplit]
    · rw [List.getElem?_eq_none (by omega), List.getElem?_eq_none (by omega)]

/-- The offset that the segment of an index starts at. -/
def baseAt (split : Nat) (instructions : List Instruction) (index : Nat) : UInt32 :=
  if index < split then 0 else (instructions[split]?.map (·.offset)).getD 0

theorem getElem?_rebasedSegment (segment : List Instruction) (index : Nat) :
    (rebasedSegment segment)[index]? =
      segment[index]?.map fun instruction ↦
        { instruction with
          offset := instruction.offset - (segment[0]?.map (·.offset)).getD 0 } := by
  cases segment with
  | nil => rfl
  | cons first rest =>
    rw [rebasedSegment, List.getElem?_map]
    rfl

theorem length_rebasedSegment (segment : List Instruction) :
    (rebasedSegment segment).length = segment.length := by
  cases segment with
  | nil => rfl
  | cons first rest => rw [rebasedSegment, List.length_map]

theorem getElem?_rebased (split : Nat) (instructions : List Instruction) (index : Nat) :
    (rebased split instructions)[index]? =
      instructions[index]?.map fun instruction ↦
        { instruction with offset := instruction.offset - baseAt split instructions index } := by
  rw [rebased, getElem?_segments rfl (length_rebasedSegment _)]
  split_ifs with hindex
  · simp [List.getElem?_take_of_lt hindex, baseAt, hindex]
  · rw [getElem?_rebasedSegment, List.getElem?_drop, List.getElem?_drop,
      Nat.add_sub_cancel' (Nat.le_of_not_lt hindex)]
    simp [baseAt, hindex]

/-! ### Labels -/

/-- The number of places where a jump may land. -/
def landings (instructions : List Instruction) : Nat :=
  instructions.countP (·.is "jumpdest")

@[simp] theorem landings_cons (first : Instruction) (rest : List Instruction) :
    landings (first :: rest) = landings rest + if first.is "jumpdest" then 1 else 0 :=
  List.countP_cons

theorem landings_append (first second : List Instruction) :
    landings (first ++ second) = landings first + landings second :=
  List.countP_append

/-- Landing places are told by opcodes. -/
theorem landings_take_congr {first second : List Instruction}
    (hopcodes : first.map (·.opcode) = second.map (·.opcode)) (index : Nat) :
    landings (first.take index) = landings (second.take index) := by
  have hcount (instructions : List Instruction) :
      landings instructions = (instructions.map (·.opcode)).countP (· == "jumpdest") := by
    rw [landings, List.countP_map]
    rfl
  rw [hcount, hcount, List.map_take, List.map_take, hopcodes]

/-- The label of an instruction, given the number of the next label. -/
def labelFor (number : Nat) (instruction : Instruction) : Option String :=
  if instruction.is "jumpdest" then some ("label" ++ toString number) else instruction.label

theorem getElem?_labelled (number : Nat) (instructions : List Instruction) (index : Nat) :
    (labelled number instructions)[index]? =
      instructions[index]?.map fun instruction ↦
        { instruction with
          label := labelFor (number + landings (instructions.take index)) instruction } := by
  induction instructions generalizing number index with
  | nil => rfl
  | cons first rest ih =>
    rw [labelled]
    cases index with
    | zero => split_ifs with hfirst <;> simp [labelFor, landings, hfirst]
    | succ index =>
      rw [List.getElem?_cons_succ, List.take_succ_cons, landings_cons]
      split_ifs with hfirst
      · rw [List.getElem?_cons_succ, ih, Nat.add_assoc, Nat.add_comm 1]
      · rw [List.getElem?_cons_succ, ih, Nat.add_zero]

/-! ### Jumps -/

theorem indexAt?_cons (start : Nat) (first : Instruction) (rest : List Instruction)
    (offset : UInt32) :
    indexAt? start (first :: rest) offset =
      (indexAt? (start + 1) rest offset).or
        (if first.offset = offset then some start else none) := by
  rw [indexAt?, List.zipIdx_cons, List.reverse_cons, List.find?_append, Option.map_or, indexAt?]
  congr 1
  by_cases hfirst : first.offset = offset <;> simp [hfirst]

/-- Counting from elsewhere moves what is found. -/
theorem indexAt?_eq_map (start : Nat) (segment : List Instruction) (offset : UInt32) :
    indexAt? start segment offset = (indexAt? 0 segment offset).map (start + ·) := by
  induction segment generalizing start with
  | nil => rfl
  | cons first rest ih =>
    rw [indexAt?_cons, indexAt?_cons, ih (start + 1), ih (0 + 1), Option.map_or, Option.map_map]
    congr 1
    · congr 1
      funext found
      exact (by omega : start + 1 + found = start + (0 + 1 + found))
    · split_ifs <;> rfl

theorem indexAt?_eq_none_iff {start : Nat} {segment : List Instruction} {offset : UInt32} :
    indexAt? start segment offset = none ↔
      ∀ instruction ∈ segment, instruction.offset ≠ offset := by
  induction segment generalizing start with
  | nil => simp [indexAt?]
  | cons first rest ih =>
    rw [indexAt?_cons, Option.or_eq_none_iff, ih, List.forall_mem_cons, and_comm]
    simp

/-- What the search finds lies at the offset, and nothing behind it does. -/
theorem indexAt?_eq_some {segment : List Instruction} {offset : UInt32} {target : Nat}
    (htarget : indexAt? 0 segment offset = some target) :
    (∃ found, segment[target]? = some found ∧ found.offset = offset) ∧
      ∀ (later : Nat) (other : Instruction), target < later → segment[later]? = some other →
        other.offset ≠ offset := by
  induction segment generalizing target with
  | nil => cases htarget
  | cons first rest ih =>
    rw [indexAt?_cons, indexAt?_eq_map] at htarget
    cases hrest : indexAt? 0 rest offset with
    | none =>
      rw [hrest, Option.map_none, Option.none_or] at htarget
      split_ifs at htarget with hfirst
      obtain rfl := Option.some.inj htarget
      refine ⟨⟨first, rfl, hfirst⟩, fun later other hlater hother ↦ ?_⟩
      obtain ⟨later, rfl⟩ := Nat.exists_eq_add_one.mpr hlater
      exact indexAt?_eq_none_iff.mp hrest other (List.mem_of_getElem? hother)
    | some found =>
      rw [hrest, Option.map_some, Option.some_or] at htarget
      obtain rfl := Option.some.inj htarget
      obtain ⟨⟨instruction, hinstruction, hoffset⟩, hlast⟩ := ih hrest
      rw [Nat.zero_add, Nat.add_comm]
      refine ⟨⟨instruction, hinstruction, hoffset⟩, fun later other hlater hother ↦ ?_⟩
      obtain ⟨later, rfl⟩ := Nat.exists_eq_add_one.mpr (Nat.zero_lt_of_lt hlater)
      exact hlast later other (Nat.lt_of_succ_lt_succ hlater) hother

/-- The search finds the last instruction at an offset. -/
theorem indexAt?_eq_some_iff {segment : List Instruction} {offset : UInt32} {target : Nat} :
    indexAt? 0 segment offset = some target ↔
      (∃ found, segment[target]? = some found ∧ found.offset = offset) ∧
        ∀ (later : Nat) (other : Instruction), target < later → segment[later]? = some other →
          other.offset ≠ offset := by
  refine ⟨indexAt?_eq_some, ?_⟩
  rintro ⟨⟨found, hfound, hoffset⟩, hlast⟩
  cases hindex : indexAt? 0 segment offset with
  | none => exact (indexAt?_eq_none_iff.mp hindex found (List.mem_of_getElem? hfound) hoffset).elim
  | some index =>
    obtain ⟨⟨instruction, hinstruction, hsame⟩, hlastIndex⟩ := indexAt?_eq_some hindex
    rcases Nat.lt_trichotomy index target with hlt | heq | hgt
    · exact (hlastIndex target found hlt hfound hoffset).elim
    · rw [heq]
    · exact (hlast index instruction hgt hinstruction hsame).elim

/-- The search looks at nothing but offsets. -/
theorem indexAt?_congr {first second : List Instruction}
    (hoffsets : first.map (·.offset) = second.map (·.offset)) (start : Nat) (offset : UInt32) :
    indexAt? start first offset = indexAt? start second offset := by
  induction first generalizing second start with
  | nil =>
    cases second with
    | nil => rfl
    | cons other others => cases hoffsets
  | cons instruction rest ih =>
    cases second with
    | nil => cases hoffsets
    | cons other others =>
      rw [List.map_cons, List.map_cons, List.cons_eq_cons] at hoffsets
      rw [indexAt?_cons, indexAt?_cons, ih hoffsets.2, hoffsets.1]

/-- The target of a jump at an index: the last instruction of its segment at an offset. -/
def targetIn (split : Nat) (instructions : List Instruction) (index : Nat) (offset : UInt32) :
    Option Nat :=
  if index < split then indexAt? 0 (instructions.take split) offset
  else indexAt? split (instructions.drop split) offset

/-- The instruction just before an index in the same segment. -/
def beforeIn (split : Nat) (instructions : List Instruction) (index : Nat) : Option Instruction :=
  if index = 0 ∨ index = split then none else instructions[index - 1]?

theorem linked_eq (find : UInt32 → Option Nat) (before : Option Instruction)
    (instruction : Instruction) :
    linked find before instruction =
      { instruction with
        jumpTarget :=
          match instruction.jumpOffset? before with
          | some offset => find offset
          | none => instruction.jumpTarget } := by
  rw [linked]
  cases instruction.jumpOffset? before <;> rfl

theorem getElem?_resolvedSegment (start : Nat) (segment : List Instruction) (index : Nat) :
    (resolvedSegment start segment)[index]? =
      segment[index]?.map
        (linked (indexAt? start segment) (if index = 0 then none else segment[index - 1]?)) := by
  rw [resolvedSegment, List.getElem?_zipWith']
  cases index with
  | zero => cases segment <;> rfl
  | succ index =>
    rw [List.getElem?_cons_succ, List.getElem?_map, Option.map_map, if_neg (Nat.succ_ne_zero index),
      Nat.add_sub_cancel]
    cases hbefore : segment[index]? with
    | none =>
      have hnone : segment[index + 1]? = none := by
        rw [List.getElem?_eq_none_iff] at hbefore ⊢
        omega
      rw [hnone]
      rfl
    | some before => rfl

theorem length_resolvedSegment (start : Nat) (segment : List Instruction) :
    (resolvedSegment start segment).length = segment.length := by
  simp [resolvedSegment]

theorem getElem?_resolved (split : Nat) (instructions : List Instruction) (index : Nat) :
    (resolved split instructions)[index]? =
      instructions[index]?.map
        (linked (targetIn split instructions index) (beforeIn split instructions index)) := by
  rw [resolved, getElem?_segments (length_resolvedSegment 0 _) (length_resolvedSegment split _)]
  split_ifs with hindex
  · have htarget : targetIn split instructions index = indexAt? 0 (instructions.take split) := by
      funext offset
      rw [targetIn, if_pos hindex]
    have hbefore : beforeIn split instructions index =
        if index = 0 then none else (instructions.take split)[index - 1]? := by
      rw [beforeIn, List.getElem?_take_of_lt (by omega)]
      simp only [Nat.ne_of_lt hindex, or_false]
    rw [getElem?_resolvedSegment, List.getElem?_take_of_lt hindex, htarget, hbefore]
  · have htarget : targetIn split instructions index =
        indexAt? split (instructions.drop split) := by
      funext offset
      rw [targetIn, if_neg hindex]
    have hbefore : beforeIn split instructions index =
        if index - split = 0 then none else (instructions.drop split)[index - split - 1]? := by
      rw [beforeIn, List.getElem?_drop]
      split_ifs with hfirst hzero hzero
      · rfl
      · omega
      · omega
      · rw [Nat.sub_sub, Nat.add_comm split 1, ← Nat.sub_sub, Nat.add_sub_cancel' (by omega)]
    have hcurrent : (instructions.drop split)[index - split]? = instructions[index]? := by
      rw [List.getElem?_drop, Nat.add_sub_cancel' (Nat.le_of_not_lt hindex)]
    rw [getElem?_resolvedSegment, hcurrent, htarget, hbefore]

/-- The target of a jump is the last instruction at its offset in its own segment. -/
theorem targetIn_eq_some_iff {split : Nat} {instructions : List Instruction} {index : Nat}
    {offset : UInt32} {target : Nat} :
    targetIn split instructions index offset = some target ↔
      (target < split ↔ index < split) ∧
        (∃ found, instructions[target]? = some found ∧ found.offset = offset) ∧
          ∀ (later : Nat) (other : Instruction), target < later → (later < split ↔ index < split) →
            instructions[later]? = some other → other.offset ≠ offset := by
  rw [targetIn]
  split_ifs with hindex
  · rw [indexAt?_eq_some_iff]
    simp only [hindex, iff_true]
    constructor
    · rintro ⟨⟨found, hfound, hoffset⟩, hlast⟩
      rw [List.getElem?_take, Option.ite_none_right_eq_some] at hfound
      refine ⟨hfound.1, ⟨found, hfound.2, hoffset⟩, fun later other hlater hsegment hother ↦ ?_⟩
      exact hlast later other hlater (by rw [List.getElem?_take_of_lt hsegment, hother])
    · rintro ⟨hsegment, ⟨found, hfound, hoffset⟩, hlast⟩
      refine ⟨⟨found, by rw [List.getElem?_take_of_lt hsegment, hfound], hoffset⟩,
        fun later other hlater hother ↦ ?_⟩
      rw [List.getElem?_take, Option.ite_none_right_eq_some] at hother
      exact hlast later other hlater hother.1 hother.2
  · rw [indexAt?_eq_map, Option.map_eq_some_iff]
    simp only [hindex, iff_false, Nat.not_lt, indexAt?_eq_some_iff, List.getElem?_drop]
    constructor
    · rintro ⟨place, ⟨hfound, hlast⟩, rfl⟩
      refine ⟨Nat.le_add_right split place, hfound, fun later other hlater hsegment hother ↦ ?_⟩
      obtain ⟨place', rfl⟩ := Nat.exists_eq_add_of_le hsegment
      exact hlast place' other (Nat.lt_of_add_lt_add_left hlater) hother
    · rintro ⟨hsegment, hfound, hlast⟩
      obtain ⟨place, rfl⟩ := Nat.exists_eq_add_of_le hsegment
      refine ⟨place, ⟨hfound, fun later other hlater hother ↦ ?_⟩, rfl⟩
      exact hlast (split + later) other (by omega) (Nat.le_add_right split later) hother

/-- The target of a jump depends on the offsets alone. -/
theorem targetIn_congr {first second : List Instruction}
    (hoffsets : first.map (·.offset) = second.map (·.offset)) (split index : Nat)
    (offset : UInt32) : targetIn split first index offset = targetIn split second index offset := by
  have htake : (first.take split).map (·.offset) = (second.take split).map (·.offset) := by
    rw [List.map_take, List.map_take, hoffsets]
  have hdrop : (first.drop split).map (·.offset) = (second.drop split).map (·.offset) := by
    rw [List.map_drop, List.map_drop, hoffsets]
  rw [targetIn, targetIn, indexAt?_congr htake, indexAt?_congr hdrop]

/-! ### The listing of a program -/

/-- The index where the runtime segment of a program starts, or the number of its instructions when
there is none. -/
def splitOf (program : Program) : Nat :=
  (prologuesFrom 0 program.instructions)[1]?.getD program.instructions.length

/-- The segment of an instruction is told by the split. -/
theorem segmentOf_of {program : Program} {index : Nat}
    (hindex : index < program.instructions.length) :
    (of program).segmentOf index = if index < splitOf program then .initialization else .runtime := by
  rw [segmentOf, of, splitOf]
  cases hruntime : (prologuesFrom 0 program.instructions)[1]? with
  | none => simp [hindex]
  | some start =>
    dsimp only [Option.getD_some]
    split_ifs <;> first | rfl | omega

/-- The instructions of a program with their final offsets. -/
def placed (program : Program) : List Instruction :=
  rebased (splitOf program) (noted (prologuesFrom 0 program.instructions) program.instructions)

/-- What annotating a program does to the instruction at an index. -/
def annotatedAt (program : Program) (index : Nat) (instruction : Instruction) : Instruction :=
  { instruction with
    offset := instruction.offset - baseAt (splitOf program) program.instructions index
    label := labelFor (1 + landings (program.instructions.take index)) instruction
    comments := instruction.comments ++
      commentsAt (prologuesFrom 0 program.instructions) index
    jumpTarget :=
      match instruction.jumpOffset? (beforeIn (splitOf program) program.instructions index) with
      | some offset => targetIn (splitOf program) (placed program) index offset
      | none => instruction.jumpTarget }

theorem getElem?_placed (program : Program) (index : Nat) :
    (placed program)[index]? =
      program.instructions[index]?.map fun instruction ↦
        { instruction with
          offset := instruction.offset - baseAt (splitOf program) program.instructions index
          comments := instruction.comments ++
            commentsAt (prologuesFrom 0 program.instructions) index } := by
  have hbase (prologues : List Nat) :
      baseAt (splitOf program) (noted prologues program.instructions) index =
        baseAt (splitOf program) program.instructions index := by
    rw [baseAt, baseAt, getElem?_noted, Option.map_map]
    rfl
  rw [placed, getElem?_rebased, getElem?_noted, hbase, Option.map_map]
  rfl

theorem getElem?_labelled_placed (program : Program) (index : Nat) :
    (labelled 1 (placed program))[index]? =
      (placed program)[index]?.map fun instruction ↦
        { instruction with
          label := labelFor (1 + landings (program.instructions.take index)) instruction } := by
  have hopcodes : (placed program).map (·.opcode) = program.instructions.map (·.opcode) := by
    apply List.ext_getElem?
    intro index
    rw [List.getElem?_map, List.getElem?_map, getElem?_placed, Option.map_map]
    rfl
  rw [getElem?_labelled, landings_take_congr hopcodes]

/-- The instruction at an index of a listing is the one of the program, annotated. -/
theorem getElem?_instructions_of (program : Program) (index : Nat) :
    (of program).instructions[index]? =
      program.instructions[index]?.map (annotatedAt program index) := by
  have hoffsets : (labelled 1 (placed program)).map (·.offset) =
      (placed program).map (·.offset) := by
    apply List.ext_getElem?
    intro index
    rw [List.getElem?_map, List.getElem?_map, getElem?_labelled_placed, Option.map_map]
    rfl
  have hbefore (instruction : Instruction) :
      instruction.jumpOffset? (beforeIn (splitOf program) (labelled 1 (placed program)) index) =
        instruction.jumpOffset? (beforeIn (splitOf program) program.instructions index) := by
    rw [beforeIn, beforeIn]
    split_ifs
    · rfl
    · rw [getElem?_labelled_placed, getElem?_placed]
      cases program.instructions[index - 1]? <;> rfl
  have hinstructions : (of program).instructions =
      resolved (splitOf program) (labelled 1 (placed program)) := rfl
  rw [hinstructions, getElem?_resolved, getElem?_labelled_placed, getElem?_placed, Option.map_map,
    Option.map_map]
  congr 1
  funext instruction
  have htarget : targetIn (splitOf program) (labelled 1 (placed program)) index =
      targetIn (splitOf program) (placed program) index :=
    funext fun offset ↦ targetIn_congr hoffsets _ _ offset
  rw [Function.comp_apply, Function.comp_apply, linked_eq, htarget, annotatedAt, ← hbefore]
  rfl

/-- A listing holds the instructions of the program in order, each of them annotated. -/
theorem instructions_of (program : Program) :
    (of program).instructions = program.instructions.mapIdx (annotatedAt program) := by
  apply List.ext_getElem?
  intro index
  rw [getElem?_instructions_of, List.getElem?_mapIdx]

/-- What annotating keeps of every instruction reads the same in the listing. -/
theorem map_instructions_of {β : Type} {view : Instruction → β} (program : Program)
    (hview : ∀ index instruction, view (annotatedAt program index instruction) = view instruction) :
    (of program).instructions.map view = program.instructions.map view := by
  apply List.ext_getElem?
  intro index
  rw [List.getElem?_map, List.getElem?_map, getElem?_instructions_of, Option.map_map]
  exact congrArg (program.instructions[index]?.map ·) (funext (hview index))

@[simp] theorem length_instructions_of (program : Program) :
    (of program).instructions.length = program.instructions.length := by
  rw [instructions_of, List.length_mapIdx]

end Listing

end CodeTrail
