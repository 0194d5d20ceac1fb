import CodeTrail.Proofs.Listing.Passes
import CodeTrail.Proofs.Listing.Prologues
import CodeTrail.Proofs.Program.Layout

/-!
# The contract behind a constructor

Deployed code is a constructor with the contract behind it, each with one prologue. Annotating it
annotates the two on their own. For any two lists of instructions that make up a program so,
`annotatedAt_constructor` says that the constructor is annotated as if nothing followed, and
`foundBehind_annotatedAt` that an instruction of the contract differs from the one of the contract
alone only in what counts instructions or labels and in the comment, as `FoundBehind` tells.

`deployed_listing_parts` is this for code. The decoder goes on across the border because a contract
starts with a push, whatever the constructor ends with, and the prologues do not overlap.
-/

set_option autoImplicit false
set_option relaxedAutoImplicit false

namespace CodeTrail

namespace Instruction

/-- An instruction without annotations. -/
structure Bare (instruction : Instruction) : Prop where
  label : instruction.label = none
  comments : instruction.comments = []
  jumpTarget : instruction.jumpTarget = none

/-- How an annotated instruction is found behind others: its target counts the instructions in
front, its label the labels in front, and its comment tells the other segment. -/
structure FoundBehind (instructions labels : Nat) (alone behind : Instruction) : Prop where
  opcode : behind.opcode = alone.opcode
  offset : behind.offset = alone.offset
  length : behind.length = alone.length
  stackInputs : behind.stackInputs = alone.stackInputs
  stackOutputs : behind.stackOutputs = alone.stackOutputs
  immediate : behind.immediate = alone.immediate
  jumpTarget : behind.jumpTarget = alone.jumpTarget.map (instructions + ·)
  label : (alone.label = none ∧ behind.label = none) ∨
    ∃ number, alone.label = some ("label" ++ toString number) ∧
      behind.label = some ("label" ++ toString (labels + number))
  comments : behind.comments =
    alone.comments.map fun comment ↦ if comment = "Initialization" then "Contract" else comment

/-- The number of a label counts the labels in front. -/
theorem FoundBehind.label_eq {instructions labels : Nat} {alone behind : Instruction}
    (hfound : FoundBehind instructions labels alone behind) (number : Nat)
    (hlabel : alone.label = some ("label" ++ toString number)) :
    behind.label = some ("label" ++ toString (labels + number)) := by
  rcases hfound.label with ⟨hnone, -⟩ | ⟨other, hother, hbehind⟩
  · rw [hlabel] at hnone
    cases hnone
  · rw [hlabel, Option.some.injEq, String.append_right_inj] at hother
    rw [hbehind, Opcode.toString_injective hother]

end Instruction

open Instruction (FoundBehind Bare moved)

/-! ### Placed chunks -/

namespace Program

theorem bare_of_mem_place {offset : UInt32} {chunks : List Chunk} {instruction : Instruction}
    (hinstruction : instruction ∈ place offset chunks) : instruction.Bare := by
  obtain ⟨index, hindex⟩ := List.mem_iff_getElem?.mp hinstruction
  rw [getElem?_place] at hindex
  obtain ⟨chunk, -, rfl⟩ := Option.map_eq_some_iff.mp hindex
  exact ⟨rfl, rfl, rfl⟩

end Program

/-! ### Two lists of instructions -/

namespace Listing

section Parts

variable {constructor contract : List Instruction} {shift : UInt32} {marker : Nat}

theorem map_shown_moved (shift : UInt32) (instructions : List Instruction) :
    (instructions.map (moved shift)).map shown = instructions.map shown := by
  rw [List.map_map]
  rfl

theorem prologuesFrom_moved (start : Nat) (shift : UInt32) (instructions : List Instruction) :
    prologuesFrom start (instructions.map (moved shift)) = prologuesFrom start instructions :=
  prologuesFrom_congr (map_shown_moved shift instructions) start

theorem landings_moved (shift : UInt32) (instructions : List Instruction) :
    landings (instructions.map (moved shift)) = landings instructions := by
  rw [landings, landings, List.countP_map]
  rfl

/-- The program of a constructor with a contract behind it. -/
def deployed (shift : UInt32) (constructor contract : List Instruction) : Program :=
  ⟨constructor ++ contract.map (moved shift)⟩

/-- The prologues of deployed code are the one of the constructor and the start of the contract. -/
theorem prologuesFrom_deployed (shift : UInt32)
    (hconstructor : prologuesFrom 0 constructor = [marker])
    (hcontract : prologuesFrom 0 contract = [0]) :
    prologuesFrom 0 (deployed shift constructor contract).instructions =
      [marker, constructor.length] := by
  have hstarts : startsPrologue (contract.map (moved shift)) = true := by
    have hzero : 0 ∈ prologuesFrom 0 contract := by simp [hcontract]
    rw [startsPrologue_congr (map_shown_moved shift contract)]
    exact (mem_prologuesFrom_iff.mp hzero).2
  rw [deployed, prologuesFrom_append 0 constructor hstarts, hconstructor, prologuesFrom_moved,
    prologuesFrom_eq_map, hcontract]
  simp

theorem splitOf_deployed (hconstructor : prologuesFrom 0 constructor = [marker])
    (hcontract : prologuesFrom 0 contract = [0]) :
    splitOf (deployed shift constructor contract) = constructor.length := by
  rw [splitOf, prologuesFrom_deployed shift hconstructor hcontract]
  rfl

/-- A program with one prologue has no runtime segment. -/
theorem splitOf_of_prologuesFrom_eq_singleton {instructions : List Instruction}
    (hprologues : prologuesFrom 0 instructions = [marker]) :
    splitOf ⟨instructions⟩ = instructions.length := by
  rw [splitOf, hprologues]
  rfl

/-- Offsets in front of the runtime segment are kept. -/
theorem map_offset_placed_take (program : Program) :
    ((placed program).take (splitOf program)).map (·.offset) =
      (program.instructions.take (splitOf program)).map (·.offset) := by
  apply List.ext_getElem?
  intro index
  rw [List.getElem?_map, List.getElem?_map, List.getElem?_take, List.getElem?_take]
  split_ifs with hindex
  · rw [getElem?_placed, Option.map_map, baseAt, if_pos hindex]
    congr 1
    funext instruction
    exact UInt32.sub_zero instruction.offset
  · rfl

/-- The constructor is annotated as if nothing followed. -/
theorem annotatedAt_constructor (hconstructor : prologuesFrom 0 constructor = [marker])
    (hcontract : prologuesFrom 0 contract = [0]) {index : Nat}
    (hindex : index < constructor.length) (instruction : Instruction) :
    annotatedAt (deployed shift constructor contract) index instruction =
      annotatedAt ⟨constructor⟩ index instruction := by
  have hsplit : splitOf (deployed shift constructor contract) = constructor.length :=
    splitOf_deployed hconstructor hcontract
  have hsplitAlone := splitOf_of_prologuesFrom_eq_singleton hconstructor
  have hbase : baseAt constructor.length (deployed shift constructor contract).instructions index =
      baseAt constructor.length constructor index := by
    rw [baseAt, baseAt, if_pos hindex, if_pos hindex]
  have hlabel : (deployed shift constructor contract).instructions.take index =
      constructor.take index :=
    List.take_append_of_le_length (Nat.le_of_lt hindex)
  have hcomments : commentsAt [marker, constructor.length] index = commentsAt [marker] index := by
    simp [commentsAt, Nat.ne_of_gt hindex]
  have hbefore : beforeIn constructor.length (deployed shift constructor contract).instructions index =
      beforeIn constructor.length constructor index := by
    rw [beforeIn, beforeIn, deployed, List.getElem?_append_left (by omega)]
  have htarget : targetIn constructor.length (placed (deployed shift constructor contract)) index =
      targetIn constructor.length (placed ⟨constructor⟩) index := by
    funext offset
    rw [targetIn, targetIn, if_pos hindex, if_pos hindex]
    refine indexAt?_congr ?_ 0 offset
    have hfront := map_offset_placed_take (deployed shift constructor contract)
    have hfrontAlone := map_offset_placed_take ⟨constructor⟩
    rw [hsplit] at hfront
    rw [hsplitAlone] at hfrontAlone
    rw [hfront, hfrontAlone, deployed, List.take_append_of_le_length (Nat.le_refl _)]
  rw [annotatedAt, annotatedAt, hsplit, hsplitAlone,
    prologuesFrom_deployed shift hconstructor hcontract, hconstructor, hbase, hlabel, hcomments, hbefore,
    htarget]

theorem getElem?_contract (index : Nat) :
    (deployed shift constructor contract).instructions[constructor.length + index]? =
      contract[index]?.map (moved shift) := by
  rw [deployed, List.getElem?_append_right (Nat.le_add_right _ _), Nat.add_sub_cancel_left,
    List.getElem?_map]

theorem baseAt_contract (hfirst : ∀ first, contract[0]? = some first → first.offset = 0)
    {index : Nat} (hindex : index < contract.length) :
    baseAt constructor.length (deployed shift constructor contract).instructions
      (constructor.length + index) = shift := by
  have hzero : contract[0]? = some contract[0] := List.getElem?_eq_getElem (by omega)
  have hstart : (deployed shift constructor contract).instructions[constructor.length]? =
      some (moved shift contract[0]) := by
    rw [← Nat.add_zero constructor.length, getElem?_contract, hzero, Option.map_some]
  rw [baseAt, if_neg (by omega), hstart, Option.map_some, Option.getD_some, moved,
    hfirst _ hzero, UInt32.add_zero]

/-- The offsets of the contract count from its start. -/
theorem map_offset_placed_contract (hconstructor : prologuesFrom 0 constructor = [marker])
    (hcontract : prologuesFrom 0 contract = [0])
    (hfirst : ∀ first, contract[0]? = some first → first.offset = 0) :
    ((placed (deployed shift constructor contract)).drop constructor.length).map (·.offset) =
      contract.map (·.offset) := by
  apply List.ext_getElem?
  intro index
  rw [List.getElem?_map, List.getElem?_map, List.getElem?_drop, getElem?_placed,
    getElem?_contract, splitOf_deployed hconstructor hcontract, Option.map_map, Option.map_map]
  cases hindex : contract[index]? with
  | none => rfl
  | some instruction =>
    obtain ⟨hbound, -⟩ := List.getElem?_eq_some_iff.mp hindex
    simp only [Option.map_some, Function.comp_apply, baseAt_contract hfirst hbound, moved,
      UInt32.add_comm shift, UInt32.add_sub_cancel]

/-- The target of a jump of the contract counts the instructions of the constructor. -/
theorem targetIn_contract (hconstructor : prologuesFrom 0 constructor = [marker])
    (hcontract : prologuesFrom 0 contract = [0])
    (hfirst : ∀ first, contract[0]? = some first → first.offset = 0) {index : Nat}
    (hindex : index < contract.length) (offset : UInt32) :
    targetIn constructor.length (placed (deployed shift constructor contract))
        (constructor.length + index) offset =
      (targetIn contract.length (placed ⟨contract⟩) index offset).map (constructor.length + ·) := by
  have hoffsets : ((placed (deployed shift constructor contract)).drop constructor.length).map
      (·.offset) = contract.map (·.offset) :=
    map_offset_placed_contract hconstructor hcontract hfirst
  have hfront := map_offset_placed_take ⟨contract⟩
  rw [splitOf_of_prologuesFrom_eq_singleton hcontract, List.take_length] at hfront
  rw [targetIn, targetIn, if_neg (by omega), if_pos hindex, indexAt?_eq_map,
    indexAt?_congr (hoffsets.trans hfront.symm)]

/-- Right before an instruction of the contract the same is shown as in the contract alone. -/
theorem jumpOffset?_contract {index : Nat} (hindex : index < contract.length)
    (instruction : Instruction) :
    (moved shift instruction).jumpOffset? (beforeIn constructor.length
        (deployed shift constructor contract).instructions (constructor.length + index)) =
      instruction.jumpOffset? (beforeIn contract.length contract index) := by
  cases index with
  | zero =>
    rw [beforeIn, beforeIn, if_pos (Or.inr (Nat.add_zero _)), if_pos (Or.inl rfl)]
    rfl
  | succ index =>
    have hbefore : constructor.length + (index + 1) - 1 = constructor.length + index := by omega
    rw [beforeIn, beforeIn, if_neg (by omega), if_neg (by omega), hbefore, getElem?_contract,
      Nat.add_sub_cancel]
    cases contract[index]? <;> rfl

/-- An instruction of the contract is found behind the constructor. -/
theorem foundBehind_annotatedAt (hconstructor : prologuesFrom 0 constructor = [marker])
    (hcontract : prologuesFrom 0 contract = [0])
    (hfirst : ∀ first, contract[0]? = some first → first.offset = 0) {index : Nat}
    (hindex : index < contract.length) {instruction : Instruction} (hbare : instruction.Bare) :
    FoundBehind constructor.length (landings constructor)
      (annotatedAt ⟨contract⟩ index instruction)
      (annotatedAt (deployed shift constructor contract) (constructor.length + index)
        (moved shift instruction)) where
  opcode := rfl
  length := rfl
  stackInputs := rfl
  stackOutputs := rfl
  immediate := rfl
  offset := by
    rw [annotatedAt, annotatedAt, splitOf_deployed hconstructor hcontract,
      splitOf_of_prologuesFrom_eq_singleton hcontract]
    dsimp only
    rw [baseAt_contract hfirst hindex, baseAt, if_pos hindex, UInt32.sub_zero, moved,
      UInt32.add_comm, UInt32.add_sub_cancel]
  jumpTarget := by
    rw [annotatedAt, annotatedAt, splitOf_deployed hconstructor hcontract,
      splitOf_of_prologuesFrom_eq_singleton hcontract]
    dsimp only
    rw [jumpOffset?_contract hindex]
    cases instruction.jumpOffset? (beforeIn contract.length contract index) with
    | none =>
      dsimp only
      rw [moved, hbare.jumpTarget]
      rfl
    | some offset => exact targetIn_contract hconstructor hcontract hfirst hindex offset
  label := by
    have hcount : landings ((deployed shift constructor contract).instructions.take
        (constructor.length + index)) = landings constructor + landings (contract.take index) := by
      rw [deployed, List.take_length_add_append, landings_append, ← List.map_take, landings_moved]
    rw [annotatedAt, annotatedAt]
    dsimp only
    rw [hcount, labelFor, labelFor, moved, hbare.label]
    by_cases hlanding : instruction.is "jumpdest" = true
    · refine Or.inr ⟨1 + landings (contract.take index), if_pos hlanding, ?_⟩
      rw [Nat.add_left_comm]
      exact if_pos hlanding
    · exact Or.inl ⟨if_neg hlanding, if_neg hlanding⟩
  comments := by
    have hmarker : marker < constructor.length :=
      lt_length_of_mem_prologuesFrom (by rw [hconstructor]; exact List.mem_singleton_self marker)
    have hfront : marker ≠ constructor.length + index := by omega
    rw [annotatedAt, annotatedAt, prologuesFrom_deployed shift hconstructor hcontract, hcontract]
    dsimp only
    rw [moved, hbare.comments]
    by_cases hzero : index = 0
    · subst hzero
      simp [commentsAt, Nat.ne_of_lt hmarker]
    · simp [commentsAt, hfront, Ne.symm hzero, hzero]

end Parts

/-! ### Deployed code -/

open Program (chunks ofBytes place)

/-- Code that starts by setting up the free-memory pointer is swept so. -/
theorem exists_sweep_of_isPrefix {code : List UInt8}
    (hcode : [0x60, 0x80, 0x60, 0x40, 0x52] <+: code) :
    ∃ rest, Chunk.sweep code =
      ⟨.push1, [0x80]⟩ :: ⟨.push1, [0x40]⟩ :: ⟨⟨0x52⟩, []⟩ :: rest := by
  obtain ⟨rest, rfl⟩ := hcode
  have hpush : (Opcode.mk 0x60).immediateSize = 1 :=
    Opcode.immediateSize_of_entry?_eq_some Opcode.entry?_push1
  have hstore : (Opcode.mk 0x52).immediateSize = 0 :=
    Opcode.immediateSize_of_entry?_eq_some Opcode.entry?_mstore
  refine ⟨Chunk.sweep rest, ?_⟩
  simp only [List.cons_append, List.nil_append, Chunk.sweep_cons, hpush, hstore, List.take_succ_cons,
    List.take_zero, List.drop_succ_cons, List.drop_zero]
  rfl

theorem pushes_instruction (byte : UInt8) (offset : UInt32) :
    (Chunk.instruction offset ⟨.push1, [byte]⟩).pushes (Hex.marked [byte]) = true := by
  have hname : Opcode.push1.mnemonic = "push1" :=
    Opcode.mnemonic_of_entry?_eq_some Opcode.entry?_push1
  rw [Instruction.pushes, Instruction.is, Chunk.opcode_instruction, hname,
    Chunk.immediate_instruction, if_neg (List.cons_ne_nil byte []), beq_self_eq_true,
    beq_self_eq_true]
  rfl

/-- Code that starts by setting up the free-memory pointer starts with a prologue, wherever it is
placed. -/
theorem startsPrologue_place {code : List UInt8}
    (hcode : [0x60, 0x80, 0x60, 0x40, 0x52] <+: code) (offset : UInt32) :
    startsPrologue (place offset (chunks code)) = true := by
  obtain ⟨rest, hrest⟩ := exists_sweep_of_isPrefix hcode
  obtain ⟨tail, htail⟩ := Chunk.exists_listedAfter_cons (some .push1) ⟨⟨0x52⟩, []⟩ rest
  have hlisted : chunks code = ⟨.push1, [0x80]⟩ :: ⟨.push1, [0x40]⟩ :: ⟨⟨0x52⟩, []⟩ :: tail := by
    rw [chunks, hrest, Chunk.listed, Chunk.listedAfter, Chunk.listedAfter, htail]
    rfl
  have hname : (Opcode.mk 0x52).mnemonic = "mstore" :=
    Opcode.mnemonic_of_entry?_eq_some Opcode.entry?_mstore
  have hfirst : Hex.marked [0x80] = "0x80" := by decide +kernel
  have hsecond : Hex.marked [0x40] = "0x40" := by decide +kernel
  rw [hlisted, place, place, place, startsPrologue, ← hfirst, ← hsecond, pushes_instruction,
    pushes_instruction, Instruction.is, Chunk.opcode_instruction, hname]
  rfl

/-- The program of a constructor with a contract behind it. -/
theorem ofBytes_append {first second : List UInt8} (hwhole : Chunk.span (chunks first) = first.length)
    (hsecond : [0x60, 0x80, 0x60, 0x40, 0x52] <+: second) :
    ofBytes (first ++ second) =
      deployed (UInt32.ofNat first.length) (ofBytes first).instructions
        (ofBytes second).instructions := by
  obtain ⟨rest, hrest⟩ := exists_sweep_of_isPrefix hsecond
  have hchunks : chunks (first ++ second) = chunks first ++ chunks second :=
    Program.chunks_append hwhole hrest (fun _ ↦ rfl) fun hinvalid ↦ absurd hinvalid (by decide)
  exact congrArg Program.mk (Program.instructions_ofBytes_append hwhole hchunks)

/-- The instructions of a listing of deployed code are those of the constructor and, found behind
them, those of the contract. -/
theorem instructions_of_deployed {constructor contract : List Instruction} {marker : Nat}
    (shift : UInt32) (hconstructor : prologuesFrom 0 constructor = [marker])
    (hcontract : prologuesFrom 0 contract = [0])
    (hfirst : ∀ first, contract[0]? = some first → first.offset = 0)
    (hbare : ∀ instruction ∈ contract, instruction.Bare) :
    (of (deployed shift constructor contract)).instructions.take constructor.length =
        (of ⟨constructor⟩).instructions ∧
      List.Forall₂ (FoundBehind constructor.length (landings constructor))
        (of ⟨contract⟩).instructions
        ((of (deployed shift constructor contract)).instructions.drop constructor.length) := by
  constructor
  · apply List.ext_getElem?
    intro index
    rw [List.getElem?_take, getElem?_instructions_of, getElem?_instructions_of]
    split_ifs with hindex
    · rw [deployed, List.getElem?_append_left hindex, List.getElem?_eq_getElem hindex,
        Option.map_some, Option.map_some, ← deployed,
        annotatedAt_constructor hconstructor hcontract hindex]
    · rw [List.getElem?_eq_none (Nat.le_of_not_lt hindex), Option.map_none]
  · refine List.forall₂_iff_get.mpr ⟨?_, fun index halone hbehind ↦ ?_⟩
    · rw [length_instructions_of, List.length_drop, length_instructions_of, deployed,
        List.length_append, List.length_map, Nat.add_sub_cancel_left]
    · rw [length_instructions_of] at halone
      have hindex : contract[index]? = some contract[index] := List.getElem?_eq_getElem halone
      have hhere : (of ⟨contract⟩).instructions[index]? =
          some (annotatedAt ⟨contract⟩ index contract[index]) := by
        rw [getElem?_instructions_of, hindex, Option.map_some]
      have hthere : (of (deployed shift constructor contract)).instructions[constructor.length +
          index]? = some (annotatedAt (deployed shift constructor contract)
            (constructor.length + index) (moved shift contract[index])) := by
        rw [getElem?_instructions_of, getElem?_contract, hindex, Option.map_some, Option.map_some]
      rw [List.get_eq_getElem, List.get_eq_getElem, List.getElem_drop,
        (List.getElem?_eq_some_iff.mp hhere).2, (List.getElem?_eq_some_iff.mp hthere).2]
      exact foundBehind_annotatedAt hconstructor hcontract hfirst halone
        (hbare _ (List.getElem_mem halone))

/-- Every instruction of a contract is found behind what is in front of it. -/
theorem exists_foundBehind {front labels : Nat} {contract whole : List Instruction}
    (hfound : List.Forall₂ (FoundBehind front labels) contract (whole.drop front)) {index : Nat}
    {alone : Instruction} (halone : contract[index]? = some alone) :
    ∃ behind, whole[front + index]? = some behind ∧ FoundBehind front labels alone behind := by
  obtain ⟨hlength, hall⟩ := List.forall₂_iff_get.mp hfound
  obtain ⟨hindex, rfl⟩ := List.getElem?_eq_some_iff.mp halone
  have hthere : index < (whole.drop front).length := hlength ▸ hindex
  have hbehind := List.getElem?_eq_getElem hthere
  rw [List.getElem?_drop] at hbehind
  exact ⟨_, hbehind, hall index hindex hthere⟩

/-- Deployed code is annotated part by part. Assumes: a text of code that is the code of a
constructor and then that of a contract, too short for an offset to wrap around; a program of the
constructor that reaches to its end and has one prologue; and a contract that starts with a prologue
and has no other. The runtime segment starts behind the constructor, whose instructions are annotated
as they are alone, and each instruction of the contract is found there with its target moved by the
instructions of the constructor, its label by the labels, and the comment of the runtime. -/
theorem deployed_listing_parts {constructor contract deployed : String} {marker : Nat}
    (hdeployed : Hex.code deployed = Hex.code constructor ++ Hex.code contract)
    (hsize : (Hex.code deployed).length ≤ UInt32.size - 33)
    (hconsumed : (Program.decode constructor).extent = (Hex.code constructor).length)
    (hconstructor : (of (Program.decode constructor)).prologues = [marker])
    (hstart : [0x60, 0x80, 0x60, 0x40, 0x52] <+: Hex.code contract)
    (hcontract : (of (Program.decode contract)).prologues.length = 1) :
    (of (Program.decode deployed)).runtimeStart =
        some (Program.decode constructor).instructions.length ∧
      (of (Program.decode deployed)).prologues =
        [marker, (Program.decode constructor).instructions.length] ∧
      (of (Program.decode deployed)).instructions.take
          (Program.decode constructor).instructions.length =
        (of (Program.decode constructor)).instructions ∧
      List.Forall₂ (FoundBehind (Program.decode constructor).instructions.length
          (landings (Program.decode constructor).instructions))
        (of (Program.decode contract)).instructions
        ((of (Program.decode deployed)).instructions.drop
          (Program.decode constructor).instructions.length) := by
  have hbounds : (Hex.code constructor).length ≤ UInt32.size - 33 := by
    rw [hdeployed, List.length_append] at hsize
    omega
  have hwhole : Chunk.span (chunks (Hex.code constructor)) = (Hex.code constructor).length :=
    (Program.extent_ofBytes hbounds).symm.trans hconsumed
  have hprogram : Program.decode deployed =
      Listing.deployed (UInt32.ofNat (Hex.code constructor).length)
        (Program.decode constructor).instructions (Program.decode contract).instructions := by
    rw [Program.decode_eq_ofBytes, hdeployed, ofBytes_append hwhole hstart]
    rfl
  have hone : prologuesFrom 0 (Program.decode contract).instructions = [0] := by
    have hzero : 0 ∈ prologuesFrom 0 (Program.decode contract).instructions :=
      mem_prologuesFrom_iff.mpr ⟨Nat.le_refl 0, startsPrologue_place hstart 0⟩
    obtain ⟨index, hindex⟩ := List.length_eq_one_iff.mp hcontract
    have hsame : prologuesFrom 0 (Program.decode contract).instructions = [index] := hindex
    rw [hsame, List.mem_singleton] at hzero
    rw [hsame, hzero]
  have hfirst : ∀ first, (Program.decode contract).instructions[0]? = some first →
      first.offset = 0 := by
    intro first hget
    obtain ⟨chunk, -, rfl⟩ := Program.exists_chunk hget
    rfl
  have hbare : ∀ instruction ∈ (Program.decode contract).instructions, instruction.Bare :=
    fun instruction hinstruction ↦ Program.bare_of_mem_place hinstruction
  have hprologues := prologuesFrom_deployed (UInt32.ofNat (Hex.code constructor).length)
    hconstructor hone
  have hparts := instructions_of_deployed (UInt32.ofNat (Hex.code constructor).length)
    hconstructor hone hfirst hbare
  rw [hprogram]
  refine ⟨?_, hprologues, hparts.1, hparts.2⟩
  rw [of]
  dsimp only
  rw [hprologues]
  rfl

/-- A constructor that ends with a stop. Behind it the jump of the contract counts five instructions
more, its label is the second one, and the comment on its first instruction tells the contract. -/
theorem deployed_listing_parts_behind_stop :
    let contract := of (Program.decode "60806040526008565b")
    let deployed := of (Program.decode "0x60806040525b0060806040526008565b")
    deployed.runtimeStart = some 5 ∧ deployed.prologues = [0, 5] ∧
      deployed.instructions.take 5 = (of (Program.decode "0x60806040525b00")).instructions ∧
      List.Forall₂ (FoundBehind 5 1) contract.instructions (deployed.instructions.drop 5) ∧
      contract.instructions[4]?.bind (·.jumpTarget) = some 5 ∧
      deployed.instructions[9]?.bind (·.jumpTarget) = some 10 ∧
      contract.instructions[5]?.bind (·.label) = some "label1" ∧
      deployed.instructions[10]?.bind (·.label) = some "label2" ∧
      contract.instructions[0]?.map (·.comments) = some ["Initialization"] ∧
      deployed.instructions[5]?.map (·.comments) = some ["Contract"] := by
  intro contract deployed
  have hdeployed : Hex.code "0x60806040525b0060806040526008565b" =
      Hex.code "0x60806040525b00" ++ Hex.code "60806040526008565b" := by
    decide +kernel
  obtain ⟨hlength, hlandings, hconsumed, hmarker⟩ :
      (Program.decode "0x60806040525b00").instructions.length = 5 ∧
        landings (Program.decode "0x60806040525b00").instructions = 1 ∧
        (Program.decode "0x60806040525b00").extent = (Hex.code "0x60806040525b00").length ∧
        (of (Program.decode "0x60806040525b00")).prologues = [0] := by
    decide +kernel
  obtain ⟨hcontract, htarget, hlabel, hcomments⟩ :
      contract.prologues.length = 1 ∧ contract.instructions[4]?.bind (·.jumpTarget) = some 5 ∧
        contract.instructions[5]?.bind (·.label) = some "label1" ∧
        contract.instructions[0]?.map (·.comments) = some ["Initialization"] := by
    decide +kernel
  have hparts := deployed_listing_parts hdeployed (by decide +kernel) hconsumed hmarker
    (by decide +kernel) hcontract
  rw [hlength, hlandings] at hparts
  obtain ⟨hstart, hprologues, htake, hfound⟩ := hparts
  refine ⟨hstart, hprologues, htake, hfound, htarget, ?_, hlabel, ?_, hcomments, ?_⟩
  · obtain ⟨jump, hjump, hfive⟩ := Option.bind_eq_some_iff.mp htarget
    obtain ⟨behind, hbehind, hmoved⟩ := exists_foundBehind hfound hjump
    rw [hbehind, Option.bind_some, hmoved.jumpTarget, hfive]
    rfl
  · obtain ⟨landing, hlanding, hone⟩ := Option.bind_eq_some_iff.mp hlabel
    obtain ⟨behind, hbehind, hmoved⟩ := exists_foundBehind hfound hlanding
    rw [hbehind, Option.bind_some]
    exact (hmoved.label_eq 1 (hone.trans (by decide +kernel))).trans (by decide +kernel)
  · obtain ⟨first, hfirst, hinitial⟩ := Option.map_eq_some_iff.mp hcomments
    obtain ⟨behind, hbehind, hmoved⟩ := exists_foundBehind hfound hfirst
    rw [hbehind, Option.map_some, hmoved.comments, hinitial]
    rfl

end Listing

end CodeTrail
