import CodeTrail.Proofs.Program.Layout

/-!
# Immediates read back as the numbers pushed

A push shows the bytes behind it as text, and `Immediate.number?` takes the text for a number. That
reader drops all marks and all zeros in front of a text, and a push at the end of the code may have fewer
bytes than its name says. `immediates_of_decode` says that the number is nevertheless the right one: of
every decoded program, a push with some of its bytes there reads as their big-endian number, up to 64
bits, and no other instruction reads as a number at all.

The bytes are those of the code: `carried` takes them from behind a place, and an instruction lies at the
place where those before it end, counted by their lengths (`immediate_eq_carried`). Unlike an offset this
place never wraps around, so the code may be of any length.
-/

set_option autoImplicit false
set_option relaxedAutoImplicit false

namespace CodeTrail

/-- An instruction shows bytes as its immediate and reads as the number of these. -/
structure Instruction.ReadsAs (instruction : Instruction) (bytes : List UInt8) : Prop where
  shown : instruction.immediate = some (Hex.marked bytes)
  /-- A number of more than 64 bits is none. -/
  number : instruction.immediateNumber? =
    if Hex.bigEndian bytes < Nat.pow 2 64 then some (Hex.bigEndian bytes) else none
  /-- With other marks and zeros in front, the bytes would read as the same number. -/
  padded : ∀ marks zeros,
    Immediate.number? (Immediate.padded marks zeros bytes) = instruction.immediateNumber?

/-- An instruction reads as the number of the bytes that were present. -/
theorem Chunk.readsAs_instruction {chunk : Chunk} (hpresent : chunk.immediate ≠ [])
    (offset : UInt32) : (chunk.instruction offset).ReadsAs chunk.immediate where
  shown := by rw [immediate_instruction, if_neg hpresent]
  number := immediateNumber?_instruction hpresent offset
  padded := fun marks zeros ↦ by
    rw [Immediate.number?_padded, immediateNumber?_instruction hpresent]

namespace Program

open Instruction (totalLength)

/-- The bytes that a push of a given size at a place of code pushes, as many as are there. -/
def carried (code : List UInt8) (place size : Nat) : List UInt8 :=
  (code.drop (place + 1)).take size

/-- What an instruction at a place of code shows as its immediate, and the number that it reads as. -/
structure ImmediateAt (code : List UInt8) (place : Nat) (instruction : Instruction) : Prop where
  /-- The place holds the opcode byte of the instruction. -/
  opcode : (code[place]?.map fun byte ↦ Opcode.mnemonic ⟨byte⟩) = some instruction.opcode
  /-- A push with some of its bytes there shows these and reads as their number. -/
  readsAs : ∀ size, 1 ≤ size → size ≤ 32 → instruction.opcode = "push" ++ toString size →
    carried code place size ≠ [] → instruction.ReadsAs (carried code place size)
  /-- An instruction shows no immediate exactly if it is no push, or one with nothing behind it. -/
  immediate_eq_none_iff : instruction.immediate = none ↔
    ∀ size, 1 ≤ size → size ≤ 32 → instruction.opcode = "push" ++ toString size →
      carried code place size = []
  /-- Without an immediate there is no number. -/
  number_eq_none : instruction.immediate = none → instruction.immediateNumber? = none

section Carried

variable {code : List UInt8} {index : Nat} {chunk : Chunk}

/-- A chunk holds the bytes behind the place where those before it end. -/
theorem immediate_eq_carried (hchunk : (chunks code)[index]? = some chunk) :
    chunk.immediate =
      carried code (totalLength ((ofBytes code).instructions.take index))
        chunk.opcode.immediateSize := by
  rw [carried, totalLength_take_ofBytes]
  exact (getElem?_of_chunks hchunk).2

/-- A chunk that is shown as a push holds as many of these bytes as the name says. -/
theorem immediate_eq_carried_of_push (hchunk : (chunks code)[index]? = some chunk) {size : Nat}
    (hpos : 1 ≤ size) (hle : size ≤ 32) (hname : chunk.opcode.mnemonic = "push" ++ toString size) :
    chunk.immediate = carried code (totalLength ((ofBytes code).instructions.take index)) size := by
  rw [immediate_eq_carried hchunk, Opcode.immediateSize_of_mnemonic_eq_push hpos hle hname]

/-- A chunk holds no immediate bytes exactly if it is no push, or one with nothing behind it. -/
theorem immediate_eq_nil_iff (hchunk : (chunks code)[index]? = some chunk) :
    chunk.immediate = [] ↔
      ∀ size, 1 ≤ size → size ≤ 32 → chunk.opcode.mnemonic = "push" ++ toString size →
        carried code (totalLength ((ofBytes code).instructions.take index)) size = [] := by
  constructor
  · intro hempty size hpos hle hname
    rw [← immediate_eq_carried_of_push hchunk hpos hle hname, hempty]
  · intro hnothing
    rw [immediate_eq_carried hchunk]
    by_cases hsize : chunk.opcode.immediateSize = 0
    · rw [hsize, carried, List.take_zero]
    · exact hnothing _ (Nat.one_le_iff_ne_zero.mpr hsize) chunk.opcode.immediateSize_le
        (Opcode.mnemonic_eq_push hsize)

end Carried

/-- The immediates of a decoded program, whose instructions lie in the code one behind the other. A push
of one to thirty-two bytes shows those of them that are there, and if there are any it reads as their
big-endian number, as long as that has no more than 64 bits; marks and zeros in front do not change the
number. Every other instruction, and a push with nothing behind it, has no immediate and reads as no
number. -/
theorem immediates_of_decode (text : String) (index : Nat) (instruction : Instruction)
    (hinstruction : (decode text).instructions[index]? = some instruction) :
    ImmediateAt (Hex.code text) (totalLength ((decode text).instructions.take index))
      instruction := by
  rw [decode_eq_ofBytes] at hinstruction ⊢
  obtain ⟨chunk, hchunk, rfl⟩ := exists_chunk hinstruction
  constructor
  case opcode =>
    rw [totalLength_take_ofBytes, (getElem?_of_chunks hchunk).1, Chunk.opcode_instruction]
    rfl
  case readsAs =>
    intro size hpos hle hname hpresent
    rw [Chunk.opcode_instruction] at hname
    rw [← immediate_eq_carried_of_push hchunk hpos hle hname] at hpresent ⊢
    exact Chunk.readsAs_instruction hpresent _
  case immediate_eq_none_iff =>
    rw [Chunk.opcode_instruction, ← immediate_eq_nil_iff hchunk, Chunk.immediate_instruction]
    split_ifs with hempty <;> simp [hempty]
  case number_eq_none =>
    intro hnone
    rw [Instruction.immediateNumber?, hnone, Option.bind_none]

/-- The largest number of 64 bits behind a zero byte, the next number, and a push of thirty-two bytes
with two zero bytes left for it. -/
theorem immediates_of_decode_around_limit :
    ∃ first second third,
      (decode "0x6800ffffffffffffffff680100000000000000007f0000").instructions =
        [first, second, third] ∧
      first.ReadsAs [0x00, 0xff, 0xff, 0xff, 0xff, 0xff, 0xff, 0xff, 0xff] ∧
      first.immediateNumber? = some (Nat.pow 2 64 - 1) ∧
      second.ReadsAs [0x01, 0x00, 0x00, 0x00, 0x00, 0x00, 0x00, 0x00, 0x00] ∧
      second.immediateNumber? = none ∧
      third.opcode = "push32" ∧ third.ReadsAs [0x00, 0x00] ∧ third.immediateNumber? = some 0 := by
  have hcode : Hex.code "0x6800ffffffffffffffff680100000000000000007f0000" =
      [0x68, 0x00, 0xff, 0xff, 0xff, 0xff, 0xff, 0xff, 0xff, 0xff,
        0x68, 0x01, 0x00, 0x00, 0x00, 0x00, 0x00, 0x00, 0x00, 0x00, 0x7f, 0x00, 0x00] := by
    decide +kernel
  have hprogram : decode "0x6800ffffffffffffffff680100000000000000007f0000" =
      ⟨[{ opcode := "push9", offset := 0, length := 10, stackInputs := 0, stackOutputs := 1,
          immediate := some "0x00ffffffffffffffff" },
        { opcode := "push9", offset := 10, length := 10, stackInputs := 0, stackOutputs := 1,
          immediate := some "0x010000000000000000" },
        { opcode := "push32", offset := 20, length := 33, stackInputs := 0, stackOutputs := 1,
          immediate := some "0x0000" }]⟩ := by
    decide +kernel
  have hread := immediates_of_decode "0x6800ffffffffffffffff680100000000000000007f0000"
  rw [hprogram, hcode] at hread
  have hfirst := (hread 0 _ rfl).readsAs 9 (by decide) (by decide) (by decide) (by decide)
  have hsecond := (hread 1 _ rfl).readsAs 9 (by decide) (by decide) (by decide) (by decide)
  have hthird := (hread 2 _ rfl).readsAs 32 (by decide) (by decide) (by decide) (by decide)
  refine ⟨_, _, _, congrArg Program.instructions hprogram, hfirst, hfirst.number.trans ?_, hsecond,
    hsecond.number.trans ?_, rfl, hthird, hthird.number.trans ?_⟩ <;> decide

end Program

end CodeTrail
