import CodeTrail.Proofs.Opcode.Mnemonic
import CodeTrail.Program.Basic
import Mathlib.Data.List.Induction

/-!
# The texts of an instruction read back

An instruction shows its opcode and its immediate as text. `Instruction.bytes?` reads both back, and
`bytes?_instruction` says that this gives the bytes of the chunk that the instruction was made from.
`Immediate.number?` is lenient about marks, zeros and signs; on the digits of bytes it is their
big-endian number as long as that has at most 64 bits, whatever marks and zeros stand in front of them
(`number?_padded`), so also on a written immediate (`number?_marked`).
-/

set_option autoImplicit false
set_option relaxedAutoImplicit false

namespace CodeTrail

/-- The bytes that an immediate shows; none when there is no immediate. -/
def Immediate.bytes? : Option String → Option (List UInt8)
  | none => some []
  | some text => (Hex.bytes (Hex.body text)).toOption

/-- The bytes that the name of an opcode and an immediate show. -/
def shownBytes? (opcode : String) (immediate : Option String) : Option (List UInt8) :=
  (Opcode.ofMnemonic? opcode).bind fun opcode ↦
    (Immediate.bytes? immediate).map (opcode.byte :: ·)

namespace Instruction

/-- The immediate bytes that an instruction shows; none when it shows no immediate. -/
def immediateBytes? (instruction : Instruction) : Option (List UInt8) :=
  Immediate.bytes? instruction.immediate

/-- The bytes that an instruction shows: its opcode under its name, and its immediate bytes. -/
def bytes? (instruction : Instruction) : Option (List UInt8) :=
  shownBytes? instruction.opcode instruction.immediate

end Instruction

/-! ### Instructions made from chunks -/

namespace Chunk

@[simp] theorem opcode_instruction (chunk : Chunk) (offset : UInt32) :
    (chunk.instruction offset).opcode = chunk.opcode.mnemonic := by
  rw [instruction]

@[simp] theorem offset_instruction (chunk : Chunk) (offset : UInt32) :
    (chunk.instruction offset).offset = offset := by
  rw [instruction]

/-- No chunk asks for more bytes than the widest push. -/
theorem width_le (chunk : Chunk) : chunk.width ≤ 33 := by
  have hsize := chunk.opcode.immediateSize_le
  rw [width]
  omega

@[simp] theorem toNat_length_instruction (chunk : Chunk) (offset : UInt32) :
    (chunk.instruction offset).length.toNat = chunk.width := by
  have hwidth := chunk.width_le
  exact UInt32.toNat_ofNat_of_lt' (by simp only [UInt32.size]; omega)

/-- The immediate of an instruction is the text of the bytes that were present, if there are any. -/
theorem immediate_instruction (chunk : Chunk) (offset : UInt32) :
    (chunk.instruction offset).immediate =
      if chunk.immediate = [] then none else some (Hex.marked chunk.immediate) := by
  simp only [instruction, List.isEmpty_iff]

@[simp] theorem immediateBytes?_instruction (chunk : Chunk) (offset : UInt32) :
    (chunk.instruction offset).immediateBytes? = some chunk.immediate := by
  rw [Instruction.immediateBytes?, immediate_instruction]
  by_cases hempty : chunk.immediate = []
  · rw [if_pos hempty, hempty, Immediate.bytes?]
  · rw [if_neg hempty, Immediate.bytes?, Hex.bytes_body_marked]
    rfl

/-- An instruction shows the bytes of its chunk. -/
@[simp] theorem bytes?_instruction (chunk : Chunk) (offset : UInt32) :
    (chunk.instruction offset).bytes? = some chunk.bytes := by
  have himmediate := immediateBytes?_instruction chunk offset
  rw [Instruction.immediateBytes?] at himmediate
  rw [Instruction.bytes?, opcode_instruction, shownBytes?, Opcode.ofMnemonic?_mnemonic, himmediate]
  rfl

end Chunk

/-! ### Immediates as numbers -/

namespace Hex

/-- The number that bytes denote, most significant first. -/
def bigEndian (bytes : List UInt8) : Nat :=
  bytes.foldl (fun value byte ↦ 256 * value + byte.toNat) 0

theorem bigEndian_lt (bytes : List UInt8) : bigEndian bytes < Nat.pow 256 bytes.length := by
  induction bytes using List.reverseRecOn with
  | nil => decide
  | append_singleton rest byte ih =>
    have hbyte := byte.toNat_lt
    have hlast : bigEndian (rest ++ [byte]) = 256 * bigEndian rest + byte.toNat := by
      simp [bigEndian]
    rw [hlast, List.length_append, List.length_singleton]
    change _ < Nat.pow 256 rest.length * 256
    omega

/-- The digits of bytes denote the number of the bytes. -/
theorem number_digits (bytes : List UInt8) : number (digits bytes) = bigEndian bytes := by
  rw [number, digits, List.foldl_flatMap, bigEndian]
  congr 1
  funext value byte
  have hbyte := byte.toNat_lt
  simp only [List.foldl_cons, List.foldl_nil, Fin.val_ofNat]
  omega

/-- Zeros in front count nothing: they can be dropped from a number. -/
theorem number_dropWhile_zero (values : List (Fin 16)) :
    number (values.dropWhile (· == 0)) = number values := by
  induction values with
  | nil => rfl
  | cons first rest ih =>
    by_cases hfirst : first = 0
    · subst hfirst
      exact ih
    · rw [List.dropWhile_cons_of_neg (by simpa using hfirst)]

/-- Any zeros can be put in front of a number. -/
theorem number_replicate_zero_append (zeros : Nat) (values : List (Fin 16)) :
    number (List.replicate zeros 0 ++ values) = number values := by
  induction zeros with
  | zero => rfl
  | succ zeros ih => exact ih

theorem digits?_map_digitChar (values : List (Fin 16)) :
    digits? (values.map digitChar) = some values := by
  induction values with
  | nil => rfl
  | cons first rest ih =>
    rw [digits?] at ih
    rw [digits?, List.map_cons, List.mapM_cons, digit?_digitChar, ih]
    rfl

theorem dropWhile_zero_map_digitChar (values : List (Fin 16)) :
    (values.map digitChar).dropWhile (· == '0') = (values.dropWhile (· == 0)).map digitChar := by
  have hzero (value : Fin 16) : (digitChar value == '0') = (value == 0) := by
    revert value
    decide
  rw [List.dropWhile_map]
  congr 2
  funext value
  exact hzero value

end Hex

namespace Immediate

open Hex

theorem dropMarks_map_digitChar (values : List (Fin 16)) :
    dropMarks (values.map digitChar) = values.map digitChar := by
  match values with
  | [] => rfl
  | [_] => simp [dropMarks]
  | _ :: second :: _ => simp [dropMarks, (digitChar_ne_mark second).1]

theorem dropSign_map_digitChar (values : List (Fin 16)) :
    dropSign (values.map digitChar) = values.map digitChar := by
  have hsign (value : Fin 16) : digitChar value ≠ '+' := by
    revert value
    decide
  match values with
  | [] => rfl
  | [_] => simp [dropSign]
  | first :: _ :: _ => simp [dropSign, hsign first]

/-- Digits behind marks denote their number, unless that has more than 64 bits. -/
theorem number?_of_dropMarks {text : String} {values : List (Fin 16)}
    (htext : dropMarks text.toList = values.map digitChar) :
    number? text = if number values < UInt64.size then some (number values) else none := by
  rw [number?, htext, dropWhile_zero_map_digitChar, ← number_dropWhile_zero values]
  cases hsignificant : values.dropWhile (· == 0) with
  | nil => rfl
  | cons first rest =>
    change ((digits? (dropSign ((first :: rest).map digitChar))).map number).filter
      (· < UInt64.size) = _
    rw [dropSign_map_digitChar, digits?_map_digitChar, Option.map_some, Option.filter_some]
    simp only [decide_eq_true_eq]

/-- The digits of bytes behind some marks and then some zeros. -/
def padded (marks zeros : Nat) (bytes : List UInt8) : String :=
  String.ofList ((List.replicate marks ['0', 'x']).flatten ++ List.replicate zeros '0' ++
    write bytes)

theorem dropMarks_marks_append (marks : Nat) (rest : List Char) :
    dropMarks ((List.replicate marks ['0', 'x']).flatten ++ rest) = dropMarks rest := by
  induction marks with
  | zero => rfl
  | succ marks ih => exact ih

/-- Marks and zeros in front of the digits of bytes are dropped, and nothing else: what is left denotes
the number of the bytes, unless that has more than 64 bits. -/
theorem number?_padded (marks zeros : Nat) (bytes : List UInt8) :
    number? (padded marks zeros bytes) =
      if bigEndian bytes < UInt64.size then some (bigEndian bytes) else none := by
  have hdigits : List.replicate zeros '0' ++ write bytes =
      (List.replicate zeros 0 ++ digits bytes).map digitChar := by
    rw [List.map_append, List.map_replicate, write_eq_map_digitChar]
    rfl
  have htext : dropMarks (padded marks zeros bytes).toList =
      (List.replicate zeros 0 ++ digits bytes).map digitChar := by
    rw [padded, String.toList_ofList, List.append_assoc, dropMarks_marks_append, hdigits,
      dropMarks_map_digitChar]
  rw [number?_of_dropMarks htext, number_replicate_zero_append, number_digits]

/-- A written immediate denotes the number of its bytes, unless that has more than 64 bits. -/
theorem number?_marked (bytes : List UInt8) :
    number? (marked bytes) =
      if bigEndian bytes < UInt64.size then some (bigEndian bytes) else none :=
  number?_padded 1 0 bytes

end Immediate

/-- An instruction with an immediate reads as the number of its bytes, unless that has more than 64
bits. -/
theorem Chunk.immediateNumber?_instruction {chunk : Chunk} (hpresent : chunk.immediate ≠ [])
    (offset : UInt32) :
    (chunk.instruction offset).immediateNumber? =
      if Hex.bigEndian chunk.immediate < UInt64.size then some (Hex.bigEndian chunk.immediate)
      else none := by
  rw [Instruction.immediateNumber?, immediate_instruction, if_neg hpresent, Option.bind_some,
    Immediate.number?_marked]

end CodeTrail
