import CodeTrail.Proofs.Program.Ending

/-!
# Code with more code behind it

What follows a piece of code changes none of the instructions that lie wholly in it
(`getElem?_ofBytes_append`). Where its program reaches to its end, what follows is a program of its own:
the two are put together, with the second moved behind the first.

Two things can pass from one piece to the other. A program that ends closed goes on only where the code
behind opens again, and a return in front makes a failure close the code. `decode_append` tells all
three cases: nothing goes on, the whole program behind goes on, or a failure does and what follows that
only where it opens the code again.

`chunks_append`, `chunks_append_of_closesLast` and `chunks_append_failure` are the cases for chunks.
-/

set_option autoImplicit false
set_option relaxedAutoImplicit false

namespace CodeTrail

namespace Chunk

/-- The last opcode of chunks is the one of the last chunk. -/
theorem lastOpcode_none (chunks : List Chunk) :
    lastOpcode none chunks = chunks.getLast?.map (·.opcode) := by
  have hlast (before : Option Opcode) :
      lastOpcode before chunks = (chunks.getLast?.map (·.opcode)).or before := by
    induction chunks generalizing before with
    | nil => rfl
    | cons chunk rest ih =>
      rw [lastOpcode, ih, List.getLast?_cons]
      cases rest.getLast? <;> rfl
  rw [hlast, Option.or_none]

/-- A return does not close the code. -/
theorem not_closesLast_of_return {chunks : List Chunk}
    (hreturn : lastOpcode none chunks = some .return_) : ¬ ClosesLast none chunks := by
  rintro ⟨last, chunk, hlast, hchunk, hcloses⟩
  rw [lastOpcode_none, List.getLast?_eq_getElem?, ← hlast, Nat.add_sub_cancel, hchunk,
    Option.map_some, Option.some.injEq] at hreturn
  rw [closes, hreturn] at hcloses
  revert hcloses
  exact Bool.false_ne_true

/-- Behind a return a failure closes the code. -/
theorem listedAfter_return_failure (chunks : List Chunk) :
    listedAfter (some .return_) (⟨.invalid, []⟩ :: chunks) =
      ⟨.invalid, []⟩ :: if (chunks.head?.map opens).getD false then listed chunks else [] := by
  have hcloses : closes (some .return_) ⟨.invalid, []⟩ = true := rfl
  cases chunks with
  | nil => rfl
  | cons next rest =>
    rw [listedAfter, hcloses, Bool.true_and, List.head?_cons, Option.map_some, Option.getD_some]
    cases hopens : opens next with
    | false => rfl
    | true =>
      have hnext : next.opcode = .invalid → some Opcode.invalid ≠ some .return_ :=
        fun _ ↦ by decide
      exact congrArg (⟨.invalid, []⟩ :: ·) (listedAfter_eq_listed hnext rest)

end Chunk

namespace Program

open Chunk (span sweep)
open Instruction (moved)

/-- The last instruction of a program closes the code. -/
def EndsClosed (program : Program) : Prop :=
  ∃ last, last + 1 = program.instructions.length ∧ program.ClosesAt last

/-- The last instruction of a program is a return. -/
def EndsWithReturn (program : Program) : Prop :=
  ∃ last, program.instructions.getLast? = some last ∧ last.is "return" = true

/-- Code starts with the push of one byte or the landing place that opens closed code again. -/
def Reopens (code : List UInt8) : Prop :=
  code[0]? = some 0x60 ∨ code[0]? = some 0x5b

section Ends

variable {code : List UInt8} {chunk : Chunk} {rest : List Chunk}

theorem endsClosed_ofBytes_iff :
    EndsClosed (ofBytes code) ↔ Chunk.ClosesLast none (chunks code) := by
  constructor
  · rintro ⟨last, hlast, hcloses⟩
    rw [length_ofBytes] at hlast
    have hchunk : (chunks code)[last]? = some (chunks code)[last] :=
      List.getElem?_eq_getElem (by omega)
    refine ⟨last, _, hlast, hchunk, ?_⟩
    rw [take_chunks (by omega)]
    exact (closesAt_iff hchunk).mp hcloses
  · rintro ⟨last, chunk, hlast, hchunk, hcloses⟩
    rw [take_chunks (by omega)] at hcloses
    exact ⟨last, by rw [length_ofBytes, hlast], (closesAt_iff hchunk).mpr hcloses⟩

theorem endsWithReturn_ofBytes_iff :
    EndsWithReturn (ofBytes code) ↔ Chunk.lastOpcode none (chunks code) = some .return_ := by
  rw [EndsWithReturn, Chunk.lastOpcode_none, List.getLast?_eq_getElem?, List.getLast?_eq_getElem?,
    length_ofBytes, Option.map_eq_some_iff]
  constructor
  · rintro ⟨last, hlast, hreturn⟩
    obtain ⟨chunk, hchunk, -⟩ := exists_chunk hlast
    exact ⟨chunk, hchunk, (is_iff hchunk hlast Opcode.entry?_return).mp hreturn⟩
  · rintro ⟨chunk, hchunk, hreturn⟩
    obtain ⟨hbound, -⟩ := List.getElem?_eq_some_iff.mp hchunk
    have hplace : (chunks code).length - 1 < (ofBytes code).instructions.length := by
      rwa [length_ofBytes]
    have hlast := List.getElem?_eq_getElem hplace
    exact ⟨_, hlast, (is_iff hchunk hlast Opcode.entry?_return).mpr hreturn⟩

/-- The first chunk opens code again if the first byte does. -/
theorem opens_iff_reopens (hcode : sweep code = chunk :: rest) :
    chunk.opens = true ↔ Reopens code := by
  cases code with
  | nil => rw [Chunk.sweep_nil] at hcode; cases hcode
  | cons byte bytes =>
    rw [Chunk.sweep_cons, List.cons_eq_cons] at hcode
    rw [← Bool.not_eq_false, Chunk.opens_eq_false_iff, ← hcode.1, Reopens, List.getElem?_cons_zero,
      Option.some.injEq, Option.some.injEq]
    tauto

end Ends

/-! ### Chunks behind chunks -/

section Chunks

variable {first second : List UInt8} (hwhole : span (chunks first) = first.length)

include hwhole

/-- Nothing goes on behind closed code that does not open again. -/
theorem chunks_append_of_closesLast (hcloses : Chunk.ClosesLast none (chunks first))
    (hsecond : second ≠ []) (hstays : ¬ Reopens second) :
    chunks (first ++ second) = chunks first := by
  have hfirst := chunks_eq_sweep hwhole
  have hlisted : Chunk.listedAfter none (sweep first) = sweep first := hfirst
  obtain ⟨chunk, rest, hsweep⟩ := List.exists_cons_of_ne_nil (mt Chunk.sweep_eq_nil_iff.mp hsecond)
  rw [← opens_iff_reopens hsweep, Bool.not_eq_true] at hstays
  rw [hfirst] at hwhole hcloses
  rw [hfirst, chunks, Chunk.sweep_append hwhole, hsweep, Chunk.listed,
    Chunk.listedAfter_append_of_closesLast hlisted hcloses hstays]

/-- A failure behind a return goes on, and what follows it only where that opens the code again. -/
theorem chunks_append_failure
    (hreturn : Chunk.lastOpcode none (chunks first) = some .return_) :
    (Reopens second →
        chunks (first ++ 0xfe :: second) = chunks first ++ ⟨.invalid, []⟩ :: chunks second) ∧
      (¬ Reopens second → chunks (first ++ 0xfe :: second) = chunks first ++ [⟨.invalid, []⟩]) := by
  have hfirst := chunks_eq_sweep hwhole
  have hlisted : Chunk.listedAfter none (sweep first) = sweep first := hfirst
  have hsize : (Opcode.mk 0xfe).immediateSize = 0 :=
    Opcode.immediateSize_of_entry?_eq_some Opcode.entry?_invalid
  have hsweep : sweep (0xfe :: second) = ⟨.invalid, []⟩ :: sweep second := by
    rw [Chunk.sweep_cons, hsize, List.take_zero, List.drop_zero]
    rfl
  have hgoes : chunks (first ++ 0xfe :: second) =
      chunks first ++ ⟨.invalid, []⟩ ::
        if ((sweep second).head?.map Chunk.opens).getD false then chunks second else [] := by
    rw [hfirst] at hwhole hreturn
    rw [hfirst, chunks, Chunk.sweep_append hwhole, hsweep, Chunk.listed,
      Chunk.listedAfter_append_of_goesOn hlisted fun hcloses ↦
        (Chunk.not_closesLast_of_return hreturn hcloses).elim,
      hreturn, Chunk.listedAfter_return_failure]
    rfl
  have hopens : ((sweep second).head?.map Chunk.opens).getD false = true ↔ Reopens second := by
    cases hrest : sweep second with
    | nil =>
      rw [Chunk.sweep_eq_nil_iff.mp hrest]
      simp [Reopens]
    | cons chunk rest => exact opens_iff_reopens hrest
  rw [hgoes]
  exact ⟨fun hreopens ↦ by rw [if_pos (hopens.mpr hreopens)],
    fun hstays ↦ by rw [if_neg (mt hopens.mp hstays)]⟩

end Chunks

/-! ### Instructions behind instructions -/

section Instructions

variable {first second : List UInt8} {index : Nat} {instruction : Instruction}

/-- What follows code changes no instruction that lies wholly in it. -/
theorem getElem?_ofBytes_append (hsize : first.length ≤ UInt32.size - 33)
    (hinstruction : (ofBytes first).instructions[index]? = some instruction)
    (hinside : instruction.stop ≤ first.length) (second : List UInt8) :
    (ofBytes (first ++ second)).instructions[index]? = some instruction := by
  rw [stop_eq hsize hinstruction] at hinside
  obtain ⟨chunk, hchunk, rfl⟩ := exists_chunk hinstruction
  obtain ⟨hbound, -⟩ := List.getElem?_eq_some_iff.mp hchunk
  rw [take_chunks hbound] at hinside
  have hsweep := Chunk.take_sweep_isPrefix hinside second
  have hthere : (chunks (first ++ second))[index]? = some chunk :=
    Chunk.getElem?_listedAfter_of_isPrefix hchunk hsweep
  obtain ⟨hboundThere, -⟩ := List.getElem?_eq_some_iff.mp hthere
  have hbefore : (chunks (first ++ second)).take index = (chunks first).take index := by
    obtain ⟨tail, htail⟩ := hsweep
    have hlength := (chunks_isPrefix first).length_le
    rw [take_chunks (Nat.le_of_lt hboundThere), take_chunks (Nat.le_of_lt hbound), ← htail,
      List.take_append_of_le_length (by rw [List.length_take]; omega), List.take_take,
      Nat.min_eq_left (Nat.le_succ index)]
  rw [getElem?_ofBytes, hthere, hbefore, Option.map_some]

/-- No offset wraps around when a program is moved behind code. -/
theorem toNat_offset_moved {code : List UInt8} {distance : Nat}
    (hsize : distance + code.length ≤ UInt32.size - 33)
    (hinstruction : instruction ∈ (ofBytes code).instructions) :
    (moved (UInt32.ofNat distance) instruction).offset.toNat =
      distance + instruction.offset.toNat := by
  have hoffset := (laidOut_ofBytes (by omega)).offset_lt instruction hinstruction
  rw [moved, UInt32.toNat_add, UInt32.toNat_ofNat_of_lt' (by omega)]
  exact Nat.mod_eq_of_lt (by simp only [UInt32.size] at hsize; omega)

end Instructions

/-- The failure at an offset. -/
def failureAt (offset : Nat) : Instruction where
  opcode := "invalid"
  offset := UInt32.ofNat offset
  length := 1
  stackInputs := 0
  stackOutputs := 0

theorem place_failure (offset : Nat) (chunks : List Chunk) :
    (place 0 (⟨.invalid, []⟩ :: chunks)).map (moved (UInt32.ofNat offset)) =
      failureAt offset :: (place 0 chunks).map (moved (UInt32.ofNat (offset + 1))) := by
  have hname : Opcode.invalid.mnemonic = "invalid" :=
    Opcode.mnemonic_of_entry?_eq_some Opcode.entry?_invalid
  have hsize : Opcode.invalid.immediateSize = 0 :=
    Opcode.immediateSize_of_entry?_eq_some Opcode.entry?_invalid
  have hfailure : Chunk.instruction (UInt32.ofNat offset) ⟨.invalid, []⟩ = failureAt offset := by
    rw [Chunk.instruction, Chunk.width, hname, hsize, Opcode.entry?_invalid]
    rfl
  have hwidth : UInt32.ofNat offset + UInt32.ofNat (Chunk.width ⟨.invalid, []⟩) =
      UInt32.ofNat (offset + 1) := by
    rw [Chunk.width, hsize, ← UInt32.ofNat_add]
  rw [← place_eq_map_moved, ← place_eq_map_moved, place, hfailure, hwidth]

/-! ### The three ways in which code goes on -/

section Continuations

variable {first second : List UInt8} (hsize : first.length ≤ UInt32.size - 33)
  (hwhole : (ofBytes first).extent = first.length)

include hsize hwhole

theorem ofBytes_append_of_endsClosed (hcloses : EndsClosed (ofBytes first)) (hsecond : second ≠ [])
    (hstays : ¬ Reopens second) : ofBytes (first ++ second) = ofBytes first := by
  rw [extent_ofBytes hsize] at hwhole
  rw [endsClosed_ofBytes_iff] at hcloses
  rw [ofBytes_eq_place, chunks_append_of_closesLast hwhole hcloses hsecond hstays, ofBytes_eq_place]

theorem instructions_ofBytes_append_of_goesOn
    (hopens : EndsClosed (ofBytes first) → second = [] ∨ Reopens second)
    (hfailure : EndsWithReturn (ofBytes first) → second[0]? ≠ some 0xfe) :
    (ofBytes (first ++ second)).instructions =
      (ofBytes first).instructions ++
        (ofBytes second).instructions.map (moved (UInt32.ofNat first.length)) := by
  rw [extent_ofBytes hsize] at hwhole
  rw [endsClosed_ofBytes_iff] at hopens
  rw [endsWithReturn_ofBytes_iff] at hfailure
  refine instructions_ofBytes_append hwhole ?_
  cases second with
  | nil => rw [List.append_nil, chunks, Chunk.sweep_nil]; exact (List.append_nil _).symm
  | cons byte rest =>
    refine chunks_append hwhole (Chunk.sweep_cons byte rest) (fun hcloses ↦ ?_)
      fun hinvalid hreturn ↦ ?_
    · rw [opens_iff_reopens (Chunk.sweep_cons byte rest)]
      exact (hopens hcloses).resolve_left (List.cons_ne_nil _ _)
    · exact hfailure hreturn (congrArg (fun opcode : Opcode ↦ some opcode.byte) hinvalid)

theorem instructions_ofBytes_append_failure (hreturn : EndsWithReturn (ofBytes first)) :
    (Reopens second →
        (ofBytes (first ++ 0xfe :: second)).instructions =
          (ofBytes first).instructions ++ failureAt first.length ::
            (ofBytes second).instructions.map (moved (UInt32.ofNat (first.length + 1)))) ∧
      (¬ Reopens second →
        (ofBytes (first ++ 0xfe :: second)).instructions =
          (ofBytes first).instructions ++ [failureAt first.length]) := by
  rw [extent_ofBytes hsize] at hwhole
  rw [endsWithReturn_ofBytes_iff] at hreturn
  constructor
  · intro hsecond
    have hchunks := (chunks_append_failure hwhole hreturn).1 hsecond
    rw [instructions_ofBytes_append hwhole hchunks, place_failure]
    rfl
  · intro hsecond
    have hchunks := (chunks_append_failure hwhole hreturn).2 hsecond
    rw [instructions_ofBytes_append hwhole hchunks, place_failure]
    rfl

end Continuations

/-- The program of code with more code behind it. Assumes: a text whose code is that of two others, too
short for an offset to wrap around. An instruction of the first that lies wholly in its code stays as it
is. If the program of the first reaches to the end of its code, nothing goes on behind it where it ends
closed and the code behind does not open again; otherwise the program of the second goes on, moved
behind the first, unless that ends with a return and a failure follows; the failure then goes on, and
what follows it only where that opens the code again. -/
theorem decode_append {first second joined : String}
    (hjoined : Hex.code joined = Hex.code first ++ Hex.code second)
    (hsize : (Hex.code joined).length ≤ UInt32.size - 33) :
    (∀ (index : Nat) (instruction : Instruction),
        (decode first).instructions[index]? = some instruction →
          instruction.stop ≤ (Hex.code first).length →
            (decode joined).instructions[index]? = some instruction) ∧
      ((decode first).extent = (Hex.code first).length →
        (EndsClosed (decode first) → Hex.code second ≠ [] → ¬ Reopens (Hex.code second) →
          decode joined = decode first) ∧
        ((EndsClosed (decode first) → Hex.code second = [] ∨ Reopens (Hex.code second)) →
          (EndsWithReturn (decode first) → (Hex.code second)[0]? ≠ some 0xfe) →
            (decode joined).instructions = (decode first).instructions ++
              (decode second).instructions.map (moved (UInt32.ofNat (Hex.code first).length))) ∧
        (EndsWithReturn (decode first) →
          ∀ rest : String, Hex.code second = 0xfe :: Hex.code rest →
            (Reopens (Hex.code rest) →
              (decode joined).instructions = (decode first).instructions ++
                failureAt (Hex.code first).length :: (decode rest).instructions.map
                  (moved (UInt32.ofNat ((Hex.code first).length + 1)))) ∧
            (¬ Reopens (Hex.code rest) →
              (decode joined).instructions = (decode first).instructions ++
                [failureAt (Hex.code first).length]))) ∧
      ∀ (text : String) (distance : Nat),
        distance + (Hex.code text).length ≤ (Hex.code joined).length →
          ∀ instruction ∈ (decode text).instructions,
            (moved (UInt32.ofNat distance) instruction).offset.toNat =
              distance + instruction.offset.toNat := by
  have hfirst : (Hex.code first).length ≤ UInt32.size - 33 := by
    rw [hjoined, List.length_append] at hsize
    omega
  have hdecode : decode joined = ofBytes (Hex.code first ++ Hex.code second) := by
    rw [decode_eq_ofBytes, hjoined]
  rw [hdecode]
  refine ⟨fun index instruction hinstruction hinside ↦
    getElem?_ofBytes_append hfirst hinstruction hinside (Hex.code second),
    fun hwhole ↦ ⟨?_, ?_, ?_⟩, fun text distance hdistance instruction hinstruction ↦ ?_⟩
  · exact ofBytes_append_of_endsClosed hfirst hwhole
  · exact instructions_ofBytes_append_of_goesOn hfirst hwhole
  · intro hreturn rest hrest
    rw [hrest]
    exact instructions_ofBytes_append_failure hfirst hwhole hreturn
  · exact toNat_offset_moved (Nat.le_trans hdistance hsize) hinstruction

/-- Behind a return a failure is left with nothing behind it, though the code behind the border goes on
from the failure when it is decoded alone. -/
theorem decode_append_failure_behind_return :
    Hex.code "0x005b6000f3fe01" = Hex.code "0x005b6000f3" ++ Hex.code "fe01" ∧
      (decode "0x005b6000f3").extent = (Hex.code "0x005b6000f3").length ∧
      EndsWithReturn (decode "0x005b6000f3") ∧ ¬ Reopens (Hex.code "0x01") ∧
      (decode "0x005b6000f3fe01").instructions =
        (decode "0x005b6000f3").instructions ++ [failureAt 5] ∧
      (decode "fe01").instructions.length = 2 := by
  have hcode : Hex.code "0x005b6000f3" = [0x00, 0x5b, 0x60, 0x00, 0xf3] := by decide +kernel
  have hjoined : Hex.code "0x005b6000f3fe01" = Hex.code "0x005b6000f3" ++ Hex.code "fe01" := by
    decide +kernel
  have hrest : Hex.code "fe01" = 0xfe :: Hex.code "0x01" := by decide +kernel
  have hwhole : (decode "0x005b6000f3").extent = (Hex.code "0x005b6000f3").length := by
    decide +kernel
  have hreturn : EndsWithReturn (decode "0x005b6000f3") :=
    ⟨{ opcode := "return", offset := 4, length := 1, stackInputs := 2, stackOutputs := 0 },
      by decide +kernel, rfl⟩
  have hstays : ¬ Reopens (Hex.code "0x01") := by
    have hadd : Hex.code "0x01" = [0x01] := by decide +kernel
    rw [hadd]
    rintro (hpush | hlanding)
    · cases hpush
    · cases hlanding
  obtain ⟨-, hgoesOn, -⟩ := decode_append hjoined (by decide +kernel)
  obtain ⟨-, -, hfailure⟩ := hgoesOn hwhole
  have hparts := (hfailure hreturn "0x01" hrest).2 hstays
  rw [hcode] at hparts
  exact ⟨hjoined, hwhole, hreturn, hstays, hparts, by decide +kernel⟩

end Program

end CodeTrail
