import CodeTrail.Program.Listing
import Mathlib.Data.List.Basic

/-!
# Where prologues are found

`mem_prologuesFrom_iff` says that the search finds exactly the indices where a prologue starts. It
looks at opcodes and immediates alone (`prologuesFrom_congr`), and the starting index only moves what
it finds (`prologuesFrom_eq_map`). A prologue is three instructions of which only the last stores, so
none starts inside another (`pairwise_prologuesFrom`) or lies across its start: in front of a prologue
the search ends independently of what follows (`prologuesFrom_append`).
-/

set_option autoImplicit false
set_option relaxedAutoImplicit false

namespace CodeTrail.Listing

theorem startsPrologue_iff {instructions : List Instruction} :
    startsPrologue instructions = true ↔
      ∃ first second third rest, instructions = first :: second :: third :: rest ∧
        first.pushes "0x80" = true ∧ second.pushes "0x40" = true ∧ third.is "mstore" = true := by
  constructor
  · intro hstarts
    match instructions, hstarts with
    | first :: second :: third :: rest, hstarts =>
      simp only [startsPrologue, Bool.and_eq_true] at hstarts
      exact ⟨first, second, third, rest, rfl, hstarts.1.1, hstarts.1.2, hstarts.2⟩
  · rintro ⟨first, second, third, rest, rfl, hfirst, hsecond, hthird⟩
    rw [startsPrologue, hfirst, hsecond, hthird]
    rfl

/-- The search finds the indices where a prologue starts. -/
theorem mem_prologuesFrom_iff {start index : Nat} {instructions : List Instruction} :
    index ∈ prologuesFrom start instructions ↔
      start ≤ index ∧ startsPrologue (instructions.drop (index - start)) = true := by
  induction instructions generalizing start with
  | nil => simp [prologuesFrom, startsPrologue]
  | cons first rest ih =>
    have hlater : index ∈ prologuesFrom (start + 1) rest ↔
        start < index ∧ startsPrologue ((first :: rest).drop (index - start)) = true := by
      rw [ih, Nat.succ_le_iff]
      refine and_congr_right fun hlt ↦ ?_
      obtain ⟨place, rfl⟩ := Nat.exists_eq_add_of_lt hlt
      have hbefore : start + place + 1 - start = place + 1 := by omega
      have hbehind : start + place + 1 - (start + 1) = place := by omega
      rw [hbefore, hbehind, List.drop_succ_cons]
    rw [prologuesFrom]
    split_ifs with hstarts
    · rw [List.mem_cons, hlater]
      constructor
      · rintro (rfl | ⟨hlt, hfound⟩)
        · exact ⟨Nat.le_refl index, by rwa [Nat.sub_self, List.drop_zero]⟩
        · exact ⟨Nat.le_of_lt hlt, hfound⟩
      · rintro ⟨hle, hfound⟩
        rcases Nat.eq_or_lt_of_le hle with heq | hlt
        · exact Or.inl heq.symm
        · exact Or.inr ⟨hlt, hfound⟩
    · rw [hlater]
      refine and_congr_left fun hfound ↦ ⟨fun hlt ↦ Nat.le_of_lt hlt, fun hle ↦ ?_⟩
      rcases Nat.eq_or_lt_of_le hle with heq | hlt
      · rw [heq, Nat.sub_self, List.drop_zero] at hfound
        exact (hstarts hfound).elim
      · exact hlt

theorem lt_length_of_mem_prologuesFrom {index : Nat} {instructions : List Instruction}
    (hindex : index ∈ prologuesFrom 0 instructions) : index < instructions.length := by
  obtain ⟨-, hstarts⟩ := mem_prologuesFrom_iff.mp hindex
  obtain ⟨first, second, third, rest, hrest, -⟩ := startsPrologue_iff.mp hstarts
  have hlength := congrArg List.length hrest
  rw [List.length_drop, List.length_cons] at hlength
  omega

/-- Counting from elsewhere moves what the search finds. -/
theorem prologuesFrom_eq_map (start : Nat) (instructions : List Instruction) :
    prologuesFrom start instructions = (prologuesFrom 0 instructions).map (start + ·) := by
  induction instructions generalizing start with
  | nil => rfl
  | cons first rest ih =>
    have hrest : prologuesFrom (start + 1) rest =
        (prologuesFrom (0 + 1) rest).map (start + ·) := by
      rw [ih (start + 1), ih (0 + 1), List.map_map]
      congr 1
      funext index
      exact (by omega : start + 1 + index = start + (0 + 1 + index))
    rw [prologuesFrom, prologuesFrom, hrest]
    split_ifs <;> rfl

/-- What an instruction shows of its chunk. -/
def shown (instruction : Instruction) : String × Option String :=
  (instruction.opcode, instruction.immediate)

theorem startsPrologue_of_shown {first second : List Instruction}
    (hshown : first.map shown = second.map shown) (hfirst : startsPrologue first = true) :
    startsPrologue second = true := by
  obtain ⟨one, two, three, rest, rfl, hone, htwo, hthree⟩ := startsPrologue_iff.mp hfirst
  obtain ⟨one', rest', rfl, hone', hshown⟩ := List.map_eq_cons_iff.mp hshown.symm
  obtain ⟨two', rest'', rfl, htwo', hshown⟩ := List.map_eq_cons_iff.mp hshown
  obtain ⟨three', others, rfl, hthree', -⟩ := List.map_eq_cons_iff.mp hshown
  simp only [shown, Prod.mk.injEq] at hone' htwo' hthree'
  simp only [startsPrologue, Instruction.pushes, Instruction.is] at hone htwo hthree ⊢
  rw [hone'.1, hone'.2, htwo'.1, htwo'.2, hthree'.1, hone, htwo, hthree]
  rfl

/-- Whether a prologue starts depends on opcodes and immediates alone. -/
theorem startsPrologue_congr {first second : List Instruction}
    (hshown : first.map shown = second.map shown) :
    startsPrologue first = startsPrologue second :=
  Bool.eq_iff_iff.mpr ⟨startsPrologue_of_shown hshown, startsPrologue_of_shown hshown.symm⟩

theorem prologuesFrom_congr {first second : List Instruction}
    (hshown : first.map shown = second.map shown) (start : Nat) :
    prologuesFrom start first = prologuesFrom start second := by
  induction first generalizing second start with
  | nil =>
    cases second with
    | nil => rfl
    | cons other others => cases hshown
  | cons instruction rest ih =>
    cases second with
    | nil => cases hshown
    | cons other others =>
      have hrest := (List.cons_eq_cons.mp hshown).2
      rw [prologuesFrom, prologuesFrom, startsPrologue_congr hshown, ih hrest]

/-- What pushes does not store. -/
theorem is_mstore_eq_false_of_pushes {instruction : Instruction} {value : String}
    (hpushes : instruction.pushes value = true) : instruction.is "mstore" = false := by
  simp only [Instruction.pushes, Instruction.is, Bool.and_eq_true, beq_iff_eq] at hpushes
  rw [Instruction.is, hpushes.1]
  decide

/-- No prologue starts at the second or the third instruction of another. -/
theorem three_le_of_startsPrologue_drop {instructions : List Instruction} {place : Nat}
    (hfirst : startsPrologue instructions = true) (hpos : 0 < place)
    (hplace : startsPrologue (instructions.drop place) = true) : 3 ≤ place := by
  obtain ⟨one, two, three, rest, rfl, -, htwo, hthree⟩ := startsPrologue_iff.mp hfirst
  obtain ⟨start, _, _, _, hstart, hpushes, -⟩ := startsPrologue_iff.mp hplace
  by_contra hnear
  obtain rfl | rfl : place = 1 ∨ place = 2 := by omega
  · obtain rfl : two = start := (List.cons_eq_cons.mp hstart).1
    simp only [Instruction.pushes, Bool.and_eq_true, beq_iff_eq] at htwo hpushes
    rw [hpushes.2] at htwo
    exact absurd htwo.2 (by decide)
  · obtain rfl : three = start := (List.cons_eq_cons.mp hstart).1
    rw [is_mstore_eq_false_of_pushes hpushes] at hthree
    cases hthree

/-- The search finds prologues in order, and none inside another. -/
theorem pairwise_prologuesFrom (start : Nat) (instructions : List Instruction) :
    (prologuesFrom start instructions).Pairwise (· + 3 ≤ ·) := by
  induction instructions generalizing start with
  | nil => exact .nil
  | cons first rest ih =>
    rw [prologuesFrom]
    split_ifs with hstarts
    · refine .cons (fun index hindex ↦ ?_) (ih (start + 1))
      obtain ⟨hlt, hfound⟩ := mem_prologuesFrom_iff.mp hindex
      obtain ⟨place, rfl⟩ := Nat.exists_eq_add_of_le hlt
      rw [Nat.add_sub_cancel_left] at hfound
      have hfar := three_le_of_startsPrologue_drop hstarts (Nat.succ_pos place) hfound
      omega
    · exact ih (start + 1)

/-- No prologue lies across the start of another. -/
theorem startsPrologue_append {first second : List Instruction} (hfirst : first ≠ [])
    (hsecond : startsPrologue second = true) :
    startsPrologue (first ++ second) = startsPrologue first := by
  obtain ⟨one, two, three, rest, rfl, hone, htwo, -⟩ := startsPrologue_iff.mp hsecond
  match first, hfirst with
  | [_], _ => simp [startsPrologue, is_mstore_eq_false_of_pushes htwo]
  | [_, _], _ => simp [startsPrologue, is_mstore_eq_false_of_pushes hone]
  | _ :: _ :: _ :: _, _ => rfl

/-- In front of a prologue the search ends independently of what follows. -/
theorem prologuesFrom_append (start : Nat) (first : List Instruction) {second : List Instruction}
    (hsecond : startsPrologue second = true) :
    prologuesFrom start (first ++ second) =
      prologuesFrom start first ++ prologuesFrom (start + first.length) second := by
  induction first generalizing start with
  | nil => rfl
  | cons instruction rest ih =>
    have hstarts := startsPrologue_append (List.cons_ne_nil instruction rest) hsecond
    rw [List.cons_append] at hstarts
    rw [List.cons_append, prologuesFrom, hstarts, prologuesFrom, ih, List.length_cons,
      Nat.add_assoc, Nat.add_comm 1]
    split_ifs <;> rfl

end CodeTrail.Listing
