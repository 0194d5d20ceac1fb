import CodeTrail.Proofs.Expression.Forest
import Mathlib.Data.List.Nodup

/-!
# What expressions span

An expression spans the instructions from the first one of its operands up to its own. `Tiles` says of
expressions that they span a stretch of instructions one behind the other, without gap or overlap.
`tiles_grouped` is the invariant of the grouping: its expressions tile the instructions read so far, for
an instruction that joins takes the end of the tiling as its operands and puts its own span there. So
the operands of an expression tile what it spans in front of its own instruction, at any depth, and
`spans_of_listing` follows; the walk in `postorder` meets the instructions in their order.
-/

set_option autoImplicit false
set_option relaxedAutoImplicit false

namespace CodeTrail.Expression

/-! ### Tilings -/

/-- Expressions span the instructions from one index on and in front of another, in order and each
exactly once. -/
def Tiles (first stop : Nat) : List Expression → Prop
  | [] => first = stop
  | expression :: rest =>
    expression.spanStart = first ∧ first ≤ expression.spanEnd ∧
      Tiles (expression.spanEnd + 1) stop rest

section Tilings

variable {first middle stop : Nat} {expressions : List Expression}

theorem Tiles.le (htiles : Tiles first stop expressions) : first ≤ stop := by
  induction expressions generalizing first with
  | nil => exact Nat.le_of_eq htiles
  | cons expression rest ih =>
    obtain ⟨-, hspan, hrest⟩ := htiles
    exact Nat.le_trans (Nat.le_succ_of_le hspan) (ih hrest)

/-- Nothing tiles no instructions, and nothing else does. -/
theorem Tiles.eq_nil_iff (htiles : Tiles first stop expressions) :
    expressions = [] ↔ first = stop := by
  cases expressions with
  | nil => exact ⟨fun _ ↦ htiles, fun _ ↦ rfl⟩
  | cons expression rest =>
    obtain ⟨-, hspan, hrest⟩ := htiles
    have hstop := hrest.le
    constructor
    · intro hempty
      cases hempty
    · intro hsame
      omega

theorem Tiles.head?_spanStart (htiles : Tiles first stop expressions) :
    (expressions.head?.map (·.spanStart)).getD stop = first := by
  cases expressions with
  | nil => exact htiles.symm
  | cons expression rest => exact htiles.1

theorem tiles_append_iff {others : List Expression} :
    Tiles first stop (expressions ++ others) ↔
      ∃ middle, Tiles first middle expressions ∧ Tiles middle stop others := by
  induction expressions generalizing first with
  | nil =>
    refine ⟨fun hothers ↦ ⟨first, rfl, hothers⟩, ?_⟩
    rintro ⟨middle, rfl, hothers⟩
    exact hothers
  | cons expression rest ih =>
    rw [List.cons_append, Tiles, ih]
    constructor
    · rintro ⟨hstart, hspan, middle, hrest, hothers⟩
      exact ⟨middle, ⟨hstart, hspan, hrest⟩, hothers⟩
    · rintro ⟨middle, ⟨hstart, hspan, hrest⟩, hothers⟩
      exact ⟨hstart, hspan, middle, hrest, hothers⟩

end Tilings

/-! ### The tiling of a forest -/

/-- The expressions of instructions tile them. -/
theorem tiles_grouped (instructions : List Instruction) :
    Tiles 0 instructions.length (grouped instructions) := by
  induction instructions using List.reverseRecOn with
  | nil => rfl
  | append_singleton instructions instruction ih =>
    obtain ⟨kept, operands, hgrouped, hjoined, -⟩ := exists_grouped_append instructions instruction
    rw [hgrouped, tiles_append_iff] at ih
    obtain ⟨middle, hkept, hoperands⟩ := ih
    rw [hjoined, tiles_append_iff, List.length_append, List.length_singleton]
    exact ⟨middle, hkept, hoperands.head?_spanStart, hoperands.le, rfl⟩

/-- How an expression and its children span the instructions of a list. -/
structure Spans (instructions : List Instruction) (expression : Expression) : Prop where
  /-- The children tile what the expression spans in front of its own instruction. -/
  tiles : Tiles expression.spanStart expression.spanEnd expression.children
  /-- An expression without children spans nothing but its own instruction. -/
  children_eq_nil_iff : expression.children = [] ↔ expression.spanStart = expression.spanEnd
  /-- An expression leaves what its own instruction leaves. -/
  produced : (instructions[expression.spanEnd]?.map (·.stackOutputs)) = some expression.produced

/-- Expressions at any depth span the instructions. -/
theorem spans_of_mem_postorderAll {instructions : List Instruction} {expression : Expression}
    (hexpression : expression ∈ postorderAll (grouped instructions)) :
    Spans instructions expression := by
  refine forall_mem_postorderAll_grouped ?_ ?_ instructions expression hexpression
  · intro instructions instruction kept operands hgrouped _
    have htiles := tiles_grouped instructions
    rw [hgrouped, tiles_append_iff] at htiles
    obtain ⟨middle, -, hoperands⟩ := htiles
    have hown : Tiles (combined instruction instructions.length operands).spanStart
        instructions.length operands := by
      rw [combined, hoperands.head?_spanStart]
      exact hoperands
    refine ⟨hown, hown.eq_nil_iff, ?_⟩
    rw [combined, List.getElem?_concat_length]
    rfl
  · intro instructions instruction expression hspans
    refine ⟨hspans.tiles, hspans.children_eq_nil_iff, ?_⟩
    obtain ⟨own, hown, -⟩ := Option.map_eq_some_iff.mp hspans.produced
    obtain ⟨hbound, -⟩ := List.getElem?_eq_some_iff.mp hown
    rw [List.getElem?_append_left hbound]
    exact hspans.produced

/-- The walk meets one expression for each instruction, in order. -/
theorem map_spanEnd_postorderAll_grouped (instructions : List Instruction) :
    (postorderAll (grouped instructions)).map (·.spanEnd) = List.range instructions.length := by
  induction instructions using List.reverseRecOn with
  | nil => rfl
  | append_singleton instructions instruction ih =>
    obtain ⟨kept, operands, hgrouped, hjoined, -⟩ := exists_grouped_append instructions instruction
    rw [hjoined, postorderAll_grouped_append hgrouped rfl, List.map_append, ih, List.length_append,
      List.length_singleton, List.range_succ]
    rfl

/-- The expressions of a listing tile its instructions, and at any depth the children of an expression
tile what it spans in front of its own instruction, whose items it leaves. Every instruction is the own
instruction of one expression and no more, and the walk that puts each expression behind its children
meets the instructions in their order. -/
theorem spans_of_listing (listing : Listing) :
    Tiles 0 listing.instructions.length (Grouping.of listing).expressions ∧
      (∀ item ∈ preorderAll 0 (Grouping.of listing).expressions,
        Spans listing.instructions item.2) ∧
      (∀ index < listing.instructions.length,
        (preorderAll 0 (Grouping.of listing).expressions).countP (·.2.spanEnd = index) = 1) ∧
      (postorderAll (Grouping.of listing).expressions).map (·.spanEnd) =
        List.range listing.instructions.length := by
  have hwalk := map_spanEnd_postorderAll_grouped listing.instructions
  refine ⟨tiles_grouped listing.instructions, fun item hitem ↦ ?_, fun index hindex ↦ ?_, hwalk⟩
  · exact spans_of_mem_postorderAll (mem_postorderAll_of_mem_preorderAll hitem)
  · have hends := (map_snd_preorderAll_perm 0 (grouped listing.instructions)).map (·.spanEnd)
    rw [hwalk, List.map_map] at hends
    have hcount := hends.count_eq index
    rw [List.count_eq_one_of_mem List.nodup_range (List.mem_range.mpr hindex), List.count,
      List.countP_map] at hcount
    exact hcount

/-- A sum with a landing place between the pushes of its two operands. -/
def landingInSum : Listing where
  instructions :=
    [{ opcode := "push1", offset := 0, length := 2, stackInputs := 0, stackOutputs := 1,
       immediate := some "0x01" },
      { opcode := "jumpdest", offset := 2, length := 1, stackInputs := 0, stackOutputs := 0 },
      { opcode := "push1", offset := 3, length := 2, stackInputs := 0, stackOutputs := 1,
        immediate := some "0x02" },
      { opcode := "add", offset := 5, length := 1, stackInputs := 2, stackOutputs := 1 }]
  prologues := []
  runtimeStart := none

theorem spans_of_landingInSum :
    (0, ⟨0, 3, 1, [⟨0, 0, 1, []⟩, ⟨1, 1, 0, []⟩, ⟨2, 2, 1, []⟩]⟩) ∈
        preorderAll 0 (Grouping.of landingInSum).expressions ∧
      Spans landingInSum.instructions ⟨0, 3, 1, [⟨0, 0, 1, []⟩, ⟨1, 1, 0, []⟩, ⟨2, 2, 1, []⟩]⟩ ∧
      1 < landingInSum.instructions.length ∧
      (preorderAll 0 (Grouping.of landingInSum).expressions).countP (·.2.spanEnd = 1) = 1 := by
  obtain ⟨-, hspans, hcount, -⟩ := spans_of_listing landingInSum
  have hsum : (0, ⟨0, 3, 1, [⟨0, 0, 1, []⟩, ⟨1, 1, 0, []⟩, ⟨2, 2, 1, []⟩]⟩) ∈
      preorderAll 0 (Grouping.of landingInSum).expressions := .head _
  exact ⟨hsum, hspans _ hsum, by decide, hcount 1 (by decide)⟩

end CodeTrail.Expression
