import CodeTrail.Proofs.Expression.Spans

/-!
# Which operands an expression takes

The children of an expression are the fewest that leave what its instruction takes from the stack: with
the first of them left out there would not be enough (`Frugal.leaves_lt`), and all of them are enough
unless there was nothing else to take. What was there to take tiles the instructions from the start on,
so an expression that came away short starts at the first instruction of all (`Frugal.enough`).
`operands_of_listing` says so of the expressions of a listing at any depth.
-/

set_option autoImplicit false
set_option relaxedAutoImplicit false

namespace CodeTrail.Expression

/-- The children of an expression are the fewest that leave a number of items. -/
structure Frugal (wanted : Nat) (expression : Expression) : Prop where
  /-- The last children alone, without some of those before them, do not leave enough. -/
  leaves_lt : ∀ fewer, fewer <:+ expression.children → fewer ≠ expression.children →
    leaves fewer < wanted
  /-- The children leave enough, unless the expression takes all there is before it. -/
  enough : wanted ≤ leaves expression.children ∨ expression.spanStart = 0
  /-- Nothing is taken where nothing is wanted. -/
  children_eq_nil : wanted = 0 → expression.children = []
  /-- Children that leave nothing are taken on the way and do not count. -/
  leaves_filter : leaves (expression.children.filter (·.produced ≠ 0)) = leaves expression.children

theorem leaves_filter_produced (expressions : List Expression) :
    leaves (expressions.filter (·.produced ≠ 0)) = leaves expressions := by
  induction expressions with
  | nil => rfl
  | cons expression rest ih =>
    by_cases hproduced : expression.produced = 0
    · rw [List.filter_cons_of_neg (by simpa using hproduced), ih, leaves, hproduced]
      exact (Nat.zero_add _).symm
    · rw [List.filter_cons_of_pos (by simpa using hproduced), leaves, leaves, ih]

/-- Expressions at any depth are frugal. -/
theorem frugal_of_mem_postorderAll {instructions : List Instruction} {expression : Expression}
    (hexpression : expression ∈ postorderAll (grouped instructions)) :
    ∃ instruction, instructions[expression.spanEnd]? = some instruction ∧
      Frugal instruction.stackInputs.toNat expression := by
  refine forall_mem_postorderAll_grouped (motive := fun instructions expression ↦
    ∃ instruction, instructions[expression.spanEnd]? = some instruction ∧
      Frugal instruction.stackInputs.toNat expression) ?_ ?_ instructions expression hexpression
  · intro instructions instruction kept operands hgrouped hfewest
    refine ⟨instruction, List.getElem?_concat_length, hfewest.leaves_lt, ?_, ?_,
      leaves_filter_produced operands⟩
    · -- With nothing left to take, the operands tile all instructions before.
      refine hfewest.enough.imp_right fun hkept ↦ ?_
      have htiles := tiles_grouped instructions
      rw [hgrouped, hkept, List.nil_append] at htiles
      exact htiles.head?_spanStart
    · intro hwanted
      by_contra hoperands
      have hless := hfewest.leaves_lt [] (List.nil_suffix) (Ne.symm hoperands)
      rw [hwanted] at hless
      exact Nat.not_lt_zero _ hless
  · rintro instructions instruction expression ⟨own, hown, hfrugal⟩
    obtain ⟨hbound, -⟩ := List.getElem?_eq_some_iff.mp hown
    exact ⟨own, by rw [List.getElem?_append_left hbound, hown], hfrugal⟩

/-- At any depth the children of an expression are the fewest that leave what its own instruction takes,
or all there is before it. -/
theorem operands_of_listing (listing : Listing) :
    ∀ item ∈ preorderAll 0 (Grouping.of listing).expressions,
      ∃ instruction, listing.instructions[item.2.spanEnd]? = some instruction ∧
        Frugal instruction.stackInputs.toNat item.2 := fun _ hitem ↦
  frugal_of_mem_postorderAll (mem_postorderAll_of_mem_preorderAll hitem)

/-- The sum takes the landing place between its operands on the way to the first of them. -/
theorem operands_of_landingInSum :
    (0, ⟨0, 3, 1, [⟨0, 0, 1, []⟩, ⟨1, 1, 0, []⟩, ⟨2, 2, 1, []⟩]⟩) ∈
        preorderAll 0 (Grouping.of landingInSum).expressions ∧
      ∃ instruction, landingInSum.instructions[3]? = some instruction ∧
        Frugal instruction.stackInputs.toNat
          ⟨0, 3, 1, [⟨0, 0, 1, []⟩, ⟨1, 1, 0, []⟩, ⟨2, 2, 1, []⟩]⟩ := by
  have hsum : (0, ⟨0, 3, 1, [⟨0, 0, 1, []⟩, ⟨1, 1, 0, []⟩, ⟨2, 2, 1, []⟩]⟩) ∈
      preorderAll 0 (Grouping.of landingInSum).expressions := .head _
  exact ⟨hsum, operands_of_listing landingInSum _ hsum⟩

end CodeTrail.Expression
