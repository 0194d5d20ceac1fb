import CodeTrail.Program.Expression
import Mathlib.Data.List.Induction

/-!
# How a forest of expressions grows

Instructions are grouped one at a time. Each takes the latest expressions of the forest as its operands
and takes their place (`combined`); `exists_takeOperands` says which ones, the fewest that leave what
the instruction takes (`TakesFewest`), and `exists_grouped_append` says it of a whole list of
instructions with one more behind it.

In `postorder` an expression stands behind all below it, so an instruction that joins a forest puts one
expression at the end of that walk and leaves what was there as it was. Hence the induction
`forall_mem_postorderAll_grouped`: what holds of an expression when it is made, and stays true when
instructions follow, holds of all expressions at any depth. `map_snd_preorderAll_perm` says that the
walk meets the same expressions as `preorder`.
-/

set_option autoImplicit false
set_option relaxedAutoImplicit false

namespace CodeTrail.Expression

/-! ### Walks -/

mutual

/-- An expression and all below it, each behind its children. -/
def postorder : Expression → List Expression
  | ⟨spanStart, spanEnd, produced, children⟩ =>
    postorderAll children ++ [⟨spanStart, spanEnd, produced, children⟩]

/-- All expressions of a forest, each behind its children. -/
def postorderAll : List Expression → List Expression
  | [] => []
  | expression :: rest => postorder expression ++ postorderAll rest

end

theorem postorder_eq (expression : Expression) :
    postorder expression = postorderAll expression.children ++ [expression] := by
  cases expression
  rw [postorder]

theorem postorderAll_append (first second : List Expression) :
    postorderAll (first ++ second) = postorderAll first ++ postorderAll second := by
  induction first with
  | nil => rw [List.nil_append, postorderAll, List.nil_append]
  | cons expression rest ih =>
    rw [List.cons_append, postorderAll, postorderAll, ih, List.append_assoc]

theorem postorderAll_singleton (expression : Expression) :
    postorderAll [expression] = postorderAll expression.children ++ [expression] := by
  rw [postorderAll, postorderAll, List.append_nil, postorder_eq]

mutual

theorem map_snd_preorder_perm (depth : Nat) (expression : Expression) :
    ((preorder depth expression).map (·.2)).Perm (postorder expression) := by
  cases expression with
  | mk spanStart spanEnd produced children =>
    rw [preorder, postorder, List.map_cons]
    exact ((map_snd_preorderAll_perm (depth + 1) children).cons _).trans
      (List.perm_append_singleton _ _).symm

/-- Both walks meet the same expressions, each as often. -/
theorem map_snd_preorderAll_perm (depth : Nat) (forest : List Expression) :
    ((preorderAll depth forest).map (·.2)).Perm (postorderAll forest) := by
  cases forest with
  | nil =>
    rw [preorderAll, postorderAll]
    exact .nil
  | cons expression rest =>
    rw [preorderAll, postorderAll, List.map_append]
    exact (map_snd_preorder_perm depth expression).append (map_snd_preorderAll_perm depth rest)

end

theorem mem_postorderAll_of_mem_preorderAll {depth : Nat} {forest : List Expression}
    {item : Nat × Expression} (hitem : item ∈ preorderAll depth forest) :
    item.2 ∈ postorderAll forest :=
  (map_snd_preorderAll_perm depth forest).mem_iff.mp (List.mem_map_of_mem hitem)

/-! ### Operands -/

/-- The number of items that expressions leave together. -/
def leaves : List Expression → Nat
  | [] => 0
  | expression :: rest => expression.produced.toNat + leaves rest

theorem leaves_append_singleton (expressions : List Expression) (last : Expression) :
    leaves (expressions ++ [last]) = leaves expressions + last.produced.toNat := by
  induction expressions with
  | nil => exact Nat.add_comm _ _
  | cons expression rest ih => rw [List.cons_append, leaves, leaves, ih, Nat.add_assoc]

/-- The latest expressions, taken as operands in place of a number of items: the fewest that leave as
many, or all there are. -/
structure TakesFewest (wanted : Nat) (taken kept : List Expression) : Prop where
  /-- With any of the earlier ones left out there would not be enough. -/
  leaves_lt : ∀ fewer, fewer <:+ taken → fewer ≠ taken → leaves fewer < wanted
  /-- There is enough, or nothing else to take. -/
  enough : wanted ≤ leaves taken ∨ kept = []

/-- Operands come off the top, as few as will do. -/
theorem exists_takeOperands (missing : Nat) (taken opened : List Expression) :
    ∃ operands rest, takeOperands missing taken opened = (operands ++ taken, rest) ∧
      opened.reverse = rest.reverse ++ operands ∧ TakesFewest missing operands rest := by
  fun_induction takeOperands missing taken opened with
  | case1 missing taken =>
    refine ⟨[], [], rfl, rfl, ⟨fun fewer hsuffix hne ↦ ?_, Or.inr rfl⟩⟩
    exact (hne (List.suffix_nil.mp hsuffix)).elim
  | case2 taken top rest =>
    refine ⟨[], top :: rest, rfl, by rw [List.append_nil], ⟨fun fewer hsuffix hne ↦ ?_, ?_⟩⟩
    · exact (hne (List.suffix_nil.mp hsuffix)).elim
    · exact Or.inl (Nat.zero_le _)
  | case3 missing taken top rest hmissing ih =>
    obtain ⟨operands, kept, htake, hopened, hfewest⟩ := ih
    refine ⟨operands ++ [top], kept, ?_, ?_, ⟨fun fewer hsuffix hne ↦ ?_, ?_⟩⟩
    · rw [htake, List.append_assoc, List.singleton_append]
    · rw [List.reverse_cons, hopened, List.append_assoc]
    · -- Either nothing is taken, or the top with fewer of what was taken behind it.
      rcases List.suffix_concat_iff.mp hsuffix with rfl | ⟨front, rfl, hfront⟩
      · exact Nat.pos_of_ne_zero hmissing
      · have hless := hfewest.leaves_lt front hfront fun hsame ↦ hne (by rw [hsame])
        rw [leaves_append_singleton]
        omega
    · rw [leaves_append_singleton]
      exact hfewest.enough.imp_left fun henough ↦ by omega

/-- The expression that an instruction at an index makes of its operands. -/
def combined (instruction : Instruction) (index : Nat) (operands : List Expression) :
    Expression where
  spanStart := (operands.head?.map (·.spanStart)).getD index
  spanEnd := index
  produced := instruction.stackOutputs
  children := operands

theorem exists_push (instruction : Instruction) (index : Nat) (opened : List Expression) :
    ∃ operands rest, push instruction index opened = combined instruction index operands :: rest ∧
      opened.reverse = rest.reverse ++ operands ∧
        TakesFewest instruction.stackInputs.toNat operands rest := by
  obtain ⟨operands, rest, htake, hopened, hfewest⟩ :=
    exists_takeOperands instruction.stackInputs.toNat [] opened
  refine ⟨operands, rest, ?_, hopened, hfewest⟩
  rw [push, htake, List.append_nil]
  cases operands <;> rfl

/-! ### Instruction by instruction -/

/-- One more instruction takes the place of the latest expressions. -/
theorem exists_grouped_append (instructions : List Instruction) (instruction : Instruction) :
    ∃ kept operands, grouped instructions = kept ++ operands ∧
      grouped (instructions ++ [instruction]) =
        kept ++ [combined instruction instructions.length operands] ∧
        TakesFewest instruction.stackInputs.toNat operands kept := by
  obtain ⟨operands, rest, hpush, hopened, hfewest⟩ :=
    exists_push instruction instructions.length (grouped instructions).reverse
  rw [List.reverse_reverse] at hopened
  refine ⟨rest.reverse, operands, hopened, ?_, hfewest.leaves_lt,
    hfewest.enough.imp_right fun hrest ↦ by rw [hrest, List.reverse_nil]⟩
  have hfold : grouped (instructions ++ [instruction]) =
      (push instruction instructions.length (grouped instructions).reverse).reverse := by
    rw [grouped, grouped, List.zipIdx_append, List.foldl_append, List.reverse_reverse, Nat.zero_add]
    rfl
  rw [hfold, hpush, List.reverse_cons]

/-- One more instruction puts one expression at the end of the walk. -/
theorem postorderAll_grouped_append {instructions : List Instruction}
    {kept operands : List Expression} {last : Expression}
    (hgrouped : grouped instructions = kept ++ operands) (hchildren : last.children = operands) :
    postorderAll (kept ++ [last]) = postorderAll (grouped instructions) ++ [last] := by
  rw [hgrouped, postorderAll_append, postorderAll_append, postorderAll_singleton, hchildren,
    List.append_assoc]

/-- What holds of an expression when its instruction joins the forest, and still holds when more
instructions follow, holds of every expression at any depth. -/
theorem forall_mem_postorderAll_grouped {motive : List Instruction → Expression → Prop}
    (hmade : ∀ instructions instruction kept operands, grouped instructions = kept ++ operands →
      TakesFewest instruction.stackInputs.toNat operands kept →
        motive (instructions ++ [instruction])
          (combined instruction instructions.length operands))
    (hstays : ∀ instructions instruction expression, motive instructions expression →
      motive (instructions ++ [instruction]) expression)
    (instructions : List Instruction) :
    ∀ expression ∈ postorderAll (grouped instructions), motive instructions expression := by
  induction instructions using List.reverseRecOn with
  | nil =>
    intro expression hexpression
    cases hexpression
  | append_singleton instructions instruction ih =>
    obtain ⟨kept, operands, hgrouped, hjoined, hfewest⟩ :=
      exists_grouped_append instructions instruction
    intro expression hexpression
    rw [hjoined, postorderAll_grouped_append hgrouped rfl, List.mem_append,
      List.mem_singleton] at hexpression
    rcases hexpression with hbefore | rfl
    · exact hstays instructions instruction expression (ih expression hbefore)
    · exact hmade instructions instruction kept operands hgrouped hfewest

end CodeTrail.Expression
