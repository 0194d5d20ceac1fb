import CodeTrail.Proofs.Expression.Spans

/-!
# What later instructions leave alone

More instructions behind a list add pictures and expressions and change none that are there. There is
one picture for each instruction (`length_pictures`), and it looks back only (`take_snapshots_append`).
An expression that joins a forest takes others as its children as they are; so of the `members` of a
forest, its expressions at any depth, those of the first instructions are the same ones in the same
order whatever follows (`filter_members_grouped_append`), each with all that is below it.

Where such an expression stands in the larger forest follows from a count: every member of a forest is
at the top or a child of one other member, and no member is both (`top_append_children_perm`, with
`nodup_postorderAll_grouped`). `livesOn_of_isPrefix` puts the three together.
-/

set_option autoImplicit false
set_option relaxedAutoImplicit false

namespace CodeTrail

/-! ### Pictures -/

theorem length_snapshots (stack : List String) (instructions : List Instruction) :
    (snapshots stack instructions).length = instructions.length := by
  induction instructions generalizing stack with
  | nil => rfl
  | cons instruction rest ih => rw [snapshots, List.length_cons, List.length_cons, ih]

/-- There is one picture for each instruction. -/
theorem length_pictures (listing : Listing) :
    (Grouping.of listing).pictures.length = listing.instructions.length := by
  rw [Grouping.of, List.length_map, length_snapshots]

/-- A picture depends on no later instruction. -/
theorem take_snapshots_append (stack : List String) (instructions later : List Instruction) :
    (snapshots stack (instructions ++ later)).take instructions.length =
      snapshots stack instructions := by
  induction instructions generalizing stack with
  | nil => rfl
  | cons instruction rest ih =>
    rw [List.cons_append, snapshots, List.length_cons, List.take_succ_cons, ih, snapshots]

namespace Expression

/-! ### Expressions at any depth -/

/-- The expressions of a forest at any depth, each before its children. -/
def members (forest : List Expression) : List Expression :=
  (preorderAll 0 forest).map (·.2)

theorem members_perm (forest : List Expression) : (members forest).Perm (postorderAll forest) :=
  map_snd_preorderAll_perm 0 forest

mutual

theorem map_snd_preorder_eq (depth other : Nat) (expression : Expression) :
    (preorder depth expression).map (·.2) = (preorder other expression).map (·.2) := by
  cases expression with
  | mk spanStart spanEnd produced children =>
    rw [preorder, preorder, List.map_cons, List.map_cons,
      map_snd_preorderAll_eq (depth + 1) (other + 1) children]

/-- The walk does not depend on the depth that it starts at. -/
theorem map_snd_preorderAll_eq (depth other : Nat) (forest : List Expression) :
    (preorderAll depth forest).map (·.2) = (preorderAll other forest).map (·.2) := by
  cases forest with
  | nil => rw [preorderAll, preorderAll]
  | cons expression rest =>
    rw [preorderAll, preorderAll, List.map_append, List.map_append,
      map_snd_preorder_eq depth other expression, map_snd_preorderAll_eq depth other rest]

end

theorem members_append (first second : List Expression) :
    members (first ++ second) = members first ++ members second := by
  induction first with
  | nil =>
    have hnil : members [] = [] := by
      rw [members, preorderAll]
      rfl
    rw [List.nil_append, hnil, List.nil_append]
  | cons expression rest ih =>
    rw [members] at ih
    rw [List.cons_append, members, members, preorderAll, preorderAll, List.map_append,
      List.map_append, ih, List.append_assoc, members]

theorem members_singleton (expression : Expression) :
    members [expression] = expression :: members expression.children := by
  cases expression with
  | mk spanStart spanEnd produced children =>
    rw [members, preorderAll, preorderAll, List.append_nil, preorder, List.map_cons,
      map_snd_preorderAll_eq (0 + 1) 0, members]

/-! ### The place of an expression -/

mutual

theorem cons_children_perm (expression : Expression) :
    (expression :: (postorder expression).flatMap (·.children)).Perm (postorder expression) := by
  cases expression with
  | mk spanStart spanEnd produced children =>
    rw [postorder, List.flatMap_append, List.flatMap_singleton]
    have hbelow := List.perm_append_comm.trans (top_append_children_perm children)
    exact (hbelow.cons _).trans (List.perm_append_singleton _ _).symm

/-- Every expression of a forest stands once at the top or below another one. -/
theorem top_append_children_perm (forest : List Expression) :
    (forest ++ (postorderAll forest).flatMap (·.children)).Perm (postorderAll forest) := by
  cases forest with
  | nil =>
    rw [postorderAll]
    exact .nil
  | cons expression rest =>
    have hfirst := cons_children_perm expression
    have hrest := top_append_children_perm rest
    rw [postorderAll, List.flatMap_append, List.cons_append]
    refine (List.Perm.cons expression ?_).trans (hfirst.append hrest)
    exact List.perm_append_comm_assoc _ _ _

end

theorem nodup_postorderAll_grouped (instructions : List Instruction) :
    (postorderAll (grouped instructions)).Nodup := by
  refine .of_map (·.spanEnd) ?_
  rw [map_spanEnd_postorderAll_grouped]
  exact List.nodup_range

/-- No expression is at the top and below another one. -/
theorem notMem_children_of_mem_grouped {instructions : List Instruction}
    {expression parent : Expression} (htop : expression ∈ grouped instructions)
    (hparent : parent ∈ postorderAll (grouped instructions)) : expression ∉ parent.children := by
  have hnodup := (top_append_children_perm (grouped instructions)).nodup_iff.mpr
    (nodup_postorderAll_grouped instructions)
  exact fun hchild ↦ List.disjoint_of_nodup_append hnodup htop
    (List.mem_flatMap.mpr ⟨parent, hparent, hchild⟩)

theorem spanEnd_lt_of_mem_members {instructions : List Instruction} {expression : Expression}
    (hexpression : expression ∈ members (grouped instructions)) :
    expression.spanEnd < instructions.length := by
  have hspan := List.mem_map_of_mem (f := (·.spanEnd)) ((members_perm _).mem_iff.mp hexpression)
  rw [map_spanEnd_postorderAll_grouped] at hspan
  exact List.mem_range.mp hspan

/-! ### More instructions -/

/-- Of the expressions at any depth, those of the first instructions are the same whatever follows. -/
theorem filter_members_grouped_append (instructions later : List Instruction) :
    (members (grouped (instructions ++ later))).filter (·.spanEnd < instructions.length) =
      members (grouped instructions) := by
  induction later using List.reverseRecOn with
  | nil =>
    rw [List.append_nil, List.filter_eq_self]
    exact fun expression hexpression ↦ decide_eq_true (spanEnd_lt_of_mem_members hexpression)
  | append_singleton later instruction ih =>
    obtain ⟨kept, operands, hgrouped, hjoined, -⟩ :=
      exists_grouped_append (instructions ++ later) instruction
    -- The one that joins is the only one that is not there before, and it ends too late.
    have hlate : ¬ (combined instruction (instructions ++ later).length operands).spanEnd <
        instructions.length := by
      rw [combined, List.length_append]
      exact Nat.not_lt.mpr (Nat.le_add_right _ _)
    rw [hgrouped, members_append, List.filter_append] at ih
    rw [← List.append_assoc, hjoined, members_append, members_singleton, List.filter_append,
      List.filter_cons_of_neg (by simpa using hlate)]
    exact ih

/-- An expression at the top of a forest stays there or becomes a child of a later one. -/
theorem mem_grouped_append_or_child {instructions : List Instruction} (later : List Instruction)
    {expression : Expression} (htop : expression ∈ grouped instructions) :
    expression ∈ grouped (instructions ++ later) ∨
      ∃ parent ∈ members (grouped (instructions ++ later)),
        instructions.length ≤ parent.spanEnd ∧ expression ∈ parent.children := by
  have hwalk := filter_members_grouped_append instructions later
  have hmember : expression ∈ members (grouped instructions) :=
    (members_perm _).mem_iff.mpr
      ((top_append_children_perm _).mem_iff.mp (List.mem_append_left _ htop))
  have hthere : expression ∈ postorderAll (grouped (instructions ++ later)) := by
    rw [← hwalk] at hmember
    exact (members_perm _).mem_iff.mp (List.mem_of_mem_filter hmember)
  rcases List.mem_append.mp ((top_append_children_perm _).mem_iff.mpr hthere) with hstays | hbelow
  · exact .inl hstays
  · obtain ⟨parent, hparent, hchild⟩ := List.mem_flatMap.mp hbelow
    rw [← (members_perm _).mem_iff] at hparent
    refine .inr ⟨parent, hparent, Nat.le_of_not_lt fun hearly ↦ ?_, hchild⟩
    -- A parent that was there before would have been its parent then.
    have hbefore : parent ∈ members (grouped instructions) := by
      rw [← hwalk]
      exact List.mem_filter.mpr ⟨hparent, decide_eq_true hearly⟩
    exact notMem_children_of_mem_grouped htop ((members_perm _).mem_iff.mp hbefore) hchild

/-- How the grouping of a listing lives on in the grouping of a longer one. -/
structure LivesOn (listing extended : Listing) : Prop where
  /-- There is one picture for each instruction of the shorter listing. -/
  length_pictures : (Grouping.of listing).pictures.length = listing.instructions.length
  /-- There is one picture for each instruction of the longer listing. -/
  length_extended : (Grouping.of extended).pictures.length = extended.instructions.length
  /-- The first pictures are the pictures of the shorter listing. -/
  pictures : (Grouping.of extended).pictures.take listing.instructions.length =
    (Grouping.of listing).pictures
  /-- The expressions that end before the longer listing goes on are those of the shorter listing,
  each as often and with the same children at any depth. -/
  kept : (members (Grouping.of extended).expressions).filter
      (·.spanEnd < listing.instructions.length) =
    members (Grouping.of listing).expressions
  /-- What was at the top is still there or a child of one that ends later, and not both. -/
  top : ∀ expression ∈ (Grouping.of listing).expressions,
    Xor (expression ∈ (Grouping.of extended).expressions)
      (∃ parent ∈ members (Grouping.of extended).expressions,
        listing.instructions.length ≤ parent.spanEnd ∧ expression ∈ parent.children)

/-- Instructions behind a listing leave its grouping as it is: they add pictures and expressions, and
all they do to an expression that is there is to take it as a child. -/
theorem livesOn_of_isPrefix {listing extended : Listing}
    (hextends : listing.instructions <+: extended.instructions) : LivesOn listing extended := by
  obtain ⟨later, hlater⟩ := hextends
  refine ⟨length_pictures listing, length_pictures extended, ?_, ?_, fun expression htop ↦ ?_⟩
  · rw [Grouping.of, Grouping.of, ← hlater, ← List.map_take, take_snapshots_append]
  · rw [Grouping.of, Grouping.of, ← hlater]
    exact filter_members_grouped_append listing.instructions later
  · rw [Grouping.of, ← hlater]
    rcases mem_grouped_append_or_child later htop with hstays | hchild
    · refine .inl ⟨hstays, fun ⟨parent, hparent, _, hchild⟩ ↦ ?_⟩
      exact notMem_children_of_mem_grouped hstays ((members_perm _).mem_iff.mp hparent) hchild
    · refine .inr ⟨hchild, fun hstays ↦ ?_⟩
      obtain ⟨parent, hparent, -, hbelow⟩ := hchild
      exact notMem_children_of_mem_grouped hstays ((members_perm _).mem_iff.mp hparent) hbelow

/-- The sum of `landingInSum`, a landing place, and the product of the sum with a third number. -/
def sumInProduct : Listing where
  instructions := landingInSum.instructions ++
    [{ opcode := "jumpdest", offset := 6, length := 1, stackInputs := 0, stackOutputs := 0 },
      { opcode := "push1", offset := 7, length := 2, stackInputs := 0, stackOutputs := 1,
        immediate := some "0x03" },
      { opcode := "mul", offset := 9, length := 1, stackInputs := 2, stackOutputs := 1 }]
  prologues := [4]
  runtimeStart := some 4

/-- The product takes the sum as a child, with all that is below it. The stack with both operands of the
sum on it is shown at the same index in seven pictures as in four. -/
theorem livesOn_of_sumInProduct :
    landingInSum.instructions <+: sumInProduct.instructions ∧ LivesOn landingInSum sumInProduct ∧
      (Grouping.of landingInSum).pictures.length = 4 ∧
      (Grouping.of landingInSum).pictures[2]? = some ["0x01", "0x02"] ∧
      (Grouping.of sumInProduct).pictures.length = 7 ∧
      (Grouping.of sumInProduct).pictures[2]? = some ["0x01", "0x02"] ∧
      (⟨0, 3, 1, [⟨0, 0, 1, []⟩, ⟨1, 1, 0, []⟩, ⟨2, 2, 1, []⟩]⟩ ∈
        (Grouping.of landingInSum).expressions) ∧
      ∃ parent ∈ members (Grouping.of sumInProduct).expressions, parent.spanEnd = 6 ∧
        ⟨0, 3, 1, [⟨0, 0, 1, []⟩, ⟨1, 1, 0, []⟩, ⟨2, 2, 1, []⟩]⟩ ∈ parent.children := by
  have hextends : landingInSum.instructions <+: sumInProduct.instructions := List.prefix_append _ _
  have hlives := livesOn_of_isPrefix hextends
  have hpicture : (Grouping.of landingInSum).pictures[2]? = some ["0x01", "0x02"] := by
    decide +kernel
  have hkept : (Grouping.of sumInProduct).pictures[2]? = some ["0x01", "0x02"] := by
    rwa [← hlives.pictures, List.getElem?_take_of_lt (by decide)] at hpicture
  exact ⟨hextends, hlives, hlives.length_pictures, hpicture, hlives.length_extended, hkept, .head _, _,
    .head _, rfl, .head _⟩

end Expression

end CodeTrail
