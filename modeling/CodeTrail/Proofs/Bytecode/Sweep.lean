import CodeTrail.Bytecode.Chunk
import Mathlib.Data.List.Basic

/-!
# Positions in a sweep

`span` is the number of bytes that chunks ask for, so the chunk at an index of a sweep starts at the
span of the chunks before it. Cutting a byte string there cuts the sweep: `drop_sweep` says that what
lies behind is swept on its own, `take_sweep` that what lies before is, and `flatMap_bytes_take_sweep`
that the chunks before hold exactly the bytes before. A byte string whose last chunk is whole is
swept independently of what follows (`sweep_append`).

What counts as code is a first part of a sweep (`listedAfter_isPrefix`) and counts as code on its own
(`listedAfter_listedAfter`). It ends where a chunk closes the code and the next one does not open it
again (`listedAfter_append_of_closesLast`), and nowhere else (`listedAfter_append_of_goesOn`,
`opens_of_closes`, `exists_closes_of_getElem?`). Of the code before, the code behind depends on the
last opcode alone, and only if that is a return with a failure behind it (`listedAfter_eq_listed`).
-/

set_option autoImplicit false
set_option relaxedAutoImplicit false

namespace CodeTrail.Chunk

/-! ### Cutting a sweep -/

/-- The number of bytes that chunks ask for together. -/
def span : List Chunk → Nat
  | [] => 0
  | chunk :: rest => chunk.width + span rest

@[simp] theorem span_nil : span [] = 0 :=
  rfl

@[simp] theorem span_cons (chunk : Chunk) (rest : List Chunk) :
    span (chunk :: rest) = chunk.width + span rest :=
  rfl

theorem span_append (first second : List Chunk) :
    span (first ++ second) = span first + span second := by
  induction first with
  | nil => rw [List.nil_append, span_nil, Nat.zero_add]
  | cons chunk rest ih => rw [List.cons_append, span_cons, span_cons, ih, Nat.add_assoc]

@[simp] theorem sweep_nil : sweep [] = [] := by
  rw [sweep]

theorem sweep_cons (byte : UInt8) (rest : List UInt8) :
    sweep (byte :: rest) =
      ⟨⟨byte⟩, rest.take (Opcode.mk byte).immediateSize⟩ ::
        sweep (rest.drop (Opcode.mk byte).immediateSize) := by
  rw [sweep]

theorem sweep_eq_nil_iff {code : List UInt8} : sweep code = [] ↔ code = [] := by
  cases code with
  | nil => simp
  | cons byte rest => simp [sweep_cons]

/-- What lies behind the first chunks of a sweep is swept on its own. -/
theorem drop_sweep (code : List UInt8) (index : Nat) :
    (sweep code).drop index = sweep (code.drop (span ((sweep code).take index))) := by
  induction index generalizing code with
  | zero => rfl
  | succ index ih =>
    cases code with
    | nil => simp
    | cons byte rest =>
      rw [sweep_cons, List.drop_succ_cons, List.take_succ_cons, span_cons, width, ih, List.drop_drop,
        Nat.add_assoc, Nat.add_comm 1, List.drop_succ_cons]

/-- What lies before a chunk of a sweep is swept on its own. -/
theorem take_sweep (code : List UInt8) (index : Nat) :
    sweep (code.take (span ((sweep code).take index))) = (sweep code).take index := by
  induction index generalizing code with
  | zero => simp
  | succ index ih =>
    cases code with
    | nil => simp
    | cons byte rest =>
      rw [sweep_cons, List.take_succ_cons, span_cons, width, Nat.add_assoc, Nat.add_comm 1,
        List.take_succ_cons, sweep_cons, List.take_take, Nat.min_eq_left (Nat.le_add_right _ _),
        List.drop_take, Nat.add_sub_cancel_left, ih]

/-- The first chunks of a sweep hold exactly the bytes before the next one. -/
theorem flatMap_bytes_take_sweep (code : List UInt8) (index : Nat) :
    ((sweep code).take index).flatMap bytes = code.take (span ((sweep code).take index)) := by
  induction index generalizing code with
  | zero => simp
  | succ index ih =>
    cases code with
    | nil => simp
    | cons byte rest =>
      rw [sweep_cons, List.take_succ_cons, List.flatMap_cons, ih, span_cons, width, Nat.add_assoc,
        Nat.add_comm 1, List.take_succ_cons, bytes, List.cons_append, List.take_add]

/-- The chunk at an index of a sweep starts inside the byte string, with its opcode byte, and holds
as many of its immediate bytes as are there. -/
theorem getElem?_sweep {code : List UInt8} {index : Nat} {chunk : Chunk}
    (hchunk : (sweep code)[index]? = some chunk) :
    code[span ((sweep code).take index)]? = some chunk.opcode.byte ∧
      chunk.immediate =
        (code.drop (span ((sweep code).take index) + 1)).take chunk.opcode.immediateSize := by
  have hhead : (sweep (code.drop (span ((sweep code).take index))))[0]? = some chunk := by
    rw [← drop_sweep, List.getElem?_drop, Nat.add_zero, hchunk]
  rw [← List.drop_drop]
  have hbyte : code[span ((sweep code).take index)]? =
      (code.drop (span ((sweep code).take index)))[0]? := by
    rw [List.getElem?_drop, Nat.add_zero]
  rw [hbyte]
  cases hrest : code.drop (span ((sweep code).take index)) with
  | nil =>
    rw [hrest, sweep_nil] at hhead
    cases hhead
  | cons byte rest =>
    rw [hrest, sweep_cons, List.getElem?_cons_zero] at hhead
    rw [← Option.some.inj hhead, List.drop_succ_cons, List.drop_zero]
    dsimp only
    exact ⟨List.getElem?_cons_zero, rfl⟩

/-- All chunks of a sweep together ask for at least the bytes that are there. -/
theorem length_le_span_sweep (code : List UInt8) : code.length ≤ span (sweep code) := by
  have hrest := drop_sweep code (sweep code).length
  rw [List.drop_length, List.take_length] at hrest
  exact List.drop_eq_nil_iff.mp (sweep_eq_nil_iff.mp hrest.symm)

/-- Assumes: all immediate bytes of the last chunk are there. What follows is swept on its own. -/
theorem sweep_append {first : List UInt8} (hwhole : span (sweep first) = first.length)
    (second : List UInt8) : sweep (first ++ second) = sweep first ++ sweep second := by
  induction first using sweep.induct with
  | case1 => rw [List.nil_append, sweep_nil, List.nil_append]
  | case2 byte rest size ih =>
    have hrest := length_le_span_sweep (rest.drop size)
    rw [sweep_cons, span_cons, List.length_cons] at hwhole
    change 1 + size + span (sweep (rest.drop size)) = rest.length + 1 at hwhole
    rw [List.length_drop] at hrest
    have hsize : size ≤ rest.length := by
      by_contra hshort
      have hend : rest.drop size = [] := List.drop_eq_nil_of_le (by omega)
      rw [hend, sweep_nil, span_nil] at hwhole
      omega
    have hwholeRest : span (sweep (rest.drop size)) = (rest.drop size).length := by
      rw [List.length_drop]
      omega
    rw [List.cons_append, sweep_cons, List.take_append_of_le_length hsize,
      List.drop_append_of_le_length hsize, ih hwholeRest, sweep_cons, List.cons_append]

/-- Whole chunks stay where they are, whatever follows. -/
theorem take_sweep_isPrefix {first : List UInt8} {index : Nat}
    (hwhole : span ((sweep first).take index) ≤ first.length) (second : List UInt8) :
    (sweep first).take index <+: sweep (first ++ second) := by
  have hsweep := take_sweep first index
  have hspan : span (sweep (first.take (span ((sweep first).take index)))) =
      (first.take (span ((sweep first).take index))).length := by
    rw [hsweep, List.length_take, Nat.min_eq_left hwhole]
  refine ⟨sweep (first.drop (span ((sweep first).take index)) ++ second), ?_⟩
  rw [← hsweep, ← sweep_append hspan, hsweep, ← List.append_assoc, List.take_append_drop]

/-! ### What counts as code -/

theorem listedAfter_isPrefix (before : Option Opcode) (chunks : List Chunk) :
    listedAfter before chunks <+: chunks := by
  fun_induction listedAfter before chunks with
  | case1 => exact List.prefix_rfl
  | case2 before chunk => exact List.prefix_rfl
  | case3 before chunk next rest hends => exact ⟨next :: rest, rfl⟩
  | case4 before chunk next rest hgoes ih => exact List.cons_prefix_cons.mpr ⟨rfl, ih⟩

/-- The first chunk always counts as code. -/
theorem exists_listedAfter_cons (before : Option Opcode) (chunk : Chunk) (rest : List Chunk) :
    ∃ tail, listedAfter before (chunk :: rest) = chunk :: tail := by
  cases rest with
  | nil => exact ⟨[], rfl⟩
  | cons next rest =>
    rw [listedAfter]
    split_ifs
    · exact ⟨[], rfl⟩
    · exact ⟨_, rfl⟩

/-- What counts as code does so on its own. -/
theorem listedAfter_listedAfter (before : Option Opcode) (chunks : List Chunk) :
    listedAfter before (listedAfter before chunks) = listedAfter before chunks := by
  fun_induction listedAfter before chunks with
  | case1 => rfl
  | case2 before chunk => rfl
  | case3 before chunk next rest hends => rfl
  | case4 before chunk next rest hgoes ih =>
    obtain ⟨tail, htail⟩ := exists_listedAfter_cons (some chunk.opcode) next rest
    rw [htail] at ih ⊢
    rw [listedAfter, if_neg hgoes, ih]

/-- The opcode just before what follows chunks. -/
def lastOpcode (before : Option Opcode) : List Chunk → Option Opcode
  | [] => before
  | chunk :: rest => lastOpcode (some chunk.opcode) rest

/-- The last of chunks closes the code, given the opcode just before them. -/
def ClosesLast (before : Option Opcode) (chunks : List Chunk) : Prop :=
  ∃ last chunk, last + 1 = chunks.length ∧ chunks[last]? = some chunk ∧
    closes (lastOpcode before (chunks.take last)) chunk = true

theorem closesLast_singleton {before : Option Opcode} {chunk : Chunk} :
    ClosesLast before [chunk] ↔ closes before chunk = true := by
  constructor
  · rintro ⟨last, chunk', hlast, hchunk, hcloses⟩
    obtain rfl : last = 0 := Nat.succ.inj hlast
    obtain rfl : chunk = chunk' := Option.some.inj hchunk
    exact hcloses
  · exact fun hcloses ↦ ⟨0, chunk, rfl, rfl, hcloses⟩

theorem closesLast_cons_cons {before : Option Opcode} {first second : Chunk} {rest : List Chunk} :
    ClosesLast before (first :: second :: rest) ↔
      ClosesLast (some first.opcode) (second :: rest) := by
  constructor
  · rintro ⟨last, chunk, hlast, hchunk, hcloses⟩
    cases last with
    | zero => cases Nat.succ.inj hlast
    | succ last => exact ⟨last, chunk, Nat.succ.inj hlast, hchunk, hcloses⟩
  · rintro ⟨last, chunk, hlast, hchunk, hcloses⟩
    exact ⟨last + 1, chunk, congrArg (· + 1) hlast, hchunk, hcloses⟩

/-- Assumes: chunks that all count as code. The code goes on behind them, unless the last of them
closes it and the next one does not open it again. -/
theorem listedAfter_append_of_goesOn {before : Option Opcode} {chunks : List Chunk}
    (hlisted : listedAfter before chunks = chunks) {next : Chunk}
    (hnext : ClosesLast before chunks → opens next = true) (rest : List Chunk) :
    listedAfter before (chunks ++ next :: rest) =
      chunks ++ listedAfter (lastOpcode before chunks) (next :: rest) := by
  fun_induction listedAfter before chunks with
  | case1 => rfl
  | case2 before chunk =>
    have hgoes : ¬ (closes before chunk && !opens next) = true := by
      rw [closesLast_singleton] at hnext
      simpa using hnext
    rw [List.cons_append, List.nil_append, listedAfter, if_neg hgoes]
    rfl
  | case3 before chunk other chunks hends => cases hlisted
  | case4 before chunk other chunks hgoes ih =>
    have htail := ih (List.cons_eq_cons.mp hlisted).2
      fun hcloses ↦ hnext (closesLast_cons_cons.mpr hcloses)
    rw [List.cons_append] at htail
    rw [List.cons_append, List.cons_append, listedAfter, if_neg hgoes, htail]
    rfl

/-- Assumes: chunks that all count as code, the last of which closes it. A chunk behind them that does
not open the code again is left out, with all that follows. -/
theorem listedAfter_append_of_closesLast {before : Option Opcode} {chunks : List Chunk}
    (hlisted : listedAfter before chunks = chunks) (hcloses : ClosesLast before chunks)
    {next : Chunk} (hstays : opens next = false) (rest : List Chunk) :
    listedAfter before (chunks ++ next :: rest) = chunks := by
  fun_induction listedAfter before chunks with
  | case1 =>
    obtain ⟨last, -, hlast, -⟩ := hcloses
    cases hlast
  | case2 before chunk =>
    have hends : (closes before chunk && !opens next) = true := by
      rw [closesLast_singleton.mp hcloses, hstays]
      rfl
    rw [List.cons_append, List.nil_append, listedAfter, if_pos hends]
  | case3 before chunk other chunks hends => cases hlisted
  | case4 before chunk other chunks hgoes ih =>
    have htail := ih (List.cons_eq_cons.mp hlisted).2 (closesLast_cons_cons.mp hcloses)
    rw [List.cons_append] at htail
    rw [List.cons_append, List.cons_append, listedAfter, if_neg hgoes, htail]

/-- The opcode before only matters to a failure, and only if it is a return. -/
theorem listedAfter_eq_listed {before : Option Opcode} {chunk : Chunk}
    (hchunk : chunk.opcode = .invalid → before ≠ some .return_) (rest : List Chunk) :
    listedAfter before (chunk :: rest) = listed (chunk :: rest) := by
  have hcloses : closes before chunk = closes none chunk := by
    by_cases hinvalid : chunk.opcode = .invalid <;> simp [closes, hchunk, hinvalid]
  cases rest with
  | nil => rfl
  | cons next rest => rw [listed, listedAfter, listedAfter, hcloses]

/-- Whether a chunk counts as code depends on the chunks up to it. -/
theorem getElem?_listedAfter_of_isPrefix {before : Option Opcode} {chunks others : List Chunk}
    {index : Nat} {chunk : Chunk} (hchunk : (listedAfter before chunks)[index]? = some chunk)
    (hothers : chunks.take (index + 1) <+: others) :
    (listedAfter before others)[index]? = some chunk := by
  have hfirst {before : Option Opcode} {first : Chunk} {rest others : List Chunk}
      (hothers : first :: rest <+: others) : (listedAfter before others)[0]? = some first := by
    obtain ⟨tail, rfl⟩ := hothers
    obtain ⟨listed, hlisted⟩ := exists_listedAfter_cons before first (rest ++ tail)
    rw [List.cons_append, hlisted]
    rfl
  fun_induction listedAfter before chunks generalizing index others with
  | case1 => cases hchunk
  | case2 before only =>
    cases index with
    | zero => exact (hfirst hothers).trans hchunk
    | succ index => cases hchunk
  | case3 before first second rest hends =>
    cases index with
    | zero => exact (hfirst hothers).trans hchunk
    | succ index => cases hchunk
  | case4 before first second rest hgoes ih =>
    cases index with
    | zero => exact (hfirst hothers).trans hchunk
    | succ index =>
      obtain ⟨tail, rfl⟩ := hothers
      rw [List.take_succ_cons, List.take_succ_cons, List.cons_append, List.cons_append, listedAfter,
        if_neg hgoes]
      exact ih hchunk ⟨tail, rfl⟩

theorem lastOpcode_take_succ {before : Option Opcode} {chunks : List Chunk} {index : Nat}
    {chunk : Chunk} (hchunk : chunks[index]? = some chunk) :
    lastOpcode before (chunks.take (index + 1)) = some chunk.opcode := by
  induction chunks generalizing before index with
  | nil => cases hchunk
  | cons first rest ih =>
    cases index with
    | zero =>
      obtain rfl : first = chunk := Option.some.inj hchunk
      rfl
    | succ index => exact ih hchunk

/-- Behind a chunk that closes the code, the next chunk that counts as code opens it again. -/
theorem opens_of_closes {before : Option Opcode} {chunks : List Chunk} {index : Nat}
    {chunk next : Chunk} (hchunk : (listedAfter before chunks)[index]? = some chunk)
    (hcloses : closes (lastOpcode before (chunks.take index)) chunk = true)
    (hnext : (listedAfter before chunks)[index + 1]? = some next) : opens next = true := by
  fun_induction listedAfter before chunks generalizing index with
  | case1 => cases hchunk
  | case2 before only => cases hnext
  | case3 before first second rest hends => cases hnext
  | case4 before first second rest hgoes ih =>
    cases index with
    | zero =>
      obtain ⟨tail, htail⟩ := exists_listedAfter_cons (some first.opcode) second rest
      rw [htail] at hnext
      obtain rfl : first = chunk := Option.some.inj hchunk
      obtain rfl : second = next := Option.some.inj hnext
      change closes before first = true at hcloses
      simpa [hcloses] using hgoes
    | succ index => exact ih hchunk hcloses hnext

/-- The first chunk that does not count as code does not open it again, and lies behind one that
closes it. -/
theorem exists_closes_of_getElem? {before : Option Opcode} {chunks : List Chunk} {next : Chunk}
    (hnext : chunks[(listedAfter before chunks).length]? = some next) :
    opens next = false ∧ ∃ last chunk, last + 1 = (listedAfter before chunks).length ∧
      (listedAfter before chunks)[last]? = some chunk ∧
        closes (lastOpcode before (chunks.take last)) chunk = true := by
  fun_induction listedAfter before chunks with
  | case1 => cases hnext
  | case2 before only => cases hnext
  | case3 before first second rest hends =>
    obtain rfl : second = next := Option.some.inj hnext
    rw [Bool.and_eq_true, Bool.not_eq_true'] at hends
    exact ⟨hends.2, 0, first, rfl, rfl, hends.1⟩
  | case4 before first second rest hgoes ih =>
    obtain ⟨hstays, last, chunk, hlast, hchunk, hcloses⟩ := ih hnext
    exact ⟨hstays, last + 1, chunk, congrArg (· + 1) hlast, hchunk, hcloses⟩

end CodeTrail.Chunk
