import CodeTrail.Proofs.Hex.RoundTrip
import CodeTrail.Opcode
import Mathlib.Data.List.Nodup

/-!
# Mnemonics name opcodes

The table gives no mnemonic twice (`nodup_mnemonic_entries`) and starts none with a digit, while an
unassigned byte is shown behind `0x`. Hence no two opcodes are shown alike (`mnemonic_injective`) and
`ofMnemonic?` reads every name back (`ofMnemonic?_mnemonic`). Names hold lowercase letters and digits
only (`isPlain_of_mem_mnemonic`), and an opcode with immediate bytes is a push that tells their
number (`mnemonic_eq_push`, `immediateSize_of_mnemonic_eq_push`).
-/

set_option autoImplicit false
set_option relaxedAutoImplicit false

namespace CodeTrail.Opcode

/-- Whether a character is a lowercase letter or a digit. -/
def isPlain (character : Char) : Bool :=
  character.isLower || character.isDigit

theorem ext {first second : Opcode} (hbyte : first.byte = second.byte) : first = second := by
  cases first
  cases second
  exact congrArg Opcode.mk hbyte

/-! ### The table -/

/-- The names of a numbered family. -/
def family (stem : String) (first count : Nat) : List String :=
  (List.range count).map fun index ↦ stem ++ toString (index + first)

theorem map_mnemonic_entries :
    entries.map Entry.mnemonic =
      singleEntries.map Entry.mnemonic ++ family "push" 1 32 ++ family "dup" 1 16 ++
        family "swap" 1 16 ++ family "log" 0 5 := by
  rw [entries, List.map_append, List.map_append, List.map_append, List.map_append, pushEntries,
    dupEntries, swapEntries, logEntries, List.map_map, List.map_map, List.map_map, List.map_map]
  rfl

theorem toString_injective : Function.Injective (toString : Nat → String) := by
  intro first second h
  rw [Nat.toString_eq_ofList_toDigits, Nat.toString_eq_ofList_toDigits] at h
  have hdigits := String.ofList_injective h
  calc
    first = Nat.ofDigitChars 10 (Nat.toDigits 10 first) 0 := Nat.ofDigitChars_ten_toDigits.symm
    _ = Nat.ofDigitChars 10 (Nat.toDigits 10 second) 0 := by rw [hdigits]
    _ = second := Nat.ofDigitChars_ten_toDigits

theorem nodup_family (stem : String) (first count : Nat) : (family stem first count).Nodup := by
  refine List.Nodup.map (fun index other h ↦ ?_) List.nodup_range
  have hnumber := toString_injective ((String.append_right_inj stem).mp h)
  omega

/-- Families whose stems start with different letters have no name in common. -/
theorem disjoint_family {stem other : String} {letter otherLetter : Char}
    (hstem : stem.toList.head? = some letter) (hother : other.toList.head? = some otherLetter)
    (hne : letter ≠ otherLetter) (first count start number : Nat) :
    List.Disjoint (family stem first count) (family other start number) := by
  intro name hname hotherName
  obtain ⟨index, -, rfl⟩ := List.mem_map.mp hname
  obtain ⟨place, -, hsame⟩ := List.mem_map.mp hotherName
  have hhead := congrArg (·.toList.head?) hsame
  rw [String.toList_append, String.toList_append, List.head?_append, List.head?_append, hstem,
    hother] at hhead
  exact hne (Option.some.inj hhead).symm

/-- Of the names outside the families only `push0` starts with one of their stems. -/
theorem eq_push0_of_isPrefix (entry : Entry) (hentry : entry ∈ singleEntries) (stem : String)
    (hstem : stem ∈ ["push", "dup", "swap", "log"])
    (hstarts : stem.toList <+: entry.mnemonic.toList) :
    stem = "push" ∧ entry.mnemonic = "push" ++ toString 0 := by
  revert entry stem
  decide +kernel

/-- No family has a name from outside. -/
theorem disjoint_singleEntries_family {stem : String} {first : Nat}
    (hstem : stem ∈ ["push", "dup", "swap", "log"]) (hfirst : stem = "push" → first ≠ 0)
    (count : Nat) :
    List.Disjoint (singleEntries.map Entry.mnemonic) (family stem first count) := by
  intro name hname hfamily
  obtain ⟨entry, hentry, rfl⟩ := List.mem_map.mp hname
  obtain ⟨index, -, hnumbered⟩ := List.mem_map.mp hfamily
  have hstarts : stem.toList <+: entry.mnemonic.toList := by
    rw [← hnumbered, String.toList_append]
    exact List.prefix_append _ _
  obtain ⟨rfl, hzero⟩ := eq_push0_of_isPrefix entry hentry stem hstem hstarts
  rw [← hnumbered, String.append_right_inj] at hzero
  have hnumber := toString_injective hzero
  exact hfirst rfl (by omega)

theorem nodup_mnemonic_singleEntries : (singleEntries.map Entry.mnemonic).Nodup := by
  decide +kernel

/-- No two entries of the table have the same name. -/
theorem nodup_mnemonic_entries : (entries.map Entry.mnemonic).Nodup := by
  rw [map_mnemonic_entries]
  refine List.Nodup.append (List.Nodup.append (List.Nodup.append (List.Nodup.append
    nodup_mnemonic_singleEntries (nodup_family _ _ _) ?push) (nodup_family _ _ _) ?dup)
    (nodup_family _ _ _) ?swap) (nodup_family _ _ _) ?log
  case push => exact disjoint_singleEntries_family (by decide) (by decide) 32
  case dup =>
    rw [List.disjoint_append_left]
    exact ⟨disjoint_singleEntries_family (by decide) (by decide) 16,
      disjoint_family rfl rfl (by decide) 1 32 1 16⟩
  case swap =>
    rw [List.disjoint_append_left, List.disjoint_append_left]
    exact ⟨⟨disjoint_singleEntries_family (by decide) (by decide) 16,
      disjoint_family rfl rfl (by decide) 1 32 1 16⟩, disjoint_family rfl rfl (by decide) 1 16 1 16⟩
  case log =>
    rw [List.disjoint_append_left, List.disjoint_append_left, List.disjoint_append_left]
    exact ⟨⟨⟨disjoint_singleEntries_family (by decide) (by decide) 5,
      disjoint_family rfl rfl (by decide) 1 32 0 5⟩, disjoint_family rfl rfl (by decide) 1 16 0 5⟩,
      disjoint_family rfl rfl (by decide) 1 16 0 5⟩

/-- What every entry of the table keeps to: a plain name that does not start with a digit, and at
most thirty-two immediate bytes, whose number the name tells. -/
theorem entries_wellFormed (entry : Entry) (hentry : entry ∈ entries) :
    entry.mnemonic.toList.all isPlain = true ∧
      entry.mnemonic.toList.head? ≠ some '0' ∧ entry.immediateSize ≤ 32 ∧
        (entry.immediateSize ≠ 0 → entry.mnemonic = "push" ++ toString entry.immediateSize) := by
  revert entry
  decide +kernel

theorem mem_entries_of_entry?_eq_some {opcode : Opcode} {entry : Entry}
    (hentry : opcode.entry? = some entry) : entry ∈ entries ∧ entry.byte = opcode.byte := by
  rw [entry?_eq_find?] at hentry
  have hbyte : entry.byte.toNat = opcode.byte.toNat := by
    simpa using List.find?_some hentry
  exact ⟨List.mem_of_find?_eq_some hentry, UInt8.toNat_inj.mp hbyte⟩

/-! ### Names -/

theorem mnemonic_of_entry?_eq_some {opcode : Opcode} {entry : Entry}
    (hentry : opcode.entry? = some entry) : opcode.mnemonic = entry.mnemonic := by
  unfold mnemonic
  rw [hentry]

theorem mnemonic_of_entry?_eq_none {opcode : Opcode} (hentry : opcode.entry? = none) :
    opcode.mnemonic = Hex.marked [opcode.byte] := by
  unfold mnemonic
  rw [hentry]

/-- The name of an assigned opcode is not shown for an unassigned one. -/
theorem mnemonic_ne_marked {entry : Entry} (hentry : entry ∈ entries) (bytes : List UInt8) :
    entry.mnemonic ≠ Hex.marked bytes := by
  intro h
  refine (entries_wellFormed entry hentry).2.1 ?_
  rw [h, Hex.marked, String.toList_ofList, List.head?_cons]

/-- No two opcodes are shown alike. -/
theorem mnemonic_injective : Function.Injective mnemonic := by
  intro first second h
  cases hfirst : first.entry? with
  | none =>
    rw [mnemonic_of_entry?_eq_none hfirst] at h
    cases hsecond : second.entry? with
    | none =>
      rw [mnemonic_of_entry?_eq_none hsecond] at h
      have hbyte := List.head_eq_of_cons_eq (Hex.marked_injective h)
      exact Opcode.ext hbyte
    | some entry =>
      rw [mnemonic_of_entry?_eq_some hsecond] at h
      exact (mnemonic_ne_marked (mem_entries_of_entry?_eq_some hsecond).1 _ h.symm).elim
  | some entry =>
    obtain ⟨hentry, hbyte⟩ := mem_entries_of_entry?_eq_some hfirst
    rw [mnemonic_of_entry?_eq_some hfirst] at h
    cases hsecond : second.entry? with
    | none =>
      rw [mnemonic_of_entry?_eq_none hsecond] at h
      exact (mnemonic_ne_marked hentry _ h).elim
    | some other =>
      obtain ⟨hother, hotherByte⟩ := mem_entries_of_entry?_eq_some hsecond
      rw [mnemonic_of_entry?_eq_some hsecond] at h
      have hsame : entry = other :=
        List.inj_on_of_nodup_map nodup_mnemonic_entries hentry hother h
      exact Opcode.ext (by rw [← hbyte, ← hotherByte, hsame])

/-- A name of the table is shown for its own opcode alone. -/
theorem entry?_of_mnemonic_eq {first second : Opcode} {entry : Entry}
    (hentry : second.entry? = some entry) (hname : first.mnemonic = entry.mnemonic) :
    first.entry? = some entry := by
  have hsame : first = second :=
    mnemonic_injective (hname.trans (mnemonic_of_entry?_eq_some hentry).symm)
  rw [hsame, hentry]

theorem mem_all (opcode : Opcode) : opcode ∈ all := by
  refine List.mem_map.mpr ⟨opcode.byte.toNat, List.mem_range.mpr opcode.byte.toNat_lt, ?_⟩
  rw [UInt8.ofNat_toNat]

/-- Every name is read back. -/
@[simp] theorem ofMnemonic?_mnemonic (opcode : Opcode) :
    ofMnemonic? opcode.mnemonic = some opcode := by
  cases hfound : ofMnemonic? opcode.mnemonic with
  | none =>
    have hnone := List.find?_eq_none.mp hfound opcode (mem_all opcode)
    simp at hnone
  | some other =>
    have hother : other.mnemonic = opcode.mnemonic := by
      simpa using List.find?_some hfound
    rw [mnemonic_injective hother]

theorem isPlain_digitChar (value : Fin 16) : isPlain (Hex.digitChar value) = true := by
  revert value
  decide

theorem isPlain_of_mem_marked {bytes : List UInt8} {character : Char}
    (hcharacter : character ∈ (Hex.marked bytes).toList) : isPlain character = true := by
  rw [Hex.marked, String.toList_ofList, Hex.write_eq_map_digitChar] at hcharacter
  simp only [List.mem_cons, List.mem_map] at hcharacter
  rcases hcharacter with rfl | rfl | ⟨value, -, rfl⟩
  · rfl
  · rfl
  · exact isPlain_digitChar value

theorem isPlain_of_mem_mnemonic {opcode : Opcode} {character : Char}
    (hcharacter : character ∈ opcode.mnemonic.toList) : isPlain character = true := by
  cases hentry : opcode.entry? with
  | none =>
    rw [mnemonic_of_entry?_eq_none hentry] at hcharacter
    exact isPlain_of_mem_marked hcharacter
  | some entry =>
    rw [mnemonic_of_entry?_eq_some hentry] at hcharacter
    have hplain := (entries_wellFormed entry (mem_entries_of_entry?_eq_some hentry).1).1
    exact List.all_eq_true.mp hplain character hcharacter

/-! ### Immediate bytes -/

theorem immediateSize_of_entry?_eq_some {opcode : Opcode} {entry : Entry}
    (hentry : opcode.entry? = some entry) : opcode.immediateSize = entry.immediateSize := by
  unfold immediateSize
  rw [hentry]

theorem immediateSize_of_entry?_eq_none {opcode : Opcode} (hentry : opcode.entry? = none) :
    opcode.immediateSize = 0 := by
  unfold immediateSize
  rw [hentry]

theorem immediateSize_le (opcode : Opcode) : opcode.immediateSize ≤ 32 := by
  cases hentry : opcode.entry? with
  | none =>
    rw [immediateSize_of_entry?_eq_none hentry]
    exact Nat.zero_le 32
  | some entry =>
    rw [immediateSize_of_entry?_eq_some hentry]
    exact (entries_wellFormed entry (mem_entries_of_entry?_eq_some hentry).1).2.2.1

/-- An opcode with immediate bytes is shown as a push of their number. -/
theorem mnemonic_eq_push {opcode : Opcode} (hsize : opcode.immediateSize ≠ 0) :
    opcode.mnemonic = "push" ++ toString opcode.immediateSize := by
  cases hentry : opcode.entry? with
  | none => exact (hsize (immediateSize_of_entry?_eq_none hentry)).elim
  | some entry =>
    rw [immediateSize_of_entry?_eq_some hentry] at hsize
    rw [mnemonic_of_entry?_eq_some hentry, immediateSize_of_entry?_eq_some hentry]
    exact (entries_wellFormed entry (mem_entries_of_entry?_eq_some hentry).1).2.2.2 hsize

/-- The table holds a push of each number of bytes from one to thirty-two. -/
theorem exists_mem_entries_push {size : Nat} (hpos : 1 ≤ size) (hle : size ≤ 32) :
    ∃ entry ∈ entries, entry.mnemonic = "push" ++ toString size ∧ entry.immediateSize = size := by
  obtain ⟨index, rfl⟩ := Nat.exists_eq_add_of_le' hpos
  have hpush : ⟨0x60 + UInt8.ofNat index, "push" ++ toString (index + 1), index + 1, 0, 1⟩ ∈
      pushEntries :=
    List.mem_map.mpr ⟨index, List.mem_range.mpr hle, rfl⟩
  refine ⟨⟨0x60 + UInt8.ofNat index, "push" ++ toString (index + 1), index + 1, 0, 1⟩, ?_, rfl, rfl⟩
  simp only [entries, List.mem_append, hpush, or_true, true_or]

/-- An opcode that is shown as a push has as many immediate bytes as its name tells. -/
theorem immediateSize_of_mnemonic_eq_push {opcode : Opcode} {size : Nat} (hpos : 1 ≤ size)
    (hle : size ≤ 32) (hname : opcode.mnemonic = "push" ++ toString size) :
    opcode.immediateSize = size := by
  obtain ⟨push, hpush, hmnemonic, hsize⟩ := exists_mem_entries_push hpos hle
  cases hentry : opcode.entry? with
  | none =>
    rw [mnemonic_of_entry?_eq_none hentry, ← hmnemonic] at hname
    exact (mnemonic_ne_marked hpush _ hname.symm).elim
  | some entry =>
    rw [mnemonic_of_entry?_eq_some hentry, ← hmnemonic] at hname
    have hsame : entry = push :=
      List.inj_on_of_nodup_map nodup_mnemonic_entries (mem_entries_of_entry?_eq_some hentry).1 hpush
        hname
    rw [immediateSize_of_entry?_eq_some hentry, hsame, hsize]

/-! ### The opcodes of a prologue and of short pushes -/

theorem entry?_push1 : push1.entry? = some ⟨0x60, "push1", 1, 0, 1⟩ := by
  rw [entry?_eq_find?]
  rfl

theorem entry?_push2 : entry? ⟨0x61⟩ = some ⟨0x61, "push2", 2, 0, 1⟩ := by
  rw [entry?_eq_find?]
  rfl

theorem entry?_mstore : entry? ⟨0x52⟩ = some ⟨0x52, "mstore", 0, 2, 0⟩ := by
  rw [entry?_eq_find?]
  rfl

/-! ### The opcodes that close code and open it again -/

theorem entry?_stop : stop.entry? = some ⟨0x00, "stop", 0, 0, 0⟩ := by
  rw [entry?_eq_find?]
  rfl

theorem entry?_return : return_.entry? = some ⟨0xf3, "return", 0, 2, 0⟩ := by
  rw [entry?_eq_find?]
  rfl

theorem entry?_invalid : invalid.entry? = some ⟨0xfe, "invalid", 0, 0, 0⟩ := by
  rw [entry?_eq_find?]
  rfl

theorem entry?_jumpdest : jumpdest.entry? = some ⟨0x5b, "jumpdest", 0, 0, 0⟩ := by
  rw [entry?_eq_find?]
  rfl

end CodeTrail.Opcode
