import CodeTrail.Proofs.Listing.Places
import CodeTrail.Proofs.Listing.Text

/-!
# Rows of a text

The rows of a text are what stands between its line ends. `Row` names the kinds of rows that a
listing has with labels and jumps, in characters: a label, a place where a jump may land, a jump, a
jump to a label, a push, and the row above the runtime segment. `Row.Labelled` says what it means for
labels to be right in a text, in terms of its rows.

The rows of a disassembled text are the lines of its listing (`getElem?_rows_eq_some_iff`). A line is
written as a row of the kind it should be (`Line.jumpsTo_body`, `Line.pushes_body` and the like), and
a row of some kind is a line that says so (`Line.eq_of_jumpsTo`, `Line.eq_of_pushes` and the like),
because its words are found between its blanks.
-/

set_option autoImplicit false
set_option relaxedAutoImplicit false

namespace CodeTrail

/-! ### Kinds of rows -/

/-- The rows of a text, each of them ended by a line end. -/
def rows (text : String) : List (List Char) :=
  (text.toList.splitOn '\n').dropLast

/-- The label with a number. -/
def labelName (number : Nat) : String :=
  "label" ++ toString number

namespace Row

/-- The row above the runtime segment. -/
def contract : List Char :=
  ";; Contract".toList

/-- The row that a label stands in. -/
def label (name : String) : List Char :=
  (name ++ ":").toList

/-- The row of a place where a jump may land. -/
def jumpdest (offset : Nat) : List Char :=
  ("  jumpdest #0x" ++ String.ofList (Nat.toDigits 16 offset)).toList

/-- A row shows a jump, with or without a condition. -/
def Jumps (row : List Char) : Prop :=
  ∃ opcode ∈ ["jump", "jumpi"], ("  " ++ opcode ++ " ").toList <+: row

/-- A row shows a jump to a label. -/
def JumpsTo (name : String) (row : List Char) : Prop :=
  ∃ opcode ∈ ["jump", "jumpi"], ("  " ++ opcode ++ " " ++ name ++ " #").toList <+: row

/-- A row shows a push of one or two bytes, whose digits denote a value. -/
def Pushes (value : Nat) (row : List Char) : Prop :=
  ∃ opcode ∈ ["push1", "push2"], ∃ digits, (Hex.digits? digits).map Hex.number = some value ∧
    ("  " ++ opcode ++ " 0x").toList ++ digits ++ [' ', '#'] <+: row

/-- Two places lie on the same side of the row above the runtime segment, if there is one. -/
def SameSide (rows : List (List Char)) (first second : Nat) : Prop :=
  ∀ border, rows[border]? = some contract → (first < border ↔ second < border)

/-- The labels of a text lead from jumps to the places where they land, and none is missing. -/
structure Labelled (rows : List (List Char)) : Prop where
  /-- At most one row is the one above a runtime segment. -/
  border_unique : ∀ first second : Nat,
    rows[first]? = some contract → rows[second]? = some contract → first = second
  /-- A jump to a label stands right below a push of some value. The label is a numbered one. It
  stands in one row only, right above a place where a jump may land that has this value as its
  offset, on the side of the jump. -/
  lands : ∀ (place : Nat) (name : String), IsMarkedWord 'l' name.toList →
    (∃ row ∈ rows[place]?, JumpsTo name row) →
      ∃ before above value number : Nat, place = before + 1 ∧ name = labelName number ∧
        (∃ row ∈ rows[before]?, Pushes value row) ∧ rows[above]? = some (label name) ∧
          (∀ other : Nat, rows[other]? = some (label name) → other = above) ∧
            rows[above + 1]? = some (jumpdest value) ∧ SameSide rows place (above + 1)
  /-- A jump right below a push of a value shows the label right above the place where a jump may
  land that has this value as its offset, if there is one on its side. -/
  shown : ∀ before value landing : Nat, (∃ row ∈ rows[before]?, Pushes value row) →
    (∃ row ∈ rows[before + 1]?, Jumps row) → rows[landing]? = some (jumpdest value) →
      SameSide rows (before + 1) landing →
        ∃ above number : Nat, landing = above + 1 ∧
          rows[above]? = some (label (labelName number)) ∧
            ∃ row ∈ rows[before + 1]?, JumpsTo (labelName number) row

end Row

/-! ### Reading rows -/

namespace Line

/-- No two well-formed lines read alike. -/
theorem body_inj {first second : Line} (hfirst : first.WellFormed) (hsecond : second.WellFormed)
    (hbody : first.body = second.body) : first = second := by
  have hread := read?_body hfirst
  rw [hbody, read?_body hsecond] at hread
  exact (Option.some.inj hread).symm

/-- A line that shows an opcode is the line of an instruction. -/
theorem eq_instruction {line : Line} (hline : line.WellFormed) {opcode : String}
    {rest : List Char} (hopcode : ' ' ∉ opcode.toList)
    (hbody : line.body = ("  " ++ opcode ++ " ").toList ++ rest) :
    ∃ offset, line = .instruction opcode ((marked? 'l' (rest.splitOn ' ')).map String.ofList)
      ((marked? '0' (rest.splitOn ' ')).map String.ofList) offset := by
  have hsplit : line.body.splitOn ' ' = [] :: [] :: opcode.toList :: rest.splitOn ' ' := by
    have hrow : line.body = [] ++ ' ' :: ([] ++ ' ' :: (opcode.toList ++ ' ' :: rest)) := by
      rw [hbody]
      simp
    rw [hrow, List.splitOn_append_cons_self_of_not_mem List.not_mem_nil,
      List.splitOn_append_cons_self_of_not_mem List.not_mem_nil,
      List.splitOn_append_cons_self_of_not_mem hopcode]
  have hread := read?_body hline
  rw [read?, hsplit, ofWords?] at hread
  obtain ⟨offset, -, rfl⟩ := Option.map_eq_some_iff.mp hread
  exact ⟨offset, by rw [String.ofList_toList]⟩

theorem blank_notMem_of_digits? {digits : List Char} {value : Nat}
    (hvalue : (Hex.digits? digits).map Hex.number = some value) : ' ' ∉ digits := by
  obtain ⟨values, hdigits, -⟩ := Option.map_eq_some_iff.mp hvalue
  have hall := Hex.isSome_digits? digits
  rw [hdigits, Option.isSome_some] at hall
  intro hblank
  exact absurd (List.all_eq_true.mp hall.symm ' ' hblank) (by decide)

theorem eq_of_jumps {line : Line} (hline : line.WellFormed) (hrow : Row.Jumps line.body) :
    ∃ opcode ∈ ["jump", "jumpi"], ∃ target immediate offset,
      line = .instruction opcode target immediate offset := by
  obtain ⟨opcode, hopcode, rest, hrest⟩ := hrow
  have hblank : ∀ opcode ∈ ["jump", "jumpi"], ' ' ∉ opcode.toList := by decide
  obtain ⟨offset, hline⟩ := eq_instruction hline (hblank opcode hopcode) hrest.symm
  exact ⟨opcode, hopcode, _, _, offset, hline⟩

theorem eq_of_jumpsTo {line : Line} (hline : line.WellFormed) {name : String}
    (hname : IsMarkedWord 'l' name.toList) (hrow : Row.JumpsTo name line.body) :
    ∃ opcode ∈ ["jump", "jumpi"], ∃ immediate offset,
      line = .instruction opcode (some name) immediate offset := by
  obtain ⟨opcode, hopcode, rest, hrest⟩ := hrow
  have hblank : ∀ opcode ∈ ["jump", "jumpi"], ' ' ∉ opcode.toList := by decide
  have hbody : line.body =
      ("  " ++ opcode ++ " ").toList ++ (name.toList ++ ' ' :: '#' :: rest) := by
    rw [← hrest]
    simp
  obtain ⟨offset, hinstruction⟩ := eq_instruction hline (hblank opcode hopcode) hbody
  rw [List.splitOn_append_cons_self_of_not_mem hname.1.1, marked?, List.find?_cons_of_pos (by simp [hname.2]), Option.map_some,
    String.ofList_toList] at hinstruction
  exact ⟨opcode, hopcode, _, offset, hinstruction⟩

theorem eq_of_pushes {line : Line} (hline : line.WellFormed) {value : Nat}
    (hrow : Row.Pushes value line.body) :
    ∃ opcode ∈ ["push1", "push2"], ∃ target digits offset,
      (Hex.digits? digits).map Hex.number = some value ∧
        line = .instruction opcode target (some (String.ofList ('0' :: 'x' :: digits))) offset := by
  obtain ⟨opcode, hopcode, digits, hvalue, rest, hrest⟩ := hrow
  have hblank : ∀ opcode ∈ ["push1", "push2"], ' ' ∉ opcode.toList := by decide
  have hword : ' ' ∉ '0' :: 'x' :: digits := by
    simp [blank_notMem_of_digits? hvalue]
  have hbody : line.body =
      ("  " ++ opcode ++ " ").toList ++ (('0' :: 'x' :: digits) ++ ' ' :: '#' :: rest) := by
    rw [← hrest]
    simp
  obtain ⟨offset, hinstruction⟩ := eq_instruction hline (hblank opcode hopcode) hbody
  have hmarked : marked? '0' (('0' :: 'x' :: digits) :: ('#' :: rest).splitOn ' ') =
      some ('0' :: 'x' :: digits) := List.find?_cons_of_pos rfl
  rw [List.splitOn_append_cons_self_of_not_mem hword, hmarked, Option.map_some] at hinstruction
  exact ⟨opcode, hopcode, _, digits, offset, hvalue, hinstruction⟩

/-- A place where a jump may land is shown under its offset alone. -/
theorem eq_of_jumpdest {line : Line} (hline : line.WellFormed) {value : Nat}
    (hrow : line.body = Row.jumpdest value) :
    ∃ offset : UInt32, line = .instruction "jumpdest" none none offset ∧ offset.toNat = value := by
  have hblank : ' ' ∉ '#' :: '0' :: 'x' :: Nat.toDigits 16 value := by
    simp [(Hex.isWord_toDigits value).1]
  have hbody : line.body =
      ("  " ++ "jumpdest" ++ " ").toList ++ ('#' :: '0' :: 'x' :: Nat.toDigits 16 value) := by
    simp [hrow, Row.jumpdest]
  have hjumpdest : ' ' ∉ "jumpdest".toList := by decide
  obtain ⟨offset, rfl⟩ := eq_instruction hline hjumpdest hbody
  rw [List.splitOn_eq_singleton hblank] at hrow ⊢
  refine ⟨offset, rfl, ?_⟩
  have hdigits : Nat.toDigits 16 offset.toNat = Nat.toDigits 16 value := by
    simpa [marked?, body, operand, Row.jumpdest] using hrow
  have hoffset := Hex.map_number_digits?_toDigits offset.toNat
  rw [hdigits, Hex.map_number_digits?_toDigits] at hoffset
  exact (Option.some.inj hoffset).symm

/-! ### Writing rows -/

theorem body_label (name : String) : (Line.label name).body = Row.label name := by
  simp [body, Row.label]

theorem body_contract : (Line.comment "Contract").body = Row.contract := by
  decide

theorem body_jumpdest (offset : UInt32) :
    (Line.instruction "jumpdest" none none offset).body = Row.jumpdest offset.toNat := by
  simp [body, operand, Row.jumpdest]

theorem jumpsTo_body {opcode : String} (hopcode : opcode ∈ ["jump", "jumpi"]) (name : String)
    (offset : UInt32) : Row.JumpsTo name (Line.instruction opcode (some name) none offset).body :=
  ⟨opcode, hopcode, '0' :: 'x' :: Nat.toDigits 16 offset.toNat, by simp [body, operand]⟩

theorem map_number_digits?_write (bytes : List UInt8) :
    (Hex.digits? (Hex.write bytes)).map Hex.number = some (Hex.bigEndian bytes) := by
  rw [Hex.write_eq_map_digitChar, Hex.digits?_map_digitChar, Option.map_some, Hex.number_digits]

/-- A push shows the number of the bytes that it pushes. -/
theorem pushes_body {opcode : String} (hopcode : opcode ∈ ["push1", "push2"]) (bytes : List UInt8)
    (offset : UInt32) : Row.Pushes (Hex.bigEndian bytes)
      (Line.instruction opcode none (some (Hex.marked bytes)) offset).body := by
  refine ⟨opcode, hopcode, Hex.write bytes, map_number_digits?_write bytes,
    '0' :: 'x' :: Nat.toDigits 16 offset.toNat, ?_⟩
  simp [body, operand, Hex.marked]

/-- The bytes behind an immediate have the value of its digits. -/
theorem bigEndian_eq_of_marked {bytes : List UInt8} {digits : List Char} {value : Nat}
    (hmarked : String.ofList ('0' :: 'x' :: digits) = Hex.marked bytes)
    (hvalue : (Hex.digits? digits).map Hex.number = some value) : Hex.bigEndian bytes = value := by
  have hdigits := congrArg String.toList hmarked
  rw [Hex.marked, String.toList_ofList, String.toList_ofList] at hdigits
  obtain rfl : digits = Hex.write bytes := List.cons_injective (List.cons_injective hdigits)
  rw [map_number_digits?_write] at hvalue
  exact (Option.some.inj hvalue)

theorem eq_label {line : Line} (hline : line.WellFormed) {name : String}
    (hname : IsMarkedWord 'l' name.toList) (hrow : line.body = Row.label name) :
    line = .label name :=
  body_inj hline (.label hname) (hrow.trans (body_label name).symm)

theorem eq_contract {line : Line} (hline : line.WellFormed) (hrow : line.body = Row.contract) :
    line = .comment "Contract" :=
  body_inj hline (.comment ⟨by decide, by decide⟩) (hrow.trans body_contract.symm)

end Line

/-! ### The rows of a listing -/

namespace Listing

theorem rows_disassemble (code : String) :
    rows (disassemble code) = (of (Program.decode code)).lines.map Line.body := by
  rw [rows, disassemble, splitOn_text fun line ↦ wellFormed_of_mem_lines, List.dropLast_concat]

/-- The rows of a text with their ends are all of it. -/
theorem flatMap_rows_disassemble (code : String) :
    (rows (disassemble code)).flatMap (· ++ ['\n']) = (disassemble code).toList := by
  have hchars : (fun line : Line ↦ line.body ++ ['\n']) = Line.chars :=
    funext fun line ↦ (Line.chars_eq_body line).symm
  rw [rows_disassemble, List.flatMap_map, hchars, disassemble, text, String.toList_ofList]

theorem Shows.wellFormed {code : String} {place : Nat} {line : Line}
    (hshows : (of (Program.decode code)).Shows place line) : line.WellFormed :=
  wellFormed_of_mem_lines (List.mem_of_getElem? (getElem?_lines_eq_some_iff.mpr hshows))

/-- The rows of a text are the lines of the listing. -/
theorem getElem?_rows_eq_some_iff {code : String} {place : Nat} {row : List Char} :
    (rows (disassemble code))[place]? = some row ↔
      ∃ line, (of (Program.decode code)).Shows place line ∧ line.body = row := by
  rw [rows_disassemble, List.getElem?_map, Option.map_eq_some_iff]
  simp only [getElem?_lines_eq_some_iff]

section Kinds

variable {code : String} {place : Nat}

theorem getElem?_rows_eq_contract_iff :
    (rows (disassemble code))[place]? = some Row.contract ↔
      (of (Program.decode code)).Shows place (.comment "Contract") := by
  rw [getElem?_rows_eq_some_iff]
  constructor
  · rintro ⟨line, hshows, hbody⟩
    rwa [Line.eq_contract hshows.wellFormed hbody] at hshows
  · exact fun hshows ↦ ⟨_, hshows, Line.body_contract⟩

theorem getElem?_rows_eq_label_iff {name : String} (hname : IsMarkedWord 'l' name.toList) :
    (rows (disassemble code))[place]? = some (Row.label name) ↔
      (of (Program.decode code)).Shows place (.label name) := by
  rw [getElem?_rows_eq_some_iff]
  constructor
  · rintro ⟨line, hshows, hbody⟩
    rwa [Line.eq_label hshows.wellFormed hname hbody] at hshows
  · exact fun hshows ↦ ⟨_, hshows, Line.body_label name⟩

theorem getElem?_rows_eq_jumpdest_iff {value : Nat} :
    (rows (disassemble code))[place]? = some (Row.jumpdest value) ↔
      ∃ offset : UInt32, (of (Program.decode code)).Shows place
        (.instruction "jumpdest" none none offset) ∧ offset.toNat = value := by
  rw [getElem?_rows_eq_some_iff]
  constructor
  · rintro ⟨line, hshows, hbody⟩
    obtain ⟨offset, rfl, hoffset⟩ := Line.eq_of_jumpdest hshows.wellFormed hbody
    exact ⟨offset, hshows, hoffset⟩
  · rintro ⟨offset, hshows, rfl⟩
    exact ⟨_, hshows, Line.body_jumpdest offset⟩

end Kinds

end Listing

end CodeTrail
