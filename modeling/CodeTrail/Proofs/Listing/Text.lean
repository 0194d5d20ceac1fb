import CodeTrail.Program.Text
import CodeTrail.Proofs.Hex.Word
import CodeTrail.Proofs.Listing.Passes
import CodeTrail.Proofs.Program.Layout

/-!
# The text of a listing reads back

A line of a listing is words with single blanks between them. What a word starts with tells what it
is: `0` an immediate, `l` a label, `#` an offset. So `Line.read?` reads every line back whose parts
are words of the right kind (`Line.read?_body`), and `readLines` reads a whole text, line by line
(`Listing.readLines_text`). The listing of a decoded program has such lines only
(`wellFormed_of_mem_lines`), whatever the code.

The instruction lines show the bytes of the program, so the bytes that a text shows are the code up
to the end of the program (`readBytes_disassemble`). They hold the program again
(`map_ofBytes_readBytes_disassemble`), and `decode_eq_of_disassemble_eq` concludes that texts of
different programs differ.
-/

set_option autoImplicit false
set_option relaxedAutoImplicit false

namespace CodeTrail

/-! ### Words -/

/-- A text without blanks and line ends. -/
def IsWord (text : List Char) : Prop :=
  ' ' ∉ text ∧ '\n' ∉ text

/-- A word that starts with a given character. -/
def IsMarkedWord (mark : Char) (text : List Char) : Prop :=
  IsWord text ∧ text.head? = some mark

theorem isWord_of_isPlain {text : List Char}
    (htext : ∀ character ∈ text, Opcode.isPlain character = true) : IsWord text := by
  constructor
  · intro hblank
    exact absurd (htext ' ' hblank) (by decide)
  · intro hend
    exact absurd (htext '\n' hend) (by decide)

theorem isMarkedWord_marked (bytes : List UInt8) : IsMarkedWord '0' (Hex.marked bytes).toList := by
  refine ⟨isWord_of_isPlain fun character ↦ Opcode.isPlain_of_mem_marked, ?_⟩
  rw [Hex.marked, String.toList_ofList, List.head?_cons]

/-- A numbered label is a word. -/
theorem isMarkedWord_label (number : Nat) :
    IsMarkedWord 'l' ("label" ++ toString number).toList := by
  have hletters : "label".toList.all Opcode.isPlain = true := by decide
  rw [String.toList_append, Nat.toString_eq_ofList_toDigits, String.toList_ofList]
  refine ⟨isWord_of_isPlain fun character hcharacter ↦ ?_, rfl⟩
  rcases List.mem_append.mp hcharacter with hname | hnumber
  · exact List.all_eq_true.mp hletters character hname
  · rw [String.toList_ofList] at hnumber
    have hdigit := Nat.isDigit_of_mem_toDigits (by decide) (Nat.le_refl 10) hnumber
    rw [Opcode.isPlain, hdigit, Bool.or_true]

/-! ### Offsets -/

namespace Hex

/-- The digits of a number are those of its value. -/
theorem exists_toDigits_eq_map_digitChar (value : Nat) :
    ∃ values, Nat.toDigits 16 value = values.map digitChar ∧ number values = value := by
  have hlast (digit : Fin 16) : Nat.digitChar digit.val = digitChar digit := by
    revert digit
    decide
  have hsingle {digit : Nat} (hdigit : digit < 16) :
      Nat.digitChar digit = digitChar (Fin.ofNat 16 digit) := by
    rw [← hlast, Fin.val_ofNat, Nat.mod_eq_of_lt hdigit]
  induction value using Nat.strongRecOn with
  | ind value ih =>
    rw [Nat.toDigits_eq_if (by decide)]
    split_ifs with hsmall
    · refine ⟨[Fin.ofNat 16 value], by rw [hsingle hsmall]; rfl, ?_⟩
      simp [number, Nat.mod_eq_of_lt hsmall]
    · obtain ⟨values, hdigits, hnumber⟩ := ih (value / 16) (by omega)
      refine ⟨values ++ [Fin.ofNat 16 (value % 16)], ?_, ?_⟩
      · rw [hdigits, hsingle (Nat.mod_lt _ (by decide)), List.map_append]
        rfl
      · rw [number_append_singleton, hnumber, Fin.val_ofNat, Nat.mod_mod, Nat.div_add_mod]

theorem isWord_toDigits (value : Nat) : IsWord (Nat.toDigits 16 value) := by
  obtain ⟨values, hdigits, -⟩ := exists_toDigits_eq_map_digitChar value
  rw [hdigits]
  refine isWord_of_isPlain fun character hcharacter ↦ ?_
  obtain ⟨digit, -, rfl⟩ := List.mem_map.mp hcharacter
  exact Opcode.isPlain_digitChar digit

/-- The digits of a number are read back. -/
theorem map_number_digits?_toDigits (value : Nat) :
    (digits? (Nat.toDigits 16 value)).map number = some value := by
  obtain ⟨values, hdigits, hnumber⟩ := exists_toDigits_eq_map_digitChar value
  rw [hdigits, digits?_map_digitChar, Option.map_some, hnumber]

end Hex

/-! ### Lines -/

namespace Line

/-- A line as characters, without its end. -/
def body : Line → List Char
  | .comment text => [';', ';', ' '] ++ text.toList
  | .label name => name.toList ++ [':']
  | .instruction opcode target immediate offset =>
    [' ', ' '] ++ opcode.toList ++ operand target ++ operand immediate ++
      [' ', '#', '0', 'x'] ++ Nat.toDigits 16 offset.toNat

theorem chars_eq_body (line : Line) : line.chars = line.body ++ ['\n'] := by
  cases line <;> simp [chars, body]

/-- The words of a line. An instruction stands behind two blanks. -/
def words : Line → List (List Char)
  | .comment text => [[';', ';'], text.toList]
  | .label name => [name.toList ++ [':']]
  | .instruction opcode target immediate offset =>
    [] :: [] :: opcode.toList :: ((target.map String.toList).toList ++
      (immediate.map String.toList).toList ++
        ['#' :: '0' :: 'x' :: Nat.toDigits 16 offset.toNat])

/-- Lines whose parts are words that tell what they are. -/
inductive WellFormed : Line → Prop
  | comment {text : String} (htext : IsWord text.toList) : WellFormed (.comment text)
  | label {name : String} (hname : IsMarkedWord 'l' name.toList) : WellFormed (.label name)
  | instruction {opcode : String} {target immediate : Option String} {offset : UInt32}
      (hopcode : IsWord opcode.toList) (htarget : ∀ name ∈ target, IsMarkedWord 'l' name.toList)
      (himmediate : ∀ text ∈ immediate, IsMarkedWord '0' text.toList) :
      WellFormed (.instruction opcode target immediate offset)

theorem body_eq_intercalate (line : Line) : line.body = [' '].intercalate line.words := by
  cases line with
  | comment text => simp [body, words]
  | label name => simp [body, words]
  | instruction opcode target immediate offset =>
    cases target <;> cases immediate <;> simp [body, words, operand]

theorem isWord_of_mem_words {line : Line} (hline : line.WellFormed) {word : List Char}
    (hword : word ∈ line.words) : IsWord word := by
  cases hline with
  | comment htext =>
    simp only [words, List.mem_cons, List.not_mem_nil, or_false] at hword
    rcases hword with rfl | rfl
    · exact ⟨by decide, by decide⟩
    · exact htext
  | label hname =>
    simp only [words, List.mem_cons, List.not_mem_nil, or_false] at hword
    subst hword
    exact ⟨by simp [hname.1.1], by simp [hname.1.2]⟩
  | @instruction opcode target immediate offset hopcode htarget himmediate =>
    have hdigits := Hex.isWord_toDigits offset.toNat
    simp only [words, List.mem_cons, List.mem_append, Option.mem_toList, Option.map_eq_some_iff,
      List.not_mem_nil, or_false] at hword
    rcases hword with rfl | rfl | rfl | (⟨name, hname, rfl⟩ | ⟨text, htext, rfl⟩) | rfl
    · exact ⟨List.not_mem_nil, List.not_mem_nil⟩
    · exact ⟨List.not_mem_nil, List.not_mem_nil⟩
    · exact hopcode
    · exact (htarget name hname).1
    · exact (himmediate text htext).1
    · exact ⟨by simp [hdigits.1], by simp [hdigits.2]⟩

/-- The words of a line are found between its blanks. -/
theorem splitOn_body {line : Line} (hline : line.WellFormed) :
    line.body.splitOn ' ' = line.words := by
  have hne : line.words ≠ [] := by
    cases line <;> simp [words]
  rw [body_eq_intercalate]
  exact List.splitOn_intercalate ' ' (fun word hword ↦ (isWord_of_mem_words hline hword).1) hne

/-- The end of a line is not part of it. -/
theorem newline_notMem_body {line : Line} (hline : line.WellFormed) : '\n' ∉ line.body := by
  cases hline with
  | comment htext => simp [body, htext.2]
  | label hname => simp [body, hname.1.2]
  | @instruction opcode target immediate offset hopcode htarget himmediate =>
    have hoperand {mark : Char} {text : Option String}
        (htext : ∀ word ∈ text, IsMarkedWord mark word.toList) : '\n' ∉ operand text := by
      cases text with
      | none => exact List.not_mem_nil
      | some word => simp [operand, (htext word rfl).1.2]
    simp [body, hopcode.2, hoperand htarget, hoperand himmediate,
      (Hex.isWord_toDigits offset.toNat).2]

/-! ### Reading a line -/

/-- The first operand that starts with a given character. -/
def marked? (mark : Char) (operands : List (List Char)) : Option (List Char) :=
  operands.find? (·.head? == some mark)

/-- The offset that a word shows behind `#0x`. -/
def offset? : List Char → Option UInt32
  | '#' :: '0' :: 'x' :: digits =>
    ((Hex.digits? digits).map Hex.number).map UInt32.ofNat
  | _ => none

/-- The line with given words. -/
def ofWords? : List (List Char) → Option Line
  | [name] => some (.label (String.ofList name.dropLast))
  | [[';', ';'], text] => some (.comment (String.ofList text))
  | [] :: [] :: opcode :: operands =>
    ((marked? '#' operands).bind offset?).map fun offset ↦
      .instruction (String.ofList opcode) ((marked? 'l' operands).map String.ofList)
        ((marked? '0' operands).map String.ofList) offset
  | _ => none

/-- The line that a text without line ends is. -/
def read? (text : List Char) : Option Line :=
  ofWords? (text.splitOn ' ')

theorem offset?_toDigits (offset : UInt32) :
    offset? ('#' :: '0' :: 'x' :: Nat.toDigits 16 offset.toNat) = some offset := by
  rw [offset?, Hex.map_number_digits?_toDigits, Option.map_some, UInt32.ofNat_toNat]

theorem ofWords?_words {line : Line} (hline : line.WellFormed) :
    ofWords? line.words = some line := by
  cases hline with
  | comment htext => simp [words, ofWords?]
  | label hname => simp [words, ofWords?]
  | @instruction opcode target immediate offset hopcode htarget himmediate =>
    have hoffset := offset?_toDigits offset
    cases target with
    | none =>
      cases immediate with
      | none => simp [words, ofWords?, marked?, hoffset]
      | some text => simp [words, ofWords?, marked?, hoffset, (himmediate text rfl).2]
    | some name =>
      have hname := (htarget name rfl).2
      cases immediate with
      | none => simp [words, ofWords?, marked?, hoffset, hname]
      | some text => simp [words, ofWords?, marked?, hoffset, hname, (himmediate text rfl).2]

/-- Every well-formed line is read back. -/
theorem read?_body {line : Line} (hline : line.WellFormed) : read? line.body = some line := by
  rw [read?, splitOn_body hline, ofWords?_words hline]

theorem mapM_read?_body {lines : List Line} (hlines : ∀ line ∈ lines, line.WellFormed) :
    (lines.map body).mapM read? = some lines := by
  induction lines with
  | nil => rfl
  | cons line rest ih =>
    rw [List.forall_mem_cons] at hlines
    rw [List.map_cons, List.mapM_cons, read?_body hlines.1, ih hlines.2]
    rfl

end Line

namespace Listing

/-! ### Texts -/

/-- The lines of a text, if it is the text of a listing. -/
def readLines (text : String) : Option (List Line) :=
  (text.toList.splitOn '\n').dropLast.mapM Line.read?

theorem text_eq_intercalate (listing : Listing) :
    listing.text.toList = ['\n'].intercalate (listing.lines.map Line.body ++ [[]]) := by
  rw [text, String.toList_ofList]
  induction listing.lines with
  | nil => rfl
  | cons line rest ih =>
    rw [List.flatMap_cons, ih, Line.chars_eq_body, List.map_cons, List.cons_append,
      List.intercalate_cons_of_ne_nil (by simp)]

/-- The lines of a text are found between its line ends. -/
theorem splitOn_text {listing : Listing} (hlines : ∀ line ∈ listing.lines, line.WellFormed) :
    listing.text.toList.splitOn '\n' = listing.lines.map Line.body ++ [[]] := by
  rw [text_eq_intercalate]
  refine List.splitOn_intercalate '\n' (fun body hbody ↦ ?_) (by simp)
  rcases List.mem_append.mp hbody with hline | hlast
  · obtain ⟨line, hmem, rfl⟩ := List.mem_map.mp hline
    exact Line.newline_notMem_body (hlines line hmem)
  · rw [List.mem_singleton.mp hlast]
    exact List.not_mem_nil

/-- Every text with well-formed lines is read back. -/
theorem readLines_text {listing : Listing} (hlines : ∀ line ∈ listing.lines, line.WellFormed) :
    readLines listing.text = some listing.lines := by
  rw [readLines, splitOn_text hlines, List.dropLast_concat, Line.mapM_read?_body hlines]

/-! ### The lines of a decoded program -/

/-- Instructions whose texts are words that tell what they are. -/
structure Printable (instruction : Instruction) : Prop where
  opcode : IsWord instruction.opcode.toList
  immediate : ∀ text ∈ instruction.immediate, IsMarkedWord '0' text.toList
  label : ∀ name ∈ instruction.label, IsMarkedWord 'l' name.toList
  comments : ∀ text ∈ instruction.comments, IsWord text.toList

/-- The lines of an instruction are well formed when its texts and the labels are. -/
theorem wellFormed_of_mem_linesOf {labelAt : Nat → Option String} {instruction : Instruction}
    (hlabels : ∀ index, ∀ name ∈ labelAt index, IsMarkedWord 'l' name.toList)
    (hprintable : Printable instruction) {line : Line} (hline : line ∈ linesOf labelAt instruction) :
    line.WellFormed := by
  simp only [linesOf, List.mem_append, List.mem_map, Option.mem_toList, Option.map_eq_some_iff,
    List.mem_singleton] at hline
  rcases hline with (⟨text, htext, rfl⟩ | ⟨name, hname, rfl⟩) | rfl
  · exact .comment (hprintable.comments text htext)
  · exact .label (hprintable.label name hname)
  · refine .instruction hprintable.opcode (fun name hname ↦ ?_) hprintable.immediate
    obtain ⟨target, -, hlabel⟩ := Option.bind_eq_some_iff.mp hname
    exact hlabels target name hlabel

theorem printable_instruction (chunk : Chunk) (offset : UInt32) :
    Printable (chunk.instruction offset) where
  opcode := by
    rw [Chunk.opcode_instruction]
    exact isWord_of_isPlain fun character ↦ Opcode.isPlain_of_mem_mnemonic
  immediate := by
    intro text htext
    rw [Chunk.immediate_instruction, Option.mem_def, Option.ite_none_left_eq_some] at htext
    obtain rfl := Option.some.inj htext.2
    exact isMarkedWord_marked chunk.immediate
  label := by
    intro name hname
    cases hname
  comments := by
    intro text htext
    cases htext

theorem isWord_of_mem_commentsAt {prologues : List Nat} {index : Nat} {comment : String}
    (hcomment : comment ∈ commentsAt prologues index) : IsWord comment.toList := by
  rcases mem_commentsAt_iff.mp hcomment with ⟨rfl, -⟩ | ⟨rfl, -⟩
  · exact ⟨by decide, by decide⟩
  · exact ⟨by decide, by decide⟩

/-- Annotating writes words only. -/
theorem printable_annotatedAt {instruction : Instruction} (hprintable : Printable instruction)
    (program : Program) (index : Nat) : Printable (annotatedAt program index instruction) where
  opcode := hprintable.opcode
  immediate := hprintable.immediate
  label := by
    intro name hname
    rw [annotatedAt, Option.mem_def, labelFor] at hname
    split_ifs at hname with hlanding
    · obtain rfl := Option.some.inj hname
      exact isMarkedWord_label _
    · exact hprintable.label name hname
  comments := by
    intro text htext
    rw [annotatedAt, List.mem_append] at htext
    rcases htext with hown | hadded
    · exact hprintable.comments text hown
    · exact isWord_of_mem_commentsAt hadded

theorem printable_of_mem {code : String} {instruction : Instruction}
    (hinstruction : instruction ∈ (of (Program.decode code)).instructions) :
    Printable instruction := by
  obtain ⟨index, hindex⟩ := List.mem_iff_getElem?.mp hinstruction
  rw [getElem?_instructions_of, Option.map_eq_some_iff] at hindex
  obtain ⟨before, hbefore, rfl⟩ := hindex
  obtain ⟨chunk, -, rfl⟩ := Program.exists_chunk hbefore
  exact printable_annotatedAt (printable_instruction chunk _) _ index

/-- The lines of the listing of a decoded program are well formed. -/
theorem wellFormed_of_mem_lines {code : String} {line : Line}
    (hline : line ∈ (of (Program.decode code)).lines) : line.WellFormed := by
  rw [lines] at hline
  obtain ⟨instruction, hinstruction, hmem⟩ := List.mem_flatMap.mp hline
  refine wellFormed_of_mem_linesOf (fun index name hname ↦ ?_) (printable_of_mem hinstruction) hmem
  obtain ⟨labelled, hlabelled, hlabel⟩ := Option.bind_eq_some_iff.mp hname
  rw [List.getElem?_toArray] at hlabelled
  exact (printable_of_mem (List.mem_of_getElem? hlabelled)).label name hlabel

/-! ### The bytes that a text shows -/

/-- The bytes that a line shows; only the line of an instruction shows any. -/
def bytesShown : Line → List UInt8
  | .instruction opcode _ immediate _ => (shownBytes? opcode immediate).getD []
  | _ => []

theorem flatMap_bytesShown_linesOf (labelAt : Nat → Option String) (instruction : Instruction) :
    (linesOf labelAt instruction).flatMap bytesShown = instruction.bytes?.getD [] := by
  have hcomments : (instruction.comments.map Line.comment).flatMap bytesShown = [] := by
    rw [List.flatMap_eq_nil_iff]
    intro line hline
    obtain ⟨text, -, rfl⟩ := List.mem_map.mp hline
    rfl
  have hlabel : (instruction.label.map Line.label).toList.flatMap bytesShown = [] := by
    cases instruction.label <;> rfl
  rw [linesOf, List.flatMap_append, List.flatMap_append, hcomments, hlabel, List.flatMap_singleton,
    List.nil_append, List.nil_append, bytesShown, Instruction.bytes?]

/-- The lines of a listing show the bytes of its instructions. -/
theorem flatMap_bytesShown_lines (listing : Listing) :
    listing.lines.flatMap bytesShown = listing.instructions.flatMap (·.bytes?.getD []) := by
  rw [lines, List.flatMap_assoc]
  simp only [flatMap_bytesShown_linesOf]

/-- Annotating keeps the bytes that an instruction shows. -/
theorem map_bytes?_instructions_of (program : Program) :
    (of program).instructions.map Instruction.bytes? =
      program.instructions.map Instruction.bytes? :=
  map_instructions_of program fun index instruction ↦ by
    rw [annotatedAt, Instruction.bytes?, Instruction.bytes?]

/-- The text of a program shows the code up to the end of the program. -/
theorem flatMap_bytesShown_decode (code : String) :
    (of (Program.decode code)).lines.flatMap bytesShown =
      (Hex.code code).take (Chunk.span (Program.chunks (Hex.code code))) := by
  have hplace (offset : UInt32) (chunks : List Chunk) :
      (Program.place offset chunks).flatMap (·.bytes?.getD []) = chunks.flatMap Chunk.bytes := by
    induction chunks generalizing offset with
    | nil => rfl
    | cons chunk rest ih =>
      rw [Program.place, List.flatMap_cons, Chunk.bytes?_instruction, Option.getD_some, ih,
        List.flatMap_cons]
  have hannotated : (of (Program.decode code)).instructions.flatMap (·.bytes?.getD []) =
      (Program.decode code).instructions.flatMap (·.bytes?.getD []) := by
    rw [← List.flatMap_map Instruction.bytes? (·.getD []), map_bytes?_instructions_of,
      List.flatMap_map]
  rw [flatMap_bytesShown_lines, hannotated, Program.decode_eq_ofBytes, Program.ofBytes_eq_place,
    hplace, Program.flatMap_bytes_chunks]

/-! ### Programs from texts -/

/-- The bytes that the lines of a text show, if it is the text of a listing. -/
def readBytes (text : String) : Option (List UInt8) :=
  (readLines text).map (·.flatMap bytesShown)

theorem readBytes_disassemble (code : String) :
    readBytes (disassemble code) =
      some ((Hex.code code).take (Chunk.span (Program.chunks (Hex.code code)))) := by
  rw [readBytes, disassemble, readLines_text fun line ↦ wellFormed_of_mem_lines, Option.map_some,
    flatMap_bytesShown_decode]

/-- The text of a program decodes to the program again. -/
theorem map_ofBytes_readBytes_disassemble (code : String) :
    (readBytes (disassemble code)).map Program.ofBytes = some (Program.decode code) := by
  rw [readBytes_disassemble, Option.map_some, Program.ofBytes_take_span, Program.decode_eq_ofBytes]

/-- Two codes with the same text hold the same program, and the program reaches over the same bytes
of both. Assumes: code that is too short for an offset to wrap around. -/
theorem decode_eq_of_disassemble_eq {first second : String}
    (hfirst : (Hex.code first).length ≤ UInt32.size - 33)
    (hsecond : (Hex.code second).length ≤ UInt32.size - 33)
    (htext : disassemble first = disassemble second) :
    Program.decode first = Program.decode second ∧
      (Hex.code first).take (Program.decode first).extent =
        (Hex.code second).take (Program.decode second).extent := by
  have hbytes := readBytes_disassemble first
  rw [htext, readBytes_disassemble] at hbytes
  have hprogram := map_ofBytes_readBytes_disassemble first
  rw [htext, map_ofBytes_readBytes_disassemble] at hprogram
  refine ⟨(Option.some.inj hprogram).symm, ?_⟩
  rw [Program.decode_eq_ofBytes, Program.decode_eq_ofBytes, Program.extent_ofBytes hfirst,
    Program.extent_ofBytes hsecond, Option.some.inj hbytes]

theorem decode_eq_of_data_behind_stop :
    Program.decode "0x600100fe" = Program.decode "600100" ∧
      (Hex.code "0x600100fe").take (Program.decode "0x600100fe").extent =
        (Hex.code "600100").take (Program.decode "600100").extent :=
  decode_eq_of_disassemble_eq (by decide +kernel) (by decide +kernel) (by decide +kernel)

end Listing

end CodeTrail
