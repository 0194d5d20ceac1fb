import CodeTrail.Proofs.Json.Numeral

/-!
# JSON text read back

A value that is written in a layout and read again is the value that was written (`read?_put`), as
long as it is plain, which is to say that its numbers are integers of at most 64 bits, and not
nested too deep. What the two layouts put between the tokens is blank and is skipped, so this holds
on lines and in a row (`read?_pretty`, `read?_compact`). The reader is given a number of steps; as
many as the text has characters are enough, because every value takes at least one character and
each step of the reader goes past one.
-/

set_option autoImplicit false
set_option relaxedAutoImplicit false

namespace CodeTrail.Json

/-! ### Quoted texts -/

theorem codeUnit?_digitChar {unit : Nat} (hunit : unit < 0x20) :
    codeUnit? '0' '0' (Hex.digitChar (Fin.ofNat 16 (unit / 16)))
      (Hex.digitChar (Fin.ofNat 16 (unit % 16))) = some unit := by
  have hzero : Hex.digit? '0' = some 0 := by decide
  simp only [codeUnit?, Hex.digits?, List.mapM_cons, List.mapM_nil, hzero, Hex.digit?_digitChar,
    Option.bind_eq_bind, Option.bind_some, Option.pure_def, Option.map_some, Hex.number,
    List.foldl_cons, List.foldl_nil, Fin.ofNat, Fin.val_zero, Option.some.injEq]
  omega

/-- A character is read back from its spelling inside a quoted text. -/
theorem textBody?_escaped_append (character : Char) (text : List Char) :
    textBody? (escaped character ++ text) =
      (textBody? text).map fun found ↦ (character :: found.1, found.2) := by
  unfold escaped
  split_ifs with hquote hbackslash hnewline hreturn htab hbackspace hfeed hcontrol
  case pos => subst hquote; simp [textBody?, shortEscape?]
  case pos => subst hbackslash; simp [textBody?, shortEscape?]
  case pos => subst hnewline; simp [textBody?, shortEscape?]
  case pos => subst hreturn; simp [textBody?, shortEscape?]
  case pos => subst htab; simp [textBody?, shortEscape?]
  case pos => subst hbackspace; simp [textBody?, shortEscape?]
  case pos => subst hfeed; simp [textBody?, shortEscape?]
  case pos =>
    have hsurrogate : ¬ (0xd800 ≤ character.toNat ∧ character.toNat < 0xe000) := by omega
    simp only [List.cons_append, List.nil_append, textBody?, codeUnit?_digitChar hcontrol,
      if_neg hsurrogate, Char.ofNat_toNat]
  case neg =>
    rw [List.singleton_append, textBody?.eq_def (character :: text)]
    split
    case h_5 =>
      rename_i hsame
      obtain ⟨rfl, rfl⟩ := List.cons.inj hsame
      exact if_neg (not_or.mpr ⟨hbackslash, hcontrol⟩)
    all_goals simp_all

theorem textBody?_flatMap_escaped (characters after : List Char) :
    textBody? (characters.flatMap escaped ++ '"' :: after) = some (characters, after) := by
  induction characters with
  | nil => rfl
  | cons character rest ih =>
    rw [List.flatMap_cons, List.append_assoc, textBody?_escaped_append, ih]
    rfl

/-- A quoted text is read back. -/
theorem quoted?_putText (text : String) (after : List Char) :
    quoted? (putText text after) = some (text, after) := by
  rw [putText, quoted?, textBody?_flatMap_escaped, Option.map_some, String.ofList_toList]

/-! ### Blanks between tokens -/

/-- A layout puts nothing but blanks between the tokens, apart from the colon itself. -/
structure Layout.IsBlank (layout : Layout) : Prop where
  line : ∀ level, ∀ character ∈ layout.line level, isSpace character = true
  colon : ∃ blanks, layout.colon = ':' :: blanks ∧ ∀ character ∈ blanks, isSpace character = true

theorem Layout.isBlank_lines : Layout.lines.IsBlank where
  line := by
    intro level character hcharacter
    rcases List.mem_cons.mp hcharacter with rfl | hblank
    · rfl
    · rw [List.eq_of_mem_replicate hblank]
      rfl
  colon := ⟨[' '], rfl, by simp [isSpace]⟩

theorem Layout.isBlank_compact : Layout.compact.IsBlank where
  line := fun _ _ hcharacter ↦ absurd hcharacter List.not_mem_nil
  colon := ⟨[], rfl, by simp⟩

theorem skipSpace_append {blanks : List Char}
    (hblanks : ∀ character ∈ blanks, isSpace character = true) (text : List Char) :
    skipSpace (blanks ++ text) = skipSpace text :=
  List.dropWhile_append_of_pos hblanks

theorem skipSpace_cons {first : Char} (hfirst : isSpace first = false) (rest : List Char) :
    skipSpace (first :: rest) = first :: rest := by
  rw [skipSpace, List.dropWhile_cons_of_neg (Bool.not_eq_true _ ▸ hfirst)]

theorem endsNumber_cons {first : Char} (hfirst : isSpace first = true ∨ first ∈ [',', ']', '\x7d'])
    (rest : List Char) : EndsNumber (first :: rest) := by
  rintro character hcharacter
  obtain rfl := Option.some.inj hcharacter
  simp only [isSpace, Bool.or_eq_true, beq_iff_eq, List.mem_cons, List.not_mem_nil, or_false]
    at hfirst
  rcases hfirst with (((rfl | rfl) | rfl) | rfl) | rfl | rfl | rfl <;> decide

theorem endsNumber_append {blanks : List Char}
    (hblanks : ∀ character ∈ blanks, isSpace character = true) {text : List Char}
    (htext : EndsNumber text) : EndsNumber (blanks ++ text) := by
  cases blanks with
  | nil => exact htext
  | cons first rest => exact endsNumber_cons (Or.inl (hblanks first List.mem_cons_self)) _

/-! ### Plain values -/

mutual

/-- All numbers in a value are integers of at most 64 bits. -/
def IsPlain : Json → Prop
  | .integer value => value.natAbs < UInt64.size
  | .decimal _ => False
  | .array items => ArePlain items
  | .object members => HasPlainMembers members
  | _ => True

/-- All numbers in the items of an array are integers of at most 64 bits. -/
def ArePlain : List Json → Prop
  | [] => True
  | item :: rest => item.IsPlain ∧ ArePlain rest

/-- All numbers in the members of an object are integers of at most 64 bits. -/
def HasPlainMembers : List (String × Json) → Prop
  | [] => True
  | (_, value) :: rest => value.IsPlain ∧ HasPlainMembers rest

end

theorem arePlain_iff (items : List Json) : ArePlain items ↔ ∀ item ∈ items, item.IsPlain := by
  induction items with
  | nil => simp [ArePlain]
  | cons item rest ih => simp [ArePlain, ih]

theorem hasPlainMembers_iff (members : List (String × Json)) :
    HasPlainMembers members ↔ ∀ member ∈ members, member.2.IsPlain := by
  induction members with
  | nil => simp [HasPlainMembers]
  | cons member rest ih => simp [HasPlainMembers, ih]

/-! ### The front of a written value -/

/-- A value starts with a character that is neither a blank nor a closing bracket. -/
theorem exists_put_eq_cons (layout : Layout) (level : Nat) {json : Json} (hplain : json.IsPlain)
    (after : List Char) :
    ∃ first rest, put layout level json after = first :: rest ∧
      isSpace first = false ∧ first ≠ ']' := by
  match json with
  | .null => exact ⟨_, _, rfl, by decide⟩
  | .boolean true => exact ⟨_, _, rfl, by decide⟩
  | .boolean false => exact ⟨_, _, rfl, by decide⟩
  | .integer value =>
    obtain ⟨first, rest, hchars, hfirst⟩ := exists_integerChars_eq_cons value
    refine ⟨first, rest ++ after, by rw [put, hchars, List.cons_append], ?_⟩
    simp only [startsOther, List.mem_cons, not_or] at hfirst
    simp [isSpace, hfirst]
  | .string value => exact ⟨_, _, rfl, by decide⟩
  | .array [] => exact ⟨_, _, rfl, by decide⟩
  | .array (item :: rest) => exact ⟨_, _, rfl, by decide⟩
  | .object [] => exact ⟨_, _, rfl, by decide⟩
  | .object ((name, value) :: rest) => exact ⟨_, _, rfl, by decide⟩

mutual

/-- What follows a written value is not touched. -/
theorem put_append (layout : Layout) (level : Nat) :
    ∀ (json : Json) (after more : List Char),
      put layout level json (after ++ more) = put layout level json after ++ more
  | .null, _, _ => rfl
  | .boolean true, _, _ => rfl
  | .boolean false, _, _ => rfl
  | .integer value, after, more => by rw [put, put, List.append_assoc]
  | .decimal spelling, after, more => by rw [put, put, List.append_assoc]
  | .string value, after, more => by simp [put, putText]
  | .array [], _, _ => rfl
  | .array (item :: rest), after, more => by
    simp [put, put_append layout (level + 1) item, putItems_append layout level rest]
  | .object [], _, _ => rfl
  | .object ((name, value) :: rest), after, more => by
    simp [put, putText, put_append layout (level + 1) value, putMembers_append layout level rest]

theorem putItems_append (layout : Layout) (level : Nat) :
    ∀ (items : List Json) (after more : List Char),
      putItems layout level items (after ++ more) = putItems layout level items after ++ more
  | [], after, more => by simp [putItems]
  | item :: rest, after, more => by
    simp [putItems, put_append layout (level + 1) item, putItems_append layout level rest]

theorem putMembers_append (layout : Layout) (level : Nat) :
    ∀ (members : List (String × Json)) (after more : List Char),
      putMembers layout level members (after ++ more) = putMembers layout level members after ++ more
  | [], after, more => by simp [putMembers]
  | (name, value) :: rest, after, more => by
    simp [putMembers, putText, put_append layout (level + 1) value,
      putMembers_append layout level rest]

end

/-- A written value takes at least one character. -/
theorem length_lt_length_put (layout : Layout) (level : Nat) {json : Json} (hplain : json.IsPlain)
    (after : List Char) : after.length < (put layout level json after).length := by
  obtain ⟨first, rest, hput, -⟩ := exists_put_eq_cons layout level hplain []
  have happend := put_append layout level json [] after
  rw [List.nil_append, hput] at happend
  rw [happend, List.length_append, List.length_cons]
  omega

theorem length_lt_length_putItems (layout : Layout) (level : Nat) (items : List Json)
    (after : List Char) : after.length < (putItems layout level items after).length := by
  have hpos : 0 < (putItems layout level items []).length := by cases items <;> simp [putItems]
  have happend := putItems_append layout level items [] after
  rw [List.nil_append] at happend
  rw [happend, List.length_append]
  omega

theorem length_lt_length_putMembers (layout : Layout) (level : Nat)
    (members : List (String × Json)) (after : List Char) :
    after.length < (putMembers layout level members after).length := by
  have hpos : 0 < (putMembers layout level members []).length := by
    rcases members with - | ⟨⟨name, value⟩, rest⟩ <;> simp [putMembers]
  have happend := putMembers_append layout level members [] after
  rw [List.nil_append] at happend
  rw [happend, List.length_append]
  omega

theorem endsNumber_putItems {layout : Layout} (hlayout : layout.IsBlank) (level : Nat)
    (items : List Json) (after : List Char) : EndsNumber (putItems layout level items after) := by
  cases items with
  | nil =>
    rw [putItems]
    exact endsNumber_append (hlayout.line level) (endsNumber_cons (Or.inr (by decide)) _)
  | cons item rest =>
    rw [putItems]
    exact endsNumber_cons (Or.inr (by decide)) _

theorem endsNumber_putMembers {layout : Layout} (hlayout : layout.IsBlank) (level : Nat)
    (members : List (String × Json)) (after : List Char) :
    EndsNumber (putMembers layout level members after) := by
  rcases members with - | ⟨⟨name, value⟩, rest⟩
  · rw [putMembers]
    exact endsNumber_append (hlayout.line level) (endsNumber_cons (Or.inr (by decide)) _)
  · rw [putMembers]
    exact endsNumber_cons (Or.inr (by decide)) _

/-- The blanks in front of a written value are skipped. -/
theorem skipSpace_append_put (layout : Layout) (level : Nat) {json : Json}
    (hplain : json.IsPlain) {blanks : List Char}
    (hblanks : ∀ character ∈ blanks, isSpace character = true) (after : List Char) :
    skipSpace (blanks ++ put layout level json after) = put layout level json after := by
  obtain ⟨first, rest, hput, hfirst, -⟩ := exists_put_eq_cons layout level hplain after
  rw [skipSpace_append hblanks, hput, skipSpace_cons hfirst]

/-! ### Values -/

theorem value?_integerChars {number : Int} (hnumber : number.natAbs < UInt64.size)
    {after : List Char} (hafter : EndsNumber after) (steps depth : Nat) :
    value? (steps + 1) depth (integerChars number ++ after) = some (.integer number, after) := by
  have hread := number?_integerChars hnumber hafter
  obtain ⟨first, rest, hchars, hfirst⟩ := exists_integerChars_eq_cons number
  simp only [startsOther, List.mem_cons, not_or] at hfirst
  rw [hchars, List.cons_append] at hread ⊢
  unfold value?
  split
  all_goals simp_all

theorem value?_bracket {steps depth : Nat} {text rest after : List Char} {first : Char}
    {items : List Json} (htext : skipSpace text = first :: rest) (hfirst : first ≠ ']')
    (hitems : items? steps depth (first :: rest) = some (items, after)) :
    value? (steps + 1) (depth + 1) ('[' :: text) = some (.array items, after) := by
  simp [value?, htext, hfirst, hitems]

theorem value?_brace {steps depth : Nat} {text rest after : List Char} {first : Char}
    {members : List (String × Json)} (htext : skipSpace text = first :: rest)
    (hfirst : first ≠ '\x7d')
    (hmembers : members? steps depth (first :: rest) = some (members, after)) :
    value? (steps + 1) (depth + 1) ('\x7b' :: text) = some (.object members, after) := by
  simp [value?, htext, hfirst, hmembers]

/-- The blanks in front of a name are skipped. -/
theorem skipSpace_append_putText {blanks : List Char}
    (hblanks : ∀ character ∈ blanks, isSpace character = true) (name : String)
    (after : List Char) : skipSpace (blanks ++ putText name after) = putText name after := by
  rw [skipSpace_append hblanks]
  exact skipSpace_cons rfl _

-- The three readers call each other with one step less, so the recursion is on the steps, whatever
-- the value. What a value leaves for its neighbours is longer than what stands behind all of them,
-- and this is what pays for the step that each of them takes.
mutual

/-- A written value is read back, and what follows it is handed on. -/
theorem value?_put {layout : Layout} (hlayout : layout.IsBlank) (steps level depth : Nat)
    {json : Json} (after : List Char) (hplain : json.IsPlain) (hheight : json.height ≤ depth)
    (hafter : EndsNumber after)
    (hsteps : (put layout level json after).length ≤ steps + after.length) :
    value? steps depth (put layout level json after) = some (json, after) := by
  match steps, depth, json with
  | 0, _, json =>
    have := length_lt_length_put layout level hplain after
    omega
  | steps + 1, _, .null => rfl
  | steps + 1, _, .boolean true => rfl
  | steps + 1, _, .boolean false => rfl
  | steps + 1, depth, .integer value => exact value?_integerChars hplain hafter steps depth
  | steps + 1, _, .string value =>
    have hquoted := quoted?_putText value after
    rw [putText] at hquoted
    rw [put, putText, value?, hquoted]
    rfl
  | steps + 1, depth + 1, .array [] => rfl
  | steps + 1, depth + 1, .array (item :: rest) =>
    rw [put, List.length_cons, List.length_append] at hsteps
    rw [height] at hheight
    have hitems := items?_put hlayout steps level depth after hplain (by omega) (by omega)
    have hskip := skipSpace_append_put layout (level + 1) hplain.1 (hlayout.line (level + 1))
      (putItems layout level rest after)
    obtain ⟨first, more, hput, -, hfirst⟩ := exists_put_eq_cons layout (level + 1) hplain.1
      (putItems layout level rest after)
    rw [hput] at hskip hitems
    rw [put, hput]
    exact value?_bracket hskip hfirst hitems
  | steps + 1, depth + 1, .object [] => rfl
  | steps + 1, depth + 1, .object ((name, value) :: rest) =>
    rw [put, List.length_cons, List.length_append] at hsteps
    rw [height] at hheight
    have hmembers := members?_put hlayout steps level depth name after hplain (by omega) (by omega)
    rw [put]
    exact value?_brace (skipSpace_append_putText (hlayout.line (level + 1)) name _) (by decide)
      hmembers
  | _ + 1, 0, .array _ =>
    rw [height] at hheight
    omega
  | _ + 1, 0, .object _ =>
    rw [height] at hheight
    omega
  termination_by structural steps

/-- The items of an array are read back up to its bracket. -/
theorem items?_put {layout : Layout} (hlayout : layout.IsBlank) (steps level depth : Nat)
    {item : Json} {rest : List Json} (after : List Char) (hplain : ArePlain (item :: rest))
    (hheight : heightItems (item :: rest) ≤ depth)
    (hsteps : (put layout (level + 1) item (putItems layout level rest after)).length ≤
      steps + after.length) :
    items? steps depth (put layout (level + 1) item (putItems layout level rest after)) =
      some (item :: rest, after) := by
  have hitem := length_lt_length_put layout (level + 1) hplain.1 (putItems layout level rest after)
  have hrest := length_lt_length_putItems layout level rest after
  rw [heightItems] at hheight
  match steps with
  | 0 => omega
  | steps + 1 =>
    have hvalue := value?_put hlayout steps (level + 1) depth (putItems layout level rest after)
      hplain.1 (by omega) (endsNumber_putItems hlayout level rest after) (by omega)
    rw [items?, hvalue]
    dsimp only
    match rest with
    | [] =>
      rw [putItems, skipSpace_append (hlayout.line level), skipSpace_cons rfl]
      rfl
    | next :: rest =>
      have hcomma : (put layout (level + 1) next (putItems layout level rest after)).length <
          (putItems layout level (next :: rest) after).length := by
        simp only [putItems, List.length_cons, List.length_append]
        omega
      have hnext := items?_put hlayout steps level depth after hplain.2 (by omega) (by omega)
      have hskip := skipSpace_append_put layout (level + 1) hplain.2.1 (hlayout.line (level + 1))
        (putItems layout level rest after)
      rw [putItems, skipSpace_cons rfl]
      simp only [hskip, hnext, Option.map_some]
  termination_by structural steps

/-- The members of an object are read back up to its brace. -/
theorem members?_put {layout : Layout} (hlayout : layout.IsBlank) (steps level depth : Nat)
    (name : String) {value : Json} {rest : List (String × Json)} (after : List Char)
    (hplain : HasPlainMembers ((name, value) :: rest))
    (hheight : heightMembers ((name, value) :: rest) ≤ depth)
    (hsteps : (putText name (layout.colon ++ put layout (level + 1) value
      (putMembers layout level rest after))).length ≤ steps + after.length) :
    members? steps depth (putText name (layout.colon ++ put layout (level + 1) value
      (putMembers layout level rest after))) = some ((name, value) :: rest, after) := by
  obtain ⟨blanks, hcolon, hblanks⟩ := hlayout.colon
  have hvalue := length_lt_length_put layout (level + 1) hplain.1
    (putMembers layout level rest after)
  have hrest := length_lt_length_putMembers layout level rest after
  rw [heightMembers] at hheight
  simp only [hcolon, putText, List.length_cons, List.length_append] at hsteps
  match steps with
  | 0 => omega
  | steps + 1 =>
    have hread := value?_put hlayout steps (level + 1) depth (putMembers layout level rest after)
      hplain.1 (by omega) (endsNumber_putMembers hlayout level rest after) (by omega)
    have hskip := skipSpace_append_put layout (level + 1) hplain.1 hblanks
      (putMembers layout level rest after)
    rw [members?, quoted?_putText, hcolon, List.cons_append]
    dsimp only
    rw [skipSpace_cons rfl]
    simp only [hskip, hread]
    match rest with
    | [] =>
      rw [putMembers, skipSpace_append (hlayout.line level), skipSpace_cons rfl]
      rfl
    | (other, next) :: rest =>
      have hcomma : (putText other (layout.colon ++ put layout (level + 1) next
          (putMembers layout level rest after))).length <
          (putMembers layout level ((other, next) :: rest) after).length := by
        simp only [putMembers, List.length_cons, List.length_append]
        omega
      have hnext := members?_put hlayout steps level depth other after hplain.2 (by omega)
        (by omega)
      rw [putMembers, skipSpace_cons rfl]
      simp only [skipSpace_append_putText (hlayout.line (level + 1)), hnext, Option.map_some]
  termination_by structural steps

end

/-! ### Texts that hold a value -/

/-- The reader of texts can take a value that is plain and has at most a given number of levels. -/
structure IsReadable (depth : Nat) (json : Json) : Prop where
  isPlain : json.IsPlain
  height_le : json.height ≤ depth

variable {depth : Nat}

theorem isReadable_string (text : String) : IsReadable (depth + 1) (.string text) :=
  ⟨trivial, Nat.succ_le_succ (Nat.zero_le _)⟩

theorem isReadable_null : IsReadable (depth + 1) .null :=
  ⟨trivial, Nat.succ_le_succ (Nat.zero_le _)⟩

theorem isReadable_ofNat {number : Nat} (hnumber : number < UInt64.size) :
    IsReadable (depth + 1) (ofNat number) :=
  ⟨hnumber, Nat.succ_le_succ (Nat.zero_le _)⟩

theorem isReadable_array {items : List Json} (hitems : ∀ item ∈ items, IsReadable depth item) :
    IsReadable (depth + 1) (.array items) where
  isPlain := (arePlain_iff items).mpr fun item hitem ↦ (hitems item hitem).isPlain
  height_le := by
    rw [height, Nat.succ_le_succ_iff]
    induction items with
    | nil => exact Nat.zero_le _
    | cons item rest ih =>
      rw [heightItems]
      exact Nat.max_le.mpr ⟨(hitems item List.mem_cons_self).height_le,
        ih fun other hother ↦ hitems other (List.mem_cons_of_mem _ hother)⟩

theorem isReadable_object {members : List (String × Json)}
    (hmembers : ∀ member ∈ members, IsReadable depth member.2) :
    IsReadable (depth + 1) (.object members) where
  isPlain := (hasPlainMembers_iff members).mpr fun member hmember ↦ (hmembers member hmember).isPlain
  height_le := by
    rw [height, Nat.succ_le_succ_iff]
    induction members with
    | nil => exact Nat.zero_le _
    | cons member rest ih =>
      rw [heightMembers]
      exact Nat.max_le.mpr ⟨(hmembers member List.mem_cons_self).height_le,
        ih fun other hother ↦ hmembers other (List.mem_cons_of_mem _ hother)⟩

theorem isReadable_ofTexts (texts : List String) : IsReadable (depth + 2) (ofTexts texts) :=
  isReadable_array (List.forall_mem_map.mpr fun text _ ↦ isReadable_string text)

theorem forall_mem_optionalMember {α : Type} (name : String) {write : α → Json}
    {found : Option α} (hwrite : ∀ item ∈ found, IsReadable depth (write item)) :
    ∀ member ∈ optionalMember name write found, IsReadable depth member.2 := by
  cases found with
  | none => exact fun _ hmem ↦ absurd hmem List.not_mem_nil
  | some item => exact List.forall_mem_singleton.mpr (hwrite item rfl)

/-- A text that holds a written value, perhaps with blanks behind it, reads as that value. -/
theorem read?_put {layout : Layout} (hlayout : layout.IsBlank) {json : Json}
    (hjson : IsReadable maxDepth json) {ending : List Char}
    (hending : ∀ character ∈ ending, isSpace character = true) :
    read? (String.ofList (put layout 0 json ending)) = some json := by
  have hskip := skipSpace_append_put layout 0 hjson.isPlain
    (fun _ hmem ↦ absurd hmem List.not_mem_nil) ending
  have hends : EndsNumber ending := by
    rw [← List.append_nil ending]
    exact endsNumber_append hending (fun _ hmem ↦ by cases hmem)
  have hvalue := value?_put hlayout (2 * (put layout 0 json ending).length + 2) 0 maxDepth ending
    hjson.isPlain hjson.height_le hends (by omega)
  rw [List.nil_append] at hskip
  have hempty : skipSpace ending = [] := by
    rw [← List.append_nil ending, skipSpace_append hending]
    rfl
  simp only [read?, String.toList_ofList, hskip, hvalue, hempty, List.isEmpty_nil, if_true]

theorem read?_pretty {json : Json} (hjson : IsReadable maxDepth json) :
    read? json.pretty = some json :=
  read?_put Layout.isBlank_lines hjson (fun _ hmem ↦ absurd hmem List.not_mem_nil)

theorem read?_compact {json : Json} (hjson : IsReadable maxDepth json) :
    read? json.compact = some json :=
  read?_put Layout.isBlank_compact hjson (fun _ hmem ↦ absurd hmem List.not_mem_nil)

end CodeTrail.Json
