import CodeTrail.Proofs.Hex.RoundTrip
import Mathlib.Data.List.DropRight
import Mathlib.Data.List.Forall2
import Mathlib.Data.List.TakeWhile

/-!
# The two readers of code

One reader takes the bytes a text of digits starts with and never fails, the other takes all of the
text or complains. Both are settled by `digitRun`, the number of digits before the first byte that is
none: the first reader returns half as many bytes (`length_leadingBytes`), and the second looks at
what stands behind that run, if the text has an even length (`bytes_eq`). So the second reader
succeeds exactly when the first one has taken everything (`bytes_eq_ok_iff`).

`Recased` relates texts that differ in the case of digits only. Trimming, unmarking and encoding
respect it (`recased_body`), and neither reader sees the difference (`leadingBytes_congr`,
`bytes_congr`). Trimming does not see blanks around a text either (`trim_append_blanks`), and it keeps
a mark in front of a trimmed text (`trim_append_trim`).
-/

set_option autoImplicit false
set_option relaxedAutoImplicit false

namespace CodeTrail

namespace Hex

/-! ### The run of digits -/

/-- How many bytes of a text are digits before the first one that is none. -/
def digitRun (text : List UInt8) : Nat :=
  (text.takeWhile fun byte ↦ (byteDigit? byte).isSome).length

theorem digitRun_cons_of_some {byte : UInt8} {value : Fin 16} (hbyte : byteDigit? byte = some value)
    (rest : List UInt8) : digitRun (byte :: rest) = digitRun rest + 1 := by
  rw [digitRun, List.takeWhile_cons_of_pos (by rw [hbyte, Option.isSome_some]), List.length_cons,
    digitRun]

theorem digitRun_cons_of_none {byte : UInt8} (hbyte : byteDigit? byte = none) (rest : List UInt8) :
    digitRun (byte :: rest) = 0 := by
  rw [digitRun, List.takeWhile_cons_of_neg (by simp [hbyte]), List.length_nil]

theorem digitRun_le_length (text : List UInt8) : digitRun text ≤ text.length :=
  (List.takeWhile_prefix _).length_le

theorem digitRun_eq_length_iff {text : List UInt8} :
    digitRun text = text.length ↔ ∀ byte ∈ text, (byteDigit? byte).isSome = true := by
  constructor
  · intro hlength byte hbyte
    rw [← (List.takeWhile_prefix _).eq_of_length hlength] at hbyte
    have hdigit := List.mem_takeWhile_imp hbyte
    exact hdigit
  · intro hall
    rw [digitRun, List.takeWhile_eq_self_iff.mpr hall]

/-- The reader that never fails takes a byte from every two digits of the run. -/
theorem length_leadingBytes (text : List UInt8) :
    (leadingBytes text).length = digitRun text / 2 := by
  fun_induction leadingBytes text with
  | case1 high low rest _ _ hlow hhigh ih =>
    rw [List.length_cons, ih, digitRun_cons_of_some hhigh, digitRun_cons_of_some hlow]
    omega
  | case2 high low rest hstray =>
    cases hhigh : byteDigit? high with
    | none => rw [digitRun_cons_of_none hhigh]; rfl
    | some first =>
      cases hlow : byteDigit? low with
      | none =>
        rw [digitRun_cons_of_some hhigh, digitRun_cons_of_none hlow]
        rfl
      | some second => exact (hstray first second hhigh hlow).elim
  | case3 text hshort =>
    have hone : text.length ≤ 1 := by
      rcases text with _ | ⟨high, _ | ⟨low, rest⟩⟩
      · exact Nat.zero_le 1
      · exact Nat.le_refl 1
      · exact (hshort high low rest rfl).elim
    have hrun := digitRun_le_length text
    rw [List.length_nil, Nat.div_eq_of_lt (by omega)]

/-- The reader that takes everything looks at what stands behind the run. -/
theorem pairsFrom_eq {text : List UInt8} (heven : text.length % 2 = 0) (position : Nat) :
    pairsFrom position text =
      match text[digitRun text]? with
      | none => .ok (leadingBytes text)
      | some stray => .error (.invalidDigit stray (position + digitRun text)) := by
  fun_induction pairsFrom position text with
  | case1 position high low rest ih =>
    have hrest : rest.length % 2 = 0 := by
      rw [List.length_cons, List.length_cons] at heven
      omega
    cases hhigh : byteDigit? high with
    | none =>
      rw [digitAt, hhigh, digitRun_cons_of_none hhigh]
      rfl
    | some first =>
      cases hlow : byteDigit? low with
      | none =>
        rw [digitAt, hhigh, digitAt, hlow, digitRun_cons_of_some hhigh, digitRun_cons_of_none hlow]
        rfl
      | some second =>
        rw [ih hrest, digitAt, hhigh, digitAt, hlow, digitRun_cons_of_some hhigh,
          digitRun_cons_of_some hlow, List.getElem?_cons_succ, List.getElem?_cons_succ, leadingBytes,
          hhigh, hlow]
        cases rest[digitRun rest]? with
        | none => rfl
        | some stray =>
          have hplace : position + 2 + digitRun rest = position + (digitRun rest + 1 + 1) := by
            omega
          rw [hplace]
          rfl
  | case2 text position hshort =>
    rcases text with _ | ⟨high, _ | ⟨low, rest⟩⟩
    · rfl
    · cases heven
    · exact (hshort high low rest rfl).elim

/-- What the reader that takes everything says about any text. -/
theorem bytes_eq (text : List UInt8) :
    bytes text =
      if text.length % 2 = 1 then .error .oddLength
      else match text[digitRun text]? with
        | none => .ok (leadingBytes text)
        | some stray => .error (.invalidDigit stray (digitRun text)) := by
  rw [bytes]
  split_ifs with hodd
  · rfl
  · rw [pairsFrom_eq (by omega) 0, Nat.zero_add]

/-- Everything is taken exactly if the reader that never fails takes a byte from every two. -/
theorem bytes_eq_ok_iff {text octets : List UInt8} :
    bytes text = .ok octets ↔
      (text.length % 2 = 0 ∧ (leadingBytes text).length = text.length / 2) ∧
        octets = leadingBytes text := by
  have hrun := digitRun_le_length text
  rw [bytes_eq, length_leadingBytes]
  split_ifs with hodd
  · exact ⟨nofun, fun ⟨⟨heven, _⟩, _⟩ ↦ by omega⟩
  · cases hstray : text[digitRun text]? with
    | none =>
      have hend := List.getElem?_eq_none_iff.mp hstray
      constructor
      · intro hoctets
        cases hoctets
        exact ⟨⟨by omega, by omega⟩, rfl⟩
      · rintro ⟨-, rfl⟩
        rfl
    | some stray =>
      obtain ⟨hinside, -⟩ := List.getElem?_eq_some_iff.mp hstray
      exact ⟨nofun, fun ⟨⟨heven, hlength⟩, _⟩ ↦ by omega⟩

/-- A complaint about a byte is about the first one that is no digit. -/
theorem bytes_eq_invalidDigit_iff {text : List UInt8} {stray : UInt8} {place : Nat} :
    bytes text = .error (.invalidDigit stray place) ↔
      text.length % 2 = 0 ∧ place = digitRun text ∧ text[place]? = some stray := by
  rw [bytes_eq]
  split_ifs with hodd
  · exact ⟨nofun, fun ⟨heven, _⟩ ↦ by omega⟩
  · cases hstray : text[digitRun text]? with
    | none =>
      refine ⟨nofun, ?_⟩
      rintro ⟨-, rfl, hsome⟩
      rw [hstray] at hsome
      cases hsome
    | some other =>
      constructor
      · intro herror
        cases herror
        exact ⟨by omega, rfl, hstray⟩
      · rintro ⟨-, rfl, hsome⟩
        rw [hstray] at hsome
        cases hsome
        rfl

theorem bytes_eq_oddLength_iff {text : List UInt8} :
    bytes text = .error .oddLength ↔ text.length % 2 = 1 := by
  rw [bytes_eq]
  split_ifs with hodd
  · exact ⟨fun _ ↦ hodd, fun _ ↦ rfl⟩
  · refine ⟨fun herror ↦ ?_, fun hlength ↦ absurd hlength hodd⟩
    cases hstray : text[digitRun text]? with
    | none => rw [hstray] at herror; cases herror
    | some stray => rw [hstray] at herror; cases herror

/-! ### The case of digits -/

/-- The same, or two spellings of one digit. -/
def Recased {α : Type} (read : α → Option (Fin 16)) (first second : α) : Prop :=
  first = second ∨ ∃ value, read first = some value ∧ read second = some value

theorem Recased.read_eq {α : Type} {read : α → Option (Fin 16)} {first second : α}
    (hcase : Recased read first second) : read first = read second := by
  rcases hcase with rfl | ⟨value, hfirst, hsecond⟩
  · rfl
  · rw [hfirst, hsecond]

/-- A property that no digit has does not depend on case. -/
theorem Recased.iff_of_not_digit {α : Type} {read : α → Option (Fin 16)} {first second : α}
    (hcase : Recased read first second) (property : α → Prop)
    (hnone : ∀ element, property element → read element = none) :
    property first ↔ property second := by
  rcases hcase with rfl | ⟨value, hfirst, hsecond⟩
  · rfl
  · constructor
    · intro hproperty
      rw [hnone first hproperty] at hfirst
      cases hfirst
    · intro hproperty
      rw [hnone second hproperty] at hsecond
      cases hsecond

theorem Recased.digitAt_eq {first second : UInt8} (hcase : Recased byteDigit? first second)
    (position : Nat) : digitAt position first = digitAt position second := by
  rcases hcase with rfl | ⟨value, hfirst, hsecond⟩
  · rfl
  · rw [digitAt, digitAt, hfirst, hsecond]

theorem leadingBytes_congr {first second : List UInt8}
    (hcase : List.Forall₂ (Recased byteDigit?) first second) :
    leadingBytes first = leadingBytes second := by
  fun_induction leadingBytes first generalizing second with
  | case1 high low rest _ _ hlow hhigh ih =>
    obtain ⟨high', tail, hfirst, htail, rfl⟩ := List.forall₂_cons_left_iff.mp hcase
    obtain ⟨low', rest', hsecond, hrest, rfl⟩ := List.forall₂_cons_left_iff.mp htail
    rw [leadingBytes, ← hfirst.read_eq, hhigh, ← hsecond.read_eq, hlow, ih hrest]
  | case2 high low rest hstray =>
    obtain ⟨high', tail, hfirst, htail, rfl⟩ := List.forall₂_cons_left_iff.mp hcase
    obtain ⟨low', rest', hsecond, hrest, rfl⟩ := List.forall₂_cons_left_iff.mp htail
    rw [leadingBytes, ← hfirst.read_eq, ← hsecond.read_eq]
    split
    · exact (hstray _ _ ‹_› ‹_›).elim
    · rfl
  | case3 text hshort =>
    rcases hcase with _ | ⟨_, _ | ⟨_, _⟩⟩
    · rfl
    · rfl
    · exact (hshort _ _ _ rfl).elim

theorem pairsFrom_congr {first second : List UInt8}
    (hcase : List.Forall₂ (Recased byteDigit?) first second) (position : Nat) :
    pairsFrom position first = pairsFrom position second := by
  fun_induction pairsFrom position first generalizing second with
  | case1 position high low rest ih =>
    obtain ⟨high', tail, hfirst, htail, rfl⟩ := List.forall₂_cons_left_iff.mp hcase
    obtain ⟨low', rest', hsecond, hrest, rfl⟩ := List.forall₂_cons_left_iff.mp htail
    rw [pairsFrom, ← hfirst.digitAt_eq, ← hsecond.digitAt_eq, ih hrest]
  | case2 text position hshort =>
    rcases hcase with _ | ⟨_, _ | ⟨_, _⟩⟩
    · rfl
    · rfl
    · exact (hshort _ _ _ rfl).elim

theorem bytes_congr {first second : List UInt8}
    (hcase : List.Forall₂ (Recased byteDigit?) first second) : bytes first = bytes second := by
  rw [bytes, bytes, hcase.length_eq, pairsFrom_congr hcase]

/-- A blank is no digit. -/
theorem digit?_of_isBlank {character : Char} (hblank : Text.isBlank character = true) :
    digit? character = none := by
  cases hdigit : digit? character with
  | none => rfl
  | some value =>
    rcases eq_digitChar_of_digit? hdigit with rfl | rfl <;> clear hdigit <;> revert value <;> decide

theorem recased_dropWhile {first second : List Char}
    (hcase : List.Forall₂ (Recased digit?) first second) :
    List.Forall₂ (Recased digit?) (first.dropWhile Text.isBlank)
      (second.dropWhile Text.isBlank) := by
  induction hcase with
  | nil => exact .nil
  | @cons character other rest others hcharacter hrest ih =>
    have hblank := hcharacter.iff_of_not_digit (Text.isBlank · = true) fun _ ↦ digit?_of_isBlank
    by_cases hfirst : Text.isBlank character = true
    · rw [List.dropWhile_cons_of_pos hfirst, List.dropWhile_cons_of_pos (hblank.mp hfirst)]
      exact ih
    · rw [List.dropWhile_cons_of_neg hfirst, List.dropWhile_cons_of_neg (mt hblank.mpr hfirst)]
      exact .cons hcharacter hrest

theorem recased_trim {first second : List Char}
    (hcase : List.Forall₂ (Recased digit?) first second) :
    List.Forall₂ (Recased digit?) (Text.trim first) (Text.trim second) := by
  have hfront := List.forall₂_reverse_iff.mpr (recased_dropWhile hcase)
  exact List.forall₂_reverse_iff.mpr (recased_dropWhile hfront)

theorem dropMark_cons_cons (first second : Char) (rest : List Char) :
    dropMark (first :: second :: rest) =
      if first = '0' ∧ (second = 'x' ∨ second = 'X') then rest else first :: second :: rest := by
  split_ifs with hmark
  · obtain ⟨rfl, rfl | rfl⟩ := hmark <;> rfl
  · rw [dropMark]
    · rintro _ ⟨⟩
      exact hmark ⟨rfl, .inl rfl⟩
    · rintro _ ⟨⟩
      exact hmark ⟨rfl, .inr rfl⟩

/-- No other digit than zero stands at the front of a mark. -/
theorem Recased.eq_zero_iff {first second : Char} (hcase : Recased digit? first second) :
    first = '0' ↔ second = '0' := by
  have hzero (character : Char) (value : Fin 16) (hdigit : digit? character = some value) :
      character = '0' ↔ value = 0 := by
    rcases eq_digitChar_of_digit? hdigit with rfl | rfl <;> clear hdigit <;> revert value <;> decide
  rcases hcase with rfl | ⟨value, hfirst, hsecond⟩
  · rfl
  · rw [hzero first value hfirst, hzero second value hsecond]

theorem recased_dropMark {first second : List Char}
    (hcase : List.Forall₂ (Recased digit?) first second) :
    List.Forall₂ (Recased digit?) (dropMark first) (dropMark second) := by
  match hcase with
  | .nil => exact .nil
  | .cons hcharacter .nil =>
    have hsingle (only : Char) : dropMark [only] = [only] := by simp [dropMark]
    rw [hsingle, hsingle]
    exact .cons hcharacter .nil
  | .cons hzero (.cons hletter hrest) =>
    have hmark := and_congr hzero.eq_zero_iff
      (hletter.iff_of_not_digit (fun letter ↦ letter = 'x' ∨ letter = 'X') (by
        rintro letter (rfl | rfl) <;> rfl))
    rw [dropMark_cons_cons, dropMark_cons_cons]
    split_ifs with hfirst hsecond hsecond
    · exact hrest
    · exact (hsecond (hmark.mp hfirst)).elim
    · exact (hfirst (hmark.mpr hsecond)).elim
    · exact .cons hzero (.cons hletter hrest)

theorem utf8EncodeChar_of_digit? {character : Char} {value : Fin 16}
    (hdigit : digit? character = some value) :
    String.utf8EncodeChar character = [UInt8.ofNat character.toNat] ∧
      byteDigit? (UInt8.ofNat character.toNat) = some value := by
  rcases eq_digitChar_of_digit? hdigit with rfl | rfl <;> clear hdigit <;> revert value <;> decide

theorem recased_utf8 {first second : List Char}
    (hcase : List.Forall₂ (Recased digit?) first second) :
    List.Forall₂ (Recased byteDigit?) (utf8 first) (utf8 second) := by
  refine List.rel_flatMap hcase fun character other hcharacter ↦ ?_
  rcases hcharacter with rfl | ⟨value, hfirst, hsecond⟩
  · exact List.forall₂_same.mpr fun byte _ ↦ .inl rfl
  · obtain ⟨hbyte, hvalue⟩ := utf8EncodeChar_of_digit? hfirst
    obtain ⟨hother, hsame⟩ := utf8EncodeChar_of_digit? hsecond
    rw [hbyte, hother]
    exact .cons (.inr ⟨value, hvalue, hsame⟩) .nil

/-- Texts that differ in the case of digits only hold bytes that do so. -/
theorem recased_body {first second : String}
    (hcase : List.Forall₂ (Recased digit?) first.toList second.toList) :
    List.Forall₂ (Recased byteDigit?) (body first) (body second) :=
  recased_utf8 (recased_dropMark (recased_trim hcase))

end Hex

/-! ### Blanks and marks around a text -/

namespace Text

/-- Blanks at the ends of a text are not seen behind trimming. -/
theorem trim_append_blanks {front back : List Char}
    (hfront : ∀ character ∈ front, isBlank character = true)
    (hback : ∀ character ∈ back, isBlank character = true) (text : List Char) :
    trim (front ++ text ++ back) = trim text := by
  have hreverse : ∀ character ∈ back.reverse, isBlank character = true := fun character hmem ↦
    hback character (List.mem_reverse.mp hmem)
  rw [trim, trim, List.append_assoc, List.dropWhile_append_of_pos hfront, List.dropWhile_append]
  split_ifs with hblank
  · rw [List.isEmpty_iff.mp hblank, List.dropWhile_eq_nil_iff.mpr hback]
  · rw [List.reverse_append, List.dropWhile_append_of_pos hreverse]

/-- Behind characters that are not blank, a trimmed text stays as it is. -/
theorem trim_append_trim {front : List Char} (hsome : front ≠ [])
    (hfront : ∀ character ∈ front, isBlank character = false) (text : List Char) :
    trim (front ++ trim text) = front ++ trim text := by
  have hdrop : (front ++ trim text).dropWhile isBlank = front ++ trim text := by
    rw [List.dropWhile_append, dropWhile_isBlank_eq_self hfront, if_neg (by rwa [List.isEmpty_iff])]
  have hback : (trim text).reverse.dropWhile isBlank = (trim text).reverse := by
    rw [trim, List.reverse_reverse, List.dropWhile_idempotent]
  have hreverse : front.reverse.dropWhile isBlank = front.reverse :=
    dropWhile_isBlank_eq_self fun character hmem ↦ hfront character (List.mem_reverse.mp hmem)
  rw [trim, hdrop, List.reverse_append, List.dropWhile_append, hback, hreverse]
  split_ifs with hempty
  · rw [List.reverse_reverse, List.reverse_eq_nil_iff.mp (List.isEmpty_iff.mp hempty),
      List.append_nil]
  · rw [List.reverse_append, List.reverse_reverse, List.reverse_reverse]

end Text

end CodeTrail
