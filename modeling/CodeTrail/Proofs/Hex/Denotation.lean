import CodeTrail.Proofs.Hex.Readers
import CodeTrail.Proofs.Hex.Word

/-!
# Which bytes a text of code denotes

`Denotes` says without any reader that a text denotes bytes: between its blanks and behind at most one
mark stand the two digits of each byte, in any case. The reader that takes everything accepts these
texts and returns the bytes (`denotes_iff`). For the way back the bytes of the text have to be told
apart by characters: only digits are encoded by bytes that read as digits, because any character beyond
ASCII brings a byte that does not (`isSome_digit?_of_utf8`).

Of the other texts, `body_eq_nil_iff` says which ones hold nothing at all, and `firstStray_iff` where
the first byte stands that is no digit.
-/

set_option autoImplicit false
set_option relaxedAutoImplicit false

namespace CodeTrail.Hex

/-! ### Texts without code -/

theorem utf8_eq_nil_iff {text : List Char} : utf8 text = [] ↔ text = [] := by
  rw [utf8, List.flatMap_eq_nil_iff]
  constructor
  · intro hbytes
    refine List.eq_nil_iff_forall_not_mem.mpr fun character hcharacter ↦ ?_
    exact String.utf8EncodeChar_ne_nil (hbytes character hcharacter)
  · rintro rfl
    exact List.forall_mem_nil _

theorem dropMark_eq_nil_iff {text : List Char} :
    dropMark text = [] ↔ text = [] ∨ text = ['0', 'x'] ∨ text = ['0', 'X'] := by
  rcases text with _ | ⟨first, _ | ⟨second, rest⟩⟩
  · simp [dropMark]
  · simp [dropMark]
  · rw [dropMark_cons_cons]
    split_ifs with hmark
    · obtain ⟨rfl, rfl | rfl⟩ := hmark <;> simp
    · simp only [List.cons.injEq, false_or, false_iff]
      rintro (⟨rfl, rfl, -⟩ | ⟨rfl, rfl, -⟩)
      · exact hmark ⟨rfl, .inl rfl⟩
      · exact hmark ⟨rfl, .inr rfl⟩

/-- A text holds nothing exactly if it is blank but for a mark. -/
theorem body_eq_nil_iff {text : String} :
    body text = [] ↔ Text.trim text.toList = [] ∨ Text.trim text.toList = ['0', 'x'] ∨
      Text.trim text.toList = ['0', 'X'] := by
  rw [body, utf8_eq_nil_iff, dropMark_eq_nil_iff]

/-! ### The first stray byte -/

/-- A byte at a place of a text is no digit, and all bytes before it are digits. -/
structure FirstStray (text : List UInt8) (stray : UInt8) (place : Nat) : Prop where
  getElem? : text[place]? = some stray
  stray : byteDigit? stray = none
  digits_before : ∀ byte ∈ text.take place, (byteDigit? byte).isSome = true

theorem firstStray_iff {text : List UInt8} {stray : UInt8} {place : Nat} :
    FirstStray text stray place ↔ place = digitRun text ∧ text[place]? = some stray := by
  constructor
  · rintro ⟨hget, hstray, hbefore⟩
    obtain ⟨hplace, hbyte⟩ := List.getElem?_eq_some_iff.mp hget
    have hsplit : text = text.take place ++ stray :: text.drop (place + 1) := by
      rw [← hbyte, ← List.drop_eq_getElem_cons, List.take_append_drop]
    refine ⟨?_, hget⟩
    rw [hsplit, digitRun, List.takeWhile_append_of_pos hbefore,
      List.takeWhile_cons_of_neg (by simp [hstray]), List.append_nil, List.length_take_of_le hplace.le]
  · rintro ⟨rfl, hget⟩
    let isDigitByte (byte : UInt8) : Bool := (byteDigit? byte).isSome
    have hsplit := List.takeWhile_append_dropWhile (p := isDigitByte) (l := text)
    refine ⟨hget, ?_, fun byte hbyte ↦ ?_⟩
    · -- The byte behind the run is the first one that the run leaves.
      have hhead := List.head?_dropWhile_not isDigitByte text
      rw [digitRun, ← hsplit, List.getElem?_append_right (by rw [hsplit]), hsplit, Nat.sub_self,
        ← List.head?_eq_getElem?] at hget
      rw [hget] at hhead
      simpa [isDigitByte] using hhead
    · rw [digitRun, ← List.prefix_iff_eq_take.mp (List.takeWhile_prefix _)] at hbyte
      exact List.mem_takeWhile_imp (p := isDigitByte) hbyte

/-! ### Characters and their bytes -/

theorem utf8EncodeChar_of_le {character : Char} (hascii : character.toNat ≤ 127) :
    String.utf8EncodeChar character = [UInt8.ofNat character.toNat] :=
  if_pos hascii

theorem byteDigit?_ofNat_toNat {character : Char} (hascii : character.toNat ≤ 127) :
    byteDigit? (UInt8.ofNat character.toNat) = digit? character := by
  have hbyte : (UInt8.ofNat character.toNat).toNat = character.toNat :=
    UInt8.toNat_ofNat_of_lt' (by simp only [UInt8.size]; omega)
  have hsame : Char.ofUInt8 (UInt8.ofNat character.toNat) = character :=
    Char.toNat_inj.mp ((UInt8.toNat_toUInt32 _).trans hbyte)
  rw [byteDigit?, hsame]

theorem byteDigit?_eq_none {byte : UInt8} (hlarge : 128 ≤ byte.toNat) : byteDigit? byte = none := by
  have hcode : (Char.ofUInt8 byte).toNat = byte.toNat := UInt8.toNat_toUInt32 byte
  unfold byteDigit? digit?
  dsimp only
  rw [hcode, if_neg (by omega), if_neg (by omega), if_neg (by omega)]

/-- A character beyond ASCII starts with a byte beyond ASCII. -/
theorem exists_large_byte {character : Char} (hlarge : 127 < character.toNat) :
    ∃ byte ∈ String.utf8EncodeChar character, 128 ≤ byte.toNat := by
  have hval : character.val.toNat = character.toNat := rfl
  unfold String.utf8EncodeChar
  dsimp only
  rw [hval, if_neg (Nat.not_le.mpr hlarge)]
  split_ifs
  all_goals
    refine ⟨_, List.mem_cons_self, ?_⟩
    rw [UInt8.toNat_ofNat']
    omega

/-- Only digits are encoded by bytes that read as digits. -/
theorem isSome_digit?_of_utf8 {character : Char}
    (hbytes : ∀ byte ∈ String.utf8EncodeChar character, (byteDigit? byte).isSome = true) :
    (digit? character).isSome = true := by
  by_cases hascii : character.toNat ≤ 127
  · rw [utf8EncodeChar_of_le hascii, List.forall_mem_singleton, byteDigit?_ofNat_toNat hascii] at hbytes
    exact hbytes
  · obtain ⟨byte, hbyte, hlarge⟩ := exists_large_byte (Nat.lt_of_not_le hascii)
    have hdigit := hbytes byte hbyte
    rw [byteDigit?_eq_none hlarge] at hdigit
    cases hdigit

/-! ### Texts that denote bytes -/

/-- A text denotes bytes: between its blanks and behind its mark stand the digits of each. -/
def Denotes (text : String) (octets : List UInt8) : Prop :=
  List.Forall₂ (Recased digit?) (dropMark (Text.trim text.toList)) (write octets)

/-- A text that reads as digits is the lowercase text of its values in another case. -/
theorem forall₂_recased_of_digits? {text : List Char} {values : List (Fin 16)}
    (htext : digits? text = some values) :
    List.Forall₂ (Recased digit?) text (values.map digitChar) := by
  induction text generalizing values with
  | nil =>
    cases htext
    exact .nil
  | cons first rest ih =>
    rw [digits?_cons] at htext
    obtain ⟨value, hvalue, hrest⟩ := Option.bind_eq_some_iff.mp htext
    obtain ⟨others, hothers, rfl⟩ := Option.map_eq_some_iff.mp hrest
    exact .cons (.inr ⟨value, hvalue, digit?_digitChar value⟩) (ih hothers)

theorem bytes_body_of_denotes {text : String} {octets : List UInt8} (hdenotes : Denotes text octets) :
    bytes (body text) = .ok octets := by
  have hbody := recased_utf8 hdenotes
  rw [write_eq_map_digitChar, utf8_map_digitChar] at hbody
  have heven : ((digits octets).map digitByte).length % 2 ≠ 1 := by
    rw [List.length_map, length_digits]
    omega
  rw [body, bytes_congr hbody, bytes, if_neg heven, pairsFrom_digits]

/-- An even number of digits, and nothing else, denotes the bytes of the pairs. -/
theorem denotes_pairUp {text : String} {values : List (Fin 16)}
    (hvalues : digits? (dropMark (Text.trim text.toList)) = some values)
    (heven : values.length % 2 = 0) : Denotes text (Octets.pairUp values) := by
  rw [Denotes, write_eq_map_digitChar, Octets.digits_pairUp heven]
  exact forall₂_recased_of_digits? hvalues

/-- The reader of code accepts the texts that denote bytes and returns these. -/
theorem denotes_iff {text : String} {octets : List UInt8} :
    Denotes text octets ↔ bytes (body text) = .ok octets := by
  refine ⟨bytes_body_of_denotes, fun hoctets ↦ ?_⟩
  obtain ⟨⟨heven, hlength⟩, -⟩ := bytes_eq_ok_iff.mp hoctets
  have hrun : digitRun (body text) = (body text).length := by
    have hle := digitRun_le_length (body text)
    rw [length_leadingBytes] at hlength
    omega
  have hbytes := digitRun_eq_length_iff.mp hrun
  have hdigits : (dropMark (Text.trim text.toList)).all isDigit = true := by
    refine List.all_eq_true.mpr fun character hcharacter ↦ isSome_digit?_of_utf8 fun byte hbyte ↦ ?_
    exact hbytes byte (List.mem_flatMap.mpr ⟨character, hcharacter, hbyte⟩)
  rw [← isSome_digits?] at hdigits
  obtain ⟨values, hvalues⟩ := Option.isSome_iff_exists.mp hdigits
  have hcount : (body text).length = values.length := by
    have hbody := (recased_utf8 (forall₂_recased_of_digits? hvalues)).length_eq
    rwa [utf8_map_digitChar, List.length_map] at hbody
  have hdenotes := denotes_pairUp hvalues (by omega)
  rw [bytes_body_of_denotes hdenotes, Except.ok.injEq] at hoctets
  rwa [hoctets] at hdenotes

theorem Denotes.body_eq_nil_iff {text : String} {octets : List UInt8} (hdenotes : Denotes text octets) :
    body text = [] ↔ octets = [] := by
  have hlength := (recased_utf8 hdenotes).length_eq
  rw [write_eq_map_digitChar, utf8_map_digitChar, List.length_map, length_digits] at hlength
  rw [← List.length_eq_zero_iff, ← List.length_eq_zero_iff, body, hlength]
  omega

end CodeTrail.Hex
