import CodeTrail.Code.Fingerprint
import CodeTrail.Program.Text
import CodeTrail.Proofs.Hex.Readers
import Mathlib.Logic.Relation

/-!
# The code that is hashed is the code that is listed

A contract is fingerprinted from one reading of its code and listed from another. `ReadersAgree` says
how they go together on one text: a hash is always that of the listed bytes, and where there is none
the listing ends just before the pair of digits that is at fault. `Respelled` is one change to the way
code is written that changes nothing about the code: blanks around it, the case of a digit, a mark in
front of digits that have none. `hash_of_listed_code` puts both together: the readers agree on every
text, and no sequence of such changes, made or undone, is seen by either of them.
-/

set_option autoImplicit false
set_option relaxedAutoImplicit false

namespace CodeTrail.Code

open Hex (Recased byteDigit? digit? dropMark)

/-! ### One text, two readers -/

theorem hash_eq_ok_iff {text : String} {digest : Digest} :
    hash text = .ok digest ↔
      ∃ octets, Hex.bytes (Hex.body text) = .ok octets ∧ digest = Keccak.keccak256 octets := by
  rw [hash]
  cases Hex.bytes (Hex.body text) with
  | error error => exact ⟨nofun, fun ⟨_, hoctets, _⟩ ↦ nomatch hoctets⟩
  | ok octets =>
    constructor
    · rintro ⟨⟩
      exact ⟨octets, rfl, rfl⟩
    · rintro ⟨_, ⟨⟩, rfl⟩
      rfl

theorem hash_eq_error_iff {text : String} {error : Hex.Error} :
    hash text = .error error ↔ Hex.bytes (Hex.body text) = .error error := by
  rw [hash]
  cases Hex.bytes (Hex.body text) with
  | error other =>
    constructor <;>
    · rintro ⟨⟩
      rfl
  | ok octets => exact ⟨nofun, nofun⟩

/-- How the hash of a text of code and the bytes that are listed for it go together. -/
structure ReadersAgree (text : String) : Prop where
  /-- There is a hash exactly if the text is listed to its end, and it is that of the listed bytes. -/
  hash_ok_iff (digest : Digest) :
    hash text = .ok digest ↔
      ((Hex.body text).length % 2 = 0 ∧ (Hex.code text).length = (Hex.body text).length / 2) ∧
        digest = Keccak.keccak256 (Hex.code text)
  /-- The listed bytes end before the pair that holds the stray character. -/
  invalidDigit {stray : UInt8} {place : Nat} :
    hash text = .error (.invalidDigit stray place) → (Hex.code text).length = place / 2
  oddLength : hash text = .error .oddLength → (Hex.body text).length % 2 = 1
  /-- Only the digit without a partner is not listed. -/
  oddLength_of_digits : hash text = .error .oddLength →
    (∀ byte ∈ Hex.body text, (byteDigit? byte).isSome = true) →
      (Hex.code text).length = ((Hex.body text).length - 1) / 2

theorem readersAgree (text : String) : ReadersAgree text where
  hash_ok_iff digest := by
    rw [hash_eq_ok_iff, Hex.code]
    constructor
    · rintro ⟨octets, hoctets, rfl⟩
      obtain ⟨hwhole, rfl⟩ := Hex.bytes_eq_ok_iff.mp hoctets
      exact ⟨hwhole, rfl⟩
    · rintro ⟨hwhole, rfl⟩
      exact ⟨_, Hex.bytes_eq_ok_iff.mpr ⟨hwhole, rfl⟩, rfl⟩
  invalidDigit herror := by
    obtain ⟨-, rfl, -⟩ := Hex.bytes_eq_invalidDigit_iff.mp (hash_eq_error_iff.mp herror)
    exact Hex.length_leadingBytes _
  oddLength herror := Hex.bytes_eq_oddLength_iff.mp (hash_eq_error_iff.mp herror)
  oddLength_of_digits herror hdigits := by
    have hodd := Hex.bytes_eq_oddLength_iff.mp (hash_eq_error_iff.mp herror)
    rw [Hex.code, Hex.length_leadingBytes, Hex.digitRun_eq_length_iff.mpr hdigits]
    omega

/-! ### Two spellings, one code -/

/-- One change to the way code is written. -/
inductive Respelled : String → String → Prop
  /-- Blanks around it. -/
  | blanks {text other : String} (front back : List Char)
      (hfront : ∀ character ∈ front, Text.isBlank character = true)
      (hback : ∀ character ∈ back, Text.isBlank character = true)
      (hother : other.toList = front ++ text.toList ++ back) : Respelled text other
  /-- Digits in another case. -/
  | case {text other : String} (hcase : List.Forall₂ (Recased digit?) text.toList other.toList) :
      Respelled text other
  /-- A mark in front of what has none. -/
  | mark {text other : String} (letter : Char) (hletter : letter = 'x' ∨ letter = 'X')
      (hunmarked : dropMark (Text.trim text.toList) = Text.trim text.toList)
      (hother : other.toList = ['0', letter] ++ Text.trim text.toList) : Respelled text other

/-- The same hash, or the same reason that there is none, and the same listing. -/
structure ReadAlike (first second : String) : Prop where
  hash : hash first = hash second
  program : Program.decode first = Program.decode second
  listing : disassemble first = disassemble second

theorem readAlike_of_eq {first second : String}
    (hbytes : Hex.bytes (Hex.body first) = Hex.bytes (Hex.body second))
    (hcode : Hex.leadingBytes (Hex.body first) = Hex.leadingBytes (Hex.body second)) :
    ReadAlike first second := by
  have hprogram : Program.decode first = Program.decode second := by
    rw [Program.decode, hcode, Program.decode]
  refine ⟨?_, hprogram, ?_⟩
  · rw [hash, hbytes, hash]
  · rw [disassemble, hprogram, disassemble]

theorem readAlike_of_body_eq {first second : String} (hbody : Hex.body first = Hex.body second) :
    ReadAlike first second :=
  readAlike_of_eq (by rw [hbody]) (by rw [hbody])

theorem Respelled.readAlike {text other : String} (hrespelled : Respelled text other) :
    ReadAlike text other := by
  cases hrespelled with
  | blanks front back hfront hback hother =>
    refine readAlike_of_body_eq ?_
    rw [Hex.body, Hex.body, hother, Text.trim_append_blanks hfront hback]
  | case hcase =>
    have hbody := Hex.recased_body hcase
    exact readAlike_of_eq (Hex.bytes_congr hbody) (Hex.leadingBytes_congr hbody)
  | mark letter hletter hunmarked hother =>
    have hblank : ∀ character ∈ ['0', letter], Text.isBlank character = false := by
      refine List.forall_mem_cons.mpr ⟨by decide, List.forall_mem_singleton.mpr ?_⟩
      rcases hletter with rfl | rfl <;> decide
    have hdrop : dropMark (['0', letter] ++ Text.trim text.toList) = Text.trim text.toList := by
      rcases hletter with rfl | rfl <;> rfl
    refine readAlike_of_body_eq ?_
    rw [Hex.body, Hex.body, hother, Text.trim_append_trim (List.cons_ne_nil _ _) hblank, hdrop,
      hunmarked]

/-- The hash of a text is that of the bytes that are listed for it, the listing ends where hashing
complains, and however the code is spelled the outcome of both is the same. -/
theorem hash_of_listed_code (text : String) :
    ReadersAgree text ∧
      ∀ other, Relation.EqvGen Respelled text other → ReadAlike text other := by
  refine ⟨readersAgree text, fun other hother ↦ ?_⟩
  induction hother with
  | rel first second hrespelled => exact hrespelled.readAlike
  | refl first => exact ⟨rfl, rfl, rfl⟩
  | symm first second _ ih => exact ⟨ih.hash.symm, ih.program.symm, ih.listing.symm⟩
  | trans first second third _ _ ih ih' =>
    exact ⟨ih.hash.trans ih'.hash, ih.program.trans ih'.program, ih.listing.trans ih'.listing⟩

/-- A stray letter in the third pair leaves two bytes to list, whether the digits are upper case or
stand between blanks behind a mark. -/
theorem hash_of_listed_code_before_stray_letter :
    hash "AB01zz" = .error (.invalidDigit 0x7a 4) ∧ (Hex.code "AB01zz").length = 4 / 2 ∧
      Hex.code "AB01zz" = [0xab, 0x01] ∧ ReadAlike "AB01zz" " 0xab01zz\n" := by
  have herror : hash "AB01zz" = .error (.invalidDigit 0x7a 4) := by
    rw [hash_eq_error_iff]
    decide +kernel
  have hcase : Respelled "AB01zz" "ab01zz" :=
    .case (.cons (.inr ⟨10, by decide, by decide⟩) (.cons (.inr ⟨11, by decide, by decide⟩)
      (List.forall₂_same.mpr fun _ _ ↦ .inl rfl)))
  have hmark : Respelled "ab01zz" "0xab01zz" := .mark 'x' (.inl rfl) (by decide) (by decide)
  have hblanks : Respelled "0xab01zz" " 0xab01zz\n" :=
    .blanks [' '] ['\n'] (List.forall_mem_singleton.mpr (by decide))
      (List.forall_mem_singleton.mpr (by decide)) (by decide)
  obtain ⟨hagree, hspelled⟩ := hash_of_listed_code "AB01zz"
  exact ⟨herror, hagree.invalidDigit herror, by decide +kernel,
    hspelled _ (.trans _ _ _ (.trans _ _ _ (.rel _ _ hcase) (.rel _ _ hmark)) (.rel _ _ hblanks))⟩

end CodeTrail.Code
