import CodeTrail.Proofs.Code.Hash
import CodeTrail.Proofs.Hex.Denotation

/-!
# What comes of asking for a fingerprint

A source is asked for the code at an address, and either a fingerprint comes of it or one of five
reasons why there is none. `Outcomes` gives for each of the six the condition under which it comes
about, in terms of what the source does and of the text that it hands out: whether it answers in time
(`AnswersWithin`), whether the text holds anything, whether its digits pair up, where its first stray
byte stands, and which bytes it denotes. `fingerprintOf_eq` says what comes of a text alone, and
`tryFingerprint_eq_iff` that all else is a matter of handing it out in time.

A fingerprint comes of texts that denote some bytes and is the hash of these. So the hash of no bytes at
all is never given out, and two texts that denote the same bytes have one fingerprint, whatever sources
hand them out (`outcomes_of_fingerprint`).
-/

set_option autoImplicit false
set_option relaxedAutoImplicit false

namespace CodeTrail.Code

open Hex (Denotes FirstStray)

variable {source : Source} {limit : UInt64} {address : Address} {text : String} {octets : List UInt8}

/-! ### Answers in time -/

/-- A source gives an answer within a limit: without delay, or before the limit is reached. -/
structure AnswersWithin (limit : UInt64) (behaviour : Behaviour) (reply : Reply) : Prop where
  reply : behaviour.reply = some reply
  delay : behaviour.delay = 0 ∨ behaviour.delay < limit.toNat

theorem replyWithin_eq_some_iff {behaviour : Behaviour} {reply : Reply} :
    behaviour.replyWithin limit.toNat = some reply ↔ AnswersWithin limit behaviour reply := by
  rw [Behaviour.replyWithin]
  split_ifs with hdelay
  · exact ⟨fun hreply ↦ ⟨hreply, hdelay⟩, fun hanswers ↦ hanswers.reply⟩
  · exact ⟨nofun, fun hanswers ↦ (hdelay hanswers.delay).elim⟩

theorem replyWithin_eq_none_iff {behaviour : Behaviour} :
    behaviour.replyWithin limit.toNat = none ↔
      behaviour.reply = none ∨ (behaviour.delay ≠ 0 ∧ limit.toNat ≤ behaviour.delay) := by
  rw [Behaviour.replyWithin, ← Nat.not_lt, ← not_or]
  split_ifs with hdelay
  · exact ⟨.inl, fun hnone ↦ hnone.resolve_right (not_not_intro hdelay)⟩
  · exact ⟨fun _ ↦ .inr hdelay, fun _ ↦ rfl⟩

/-! ### Fingerprints of texts -/

/-- What comes of a text, by what the reader of code says about it. -/
theorem fingerprintOf_eq (text : String) :
    fingerprintOf text =
      match Hex.bytes (Hex.body text) with
      | .error error => .error (.invalidCode error)
      | .ok octets => if octets = [] then .error .emptyCode else .ok (Keccak.keccak256 octets) := by
  rw [fingerprintOf, hash]
  cases hoctets : Hex.bytes (Hex.body text) with
  | error error =>
    -- An empty text is read without complaint, so this one holds something.
    have hsome : (Hex.body text).isEmpty = false := by
      refine List.isEmpty_eq_false_iff.mpr fun hempty ↦ ?_
      rw [hempty] at hoctets
      cases hoctets
    rw [hsome]
    rfl
  | ok octets =>
    have hempty := (Hex.denotes_iff.mpr hoctets).body_eq_nil_iff
    simp only [List.isEmpty_iff, hempty]
    rfl

theorem fingerprintOf_eq_emptyCode_iff :
    fingerprintOf text = .error .emptyCode ↔ Hex.body text = [] := by
  rw [fingerprintOf, ← List.isEmpty_iff]
  split_ifs with hempty
  · exact ⟨fun _ ↦ hempty, fun _ ↦ rfl⟩
  · cases hash text <;> exact ⟨nofun, fun h ↦ (hempty h).elim⟩

theorem fingerprintOf_eq_invalidCode_iff {error : Hex.Error} :
    fingerprintOf text = .error (.invalidCode error) ↔ Hex.bytes (Hex.body text) = .error error := by
  rw [fingerprintOf_eq]
  cases Hex.bytes (Hex.body text) with
  | error other => simp
  | ok octets =>
    dsimp only
    split_ifs <;> exact ⟨nofun, nofun⟩

theorem fingerprintOf_eq_ok_iff {digest : Digest} :
    fingerprintOf text = .ok digest ↔
      ∃ octets, Denotes text octets ∧ octets ≠ [] ∧ digest = Keccak.keccak256 octets := by
  simp only [Hex.denotes_iff]
  rw [fingerprintOf_eq]
  cases Hex.bytes (Hex.body text) with
  | error error => simp
  | ok octets =>
    dsimp only
    split_ifs with hempty <;> simp [hempty, eq_comm]

/-- A text has a fingerprint or is at fault itself. -/
theorem fingerprintOf_cases (text : String) :
    fingerprintOf text = .error .emptyCode ∨
      (∃ error, fingerprintOf text = .error (.invalidCode error)) ∨
        ∃ digest, fingerprintOf text = .ok digest := by
  rw [fingerprintOf_eq]
  cases Hex.bytes (Hex.body text) with
  | error error => exact .inr (.inl ⟨error, rfl⟩)
  | ok octets =>
    dsimp only
    split_ifs
    · exact .inl rfl
    · exact .inr (.inr ⟨_, rfl⟩)

/-! ### Outcomes -/

/-- What comes of asking a source, with the condition for each outcome. -/
structure Outcomes (source : Source) (limit : UInt64) (address : Address) : Prop where
  /-- There is a time-out if the source hangs, or if it waits and not less than the limit. -/
  timeout_iff (waited : UInt64) :
    tryFingerprint source limit address = .error (.timeout waited) ↔
      waited = limit ∧ ((source address).reply = none ∨
        ((source address).delay ≠ 0 ∧ limit.toNat ≤ (source address).delay))
  rpc_iff (message : String) :
    tryFingerprint source limit address = .error (.rpc message) ↔
      AnswersWithin limit (source address) (.failure message)
  emptyCode_iff :
    tryFingerprint source limit address = .error .emptyCode ↔
      ∃ text, AnswersWithin limit (source address) (.code text) ∧
        (Text.trim text.toList = [] ∨ Text.trim text.toList = ['0', 'x'] ∨
          Text.trim text.toList = ['0', 'X'])
  /-- An odd length is reported whatever the bytes of the text are. -/
  oddLength_iff :
    tryFingerprint source limit address = .error (.invalidCode .oddLength) ↔
      ∃ text, AnswersWithin limit (source address) (.code text) ∧ (Hex.body text).length % 2 = 1
  invalidDigit_iff (stray : UInt8) (place : Nat) :
    tryFingerprint source limit address = .error (.invalidCode (.invalidDigit stray place)) ↔
      ∃ text, AnswersWithin limit (source address) (.code text) ∧
        (Hex.body text).length % 2 = 0 ∧ FirstStray (Hex.body text) stray place
  ok_iff (digest : Digest) :
    tryFingerprint source limit address = .ok digest ↔
      ∃ text octets, AnswersWithin limit (source address) (.code text) ∧ Denotes text octets ∧
        octets ≠ [] ∧ digest = Keccak.keccak256 octets
  /-- All that is left of an outcome is its hash. -/
  fingerprint?_iff (digest : Digest) :
    fingerprint? source limit address = some digest ↔
      tryFingerprint source limit address = .ok digest
  fingerprint?_eq_none_iff :
    fingerprint? source limit address = none ↔
      ∃ error, tryFingerprint source limit address = .error error

/-- An outcome that a text can have comes about when such a text is handed out in time. -/
theorem tryFingerprint_eq_iff {outcome : Except FetchError Digest}
    (htimeout : outcome ≠ .error (.timeout limit)) (hrpc : ∀ message, outcome ≠ .error (.rpc message)) :
    tryFingerprint source limit address = outcome ↔
      ∃ text, AnswersWithin limit (source address) (.code text) ∧ fingerprintOf text = outcome := by
  simp only [← replyWithin_eq_some_iff]
  rw [tryFingerprint]
  cases (source address).replyWithin limit.toNat with
  | none => simp [htimeout.symm]
  | some reply =>
    cases reply with
    | code text => simp
    | failure message => simp [(hrpc message).symm]

theorem outcomes (source : Source) (limit : UInt64) (address : Address) :
    Outcomes source limit address where
  timeout_iff waited := by
    rw [← replyWithin_eq_none_iff, tryFingerprint]
    cases (source address).replyWithin limit.toNat with
    | none => simp [eq_comm]
    | some reply =>
      cases reply with
      | code text => rcases fingerprintOf_cases text with h | ⟨_, h⟩ | ⟨_, h⟩ <;> simp [h]
      | failure message => simp
  rpc_iff message := by
    rw [← replyWithin_eq_some_iff, tryFingerprint]
    cases (source address).replyWithin limit.toNat with
    | none => simp
    | some reply =>
      cases reply with
      | code text => rcases fingerprintOf_cases text with h | ⟨_, h⟩ | ⟨_, h⟩ <;> simp [h]
      | failure other => simp
  emptyCode_iff := by
    refine (tryFingerprint_eq_iff (by nofun) (by nofun)).trans ?_
    simp only [fingerprintOf_eq_emptyCode_iff, Hex.body_eq_nil_iff]
  oddLength_iff := by
    refine (tryFingerprint_eq_iff (by nofun) (by nofun)).trans ?_
    simp only [fingerprintOf_eq_invalidCode_iff, Hex.bytes_eq_oddLength_iff]
  invalidDigit_iff stray place := by
    refine (tryFingerprint_eq_iff (by nofun) (by nofun)).trans ?_
    simp only [fingerprintOf_eq_invalidCode_iff, Hex.bytes_eq_invalidDigit_iff, Hex.firstStray_iff]
  ok_iff digest := by
    refine (tryFingerprint_eq_iff (by nofun) (by nofun)).trans ?_
    simp only [fingerprintOf_eq_ok_iff, exists_and_left]
  fingerprint?_iff digest := by
    rw [fingerprint?]
    cases tryFingerprint source limit address <;> simp [Except.toOption]
  fingerprint?_eq_none_iff := by
    rw [fingerprint?]
    cases tryFingerprint source limit address <;> simp [Except.toOption]

/-- The hash of bytes that a text denotes is the fingerprint where the text is handed out in time. -/
theorem fingerprint?_of_denotes (hanswers : AnswersWithin limit (source address) (.code text))
    (hdenotes : Denotes text octets) (hsome : octets ≠ []) :
    fingerprint? source limit address = some (Keccak.keccak256 octets) :=
  ((outcomes source limit address).fingerprint?_iff _).mpr
    (((outcomes source limit address).ok_iff _).mpr ⟨text, octets, hanswers, hdenotes, hsome, rfl⟩)

/-- Each outcome comes about under its own condition. Two texts that denote the same bytes, if there are
any, have the same fingerprint, whoever hands them out and whatever the limits. -/
theorem outcomes_of_fingerprint (source : Source) (limit : UInt64) (address : Address) :
    Outcomes source limit address ∧
      ∀ other otherLimit otherAddress text otherText octets,
        AnswersWithin limit (source address) (.code text) →
          AnswersWithin otherLimit (other otherAddress) (.code otherText) →
            Denotes text octets → Denotes otherText octets → octets ≠ [] →
              fingerprint? source limit address = some (Keccak.keccak256 octets) ∧
                fingerprint? other otherLimit otherAddress = fingerprint? source limit address := by
  refine ⟨outcomes source limit address, ?_⟩
  intro other otherLimit otherAddress text otherText octets hanswers hother hdenotes hsame hsome
  have hfingerprint := fingerprint?_of_denotes hanswers hdenotes hsome
  exact ⟨hfingerprint, (fingerprint?_of_denotes hother hsame hsome).trans hfingerprint.symm⟩

/-- Two sources hand out one code in two spellings, the first of them after five of six milliseconds.
Asked with a limit of five, it is too late. -/
theorem outcomes_of_slow_source :
    let address : Address := ⟨List.replicate 20 0, rfl⟩
    let source : Source := fun _ ↦ ⟨5, some (.code " 0XAB01\n")⟩
    let other : Source := fun _ ↦ ⟨0, some (.code "ab01")⟩
    AnswersWithin 6 (source address) (.code " 0XAB01\n") ∧
      AnswersWithin 0 (other address) (.code "ab01") ∧
      Denotes " 0XAB01\n" [0xab, 0x01] ∧ Denotes "ab01" [0xab, 0x01] ∧
      fingerprint? source 6 address = some (Keccak.keccak256 [0xab, 0x01]) ∧
      fingerprint? other 0 address = fingerprint? source 6 address ∧
      tryFingerprint source 5 address = .error (.timeout 5) := by
  intro address source other
  have hanswers : AnswersWithin 6 (source address) (.code " 0XAB01\n") := ⟨rfl, .inr (by decide)⟩
  have hother : AnswersWithin 0 (other address) (.code "ab01") := ⟨rfl, .inl rfl⟩
  have hdenotes : Denotes " 0XAB01\n" [0xab, 0x01] := Hex.denotes_iff.mpr (by decide +kernel)
  have hsame : Denotes "ab01" [0xab, 0x01] := Hex.denotes_iff.mpr (by decide +kernel)
  obtain ⟨hfingerprint, hequal⟩ := (outcomes_of_fingerprint source 6 address).2 other 0 address _ _ _
    hanswers hother hdenotes hsame (List.cons_ne_nil _ _)
  have hlate := ((outcomes_of_fingerprint source 5 address).1.timeout_iff 5).mpr
    ⟨rfl, .inr ⟨by decide, by decide⟩⟩
  exact ⟨hanswers, hother, hdenotes, hsame, hfingerprint, hequal, hlate⟩

end CodeTrail.Code
