import CodeTrail.Proofs.Trace.Candidates
import CodeTrail.Proofs.Trace.Operands

/-!
# Created contracts

The code that creates a contract is read off the memory as text and hashed as bytes, by another reader.
`hash_markedDigits` says when that reader takes the text, namely when its digits pair up, and that it
then hashes the bytes that the digits denote. So the input in the event of a creation is the text of
exactly the bytes whose hash the address is derived from.

The event of a creation depends on its sender, on the three words on top of the stack and on the
memory, and on nothing else of the step or the trace (`Step.event_of_same_words`). Both kinds of
creation derive the address in the same way. `createdAddress_of_event` puts this together.
-/

set_option autoImplicit false
set_option relaxedAutoImplicit false

namespace CodeTrail

open Hex.Word (value? salt?)

namespace Step

theorem body_markedDigits (values : List (Fin 16)) :
    Hex.body (markedDigits (values.map Hex.digitChar)) = values.map Hex.digitByte := by
  cases values with
  | nil => rfl
  | cons first rest => exact Hex.body_ofList_mark (first :: rest)

theorem markedDigits_write (bytes : List UInt8) :
    markedDigits (Hex.write bytes) = if bytes = [] then "" else Hex.marked bytes := by
  cases bytes with
  | nil => rfl
  | cons first rest => rfl

/-- The text of digits is hashed as the bytes that the digits denote, if they pair up. -/
theorem hash_markedDigits (values : List (Fin 16)) :
    (Code.hash (markedDigits (values.map Hex.digitChar))).toOption =
      if values.length % 2 = 1 then none else some (Keccak.keccak256 (Octets.pairUp values)) := by
  rw [Code.hash, body_markedDigits, Hex.bytes, List.length_map]
  split_ifs with hodd
  · rfl
  · have heven : values.length % 2 = 0 := by omega
    have hpairs := Hex.pairsFrom_digits 0 (Octets.pairUp values)
    rw [Octets.digits_pairUp heven] at hpairs
    rw [hpairs]
    rfl

/-! ### What a creation depends on -/

variable {sender : Address} {step : Step} {kind : CallKind} {event : Event}
  {amount size offset : String}

theorem createEvent_eq_ok_iff :
    createEvent sender step kind amount size offset = .ok event ↔
      ∃ input codeHash salt value, step.region offset size = .ok input ∧
        (Code.hash input).toOption = some codeHash ∧ salt? offset = some salt ∧
        step.amount amount = .ok value ∧
        event = { kind, address := createdAddress sender salt codeHash, value, input,
                  returnData := "", depth := step.depth, codeHash := none } := by
  constructor
  · intro hevent
    obtain ⟨input, hinput, hevent⟩ := TraceError.exists_of_bind_eq_ok hevent
    obtain ⟨codeHash, hcode, hevent⟩ := TraceError.exists_of_bind_eq_ok hevent
    obtain ⟨salt, hsalt, hevent⟩ := TraceError.exists_of_bind_eq_ok hevent
    obtain ⟨value, hvalue, hevent⟩ := TraceError.exists_of_bind_eq_ok hevent
    exact ⟨input, codeHash, salt, value, hinput, read_eq_ok_iff.mp hcode, read_eq_ok_iff.mp hsalt,
      hvalue, (Except.ok.inj hevent).symm⟩
  · rintro ⟨input, codeHash, salt, value, hinput, hcode, hsalt, hvalue, rfl⟩
    have hread : step.read (fun text ↦ (Code.hash text).toOption) input = .ok codeHash :=
      read_eq_ok_iff.mpr hcode
    have hread' : step.read salt? offset = .ok salt := read_eq_ok_iff.mpr hsalt
    simp only [createEvent, hinput, hread, hread', hvalue, bind, Except.bind, pure, Except.pure]

theorem region_of_memory_eq {other : Step} (hmemory : other.memory = step.memory) {text : String}
    (hregion : step.region offset size = .ok text) : other.region offset size = .ok text := by
  have hwords : other.words = step.words := by rw [words, words, hmemory]
  obtain ⟨start, count, hstart, hcount, hholds⟩ := region_eq_ok_iff.mp hregion
  refine region_eq_ok_iff.mpr ⟨start, count, hstart, hcount, ?_⟩
  rw [HoldsAt, hwords]
  exact hholds

/-- From the same words and the same memory another step creates the same contract. -/
theorem createEvent_of_memory_eq {other : Step} (hmemory : other.memory = step.memory)
    (otherKind : CallKind) (hevent : createEvent sender step kind amount size offset = .ok event) :
    createEvent sender other otherKind amount size offset =
      .ok { event with kind := otherKind, depth := other.depth } := by
  obtain ⟨input, codeHash, salt, value, hinput, hcode, hsalt, hvalue, rfl⟩ :=
    createEvent_eq_ok_iff.mp hevent
  have hother : other.amount amount = .ok value :=
    amount_eq_ok_iff.mpr (amount_eq_ok_iff.mp hvalue)
  exact createEvent_eq_ok_iff.mpr ⟨input, codeHash, salt, value, region_of_memory_eq hmemory hinput,
    hcode, hsalt, hother, rfl⟩

end Step

/-! ### The address of a created contract -/

/-- Whether a kind creates a contract. -/
def CallKind.IsCreation (kind : CallKind) : Prop :=
  kind = .create ∨ kind = .create2

theorem CallKind.IsCreation.not_isCall {kind : CallKind} (hkind : kind.IsCreation) : ¬ kind.IsCall :=
  fun hcall ↦ hkind.elim hcall.1 hcall.2

theorem CallKind.IsCreation.operandCount_eq {kind : CallKind} (hkind : kind.IsCreation) :
    kind.operandCount = 3 := by
  rcases hkind with rfl | rfl <;> rfl

/-- What the event of a creation tells, by the number of the amount, the code that creates the contract
and the salt: the value in decimal digits, absent for zero; the text of the code, which is empty or has
two lowercase digits for each byte behind a mark; and the last twenty bytes of the hash of a byte
`0xff`, the sender, the salt and the hash of the code. -/
structure Creates (sender : Address) (amount : Nat) (code salt : List UInt8) (event : Event) : Prop where
  value : event.value = if amount = 0 then none else some (toString amount)
  input : event.input = if code = [] then "" else Hex.marked code
  address : event.address.bytes =
    (Keccak.keccak256 (0xff :: (sender.bytes ++ salt ++ (Keccak.keccak256 code).bytes))).bytes.drop 12
  returnData : event.returnData = ""

theorem Step.exists_creates {sender : Address} {step : Step} {kind : CallKind} {event : Event}
    {amount size offset : String}
    (hevent : createEvent sender step kind amount size offset = .ok event) :
    ∃ total start count code salt, value? amount = some total ∧ value? size = some count ∧
      value? offset = some start ∧ total < Nat.pow 2 256 ∧
      Hex.write code = clampedAt step.memoryText start count ∧
      salt.length = 32 ∧ Hex.bigEndian salt = start % Nat.pow 2 256 ∧
      Creates sender total code salt event := by
  have hpow : Nat.pow 256 32 = Nat.pow 2 256 := by decide
  obtain ⟨input, codeHash, salt, value, hinput, hcode, hsalt, hvalue, rfl⟩ :=
    createEvent_eq_ok_iff.mp hevent
  obtain ⟨total, htotal, hlarge, rfl⟩ := Step.amount_eq_ok_iff.mp hvalue
  obtain ⟨start, count, hstart, hcount, hholds⟩ := Step.region_eq_ok_iff.mp hinput
  obtain ⟨values, hvalues, rfl⟩ := hholds.exists_digits
  have hnumber := Hex.Word.map_bigEndian_salt? offset
  rw [hsalt, hstart, Option.map_some, Option.map_some, Option.some.injEq, hpow] at hnumber
  rw [Step.hash_markedDigits] at hcode
  split_ifs at hcode with hodd
  obtain rfl := Option.some.inj hcode
  have hdigits : Hex.digits (Octets.pairUp values) = values := Octets.digits_pairUp (by omega)
  have hwrite : Hex.write (Octets.pairUp values) = values.map Hex.digitChar := by
    rw [Hex.write_eq_map_digitChar, hdigits]
  have hinput : markedDigits (values.map Hex.digitChar) =
      if Octets.pairUp values = [] then "" else Hex.marked (Octets.pairUp values) := by
    rw [← hwrite, markedDigits_write]
  exact ⟨total, start, count, Octets.pairUp values, salt.bytes, htotal, hcount, hstart, hlarge,
    hwrite.trans hvalues, salt.length_bytes, hnumber, rfl, hinput, rfl, rfl⟩

/-- A step with the same three words on top of its stack and the same memory creates the same contract,
wherever it stands. -/
theorem Step.event_of_same_words {sender : Address} {step other : Step} {kind otherKind : CallKind}
    {later : List Step} {event : Event} (hcreation : kind.IsCreation)
    (hcreation' : otherKind.IsCreation)
    (hwords : ∀ place, 1 ≤ place → place ≤ 3 → other.fromTop? place = step.fromTop? place)
    (hmemory : other.memory = step.memory) (others : List Step)
    (hevent : step.event sender later kind = .ok event) :
    other.event sender others otherKind =
      .ok { event with kind := otherKind, depth := other.depth } := by
  have hlength := operandCount_le_of_event hevent
  have hlength' : otherKind.operandCount ≤ other.stack.length := by
    have hthree := hwords 3 (by decide) (by decide)
    rw [hcreation.operandCount_eq] at hlength
    rw [fromTop?_eq_some "" (by decide) hlength, fromTop?] at hthree
    rw [hcreation'.operandCount_eq]
    by_contra hshort
    rw [if_neg hshort] at hthree
    cases hthree
  have hword (place : Nat) (hpos : 1 ≤ place) (hplace : place ≤ 3) :
      other.wordOr "" place = step.wordOr "" place := by
    rw [wordOr, wordOr, hwords place hpos hplace]
  rw [event_eq_createEvent "" hcreation.not_isCall hlength] at hevent
  rw [event_eq_createEvent "" hcreation'.not_isCall hlength', hword 1 (by decide) (by decide),
    hword 2 (by decide) (by decide), hword 3 (by decide) (by decide)]
  exact createEvent_of_memory_eq hmemory otherKind hevent

/-- The event of a creation, and what it depends on. The code that creates the contract is what the
memory holds at the numbers of the third word and the second, as far as the memory goes, and the number
of the third word modulo 2^256 is the salt as well; the amount is the number of the first word. Another
step with the same three words on top of its stack and the same memory creates the same contract, under
either kind and in any trace; so under the other kind the step itself has an event that differs in its
kind only. -/
theorem createdAddress_of_event (sender : Address) (legacyCallPcs : List UInt32) {steps : List Step}
    {index : Nat} {step : Step} {kind : CallKind} {event : Event} (hstep : steps[index]? = some step)
    (hkind : step.kind? legacyCallPcs = some kind) (hcreation : kind.IsCreation)
    (hevent : OutcomeAt sender legacyCallPcs steps index (.ok event)) :
    (∃ amount size offset code salt, step.numberAt? 1 = some amount ∧ step.numberAt? 2 = some size ∧
      step.numberAt? 3 = some offset ∧ amount < Nat.pow 2 256 ∧
      Hex.write code = Step.clampedAt step.memoryText offset size ∧
      (step.memoryText.length < Nat.pow 2 63 → Hex.write code = step.digitsAt offset size) ∧
      salt.length = 32 ∧ Hex.bigEndian salt = offset % Nat.pow 2 256 ∧
      Creates sender amount code salt event) ∧
    (∀ (otherPcs : List UInt32) (others : List Step) (place : Nat) (other : Step)
      (otherKind : CallKind), others[place]? = some other → other.kind? otherPcs = some otherKind →
      otherKind.IsCreation →
      (∀ word, 1 ≤ word → word ≤ 3 → other.fromTop? word = step.fromTop? word) →
      other.memory = step.memory →
      OutcomeAt sender otherPcs others place
        (.ok { event with kind := otherKind, depth := other.depth })) ∧
    ∀ (op : String) (otherKind : CallKind),
      ({ step with op := op } : Step).kind? legacyCallPcs = some otherKind → otherKind.IsCreation →
      OutcomeAt sender legacyCallPcs (steps.set index { step with op := op }) index
        (.ok { event with kind := otherKind }) := by
  rw [outcomeAt_iff_event_eq hstep hkind] at hevent
  have hlength := Step.operandCount_le_of_event hevent
  have hdepth := Step.depth_of_event hevent
  refine ⟨?_, ?_, ?_⟩
  · have hnumber {place : Nat} (hpos : 0 < place) (hplace : place ≤ 3) :
        value? (step.wordOr "" place) = step.numberAt? place :=
      Step.value?_wordOr "" hpos (hplace.trans (hcreation.operandCount_eq ▸ hlength))
    rw [Step.event_eq_createEvent "" hcreation.not_isCall hlength] at hevent
    obtain ⟨amount, offset, size, code, salt, hamount, hsize, hoffset, hlarge, hcode, hrest⟩ :=
      Step.exists_creates hevent
    rw [hnumber (by decide) (by decide)] at hamount hsize hoffset
    exact ⟨amount, size, offset, code, salt, hamount, hsize, hoffset, hlarge, hcode,
      fun hmemory ↦ hcode.trans (Step.clampedAt_eq hmemory offset size), hrest⟩
  · intro otherPcs others place other otherKind hother hotherKind hcreation' hwords hmemory
    exact ⟨other, otherKind, hother, hotherKind,
      Step.event_of_same_words hcreation hcreation' hwords hmemory _ hevent⟩
  · intro op otherKind hotherKind hcreation'
    have hindex := (List.getElem?_eq_some_iff.mp hstep).1
    have hwords (place : Nat) (_ : 1 ≤ place) (_ : place ≤ 3) :
        ({ step with op := op } : Step).fromTop? place = step.fromTop? place := rfl
    rw [hdepth]
    exact ⟨{ step with op := op }, otherKind, List.getElem?_set_self hindex, hotherKind,
      Step.event_of_same_words hcreation hcreation' hwords rfl _ hevent⟩

/-- A creation whose size has more than 64 bits, at a memory of four bytes. The contract is created from
the three bytes behind the offset, and the other kind of creation creates it as well. -/
theorem createdAddress_of_event_of_long_size :
    let sender : Address := ⟨List.replicate 20 0, rfl⟩
    let step : Step := ⟨7, "Create2", 1, ["0X1", "0x10000000000000001", "0x0"], some ["0xAABB", "CCdd"]⟩
    ∃ event code salt, OutcomeAt sender [] [step] 0 (.ok event) ∧ Creates sender 0 code salt event ∧
      Hex.write code = ['b', 'b', 'c', 'c', 'd', 'd'] ∧ Hex.bigEndian salt = 1 ∧
      OutcomeAt sender [] [{ step with op := "CREATE" }] 0 (.ok { event with kind := .create }) := by
  intro sender step
  have hkind : step.kind? [] = some .create2 := by decide +kernel
  have hother : ({ step with op := "CREATE" } : Step).kind? [] = some .create := by decide +kernel
  have hsome : (eventAt? sender [] [step] 0).isSome = true := by decide +kernel
  obtain ⟨event, hevent⟩ := Option.isSome_iff_exists.mp hsome
  have houtcome := eventAt?_eq_some_iff.mp hevent
  obtain ⟨⟨amount, size, offset, code, salt, hamount, hsize, hoffset, -, hcode, -, -, hsalt, hcreates⟩,
    -, hkinds⟩ := createdAddress_of_event sender [] rfl hkind (Or.inr rfl) houtcome
  have hone : step.numberAt? 1 = some 0 := by decide +kernel
  have htwo : step.numberAt? 2 = some (Nat.pow 2 64 + 1) := by decide +kernel
  have hthree : step.numberAt? 3 = some 1 := by decide +kernel
  obtain rfl := Option.some.inj (hone.symm.trans hamount)
  obtain rfl := Option.some.inj (htwo.symm.trans hsize)
  obtain rfl := Option.some.inj (hthree.symm.trans hoffset)
  exact ⟨event, code, salt, houtcome, hcreates, hcode.trans (by decide +kernel), hsalt,
    hkinds "CREATE" .create hother (Or.inl rfl)⟩

end CodeTrail
