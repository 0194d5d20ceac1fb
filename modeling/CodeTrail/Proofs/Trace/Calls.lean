import CodeTrail.Proofs.Trace.Candidates
import CodeTrail.Proofs.Trace.Operands

/-!
# Calls in numbers

What the event of a call tells about its target, its value and its input is a matter of natural
numbers: those that words of the stack denote, whatever their length and notation, and the digits of
the memory between two positions. The readers of words end at 64 bits for counts, at 160 for addresses
and at 256 for amounts; `callEvent_numbers` says that the first bound is never seen, that the second
one is a remainder, and that no call beyond the third one has an event.
-/

set_option autoImplicit false
set_option relaxedAutoImplicit false

namespace CodeTrail

open Hex.Word (value?)

/-- The low twenty bytes of a word are the number of the word modulo a power of two. -/
theorem Hex.Word.exists_value?_of_address? {word : String} {address : Address}
    (haddress : address? word = some address) :
    ∃ target, value? word = some target ∧ bigEndian address.bytes = target % Nat.pow 2 160 := by
  have hpow : Nat.pow 256 20 = Nat.pow 2 160 := by decide
  have hnumber := map_bigEndian_address? word
  rw [haddress, Option.map_some, hpow] at hnumber
  obtain ⟨target, htarget, hmod⟩ := Option.map_eq_some_iff.mp hnumber.symm
  exact ⟨target, htarget, hmod.symm⟩

/-- The event of a call in numbers. Assumes: the digits of the memory fit the memory of a machine. The
address is the number of the second word modulo 2^160. A call that passes on its caller's amount or
sends none has no value; otherwise the value is the number of the third word in decimal digits, absent
for zero, and that number has at most 256 bits. The input is empty or, behind a mark, the digits of
the memory at the numbers of the words for offset and size. -/
theorem callEvent_numbers (sender : Address) (legacyCallPcs : List UInt32) {steps : List Step}
    {index : Nat} {step : Step} {kind : CallKind} {event : Event} (hstep : steps[index]? = some step)
    (hkind : step.kind? legacyCallPcs = some kind) (hcall : kind.IsCall)
    (hmemory : step.memoryText.length < Nat.pow 2 63)
    (hevent : OutcomeAt sender legacyCallPcs steps index (.ok event)) :
    event.kind = kind ∧
      (∃ target, step.numberAt? 2 = some target ∧
        Hex.bigEndian event.address.bytes = target % Nat.pow 2 160) ∧
      (kind = .delegateCall ∨ kind = .staticCall → event.value = none) ∧
      (kind = .call ∨ kind = .callCode →
        ∃ amount, step.numberAt? 3 = some amount ∧ amount < Nat.pow 2 256 ∧
          event.value = if amount = 0 then none else some (toString amount)) ∧
      ∃ offset size, step.numberAt? kind.offsetPlace = some offset ∧
        step.numberAt? kind.sizePlace = some size ∧
        step.digitsAt offset size = Step.clampedAt step.memoryText offset size ∧
        event.input.toList =
          if step.digitsAt offset size = [] then [] else '0' :: 'x' :: step.digitsAt offset size := by
  rw [outcomeAt_iff_event_eq hstep hkind] at hevent
  have hlength := Step.operandCount_le_of_event hevent
  have hnumber {place : Nat} (hpos : 0 < place) (hplace : place ≤ kind.operandCount) :
      value? (step.wordOr "" place) = step.numberAt? place :=
    Step.value?_wordOr "" hpos (hplace.trans hlength)
  rw [Step.event_eq_callEvent "" hcall hlength, Step.callEvent_eq_bind] at hevent
  obtain ⟨address, haddress, hevent⟩ := TraceError.exists_of_bind_eq_ok hevent
  obtain ⟨value, hvalue, hevent⟩ := TraceError.exists_of_bind_eq_ok hevent
  obtain ⟨input, hinput, hevent⟩ := TraceError.exists_of_bind_eq_ok hevent
  obtain ⟨data, -, hevent⟩ := TraceError.exists_of_bind_eq_ok hevent
  obtain rfl := Except.ok.inj hevent
  refine ⟨rfl, ?_, ?_, ?_, ?_⟩
  · have htwo : 2 ≤ kind.operandCount := by cases kind <;> decide
    rw [← hnumber (by decide) htwo]
    exact Hex.Word.exists_value?_of_address? (Step.read_eq_ok_iff.mp haddress)
  · rintro (rfl | rfl) <;> exact (Except.ok.inj hvalue).symm
  · intro hsends
    have hthree : 3 ≤ kind.operandCount := by cases kind <;> decide
    have hplace : kind.amountPlace? = some 3 := by rcases hsends with rfl | rfl <;> rfl
    rw [hplace, Option.map_some] at hvalue
    rw [← hnumber (by decide) hthree]
    exact Step.amount_eq_ok_iff.mp hvalue
  · obtain ⟨offset, size, hoffset, hsize, hholds⟩ := Step.region_eq_ok_iff.mp hinput
    rw [hnumber kind.offsetPlace_pos kind.offsetPlace_le] at hoffset
    rw [hnumber kind.sizePlace_pos kind.sizePlace_le] at hsize
    exact ⟨offset, size, hoffset, hsize, (Step.clampedAt_eq hmemory offset size).symm,
      hholds.toList_eq hmemory⟩

/-- A call whose target has more than 160 bits and whose size has more than 64, at a memory of three
bytes. -/
theorem callEvent_numbers_of_long_words :
    let sender : Address := ⟨List.replicate 20 0, rfl⟩
    let step : Step := ⟨7, "Call", 1, ["0x10000000000000001", "0x1", "0X00ff",
      "0xff00000000000000000000000000000000000000ab", "0"], some ["0xAABB", "cC"]⟩
    ∃ event, OutcomeAt sender [] [step] 0 (.ok event) ∧ step.numberAt? 5 = some (Nat.pow 2 64 + 1) ∧
      Hex.bigEndian event.address.bytes = 0xab ∧ event.value = some "255" ∧
      event.input = "0xbbcc" := by
  intro sender step
  have hkind : step.kind? [] = some .call := by decide +kernel
  have hcall : CallKind.call.IsCall := ⟨by decide, by decide⟩
  have hmemory : step.memoryText.length < Nat.pow 2 63 := by decide +kernel
  have hsome : (eventAt? sender [] [step] 0).isSome = true := by decide +kernel
  obtain ⟨event, hevent⟩ := Option.isSome_iff_exists.mp hsome
  have houtcome := eventAt?_eq_some_iff.mp hevent
  obtain ⟨-, ⟨target, htarget, haddress⟩, -, hvalue, offset, size, hoffset, hsize, -, hinput⟩ :=
    callEvent_numbers sender [] rfl hkind hcall hmemory houtcome
  obtain ⟨amount, hamount, -, hvalue⟩ := hvalue (Or.inl rfl)
  have htwo : step.numberAt? 2 = some (0xff * Nat.pow 2 160 + 0xab) := by decide +kernel
  have hthree : step.numberAt? 3 = some 255 := by decide +kernel
  have hfour : step.numberAt? 4 = some 1 := by decide +kernel
  have hfive : step.numberAt? 5 = some (Nat.pow 2 64 + 1) := by decide +kernel
  obtain rfl := Option.some.inj (htwo.symm.trans htarget)
  obtain rfl := Option.some.inj (hthree.symm.trans hamount)
  obtain rfl := Option.some.inj (hfour.symm.trans hoffset)
  obtain rfl := Option.some.inj (hfive.symm.trans hsize)
  refine ⟨event, houtcome, hfive, haddress, hvalue, String.toList_injective (hinput.trans ?_)⟩
  decide +kernel

end CodeTrail
