import CodeTrail.Proofs.Trace.Candidates
import CodeTrail.Proofs.Trace.Notation

/-!
# Places that count as calls

Nothing but the kind of a step and the wording of one error depends on its mnemonic, so renaming steps
(`Step.renamed`) keeps every outcome as long as it keeps the kinds (`forall₂_outcomes_renamed`). A
place that counts as a call therefore does the same as the mnemonic of a call there, but only for a
step whose own mnemonic is not that of a call or a creation (`reconstruct_called`). A step that has
such a mnemonic keeps its kind at every place; `reconstruct_ne_of_staticCall` shows a static call that
is no call for all its place.
-/

set_option autoImplicit false
set_option relaxedAutoImplicit false

namespace CodeTrail

/-! ### Results that are alike -/

theorem TraceError.Alike.refl (error : TraceError) : error.Alike error := by
  cases error with
  | stackUnderflow op pc needed found => exact .stackUnderflow op op pc needed found
  | invalidHex pc value => exact .invalidHex pc value value

theorem SameResult.refl {α : Type} (result : Except TraceError α) : SameResult result result := by
  cases result with
  | error error => exact .error (.refl error)
  | ok value => exact .ok value

/-! ### Steps under other mnemonics -/

namespace Step

/-- A step under another mnemonic. -/
def renamed (name : Step → String) (step : Step) : Step :=
  { step with op := name step }

theorem inside?_renamed (name : Step → String) (step : Step) (later : List Step) :
    (step.renamed name).inside? (later.map (renamed name)) =
      (step.inside? later).map (List.map (renamed name)) := by
  induction later with
  | nil => simp [inside?]
  | cons next rest ih =>
    rw [List.map_cons, inside?_cons, inside?_cons, ih]
    have hresumes : Resumes (step.renamed name) (next.renamed name) ↔ Resumes step next := Iff.rfl
    by_cases hnext : Resumes step next
    · rw [if_pos (hresumes.mpr hnext), if_pos hnext]
      rfl
    · rw [if_neg (mt hresumes.mp hnext), if_neg hnext, Option.map_map, Option.map_map]
      rfl

theorem returnData_renamed (name : Step → String) (step : Step) (later : List Step) :
    (step.renamed name).returnData (later.map (renamed name)) = step.returnData later := by
  rw [returnData, returnData, inside?_renamed]
  cases step.inside? later with
  | none => rfl
  | some between =>
    rw [Option.map_some, Option.bind_some, Option.bind_some, List.getLast?_map]
    cases between.getLast? with
    | none => rfl
    | some last => rfl

/-- Making an event does not look at the mnemonic, but for the wording of an error. -/
theorem event_renamed (sender : Address) (name : Step → String) (step : Step) (later : List Step)
    (kind : CallKind) :
    SameResult ((step.renamed name).event sender (later.map (renamed name)) kind)
      (step.event sender later kind) := by
  have hstack : (step.renamed name).topDown = step.topDown := rfl
  rw [event_eq, event_eq, hstack]
  cases operands? kind step.topDown with
  | none => exact .error (.stackUnderflow ..)
  | some operands =>
    cases operands with
    | call target amount offset size =>
      dsimp only
      unfold callEvent
      rw [returnData_renamed]
      exact .refl _
    | creation amount size offset => exact .refl _

end Step

/-- Renaming steps keeps the outcomes if it keeps the kinds. -/
theorem forall₂_outcomes_renamed (sender : Address) {name : Step → String}
    {legacyCallPcs others : List UInt32}
    (hkind : ∀ step : Step, (step.renamed name).kind? others = step.kind? legacyCallPcs)
    (steps : List Step) :
    List.Forall₂ (Option.Rel SameResult)
      (outcomes sender others (steps.map (Step.renamed name)))
      (outcomes sender legacyCallPcs steps) := by
  induction steps with
  | nil => exact .nil
  | cons step rest ih =>
    refine .cons ?_ ih
    rw [Step.outcome?, Step.outcome?, hkind]
    cases step.kind? legacyCallPcs with
    | none => exact .none
    | some kind => exact .some (Step.event_renamed sender name step rest kind)

/-! ### Calls by place -/

/-- The mnemonic of a call for a step at one of given places that does not call or create by its own
mnemonic, and for other steps their own. -/
def Step.calledName (places : List UInt32) (step : Step) : String :=
  if step.mnemonic ∉ CallKind.mnemonics ∧ step.pc ∈ places then "CALL" else step.op

/-- The mnemonic of a call for a step at one of given places, and for other steps their own. -/
def Step.forcedName (places : List UInt32) (step : Step) : String :=
  if step.pc ∈ places then "CALL" else step.op

theorem Step.renamed_eq_self {name : Step → String} {step : Step} (hname : name step = step.op) :
    step.renamed name = step := by
  rw [renamed, hname]

/-- A step that does not call or create by its own mnemonic gets its kind by its place, or not at
all. -/
theorem Step.kind?_renamed_calledName (places : List UInt32) (step : Step) :
    (step.renamed (calledName places)).kind? [] = step.kind? places := by
  by_cases hname : step.mnemonic ∈ CallKind.mnemonics
  · obtain ⟨kind, hkind⟩ := CallKind.mem_mnemonics_iff.mp hname
    rw [renamed_eq_self (if_neg fun h ↦ h.1 hname), kind?_eq_some_iff.mpr (Or.inl hkind),
      kind?_eq_some_iff.mpr (Or.inl hkind)]
  · by_cases hplace : step.pc ∈ places
    · have hcall : (step.renamed (calledName places)).mnemonic = CallKind.call.mnemonic := by
        have hop : (step.renamed (calledName places)).op = "CALL" := if_pos ⟨hname, hplace⟩
        rw [mnemonic, hop]
        decide +kernel
      rw [kind?_eq_some_iff.mpr (Or.inl hcall), kind?_eq_some_iff.mpr (Or.inr ⟨hname, hplace, rfl⟩)]
    · have hnone (others : List UInt32) (hother : step.pc ∉ others) : step.kind? others = none := by
        rw [← Option.not_isSome_iff_eq_none, isSome_kind?_iff]
        exact fun hcandidate ↦ hcandidate.elim hname hother
      rw [renamed_eq_self (if_neg fun h ↦ hplace h.2), hnone [] List.not_mem_nil, hnone places hplace]

/-- The places that count as calls do the same as the mnemonic of a call at these places, on the steps
there that do not call or create by their own mnemonic. Without the places and under these names, a
trace has the same events where candidates that cannot be read are left out, and the same result, up
to the wording of an error, where the first of them ends the reconstruction. -/
theorem reconstruct_called (sender : Address) (settings : Settings) (steps : List Step) :
    reconstruct sender { settings with malformedStep := .skip } steps =
        reconstruct sender { settings with malformedStep := .skip, legacyCallPcs := [] }
          (steps.map (Step.renamed (Step.calledName settings.legacyCallPcs))) ∧
      SameResult
        (reconstruct sender { settings with malformedStep := .fail, legacyCallPcs := [] }
          (steps.map (Step.renamed (Step.calledName settings.legacyCallPcs))))
        (reconstruct sender { settings with malformedStep := .fail } steps) := by
  have houtcomes := forall₂_outcomes_renamed sender
    (Step.kind?_renamed_calledName settings.legacyCallPcs) steps
  exact ⟨congrArg Except.ok (goodEvents_eq houtcomes).symm, allEvents_sameResult houtcomes⟩

/-- A place that counts as a call does not make every step there a call: a static call stays one, and
sends no amount. -/
theorem reconstruct_ne_of_staticCall :
    ¬ ∀ (sender : Address) (settings : Settings) (steps : List Step),
      settings.malformedStep = .skip →
        reconstruct sender settings steps =
          reconstruct sender { settings with legacyCallPcs := [] }
            (steps.map (Step.renamed (Step.forcedName settings.legacyCallPcs))) := by
  intro hforced
  have hsame := hforced ⟨List.replicate 20 0, rfl⟩ { legacyCallPcs := [7] }
    [⟨7, "STATICCALL", 1, ["0x0", "0x0", "0x3", "0xaa", "0x1"], none⟩] rfl
  have hkinds := congrArg (fun result ↦ result.map (List.map Event.kind)) hsame
  revert hkinds
  decide +kernel

end CodeTrail
