import CodeTrail.Proofs.Trace.Reading

/-!
# Traces that go on

The event of a step depends on later steps through what a call returns and nothing else:
`event_eq_of_isCall` splits the event of a call into what the step tells by itself and what it
returns, and `event_eq_of_not_isCall` says that a creation does not look ahead at all. So adding steps
to a trace keeps the outcomes that are settled (`eventAt?_append_of_settled`). What is not settled is
a call that is not resumed yet (`isCall_of_not_settled`). It keeps all but its return data, unless the
steps that are added resume it and show a region there that cannot be read
(`eventAt?_append_of_not_resumed`). The steps that are added have the outcomes that they have on their
own (`drop_outcomes_append`), and `reconstruct_append` puts the two parts together.
-/

set_option autoImplicit false
set_option relaxedAutoImplicit false

namespace CodeTrail

/-- Whether a kind calls a contract that is there, rather than creating one. -/
def CallKind.IsCall (kind : CallKind) : Prop :=
  kind ≠ .create ∧ kind ≠ .create2

namespace Step

/-! ### The part of an event that looks ahead -/

theorem callEvent_eq (step : Step) (later : List Step) (kind : CallKind) (target : String)
    (amount : Option String) (offset size : String) :
    step.callEvent later kind target amount offset size =
      (step.callEvent [] kind target amount offset size).bind fun event ↦
        (step.returnData later).map fun data ↦ { event with returnData := data } := by
  have hnone : step.returnData [] = .ok "" := returnData_of_not_resumed (by simp)
  unfold callEvent
  rw [hnone]
  cases step.read Hex.Word.address? target with
  | error error => rfl
  | ok address =>
    cases step.region offset size with
    | error error =>
      cases amount with
      | none => rfl
      | some amount => cases hamount : step.amount amount <;> simp [hamount, bind, Except.bind]
    | ok input =>
      cases hreturn : step.returnData later <;> cases amount with
      | none => rfl
      | some amount =>
        cases hamount : step.amount amount <;>
          simp [hamount, bind, Except.bind, Except.map, pure, Except.pure]

theorem operands?_ne_creation {kind : CallKind} (hkind : kind.IsCall) (stack : List String)
    (amount size offset : String) : operands? kind stack ≠ some (.creation amount size offset) := by
  unfold operands?
  split <;> simp [CallKind.IsCall] at hkind ⊢

theorem operands?_ne_call {kind : CallKind} (hkind : ¬ kind.IsCall) (stack : List String)
    (target : String) (amount : Option String) (offset size : String) :
    operands? kind stack ≠ some (.call target amount offset size) := by
  unfold operands?
  split <;> simp [CallKind.IsCall] at hkind ⊢

/-- The event of a call is what the step tells by itself, with what the call returns. -/
theorem event_eq_of_isCall {kind : CallKind} (hkind : kind.IsCall) (sender : Address) (step : Step)
    (later : List Step) :
    step.event sender later kind =
      (step.event sender [] kind).bind fun event ↦
        (step.returnData later).map fun data ↦ { event with returnData := data } := by
  rw [event_eq, event_eq]
  cases hoperands : operands? kind step.topDown with
  | none => rfl
  | some operands =>
    cases operands with
    | call target amount offset size => exact callEvent_eq step later kind target amount offset size
    | creation amount size offset => exact (operands?_ne_creation hkind _ _ _ _ hoperands).elim

/-- A creation does not look ahead. -/
theorem event_eq_of_not_isCall {kind : CallKind} (hkind : ¬ kind.IsCall) (sender : Address)
    (step : Step) (later : List Step) :
    step.event sender later kind = step.event sender [] kind := by
  rw [event_eq, event_eq]
  cases hoperands : operands? kind step.topDown with
  | none => rfl
  | some operands =>
    cases operands with
    | call target amount offset size => exact (operands?_ne_call hkind _ _ _ _ _ hoperands).elim
    | creation amount size offset => rfl

end Step

/-! ### Outcomes in a trace -/

theorem getElem?_outcomes (sender : Address) (legacyCallPcs : List UInt32) (steps : List Step)
    (index : Nat) :
    (outcomes sender legacyCallPcs steps)[index]? =
      steps[index]?.map fun step ↦ step.outcome? sender legacyCallPcs (steps.drop (index + 1)) := by
  induction steps generalizing index with
  | nil => rfl
  | cons first rest ih =>
    rw [outcomes]
    cases index with
    | zero => rfl
    | succ index => rw [List.getElem?_cons_succ, List.getElem?_cons_succ, ih, List.drop_succ_cons]

@[simp] theorem length_outcomes (sender : Address) (legacyCallPcs : List UInt32) (steps : List Step) :
    (outcomes sender legacyCallPcs steps).length = steps.length := by
  induction steps with
  | nil => rfl
  | cons first rest ih => rw [outcomes, List.length_cons, List.length_cons, ih]

/-- Steps that are added have the outcomes that they have on their own. -/
theorem drop_outcomes_append (sender : Address) (legacyCallPcs : List UInt32)
    (steps more : List Step) :
    (outcomes sender legacyCallPcs (steps ++ more)).drop steps.length =
      outcomes sender legacyCallPcs more := by
  induction steps with
  | nil => rfl
  | cons first rest ih => rw [List.cons_append, outcomes, List.length_cons, List.drop_succ_cons, ih]

/-- The event of the step at an index of a trace, if it has one. -/
def eventAt? (sender : Address) (legacyCallPcs : List UInt32) (steps : List Step) (index : Nat) :
    Option Event :=
  (outcomes sender legacyCallPcs steps)[index]?.bind fun outcome ↦ outcome.bind Except.toOption

section Outcomes

variable {sender : Address} {legacyCallPcs : List UInt32} {steps : List Step} {index : Nat} {step : Step}

theorem eventAt?_eq (hstep : steps[index]? = some step) :
    eventAt? sender legacyCallPcs steps index =
      (step.kind? legacyCallPcs).bind fun kind ↦
        (step.event sender (steps.drop (index + 1)) kind).toOption := by
  rw [eventAt?, getElem?_outcomes, hstep, Option.map_some, Option.bind_some, Step.outcome?,
    Option.bind_map]
  rfl

/-- The events of the first steps of a trace. -/
theorem goodEvents_take_outcomes {count : Nat} (hcount : count ≤ steps.length) :
    goodEvents ((outcomes sender legacyCallPcs steps).take count) =
      (List.range count).filterMap (eventAt? sender legacyCallPcs steps) := by
  have hsome : ((outcomes sender legacyCallPcs steps).take count).map some =
      (List.range count).map fun index ↦ (outcomes sender legacyCallPcs steps)[index]? := by
    apply List.ext_getElem?
    intro index
    rw [List.getElem?_map, List.getElem?_map, List.getElem?_take]
    split_ifs with hindex
    · have hbound : index < (outcomes sender legacyCallPcs steps).length := by
        rw [length_outcomes]
        omega
      rw [List.getElem?_range hindex, List.getElem?_eq_getElem hbound, Option.map_some,
        Option.map_some, List.getElem?_eq_getElem hbound]
    · rw [List.getElem?_eq_none (by simpa using hindex)]
      rfl
  calc
    goodEvents ((outcomes sender legacyCallPcs steps).take count)
    _ = (((outcomes sender legacyCallPcs steps).take count).map some).filterMap
          fun outcome ↦ outcome.bind fun outcome ↦ outcome.bind Except.toOption := by
      rw [List.filterMap_map]
      rfl
    _ = (List.range count).filterMap (eventAt? sender legacyCallPcs steps) := by
      rw [hsome, List.filterMap_map]
      rfl

/-- Nothing that is added to a trace changes the outcome of a step: it has no event, or creates a
contract, or stands at the last place, or is resumed already. -/
def Settled (sender : Address) (legacyCallPcs : List UInt32) (steps : List Step) (index : Nat)
    (step : Step) : Prop :=
  eventAt? sender legacyCallPcs steps index = none ∨
    step.kind? legacyCallPcs = some .create ∨ step.kind? legacyCallPcs = some .create2 ∨
    step.pc.toNat = UInt32.size - 1 ∨
    ∃ next ∈ steps.drop (index + 1), Step.Resumes step next

theorem drop_append_of_getElem? (hstep : steps[index]? = some step) (more : List Step) :
    (steps ++ more).drop (index + 1) = steps.drop (index + 1) ++ more := by
  obtain ⟨hbound, -⟩ := List.getElem?_eq_some_iff.mp hstep
  exact List.drop_append_of_le_length hbound

/-- The event of a call that is not resumed yet is kept but for what it returns. -/
theorem eventAt?_append_of_not_resumed (hstep : steps[index]? = some step)
    (hkind : ∀ kind ∈ step.kind? legacyCallPcs, kind.IsCall)
    (hlater : ∀ next ∈ steps.drop (index + 1), ¬ Step.Resumes step next) (more : List Step) :
    eventAt? sender legacyCallPcs (steps ++ more) index =
      (eventAt? sender legacyCallPcs steps index).bind fun event ↦
        (step.returnData ((steps ++ more).drop (index + 1))).toOption.map fun data ↦
          { event with returnData := data } := by
  have hmore : (steps ++ more)[index]? = some step := by
    rw [List.getElem?_append_left (List.getElem?_eq_some_iff.mp hstep).1, hstep]
  rw [eventAt?_eq hmore, eventAt?_eq hstep]
  cases hcall : step.kind? legacyCallPcs with
  | none => rfl
  | some kind =>
    rw [Option.bind_some, Option.bind_some, Step.event_eq_of_isCall (hkind kind hcall),
      Step.event_eq_of_isCall (hkind kind hcall) _ _ (steps.drop (index + 1)),
      Step.returnData_of_not_resumed hlater]
    cases step.event sender [] kind with
    | error error => rfl
    | ok event => cases step.returnData ((steps ++ more).drop (index + 1)) <;> rfl

/-- Where steps that are added do not change what a call returns, they do not change its event. -/
theorem eventAt?_append_of_returnData_eq (hstep : steps[index]? = some step) {more : List Step}
    (hreturn : (∀ kind ∈ step.kind? legacyCallPcs, kind.IsCall) →
      step.returnData (steps.drop (index + 1) ++ more) = step.returnData (steps.drop (index + 1))) :
    eventAt? sender legacyCallPcs (steps ++ more) index =
      eventAt? sender legacyCallPcs steps index := by
  have hmore : (steps ++ more)[index]? = some step := by
    rw [List.getElem?_append_left (List.getElem?_eq_some_iff.mp hstep).1, hstep]
  rw [eventAt?_eq hmore, eventAt?_eq hstep, drop_append_of_getElem? hstep]
  cases hkind : step.kind? legacyCallPcs with
  | none => rfl
  | some kind =>
    rw [Option.bind_some, Option.bind_some]
    by_cases hcall : kind.IsCall
    · have hsame := hreturn (by
        rw [hkind]
        rintro other hother
        exact Option.some.inj hother ▸ hcall)
      rw [Step.event_eq_of_isCall hcall, hsame, ← Step.event_eq_of_isCall hcall]
    · rw [Step.event_eq_of_not_isCall hcall, ← Step.event_eq_of_not_isCall hcall]

/-- Outcomes that are settled stay as they are when steps are added. -/
theorem eventAt?_append_of_settled (hstep : steps[index]? = some step)
    (hsettled : Settled sender legacyCallPcs steps index step) (more : List Step) :
    eventAt? sender legacyCallPcs (steps ++ more) index =
      eventAt? sender legacyCallPcs steps index := by
  have hcreation {kind : CallKind} (hkind : step.kind? legacyCallPcs = some kind)
      (hnot : ¬ kind.IsCall) : eventAt? sender legacyCallPcs (steps ++ more) index =
        eventAt? sender legacyCallPcs steps index :=
    eventAt?_append_of_returnData_eq hstep fun hcalls ↦ (hnot (hcalls kind hkind)).elim
  have hresumed (hlater : ∃ next ∈ steps.drop (index + 1), Step.Resumes step next) :
      eventAt? sender legacyCallPcs (steps ++ more) index =
        eventAt? sender legacyCallPcs steps index :=
    eventAt?_append_of_returnData_eq hstep fun _ ↦ Step.returnData_append hlater more
  rcases hsettled with hnone | hcreate | hcreate2 | hlast | hlater
  · by_cases hlater : ∃ next ∈ steps.drop (index + 1), Step.Resumes step next
    · exact hresumed hlater
    · by_cases hcalls : ∀ kind ∈ step.kind? legacyCallPcs, kind.IsCall
      · rw [eventAt?_append_of_not_resumed hstep hcalls (by simpa using hlater), hnone]
        rfl
      · exact eventAt?_append_of_returnData_eq hstep fun h ↦ (hcalls h).elim
  · exact hcreation hcreate fun hcall ↦ hcall.1 rfl
  · exact hcreation hcreate2 fun hcall ↦ hcall.2 rfl
  · have hnever (next : Step) : ¬ Step.Resumes step next := by
      intro hresumes
      have hnext := next.pc.toNat_lt
      rw [Step.Resumes, hlast, UInt32.size] at hresumes
      omega
    refine eventAt?_append_of_returnData_eq hstep fun _ ↦ ?_
    rw [Step.returnData_of_not_resumed fun next _ ↦ hnever next,
      Step.returnData_of_not_resumed fun next _ ↦ hnever next]
  · exact hresumed hlater

/-- An outcome that is not settled is that of a call which is not resumed yet. -/
theorem isCall_of_not_settled
    (hopen : ¬ Settled sender legacyCallPcs steps index step) :
    (∀ kind ∈ step.kind? legacyCallPcs, kind.IsCall) ∧
      (∀ next ∈ steps.drop (index + 1), ¬ Step.Resumes step next) ∧
      ∃ event, eventAt? sender legacyCallPcs steps index = some event := by
  simp only [Settled, not_or, not_exists, not_and] at hopen
  obtain ⟨hevent, hcreate, hcreate2, -, hlater⟩ := hopen
  refine ⟨fun kind hkind ↦ ⟨?_, ?_⟩, hlater, Option.ne_none_iff_exists'.mp hevent⟩
  · rintro rfl
    exact hcreate hkind
  · rintro rfl
    exact hcreate2 hkind

end Outcomes

/-! ### Reconstruction -/

/-- What is reconstructed from a trace that goes on, where steps that cannot be read are left out.
The steps that are added have the events that they have on their own, behind those of the first steps.
The outcome of a first step stays as it is if it is settled. Otherwise the step is a call that is not
resumed yet, which has an event: it loses the event exactly when the steps that are added resume it
and the last step inside it shows a region that cannot be read, and an event that it keeps can differ
in its return data only. -/
theorem reconstruct_append (sender : Address) (settings : Settings)
    (hskip : settings.malformedStep = .skip) (steps more : List Step) :
    (∃ events, reconstruct sender settings more = .ok events ∧
      reconstruct sender settings (steps ++ more) =
        .ok ((List.range steps.length).filterMap
          (eventAt? sender settings.legacyCallPcs (steps ++ more)) ++ events)) ∧
      (∀ index, eventAt? sender settings.legacyCallPcs (steps ++ more) (steps.length + index) =
        eventAt? sender settings.legacyCallPcs more index) ∧
      reconstruct sender settings steps =
        .ok ((List.range steps.length).filterMap
          (eventAt? sender settings.legacyCallPcs steps)) ∧
      ∀ (index : Nat) (step : Step), steps[index]? = some step →
        (Settled sender settings.legacyCallPcs steps index step →
          eventAt? sender settings.legacyCallPcs (steps ++ more) index =
            eventAt? sender settings.legacyCallPcs steps index) ∧
        (¬ Settled sender settings.legacyCallPcs steps index step →
          ∃ event, eventAt? sender settings.legacyCallPcs steps index = some event ∧
            (eventAt? sender settings.legacyCallPcs (steps ++ more) index = none ↔
              step.ReturnsUnreadable ((steps ++ more).drop (index + 1))) ∧
            ∀ other, eventAt? sender settings.legacyCallPcs (steps ++ more) index = some other →
              other = { event with returnData := other.returnData }) := by
  have hreconstruct (steps : List Step) : reconstruct sender settings steps =
      .ok (goodEvents (outcomes sender settings.legacyCallPcs steps)) := by
    rw [reconstruct, hskip]
  have hdrop := drop_outcomes_append sender settings.legacyCallPcs steps more
  refine ⟨?_, fun index ↦ ?_, ?_, fun index step hstep ↦ ⟨fun hsettled ↦ ?_, fun hopen ↦ ?_⟩⟩
  · refine ⟨_, hreconstruct more, ?_⟩
    have hcount : steps.length ≤ (steps ++ more).length := by simp
    rw [hreconstruct, ← goodEvents_take_outcomes hcount, ← hdrop, goodEvents, goodEvents, goodEvents,
      ← List.filterMap_append, List.take_append_drop]
  · rw [eventAt?, eventAt?, ← hdrop, List.getElem?_drop]
  · rw [hreconstruct, ← goodEvents_take_outcomes (Nat.le_refl _), ← length_outcomes sender,
      List.take_length]
  · exact eventAt?_append_of_settled hstep hsettled more
  · obtain ⟨hcalls, hlater, event, hevent⟩ := isCall_of_not_settled hopen
    refine ⟨event, hevent, ?_⟩
    rw [eventAt?_append_of_not_resumed hstep hcalls hlater, hevent, Option.bind_some,
      Option.map_eq_none_iff, Step.toOption_returnData_eq_none_iff]
    refine ⟨Iff.rfl, fun other hother ↦ ?_⟩
    obtain ⟨data, -, rfl⟩ := Option.map_eq_some_iff.mp hother
    rfl

theorem reconstruct_append_drops_call :
    (eventAt? ⟨List.replicate 20 0, rfl⟩ []
      [⟨10, "CALL", 1, ["0x0", "0x0", "0x0", "0xaa", "0xffff"], none⟩] 0).isSome = true ∧
    eventAt? ⟨List.replicate 20 0, rfl⟩ []
      ([⟨10, "CALL", 1, ["0x0", "0x0", "0x0", "0xaa", "0xffff"], none⟩] ++
        [⟨0, "RETURN", 2, ["0x20", "zz"], none⟩, ⟨11, "STOP", 1, ["0x1"], none⟩]) 0 = none := by
  obtain ⟨-, -, -, houtcomes⟩ := reconstruct_append ⟨List.replicate 20 0, rfl⟩ {} rfl
    [⟨10, "CALL", 1, ["0x0", "0x0", "0x0", "0xaa", "0xffff"], none⟩]
    [⟨0, "RETURN", 2, ["0x20", "zz"], none⟩, ⟨11, "STOP", 1, ["0x1"], none⟩]
  have hopen : ¬ Settled ⟨List.replicate 20 0, rfl⟩ []
      [⟨10, "CALL", 1, ["0x0", "0x0", "0x0", "0xaa", "0xffff"], none⟩] 0
      ⟨10, "CALL", 1, ["0x0", "0x0", "0x0", "0xaa", "0xffff"], none⟩ := by
    rintro (hnone | hcreate | hcreate2 | hlast | ⟨next, hnext, -⟩)
    · exact absurd hnone (by decide +kernel)
    · exact absurd hcreate (by decide +kernel)
    · exact absurd hcreate2 (by decide +kernel)
    · exact absurd hlast (by decide)
    · cases hnext
  obtain ⟨event, hevent, hdropped, -⟩ := (houtcomes 0 _ rfl).2 hopen
  refine ⟨by rw [hevent]; rfl, ?_⟩
  refine hdropped.mpr ⟨_, "zz", "0x20", [], ⟨[], _, [], rfl, rfl, by simp, by decide⟩, rfl, Or.inl ?_⟩
  decide +kernel

end CodeTrail
