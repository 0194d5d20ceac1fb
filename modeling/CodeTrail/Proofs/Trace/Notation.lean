import CodeTrail.Proofs.Trace.Reading

/-!
# Traces in other notations

Machines write words with or without a mark, in either case, with or without zeros in front, and cut
the memory into words as they like. `Step.SameReading` relates steps that differ in such ways only.
Every reader of words factors through the number of the word, so reading one step or the other gives
the same or fails with an error of one kind at one place, as `SameResult` tells: of a region
(`region_sameResult`), of what a call returns (`returnData_sameResult`) and of a whole event
(`event_sameResult`). Step by step this carries over to the outcomes of a trace
(`forall₂_outcomes`), and `reconstruct_sameResult` concludes that the notation of a trace never
changes what is reconstructed from it.
-/

set_option autoImplicit false
set_option relaxedAutoImplicit false

namespace CodeTrail

open Hex.Word (value? allDigits?)

/-! ### Results that are the same up to notation -/

/-- Errors of one kind at one place, whatever text they quote. -/
inductive TraceError.Alike : TraceError → TraceError → Prop
  | stackUnderflow (op other : String) (pc : UInt32) (needed found : Nat) :
    Alike (.stackUnderflow op pc needed found) (.stackUnderflow other pc needed found)
  | invalidHex (pc : UInt32) (value other : String) :
    Alike (.invalidHex pc value) (.invalidHex pc other)

/-- The same value, or errors of one kind at one place. -/
inductive SameResult {α : Type} : Except TraceError α → Except TraceError α → Prop
  | ok (value : α) : SameResult (.ok value) (.ok value)
  | error {first second : TraceError} (halike : first.Alike second) :
    SameResult (.error first) (.error second)

theorem SameResult.bind {α β : Type} {first second : Except TraceError α}
    {next other : α → Except TraceError β} (hresult : SameResult first second)
    (hnext : ∀ value, SameResult (next value) (other value)) :
    SameResult (first >>= next) (second >>= other) := by
  cases hresult with
  | ok value => exact hnext value
  | error halike => exact .error halike

theorem SameResult.toOption_eq {α : Type} {first second : Except TraceError α}
    (hresult : SameResult first second) : first.toOption = second.toOption := by
  cases hresult <;> rfl

namespace Step

/-- Words that denote one number, or both hold a character that is no digit. -/
def SameWord (first second : String) : Prop :=
  value? first = value? second

instance decidableSameWord (first second : String) : Decidable (SameWord first second) :=
  inferInstanceAs (Decidable (_ = _))

/-- Steps that differ in notation only: they stand at one place, one depth and one instruction, their
stacks hold the same numbers, and their memories the same digits, wherever one word of it ends and the
next begins. -/
structure SameReading (first second : Step) : Prop where
  pc : first.pc = second.pc
  depth : first.depth = second.depth
  /-- The mnemonics differ in case at most. -/
  mnemonic : first.mnemonic = second.mnemonic
  stack : List.Forall₂ SameWord first.stack second.stack
  /-- Both memories hold a character that is no digit, or the same digits; a memory that was not
  recorded holds no digits. -/
  memory : allDigits? first.words = allDigits? second.words

section Readers

variable {first second : Step} (hsame : SameReading first second)

include hsame

theorem read_sameResult {α : Type} {reader : String → Option α} {word other : String}
    (hword : reader word = reader other) :
    SameResult (first.read reader word) (second.read reader other) := by
  unfold read
  rw [hword, hsame.pc]
  cases reader other with
  | none => exact .error (.invalidHex second.pc word other)
  | some value => exact .ok value

theorem slice_sameResult (offset size : Nat) :
    SameResult (first.slice offset size) (second.slice offset size) := by
  have hmemory : (memoryDigits first.words).toOption = (memoryDigits second.words).toOption := by
    rw [toOption_memoryDigits, toOption_memoryDigits, hsame.memory]
  rw [slice_eq, slice_eq, hsame.pc]
  split_ifs with hsize
  · exact .ok ""
  · cases hfirst : memoryDigits first.words <;> cases hsecond : memoryDigits second.words <;>
      rw [hfirst, hsecond] at hmemory
    case error.error word other => exact .error (.invalidHex second.pc word other)
    case ok.ok digits others =>
      obtain rfl := Option.some.inj hmemory
      exact .ok _
    case error.ok => cases hmemory
    case ok.error => cases hmemory

theorem region_sameResult {offset offset' size size' : String} (hoffset : SameWord offset offset')
    (hsize : SameWord size size') :
    SameResult (first.region offset size) (second.region offset' size') :=
  (read_sameResult hsame (Hex.Word.count?_congr hoffset)).bind fun start ↦
    (read_sameResult hsame (Hex.Word.count?_congr hsize)).bind fun count ↦
      slice_sameResult hsame start count

theorem amount_sameResult {word other : String} (hword : SameWord word other) :
    SameResult (first.amount word) (second.amount other) :=
  (read_sameResult hsame (Hex.Word.amount?_congr hword)).bind fun _ ↦ .ok _

theorem topDown_forall₂ : List.Forall₂ SameWord first.topDown second.topDown :=
  List.rel_reverse hsame.stack

theorem resumes_iff_resumes {next other : Step} (hnext : SameReading next other) :
    Resumes first next ↔ Resumes second other := by
  rw [Resumes, Resumes, hsame.pc, hnext.pc]

/-- The steps inside a call are those inside the other, step by step. -/
theorem inside?_rel {later others : List Step} (hlater : List.Forall₂ SameReading later others) :
    Option.Rel (List.Forall₂ SameReading) (first.inside? later) (second.inside? others) := by
  induction hlater with
  | nil =>
    rw [inside?_eq_none_iff.mpr (by simp), inside?_eq_none_iff.mpr (by simp)]
    exact .none
  | @cons next other rest rest' hnext hrest ih =>
    rw [inside?_cons, inside?_cons]
    by_cases hresumes : Resumes first next
    · rw [if_pos hresumes, if_pos ((resumes_iff_resumes hsame hnext).mp hresumes)]
      exact .some .nil
    · rw [if_neg hresumes, if_neg (mt (resumes_iff_resumes hsame hnext).mpr hresumes)]
      cases hinside : first.inside? rest <;> cases hinside' : second.inside? rest' <;>
        rw [hinside, hinside'] at ih
      case none.none => exact .none
      case some.some between between' =>
        cases ih with
        | some hbetween => exact .some (.cons hnext hbetween)
      case none.some => cases ih
      case some.none => cases ih

/-- The last step inside a call is the last one inside the other. -/
theorem lastInside_rel {later others : List Step} (hlater : List.Forall₂ SameReading later others) :
    Option.Rel SameReading ((first.inside? later).bind List.getLast?)
      ((second.inside? others).bind List.getLast?) := by
  have hinside := inside?_rel hsame hlater
  generalize first.inside? later = between at hinside ⊢
  generalize second.inside? others = between' at hinside ⊢
  cases hinside with
  | none => exact .none
  | @some between between' hbetween =>
    have hreverse := List.rel_reverse hbetween
    rw [Option.bind_some, Option.bind_some, List.getLast?_eq_head?_reverse,
      List.getLast?_eq_head?_reverse]
    generalize between.reverse = backwards at hreverse ⊢
    generalize between'.reverse = backwards' at hreverse ⊢
    cases hreverse with
    | nil => exact .none
    | cons hlast _ => exact .some hlast

/-- What a call returns. -/
theorem returnData_sameResult {later others : List Step}
    (hlater : List.Forall₂ SameReading later others) :
    SameResult (first.returnData later) (second.returnData others) := by
  have hlast := lastInside_rel hsame hlater
  unfold returnData
  generalize (first.inside? later).bind List.getLast? = last at hlast ⊢
  generalize (second.inside? others).bind List.getLast? = last' at hlast ⊢
  cases hlast with
  | none => exact .ok ""
  | some hlast =>
    have htop := topDown_forall₂ hlast
    dsimp only
    generalize Step.topDown _ = words at htop ⊢
    generalize Step.topDown _ = words' at htop ⊢
    rcases htop with _ | ⟨hoffset, _ | ⟨hsize, -⟩⟩
    · exact .ok ""
    · exact .ok ""
    · exact region_sameResult hlast hoffset hsize

/-! ### Events -/

theorem callEvent_sameResult {later others : List Step}
    (hlater : List.Forall₂ SameReading later others) (kind : CallKind)
    {target target' offset offset' size size' : String} {amount amount' : Option String}
    (htarget : SameWord target target') (hamount : Option.Rel SameWord amount amount')
    (hoffset : SameWord offset offset') (hsize : SameWord size size') :
    SameResult (first.callEvent later kind target amount offset size)
      (second.callEvent others kind target' amount' offset' size') := by
  unfold callEvent
  rw [hsame.depth]
  refine (read_sameResult hsame (Hex.Word.address?_congr htarget)).bind fun address ↦ ?_
  have hinput := region_sameResult hsame hoffset hsize
  have hdata := returnData_sameResult hsame hlater
  cases hamount with
  | none =>
    exact (SameResult.ok none).bind fun value ↦ hinput.bind fun input ↦ hdata.bind fun data ↦ .ok _
  | some hword =>
    refine (amount_sameResult hsame hword).bind fun value ↦ ?_
    exact hinput.bind fun input ↦ hdata.bind fun data ↦ .ok _

theorem createEvent_sameResult (sender : Address) (kind : CallKind)
    {amount amount' offset offset' size size' : String} (hamount : SameWord amount amount')
    (hsize : SameWord size size') (hoffset : SameWord offset offset') :
    SameResult (createEvent sender first kind amount size offset)
      (createEvent sender second kind amount' size' offset') := by
  unfold createEvent
  rw [hsame.depth]
  refine (region_sameResult hsame hoffset hsize).bind fun input ↦ ?_
  refine (read_sameResult hsame rfl).bind fun codeHash ↦ ?_
  refine (read_sameResult hsame (Hex.Word.salt?_congr hoffset)).bind fun salt ↦ ?_
  exact (amount_sameResult hsame hamount).bind fun value ↦ .ok _

end Readers

/-- Operands that are the same words up to notation. -/
inductive Operands.Alike : Operands → Operands → Prop
  | call {target target' offset offset' size size' : String} {amount amount' : Option String}
    (htarget : SameWord target target') (hamount : Option.Rel SameWord amount amount')
    (hoffset : SameWord offset offset') (hsize : SameWord size size') :
    Alike (.call target amount offset size) (.call target' amount' offset' size')
  | creation {amount amount' offset offset' size size' : String} (hamount : SameWord amount amount')
    (hsize : SameWord size size') (hoffset : SameWord offset offset') :
    Alike (.creation amount size offset) (.creation amount' size' offset')

/-- Stacks with the same words up to notation hold the same operands up to notation. -/
theorem operands?_rel (kind : CallKind) {words others : List String}
    (hwords : List.Forall₂ SameWord words others) :
    Option.Rel Operands.Alike (operands? kind words) (operands? kind others) := by
  cases kind with
  | call | callCode =>
    rcases hwords with _ | ⟨-, _ | ⟨htarget, _ | ⟨hamount, _ | ⟨hoffset, _ | ⟨hsize, -⟩⟩⟩⟩⟩
    case cons.cons.cons.cons.cons => exact .some (.call htarget (.some hamount) hoffset hsize)
    all_goals exact .none
  | delegateCall | staticCall =>
    rcases hwords with _ | ⟨-, _ | ⟨htarget, _ | ⟨hoffset, _ | ⟨hsize, -⟩⟩⟩⟩
    case cons.cons.cons.cons => exact .some (.call htarget .none hoffset hsize)
    all_goals exact .none
  | create | create2 =>
    rcases hwords with _ | ⟨hamount, _ | ⟨hsize, _ | ⟨hoffset, -⟩⟩⟩
    case cons.cons.cons => exact .some (.creation hamount hsize hoffset)
    all_goals exact .none

theorem event_sameResult (sender : Address) (kind : CallKind) {first second : Step}
    (hsame : SameReading first second) {later others : List Step}
    (hlater : List.Forall₂ SameReading later others) :
    SameResult (first.event sender later kind) (second.event sender others kind) := by
  have hoperands := operands?_rel kind (topDown_forall₂ hsame)
  rw [event_eq, event_eq]
  generalize operands? kind first.topDown = operands at hoperands ⊢
  generalize operands? kind second.topDown = operands' at hoperands ⊢
  cases hoperands with
  | none =>
    rw [hsame.pc, hsame.stack.length_eq]
    exact .error (.stackUnderflow ..)
  | some halike =>
    cases halike with
    | call htarget hamount hoffset hsize =>
      exact callEvent_sameResult hsame hlater kind htarget hamount hoffset hsize
    | creation hamount hsize hoffset =>
      exact createEvent_sameResult hsame sender kind hamount hsize hoffset

theorem kind?_eq (legacyCallPcs : List UInt32) {first second : Step}
    (hsame : SameReading first second) : first.kind? legacyCallPcs = second.kind? legacyCallPcs := by
  rw [kind?, kind?, hsame.mnemonic, hsame.pc]

end Step

/-! ### Traces -/

section Traces

variable {first second : List Step} (hsame : List.Forall₂ Step.SameReading first second)

include hsame

/-- Step by step the outcomes are the same. -/
theorem forall₂_outcomes (sender : Address) (legacyCallPcs : List UInt32) :
    List.Forall₂ (Option.Rel SameResult) (outcomes sender legacyCallPcs first)
      (outcomes sender legacyCallPcs second) := by
  induction hsame with
  | nil => exact .nil
  | @cons step other rest rest' hstep hrest ih =>
    refine .cons ?_ ih
    rw [Step.outcome?, Step.outcome?, Step.kind?_eq legacyCallPcs hstep]
    cases other.kind? legacyCallPcs with
    | none => exact .none
    | some kind => exact .some (Step.event_sameResult sender kind hstep hrest)

end Traces

theorem goodEvents_eq {first second : List (Option (Except TraceError Event))}
    (hsame : List.Forall₂ (Option.Rel SameResult) first second) :
    goodEvents first = goodEvents second := by
  induction hsame with
  | nil => rfl
  | @cons outcome other rest rest' houtcome hrest ih =>
    have hevent : outcome.bind Except.toOption = other.bind Except.toOption := by
      cases houtcome with
      | none => rfl
      | some hresult => exact hresult.toOption_eq
    rw [goodEvents, goodEvents] at ih ⊢
    rw [List.filterMap_cons, List.filterMap_cons, hevent, ih]

theorem allEvents_sameResult {first second : List (Option (Except TraceError Event))}
    (hsame : List.Forall₂ (Option.Rel SameResult) first second) :
    SameResult (allEvents first) (allEvents second) := by
  induction hsame with
  | nil => exact .ok []
  | cons houtcome hrest ih =>
    cases houtcome with
    | none => exact ih
    | some hresult =>
      cases hresult with
      | error halike => exact .error halike
      | ok event => exact ih.bind fun events ↦ .ok _

/-- The notation of a trace does not change what is reconstructed from it. Assumes: two traces with
equally many steps, which differ in notation only. Where steps that cannot be read are left out both
traces have the same events, and where such a step ends the reconstruction they have the same events
or fail with errors of one kind at one place. -/
theorem reconstruct_sameResult (sender : Address) (settings : Settings) {first second : List Step}
    (hsame : List.Forall₂ Step.SameReading first second) :
    (settings.malformedStep = .skip → ∃ events, reconstruct sender settings first = .ok events ∧
      reconstruct sender settings second = .ok events) ∧
      (settings.malformedStep = .fail →
        SameResult (reconstruct sender settings first) (reconstruct sender settings second)) := by
  have houtcomes := forall₂_outcomes hsame sender settings.legacyCallPcs
  constructor
  · intro hskip
    rw [reconstruct, reconstruct, hskip]
    exact ⟨_, rfl, by rw [goodEvents_eq houtcomes]⟩
  · intro hfail
    rw [reconstruct, reconstruct, hfail]
    exact allEvents_sameResult houtcomes

theorem reconstruct_sameResult_of_marks_and_case :
    (∃ events,
      reconstruct ⟨List.replicate 20 0, rfl⟩ {}
          [⟨5, "CALL", 1, ["0x2", "0x0", "0x0", "0xAB", "ff"], some ["0xaabb"]⟩,
            ⟨6, "create", 1, ["0x", "zz", "1"], none⟩] = .ok events ∧
        reconstruct ⟨List.replicate 20 0, rfl⟩ {}
          [⟨5, "call", 1, ["02", "", "0X00", "00ab", "0xFF"], some ["AA", "0xBB"]⟩,
            ⟨6, "CREATE", 1, ["0", "0x-", "0x01"], some []⟩] = .ok events) ∧
      SameResult
        (reconstruct ⟨List.replicate 20 0, rfl⟩ { malformedStep := .fail }
          [⟨5, "CALL", 1, ["0x2", "0x0", "0x0", "0xAB", "ff"], some ["0xaabb"]⟩,
            ⟨6, "create", 1, ["0x", "zz", "1"], none⟩])
        (reconstruct ⟨List.replicate 20 0, rfl⟩ { malformedStep := .fail }
          [⟨5, "call", 1, ["02", "", "0X00", "00ab", "0xFF"], some ["AA", "0xBB"]⟩,
            ⟨6, "CREATE", 1, ["0", "0x-", "0x01"], some []⟩]) := by
  have hsame : List.Forall₂ Step.SameReading
      [⟨5, "CALL", 1, ["0x2", "0x0", "0x0", "0xAB", "ff"], some ["0xaabb"]⟩,
        ⟨6, "create", 1, ["0x", "zz", "1"], none⟩]
      [⟨5, "call", 1, ["02", "", "0X00", "00ab", "0xFF"], some ["AA", "0xBB"]⟩,
        ⟨6, "CREATE", 1, ["0", "0x-", "0x01"], some []⟩] := by
    refine .cons ⟨rfl, rfl, by decide +kernel, ?_, by decide +kernel⟩
      (.cons ⟨rfl, rfl, by decide +kernel, ?_, by decide +kernel⟩ .nil)
    · exact .cons (by decide +kernel) (.cons (by decide +kernel) (.cons (by decide +kernel)
        (.cons (by decide +kernel) (.cons (by decide +kernel) .nil))))
    · exact .cons (by decide +kernel) (.cons (by decide +kernel) (.cons (by decide +kernel) .nil))
  exact ⟨(reconstruct_sameResult _ {} hsame).1 rfl,
    (reconstruct_sameResult _ { malformedStep := .fail } hsame).2 rfl⟩

end CodeTrail
