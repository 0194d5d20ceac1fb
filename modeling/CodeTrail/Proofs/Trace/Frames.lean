import CodeTrail.Proofs.Trace.Candidates
import CodeTrail.Proofs.Trace.Operands

/-!
# Where the frame of a call ends

Depths tell which steps belong to the frame of a call: `FrameReturns` says that the first later step
which is not deeper than the call is as deep as the call and stands right behind it. The return data
of a call is found without depths, at the first later step that stands right behind it;
`resumption?_eq_some_iff` says which index that is. So the end of the frame is found exactly when no
step inside the frame stands at that place as well, and then the region that is returned is read off
the last step of the frame (`returnData_of_frame`).
-/

set_option autoImplicit false
set_option relaxedAutoImplicit false

namespace CodeTrail

open Hex.Word (value?)

/-- The frame of the call at a place returns to the step at a later index: no step in between is as
shallow as the call, and the step itself is as deep as the call and stands right behind it. -/
structure FrameReturns (steps : List Step) (place : Nat) (call : Step) (index : Nat) (next : Step) :
    Prop where
  getElem?_place : steps[place]? = some call
  getElem?_index : steps[index]? = some next
  place_lt : place < index
  deeper : ∀ between inner, place < between → between < index → steps[between]? = some inner →
    call.depth < inner.depth
  depth_eq : next.depth = call.depth
  resumes : Step.Resumes call next

/-- The index at which the call at a place is taken to be resumed: the one behind the steps inside
it. -/
def resumption? (steps : List Step) (place : Nat) : Option Nat :=
  steps[place]?.bind fun call ↦
    (call.inside? (steps.drop (place + 1))).map fun between ↦ place + 1 + between.length

/-! ### The steps inside a call by their indices -/

/-- The steps inside a call are those before the first index with a step right behind the call. -/
theorem Step.inside?_eq_some_iff_take {step : Step} {later between : List Step} :
    step.inside? later = some between ↔
      ∃ count next, between = later.take count ∧ later[count]? = some next ∧ Resumes step next ∧
        ∀ earlier other, earlier < count → later[earlier]? = some other → ¬ Resumes step other := by
  rw [inside?_eq_some_iff]
  constructor
  · rintro ⟨next, rest, rfl, hnext, hbetween⟩
    refine ⟨between.length, next, by simp, by simp, hnext, fun earlier other hlt hother ↦ ?_⟩
    rw [List.getElem?_append_left hlt] at hother
    exact hbetween other (List.mem_of_getElem? hother)
  · rintro ⟨count, next, rfl, hnext, hresumes, hearlier⟩
    obtain ⟨hcount, hget⟩ := List.getElem?_eq_some_iff.mp hnext
    refine ⟨next, later.drop (count + 1), ?_, hresumes, fun other hother ↦ ?_⟩
    · rw [← hget, ← List.drop_eq_getElem_cons hcount, List.take_append_drop]
    · obtain ⟨earlier, hlt, rfl⟩ := List.mem_take_iff_getElem.mp hother
      exact hearlier earlier _ (by omega) (List.getElem?_eq_getElem _)

theorem Step.length_topDown (step : Step) : step.topDown.length = step.stack.length :=
  List.length_reverse

section Resumption

variable {steps : List Step} {place index : Nat} {call : Step}

theorem resumption?_eq_some_iff (hcall : steps[place]? = some call) :
    resumption? steps place = some index ↔
      place < index ∧ (∃ next, steps[index]? = some next ∧ Step.Resumes call next) ∧
        ∀ between inner, place < between → between < index → steps[between]? = some inner →
          ¬ Step.Resumes call inner := by
  rw [resumption?, hcall, Option.bind_some, Option.map_eq_some_iff]
  simp only [Step.inside?_eq_some_iff_take, List.getElem?_drop]
  constructor
  · rintro ⟨_, ⟨count, next, rfl, hnext, hresumes, hearlier⟩, rfl⟩
    have hbound := (List.getElem?_eq_some_iff.mp hnext).1
    have hlength : ((steps.drop (place + 1)).take count).length = count := by
      rw [List.length_take, List.length_drop]
      omega
    rw [hlength]
    refine ⟨by omega, ⟨next, hnext, hresumes⟩, fun between inner hafter hbefore hinner ↦ ?_⟩
    refine hearlier (between - (place + 1)) inner (by omega) ?_
    rwa [Nat.add_sub_cancel' hafter]
  · rintro ⟨hlt, ⟨next, hnext, hresumes⟩, hearlier⟩
    have hindex : place + 1 + (index - (place + 1)) = index := Nat.add_sub_cancel' hlt
    have hbound := (List.getElem?_eq_some_iff.mp hnext).1
    refine ⟨_, ⟨index - (place + 1), next, rfl, by rwa [hindex], hresumes, ?_⟩, ?_⟩
    · intro earlier other hbefore hother
      exact hearlier (place + 1 + earlier) other (by omega) (by omega) hother
    · rw [List.length_take, List.length_drop]
      omega

/-- What a call returns where it is taken to be resumed right away: nothing. -/
theorem returnData_of_resumption?_eq_succ (hcall : steps[place]? = some call)
    (hresumption : resumption? steps place = some (place + 1)) :
    call.returnData (steps.drop (place + 1)) = .ok "" := by
  rw [resumption?, hcall, Option.bind_some] at hresumption
  obtain ⟨between, hinside, hlength⟩ := Option.map_eq_some_iff.mp hresumption
  have hnil : between = [] := List.length_eq_zero_iff.mp (by omega)
  rw [Step.returnData, hinside, hnil]
  rfl

/-- What a call returns where it is taken to be resumed later: the region on top of the stack of the
step in front. -/
theorem returnData_of_resumption? (hcall : steps[place]? = some call)
    (hresumption : resumption? steps place = some index) {last : Step} (hne : index ≠ place + 1)
    (hlast : steps[index - 1]? = some last) :
    call.returnData (steps.drop (place + 1)) =
      match last.topDown with
      | offset :: size :: _ => last.region offset size
      | _ => .ok "" := by
  rw [resumption?, hcall, Option.bind_some] at hresumption
  obtain ⟨between, hinside, hlength⟩ := Option.map_eq_some_iff.mp hresumption
  obtain ⟨count, next, rfl, hnext, -⟩ := Step.inside?_eq_some_iff_take.mp hinside
  have hbound := (List.getElem?_eq_some_iff.mp hnext).1
  rw [List.length_take_of_le hbound.le] at hlength
  have hend : ((steps.drop (place + 1)).take count).getLast? = some last := by
    have hplace : place + 1 + (count - 1) = index - 1 := by omega
    rw [List.getLast?_take, if_neg (by omega), List.getElem?_drop, hplace, hlast]
    rfl
  rcases htop : last.topDown with - | ⟨offset, - | ⟨size, rest⟩⟩ <;>
    simp only [Step.returnData, hinside, Option.bind_some, hend, htop]

end Resumption

/-! ### Frames -/

/-- Where the frame of a call returns, its end is the index at which the call is taken to be resumed
exactly when no step inside the frame stands right behind the call. Then nothing is returned if the
frame is empty. Otherwise the step in front of the end is inside the frame, and what is returned is
the region of its memory that the two topmost words of its stack give: nothing where the stack holds
fewer than two words or the memory was not recorded. If the digits of the memory fit the memory of a
machine, these are the digits between the positions that the numbers of the words tell. -/
theorem returnData_of_frame (sender : Address) (legacyCallPcs : List UInt32) {steps : List Step}
    {place index : Nat} {call next : Step} (hframe : FrameReturns steps place call index next)
    {kind : CallKind} (hkind : call.kind? legacyCallPcs = some kind) (hcall : kind.IsCall) :
    (resumption? steps place = some index ↔
      ∀ between inner, place < between → between < index → steps[between]? = some inner →
        ¬ Step.Resumes call inner) ∧
    (resumption? steps place = some index →
      ∀ event, eventAt? sender legacyCallPcs steps place = some event →
        (index = place + 1 → event.returnData = "") ∧
        (index ≠ place + 1 → ∃ last, steps[index - 1]? = some last ∧ call.depth < last.depth ∧
          (last.stack.length < 2 → event.returnData = "") ∧
          ∀ offset size rest, last.topDown = offset :: size :: rest →
            (last.memory = none → event.returnData = "") ∧
            ∃ start count, value? offset = some start ∧ value? size = some count ∧
              last.HoldsAt start count event.returnData ∧
              (last.memoryText.length < Nat.pow 2 63 → event.returnData.toList =
                if last.digitsAt start count = [] then []
                else '0' :: 'x' :: last.digitsAt start count))) := by
  obtain ⟨hplace, hindex, hlt, hdeeper, -, hresumes⟩ := hframe
  constructor
  · rw [resumption?_eq_some_iff hplace]
    exact ⟨fun h ↦ h.2.2, fun h ↦ ⟨hlt, ⟨next, hindex, hresumes⟩, h⟩⟩
  · intro hresumption event hevent
    obtain ⟨step, other, hstep, hother, hevent⟩ := eventAt?_eq_some_iff.mp hevent
    obtain rfl := Option.some.inj (hplace.symm.trans hstep)
    obtain rfl := Option.some.inj (hkind.symm.trans hother)
    have hdata := Step.returnData_of_event hcall hevent
    constructor
    · rintro rfl
      rw [returnData_of_resumption?_eq_succ hplace hresumption] at hdata
      exact (Except.ok.inj hdata).symm
    · intro hne
      have hbound := (List.getElem?_eq_some_iff.mp hindex).1
      have hlast : steps[index - 1]? = some steps[index - 1] := List.getElem?_eq_getElem _
      rw [returnData_of_resumption? hplace hresumption hne hlast] at hdata
      refine ⟨_, hlast, hdeeper _ _ (by omega) (by omega) hlast, fun hshort ↦ ?_, ?_⟩
      · rw [← Step.length_topDown] at hshort
        match htop : steps[index - 1].topDown with
        | [] | [_] => rw [htop] at hdata; exact (Except.ok.inj hdata).symm
        | _ :: _ :: _ => rw [htop, List.length_cons, List.length_cons] at hshort; omega
      · intro offset size rest htop
        rw [htop] at hdata
        obtain ⟨start, count, hstart, hcount, hholds⟩ := Step.region_eq_ok_iff.mp hdata
        exact ⟨hholds.eq_empty, start, count, hstart, hcount, hholds, hholds.toList_eq⟩

/-- A call with a call inside it. The region is read off the step in front of the end of its frame, as
long as the inner step does not stand at place eleven as well. -/
theorem returnData_of_frame_around_call :
    let sender : Address := ⟨List.replicate 20 0, rfl⟩
    let call : Step := ⟨10, "CALL", 1, ["0", "0", "0", "1", "0"], none⟩
    let next : Step := ⟨11, "POP", 1, [], none⟩
    let steps (pc : UInt32) : List Step := [call, ⟨0, "CALL", 2, [], none⟩, ⟨pc, "STOP", 3, [], none⟩,
      ⟨1, "RETURN", 2, ["0x2", "0x1"], some ["aabb", "0xCCDD"]⟩, next]
    FrameReturns (steps 7) 0 call 4 next ∧ resumption? (steps 7) 0 = some 4 ∧
      (∃ event start count, eventAt? sender [] (steps 7) 0 = some event ∧
        value? "0x1" = some start ∧ value? "0x2" = some count ∧
        Step.HoldsAt ⟨1, "RETURN", 2, ["0x2", "0x1"], some ["aabb", "0xCCDD"]⟩ start count
          event.returnData ∧
        event.returnData = "0xbbcc") ∧
      FrameReturns (steps 11) 0 call 4 next ∧ resumption? (steps 11) 0 ≠ some 4 := by
  intro sender call next steps
  have hframe (pc : UInt32) : FrameReturns (steps pc) 0 call 4 next := by
    refine ⟨rfl, rfl, by decide, fun between inner hafter hbefore hinner ↦ ?_, rfl, by decide⟩
    have hbetween : between = 1 ∨ between = 2 ∨ between = 3 := by omega
    rcases hbetween with rfl | rfl | rfl <;> obtain rfl := Option.some.inj hinner
    · exact (by decide : (1 : UInt32) < 2)
    · exact (by decide : (1 : UInt32) < 3)
    · exact (by decide : (1 : UInt32) < 2)
  have hkind : call.kind? [] = some .call := by decide +kernel
  have hcall : CallKind.call.IsCall := ⟨by decide, by decide⟩
  obtain ⟨hfound, hdata⟩ := returnData_of_frame sender [] (hframe 7) hkind hcall
  obtain ⟨hother, -⟩ := returnData_of_frame sender [] (hframe 11) hkind hcall
  have hresumption : resumption? (steps 7) 0 = some 4 := by
    refine hfound.mpr fun between inner hafter hbefore hinner ↦ ?_
    have hbetween : between = 1 ∨ between = 2 ∨ between = 3 := by omega
    rcases hbetween with rfl | rfl | rfl <;> obtain rfl := Option.some.inj hinner <;> decide
  have hsome : (eventAt? sender [] (steps 7) 0).isSome = true := by decide +kernel
  obtain ⟨event, hevent⟩ := Option.isSome_iff_exists.mp hsome
  obtain ⟨last, hlast, -, -, hregion⟩ := (hdata hresumption event hevent).2 (by decide)
  obtain rfl := Option.some.inj hlast
  obtain ⟨-, start, count, hstart, hcount, hholds, hdigits⟩ := hregion "0x1" "0x2" [] rfl
  have hone : value? "0x1" = some 1 := by decide +kernel
  have htwo : value? "0x2" = some 2 := by decide +kernel
  obtain rfl := Option.some.inj (hone.symm.trans hstart)
  obtain rfl := Option.some.inj (htwo.symm.trans hcount)
  have htext : event.returnData = "0xbbcc" :=
    String.toList_injective ((hdigits (by decide +kernel)).trans (by decide +kernel))
  refine ⟨hframe 7, hresumption, ⟨event, 1, 2, hevent, hstart, hcount, hholds, htext⟩,
    hframe 11, fun hsame ↦ ?_⟩
  exact hother.mp hsame 2 _ (by decide) (by decide) rfl rfl

end CodeTrail
