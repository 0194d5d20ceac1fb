import CodeTrail.CommandLine.Disassemble
import CodeTrail.Proofs.Json.Text
import CodeTrail.Proofs.Listing.Passes
import CodeTrail.Proofs.Listing.Prologues
import CodeTrail.Proofs.Program.Layout
import CodeTrail.Proofs.Wire.Program
import CodeTrail.Proofs.Wire.Trace

/-!
# Round trips through JSON

Every record type is faithful, and a listing that the command writes as JSON is read from that text
as the listing it is, so that both forms of the command say the same (`json_roundTrip`). The indices
in the listing of a program count its instructions, of which there are no more than bytes of code,
and its JSON has few levels, so the reader of texts can take it.
-/

set_option autoImplicit false
set_option relaxedAutoImplicit false

namespace CodeTrail

open Json

/-! ### The listing of a program is in range -/

theorem Program.length_instructions_ofBytes_le (code : List UInt8) :
    (ofBytes code).instructions.length ≤ code.length := by
  have hbytes := congrArg List.length (flatMap_bytes_chunks code)
  have hchunk : ∀ chunks : List Chunk, chunks.length ≤ (chunks.flatMap Chunk.bytes).length := by
    intro chunks
    induction chunks with
    | nil => exact Nat.le_refl _
    | cons chunk rest ih =>
      rw [List.flatMap_cons, List.length_append, List.length_cons, Chunk.bytes, List.length_cons]
      omega
  have hcount := hchunk (chunks code)
  rw [List.length_take] at hbytes
  rw [ofBytes_eq_place, length_place]
  omega

namespace Listing

theorem inRange_of {program : Program} (hsize : program.instructions.length ≤ UInt64.size)
    (htargets : ∀ instruction ∈ program.instructions, instruction.InRange) :
    (of program).InRange := by
  have hprologues : ∀ index ∈ (of program).prologues, index < UInt64.size := fun index hindex ↦
    Nat.lt_of_lt_of_le (lt_length_of_mem_prologuesFrom hindex) hsize
  refine ⟨fun instruction hinstruction target htarget ↦ ?_, hprologues, fun index hindex ↦
    hprologues index (List.mem_of_getElem? hindex)⟩
  obtain ⟨index, hindex⟩ := List.mem_iff_getElem?.mp hinstruction
  rw [getElem?_instructions_of] at hindex
  obtain ⟨source, hsource, rfl⟩ := Option.map_eq_some_iff.mp hindex
  rw [annotatedAt] at htarget
  dsimp only at htarget
  split at htarget
  · obtain ⟨-, ⟨found, hfound, -⟩, -⟩ := targetIn_eq_some_iff.mp htarget
    rw [getElem?_placed] at hfound
    obtain ⟨landing, hlanding, -⟩ := Option.map_eq_some_iff.mp hfound
    obtain ⟨hlt, -⟩ := List.getElem?_eq_some_iff.mp hlanding
    exact Nat.lt_of_lt_of_le hlt hsize
  · exact htargets source (List.mem_of_getElem? hsource) target htarget

/-- The listing of the program that a text of digits holds is in range. -/
theorem inRange_of_decode {text : String} (hsize : (Hex.code text).length < UInt64.size) :
    (of (Program.decode text)).InRange := by
  rw [Program.decode_eq_ofBytes]
  refine inRange_of ?_ fun instruction hinstruction target htarget ↦ ?_
  · have := Program.length_instructions_ofBytes_le (Hex.code text)
    omega
  · obtain ⟨index, hindex⟩ := List.mem_iff_getElem?.mp hinstruction
    rw [Program.getElem?_ofBytes] at hindex
    obtain ⟨chunk, -, rfl⟩ := Option.map_eq_some_iff.mp hindex
    cases htarget

end Listing

/-! ### Listings as text -/

theorem Instruction.isReadable_toJson {instruction : Instruction} (hrange : instruction.InRange) :
    IsReadable 3 instruction.toJson := by
  have hword (number : UInt32) : IsReadable 2 (ofNat number.toNat) :=
    isReadable_ofNat (Nat.lt_trans number.toNat_lt_size (by decide))
  have hbyte (number : UInt8) : IsReadable 2 (ofNat number.toNat) :=
    isReadable_ofNat (Nat.lt_trans number.toNat_lt_size (by decide))
  have hcomments : ∀ member ∈ (if instruction.comments.isEmpty then []
      else [("comments", ofTexts instruction.comments)]), IsReadable 2 member.2 := by
    split
    · exact fun _ hmem ↦ absurd hmem List.not_mem_nil
    · exact List.forall_mem_singleton.mpr (isReadable_ofTexts _)
  refine isReadable_object ?_
  simp only [List.forall_mem_append, List.forall_mem_cons]
  exact ⟨⟨⟨⟨⟨isReadable_string _, hword _, hword _, hbyte _, hbyte _, by simp⟩,
    forall_mem_optionalMember _ fun _ _ ↦ isReadable_string _⟩,
    forall_mem_optionalMember _ fun _ _ ↦ isReadable_string _⟩, hcomments⟩,
    forall_mem_optionalMember _ fun target htarget ↦ isReadable_ofNat (hrange target htarget)⟩

theorem Listing.isReadable_toJson {listing : Listing} (hrange : listing.InRange) :
    IsReadable maxDepth listing.toJson := by
  obtain ⟨hinstructions, hprologues, hstart⟩ := hrange
  have hstartMember : IsReadable 4 (ofOption ofNat listing.runtimeStart) := by
    cases hfound : listing.runtimeStart with
    | none => exact isReadable_null
    | some start => exact isReadable_ofNat (hstart start hfound)
  have hobject : IsReadable 5 listing.toJson := by
    refine isReadable_object ?_
    simp only [List.forall_mem_cons]
    exact ⟨isReadable_array (List.forall_mem_map.mpr fun instruction hmem ↦
        Instruction.isReadable_toJson (hinstructions instruction hmem)),
      isReadable_array (List.forall_mem_map.mpr fun index hmem ↦
        isReadable_ofNat (hprologues index hmem)), hstartMember, by simp⟩
  exact ⟨hobject.isPlain, Nat.le_trans hobject.height_le (by decide)⟩

namespace CommandLine.Disassembly

/-- What the command writes behind the listing. -/
def ending (disassembly : Disassembly) (code : String) : String :=
  if disassembly.withExpressions then
    (Grouping.of (Listing.of (Program.decode code))).toJson.pretty ++ "\n"
  else ""

theorem toList_output_json (disassembly : Disassembly) (code : String) :
    (output { disassembly with form := .json } code).toList =
      put Layout.lines 0 (Listing.of (Program.decode code)).toJson
        ('\n' :: (disassembly.ending code).toList) := by
  have happend := put_append Layout.lines 0 (Listing.of (Program.decode code)).toJson []
    ('\n' :: (disassembly.ending code).toList)
  rw [List.nil_append] at happend
  rw [happend]
  simp [output, ListingForm.write, pretty, ending]

/-- The listing is read off the front of what the command writes as JSON. -/
theorem value?_output (disassembly : Disassembly) {code : String}
    (hsize : (Hex.code code).length < UInt64.size) :
    value? (output { disassembly with form := .json } code).length maxDepth
        (output { disassembly with form := .json } code).toList =
      some ((Listing.of (Program.decode code)).toJson,
        '\n' :: (disassembly.ending code).toList) := by
  have hreadable := Listing.isReadable_toJson (Listing.inRange_of_decode hsize)
  rw [← String.length_toList, toList_output_json]
  exact value?_put Layout.isBlank_lines _ 0 maxDepth _ hreadable.isPlain hreadable.height_le
    (endsNumber_cons (Or.inl rfl) _) (Nat.le_add_right _ _)

/-- Without expressions, all that the command writes as JSON is read as the listing. -/
theorem read?_output (input : Channel) {code : String}
    (hsize : (Hex.code code).length < UInt64.size) :
    Json.read? (output ⟨input, .json, false⟩ code) =
      some (Listing.of (Program.decode code)).toJson := by
  have hreadable := Listing.isReadable_toJson (Listing.inRange_of_decode hsize)
  have houtput := congrArg String.ofList (toList_output_json ⟨input, .json, false⟩ code)
  have hending : ending ⟨input, .json, false⟩ code = "" := rfl
  rw [String.ofList_toList, hending] at houtput
  rw [houtput]
  exact read?_put Layout.isBlank_lines hreadable (by simp [isSpace])

end CommandLine.Disassembly

/-! ### Round trips -/

open CommandLine in
/-- Every record type keeps its values in JSON. What stands in an optional field tells it from an
absent one: a memory without words is written, and a listing without a runtime segment and an event
without a value or a hash are written with null. For every text of code, the command writes in JSON
what is read as a listing, and the text of this listing is what the command writes as text. -/
theorem json_roundTrip :
    Faithful Instruction.fields Instruction.InRange Instruction.toJson Instruction.ofJson? ∧
    Faithful Program.fields Program.InRange Program.toJson Program.ofJson? ∧
    Faithful Listing.fields Listing.InRange Listing.toJson Listing.ofJson? ∧
    Faithful Expression.fields Expression.InRange Expression.toJson Expression.ofJson? ∧
    Faithful Grouping.fields Grouping.InRange Grouping.toJson Grouping.ofJson? ∧
    Faithful Step.fields (fun _ ↦ True) Step.toJson Step.ofJson? ∧
    Faithful Trace.fields (fun _ ↦ True) Trace.toJson Trace.ofJson? ∧
    Faithful Settings.fields (fun _ ↦ True) Settings.toJson Settings.ofJson? ∧
    Faithful Event.fields (fun _ ↦ True) Event.toJson Event.ofJson? ∧
    (∀ step : Step, step.toJson.member? "memory" = step.memory.map ofTexts) ∧
    (∀ listing : Listing,
      listing.toJson.member? "runtimeStart" = some (ofOption ofNat listing.runtimeStart)) ∧
    (∀ event : Event, event.toJson.member? "value" = some (ofOption .string event.value) ∧
      event.toJson.member? "contractHashedBytecode" =
        some (ofOption (fun hash ↦ .string hash.text) event.codeHash)) ∧
    ∀ (disassembly : Disassembly) (code : String), (Hex.code code).length < UInt64.size →
      ∃ json listing ending,
        value? (Disassembly.output { disassembly with form := .json } code).length maxDepth
          (Disassembly.output { disassembly with form := .json } code).toList =
            some (json, '\n' :: ending) ∧
        (disassembly.withExpressions = false →
          Json.read? (Disassembly.output { disassembly with form := .json } code) = some json) ∧
        Listing.ofJson? json = some listing ∧
        Disassembly.output { disassembly with form := .text } code =
          listing.text ++ String.ofList ending := by
  refine ⟨Instruction.faithful, Program.faithful, Listing.faithful, Expression.faithful,
    Grouping.faithful, Step.faithful, Trace.faithful, Settings.faithful, Event.faithful,
    fun step ↦ ?_, fun _ ↦ rfl, fun _ ↦ ⟨rfl, rfl⟩, fun disassembly code hsize ↦ ?_⟩
  · simp [Step.toJson, member?_cons, member?_optionalMember]
  · have hlisting := Listing.ofJson?_toJson _ (Listing.inRange_of_decode hsize)
    refine ⟨_, _, _, Disassembly.value?_output disassembly hsize, fun hplain ↦ ?_, hlisting, ?_⟩
    · obtain ⟨input, form, withExpressions⟩ := disassembly
      obtain rfl : withExpressions = false := hplain
      exact Disassembly.read?_output input hsize
    · rw [String.ofList_toList]
      rfl

theorem json_roundTrip_of_listed_jump :
    (⟨"jump", 2, 1, 1, 0, none, none, [], some 0⟩ : Instruction).InRange ∧
      Instruction.ofJson? (.array [.string "jump", .integer 2, .integer 1, .integer 1, .integer 0,
        .null, .null, .array [], .integer 0]) =
          some ⟨"jump", 2, 1, 1, 0, none, none, [], some 0⟩ ∧
      (Hex.code "0x600056").length < UInt64.size ∧
      ∃ json listing ending,
        value? (CommandLine.Disassembly.output ⟨.standardInput, .json, true⟩ "0x600056").length
          maxDepth (CommandLine.Disassembly.output ⟨.standardInput, .json, true⟩ "0x600056").toList =
            some (json, '\n' :: ending) ∧
        Listing.ofJson? json = some listing ∧
        CommandLine.Disassembly.output ⟨.standardInput, .text, true⟩ "0x600056" =
          listing.text ++ String.ofList ending := by
  have hrange : (⟨"jump", 2, 1, 1, 0, none, none, [], some 0⟩ : Instruction).InRange := by
    intro target htarget
    obtain rfl := Option.some.inj htarget
    decide
  have hsize : (Hex.code "0x600056").length < UInt64.size := by decide +kernel
  obtain ⟨json, listing, ending, hvalue, -, hlisting, htext⟩ :=
    json_roundTrip.2.2.2.2.2.2.2.2.2.2.2.2 ⟨.standardInput, .json, true⟩ "0x600056" hsize
  refine ⟨hrange, json_roundTrip.1.read_listed _ _ hrange ?_, hsize, json, listing, ending, hvalue,
    hlisting, htext⟩
  exact .cons ⟨_, rfl, rfl⟩ <| .cons ⟨_, rfl, rfl⟩ <| .cons ⟨_, rfl, rfl⟩ <|
    .cons ⟨_, rfl, rfl⟩ <| .cons ⟨_, rfl, rfl⟩ <| .cons ⟨_, rfl, rfl⟩ <|
    .cons ⟨_, rfl, rfl⟩ <| .cons ⟨_, rfl, rfl⟩ <| .cons ⟨_, rfl, rfl⟩ .nil

end CodeTrail
