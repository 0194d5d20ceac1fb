import CodeTrail.Code.Session
import CodeTrail.Proofs.Code.Store
import CodeTrail.Proofs.Hex.Word
import Mathlib.Data.Finset.Card

/-!
# Sessions and the writes in them

A session is settled by its writes: the pairs that the store was made from and then the insertions, in
order, those whose address is none left out. `answer_ofList` says so of one request: the store is that
of the writes so far, the answer is read off them (`responseTo`), and the store after it is that of the
writes with this one. By induction every turn of a session is of that form (`getElem?_session`).

What is left is to say what a store made from writes holds (`Keeps`): for an address the code of the
last write for it, and an entry for every address among them. Addresses come as texts, and texts that
differ in case and in their mark only are one address (`Octets.read?_congr`). `session_of_writes` puts
this together.
-/

set_option autoImplicit false
set_option relaxedAutoImplicit false

namespace CodeTrail.Code

/-! ### Writes -/

/-- What a request writes. -/
def Request.write? (request : Request) : Option (Address × String) :=
  match request.action with
  | .insert code => (Octets.read? 20 request.address).map fun address ↦ (address, code)
  | _ => none

/-- The requests that do not write. -/
theorem Request.write?_eq_none_iff {request : Request} :
    request.write? = none ↔
      (∀ code, request.action ≠ .insert code) ∨ Octets.read? 20 request.address = none := by
  rw [write?]
  cases request.action <;> simp

/-- What requests write, in order. -/
def written (requests : List Request) : List (Address × String) :=
  requests.filterMap Request.write?

theorem written_cons (request : Request) (rest : List Request) :
    written (request :: rest) = request.write?.toList ++ written rest := by
  rw [written, List.filterMap_cons]
  cases request.write? <;> rfl

namespace Store

/-- The answer to a request, read off the writes before it. -/
def responseTo (writes : List (Address × String)) (request : Request) : Response :=
  match Octets.read? 20 request.address, request.action with
  | none, _ => .noAddress
  | some _, .insert _ => .done
  | some address, .fetch => .code (lastCode writes address)
  | some address, .tryFingerprint => .outcome (fingerprintOf (lastCode writes address))
  | some address, .fingerprint => .fingerprint (fingerprintOf (lastCode writes address)).toOption

/-! ### What a store made from writes holds -/

/-- A store answers at once, whatever the limit. -/
theorem tryFingerprint_source (store : Store) (limit : UInt64) (address : Address) :
    Code.tryFingerprint store.source limit address = fingerprintOf (store.fetch address) :=
  rfl

theorem mem_addresses_ofList {writes : List (Address × String)} {address : Address} :
    address ∈ (ofList writes).entries.map (·.1) ↔ address ∈ writes.map (·.1) := by
  induction writes using List.reverseRecOn with
  | nil => rfl
  | append_singleton rest write ih =>
    rw [ofList_append_singleton, insert, mem_addresses_put, ih, List.map_append, List.mem_append,
      List.map_singleton, List.mem_singleton, or_comm]

/-- A store holds what was written. -/
structure Keeps (writes : List (Address × String)) (store : Store) : Prop where
  /-- The code of an address is that of the last write for it. -/
  fetch (address : Address) : store.fetch address = lastCode writes address
  /-- There are as many entries as addresses that were written to. -/
  size : store.size = (writes.map (·.1)).toFinset.card
  isEmpty_iff : store.isEmpty = true ↔ writes = []
  /-- Fingerprints are those of the last code. -/
  tryFingerprint (limit : UInt64) (address : Address) :
    Code.tryFingerprint store.source limit address = fingerprintOf (lastCode writes address)
  fingerprint? (limit : UInt64) (address : Address) :
    Code.fingerprint? store.source limit address =
      (fingerprintOf (lastCode writes address)).toOption

theorem keeps_ofList (writes : List (Address × String)) : Keeps writes (ofList writes) where
  fetch := fetch_ofList writes
  size := by
    have haddresses : (writes.map (·.1)).toFinset = ((ofList writes).entries.map (·.1)).toFinset := by
      ext address
      rw [List.mem_toFinset, List.mem_toFinset, mem_addresses_ofList]
    rw [haddresses, List.toFinset_card_of_nodup (ofList writes).nodup_addresses, List.length_map, size]
  isEmpty_iff := by
    have haddresses := List.eq_nil_iff_forall_not_mem (l := (ofList writes).entries.map (·.1))
    simp only [mem_addresses_ofList] at haddresses
    rw [isEmpty, List.isEmpty_iff, ← List.map_eq_nil_iff, haddresses, ← List.eq_nil_iff_forall_not_mem,
      List.map_eq_nil_iff]
  tryFingerprint limit address := by rw [tryFingerprint_source, fetch_ofList]
  fingerprint? limit address := by rw [Code.fingerprint?, tryFingerprint_source, fetch_ofList]

/-! ### Turns of a session -/

/-- A request that does not write leaves the store as it is. -/
theorem answer_of_write?_eq_none {request : Request} (hwrite : request.write? = none)
    (limit : UInt64) (store : Store) : (store.answer limit request).2 = store := by
  obtain ⟨action, text⟩ := request
  rw [Request.write?_eq_none_iff] at hwrite
  rw [answer]
  cases hread : Octets.read? 20 text with
  | none => rfl
  | some address =>
    cases action with
    | insert code => simp [hread] at hwrite
    | fetch => rfl
    | tryFingerprint => rfl
    | fingerprint => rfl

/-- A store made from writes answers by them, and it then is the store of these and the new one. -/
theorem answer_ofList (limit : UInt64) (writes : List (Address × String)) (request : Request) :
    (ofList writes).answer limit request =
      (responseTo writes request, ofList (writes ++ request.write?.toList)) := by
  obtain ⟨action, text⟩ := request
  rw [answer, responseTo, Request.write?]
  dsimp only
  cases Octets.read? 20 text with
  | none => cases action <;> simp
  | some address =>
    cases action with
    | insert code =>
      simp only [perform, Option.map_some, Option.toList_some, ofList_append_singleton]
    | fetch => simp [perform, fetch_ofList]
    | tryFingerprint => simp [perform, (keeps_ofList writes).tryFingerprint]
    | fingerprint => simp [perform, (keeps_ofList writes).fingerprint?]

/-- Every turn of a session is settled by the writes before it and its own. -/
theorem getElem?_session (limit : UInt64) (writes : List (Address × String))
    (requests : List Request) (index : Nat) :
    (session limit (ofList writes) requests)[index]? =
      requests[index]?.map fun request ↦
        (responseTo (writes ++ written (requests.take index)) request,
          ofList (writes ++ written (requests.take (index + 1)))) := by
  -- The writes are any: those of the first request join them for the turns behind it.
  induction requests generalizing writes index with
  | nil => rfl
  | cons request rest ih =>
    rw [session, answer_ofList]
    cases index with
    | zero =>
      rw [List.getElem?_cons_zero, List.getElem?_cons_zero, Option.map_some, List.take_zero,
        List.take_succ_cons, List.take_zero, written_cons]
      simp [written]
    | succ index =>
      rw [List.getElem?_cons_succ, List.getElem?_cons_succ, ih, List.take_succ_cons,
        List.take_succ_cons, written_cons, written_cons, List.append_assoc, List.append_assoc]

/-! ### Spellings and insertions in a session -/

/-- Two requests ask for the same at addresses that are spelled alike. -/
structure AskAlike (first second : Request) : Prop where
  action : first.action = second.action
  address : Octets.SpelledAlike first.address second.address

theorem answer_congr {first second : Request} (halike : AskAlike first second) (limit : UInt64)
    (store : Store) : store.answer limit first = store.answer limit second := by
  rw [answer, Octets.read?_congr halike.address, halike.action, answer]

theorem session_congr {requests others : List Request} (halike : List.Forall₂ AskAlike requests others)
    (limit : UInt64) (store : Store) : session limit store requests = session limit store others := by
  induction halike generalizing store with
  | nil => rfl
  | cons hrequest _ ih => rw [session, session, answer_congr hrequest, ih]

/-- The request that writes a pair. -/
def insertion (pair : Address × String) : Request :=
  ⟨.insert pair.2, pair.1.text⟩

theorem written_map_insertion (pairs : List (Address × String)) :
    written (pairs.map insertion) = pairs := by
  have hwrite (pair : Address × String) : (insertion pair).write? = some pair := by
    rw [Request.write?, insertion]
    dsimp only
    rw [Octets.read?_text, Option.map_some]
  rw [written, List.filterMap_map]
  exact (List.filterMap_congr fun pair _ ↦ hwrite pair).trans List.filterMap_some

/-- A store made from pairs goes on like the empty store that the pairs were inserted into. -/
theorem drop_session_insertions (limit : UInt64) (pairs : List (Address × String))
    (requests : List Request) :
    (session limit empty (pairs.map insertion ++ requests)).drop pairs.length =
      session limit (ofList pairs) requests := by
  have hlength : (pairs.map insertion).length = pairs.length := List.length_map _
  have hwritten (count : Nat) :
      written ((pairs.map insertion ++ requests).take (pairs.length + count)) =
        pairs ++ written (requests.take count) := by
    rw [← hlength, List.take_length_add_append, written, List.filterMap_append, ← written, ← written,
      written_map_insertion]
  have hempty : empty = ofList [] := rfl
  apply List.ext_getElem?
  intro index
  rw [List.getElem?_drop, hempty, getElem?_session, getElem?_session,
    List.getElem?_append_right (by rw [hlength]; exact Nat.le_add_right _ _), hlength,
    Nat.add_sub_cancel_left, hwritten, Nat.add_assoc, hwritten, List.nil_append, List.nil_append]

/-- In a session with a store, the last write counts. Every answer is read off the writes before it, the
pairs that the store was made from among them, and the store then holds these writes and the new one, if
there is one. Only an insertion at an address changes it. Spellings of an address do not matter, nor
whether the pairs came first or were inserted one by one. -/
theorem session_of_writes (limit : UInt64) (pairs : List (Address × String))
    (requests : List Request) :
    (∀ index, (session limit (ofList pairs) requests)[index]? =
        requests[index]?.map fun request ↦
          (responseTo (pairs ++ written (requests.take index)) request,
            ofList (pairs ++ written (requests.take (index + 1))))) ∧
      (∀ count, Keeps (pairs ++ written (requests.take count))
        (ofList (pairs ++ written (requests.take count)))) ∧
      (∀ (store : Store) (request : Request),
        (∀ code, request.action ≠ .insert code) ∨ Octets.read? 20 request.address = none →
          (store.answer limit request).2 = store) ∧
      (∀ others, List.Forall₂ AskAlike requests others →
        session limit (ofList pairs) requests = session limit (ofList pairs) others) ∧
      (session limit empty (pairs.map insertion ++ requests)).drop pairs.length =
        session limit (ofList pairs) requests := by
  refine ⟨getElem?_session limit pairs requests, fun count ↦ keeps_ofList _, ?_, ?_, ?_⟩
  · intro store request hwrite
    exact answer_of_write?_eq_none (Request.write?_eq_none_iff.mpr hwrite) limit store
  · exact fun others halike ↦ session_congr halike limit (ofList pairs)
  · exact drop_session_insertions limit pairs requests

/-- One address in two spellings: its code is replaced and then asked for, with a text between that is no
address. -/
theorem session_of_two_spellings :
    let address : Address := ⟨List.replicate 20 0xab, rfl⟩
    let upper := "0XABABABABABABABABABABABABABABABABABABABAB"
    let lower := "abababababababababababababababababababab"
    let requests : List Request := [⟨.insert "0x02", upper⟩, ⟨.insert "0x03", "0xab"⟩, ⟨.fetch, lower⟩]
    let others : List Request := [⟨.insert "0x02", lower⟩, ⟨.insert "0x03", "AB"⟩, ⟨.fetch, upper⟩]
    List.Forall₂ AskAlike requests others ∧
      session 0 (ofList [(address, "0x01")]) requests =
        session 0 (ofList [(address, "0x01")]) others ∧
      ((session 0 (ofList [(address, "0x01")]) requests)[2]?).map (·.1) = some (.code "0x02") ∧
      Octets.read? 20 "0xab" = none ∧
      (∀ store : Store, (store.answer 0 ⟨.insert "0x03", "0xab"⟩).2 = store) ∧
      ((session 0 (ofList [(address, "0x01")]) requests)[2]?).map (·.2.size) = some 1 := by
  intro address upper lower requests others
  obtain ⟨hturn, -, hunchanged, hspelled, -⟩ := session_of_writes 0 [(address, "0x01")] requests
  have halike : List.Forall₂ AskAlike requests others :=
    .cons ⟨rfl, by decide +kernel⟩ (.cons ⟨rfl, by decide +kernel⟩ (.cons ⟨rfl, by decide +kernel⟩ .nil))
  have hnone : Octets.read? 20 "0xab" = none := by decide +kernel
  have hread : Octets.read? 20 lower = some address := by decide +kernel
  have hwritten : written (requests.take 2) = [(address, "0x02")] := by decide +kernel
  have hlast : lastCode ([(address, "0x01")] ++ [(address, "0x02")]) address = "0x02" := by
    decide +kernel
  refine ⟨halike, hspelled others halike, ?_, hnone, fun store ↦ hunchanged store _ (.inr hnone), ?_⟩
  · rw [hturn 2, hwritten]
    change some (responseTo _ ⟨.fetch, lower⟩) = _
    rw [responseTo, hread]
    exact congrArg (fun code ↦ some (Response.code code)) hlast
  · rw [hturn 2]
    decide +kernel

end Store

end CodeTrail.Code
