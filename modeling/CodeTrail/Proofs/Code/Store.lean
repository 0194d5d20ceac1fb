import CodeTrail.Code.Store
import Mathlib.Data.List.Induction

/-!
# What a store answers

A store answers with what was written last: `fetch_insert` says so of one write, and `fetch_ofList` of
a list of pairs that are written in order, where `lastCode` is the code of the last pair for an
address. Two orders of the same pairs can differ there, but only for an address that comes with more
than one code (`lastCode_eq_of_perm`).
-/

set_option autoImplicit false
set_option relaxedAutoImplicit false

namespace CodeTrail.Code.Store

/-! ### One write -/

theorem find?_put (address other : Address) (code : String) (entries : List (Address × String)) :
    (put address code entries).find? (·.1 == other) =
      if other = address then some (address, code) else entries.find? (·.1 == other) := by
  induction entries with
  | nil =>
    by_cases hother : other = address
    · simp [put, hother]
    · simp [put, hother, Ne.symm hother]
  | cons entry rest ih =>
    by_cases hentry : entry.1 = address
    · by_cases hother : other = address
      · simp [put, hentry, hother]
      · simp [put, hentry, hother, Ne.symm hother]
    · rw [put, if_neg hentry, List.find?_cons, List.find?_cons, ih]
      by_cases hother : other = address
      · have hbeq : (entry.1 == address) = false := beq_false_of_ne hentry
        simp only [hother, hbeq, if_true]
      · simp only [if_neg hother]

/-- A write is seen at its own address and nowhere else. -/
theorem fetch_insert (store : Store) (address other : Address) (code : String) :
    (store.insert address code).fetch other =
      if other = address then code else store.fetch other := by
  rw [fetch, insert, find?_put]
  split_ifs
  · rfl
  · rfl

/-! ### Pairs written in order -/

/-- The code of the last pair for an address, empty if there is none. -/
def lastCode (pairs : List (Address × String)) (address : Address) : String :=
  ((pairs.findRev? (·.1 == address)).map (·.2)).getD ""

theorem lastCode_append_singleton (pairs : List (Address × String)) (pair : Address × String)
    (address : Address) :
    lastCode (pairs ++ [pair]) address =
      if address = pair.1 then pair.2 else lastCode pairs address := by
  rw [lastCode, lastCode, List.findRev?_eq_find?_reverse, List.findRev?_eq_find?_reverse,
    List.reverse_append, List.reverse_singleton, List.singleton_append, List.find?_cons]
  by_cases haddress : address = pair.1
  · simp [haddress]
  · have hpair : (pair.1 == address) = false := beq_false_of_ne (Ne.symm haddress)
    simp only [hpair, if_neg haddress]

theorem ofList_append_singleton (pairs : List (Address × String)) (pair : Address × String) :
    ofList (pairs ++ [pair]) = (ofList pairs).insert pair.1 pair.2 := by
  rw [ofList, List.foldl_append]
  rfl

/-- A store that is written from pairs answers with the last one for an address. -/
theorem fetch_ofList (pairs : List (Address × String)) (address : Address) :
    (ofList pairs).fetch address = lastCode pairs address := by
  induction pairs using List.reverseRecOn with
  | nil => rfl
  | append_singleton rest pair ih =>
    rw [ofList_append_singleton, fetch_insert, lastCode_append_singleton, ih]

/-- The last code for an address is one of its codes, if it has any. -/
theorem lastCode_mem (pairs : List (Address × String)) (address : Address) :
    (address, lastCode pairs address) ∈ pairs ∨
      lastCode pairs address = "" ∧ ∀ code, (address, code) ∉ pairs := by
  induction pairs using List.reverseRecOn with
  | nil => exact Or.inr ⟨rfl, by simp⟩
  | append_singleton rest pair ih =>
    rw [lastCode_append_singleton]
    split_ifs with haddress
    · exact Or.inl (by simp [haddress])
    · rcases ih with hmem | ⟨hempty, hnone⟩
      · exact Or.inl (List.mem_append_left _ hmem)
      · refine Or.inr ⟨hempty, fun code hcode ↦ ?_⟩
        rcases List.mem_append.mp hcode with hcode | hcode
        · exact hnone code hcode
        · exact haddress (congrArg Prod.fst (List.mem_singleton.mp hcode))

/-- The order of pairs does not matter to an address that they give a single code. -/
theorem lastCode_eq_of_perm {pairs others : List (Address × String)} (hperm : pairs.Perm others)
    {address : Address}
    (hone : ∀ first second, (address, first) ∈ pairs → (address, second) ∈ pairs → first = second) :
    lastCode pairs address = lastCode others address := by
  rcases lastCode_mem pairs address with hmem | ⟨hempty, hnone⟩
  · rcases lastCode_mem others address with hother | ⟨-, hnone⟩
    · exact hone _ _ hmem (hperm.mem_iff.mpr hother)
    · exact (hnone _ (hperm.mem_iff.mp hmem)).elim
  · rcases lastCode_mem others address with hother | ⟨hother, -⟩
    · exact (hnone _ (hperm.mem_iff.mpr hother)).elim
    · rw [hempty, hother]

end CodeTrail.Code.Store
