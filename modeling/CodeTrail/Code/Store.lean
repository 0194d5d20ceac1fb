import CodeTrail.Code.Fingerprint

/-!
# A store of code

A store keeps the code of some addresses, one text for each: writing to an address a second time
replaces its code. An address that was never written to has empty code. As a source of code a store
answers at once.
-/

set_option autoImplicit false
set_option relaxedAutoImplicit false

namespace CodeTrail.Code

/-- The code of some addresses. -/
structure Store where
  entries : List (Address × String)
  nodup_addresses : (entries.map (·.1)).Nodup

namespace Store

/-- The store without code. -/
def empty : Store := ⟨[], List.nodup_nil⟩

/-- Entries with the code of one address set. -/
def put (address : Address) (code : String) : List (Address × String) → List (Address × String)
  | [] => [(address, code)]
  | entry :: rest =>
    if entry.1 = address then (address, code) :: rest else entry :: put address code rest

theorem mem_addresses_put (address other : Address) (code : String)
    (entries : List (Address × String)) :
    other ∈ (put address code entries).map (·.1) ↔
      other = address ∨ other ∈ entries.map (·.1) := by
  induction entries with
  | nil => simp [put]
  | cons entry rest ih =>
    by_cases h : entry.1 = address
    · simp only [put, h, if_true, List.map_cons, List.mem_cons]
      constructor
      · rintro (h | h)
        · exact .inl h
        · exact .inr (.inr h)
      · rintro (h | h | h)
        · exact .inl h
        · exact .inl h
        · exact .inr h
    · simp only [put, h, if_false, List.map_cons, List.mem_cons, ih]
      constructor
      · rintro (h | h | h)
        · exact .inr (.inl h)
        · exact .inl h
        · exact .inr (.inr h)
      · rintro (h | h | h)
        · exact .inr (.inl h)
        · exact .inl h
        · exact .inr (.inr h)

theorem nodup_put (address : Address) (code : String) (entries : List (Address × String))
    (h : (entries.map (·.1)).Nodup) : ((put address code entries).map (·.1)).Nodup := by
  induction entries with
  | nil => simp [put]
  | cons entry rest ih =>
    rw [List.map_cons, List.nodup_cons] at h
    by_cases hentry : entry.1 = address
    · simp only [put, hentry, if_true, List.map_cons, List.nodup_cons]
      exact ⟨hentry ▸ h.1, h.2⟩
    · simp only [put, hentry, if_false, List.map_cons, List.nodup_cons, mem_addresses_put,
        false_or]
      exact ⟨h.1, ih h.2⟩

/-- Sets the code of an address. -/
def insert (store : Store) (address : Address) (code : String) : Store :=
  ⟨put address code store.entries, nodup_put address code store.entries store.nodup_addresses⟩

/-- The store that results from writing pairs in order. -/
def ofList (pairs : List (Address × String)) : Store :=
  pairs.foldl (fun store pair ↦ store.insert pair.1 pair.2) empty

/-- The code of an address, empty if it was never written to. -/
def fetch (store : Store) (address : Address) : String :=
  ((store.entries.find? (·.1 == address)).map (·.2)).getD ""

/-- The number of addresses that were written to. -/
def size (store : Store) : Nat :=
  store.entries.length

/-- Whether no address was written to. -/
def isEmpty (store : Store) : Bool :=
  store.entries.isEmpty

/-- A store as a source of code. -/
def source (store : Store) : Source :=
  fun address ↦ { reply := some (.code (store.fetch address)) }

end Store

end CodeTrail.Code
