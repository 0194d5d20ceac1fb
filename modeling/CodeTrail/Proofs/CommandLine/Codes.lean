import CodeTrail.CommandLine.Events
import CodeTrail.Proofs.Code.Store
import CodeTrail.Proofs.Trace.Fingerprints

/-!
# Code loaded from an object, in any order of its entries

The code of contracts comes as an object with a text under each name. Its names are distinct
(`nodup_namedTexts?`), so it is a map and its entries have no order; still a store is written from them
one after the other. `storeOf_eq` splits that into reading every name as an address and writing the
pairs, and only the first part is the same in every order: a name that is no address is found in all of
them. Names that differ in case or in a mark denote one address, so two names can carry two codes for
it, and then the order decides which of them the store keeps (`not_storeOf_perm`). All orders agree on
the addresses whose names carry one code (`storeOf_perm`).
-/

set_option autoImplicit false
set_option relaxedAutoImplicit false

namespace CodeTrail.CommandLine.EventReport

open Code (Store)

/-! ### Entries of an object -/

/-- The names of an object are distinct once the last text of each is taken. -/
theorem nodup_lastTexts (texts : List (String × String)) :
    ((lastTexts texts).map (·.1)).Nodup := by
  induction texts using List.reverseRecOn with
  | nil => exact List.nodup_nil
  | append_singleton rest text ih =>
    rw [lastTexts, List.foldl_append, List.foldl_cons, List.foldl_nil, ← lastTexts, List.map_append,
      List.nodup_append]
    refine ⟨ih.sublist (List.filter_sublist.map _), List.pairwise_singleton _ _, ?_⟩
    intro name hname other hother
    obtain ⟨kept, hkept, rfl⟩ := List.mem_map.mp hname
    obtain rfl := List.mem_singleton.mp hother
    simpa using (List.mem_filter.mp hkept).2

theorem nodup_namedTexts? {json : Json} {texts : List (String × String)}
    (htexts : namedTexts? json = some texts) : (texts.map (·.1)).Nodup := by
  unfold namedTexts? at htexts
  split at htexts
  · obtain ⟨members, -, rfl⟩ := Option.map_eq_some_iff.mp htexts
    exact nodup_lastTexts members
  · cases htexts

/-- The address that a name denotes, with the code under the name. -/
def pairOf? (text : String × String) : Option (Address × String) :=
  (Octets.read? 20 text.1).map fun address ↦ (address, text.2)

theorem pairOf?_eq_some_iff {text : String × String} {address : Address} {code : String} :
    pairOf? text = some (address, code) ↔ Octets.read? 20 text.1 = some address ∧ text.2 = code := by
  rw [pairOf?, Option.map_eq_some_iff]
  constructor
  · rintro ⟨found, hfound, hpair⟩
    obtain ⟨rfl, rfl⟩ := Prod.mk.inj hpair
    exact ⟨hfound, rfl⟩
  · rintro ⟨haddress, rfl⟩
    exact ⟨address, haddress, rfl⟩

theorem pairOf?_eq_none_iff {text : String × String} :
    pairOf? text = none ↔ Octets.read? 20 text.1 = none :=
  Option.map_eq_none_iff

/-- Reading all items of a list gives what each of them reads as, or complains about the first one that
cannot be read. -/
theorem mapM_eq_elim_find? {α β : Type} (read : α → Option β) (complaint : α → String)
    {reader : α → Except String β}
    (hreader : ∀ item, reader item = (read item).elim (.error (complaint item)) .ok) (items : List α) :
    items.mapM reader =
      (items.find? fun item ↦ (read item).isNone).elim (.ok (items.filterMap read))
        fun item ↦ .error (complaint item) := by
  induction items with
  | nil => rfl
  | cons item rest ih =>
    rw [List.mapM_cons, ih, hreader, List.find?_cons, List.filterMap_cons]
    cases read item with
    | none => rfl
    | some value => cases rest.find? (fun item ↦ (read item).isNone) <;> rfl

/-- A store is written from the entries in their order, unless one of the names is no address; the
first such name is complained about. -/
theorem storeOf_eq (texts : List (String × String)) :
    storeOf texts =
      (texts.find? fun text ↦ (pairOf? text).isNone).elim (.ok (.ofList (texts.filterMap pairOf?)))
        fun text ↦ .error ("invalid address " ++ text.1) := by
  rw [storeOf, mapM_eq_elim_find? pairOf? fun text ↦ "invalid address " ++ text.1]
  · cases texts.find? (fun text ↦ (pairOf? text).isNone) <;> rfl
  · rintro ⟨name, code⟩
    rw [pairOf?]
    cases hread : Octets.read? 20 name <;> simp only [hread, Option.map_none, Option.map_some,
      Option.elim_none, Option.elim_some]

/-- Whether the entries are refused does not depend on their order. -/
theorem exists_storeOf_eq_error_iff {texts : List (String × String)} :
    (∃ complaint, storeOf texts = .error complaint) ↔
      ∃ text ∈ texts, Octets.read? 20 text.1 = none := by
  simp only [storeOf_eq, ← pairOf?_eq_none_iff]
  cases hfind : texts.find? (fun text ↦ (pairOf? text).isNone) with
  | none =>
    rw [List.find?_eq_none] at hfind
    simpa using hfind
  | some text =>
    have hnone : pairOf? text = none := by simpa using List.find?_some hfind
    simp only [Option.elim_some, Except.error.injEq, exists_eq', true_iff]
    exact ⟨text, List.mem_of_find?_eq_some hfind, hnone⟩

theorem storeOf_eq_ok {texts : List (String × String)}
    (htexts : ¬ ∃ text ∈ texts, Octets.read? 20 text.1 = none) :
    storeOf texts = .ok (.ofList (texts.filterMap pairOf?)) := by
  have hfind : texts.find? (fun text ↦ (pairOf? text).isNone) = none := by
    rw [List.find?_eq_none]
    simpa [pairOf?_eq_none_iff] using htexts
  rw [storeOf_eq, hfind, Option.elim_none]

/-! ### Orders of the entries -/

/-- The names of an address all carry one code. -/
def OneCode (texts : List (String × String)) (address : Address) : Prop :=
  ∀ first ∈ texts, ∀ second ∈ texts, Octets.read? 20 first.1 = some address →
    Octets.read? 20 second.1 = some address → first.2 = second.2

theorem OneCode.eq_of_mem {texts : List (String × String)} {address : Address}
    (hone : OneCode texts address) (first second : String)
    (hfirst : (address, first) ∈ texts.filterMap pairOf?)
    (hsecond : (address, second) ∈ texts.filterMap pairOf?) : first = second := by
  obtain ⟨text, htext, hpair⟩ := List.mem_filterMap.mp hfirst
  obtain ⟨other, hother, hpair'⟩ := List.mem_filterMap.mp hsecond
  obtain ⟨haddress, rfl⟩ := pairOf?_eq_some_iff.mp hpair
  obtain ⟨haddress', rfl⟩ := pairOf?_eq_some_iff.mp hpair'
  exact hone text htext other hother haddress haddress'

/-- An object of codes in any two orders of its entries. Its names are distinct, and it is refused in
both orders or in neither, namely when one of the names is no address. Otherwise either store answers
with the code of the last entry for an address in its own order. So the stores agree on every address
whose names carry one code; where that is so for all addresses, they yield the same events. -/
theorem storeOf_perm {json : Json} {texts first second : List (String × String)}
    (htexts : namedTexts? json = some texts) (hfirst : first.Perm texts) (hsecond : second.Perm texts) :
    (texts.map (·.1)).Nodup ∧
      ((∃ text ∈ texts, Octets.read? 20 text.1 = none) ∧
          (∃ complaint, storeOf first = .error complaint) ∧
          (∃ complaint, storeOf second = .error complaint) ∨
        ∃ store other, storeOf first = .ok store ∧ storeOf second = .ok other ∧
          (∀ address, store.fetch address = Store.lastCode (first.filterMap pairOf?) address ∧
            other.fetch address = Store.lastCode (second.filterMap pairOf?) address) ∧
          (∀ address, OneCode texts address → store.fetch address = other.fetch address) ∧
          ((∀ address, OneCode texts address) → ∀ sender settings choices (trace : Trace),
            trace.events sender store.source settings choices =
              trace.events sender other.source settings choices)) := by
  have hrefused {order : List (String × String)} (horder : order.Perm texts) :
      (∃ text ∈ order, Octets.read? 20 text.1 = none) ↔
        ∃ text ∈ texts, Octets.read? 20 text.1 = none := by
    simp only [horder.mem_iff]
  refine ⟨nodup_namedTexts? htexts, ?_⟩
  by_cases hnone : ∃ text ∈ texts, Octets.read? 20 text.1 = none
  · exact Or.inl ⟨hnone, exists_storeOf_eq_error_iff.mpr ((hrefused hfirst).mpr hnone),
      exists_storeOf_eq_error_iff.mpr ((hrefused hsecond).mpr hnone)⟩
  · have hagree (address : Address) (hone : OneCode texts address) :
        (Store.ofList (first.filterMap pairOf?)).fetch address =
          (Store.ofList (second.filterMap pairOf?)).fetch address := by
      rw [Store.fetch_ofList, Store.fetch_ofList,
        ← Store.lastCode_eq_of_perm (hfirst.filterMap pairOf?).symm hone.eq_of_mem,
        ← Store.lastCode_eq_of_perm (hsecond.filterMap pairOf?).symm hone.eq_of_mem]
    refine Or.inr ⟨_, _, storeOf_eq_ok (mt (hrefused hfirst).mp hnone),
      storeOf_eq_ok (mt (hrefused hsecond).mp hnone),
      fun address ↦ ⟨Store.fetch_ofList _ address, Store.fetch_ofList _ address⟩, hagree, ?_⟩
    intro hone sender settings choices trace
    have hsource : (Store.ofList (first.filterMap pairOf?)).source =
        (Store.ofList (second.filterMap pairOf?)).source := by
      funext address
      rw [Store.source, Store.source, hagree address (hone address)]
    rw [hsource]

/-- Three names for two addresses, where the two names of one address carry the same code. -/
theorem storeOf_perm_of_one_code :
    let one := "0x00000000000000000000000000000000000000aa"
    let other := "00000000000000000000000000000000000000AA"
    let texts := [(one, "0x6001"), ("0x00000000000000000000000000000000000000bb", "0x"), (other, "0x6001")]
    let address : Address := ⟨List.replicate 19 0 ++ [0xaa], rfl⟩
    one ≠ other ∧ Octets.read? 20 one = some address ∧ Octets.read? 20 other = some address ∧
      ∃ first second, storeOf texts = .ok first ∧ storeOf texts.reverse = .ok second ∧
        first.fetch address = "0x6001" ∧ second.fetch address = "0x6001" := by
  intro one other texts address
  have hone : OneCode texts address := by
    intro first hfirst second hsecond hread hread'
    have hnames : ∀ text ∈ texts, Octets.read? 20 text.1 = some address → text.2 = "0x6001" := by
      decide +kernel
    rw [hnames first hfirst hread, hnames second hsecond hread']
  have htexts : namedTexts? (.object (texts.map fun text ↦ (text.1, .string text.2))) = some texts := by
    decide +kernel
  have hperm := storeOf_perm htexts (List.Perm.refl texts) (List.reverse_perm texts)
  refine ⟨by decide, by decide +kernel, by decide +kernel, ?_⟩
  rcases hperm.2 with ⟨hnone, -⟩ | ⟨first, second, hfirst, hsecond, hlast, hagree, -⟩
  · have hnames : ¬ ∃ text ∈ texts, Octets.read? 20 text.1 = none := by decide +kernel
    exact (hnames hnone).elim
  · have hcode : first.fetch address = "0x6001" := by
      rw [(hlast address).1]
      decide +kernel
    exact ⟨first, second, hfirst, hsecond, hcode, (hagree address hone).symm.trans hcode⟩

/-- Two names of one address with two codes: the order decides which one the store keeps. -/
theorem not_storeOf_perm :
    ¬ ∀ (json : Json) (texts first second : List (String × String)),
      namedTexts? json = some texts → first.Perm texts → second.Perm texts →
        (∃ complaint, storeOf first = .error complaint) ∧
            (∃ complaint, storeOf second = .error complaint) ∨
          ∃ store other, storeOf first = .ok store ∧ storeOf second = .ok other ∧
            ∀ address, store.fetch address = other.fetch address := by
  intro hall
  let texts := [("0x00000000000000000000000000000000000000aa", "0x6001"),
    ("00000000000000000000000000000000000000aa", "0x6002")]
  let address : Address := ⟨List.replicate 19 0 ++ [0xaa], rfl⟩
  have hfetch : (storeOf texts).map (·.fetch address) = .ok "0x6002" := by decide +kernel
  have hfetch' : (storeOf texts.reverse).map (·.fetch address) = .ok "0x6001" := by decide +kernel
  rcases hall (.object (texts.map fun text ↦ (text.1, .string text.2))) texts texts texts.reverse
    (by decide +kernel) (List.Perm.refl texts) (List.reverse_perm texts) with
    ⟨⟨complaint, herror⟩, -⟩ | ⟨store, other, hstore, hother, hsame⟩
  · rw [herror] at hfetch
    cases hfetch
  · rw [hstore] at hfetch
    rw [hother] at hfetch'
    have hcodes := (Except.ok.inj hfetch).symm.trans ((hsame address).trans (Except.ok.inj hfetch'))
    revert hcodes
    decide

end CodeTrail.CommandLine.EventReport
