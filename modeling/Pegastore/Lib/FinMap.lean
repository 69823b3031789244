import Pegastore.Lib.Outcome

/-!
# Finite maps without an order

`FinMap κ ν` is a list of entries with distinct keys, the view of a hash map that forgets the order
of its entries. The interface is the lookup `find?` and the lookup after each operation; the entries
are the pairs that the lookup finds (`mem_entries_iff`).
-/

set_option autoImplicit false
set_option relaxedAutoImplicit false

namespace Pegastore

/-- A finite map, as its entries in some order. -/
structure FinMap (κ ν : Type) where
  entries : List (κ × ν)
  nodup : (entries.map Prod.fst).Nodup

namespace FinMap

variable {κ ν : Type}

/-- The map without entries. -/
def empty : FinMap κ ν := ⟨[], List.nodup_nil⟩

variable [DecidableEq κ]

/-- The value under a key. -/
def find? (m : FinMap κ ν) (key : κ) : Option ν :=
  (m.entries.find? fun e ↦ e.1 = key).map Prod.snd

/-- The map without `key`. -/
def erase (m : FinMap κ ν) (key : κ) : FinMap κ ν :=
  ⟨m.entries.filter fun e ↦ e.1 ≠ key, m.nodup.sublist (List.filter_sublist.map Prod.fst)⟩

theorem fst_not_mem_filter (l : List (κ × ν)) (key : κ) :
    key ∉ (l.filter fun e ↦ e.1 ≠ key).map Prod.fst := by
  intro h
  obtain ⟨e, he, heq⟩ := List.mem_map.mp h
  exact of_decide_eq_true (List.mem_filter.mp he).2 heq

/-- The map with `value` under `key`. -/
def insert (m : FinMap κ ν) (key : κ) (value : ν) : FinMap κ ν :=
  ⟨(key, value) :: (m.erase key).entries,
    List.nodup_cons.mpr ⟨fst_not_mem_filter m.entries key, (m.erase key).nodup⟩⟩

@[simp] theorem find?_empty (key : κ) : (empty : FinMap κ ν).find? key = none := rfl

theorem find?_erase (m : FinMap κ ν) (key other : κ) :
    (m.erase key).find? other = if key = other then none else m.find? other := by
  unfold find? erase
  rw [List.find?_filter]
  by_cases heq : key = other
  · subst heq
    rw [if_pos rfl, Option.map_eq_none_iff, List.find?_eq_none]
    intro e _
    simp
  · rw [if_neg heq]
    congr 2
    funext e
    by_cases he : e.1 = other
    · simp [he, Ne.symm heq]
    · simp [he]

theorem find?_insert (m : FinMap κ ν) (key other : κ) (value : ν) :
    (m.insert key value).find? other = if key = other then some value else m.find? other := by
  by_cases heq : key = other
  · simp [find?, insert, heq]
  · rw [if_neg heq]
    have herase := m.find?_erase key other
    rw [if_neg heq] at herase
    rw [← herase]
    simp [find?, insert, heq]

theorem mem_entries_iff (m : FinMap κ ν) {key : κ} {value : ν} :
    (key, value) ∈ m.entries ↔ m.find? key = some value := by
  unfold find?
  constructor
  · intro hmem
    obtain ⟨found, hfound⟩ : ∃ found, (m.entries.find? fun e ↦ e.1 = key) = some found := by
      rw [← Option.isSome_iff_exists, List.find?_isSome]
      exact ⟨(key, value), hmem, decide_eq_true rfl⟩
    have hkey : found.1 = key := by simpa using List.find?_some hfound
    have hsame : found = (key, value) :=
      List.inj_on_of_nodup_map m.nodup (List.mem_of_find?_eq_some hfound) hmem hkey
    rw [hfound, hsame]
    rfl
  · intro hfind
    obtain ⟨found, hfound, rfl⟩ := Option.map_eq_some_iff.mp hfind
    have hkey : found.1 = key := by simpa using List.find?_some hfound
    rw [← hkey]
    exact List.mem_of_find?_eq_some hfound

/-- The entry of a key, and the others. -/
theorem entries_perm {m : FinMap κ ν} {key : κ} {value : ν} (h : m.find? key = some value) :
    m.entries.Perm ((key, value) :: (m.erase key).entries) := by
  have hnodup : ((key, value) :: (m.erase key).entries).Nodup :=
    (m.insert key value).nodup.of_map Prod.fst
  refine (List.perm_ext_iff_of_nodup (m.nodup.of_map Prod.fst) hnodup).mpr fun e ↦ ?_
  have hmem : e ∈ (m.erase key).entries ↔ e ∈ m.entries ∧ e.1 ≠ key := by
    simp [erase]
  rw [List.mem_cons, hmem]
  constructor
  · intro he
    refine or_iff_not_imp_right.mpr fun hnot ↦ ?_
    have hkey : e.1 = key := by_contra fun hne ↦ hnot ⟨he, hne⟩
    have hfind := m.mem_entries_iff.mp (show (key, e.2) ∈ m.entries from hkey ▸ he)
    rw [h] at hfind
    exact Prod.ext hkey (Option.some.inj hfind).symm
  · rintro (rfl | ⟨he, _⟩)
    · exact m.mem_entries_iff.mpr h
    · exact he

/-- Under a new key nothing is replaced. -/
theorem entries_insert_of_none {m : FinMap κ ν} {key : κ} (h : m.find? key = none) (value : ν) :
    (m.insert key value).entries = (key, value) :: m.entries := by
  have herase : (m.erase key).entries = m.entries := by
    refine List.filter_eq_self.mpr fun e he ↦ decide_eq_true fun heq ↦ ?_
    have hfind := m.mem_entries_iff.mp (show (key, e.2) ∈ m.entries from heq ▸ he)
    rw [h] at hfind
    cases hfind
  exact congrArg _ herase

end FinMap

end Pegastore
