import Mathlib.Algebra.Order.BigOperators.Group.List
import Mathlib.Algebra.Order.Ring.Nat
import Mathlib.Data.List.Dedup
import Mathlib.Data.List.Lex
import Mathlib.Data.List.MinMax
import Mathlib.Data.List.Nodup
import Mathlib.Data.Prod.Lex
import Mathlib.Tactic.Common

/-!
# Finite maps ordered by key

`SortedMap κ ν` is a list of entries with strictly increasing keys, the view of a B-tree map that
its iteration order gives. The invariant is a field, so every map built here is ordered and holds a
key at most once.

The interface is the lookup `find?` and, for each operation, the lookup of its result
(`find?_insert`, `find?_erase`, `find?_mapValues`). `sumOn` adds a weight over the entries, and
`sumOn_insert` and `sumOn_erase` say how one update changes it, which is what an accounting
invariant needs.
-/

set_option autoImplicit false
set_option relaxedAutoImplicit false

namespace Pegastore

/-- A finite map, as its entries in increasing order of the key. -/
structure SortedMap (κ ν : Type) [LinearOrder κ] where
  entries : List (κ × ν)
  sorted : entries.Pairwise fun a b ↦ a.1 < b.1

namespace SortedMap

variable {κ ν : Type} [LinearOrder κ]

/-! ### Entry lists -/

/-- The value under `key` in a list of entries. -/
def lookup (key : κ) : List (κ × ν) → Option ν
  | [] => none
  | e :: rest => if e.1 = key then some e.2 else lookup key rest

/-- Insertion at the position of `key`, replacing the entry that is there. -/
def insertEntry (key : κ) (value : ν) : List (κ × ν) → List (κ × ν)
  | [] => [(key, value)]
  | e :: rest =>
    if key < e.1 then (key, value) :: e :: rest
    else if key = e.1 then (key, value) :: rest
    else e :: insertEntry key value rest

theorem mem_insertEntry {key : κ} {value : ν} {a : κ × ν} {l : List (κ × ν)}
    (h : a ∈ insertEntry key value l) : a = (key, value) ∨ a ∈ l := by
  induction l with
  | nil => simpa [insertEntry] using h
  | cons e rest ih =>
    unfold insertEntry at h
    split_ifs at h with hlt heq
    · simpa using h
    · rcases List.mem_cons.mp h with h | h
      · exact Or.inl h
      · exact Or.inr (List.mem_cons_of_mem _ h)
    · rcases List.mem_cons.mp h with h | h
      · exact Or.inr (h ▸ List.mem_cons_self)
      · rcases ih h with h | h
        · exact Or.inl h
        · exact Or.inr (List.mem_cons_of_mem _ h)

theorem pairwise_insertEntry {key : κ} {value : ν} {l : List (κ × ν)}
    (hl : l.Pairwise fun a b ↦ a.1 < b.1) :
    (insertEntry key value l).Pairwise fun a b ↦ a.1 < b.1 := by
  induction l with
  | nil => simp [insertEntry]
  | cons e rest ih =>
    obtain ⟨hhead, htail⟩ := List.pairwise_cons.mp hl
    unfold insertEntry
    split_ifs with hlt heq
    · refine List.pairwise_cons.mpr ⟨fun a ha ↦ ?_, hl⟩
      rcases List.mem_cons.mp ha with rfl | ha
      · exact hlt
      · exact hlt.trans (hhead a ha)
    · refine List.pairwise_cons.mpr ⟨fun a ha ↦ ?_, htail⟩
      exact heq ▸ hhead a ha
    · refine List.pairwise_cons.mpr ⟨fun a ha ↦ ?_, ih htail⟩
      rcases mem_insertEntry ha with rfl | ha
      · exact lt_of_le_of_ne (not_lt.mp hlt) (Ne.symm heq)
      · exact hhead a ha

theorem lookup_insertEntry (key other : κ) (value : ν) (l : List (κ × ν)) :
    lookup other (insertEntry key value l) =
      if key = other then some value else lookup other l := by
  induction l with
  | nil => simp [insertEntry, lookup]
  | cons e rest ih =>
    by_cases hlt : key < e.1
    · rw [insertEntry, if_pos hlt]
      rfl
    · by_cases heq : key = e.1
      · rw [insertEntry, if_neg hlt, if_pos heq]
        by_cases hother : key = other
        · simp [lookup, hother]
        · have hne : ¬ e.1 = other := fun h ↦ hother (heq.trans h)
          simp [lookup, hother, hne]
      · rw [insertEntry, if_neg hlt, if_neg heq, lookup, ih, lookup]
        by_cases he : e.1 = other
        · have hother : ¬ key = other := fun h ↦ heq (h.trans he.symm)
          simp [he, hother]
        · simp [he]

theorem lookup_filter_ne (key other : κ) (l : List (κ × ν)) :
    lookup other (l.filter fun e ↦ e.1 ≠ key) =
      if key = other then none else lookup other l := by
  induction l with
  | nil => simp [lookup]
  | cons e rest ih =>
    by_cases he : e.1 = key
    · by_cases hother : key = other
      · simpa [he, lookup, hother] using ih
      · have hne : ¬ e.1 = other := fun h ↦ hother (he.symm.trans h)
        simpa [he, lookup, hother, hne] using ih
    · have hkeep : ((e :: rest).filter fun e ↦ e.1 ≠ key) =
          e :: rest.filter fun e ↦ e.1 ≠ key := by
        simp [he]
      rw [hkeep, lookup, ih, lookup]
      by_cases heo : e.1 = other
      · have hother : ¬ key = other := fun h ↦ he (heo.trans h.symm)
        simp [hother, heo]
      · simp [heo]

theorem lookup_map (key : κ) (f : ν → ν) (l : List (κ × ν)) :
    lookup key (l.map fun e ↦ (e.1, f e.2)) = (lookup key l).map f := by
  induction l with
  | nil => simp [lookup]
  | cons e rest ih =>
    by_cases he : e.1 = key
    · simp [lookup, he]
    · simp [lookup, he, ih]

theorem mem_of_lookup {key : κ} {value : ν} {l : List (κ × ν)} (h : lookup key l = some value) :
    (key, value) ∈ l := by
  induction l with
  | nil => simp [lookup] at h
  | cons e rest ih =>
    unfold lookup at h
    split_ifs at h with he
    · cases h
      subst he
      exact List.mem_cons_self
    · exact List.mem_cons_of_mem _ (ih h)

theorem lookup_of_mem {key : κ} {value : ν} {l : List (κ × ν)}
    (hl : l.Pairwise fun a b ↦ a.1 < b.1) (h : (key, value) ∈ l) :
    lookup key l = some value := by
  induction l with
  | nil => simp at h
  | cons e rest ih =>
    obtain ⟨hhead, htail⟩ := List.pairwise_cons.mp hl
    rcases List.mem_cons.mp h with rfl | h
    · simp [lookup]
    · have hne : ¬ e.1 = key := ne_of_lt (hhead _ h)
      simp [lookup, hne, ih htail h]

/-! ### The map -/

/-- The map without entries. -/
def empty : SortedMap κ ν := ⟨[], List.Pairwise.nil⟩

/-- The value under a key. -/
def find? (m : SortedMap κ ν) (key : κ) : Option ν := lookup key m.entries

/-- The map with `value` under `key`. -/
def insert (m : SortedMap κ ν) (key : κ) (value : ν) : SortedMap κ ν :=
  ⟨insertEntry key value m.entries, pairwise_insertEntry m.sorted⟩

/-- The map without `key`. -/
def erase (m : SortedMap κ ν) (key : κ) : SortedMap κ ν :=
  ⟨m.entries.filter fun e ↦ e.1 ≠ key, m.sorted.filter _⟩

/-- The map with every value replaced. -/
def mapValues (m : SortedMap κ ν) (f : ν → ν) : SortedMap κ ν :=
  ⟨m.entries.map fun e ↦ (e.1, f e.2), List.pairwise_map.mpr m.sorted⟩

/-- The entries from `low` on, in order. -/
def rangeFrom (m : SortedMap κ ν) (low : κ) : List (κ × ν) := m.entries.filter fun e ↦ low ≤ e.1

/-- The last entry up to `high`. -/
def lastUpTo? (m : SortedMap κ ν) (high : κ) : Option (κ × ν) :=
  (m.entries.filter fun e ↦ e.1 ≤ high).getLast?

@[simp] theorem find?_empty (key : κ) : (empty : SortedMap κ ν).find? key = none := rfl

theorem find?_insert (m : SortedMap κ ν) (key other : κ) (value : ν) :
    (m.insert key value).find? other = if key = other then some value else m.find? other :=
  lookup_insertEntry key other value m.entries

@[simp] theorem find?_insert_self (m : SortedMap κ ν) (key : κ) (value : ν) :
    (m.insert key value).find? key = some value := by
  simp [find?_insert]

theorem find?_insert_of_ne (m : SortedMap κ ν) {key other : κ} (value : ν) (h : key ≠ other) :
    (m.insert key value).find? other = m.find? other := by
  simp [find?_insert, h]

theorem find?_erase (m : SortedMap κ ν) (key other : κ) :
    (m.erase key).find? other = if key = other then none else m.find? other :=
  lookup_filter_ne key other m.entries

@[simp] theorem find?_erase_self (m : SortedMap κ ν) (key : κ) :
    (m.erase key).find? key = none := by
  simp [find?_erase]

theorem find?_erase_of_ne (m : SortedMap κ ν) {key other : κ} (h : key ≠ other) :
    (m.erase key).find? other = m.find? other := by
  simp [find?_erase, h]

@[simp] theorem find?_mapValues (m : SortedMap κ ν) (f : ν → ν) (key : κ) :
    (m.mapValues f).find? key = (m.find? key).map f :=
  lookup_map key f m.entries

theorem mem_entries_iff (m : SortedMap κ ν) {key : κ} {value : ν} :
    (key, value) ∈ m.entries ↔ m.find? key = some value :=
  ⟨lookup_of_mem m.sorted, mem_of_lookup⟩

/-! ### The nearest entries of a key -/

theorem lastUpTo?_eq_some {m : SortedMap κ ν} {high key : κ} {value : ν}
    (h : m.lastUpTo? high = some (key, value)) :
    m.find? key = some value ∧ key ≤ high ∧
      ∀ key' value', m.find? key' = some value' → key' ≤ high → key' ≤ key := by
  obtain ⟨before, hbefore⟩ := List.getLast?_eq_some_iff.mp h
  have hsorted := m.sorted.filter fun e ↦ decide (e.1 ≤ high)
  have hmem : (key, value) ∈ m.entries.filter fun e ↦ e.1 ≤ high := by
    rw [hbefore]
    simp
  obtain ⟨hentry, hle⟩ := List.mem_filter.mp hmem
  refine ⟨m.mem_entries_iff.mp hentry, of_decide_eq_true hle, fun key' value' hfind hle' ↦ ?_⟩
  have hmem' : (key', value') ∈ m.entries.filter fun e ↦ e.1 ≤ high :=
    List.mem_filter.mpr ⟨m.mem_entries_iff.mpr hfind, decide_eq_true hle'⟩
  rw [hbefore] at hsorted hmem'
  rcases List.mem_append.mp hmem' with hold | hlast
  · exact ((List.pairwise_append.mp hsorted).2.2 _ hold _ List.mem_cons_self).le
  · cases List.mem_singleton.mp hlast
    exact le_refl key

theorem lastUpTo?_eq_none {m : SortedMap κ ν} {high : κ} (h : m.lastUpTo? high = none)
    {key : κ} {value : ν} (hfind : m.find? key = some value) : high < key := by
  have hnil := List.filter_eq_nil_iff.mp (List.getLast?_eq_none_iff.mp h)
  have hnot := hnil _ (m.mem_entries_iff.mpr hfind)
  exact not_le.mp fun hle ↦ hnot (decide_eq_true hle)

theorem head?_rangeFrom_eq_some {m : SortedMap κ ν} {low key : κ} {value : ν}
    (h : (m.rangeFrom low).head? = some (key, value)) :
    m.find? key = some value ∧ low ≤ key ∧
      ∀ key' value', m.find? key' = some value' → low ≤ key' → key ≤ key' := by
  obtain ⟨after, hafter⟩ := List.head?_eq_some_iff.mp h
  have hsorted := m.sorted.filter fun e ↦ decide (low ≤ e.1)
  have hmem : (key, value) ∈ m.rangeFrom low := hafter ▸ List.mem_cons_self
  obtain ⟨hentry, hle⟩ := List.mem_filter.mp hmem
  refine ⟨m.mem_entries_iff.mp hentry, of_decide_eq_true hle, fun key' value' hfind hle' ↦ ?_⟩
  have hmem' : (key', value') ∈ m.rangeFrom low :=
    List.mem_filter.mpr ⟨m.mem_entries_iff.mpr hfind, decide_eq_true hle'⟩
  change (m.rangeFrom low).Pairwise _ at hsorted
  rw [hafter] at hsorted hmem'
  rcases List.mem_cons.mp hmem' with hfirst | hrest
  · cases hfirst
    exact le_refl key
  · exact ((List.pairwise_cons.mp hsorted).1 _ hrest).le

theorem head?_rangeFrom_eq_none {m : SortedMap κ ν} {low : κ} (h : (m.rangeFrom low).head? = none)
    {key : κ} {value : ν} (hfind : m.find? key = some value) : key < low := by
  have hnil := List.filter_eq_nil_iff.mp (List.head?_eq_none_iff.mp h)
  have hnot := hnil _ (m.mem_entries_iff.mpr hfind)
  exact not_le.mp fun hle ↦ hnot (decide_eq_true hle)

/-! ### Weights -/

/-- The total weight of the entries. -/
def sumOn (m : SortedMap κ ν) (weight : κ → ν → ℕ) : ℕ :=
  (m.entries.map fun e ↦ weight e.1 e.2).sum

@[simp] theorem sumOn_empty (weight : κ → ν → ℕ) : (empty : SortedMap κ ν).sumOn weight = 0 := rfl

theorem sum_insertEntry (weight : κ → ν → ℕ) (key : κ) (value : ν) (l : List (κ × ν))
    (hl : l.Pairwise fun a b ↦ a.1 < b.1) :
    ((insertEntry key value l).map fun e ↦ weight e.1 e.2).sum +
        (lookup key l).elim 0 (weight key) =
      (l.map fun e ↦ weight e.1 e.2).sum + weight key value := by
  induction l with
  | nil => simp [insertEntry, lookup]
  | cons e rest ih =>
    obtain ⟨hhead, htail⟩ := List.pairwise_cons.mp hl
    have hrest := ih htail
    unfold insertEntry
    split_ifs with hlt heq
    · have hnone : lookup key (e :: rest) = none := by
        rw [Option.eq_none_iff_forall_not_mem]
        intro found hfound
        rcases List.mem_cons.mp (mem_of_lookup hfound) with h | h
        · exact absurd hlt (by rw [← h]; exact lt_irrefl key)
        · exact absurd (hlt.trans (hhead _ h)) (lt_irrefl key)
      rw [hnone]
      simp only [List.map_cons, List.sum_cons, Option.elim]
      omega
    · subst heq
      simp only [List.map_cons, List.sum_cons, lookup, if_true, Option.elim]
      omega
    · have hne : ¬ e.1 = key := fun h ↦ heq h.symm
      simp only [List.map_cons, List.sum_cons, lookup, hne, if_false]
      omega

theorem sum_filter_ne (weight : κ → ν → ℕ) (key : κ) (l : List (κ × ν))
    (hl : l.Pairwise fun a b ↦ a.1 < b.1) :
    ((l.filter fun e ↦ e.1 ≠ key).map fun e ↦ weight e.1 e.2).sum +
        (lookup key l).elim 0 (weight key) =
      (l.map fun e ↦ weight e.1 e.2).sum := by
  induction l with
  | nil => simp [lookup]
  | cons e rest ih =>
    obtain ⟨hhead, htail⟩ := List.pairwise_cons.mp hl
    have hrest := ih htail
    by_cases he : e.1 = key
    · have hnone : lookup key rest = none := by
        rw [Option.eq_none_iff_forall_not_mem]
        intro found hfound
        exact absurd (hhead _ (mem_of_lookup hfound)) (by rw [he]; exact lt_irrefl key)
      rw [hnone] at hrest
      have hdrop : ((e :: rest).filter fun e ↦ e.1 ≠ key) = rest.filter fun e ↦ e.1 ≠ key := by
        simp [he]
      rw [hdrop]
      subst he
      simp only [lookup, if_true, Option.elim, List.map_cons, List.sum_cons] at hrest ⊢
      omega
    · have hkeep : ((e :: rest).filter fun e ↦ e.1 ≠ key) =
          e :: rest.filter fun e ↦ e.1 ≠ key := by
        simp [he]
      rw [hkeep]
      simp only [lookup, he, if_false, List.map_cons, List.sum_cons]
      omega

/-- Inserting adds the new weight in place of the one the key had. -/
theorem sumOn_insert (m : SortedMap κ ν) (weight : κ → ν → ℕ) (key : κ) (value : ν) :
    (m.insert key value).sumOn weight + (m.find? key).elim 0 (weight key) =
      m.sumOn weight + weight key value :=
  sum_insertEntry weight key value m.entries m.sorted

/-- Erasing takes away the weight the key had. -/
theorem sumOn_erase (m : SortedMap κ ν) (weight : κ → ν → ℕ) (key : κ) :
    (m.erase key).sumOn weight + (m.find? key).elim 0 (weight key) = m.sumOn weight :=
  sum_filter_ne weight key m.entries m.sorted

theorem sumOn_mapValues (m : SortedMap κ ν) (weight : κ → ν → ℕ) (f : ν → ν)
    (hf : ∀ key value, weight key (f value) = weight key value) :
    (m.mapValues f).sumOn weight = m.sumOn weight := by
  unfold sumOn mapValues
  simp [hf, Function.comp_def]

/-- An entry weighs no more than the map. -/
theorem weight_le_sumOn (m : SortedMap κ ν) (weight : κ → ν → ℕ) {key : κ} {value : ν}
    (h : m.find? key = some value) : weight key value ≤ m.sumOn weight := by
  have herase := m.sumOn_erase weight key
  rw [h] at herase
  simp only [Option.elim] at herase
  omega

/-- The weight of a map is monotone in the weights of its entries. -/
theorem sumOn_le_sumOn (m : SortedMap κ ν) {first second : κ → ν → ℕ}
    (h : ∀ key value, m.find? key = some value → first key value ≤ second key value) :
    m.sumOn first ≤ m.sumOn second := by
  unfold sumOn
  apply List.sum_le_sum
  intro e he
  exact h e.1 e.2 (m.mem_entries_iff.mp he)

theorem sum_le_sumOn_of_find? (weight : κ → ν → ℕ) (l : List (κ × ν))
    (hl : l.Pairwise fun a b ↦ a.1 < b.1) : ∀ m : SortedMap κ ν,
      (∀ e ∈ l, weight e.1 e.2 = 0 ∨ m.find? e.1 = some e.2) →
      (l.map fun e ↦ weight e.1 e.2).sum ≤ m.sumOn weight := by
  induction l with
  | nil =>
    intro m _
    exact Nat.zero_le _
  | cons e rest ih =>
    intro m hfind
    obtain ⟨hhead, htail⟩ := List.pairwise_cons.mp hl
    rw [List.map_cons, List.sum_cons]
    rcases hfind e List.mem_cons_self with hzero | hfound
    · have hrest := ih htail m fun f hf ↦ hfind f (List.mem_cons_of_mem _ hf)
      omega
    · have hrest := ih htail (m.erase e.1) fun f hf ↦ by
        rw [find?_erase_of_ne m (ne_of_lt (hhead f hf))]
        exact hfind f (List.mem_cons_of_mem _ hf)
      have herase := m.sumOn_erase weight e.1
      rw [hfound] at herase
      simp only [Option.elim] at herase
      omega

/-- A map weighs no more than another that has all of its entries with a weight. -/
theorem sumOn_le_of_find? {weight : κ → ν → ℕ} (m m' : SortedMap κ ν)
    (h : ∀ key value, m.find? key = some value → weight key value = 0 ∨
      m'.find? key = some value) : m.sumOn weight ≤ m'.sumOn weight := by
  refine sum_le_sumOn_of_find? weight m.entries m.sorted m' ?_
  intro e he
  exact h e.1 e.2 (m.mem_entries_iff.mp he)

theorem sumOn_congr (m : SortedMap κ ν) {first second : κ → ν → ℕ}
    (h : ∀ key value, m.find? key = some value → first key value = second key value) :
    m.sumOn first = m.sumOn second :=
  le_antisymm (m.sumOn_le_sumOn fun key value hfind ↦ (h key value hfind).le)
    (m.sumOn_le_sumOn fun key value hfind ↦ (h key value hfind).ge)

/-! ### Erasing several keys -/

/-- Two maps with the same entries are the same. -/
@[ext] theorem ext {m m' : SortedMap κ ν} (h : m.entries = m'.entries) : m = m' := by
  obtain ⟨entries, sorted⟩ := m
  obtain ⟨entries', sorted'⟩ := m'
  cases h
  rfl

theorem entries_erase (m : SortedMap κ ν) (key : κ) :
    (m.erase key).entries = m.entries.filter fun e ↦ e.1 ≠ key := rfl

/-- Erasing keys one after another leaves the entries under other keys. -/
theorem entries_foldl_erase (keys : List κ) : ∀ m : SortedMap κ ν,
    (keys.foldl SortedMap.erase m).entries = m.entries.filter fun e ↦ e.1 ∉ keys := by
  induction keys with
  | nil =>
    intro m
    simp
  | cons key keys ih =>
    intro m
    rw [List.foldl_cons, ih, entries_erase, List.filter_filter]
    refine List.filter_congr fun e _ ↦ ?_
    simp [Bool.and_comm]

/-- Erasing the keys that satisfy a predicate leaves the entries that do not. -/
theorem entries_foldl_erase_of_iff {keys : List κ} {m : SortedMap κ ν} {p : κ → Bool}
    (h : ∀ e ∈ m.entries, e.1 ∈ keys ↔ p e.1 = true) :
    (keys.foldl SortedMap.erase m).entries = m.entries.filter fun e ↦ !p e.1 := by
  rw [entries_foldl_erase]
  refine List.filter_congr fun e he ↦ ?_
  rw [Bool.eq_iff_iff, decide_eq_true_iff, h e he, Bool.not_eq_true', Bool.not_eq_true]

/-- A key is under one entry at most, so an absent key erases nothing. -/
theorem erase_of_find?_eq_none {m : SortedMap κ ν} {key : κ} (h : m.find? key = none) :
    m.erase key = m := by
  refine ext (List.filter_eq_self.mpr fun e he ↦ decide_eq_true fun hkey ↦ ?_)
  have hsome := (mem_entries_iff m).mp (show (key, e.2) ∈ m.entries from hkey ▸ he)
  rw [h] at hsome
  cases hsome

end SortedMap

/-! ### Keys with a common beginning -/

section Block

variable {α : Type} [LinearOrder α]

theorem le_of_isPrefix {start key : List α} (h : start <+: key) : start ≤ key := by
  obtain ⟨rest, rfl⟩ := h
  induction start with
  | nil => exact not_lt.mp nofun
  | cons a start ih => exact List.cons_le_cons a ih

/-- Between a list and one that begins with it, every list begins with it. -/
theorem isPrefix_of_le_of_le {start : List α} : ∀ {a b : List α}, start ≤ a → a ≤ b →
    start <+: b → start <+: a := by
  induction start with
  | nil => exact fun _ _ _ ↦ List.nil_prefix
  | cons x start ih =>
    intro a b hle hab hb
    obtain ⟨rest, rfl⟩ := hb
    cases a with
    | nil => exact absurd (List.Lex.nil : [] < x :: start) (not_lt.mpr hle)
    | cons y a =>
      rcases lt_trichotomy x y with hlt | rfl | hlt
      · exact absurd (List.Lex.rel hlt : x :: (start ++ rest) < y :: a) (not_lt.mpr hab)
      · have hle' : start ≤ a := not_lt.mp fun h ↦ not_lt.mpr hle (List.Lex.cons h)
        have hab' : a ≤ start ++ rest := not_lt.mp fun h ↦ not_lt.mpr hab (List.Lex.cons h)
        exact List.cons_prefix_cons.mpr ⟨rfl, ih hle' hab' (List.prefix_append _ _)⟩
      · exact absurd (List.Lex.rel hlt : y :: a < x :: start) (not_lt.mpr hle)

omit [LinearOrder α] in
/-- A part of a list and the rest weigh what the list weighs. -/
theorem sum_filter_add_sum_filter_not (l : List α) (weight : α → ℕ) (p : α → Bool) :
    ((l.filter p).map weight).sum + ((l.filter fun a ↦ !p a).map weight).sum =
      (l.map weight).sum := by
  rw [← List.sum_append, ← List.map_append]
  exact ((List.filter_append_perm p l).map weight).sum_eq

/-- Where no member after a failing one satisfies the predicate, the initial part is all of it. -/
theorem takeWhile_eq_filter {β : Type} {p : β → Bool} {l : List β}
    (h : l.Pairwise fun a b ↦ p b = true → p a = true) : l.takeWhile p = l.filter p := by
  induction l with
  | nil => rfl
  | cons a l ih =>
    obtain ⟨hhead, htail⟩ := List.pairwise_cons.mp h
    cases ha : p a with
    | true => rw [List.takeWhile_cons_of_pos ha, List.filter_cons_of_pos ha, ih htail]
    | false =>
      have hne : ¬ p a = true := by rw [ha]; exact Bool.false_ne_true
      rw [List.takeWhile_cons_of_neg hne, List.filter_cons_of_neg hne]
      exact (List.filter_eq_nil_iff.mpr fun b hb hp ↦ hne (hhead b hb hp)).symm

/-- The entries from `start` on whose key begins with it come first. -/
theorem SortedMap.takeWhile_rangeFrom {ν : Type} [DecidableEq α] (m : SortedMap (List α) ν)
    (start : List α) :
    (m.rangeFrom start).takeWhile (fun e ↦ start.isPrefixOf e.1) =
      m.entries.filter fun e ↦ start.isPrefixOf e.1 := by
  have hpair : (m.rangeFrom start).Pairwise fun a b ↦
      start.isPrefixOf b.1 = true → start.isPrefixOf a.1 = true := by
    have hsorted := m.sorted.filter fun e ↦ decide (start ≤ e.1)
    refine List.Pairwise.imp_of_mem (fun {a b} ha _ hlt hb ↦ ?_) hsorted
    have hfrom : start ≤ a.1 := of_decide_eq_true (List.mem_filter.mp ha).2
    exact List.isPrefixOf_iff_prefix.mpr
      (isPrefix_of_le_of_le hfrom hlt.le ( List.isPrefixOf_iff_prefix.mp hb))
  rw [takeWhile_eq_filter hpair, SortedMap.rangeFrom, List.filter_filter]
  refine List.filter_congr fun e _ ↦ ?_
  rw [Bool.and_eq_left_iff_imp]
  exact fun h ↦ decide_eq_true (le_of_isPrefix ( List.isPrefixOf_iff_prefix.mp h))

end Block

end Pegastore
