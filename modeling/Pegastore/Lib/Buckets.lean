import Pegastore.Lib.Outcome

/-!
# Distributing a list over buckets

A loop that pushes every item of a list to the bucket with a computed number ends with the items of
each bucket in the order of the list: `bucketsOf` is that result and `pushAt_bucketsOf` the step of
the loop. When the items of a bucket are then distributed again by their position in it, `ranked`
gives every item of the whole list that position (`filter_ranked`).

`grouped` collects a list of keyed values by key, in an order of the keys of its own. It loses and
repeats nothing (`grouped_perm`), has one group per key at most, and keeps the order inside a group.

`cells` and `slots` enumerate a table of values, as two nested loops do. Distributing the slots
again by their row gives the table back (`bucketsOf_slots`).
-/

set_option autoImplicit false
set_option relaxedAutoImplicit false

namespace Pegastore.Buckets

open Outcome

variable {α κ : Type}

/-! ### Buckets by number -/

/-- `buckets[i].push(x)`. -/
def pushAt (buckets : List (List α)) (i : ℕ) (x : α) : Exec (List (List α)) :=
  if i < buckets.length then .ok (buckets.modify i fun bucket ↦ bucket ++ [x])
  else .error .indexOutOfBounds

/-- The items of each of `n` buckets. -/
def bucketsOf (n : ℕ) (items : List (ℕ × α)) : List (List α) :=
  (List.range n).map fun j ↦ (items.filter fun item ↦ item.1 = j).map Prod.snd

@[simp] theorem length_bucketsOf (n : ℕ) (items : List (ℕ × α)) :
    (bucketsOf n items).length = n := by
  simp [bucketsOf]

theorem getElem?_bucketsOf {n j : ℕ} (hj : j < n) (items : List (ℕ × α)) :
    (bucketsOf n items)[j]? = some ((items.filter fun item ↦ item.1 = j).map Prod.snd) := by
  simp [bucketsOf, hj]

theorem bucketsOf_nil (n : ℕ) : bucketsOf n ([] : List (ℕ × α)) = List.replicate n [] := by
  refine List.ext_getElem? fun j ↦ ?_
  by_cases hj : j < n
  · rw [getElem?_bucketsOf hj, List.getElem?_replicate, if_pos hj]
    rfl
  · rw [List.getElem?_eq_none (by simpa using hj), List.getElem?_eq_none (by simpa using hj)]

theorem pushAt_bucketsOf {n i : ℕ} (hi : i < n) (items : List (ℕ × α)) (x : α) :
    pushAt (bucketsOf n items) i x = .ok (bucketsOf n (items ++ [(i, x)])) := by
  unfold pushAt
  rw [length_bucketsOf, if_pos hi]
  congr 1
  refine List.ext_getElem? fun j ↦ ?_
  by_cases hj : j < n
  · rw [List.getElem?_modify, getElem?_bucketsOf hj, getElem?_bucketsOf hj, List.filter_append]
    by_cases heq : i = j
    · simp [heq]
    · simp [heq]
  · rw [List.getElem?_eq_none (by simpa using hj), List.getElem?_eq_none (by simpa using hj)]

/-- A loop that computes the bucket of each item. -/
theorem foldlM_pushAt {β : Type} {n : ℕ} {slot : β → Exec ℕ} {slotOf : β → ℕ} (value : β → α)
    (items : List β) (hslot : ∀ b ∈ items, slot b = .ok (slotOf b) ∧ slotOf b < n) :
    ∀ done : List (ℕ × α),
      items.foldlM (fun buckets b ↦ do
        let i ← slot b
        pushAt buckets i (value b)) (bucketsOf n done) =
      .ok (bucketsOf n (done ++ items.map fun b ↦ (slotOf b, value b))) := by
  induction items with
  | nil =>
    intro done
    rw [List.map_nil, List.append_nil]
    rfl
  | cons b rest ih =>
    intro done
    obtain ⟨hok, hlt⟩ := hslot b List.mem_cons_self
    rw [List.foldlM_cons]
    simp only [hok, ok_bind]
    rw [pushAt_bucketsOf hlt, ok_bind, ih fun c hc ↦ hslot c (List.mem_cons_of_mem _ hc)]
    simp

/-! ### Positions inside a bucket -/

/-- Every item with the number of earlier items of its bucket. -/
def ranked (items : List (ℕ × α)) : List ((ℕ × α) × ℕ) :=
  items.zipIdx.map fun e ↦ (e.1, (items.take e.2).countP fun item ↦ item.1 = e.1.1)

theorem ranked_concat (items : List (ℕ × α)) (item : ℕ × α) :
    ranked (items ++ [item]) =
      ranked items ++ [(item, items.countP fun other ↦ other.1 = item.1)] := by
  unfold ranked
  rw [List.zipIdx_append, List.map_append]
  congr 1
  · refine List.map_congr_left fun e he ↦ ?_
    have hlt := List.snd_lt_of_mem_zipIdx he
    rw [List.take_append_of_le_length (by omega)]
  · simp

theorem map_fst_ranked (items : List (ℕ × α)) : (ranked items).map Prod.fst = items := by
  unfold ranked
  rw [List.map_map]
  exact List.zipIdx_map_fst 0 items

/-- Inside a bucket the ranks are the positions. -/
theorem filter_ranked (items : List (ℕ × α)) (j : ℕ) :
    ((ranked items).filter fun e ↦ e.1.1 = j).map (fun e ↦ (e.1.2, e.2)) =
      ((items.filter fun item ↦ item.1 = j).map Prod.snd).zipIdx := by
  induction items using List.reverseRecOn with
  | nil => rfl
  | append_singleton items item ih =>
    rw [ranked_concat, List.filter_append, List.map_append, ih, List.filter_append, List.map_append,
      List.zipIdx_append]
    congr 1
    by_cases heq : item.1 = j
    · simp [heq, List.countP_eq_length_filter]
    · simp [heq]

/-! ### Groups by key -/

section Groups

variable [DecidableEq κ]

/-- The values of a key, in order. -/
def valuesOf (routes : List (κ × α)) (key : κ) : List α :=
  (routes.filter fun r ↦ r.1 = key).map Prod.snd

theorem valuesOf_map {β : Type} (f : α → β) (routes : List (κ × α)) (key : κ) :
    valuesOf (routes.map fun r ↦ (r.1, f r.2)) key = (valuesOf routes key).map f := by
  unfold valuesOf
  rw [List.filter_map, List.map_map, List.map_map]
  rfl

/-- Keyed values are distinct if the values of each key are. -/
theorem nodup_of_nodup_valuesOf {routes : List (κ × α)}
    (h : ∀ key, (valuesOf routes key).Nodup) : routes.Nodup := by
  induction routes with
  | nil => exact List.nodup_nil
  | cons r rest ih =>
    refine List.nodup_cons.mpr ⟨fun hin ↦ ?_, ih fun key ↦ ?_⟩
    · have hkey := h r.1
      unfold valuesOf at hkey
      rw [List.filter_cons_of_pos (by simp), List.map_cons] at hkey
      refine (List.nodup_cons.mp hkey).1 (List.mem_map_of_mem (List.mem_filter.mpr ⟨hin, ?_⟩))
      exact decide_eq_true rfl
    · exact (h key).sublist (((List.sublist_cons_self r rest).filter _).map _)

/-- The keys that have values, with them. -/
def grouped (keys : List κ) (routes : List (κ × α)) : List (κ × List α) :=
  (keys.map fun key ↦ (key, valuesOf routes key)).filter fun group ↦ !group.2.isEmpty

theorem grouped_append (first second : List κ) (routes : List (κ × α)) :
    grouped (first ++ second) routes = grouped first routes ++ grouped second routes := by
  unfold grouped
  rw [List.map_append, List.filter_append]

theorem nodup_grouped {keys : List κ} (hkeys : keys.Nodup) (routes : List (κ × α)) :
    ((grouped keys routes).map Prod.fst).Nodup := by
  have hsub : ((grouped keys routes).map Prod.fst).Sublist keys := by
    have hfilter := (List.filter_sublist
      (l := keys.map fun key ↦ (key, valuesOf routes key))
      (p := fun group ↦ !group.2.isEmpty)).map Prod.fst
    rwa [List.map_map, show (Prod.fst ∘ fun key ↦ (key, valuesOf routes key)) = id from rfl,
      List.map_id] at hfilter
  exact hkeys.sublist hsub

theorem valuesOf_of_mem_grouped {keys : List κ} {routes : List (κ × α)} {group : κ × List α}
    (h : group ∈ grouped keys routes) : group.2 = valuesOf routes group.1 ∧ group.2 ≠ [] := by
  obtain ⟨hmem, hne⟩ := List.mem_filter.mp h
  obtain ⟨key, _, rfl⟩ := List.mem_map.mp hmem
  refine ⟨rfl, fun hnil ↦ ?_⟩
  rw [hnil] at hne
  cases hne

/-- The filters by the keys are a partition. -/
theorem flatMap_filter_perm {keys : List κ} (hkeys : keys.Nodup) : ∀ {routes : List (κ × α)},
    (∀ r ∈ routes, r.1 ∈ keys) →
      (keys.flatMap fun key ↦ routes.filter fun r ↦ r.1 = key).Perm routes := by
  induction keys with
  | nil =>
    intro routes hall
    rw [List.eq_nil_iff_forall_not_mem.mpr fun r hr ↦ List.not_mem_nil (hall r hr)]
    exact List.Perm.refl _
  | cons key keys ih =>
    intro routes hall
    obtain ⟨hnot, hrest⟩ := List.nodup_cons.mp hkeys
    -- the other keys do not see the values of the first one
    have hothers : (keys.flatMap fun other ↦ routes.filter fun r ↦ r.1 = other) =
        keys.flatMap fun other ↦
          (routes.filter fun r ↦ !decide (r.1 = key)).filter fun r ↦ r.1 = other := by
      refine List.flatMap_congr fun other hother ↦ ?_
      rw [List.filter_filter]
      refine List.filter_congr fun r _ ↦ ?_
      have hne : other ≠ key := fun heq ↦ hnot (heq ▸ hother)
      by_cases hr : r.1 = other
      · simp [hr, hne]
      · simp [hr]
    rw [List.flatMap_cons, hothers]
    refine ((ih hrest fun r hr ↦ ?_).append_left _).trans (List.filter_append_perm _ _)
    obtain ⟨hmem, hne⟩ := List.mem_filter.mp hr
    rcases List.mem_cons.mp (hall r hmem) with heq | hin
    · simp [heq] at hne
    · exact hin

theorem map_valuesOf (routes : List (κ × α)) (key : κ) :
    (valuesOf routes key).map (fun value ↦ (key, value)) = routes.filter fun r ↦ r.1 = key := by
  unfold valuesOf
  rw [List.map_map]
  refine (List.map_congr_left fun r hr ↦ ?_).trans (List.map_id _)
  have heq : r.1 = key := of_decide_eq_true (List.mem_filter.mp hr).2
  simp [← heq]

theorem flatMap_grouped (keys : List κ) (routes : List (κ × α)) :
    ((grouped keys routes).flatMap fun group ↦ group.2.map fun value ↦ (group.1, value)) =
      keys.flatMap fun key ↦ routes.filter fun r ↦ r.1 = key := by
  induction keys with
  | nil => rfl
  | cons key keys ih =>
    rw [List.flatMap_cons, ← ih, ← List.singleton_append, grouped_append, List.flatMap_append,
      ← map_valuesOf routes key]
    congr 1
    by_cases hempty : valuesOf routes key = []
    · simp [grouped, hempty]
    · simp [grouped, hempty]

/-- Grouping loses and repeats nothing. -/
theorem grouped_perm {keys : List κ} (hkeys : keys.Nodup) {routes : List (κ × α)}
    (hall : ∀ r ∈ routes, r.1 ∈ keys) :
    ((grouped keys routes).flatMap fun group ↦ group.2.map fun value ↦ (group.1, value)).Perm
      routes := by
  rw [flatMap_grouped]
  exact flatMap_filter_perm hkeys hall

end Groups

/-! ### Rows and cells -/

/-- The values of a table with their row and column, in the order of two nested loops. -/
def cells (rows : List (List α)) : List ((ℕ × ℕ) × α) :=
  rows.zipIdx.flatMap fun row ↦ row.1.zipIdx.map fun cell ↦ ((row.2, cell.2), cell.1)

theorem mem_cells {rows : List (List α)} {i j : ℕ} {x : α} :
    ((i, j), x) ∈ cells rows ↔ ∃ row, rows[i]? = some row ∧ row[j]? = some x := by
  simp only [cells, List.mem_flatMap, List.mem_map, Prod.exists, Prod.mk.injEq,
    List.mem_zipIdx_iff_getElem?]
  constructor
  · rintro ⟨row, _, hrow, _, _, hcell, ⟨rfl, rfl⟩, rfl⟩
    exact ⟨row, hrow, hcell⟩
  · rintro ⟨row, hrow, hcell⟩
    exact ⟨row, i, hrow, x, j, hcell, ⟨rfl, rfl⟩, rfl⟩

/-- The values of a table with their row. -/
def slots (rows : List (List α)) : List (ℕ × α) := (cells rows).map fun cell ↦ (cell.1.1, cell.2)

theorem lt_of_mem_slots {rows : List (List α)} {slot : ℕ × α} (h : slot ∈ slots rows) :
    slot.1 < rows.length := by
  obtain ⟨cell, hcell, rfl⟩ := List.mem_map.mp h
  obtain ⟨row, hrow, _⟩ := mem_cells.mp hcell
  exact (List.getElem?_eq_some_iff.mp hrow).1

theorem slots_concat (rows : List (List α)) (row : List α) :
    slots (rows ++ [row]) = slots rows ++ row.map fun x ↦ (rows.length, x) := by
  unfold slots cells
  rw [List.zipIdx_append, List.flatMap_append, List.map_append]
  congr 1
  simp only [List.zipIdx_singleton, List.flatMap_singleton, List.map_map, zero_add]
  have hfst : row.zipIdx.map Prod.fst = row := List.zipIdx_map_fst 0 row
  conv_rhs => rw [← hfst, List.map_map]
  rfl

theorem slots_map {β : Type} (f : α → β) (rows : List (List α)) :
    slots (rows.map fun row ↦ row.map f) = (slots rows).map fun slot ↦ (slot.1, f slot.2) := by
  induction rows using List.reverseRecOn with
  | nil => rfl
  | append_singleton rows row ih =>
    rw [List.map_append, List.map_singleton, slots_concat, slots_concat, ih, List.map_append,
      List.map_map, List.map_map, List.length_map]
    rfl

/-- The slots of a row are its values. -/
theorem valuesOf_slots (rows : List (List α)) (i : ℕ) :
    valuesOf (slots rows) i = rows[i]?.getD [] := by
  induction rows using List.reverseRecOn with
  | nil => rfl
  | append_singleton rows row ih =>
    have hrow : ((row.map fun x ↦ (rows.length, x)).filter fun r ↦ r.1 = i).map Prod.snd =
        if rows.length = i then row else [] := by
      rw [List.filter_map, List.map_map]
      by_cases heq : rows.length = i
      · simp [heq, Function.comp_def]
      · simp [heq, Function.comp_def]
    unfold valuesOf at ih ⊢
    rw [slots_concat, List.filter_append, List.map_append, ih, hrow]
    rcases Nat.lt_trichotomy i rows.length with hlt | heq | hgt
    · rw [List.getElem?_append_left hlt, if_neg hlt.ne', List.append_nil]
    · simp [heq]
    · rw [List.getElem?_eq_none hgt.le, List.getElem?_eq_none (by simp; omega), if_neg hgt.ne]
      rfl

theorem bucketsOf_slots (rows : List (List α)) : bucketsOf rows.length (slots rows) = rows := by
  refine List.ext_getElem? fun i ↦ ?_
  by_cases hi : i < rows.length
  · have hvalues := valuesOf_slots rows i
    rw [List.getElem?_eq_getElem hi] at hvalues ⊢
    exact (getElem?_bucketsOf hi _).trans (congrArg some hvalues)
  · rw [List.getElem?_eq_none (by simpa using hi), List.getElem?_eq_none (by simpa using hi)]

end Pegastore.Buckets
