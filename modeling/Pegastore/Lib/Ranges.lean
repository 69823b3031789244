import Mathlib.Algebra.Order.BigOperators.Group.List
import Mathlib.Algebra.Order.Ring.Nat
import Mathlib.Data.List.Dedup
import Mathlib.Data.List.Lex
import Mathlib.Data.List.MinMax
import Mathlib.Data.List.Nodup
import Mathlib.Data.Prod.Lex
import Mathlib.Tactic.Common

/-!
# Lists of ranges

A range is an offset and a length. `cover l x` counts the ranges of a list that contain the offset
`x`, so a family of ranges partitions an interval when every offset of it is covered once. The count
does not see the order of the list nor empty ranges, and it does not change when a range is cut in
two or two touching ranges are merged. That makes it the invariant of a free list: what an
allocation takes and a release returns is an equation between counts (`cover_takeAt`,
`cover_insertIdx`, `cover_mergeAt`).

In a `Tight` list the ranges are in order and none touches the next, so they are the maximal runs of
what the list covers (`Tight.isGap_iff`).

`partitionPoint` is the binary search of the standard library for the end of the initial part of a
list that satisfies a predicate. On a list that is not partitioned it still returns a position.
-/

set_option autoImplicit false
set_option relaxedAutoImplicit false

namespace Pegastore.Ranges

/-- The range `(offset, length)` contains `x`. -/
def contains (x : ℕ) (r : ℕ × ℕ) : Bool := r.1 ≤ x && x < r.1 + r.2

theorem contains_iff {x : ℕ} {r : ℕ × ℕ} : contains x r = true ↔ r.1 ≤ x ∧ x < r.1 + r.2 := by
  simp [contains]

/-- The number of ranges that contain `x`. -/
def cover (ranges : List (ℕ × ℕ)) (x : ℕ) : ℕ := ranges.countP (contains x)

@[simp] theorem cover_nil (x : ℕ) : cover [] x = 0 := rfl

theorem cover_cons (r : ℕ × ℕ) (ranges : List (ℕ × ℕ)) (x : ℕ) :
    cover (r :: ranges) x = cover ranges x + cover [r] x := by
  unfold cover
  rw [List.countP_cons, List.countP_singleton]

theorem cover_append (first second : List (ℕ × ℕ)) (x : ℕ) :
    cover (first ++ second) x = cover first x + cover second x := List.countP_append

theorem one_le_cover {ranges : List (ℕ × ℕ)} {r : ℕ × ℕ} {x : ℕ} (hr : r ∈ ranges)
    (hx : contains x r = true) : 1 ≤ cover ranges x := List.countP_pos_iff.mpr ⟨r, hr, hx⟩

theorem cover_pos_iff {ranges : List (ℕ × ℕ)} {x : ℕ} :
    0 < cover ranges x ↔ ∃ r ∈ ranges, contains x r = true := List.countP_pos_iff

/-- No offset is in both ranges. -/
def Apart (a b : ℕ × ℕ) : Prop := ∀ x, contains x a = true → contains x b = false

theorem Apart.symm {a b : ℕ × ℕ} (h : Apart a b) : Apart b a := by
  intro x hx
  by_contra hboth
  have hfalse := h x ((Bool.not_eq_false _).mp hboth)
  rw [hx] at hfalse
  cases hfalse

/-- Two ranges with members are apart when one ends before the other begins. -/
theorem apart_iff {a b : ℕ × ℕ} (ha : 0 < a.2) (hb : 0 < b.2) :
    Apart a b ↔ a.1 + a.2 ≤ b.1 ∨ b.1 + b.2 ≤ a.1 := by
  unfold Apart
  simp only [← Bool.not_eq_true, contains_iff]
  constructor
  · intro h
    -- the larger of the two offsets is in both ranges unless one ends before it
    have hmax := h (max a.1 b.1)
    omega
  · intro h x hx
    omega

/-- Ranges that cover no offset twice are pairwise apart. -/
theorem pairwise_apart {ranges : List (ℕ × ℕ)} (h : ∀ x, cover ranges x ≤ 1) :
    ranges.Pairwise Apart := by
  induction ranges with
  | nil => exact List.Pairwise.nil
  | cons r ranges ih =>
    have hsum := fun x ↦ cover_cons r ranges x ▸ h x
    refine List.pairwise_cons.mpr ⟨fun b hb x hx ↦ ?_, ih fun x ↦ ?_⟩
    · by_contra hboth
      have hr : 1 ≤ cover [r] x := one_le_cover List.mem_cons_self hx
      have hrest : 1 ≤ cover ranges x := one_le_cover hb ((Bool.not_eq_false _).mp hboth)
      have hle := hsum x
      omega
    · exact le_trans (Nat.le_add_right _ _) (hsum x)

/-- Empty ranges do not count. -/
theorem cover_filter_pos (ranges : List (ℕ × ℕ)) (x : ℕ) :
    cover (ranges.filter fun r ↦ 0 < r.2) x = cover ranges x := by
  unfold cover
  rw [List.countP_filter]
  refine List.countP_congr fun r _ ↦ ?_
  simp only [Bool.and_eq_true, decide_eq_true_eq, contains_iff]
  omega

theorem cover_perm {first second : List (ℕ × ℕ)} (h : first.Perm second) (x : ℕ) :
    cover first x = cover second x := h.countP_eq _

theorem cover_singleton (r : ℕ × ℕ) (x : ℕ) :
    cover [r] x = if r.1 ≤ x ∧ x < r.1 + r.2 then 1 else 0 := by
  unfold cover
  rw [List.countP_singleton]
  simp only [contains_iff]

/-- A range cut in two. -/
theorem cover_split (off first second x : ℕ) :
    cover [(off, first + second)] x = cover [(off, first)] x + cover [(off + first, second)] x := by
  rw [cover_singleton, cover_singleton, cover_singleton]
  dsimp only
  split_ifs <;> omega

theorem cover_eraseIdx {ranges : List (ℕ × ℕ)} {i : ℕ} {r : ℕ × ℕ} (h : ranges[i]? = some r)
    (x : ℕ) : cover (ranges.eraseIdx i) x + cover [r] x = cover ranges x := by
  obtain ⟨hlt, rfl⟩ := List.getElem?_eq_some_iff.mp h
  rw [← cover_cons]
  exact cover_perm (List.getElem_cons_eraseIdx_perm hlt) x

theorem cover_set {ranges : List (ℕ × ℕ)} {i : ℕ} {r : ℕ × ℕ} (h : ranges[i]? = some r)
    (new : ℕ × ℕ) (x : ℕ) :
    cover (ranges.set i new) x + cover [r] x = cover ranges x + cover [new] x := by
  obtain ⟨hlt, _⟩ := List.getElem?_eq_some_iff.mp h
  have hset := cover_perm (List.set_perm_cons_eraseIdx hlt new) x
  rw [cover_cons] at hset
  have herase := cover_eraseIdx h x
  omega

/-- Take `need` units from the beginning of the range at position `i`. -/
def takeAt (ranges : List (ℕ × ℕ)) (i need : ℕ) (r : ℕ × ℕ) : List (ℕ × ℕ) :=
  if r.2 = need then ranges.eraseIdx i else ranges.set i (r.1 + need, r.2 - need)

/-- What is taken is no longer covered. -/
theorem cover_takeAt {ranges : List (ℕ × ℕ)} {i need : ℕ} {r : ℕ × ℕ} (h : ranges[i]? = some r)
    (hneed : need ≤ r.2) (x : ℕ) :
    cover (takeAt ranges i need r) x + cover [(r.1, need)] x = cover ranges x := by
  obtain ⟨off, len⟩ := r
  unfold takeAt
  split_ifs with hall
  · rw [← hall]
    exact cover_eraseIdx h x
  · have hset := cover_set h (off + need, len - need) x
    have hsplit := cover_split off need (len - need) x
    dsimp only at hneed hset ⊢
    rw [Nat.add_sub_cancel' hneed] at hsplit
    omega

theorem cover_insertIdx {ranges : List (ℕ × ℕ)} {i : ℕ} (hi : i ≤ ranges.length) (r : ℕ × ℕ)
    (x : ℕ) : cover (ranges.insertIdx i r) x = cover ranges x + cover [r] x := by
  rw [cover_perm (List.perm_insertIdx r ranges hi) x, cover_cons]

/-- Merge the range at position `i` with the next one, when they touch. -/
def mergeAt (ranges : List (ℕ × ℕ)) (i : ℕ) : List (ℕ × ℕ) :=
  match ranges[i]?, ranges[i + 1]? with
  | some a, some b =>
    if a.1 + a.2 = b.1 then (ranges.set i (a.1, a.2 + b.2)).eraseIdx (i + 1) else ranges
  | _, _ => ranges

theorem cover_mergeAt (ranges : List (ℕ × ℕ)) (i x : ℕ) :
    cover (mergeAt ranges i) x = cover ranges x := by
  unfold mergeAt
  split
  · next a b ha hb =>
    obtain ⟨first, firstLen⟩ := a
    obtain ⟨second, secondLen⟩ := b
    split_ifs with htouch
    · have hnext : (ranges.set i (first, firstLen + secondLen))[i + 1]? =
          some (second, secondLen) := by
        rw [List.getElem?_set_ne (by omega)]
        exact hb
      have herase := cover_eraseIdx hnext x
      have hset := cover_set ha (first, firstLen + secondLen) x
      have hsplit := cover_split first firstLen secondLen x
      dsimp only at htouch hset ⊢
      rw [htouch] at hsplit
      omega
    · rfl
  · rfl

/-! ### Total length -/

/-- The ranges are in order, none is empty and no two of them touch. -/
structure Tight (ranges : List (ℕ × ℕ)) : Prop where
  gaps : ranges.Pairwise fun a b ↦ a.1 + a.2 < b.1
  pos : ∀ r ∈ ranges, 0 < r.2

section Tight

variable {ranges first second : List (ℕ × ℕ)} {r : ℕ × ℕ}

theorem tight_cons : Tight (r :: ranges) ↔
    (∀ b ∈ ranges, r.1 + r.2 < b.1) ∧ 0 < r.2 ∧ Tight ranges := by
  constructor
  · intro h
    obtain ⟨hhead, htail⟩ := List.pairwise_cons.mp h.gaps
    exact ⟨hhead, h.pos r List.mem_cons_self, htail, fun b hb ↦ h.pos b (List.mem_cons_of_mem _ hb)⟩
  · intro ⟨hhead, hpos, htail⟩
    refine ⟨List.pairwise_cons.mpr ⟨hhead, htail.gaps⟩, fun b hb ↦ ?_⟩
    rcases List.mem_cons.mp hb with rfl | hb
    · exact hpos
    · exact htail.pos b hb

theorem tight_append : Tight (first ++ second) ↔
    Tight first ∧ Tight second ∧ ∀ a ∈ first, ∀ b ∈ second, a.1 + a.2 < b.1 := by
  constructor
  · intro h
    obtain ⟨hfirst, hsecond, hcross⟩ := List.pairwise_append.mp h.gaps
    exact ⟨⟨hfirst, fun a ha ↦ h.pos a (List.mem_append_left _ ha)⟩,
      ⟨hsecond, fun b hb ↦ h.pos b (List.mem_append_right _ hb)⟩, hcross⟩
  · intro ⟨hfirst, hsecond, hcross⟩
    refine ⟨List.pairwise_append.mpr ⟨hfirst.gaps, hsecond.gaps, hcross⟩, fun a ha ↦ ?_⟩
    rcases List.mem_append.mp ha with ha | ha
    · exact hfirst.pos a ha
    · exact hsecond.pos a ha

/-- The ranges that start before a point come first. -/
theorem Tight.exists_split (h : Tight ranges) (point : ℕ) : ∃ first second,
    ranges = first ++ second ∧ (∀ a ∈ first, a.1 < point) ∧ ∀ b ∈ second, ¬ b.1 < point := by
  induction ranges with
  | nil => exact ⟨[], [], rfl, nofun, nofun⟩
  | cons r ranges ih =>
    obtain ⟨hgap, _, hrest⟩ := tight_cons.mp h
    by_cases hr : r.1 < point
    · obtain ⟨first, second, hsplit, hfirst, hsecond⟩ := ih hrest
      refine ⟨r :: first, second, congrArg (List.cons r) hsplit, fun a ha ↦ ?_, hsecond⟩
      rcases List.mem_cons.mp ha with rfl | ha
      · exact hr
      · exact hfirst a ha
    · refine ⟨[], r :: ranges, rfl, nofun, fun b hb ↦ ?_⟩
      rcases List.mem_cons.mp hb with rfl | hb
      · exact hr
      · have hlt := hgap b hb
        omega

/-- What is left after a part of a range was taken. -/
theorem Tight.takeAt (h : Tight ranges) {i need : ℕ} (hr : ranges[i]? = some r)
    (hneed : need ≤ r.2) : Tight (takeAt ranges i need r) := by
  unfold Ranges.takeAt
  split_ifs with hall
  · have hsub := List.eraseIdx_sublist ranges i
    exact ⟨h.gaps.sublist hsub, fun a ha ↦ h.pos a (hsub.subset ha)⟩
  · obtain ⟨hlt, rfl⟩ := List.getElem?_eq_some_iff.mp hr
    have hsplit : ranges = ranges.take i ++ ranges[i] :: ranges.drop (i + 1) := by
      rw [← List.drop_eq_getElem_cons hlt, List.take_append_drop]
    rw [List.set_eq_take_append_cons_drop, if_pos hlt]
    rw [hsplit, tight_append, tight_cons] at h
    obtain ⟨hbefore, ⟨hafter, _, hrest⟩, hcross⟩ := h
    refine tight_append.mpr ⟨hbefore, tight_cons.mpr ⟨fun b hb ↦ ?_, ?_, hrest⟩, fun a ha b hb ↦ ?_⟩
    · have hgap := hafter b hb
      dsimp only
      omega
    · dsimp only
      omega
    · rcases List.mem_cons.mp hb with rfl | hb
      · have hgap := hcross a ha _ List.mem_cons_self
        dsimp only
        omega
      · exact hcross a ha b (List.mem_cons_of_mem _ hb)

theorem insertIdx_append (first second : List (ℕ × ℕ)) (r : ℕ × ℕ) :
    (first ++ second).insertIdx first.length r = first ++ r :: second := by
  induction first with
  | nil => rfl
  | cons a first ih => exact congrArg (List.cons a) ih

/-- Two neighbours, merged if they touch. -/
theorem mergeAt_append (first second : List (ℕ × ℕ)) (a b : ℕ × ℕ) :
    mergeAt (first ++ a :: b :: second) first.length =
      if a.1 + a.2 = b.1 then first ++ (a.1, a.2 + b.2) :: second
      else first ++ a :: b :: second := by
  have hfirst : (first ++ a :: b :: second)[first.length]? = some a := by
    rw [List.getElem?_append_right (le_refl _), Nat.sub_self]
    rfl
  have hnext : (first ++ a :: b :: second)[first.length + 1]? = some b := by
    rw [List.getElem?_append_right (Nat.le_add_right _ 1), Nat.add_sub_cancel_left]
    rfl
  unfold mergeAt
  rw [hfirst, hnext]
  dsimp only
  split_ifs
  · rw [List.set_append, if_neg (lt_irrefl _), Nat.sub_self, List.set_cons_zero,
      List.eraseIdx_append_of_length_le (Nat.le_add_right _ 1), Nat.add_sub_cancel_left]
    rfl
  · rfl

/-- The last range has no neighbour to merge with. -/
theorem mergeAt_last (first : List (ℕ × ℕ)) (a : ℕ × ℕ) :
    mergeAt (first ++ [a]) first.length = first ++ [a] := by
  have hnext : (first ++ [a])[first.length + 1]? = none :=
    List.getElem?_eq_none (by rw [List.length_append]; exact le_refl _)
  unfold mergeAt
  rw [hnext]
  split
  · next heq => cases heq
  · rfl

/-- A range merges with what follows it. -/
theorem exists_mergeAt_next (first : List (ℕ × ℕ)) (hsecond : Tight second) (hpos : 0 < r.2)
    (hafter : ∀ b ∈ second, r.1 + r.2 ≤ b.1) :
    ∃ len rest, mergeAt (first ++ r :: second) first.length = first ++ (r.1, len) :: rest ∧
      Tight ((r.1, len) :: rest) ∧ rest ⊆ second := by
  cases second with
  | nil => exact ⟨r.2, [], mergeAt_last first r, tight_cons.mpr ⟨nofun, hpos, hsecond⟩, nofun⟩
  | cons b second =>
    obtain ⟨hgap, hb, hrest⟩ := tight_cons.mp hsecond
    have hle := hafter b List.mem_cons_self
    rw [mergeAt_append]
    split_ifs with htouch
    · refine ⟨r.2 + b.2, second, rfl, tight_cons.mpr ⟨fun c hc ↦ ?_, ?_, hrest⟩,
        List.subset_cons_self b second⟩
      · have hc := hgap c hc
        dsimp only
        omega
      · dsimp only
        omega
    · refine ⟨r.2, b :: second, rfl, tight_cons.mpr ⟨fun c hc ↦ ?_, hpos, hsecond⟩,
        List.Subset.refl _⟩
      rcases List.mem_cons.mp hc with rfl | hc
      · dsimp only
        omega
      · have hc := hgap c hc
        dsimp only
        omega

/-- A range is inserted between those before it and those after it, and merged with its
neighbours. -/
theorem tight_insert (h : Tight (first ++ second)) (hpos : 0 < r.2)
    (hbefore : ∀ a ∈ first, a.1 + a.2 ≤ r.1) (hafter : ∀ b ∈ second, r.1 + r.2 ≤ b.1) :
    Tight (if first.length > 0
      then mergeAt (mergeAt ((first ++ second).insertIdx first.length r) first.length)
        (first.length - 1)
      else mergeAt ((first ++ second).insertIdx first.length r) first.length) := by
  obtain ⟨hfirst, hsecond, hcross⟩ := tight_append.mp h
  obtain ⟨len, rest, hmerged, htight, hsub⟩ := exists_mergeAt_next first hsecond hpos hafter
  rw [insertIdx_append, hmerged]
  rcases List.eq_nil_or_concat' first with rfl | ⟨init, a, rfl⟩
  · exact htight
  · have hlast : (init ++ [a]).length = init.length + 1 := List.length_append
    have hassoc : (init ++ [a]) ++ (r.1, len) :: rest = init ++ a :: (r.1, len) :: rest :=
      List.append_assoc _ _ _
    rw [hlast, if_pos (Nat.succ_pos _), Nat.add_sub_cancel, hassoc, mergeAt_append]
    obtain ⟨hinit, hone, hgap⟩ := tight_append.mp hfirst
    obtain ⟨_, ha, _⟩ := tight_cons.mp hone
    obtain ⟨hnext, hlen, hrest⟩ := tight_cons.mp htight
    have hle := hbefore a (List.mem_append_right _ (List.mem_singleton_self a))
    -- the ranges before the last one end before it begins
    have hstart : ∀ c ∈ init, c.1 + c.2 < a.1 := fun c hc ↦ hgap c hc a (List.mem_singleton_self a)
    have hover : ∀ c ∈ init, ∀ b ∈ rest, c.1 + c.2 < b.1 := fun c hc b hb ↦
      hcross c (List.mem_append_left _ hc) b (hsub hb)
    split_ifs with htouch
    · refine tight_append.mpr ⟨hinit, tight_cons.mpr ⟨fun b hb ↦ ?_, ?_, hrest⟩, fun c hc b hb ↦ ?_⟩
      · have hb := hnext b hb
        dsimp only at hb htouch ⊢
        omega
      · dsimp only
        omega
      · rcases List.mem_cons.mp hb with rfl | hb
        · exact hstart c hc
        · exact hover c hc b hb
    · refine tight_append.mpr
        ⟨hinit, tight_cons.mpr ⟨fun b hb ↦ ?_, ha, htight⟩, fun c hc b hb ↦ ?_⟩
      · dsimp only at htouch
        rcases List.mem_cons.mp hb with rfl | hb
        · dsimp only
          omega
        · have hb := hnext b hb
          dsimp only at hb
          omega
      · have hc' := hstart c hc
        rcases List.mem_cons.mp hb with rfl | hb
        · exact hc'
        · rcases List.mem_cons.mp hb with rfl | hb
          · dsimp only
            omega
          · exact hover c hc b hb

/-- A tight list that covers an interval once is that interval. -/
theorem Tight.eq_singleton (h : Tight ranges) {len : ℕ} (hlen : 0 < len)
    (hcover : ∀ x, cover ranges x = if x < len then 1 else 0) : ranges = [(0, len)] := by
  have hin : ∀ x, x < len → ∃ r ∈ ranges, r.1 ≤ x ∧ x < r.1 + r.2 := by
    intro x hx
    have hone : 0 < cover ranges x := by rw [hcover, if_pos hx]; exact Nat.one_pos
    obtain ⟨r, hr, hcontains⟩ := List.countP_pos_iff.mp hone
    exact ⟨r, hr, contains_iff.mp hcontains⟩
  have hout : ∀ r ∈ ranges, ∀ x, r.1 ≤ x → x < r.1 + r.2 → x < len := by
    intro r hr x hle hlt
    refine not_le.mp fun hbeyond ↦ ?_
    have hone := one_le_cover hr (contains_iff.mpr ⟨hle, hlt⟩)
    rw [hcover, if_neg (not_lt.mpr hbeyond)] at hone
    exact Nat.not_succ_le_zero 0 hone
  cases ranges with
  | nil =>
    obtain ⟨r, hr, _⟩ := hin 0 hlen
    exact absurd hr List.not_mem_nil
  | cons a rest =>
    obtain ⟨hgap, hpos, hrest⟩ := tight_cons.mp h
    have hstart : a.1 = 0 := by
      obtain ⟨r, hr, hle, _⟩ := hin 0 hlen
      rcases List.mem_cons.mp hr with rfl | hr
      · exact Nat.le_zero.mp hle
      · have hlt := hgap r hr
        omega
    have hend : a.2 = len := by
      have hle := hout a List.mem_cons_self (a.1 + a.2 - 1) (by omega) (by omega)
      refine le_antisymm (by omega) (not_lt.mp fun hlt ↦ ?_)
      obtain ⟨r, hr, hfrom, hto⟩ := hin a.2 hlt
      rcases List.mem_cons.mp hr with rfl | hr
      · omega
      · have hgap := hgap r hr
        omega
    cases rest with
    | nil => rw [show a = (0, len) from Prod.ext hstart hend]
    | cons b rest =>
      have hb : 0 < b.2 := hrest.pos b List.mem_cons_self
      have hlt := hout b (List.mem_cons_of_mem _ List.mem_cons_self) b.1 (le_refl _) (by omega)
      have hgap := hgap b List.mem_cons_self
      omega

/-- Two ranges of a tight list are the same, or there is an uncovered offset between them. -/
theorem Tight.apart (h : Tight ranges) {a b : ℕ × ℕ} (ha : a ∈ ranges) (hb : b ∈ ranges) :
    a = b ∨ a.1 + a.2 < b.1 ∨ b.1 + b.2 < a.1 := by
  induction ranges with
  | nil => exact absurd ha List.not_mem_nil
  | cons r ranges ih =>
    obtain ⟨hgap, _, hrest⟩ := tight_cons.mp h
    rcases List.mem_cons.mp ha with rfl | ha' <;> rcases List.mem_cons.mp hb with rfl | hb'
    · exact .inl rfl
    · exact .inr (.inl (hgap b hb'))
    · exact .inr (.inr (hgap a ha'))
    · exact ih hrest ha' hb'

/-- A maximal run of offsets with a property. -/
structure IsGap (P : ℕ → Prop) (off len : ℕ) : Prop where
  pos : 0 < len
  inside : ∀ x, off ≤ x → x < off + len → P x
  before : ∀ x, x + 1 = off → ¬ P x
  after : ¬ P (off + len)

/-- The ranges of a tight list are the maximal runs of what it covers. -/
theorem Tight.isGap_iff (h : Tight ranges) (off len : ℕ) :
    IsGap (fun x ↦ 0 < cover ranges x) off len ↔ (off, len) ∈ ranges := by
  have hcover : ∀ x, 0 < cover ranges x ↔ ∃ r ∈ ranges, r.1 ≤ x ∧ x < r.1 + r.2 := by
    intro x
    simp only [cover_pos_iff, contains_iff]
  simp only [hcover]
  constructor
  · intro hgap
    obtain ⟨r, hr, hle, hlt⟩ := hgap.inside off (le_refl _) (Nat.lt_add_of_pos_right hgap.pos)
    -- the range that holds the first offset can neither begin earlier nor end elsewhere
    have hstart : r.1 = off := by
      refine le_antisymm hle (not_lt.mp fun hearlier ↦ ?_)
      exact hgap.before (off - 1) (by omega) ⟨r, hr, by omega, by omega⟩
    have hend : r.2 = len := by
      refine le_antisymm (not_lt.mp fun hlonger ↦ ?_) (not_lt.mp fun hshorter ↦ ?_)
      · exact hgap.after ⟨r, hr, by omega, by omega⟩
      · obtain ⟨s, hs, hsle, hslt⟩ := hgap.inside (r.1 + r.2) (by omega) (by omega)
        rcases h.apart hr hs with rfl | hgap | hgap <;> omega
    rw [← hstart, ← hend]
    exact hr
  · intro hr
    refine ⟨h.pos _ hr, fun x hle hlt ↦ ⟨_, hr, hle, hlt⟩, fun x hx hin ↦ ?_, fun hin ↦ ?_⟩
    · obtain ⟨s, hs, hsle, hslt⟩ := hin
      rcases h.apart hr hs with rfl | hgap | hgap
      all_goals dsimp only at *; omega
    · obtain ⟨s, hs, hsle, hslt⟩ := hin
      rcases h.apart hr hs with rfl | hgap | hgap
      all_goals dsimp only at *; omega

end Tight

/-! ### Ranges below a bound -/

section Within

variable {ranges : List (ℕ × ℕ)} {bound : ℕ}

/-- Every range, also an empty one, ends at the bound at the latest. -/
def Within (bound : ℕ) (ranges : List (ℕ × ℕ)) : Prop := ∀ r ∈ ranges, r.1 + r.2 ≤ bound

theorem Within.takeAt (h : Within bound ranges) {i need : ℕ} {r : ℕ × ℕ} (hr : ranges[i]? = some r)
    (hneed : need ≤ r.2) : Within bound (takeAt ranges i need r) := by
  intro s hs
  unfold Ranges.takeAt at hs
  split_ifs at hs
  · exact h s (List.mem_of_mem_eraseIdx hs)
  · have hend := h r (List.mem_of_getElem? hr)
    rcases List.mem_or_eq_of_mem_set hs with hs | rfl
    · exact h s hs
    · dsimp only
      omega

theorem Within.insertIdx (h : Within bound ranges) {r : ℕ × ℕ} (hr : r.1 + r.2 ≤ bound) {i : ℕ}
    (hi : i ≤ ranges.length) : Within bound (ranges.insertIdx i r) := by
  intro s hs
  rcases (List.mem_insertIdx hi).mp hs with rfl | hs
  · exact hr
  · exact h s hs

theorem Within.mergeAt (h : Within bound ranges) (i : ℕ) : Within bound (mergeAt ranges i) := by
  unfold Ranges.mergeAt
  split
  · rename_i a b ha hb
    split_ifs with htouch
    · intro s hs
      have hend := h b (List.mem_of_getElem? hb)
      rcases List.mem_or_eq_of_mem_set (List.mem_of_mem_eraseIdx hs) with hs | rfl
      · exact h s hs
      · dsimp only
        omega
    · exact h
  · exact h

end Within

/-! ### Binary search -/

section Search

variable {α : Type}

/-- The loop of the search: `size` positions from `base` on are left. -/
def searchLoop (pred : ℕ → Bool) : ℕ → ℕ → ℕ → ℕ
  | 0, _, base => base
  | fuel + 1, size, base =>
    if size > 1 then
      searchLoop pred fuel (size - size / 2)
        (if pred (base + size / 2) then base + size / 2 else base)
    else base

/-- The number of elements before the first that does not satisfy the predicate, when those that
do come first. -/
def partitionPoint (pred : α → Bool) (l : List α) : ℕ :=
  let base := searchLoop (fun k ↦ (l[k]?).any pred) l.length l.length 0
  if (l[base]?).any pred then base + 1 else base

theorem searchLoop_lt (pred : ℕ → Bool) (fuel : ℕ) : ∀ {size base length : ℕ},
    base + size ≤ length → 0 < size → searchLoop pred fuel size base < length := by
  induction fuel with
  | zero =>
    intro size base length hle hpos
    change base < length
    omega
  | succ fuel ih =>
    intro size base length hle hpos
    unfold searchLoop
    split_ifs
    · exact ih (by omega) (by omega)
    · exact ih (by omega) (by omega)
    · omega

theorem partitionPoint_le (pred : α → Bool) (l : List α) : partitionPoint pred l ≤ l.length := by
  unfold partitionPoint
  dsimp only
  split_ifs with hlast
  · obtain ⟨a, ha, _⟩ := (Option.any_eq_true _ _).mp hlast
    exact (List.getElem?_eq_some_iff.mp ha).1
  · rcases Nat.eq_zero_or_pos l.length with hnil | hpos
    · rw [hnil]
      exact le_refl 0
    · exact (searchLoop_lt _ _ (by omega) hpos).le

/-- The search ends at the last position that satisfies the predicate, or at the first one. -/
theorem searchLoop_spec {pred : ℕ → Bool} (point fuel : ℕ) : ∀ size base : ℕ,
    (∀ k, base ≤ k → k < base + size → (pred k = true ↔ k < point)) → point ≤ base + size →
    0 < size → size ≤ fuel + 1 → (base = 0 ∨ base < point) →
      ∃ last, searchLoop pred fuel size base = last ∧ (last = 0 ∨ last < point) ∧
        point ≤ last + 1 ∧ (pred last = true ↔ last < point) := by
  induction fuel with
  | zero =>
    intro size base hpred hpoint hpos hfuel hbase
    have hsize : size = 1 := by omega
    subst hsize
    exact ⟨base, rfl, hbase, hpoint, hpred base (le_refl _) (by omega)⟩
  | succ fuel ih =>
    intro size base hpred hpoint hpos hfuel hbase
    unfold searchLoop
    have hmid := hpred (base + size / 2) (by omega) (by omega)
    split_ifs with hsize htest
    · have hlt := hmid.mp htest
      exact ih _ _ (fun k hle hk ↦ hpred k (by omega) (by omega)) (by omega) (by omega) (by omega)
        (.inr hlt)
    · have hge : ¬ base + size / 2 < point := fun hlt ↦ htest (hmid.mpr hlt)
      exact ih _ _ (fun k hle hk ↦ hpred k hle (by omega)) (by omega) (by omega) (by omega) hbase
    · exact ⟨base, rfl, hbase, by omega, hpred base (le_refl _) (by omega)⟩

/-- On a partitioned list the search finds the partition. -/
theorem partitionPoint_append {pred : α → Bool} {first second : List α}
    (hfirst : ∀ a ∈ first, pred a = true) (hsecond : ∀ a ∈ second, pred a = false) :
    partitionPoint pred (first ++ second) = first.length := by
  have hpred : ∀ k, k < (first ++ second).length →
      (((first ++ second)[k]?).any pred = true ↔ k < first.length) := by
    intro k hk
    rw [List.getElem?_eq_getElem hk, Option.any_some]
    by_cases hlt : k < first.length
    · rw [List.getElem_append_left hlt]
      exact iff_of_true (hfirst _ (List.getElem_mem hlt)) hlt
    · rw [List.getElem_append_right (by omega), hsecond _ (List.getElem_mem _)]
      exact iff_of_false Bool.false_ne_true hlt
  rcases Nat.eq_zero_or_pos (first ++ second).length with hnil | hpos
  · have hempty := List.length_eq_zero_iff.mp hnil
    rw [hempty, (List.append_eq_nil_iff.mp hempty).1]
    rfl
  · have hlength : (first ++ second).length = first.length + second.length := List.length_append
    obtain ⟨last, hsearch, hlast, hpoint, hiff⟩ := searchLoop_spec first.length
      (first ++ second).length (first ++ second).length 0
      (fun k _ hk ↦ hpred k (by omega)) (by omega) hpos (by omega) (.inl rfl)
    unfold partitionPoint
    dsimp only
    rw [hsearch]
    split_ifs with htest
    · have hlt := hiff.mp htest
      omega
    · have hge : ¬ last < first.length := fun hlt ↦ htest (hiff.mpr hlt)
      omega

end Search

end Pegastore.Ranges
