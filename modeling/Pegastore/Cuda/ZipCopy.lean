import Pegastore.Cuda.Local

/-!
# The copying loop of a `get`

`zip_copy` of `local.rs` walks two segment lists in lockstep and moves one piece at a time, so a
piece is read after the pieces before it were written. `zipLoop_eq` says that this is a gather
followed by a scatter as long as no byte of the source is written.

A position in a segment list is what is left of the list. The address sums of the source stay inside
a segment, and so inside an allocation.
-/

set_option autoImplicit false
set_option relaxedAutoImplicit false

namespace Pegastore.Local

open Outcome ByteMemory

/-- What is left of a segment list from an offset on. -/
def skipSegs : List Segment → ℕ → List Segment
  | [], _ => []
  | s :: rest, off =>
    if off ≥ s.len then skipSegs rest (off - s.len) else ⟨s.addr + off, s.len - off⟩ :: rest

def ranPast : Error := Error.new .invalidInput "copy ran past a segment list"

/-- A piece ends a segment, or it is the last one. -/
theorem zipLoop_decreases (s d : Segment) (src dst : List Segment) {left : ℕ} (hleft : left ≠ 0) :
    (restAfter s src (min (min s.len d.len) left)).length +
        (restAfter d dst (min (min s.len d.len) left)).length +
        (left - min (min s.len d.len) left) <
      (s :: src).length + (d :: dst).length + left := by
  unfold restAfter
  split_ifs <;> simp only [List.length_cons] <;> omega

/-- The copying loop: `f` moves the largest piece that lies in one segment on both sides. -/
def zipLoop {σ : Type} (f : ℕ → ℕ → ℕ → σ → σ) (src dst : List Segment) (left : ℕ) (m : σ) :
    σ × Result Unit :=
  if left = 0 then (m, .ok ())
  else
    match src, dst with
    | s :: src, d :: dst =>
      let n := min (min s.len d.len) left
      zipLoop f (restAfter s src n) (restAfter d dst n) (left - n) (f s.addr d.addr n m)
    | _, _ => (m, .error ranPast)
termination_by src.length + dst.length + left
decreasing_by exact zipLoop_decreases s d src dst ‹_›

/-- Copy `total` bytes, from `srcOffset` on. -/
def zipCopy {σ : Type} (f : ℕ → ℕ → ℕ → σ → σ) (src : List Segment) (srcOffset : ℕ)
    (dst : List Segment) (total : ℕ) (m : σ) : σ × Result Unit :=
  zipLoop f (skipSegs src srcOffset) dst total m

/-- Move one piece, from the memory `view` shows. -/
def movePiece {β : Type} (view : (ℕ → β) → ℕ → β) (src dst n : ℕ) (m : ℕ → β) : ℕ → β :=
  write m dst (read (view m) ⟨src, n⟩)

section Loop

variable {β : Type} {view : (ℕ → β) → ℕ → β} {source target : ℕ → Prop}

/-- What is left lies segment by segment inside the list. -/
theorem exists_inside_of_skipSegs {t : Segment} (src : List Segment) : ∀ {off : ℕ},
    t ∈ skipSegs src off → ∃ s ∈ src, t.Inside s := by
  induction src with
  | nil =>
    intro off ht
    exact absurd ht List.not_mem_nil
  | cons s rest ih =>
    intro off ht
    unfold skipSegs at ht
    split_ifs at ht with hoff
    · obtain ⟨u, hu, hinside⟩ := ih ht
      exact ⟨u, List.mem_cons_of_mem _ hu, hinside⟩
    · rcases List.mem_cons.mp ht with rfl | ht
      · refine ⟨s, List.mem_cons_self, Nat.le_add_right _ _, ?_⟩
        dsimp only
        omega
      · exact ⟨t, List.mem_cons_of_mem _ ht, Segment.Inside.refl t⟩

theorem covers_skipSegs {t : Segment} {a off : ℕ} {src : List Segment} (ht : t ∈ skipSegs src off)
    (ha : t.Covers a) : ∃ s ∈ src, s.Covers a := by
  obtain ⟨s, hs, hinside⟩ := exists_inside_of_skipSegs src ht
  exact ⟨s, hs, hinside.covers ha⟩

theorem readAll_skipSegs (m : ℕ → β) (src : List Segment) : ∀ off : ℕ,
    readAll m (skipSegs src off) = (readAll m src).drop off := by
  induction src with
  | nil =>
    intro off
    exact (List.drop_nil).symm
  | cons s rest ih =>
    intro off
    have hlength : (read m s).length = s.len := length_read m s
    unfold skipSegs
    rw [readAll_cons, List.drop_append, hlength]
    split_ifs with hoff
    · have hnil : (read m s).drop off = [] := List.drop_of_length_le (by omega)
      rw [ih, hnil, List.nil_append]
    · rw [readAll_cons, read_part m s (by omega), List.take_of_length_le]
      · rw [Nat.sub_eq_zero_of_le (by omega), List.drop_zero]
      · rw [List.length_drop, hlength]

/-- When no byte of the source is written, the loop is a gather followed by a scatter; it runs past
the source exactly when that is too short. -/
theorem zipLoop_eq
    (hview : ∀ m m' : ℕ → β, (∀ a, ¬ target a → m' a = m a) →
      ∀ a, source a → view m' a = view m a) (src dst : List Segment) (left : ℕ) (m : ℕ → β)
    (hsrc : ∀ s ∈ src, ∀ a, s.Covers a → source a)
    (hdst : ∀ d ∈ dst, ∀ a, d.Covers a → target a) (hleft : left ≤ totalLen dst) :
    zipLoop (movePiece view) src dst left m =
      (writeAll m dst ((readAll (view m) src).take left),
        if totalLen src < left then .error ranPast else .ok ()) := by
  fun_induction zipLoop (movePiece view) src dst left m with
  | case1 src dst m =>
    rw [List.take_zero, writeAll_nil, if_neg (Nat.not_lt_zero _)]
  | case2 left m hne s src d dst n ih =>
    have hns : n ≤ s.len := (min_le_left _ _).trans (min_le_left _ _)
    have hnd : n ≤ d.len := (min_le_left _ _).trans (min_le_right _ _)
    have hnleft : n ≤ left := min_le_right _ _
    have hread : (read (view m) ⟨s.addr, n⟩).length = n := length_read _ _
    have htotalSrc := totalLen_restAfter s src hns
    have htotalDst := totalLen_restAfter d dst hnd
    have hsrc' : ∀ t ∈ restAfter s src n, ∀ a, t.Covers a → source a := by
      intro t ht a ha
      obtain ⟨u, hu, hcovers⟩ := covers_of_restAfter hns ht ha
      exact hsrc u hu a hcovers
    have hdst' : ∀ t ∈ restAfter d dst n, ∀ a, t.Covers a → target a := by
      intro t ht a ha
      obtain ⟨u, hu, hcovers⟩ := covers_of_restAfter hnd ht ha
      exact hdst u hu a hcovers
    -- the piece is written into the destination, so the source still reads the same
    have hsame : readAll (view (movePiece view s.addr d.addr n m)) (restAfter s src n) =
        readAll (view m) (restAfter s src n) := by
      refine readAll_congr fun t ht a ha ↦ hview m _ (fun b hb ↦ ?_) a (hsrc' t ht a ha)
      refine write_of_not_covered _ _ _ fun hin ↦ hb (hdst d List.mem_cons_self b ?_)
      rw [hread] at hin
      exact ⟨hin.1, by omega⟩
    have hpiece : (read (view m) ⟨s.addr, n⟩).take left = read (view m) ⟨s.addr, n⟩ :=
      List.take_of_length_le (by rw [hread]; exact hnleft)
    rw [ih hsrc' hdst' (by omega), hsame, readAll_restAfter (view m) s src hns, List.take_append,
      hpiece, writeAll_restAfter m d dst _ (by rw [hread]; exact hnd), hread]
    refine Prod.ext rfl (if_congr ?_ rfl rfl)
    omega
  | case3 src dst left m hne hshort =>
    cases dst with
    | nil =>
      change left ≤ 0 at hleft
      omega
    | cons d dst =>
      cases src with
      | cons s src => exact absurd rfl (hshort s src d dst rfl)
      | nil =>
        have hpos : totalLen [] < left := Nat.pos_of_ne_zero hne
        change _ = (writeAll m (d :: dst) (List.take left []), _)
        rw [List.take_nil, writeAll_nil, if_pos hpos]

/-- The loop writes to the destination only. -/
theorem zipLoop_of_not_covered {a : ℕ} (src dst : List Segment) (left : ℕ) (m : ℕ → β)
    (h : ∀ d ∈ dst, ¬ d.Covers a) : (zipLoop (movePiece view) src dst left m).1 a = m a := by
  fun_induction zipLoop (movePiece view) src dst left m with
  | case1 => rfl
  | case2 left m _ s src d dst n ih =>
    have hnd : n ≤ d.len := (min_le_left _ _).trans (min_le_right _ _)
    rw [ih fun t ht ha ↦ ?_]
    · refine write_of_not_covered _ _ _ fun hin ↦ h d List.mem_cons_self ?_
      rw [length_read] at hin
      exact ⟨hin.1, lt_of_lt_of_le hin.2 (Nat.add_le_add_left hnd _)⟩
    · obtain ⟨u, hu, hcovers⟩ := covers_of_restAfter hnd ht ha
      exact h u hu hcovers
  | case3 => rfl

end Loop

end Pegastore.Local
