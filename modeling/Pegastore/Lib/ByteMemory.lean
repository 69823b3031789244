import Mathlib.Algebra.Order.BigOperators.Group.List
import Mathlib.Algebra.Order.Ring.Nat
import Mathlib.Data.List.Dedup
import Mathlib.Data.List.Lex
import Mathlib.Data.List.MinMax
import Mathlib.Data.List.Nodup
import Mathlib.Data.Prod.Lex
import Mathlib.Tactic.Common

/-!
# Flat memory, segments and scatter/gather

A memory assigns a cell to every address, and a segment is a range of addresses. `readAll` is the
gather of a list of segments and `writeAll` the scatter of a list of cells over one. When the
segments are pairwise disjoint and their lengths sum to the number of cells, gathering what was
scattered gives the cells back (`readAll_writeAll`), and a scatter changes no cell outside its
segments (`writeAll_of_not_covered`).
-/

set_option autoImplicit false
set_option relaxedAutoImplicit false

namespace Pegastore.ByteMemory

/-- A range of addresses. -/
structure Segment where
  addr : ℕ
  len : ℕ
deriving DecidableEq, Repr

/-- The address lies in the segment. -/
def Segment.Covers (s : Segment) (a : ℕ) : Prop := s.addr ≤ a ∧ a < s.addr + s.len

/-- No address lies in both segments. -/
def Segment.Disjoint (s t : Segment) : Prop := ∀ a, s.Covers a → ¬ t.Covers a

theorem Segment.disjoint_of_le {s t : Segment}
    (h : s.addr + s.len ≤ t.addr ∨ t.addr + t.len ≤ s.addr) : s.Disjoint t := by
  rintro a ⟨hs, hs'⟩ ⟨ht, ht'⟩
  omega

/-- The first segment is a part of the second one. -/
def Segment.Inside (t s : Segment) : Prop := s.addr ≤ t.addr ∧ t.addr + t.len ≤ s.addr + s.len

theorem Segment.Inside.refl (s : Segment) : s.Inside s := ⟨le_refl _, le_refl _⟩

theorem Segment.Inside.trans {s t u : Segment} (h : s.Inside t) (h' : t.Inside u) : s.Inside u :=
  ⟨h'.1.trans h.1, h.2.trans h'.2⟩

theorem Segment.Inside.covers {s t : Segment} (h : t.Inside s) {a : ℕ} (ha : t.Covers a) :
    s.Covers a := ⟨h.1.trans ha.1, lt_of_lt_of_le ha.2 h.2⟩

/-- The number of cells of a list of segments. -/
def totalLen (segs : List Segment) : ℕ := (segs.map Segment.len).sum

variable {β : Type}

/-- The cells of a segment. -/
def read (m : ℕ → β) (s : Segment) : List β := (List.range s.len).map fun i ↦ m (s.addr + i)

/-- The memory with `cells` stored from `addr` on. -/
def write (m : ℕ → β) (addr : ℕ) (cells : List β) : ℕ → β := fun a ↦
  if addr ≤ a then cells[a - addr]?.getD (m a) else m a

/-- The gather of a list of segments. -/
def readAll (m : ℕ → β) (segs : List Segment) : List β := segs.flatMap (read m)

/-- The scatter of `cells` over a list of segments. -/
def writeAll (m : ℕ → β) : List Segment → List β → ℕ → β
  | [], _ => m
  | s :: rest, cells => writeAll (write m s.addr (cells.take s.len)) rest (cells.drop s.len)

@[simp] theorem length_read (m : ℕ → β) (s : Segment) : (read m s).length = s.len := by
  simp [read]

@[simp] theorem length_readAll (m : ℕ → β) (segs : List Segment) :
    (readAll m segs).length = totalLen segs := by
  simp [readAll, totalLen, List.length_flatMap]

theorem readAll_cons (m : ℕ → β) (s : Segment) (segs : List Segment) :
    readAll m (s :: segs) = read m s ++ readAll m segs := rfl

theorem totalLen_cons (s : Segment) (segs : List Segment) :
    totalLen (s :: segs) = s.len + totalLen segs := rfl

/-- A part of a segment reads as the same part of its cells. -/
theorem read_part (m : ℕ → β) (s : Segment) {skip n : ℕ} (h : skip + n ≤ s.len) :
    read m ⟨s.addr + skip, n⟩ = ((read m s).drop skip).take n := by
  apply List.ext_getElem
  · rw [length_read, List.length_take, List.length_drop, length_read]
    simp only
    omega
  · intro i hpart _
    simp only [read, List.getElem_map, List.getElem_range, List.getElem_take, List.getElem_drop]
    rw [Nat.add_assoc]

/-- A write changes only the cells it covers. -/
theorem write_of_not_covered (m : ℕ → β) (addr : ℕ) (cells : List β) {a : ℕ}
    (h : ¬ (addr ≤ a ∧ a < addr + cells.length)) : write m addr cells a = m a := by
  unfold write
  split_ifs with hle
  · have hlen : cells.length ≤ a - addr := by omega
    rw [List.getElem?_eq_none hlen, Option.getD_none]
  · rfl

/-- Two memories that agree on a segment read the same cells from it. -/
theorem read_congr {m m' : ℕ → β} {s : Segment} (h : ∀ a, s.Covers a → m a = m' a) :
    read m s = read m' s := by
  unfold read
  apply List.map_congr_left
  intro i hi
  have hlt := List.mem_range.mp hi
  exact h _ ⟨by omega, by omega⟩

theorem readAll_congr {m m' : ℕ → β} {segs : List Segment}
    (h : ∀ s ∈ segs, ∀ a, s.Covers a → m a = m' a) : readAll m segs = readAll m' segs := by
  induction segs with
  | nil => rfl
  | cons s rest ih =>
    rw [readAll_cons, readAll_cons, read_congr (h s List.mem_cons_self)]
    rw [ih fun t ht ↦ h t (List.mem_cons_of_mem _ ht)]

/-- Reading back what was written. -/
theorem read_write (m : ℕ → β) (s : Segment) {cells : List β} (hlen : cells.length = s.len) :
    read (write m s.addr cells) s = cells := by
  apply List.ext_getElem
  · rw [length_read, hlen]
  · intro i hread hcells
    rw [length_read] at hread
    simp only [read, List.getElem_map, List.getElem_range, write]
    rw [if_pos (Nat.le_add_right _ _), Nat.add_sub_cancel_left, List.getElem?_eq_getElem hcells,
      Option.getD_some]

/-- A scatter changes no cell outside its segments. -/
theorem writeAll_of_not_covered (segs : List Segment) {a : ℕ} (h : ∀ s ∈ segs, ¬ s.Covers a) :
    ∀ (m : ℕ → β) (cells : List β), writeAll m segs cells a = m a := by
  induction segs with
  | nil =>
    intro m cells
    rfl
  | cons s rest ih =>
    intro m cells
    rw [writeAll, ih fun t ht ↦ h t (List.mem_cons_of_mem _ ht)]
    apply write_of_not_covered
    rintro ⟨hle, hlt⟩
    have htake : (cells.take s.len).length ≤ s.len := by
      rw [List.length_take]
      omega
    exact h s List.mem_cons_self ⟨hle, by omega⟩

/-- Gathering what was scattered over pairwise disjoint segments gives the cells back. -/
theorem readAll_writeAll (segs : List Segment) (hdisjoint : segs.Pairwise Segment.Disjoint) :
    ∀ (m : ℕ → β) (cells : List β), cells.length = totalLen segs →
      readAll (writeAll m segs cells) segs = cells := by
  induction segs with
  | nil =>
    intro m cells hlen
    exact (List.length_eq_zero_iff.mp hlen).symm
  | cons s rest ih =>
    intro m cells hlen
    obtain ⟨hhead, htail⟩ := List.pairwise_cons.mp hdisjoint
    rw [totalLen_cons] at hlen
    have htake : (cells.take s.len).length = s.len := by
      rw [List.length_take]
      omega
    have hdrop : (cells.drop s.len).length = totalLen rest := by
      rw [List.length_drop]
      omega
    rw [readAll_cons, writeAll, ih htail _ _ hdrop]
    have hfirst : read (writeAll (write m s.addr (cells.take s.len)) rest (cells.drop s.len)) s =
        read (write m s.addr (cells.take s.len)) s :=
      read_congr fun a ha ↦ writeAll_of_not_covered rest (fun t ht ↦ hhead t ht a ha) _ _
    rw [hfirst, read_write m s htake, List.take_append_drop]

/-! ### Renamed cells -/

section Map

variable {γ : Type} (g : γ → β) (m : ℕ → γ)

end Map

/-! ### Part of a segment list -/

/-- What is left of a list after `n` cells of its first segment. -/
def restAfter (s : Segment) (rest : List Segment) (n : ℕ) : List Segment :=
  if n = s.len then rest else ⟨s.addr + n, s.len - n⟩ :: rest

theorem totalLen_restAfter (s : Segment) (rest : List Segment) {n : ℕ} (h : n ≤ s.len) :
    n + totalLen (restAfter s rest n) = totalLen (s :: rest) := by
  unfold restAfter
  split_ifs with hall
  · rw [totalLen_cons, hall]
  · rw [totalLen_cons, totalLen_cons]
    dsimp only
    omega

/-- What is left lies segment by segment inside the list. -/
theorem exists_inside_of_restAfter {s t : Segment} {rest : List Segment} {n : ℕ} (h : n ≤ s.len)
    (ht : t ∈ restAfter s rest n) : ∃ u ∈ s :: rest, t.Inside u := by
  unfold restAfter at ht
  split_ifs at ht with hall
  · exact ⟨t, List.mem_cons_of_mem _ ht, Segment.Inside.refl t⟩
  · rcases List.mem_cons.mp ht with rfl | ht
    · refine ⟨s, List.mem_cons_self, Nat.le_add_right _ _, ?_⟩
      dsimp only
      omega
    · exact ⟨t, List.mem_cons_of_mem _ ht, Segment.Inside.refl t⟩

/-- An address in what is left was in the list. -/
theorem covers_of_restAfter {s t : Segment} {rest : List Segment} {n a : ℕ} (h : n ≤ s.len)
    (ht : t ∈ restAfter s rest n) (ha : t.Covers a) : ∃ u ∈ s :: rest, u.Covers a := by
  obtain ⟨u, hu, hinside⟩ := exists_inside_of_restAfter h ht
  exact ⟨u, hu, hinside.covers ha⟩

theorem readAll_restAfter (m : ℕ → β) (s : Segment) (rest : List Segment) {n : ℕ}
    (h : n ≤ s.len) :
    readAll m (s :: rest) = read m ⟨s.addr, n⟩ ++ readAll m (restAfter s rest n) := by
  have hhead : read m ⟨s.addr, n⟩ = (read m s).take n := by
    have hpart := read_part m s (show 0 + n ≤ s.len by omega)
    rwa [Nat.add_zero, List.drop_zero] at hpart
  unfold restAfter
  split_ifs with hall
  · rw [readAll_cons, hhead, hall, List.take_of_length_le (length_read m s).le]
  · have htail : read m ⟨s.addr + n, s.len - n⟩ = (read m s).drop n := by
      rw [read_part m s (by omega), List.take_of_length_le]
      rw [List.length_drop, length_read]
    rw [readAll_cons, readAll_cons, hhead, htail, ← List.append_assoc, List.take_append_drop]

@[simp] theorem write_nil (m : ℕ → β) (addr : ℕ) : write m addr [] = m := by
  funext a
  exact write_of_not_covered m addr [] fun h ↦ by
    rw [List.length_nil] at h
    omega

@[simp] theorem writeAll_nil (segs : List Segment) : ∀ m : ℕ → β, writeAll m segs [] = m := by
  induction segs with
  | nil => exact fun m ↦ rfl
  | cons s rest ih =>
    intro m
    rw [writeAll, List.take_nil, List.drop_nil, write_nil, ih]

theorem write_append (m : ℕ → β) (addr : ℕ) (first second : List β) :
    write m addr (first ++ second) = write (write m addr first) (addr + first.length) second := by
  funext a
  unfold write
  by_cases hle : addr + first.length ≤ a
  · rw [if_pos hle, if_pos (by omega), if_pos (by omega), List.getElem?_append_right (by omega),
      List.getElem?_eq_none (l := first) (by omega), Option.getD_none]
    rw [show a - addr - first.length = a - (addr + first.length) by omega]
  · rw [if_neg hle]
    split_ifs with hstart
    · rw [List.getElem?_append_left (by omega)]
    · rfl

/-- A scatter whose first cells fit into the first segment. -/
theorem writeAll_restAfter (m : ℕ → β) (s : Segment) (rest : List Segment) {first : List β}
    (second : List β) (h : first.length ≤ s.len) :
    writeAll m (s :: rest) (first ++ second) =
      writeAll (write m s.addr first) (restAfter s rest first.length) second := by
  unfold restAfter
  split_ifs with hall
  · rw [writeAll, ← hall, List.take_left, List.drop_left]
  · rw [writeAll, writeAll, List.take_append, List.drop_append, List.take_of_length_le h,
      List.drop_of_length_le h, List.nil_append, write_append]

/-- Two memories get the same cells where a scatter writes both. -/
theorem writeAll_agree (segs : List Segment) : ∀ (m m' : ℕ → β) (cells : List β) (a : ℕ),
    totalLen segs ≤ cells.length → (m a = m' a ∨ ∃ s ∈ segs, s.Covers a) →
      writeAll m segs cells a = writeAll m' segs cells a := by
  induction segs with
  | nil =>
    intro m m' cells a _ h
    exact h.resolve_right fun ⟨s, hs, _⟩ ↦ absurd hs List.not_mem_nil
  | cons s rest ih =>
    intro m m' cells a hlen h
    rw [totalLen_cons] at hlen
    refine ih _ _ _ a (by rw [List.length_drop]; omega) ?_
    have htake : (cells.take s.len).length = s.len := by
      rw [List.length_take]
      omega
    by_cases hcovers : s.Covers a
    · left
      unfold write
      have hlt : a - s.addr < (cells.take s.len).length := by
        have hend := hcovers.2
        have hstart := hcovers.1
        omega
      rw [if_pos hcovers.1, if_pos hcovers.1, List.getElem?_eq_getElem hlt]
      rfl
    · rcases h with hsame | ⟨t, ht, ha⟩
      · left
        have hout : ¬ (s.addr ≤ a ∧ a < s.addr + (cells.take s.len).length) := by
          rw [htake]
          exact hcovers
        rw [write_of_not_covered _ _ _ hout, write_of_not_covered _ _ _ hout, hsame]
      · rcases List.mem_cons.mp ht with rfl | ht
        · exact absurd ha hcovers
        · exact .inr ⟨t, ht, ha⟩

/-- Scatters over disjoint segments commute. -/
theorem writeAll_comm (m : ℕ → β) {first second : List Segment} {cells cells' : List β}
    (hapart : ∀ s ∈ first, ∀ t ∈ second, s.Disjoint t) (hfirst : totalLen first ≤ cells.length)
    (hsecond : totalLen second ≤ cells'.length) :
    writeAll (writeAll m first cells) second cells' =
      writeAll (writeAll m second cells') first cells := by
  ext a
  by_cases hcovered : ∃ s ∈ first, s.Covers a
  · have hout : ∀ t ∈ second, ¬ t.Covers a := by
      obtain ⟨s, hs, ha⟩ := hcovered
      exact fun t ht ↦ hapart s hs t ht a ha
    rw [writeAll_of_not_covered second hout]
    exact writeAll_agree first _ _ cells a hfirst (Or.inr hcovered)
  · have hout : ∀ s ∈ first, ¬ s.Covers a := fun s hs ha ↦ hcovered ⟨s, hs, ha⟩
    rw [writeAll_of_not_covered first hout]
    exact writeAll_agree second _ _ cells' a hsecond
      (Or.inl (writeAll_of_not_covered first hout _ _))

end Pegastore.ByteMemory
