import Pegastore.Cuda.Get
import Pegastore.Memory.Read

/-!
# The ranged copy, call by call

`zip_copy` with its two cursors, its checked arithmetic and a callback that may fail. What a cursor
has not passed yet is a segment list (`leftFrom`), and on the lists left the loop makes a fixed
sequence of calls: `pieces`. The callback decides only how far the loop gets (`holds_zipCopyBy`), so
everything about the calls is said about `pieces`: byte by byte they pair the addresses of the
source from the offset on with those of the destination (`bytes_pieces`), and no call leaves its
segment.

Where the two lists share bytes, a piece may read what an earlier one has written. Run on a memory
that holds its own addresses the copy shows where each byte comes from (`pieceOrigin`).
-/

set_option autoImplicit false
set_option relaxedAutoImplicit false

namespace Pegastore.Local

open Outcome ByteMemory

/-- A call of the callback. -/
structure Piece where
  src : ℕ
  dst : ℕ
  len : ℕ
deriving DecidableEq, Repr

/-- A callback: it moves a piece and may fail. -/
abbrev Mover (σ : Type) := ℕ → ℕ → ℕ → σ → σ × Result Unit

/-! ### The loops of the source -/

/-- Find the segment that holds the offset. -/
def skipLoop (src : List Segment) (si srcOffset : ℕ) : ℕ × ℕ :=
  match _hs : src[si]? with
  | none => (si, srcOffset)
  | some s =>
    if srcOffset ≥ s.len then skipLoop src (si + 1) (srcOffset - s.len) else (si, srcOffset)
termination_by src.length - si
decreasing_by
  obtain ⟨hlt, _⟩ := List.getElem?_eq_some_iff.mp _hs
  omega

/-- An index into a segment list and an offset into that segment. -/
structure Cursor where
  i : ℕ
  off : ℕ
deriving DecidableEq, Repr

/-- `n` bytes of the segment further; its end is the beginning of the next one. -/
def Cursor.advance (c : Cursor) (s : Segment) (n : ℕ) : Cursor :=
  if c.off + n = s.len then ⟨c.i + 1, 0⟩ else ⟨c.i, c.off + n⟩

/-- A piece that does not go on to another segment on either side is the rest of what is left. -/
theorem copyLoop_decreases {src dst : List Segment} {sc dc : Cursor} {left : ℕ} {s d : Segment}
    (hleft : left ≠ 0) (hs : src[sc.i]? = some s) (hd : dst[dc.i]? = some d) (hso : sc.off ≤ s.len)
    (hdo : dc.off ≤ d.len) :
    (src.length - (sc.advance s (min (min (s.len - sc.off) (d.len - dc.off)) left)).i) +
        (dst.length - (dc.advance d (min (min (s.len - sc.off) (d.len - dc.off)) left)).i) +
        (left - min (min (s.len - sc.off) (d.len - dc.off)) left) <
      (src.length - sc.i) + (dst.length - dc.i) + left := by
  obtain ⟨hslt, _⟩ := List.getElem?_eq_some_iff.mp hs
  obtain ⟨hdlt, _⟩ := List.getElem?_eq_some_iff.mp hd
  unfold Cursor.advance
  split_ifs <;> dsimp only <;> omega

/-- The copying loop. -/
def copyLoop {σ : Type} (f : Mover σ) (src dst : List Segment) (sc dc : Cursor) (left : ℕ) (m : σ) :
    Exec (σ × Result Unit) :=
  if _hleft : left = 0 then .ok (m, .ok ())
  else
    match _hs : src[sc.i]?, _hd : dst[dc.i]? with
    | some s, some d =>
      -- the two subtractions are checked
      if _hoff : sc.off ≤ s.len ∧ dc.off ≤ d.len then
        let n := min (min (s.len - sc.off) (d.len - dc.off)) left
        addU64 s.addr sc.off >>= fun srcAddr ↦ addU64 d.addr dc.off >>= fun dstAddr ↦
          match f srcAddr dstAddr n m with
          | (m, .error e) => .ok (m, .error e)
          | (m, .ok _) => copyLoop f src dst (sc.advance s n) (dc.advance d n) (left - n) m
      else .error .subOverflow
    | _, _ => .ok (m, .error ranPast)
termination_by (src.length - sc.i) + (dst.length - dc.i) + left
decreasing_by exact copyLoop_decreases _hleft _hs _hd _hoff.1 _hoff.2

/-- Copy `total` bytes from `srcOffset` on through `f`. -/
def zipCopyBy {σ : Type} (f : Mover σ) (src : List Segment) (srcOffset : ℕ) (dst : List Segment)
    (total : ℕ) (m : σ) : Exec (σ × Result Unit) :=
  let start := skipLoop src 0 srcOffset
  copyLoop f src dst ⟨start.1, start.2⟩ ⟨0, 0⟩ total m

/-! ### The calls -/

/-- The calls that copy `left` bytes between two segment lists, as far as they go. -/
def pieces (src dst : List Segment) (left : ℕ) : List Piece :=
  if left = 0 then []
  else
    match src, dst with
    | s :: src, d :: dst =>
      let n := min (min s.len d.len) left
      ⟨s.addr, d.addr, n⟩ :: pieces (restAfter s src n) (restAfter d dst n) (left - n)
    | _, _ => []
termination_by src.length + dst.length + left
decreasing_by exact zipLoop_decreases s d src dst ‹_›

/-- Make calls in order until one fails; `last` is returned when none does. -/
def callAll {σ : Type} (f : Mover σ) (last : Result Unit) : List Piece → σ → σ × Result Unit
  | [], m => (m, last)
  | p :: rest, m =>
    match f p.src p.dst p.len m with
    | (m, .error e) => (m, .error e)
    | (m, .ok _) => callAll f last rest m

/-- What the loop returns when no call fails. -/
def ending (src dst : List Segment) (left : ℕ) : Result Unit :=
  if left ≤ totalLen src ∧ left ≤ totalLen dst then .ok () else .error ranPast

section Pieces

variable {src dst : List Segment} {s d : Segment} {left : ℕ}

theorem pieces_zero (src dst : List Segment) : pieces src dst 0 = [] := by
  unfold pieces
  exact if_pos rfl

theorem pieces_cons (hleft : left ≠ 0) :
    pieces (s :: src) (d :: dst) left =
      ⟨s.addr, d.addr, min (min s.len d.len) left⟩ ::
        pieces (restAfter s src (min (min s.len d.len) left))
          (restAfter d dst (min (min s.len d.len) left)) (left - min (min s.len d.len) left) := by
  rw [pieces, if_neg hleft]

theorem pieces_of_nil (h : src = [] ∨ dst = []) : pieces src dst left = [] := by
  unfold pieces
  split_ifs
  · rfl
  · rcases h with rfl | rfl
    · rfl
    · cases src <;> rfl

/-- One of the lists has come to its end. -/
theorem nil_or_nil_of_not_cons
    (h : ∀ s src' d dst', src = s :: src' → dst = d :: dst' → False) : src = [] ∨ dst = [] := by
  cases src with
  | nil => exact .inl rfl
  | cons s src =>
    cases dst with
    | nil => exact .inr rfl
    | cons d dst => exact absurd rfl (h s src d dst rfl)

theorem ending_cons (src dst : List Segment) :
    ending (restAfter s src (min (min s.len d.len) left))
        (restAfter d dst (min (min s.len d.len) left)) (left - min (min s.len d.len) left) =
      ending (s :: src) (d :: dst) left := by
  have hsrc := totalLen_restAfter s src (n := min (min s.len d.len) left) (by omega)
  have hdst := totalLen_restAfter d dst (n := min (min s.len d.len) left) (by omega)
  unfold ending
  refine if_congr ?_ rfl rfl
  omega

theorem ending_of_nil (hleft : left ≠ 0) (h : src = [] ∨ dst = []) :
    ending src dst left = .error ranPast := by
  refine if_neg fun hle ↦ ?_
  rcases h with rfl | rfl
  · have hnone : left ≤ 0 := hle.1
    omega
  · have hnone : left ≤ 0 := hle.2
    omega

/-- The addresses of the bytes a call moves, from and to. -/
def Piece.bytes (p : Piece) : List (ℕ × ℕ) :=
  (List.range p.len).map fun k ↦ (p.src + k, p.dst + k)

/-- The addresses of the bytes of a segment list, in order. -/
def addrsOf (segs : List Segment) : List ℕ := readAll (fun a ↦ a) segs

theorem Piece.bytes_eq_zip (src dst len : ℕ) :
    (Piece.mk src dst len).bytes =
      (read (fun a ↦ a) ⟨src, len⟩).zip (read (fun a ↦ a) ⟨dst, len⟩) := by
  unfold Piece.bytes ByteMemory.read
  rw [List.zip_map']

/-- Byte by byte the calls pair the addresses of the two lists. -/
theorem bytes_pieces (src dst : List Segment) (left : ℕ) :
    (pieces src dst left).flatMap Piece.bytes = ((addrsOf src).zip (addrsOf dst)).take left := by
  fun_induction pieces src dst left with
  | case1 src dst => rfl
  | case2 left hleft s src d dst n ih =>
    have hns : n ≤ s.len := (min_le_left _ _).trans (min_le_left _ _)
    have hnd : n ≤ d.len := (min_le_left _ _).trans (min_le_right _ _)
    have hlen : ((read (fun a ↦ a) ⟨s.addr, n⟩).zip (read (fun a ↦ a) ⟨d.addr, n⟩)).length = n := by
      simp
    have hfirst := List.take_of_length_le (hlen.trans_le (min_le_right _ left))
    unfold addrsOf at ih ⊢
    rw [List.flatMap_cons, ih, readAll_restAfter _ s src hns, readAll_restAfter _ d dst hnd,
      List.zip_append (by simp), List.take_append, hlen, Piece.bytes_eq_zip, hfirst]
  | case3 src dst left hleft hshort =>
    rcases nil_or_nil_of_not_cons hshort with rfl | rfl
    · exact List.take_nil.symm
    · rw [show addrsOf [] = [] from rfl, List.zip_nil_right, List.take_nil]
      rfl

/-- Every call stays inside one segment on both sides. -/
theorem inside_of_mem_pieces (src dst : List Segment) (left : ℕ) : ∀ p ∈ pieces src dst left,
    (∃ s ∈ src, Segment.Inside ⟨p.src, p.len⟩ s) ∧ ∃ d ∈ dst, Segment.Inside ⟨p.dst, p.len⟩ d := by
  fun_induction pieces src dst left with
  | case1 src dst => exact nofun
  | case2 left hleft s src d dst n ih =>
    have hns : n ≤ s.len := (min_le_left _ _).trans (min_le_left _ _)
    have hnd : n ≤ d.len := (min_le_left _ _).trans (min_le_right _ _)
    intro p hp
    rcases List.mem_cons.mp hp with rfl | hp
    · exact ⟨⟨s, List.mem_cons_self, le_refl _, Nat.add_le_add_left hns _⟩,
        ⟨d, List.mem_cons_self, le_refl _, Nat.add_le_add_left hnd _⟩⟩
    · obtain ⟨⟨t, ht, hin⟩, ⟨u, hu, hin'⟩⟩ := ih p hp
      obtain ⟨t', ht', hpart⟩ := exists_inside_of_restAfter hns ht
      obtain ⟨u', hu', hpart'⟩ := exists_inside_of_restAfter hnd hu
      exact ⟨⟨t', ht', hin.trans hpart⟩, ⟨u', hu', hin'.trans hpart'⟩⟩
  | case3 src dst left hleft hshort => exact nofun

/-- Calls that all succeed. -/
theorem callAll_of_ok {σ : Type} {f : Mover σ} (hf : ∀ s d n m, (f s d n m).2 = .ok ())
    (last : Result Unit) (calls : List Piece) : ∀ m : σ,
    callAll f last calls m = (calls.foldl (fun m p ↦ (f p.src p.dst p.len m).1) m, last) := by
  induction calls with
  | nil => exact fun m ↦ rfl
  | cons p rest ih =>
    intro m
    have hp : f p.src p.dst p.len m = ((f p.src p.dst p.len m).1, .ok ()) :=
      Prod.ext rfl (hf p.src p.dst p.len m)
    rw [callAll, hp]
    exact ih _

/-- The loop on the lists left makes these calls. -/
theorem zipLoop_eq_foldl {σ : Type} (f : ℕ → ℕ → ℕ → σ → σ) (src dst : List Segment) (left : ℕ)
    (m : σ) : zipLoop f src dst left m =
      ((pieces src dst left).foldl (fun m p ↦ f p.src p.dst p.len m) m, ending src dst left) := by
  fun_induction zipLoop f src dst left m with
  | case1 src dst m =>
    rw [pieces_zero, ending, if_pos ⟨Nat.zero_le _, Nat.zero_le _⟩]
    rfl
  | case2 left m hleft s src d dst n ih =>
    rw [ih, pieces_cons hleft, List.foldl_cons]
    exact Prod.ext rfl (ending_cons src dst)
  | case3 src dst left m hleft hshort =>
    have hnil := nil_or_nil_of_not_cons hshort
    rw [pieces_of_nil hnil, ending_of_nil hleft hnil]
    rfl

end Pieces

/-! ### Cursors -/

/-- The addresses of a segment do not wrap. -/
def NoWrap (s : Segment) : Prop := s.addr < 2 ^ 64 ∧ s.addr + s.len ≤ 2 ^ 64

/-- What a cursor has not passed. -/
def leftFrom (segs : List Segment) (c : Cursor) : List Segment :=
  match segs[c.i]? with
  | none => []
  | some s => ⟨s.addr + c.off, s.len - c.off⟩ :: segs.drop (c.i + 1)

/-- The cursor is at the beginning of a segment or before its end. -/
def Cursor.At (c : Cursor) (segs : List Segment) : Prop :=
  ∀ s, segs[c.i]? = some s → c.off = 0 ∨ c.off < s.len

section Cursors

variable {segs src dst : List Segment} {s : Segment} {c sc dc : Cursor}

theorem leftFrom_of_some (h : segs[c.i]? = some s) :
    leftFrom segs c = ⟨s.addr + c.off, s.len - c.off⟩ :: segs.drop (c.i + 1) := by
  unfold leftFrom
  rw [h]

theorem leftFrom_of_none (h : segs[c.i]? = none) : leftFrom segs c = [] := by
  unfold leftFrom
  rw [h]

theorem leftFrom_start (segs : List Segment) (i : ℕ) : leftFrom segs ⟨i, 0⟩ = segs.drop i := by
  cases h : segs[i]? with
  | none => rw [leftFrom_of_none h, List.drop_eq_nil_of_le (List.getElem?_eq_none_iff.mp h)]
  | some s =>
    obtain ⟨hlt, hget⟩ := List.getElem?_eq_some_iff.mp h
    rw [leftFrom_of_some h, List.drop_eq_getElem_cons hlt, hget]
    rfl

theorem Cursor.At.le (h : c.At segs) (hs : segs[c.i]? = some s) : c.off ≤ s.len := by
  rcases h s hs with hzero | hlt
  · omega
  · exact hlt.le

/-- The address at a cursor; the sum overflows only when the segment wraps. -/
theorem Cursor.At.holds_addr (h : c.At segs) (hs : segs[c.i]? = some s) :
    Holds (addU64 s.addr c.off) (fun a ↦ a = s.addr + c.off) (fun _ ↦ ¬ NoWrap s) := by
  refine holds_addU64 (fun _ ↦ rfl) fun hover hwrap ↦ ?_
  obtain ⟨haddr, hend⟩ := hwrap
  rcases h s hs with hzero | hlt <;> omega

theorem Cursor.At.advance {n : ℕ} (h : c.At segs) (hs : segs[c.i]? = some s)
    (hn : n ≤ s.len - c.off) : (c.advance s n).At segs := by
  have hle := h.le hs
  unfold Cursor.advance
  split_ifs with hend
  · exact fun t _ ↦ .inl rfl
  · intro t ht
    obtain rfl : s = t := Option.some_inj.mp (hs.symm.trans ht)
    right
    dsimp only
    omega

theorem Cursor.At.leftFrom_advance {n : ℕ} (h : c.At segs) (hs : segs[c.i]? = some s)
    (hn : n ≤ s.len - c.off) :
    leftFrom segs (c.advance s n) =
      restAfter ⟨s.addr + c.off, s.len - c.off⟩ (segs.drop (c.i + 1)) n := by
  have hle := h.le hs
  unfold Cursor.advance restAfter
  split_ifs with hend hrest hrest
  · exact leftFrom_start segs (c.i + 1)
  · dsimp only at hrest
    omega
  · dsimp only at hrest
    omega
  · rw [leftFrom_of_some (show segs[(Cursor.mk c.i (c.off + n)).i]? = some s from hs),
      Nat.add_assoc, Nat.sub_sub]

/-- The loop from two cursors makes the calls for what they have not passed; it panics only on a
segment that wraps. -/
theorem holds_copyLoop {σ : Type} (f : Mover σ) (src dst : List Segment) (bound : ℕ) :
    ∀ {sc dc : Cursor} (left : ℕ) (m : σ),
    (src.length - sc.i) + (dst.length - dc.i) + left < bound → sc.At src → dc.At dst →
      Holds (copyLoop f src dst sc dc left m)
        (fun r ↦ r = callAll f (ending (leftFrom src sc) (leftFrom dst dc) left)
          (pieces (leftFrom src sc) (leftFrom dst dc) left) m)
        (fun _ ↦ ∃ s, (s ∈ src ∨ s ∈ dst) ∧ ¬ NoWrap s) := by
  induction bound with
  | zero => exact fun _ _ hbound ↦ absurd hbound (Nat.not_lt_zero _)
  | succ bound ih =>
    intro sc dc left m hbound hsc hdc
    rw [copyLoop]
    by_cases hleft : left = 0
    · subst hleft
      rw [dif_pos rfl, pieces_zero, ending, if_pos ⟨Nat.zero_le _, Nat.zero_le _⟩]
      exact rfl
    · rw [dif_neg hleft]
      split
      · rename_i s d hs hd
        have hsmall := copyLoop_decreases hleft hs hd (hsc.le hs) (hdc.le hd)
        have hns : min (min (s.len - sc.off) (d.len - dc.off)) left ≤ s.len - sc.off := by omega
        have hnd : min (min (s.len - sc.off) (d.len - dc.off)) left ≤ d.len - dc.off := by omega
        rw [dif_pos ⟨hsc.le hs, hdc.le hd⟩]
        dsimp only
        refine ((hsc.holds_addr hs).mono (fun _ h ↦ h) fun _ h ↦
          ⟨s, .inl (List.mem_of_getElem? hs), h⟩).bind fun srcAddr _ hsrcAddr ↦ ?_
        refine ((hdc.holds_addr hd).mono (fun _ h ↦ h) fun _ h ↦
          ⟨d, .inr (List.mem_of_getElem? hd), h⟩).bind fun dstAddr _ hdstAddr ↦ ?_
        subst hsrcAddr hdstAddr
        rw [leftFrom_of_some hs, leftFrom_of_some hd, pieces_cons hleft, callAll]
        dsimp only
        split
        · exact rfl
        · have hrest := ih (left - min (min (s.len - sc.off) (d.len - dc.off)) left) ‹σ›
            (by omega) (hsc.advance hs hns) (hdc.advance hd hnd)
          rw [hsc.leftFrom_advance hs hns, hdc.leftFrom_advance hd hnd] at hrest
          rw [← ending_cons]
          exact hrest
      · rename_i hshort
        have hnil : leftFrom src sc = [] ∨ leftFrom dst dc = [] := by
          cases hs : src[sc.i]? with
          | none => exact .inl (leftFrom_of_none hs)
          | some s =>
            cases hd : dst[dc.i]? with
            | none => exact .inr (leftFrom_of_none hd)
            | some d => exact (hshort s d hs hd).elim
        rw [pieces_of_nil hnil, ending_of_nil hleft hnil]
        exact rfl

/-- The skip loop finds the place where the rest of the list begins. -/
theorem skipLoop_spec (src : List Segment) (si off : ℕ) :
    Cursor.At ⟨(skipLoop src si off).1, (skipLoop src si off).2⟩ src ∧
      leftFrom src ⟨(skipLoop src si off).1, (skipLoop src si off).2⟩ =
        skipSegs (src.drop si) off := by
  fun_induction skipLoop src si off with
  | case1 si off h =>
    refine ⟨fun s hs ↦ absurd (h.symm.trans hs) (Option.some_ne_none s).symm, ?_⟩
    rw [leftFrom_of_none h, List.drop_eq_nil_of_le (List.getElem?_eq_none_iff.mp h)]
    rfl
  | case2 si off s h hskip ih =>
    obtain ⟨hlt, hget⟩ := List.getElem?_eq_some_iff.mp h
    refine ⟨ih.1, ?_⟩
    rw [ih.2, List.drop_eq_getElem_cons hlt, hget, skipSegs, if_pos hskip]
  | case3 si off s h hskip =>
    obtain ⟨hlt, hget⟩ := List.getElem?_eq_some_iff.mp h
    refine ⟨fun t ht ↦ .inr ?_, ?_⟩
    · obtain rfl : s = t := Option.some_inj.mp (h.symm.trans ht)
      exact not_le.mp hskip
    · rw [leftFrom_of_some h, List.drop_eq_getElem_cons hlt, hget, skipSegs, if_neg hskip]

/-- The calls of a copy do not depend on the callback, which only decides how far they get. -/
theorem holds_zipCopyBy {σ : Type} (f : Mover σ) (src : List Segment) (off : ℕ)
    (dst : List Segment) (total : ℕ) (m : σ) :
    Holds (zipCopyBy f src off dst total m)
      (fun r ↦ r = callAll f (ending (skipSegs src off) dst total)
        (pieces (skipSegs src off) dst total) m)
      (fun _ ↦ ∃ s, (s ∈ src ∨ s ∈ dst) ∧ ¬ NoWrap s) := by
  obtain ⟨hat, hleft⟩ := skipLoop_spec src 0 off
  rw [List.drop_zero] at hleft
  have hstart : Cursor.At ⟨0, 0⟩ dst := fun d _ ↦ .inl rfl
  have hloop := holds_copyLoop f src dst _ total m (Nat.lt_succ_self _) hat hstart
  rw [hleft, leftFrom_start, List.drop_zero] at hloop
  exact hloop

theorem zipCopyBy_eq {σ : Type} (f : Mover σ) (hsrc : ∀ s ∈ src, NoWrap s)
    (hdst : ∀ d ∈ dst, NoWrap d) (off total : ℕ) (m : σ) :
    zipCopyBy f src off dst total m = .ok (callAll f (ending (skipSegs src off) dst total)
      (pieces (skipSegs src off) dst total) m) := by
  obtain ⟨r, hr, rfl⟩ := (holds_zipCopyBy f src off dst total m).exists_ok
    fun _ ⟨s, hmem, hwraps⟩ ↦ hwraps (hmem.elim (hsrc s) (hdst s))
  exact hr

/-- With a callback that does not fail it is the loop on the lists left. -/
theorem zipCopyBy_eq_zipCopy {σ : Type} (f : ℕ → ℕ → ℕ → σ → σ) (hsrc : ∀ s ∈ src, NoWrap s)
    (hdst : ∀ d ∈ dst, NoWrap d) (off total : ℕ) (m : σ) :
    zipCopyBy (fun s d n m ↦ (f s d n m, .ok ())) src off dst total m =
      .ok (zipCopy f src off dst total m) := by
  rw [zipCopyBy_eq _ hsrc hdst, zipCopy, zipLoop_eq_foldl, callAll_of_ok fun _ _ _ _ ↦ rfl]

end Cursors

/-! ### Ranges -/

theorem totalLen_skipSegs (src : List Segment) (off : ℕ) :
    totalLen (skipSegs src off) = totalLen src - off := by
  rw [← length_readAll (fun a : ℕ ↦ a), readAll_skipSegs, List.length_drop, length_readAll]

theorem ending_skipSegs (src dst : List Segment) (off total : ℕ) :
    ending (skipSegs src off) dst total =
      if total = 0 ∨ off + total ≤ totalLen src ∧ total ≤ totalLen dst then .ok ()
      else .error ranPast := by
  unfold ending
  rw [totalLen_skipSegs]
  refine if_congr ?_ rfl rfl
  omega

/-- A scatter that does not panic writes the segments in order. -/
theorem scatter_ok {bytes : List UInt8} (iovs : List Iov) : ∀ {off : ℕ} {mem mem' : ByteSpace},
    Memory.scatter bytes iovs off mem = .ok mem' →
      mem' = writeAll mem (segsOf iovs) (bytes.drop off) := by
  induction iovs with
  | nil =>
    intro off mem mem' h
    exact (Except.ok.inj h).symm
  | cons iov rest ih =>
    intro off mem mem' h
    unfold Memory.scatter at h
    obtain ⟨stop, hstop, h⟩ := bind_eq_ok.mp h
    obtain ⟨_, rfl⟩ := addU64_eq_ok.mp hstop
    split_ifs at h
    rw [ih h, ← List.drop_drop]
    rfl

/-- A copy with a callback that moves bytes is a gather and a scatter, when no byte of the source is
one of the destination. -/
theorem zipCopyBy_move {src dst : List Segment} (hsrc : ∀ s ∈ src, NoWrap s)
    (hdst : ∀ d ∈ dst, NoWrap d) (hapart : ∀ s ∈ src, ∀ d ∈ dst, s.Disjoint d) {off total : ℕ}
    (hin : off + total ≤ totalLen src) (hout : total ≤ totalLen dst) (mem : ByteSpace) :
    zipCopyBy (fun s d n m ↦ (movePiece id s d n m, .ok ())) src off dst total mem =
      .ok (writeAll mem dst (((readAll mem src).drop off).take total), .ok ()) := by
  have hview : ∀ m m' : ByteSpace, (∀ a, ¬ (∃ d ∈ dst, d.Covers a) → m' a = m a) →
      ∀ a, (∃ s ∈ src, s.Covers a) → id m' a = id m a := by
    intro m m' hsame a ⟨s, hs, ha⟩
    exact hsame a fun ⟨d, hd, hcovers⟩ ↦ hapart s hs d hd a ha hcovers
  have hloop := zipLoop_eq hview (skipSegs src off) dst total mem
    (fun s hs a ha ↦ covers_skipSegs hs ha) (fun d hd a ha ↦ ⟨d, hd, ha⟩) hout
  rw [totalLen_skipSegs, readAll_skipSegs, if_neg (by omega)] at hloop
  rw [zipCopyBy_eq_zipCopy _ hsrc hdst, zipCopy, hloop]
  rfl

/-! ### Overlapping lists -/

/-- The address whose byte a copy piece by piece leaves at an address. -/
def pieceOrigin (src : List Segment) (off : ℕ) (dst : List Segment) (total : ℕ) : ℕ → ℕ :=
  (zipCopy (movePiece id) src off dst total fun a ↦ a).1

/-- The address whose byte a gather and a scatter leave there. -/
def rangeOrigin (src : List Segment) (off : ℕ) (dst : List Segment) (total : ℕ) : ℕ → ℕ :=
  writeAll (fun a ↦ a) dst (((addrsOf src).drop off).take total)

section Overlap

variable {src dst : List Segment} {off total : ℕ}

/-- They are the same when no byte of the source is one of the destination. -/
theorem pieceOrigin_eq (hapart : ∀ s ∈ src, ∀ d ∈ dst, s.Disjoint d) (hout : total ≤ totalLen dst) :
    pieceOrigin src off dst total = rangeOrigin src off dst total := by
  have hview : ∀ m m' : ℕ → ℕ, (∀ a, ¬ (∃ d ∈ dst, d.Covers a) → m' a = m a) →
      ∀ a, (∃ s ∈ src, s.Covers a) → id m' a = id m a := by
    intro m m' hsame a ⟨s, hs, ha⟩
    exact hsame a fun ⟨d, hd, hcovers⟩ ↦ hapart s hs d hd a ha hcovers
  have hloop := zipLoop_eq hview (skipSegs src off) dst total (fun a ↦ a)
    (fun s hs a ha ↦ covers_skipSegs hs ha) (fun d hd a ha ↦ ⟨d, hd, ha⟩) hout
  rw [readAll_skipSegs] at hloop
  exact congrArg Prod.fst hloop

end Overlap

/-- `zip_copy` makes one sequence of calls, whatever the callback does as long as it succeeds. Byte
by byte they pair the source from the offset on with the destination, as far as both go and at most
`total`, and each stays inside one segment on both sides; it returns `Ok` when the range is there on
both sides. With bytes moved between memories that do not overlap it leaves what a ranged read and a
scatter of the in-process backend leave. -/
theorem zip_copy_exact {src dst : List Segment} (hsrc : ∀ s ∈ src, NoWrap s)
    (hdst : ∀ d ∈ dst, NoWrap d) (off total : ℕ) : ∃ calls : List Piece,
    (∀ (σ : Type) (f : Mover σ) (m : σ), (∀ s d n m, (f s d n m).2 = .ok ()) →
      zipCopyBy f src off dst total m =
        .ok (calls.foldl (fun m p ↦ (f p.src p.dst p.len m).1) m,
          if total = 0 ∨ off + total ≤ totalLen src ∧ total ≤ totalLen dst then .ok ()
          else .error ranPast)) ∧
    calls.flatMap Piece.bytes = (((addrsOf src).drop off).zip (addrsOf dst)).take total ∧
    (∀ p ∈ calls, (∃ s ∈ src, Segment.Inside ⟨p.src, p.len⟩ s) ∧
      ∃ d ∈ dst, Segment.Inside ⟨p.dst, p.len⟩ d) ∧
    ∀ (iovs : List Iov) (mem mem' : ByteSpace) (regionId : ℕ) (origins : List ℕ),
      segsOf iovs = dst → (∀ s ∈ src, ∀ d ∈ dst, s.Disjoint d) → off + total ≤ totalLen src →
      total ≤ totalLen dst →
      ((Memory.ReplicaData.external src regionId origins).read mem off total >>=
        fun bytes ↦ Memory.scatter bytes iovs 0 mem) = .ok mem' →
      zipCopyBy (fun s d n m ↦ (movePiece id s d n m, .ok ())) src off dst total mem =
        .ok (mem', .ok ()) := by
  refine ⟨pieces (skipSegs src off) dst total, fun σ f m hf ↦ ?_, ?_, fun p hp ↦ ?_, ?_⟩
  · rw [zipCopyBy_eq f hsrc hdst, callAll_of_ok hf, ending_skipSegs]
  · rw [bytes_pieces]
    unfold addrsOf
    rw [readAll_skipSegs]
  · obtain ⟨⟨t, ht, hin⟩, hd⟩ := inside_of_mem_pieces _ _ _ p hp
    obtain ⟨s, hs, hpart⟩ := exists_inside_of_skipSegs src ht
    exact ⟨⟨s, hs, hin.trans hpart⟩, hd⟩
  · intro iovs mem mem' regionId origins hsegs hapart hin hout hmemory
    obtain ⟨bytes, hread, hscatter⟩ := bind_eq_ok.mp hmemory
    unfold Memory.ReplicaData.read at hread
    obtain ⟨_, _, hread⟩ := bind_eq_ok.mp hread
    rw [Memory.readSegs_eq mem src fun s hs ↦ (hsrc s hs).2] at hread
    have hbytes := Except.ok.inj hread
    rw [List.nil_append] at hbytes
    rw [zipCopyBy_move hsrc hdst hapart hin hout, scatter_ok iovs hscatter, ← hbytes, hsegs,
      List.drop_zero]

/-- Three bytes from the second one on, over an empty segment on each side; seven bytes run past the
source after the four that are there. -/
theorem zip_copy_exact_empty_segments : (∃ calls : List Piece,
    (∀ m : List Piece, zipCopyBy (fun s d n m ↦ (m ++ [⟨s, d, n⟩], .ok ()))
      [⟨10, 2⟩, ⟨15, 0⟩, ⟨20, 3⟩] 1 [⟨100, 0⟩, ⟨200, 9⟩] 3 m =
        .ok (calls.foldl (fun m p ↦ m ++ [p]) m, .ok ())) ∧
    calls.flatMap Piece.bytes = [(11, 200), (20, 201), (21, 202)]) ∧
    ∃ calls : List Piece,
    (∀ m : List Piece, zipCopyBy (fun s d n m ↦ (m ++ [⟨s, d, n⟩], .ok ()))
      [⟨10, 2⟩, ⟨15, 0⟩, ⟨20, 3⟩] 1 [⟨100, 0⟩, ⟨200, 9⟩] 7 m =
        .ok (calls.foldl (fun m p ↦ m ++ [p]) m, .error ranPast)) ∧
    calls.flatMap Piece.bytes = [(11, 200), (20, 201), (21, 202), (22, 203)] := by
  have hsrc : ∀ s ∈ ([⟨10, 2⟩, ⟨15, 0⟩, ⟨20, 3⟩] : List Segment), NoWrap s := by
    unfold NoWrap
    decide
  have hdst : ∀ d ∈ ([⟨100, 0⟩, ⟨200, 9⟩] : List Segment), NoWrap d := by
    unfold NoWrap
    decide
  obtain ⟨calls, hcalls, hbytes, -⟩ := zip_copy_exact hsrc hdst 1 3
  obtain ⟨calls', hcalls', hbytes', -⟩ := zip_copy_exact hsrc hdst 1 7
  exact ⟨⟨calls, fun m ↦ hcalls _ _ m fun _ _ _ _ ↦ rfl, hbytes⟩,
    ⟨calls', fun m ↦ hcalls' _ _ m fun _ _ _ _ ↦ rfl, hbytes'⟩⟩

end Pegastore.Local
