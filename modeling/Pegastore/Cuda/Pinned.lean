import Pegastore.Lib.Outcome
import Pegastore.Lib.Ranges

/-!
# The pinned-memory allocator

`pinned.rs`: a pool of pinned host memory on one NUMA node with a free list of ranges. `alloc`
takes the first range that fits the request rounded up to `ALIGN`; dropping a buffer inserts its
range at the place its offset has in the list and merges it with the neighbours it touches.

A `PinnedBuf` carries an `id`, the identity of the allocation: a Rust value that owns a range is
dropped once, and two buffers of a pool may have equal fields at different times. A pool is
described by what its free list covers: `alloc_spec` and `cover_release` are the equations.
-/

set_option autoImplicit false
set_option relaxedAutoImplicit false

namespace Pegastore.Local

open Outcome Ranges

/-- Every offset and reserved length is a multiple of this. -/
def ALIGN : ℕ := 2 * 2 ^ 20

/-- A pool of `len` bytes on `numa`, with its free ranges as pairs of offset and length. -/
structure PinnedPool where
  numa : UInt16
  len : ℕ
  free : List (ℕ × ℕ)
deriving DecidableEq, Repr

/-- An allocation inside a pool. `reserved` is what it gives back, `len` what was asked for. -/
structure PinnedBuf where
  id : ℕ
  numa : UInt16
  off : ℕ
  reserved : ℕ
  len : ℕ
deriving DecidableEq, Repr

/-- The range a buffer gives back. -/
def PinnedBuf.range (buf : PinnedBuf) : ℕ × ℕ := (buf.off, buf.reserved)

/-- `usize::div_ceil`. -/
def divCeil (a b : ℕ) : ℕ := if a % b = 0 then a / b else a / b + 1

/-- A request rounded up to `ALIGN`; the product panics on overflow under `checks` and wraps
otherwise. -/
def roundUp (checks : Bool) (bytes : ℕ) : Exec ℕ := mulU64 checks (divCeil bytes ALIGN) ALIGN

/-- A new pool is one free range, of the size asked for rounded up. -/
def PinnedPool.new (numa : UInt16) (bytes : ℕ) : PinnedPool :=
  let len := divCeil bytes ALIGN * ALIGN
  ⟨numa, len, [(0, len)]⟩

/-- Take the first free range that fits. -/
def PinnedPool.alloc (checks : Bool) (pool : PinnedPool) (id bytes : ℕ) :
    Exec (Option (PinnedBuf × PinnedPool)) := do
  let need ← roundUp checks bytes
  match pool.free.findIdx? fun r ↦ r.2 ≥ need with
  | none => .ok none
  | some i => do
    let r ← index pool.free i
    .ok (some (⟨id, pool.numa, r.1, need, bytes⟩,
      { pool with free := takeAt pool.free i need r }))

/-- The position of an offset in the free list, by binary search. -/
def PinnedPool.position (pool : PinnedPool) (off : ℕ) : ℕ :=
  partitionPoint (fun r ↦ r.1 < off) pool.free

/-- Give a range back: insert it, then merge it with the next range and with the one before. -/
def PinnedPool.release (pool : PinnedPool) (off len : ℕ) : PinnedPool :=
  let i := pool.position off
  let free := mergeAt (pool.free.insertIdx i (off, len)) i
  { pool with free := if i > 0 then mergeAt free (i - 1) else free }

def PinnedPool.capacity (pool : PinnedPool) : ℕ := pool.len

/-- Rounding up to a unit adds less than one unit. -/
theorem divCeil_mul_bounds {unit : ℕ} (hunit : 0 < unit) (a : ℕ) :
    a ≤ divCeil a unit * unit ∧ divCeil a unit * unit < a + unit := by
  have hdiv := Nat.div_add_mod a unit
  have hmod : a % unit < unit := Nat.mod_lt _ hunit
  rw [Nat.mul_comm] at hdiv
  unfold divCeil
  split_ifs with hzero
  · omega
  · rw [Nat.add_mul]
    omega

theorem le_divCeil_mul (bytes : ℕ) : bytes ≤ divCeil bytes ALIGN * ALIGN :=
  (divCeil_mul_bounds (by decide) bytes).1

theorem divCeil_le {bytes units : ℕ} (h : bytes ≤ units * ALIGN) : divCeil bytes ALIGN ≤ units := by
  have hdiv := Nat.div_add_mod bytes ALIGN
  have hle : bytes / ALIGN ≤ units := Nat.div_le_of_le_mul (by rw [Nat.mul_comm]; exact h)
  unfold divCeil
  split_ifs with hzero
  · exact hle
  · refine Nat.lt_of_le_of_ne hle fun heq ↦ ?_
    rw [heq, Nat.mul_comm] at hdiv
    omega

/-- The round-up when the product fits, whether or not overflow is checked. -/
theorem roundUp_of_lt {checks : Bool} {bytes : ℕ} (h : divCeil bytes ALIGN * ALIGN < 2 ^ 64) :
    roundUp checks bytes = .ok (divCeil bytes ALIGN * ALIGN) := if_pos h

/-- The round-up of a length that is at least `ALIGN` below the end of the range. -/
theorem divCeil_mul_lt {len : ℕ} (h : len + ALIGN ≤ 2 ^ 64) :
    divCeil len ALIGN * ALIGN < 2 ^ 64 := by
  have hbounds := divCeil_mul_bounds (show 0 < ALIGN by decide) len
  omega

/-- Rounding the request up never wraps around: an overflow panics, or there is none. -/
def RoundsUp (checks : Bool) (bytes : ℕ) : Prop := checks = true ∨ bytes + ALIGN ≤ 2 ^ 64

theorem RoundsUp.le {checks : Bool} {bytes need : ℕ} (hrounds : RoundsUp checks bytes)
    (h : roundUp checks bytes = .ok need) : bytes ≤ need := by
  unfold roundUp mulU64 at h
  split_ifs at h with hlt hchecks
  · cases h
    exact le_divCeil_mul bytes
  · rcases hrounds with htrue | hfits
    · exact absurd htrue hchecks
    · exact absurd (divCeil_mul_lt hfits) hlt

/-- What an allocation that returns a buffer did. The buffer is as long as it was asked for unless
the round-up wrapped around. -/
structure Allocated (checks : Bool) (pool : PinnedPool) (id bytes : ℕ) (buf : PinnedBuf)
    (after : PinnedPool) : Prop where
  id_eq : buf.id = id
  numa_eq : buf.numa = pool.numa
  len_eq : buf.len = bytes
  fits : RoundsUp checks bytes → buf.len ≤ buf.reserved
  numa_after : after.numa = pool.numa
  len_after : after.len = pool.len
  cover : ∀ x, cover after.free x + cover [buf.range] x = cover pool.free x
  taken : ∃ i r, pool.free[i]? = some r ∧ buf.reserved ≤ r.2 ∧
    after.free = takeAt pool.free i buf.reserved r

/-- A buffer is the beginning of a free range, as long as the request rounded up. -/
theorem PinnedPool.alloc_eq_some {checks : Bool} {pool after : PinnedPool} {id bytes : ℕ}
    {buf : PinnedBuf} (h : pool.alloc checks id bytes = .ok (some (buf, after))) :
    ∃ need i r, roundUp checks bytes = .ok need ∧ pool.free[i]? = some r ∧ need ≤ r.2 ∧
      buf = ⟨id, pool.numa, r.1, need, bytes⟩ ∧
      after = { pool with free := takeAt pool.free i need r } := by
  unfold PinnedPool.alloc at h
  obtain ⟨need, hneed, h⟩ := bind_eq_ok.mp h
  cases hfind : pool.free.findIdx? fun r ↦ r.2 ≥ need with
  | none =>
    rw [hfind] at h
    cases h
  | some i =>
    rw [hfind] at h
    obtain ⟨r, hr, h⟩ := bind_eq_ok.mp h
    cases h
    have hget : pool.free[i]? = some r := index_eq_ok.mp hr
    have hfit : need ≤ r.2 := by
      obtain ⟨hlt, hge, _⟩ := List.findIdx?_eq_some_iff_getElem.mp hfind
      obtain ⟨_, hr'⟩ := List.getElem?_eq_some_iff.mp hget
      rw [hr'] at hge
      exact of_decide_eq_true hge
    exact ⟨need, i, r, hneed, hget, hfit, rfl, rfl⟩

/-- The range of a buffer was free, and it is as long as asked for when the round-up fits. -/
theorem PinnedPool.alloc_spec {checks : Bool} {pool after : PinnedPool} {id bytes : ℕ}
    {buf : PinnedBuf} (h : pool.alloc checks id bytes = .ok (some (buf, after))) :
    Allocated checks pool id bytes buf after := by
  obtain ⟨need, i, r, hneed, hget, hfit, rfl, rfl⟩ := PinnedPool.alloc_eq_some h
  exact ⟨rfl, rfl, rfl, fun hrounds ↦ hrounds.le hneed, rfl, rfl, cover_takeAt hget hfit,
    i, r, hget, hfit, rfl⟩

/-- A request is refused when no free range is large enough. -/
theorem PinnedPool.alloc_eq_none_iff {checks : Bool} {pool : PinnedPool} {id bytes need : ℕ}
    (hround : roundUp checks bytes = .ok need) :
    pool.alloc checks id bytes = .ok none ↔ ∀ r ∈ pool.free, r.2 < need := by
  have hnone : (pool.free.findIdx? fun r ↦ r.2 ≥ need) = none ↔ ∀ r ∈ pool.free, r.2 < need := by
    simp only [List.findIdx?_eq_none_iff, decide_eq_false_iff_not, not_le, ge_iff_le]
  unfold PinnedPool.alloc
  rw [hround, ok_bind, ← hnone]
  cases hfind : pool.free.findIdx? fun r ↦ r.2 ≥ need with
  | none => exact iff_of_true rfl rfl
  | some i =>
    refine iff_of_false (fun h ↦ ?_) (Option.some_ne_none i)
    obtain ⟨r, _, hr⟩ := bind_eq_ok.mp h
    cases hr

/-- A request is served when a free range is large enough. -/
theorem PinnedPool.alloc_of_fits {checks : Bool} {pool : PinnedPool} {id bytes need : ℕ}
    {r : ℕ × ℕ} (hround : roundUp checks bytes = .ok need) (hr : r ∈ pool.free)
    (hfit : need ≤ r.2) :
    ∃ buf after, pool.alloc checks id bytes = .ok (some (buf, after)) := by
  have hsome : (pool.free.findIdx? fun r ↦ r.2 ≥ need).isSome = true := by
    rw [List.findIdx?_isSome]
    exact List.any_eq_true.mpr ⟨r, hr, decide_eq_true hfit⟩
  obtain ⟨i, hi⟩ := Option.isSome_iff_exists.mp hsome
  obtain ⟨hlt, _⟩ := List.findIdx?_eq_some_iff_getElem.mp hi
  refine ⟨⟨id, pool.numa, pool.free[i].1, need, bytes⟩,
    { pool with free := takeAt pool.free i need pool.free[i] }, ?_⟩
  unfold PinnedPool.alloc
  rw [hround, ok_bind, hi]
  dsimp only
  rw [index_eq_ok.mpr (List.getElem?_eq_getElem hlt)]
  rfl

theorem Allocated.tight {checks : Bool} {pool after : PinnedPool} {id bytes : ℕ} {buf : PinnedBuf}
    (h : Allocated checks pool id bytes buf after) (htight : Tight pool.free) :
    Tight after.free := by
  obtain ⟨i, r, hr, hfit, hfree⟩ := h.taken
  rw [hfree]
  exact htight.takeAt hr hfit

@[simp] theorem PinnedPool.release_numa (pool : PinnedPool) (off len : ℕ) :
    (pool.release off len).numa = pool.numa := rfl

@[simp] theorem PinnedPool.release_len (pool : PinnedPool) (off len : ℕ) :
    (pool.release off len).len = pool.len := rfl

theorem PinnedPool.position_le (pool : PinnedPool) (off : ℕ) :
    pool.position off ≤ pool.free.length := partitionPoint_le _ _

/-- A released range is covered once more. -/
theorem PinnedPool.cover_release (pool : PinnedPool) (off len x : ℕ) :
    cover (pool.release off len).free x = cover pool.free x + cover [(off, len)] x := by
  have hfree : cover (pool.release off len).free x =
      cover (pool.free.insertIdx (pool.position off) (off, len)) x := by
    unfold PinnedPool.release
    dsimp only
    split_ifs
    · rw [cover_mergeAt, cover_mergeAt]
    · rw [cover_mergeAt]
  rw [hfree, cover_insertIdx (pool.position_le off)]

theorem PinnedPool.within_release {pool : PinnedPool} {off len bound : ℕ}
    (h : Within bound pool.free) (hend : off + len ≤ bound) :
    Within bound (pool.release off len).free := by
  have hmerged := (h.insertIdx (r := (off, len)) hend (pool.position_le off)).mergeAt
    (pool.position off)
  unfold PinnedPool.release
  dsimp only
  split_ifs
  · exact hmerged.mergeAt _
  · exact hmerged

/-- Giving back a range that is not empty and nowhere free leaves no two free ranges that touch. -/
theorem PinnedPool.tight_release {pool : PinnedPool} {off len : ℕ} (h : Tight pool.free)
    (hlen : 0 < len) (hused : ∀ x, off ≤ x → x < off + len → Ranges.cover pool.free x = 0) :
    Tight (pool.release off len).free := by
  have hapart : ∀ r ∈ pool.free, r.1 + r.2 ≤ off ∨ off + len ≤ r.1 := by
    intro r hr
    have hpos := h.pos r hr
    by_contra hover
    -- the later of the two starts is in both ranges
    have hnone := hused (max off r.1) (le_max_left _ _) (by omega)
    have hone := one_le_cover hr (x := max off r.1) (contains_iff.mpr ⟨le_max_right _ _, by omega⟩)
    omega
  obtain ⟨first, second, hsplit, hfirst, hsecond⟩ : ∃ first second, pool.free = first ++ second ∧
      (∀ a ∈ first, a.1 < off) ∧ ∀ b ∈ second, ¬ b.1 < off :=
    h.exists_split off
  have hposition : pool.position off = first.length := by
    unfold PinnedPool.position
    rw [hsplit]
    exact partitionPoint_append (fun a ha ↦ decide_eq_true (hfirst a ha))
      fun b hb ↦ decide_eq_false (hsecond b hb)
  unfold PinnedPool.release
  dsimp only
  rw [hposition, hsplit]
  rw [hsplit] at h hapart
  refine tight_insert h hlen (fun a ha ↦ ?_) fun b hb ↦ ?_
  · have hstart := hfirst a ha
    exact (hapart a (List.mem_append_left _ ha)).resolve_right (by omega)
  · have hstart := hsecond b hb
    have hpos := h.pos b (List.mem_append_right _ hb)
    exact (hapart b (List.mem_append_right _ hb)).resolve_left (by omega)

end Pegastore.Local
