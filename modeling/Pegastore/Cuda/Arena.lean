import Pegastore.Lib.Transition
import Pegastore.Cuda.Pinned

/-!
# A pinned pool over its whole life

An `Arena` is one pool together with the buffers that are alive, and its runs are the sequences of
`alloc` calls and buffer drops, in any order. Whatever the sizes asked for, the free list and the
live buffers cover every byte of the pool once (`Arena.Whole`); a buffer's reserved length is the
round-up of its length as the arithmetic of the build computes it. If no request is empty, the free
list is tight too, so its ranges are the gaps between the live buffers and `alloc` refuses a request
when no gap is large enough.
-/

set_option autoImplicit false
set_option relaxedAutoImplicit false

namespace Pegastore.Local

open Outcome Ranges Transition

/-- The size a pool is made with. `mmap` refuses an empty mapping, so there is no empty pool. -/
structure PoolSize where
  bytes : ℕ
  pos : 0 < bytes

/-- A pool and its live buffers. -/
structure Arena where
  pool : PinnedPool
  live : List PinnedBuf
deriving DecidableEq

inductive Arena.Call
  | alloc (id bytes : ℕ)
  | drop (buf : PinnedBuf)
deriving DecidableEq

/-- The arena after an `alloc`: a request that is refused, or whose round-up panics, leaves the pool
as it is. -/
def Arena.took (a : Arena) : Exec (Option (PinnedBuf × PinnedPool)) → Arena
  | .ok (some (buf, after)) => ⟨after, buf :: a.live⟩
  | _ => a

/-- One call; only a live buffer can be dropped. -/
def Arena.call (checks : Bool) (a : Arena) : Arena.Call → Option Arena
  | .alloc id bytes => some (a.took (a.pool.alloc checks id bytes))
  | .drop buf =>
    if buf ∈ a.live then
      some ⟨a.pool.release buf.off buf.reserved, a.live.erase buf⟩
    else none

/-- The calls on one pool. -/
def arena (checks : Bool) (numa : UInt16) (size : PoolSize) : System Arena Arena.Call where
  start := ⟨PinnedPool.new numa size.bytes, []⟩
  step := fun a c a' ↦ a.call checks c = some a'

/-- The round-up of the request does not overflow. -/
def Arena.Call.Fits : Arena.Call → Prop
  | .alloc _ bytes => divCeil bytes ALIGN * ALIGN < 2 ^ 64
  | .drop _ => True

instance (c : Arena.Call) : Decidable c.Fits :=
  match c with
  | .alloc _ bytes => inferInstanceAs (Decidable (divCeil bytes ALIGN * ALIGN < 2 ^ 64))
  | .drop _ => .isTrue trivial

/-- The request is not empty. -/
def Arena.Call.Positive : Arena.Call → Prop
  | .alloc _ bytes => 0 < bytes
  | .drop _ => True

/-- No live buffer has the byte at `x`. -/
def Arena.Unused (a : Arena) (x : ℕ) : Prop :=
  x < a.pool.len ∧ ∀ buf ∈ a.live, contains x buf.range = false

/-! ### What a call does -/

section Call

variable {checks : Bool} {numa : UInt16} {size : PoolSize} {a a' : Arena} {c : Arena.Call}

theorem Arena.took_cases (a : Arena) (r : Exec (Option (PinnedBuf × PinnedPool))) :
    a.took r = a ∨
      ∃ buf after, r = .ok (some (buf, after)) ∧ a.took r = ⟨after, buf :: a.live⟩ := by
  rcases r with reason | (_ | ⟨buf, after⟩)
  · exact .inl rfl
  · exact .inl rfl
  · exact .inr ⟨buf, after, rfl, rfl⟩

/-- A call changes nothing, takes the beginning of a free range, or gives a live buffer back. -/
theorem Arena.call_cases (h : a.call checks c = some a') :
    a' = a ∨
    (∃ id bytes need i r, c = .alloc id bytes ∧ roundUp checks bytes = .ok need ∧
      a.pool.free[i]? = some r ∧ need ≤ r.2 ∧
      a' = ⟨{ a.pool with free := takeAt a.pool.free i need r },
        ⟨id, a.pool.numa, r.1, need, bytes⟩ :: a.live⟩) ∨
    ∃ buf ∈ a.live, c = .drop buf ∧
      a' = ⟨a.pool.release buf.off buf.reserved, a.live.erase buf⟩ := by
  cases c with
  | alloc id bytes =>
    have htook : a.took (a.pool.alloc checks id bytes) = a' := Option.some_inj.mp h
    rcases a.took_cases (a.pool.alloc checks id bytes) with hsame | ⟨buf, after, hr, hnext⟩
    · exact .inl (htook.symm.trans hsame)
    · obtain ⟨need, i, r, hneed, hget, hfit, rfl, rfl⟩ := PinnedPool.alloc_eq_some hr
      exact .inr (.inl ⟨id, bytes, need, i, r, rfl, hneed, hget, hfit, htook.symm.trans hnext⟩)
  | drop buf =>
    rw [Arena.call] at h
    split_ifs at h with hlive
    exact .inr (.inr ⟨buf, hlive, rfl, (Option.some_inj.mp h).symm⟩)

/-- The free ranges and the live buffers share out the bytes of the pool. -/
structure Arena.Whole (checks : Bool) (len : ℕ) (a : Arena) : Prop where
  len_eq : a.pool.len = len
  partition : ∀ x, cover a.pool.free x + cover (a.live.map PinnedBuf.range) x =
    if x < len then 1 else 0
  free_within : Within len a.pool.free
  live_within : Within len (a.live.map PinnedBuf.range)
  rounded : ∀ buf ∈ a.live, roundUp checks buf.len = .ok buf.reserved

/-- A pool without buffers is whole. -/
theorem Arena.whole_of_free (checks : Bool) (pool : PinnedPool)
    (h : pool.free = [(0, pool.len)]) : Arena.Whole checks pool.len ⟨pool, []⟩ where
  len_eq := rfl
  partition := by
    intro x
    rw [h, cover_singleton]
    simp
  free_within := by
    intro r hr
    rw [h] at hr
    rw [List.mem_singleton.mp hr, Nat.zero_add]
  live_within := nofun
  rounded := nofun

/-- The live buffers are one buffer and the others. -/
theorem cover_erase_range {live : List PinnedBuf} {buf : PinnedBuf} (h : buf ∈ live) (x : ℕ) :
    cover ((live.erase buf).map PinnedBuf.range) x + cover [buf.range] x =
      cover (live.map PinnedBuf.range) x := by
  rw [← cover_cons, ← List.map_cons]
  exact cover_perm ((List.perm_cons_erase h).map _).symm x

theorem Arena.Whole.call {len : ℕ} (h : a.Whole checks len) (hcall : a.call checks c = some a') :
    a'.Whole checks len := by
  obtain rfl | ⟨id, bytes, need, i, r, -, hneed, hget, hfit, rfl⟩ | ⟨buf, hlive, -, rfl⟩ :=
    Arena.call_cases hcall
  · exact h
  · refine ⟨h.len_eq, fun x ↦ ?_, h.free_within.takeAt hget hfit, fun s hs ↦ ?_, fun b hb ↦ ?_⟩
    · have htaken := cover_takeAt hget hfit x
      have hwhole := h.partition x
      show cover (takeAt a.pool.free i need r) x +
        cover ((r.1, need) :: a.live.map PinnedBuf.range) x = _
      rw [cover_cons]
      omega
    · rcases List.mem_cons.mp hs with rfl | hs
      · have hend := h.free_within r (List.mem_of_getElem? hget)
        show r.1 + need ≤ len
        omega
      · exact h.live_within s hs
    · rcases List.mem_cons.mp hb with rfl | hb
      · exact hneed
      · exact h.rounded b hb
  · have hend : buf.off + buf.reserved ≤ len := h.live_within _ (List.mem_map_of_mem hlive)
    refine ⟨h.len_eq, fun x ↦ ?_, ?_, fun s hs ↦ ?_, fun b hb ↦ ?_⟩
    · have hback := a.pool.cover_release buf.off buf.reserved x
      have hone := cover_erase_range hlive x
      have hwhole := h.partition x
      unfold PinnedBuf.range at hone hwhole
      show cover (a.pool.release buf.off buf.reserved).free x +
        cover ((a.live.erase buf).map fun buf ↦ (buf.off, buf.reserved)) x = _
      omega
    · exact PinnedPool.within_release h.free_within hend
    · obtain ⟨b, hb, rfl⟩ := List.mem_map.mp hs
      exact h.live_within _ (List.mem_map_of_mem (List.mem_of_mem_erase hb))
    · exact h.rounded b (List.mem_of_mem_erase hb)

/-- Every state of a pool's life is whole. -/
theorem Arena.whole_of_run {history : List Arena.Call}
    (hrun : (arena checks numa size).Run history a) :
    a.Whole checks (PinnedPool.new numa size.bytes).len :=
  System.Steps.invariant hrun (Arena.whole_of_free checks _ rfl)
    fun _ _ _ _ hwhole hstep ↦ hwhole.call hstep

/-- A byte is unused when a free range has it. -/
theorem Arena.Whole.unused_iff {len : ℕ} (h : a.Whole checks len) (x : ℕ) :
    a.Unused x ↔ 0 < cover a.pool.free x := by
  have hpart := h.partition x
  have hlive : (∀ buf ∈ a.live, contains x buf.range = false) ↔
      cover (a.live.map PinnedBuf.range) x = 0 := by
    unfold cover
    rw [List.countP_eq_zero]
    simp only [List.forall_mem_map, Bool.not_eq_true]
  unfold Arena.Unused
  rw [hlive, h.len_eq]
  split_ifs at hpart with hlt <;> omega

/-- What a live buffer has is not free. -/
theorem Arena.Whole.cover_free_eq_zero {len : ℕ} (h : a.Whole checks len) {buf : PinnedBuf}
    (hlive : buf ∈ a.live) {x : ℕ} (hx : contains x buf.range = true) :
    cover a.pool.free x = 0 := by
  have hone := one_le_cover (List.mem_map_of_mem (f := PinnedBuf.range) hlive) hx
  have hpart := h.partition x
  split_ifs at hpart <;> omega

/-- No free range and no buffer is empty, and no two free ranges touch. -/
structure Arena.Trim (a : Arena) : Prop where
  tight : Tight a.pool.free
  pos : ∀ buf ∈ a.live, 0 < buf.reserved

theorem Arena.trim_start (checks : Bool) (numa : UInt16) (size : PoolSize) :
    (arena checks numa size).start.Trim where
  tight := tight_cons.mpr ⟨nofun, lt_of_lt_of_le size.pos (le_divCeil_mul size.bytes),
    List.Pairwise.nil, nofun⟩
  pos := nofun

theorem Arena.Trim.call {len : ℕ} (h : a.Trim) (hwhole : a.Whole checks len) (hfits : c.Fits)
    (hpositive : c.Positive) (hcall : a.call checks c = some a') : a'.Trim := by
  obtain rfl | ⟨id, bytes, need, i, r, rfl, hneed, hget, hfit, rfl⟩ | ⟨buf, hlive, -, rfl⟩ :=
    Arena.call_cases hcall
  · exact h
  · refine ⟨h.tight.takeAt hget hfit, fun b hb ↦ ?_⟩
    rcases List.mem_cons.mp hb with rfl | hb
    · rw [roundUp_of_lt hfits, Except.ok.injEq] at hneed
      show 0 < need
      rw [← hneed]
      exact lt_of_lt_of_le hpositive (le_divCeil_mul bytes)
    · exact h.pos b hb
  · refine ⟨PinnedPool.tight_release h.tight (h.pos buf hlive) fun x hle hlt ↦ ?_, fun b hb ↦ ?_⟩
    · exact hwhole.cover_free_eq_zero hlive (contains_iff.mpr ⟨hle, hlt⟩)
    · exact h.pos b (List.mem_of_mem_erase hb)

/-- Without empty requests and overflow the free list stays tight. -/
theorem Arena.trim_of_run {history : List Arena.Call}
    (hrun : ((arena checks numa size).restrict fun _ c ↦ c.Fits).Run history a)
    (hpositive : ∀ c ∈ history, c.Positive) : a.Trim := by
  let pool := PinnedPool.new numa size.bytes
  have hboth : a.Whole checks pool.len ∧ a.Trim := by
    refine System.Steps.invariant (I := fun a ↦ a.Whole checks pool.len ∧ a.Trim) hrun
      ⟨Arena.whole_of_free checks pool rfl, Arena.trim_start checks numa size⟩ ?_
    intro s c t hc ⟨hwhole, htrim⟩ ⟨hfits, hstep⟩
    exact ⟨hwhole.call hstep, htrim.call hwhole hfits (hpositive c hc) hstep⟩
  exact hboth.2

/-- Requests that do not overflow give buffers at least as long as asked for. -/
theorem Arena.rounded_of_run {history : List Arena.Call}
    (hrun : ((arena checks numa size).restrict fun _ c ↦ c.Fits).Run history a) :
    ∀ buf ∈ a.live, buf.reserved = divCeil buf.len ALIGN * ALIGN := by
  refine System.Steps.invariant
    (I := fun a ↦ ∀ buf ∈ a.live, buf.reserved = divCeil buf.len ALIGN * ALIGN) hrun nofun ?_
  intro s c t _ hs ⟨hfits, hstep⟩ b hb
  obtain rfl | ⟨id, bytes, need, i, r, rfl, hneed, hget, hfit, rfl⟩ | ⟨buf, hlive, -, rfl⟩ :=
    Arena.call_cases hstep
  · exact hs b hb
  · rcases List.mem_cons.mp hb with rfl | hb
    · rw [roundUp_of_lt hfits, Except.ok.injEq] at hneed
      exact hneed.symm
    · exact hs b hb
  · exact hs b (List.mem_of_mem_erase hb)

end Call

/-! ### The pool is shared out -/

/-- The ranges that make up a pool: the free ones that are not empty, and those of live buffers. -/
def Arena.parts (a : Arena) : List (ℕ × ℕ) :=
  a.pool.free.filter (fun r ↦ 0 < r.2) ++ a.live.map PinnedBuf.range

theorem Arena.Whole.cover_parts {checks : Bool} {len : ℕ} {a : Arena} (h : a.Whole checks len)
    (x : ℕ) : cover a.parts x = if x < len then 1 else 0 := by
  unfold Arena.parts
  rw [cover_append, cover_filter_pos]
  exact h.partition x

/-- A tight free list refuses a request exactly when no gap between the live buffers is as long as
the request rounded up. -/
theorem Arena.Trim.alloc_eq_none_iff {checks : Bool} {len : ℕ} {a : Arena} (h : a.Trim)
    (hwhole : a.Whole checks len) (id : ℕ) {bytes : ℕ}
    (hfits : divCeil bytes ALIGN * ALIGN < 2 ^ 64) :
    a.pool.alloc checks id bytes = .ok none ↔
      ∀ off gap, IsGap a.Unused off gap → gap < divCeil bytes ALIGN * ALIGN := by
  have hunused : a.Unused = fun x ↦ 0 < cover a.pool.free x :=
    funext fun x ↦ propext (hwhole.unused_iff x)
  rw [PinnedPool.alloc_eq_none_iff (roundUp_of_lt hfits), hunused]
  simp only [h.tight.isGap_iff]
  exact ⟨fun hsmall off gap hin ↦ hsmall _ hin, fun hsmall r hr ↦ hsmall r.1 r.2 hr⟩

/-- In every state of a pool's life the free ranges and the live buffers are apart and make up the
pool, and every buffer is long enough; if no request was empty, the free list is in order without
touching ranges, and a request is refused exactly when no gap is long enough. -/
theorem pool_partitioned (checks : Bool) (numa : UInt16) (size : PoolSize)
    {history : List Arena.Call} {a : Arena}
    (hrun : ((arena checks numa size).restrict fun _ c ↦ c.Fits).Run history a) :
    a.parts.Pairwise Apart ∧
    (∀ x, (∃ r ∈ a.parts, contains x r = true) ↔ x < (PinnedPool.new numa size.bytes).len) ∧
    (∀ buf ∈ a.live, buf.len ≤ buf.reserved ∧ ALIGN ∣ buf.reserved ∧
      buf.off + buf.reserved ≤ (PinnedPool.new numa size.bytes).len) ∧
    ((∀ c ∈ history, c.Positive) → Tight a.pool.free ∧
      ∀ id bytes, divCeil bytes ALIGN * ALIGN < 2 ^ 64 →
        (a.pool.alloc checks id bytes = .ok none ↔
          ∀ off gap, IsGap a.Unused off gap → gap < divCeil bytes ALIGN * ALIGN)) := by
  have hwhole := Arena.whole_of_run hrun.of_restrict
  refine ⟨pairwise_apart fun x ↦ ?_, fun x ↦ ?_, fun buf hbuf ↦ ?_, fun hpositive ↦ ?_⟩
  · rw [hwhole.cover_parts]
    split_ifs <;> omega
  · rw [← cover_pos_iff, hwhole.cover_parts]
    split_ifs with hx <;> simp [hx]
  · have hreserved := Arena.rounded_of_run hrun buf hbuf
    refine ⟨?_, ?_, hwhole.live_within _ (List.mem_map_of_mem hbuf)⟩
    · rw [hreserved]
      exact le_divCeil_mul buf.len
    · rw [hreserved]
      exact Nat.dvd_mul_left _ _
  · have htrim := Arena.trim_of_run hrun hpositive
    exact ⟨htrim.tight, fun id bytes hfits ↦ htrim.alloc_eq_none_iff hwhole id hfits⟩

/-- One call whose request does not overflow, as a function. -/
def Arena.nextFitting (checks : Bool) (a : Arena) (c : Arena.Call) : Option (Arena.Call × Arena) :=
  if c.Fits then (a.call checks c).map fun a' ↦ (c, a') else none

theorem Arena.step_of_nextFitting {checks : Bool} {numa : UInt16} {size : PoolSize} {a a' : Arena}
    {c label : Arena.Call} (h : a.nextFitting checks c = some (label, a')) :
    ((arena checks numa size).restrict fun _ c ↦ c.Fits).step a label a' := by
  unfold Arena.nextFitting at h
  split_ifs at h with hfits
  obtain ⟨_, hcall, heq⟩ := Option.map_eq_some_iff.mp h
  cases heq
  exact ⟨hfits, hcall⟩

/-- Two requests in a pool of four units, and the first buffer dropped: the gaps are one unit each,
so a request of two is refused. -/
theorem pool_partitioned_two_gaps : ∃ history a,
    ((arena true 0 ⟨4 * ALIGN, by decide⟩).restrict fun _ c ↦ c.Fits).Run history a ∧
    a.live = [⟨1, 0, ALIGN, 2 * ALIGN, ALIGN + 1⟩] ∧
    a.pool.free = [(0, ALIGN), (3 * ALIGN, ALIGN)] ∧
    a.parts.Pairwise Apart ∧ Tight a.pool.free ∧
    ∀ off gap, IsGap a.Unused off gap → gap < 2 * ALIGN := by
  let calls : List Arena.Call := [.alloc 0 1, .alloc 1 (ALIGN + 1), .drop ⟨0, 0, 0, ALIGN, 1⟩]
  let last : Arena := ⟨⟨0, 4 * ALIGN, [(0, ALIGN), (3 * ALIGN, ALIGN)]⟩,
    [⟨1, 0, ALIGN, 2 * ALIGN, ALIGN + 1⟩]⟩
  have hreplay : replay (Arena.nextFitting true) calls
      (arena true 0 ⟨4 * ALIGN, by decide⟩).start = some (calls, last) := by
    decide +kernel
  have hrun : ((arena true 0 ⟨4 * ALIGN, by decide⟩).restrict fun _ c ↦ c.Fits).Run calls last :=
    steps_of_replay (fun _ _ _ _ ↦ Arena.step_of_nextFitting) calls hreplay
  have hpositive : ∀ c ∈ calls, c.Positive := by
    simp [calls, Arena.Call.Positive]
  obtain ⟨hapart, -, -, htrim⟩ := pool_partitioned true 0 ⟨4 * ALIGN, by decide⟩ hrun
  obtain ⟨htight, hrefused⟩ := htrim hpositive
  have hunits : divCeil (2 * ALIGN) ALIGN * ALIGN = 2 * ALIGN := by decide +kernel
  refine ⟨calls, last, hrun, rfl, rfl, hapart, htight, ?_⟩
  rw [← hunits]
  exact (hrefused 2 (2 * ALIGN) (by decide +kernel)).mp (by decide +kernel)

end Pegastore.Local
