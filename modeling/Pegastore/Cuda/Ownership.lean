import Pegastore.Cuda.Threads
import Pegastore.Cuda.Sections

/-!
# Who owns which range of a pool

`Partitioned` says that the free ranges of every pool and the ranges of the buffers in `live`
partition the pool, so two live buffers never share a reserved byte. When the ranges are as long as
the buffers they share no byte at all (`Partitioned.disjoint`), which is what makes a copy into one
leave the others alone. `Exclusive w live` adds that every buffer somebody holds is in `live`, with
one holder: a `put` in flight, or the metadata and the `get`s that cloned from it.

Steps that only let go of buffers are described by `Frees`; they and the two that hand buffers on,
an allocation and a store, keep the invariant.
-/

set_option autoImplicit false
set_option relaxedAutoImplicit false

namespace Pegastore.Local

open Outcome ByteMemory Ranges

/-- The ranges of the buffers on a node. -/
def rangesOn (numa : UInt16) (bufs : List PinnedBuf) : List (ℕ × ℕ) :=
  (bufs.filter fun b ↦ b.numa = numa).map PinnedBuf.range

theorem rangesOn_cons (numa : UInt16) (b : PinnedBuf) (bufs : List PinnedBuf) (x : ℕ) :
    cover (rangesOn numa (b :: bufs)) x =
      cover (rangesOn numa bufs) x + if b.numa = numa then cover [b.range] x else 0 := by
  unfold rangesOn
  by_cases hnuma : b.numa = numa
  · rw [List.filter_cons_of_pos (by simpa using hnuma), List.map_cons, cover_cons, if_pos hnuma]
  · rw [List.filter_cons_of_neg (by simpa using hnuma), if_neg hnuma, Nat.add_zero]

theorem rangesOn_append (numa : UInt16) (first second : List PinnedBuf) (x : ℕ) :
    cover (rangesOn numa (first ++ second)) x =
      cover (rangesOn numa first) x + cover (rangesOn numa second) x := by
  unfold rangesOn
  rw [List.filter_append, List.map_append, cover_append]

theorem rangesOn_perm (numa : UInt16) {first second : List PinnedBuf} (h : first.Perm second)
    (x : ℕ) : cover (rangesOn numa first) x = cover (rangesOn numa second) x :=
  cover_perm ((h.filter _).map _) x

/-- A list without some of its members, and those members. -/
theorem cover_split_off (numa : UInt16) {live bs : List PinnedBuf} (hlive : live.Nodup)
    (hbs : bs.Nodup) (hsub : ∀ b ∈ bs, b ∈ live) (x : ℕ) :
    cover (rangesOn numa live) x =
      cover (rangesOn numa bs) x + cover (rangesOn numa (live.filter fun b ↦ b ∉ bs)) x := by
  have hin : (live.filter fun b ↦ b ∈ bs).Perm bs := by
    refine (List.perm_ext_iff_of_nodup (hlive.filter _) hbs).mpr fun b ↦ ?_
    rw [List.mem_filter, decide_eq_true_iff]
    exact ⟨fun h ↦ h.2, fun h ↦ ⟨hsub b h, h⟩⟩
  have hparts := List.filter_append_perm (fun b ↦ decide (b ∈ bs)) live
  have hout : (live.filter fun b ↦ !decide (b ∈ bs)) = live.filter fun b ↦ b ∉ bs := by
    simp only [decide_not]
  rw [hout] at hparts
  rw [← rangesOn_perm numa hparts, rangesOn_append, rangesOn_perm numa hin]

/-! ### Releasing -/

/-- What a pool has become after releases. -/
theorem pool_of_releaseBufs (bs : List PinnedBuf) : ∀ {pools : Pools} {numa : UInt16}
    {after : PinnedPool}, releaseBufs pools bs numa = some after →
      ∃ pool, pools numa = some pool ∧ after.numa = pool.numa ∧ after.len = pool.len ∧
        ∀ x, cover after.free x = cover pool.free x + cover (rangesOn numa bs) x := by
  induction bs with
  | nil =>
    intro pools numa after h
    exact ⟨after, h, rfl, rfl, fun x ↦ rfl⟩
  | cons b bs ih =>
    intro pools numa after h
    obtain ⟨middle, hmiddle, hnuma, hlen, hcover⟩ := ih h
    change Function.update pools b.numa _ numa = some middle at hmiddle
    by_cases heq : numa = b.numa
    · subst heq
      rw [Function.update_self] at hmiddle
      obtain ⟨pool, hpool, rfl⟩ := Option.map_eq_some_iff.mp hmiddle
      refine ⟨pool, hpool, hnuma, hlen, fun x ↦ ?_⟩
      rw [hcover x, pool.cover_release, rangesOn_cons, if_pos rfl]
      change _ + cover [b.range] x + _ = _
      omega
    · rw [Function.update_of_ne heq] at hmiddle
      refine ⟨middle, hmiddle, hnuma, hlen, fun x ↦ ?_⟩
      rw [hcover x, rangesOn_cons, if_neg (Ne.symm heq), Nat.add_zero]

theorem isSome_releaseBufs (pools : Pools) (bs : List PinnedBuf) (numa : UInt16) :
    (releaseBufs pools bs numa).isSome = (pools numa).isSome := by
  unfold releaseBufs
  induction bs generalizing pools with
  | nil => rfl
  | cons b bs ih =>
    rw [List.foldl_cons, ih (releaseBuf pools b)]
    change (Function.update pools b.numa _ numa).isSome = _
    by_cases heq : numa = b.numa
    · subst heq
      rw [Function.update_self, Option.isSome_map]
    · rw [Function.update_of_ne heq]

/-! ### The partition of the pools -/

/-- The free ranges and the live buffers partition the pools. -/
structure Partitioned (pools : Pools) (nextBuf : ℕ) (live : List PinnedBuf) :
    Prop where
  ids : (live.map PinnedBuf.id).Nodup
  below : ∀ b ∈ live, b.id < nextBuf
  pooled : ∀ b ∈ live, (pools b.numa).isSome = true
  numa_eq : ∀ numa pool, pools numa = some pool → pool.numa = numa
  partition : ∀ numa pool, pools numa = some pool →
    ∀ x, cover pool.free x + cover (rangesOn numa live) x = if x < pool.len then 1 else 0

theorem Partitioned.nodup {pools : Pools} {nextBuf : ℕ}
    {live : List PinnedBuf} (h : Partitioned pools nextBuf live) : live.Nodup := h.ids.of_map

/-- Two live buffers of a node have no reserved byte in common. -/
theorem Partitioned.disjoint_reserved {pools : Pools} {nextBuf : ℕ}
    {live : List PinnedBuf} (h : Partitioned pools nextBuf live) {b b' : PinnedBuf} (hb : b ∈ live)
    (hb' : b' ∈ live) (hne : b ≠ b') (hnuma : b.numa = b'.numa) :
    (⟨b.off, b.reserved⟩ : Segment).Disjoint ⟨b'.off, b'.reserved⟩ := by
  intro x hx hx'
  obtain ⟨pool, hpool⟩ := Option.isSome_iff_exists.mp (h.pooled b hb)
  have hpart := h.partition b.numa pool hpool x
  have hperm := List.perm_cons_erase hb
  have hrest : b' ∈ live.erase b := (List.mem_erase_of_ne (Ne.symm hne)).mpr hb'
  -- both ranges contain `x`, so `x` is covered twice
  have hfirst : cover [b.range] x = 1 := by
    rw [cover_singleton]
    exact if_pos hx
  have hsecond : 1 ≤ cover (rangesOn b.numa (live.erase b)) x := by
    refine one_le_cover (r := b'.range) (List.mem_map_of_mem ?_) (contains_iff.mpr hx')
    rw [List.mem_filter, decide_eq_true_iff]
    exact ⟨hrest, hnuma.symm⟩
  rw [rangesOn_perm b.numa hperm, rangesOn_cons, if_pos rfl] at hpart
  split_ifs at hpart <;> omega

/-- Two live buffers of a node that are as long as asked for have no byte in common. -/
theorem Partitioned.disjoint {pools : Pools} {nextBuf : ℕ}
    {live : List PinnedBuf} (h : Partitioned pools nextBuf live) {b b' : PinnedBuf} (hb : b ∈ live)
    (hb' : b' ∈ live) (hne : b ≠ b') (hnuma : b.numa = b'.numa) (hfits : b.len ≤ b.reserved)
    (hfits' : b'.len ≤ b'.reserved) :
    (⟨b.off, b.len⟩ : Segment).Disjoint ⟨b'.off, b'.len⟩ := by
  intro x hx hx'
  exact h.disjoint_reserved hb hb' hne hnuma x
    ⟨hx.1, lt_of_lt_of_le hx.2 (Nat.add_le_add_left hfits _)⟩
    ⟨hx'.1, lt_of_lt_of_le hx'.2 (Nat.add_le_add_left hfits' _)⟩

/-- Live buffers are given back. -/
theorem Partitioned.releaseBufs {pools : Pools} {nextBuf : ℕ} {live bs : List PinnedBuf}
    (h : Partitioned pools nextBuf live) (hbs : bs.Nodup) (hsub : ∀ b ∈ bs, b ∈ live) :
    Partitioned (releaseBufs pools bs) nextBuf (live.filter fun b ↦ b ∉ bs) where
  ids := h.ids.sublist (List.filter_sublist.map _)
  below := fun b hb ↦ h.below b (List.mem_of_mem_filter hb)
  pooled := by
    intro b hb
    rw [isSome_releaseBufs]
    exact h.pooled b (List.mem_of_mem_filter hb)
  numa_eq := by
    intro numa after hafter
    obtain ⟨pool, hpool, hnuma, _⟩ := pool_of_releaseBufs bs hafter
    exact hnuma.trans (h.numa_eq numa pool hpool)
  partition := by
    intro numa after hafter x
    obtain ⟨pool, hpool, _, hlen, hcover⟩ := pool_of_releaseBufs bs hafter
    have hpart := h.partition numa pool hpool x
    rw [cover_split_off numa h.nodup hbs hsub] at hpart
    rw [hcover x, hlen, ← hpart]
    omega

/-- A new buffer is taken. -/
theorem Partitioned.alloc {pools : Pools} {nextBuf : ℕ}
    {live : List PinnedBuf} (h : Partitioned pools nextBuf live) {numa : UInt16}
    {checks : Bool} {pool after : PinnedPool} {bytes : ℕ} {buf : PinnedBuf}
    (hpool : pools numa = some pool)
    (halloc : Allocated checks pool nextBuf bytes buf after) :
    Partitioned (Function.update pools numa (some after)) (nextBuf + 1) (buf :: live) := by
  have hnuma : buf.numa = numa := halloc.numa_eq.trans (h.numa_eq numa pool hpool)
  constructor
  case ids =>
    rw [List.map_cons, List.nodup_cons]
    refine ⟨fun hin ↦ ?_, h.ids⟩
    obtain ⟨b, hb, hid⟩ := List.mem_map.mp hin
    have hlt := h.below b hb
    rw [hid, halloc.id_eq] at hlt
    exact lt_irrefl _ hlt
  case below =>
    intro b hb
    rcases List.mem_cons.mp hb with rfl | hb
    · rw [halloc.id_eq]
      exact Nat.lt_succ_self _
    · exact Nat.lt_succ_of_lt (h.below b hb)
  case pooled =>
    intro b hb
    by_cases heq : b.numa = numa
    · rw [heq, Function.update_self]
      rfl
    · rw [Function.update_of_ne heq]
      rcases List.mem_cons.mp hb with rfl | hb
      · exact absurd hnuma heq
      · exact h.pooled b hb
  case numa_eq =>
    intro other found hfound
    by_cases heq : other = numa
    · subst heq
      rw [Function.update_self] at hfound
      cases hfound
      exact halloc.numa_after.trans (h.numa_eq other pool hpool)
    · rw [Function.update_of_ne heq] at hfound
      exact h.numa_eq other found hfound
  case partition =>
    intro other found hfound x
    rw [rangesOn_cons]
    by_cases heq : other = numa
    · subst heq
      rw [Function.update_self] at hfound
      cases hfound
      rw [if_pos hnuma, halloc.len_after, ← h.partition other pool hpool x, ← halloc.cover x]
      omega
    · rw [Function.update_of_ne heq] at hfound
      have hne : ¬ buf.numa = other := fun hbuf ↦ heq (hbuf.symm.trans hnuma)
      rw [if_neg hne, Nat.add_zero]
      exact h.partition other found hfound x

/-! ### One holder each -/

/-- Somebody holds the buffer: the metadata, a `get`, or a `put`. -/
def World.Owns (w : World) (b : PinnedBuf) : Prop :=
  b ∈ w.held ∨ ∃ t th, w.threads t = some th ∧ b ∈ th.bufs

/-- The pools are partitioned, and a live buffer has one holder: a `put` in flight, or the metadata
and the `get`s. -/
structure Exclusive (w : World) (live : List PinnedBuf) : Prop where
  pools : Partitioned w.pools w.nextBuf live
  held : ∀ b ∈ w.held, b ∈ live
  thread : ∀ t th, w.threads t = some th → ∀ b ∈ th.bufs, b ∈ live ∧ b ∉ w.held
  nodup : ∀ t th, w.threads t = some th → th.bufs.Nodup
  holder : ∀ t t' th th', w.threads t = some th → w.threads t' = some th' →
    ∀ b, b ∈ th.bufs → b ∈ th'.bufs → t = t'
  owned : ∀ b ∈ live, w.Owns b

/-- The buffers `bs` were released and otherwise nobody got a buffer. -/
structure Frees (w w' : World) (bs : List PinnedBuf) : Prop where
  pools : w'.pools = releaseBufs w.pools bs
  nextBuf : w'.nextBuf = w.nextBuf
  nodup : bs.Nodup
  source : ∀ b ∈ bs, w.Owns b
  kept : ∀ b, w.Owns b → b ∈ bs ∨ w'.Owns b
  held : ∀ b ∈ w'.held, b ∈ w.held ∧ b ∉ bs
  threads : ∀ t th', w'.threads t = some th' → th'.bufs = [] ∨
    ∃ th, w.threads t = some th ∧ th'.bufs = th.bufs ∧ ∀ b ∈ th.bufs, b ∉ bs

section Exclusive

variable {w w' : World} {live bs : List PinnedBuf}

theorem Frees.thread_of_mem (h : Frees w w' bs) {t : ℕ} {th' : PutThread} {b : PinnedBuf}
    (hth' : w'.threads t = some th') (hb : b ∈ th'.bufs) :
    ∃ th, w.threads t = some th ∧ b ∈ th.bufs ∧ b ∉ bs := by
  rcases h.threads t th' hth' with hnil | ⟨th, hth, hbufs, hnot⟩
  · rw [hnil] at hb
    exact absurd hb List.not_mem_nil
  · rw [hbufs] at hb
    exact ⟨th, hth, hb, hnot b hb⟩

theorem Exclusive.frees (h : Exclusive w live) (hfrees : Frees w w' bs) :
    Exclusive w' (live.filter fun b ↦ b ∉ bs) where
  pools := by
    rw [hfrees.pools, hfrees.nextBuf]
    refine h.pools.releaseBufs hfrees.nodup fun b hb ↦ ?_
    rcases hfrees.source b hb with hheld | ⟨t, th, hth, hmem⟩
    · exact h.held b hheld
    · exact (h.thread t th hth b hmem).1
  held := by
    intro b hb
    obtain ⟨hheld, hnot⟩ := hfrees.held b hb
    exact List.mem_filter.mpr ⟨h.held b hheld, decide_eq_true hnot⟩
  thread := by
    intro t th' hth' b hb
    obtain ⟨th, hth, hmem, hnot⟩ := hfrees.thread_of_mem hth' hb
    obtain ⟨hlive, hheld⟩ := h.thread t th hth b hmem
    exact ⟨List.mem_filter.mpr ⟨hlive, decide_eq_true hnot⟩, fun hin ↦ hheld (hfrees.held b hin).1⟩
  nodup := by
    intro t th' hth'
    rcases hfrees.threads t th' hth' with hnil | ⟨th, hth, hbufs, _⟩
    · rw [hnil]
      exact List.nodup_nil
    · rw [hbufs]
      exact h.nodup t th hth
  holder := by
    intro t t' first second hfirst hsecond b hb hb'
    obtain ⟨th, hth, hmem, _⟩ := hfrees.thread_of_mem hfirst hb
    obtain ⟨th', hth', hmem', _⟩ := hfrees.thread_of_mem hsecond hb'
    exact h.holder t t' th th' hth hth' b hmem hmem'
  owned := by
    intro b hb
    obtain ⟨hlive, hnot⟩ := List.mem_filter.mp hb
    exact (hfrees.kept b (h.owned b hlive)).resolve_left (of_decide_eq_true hnot)

/-- The other threads are as they were. -/
theorem thread_of_setThread {t t' : ℕ} {th' other : PutThread}
    (h : (w.setThread t th').threads t' = some other) :
    (t' = t ∧ other = th') ∨ (t' ≠ t ∧ w.threads t' = some other) := by
  change Function.update w.threads t (some th') t' = some other at h
  by_cases heq : t' = t
  · subst heq
    rw [Function.update_self] at h
    exact .inl ⟨rfl, (Option.some.inj h).symm⟩
  · rw [Function.update_of_ne heq] at h
    exact .inr ⟨heq, h⟩

/-- A buffer of a thread is still held by one after another thread went on. -/
theorem owns_setThread {t t' : ℕ} {th' other : PutThread} {b : PinnedBuf}
    (hother : w.threads t' = some other) (hb : b ∈ other.bufs) (hself : t' = t → b ∈ th'.bufs) :
    ∃ t'' found, (w.setThread t th').threads t'' = some found ∧ b ∈ found.bufs := by
  by_cases heq : t' = t
  · exact ⟨t, th', Function.update_self .., hself heq⟩
  · refine ⟨t', other, ?_, hb⟩
    change Function.update w.threads t (some th') t' = some other
    rw [Function.update_of_ne heq]
    exact hother

/-- A thread goes on, or begins, with the buffers it had, and nothing is released. -/
theorem frees_setThread {t : ℕ} {th' : PutThread} (hpools : w'.pools = w.pools)
    (hnextBuf : w'.nextBuf = w.nextBuf) (hheld : ∀ b, b ∈ w'.held ↔ b ∈ w.held)
    (hthreads : w'.threads = Function.update w.threads t (some th'))
    (hbufs : th'.bufs = ((w.threads t).map PutThread.bufs).getD []) : Frees w w' [] where
  pools := hpools
  nextBuf := hnextBuf
  nodup := List.nodup_nil
  source := fun _ hb ↦ absurd hb List.not_mem_nil
  held := fun b hb ↦ ⟨(hheld b).mp hb, List.not_mem_nil⟩
  kept := by
    intro b howns
    rcases howns with hb | ⟨t', other, hother, hb⟩
    · exact .inr (.inl ((hheld b).mpr hb))
    · refine .inr (.inr ?_)
      rw [hthreads]
      refine owns_setThread hother hb fun heq ↦ ?_
      rw [heq] at hother
      rw [hbufs, hother]
      exact hb
  threads := by
    intro t' other hother
    rw [hthreads] at hother
    rcases thread_of_setThread hother with ⟨rfl, rfl⟩ | ⟨_, hsame⟩
    · cases hold : w.threads t' with
      | none =>
        rw [hold] at hbufs
        exact .inl hbufs
      | some th =>
        rw [hold] at hbufs
        exact .inr ⟨th, rfl, hbufs, fun _ _ ↦ List.not_mem_nil⟩
    · exact .inr ⟨other, hsame, rfl, fun _ _ ↦ List.not_mem_nil⟩

/-- A thread takes a new buffer. -/
theorem Exclusive.alloc (h : Exclusive w live) {t : ℕ} {th th' : PutThread}
    (hth : w.threads t = some th) {numa : UInt16} {checks : Bool} {pool after : PinnedPool}
    {bytes : ℕ} {buf : PinnedBuf} (hpool : w.pools numa = some pool)
    (halloc : Allocated checks pool w.nextBuf bytes buf after)
    (hbufs : th'.bufs = th.bufs ++ [buf]) :
    Exclusive ({ w with
      pools := Function.update w.pools numa (some after)
      nextBuf := w.nextBuf + 1 }.setThread t th') (buf :: live) := by
  have hfresh : buf ∉ live := by
    intro hin
    have hlt := h.pools.below buf hin
    rw [halloc.id_eq] at hlt
    exact lt_irrefl _ hlt
  -- a buffer of a thread is the new one, and the thread is `t`, or it was there before
  have hsource : ∀ t' other, (w.setThread t th').threads t' = some other → ∀ b ∈ other.bufs,
      (b = buf ∧ t' = t) ∨ (b ∈ live ∧ ∃ old, w.threads t' = some old ∧ b ∈ old.bufs) := by
    intro t' other hother b hb
    rcases thread_of_setThread hother with ⟨rfl, rfl⟩ | ⟨_, hsame⟩
    · rw [hbufs] at hb
      rcases List.mem_append.mp hb with hb | hb
      · exact .inr ⟨(h.thread t' th hth b hb).1, th, hth, hb⟩
      · exact .inl ⟨List.mem_singleton.mp hb, rfl⟩
    · exact .inr ⟨(h.thread t' other hsame b hb).1, other, hsame, hb⟩
  constructor
  case pools => exact h.pools.alloc hpool halloc
  case held => exact fun b hb ↦ List.mem_cons_of_mem _ (h.held b hb)
  case thread =>
    intro t' other hother b hb
    rcases hsource t' other hother b hb with ⟨rfl, _⟩ | ⟨hlive, old, hold, hmem⟩
    · exact ⟨List.mem_cons_self, fun hheld ↦ hfresh (h.held b hheld)⟩
    · exact ⟨List.mem_cons_of_mem _ hlive, (h.thread t' old hold b hmem).2⟩
  case nodup =>
    intro t' other hother
    rcases thread_of_setThread hother with ⟨rfl, rfl⟩ | ⟨_, hsame⟩
    · rw [hbufs]
      refine List.nodup_append.mpr ⟨h.nodup t' th hth, List.nodup_singleton buf, ?_⟩
      intro b hb b' hb' heq
      rw [heq, List.mem_singleton.mp hb'] at hb
      exact hfresh (h.thread t' th hth buf hb).1
    · exact h.nodup t' other hsame
  case holder =>
    intro t₁ t₂ first second hfirst hsecond b hb hb'
    rcases hsource t₁ first hfirst b hb with ⟨rfl, rfl⟩ | ⟨hlive, old, hold, hmem⟩
    · rcases hsource t₂ second hsecond b hb' with ⟨_, rfl⟩ | ⟨hlive, _⟩
      · rfl
      · exact absurd hlive hfresh
    · rcases hsource t₂ second hsecond b hb' with ⟨rfl, _⟩ | ⟨_, old', hold', hmem'⟩
      · exact absurd hlive hfresh
      · exact h.holder t₁ t₂ old old' hold hold' b hmem hmem'
  case owned =>
    intro b hb
    rcases List.mem_cons.mp hb with rfl | hb
    · exact .inr ⟨t, th', Function.update_self .., by simp [hbufs]⟩
    · rcases h.owned b hb with hheld | ⟨t', other, hother, hmem⟩
      · exact .inl hheld
      · refine .inr (owns_setThread hother hmem fun heq ↦ ?_)
        rw [heq, hth] at hother
        cases hother
        rw [hbufs]
        exact List.mem_append_left _ hmem

/-- A thread hands its buffers to the metadata. -/
theorem Exclusive.store (h : Exclusive w live) {t : ℕ} {th th' : PutThread}
    (hth : w.threads t = some th) {st : State} (hbufs : th'.bufs = [])
    (hheld : ∀ b, b ∈ { w with state := st }.held ↔ b ∈ w.held ∨ b ∈ th.bufs) :
    Exclusive ({ w with state := st }.setThread t th') live := by
  have hsource : ∀ t' other, (w.setThread t th').threads t' = some other → ∀ b ∈ other.bufs,
      t' ≠ t ∧ w.threads t' = some other := by
    intro t' other hother b hb
    rcases thread_of_setThread hother with ⟨_, rfl⟩ | hsame
    · rw [hbufs] at hb
      exact absurd hb List.not_mem_nil
    · exact hsame
  constructor
  case pools => exact h.pools
  case held =>
    intro b hb
    rcases (hheld b).mp hb with hold | hmem
    · exact h.held b hold
    · exact (h.thread t th hth b hmem).1
  case thread =>
    intro t' other hother b hb
    obtain ⟨hne, hsame⟩ := hsource t' other hother b hb
    refine ⟨(h.thread t' other hsame b hb).1, fun hin ↦ ?_⟩
    rcases (hheld b).mp hin with hold | hmem
    · exact (h.thread t' other hsame b hb).2 hold
    · exact hne (h.holder t' t other th hsame hth b hb hmem)
  case nodup =>
    intro t' other hother
    rcases thread_of_setThread hother with ⟨_, rfl⟩ | ⟨_, hsame⟩
    · rw [hbufs]
      exact List.nodup_nil
    · exact h.nodup t' other hsame
  case holder =>
    intro t₁ t₂ first second hfirst hsecond b hb hb'
    exact h.holder t₁ t₂ first second (hsource t₁ first hfirst b hb).2
      (hsource t₂ second hsecond b hb').2 b hb hb'
  case owned =>
    intro b hb
    rcases h.owned b hb with hold | ⟨t', other, hother, hmem⟩
    · exact .inl ((hheld b).mpr (.inl hold))
    · by_cases heq : t' = t
      · rw [heq, hth] at hother
        cases hother
        exact .inl ((hheld b).mpr (.inr hmem))
      · exact .inr (owns_setThread hother hmem fun hsame ↦ absurd hsame heq)

end Exclusive

end Pegastore.Local
