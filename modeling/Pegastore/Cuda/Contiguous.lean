import Pegastore.Cuda.Alone
import Pegastore.Cuda.Pools

/-!
# Contiguous space

When nothing is stored and nothing runs, a pool should be one free range again, so that a slot of
its whole capacity lands. `Coalesced` is what makes it so: no two free ranges touch, which `release`
keeps for every range that is not empty. A slot of length zero reserves nothing, so its release puts
an empty range into the free list, between two ranges that then never find each other.

A lock that a panic poisoned would make every later `put` panic. `Usable` says that this cannot be
so once the metadata is empty: every section that can panic has an object in its hands, and nothing
is removed from behind a poisoned lock.
-/

set_option autoImplicit false
set_option relaxedAutoImplicit false

namespace Pegastore.Local

open Outcome ByteMemory Transition Ranges

/-- No two free ranges touch, and neither a buffer nor a slot asked for is empty. -/
structure Coalesced (w : World) : Prop where
  tight : ∀ numa pool, w.pools numa = some pool → Tight pool.free
  reserved : ∀ b, w.Owns b → 0 < b.reserved
  asked : ∀ t th, w.threads t = some th → ∀ ps ∈ th.op.slots, 0 < ps.spec.len

section Coalesced

variable {inner : Inner} {mem : ByteSpace} {w w' : World} {live : List PinnedBuf}

/-- A live buffer is nowhere free. -/
theorem Partitioned.cover_eq_zero {pools : Pools} {nextBuf : ℕ} (h : Partitioned pools nextBuf live)
    {b : PinnedBuf} (hb : b ∈ live) {pool : PinnedPool} (hpool : pools b.numa = some pool) {x : ℕ}
    (hle : b.off ≤ x) (hlt : x < b.off + b.reserved) : cover pool.free x = 0 := by
  have hpart := h.partition b.numa pool hpool x
  have hone : 1 ≤ cover (rangesOn b.numa live) x := by
    refine one_le_cover (r := b.range) (List.mem_map_of_mem ?_) (contains_iff.mpr ⟨hle, hlt⟩)
    exact List.mem_filter.mpr ⟨hb, decide_eq_true rfl⟩
  split_ifs at hpart <;> omega

/-- Releasing live buffers that are not empty leaves no two free ranges that touch. -/
theorem tight_releaseBufs (bs : List PinnedBuf) : ∀ {pools : Pools} {nextBuf : ℕ}
    {live : List PinnedBuf}, Partitioned pools nextBuf live → bs.Nodup → (∀ b ∈ bs, b ∈ live) →
      (∀ b ∈ bs, 0 < b.reserved) → (∀ numa pool, pools numa = some pool → Tight pool.free) →
        ∀ numa pool, releaseBufs pools bs numa = some pool → Tight pool.free := by
  induction bs with
  | nil =>
    intro pools nextBuf live _ _ _ _ htight
    exact htight
  | cons b bs ih =>
    intro pools nextBuf live hpart hnodup hsub hpos htight
    obtain ⟨hnot, hrest⟩ := List.nodup_cons.mp hnodup
    have hfirst := hpart.releaseBufs (List.nodup_singleton b) fun c hc ↦
      hsub c (List.mem_cons.mpr (.inl (List.mem_singleton.mp hc)))
    refine @ih (releaseBuf pools b) nextBuf _ hfirst hrest (fun c hc ↦ ?_)
      (fun c hc ↦ hpos c (List.mem_cons_of_mem _ hc)) ?_
    · refine List.mem_filter.mpr ⟨hsub c (List.mem_cons_of_mem _ hc), decide_eq_true fun hin ↦ ?_⟩
      rw [List.mem_singleton.mp hin] at hc
      exact hnot hc
    · intro numa pool hpool
      change Function.update pools b.numa _ numa = some pool at hpool
      by_cases heq : numa = b.numa
      · subst heq
        rw [Function.update_self] at hpool
        obtain ⟨before, hbefore, rfl⟩ := Option.map_eq_some_iff.mp hpool
        exact PinnedPool.tight_release (htight _ before hbefore) (hpos b List.mem_cons_self)
          fun x ↦ hpart.cover_eq_zero (hsub b List.mem_cons_self) hbefore
      · rw [Function.update_of_ne heq] at hpool
        exact htight numa pool hpool

theorem Coalesced.shed (h : Coalesced w) (hexclusive : Exclusive w live) {bs : List PinnedBuf}
    (hshed : Shed w w' bs) : Coalesced w' where
  tight := by
    rw [hshed.pools]
    exact tight_releaseBufs bs hexclusive.pools hshed.nodup
      (fun b hb ↦ hexclusive.mem_live (hshed.source b hb))
      (fun b hb ↦ h.reserved b (hshed.source b hb)) h.tight
  reserved := fun b howns ↦ h.reserved b (hshed.owns howns)
  asked := by
    intro t th' hth'
    obtain ⟨th, hth, hfollows⟩ := hshed.follows t th' hth'
    rw [hfollows.op_eq]
    exact h.asked t th hth

/-- One thread goes on, and what it holds is not empty. -/
theorem Coalesced.setThread (h : Coalesced w) {t : ℕ} {th' : PutThread}
    (hthreads : w'.threads = Function.update w.threads t (some th'))
    (htight : ∀ numa pool, w'.pools numa = some pool → Tight pool.free)
    (hheld : ∀ b ∈ w'.held, 0 < b.reserved) (hbufs : ∀ b ∈ th'.bufs, 0 < b.reserved)
    (hop : ∀ ps ∈ th'.op.slots, 0 < ps.spec.len) : Coalesced w' where
  tight := htight
  reserved := by
    intro b howns
    rcases howns with hb | ⟨t', other, hother, hb⟩
    · exact hheld b hb
    · rw [hthreads] at hother
      rcases thread_of_setThread hother with ⟨_, rfl⟩ | ⟨_, hsame⟩
      · exact hbufs b hb
      · exact h.reserved b (.inr ⟨t', other, hsame, hb⟩)
  asked := by
    intro t' other hother
    rw [hthreads] at hother
    rcases thread_of_setThread hother with ⟨_, rfl⟩ | ⟨_, hsame⟩
    · exact hop
    · exact h.asked t' other hsame

theorem Coalesced.held (h : Coalesced w) : ∀ b ∈ w.held, 0 < b.reserved :=
  fun b hb ↦ h.reserved b (.inl hb)

theorem Coalesced.bufs (h : Coalesced w) {t : ℕ} {th : PutThread} (hth : w.threads t = some th) :
    ∀ b ∈ th.bufs, 0 < b.reserved := fun b hb ↦ h.reserved b (.inr ⟨t, th, hth, hb⟩)

theorem Coalesced.began (h : Coalesced w) {key : Key} {op : OpPut} {writable : List Bool}
    {st : State} (hop : ∀ ps ∈ op.slots, 0 < ps.spec.len)
    (hclaim : w.state.claim key op.spec = .ok (writable, st)) :
    Coalesced ({ w with state := st, nextPut := w.nextPut + 1 }.setThread w.nextPut
      ⟨key, op, writable, 0, [], .slot⟩) :=
  h.setThread rfl h.tight
    (fun b hb ↦ h.held b ((held_congr (claim_claimed hclaim).mem_bufsIn b).mp hb)) nofun hop

theorem Coalesced.advanced (h : Coalesced w) (hexclusive : Exclusive w live)
    (hfitting : Fitting inner w) {t : ℕ} {th : PutThread} {ps : PutSlot} {outcome : CopyOutcome}
    {r : World × Reply} (hth : w.threads t = some th) (hps : th.op.slots[th.i]? = some ps)
    (hadvanced : Advanced inner mem w t th ps outcome r) : Coalesced r.1 := by
  cases hadvanced with
  | shed _ hshed => exact h.shed hexclusive hshed
  | unwound _ hshed => exact h.shed hexclusive hshed
  | @allocated _ numa pool after buf pc _ _ hpool halloc _ hbufs _ =>
    refine h.setThread rfl (fun other found hfound ↦ ?_) h.held (fun b hb ↦ ?_) (h.asked t th hth)
    · change Function.update w.pools numa (some after) other = some found at hfound
      by_cases heq : other = numa
      · subst heq
        rw [Function.update_self] at hfound
        cases hfound
        exact halloc.tight (h.tight other pool hpool)
      · rw [Function.update_of_ne heq] at hfound
        exact h.tight other found hfound
    · rw [hbufs] at hb
      rcases List.mem_append.mp hb with hb | hb
      · exact h.bufs hth b hb
      · have hmem := List.mem_of_getElem? hps
        have hlen := h.asked t th hth ps hmem
        rw [List.mem_singleton.mp hb]
        rw [← halloc.len_eq] at hlen
        exact lt_of_lt_of_le hlen (halloc.fits (hfitting.slots t th hth ps hmem))
  | @copied filled todo x hpc =>
    refine h.setThread rfl h.tight h.held (fun b hb ↦ h.bufs hth b ?_) (h.asked t th hth)
    unfold PutThread.bufs at hb ⊢
    rw [hpc]
    change b ∈ ((filled ++ [x]) ++ todo).map Placed.buf at hb
    rw [List.append_assoc] at hb
    exact hb
  | @spilled filled todo x e moved w' bs _ _ hshed =>
    have hfilled : Coalesced (w.fill x.buf moved) := ⟨h.tight, h.reserved, h.asked⟩
    have hsame : Exclusive (w.fill x.buf moved) live :=
      ⟨hexclusive.pools, hexclusive.held, hexclusive.thread, hexclusive.nodup, hexclusive.holder,
        hexclusive.owned⟩
    exact hfilled.shed hsame hshed
  | @stored _ placed st hpc hstore =>
    refine h.setThread rfl h.tight (fun b hb ↦ ?_) nofun (h.asked t th hth)
    rcases (mem_held_store hstore).mp hb with hheld | hnew
    · exact h.held b hheld
    · refine h.bufs hth b ?_
      unfold PutThread.bufs
      rw [hpc]
      exact hnew
  | unclaimed _ hunclaim =>
    exact h.setThread rfl h.tight (fun b hb ↦ h.held b ((mem_held_unclaim hunclaim).mp hb)) nofun
      (h.asked t th hth)

end Coalesced

/-- A `put` that begins asks for no empty slot. -/
def Action.AsksBytes : Action → Prop
  | .beginPut _ op => ∀ ps ∈ op.slots, 0 < ps.spec.len
  | _ => True

theorem Coalesced.stepped {inner : Inner} {mem : ByteSpace} {w : World} {live : List PinnedBuf}
    {action : Action} {r : World × Reply} (h : Coalesced w) (hsound : Sound w live)
    (hfitting : Fitting inner w) (hasks : action.AsksBytes)
    (hstep : Stepped inner mem w action r) : Coalesced r.1 := by
  cases hstep with
  | shed _ hshed => exact h.shed hsound.exclusive hshed
  | began _ hclaim => exact h.began hasks hclaim
  | advanced hth hps hadvanced => exact h.advanced hsound.exclusive hfitting hth hps hadvanced
  | returned hth hend =>
    exact h.shed hsound.exclusive
      (shed_endThread hsound.exclusive hth ((hsound.paced _ _ hth).bufs_of_end hend))

/-! ### The lock -/

/-- A `put` that runs eviction rounds has a pool and a queue, and behind a poisoned lock there is
an object. -/
structure Usable (w : World) : Prop where
  queued : ∀ numa, (w.pools numa).isSome = true → (w.state.fifo (.cpu numa)).isSome = true
  pooled : ∀ t th target rest p, w.threads t = some th → th.pc = .evict target rest p →
    (w.pools target.1).isSome = true
  lock : w.poisoned = true → ∃ key obj, w.state.objects.find? key = some obj

section Sections

variable {st : State} {device : Device} {reason : Panic}

/-- A round that panics has met an object. -/
theorem evictLoop_error {protect : Key} (queue : List FifoEntry) :
    ∀ {objects : Objects} {deferred : List FifoEntry},
      evictLoop device protect queue objects deferred = .error reason →
        ∃ key obj, objects.find? key = some obj := by
  induction queue with
  | nil =>
    intro objects deferred h
    cases h
  | cons entry queue ih =>
    intro objects deferred h
    unfold evictLoop at h
    split_ifs at h with hprotect
    · exact ih h
    · cases hfind : objects.find? entry.1 with
      | some obj => exact ⟨entry.1, obj, hfind⟩
      | none =>
        have hentry : evictEntry device entry objects = .ok ⟨false, [], objects⟩ := by
          unfold evictEntry
          rw [hfind]
        rw [hentry] at h
        exact ih h

theorem evictRound_error {protect : Key} (hqueue : (st.fifo device).isSome = true)
    (h : st.evictRound device protect = .error reason) :
    ∃ key obj, st.objects.find? key = some obj := by
  obtain ⟨queue, hsome⟩ := Option.isSome_iff_exists.mp hqueue
  unfold State.evictRound at h
  rw [hsome] at h
  cases hloop : evictLoop device protect queue st.objects [] with
  | error e => exact evictLoop_error queue hloop
  | ok round =>
    change (evictLoop device protect queue st.objects [] >>= _) = _ at h
    rw [hloop] at h
    cases h

/-- A round changes no queue into none. -/
theorem evictRound_fifo {protect : Key} {r : Bool × List PinnedBuf × State}
    (h : st.evictRound device protect = .ok r) (other : Device)
    (hother : (st.fifo other).isSome = true) : (r.2.2.fifo other).isSome = true := by
  unfold State.evictRound at h
  obtain ⟨queue, _, h⟩ := bind_eq_ok.mp h
  obtain ⟨round, _, h⟩ := bind_eq_ok.mp h
  cases h
  change (Function.update st.fifo device _ other).isSome = true
  by_cases heq : other = device
  · rw [heq, Function.update_self]
    rfl
  · rw [Function.update_of_ne heq]
    exact hother

theorem enqueueAll_fifo {kb : Key} {i : ℕ} (placed : List Placed) : ∀ {st st' : State},
    placed.foldlM (fun st p ↦ st.enqueue kb i (.cpu p.numa)) st = .ok st' →
      ∀ other, (st.fifo other).isSome = true → (st'.fifo other).isSome = true := by
  induction placed with
  | nil =>
    intro st st' h other hother
    cases h
    exact hother
  | cons p placed ih =>
    intro st st' h other hother
    rw [List.foldlM_cons] at h
    obtain ⟨middle, hfirst, hrest⟩ := bind_eq_ok.mp h
    exact ih hrest other (enqueue_fifo hfirst other hother)

theorem store_fifo {kb : Key} {i : ℕ} {placed : List Placed} {st' : State}
    (h : st.store kb i placed = .ok (.ok st')) (other : Device)
    (hother : (st.fifo other).isSome = true) : (st'.fifo other).isSome = true := by
  unfold State.store at h
  cases hfind : st.objects.find? kb with
  | none =>
    rw [hfind] at h
    cases h
  | some obj =>
    rw [hfind] at h
    obtain ⟨slot, _, h⟩ := bind_eq_ok.mp h
    obtain ⟨last, hall, h⟩ := bind_eq_ok.mp h
    cases h
    exact enqueueAll_fifo placed hall other hother

/-- A section that succeeds without the object of its key panics only with one. -/
theorem exists_object_of_error {α : Type} {objects : Objects} (key : Key) {run : Exec α}
    (h : run = .error reason) (hnone : objects.find? key = none → run.isOk = true) :
    ∃ key obj, objects.find? key = some obj := by
  cases hfind : objects.find? key with
  | some obj => exact ⟨key, obj, hfind⟩
  | none =>
    have hok := hnone hfind
    rw [h] at hok
    cases hok

theorem store_error {kb : Key} {i : ℕ} {placed : List Placed}
    (h : st.store kb i placed = .error reason) : ∃ key obj, st.objects.find? key = some obj := by
  refine exists_object_of_error kb h fun hfind ↦ ?_
  unfold State.store
  rw [hfind]
  rfl

theorem unclaim_error {kb : Key} {i : ℕ} (h : st.unclaim kb i = .error reason) :
    ∃ key obj, st.objects.find? key = some obj := by
  refine exists_object_of_error kb h fun hfind ↦ ?_
  unfold State.unclaim
  rw [hfind]
  rfl

theorem publish_error {key : Key} {op : OpPublish} {total : ℕ}
    (h : st.publish key op device total = .error reason) :
    ∃ key obj, st.objects.find? key = some obj := by
  refine exists_object_of_error key h fun hfind ↦ ?_
  unfold State.publish
  rw [hfind]
  rfl

theorem select_error {inner : Inner} {key : Key} {idx : ℕ}
    (h : st.select inner key idx device = .error reason) :
    ∃ key obj, st.objects.find? key = some obj := by
  refine exists_object_of_error key h fun hfind ↦ ?_
  unfold State.select
  rw [hfind]
  rfl

theorem claim_fifo {st' : State} {key : Key} {spec : ObjectSpec} {writable : List Bool}
    (h : st.claim key spec = .ok (writable, st')) : st'.fifo = st.fifo := by
  unfold State.claim at h
  dsimp only at h
  split_ifs at h
  cases h
  rfl

theorem unclaim_fifo {st' : State} {kb : Key} {i : ℕ} (h : st.unclaim kb i = .ok st') :
    st'.fifo = st.fifo := by
  unfold State.unclaim at h
  cases hfind : st.objects.find? kb with
  | none =>
    rw [hfind] at h
    cases h
    rfl
  | some obj =>
    rw [hfind] at h
    obtain ⟨slot, _, h⟩ := bind_eq_ok.mp h
    cases h
    rfl

theorem publish_fifo {st' : State} {key : Key} {op : OpPublish} {total : ℕ}
    (h : st.publish key op device total = .ok (.ok st')) : st'.fifo = st.fifo := by
  unfold State.publish at h
  cases hfind : st.objects.find? key with
  | none =>
    rw [hfind] at h
    cases h
  | some obj =>
    rw [hfind] at h
    dsimp only at h
    cases hspec : obj.spec.slots[op.slot.toNat]? with
    | none =>
      rw [hspec] at h
      cases h
    | some spec =>
      rw [hspec] at h
      dsimp only at h
      split_ifs at h
      · cases h
      · obtain ⟨slot, _, h⟩ := bind_eq_ok.mp h
        obtain ⟨first, _, h⟩ := bind_eq_ok.mp h
        cases h
        rfl

end Sections

section Usable

variable {inner : Inner} {mem : ByteSpace} {w w' : World} {t : ℕ} {th : PutThread}

/-- The threads that go on do not run eviction rounds, or have a pool for them. -/
theorem Usable.change (h : Usable w)
    (hpools : ∀ numa, (w'.pools numa).isSome = (w.pools numa).isSome)
    (hfifo : ∀ d, (w.state.fifo d).isSome = true → (w'.state.fifo d).isSome = true)
    (hthreads : ∀ t th target rest p, w'.threads t = some th → th.pc = .evict target rest p →
      w.threads t = some th ∨ (w.pools target.1).isSome = true)
    (hlock : w'.poisoned = true → ∃ key obj, w'.state.objects.find? key = some obj) :
    Usable w' where
  queued := fun numa hsome ↦ hfifo _ (h.queued numa (by rw [← hpools]; exact hsome))
  pooled := by
    intro t th target rest p hth hpc
    rw [hpools]
    rcases hthreads t th target rest p hth hpc with hsame | hpool
    · exact h.pooled t th target rest p hsame hpc
    · exact hpool
  lock := hlock

/-- A thread goes on at a point that is not an eviction round. -/
theorem Usable.setThread (h : Usable w) {th' : PutThread}
    (hpc : ∀ target rest p, th'.pc = .evict target rest p → (w.pools target.1).isSome = true) :
    Usable (w.setThread t th') := by
  refine h.change (fun _ ↦ rfl) (fun _ hsome ↦ hsome)
    (fun t' other target rest p hother hevict ↦ ?_) h.lock
  rcases thread_of_setThread hother with ⟨_, rfl⟩ | ⟨_, hsame⟩
  · exact .inr (hpc target rest p hevict)
  · exact .inl hsame

theorem Usable.release (h : Usable w) (bs : List PinnedBuf) : Usable (w.releaseAll bs) :=
  h.change (fun numa ↦ isSome_releaseBufs w.pools bs numa) (fun _ hsome ↦ hsome)
    (fun _ _ _ _ _ hth _ ↦ .inl hth) h.lock

theorem Usable.endThread (h : Usable w) : Usable (w.endThread t) := by
  refine h.change (fun _ ↦ rfl) (fun _ hsome ↦ hsome) (fun t' other target rest p hother _ ↦ ?_)
    h.lock
  change Function.update w.threads t none t' = some other at hother
  by_cases heq : t' = t
  · rw [heq, Function.update_self] at hother
    cases hother
  · rw [Function.update_of_ne heq] at hother
    exact .inl hother

theorem Usable.poison (h : Usable w) (hobject : ∃ key obj, w.state.objects.find? key = some obj) :
    Usable { w with poisoned := true } :=
  h.change (fun _ ↦ rfl) (fun _ hsome ↦ hsome) (fun _ _ _ _ _ hth _ ↦ .inl hth) fun _ ↦ hobject

/-- The metadata changes behind a lock that is not poisoned. -/
theorem Usable.setState (h : Usable w) (hlock : w.poisoned = false) (st : State)
    (hfifo : ∀ d, (w.state.fifo d).isSome = true → (st.fifo d).isSome = true) :
    Usable { w with state := st } := by
  refine h.change (fun _ ↦ rfl) hfifo (fun _ _ _ _ _ hth _ ↦ .inl hth) fun hpoisoned ↦ ?_
  rw [show w.poisoned = true from hpoisoned] at hlock
  cases hlock

theorem Usable.fail (h : Usable w) (e : Error) : Usable (w.fail t th e).1 :=
  (h.release th.bufs).setThread nofun

theorem Usable.unwind (h : Usable w) (reason : Panic) : Usable (w.unwind t th reason).1 :=
  (h.release th.bufs).endThread

theorem Usable.locked (h : Usable w) {α : Type} {sec : Exec α} {next : α → World × Reply}
    (hpanic : ∀ reason, sec = .error reason → ∃ key obj, w.state.objects.find? key = some obj)
    (hnext : ∀ a, w.poisoned = false → sec = .ok a → Usable (next a).1) :
    Usable (w.locked t th sec next).1 := by
  unfold World.locked
  split_ifs with hlock
  · exact h.unwind _
  · cases sec with
    | error reason => exact (h.poison (hpanic reason rfl)).unwind reason
    | ok a => exact hnext a (Bool.eq_false_of_not_eq_true hlock) rfl

theorem Usable.takeBuf (h : Usable w) (each : Bool) (target : UInt16 × Bool)
    (rest : List (UInt16 × Bool)) (p : Placing) {full : Pc}
    (hpool : (w.pools target.1).isSome = true)
    (hfull : ∀ other more q, full = .evict other more q → (w.pools other.1).isSome = true)
    (taken : Exec (Option (PinnedBuf × PinnedPool))) :
    Usable (w.takeBuf t th each target rest p full taken).1 := by
  unfold World.takeBuf
  split
  · exact h.unwind _
  · exact h.setThread hfull
  · next buf after =>
    have htaken : Usable { w with
        pools := Function.update w.pools target.1 (some after), nextBuf := w.nextBuf + 1 } := by
      refine h.change (fun numa ↦ ?_) (fun _ hsome ↦ hsome) (fun _ _ _ _ _ hth _ ↦ .inl hth) h.lock
      change (Function.update w.pools target.1 (some after) numa).isSome = _
      by_cases heq : numa = target.1
      · rw [heq, Function.update_self, hpool]
        rfl
      · rw [Function.update_of_ne heq]
    exact htaken.setThread nofun

theorem Usable.tryAlloc (h : Usable w) (ps : PutSlot) (target : UInt16 × Bool)
    (rest : List (UInt16 × Bool)) (p : Placing) {full : PinnedPool → Pc}
    (hfull : ∀ pool other more q, full pool = .evict other more q → other = target) :
    Usable (w.tryAlloc inner t th ps target rest p full).1 := by
  unfold World.tryAlloc
  split
  · exact h.setThread nofun
  · next pool hpool =>
    have hsome : (w.pools target.1).isSome = true := by rw [hpool]; rfl
    refine h.takeBuf _ target rest p hsome (fun other more q heq ↦ ?_) _
    rw [hfull pool other more q heq]
    exact hsome

theorem Usable.beginSlot (h : Usable w) (ps : PutSlot) :
    Usable (w.beginSlot inner t th ps).1 := by
  unfold World.beginSlot
  split
  · exact h.unwind _
  · exact h.setThread nofun
  · cases inner.targets ps.spec.placement with
    | error e => exact h.fail e
    | ok targets => exact h.setThread nofun

theorem Usable.evict (h : Usable w) {target : UInt16 × Bool} (rest : List (UInt16 × Bool))
    (p : Placing) (hpool : (w.pools target.1).isSome = true) :
    Usable (w.evict t th target rest p).1 := by
  refine h.locked (fun reason hpanic ↦ evictRound_error (h.queued target.1 hpool) hpanic)
    fun r hlock hr ↦ ?_
  exact ((h.setState hlock _ (evictRound_fifo hr)).release _).setThread nofun

theorem Usable.store (h : Usable w) (placed : List Placed) : Usable (w.store t th placed).1 := by
  refine h.locked (fun reason hpanic ↦ store_error hpanic) fun r hlock hr ↦ ?_
  cases r with
  | error e => exact h.fail e
  | ok st => exact (h.setState hlock st (store_fifo hr)).setThread nofun

theorem Usable.unclaim (h : Usable w) (e : Error) : Usable (w.unclaim t th e).1 := by
  refine h.locked (fun reason hpanic ↦ unclaim_error hpanic) fun st hlock hst ↦ ?_
  refine (h.setState hlock st fun d hsome ↦ ?_).setThread nofun
  rw [unclaim_fifo hst]
  exact hsome

theorem Usable.advance (h : Usable w) (hth : w.threads t = some th) (outcome : CopyOutcome) :
    Usable (w.advance inner mem t th outcome).1 := by
  unfold World.advance
  cases th.op.slots[th.i]? with
  | none => exact h.endThread
  | some ps =>
    dsimp only
    unfold World.advanceSlot
    split
    · exact h.beginSlot ps
    · unfold World.endPlacing
      split_ifs
      · exact h.fail _
      · exact h.setThread nofun
    · refine h.tryAlloc ps _ _ _ fun pool other more q heq ↦ ?_
      split_ifs at heq
      · cases heq
      · cases heq
        rfl
    · next target rest p hpc => exact h.evict rest p (h.pooled t th target rest p hth hpc)
    · refine h.tryAlloc ps _ _ _ fun pool other more q heq ↦ ?_
      split_ifs at heq
      · cases heq
        rfl
      · cases heq
    · exact h.setThread nofun
    · next filled x todo _ =>
      have hfill : ∀ moved, Usable (w.fill x.buf moved) := fun moved ↦
        h.change (fun _ ↦ rfl) (fun _ hsome ↦ hsome) (fun _ _ _ _ _ hother _ ↦ .inl hother) h.lock
      cases outcome with
      | done => exact (hfill _).setThread nofun
      | failed e moved => exact (hfill moved).fail e
    · exact h.store _
    · exact h.unclaim _

theorem Usable.section (h : Usable w) {α : Type} {sec : Exec α} {next : α → World × Reply}
    (hpanic : ∀ reason, sec = .error reason → ∃ key obj, w.state.objects.find? key = some obj)
    (hnext : ∀ a, w.poisoned = false → sec = .ok a → Usable (next a).1) :
    Usable (w.section sec next).1 := by
  unfold World.section
  split_ifs with hlock
  · exact h
  · cases sec with
    | error reason => exact h.poison (hpanic reason rfl)
    | ok a => exact hnext a (Bool.eq_false_of_not_eq_true hlock) rfl

theorem Usable.beginPut (h : Usable w) (key : Key) (op : OpPut) :
    Usable (w.beginPut key op).1 := by
  unfold World.beginPut
  cases op.validate with
  | error e => exact h
  | ok _ =>
    refine h.section nofun fun a hlock ha ↦ ?_
    cases ha
    cases hclaim : w.state.claim key op.spec with
    | error e => exact h
    | ok pair =>
      have hstate := h.setState hlock pair.2 fun d hsome ↦ by
        rw [claim_fifo hclaim]
        exact hsome
      have hcount : Usable { w with state := pair.2, nextPut := w.nextPut + 1 } :=
        ⟨hstate.queued, hstate.pooled, hstate.lock⟩
      exact hcount.setThread nofun

theorem Usable.publish (h : Usable w) (key : Key) (op : OpPublish) :
    Usable (w.publish key op).1 := by
  unfold World.publish
  cases op.validate with
  | error e => exact h
  | ok pair =>
    refine h.section (fun reason hpanic ↦ publish_error hpanic) fun a hlock ha ↦ ?_
    cases a with
    | error e => exact h
    | ok st =>
      refine h.setState hlock st fun d hsome ↦ ?_
      rw [publish_fifo ha]
      exact hsome

theorem Usable.removeKeys (h : Usable w) (keys : List Key) (reply : Reply) :
    Usable (w.removeKeys keys reply).1 := by
  refine h.section nofun fun a hlock ha ↦ ?_
  cases ha
  exact (h.setState hlock { w.state with objects := (Local.removeKeys keys w.state.objects).2 }
    fun _ hsome ↦ hsome).release _

theorem Usable.beginGet (h : Usable w) (key : Key) (op : OpGet) :
    Usable (w.beginGet inner key op).1 := by
  unfold World.beginGet
  cases op.validate with
  | error e => exact h
  | ok pair =>
    refine h.section (fun reason hpanic ↦ select_error hpanic) fun a hlock ha ↦ ?_
    cases a with
    | error e => exact h
    | ok found => exact ⟨h.queued, h.pooled, h.lock⟩

/-- Every step keeps the lock usable. -/
theorem Usable.exec (h : Usable w) {mem' : ByteSpace} {action : Action} {r : Reply}
    (hexec : w.exec inner mem action = some (w', mem', r)) : Usable w' := by
  cases action with
  | beginPut key op =>
    cases hexec
    exact h.beginPut key op
  | advance t outcome =>
    obtain ⟨th, hth, heq⟩ := Option.map_eq_some_iff.mp hexec
    cases heq
    exact h.advance hth outcome
  | publish key op =>
    cases hexec
    exact h.publish key op
  | remove keys =>
    cases hexec
    exact h.removeKeys keys _
  | removePrefix start =>
    cases hexec
    exact h.removeKeys _ _
  | retireRegion regionId =>
    cases hexec
    refine h.section nofun fun a hlock ha ↦ ?_
    cases ha
    exact h.setState hlock (w.state.retireRegion regionId) fun _ hsome ↦ hsome
  | beginGet key op =>
    cases hexec
    exact h.beginGet key op
  | finishGet k outcome =>
    obtain ⟨rd, _, heq⟩ := Option.map_eq_some_iff.mp hexec
    cases heq
    have hread : Usable { w with readers := w.readers.eraseIdx k } :=
      ⟨h.queued, h.pooled, h.lock⟩
    exact hread.release _
  | userWrite addr bytes =>
    cases hexec
    exact h

end Usable

/-! ### Capacities -/

/-- The pools are those the backend was made with. -/
def Sized (inner : Inner) (bytes : UInt16 → ℕ) (w : World) : Prop :=
  ∀ numa, (w.pools numa).map PinnedPool.len =
    if numa ∈ inner.poolOrder then some (PinnedPool.new numa (bytes numa)).len else none

section Sized

variable {inner : Inner} {bytes : UInt16 → ℕ} {mem : ByteSpace} {w w' : World}

theorem map_len_releaseBufs (pools : Pools) (bs : List PinnedBuf) (numa : UInt16) :
    (releaseBufs pools bs numa).map PinnedPool.len = (pools numa).map PinnedPool.len := by
  unfold releaseBufs
  induction bs generalizing pools with
  | nil => rfl
  | cons b bs ih =>
    rw [List.foldl_cons, ih (releaseBuf pools b)]
    change (Function.update pools b.numa _ numa).map _ = _
    by_cases heq : numa = b.numa
    · subst heq
      rw [Function.update_self, Option.map_map]
      rfl
    · rw [Function.update_of_ne heq]

theorem Sized.shed (h : Sized inner bytes w) {bs : List PinnedBuf} (hshed : Shed w w' bs) :
    Sized inner bytes w' := by
  intro numa
  rw [hshed.pools, map_len_releaseBufs]
  exact h numa

theorem Sized.stepped {live : List PinnedBuf} (h : Sized inner bytes w) (hsound : Sound w live)
    {action : Action} {r : World × Reply} (hstep : Stepped inner mem w action r) :
    Sized inner bytes r.1 := by
  cases hstep with
  | shed _ hshed => exact h.shed hshed
  | began => exact h
  | returned hth hend =>
    exact h.shed (shed_endThread hsound.exclusive hth ((hsound.paced _ _ hth).bufs_of_end hend))
  | advanced _ _ hadvanced =>
    cases hadvanced with
    | shed _ hshed => exact h.shed hshed
    | unwound _ hshed => exact h.shed hshed
    | @allocated _ numa pool after buf pc _ _ hpool halloc =>
      intro other
      change (Function.update w.pools numa (some after) other).map _ = _
      by_cases heq : other = numa
      · subst heq
        rw [Function.update_self, ← h other, hpool]
        exact congrArg some halloc.len_after
      · rw [Function.update_of_ne heq]
        exact h other
    | copied => exact h
    | @spilled _ _ x _ moved _ _ _ _ hshed => exact Sized.shed (w := w.fill x.buf moved) h hshed
    | stored => exact h
    | unclaimed => exact h

theorem sized_initial (inner : Inner) (bytes : UInt16 → ℕ) :
    Sized inner bytes (World.initial inner bytes) := by
  intro numa
  change Option.map PinnedPool.len (if numa ∈ inner.poolOrder then some _ else none) = _
  split_ifs <;> rfl

end Sized

/-! ### Runs -/

/-- Every pool could be mapped: its size is not zero and is a number of bytes. -/
def Mapped (inner : Inner) (bytes : UInt16 → ℕ) : Prop :=
  ∀ numa ∈ inner.poolOrder, 0 < bytes numa ∧ (PinnedPool.new numa (bytes numa)).len < 2 ^ 64

section Runs

variable {inner : Inner} {bytes : UInt16 → ℕ} {n : Node}

theorem Mapped.len_pos (h : Mapped inner bytes) {numa : UInt16} (hnuma : numa ∈ inner.poolOrder) :
    0 < (PinnedPool.new numa (bytes numa)).len :=
  lt_of_lt_of_le (h numa hnuma).1 (le_divCeil_mul _)

theorem usable_initial (inner : Inner) (bytes : UInt16 → ℕ) :
    Usable (World.initial inner bytes) where
  queued := by
    intro numa hsome
    unfold World.initial at hsome ⊢
    dsimp only at hsome ⊢
    split_ifs at hsome ⊢
    · rfl
    · exact hsome
  pooled := fun _ _ _ _ _ hth ↦ by cases hth
  lock := fun hlock ↦ by cases hlock

theorem run_usable {history : List Event} (hrun : (backend inner bytes).Run history n) :
    Usable n.world :=
  run_invariant_of_step (I := fun n ↦ Usable n.world) (usable_initial inner bytes)
    (fun _ _ _ _ _ _ _ h hstep ↦ h.exec hstep.exec) hrun

theorem run_sized {history : List Event} (hrun : (backend inner bytes).Run history n) :
    Sized inner bytes n.world :=
  run_invariant_of_step (I := fun n ↦ Sized inner bytes n.world) (sized_initial inner bytes)
    (fun _ _ _ _ _ hsound _ h hstep ↦ h.stepped hsound hstep.stepped) hrun

theorem coalesced_initial (hmapped : Mapped inner bytes) :
    Coalesced (World.initial inner bytes) where
  tight := by
    intro numa pool hpool
    unfold World.initial at hpool
    dsimp only at hpool
    split_ifs at hpool with hnuma
    cases hpool
    exact tight_cons.mpr ⟨nofun, hmapped.len_pos hnuma, List.Pairwise.nil, nofun⟩
  reserved := by
    intro b howns
    rcases howns with hb | ⟨_, _, hth, _⟩
    · exact absurd hb List.not_mem_nil
    · cases hth
  asked := fun _ _ hth ↦ by cases hth

theorem run_coalesced (hmapped : Mapped inner bytes) {history : List Event}
    (hrun : ((backend inner bytes).restrict fun _ e ↦ e.action.AsksBytes).Run history n)
    (hround : Rounded inner history) : Coalesced n.world := by
  refine System.Run.induction (S := (backend inner bytes).restrict fun _ e ↦ e.action.AsksBytes)
    (I := fun history n ↦ Rounded inner history → Coalesced n.world)
    (fun _ ↦ coalesced_initial hmapped) ?_ hrun hround
  intro history n e n' hrun hn ⟨hasks, hstep⟩ hround
  obtain ⟨live, hsound⟩ := run_sound hrun.of_restrict
  exact (hn hround.init).stepped hsound (run_fitting hrun.of_restrict hround.init) hasks
    (isStep_of_step hsound hstep).stepped

/-- A pool that is one free range takes a slot of any length up to its capacity. -/
theorem alloc_of_whole (checks : Bool) {pool : PinnedPool} (hfree : pool.free = [(0, pool.len)])
    (hlt : pool.len < 2 ^ 64) {units : ℕ} (hunits : pool.len = units * ALIGN) {len : ℕ}
    (hlen : len ≤ pool.capacity) (id : ℕ) :
    ∃ buf after, pool.alloc checks id len = .ok (some (buf, after)) := by
  have hneed : divCeil len ALIGN * ALIGN ≤ pool.len := by
    rw [hunits]
    refine Nat.mul_le_mul_right _ (divCeil_le ?_)
    rw [← hunits]
    exact hlen
  have hround : roundUp checks len = .ok (divCeil len ALIGN * ALIGN) :=
    roundUp_of_lt (lt_of_le_of_lt hneed hlt)
  have hrange : (0, pool.len) ∈ pool.free := by
    rw [hfree]
    exact List.mem_cons_self
  exact PinnedPool.alloc_of_fits hround hrange hneed

/-- Without objects and operations in flight every pool is one free range. -/
theorem free_of_empty {live : List PinnedBuf} (hsound : Sound n.world live)
    (hcoalesced : Coalesced n.world) (hquiescent : n.world.Quiescent)
    (hempty : ∀ key, n.world.state.objects.find? key = none) {numa : UInt16} {pool : PinnedPool}
    (hpool : n.world.pools numa = some pool) (hlen : 0 < pool.len) :
    pool.free = [(0, pool.len)] := by
  have hnone : live = [] := by
    refine List.eq_nil_iff_forall_not_mem.mpr fun b hb ↦ ?_
    rcases hsound.exclusive.owned b hb with hheld | ⟨t, th, hth, _⟩
    · unfold World.held at hheld
      rw [hquiescent.2, List.map_nil, bufsOf, List.filterMap_nil, List.append_nil] at hheld
      obtain ⟨entry, hentry, _⟩ := List.mem_flatMap.mp hheld
      have hfind := (SortedMap.mem_entries_iff _).mp hentry
      rw [hempty entry.1] at hfind
      cases hfind
    · rw [hquiescent.1 t] at hth
      cases hth
  refine (hcoalesced.tight numa pool hpool).eq_singleton hlen fun x ↦ ?_
  have hpart := hsound.exclusive.pools.partition numa pool hpool x
  rw [hnone] at hpart
  exact hpart

/-- A slot that asks for a pool in which there is room lands, when no object is there. -/
theorem put_lands (husable : Usable n.world)
    (hempty : ∀ key, n.world.state.objects.find? key = none) {numa : UInt16} {pool : PinnedPool}
    (hnuma : numa ∈ inner.poolOrder) (hpool : n.world.pools numa = some pool) {key : Key}
    {retention : Retention} {ps : PutSlot} (hstrict : ps.spec.placement = .strict (.cpu numa))
    (hvalid : (⟨retention, [ps]⟩ : OpPut).validate = .ok ())
    (halloc : ∃ buf after,
      pool.alloc inner.checks n.world.nextBuf ps.spec.len = .ok (some (buf, after))) :
    ∃ fuel w', n.world.put inner n.mem fuel key ⟨retention, [ps]⟩ =
      (w', .put (.ok ⟨[.ok ()]⟩)) := by
  obtain ⟨buf, after, halloc⟩ := halloc
  have hlock : n.world.poisoned = false := by
    refine Bool.eq_false_of_not_eq_true fun hpoisoned ↦ ?_
    obtain ⟨other, obj, hfind⟩ := husable.lock hpoisoned
    rw [hempty other] at hfind
    cases hfind
  obtain ⟨queue, hqueue⟩ := Option.isSome_iff_exists.mp
    (husable.queued numa (by rw [hpool]; rfl))
  let spec : ObjectSpec := ⟨retention, [ps.spec]⟩
  let claimed : State := { n.world.state with
    objects := n.world.state.objects.insert key ((Object.fresh spec).mapSlots Slot.claim) }
  have hclaim : n.world.state.claim key spec = .ok ([true], claimed) := by
    unfold State.claim State.entry
    rw [hempty key]
    exact if_neg (not_not.mpr rfl)
  have hstore : ∃ st, claimed.store key 0 [⟨numa, false, buf⟩] = .ok (.ok st) := by
    obtain ⟨st, hst, _⟩ := exists_store claimed 0 [⟨numa, false, buf⟩]
      (SortedMap.find?_insert_self ..) (show _ = some ⟨[], true⟩ from rfl) fun p hp ↦ by
        rw [List.mem_singleton.mp hp]
        exact husable.queued numa (by rw [hpool]; rfl)
    exact ⟨st, hst⟩
  obtain ⟨st, hstore⟩ := hstore
  have htargets : inner.targets ps.spec.placement = .ok [(numa, false)] := by
    rw [hstrict]
    change (inner.numaOf (.cpu numa) >>= _) = _
    rw [Inner.numaOf, if_pos hnuma]
    rfl
  have htakes : Takes inner.checks ps.spec.len
      (needed (isEach ps.spec.placement) [(numa, false)]) n.world.pools n.world.nextBuf
      [⟨numa, false, buf⟩] (Function.update n.world.pools numa (some after))
      (n.world.nextBuf + 1) := by
    rw [hstrict]
    exact .cons hpool halloc .nil
  obtain ⟨fuel, hput⟩ := put_returns hvalid hlock hclaim (leads_land rfl rfl rfl htargets htakes
    (List.cons_ne_nil _ _) hlock hstore) rfl
  exact ⟨fuel, _, hput⟩

/-- When no `put` asks for an empty slot and no length wraps around, whatever ran in between:
without objects and operations in flight every pool is one free range again, and a `Strict` slot of
any length up to its capacity lands. -/
theorem whole_pool_free_again (hmapped : Mapped inner bytes) {history : List Event}
    (hrun : ((backend inner bytes).restrict fun _ e ↦ e.action.AsksBytes).Run history n)
    (hround : Rounded inner history) (hquiescent : n.world.Quiescent)
    (hempty : ∀ key, n.world.state.objects.find? key = none)
    {numa : UInt16} (hnuma : numa ∈ inner.poolOrder) :
    ∃ pool, n.world.pools numa = some pool ∧
      pool.capacity = (PinnedPool.new numa (bytes numa)).capacity ∧
      pool.free = [(0, pool.capacity)] ∧
      ∀ key retention ps, ps.spec.placement = .strict (.cpu numa) → ps.spec.len ≤ pool.capacity →
        (⟨retention, [ps]⟩ : OpPut).validate = .ok () →
          ∃ fuel w', n.world.put inner n.mem fuel key ⟨retention, [ps]⟩ =
            (w', .put (.ok ⟨[.ok ()]⟩)) := by
  have hfree : (backend inner bytes).Run history n := System.Run.of_restrict hrun
  obtain ⟨live, hsound⟩ := run_sound hfree
  have hsized := run_sized hfree numa
  rw [if_pos hnuma] at hsized
  obtain ⟨pool, hpool, hlen⟩ := Option.map_eq_some_iff.mp hsized
  have hpos : 0 < pool.len := by
    rw [hlen]
    exact hmapped.len_pos hnuma
  have hwhole := free_of_empty hsound (run_coalesced hmapped hrun hround) hquiescent hempty hpool
    hpos
  refine ⟨pool, hpool, hlen, hwhole, fun key retention ps hstrict hle hvalid ↦ ?_⟩
  refine put_lands (run_usable hfree) hempty hnuma hpool hstrict hvalid ?_
  exact alloc_of_whole _ hwhole (by rw [hlen]; exact (hmapped numa hnuma).2) hlen hle _

end Runs

namespace Scenario

theorem region_fits : 0 + 2 * ALIGN ≤ 2 ^ 64 := by decide

/-- User memory as large as the pool, at address 0. -/
def region : MemoryRegion := ⟨2, 0, 2 * ALIGN, .cpu 0, region_fits⟩

/-- A slot as large as the pool. -/
def wholeSlot : PutSlot := ⟨⟨2 * ALIGN, .strict (.cpu 0)⟩, [⟨region, 0, 2 * ALIGN⟩]⟩

theorem mapped : Mapped Scenario.inner Scenario.bytes := by
  intro numa _
  change 0 < 2 * ALIGN ∧ divCeil (2 * ALIGN) ALIGN * ALIGN < 2 ^ 64
  decide

end Scenario

open Scenario in
/-- After a `put` of eight bytes and their removal a slot of the capacity of the pool lands. -/
theorem whole_pool_free_again_removed : ∃ history n fuel w',
    ((backend Scenario.inner Scenario.bytes).restrict fun _ e ↦ e.action.AsksBytes).Run history n ∧
      history.length = 9 ∧
      n.world.put Scenario.inner n.mem fuel key ⟨.cache, [wholeSlot]⟩ =
        (w', .put (.ok ⟨[.ok ()]⟩)) := by
  let first : Action := .beginPut key ⟨.cache, [slotOn (.strict (.cpu 0)) 8]⟩
  let rest : List Action := advance 0 7 ++ [.remove [key]]
  have hcheck : (replay (Node.next Scenario.inner) (first :: rest)
      (backend Scenario.inner Scenario.bytes).start).any (fun r ↦ decide (r.1.length = 9) &&
        r.2.world.idle && r.2.world.readers.isEmpty &&
          r.2.world.state.objects.entries.isEmpty) = true := by decide +kernel
  obtain ⟨⟨history, n⟩, hreplay, hn⟩ := (Option.any_eq_true _ _).mp hcheck
  simp only [Bool.and_eq_true, decide_eq_true_eq, List.isEmpty_iff] at hn
  obtain ⟨⟨⟨hlength, hidle⟩, hreaders⟩, hentries⟩ := hn
  have hrun : ((backend Scenario.inner Scenario.bytes).restrict fun _ e ↦ e.action.AsksBytes).Run
      history n := by
    refine run_of_actions (fun e he ↦ ?_) (fun _ e he ↦ ?_) hreplay
    · rw [he]
      intro ps hps
      rw [List.mem_singleton.mp hps]
      decide
    · rcases List.mem_append.mp he with he | he
      · rw [List.eq_of_mem_replicate he]
        trivial
      · rw [List.mem_singleton.mp he]
        trivial
  obtain ⟨live, hsound⟩ := run_sound (System.Run.of_restrict hrun)
  have hempty : ∀ key, n.world.state.objects.find? key = none := by
    intro key
    unfold SortedMap.find?
    rw [hentries]
    rfl
  obtain ⟨pool, _, hcapacity, _, hlands⟩ := whole_pool_free_again mapped hrun (.inl rfl)
    ⟨hsound.threads_of_idle hidle, hreaders⟩ hempty (List.mem_singleton_self 0)
  obtain ⟨fuel, w', hput⟩ := hlands key .cache wholeSlot rfl (by rw [hcapacity]; decide)
    (by decide +kernel)
  exact ⟨history, n, fuel, w', hrun, hlength, hput⟩

/-! ### Empty slots -/

/-- The action begins an operation. -/
def Action.begins : Action → Bool
  | .advance _ _ | .finishGet _ _ | .userWrite _ _ => false
  | _ => true

/-- An operation begins only when no other one is in flight. -/
def InTurn (n : Node) (action : Action) : Prop :=
  action.begins = true → n.world.idle = true ∧ n.world.readers = []

/-- One action, if it is its turn. -/
def Node.nextInTurn (inner : Inner) (n : Node) (action : Action) : Option (Event × Node) :=
  if action.begins && !(n.world.idle && n.world.readers.isEmpty) then none else n.next inner action

theorem step_of_nextInTurn {inner : Inner} {bytes : UInt16 → ℕ} {n n' : Node} {action : Action}
    {e : Event} (h : n.nextInTurn inner action = some (e, n')) :
    ((backend inner bytes).restrict fun n e ↦ InTurn n e.action).step n e n' := by
  unfold Node.nextInTurn at h
  split_ifs at h with hturn
  refine ⟨fun hbegins ↦ ?_, step_of_next h⟩
  rw [action_of_next h] at hbegins
  rw [hbegins, Bool.true_and, Bool.not_eq_true, Bool.not_eq_false', Bool.and_eq_true,
    List.isEmpty_iff] at hturn
  exact hturn

namespace Scenario

/-- An empty slot and one of eight bytes under two keys, removed in the order they came. -/
def emptySlotRemoved : List Action :=
  [.beginPut [1] ⟨.cache, [slotOn (.strict (.cpu 0)) 0]⟩] ++ advance 0 7 ++
    [.beginPut [2] ⟨.cache, [slotOn (.strict (.cpu 0)) 8]⟩] ++ advance 1 7 ++
    [.remove [[1]], .remove [[2]]]

/-- The slots of a `put` that returned, by kind. -/
def kindsOf : Reply → Option (List (Option ErrorKind))
  | .put (.ok rp) => some rp.kinds
  | _ => none

end Scenario

open Scenario in
/-- After a `put` of an empty slot and of another one, each removed before anything else begins, the
pool is empty but in pieces, and a slot of its capacity does not fit. -/
theorem empty_slot_splits_pool : ∃ history n pool,
    ((backend Scenario.inner Scenario.bytes).restrict fun n e ↦ InTurn n e.action).Run history n ∧
      n.world.Quiescent ∧ (∀ key, n.world.state.objects.find? key = none) ∧
      n.world.pools 0 = some pool ∧ pool.free ≠ [(0, pool.capacity)] ∧
      wholeSlot.spec.len = pool.capacity ∧ (⟨.cache, [wholeSlot]⟩ : OpPut).validate = .ok () ∧
      kindsOf (n.world.put Scenario.inner n.mem 20 key ⟨.cache, [wholeSlot]⟩).2 =
        some [some .noSpace] := by
  let check (n : Node) : Bool :=
    n.world.idle && n.world.readers.isEmpty && n.world.state.objects.entries.isEmpty &&
      decide (kindsOf (n.world.put Scenario.inner n.mem 20 key ⟨.cache, [wholeSlot]⟩).2 =
        some [some .noSpace]) &&
      (n.world.pools 0).any fun pool ↦ decide (pool.free ≠ [(0, pool.capacity)]) &&
        decide (wholeSlot.spec.len = pool.capacity)
  have hcheck : (replay (Node.nextInTurn Scenario.inner) emptySlotRemoved
      (backend Scenario.inner Scenario.bytes).start).any (fun r ↦ check r.2) = true := by
    decide +kernel
  obtain ⟨⟨history, n⟩, hreplay, hn⟩ := (Option.any_eq_true _ _).mp hcheck
  have hrun : ((backend Scenario.inner Scenario.bytes).restrict fun n e ↦ InTurn n e.action).Run
      history n := steps_of_replay (fun _ _ _ _ ↦ step_of_nextInTurn) _ hreplay
  obtain ⟨live, hsound⟩ := run_sound (System.Run.of_restrict hrun)
  simp only [check, Bool.and_eq_true, decide_eq_true_eq, List.isEmpty_iff] at hn
  obtain ⟨⟨⟨⟨hidle, hreaders⟩, hentries⟩, hkinds⟩, hpool⟩ := hn
  obtain ⟨pool, hsome, hpieces⟩ := (Option.any_eq_true _ _).mp hpool
  rw [Bool.and_eq_true, decide_eq_true_iff, decide_eq_true_iff] at hpieces
  refine ⟨history, n, pool, hrun, ⟨hsound.threads_of_idle hidle, hreaders⟩, fun key ↦ ?_, hsome,
    hpieces.1, hpieces.2, by decide +kernel, hkinds⟩
  unfold SortedMap.find?
  rw [hentries]
  rfl

end Pegastore.Local
