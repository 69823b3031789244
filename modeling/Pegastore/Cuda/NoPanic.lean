import Pegastore.Cuda.Actions
import Pegastore.Cuda.AllocOrEvict
import Pegastore.Cuda.Flags
import Pegastore.Cuda.Stored

/-!
# When no step panics

A section panics where it indexes a slot that is not there or unwraps a queue that is not there, an
allocation where its round-up overflows. A panic inside a section poisons the lock, and then every
operation panics. This file says which use of the store excludes all of it, whatever runs at the
same time.

A queue entry and a `put` in flight name slots of the object that was there when they came about;
the object may be removed and another one created under the same key. `Fits` says that a number of
slots was once asked for under a key and that the object there has as many; when the number of slots
under a key never goes down from one `put` to a later one, every entry and every `put` in flight
fits in every state (`Indexed`), and no step panics (`run_never_panics`). Putting fewer slots under
a key that was removed is exactly what breaks it.
-/

set_option autoImplicit false
set_option relaxedAutoImplicit false

namespace Pegastore.Local

open Outcome ByteMemory Transition

/-! ### Sections that return -/

section Sections

variable {st : State} {device : Device} {key : Key} {i : ℕ}

/-- An index below the number of slots asked for is the index of a slot. -/
theorem Object.exists_slot {obj : Object} (hi : i < obj.spec.slots.length) :
    ∃ slot, obj.slots[i]? = some slot :=
  ⟨_, List.getElem?_eq_getElem (by rwa [obj.slots_length])⟩

/-- The entry names a slot of the object that is there. -/
def InRange (objects : Objects) (entry : FifoEntry) : Prop :=
  ∀ spec, specAt objects entry.1 = some spec → entry.2.toNat < spec.slots.length

theorem exists_evictEntry {objects : Objects} {entry : FifoEntry} (h : InRange objects entry) :
    ∃ popped, evictEntry device entry objects = .ok popped := by
  unfold evictEntry
  cases hfind : objects.find? entry.1 with
  | none => exact ⟨_, rfl⟩
  | some obj =>
    dsimp only
    split_ifs with hret
    · exact ⟨_, rfl⟩
    · obtain ⟨slot, hslot⟩ := Object.exists_slot (h obj.spec (specAt_of_find? hfind))
      rw [index_eq_ok.mpr hslot]
      exact ⟨_, rfl⟩

/-- A round over entries that are all in range returns: what it reclaims takes no entry out of
range. -/
theorem exists_evictLoop {protect : Key} (queue : List FifoEntry) :
    ∀ {objects : Objects} {deferred : List FifoEntry}, (∀ entry ∈ queue, InRange objects entry) →
      ∃ round, evictLoop device protect queue objects deferred = .ok round := by
  induction queue with
  | nil =>
    intro objects deferred _
    exact ⟨_, rfl⟩
  | cons entry queue ih =>
    intro objects deferred hrange
    have hrest : ∀ e ∈ queue, InRange objects e := fun e he ↦ hrange e (List.mem_cons_of_mem _ he)
    unfold evictLoop
    split_ifs with hprotect
    · exact ih hrest
    · obtain ⟨popped, hpopped⟩ := exists_evictEntry (hrange entry List.mem_cons_self)
      rw [hpopped, ok_bind]
      split_ifs with hevicted
      · exact ⟨_, rfl⟩
      · exact ih fun e he spec hspec ↦
          hrest e he spec ((evictEntry_evicts hpopped).spec_of_after e.1 spec hspec)

theorem exists_evictRound {protect : Key} (hqueue : (st.fifo device).isSome = true)
    (hrange : ∀ queue, st.fifo device = some queue → ∀ entry ∈ queue, InRange st.objects entry) :
    ∃ r, st.evictRound device protect = .ok r := by
  obtain ⟨queue, hsome⟩ := Option.isSome_iff_exists.mp hqueue
  obtain ⟨round, hround⟩ : ∃ round, evictLoop device protect queue st.objects [] = .ok round :=
    exists_evictLoop queue (hrange queue hsome)
  unfold State.evictRound
  rw [unwrap_eq_ok.mpr hsome, ok_bind, hround]
  exact ⟨_, rfl⟩

/-- A store returns where the object that is there has the slot, whether or not there is one. -/
theorem store_returns {placed : List Placed}
    (hi : ∀ spec, specAt st.objects key = some spec → i < spec.slots.length)
    (hqueues : ∀ p ∈ placed, (st.fifo (.cpu p.numa)).isSome = true) :
    ∃ r, st.store key i placed = .ok r := by
  cases hfind : st.objects.find? key with
  | none =>
    unfold State.store
    rw [hfind]
    exact ⟨_, rfl⟩
  | some obj =>
    obtain ⟨slot, hslot⟩ := Object.exists_slot (hi obj.spec (specAt_of_find? hfind))
    obtain ⟨st', hst', _⟩ := exists_store st i placed hfind hslot hqueues
    exact ⟨_, hst'⟩

theorem unclaim_returns (hi : ∀ spec, specAt st.objects key = some spec → i < spec.slots.length) :
    ∃ st', st.unclaim key i = .ok st' := by
  cases hfind : st.objects.find? key with
  | none =>
    unfold State.unclaim
    rw [hfind]
    exact ⟨_, rfl⟩
  | some obj =>
    obtain ⟨slot, hslot⟩ := Object.exists_slot (hi obj.spec (specAt_of_find? hfind))
    exact ⟨_, exists_unclaim hfind hslot⟩

theorem publish_returns {op : OpPublish} {total : ℕ} (hsrc : op.src ≠ []) :
    ∃ r, st.publish key op device total = .ok r := by
  unfold State.publish
  cases hfind : st.objects.find? key with
  | none => exact ⟨_, rfl⟩
  | some obj =>
    dsimp only
    cases hspec : obj.spec.slots[op.slot.toNat]? with
    | none => exact ⟨_, rfl⟩
    | some spec =>
      dsimp only
      split_ifs with hlen
      · exact ⟨_, rfl⟩
      · obtain ⟨slot, hslot⟩ := Object.exists_slot (List.getElem?_eq_some_iff.mp hspec).1
        obtain ⟨first, rest, hcons⟩ := List.exists_cons_of_ne_nil hsrc
        rw [index_eq_ok.mpr hslot, ok_bind, hcons]
        exact ⟨_, rfl⟩

theorem select_returns (inner : Inner) : ∃ r, st.select inner key i device = .ok r := by
  unfold State.select
  cases hfind : st.objects.find? key with
  | none => exact ⟨_, rfl⟩
  | some obj =>
    dsimp only
    cases hspec : obj.spec.slots[i]? with
    | none => exact ⟨_, rfl⟩
    | some spec =>
      dsimp only
      obtain ⟨slot, hslot⟩ := Object.exists_slot (List.getElem?_eq_some_iff.mp hspec).1
      rw [index_eq_ok.mpr hslot, ok_bind]
      cases nearest inner device slot.replicas with
      | none => exact ⟨_, rfl⟩
      | some replica => exact ⟨_, rfl⟩

/-- An allocation whose round-up does not overflow returns, with a buffer or without. -/
theorem PinnedPool.alloc_returns (checks : Bool) (pool : PinnedPool) (id : ℕ) {bytes : ℕ}
    (h : bytes + ALIGN ≤ 2 ^ 64) : ∃ taken, pool.alloc checks id bytes = .ok taken := by
  unfold PinnedPool.alloc
  rw [roundUp_of_lt (divCeil_mul_lt h), ok_bind]
  cases hfind : pool.free.findIdx? fun r ↦ r.2 ≥ divCeil bytes ALIGN * ALIGN with
  | none => exact ⟨_, rfl⟩
  | some k =>
    obtain ⟨hlt, _⟩ := List.findIdx?_eq_some_iff_getElem.mp hfind
    dsimp only
    rw [index_eq_ok.mpr (List.getElem?_eq_getElem hlt)]
    exact ⟨_, rfl⟩

end Sections

/-! ### What the indices rest on -/

/-- At least `count` slots were asked for under the key, and the object there has as many. -/
structure Fits (history : List Event) (objects : Objects) (key : Key) (count : ℕ) : Prop where
  asked : ∃ e ∈ history, ∃ op, e.action = .beginPut key op ∧ count ≤ op.slots.length
  present : ∀ spec, specAt objects key = some spec → count ≤ spec.slots.length

/-- Every queue entry and every `put` in flight fits. -/
structure Indexed (history : List Event) (w : World) : Prop where
  queued : ∀ device queue, w.state.fifo device = some queue → ∀ entry ∈ queue,
    Fits history w.state.objects entry.1 (entry.2.toNat + 1)
  running : ∀ t th, w.threads t = some th →
    Fits history w.state.objects th.key th.op.slots.length

/-- A later `put` has no fewer slots than an earlier one under the same key. -/
def Action.NoFewer : Action → Action → Prop
  | .beginPut key op, .beginPut key' op' => key = key' → op.slots.length ≤ op'.slots.length
  | _, _ => True

section Indexed

variable {inner : Inner} {mem : ByteSpace} {w w' : World} {history : List Event} {e : Event}

/-- A spec that is there was there, or a `put` under its key created the object. -/
theorem Stepped.specAt_cases {action : Action} {r : World × Reply}
    (hstep : Stepped inner mem w action r) {key : Key} {spec : ObjectSpec}
    (hspec : specAt r.1.state.objects key = some spec) :
    specAt w.state.objects key = some spec ∨
      ∃ op, action = .beginPut key op ∧ op.spec = spec := by
  cases hstep with
  | shed _ hshed => exact .inl (hshed.lossy.spec key spec hspec)
  | @began key' op writable st _ hclaim =>
    have hclaimed := claim_claimed hclaim
    change specAt st.objects key = some spec at hspec
    by_cases heq : key' = key
    · subst heq
      rw [hclaimed.specAt_key, Option.some.injEq] at hspec
      exact .inr ⟨op, rfl, hspec⟩
    · exact .inl (by rwa [hclaimed.specAt_ne key heq] at hspec)
  | returned => exact .inl hspec
  | advanced _ _ hadvanced =>
    cases hadvanced with
    | shed _ hshed => exact .inl (hshed.lossy.spec key spec hspec)
    | unwound _ hshed => exact .inl (hshed.lossy.spec key spec hspec)
    | allocated => exact .inl hspec
    | copied => exact .inl hspec
    | spilled _ _ _ _ hstate => exact .inl (by rwa [hstate] at hspec)
    | stored _ hstore => exact .inl (by rwa [← (store_rewritten hstore).1.specAt_eq key])
    | unclaimed _ hunclaim => exact .inl (by rwa [← (unclaim_rewritten hunclaim).specAt_eq key])

/-- What fits goes on to fit when no `put` asks for fewer slots than an earlier one. -/
theorem Fits.step {key : Key} {count : ℕ} (h : Fits history w.state.objects key count)
    (hstep : Stepped inner mem w e.action (w', e.reply))
    (hmore : ∀ first ∈ history, first.action.NoFewer e.action) :
    Fits (history ++ [e]) w'.state.objects key count where
  asked := by
    obtain ⟨first, hfirst, op, haction, hle⟩ := h.asked
    exact ⟨first, List.mem_append_left _ hfirst, op, haction, hle⟩
  present := by
    intro spec hspec
    rcases hstep.specAt_cases hspec with hold | ⟨op, haction, rfl⟩
    · exact h.present spec hold
    · obtain ⟨first, hfirst, op', haction', hle⟩ := h.asked
      have hmore' := hmore first hfirst
      rw [haction', haction] at hmore'
      rw [OpPut.spec, List.length_map]
      exact hle.trans (hmore' rfl)

/-- A queued entry was queued, or a `put` in flight stored the slot it names. -/
theorem enqueueAll_cases {kb : Key} {i : ℕ} {other : Device} {after : List FifoEntry}
    {entry : FifoEntry} (placed : List Placed) : ∀ {st st' : State},
      placed.foldlM (fun st p ↦ st.enqueue kb i (.cpu p.numa)) st = .ok st' →
      st'.fifo other = some after → entry ∈ after →
        (∃ queue, st.fifo other = some queue ∧ entry ∈ queue) ∨ entry = (kb, UInt32.ofNat i) := by
  induction placed with
  | nil =>
    intro st st' h hafter hentry
    cases h
    exact .inl ⟨after, hafter, hentry⟩
  | cons p placed ih =>
    intro st st' h hafter hentry
    rw [List.foldlM_cons] at h
    obtain ⟨middle, hfirst, hrest⟩ := bind_eq_ok.mp h
    refine (ih hrest hafter hentry).elim (fun hold ↦ ?_) .inr
    obtain ⟨between, hbetween, hin⟩ := hold
    unfold State.enqueue at hfirst
    obtain ⟨queue, hqueue, hfirst⟩ := bind_eq_ok.mp hfirst
    cases hfirst
    change Function.update st.fifo (.cpu p.numa) _ other = _ at hbetween
    by_cases heq : other = .cpu p.numa
    · subst heq
      rw [Function.update_self, Option.some.injEq] at hbetween
      subst hbetween
      rcases List.mem_append.mp hin with hold | hnew
      · exact .inl ⟨queue, unwrap_eq_ok.mp hqueue, hold⟩
      · exact .inr (List.mem_singleton.mp hnew)
    · rw [Function.update_of_ne heq] at hbetween
      exact .inl ⟨between, hbetween, hin⟩

theorem store_queue_cases {st st' : State} {kb : Key} {i : ℕ} {placed : List Placed}
    {other : Device} {after : List FifoEntry} {entry : FifoEntry}
    (h : st.store kb i placed = .ok (.ok st')) (hafter : st'.fifo other = some after)
    (hentry : entry ∈ after) :
    (∃ queue, st.fifo other = some queue ∧ entry ∈ queue) ∨ entry = (kb, UInt32.ofNat i) := by
  unfold State.store at h
  cases hfind : st.objects.find? kb with
  | none =>
    rw [hfind] at h
    cases h
  | some obj =>
    rw [hfind] at h
    obtain ⟨slot, _, h⟩ := bind_eq_ok.mp h
    obtain ⟨last, hall, h⟩ := bind_eq_ok.mp h
    cases h
    obtain ⟨queue, hqueue, hin⟩ | hnew := enqueueAll_cases placed hall hafter hentry
    · exact .inl ⟨queue, hqueue, hin⟩
    · exact .inr hnew

/-- Every step queues only slots of a `put` in flight. -/
theorem Ran.queue_cases {st : State} (h : Ran w st) {device : Device} {after : List FifoEntry}
    {entry : FifoEntry} (hafter : st.fifo device = some after) (hentry : entry ∈ after) :
    (∃ queue, w.state.fifo device = some queue ∧ entry ∈ queue) ∨
      ∃ t th, w.threads t = some th ∧ entry.1 = th.key ∧
        entry.2.toNat + 1 ≤ th.op.slots.length := by
  cases h with
  | nothing | removed | retired => exact .inl ⟨after, hafter, hentry⟩
  | claimed hclaim => exact .inl ⟨after, by rwa [claim_fifo hclaim] at hafter, hentry⟩
  | unclaimed hunclaim => exact .inl ⟨after, by rwa [unclaim_fifo hunclaim] at hafter, hentry⟩
  | published hpublish => exact .inl ⟨after, by rwa [publish_fifo hpublish] at hafter, hentry⟩
  | @evicted popDevice protect r hround =>
    obtain ⟨popped, rest, hdone⟩ := evictRound_done hround
    rw [hdone.fifo_eq] at hafter
    by_cases heq : device = popDevice
    · subst heq
      rw [Function.update_self, Option.some.injEq] at hafter
      subst hafter
      refine .inl ⟨_, hdone.queue, ?_⟩
      exact (List.mem_append.mp hentry).elim
        (fun hin ↦ List.mem_append_left _ (List.mem_of_mem_filter hin)) (List.mem_append_right _)
    · rw [Function.update_of_ne heq] at hafter
      exact .inl ⟨after, hafter, hentry⟩
  | @stored t th placed st hth hi hstore =>
    rcases store_queue_cases hstore hafter hentry with hold | rfl
    · exact .inl hold
    · refine .inr ⟨t, th, hth, rfl, ?_⟩
      have hmod : (UInt32.ofNat th.i).toNat ≤ th.i := by
        rw [UInt32.toNat_ofNat']
        exact Nat.mod_le _ _
      exact lt_of_le_of_lt hmod hi

theorem Indexed.step (h : Indexed history w) {mem' : ByteSpace}
    (hexec : w.exec inner mem e.action = some (w', mem', e.reply))
    (hstep : Stepped inner mem w e.action (w', e.reply))
    (hmore : ∀ first ∈ history, first.action.NoFewer e.action) :
    Indexed (history ++ [e]) w' where
  queued := by
    intro device queue hqueue entry hentry
    rcases (exec_ran hexec).queue_cases hqueue hentry with
      ⟨old, hold, hin⟩ | ⟨t, th, hth, hkey, hle⟩
    · exact (h.queued device old hold entry hin).step hstep hmore
    · obtain ⟨⟨first, hfirst, op, haction, hcount⟩, hpresent⟩ :=
        (h.running t th hth).step hstep hmore
      rw [hkey]
      exact ⟨⟨first, hfirst, op, haction, hle.trans hcount⟩,
        fun spec hspec ↦ hle.trans (hpresent spec hspec)⟩
  running := by
    intro t th' hth'
    rcases exec_thread_cases hexec hth' with hsame | ⟨th, hold, hgoes⟩ | ⟨haction, _, _, hspec⟩
    · exact (h.running t th' hsame).step hstep hmore
    · rw [hgoes.key_eq, hgoes.op_eq]
      exact (h.running t th hold).step hstep hmore
    · refine ⟨⟨e, List.mem_append_right _ (List.mem_singleton_self e), _, haction, le_rfl⟩, ?_⟩
      intro spec hspec'
      rw [hspec, Option.some.injEq] at hspec'
      rw [← hspec', OpPut.spec, List.length_map]

end Indexed

/-! ### Steps that return -/

/-- The lock is as it should be and the step did not panic. -/
def Returned (r : World × Reply) : Prop :=
  r.1.poisoned = false ∧ ∀ reason, r.2 ≠ .panicked reason

section Returned

variable {inner : Inner} {mem : ByteSpace} {w : World} {t : ℕ} {th : PutThread} {ps : PutSlot}

theorem returned_running {w' : World} (h : w'.poisoned = false) : Returned (w', .running) :=
  ⟨h, fun reason hreply ↦ by cases hreply⟩

theorem returned_locked (hlock : w.poisoned = false) {α : Type} {sec : Exec α}
    {next : α → World × Reply} (hsec : ∃ a, sec = .ok a) (hnext : ∀ a, Returned (next a)) :
    Returned (w.locked t th sec next) := by
  obtain ⟨a, rfl⟩ := hsec
  unfold World.locked
  rw [if_neg (by rw [hlock]; exact Bool.false_ne_true)]
  exact hnext a

theorem returned_section (hlock : w.poisoned = false) {α : Type} {sec : Exec α}
    {next : α → World × Reply} (hsec : ∃ a, sec = .ok a) (hnext : ∀ a, Returned (next a)) :
    Returned (w.section sec next) := by
  obtain ⟨a, rfl⟩ := hsec
  rw [World.section_ok hlock]
  exact hnext a

theorem returned_takeBuf (hlock : w.poisoned = false) (each : Bool) (target : UInt16 × Bool)
    (rest : List (UInt16 × Bool)) (p : Placing) (full : Pc)
    {taken : Exec (Option (PinnedBuf × PinnedPool))} (htaken : ∃ a, taken = .ok a) :
    Returned (w.takeBuf t th each target rest p full taken) := by
  obtain ⟨a, rfl⟩ := htaken
  cases a with
  | none => exact returned_running hlock
  | some got => exact returned_running hlock

theorem returned_tryAlloc (hlock : w.poisoned = false) (hlen : ps.spec.len + ALIGN ≤ 2 ^ 64)
    (target : UInt16 × Bool) (rest : List (UInt16 × Bool)) (p : Placing) (full : PinnedPool → Pc) :
    Returned (w.tryAlloc inner t th ps target rest p full) := by
  unfold World.tryAlloc
  split
  · exact returned_running hlock
  · exact returned_takeBuf hlock _ target rest p _ (PinnedPool.alloc_returns _ _ _ hlen)

/-- A step of a `put` that fits returns. -/
theorem advance_returned {live : List PinnedBuf} {history : List Event} (hsound : Sound w live)
    (husable : Usable w) (hindexed : Indexed history w) (hlock : w.poisoned = false)
    (hth : w.threads t = some th) (hstocked : th.pc.Stocked)
    (hlen : ∀ ps ∈ th.op.slots, ps.spec.len + ALIGN ≤ 2 ^ 64) (outcome : CopyOutcome) :
    Returned (w.advance inner mem t th outcome) := by
  unfold World.advance
  cases hps : th.op.slots[th.i]? with
  | none => exact ⟨hlock, fun reason hreply ↦ by cases hreply⟩
  | some ps =>
    obtain ⟨hi, _⟩ := List.getElem?_eq_some_iff.mp hps
    have hround := hlen ps (List.mem_of_getElem? hps)
    have hslot : ∀ spec, specAt w.state.objects th.key = some spec → th.i < spec.slots.length :=
      fun spec hspec ↦ lt_of_lt_of_le hi ((hindexed.running t th hth).present spec hspec)
    dsimp only
    unfold World.advanceSlot
    split
    · unfold World.beginSlot
      have hwritable : th.i < th.writable.length := by rwa [(hsound.paced t th hth).length_eq]
      rw [List.getElem?_eq_getElem hwritable]
      cases th.writable[th.i] with
      | false => exact returned_running hlock
      | true =>
        dsimp only
        split
        · exact returned_running hlock
        · exact returned_running hlock
    · unfold World.endPlacing
      split_ifs
      · exact returned_running hlock
      · exact returned_running hlock
    · exact returned_tryAlloc hlock hround _ _ _ _
    · next target rest p hpc =>
      refine returned_locked hlock (exists_evictRound ?_ ?_) fun r ↦ returned_running hlock
      · exact husable.queued _ (husable.pooled t th target rest p hth hpc)
      · intro queue hqueue entry hentry spec hspec
        exact (hindexed.queued _ queue hqueue entry hentry).present spec hspec
    · exact returned_tryAlloc hlock hround _ _ _ _
    · exact returned_running hlock
    · cases outcome with
      | done => exact returned_running hlock
      | failed e moved => exact returned_running hlock
    · next placed hpc =>
      refine returned_locked hlock (store_returns hslot fun p hp ↦ ?_) fun r ↦ ?_
      · have hin : p ∈ th.pc.placed := by
          rw [hpc]
          exact hp
        rw [← hstocked.placed p hin]
        exact husable.queued _ (hsound.exclusive.pools.pooled p.buf
          (hsound.exclusive.thread t th hth p.buf (List.mem_map_of_mem hin)).1)
      · cases r with
        | error e => exact returned_running hlock
        | ok st => exact returned_running hlock
    · exact returned_locked hlock (unclaim_returns hslot) fun st ↦ returned_running hlock

theorem beginPut_returned (hlock : w.poisoned = false) (key : Key) (op : OpPut) :
    Returned (w.beginPut key op) := by
  unfold World.beginPut
  cases op.validate with
  | error e => exact ⟨hlock, fun reason hreply ↦ by cases hreply⟩
  | ok _ =>
    refine returned_section hlock ⟨_, rfl⟩ fun r ↦ ?_
    cases r with
    | error e => exact ⟨hlock, fun reason hreply ↦ by cases hreply⟩
    | ok pair => exact returned_running hlock

theorem publish_returned (hlock : w.poisoned = false) (key : Key) (op : OpPublish) :
    Returned (w.publish key op) := by
  unfold World.publish
  cases hvalid : op.validate with
  | error e => exact ⟨hlock, fun reason hreply ↦ by cases hreply⟩
  | ok pair =>
    refine returned_section hlock (publish_returns (validateIovs_ok hvalid).1.nonempty) fun r ↦ ?_
    cases r with
    | error e => exact ⟨hlock, fun reason hreply ↦ by cases hreply⟩
    | ok st => exact ⟨hlock, fun reason hreply ↦ by cases hreply⟩

theorem beginGet_returned (hlock : w.poisoned = false) (key : Key) (op : OpGet) :
    Returned (w.beginGet inner key op) := by
  unfold World.beginGet
  cases op.validate with
  | error e => exact ⟨hlock, fun reason hreply ↦ by cases hreply⟩
  | ok pair =>
    refine returned_section hlock (select_returns inner) fun r ↦ ?_
    cases r with
    | error e => exact ⟨hlock, fun reason hreply ↦ by cases hreply⟩
    | ok found => exact returned_running hlock

/-- An action returns when every `put` in flight fits. -/
theorem exec_returned {live : List PinnedBuf} {history : List Event} (hsound : Sound w live)
    (husable : Usable w) (hindexed : Indexed history w) (hlock : w.poisoned = false)
    (hstocked : ∀ t th, w.threads t = some th → th.pc.Stocked)
    (hlen : ∀ t th, w.threads t = some th → ∀ ps ∈ th.op.slots, ps.spec.len + ALIGN ≤ 2 ^ 64)
    {action : Action} {w' : World} {mem' : ByteSpace} {r : Reply}
    (hexec : w.exec inner mem action = some (w', mem', r)) : Returned (w', r) := by
  cases action with
  | beginPut key op =>
    cases hexec
    exact beginPut_returned hlock key op
  | advance t outcome =>
    obtain ⟨th, hth, heq⟩ := Option.map_eq_some_iff.mp hexec
    cases heq
    exact advance_returned hsound husable hindexed hlock hth (hstocked t th hth) (hlen t th hth)
      outcome
  | publish key op =>
    cases hexec
    exact publish_returned hlock key op
  | remove keys =>
    cases hexec
    exact returned_section hlock ⟨_, rfl⟩ fun _ ↦ ⟨hlock, fun reason hreply ↦ by cases hreply⟩
  | removePrefix start =>
    cases hexec
    exact returned_section hlock ⟨_, rfl⟩ fun _ ↦ ⟨hlock, fun reason hreply ↦ by cases hreply⟩
  | retireRegion regionId =>
    cases hexec
    exact returned_section hlock ⟨_, rfl⟩ fun _ ↦ ⟨hlock, fun reason hreply ↦ by cases hreply⟩
  | beginGet key op =>
    cases hexec
    exact beginGet_returned hlock key op
  | finishGet k outcome =>
    obtain ⟨rd, _, heq⟩ := Option.map_eq_some_iff.mp hexec
    cases heq
    exact ⟨hlock, fun reason hreply ↦ by cases hreply⟩
  | userWrite addr bytes =>
    cases hexec
    exact returned_running hlock

end Returned

/-! ### Runs -/

/-- What holds after a history of that use. -/
structure Unbroken (history : List Event) (w : World) : Prop where
  indexed : Indexed history w
  roundable : ∀ t th, w.threads t = some th → ∀ ps ∈ th.op.slots, ps.spec.len + ALIGN ≤ 2 ^ 64
  lock : w.poisoned = false
  returned : ∀ e ∈ history, e.returns

section Runs

variable {inner : Inner} {bytes : UInt16 → ℕ} {n n' : Node} {history : List Event}

theorem unbroken_initial : Unbroken [] (World.initial inner bytes) where
  indexed := by
    refine ⟨fun device queue hqueue entry hentry ↦ ?_, fun t th hth ↦ by cases hth⟩
    cases device <;> simp only [World.initial, Option.ite_none_right_eq_some,
      Option.some.injEq] at hqueue <;> exact absurd hentry (hqueue.2 ▸ List.not_mem_nil)
  roundable := fun t th hth ↦ by cases hth
  lock := rfl
  returned := fun e he ↦ absurd he List.not_mem_nil

theorem Unbroken.step {e : Event} (h : Unbroken history n.world)
    (hrun : (backend inner bytes).Run history n) (hstep : (backend inner bytes).step n e n')
    (hround : e.action.Roundable) (hmore : ∀ first ∈ history, first.action.NoFewer e.action) :
    Unbroken (history ++ [e]) n'.world := by
  obtain ⟨live, hsound⟩ := run_sound hrun
  have his := isStep_of_step hsound hstep
  have hreturned := exec_returned hsound (run_usable hrun) h.indexed h.lock
    (fun _ _ ↦ run_stocked hrun) h.roundable his.exec
  refine ⟨h.indexed.step his.exec his.stepped hmore, ?_, hreturned.1, ?_⟩
  · intro t th' hth'
    rcases exec_thread_cases his.exec hth' with hsame | ⟨th, hold, hgoes⟩ | ⟨haction, _⟩
    · exact h.roundable t th' hsame
    · rw [hgoes.op_eq]
      exact h.roundable t th hold
    · rw [haction] at hround
      exact hround
  · intro e' he'
    rcases List.mem_append.mp he' with hold | hnew
    · exact h.returned e' hold
    · rw [List.mem_singleton.mp hnew]
      exact hreturned.2

theorem run_unbroken (hrun : (backend inner bytes).Run history n)
    (hround : ∀ e ∈ history, e.action.Roundable)
    (hmore : history.Pairwise fun first second ↦ first.action.NoFewer second.action) :
    Unbroken history n.world := by
  refine System.Run.induction (S := backend inner bytes) (I := fun history n ↦
    (∀ e ∈ history, e.action.Roundable) →
      (history.Pairwise fun first second ↦ first.action.NoFewer second.action) →
      Unbroken history n.world)
    (fun _ _ ↦ unbroken_initial) ?_ hrun hround hmore
  intro history n e n' hrun ih hstep hround hmore
  obtain ⟨hbefore, _, hlast⟩ := List.pairwise_append.mp hmore
  refine (ih (fun first hfirst ↦ hround first (List.mem_append_left _ hfirst)) hbefore).step hrun
    hstep (hround e (by simp)) fun first hfirst ↦ ?_
  exact hlast first hfirst e (List.mem_singleton_self e)

/-- In every interleaving of operations in which the number of slots under a key never goes down and
every length can be rounded up, no step panics and the lock is never poisoned. -/
theorem run_never_panics (hrun : (backend inner bytes).Run history n)
    (hround : ∀ e ∈ history, e.action.Roundable)
    (hmore : history.Pairwise fun first second ↦ first.action.NoFewer second.action) :
    n.world.poisoned = false ∧ ∀ e ∈ history, e.returns :=
  ⟨(run_unbroken hrun hround hmore).lock, (run_unbroken hrun hround hmore).returned⟩

open Scenario in
/-- A `put` whose object is removed under it, and a second one with more slots under its key: the
first one goes on and stores into the object of the second. -/
theorem run_never_panics_recreated : ∃ history n,
    (backend Scenario.inner Scenario.bytes).Run history n ∧
      (bufsAt n.world.state.objects key 0).length = 1 ∧
      (specAt n.world.state.objects key).map (fun s ↦ s.slots.length) = some 2 ∧
      n.world.poisoned = false ∧ ∀ e ∈ history, e.returns := by
  let first : OpPut := ⟨.cache, [slotOn (.strict (.cpu 0)) 1]⟩
  let second : OpPut := ⟨.cache, [slotOn (.strict (.cpu 0)) 1, slotOn (.strict (.cpu 0)) 1]⟩
  let actions : List Action :=
    .beginPut key first :: (advance 0 3 ++ .remove [key] :: .beginPut key second :: advance 0 4)
  have hreplay : (replay (Node.next Scenario.inner) actions
      (backend Scenario.inner Scenario.bytes).start).any (fun r ↦
        (bufsAt r.2.world.state.objects key 0).length = 1 &&
        (specAt r.2.world.state.objects key).map (fun s ↦ s.slots.length) = some 2) = true := by
    decide +kernel
  obtain ⟨⟨history, n⟩, hsome, hcheck⟩ := (Option.any_eq_true _ _).mp hreplay
  simp only [Bool.and_eq_true, decide_eq_true_eq] at hcheck
  have hactions : history.map Event.action = actions :=
    inputs_of_replay (fun _ _ _ _ h ↦ action_of_next h) actions hsome
  have hround : ∀ action ∈ actions, action.Roundable := by
    simp [actions, advance, first, second, slotOn, Action.Roundable, ALIGN]
  have hmore : actions.Pairwise Action.NoFewer := by
    simp [actions, advance, first, second, Action.NoFewer, List.replicate]
  have hrun : (backend Scenario.inner Scenario.bytes).Run history n := steps_of_actions _ hsome
  refine ⟨history, n, hrun, hcheck.1, hcheck.2, run_never_panics hrun (fun e he ↦ ?_) ?_⟩
  · exact hround _ (hactions ▸ List.mem_map_of_mem he)
  · exact List.pairwise_map.mp (hactions ▸ hmore)

end Runs

end Pegastore.Local
