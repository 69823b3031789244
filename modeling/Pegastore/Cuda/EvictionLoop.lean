import Pegastore.Cuda.Evictable
import Pegastore.Cuda.AllocOrEvict

/-!
# The eviction loop ends and is complete

Every round of `alloc_or_evict` that evicts something leaves a shorter queue, so the loop ends
(`evictRounds_ends`). It gives up only after a round that found nothing to evict, and then nothing
is left to evict: every owned replica of a `Cache` object has an entry in the queue of its device,
in every state of a run whose puts have no more slots than an entry can name.

A slot past that limit is queued under another index, so its replica stays where it is while the
loop reports that there is no space.
-/

set_option autoImplicit false
set_option relaxedAutoImplicit false

namespace Pegastore.Local

open Outcome ByteMemory Transition

/-! ### The loop -/

/-- What the loop comes to. A panic inside a round poisons the lock, and nothing can be read behind
it. -/
structure LoopDone (numa : UInt16) (len : ℕ) (protect : Key) (w w' : World)
    (r : Exec (Result PinnedBuf)) : Prop where
  lock : ∀ result, r = .ok result → w'.poisoned = w.poisoned
  spared : w'.poisoned = w.poisoned → Spared (.cpu numa) protect w.state w'.state
  exhausted : r = .ok (.error (noSpace numa len)) →
    Exhausted (.cpu numa) protect w'.state.objects

section Loop

variable {checks : Bool} {numa : UInt16} {len : ℕ} {protect : Key} {w w' : World}
  {r : Exec (Result PinnedBuf)}

/-- The loop stops, with the metadata as the last round left it. -/
theorem LoopDone.of_spared (hlock : w'.poisoned = w.poisoned)
    (hspared : Spared (.cpu numa) protect w.state w'.state)
    (hexhausted : r = .ok (.error (noSpace numa len)) →
      Exhausted (.cpu numa) protect w'.state.objects) : LoopDone numa len protect w w' r :=
  ⟨fun _ _ ↦ hlock, fun _ ↦ hspared, hexhausted⟩

/-- The loop stops with a panic or a buffer. -/
theorem LoopDone.of_ne (hlock : w'.poisoned = w.poisoned)
    (hspared : Spared (.cpu numa) protect w.state w'.state)
    (hne : r ≠ .ok (.error (noSpace numa len))) : LoopDone numa len protect w w' r :=
  .of_spared hlock hspared fun hr ↦ absurd hr hne

theorem panic_ne_noSpace (reason : Panic) :
    (.error reason : Exec (Result PinnedBuf)) ≠ .ok (.error (noSpace numa len)) := by
  intro h
  cases h

theorem buffer_ne_noSpace (buf : PinnedBuf) :
    (.ok (.ok buf) : Exec (Result PinnedBuf)) ≠ .ok (.error (noSpace numa len)) := by
  intro h
  cases h

/-- The loop goes on after a round. -/
theorem LoopDone.of_next {middle : World} (hlock : middle.poisoned = w.poisoned)
    (hspared : Spared (.cpu numa) protect w.state middle.state)
    (h : LoopDone numa len protect middle w' r) : LoopDone numa len protect w w' r where
  lock := fun result hr ↦ (h.lock result hr).trans hlock
  spared := fun hsame ↦ hspared.trans (h.spared (hsame.trans hlock.symm))
  exhausted := h.exhausted

theorem evictRounds_of_round {round : Bool × List PinnedBuf × State} (hlock : w.poisoned = false)
    (hround : w.state.evictRound (.cpu numa) protect = .ok round) (fuel : ℕ) :
    w.evictRounds checks numa len protect (fuel + 1) =
      (w.afterRound round).grant numa
        (if round.1 then (w.afterRound round).evictRounds checks numa len protect fuel
        else some (w.afterRound round, .ok (.error (noSpace numa len))))
        ((w.afterRound round).allocOn checks numa len) := by
  rw [World.evictRounds, if_neg (by rw [hlock]; exact Bool.false_ne_true), hround]

/-- The loop ends within as many rounds as the queue has entries and one more. -/
theorem evictRounds_ends (checks : Bool) (numa : UInt16) (len : ℕ) (protect : Key) (size : ℕ) :
    ∀ (w : World) (queue : List FifoEntry), w.state.fifo (.cpu numa) = some queue →
      queue.length = size → Covered w.state → ∃ w' r, LoopDone numa len protect w w' r ∧
        ∀ fuel, size < fuel → w.evictRounds checks numa len protect fuel = some (w', r) := by
  induction size using Nat.strong_induction_on with
  | _ size ih =>
    intro w queue hqueue hsize hcovered
    -- the loop never runs without fuel
    suffices hsucc : ∃ w' r, LoopDone numa len protect w w' r ∧ ∀ fuel, size ≤ fuel →
        w.evictRounds checks numa len protect (fuel + 1) = some (w', r) by
      obtain ⟨w', r, hdone, hends⟩ := hsucc
      refine ⟨w', r, hdone, fun fuel hfuel ↦ ?_⟩
      obtain ⟨fuel, rfl⟩ := Nat.exists_eq_add_one_of_ne_zero (Nat.ne_zero_of_lt hfuel)
      exact hends fuel (Nat.le_of_lt_succ hfuel)
    cases hlock : w.poisoned with
    | true =>
      refine ⟨w, .error .unwrapNone, .of_ne rfl (.refl _ _ _) (panic_ne_noSpace _), fun fuel _ ↦ ?_⟩
      rw [World.evictRounds, if_pos hlock]
    | false =>
      cases hround : w.state.evictRound (.cpu numa) protect with
      | error reason =>
        refine ⟨{ w with poisoned := true }, .error reason, ⟨fun result hr ↦ ?_,
          fun hsame ↦ ?_, fun hr ↦ absurd hr (panic_ne_noSpace reason)⟩, fun fuel _ ↦ ?_⟩
        · cases hr
        · rw [hlock] at hsame
          cases hsame
        · rw [World.evictRounds, if_neg (by rw [hlock]; exact Bool.false_ne_true), hround]
      | ok round =>
        obtain ⟨popped, rest, hdone⟩ := evictRound_done hround
        have hspared : Spared (.cpu numa) protect w.state (w.afterRound round).state :=
          hdone.spared
        have hlocks : (w.afterRound round).poisoned = w.poisoned := rfl
        simp only [evictRounds_of_round hlock hround]
        rcases (w.afterRound round).allocOn checks numa len with reason | (_ | ⟨buf, after⟩)
        · exact ⟨w.afterRound round, .error reason,
            .of_ne hlocks hspared (panic_ne_noSpace reason), fun _ _ ↦ rfl⟩
        · cases hevicted : round.1 with
          | false =>
            rw [hevicted] at hdone
            exact ⟨w.afterRound round, .ok (.error (noSpace numa len)),
              .of_spared hlocks hspared fun _ ↦ hdone.exhausts hcovered, fun _ _ ↦ rfl⟩
          | true =>
            rw [hevicted] at hdone
            have hshort := hdone.shorter
            rw [← Option.some.inj (hqueue.symm.trans hdone.queue), hsize] at hshort
            have hnext : (w.afterRound round).state.fifo (.cpu numa) = some _ :=
              (congrFun hdone.fifo_eq _).trans (Function.update_self ..)
            obtain ⟨w', r, hloop, hends⟩ := ih _ hshort (w.afterRound round) _ hnext rfl
              (hdone.covered hcovered)
            exact ⟨w', r, hloop.of_next hlocks hspared,
              fun fuel hfuel ↦ hends fuel (lt_of_lt_of_le hshort hfuel)⟩
        · exact ⟨(w.afterRound round).gave numa after, .ok (.ok buf),
            .of_ne hlocks hspared (buffer_ne_noSpace buf), fun _ _ ↦ rfl⟩

end Loop

/-! ### The whole call -/

section Call

variable {inner : Inner} {bytes : UInt16 → ℕ} {n : Node}

/-- In every state of every run whose puts have no more slots than a queue entry can name, whatever
the interleaving: `alloc_or_evict` on a node with a pool ends; if it reports that a length within
the capacity has no space, no owned replica of a `Cache` object other than the protected one is left
on the node; a length above the capacity evicts nothing; and unless a round panics and so poisons
the lock, only owned replicas of other `Cache` objects on the node are gone, and the entries of the
protected key are queued in their order. -/
theorem alloc_or_evict_complete {history : List Event}
    (hrun : ((backend inner bytes).restrict fun _ e ↦ e.action.FewSlots).Run history n)
    {numa : UInt16} {pool : PinnedPool} (hpool : n.world.pools numa = some pool) (checks : Bool)
    (len : ℕ) (protect : Key) :
    ∃ bound w' r,
      (∀ fuel, bound ≤ fuel →
        n.world.allocOrEvict checks numa len protect fuel = some (w', r)) ∧
      (r = .ok (.error (noSpace numa len)) → len ≤ pool.len →
        Exhausted (.cpu numa) protect w'.state.objects) ∧
      (pool.len < len → w'.state = n.world.state) ∧
      (∀ result, r = .ok result → w'.poisoned = n.world.poisoned) ∧
      (w'.poisoned = n.world.poisoned →
        Spared (.cpu numa) protect n.world.state w'.state) := by
  have husable : Usable n.world := run_usable (System.Run.of_restrict hrun)
  obtain ⟨queue, hqueue⟩ := Option.isSome_iff_exists.mp (husable.queued numa (by rw [hpool]; rfl))
  have hsame := Spared.refl (.cpu numa) protect n.world.state
  simp only [World.allocOrEvict, hpool]
  rcases pool.alloc checks n.world.nextBuf len with reason | (_ | ⟨buf, after⟩)
  · exact ⟨0, n.world, .error reason, fun _ _ ↦ rfl, fun hr ↦ absurd hr (panic_ne_noSpace reason),
      fun _ ↦ rfl, fun _ _ ↦ rfl, fun _ ↦ hsame⟩
  · by_cases habove : pool.len < len
    · refine ⟨0, n.world, .ok (.error (noSpace numa len)), fun _ _ ↦ if_pos habove,
        fun _ hle ↦ absurd habove (Nat.not_lt.mpr hle), fun _ ↦ rfl, fun _ _ ↦ rfl, fun _ ↦ hsame⟩
    · obtain ⟨w', r, hloop, hends⟩ := evictRounds_ends checks numa len protect queue.length n.world
        queue hqueue rfl (run_covered hrun)
      exact ⟨queue.length + 1, w', r, fun fuel hfuel ↦ (if_neg habove).trans (hends fuel hfuel),
        fun hr _ ↦ hloop.exhausted hr, fun h ↦ absurd h habove, hloop.lock, hloop.spared⟩
  · exact ⟨0, n.world.gave numa after, .ok (.ok buf), fun _ _ ↦ rfl,
      fun hr ↦ absurd hr (buffer_ne_noSpace buf), fun _ ↦ rfl, fun _ _ ↦ rfl, fun _ ↦ hsame⟩

/-- A call that meets one round that evicts nothing, and finds no range before and after it. -/
theorem allocOrEvict_gives_up {checks : Bool} {w : World} {numa : UInt16} {len : ℕ} {protect : Key}
    {pool : PinnedPool} {round : Bool × List PinnedBuf × State}
    (hpool : w.pools numa = some pool) (hlen : len ≤ pool.len)
    (hfull : pool.alloc checks w.nextBuf len = .ok none) (hlock : w.poisoned = false)
    (hround : w.state.evictRound (.cpu numa) protect = .ok round) (hnothing : round.1 = false)
    (hstill : (w.afterRound round).allocOn checks numa len = .ok none) (fuel : ℕ) :
    w.allocOrEvict checks numa len protect (fuel + 1) =
      some (w.afterRound round, .ok (.error (noSpace numa len))) := by
  rw [World.allocOrEvict, hpool]
  dsimp only
  rw [hfull]
  change (if len > pool.len then _ else _) = _
  rw [if_neg (Nat.not_lt.mpr hlen), evictRounds_of_round hlock hround, hstill]
  change (if round.1 = true then _ else _) = _
  rw [if_neg (by rw [hnothing]; exact Bool.false_ne_true)]

end Call

/-! ### Fixed inputs -/

namespace Scenario

/-- A call for the whole pool gives up after one round. -/
def givesUp (w : World) (protect : Key) : Bool :=
  match w.pools 0, w.state.evictRound (.cpu 0) protect with
  | some pool, .ok round =>
    decide (2 * ALIGN ≤ pool.len) && decide (pool.alloc true w.nextBuf (2 * ALIGN) = .ok none) &&
      !w.poisoned && !round.1 &&
      decide ((w.afterRound round).allocOn true 0 (2 * ALIGN) = .ok none)
  | _, _ => false

theorem noSpace_of_givesUp {w : World} {protect : Key} (h : givesUp w protect = true) :
    ∃ pool w', w.pools 0 = some pool ∧ 2 * ALIGN ≤ pool.len ∧ ∀ fuel,
      w.allocOrEvict true 0 (2 * ALIGN) protect (fuel + 1) =
        some (w', .ok (.error (noSpace 0 (2 * ALIGN)))) := by
  unfold givesUp at h
  split at h
  · next pool round hpool hround =>
    simp only [Bool.and_eq_true, decide_eq_true_eq, Bool.not_eq_true'] at h
    obtain ⟨⟨⟨⟨hlen, hfull⟩, hlock⟩, hnothing⟩, hstill⟩ := h
    exact ⟨pool, w.afterRound round, hpool, hlen,
      allocOrEvict_gives_up hpool hlen hfull hlock hround hnothing hstill⟩
  · cases h

end Scenario

open Scenario in
/-- With eight bytes stored under the protected key, a call for the whole pool gives up, and there
is nothing else to evict. -/
theorem alloc_or_evict_complete_protected : ∃ history n w',
    ((backend Scenario.inner Scenario.bytes).restrict fun _ e ↦ e.action.FewSlots).Run history n ∧
      (slotAt n.world.state.objects key 0).map (fun s ↦ s.replicas.length) = some 1 ∧
      (∀ fuel, n.world.allocOrEvict true 0 (2 * ALIGN) key (fuel + 1) =
        some (w', .ok (.error (noSpace 0 (2 * ALIGN))))) ∧
      Exhausted (.cpu 0) key w'.state.objects ∧
      Spared (.cpu 0) key n.world.state w'.state := by
  let first : Action := .beginPut key ⟨.cache, [slotOn (.strict (.cpu 0)) 8]⟩
  have hcheck : (replay (Node.next Scenario.inner) (first :: advance 0 7)
      (backend Scenario.inner Scenario.bytes).start).any (fun r ↦ givesUp r.2.world key &&
        decide ((slotAt r.2.world.state.objects key 0).map (fun s ↦ s.replicas.length) =
          some 1)) = true := by decide +kernel
  obtain ⟨⟨history, n⟩, hreplay, hn⟩ := (Option.any_eq_true _ _).mp hcheck
  rw [Bool.and_eq_true, decide_eq_true_iff] at hn
  have hrun : ((backend Scenario.inner Scenario.bytes).restrict fun _ e ↦ e.action.FewSlots).Run
      history n := by
    refine run_of_actions (fun e he ↦ ?_) (fun _ e he ↦ ?_) hreplay
    · rw [he]
      change 1 ≤ 2 ^ 32
      decide
    · rw [List.eq_of_mem_replicate he]
      trivial
  obtain ⟨pool, w', hpool, hlen, hcall⟩ := noSpace_of_givesUp hn.1
  obtain ⟨bound, w'', r, hends, hexhausted, _, hlock, hspared⟩ :=
    alloc_or_evict_complete hrun hpool true (2 * ALIGN) key
  have heq := (hcall bound).symm.trans (hends (bound + 1) (Nat.le_succ bound))
  cases heq
  exact ⟨history, n, w', hrun, hn.2, hcall, hexhausted rfl hlen, hspared (hlock _ rfl)⟩

/-! ### A slot that no entry names -/

theorem store_one {st : State} {kb : Key} {i : ℕ} {p : Placed} {obj : Object} {slot : Slot}
    {queue : List FifoEntry} (hfind : st.objects.find? kb = some obj)
    (hslot : obj.slots[i]? = some slot) (hqueue : st.fifo (.cpu p.numa) = some queue) :
    st.store kb i [p] = .ok (.ok
      ⟨st.objects.insert kb (obj.setSlot i (slot.stored [p])),
        Function.update st.fifo (.cpu p.numa) (some (queue ++ [(kb, UInt32.ofNat i)]))⟩) := by
  unfold State.store
  rw [hfind]
  dsimp only
  rw [index_eq_ok.mpr hslot, ok_bind, List.foldlM_cons, State.enqueue, hqueue]
  rfl

/-- A round whose only entry names a slot without replicas. -/
theorem evictRound_of_empty {st : State} {device : Device} {protect : Key} {entry : FifoEntry}
    {obj : Object} {slot : Slot} (hqueue : st.fifo device = some [entry])
    (hprotect : entry.1 ≠ protect) (hfind : st.objects.find? entry.1 = some obj)
    (hret : obj.spec.retention = .cache) (hslot : obj.slots[entry.2.toNat]? = some slot)
    (hempty : slot.replicas = []) :
    ∃ after, st.evictRound device protect = .ok (false, [], after) := by
  have hentry : ∃ objects, evictEntry device entry st.objects = .ok ⟨false, [], objects⟩ := by
    unfold evictEntry
    rw [hfind]
    dsimp only
    rw [if_neg (not_not.mpr hret), index_eq_ok.mpr hslot, ok_bind, hempty]
    exact ⟨_, rfl⟩
  obtain ⟨objects, hentry⟩ := hentry
  unfold State.evictRound
  rw [hqueue]
  change ∃ after, (evictLoop device protect [entry] st.objects [] >>= _) = _
  rw [evictLoop, if_neg hprotect, hentry]
  exact ⟨_, rfl⟩

namespace Scenario

/-- A slot that can be placed nowhere. -/
def nowhere : PutSlot := slotOn (.each []) 0

/-- Eight bytes for the pool, after `n` slots that can be placed nowhere. -/
def tailOp (n : ℕ) : OpPut :=
  ⟨.cache, List.replicate n nowhere ++ [slotOn (.strict (.cpu 0)) 8]⟩

section Tail

variable {n k : ℕ}

theorem tailOp_getElem? (h : k < n) : (tailOp n).slots[k]? = some nowhere := by
  rw [tailOp, List.getElem?_append_left (by rw [List.length_replicate]; exact h),
    List.getElem?_replicate, if_pos h]

theorem tailOp_last (n : ℕ) : (tailOp n).slots[n]? = some (slotOn (.strict (.cpu 0)) 8) := by
  rw [tailOp, List.getElem?_append_right (by rw [List.length_replicate]), List.length_replicate,
    Nat.sub_self]
  rfl

theorem tailOp_length (n : ℕ) : (tailOp n).slots.length = n + 1 := by
  rw [tailOp, List.length_append, List.length_replicate]
  rfl

theorem tailOp_valid (n : ℕ) : (tailOp n).validate = .ok () := by
  refine OpPut.validate_eq_ok (List.append_ne_nil_of_right_ne_nil _ (List.cons_ne_nil _ _)) ?_
  intro ps hps
  rcases List.mem_append.mp hps with hps | hps
  · rw [List.eq_of_mem_replicate hps]
    rfl
  · rw [List.mem_singleton.mp hps]
    rfl

/-- The object of the `put` is there and has no replica yet. -/
structure Pending (n : ℕ) (objects : Objects) (obj : Object) : Prop where
  find : objects.find? key = some obj
  spec : obj.spec = (tailOp n).spec
  empty : ∀ slot ∈ obj.slots, slot.replicas = []

theorem Pending.slots_length {objects : Objects} {obj : Object} (h : Pending n objects obj) :
    obj.slots.length = n + 1 := by
  rw [obj.slots_length, h.spec]
  exact (List.length_map _).trans (tailOp_length n)

theorem Pending.exists_slot {objects : Objects} {obj : Object} (h : Pending n objects obj)
    (hk : k ≤ n) : ∃ slot, obj.slots[k]? = some slot ∧ slot.replicas = [] := by
  have hlt : k < obj.slots.length := by
    rw [h.slots_length]
    omega
  exact ⟨_, List.getElem?_eq_getElem hlt, h.empty _ (List.getElem_mem hlt)⟩

/-- The backend while its only `put` runs. -/
def during (objects : Objects) : World :=
  { World.initial Scenario.inner Scenario.bytes with
    state := ⟨objects, (World.initial Scenario.inner Scenario.bytes).state.fifo⟩
    nextPut := 1 }

/-- The `put` at slot `k`. -/
def tailThread (n k : ℕ) (results : List (Result Unit)) : PutThread :=
  ⟨key, tailOp n, List.replicate (n + 1) true, k, results, .slot⟩

theorem writable_tailThread (hk : k ≤ n) (results : List (Result Unit)) :
    (tailThread n k results).writable[(tailThread n k results).i]? = some true := by
  change (List.replicate (n + 1) true)[k]? = some true
  rw [List.getElem?_replicate, if_pos (Nat.lt_succ_of_le hk)]

/-- The slots that can be placed nowhere are given up one after another. -/
theorem leads_tail {first : Objects} {obj : Object} (hfirst : Pending n first obj)
    (mem : ByteSpace) : ∀ k ≤ n, ∃ objects obj results, Pending n objects obj ∧
      Leads Scenario.inner mem 0 ((during first).setThread 0 (tailThread n 0 []))
        ((during objects).setThread 0 (tailThread n k results)) := by
  intro k
  induction k with
  | zero => exact fun _ ↦ ⟨first, obj, [], hfirst, Leads.refl _⟩
  | succ k ih =>
    intro hk
    obtain ⟨objects, obj, results, hpending, hleads⟩ := ih (Nat.le_of_succ_le hk)
    obtain ⟨slot, hslot, hempty⟩ := hpending.exists_slot (Nat.le_of_succ_le hk)
    let given := obj.setSlot k { slot with writing := false }
    have hunclaim : (during objects).state.unclaim (tailThread n k results).key
        (tailThread n k results).i = .ok (during (objects.insert key given)).state :=
      exists_unclaim hpending.find hslot
    have hstep : Leads Scenario.inner mem 0
        ((during objects).setThread 0 (tailThread n k results)) _ :=
      leads_nowhere (tailOp_getElem? hk) rfl (writable_tailThread (Nat.le_of_succ_le hk) results)
        rfl rfl hunclaim
    refine ⟨objects.insert key given, given, _,
      ⟨SortedMap.find?_insert_self .., hpending.spec, fun s hs ↦ ?_⟩, hleads.trans hstep⟩
    rcases List.mem_or_eq_of_mem_set hs with hs | rfl
    · exact hpending.empty s hs
    · exact hempty

/-- The buffer of the last slot. -/
def tailBuf : PinnedBuf := ⟨0, 0, 0, ALIGN, 8⟩

/-- The pool without it. -/
def tailPool : PinnedPool := ⟨0, 2 * ALIGN, [(ALIGN, ALIGN)]⟩

theorem alloc_tail : (PinnedPool.new 0 (2 * ALIGN)).alloc true 0 8 =
    .ok (some (tailBuf, tailPool)) := by decide +kernel

/-- The metadata after the `put`: the last slot is queued under its index modulo `2 ^ 32`. -/
def tailState (n : ℕ) (objects : Objects) (obj : Object) (slot : Slot) : State :=
  ⟨objects.insert key (obj.setSlot n (slot.stored [⟨0, false, tailBuf⟩])),
    Function.update (World.initial Scenario.inner Scenario.bytes).state.fifo (.cpu 0)
      (some [(key, UInt32.ofNat n)])⟩

theorem fifo_tailState (n : ℕ) (objects : Objects) (obj : Object) (slot : Slot) :
    (tailState n objects obj slot).fifo (.cpu 0) = some [(key, UInt32.ofNat n)] := by
  unfold tailState
  dsimp only
  rw [Function.update_self]

/-- The `put` returns and leaves its last slot stored. -/
theorem exists_tail (n : ℕ) (mem : ByteSpace) : ∃ fuel w' objects obj slot results,
    (World.initial Scenario.inner Scenario.bytes).put Scenario.inner mem fuel key (tailOp n) =
      (w', .put (.ok ⟨results⟩)) ∧ Pending n objects obj ∧ obj.slots[n]? = some slot ∧
      slot.replicas = [] ∧ w'.state = tailState n objects obj slot ∧ w'.Quiescent ∧
      w'.poisoned = false ∧ w'.pools 0 = some tailPool ∧ w'.nextBuf = 1 := by
  let fresh := (Object.fresh (tailOp n).spec).mapSlots Slot.claim
  have hclaim : (World.initial Scenario.inner Scenario.bytes).state.claim key (tailOp n).spec =
      .ok (List.replicate (n + 1) true, (during (SortedMap.empty.insert key fresh)).state) := by
    have hwritable : (Object.fresh (tailOp n).spec).slots.map Slot.claimable =
        List.replicate (n + 1) true := by
      rw [Object.fresh, List.map_replicate, OpPut.spec, List.length_map, tailOp_length]
      rfl
    unfold State.claim State.entry
    rw [show (World.initial Scenario.inner Scenario.bytes).state.objects.find? key = none from
      SortedMap.find?_empty key, ← hwritable]
    exact if_neg (not_not.mpr rfl)
  have hfresh : Pending n (SortedMap.empty.insert key fresh) fresh := by
    refine ⟨SortedMap.find?_insert_self .., rfl, fun slot hslot ↦ ?_⟩
    obtain ⟨old, hold, rfl⟩ := List.mem_map.mp hslot
    rw [List.eq_of_mem_replicate hold]
    rfl
  obtain ⟨objects, obj, results, hpending, hleads⟩ := leads_tail hfresh mem n (le_refl n)
  obtain ⟨slot, hslot, hempty⟩ := hpending.exists_slot (le_refl n)
  have hstore : (during objects).state.store key n [⟨0, false, tailBuf⟩] =
      .ok (.ok (tailState n objects obj slot)) :=
    @store_one (during objects).state key n ⟨0, false, tailBuf⟩ obj slot [] hpending.find hslot rfl
  have htakes : Takes true 8 (needed false [(0, false)]) (during objects).pools
      (during objects).nextBuf
      [⟨0, false, tailBuf⟩] (Function.update (during objects).pools 0 (some tailPool)) 1 :=
    .cons rfl alloc_tail .nil
  have hland : Leads Scenario.inner mem 0
      ((during objects).setThread 0 (tailThread n n results)) _ :=
    leads_land (tailOp_last n) rfl (writable_tailThread (le_refl n) results) rfl htakes
      (List.cons_ne_nil _ _) rfl hstore
  have hend : (tailOp n).slots[n + 1]? = none :=
    List.getElem?_eq_none (tailOp_length n).le
  obtain ⟨fuel, hput⟩ := put_returns (tailOp_valid n) rfl hclaim (hleads.trans hland) hend
  refine ⟨fuel, _, objects, obj, slot, _, hput, hpending, hslot, hempty, rfl, ⟨fun t ↦ ?_, rfl⟩,
    rfl, ?_, rfl⟩
  · change Function.update (Function.update (fun _ ↦ none) 0 (some _)) 0 none t = none
    by_cases ht : t = 0
    · rw [ht, Function.update_self]
    · rw [Function.update_of_ne ht, Function.update_of_ne ht]
  · change Function.update (during objects).pools 0 (some tailPool) 0 = some tailPool
    exact Function.update_self ..

/-- The replica of the last slot. -/
def tailReplica : ReplicaEntry := ⟨.cpu 0, .dram, false, .pinned tailBuf⟩

theorem replicasAt_tailState {objects : Objects} {obj : Object} {slot : Slot}
    (hpending : Pending n objects obj) (hslot : obj.slots[n]? = some slot)
    (hempty : slot.replicas = []) :
    replicasAt (tailState n objects obj slot).objects key n = [tailReplica] := by
  have hstored : slotAt (tailState n objects obj slot).objects key n =
      some (slot.stored [⟨0, false, tailBuf⟩]) := by
    rw [tailState, slotAt_setSlot hpending.find hslot, if_pos ⟨rfl, rfl⟩]
  rw [replicasAt_of_slotAt hstored, Slot.stored, hempty]
  rfl

/-- The round for the whole pool pops the only entry, which names an empty slot. -/
theorem exists_round_tail {objects : Objects} {obj : Object} (slot : Slot) (hn : 0 < n)
    (hwrap : UInt32.ofNat n = 0) (hpending : Pending n objects obj) :
    ∃ after, (tailState n objects obj slot).evictRound (.cpu 0) [2] = .ok (false, [], after) := by
  obtain ⟨first, hfirst, hempty⟩ := hpending.exists_slot (Nat.zero_le n)
  have hother : (obj.setSlot n (slot.stored [⟨0, false, tailBuf⟩])).slots[0]? = some first := by
    change (obj.slots.set n _)[0]? = some first
    rw [List.getElem?_set_ne hn.ne', hfirst]
  refine evictRound_of_empty (fifo_tailState n objects obj slot) (by change key ≠ [2]; decide)
    (SortedMap.find?_insert_self ..) (congrArg ObjectSpec.retention hpending.spec) ?_ hempty
  rw [hwrap]
  exact hother

/-- The replica of the last slot outlives the round. -/
theorem tail_outlives {objects : Objects} {obj : Object} {slot : Slot} {after : State} (hn : 0 < n)
    (hwrap : UInt32.ofNat n = 0) (hpending : Pending n objects obj)
    (hslot : obj.slots[n]? = some slot) (hempty : slot.replicas = [])
    (hround : (tailState n objects obj slot).evictRound (.cpu 0) [2] = .ok (false, [], after)) :
    CacheAt after.objects key ∧ tailReplica ∈ replicasAt after.objects key n := by
  obtain ⟨popped, rest, hdone⟩ := evictRound_done hround
  have hqueue : [(key, UInt32.ofNat n)] = popped ++ rest :=
    Option.some.inj ((fifo_tailState n objects obj slot).symm.trans hdone.queue)
  have hunnamed : ¬ Names (popped.filter fun e ↦ e.1 ≠ [2]) key n := by
    rintro ⟨entry, hentry, _, hi⟩
    have hmem : entry ∈ [(key, UInt32.ofNat n)] := by
      rw [hqueue]
      exact List.mem_append_left _ (List.mem_of_mem_filter hentry)
    rw [List.mem_singleton.mp hmem, hwrap] at hi
    exact hn.ne hi
  have hkept : tailReplica ∈ replicasAt after.objects key n := by
    rw [hdone.evicts.unnamed key n hunnamed, replicasAt_tailState hpending hslot hempty]
    exact List.mem_singleton_self _
  obtain ⟨found, hfound, _⟩ := mem_replicasAt.mp hkept
  obtain ⟨spec, _, hspec, _⟩ := exists_slotSpec hfound
  refine ⟨⟨spec, hspec, ?_⟩, hkept⟩
  have hbefore := hdone.evicts.spec_of_after key spec hspec
  rw [tailState, specAt_setSlot hpending.find, specAt_of_find? hpending.find, hpending.spec,
    Option.some.injEq] at hbefore
  rw [← hbefore]
  rfl

end Tail

/-- After a `put` whose last slot has index `2 ^ 32`, a call for the whole pool gives up although
the replica of that slot, in a `Cache` object under another key, could be evicted. -/
theorem unqueued_slot_not_evicted : ∃ n first history node pool w',
    (backend Scenario.inner Scenario.bytes).Run (first :: history) node ∧
      first.action = .beginPut key (tailOp n) ∧ (∀ e ∈ history, e.action = .advance 0 .done) ∧
      node.world.Quiescent ∧ node.world.pools 0 = some pool ∧ 2 * ALIGN ≤ pool.len ∧
      (∀ fuel, node.world.allocOrEvict true 0 (2 * ALIGN) [2] (fuel + 1) =
        some (w', .ok (.error (noSpace 0 (2 * ALIGN))))) ∧
      key ≠ [2] ∧ CacheAt w'.state.objects key ∧
      tailReplica ∈ replicasAt w'.state.objects key n ∧ tailReplica.pinnedOn (.cpu 0) = true := by
  obtain ⟨n, hn, hwrap⟩ : ∃ n : ℕ, 0 < n ∧ UInt32.ofNat n = 0 := ⟨2 ^ 32, by decide, by decide⟩
  obtain ⟨fuel, w, objects, obj, slot, results, hput, hpending, hslot, hempty, hstate, hquiescent,
    hlock, hpool, hnext⟩ := exists_tail n (backend Scenario.inner Scenario.bytes).start.mem
  obtain ⟨first, history, node, hsteps, hbegin, hrest, _, hworld, _⟩ :=
    steps_of_put Scenario.inner Scenario.bytes fuel (backend Scenario.inner Scenario.bytes).start
      key (tailOp n)
  have hnode : node.world = w := hworld.trans (congrArg Prod.fst hput)
  subst hnode
  obtain ⟨after, hround⟩ := exists_round_tail slot hn hwrap hpending
  obtain ⟨hcache, hkept⟩ := tail_outlives hn hwrap hpending hslot hempty hround
  rw [← hstate] at hround
  have hstill :
      (node.world.afterRound (false, [], after)).allocOn true 0 (2 * ALIGN) = .ok none := by
    rw [World.allocOn, show (node.world.afterRound (false, [], after)).pools 0 = some tailPool from
      hpool, show (node.world.afterRound (false, [], after)).nextBuf = 1 from hnext]
    decide +kernel
  have hfull : tailPool.alloc true node.world.nextBuf (2 * ALIGN) = .ok none := by
    rw [hnext]
    decide +kernel
  exact ⟨n, first, history, node, tailPool, _, hsteps, hbegin, hrest, hquiescent, hpool, le_refl _,
    allocOrEvict_gives_up hpool (le_refl _) hfull hlock hround rfl hstill, by decide, hcache, hkept,
    by decide⟩

end Scenario

end Pegastore.Local
