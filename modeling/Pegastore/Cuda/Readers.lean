import Pegastore.Cuda.Backend

/-!
# What the steps do to replicas and readers

`Observed` restates a step by what it means for the replicas of the metadata and for the `get`s in
flight. A replica that is there after a step was there before, or a `put` stored it, or a `publish`
added it; a `get` in flight was in flight before, or it selected its replica from the metadata.
-/

set_option autoImplicit false
set_option relaxedAutoImplicit false

namespace Pegastore.Local

open Outcome ByteMemory Transition

/-! ### Replicas of the metadata -/

/-- Every replica of a slot was there before, or is a new one as described. -/
def Added (new : ReplicaEntry → Prop) (before after : Objects) : Prop :=
  ∀ key j slot, slotAt after key j = some slot → ∀ r ∈ slot.replicas,
    new r ∨ ∃ old, slotAt before key j = some old ∧ r ∈ old.replicas

section Added

variable {new : ReplicaEntry → Prop} {objects before after : Objects}

theorem Added.refl (objects : Objects) : Added new objects objects :=
  fun _ _ slot hslot _ hr ↦ .inr ⟨slot, hslot, hr⟩

theorem Added.trans {middle : Objects} (h' : Added new middle after) (h : Added new before middle) :
    Added new before after := by
  intro key j slot hslot r hr
  rcases h' key j slot hslot r hr with hnew | ⟨old, hold, hmem⟩
  · exact .inl hnew
  · exact h key j old hold r hmem

theorem added_erase (objects : Objects) (key : Key) : Added new objects (objects.erase key) := by
  intro other j slot hslot r hr
  unfold slotAt at hslot
  rw [SortedMap.find?_erase] at hslot
  split_ifs at hslot
  · cases hslot
  · exact .inr ⟨slot, hslot, hr⟩

theorem added_setSlot {key : Key} {obj : Object} (hfind : objects.find? key = some obj) {i : ℕ}
    {old slot : Slot} (hold : obj.slots[i]? = some old)
    (hslot : ∀ r ∈ slot.replicas, new r ∨ r ∈ old.replicas) :
    Added new objects (objects.insert key (obj.setSlot i slot)) := by
  intro other j found hfound r hr
  rw [slotAt_setSlot hfind hold] at hfound
  split_ifs at hfound with heq
  · cases hfound
    refine (hslot r hr).imp_right fun hmem ↦ ⟨old, ?_, hmem⟩
    rw [heq.1, heq.2, slotAt_of_find? hfind, hold]
  · exact .inr ⟨found, hfound, hr⟩

theorem Rewritten.added {key : Key} {i : ℕ} {f : Slot → Slot} (h : Rewritten before key i f after)
    (hf : ∀ s, ∀ r ∈ (f s).replicas, new r ∨ r ∈ s.replicas) : Added new before after := by
  intro other j slot hslot r hr
  by_cases heq : other = key ∧ j = i
  · obtain ⟨rfl, rfl⟩ := heq
    rw [h.slotAt_self] at hslot
    obtain ⟨old, hold, rfl⟩ := Option.map_eq_some_iff.mp hslot
    exact (hf old r hr).imp_right fun hmem ↦ ⟨old, hold, hmem⟩
  · rw [h.slotAt_ne other j heq] at hslot
    exact .inr ⟨slot, hslot, hr⟩

theorem Claimed.added {key : Key} {spec : ObjectSpec} {writable : List Bool}
    (h : Claimed before key spec writable after) : Added new before after := by
  intro other j slot hslot r hr
  by_cases heq : key = other
  · subst heq
    rcases h.slotAt_key j slot hslot with ⟨_, hsame⟩ | ⟨_, rfl, _⟩
    · exact .inr ⟨slot, hsame, hr⟩
    · exact absurd hr List.not_mem_nil
  · rw [h.slotAt_ne other j heq] at hslot
    exact .inr ⟨slot, hslot, hr⟩

theorem removeKeys_added (keys : List Key) : ∀ objects : Objects,
    Added new objects (removeKeys keys objects).2 := by
  induction keys with
  | nil => exact Added.refl
  | cons key keys ih =>
    intro objects
    refine (ih (removeKey objects key).2).trans ?_
    unfold removeKey
    cases objects.find? key with
    | none => exact Added.refl objects
    | some obj => exact added_erase objects key

theorem evictEntry_added {device : Device} {entry : FifoEntry} {popped : Popped}
    (h : evictEntry device entry objects = .ok popped) : Added new objects popped.objects := by
  unfold evictEntry at h
  cases hfind : objects.find? entry.1 with
  | none =>
    rw [hfind] at h
    cases h
    exact Added.refl objects
  | some obj =>
    rw [hfind] at h
    dsimp only at h
    split_ifs at h
    · cases h
      exact Added.refl objects
    · obtain ⟨slot, hslot, h⟩ := bind_eq_ok.mp h
      cases h
      dsimp only
      split_ifs
      · exact added_erase objects entry.1
      · exact added_setSlot hfind (index_eq_ok.mp hslot) fun r hr ↦
          .inr (List.mem_of_mem_filter hr)

theorem evictLoop_added {device : Device} {protect : Key} (queue : List FifoEntry) :
    ∀ {objects : Objects} {deferred : List FifoEntry} {round : Round},
      evictLoop device protect queue objects deferred = .ok round →
        Added new objects round.popped.objects := by
  induction queue with
  | nil =>
    intro objects deferred round h
    cases h
    exact Added.refl objects
  | cons entry queue ih =>
    intro objects deferred round h
    unfold evictLoop at h
    split_ifs at h
    · exact ih h
    · obtain ⟨popped, hpopped, h⟩ := bind_eq_ok.mp h
      have hfirst : Added new objects popped.objects := evictEntry_added hpopped
      split_ifs at h
      · cases h
        exact hfirst
      · exact (ih h).trans hfirst

theorem evictRound_added {st : State} {device : Device} {protect : Key}
    {r : Bool × List PinnedBuf × State} (h : st.evictRound device protect = .ok r) :
    Added new st.objects r.2.2.objects := by
  unfold State.evictRound at h
  obtain ⟨queue, _, h⟩ := bind_eq_ok.mp h
  obtain ⟨round, hround, h⟩ := bind_eq_ok.mp h
  cases h
  exact evictLoop_added queue hround

end Added

/-! ### Steps as the readers see them -/

/-- The replica is one the store owns. -/
def ReplicaEntry.Owned (r : ReplicaEntry) : Prop := r.buf?.isSome = true ∧ r.tier = .dram

/-- The `get`s in flight are the same, a poisoned lock stays so, and new replicas are as
described. -/
structure Quiet (new : ReplicaEntry → Prop) (w w' : World) : Prop where
  readers : w'.readers = w.readers
  lock : w.poisoned = true → w'.poisoned = true
  added : Added new w.state.objects w'.state.objects

/-- The action drops a region. -/
def Action.retires : Action → Bool
  | .retireRegion _ => true
  | _ => false

/-- What a step means for replicas and readers. -/
inductive Observed (inner : Inner) (w : World) : Action → World → Prop
  | quiet {action : Action} {w' : World} (hother : action.retires = false)
    (hquiet : Quiet ReplicaEntry.Owned w w') : Observed inner w action w'
  | published {key : Key} {op : OpPublish} {w' : World} {device : Device} {first : Iov}
    (hquiet : Quiet (fun r ↦ r = externalReplica device first op.src) w w') :
    Observed inner w (.publish key op) w'
  /-- A drop does nothing when the lock is poisoned. -/
  | retired {regionId : ℕ} {w' : World} (hreaders : w'.readers = w.readers)
    (hlock : w'.poisoned = w.poisoned)
    (hstate : (w.poisoned = true ∧ w'.state = w.state) ∨
      w'.state = w.state.retireRegion regionId) :
    Observed inner w (.retireRegion regionId) w'
  /-- A `get` took a replica of its slot. -/
  | selected {key : Key} {op : OpGet} {device : Device} {rd : Reader} {slot : Slot}
    (hlock : w.poisoned = false) (hvalid : op.validate = .ok (device, rd.dstLen)) (hop : rd.op = op)
    (hslot : slotAt w.state.objects key op.slot.toNat = some slot)
    (hreplica : rd.replica ∈ slot.replicas) :
    Observed inner w (.beginGet key op) { w with readers := w.readers ++ [rd] }
  | finished {k : ℕ} {outcome : CopyOutcome} {w' : World} (hreaders : w'.readers =
    w.readers.eraseIdx k) (hlock : w'.poisoned = w.poisoned) (hstate : w'.state = w.state) :
    Observed inner w (.finishGet k outcome) w'

section Quiet

variable {new : ReplicaEntry → Prop} {inner : Inner} {mem : ByteSpace} {w : World} {t : ℕ}
  {th : PutThread}

theorem quiet_of_objects {w' : World} (hreaders : w'.readers = w.readers)
    (hlock : w.poisoned = true → w'.poisoned = true)
    (hobjects : w'.state.objects = w.state.objects) : Quiet new w w' :=
  ⟨hreaders, hlock, by rw [hobjects]; exact Added.refl _⟩

theorem quiet_same (w : World) : Quiet new w w := quiet_of_objects rfl id rfl

theorem quiet_goto (t : ℕ) (th : PutThread) (pc : Pc) : Quiet new w (w.goto t th pc).1 :=
  quiet_of_objects rfl id rfl

theorem quiet_fail (t : ℕ) (th : PutThread) (e : Error) : Quiet new w (w.fail t th e).1 :=
  quiet_of_objects rfl id rfl

theorem quiet_unwind (t : ℕ) (th : PutThread) (reason : Panic) :
    Quiet new w (w.unwind t th reason).1 := quiet_of_objects rfl id rfl

theorem quiet_locked {α : Type} {sec : Exec α} {next : α → World × Reply}
    (hnext : ∀ a, sec = .ok a → Quiet new w (next a).1) :
    Quiet new w (w.locked t th sec next).1 := by
  unfold World.locked
  split_ifs
  · exact quiet_unwind t th _
  · cases sec with
    | error reason => exact quiet_of_objects rfl (fun _ ↦ rfl) rfl
    | ok a => exact hnext a rfl

theorem quiet_takeBuf (each : Bool) (target : UInt16 × Bool) (rest : List (UInt16 × Bool))
    (p : Placing) (full : Pc) (taken : Exec (Option (PinnedBuf × PinnedPool))) :
    Quiet new w (w.takeBuf t th each target rest p full taken).1 := by
  unfold World.takeBuf
  split
  · exact quiet_unwind t th _
  · exact quiet_goto t th _
  · exact quiet_of_objects rfl id rfl

theorem quiet_tryAlloc (ps : PutSlot) (target : UInt16 × Bool) (rest : List (UInt16 × Bool))
    (p : Placing) (full : PinnedPool → Pc) :
    Quiet new w (w.tryAlloc inner t th ps target rest p full).1 := by
  unfold World.tryAlloc
  split
  · exact quiet_goto t th _
  · exact quiet_takeBuf _ target rest p _ _

theorem quiet_store {placed : List Placed} :
    Quiet ReplicaEntry.Owned w (w.store t th placed).1 := by
  refine quiet_locked fun r hr ↦ ?_
  cases r with
  | error e => exact quiet_fail t th e
  | ok st =>
    refine ⟨rfl, id, (store_rewritten hr).1.added fun s r hmem ↦ ?_⟩
    refine (List.mem_append.mp hmem).symm.imp_left fun hin ↦ ?_
    obtain ⟨p, _, rfl⟩ := List.mem_map.mp hin
    exact ⟨rfl, rfl⟩

theorem quiet_unclaim {e : Error} : Quiet new w (w.unclaim t th e).1 := by
  refine quiet_locked fun st hst ↦ ⟨rfl, id, ?_⟩
  exact (unclaim_rewritten hst).added fun s r hmem ↦ .inr hmem

theorem quiet_evict {target : UInt16 × Bool} {rest : List (UInt16 × Bool)} {p : Placing} :
    Quiet new w (w.evict t th target rest p).1 :=
  quiet_locked fun _ hr ↦ ⟨rfl, id, evictRound_added hr⟩

theorem quiet_beginSlot (ps : PutSlot) : Quiet new w (w.beginSlot inner t th ps).1 := by
  unfold World.beginSlot
  split
  · exact quiet_unwind t th _
  · exact quiet_of_objects rfl id rfl
  · cases inner.targets ps.spec.placement with
    | error e => exact quiet_fail t th e
    | ok targets => exact quiet_goto t th _

theorem quiet_advance (outcome : CopyOutcome) :
    Quiet ReplicaEntry.Owned w (w.advance inner mem t th outcome).1 := by
  unfold World.advance
  cases th.op.slots[th.i]? with
  | none => exact quiet_of_objects rfl id rfl
  | some ps =>
    dsimp only
    unfold World.advanceSlot
    split
    · exact quiet_beginSlot ps
    · unfold World.endPlacing
      split_ifs
      · exact quiet_fail t th _
      · exact quiet_goto t th _
    · exact quiet_tryAlloc ps _ _ _ _
    · exact quiet_evict
    · exact quiet_tryAlloc ps _ _ _ _
    · exact quiet_goto t th _
    · cases outcome with
      | done => exact quiet_of_objects rfl id rfl
      | failed e moved => exact quiet_of_objects rfl id rfl
    · exact quiet_store
    · exact quiet_unclaim

end Quiet

section Observed

variable {inner : Inner} {mem mem' : ByteSpace} {w w' : World} {action : Action} {r : Reply}

/-- A section panics, or it returned a value and the lock was not poisoned. -/
theorem observed_section (hother : action.retires = false) {α : Type} {sec : Exec α}
    {next : α → World × Reply}
    (hnext : ∀ a, w.poisoned = false → sec = .ok a → Observed inner w action (next a).1) :
    Observed inner w action (w.section sec next).1 := by
  unfold World.section
  split_ifs with hlock
  · exact .quiet hother (quiet_same w)
  · cases sec with
    | error reason => exact .quiet hother (quiet_of_objects rfl (fun _ ↦ rfl) rfl)
    | ok a => exact hnext a (Bool.eq_false_of_not_eq_true hlock) rfl

theorem beginPut_observed (key : Key) (op : OpPut) :
    Observed inner w (.beginPut key op) (w.beginPut key op).1 := by
  unfold World.beginPut
  cases op.validate with
  | error e => exact .quiet rfl (quiet_same w)
  | ok _ =>
    refine observed_section rfl fun a _ ha ↦ ?_
    cases ha
    cases hclaim : w.state.claim key op.spec with
    | error e => exact .quiet rfl (quiet_same w)
    | ok pair => exact .quiet rfl ⟨rfl, id, (claim_claimed hclaim).added⟩

theorem publish_observed (key : Key) (op : OpPublish) :
    Observed inner w (.publish key op) (w.publish key op).1 := by
  unfold World.publish
  cases op.validate with
  | error e => exact .quiet rfl (quiet_same w)
  | ok pair =>
    refine observed_section rfl fun a _ ha ↦ ?_
    cases a with
    | error e => exact .quiet rfl (quiet_same w)
    | ok st =>
      obtain ⟨obj, slot, first, hfind, hget, hst⟩ := publish_ok ha
      have hadded : Added (fun r ↦ r = externalReplica pair.1 first op.src) w.state.objects
          st.objects := by
        rw [hst]
        refine added_setSlot hfind hget fun r hr ↦ ?_
        exact (List.mem_append.mp hr).symm.imp_left List.mem_singleton.mp
      exact .published ⟨rfl, id, hadded⟩

theorem removeKeys_observed (hother : action.retires = false) (keys : List Key) (reply : Reply) :
    Observed inner w action (w.removeKeys keys reply).1 := by
  refine observed_section hother fun a _ ha ↦ ?_
  cases ha
  exact .quiet hother ⟨rfl, id, removeKeys_added keys w.state.objects⟩

theorem beginGet_observed (key : Key) (op : OpGet) :
    Observed inner w (.beginGet key op) (w.beginGet inner key op).1 := by
  unfold World.beginGet
  cases hvalid : op.validate with
  | error e => exact .quiet rfl (quiet_same w)
  | ok pair =>
    refine observed_section rfl fun a hlock ha ↦ ?_
    cases a with
    | error e => exact .quiet rfl (quiet_same w)
    | ok found =>
      obtain ⟨slot, hslot, hreplica⟩ := select_mem ha
      exact @Observed.selected inner w key op pair.1 ⟨op, pair.2, found.1, found.2⟩ slot hlock
        hvalid rfl hslot hreplica

/-- Every step is one of those listed. -/
theorem exec_observed (h : w.exec inner mem action = some (w', mem', r)) :
    Observed inner w action w' := by
  cases action with
  | beginPut key op =>
    cases h
    exact beginPut_observed key op
  | advance t outcome =>
    obtain ⟨th, _, heq⟩ := Option.map_eq_some_iff.mp h
    cases heq
    exact .quiet rfl (quiet_advance outcome)
  | publish key op =>
    cases h
    exact publish_observed key op
  | remove keys =>
    cases h
    exact removeKeys_observed rfl keys _
  | removePrefix start =>
    cases h
    exact removeKeys_observed rfl _ _
  | retireRegion regionId =>
    cases h
    unfold World.retireRegion World.section
    split_ifs with hlock
    · exact .retired rfl rfl (.inl ⟨hlock, rfl⟩)
    · exact .retired rfl rfl (.inr rfl)
  | beginGet key op =>
    cases h
    exact beginGet_observed key op
  | finishGet k outcome =>
    obtain ⟨rd, _, heq⟩ := Option.map_eq_some_iff.mp h
    cases heq
    exact .finished rfl rfl rfl
  | userWrite addr bytes =>
    cases h
    exact .quiet rfl (quiet_same w)

end Observed

/-- In every reachable state the replicas the store owns are in DRAM. -/
theorem run_tier {inner : Inner} {bytes : UInt16 → ℕ} {history : List Event} {n : Node}
    (hrun : (backend inner bytes).Run history n) : ∀ key j slot,
      slotAt n.world.state.objects key j = some slot → ∀ r ∈ slot.replicas,
        r.buf?.isSome = true → r.tier = .dram := by
  refine run_invariant_of_step (I := fun n ↦ ∀ key j slot,
    slotAt n.world.state.objects key j = some slot → ∀ r ∈ slot.replicas,
      r.buf?.isSome = true → r.tier = .dram) (fun _ _ _ hslot ↦ (by cases hslot)) ?_ hrun
  intro n e n' live live' _ _ hn hstep key j slot hslot r hr howned
  have hobserved := exec_observed hstep.exec
  obtain ⟨action, reply⟩ := e
  obtain ⟨w', mem', g'⟩ := n'
  dsimp only at hobserved hslot
  cases hobserved with
  | quiet _ hquiet =>
    rcases hquiet.added key j slot hslot r hr with hnew | ⟨old, hold, hmem⟩
    · exact hnew.2
    · exact hn key j old hold r hmem howned
  | published hquiet =>
    rcases hquiet.added key j slot hslot r hr with hnew | ⟨old, hold, hmem⟩
    · rw [hnew] at howned
      cases howned
    · exact hn key j old hold r hmem howned
  | retired _ _ hstate =>
    rcases hstate with ⟨_, hsame⟩ | hretired
    · rw [hsame] at hslot
      exact hn key j slot hslot r hr howned
    · rw [hretired, slotAt_retireRegion] at hslot
      obtain ⟨old, hold, rfl⟩ := Option.map_eq_some_iff.mp hslot
      exact hn key j old hold r (List.mem_of_mem_filter hr) howned
  | selected => exact hn key j slot hslot r hr howned
  | finished _ _ hstate =>
    rw [hstate] at hslot
    exact hn key j slot hslot r hr howned

/-- A `get` returned `Ok`. -/
def Event.readOk (e : Event) : Bool :=
  match e.reply with
  | .get (.ok _) => true
  | _ => false

end Pegastore.Local
