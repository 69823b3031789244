import Pegastore.Memory.Content
import Pegastore.Memory.Coverage

/-!
# The order of eviction

`landing key i history` is the position in a history of the call that stored what is now in slot `i`
of `key`. Slots that one call stored are ordered by their index, so `LandedNoLater` compares the two
together.

A queue entry is a key and a slot, not a replica. As long as no slot is stored while an entry for it
is queued (`Unqueued`), the entries of what lives on a device stand in landing order
(`QueueOrdered`), through evictions, repairs and removals, and `eviction_fifo` follows: what a put
evicts from a device landed no later than what it leaves there. Without that condition an entry from
before a removal evicts what was stored after it (`young_replica_evicted_first`).
-/

set_option autoImplicit false
set_option relaxedAutoImplicit false

namespace Pegastore.Memory

open Outcome ByteMemory Transition

/-! ### Landing order -/

/-- The position of the last call that stored slot `i` of `key`. -/
def landing (key : Key) (i : ℕ) (history : List Event) : Option ℕ :=
  (history.zipIdx.reverse.find? fun p ↦ (p.1.storedBytes key i).isSome).map Prod.snd

theorem landing_snoc (key : Key) (i : ℕ) (history : List Event) (e : Event) :
    landing key i (history ++ [e]) =
      if (e.storedBytes key i).isSome then some history.length else landing key i history := by
  unfold landing
  rw [List.zipIdx_append, List.reverse_append, List.zipIdx_singleton, List.reverse_singleton,
    List.singleton_append, List.find?_cons]
  cases e.storedBytes key i with
  | none => rfl
  | some bytes => simp

theorem landing_lt {key : Key} {i n : ℕ} {history : List Event}
    (h : landing key i history = some n) : n < history.length := by
  obtain ⟨p, hp, rfl⟩ := Option.map_eq_some_iff.mp h
  have hmem := List.mem_reverse.mp (List.mem_of_find?_eq_some hp)
  simpa using List.snd_lt_of_mem_zipIdx hmem

/-- A slot has landed when some put stored it. -/
theorem landing_isSome (key : Key) (i : ℕ) (history : List Event) :
    (landing key i history).isSome = (lastStored key i history).isSome := by
  induction history using List.reverseRecOn with
  | nil => rfl
  | append_singleton history e ih =>
    rw [landing_snoc, lastStored_snoc]
    cases e.storedBytes key i with
    | none => simpa using ih
    | some bytes => simp

/-- The first slot was stored by an earlier call than the second, or by the same call and not after
it. -/
def LandedNoLater (history : List Event) (first second : Key × ℕ) : Prop :=
  ∃ n m, landing first.1 first.2 history = some n ∧ landing second.1 second.2 history = some m ∧
    (n < m ∨ (n = m ∧ first.2 ≤ second.2))

/-! ### The order of the queues -/

/-- No slot that the call may store has a queue entry already. -/
def Unqueued (st : State) : Op → Prop
  | .put key op => op.retention = .cache → ∀ i < op.slots.length,
    replicasAt st.objects key i = [] → ∀ device pool, st.pools device = some pool →
      queueEntry key i ∉ pool.fifo
  | _ => True

/-- The slot a queue entry names. -/
def slotOf (entry : FifoEntry) : Key × ℕ := (entry.1, entry.2.toNat)

/-- A `Cache` object owns bytes on the device in this slot. -/
def Evictable (device : Device) (objects : Objects) (slot : Key × ℕ) : Prop :=
  CacheAt objects slot.1 ∧ ∃ r ∈ replicasAt objects slot.1 slot.2, r.ownedOn device = true

/-- The entries of what lives on a device stand in landing order. -/
def QueueOrdered (history : List Event) (st : State) : Prop :=
  ∀ device pool, st.pools device = some pool → pool.fifo.Pairwise fun first second ↦
    Evictable device st.objects (slotOf first) → Evictable device st.objects (slotOf second) →
      LandedNoLater history (slotOf first) (slotOf second)

theorem LandedNoLater.snoc {history : List Event} {e : Event} {first second : Key × ℕ}
    (h : LandedNoLater history first second) (hfirst : e.storedBytes first.1 first.2 = none)
    (hsecond : e.storedBytes second.1 second.2 = none) :
    LandedNoLater (history ++ [e]) first second := by
  obtain ⟨n, m, hn, hm, horder⟩ := h
  refine ⟨n, m, ?_, ?_, horder⟩
  · rw [landing_snoc, hfirst]
    exact hn
  · rw [landing_snoc, hsecond]
    exact hm

theorem Evictable.of_shrinks {before after : State} (hshrinks : Shrinks before after)
    {device : Device} {slot : Key × ℕ} (h : Evictable device after.objects slot) :
    Evictable device before.objects slot := by
  obtain ⟨⟨spec, hspec, hret⟩, r, hr, howned⟩ := h
  exact ⟨⟨spec, hshrinks.spec_of _ _ hspec, hret⟩, r, hshrinks.owned_of _ _ r device hr howned,
    howned⟩

/-- The order after a call that stores nothing. -/
theorem QueueOrdered.of_shrinks {history : List Event} {e : Event} {before after : State}
    (h : QueueOrdered history before) (hshrinks : Shrinks before after)
    (hstored : ∀ key i, e.storedBytes key i = none) : QueueOrdered (history ++ [e]) after := by
  intro device pool' hpool'
  obtain ⟨pool, hpool, _, hfifo, _⟩ := hshrinks.pools device pool' hpool'
  rw [hfifo]
  refine (h device pool hpool).imp ?_
  intro first second horder hfirst hsecond
  exact (horder (hfirst.of_shrinks hshrinks) (hsecond.of_shrinks hshrinks)).snoc (hstored _ _)
    (hstored _ _)

/-! ### One put -/

/-- A put stores the slots that it reports `Ok`. -/
theorem storedBytes_put_isSome {mem : UserMemory} {kb key : Key} {op : OpPut} {i : ℕ}
    {results : List (Result Unit)} (hlength : results.length = op.slots.length) :
    (Event.storedBytes key i ⟨.put kb op, .put (.ok ⟨results⟩), mem⟩).isSome = true ↔
      kb = key ∧ results[i]? = some (.ok ()) := by
  unfold Event.storedBytes
  dsimp only
  split_ifs with hcase
  · obtain ⟨hkey, hreports⟩ := hcase
    have hok := reportsOk_iff.mp hreports
    have hlt : i < op.slots.length := by
      rw [← hlength]
      exact (List.getElem?_eq_some_iff.mp hok).1
    rw [List.getElem?_eq_getElem hlt]
    exact ⟨fun _ ↦ ⟨hkey, hok⟩, fun _ ↦ rfl⟩
  · constructor
    · intro hfalse
      cases hfalse
    · rintro ⟨hkey, hok⟩
      exact absurd ⟨hkey, reportsOk_iff.mpr hok⟩ hcase

section Put

variable {inner : Inner} {mem : UserMemory} {kb : Key} {op : OpPut} {first st : State}
  {results : List (Result Unit)}

/-- What an entry from before the put names afterwards lived before, and the put did not store
it. -/
theorem PutDone.live_before (h : PutDone inner mem kb op first results st)
    (hunqueued : Unqueued first (.put kb op)) {device : Device} {pool : Pool} {entry : FifoEntry}
    (hpool : first.pools device = some pool) (hentry : entry ∈ pool.fifo)
    (hlive : Evictable device st.objects (slotOf entry)) :
    Evictable device first.objects (slotOf entry) ∧
      Event.storedBytes entry.1 entry.2.toNat ⟨.put kb op, .put (.ok ⟨results⟩), mem⟩ = none := by
  obtain ⟨⟨spec, hspec, hret⟩, r, hr, howned⟩ := hlive
  have hnone : ¬ (kb = entry.1 ∧ results[entry.2.toNat]? = some (.ok ())) →
      Event.storedBytes entry.1 entry.2.toNat ⟨.put kb op, .put (.ok ⟨results⟩), mem⟩ = none := by
    intro hnot
    rw [← Option.not_isSome_iff_eq_none, storedBytes_put_isSome h.length]
    exact hnot
  by_cases hkey : entry.1 = kb
  · dsimp only [slotOf] at hspec hr
    rw [hkey, h.progress.spec_self, Option.some.injEq] at hspec
    subst hspec
    have hnot : results[entry.2.toNat]? ≠ some (.ok ()) := by
      -- A slot this put stored was empty, so no entry for it was queued.
      intro hok
      have hlt : entry.2.toNat < op.slots.length := by
        rw [← h.length]
        exact (List.getElem?_eq_some_iff.mp hok).1
      have hempty := (h.progress.landed _ _ (List.getElem?_eq_getElem hlt) hok).1
      have hself : queueEntry kb entry.2.toNat = entry := by
        rw [queueEntry, UInt32.ofNat_toNat, ← hkey]
      have hnotin := hunqueued hret _ hlt hempty device pool hpool
      rw [hself] at hnotin
      exact hnotin hentry
    rw [hkey, h.progress.kept _ hnot] at hr
    refine ⟨⟨⟨op.spec, ?_, hret⟩, r, hkey ▸ hr, howned⟩, hnone fun hboth ↦ hnot hboth.2⟩
    rcases h.progress.spec_before with habsent | hsame
    · rw [specAt_none_replicasAt habsent] at hr
      cases hr
    · exact hkey ▸ hsame
  · exact ⟨⟨⟨spec, h.progress.spec_other hkey hspec, hret⟩, r,
      (h.progress.sublist_other hkey _).subset hr, howned⟩, hnone fun hboth ↦ hkey hboth.1.symm⟩

/-- What lives on a device has landed. -/
theorem Evictable.landed {history : List Event} (hholds : HoldsLastStored history first)
    {device : Device} {slot : Key × ℕ} (h : Evictable device first.objects slot) :
    ∃ n, landing slot.1 slot.2 history = some n := by
  obtain ⟨_, r, hr, howned⟩ := h
  obtain ⟨_, bytes, hdata⟩ := ReplicaEntry.ownedOn_iff.mp howned
  rw [← Option.isSome_iff_exists, landing_isSome, hholds _ _ r bytes hr hdata]
  rfl

/-- A put keeps the queues in landing order. -/
theorem QueueOrdered.put {history : List Event} (h : PutDone inner mem kb op first results st)
    (hfew : op.slots.length ≤ 2 ^ 32) (hunqueued : Unqueued first (.put kb op))
    (hholds : HoldsLastStored history first) (hordered : QueueOrdered history first) :
    QueueOrdered (history ++ [⟨.put kb op, .put (.ok ⟨results⟩), mem⟩]) st := by
  intro device pool' hpool'
  obtain ⟨gone, added, hdrained, hqueued⟩ := h.progress.drained
  obtain ⟨pool, kept, hpool, hmoved⟩ := hdrained.queues device pool' hpool'
  have hnew : ∀ i ∈ added device, slotOf (queueEntry kb i) = (kb, i) ∧
      landing kb i (history ++ [⟨.put kb op, .put (.ok ⟨results⟩), mem⟩]) =
        some history.length := by
    intro i hi
    have hok := hqueued.landed device i hi
    have hlt : i < 2 ^ 32 := by
      refine (List.getElem?_eq_some_iff.mp hok).1.trans_le ?_
      rw [h.length]
      exact hfew
    refine ⟨by rw [slotOf, queueEntry_toNat kb hlt]; rfl, ?_⟩
    rw [landing_snoc, if_pos ((storedBytes_put_isSome h.length).mpr ⟨rfl, hok⟩)]
  rw [hmoved.after_eq, List.pairwise_append]
  refine ⟨?_, ?_, ?_⟩
  · refine ((hordered device pool hpool).sublist hmoved.sublist).imp_of_mem ?_
    intro a b ha hb horder halive hblive
    obtain ⟨ha', hanone⟩ :=
      h.live_before hunqueued hpool (hmoved.sublist.subset ha) halive
    obtain ⟨hb', hbnone⟩ :=
      h.live_before hunqueued hpool (hmoved.sublist.subset hb) hblive
    exact (horder ha' hb').snoc hanone hbnone
  · rw [List.pairwise_map]
    refine (hqueued.sorted device).imp_of_mem ?_
    intro i j hi hj hle _ _
    obtain ⟨hislot, hilanding⟩ := hnew i hi
    obtain ⟨hjslot, hjlanding⟩ := hnew j hj
    rw [hislot, hjslot]
    exact ⟨_, _, hilanding, hjlanding, Or.inr ⟨rfl, hle⟩⟩
  · intro a ha b hb halive _
    obtain ⟨j, hj, rfl⟩ := List.mem_map.mp hb
    obtain ⟨hjslot, hjlanding⟩ := hnew j hj
    obtain ⟨ha', hanone⟩ :=
      h.live_before hunqueued hpool (hmoved.sublist.subset ha) halive
    obtain ⟨n, hn⟩ := ha'.landed hholds
    rw [hjslot]
    refine ⟨n, _, ?_, hjlanding, Or.inl (landing_lt hn)⟩
    rw [landing_snoc, slotOf, hanone]
    exact hn

end Put

/-! ### Every run -/

/-- One call that meets the conditions keeps the queues in landing order. -/
theorem Effect.queueOrdered {inner : Inner} {w w' : World} {e : Event} {history : List Event}
    (h : Effect inner w e.op e.reply w') (hmem : e.mem = w.mem) (hfew : FewSlots e.op)
    (hunqueued : Unqueued w.state e.op) (hholds : HoldsLastStored history w.state)
    (hordered : QueueOrdered history w.state) : QueueOrdered (history ++ [e]) w'.state := by
  obtain ⟨op, reply, mem⟩ := e
  dsimp only at h hmem hfew hunqueued
  subst hmem
  rcases h.put_or_shrinks with ⟨key, request, results, rfl, rfl, hdone⟩ | ⟨hshrinks, hreply⟩
  · exact QueueOrdered.put hdone hfew hunqueued hholds hordered
  · refine hordered.of_shrinks hshrinks ?_
    intro key i
    unfold Event.storedBytes
    split
    · next hput => exact absurd hput (hreply _)
    · rfl

theorem run_queueOrdered {b : MemoryBuilder} {m₀ : UserMemory} {history : List Event} {w : World}
    (h : ((memory b m₀).restrict fun w e ↦ FewSlots e.op ∧ Unqueued w.state e.op).Run history w) :
    HoldsLastStored history w.state ∧ QueueOrdered history w.state := by
  refine ⟨run_holdsLastStored h.of_restrict, ?_⟩
  refine System.Run.induction (I := fun history w ↦ QueueOrdered history w.state) ?_ ?_ h
  · intro device pool hpool
    rw [(buildPools_some hpool).2.1]
    exact List.Pairwise.nil
  · rintro history w e w' hrun hordered ⟨⟨hfew, hunqueued⟩, hstep⟩
    have heffect := step_effect (run_sound hrun.of_restrict) hstep
    exact heffect.queueOrdered hstep.2.1 hfew hunqueued (run_holdsLastStored hrun.of_restrict)
      hordered

/-- What another key loses to a put landed no later than what stays of other keys. -/
theorem Drained.landedNoLater {kb : Key} {gone : Device → List FifoEntry} {added : Device → List ℕ}
    {before after : State} (h : Drained kb gone added before after) {history : List Event}
    (hcovered : Covered before) (hordered : QueueOrdered history before)
    (hpools : ∀ device, (after.pools device).isSome = (before.pools device).isSome)
    {device : Device} {key key' : Key} {i j : ℕ}
    {r r' : ReplicaEntry} (hkey : key ≠ kb) (hr : r ∈ replicasAt before.objects key i)
    (howned : r.ownedOn device = true) (hevicted : r ∉ replicasAt after.objects key i)
    (hkey' : key' ≠ kb) (hcache' : CacheAt after.objects key')
    (hr' : r' ∈ replicasAt after.objects key' j) (howned' : r'.ownedOn device = true) :
    LandedNoLater history (key, i) (key', j) := by
  obtain ⟨hcache, other, hsome, hother, first, hfirst, rfl, rfl⟩ := h.lost key i r hkey hr hevicted
  have hdevice : other = device := by
    rw [← (ReplicaEntry.ownedOn_iff.mp hother).1, (ReplicaEntry.ownedOn_iff.mp howned).1]
  subst hdevice
  rw [← hpools other] at hsome
  obtain ⟨pool', hpool'⟩ := Option.isSome_iff_exists.mp hsome
  obtain ⟨second, hsecond, rfl, rfl⟩ :=
    h.covered_other hcovered hkey' hpool' hcache' hr' howned'
  obtain ⟨pool, kept, hpool, hmoved⟩ := h.queues other pool' hpool'
  rw [hmoved.after_eq, othersOf_append, othersOf_queueEntries, List.append_nil] at hsecond
  have hpairwise := (hordered other pool hpool).filter fun e ↦ e.1 ≠ kb
  have hsplit : pool.fifo.filter (fun e ↦ e.1 ≠ kb) = gone other ++ othersOf kb kept :=
    hmoved.others
  rw [hsplit, List.pairwise_append] at hpairwise
  obtain ⟨spec, hspec, hret⟩ := hcache'
  exact hpairwise.2.2 first hfirst second hsecond ⟨hcache, r, hr, howned⟩
    ⟨⟨spec, h.spec_of _ spec hkey' hspec, hret⟩, r', (h.sublist _ _ hkey').subset hr', howned'⟩

/-- In every run in which no put stores a slot that is still queued, what a put evicts from a device
landed no later than what it leaves there of other keys. -/
theorem eviction_fifo {b : MemoryBuilder} {m₀ : UserMemory} {history : List Event} {w w' : World}
    {e : Event} {kb : Key} {op : OpPut}
    (hrun : ((memory b m₀).restrict fun w e ↦ FewSlots e.op ∧ Unqueued w.state e.op).Run history w)
    (hstep : (memory b m₀).step w e w') (hop : e.op = .put kb op) {device : Device} {key : Key}
    {i : ℕ} {r : ReplicaEntry} (hr : r ∈ replicasAt w.state.objects key i)
    (howned : r.ownedOn device = true) (hevicted : r ∉ replicasAt w'.state.objects key i)
    {key' : Key} {j : ℕ} {r' : ReplicaEntry} (hkey' : key' ≠ kb)
    (hcache' : CacheAt w'.state.objects key') (hr' : r' ∈ replicasAt w'.state.objects key' j)
    (howned' : r'.ownedOn device = true) : LandedNoLater history (key, i) (key', j) := by
  obtain ⟨_, hordered⟩ := run_queueOrdered hrun
  have hcovered : Covered w.state := run_covered (hrun.weaken fun _ _ h ↦ h.1)
  have heffect := step_effect (run_sound hrun.of_restrict) hstep
  rw [hop] at heffect
  generalize e.reply = reply at heffect
  cases heffect with
  | putRefused => exact absurd hr hevicted
  | @put _ _ results _ hdone =>
    have hkey : key ≠ kb := by
      -- The key being put keeps what it had.
      rintro rfl
      refine hevicted ?_
      rw [hdone.progress.kept i ?_]
      · exact hr
      · intro hok
        have hlt : i < op.slots.length := by
          rw [← hdone.length]
          exact (List.getElem?_eq_some_iff.mp hok).1
        rw [(hdone.progress.landed i _ (List.getElem?_eq_getElem hlt) hok).1] at hr
        cases hr
    obtain ⟨gone, added, hdrained, _⟩ := hdone.progress.drained
    exact hdrained.landedNoLater hcovered hordered hdone.progress.pools_isSome hkey hr howned
      hevicted hkey' hcache' hr' howned'

/-! ### Runs that put no key twice -/

/-- The key of a put. -/
def Op.putKey : Op → Option Key
  | .put key _ => some key
  | _ => none

/-- The keys that were put, in order. -/
def putKeys (history : List Event) : List Key := history.filterMap fun e ↦ e.op.putKey

/-- A queued key was put. -/
theorem mem_putKeys_of_queued {b : MemoryBuilder} {m₀ : UserMemory} {history : List Event}
    {w : World} (hrun : (memory b m₀).Run history w) {device : Device} {pool : Pool}
    {entry : FifoEntry} (hpool : w.state.pools device = some pool) (hentry : entry ∈ pool.fifo) :
    entry.1 ∈ putKeys history := by
  revert device pool entry
  refine System.Run.induction (I := fun history w ↦ ∀ {device : Device} {pool : Pool}
    {entry : FifoEntry}, w.state.pools device = some pool → entry ∈ pool.fifo →
      entry.1 ∈ putKeys history) ?_ ?_ hrun
  · intro device pool entry hpool hentry
    rw [(buildPools_some hpool).2.1] at hentry
    cases hentry
  · intro history w e w' hrun hqueued hstep device pool' entry hpool' hentry
    have heffect := step_effect (run_sound hrun) hstep
    rw [putKeys, List.filterMap_append, List.mem_append]
    rcases heffect.put_or_shrinks with ⟨key, request, results, hop, _, hdone⟩ | ⟨hshrinks, _⟩
    · obtain ⟨pool, hpool, hold | ⟨hkey, _⟩⟩ :=
        hdone.progress.mem_fifo hdone.length.le hpool' hentry
      · exact Or.inl (hqueued hpool hold)
      · right
        simp [hop, Op.putKey, hkey]
    · obtain ⟨pool, hpool, _, hfifo, _⟩ := hshrinks.pools device pool' hpool'
      exact Or.inl (hqueued hpool (hfifo ▸ hentry))

/-- In a run that puts no key twice, no put finds one of its slots queued. -/
theorem run_of_distinct_keys {b : MemoryBuilder} {m₀ : UserMemory} {history : List Event}
    {w : World} (hrun : (memory b m₀).Run history w) (hfew : ∀ e ∈ history, FewSlots e.op)
    (hdistinct : (putKeys history).Nodup) :
    ((memory b m₀).restrict fun w e ↦ FewSlots e.op ∧ Unqueued w.state e.op).Run history w := by
  revert hfew hdistinct
  refine System.Run.induction (S := memory b m₀) (I := fun history w ↦
    (∀ e ∈ history, FewSlots e.op) → (putKeys history).Nodup →
      ((memory b m₀).restrict fun w e ↦ FewSlots e.op ∧ Unqueued w.state e.op).Run history w)
    (fun _ _ ↦ System.Run.nil) ?_ hrun
  intro history w e w' hrun ih hstep hfew hdistinct
  rw [putKeys, List.filterMap_append, List.nodup_append] at hdistinct
  obtain ⟨hnodup, _, hnew⟩ := hdistinct
  refine System.Run.snoc (ih (fun other hother ↦ hfew other (List.mem_append_left _ hother)) hnodup)
    ⟨⟨hfew e (by simp), ?_⟩, hstep⟩
  cases hop : e.op with
  | put key op =>
    intro _ i _ _ device pool hpool hentry
    have hold : key ∈ putKeys history := mem_putKeys_of_queued hrun hpool hentry
    exact hnew key hold key (by simp [hop, Op.putKey]) rfl
  | register | dropRegion | userWrite | publish | get | stat | remove | removePrefix => trivial

namespace Scenario

/-- A put of one byte on the first device. -/
def putByte (key : Key) : Op := .put key ⟨.cache, [slotOn (.strict (.cpu 0)) 1]⟩

/-- Slot 0 of a key has a replica the store owns on the first device. -/
def onFirst (w : World) (key : Key) : Option ReplicaEntry :=
  (replicasAt w.state.objects key 0).find? fun r ↦ r.ownedOn (.cpu 0)

theorem mem_of_onFirst {w : World} {key : Key} {r : ReplicaEntry} (h : onFirst w key = some r) :
    r ∈ replicasAt w.state.objects key 0 ∧ r.ownedOn (.cpu 0) = true :=
  ⟨List.mem_of_find?_eq_some h, List.find?_some h⟩

theorem not_mem_of_onFirst {w : World} {key : Key} {r : ReplicaEntry} (h : onFirst w key = none)
    (howned : r.ownedOn (.cpu 0) = true) : r ∉ replicasAt w.state.objects key 0 := fun hr ↦
  List.find?_eq_none.mp h r hr howned

/-- The put of a third key evicts `gone` from the first device and leaves `left` there. -/
def evicts (gone left : Key) (w w' : World) : Bool :=
  (onFirst w gone).isSome && (onFirst w' gone).isNone && (onFirst w' left).isSome &&
    (specAt w'.state.objects left).any fun spec ↦ spec.retention = .cache

theorem evicts_iff {gone left : Key} {w w' : World} (h : evicts gone left w w' = true) :
    (∃ r, r ∈ replicasAt w.state.objects gone 0 ∧ r.ownedOn (.cpu 0) = true ∧
      r ∉ replicasAt w'.state.objects gone 0) ∧
    CacheAt w'.state.objects left ∧
    ∃ r, r ∈ replicasAt w'.state.objects left 0 ∧ r.ownedOn (.cpu 0) = true := by
  simp only [evicts, Bool.and_eq_true] at h
  obtain ⟨⟨⟨hbefore, hafter⟩, hleft⟩, hcache⟩ := h
  obtain ⟨r, hr⟩ := Option.isSome_iff_exists.mp hbefore
  obtain ⟨hmem, howned⟩ := mem_of_onFirst hr
  obtain ⟨r', hr'⟩ := Option.isSome_iff_exists.mp hleft
  obtain ⟨spec, hspec, hret⟩ := (Option.any_eq_true _ _).mp hcache
  exact ⟨⟨r, hmem, howned, not_mem_of_onFirst (Option.isNone_iff_eq_none.mp hafter) howned⟩,
    ⟨spec, hspec, of_decide_eq_true hret⟩, r', mem_of_onFirst hr'⟩

/-- Under pressure the byte that landed first goes first. -/
theorem eviction_fifo_oldest_first : ∃ history w e w', (memory (backend 2) mem).Run history w ∧
    (memory (backend 2) mem).step w e w' ∧ e.op = putByte [3] ∧
    evicts [1] [2] w w' = true ∧ LandedNoLater history ([1], 0) ([2], 0) := by
  obtain ⟨history, w, e, w', hops, hrun, hstep, hop, hcheck⟩ := exists_run_step
    2 [registerBuffer, putByte [1], putByte [2]] (putByte [3])
    (fun _ w _ w' ↦ evicts [1] [2] w w') (by rfl)
  have hfew : ∀ e ∈ history, FewSlots e.op := by
    intro e he
    have hmem : e.op ∈ history.map Event.op := List.mem_map_of_mem he
    rw [hops] at hmem
    simp only [List.mem_cons, List.not_mem_nil, or_false] at hmem
    rcases hmem with h | h | h
    · rw [h]
      trivial
    · rw [h]
      exact Nat.one_le_two_pow
    · rw [h]
      exact Nat.one_le_two_pow
  have hdistinct : (putKeys history).Nodup := by
    have hkeys : putKeys history = (history.map Event.op).filterMap Op.putKey := by
      rw [List.filterMap_map]
      rfl
    rw [hkeys, hops]
    decide
  obtain ⟨⟨r, hr, howned, hevicted⟩, hcache, r', hr', howned'⟩ := evicts_iff hcheck
  exact ⟨history, w, e, w', hrun, hstep, hop, hcheck,
    eviction_fifo (run_of_distinct_keys hrun hfew hdistinct) hstep hop hr howned hevicted
      (show [2] ≠ [3] by decide) hcache hr' howned'⟩

/-- The first key is removed and put again after the second, and still goes first: the entry of its
removed object is at the head of the queue. -/
theorem young_replica_evicted_first : ∃ history w e w' r r',
    (memory (backend 2) mem).Run history w ∧ (memory (backend 2) mem).step w e w' ∧
    e.op = putByte [3] ∧
    (r ∈ replicasAt w.state.objects [1] 0 ∧ r.ownedOn (.cpu 0) = true ∧
      r ∉ replicasAt w'.state.objects [1] 0) ∧
    (CacheAt w'.state.objects [2] ∧ r' ∈ replicasAt w'.state.objects [2] 0 ∧
      r'.ownedOn (.cpu 0) = true) ∧
    landing [1] 0 history = some 4 ∧ landing [2] 0 history = some 3 ∧
    ¬ LandedNoLater history ([1], 0) ([2], 0) := by
  obtain ⟨history, w, e, w', _, hrun, hstep, hop, hcheck⟩ := exists_run_step
    2 [registerBuffer, putByte [1], .remove [[1]], putByte [2], putByte [1]] (putByte [3])
    (fun history w _ w' ↦ evicts [1] [2] w w' && decide (landing [1] 0 history = some 4 ∧
      landing [2] 0 history = some 3)) (by rfl)
  obtain ⟨hevicts, hlanding⟩ := Bool.and_eq_true_iff.mp hcheck
  obtain ⟨hfirst, hsecond⟩ := of_decide_eq_true hlanding
  obtain ⟨⟨r, hgone⟩, hcache, r', hleft⟩ := evicts_iff hevicts
  refine ⟨history, w, e, w', r, r', hrun, hstep, hop, hgone, ⟨hcache, hleft⟩, hfirst, hsecond, ?_⟩
  rintro ⟨n, m, hn, hm, horder⟩
  rw [hfirst, Option.some.injEq] at hn
  rw [hsecond, Option.some.injEq] at hm
  omega

end Scenario

end Pegastore.Memory
