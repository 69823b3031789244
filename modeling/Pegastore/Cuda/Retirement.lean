import Pegastore.Cuda.Flags
import Pegastore.Cuda.Readers

/-!
# Drops of regions and `get`s in flight

A `get` keeps its clone of a replica after it has released the lock. For a buffer of the store that
keeps the bytes alive; an `External` replica only names user memory. The drop of a region edits the
metadata and does not wait for the `get`s that have already selected, and it finds a replica only by
the region of its first segment, so a `get` can copy from memory of a region that is gone
(`get_reads_dropped_region`).

`RetiresAlone` is the condition under which that does not happen, stated in the state before the
drop.
-/

set_option autoImplicit false
set_option relaxedAutoImplicit false

namespace Pegastore.Local

open Outcome ByteMemory Transition

/-- The segments of a replica in user memory, with the regions they were taken from. -/
def ReplicaData.parts : ReplicaData → List (Segment × ℕ)
  | .pinned _ => []
  | .external segs _ origins => segs.zip origins

/-- Some byte of the replica lies in the region. -/
def ReplicaEntry.Uses (r : ReplicaEntry) (regionId : ℕ) : Prop :=
  ∃ part ∈ r.data.parts, part.2 = regionId ∧ 0 < part.1.len

/-- The `get` is going to copy a byte of the region: its range is inside the slot, and byte `k` of a
segment of the region is inside its range. -/
def Reader.Reads (rd : Reader) (regionId : ℕ) : Prop :=
  (∃ last, checkedAdd rd.op.srcOffset rd.dstLen = some last ∧ last ≤ rd.slotLen) ∧
    ∃ before part after k, rd.replica.data.parts = before ++ part :: after ∧ part.2 = regionId ∧
      k < part.1.len ∧ rd.op.srcOffset ≤ totalLen (before.map Prod.fst) + k ∧
      totalLen (before.map Prod.fst) + k < rd.op.srcOffset + rd.dstLen

theorem Reader.Reads.uses {rd : Reader} {regionId : ℕ} (h : rd.Reads regionId) :
    rd.replica.Uses regionId := by
  obtain ⟨_, before, part, after, k, hparts, hid, hk, _⟩ := h
  refine ⟨part, ?_, hid, Nat.zero_lt_of_lt hk⟩
  rw [hparts]
  exact List.mem_append_right _ List.mem_cons_self

theorem not_uses_of_owned {r : ReplicaEntry} (h : r.Owned) (regionId : ℕ) : ¬ r.Uses regionId := by
  intro ⟨part, hpart, _⟩
  unfold ReplicaEntry.Owned ReplicaEntry.buf? at h
  cases hdata : r.data with
  | pinned buf =>
    rw [hdata] at hpart
    exact absurd hpart List.not_mem_nil
  | external segs id origins =>
    rw [hdata] at h
    cases h.1

/-- A published replica uses only regions of its source list. -/
theorem mem_of_uses_externalReplica {device : Device} {first : Iov} {src : List Iov} {regionId : ℕ}
    (h : (externalReplica device first src).Uses regionId) :
    ∃ iov ∈ src, iov.region.id = regionId := by
  obtain ⟨part, hpart, hid, _⟩ := h
  have hmem : part.2 ∈ src.map fun iov ↦ iov.region.id := (List.of_mem_zip hpart).2
  obtain ⟨iov, hiov, heq⟩ := List.mem_map.mp hmem
  exact ⟨iov, hiov, heq.trans hid⟩

/-- The segments an action publishes. -/
def Action.publishes : Action → List Iov
  | .publish _ op => op.src
  | _ => []

/-- What the borrow checker asks of callers: a `publish` takes its segments from regions that have
not been dropped. -/
def Borrows (n : Node) (action : Action) : Prop :=
  ∀ iov ∈ action.publishes, iov.region.id ∉ n.ghost.dropped

instance (n : Node) (action : Action) : Decidable (Borrows n action) :=
  inferInstanceAs (Decidable (∀ iov ∈ action.publishes, iov.region.id ∉ n.ghost.dropped))

/-- The runs that the borrow checker admits. -/
def borrowingBackend (inner : Inner) (bytes : UInt16 → ℕ) : System Node Event :=
  (backend inner bytes).restrict fun n e ↦ Borrows n e.action

/-- A region is dropped only while no `get` in flight is going to copy from it, and while every
replica with a byte of it was published with a segment of it in the first place. -/
def RetiresAlone (w : World) (action : Action) : Prop :=
  ∀ regionId, action = .retireRegion regionId →
    (∀ rd ∈ w.readers, ¬ rd.Reads regionId) ∧
      ∀ key j slot, slotAt w.state.objects key j = some slot → ∀ r ∈ slot.replicas,
        r.Uses regionId → r.publishedFrom regionId = true

/-- No `get` in flight copies from a dropped region, and none will: no replica uses one, unless the
lock is poisoned and nobody can select any more. -/
structure Retired (n : Node) : Prop where
  readers : ∀ rd ∈ n.world.readers, ∀ regionId ∈ n.ghost.dropped, ¬ rd.Reads regionId
  replicas : n.world.poisoned = false → ∀ key j slot,
    slotAt n.world.state.objects key j = some slot → ∀ r ∈ slot.replicas,
      ∀ regionId ∈ n.ghost.dropped, ¬ r.Uses regionId

section Retired

variable {inner : Inner} {bytes : UInt16 → ℕ} {n : Node} {w' : World}

theorem Ghost.dropped_copy (g : Ghost) (mem : ByteSpace) (th : PutThread) (outcome : CopyOutcome) :
    (g.copy mem th outcome).dropped = g.dropped := by
  unfold Ghost.copy
  split <;> rfl

theorem Ghost.dropped_alloc (g : Ghost) (w w' : World) (t : ℕ) (th : PutThread) :
    (g.alloc w w' t th).dropped = g.dropped := by
  unfold Ghost.alloc
  split_ifs <;> rfl

/-- The regions on record as dropped after a step. -/
theorem mem_dropped_record {g : Ghost} {w : World} {mem : ByteSpace} {action : Action}
    {regionId : ℕ} (h : regionId ∈ (g.record w w' mem action).dropped) :
    regionId ∈ g.dropped ∨ action = .retireRegion regionId := by
  cases action with
  | retireRegion id =>
    rcases List.mem_cons.mp h with rfl | h
    · exact .inr rfl
    · exact .inl h
  | beginPut key op =>
    unfold Ghost.record at h
    dsimp only at h
    split_ifs at h
    · exact .inl h
    · exact .inl h
  | advance t outcome =>
    unfold Ghost.record at h
    dsimp only at h
    split at h
    · exact .inl h
    · rw [Ghost.dropped_alloc, Ghost.dropped_copy] at h
      exact .inl h
  | publish | remove | removePrefix | beginGet | finishGet | userWrite => exact .inl h

/-- The invariant after a step that drops nothing and begins no `get`. -/
theorem Retired.quiet (h : Retired n) {new : ReplicaEntry → Prop} {mem : ByteSpace} {g' : Ghost}
    (hquiet : Quiet new n.world w') (hdropped : ∀ id ∈ g'.dropped, id ∈ n.ghost.dropped)
    (hnew : ∀ r, new r → ∀ id ∈ n.ghost.dropped, ¬ r.Uses id) : Retired ⟨w', mem, g'⟩ where
  readers := by
    intro rd hrd id hid
    rw [hquiet.readers] at hrd
    exact h.readers rd hrd id (hdropped id hid)
  replicas := by
    intro hlock key j slot hslot r hr id hid
    have hbefore : n.world.poisoned = false := by
      refine Bool.eq_false_of_not_eq_true fun hpoisoned ↦ ?_
      rw [hquiet.lock hpoisoned] at hlock
      cases hlock
    rcases hquiet.added key j slot hslot r hr with hin | ⟨old, hold, hmem⟩
    · exact hnew r hin id (hdropped id hid)
    · exact h.replicas hbefore key j old hold r hmem id (hdropped id hid)

/-- One step keeps the invariant. -/
theorem Retired.step (h : Retired n) {e : Event} {n' : Node} (hstep : IsStep inner n e n')
    (hborrows : Borrows n e.action) (halone : RetiresAlone n.world e.action) : Retired n' := by
  have hobserved := exec_observed hstep.exec
  have hdropped : ∀ id ∈ n'.ghost.dropped, id ∈ n.ghost.dropped ∨ e.action = .retireRegion id := by
    intro id hid
    rw [hstep.ghost] at hid
    exact mem_dropped_record hid
  obtain ⟨action, reply⟩ := e
  obtain ⟨w', mem', g'⟩ := n'
  dsimp only at hobserved hdropped halone
  have hsame : action.retires = false → ∀ id ∈ g'.dropped, id ∈ n.ghost.dropped := by
    intro hother id hid
    refine (hdropped id hid).resolve_right fun heq ↦ ?_
    rw [heq] at hother
    cases hother
  cases hobserved with
  | quiet hother hquiet =>
    exact h.quiet hquiet (hsame hother) fun r hr id _ ↦ not_uses_of_owned hr id
  | @published key op _ device first hquiet =>
    refine h.quiet hquiet (hsame rfl) fun r hr id hid huses ↦ ?_
    rw [hr] at huses
    obtain ⟨iov, hiov, hregion⟩ := mem_of_uses_externalReplica huses
    rw [← hregion] at hid
    exact hborrows iov hiov hid
  | @retired regionId _ hreaders hlock hstate =>
    obtain ⟨hfree, htagged⟩ := halone regionId rfl
    constructor
    · intro rd hrd id hid
      change rd ∈ w'.readers at hrd
      rw [hreaders] at hrd
      rcases hdropped id hid with hold | heq
      · exact h.readers rd hrd id hold
      · cases heq
        exact hfree rd hrd
    · intro hunpoisoned key j slot hslot r hr id hid huses
      change w'.poisoned = false at hunpoisoned
      change slotAt w'.state.objects key j = some slot at hslot
      rw [hlock] at hunpoisoned
      have hretired : w'.state = n.world.state.retireRegion regionId :=
        hstate.resolve_left fun hpoisoned ↦ Bool.eq_false_iff.mp hunpoisoned hpoisoned.1
      rw [hretired, slotAt_retireRegion] at hslot
      obtain ⟨old, hold, rfl⟩ := Option.map_eq_some_iff.mp hslot
      obtain ⟨hmem, hkept⟩ := List.mem_filter.mp hr
      rcases hdropped id hid with hbefore | heq
      · exact h.replicas hunpoisoned key j old hold r hmem id hbefore huses
      · cases heq
        rw [htagged key j old hold r hmem huses] at hkept
        cases hkept
  | @selected key op device rd slot hlock _ _ hslot hreplica =>
    constructor
    · intro other hother id hid hreads
      rcases List.mem_append.mp hother with hold | hnew
      · exact h.readers other hold id (hsame rfl id hid) hreads
      · rw [List.mem_singleton.mp hnew] at hreads
        exact h.replicas hlock key op.slot.toNat slot hslot rd.replica hreplica id
          (hsame rfl id hid) hreads.uses
    · exact fun hunpoisoned key j slot hslot r hr id hid ↦
        h.replicas hunpoisoned key j slot hslot r hr id (hsame rfl id hid)
  | @finished k outcome _ hreaders hlock hstate =>
    constructor
    · intro rd hrd id hid
      change rd ∈ w'.readers at hrd
      rw [hreaders] at hrd
      exact h.readers rd (List.mem_of_mem_eraseIdx hrd) id (hsame rfl id hid)
    · intro hunpoisoned key j slot hslot r hr id hid
      change w'.poisoned = false at hunpoisoned
      change slotAt w'.state.objects key j = some slot at hslot
      rw [hlock] at hunpoisoned
      rw [hstate] at hslot
      exact h.replicas hunpoisoned key j slot hslot r hr id (hsame rfl id hid)

end Retired

/-- In every run whose drops meet the condition, no `get` in flight is going to copy from a region
that has been dropped. -/
theorem no_get_from_dropped_region {inner : Inner} {bytes : UInt16 → ℕ} {n : Node}
    {history : List Event}
    (hrun : ((backend inner bytes).restrict fun n e ↦
      Borrows n e.action ∧ RetiresAlone n.world e.action).Run history n) :
    ∀ rd ∈ n.world.readers, ∀ regionId ∈ n.ghost.dropped, ¬ rd.Reads regionId := by
  have hstart : Retired (backend inner bytes).start :=
    ⟨fun _ hrd ↦ absurd hrd List.not_mem_nil, fun _ _ _ _ hslot ↦ (by cases hslot)⟩
  have hretired : Retired n := by
    refine run_invariant hstart ?_ hrun
    exact fun n e n' _ _ _ _ hcondition hn hstep ↦ hn.step hstep hcondition.1 hcondition.2
  exact hretired.readers

namespace Scenario

theorem window_fits : 16 + 8 ≤ 2 ^ 64 := by decide

/-- A second and a third region of user memory. -/
def window (id : ℕ) : MemoryRegion := ⟨id, 16, 8, .cpu 0, window_fits⟩

/-- A slot of two bytes with a claim on it, published from two regions. -/
def published : List Action :=
  [.beginPut key ⟨.cache, [slotOn .anywhere 2]⟩,
    .publish key ⟨0, [⟨window 2, 0, 1⟩, ⟨window 3, 1, 1⟩]⟩]

/-- A `get` of the slot. -/
def getBoth : Action := .beginGet key ⟨0, 0, [⟨buffer, 0, 2⟩]⟩

/-- The first `get` in flight reads both bytes of a replica made of these segments. -/
def readsBoth (n : Node) : Bool :=
  (n.world.readers[0]?).any fun (rd : Reader) ↦
    decide (rd.replica.data.parts = [(⟨16, 1⟩, 2), (⟨17, 1⟩, 3)] ∧ rd.op.srcOffset = 0 ∧
      rd.dstLen = 2 ∧ rd.slotLen = 2)

theorem reads_of_readsBoth {n : Node} (h : readsBoth n = true) :
    ∃ rd ∈ n.world.readers, rd.Reads 2 ∧ rd.Reads 3 := by
  obtain ⟨rd, hrd, hfields⟩ := (Option.any_eq_true _ _).mp h
  obtain ⟨hparts, hoffset, hlen, hslot⟩ := of_decide_eq_true hfields
  have hrange : ∃ last, checkedAdd rd.op.srcOffset rd.dstLen = some last ∧ last ≤ rd.slotLen := by
    rw [hoffset, hlen, hslot]
    exact ⟨2, rfl, le_refl 2⟩
  refine ⟨rd, List.mem_of_getElem? hrd, ⟨hrange, [], _, _, 0, hparts, rfl, ?_⟩,
    hrange, [_], _, [], 0, hparts, rfl, ?_⟩
  · rw [hoffset, hlen]
    decide
  · rw [hoffset, hlen]
    decide

/-- One action of a run that the borrow checker admits. -/
def nextBorrowing (n : Node) (action : Action) : Option (Event × Node) :=
  if Borrows n action then n.next Scenario.inner action else none

theorem borrowing_step_of_next {n n' : Node} {action : Action} {e : Event}
    (h : nextBorrowing n action = some (e, n')) :
    (borrowingBackend Scenario.inner Scenario.bytes).step n e n' := by
  unfold nextBorrowing at h
  split_ifs at h with hborrows
  refine ⟨?_, step_of_next h⟩
  change Borrows n e.action
  rw [action_of_next h]
  exact hborrows

/-- A replay in which a `get` reads both regions and returns `Ok`. -/
theorem exists_dropped_read (actions : List Action) {id : ℕ} (hid : id = 2 ∨ id = 3)
    (h : (replay nextBorrowing actions (backend Scenario.inner Scenario.bytes).start).any (fun r ↦
      (nextBorrowing r.2 (.finishGet 0 .done)).any fun q ↦
        readsBoth r.2 && decide (id ∈ r.2.ghost.dropped) && q.1.readOk) = true) :
    ∃ history n e n' rd, (borrowingBackend Scenario.inner Scenario.bytes).Run history n ∧
      rd ∈ n.world.readers ∧ id ∈ n.ghost.dropped ∧ rd.Reads id ∧
      (borrowingBackend Scenario.inner Scenario.bytes).step n e n' ∧ e.readOk = true := by
  obtain ⟨history, n, e, n', hreplay, hnext, hcheck⟩ :=
    exists_replay_step nextBorrowing _ actions (.finishGet 0 .done)
      (fun _ n e _ ↦ readsBoth n && decide (id ∈ n.ghost.dropped) && e.readOk) h
  simp only [Bool.and_eq_true, decide_eq_true_eq] at hcheck
  obtain ⟨⟨hreads, hdropped⟩, hok⟩ := hcheck
  obtain ⟨rd, hrd, hsecond, hthird⟩ := reads_of_readsBoth hreads
  refine ⟨history, n, e, n', rd, ?_, hrd, hdropped, ?_, borrowing_step_of_next hnext, hok⟩
  · exact steps_of_replay (fun _ _ _ _ hstep ↦ borrowing_step_of_next hstep) actions hreplay
  · rcases hid with rfl | rfl
    · exact hsecond
    · exact hthird

end Scenario

open Scenario in
/-- A region is dropped between the selection and the copy of a `get`; and a replica of two regions
is selected after the second of them was dropped. Both `get`s then return `Ok`. -/
theorem get_reads_dropped_region :
    (∃ history n e n' rd, (borrowingBackend Scenario.inner Scenario.bytes).Run history n ∧
      rd ∈ n.world.readers ∧ 2 ∈ n.ghost.dropped ∧ rd.Reads 2 ∧
      (borrowingBackend Scenario.inner Scenario.bytes).step n e n' ∧ e.readOk = true) ∧
    ∃ history n e n' rd, (borrowingBackend Scenario.inner Scenario.bytes).Run history n ∧
      rd ∈ n.world.readers ∧ 3 ∈ n.ghost.dropped ∧ rd.Reads 3 ∧
      (borrowingBackend Scenario.inner Scenario.bytes).step n e n' ∧ e.readOk = true := by
  constructor
  · exact exists_dropped_read (published ++ [getBoth, .retireRegion 2]) (.inl rfl)
      (by decide +kernel)
  · exact exists_dropped_read (published ++ [.retireRegion 3, getBoth]) (.inr rfl)
      (by decide +kernel)

namespace Scenario

/-- No segment of the replica lies in the region. -/
def avoids (regionId : ℕ) (r : ReplicaEntry) : Bool :=
  r.data.parts.all fun part ↦ part.2 != regionId

theorem not_uses_of_avoids {regionId : ℕ} {r : ReplicaEntry} (h : avoids regionId r = true) :
    ¬ r.Uses regionId := by
  rintro ⟨part, hpart, hid, _⟩
  exact bne_iff_ne.mp (List.all_eq_true.mp h part hpart) hid

/-- Every `get` in flight avoids the region, and so does every replica that the drop leaves. -/
def dropsApart (w : World) : Action → Bool
  | .retireRegion regionId =>
    w.readers.all (fun (rd : Reader) ↦ avoids regionId rd.replica) &&
      w.state.objects.entries.all fun entry ↦ entry.2.slots.all fun slot ↦
        slot.replicas.all fun r ↦ r.publishedFrom regionId || avoids regionId r
  | _ => true

theorem retiresAlone_of_dropsApart {w : World} {action : Action} (h : dropsApart w action = true) :
    RetiresAlone w action := by
  rintro regionId rfl
  obtain ⟨hreaders, hentries⟩ := (Bool.and_eq_true _ _).mp h
  constructor
  · intro rd hrd hreads
    exact not_uses_of_avoids (List.all_eq_true.mp hreaders rd hrd) hreads.uses
  · intro key j slot hslot r hr huses
    obtain ⟨obj, hfind, hget⟩ := Option.bind_eq_some_iff.mp hslot
    have hentry := List.all_eq_true.mp hentries _ (w.state.objects.mem_entries_iff.mpr hfind)
    have hin := List.all_eq_true.mp hentry slot (List.mem_of_getElem? hget)
    exact ((Bool.or_eq_true _ _).mp (List.all_eq_true.mp hin r hr)).resolve_right
      fun havoids ↦ not_uses_of_avoids havoids huses

/-- One action of a run whose drops meet the condition. -/
def nextAlone (n : Node) (action : Action) : Option (Event × Node) :=
  if Borrows n action ∧ dropsApart n.world action = true then n.next Scenario.inner action else none

theorem alone_step_of_next {n n' : Node} {action : Action} {e : Event}
    (h : nextAlone n action = some (e, n')) :
    ((backend Scenario.inner Scenario.bytes).restrict fun n e ↦
      Borrows n e.action ∧ RetiresAlone n.world e.action).step n e n' := by
  unfold nextAlone at h
  split_ifs at h with hguard
  refine ⟨?_, step_of_next h⟩
  change Borrows n e.action ∧ RetiresAlone n.world e.action
  rw [action_of_next h]
  exact ⟨hguard.1, retiresAlone_of_dropsApart hguard.2⟩

/-- A second key, published from a fourth region. -/
def otherKey : Key := [2]

def publishedOther : List Action :=
  [.beginPut otherKey ⟨.cache, [slotOn .anywhere 2]⟩,
    .publish otherKey ⟨0, [⟨window 4, 0, 2⟩]⟩]

end Scenario

open Scenario in
/-- A region with a published replica is dropped while a `get` of another key is in flight. The drop
takes the replica away, and the `get` goes on reading the two other regions. -/
theorem no_get_from_dropped_region_others : ∃ history n e n',
    ((backend Scenario.inner Scenario.bytes).restrict fun n e ↦
      Borrows n e.action ∧ RetiresAlone n.world e.action).Run (history ++ [e]) n' ∧
      (backend Scenario.inner Scenario.bytes).step n e n' ∧ e.action = .retireRegion 4 ∧
      (slotAt n.world.state.objects otherKey 0).map (fun slot ↦
        slot.replicas.map fun r ↦ r.publishedFrom 4) = some [true] ∧
      (slotAt n'.world.state.objects otherKey 0).map (fun slot ↦
        slot.replicas.map fun r ↦ r.publishedFrom 4) = some [] ∧
      (∃ rd ∈ n'.world.readers, rd.Reads 2 ∧ rd.Reads 3) ∧ 4 ∈ n'.ghost.dropped ∧
      ∀ rd ∈ n'.world.readers, ∀ regionId ∈ n'.ghost.dropped, ¬ rd.Reads regionId := by
  let actions : List Action := published ++ publishedOther ++ [getBoth]
  let tags (n : Node) : Option (List Bool) := (slotAt n.world.state.objects otherKey 0).map
    fun slot ↦ slot.replicas.map fun r ↦ r.publishedFrom 4
  obtain ⟨history, n, e, n', hreplay, hnext, hcheck⟩ :=
    exists_replay_step nextAlone (backend Scenario.inner Scenario.bytes).start actions
      (.retireRegion 4) (fun _ n _ n' ↦ decide (tags n = some [true]) &&
        decide (tags n' = some []) && readsBoth n' && decide (4 ∈ n'.ghost.dropped))
      (by decide +kernel)
  simp only [Bool.and_eq_true, decide_eq_true_eq] at hcheck
  obtain ⟨⟨⟨hbefore, hafter⟩, hreads⟩, hdropped⟩ := hcheck
  have hstep := alone_step_of_next hnext
  have hrun := System.Run.snoc
    (steps_of_replay (fun _ _ _ _ hstep ↦ alone_step_of_next hstep) actions hreplay) hstep
  have haction : e.action = .retireRegion 4 := by
    unfold nextAlone at hnext
    split_ifs at hnext
    exact action_of_next hnext
  exact ⟨history, n, e, n', hrun, hstep.2, haction, hbefore, hafter, reads_of_readsBoth hreads,
    hdropped, no_get_from_dropped_region hrun⟩

end Pegastore.Local
