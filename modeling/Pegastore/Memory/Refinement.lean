import Pegastore.Core.SlotStore
import Pegastore.Lib.Refinement
import Pegastore.Memory.Content

/-!
# The in-process backend is a write-once slot store

Forgetting devices, pools, queues and published replicas, a state of the backend is a state of
`slotStore`: under each key the spec, and in each slot the bytes of its owned replicas
(`entryAt`). `Explains` says which moves a call stands for. A put that is carried out creates the
object where there is none, evicts, and lands in exactly the slots it reports `Ok` the bytes it
gathered for them; a get served from store memory looks and answers; removals remove; every other
call, refused ones included, is no move at all.
-/

set_option autoImplicit false
set_option relaxedAutoImplicit false

namespace Pegastore.Memory

open ByteMemory Transition WriteOnce

/-! ### The abstraction -/

/-- The bytes of a replica that the store owns. -/
def ReplicaEntry.ownedBytes? (r : ReplicaEntry) : Option (List UInt8) :=
  match r.data with
  | .owned bytes => some bytes
  | .external _ _ _ => none

/-- What a list of replicas holds in store memory. -/
def heldIn (replicas : List ReplicaEntry) : Option (List UInt8) :=
  replicas.findSome? ReplicaEntry.ownedBytes?

/-- What is kept under a key. -/
def entryAt (objects : Objects) (key : Key) : Option (Entry ObjectSpec (List UInt8)) :=
  (specAt objects key).map fun spec ↦ ⟨spec, fun i ↦ heldIn (replicasAt objects key i)⟩

/-- The abstract store has what the index has, and no read is under way between two calls. -/
structure Abstracts (w : World) (s : SlotStore) : Prop where
  entries : s.entries = entryAt w.state.objects
  reads : s.reads = []

/-- The moves that a call stands for. -/
def Explains (w : World) (e : Event) (w' : World) (moves : List SlotMove) : Prop :=
  match e.op, e.reply with
  | .put key op, .put (.ok _) =>
    moves = (if specAt w.state.objects key = none then [.create key op.spec] else []) ++ .evict ::
      lands key (fun i ↦ e.storedBytes key i) op.slots.length
  | .get key op, .get (.ok rp) =>
    if rp.source.tier = .dram then
      ∃ bytes, moves = [.look key op.slot.toNat, .answer 0 ⟨key, op.slot.toNat, bytes⟩] ∧
        w'.mem = writeAll w.mem (segsOf op.dst)
          ((bytes.drop op.srcOffset).take (totalLen (segsOf op.dst)))
    else moves = []
  | .remove keys, _ => moves = keys.map .remove
  | .removePrefix start, _ => moves = (w.state.keysFrom start).map .remove
  | _, _ => moves = []

/-! ### What lists of replicas hold -/

theorem ReplicaEntry.ownedBytes?_eq_some {r : ReplicaEntry} {bytes : List UInt8} :
    r.ownedBytes? = some bytes ↔ r.data = .owned bytes := by
  unfold ReplicaEntry.ownedBytes?
  cases r.data with
  | owned bytes' => simp
  | external segs id origins => simp

theorem heldIn_ownedReplicas {targets : List (Device × Bool)} (hne : targets ≠ [])
    (bytes : List UInt8) : heldIn (ownedReplicas targets bytes) = some bytes := by
  cases targets with
  | nil => exact absurd rfl hne
  | cons t rest => rfl

/-- The replica that answers for a slot is one of its owned replicas. -/
theorem exists_of_heldIn {replicas : List ReplicaEntry} {bytes : List UInt8}
    (h : heldIn replicas = some bytes) : ∃ r ∈ replicas, r.data = .owned bytes := by
  obtain ⟨r, hr, hbytes⟩ := List.exists_of_findSome?_eq_some h
  exact ⟨r, hr, ReplicaEntry.ownedBytes?_eq_some.mp hbytes⟩

/-- Published replicas do not matter for what a slot holds. -/
theorem heldIn_ownedOf (replicas : List ReplicaEntry) :
    heldIn (ownedOf replicas) = heldIn replicas := by
  induction replicas with
  | nil => rfl
  | cons r rest ih =>
    unfold heldIn ownedOf at ih ⊢
    cases hdata : r.data with
    | owned bytes =>
      have hbytes : r.ownedBytes? = some bytes := ReplicaEntry.ownedBytes?_eq_some.mpr hdata
      simp [hdata, ReplicaData.ownedLen, hbytes]
    | external segs id origins =>
      have hnone : r.ownedBytes? = none := by simp [ReplicaEntry.ownedBytes?, hdata]
      simpa [hdata, ReplicaData.ownedLen, hnone] using ih

/-- All owned replicas of a slot hold the same bytes. -/
def Uniform (objects : Objects) : Prop :=
  ∀ key i r r' bytes bytes', r ∈ replicasAt objects key i → r' ∈ replicasAt objects key i →
    r.data = .owned bytes → r'.data = .owned bytes' → bytes = bytes'

theorem HoldsLastStored.uniform {history : List Event} {st : State}
    (h : HoldsLastStored history st) : Uniform st.objects := by
  intro key i r r' bytes bytes' hr hr' hdata hdata'
  exact Option.some.inj ((h key i r bytes hr hdata).symm.trans (h key i r' bytes' hr' hdata'))

theorem Uniform.heldIn {objects : Objects} (h : Uniform objects) {key : Key} {i : ℕ}
    {r : ReplicaEntry} {bytes : List UInt8} (hr : r ∈ replicasAt objects key i)
    (hdata : r.data = .owned bytes) : heldIn (replicasAt objects key i) = some bytes := by
  cases hheld : Memory.heldIn (replicasAt objects key i) with
  | none =>
    have hnone := List.findSome?_eq_none_iff.mp hheld r hr
    rw [ReplicaEntry.ownedBytes?_eq_some.mpr hdata] at hnone
    cases hnone
  | some bytes' =>
    obtain ⟨r', hr', hdata'⟩ := exists_of_heldIn hheld
    rw [h key i r' r bytes' bytes hr' hr hdata' hdata]

/-- Where a slot loses replicas, it holds what it held, or nothing. -/
theorem Uniform.heldIn_sublist {objects objects' : Objects} (h : Uniform objects) {key : Key}
    {i : ℕ} (hsub : (replicasAt objects' key i).Sublist (replicasAt objects key i)) :
    Memory.heldIn (replicasAt objects' key i) = Memory.heldIn (replicasAt objects key i) ∨
      Memory.heldIn (replicasAt objects' key i) = none := by
  cases hheld : Memory.heldIn (replicasAt objects' key i) with
  | none => exact .inr rfl
  | some bytes =>
    obtain ⟨r, hr, hdata⟩ := exists_of_heldIn hheld
    exact .inl (h.heldIn (hsub.subset hr) hdata).symm

/-- The entry of a key depends on its spec and on what its slots hold. -/
theorem entryAt_congr {objects objects' : Objects} {key : Key}
    (hspec : specAt objects' key = specAt objects key)
    (hheld : ∀ i, heldIn (replicasAt objects' key i) = heldIn (replicasAt objects key i)) :
    entryAt objects' key = entryAt objects key := by
  unfold entryAt
  rw [hspec]
  simp only [hheld]

/-! ### The put -/

section Put

variable {inner : Inner} {w : World} {key : Key} {op : OpPut} {results : List (Result Unit)}
  {st : State}

/-- What happens to the other objects during a put is an eviction. -/
theorem PutDone.evicted (hdone : PutDone inner w.mem key op w.state results st)
    (huniform : Uniform w.state.objects) {other : Key} (hne : other ≠ key) :
    Evicted slotPolicy (entryAt w.state.objects other) (entryAt st.objects other) := by
  have hprogress := hdone.progress
  cases hspec : specAt w.state.objects other with
  | none =>
    have hafter : specAt st.objects other = none := by
      cases h : specAt st.objects other with
      | none => rfl
      | some spec => exact (hprogress.spec_other hne h).symm.trans hspec
    unfold entryAt
    rw [hspec, hafter]
    exact .kept _
  | some spec =>
    by_cases hret : spec.retention = .cache
    · cases hafter : specAt st.objects other with
      | none =>
        unfold entryAt
        rw [hspec, hafter]
        exact .reclaimed hret
      | some spec' =>
        have hsame := (hprogress.spec_other hne hafter).symm.trans hspec
        cases hsame
        unfold entryAt
        rw [hspec, hafter]
        exact .lost hret fun i ↦ huniform.heldIn_sublist (hprogress.sublist_other hne i)
    · obtain ⟨hafter, hreplicas⟩ := hprogress.explicit_other other spec hne hspec hret
      rw [entryAt_congr (hafter.trans hspec.symm) fun i ↦ by rw [hreplicas i]]
      exact .kept _

/-- The put stores in a slot what it gathered, if it reports `Ok`; any other slot is as it was. -/
theorem PutDone.heldIn (hdone : PutDone inner w.mem key op w.state results st) (i : ℕ) :
    Memory.heldIn (replicasAt st.objects key i) =
      (Event.storedBytes key i ⟨.put key op, .put (.ok ⟨results⟩), w.mem⟩).or
        (Memory.heldIn (replicasAt w.state.objects key i)) := by
  unfold Event.storedBytes
  dsimp only
  by_cases hok : results[i]? = some (.ok ())
  · have hlt : i < op.slots.length := hdone.length ▸ (List.getElem?_eq_some_iff.mp hok).1
    have hps := List.getElem?_eq_getElem hlt
    obtain ⟨_, targets, hne, _, _, hreplicas⟩ := hdone.progress.landed i _ hps hok
    rw [if_pos ⟨rfl, reportsOk_iff.mpr hok⟩, hps, Option.map_some, Option.some_or, hreplicas,
      heldIn_ownedReplicas hne]
  · rw [if_neg fun h ↦ hok (reportsOk_iff.mp h.2), Option.none_or, hdone.progress.kept i hok]

/-- A slot that a put stores held nothing, and the bytes have its length. -/
theorem PutDone.fits (hdone : PutDone inner w.mem key op w.state results st) {i : ℕ}
    {bytes : List UInt8}
    (hstored : Event.storedBytes key i ⟨.put key op, .put (.ok ⟨results⟩), w.mem⟩ = some bytes) :
    Memory.heldIn (replicasAt w.state.objects key i) = none ∧ slotPolicy.fits op.spec i bytes := by
  unfold Event.storedBytes at hstored
  dsimp only at hstored
  split_ifs at hstored with hok
  obtain ⟨ps, hps, rfl⟩ := Option.map_eq_some_iff.mp hstored
  obtain ⟨hempty, _⟩ := hdone.progress.landed i ps hps (reportsOk_iff.mp hok.2)
  obtain ⟨device, hvalid⟩ := hdone.valid ps (List.mem_of_getElem? hps)
  refine ⟨by rw [hempty]; rfl, ps.spec, ?_, length_readAll_of_valid w.mem hvalid⟩
  simp [OpPut.spec, hps]

/-- The object is created where there is none. -/
theorem steps_create {s : SlotStore} (hentries : s.entries = entryAt w.state.objects)
    (hbefore : specAt w.state.objects key = none ∨ specAt w.state.objects key = some op.spec) :
    slotStore.Steps s
      (if specAt w.state.objects key = none then [.create key op.spec] else [])
      (s.set key (some ⟨op.spec, fun i ↦ Memory.heldIn (replicasAt w.state.objects key i)⟩)) := by
  split_ifs with hnone
  · have hempty : (fun i ↦ Memory.heldIn (replicasAt w.state.objects key i)) = fun _ ↦ none := by
      funext i
      rw [specAt_none_replicasAt hnone]
      rfl
    rw [hempty]
    refine System.Steps.snoc System.Steps.nil ⟨?_, rfl⟩
    rw [hentries, entryAt, hnone]
    rfl
  · have hsome := hbefore.resolve_left hnone
    rw [Store.set_self]
    · exact .nil
    · rw [hentries, entryAt, hsome]
      rfl

/-- A put that is carried out: create, evict, land. -/
theorem steps_put {s : SlotStore} (hdone : PutDone inner w.mem key op w.state results st)
    (huniform : Uniform w.state.objects) (hentries : s.entries = entryAt w.state.objects) :
    slotStore.Steps s
      ((if specAt w.state.objects key = none then [.create key op.spec] else []) ++ .evict ::
        lands key (fun i ↦ Event.storedBytes key i ⟨.put key op, .put (.ok ⟨results⟩), w.mem⟩)
          op.slots.length)
      { s with entries := entryAt st.objects } := by
  have hprogress := hdone.progress
  -- between the eviction and the landings the put's own object is as the put found it
  let held : ℕ → Option (List UInt8) := fun i ↦ heldIn (replicasAt w.state.objects key i)
  let evicted : SlotStore :=
    Store.set { s with entries := entryAt st.objects } key (some ⟨op.spec, held⟩)
  have hevict : slotStore.step (s.set key (some ⟨op.spec, held⟩)) .evict evicted := by
    refine ⟨rfl, fun other ↦ ?_⟩
    change Evicted slotPolicy (Function.update s.entries key _ other)
      (Function.update (entryAt st.objects) key _ other)
    by_cases hkey : other = key
    · rw [hkey, Function.update_self, Function.update_self]
      exact .kept _
    · rw [Function.update_of_ne hkey, Function.update_of_ne hkey, hentries]
      exact hdone.evicted huniform hkey
  have hentry : evicted.entries key = some ⟨op.spec, held⟩ := Store.set_entries_self ..
  have hlands := steps_lands hentry (fun i bytes h ↦ hdone.fits h) op.slots.length
  have hfinal : evicted.set key (some ⟨op.spec, fun i ↦ if i < op.slots.length then
      (Event.storedBytes key i ⟨.put key op, .put (.ok ⟨results⟩), w.mem⟩).or (held i)
      else held i⟩) = { s with entries := entryAt st.objects } := by
    rw [Store.set_set]
    refine Store.set_self ?_
    change entryAt st.objects key = _
    rw [entryAt, hprogress.spec_self, Option.map_some]
    congr 2
    funext i
    rw [hdone.heldIn i]
    split_ifs with hi
    · rfl
    · have hnone : Event.storedBytes key i ⟨.put key op, .put (.ok ⟨results⟩), w.mem⟩ = none := by
        simp [Event.storedBytes, List.getElem?_eq_none (not_lt.mp hi)]
      rw [hnone, Option.none_or]
  rw [hfinal] at hlands
  have hcreate := steps_create hentries hprogress.spec_before
  exact hcreate.append ((System.Steps.snoc System.Steps.nil hevict).append hlands)

end Put

/-! ### The other calls -/

/-- A get served from store memory looks, and answers what it has copied. -/
theorem steps_get {inner : Inner} {w : World} {s : SlotStore} {key : Key} {op : OpGet} {dstLen : ℕ}
    {spec : ObjectSpec} {slotSpec : SlotSpec} {replica : ReplicaEntry} {mem : UserMemory}
    (hgot : Got inner w.mem w.state key op dstLen spec slotSpec replica mem)
    (huniform : Uniform w.state.objects) (habstracts : Abstracts w s) {bytes : List UInt8}
    (hdata : replica.data = .owned bytes) :
    slotStore.Steps s [.look key op.slot.toNat, .answer 0 ⟨key, op.slot.toNat, bytes⟩] s ∧
      mem = writeAll w.mem (segsOf op.dst)
        ((bytes.drop op.srcOffset).take (totalLen (segsOf op.dst))) := by
  obtain ⟨_, hvalid, _⟩ := hgot.valid
  have hheld : s.heldAt key op.slot.toNat = some bytes := by
    unfold Store.heldAt
    rw [habstracts.entries, entryAt, hgot.spec_eq]
    exact huniform.heldIn hgot.mem_replicas hdata
  refine ⟨?_, ?_⟩
  · have hlook : slotStore.step s (.look key op.slot.toNat)
        { s with reads := s.reads ++ [some ⟨key, op.slot.toNat, bytes⟩] } := ⟨bytes, hheld, rfl⟩
    refine System.Steps.snoc (System.Steps.snoc System.Steps.nil hlook) ⟨?_, ?_⟩
    · rw [habstracts.reads]
      rfl
    · obtain ⟨entries, reads⟩ := s
      cases habstracts.reads
      rfl
  · rw [hgot.mem_eq, ReplicaEntry.content, hdata, hvalid.total_eq]

/-- Removed keys are removed. -/
theorem Removed.steps {keys : List Key} {before after : State} (h : Removed keys before after)
    {s : SlotStore} (hentries : s.entries = entryAt before.objects) :
    slotStore.Steps s (keys.map .remove) { s with entries := entryAt after.objects } := by
  refine steps_removes keys rfl (fun key hkey ↦ ?_) fun key hkey ↦ ?_
  · change entryAt after.objects key = none
    rw [entryAt, h.spec key, if_pos hkey]
    rfl
  · obtain ⟨hspec, hreplicas⟩ := h.kept hkey
    rw [hentries]
    exact entryAt_congr hspec fun i ↦ by rw [hreplicas i]

theorem Published.entryAt {key : Key} {i : ℕ} {src : List Iov} {before after : State}
    (h : Published key i src before after) :
    Memory.entryAt after.objects = Memory.entryAt before.objects := by
  funext other
  refine entryAt_congr (h.spec_eq other) fun j ↦ ?_
  by_cases hself : other = key ∧ j = i
  · obtain ⟨rfl, rfl⟩ := hself
    obtain ⟨_, _, device, first, _, _, _, _, hreplicas⟩ := h.valid
    have hexternal : ownedOf [externalReplica device first src] = [] := rfl
    rw [hreplicas, ← heldIn_ownedOf, ownedOf_append, hexternal, List.append_nil, heldIn_ownedOf]
  · rw [h.replicas_other other j (not_and_or.mp hself)]

theorem entryAt_retireRegion (st : State) (id : ℕ) :
    entryAt (st.retireRegion id).objects = entryAt st.objects := by
  funext key
  refine entryAt_congr (specAt_retireRegion st id key) fun i ↦ ?_
  rw [replicasAt_retireRegion, ← heldIn_ownedOf, ownedOf_retire, heldIn_ownedOf]

/-- Every call with one of the listed effects is explained by moves of the abstract store. -/
theorem Effect.refines {inner : Inner} {w w' : World} {e : Event} {s : SlotStore}
    (h : Effect inner w e.op e.reply w') (hmem : e.mem = w.mem) (hsound : Sound w.state)
    (huniform : Uniform w.state.objects) (habstracts : Abstracts w s) :
    ∃ moves s', slotStore.Steps s moves s' ∧ Explains w e w' moves ∧ Abstracts w' s' := by
  obtain ⟨op, reply, mem⟩ := e
  dsimp only at h hmem
  subst hmem
  cases h with
  | registerRefused | registered | wrote | putRefused | publishRefused | getRefused | stat =>
    exact ⟨[], s, .nil, rfl, habstracts.entries, habstracts.reads⟩
  | dropped =>
    exact ⟨[], s, .nil, rfl, habstracts.entries.trans (entryAt_retireRegion _ _).symm,
      habstracts.reads⟩
  | published hpublished =>
    exact ⟨[], s, .nil, rfl, habstracts.entries.trans hpublished.entryAt.symm, habstracts.reads⟩
  | put hdone =>
    exact ⟨_, _, steps_put hdone huniform habstracts.entries, rfl, rfl, habstracts.reads⟩
  | removed hremoved =>
    exact ⟨_, _, hremoved.steps habstracts.entries, rfl, rfl, habstracts.reads⟩
  | removedPrefix hremoved =>
    exact ⟨_, _, hremoved.steps habstracts.entries, rfl, rfl, habstracts.reads⟩
  | @got key op dstLen spec slotSpec replica mem hgot =>
    have hshape := hsound.shaped key spec _ slotSpec hgot.spec_eq hgot.slotSpec_eq replica
      hgot.mem_replicas
    unfold Shaped at hshape
    cases hdata : replica.data with
    | owned bytes =>
      rw [hdata] at hshape
      obtain ⟨hsteps, hwritten⟩ := steps_get hgot huniform habstracts hdata
      refine ⟨_, s, hsteps, ?_, habstracts.entries, habstracts.reads⟩
      unfold Explains
      exact (if_pos hshape.1).mpr ⟨bytes, rfl, hwritten⟩
    | external segs id origins =>
      rw [hdata] at hshape
      have htier : ¬ (inner.location replica.device replica.tier).tier = .dram := by
        rw [show (inner.location replica.device replica.tier).tier = .external from hshape.1]
        decide
      refine ⟨[], s, .nil, ?_, habstracts.entries, habstracts.reads⟩
      unfold Explains
      exact (if_neg htier).mpr rfl

/-- The in-process backend refines the write-once slot store: along every run, the moves that the
calls stand for are a run of the abstract store, which ends in what the index holds. -/
theorem memory_refines_slotStore (b : MemoryBuilder) (m₀ : UserMemory) :
    Refinement.Refines (memory b m₀) slotStore Abstracts Explains where
  start := by
    refine ⟨funext fun key ↦ ?_, rfl⟩
    change none = entryAt SortedMap.empty key
    rw [entryAt, specAt, SortedMap.find?_empty]
    rfl
  step := by
    intro history w e w' s hrun habstracts hstep
    have hsound := run_sound hrun
    exact (step_effect hsound hstep).refines hstep.2.1 hsound (run_holdsLastStored hrun).uniform
      habstracts

end Pegastore.Memory
