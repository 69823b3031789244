import Pegastore.Memory.System

/-!
# What slots hold over whole runs

`lastStored key i` reads off a history what the most recent put that reported `Ok` for slot `i` of
`key` gathered from its source. `Effect.origin` says where a replica of the state after a call comes
from: it was there before and the call stored nothing in its slot, or the call put it there, or the
call published it. From it follows by induction over runs that every owned replica holds the bytes
of the last put of its slot, and with the specification of `get` the read-after-write theorem
`get_reads_lastStored`.

`explicit_replicas_stay` is the other side: what a put with `Explicit` retention stored stays, byte
for byte, until its key is removed.
-/

set_option autoImplicit false
set_option relaxedAutoImplicit false

namespace Pegastore.Memory

open Outcome ByteMemory Transition

/-! ### Where replicas come from -/

/-- The reply says `Ok` for slot `i`. -/
def reportsOk (rp : RpPut) (i : ℕ) : Bool := rp.slots[i]?.any Except.isOk

theorem reportsOk_iff {rp : RpPut} {i : ℕ} :
    reportsOk rp i = true ↔ rp.slots[i]? = some (.ok ()) := by
  unfold reportsOk
  cases rp.slots[i]? with
  | none => simp
  | some r =>
    cases r with
    | ok u => simp [Except.isOk, Except.toBool]
    | error e => simp [Except.isOk, Except.toBool]

/-- The bytes that a call stored in slot `i` of `key`: what a put gathered for a slot it reports
`Ok`. -/
def Event.storedBytes (key : Key) (i : ℕ) (e : Event) : Option (List UInt8) :=
  match e.op, e.reply with
  | .put k op, .put (.ok rp) =>
    if k = key ∧ reportsOk rp i = true then
      op.slots[i]?.map fun ps ↦ readAll e.mem (segsOf ps.src)
    else none
  | _, _ => none

/-- The bytes of the most recent put that reported `Ok` for slot `i` of `key`. -/
def lastStored (key : Key) (i : ℕ) (history : List Event) : Option (List UInt8) :=
  history.reverse.findSome? (Event.storedBytes key i)

theorem lastStored_snoc (key : Key) (i : ℕ) (history : List Event) (e : Event) :
    lastStored key i (history ++ [e]) = (e.storedBytes key i).or (lastStored key i history) := by
  unfold lastStored
  rw [List.reverse_append, List.reverse_singleton, List.singleton_append, List.findSome?_cons]
  cases e.storedBytes key i with
  | none => rfl
  | some bytes => rfl

/-- Every replica was there before and nothing was stored in its slot, or was stored by the call,
or was published by it. -/
theorem Effect.origin {inner : Inner} {w w' : World} {e : Event}
    (h : Effect inner w e.op e.reply w') (hmem : e.mem = w.mem) {key : Key} {i : ℕ}
    {r : ReplicaEntry} (hr : r ∈ replicasAt w'.state.objects key i) :
    (r ∈ replicasAt w.state.objects key i ∧ e.storedBytes key i = none) ∨
    (∃ bytes, r.data = .owned bytes ∧ e.storedBytes key i = some bytes) ∨
    ∃ op device first, e.op = .publish key op ∧ op.src.head? = some first ∧
      r = externalReplica device first op.src := by
  obtain ⟨op, reply, mem⟩ := e
  dsimp only at h hmem
  subst hmem
  cases h with
  | registerRefused | registered | wrote | putRefused | publishRefused | getRefused | got | stat =>
    exact Or.inl ⟨hr, rfl⟩
  | dropped =>
    rw [replicasAt_retireRegion] at hr
    exact Or.inl ⟨List.mem_of_mem_filter hr, rfl⟩
  | @put target op results st hdone =>
    have hprogress := hdone.progress
    by_cases hkey : key = target
    · subst hkey
      by_cases hok : results[i]? = some (.ok ())
      · have hlt : i < op.slots.length := by
          rw [← hdone.length]
          exact (List.getElem?_eq_some_iff.mp hok).1
        have hps : op.slots[i]? = some op.slots[i] := List.getElem?_eq_getElem hlt
        obtain ⟨_, targets, _, _, _, hreplicas⟩ := hprogress.landed i _ hps hok
        rw [hreplicas] at hr
        obtain ⟨t, _, rfl⟩ := List.mem_map.mp hr
        have hreports : reportsOk ⟨results⟩ i = true := reportsOk_iff.mpr hok
        refine Or.inr (Or.inl ⟨_, rfl, ?_⟩)
        simp [Event.storedBytes, hreports, hps]
      · rw [hprogress.kept i hok] at hr
        refine Or.inl ⟨hr, ?_⟩
        have hreports : ¬ reportsOk ⟨results⟩ i = true := fun h ↦ hok (reportsOk_iff.mp h)
        simp [Event.storedBytes, hreports]
    · refine Or.inl ⟨(hprogress.sublist_other hkey i).subset hr, ?_⟩
      have hne : ¬ target = key := fun h ↦ hkey h.symm
      simp [Event.storedBytes, hne]
  | @published target op st hpublished =>
    by_cases hself : key = target ∧ i = op.slot.toNat
    · obtain ⟨rfl, rfl⟩ := hself
      obtain ⟨_, _, device, first, _, _, _, hfirst, hreplicas⟩ := hpublished.valid
      rw [hreplicas] at hr
      rcases List.mem_append.mp hr with hr | hr
      · exact Or.inl ⟨hr, rfl⟩
      · exact Or.inr (Or.inr ⟨op, device, first, rfl, hfirst, List.mem_singleton.mp hr⟩)
    · rw [hpublished.replicas_other key i (not_and_or.mp hself)] at hr
      exact Or.inl ⟨hr, rfl⟩
  | removed hremoved | removedPrefix hremoved =>
    rw [hremoved.replicas key i] at hr
    split_ifs at hr with hkey
    · cases hr
    · exact Or.inl ⟨hr, rfl⟩

/-! ### Read after write -/

/-- Every owned replica holds what the last put of its slot gathered. -/
def HoldsLastStored (history : List Event) (st : State) : Prop :=
  ∀ key i r bytes, r ∈ replicasAt st.objects key i → r.data = .owned bytes →
    lastStored key i history = some bytes

theorem run_holdsLastStored {b : MemoryBuilder} {m₀ : UserMemory} {history : List Event} {w : World}
    (hrun : (memory b m₀).Run history w) : HoldsLastStored history w.state := by
  refine System.Run.induction (I := fun history w ↦ HoldsLastStored history w.state) ?_ ?_ hrun
  · intro key i r bytes hr
    change r ∈ replicasAt SortedMap.empty key i at hr
    rw [replicasAt_of_find?_none (SortedMap.find?_empty key)] at hr
    cases hr
  · intro history w e w' hprefix hholds hstep key i r bytes hr hdata
    have heffect := step_effect (run_sound hprefix) hstep
    rw [lastStored_snoc]
    rcases heffect.origin hstep.2.1 hr with ⟨hold, hnone⟩ | ⟨found, hfound, hstored⟩ |
      ⟨op, device, first, _, _, rfl⟩
    · rw [hnone, Option.none_or]
      exact hholds key i r bytes hold hdata
    · rw [hdata, ReplicaData.owned.injEq] at hfound
      rw [hstored, Option.some_or, hfound]
    · cases hdata

/-- Every reachable state: a `get` served from store memory writes the asked part of what the last
`Ok` put of the slot gathered and touches nothing else; and all owned replicas of a slot hold the
same bytes, of the length of the slot, which is also the total length of an external replica. -/
theorem get_reads_lastStored {b : MemoryBuilder} {m₀ : UserMemory} {history : List Event}
    {w : World} (hrun : (memory b m₀).Run history w) :
    (∀ e w' key op source, (memory b m₀).step w e w' → e.op = .get key op →
      e.reply = .get (.ok ⟨source⟩) → source.tier = .dram →
      (segsOf op.dst).Pairwise Segment.Disjoint →
      (∃ bytes, lastStored key op.slot.toNat history = some bytes ∧
        op.srcOffset + totalLen (segsOf op.dst) ≤ bytes.length ∧
        readAll w'.mem (segsOf op.dst) =
          (bytes.drop op.srcOffset).take (totalLen (segsOf op.dst))) ∧
      ∀ a, (∀ s ∈ segsOf op.dst, ¬ s.Covers a) → w'.mem a = w.mem a) ∧
    (∀ key spec i slotSpec, specAt w.state.objects key = some spec →
      spec.slots[i]? = some slotSpec → ∀ r ∈ replicasAt w.state.objects key i,
        (∀ bytes, r.data = .owned bytes → bytes.length = slotSpec.len ∧
          lastStored key i history = some bytes) ∧
        ∀ segs regionId origins, r.data = .external segs regionId origins →
          totalLen segs = slotSpec.len) := by
  have hsound := run_sound hrun
  have hholds := run_holdsLastStored hrun
  constructor
  · intro e w' key op source hstep hop hreply htier hdisjoint
    have heffect := step_effect hsound hstep
    rw [hop, hreply] at heffect
    cases heffect with
    | @got _ _ dstLen spec slotSpec replica mem hgot =>
      obtain ⟨_, hvalid, _⟩ := hgot.valid
      have hshape := hsound.shaped key spec _ slotSpec hgot.spec_eq hgot.slotSpec_eq replica
        hgot.mem_replicas
      have hlength := length_content w.mem hshape
      have hrange := hgot.range
      rw [← hvalid.total_eq]
      refine ⟨?_, ?_⟩
      · cases hdata : replica.data with
        | owned bytes =>
          have hcontent : replica.content w.mem = bytes := by
            rw [ReplicaEntry.content, hdata]
          rw [hcontent] at hlength
          refine ⟨bytes, hholds key _ replica bytes hgot.mem_replicas hdata, by omega, ?_⟩
          change readAll mem (segsOf op.dst) = _
          rw [hgot.mem_eq, hcontent]
          refine readAll_writeAll (segsOf op.dst) hdisjoint w.mem _ ?_
          rw [List.length_take, List.length_drop, ← hvalid.total_eq]
          omega
        | external segs regionId origins =>
          unfold Shaped at hshape
          rw [hdata] at hshape
          change replica.tier = .dram at htier
          rw [hshape.1] at htier
          cases htier
      · intro a ha
        change mem a = w.mem a
        rw [hgot.mem_eq]
        exact writeAll_of_not_covered (segsOf op.dst) ha w.mem _
  · intro key spec i slotSpec hspec hslotSpec r hr
    have hshape := hsound.shaped key spec i slotSpec hspec hslotSpec r hr
    unfold Shaped at hshape
    constructor
    · intro bytes hdata
      rw [hdata] at hshape
      exact ⟨hshape.2.1, hholds key i r bytes hr hdata⟩
    · intro segs regionId origins hdata
      rw [hdata] at hshape
      exact hshape.2.1

namespace Scenario

/-- The location that served a `get`. -/
def sourceOf : Reply → Option Location
  | .get (.ok rp) => some rp.source
  | _ => none

theorem eq_of_sourceOf {reply : Reply} {source : Location} (h : sourceOf reply = some source) :
    reply = .get (.ok ⟨source⟩) := by
  unfold sourceOf at h
  split at h
  · cases h
    rfl
  · cases h

/-- A put of three bytes, and a get of the last two of them into two segments. -/
def putThree : Op := .put [1] ⟨.cache, [slotOn (.strict (.cpu 0)) 3]⟩

def getTail : OpGet := ⟨0, 1, [⟨buffer, 4, 1⟩, ⟨buffer, 6, 1⟩]⟩

/-- The two bytes arrive at their two addresses. -/
theorem get_reads_lastStored_tail : ∃ history w e w', (memory (backend 4) mem).Run history w ∧
    (memory (backend 4) mem).step w e w' ∧ e.op = .get [1] getTail ∧
    ∃ bytes, lastStored [1] 0 history = some bytes ∧
      readAll w'.mem (segsOf getTail.dst) = (bytes.drop 1).take 2 := by
  obtain ⟨history, w, e, w', _, hrun, hstep, hop, hsource⟩ := exists_run_step
    4 [registerBuffer, putThree] (.get [1] getTail)
    (fun _ _ e _ ↦ decide (sourceOf e.reply = some ⟨0, .cpu 0, .dram⟩)) (by rfl)
  have hdisjoint : (segsOf getTail.dst).Pairwise Segment.Disjoint := by
    change List.Pairwise Segment.Disjoint [⟨4, 1⟩, ⟨6, 1⟩]
    refine List.pairwise_pair.mpr ?_
    rintro a ⟨_, hlt⟩ ⟨hle, _⟩
    dsimp only at hlt hle
    omega
  obtain ⟨⟨bytes, hbytes, _, hread⟩, _⟩ := (get_reads_lastStored hrun).1 e w' [1] getTail
    ⟨0, .cpu 0, .dram⟩ hstep hop (eq_of_sourceOf (of_decide_eq_true hsource)) rfl hdisjoint
  exact ⟨history, w, e, w', hrun, hstep, hop, bytes, hbytes, hread⟩

end Scenario

/-! ### Explicit objects -/

/-- The call takes the key out of the store. -/
def Op.Covers (key : Key) : Op → Prop
  | .remove keys => key ∈ keys
  | .removePrefix start => start.isPrefixOf key = true
  | _ => False

/-- The replicas of a list that the store owns. -/
def ownedOf (replicas : List ReplicaEntry) : List ReplicaEntry :=
  replicas.filter fun r ↦ r.data.ownedLen.isSome

theorem ownedOf_append (first second : List ReplicaEntry) :
    ownedOf (first ++ second) = ownedOf first ++ ownedOf second := List.filter_append first second

theorem ownedOf_ownedReplicas (targets : List (Device × Bool)) (bytes : List UInt8) :
    ownedOf (ownedReplicas targets bytes) = ownedReplicas targets bytes := by
  refine List.filter_eq_self.mpr ?_
  intro r hr
  obtain ⟨t, _, rfl⟩ := List.mem_map.mp hr
  rfl

theorem ownedOf_retire (regionId : ℕ) (replicas : List ReplicaEntry) :
    ownedOf (replicas.filter fun r ↦ !r.publishedFrom regionId) = ownedOf replicas := by
  unfold ownedOf
  rw [List.filter_filter]
  refine List.filter_congr ?_
  intro r _
  cases hdata : r.data with
  | owned bytes => simp [ReplicaEntry.publishedFrom, hdata]
  | external segs id origins => simp [ReplicaData.ownedLen]

/-- One call that does not remove the key leaves what the store owns in a landed slot of an object
that is not a `Cache` object. -/
theorem Effect.explicit_kept {inner : Inner} {w w' : World} {op : Op} {reply : Reply} {key : Key}
    {spec : ObjectSpec} {i : ℕ} (h : Effect inner w op reply w') (hcovers : ¬ op.Covers key)
    (hspec : specAt w.state.objects key = some spec) (hret : spec.retention ≠ .cache)
    (hlanded : ownedOf (replicasAt w.state.objects key i) ≠ []) :
    specAt w'.state.objects key = some spec ∧
      ownedOf (replicasAt w'.state.objects key i) = ownedOf (replicasAt w.state.objects key i) := by
  cases h with
  | registerRefused | registered | wrote | putRefused | publishRefused | getRefused | got | stat =>
    exact ⟨hspec, rfl⟩
  | dropped =>
    refine ⟨?_, ?_⟩
    · rw [specAt_retireRegion, hspec]
    · rw [replicasAt_retireRegion, ownedOf_retire]
  | @put target op results st hdone =>
    have hprogress := hdone.progress
    by_cases hkey : key = target
    · subst hkey
      have hself : op.spec = spec := by
        rcases hprogress.spec_before with hnone | hsome
        · rw [hspec] at hnone
          cases hnone
        · rw [hspec, Option.some.injEq] at hsome
          exact hsome.symm
      have hfull : results[i]? ≠ some (.ok ()) := by
        intro hok
        have hlt : i < op.slots.length := by
          rw [← hdone.length]
          exact (List.getElem?_eq_some_iff.mp hok).1
        have hempty := (hprogress.landed i _ (List.getElem?_eq_getElem hlt) hok).1
        exact hlanded (by rw [hempty]; rfl)
      exact ⟨hself ▸ hprogress.spec_self, by rw [hprogress.kept i hfull]⟩
    · obtain ⟨hafter, hreplicas⟩ := hprogress.explicit_other key spec hkey hspec hret
      exact ⟨hafter, by rw [hreplicas i]⟩
  | @published target op st hpublished =>
    refine ⟨by rw [hpublished.spec_eq, hspec], ?_⟩
    by_cases hself : key = target ∧ i = op.slot.toNat
    · obtain ⟨rfl, rfl⟩ := hself
      obtain ⟨_, _, device, first, _, _, _, _, hreplicas⟩ := hpublished.valid
      have hexternal : ownedOf [externalReplica device first op.src] = [] := rfl
      rw [hreplicas, ownedOf_append, hexternal, List.append_nil]
    · rw [hpublished.replicas_other key i (not_and_or.mp hself)]
  | removed hremoved =>
    obtain ⟨hspec', hreplicas⟩ := hremoved.kept hcovers
    exact ⟨hspec'.trans hspec, by rw [hreplicas i]⟩
  | removedPrefix hremoved =>
    obtain ⟨hspec', hreplicas⟩ := hremoved.kept fun hmem ↦
      hcovers (State.isPrefixOf_of_mem_keysFrom hmem)
    exact ⟨hspec'.trans hspec, by rw [hreplicas i]⟩

/-- After a put with `Explicit` retention reports `Ok` for a slot, and as long as no call removes
the key, the object keeps its spec and the slot keeps exactly the owned replicas the put stored. -/
theorem explicit_replicas_stay {b : MemoryBuilder} {m₀ : UserMemory} {history later : List Event}
    {w w₁ w₂ : World} {e : Event} {key : Key} {op : OpPut} {results : List (Result Unit)} {i : ℕ}
    (hrun : (memory b m₀).Run history w) (hstep : (memory b m₀).step w e w₁)
    (hop : e.op = .put key op) (hreply : e.reply = .put (.ok ⟨results⟩))
    (hret : op.retention = .explicit) (hok : results[i]? = some (.ok ()))
    (hlater : (memory b m₀).Steps w₁ later w₂) (hkept : ∀ e ∈ later, ¬ e.op.Covers key) :
    specAt w₂.state.objects key = some op.spec ∧ ∃ ps targets, op.slots[i]? = some ps ∧
      targets ≠ [] ∧
      replicasAt w₁.state.objects key i = ownedReplicas targets (readAll w.mem (segsOf ps.src)) ∧
      ownedOf (replicasAt w₂.state.objects key i) =
        ownedReplicas targets (readAll w.mem (segsOf ps.src)) := by
  have hsound := run_sound hrun
  have heffect := step_effect hsound hstep
  have hsound₁ := heffect.sound hsound
  rw [hop, hreply] at heffect
  cases heffect with
  | put hdone =>
    have hprogress := hdone.progress
    have hlt : i < op.slots.length := by
      rw [← hdone.length]
      exact (List.getElem?_eq_some_iff.mp hok).1
    have hps : op.slots[i]? = some op.slots[i] := List.getElem?_eq_getElem hlt
    obtain ⟨_, targets, hne, _, _, hreplicas⟩ := hprogress.landed i _ hps hok
    have hexplicit : op.spec.retention ≠ .cache := by
      change op.retention ≠ .cache
      rw [hret]
      decide
    have hnonempty : ownedReplicas targets (readAll w.mem (segsOf op.slots[i].src)) ≠ [] := by
      intro h
      exact hne (List.map_eq_nil_iff.mp h)
    have hlast := hlater.invariant (I := fun w ↦ Sound w.state ∧
      specAt w.state.objects key = some op.spec ∧ ownedOf (replicasAt w.state.objects key i) =
        ownedReplicas targets (readAll _ (segsOf op.slots[i].src)))
      ⟨hsound₁, hprogress.spec_self, by rw [hreplicas, ownedOf_ownedReplicas]⟩ ?_
    · exact ⟨hlast.2.1, op.slots[i], targets, hps, hne, hreplicas, hlast.2.2⟩
    · rintro a event c hevent ⟨hsoundA, hspecA, hownedA⟩ hstepA
      have heffectA := step_effect hsoundA hstepA
      have hstays := heffectA.explicit_kept (hkept event hevent) hspecA hexplicit
        (by rw [hownedA]; exact hnonempty)
      exact ⟨heffectA.sound hsoundA, hstays.1, hstays.2.trans hownedA⟩

namespace Scenario

/-- Three bytes that only `remove` takes away, and a later put that would need their room. -/
def putPinned : OpPut := ⟨.explicit, [slotOn (.strict (.cpu 0)) 3]⟩

def putUnderPressure : Op := .put [2] ⟨.cache, [slotOn (.strict (.cpu 0)) 4]⟩

/-- The three bytes survive the pressure. -/
theorem explicit_replicas_stay_under_pressure : ∃ w e w₁ later w₂,
    (memory (backend 4) mem).step w e w₁ ∧ e.op = .put [1] putPinned ∧
    (memory (backend 4) mem).Steps w₁ later w₂ ∧ later.map Event.op = [putUnderPressure] ∧
    ∃ ps targets, putPinned.slots[0]? = some ps ∧ targets ≠ [] ∧
      ownedOf (replicasAt w₂.state.objects [1] 0) =
        ownedReplicas targets (readAll w.mem (segsOf ps.src)) := by
  obtain ⟨history, w, e, w₁, _, hrun, hstep, hop, hcheck⟩ := exists_run_step
    4 [registerBuffer] (.put [1] putPinned)
    (fun _ _ e w₁ ↦ (resultsOf e.reply).any (fun results ↦ reportsOk ⟨results⟩ 0) &&
      (replayOps (backend 4).inner [putUnderPressure] w₁).isSome) (by rfl)
  obtain ⟨hok, hlater⟩ := Bool.and_eq_true_iff.mp hcheck
  obtain ⟨results, hresults, hreports⟩ := (Option.any_eq_true _ _).mp hok
  obtain ⟨⟨later, w₂⟩, hreplay⟩ := Option.isSome_iff_exists.mp hlater
  have hsteps : (memory (backend 4) mem).Steps w₁ later w₂ := steps_of_replayOps mem _ hreplay
  have hops := ops_of_replayOps _ hreplay
  have hkept : ∀ e ∈ later, ¬ e.op.Covers [1] := by
    intro e he
    have hmem : e.op ∈ later.map Event.op := List.mem_map_of_mem he
    rw [hops, List.mem_singleton] at hmem
    rw [hmem]
    exact id
  obtain ⟨_, ps, targets, hps, hne, _, howned⟩ := explicit_replicas_stay hrun hstep hop
    (eq_of_resultsOf hresults) rfl (reportsOk_iff.mp hreports) hsteps hkept
  exact ⟨w, e, w₁, later, w₂, hstep, hop, hsteps, hops, ps, targets, hps, hne, howned⟩

end Scenario

end Pegastore.Memory
