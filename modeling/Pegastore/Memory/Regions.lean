import Pegastore.Memory.Content

/-!
# External replicas and their regions

An external replica records one region id, that of its first segment, and the drop of a region
retires the replicas that recorded it. `ReplicaEntry.origins` are the regions the segments were
really taken from. A replica published from two regions outlives the drop of the second one and
then holds a segment of memory that is no longer registered (`second_region_outlived`).

In runs whose `publish` calls take all segments from one region, every segment of every replica
belongs to a live region, and dropping a region removes exactly the replicas with a segment of it
(`segments_live`).
-/

set_option autoImplicit false
set_option relaxedAutoImplicit false

namespace Pegastore.Memory

open Outcome ByteMemory Transition

/-- The regions the segments of a replica were taken from. -/
def ReplicaEntry.origins (r : ReplicaEntry) : List ℕ :=
  match r.data with
  | .owned _ => []
  | .external _ _ origins => origins

/-- The region is registered and not dropped. -/
def Live (w : World) (id : ℕ) : Prop := id ∈ w.regions.map MemoryRegion.id

/-- The call publishes from one region only. -/
def PublishesOneRegion : Op → Prop
  | .publish _ op => ∀ first ∈ op.src, ∀ second ∈ op.src, first.region.id = second.region.id
  | _ => True

/-- The replica was taken from one live region and records it. -/
def Tagged (w : World) (r : ReplicaEntry) : Prop :=
  ∀ segs regionId origins, r.data = .external segs regionId origins →
    origins ≠ [] ∧ (∀ id ∈ origins, id = regionId) ∧ Live w regionId

/-- A replica with a tag is retired exactly when it has a segment of the region. -/
theorem Tagged.publishedFrom_iff {w : World} {r : ReplicaEntry} (h : Tagged w r) (id : ℕ) :
    r.publishedFrom id = true ↔ id ∈ r.origins := by
  unfold ReplicaEntry.publishedFrom ReplicaEntry.origins
  cases hdata : r.data with
  | owned bytes => simp
  | external segs regionId origins =>
    obtain ⟨hne, hall, _⟩ := h segs regionId origins hdata
    obtain ⟨first, hfirst⟩ := List.exists_mem_of_ne_nil origins hne
    constructor
    · intro heq
      have hid : regionId = id := of_decide_eq_true heq
      rw [← hid, ← hall first hfirst]
      exact hfirst
    · intro hmem
      exact decide_eq_true (hall id hmem).symm

/-- The regions of the state after a call: a registration adds one, a drop takes one away. -/
theorem Effect.live {inner : Inner} {w w' : World} {op : Op} {reply : Reply}
    (h : Effect inner w op reply w') {id : ℕ} (hlive : Live w id) (hdrop : op ≠ .dropRegion id) :
    Live w' id := by
  cases h with
  | registerRefused | wrote | putRefused | publishRefused | getRefused | got | stat | put
  | published | removed | removedPrefix => exact hlive
  | registered =>
    obtain ⟨region, hregion, hid⟩ := List.mem_map.mp hlive
    exact List.mem_map.mpr ⟨region, List.mem_append_left _ hregion, hid⟩
  | dropped =>
    obtain ⟨region, hregion, hid⟩ := List.mem_map.mp hlive
    refine List.mem_map.mpr ⟨region, List.mem_filter.mpr ⟨hregion, ?_⟩, hid⟩
    refine decide_eq_true fun h ↦ hdrop ?_
    rw [← hid, h]

theorem externalReplica_tagged {w : World} (device : Device) {first : Iov} {src : List Iov}
    (hfirst : src.head? = some first)
    (hone : ∀ first ∈ src, ∀ second ∈ src, first.region.id = second.region.id)
    (hlive : ∀ iov ∈ src, iov.region ∈ w.regions) :
    Tagged w (externalReplica device first src) := by
  intro segs regionId origins hdata
  cases hdata
  have hmem : first ∈ src := List.mem_of_head? hfirst
  refine ⟨?_, ?_, List.mem_map_of_mem (hlive first hmem)⟩
  · intro hnil
    rw [List.map_eq_nil_iff.mp hnil] at hmem
    cases hmem
  · intro id hid
    obtain ⟨iov, hiov, rfl⟩ := List.mem_map.mp hid
    exact hone iov hiov first hmem

/-- One call that publishes from one region keeps every replica tagged. -/
theorem Effect.tagged {inner : Inner} {w w' : World} {e : Event}
    (h : Effect inner w e.op e.reply w') (hmem : e.mem = w.mem) (hborrows : Borrows w e.op)
    (hone : PublishesOneRegion e.op)
    (hw : ∀ key i, ∀ r ∈ replicasAt w.state.objects key i, Tagged w r) :
    ∀ key i, ∀ r ∈ replicasAt w'.state.objects key i, Tagged w' r := by
  intro key i r hr segs regionId origins hdata
  rcases h.origin hmem hr with
    ⟨hold, _⟩ | ⟨bytes, hbytes, _⟩ | ⟨op, device, first, hop, hfirst, rfl⟩
  · obtain ⟨hne, hall, hlive⟩ := hw key i r hold segs regionId origins hdata
    refine ⟨hne, hall, h.live hlive ?_⟩
    -- A drop of the recorded region would have retired the replica.
    intro hdrop
    have hfiltered : w'.state = w.state.retireRegion regionId := by
      obtain ⟨op, reply, mem⟩ := e
      dsimp only at h hdrop
      subst hdrop
      cases h
      rfl
    rw [hfiltered, replicasAt_retireRegion] at hr
    have hkeep := (List.mem_filter.mp hr).2
    simp [ReplicaEntry.publishedFrom, hdata] at hkeep
  · rw [hdata] at hbytes
    cases hbytes
  · rw [hop] at hone hborrows
    obtain ⟨hne, hall, hlive⟩ := externalReplica_tagged device hfirst hone hborrows.1 segs
      regionId origins hdata
    refine ⟨hne, hall, h.live hlive ?_⟩
    rw [hop]
    exact fun h ↦ by cases h

/-- In every run whose `publish` calls take their segments from one region each, all segments of
all replicas belong to live regions, and dropping a region removes exactly the replicas with a
segment of it and keeps the others in order. -/
theorem segments_live {b : MemoryBuilder} {m₀ : UserMemory} {history : List Event} {w : World}
    (hrun : ((memory b m₀).restrict fun _ e ↦ PublishesOneRegion e.op).Run history w) :
    (∀ key i, ∀ r ∈ replicasAt w.state.objects key i, ∀ id ∈ r.origins, Live w id) ∧
    ∀ id key i, replicasAt (w.state.retireRegion id).objects key i =
      (replicasAt w.state.objects key i).filter fun r ↦ id ∉ r.origins := by
  have htagged : ∀ key i, ∀ r ∈ replicasAt w.state.objects key i, Tagged w r := by
    refine run_induction (I := fun _ w ↦ ∀ key i, ∀ r ∈ replicasAt w.state.objects key i,
      Tagged w r) ?_ ?_ hrun
    · intro key i r hr
      change r ∈ replicasAt SortedMap.empty key i at hr
      rw [replicasAt_of_find?_none (SortedMap.find?_empty key)] at hr
      cases hr
    · intro _ w e w' _ hw hone hborrows hmem heffect
      exact heffect.tagged hmem hborrows hone hw
  constructor
  · intro key i r hr id hid
    unfold ReplicaEntry.origins at hid
    cases hdata : r.data with
    | owned bytes => simp [hdata] at hid
    | external segs regionId origins =>
      rw [hdata] at hid
      obtain ⟨_, hall, hlive⟩ := htagged key i r hr segs regionId origins hdata
      rw [hall id hid]
      exact hlive
  · intro id key i
    rw [replicasAt_retireRegion]
    refine List.filter_congr ?_
    intro r hr
    have hiff := (htagged key i r hr).publishedFrom_iff id
    by_cases hmem : id ∈ r.origins
    · simp [hmem, hiff.mpr hmem]
    · have hfalse : r.publishedFrom id = false := by
        rw [← Bool.not_eq_true]
        exact fun h ↦ hmem (hiff.mp h)
      simp [hmem, hfalse]

namespace Scenario

/-- A second region of eight bytes. -/
def spare : MemoryRegion := ⟨2, 16, 8, .cpu 0, by decide⟩

/-- A put of one slot, and the publication of the same two bytes for it. -/
def publishBuffer : List Op :=
  [registerBuffer, .put [1] ⟨.cache, [slotOn (.strict (.cpu 0)) 2]⟩,
    .publish [1] ⟨0, [⟨buffer, 0, 1⟩, ⟨buffer, 1, 1⟩]⟩]

/-- The published replica is taken from a live region and leaves with it. -/
theorem segments_live_buffer : ∃ history w r, (memory (backend 4) mem).Run history w ∧
    r ∈ replicasAt w.state.objects [1] 0 ∧ 1 ∈ r.origins ∧ Live w 1 ∧
    r ∉ replicasAt (w.state.retireRegion 1).objects [1] 0 := by
  have hreplay : (replayOps (backend 4).inner publishBuffer (memory (backend 4) mem).start).map
      (fun r ↦ (replicasAt r.2.state.objects [1] 0).getLast?) =
      some (some ⟨.cpu 0, .external, false, .external [⟨0, 1⟩, ⟨1, 1⟩] 1 [1, 1]⟩) := by rfl
  obtain ⟨⟨history, w⟩, hsome, hlast⟩ := Option.map_eq_some_iff.mp hreplay
  have hsteps : (memory (backend 4) mem).Run history w := steps_of_replayOps mem _ hsome
  have hone : ∀ e ∈ history, ∀ _ : World, PublishesOneRegion e.op := by
    intro e he _
    have hop : e.op ∈ history.map Event.op := List.mem_map_of_mem he
    rw [ops_of_replayOps _ hsome] at hop
    simp only [publishBuffer, List.mem_cons, List.not_mem_nil, or_false] at hop
    rcases hop with hop | hop | hop
    · rw [hop]
      trivial
    · rw [hop]
      trivial
    · rw [hop]
      change ∀ first ∈ [_, _], ∀ second ∈ [_, _], _
      simp
  have hlive := segments_live (System.Steps.restrict_of_forall hsteps hone)
  have hmem := List.mem_of_getLast? hlast
  have horigin : 1 ∈ ReplicaEntry.origins
      ⟨.cpu 0, .external, false, .external [⟨0, 1⟩, ⟨1, 1⟩] 1 [1, 1]⟩ := by
    change 1 ∈ [1, 1]
    decide
  refine ⟨history, w, _, hsteps, hmem, horigin, hlive.1 [1] 0 _ hmem 1 horigin, ?_⟩
  rw [hlive.2 1 [1] 0]
  intro hkept
  exact of_decide_eq_true (List.mem_filter.mp hkept).2 horigin

/-- A put of one slot, and the publication of two more bytes for it from two regions. -/
def publishTwoRegions : List Op :=
  [registerBuffer, .register 16 8 (.cpu 0) (by decide),
    .put [1] ⟨.cache, [slotOn (.strict (.cpu 0)) 2]⟩,
    .publish [1] ⟨0, [⟨buffer, 0, 1⟩, ⟨spare, 0, 1⟩]⟩]

/-- After the drop of the second region the replica is still there, with a segment of it. -/
theorem second_region_outlived : ∃ history w r, (memory (backend 4) mem).Run history w ∧
    r ∈ replicasAt w.state.objects [1] 0 ∧ 2 ∈ r.origins ∧ ¬ Live w 2 := by
  have hreplay : (replayOps (backend 4).inner (publishTwoRegions ++ [.dropRegion 2])
      (memory (backend 4) mem).start).map (fun r ↦
        ((replicasAt r.2.state.objects [1] 0).getLast?, r.2.regions.map MemoryRegion.id)) =
      some (some ⟨.cpu 0, .external, false, .external [⟨0, 1⟩, ⟨16, 1⟩] 1 [1, 2]⟩, [1]) := by rfl
  obtain ⟨⟨history, w⟩, hsome, hlast⟩ := Option.map_eq_some_iff.mp hreplay
  obtain ⟨hreplica, hregions⟩ := Prod.mk.inj hlast
  refine ⟨history, w, _, steps_of_replayOps mem _ hsome, List.mem_of_getLast? hreplica, ?_, ?_⟩
  · change 2 ∈ [1, 2]
    decide
  · change 2 ∉ w.regions.map MemoryRegion.id
    rw [hregions]
    decide

end Scenario

end Pegastore.Memory
