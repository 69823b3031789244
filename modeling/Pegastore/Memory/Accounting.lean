import Pegastore.Memory.System

/-!
# Space accounting and capacities

In every reachable state the counter of a pool is the number of bytes the store owns on its device,
so no subtraction from a counter underflows and an empty store counts nothing (`used_eq_ownedOn`).

A counter can exceed its capacity. The placement loop checks each listed device before anything is
charged, so a placement that lists one device twice passes the same check twice and is charged twice
(`repeated_device_exceeds_capacity`). In runs whose placements list no device twice every counter
stays within the capacity its pool was built with (`used_le_capacity`).
-/

set_option autoImplicit false
set_option relaxedAutoImplicit false

namespace Pegastore.Memory

open Outcome ByteMemory Transition

/-! ### Counters -/

theorem ownedOn_eq_zero (device : Device) {objects : Objects}
    (hempty : ∀ key, objects.find? key = none) : ownedOn device objects = 0 := by
  have hzero : ownedOn device objects = objects.sumOn fun _ _ ↦ 0 := by
    apply SortedMap.sumOn_congr
    intro key obj hfind
    rw [hempty key] at hfind
    cases hfind
  rw [hzero, SortedMap.sumOn]
  simp

/-- No panic of a call is an underflow. -/
theorem OpPanic.ne_subOverflow {w : World} {op : Op} {p : Panic} (h : OpPanic w op p) :
    p ≠ .subOverflow := by
  cases op with
  | put key op =>
    rcases h with ⟨rfl, _⟩ | ⟨rfl, _⟩ | ⟨rfl, _⟩
    · decide
    · decide
    · decide
  | get key op =>
    rw [h.1]
    decide
  | register | dropRegion | userWrite | publish | stat | remove | removePrefix => exact h.elim

/-- In every reachable state the counters are the owned bytes, no call underflows a counter, and
without objects the counters are zero. -/
theorem used_eq_ownedOn {b : MemoryBuilder} {m₀ : UserMemory} {history : List Event} {w : World}
    (hrun : (memory b m₀).Run history w) :
    (∀ device pool, w.state.pools device = some pool →
      pool.used = ownedOn device w.state.objects) ∧
    (∀ op, exec b.inner w op ≠ .error .subOverflow) ∧
    ((∀ key, w.state.objects.find? key = none) → ∀ device pool,
      w.state.pools device = some pool → pool.used = 0) := by
  have hsound := run_sound hrun
  refine ⟨hsound.accounted, ?_, ?_⟩
  · intro op hpanic
    exact OpPanic.ne_subOverflow ((holds_exec b.inner op hsound).of_error hpanic) rfl
  · intro hempty device pool hpool
    rw [hsound.accounted device pool hpool]
    exact ownedOn_eq_zero device hempty

/-- Two bytes on the first device are counted as two. -/
theorem used_eq_ownedOn_after_put : ∃ history w pool,
    (memory (Scenario.backend 4) Scenario.mem).Run history w ∧
      w.state.pools (.cpu 0) = some pool ∧ pool.used = 2 ∧
      pool.used = ownedOn (.cpu 0) w.state.objects := by
  have hreplay : (replayOps (Scenario.backend 4).inner [Scenario.registerBuffer,
      .put [1] ⟨.cache, [Scenario.slotOn (.strict (.cpu 0)) 2]⟩]
      (memory (Scenario.backend 4) Scenario.mem).start).map (fun r ↦ r.2.state.pools (.cpu 0)) =
      some (some ⟨some 4, 2, [([1], 0)]⟩) := by rfl
  obtain ⟨⟨history, w⟩, hsome, hpool⟩ := Option.map_eq_some_iff.mp hreplay
  have hrun : (memory (Scenario.backend 4) Scenario.mem).Run history w :=
    steps_of_replayOps Scenario.mem _ hsome
  exact ⟨history, w, _, hrun, hpool, rfl, (used_eq_ownedOn hrun).1 _ _ hpool⟩

/-! ### Capacities -/

/-- Every pool of the one state has the capacity it has in the other. -/
def SameCapacities (first st : State) : Prop :=
  ∀ device, (st.pools device).map Pool.capacity = (first.pools device).map Pool.capacity

theorem SameCapacities.of_pools {first st : State}
    (hisSome : ∀ device, (st.pools device).isSome = (first.pools device).isSome)
    (hpools : ∀ device pool', st.pools device = some pool' → ∃ pool,
      first.pools device = some pool ∧ pool'.capacity = pool.capacity) :
    SameCapacities first st := by
  intro device
  cases hpool : st.pools device with
  | none =>
    have hnone : first.pools device = none := by
      have h := hisSome device
      rw [hpool] at h
      simpa using h.symm
    rw [hnone]
  | some pool' =>
    obtain ⟨pool, hfirst, hcapacity⟩ := hpools device pool' hpool
    rw [hfirst, Option.map_some, Option.map_some, hcapacity]

theorem Effect.sameCapacities {inner : Inner} {w w' : World} {op : Op} {reply : Reply}
    (h : Effect inner w op reply w') : SameCapacities w.state w'.state := by
  rcases h.put_or_shrinks with ⟨key, request, results, _, _, hdone⟩ | ⟨hshrinks, _⟩
  · refine SameCapacities.of_pools hdone.progress.pools_isSome ?_
    intro device pool' hpool'
    obtain ⟨pool, hpool, hcapacity, _⟩ := hdone.progress.pools device pool' hpool'
    exact ⟨pool, hpool, hcapacity⟩
  · refine SameCapacities.of_pools hshrinks.pools_isSome ?_
    intro device pool' hpool'
    obtain ⟨pool, hpool, hcapacity, _⟩ := hshrinks.pools device pool' hpool'
    exact ⟨pool, hpool, hcapacity⟩

/-- The call lists no device twice in an `Each` placement. -/
def ListsDevicesOnce : Op → Prop
  | .put _ op => ∀ ps ∈ op.slots, DistinctDevices ps.spec.placement
  | _ => True

/-- One call that lists no device twice keeps every counter within its capacity. -/
theorem Effect.withinCapacity {inner : Inner} {w w' : World} {op : Op} {reply : Reply}
    (h : Effect inner w op reply w') (honce : ListsDevicesOnce op)
    (hw : WithinCapacity w.state) : WithinCapacity w'.state := by
  rcases h.put_or_shrinks with ⟨key, request, results, rfl, _, hdone⟩ | ⟨hshrinks, _⟩
  · exact hdone.progress.within honce hw
  · intro device pool' cap hpool' hcap
    obtain ⟨pool, hpool, hcapacity, _, hused⟩ := hshrinks.pools device pool' hpool'
    exact hused.trans (hw device pool cap hpool (hcapacity ▸ hcap))

/-- In every run whose placements list no device twice, a pool built with a capacity never holds
more than it. -/
theorem used_le_capacity {b : MemoryBuilder} {m₀ : UserMemory} {history : List Event} {w : World}
    (hrun : ((memory b m₀).restrict fun _ e ↦ ListsDevicesOnce e.op).Run history w)
    {device : Device} {built : Pool} {cap : ℕ} (hbuilt : b.state.pools device = some built)
    (hcap : built.capacity = some cap) :
    ∃ pool, w.state.pools device = some pool ∧ pool.used ≤ cap := by
  have hinvariant : WithinCapacity w.state ∧ SameCapacities b.state w.state := by
    refine run_induction (I := fun _ w ↦ WithinCapacity w.state ∧ SameCapacities b.state w.state)
      ⟨?_, fun _ ↦ rfl⟩ ?_ hrun
    · intro device pool cap hpool _
      rw [(buildPools_some hpool).1]
      exact Nat.zero_le cap
    · intro _ w e w' _ hw honce _ _ heffect
      refine ⟨heffect.withinCapacity honce hw.1, fun device ↦ ?_⟩
      rw [heffect.sameCapacities device, hw.2 device]
  have hsame := hinvariant.2 device
  rw [hbuilt, Option.map_some, hcap] at hsame
  obtain ⟨pool, hpool, hcapacity⟩ := Option.map_eq_some_iff.mp hsame
  exact ⟨pool, hpool, hinvariant.1 device pool cap hpool hcapacity⟩

/-- A put of one replica on each device stays within the capacity of the first. -/
theorem used_le_capacity_after_put : ∃ history w pool,
    (memory (Scenario.backend 4) Scenario.mem).Run history w ∧ history.length = 2 ∧
      w.state.pools (.cpu 0) = some pool ∧ pool.used ≤ 4 := by
  obtain ⟨e, e', w, _, _, hrun⟩ := Scenario.exists_run 4 (fun _ e ↦ ListsDevicesOnce e.op)
    (.put [1] ⟨.cache, [Scenario.slotOn (.each [.cpu 0, .cpu 1]) 2]⟩)
    (fun e he ↦ by rw [he]; trivial)
    (fun e he ↦ by
      rw [he]
      intro ps hps
      rw [List.mem_singleton] at hps
      subst hps
      change List.Nodup _
      decide)
    (by decide) (by rfl)
  have hbuilt : (Scenario.backend 4).state.pools (.cpu 0) = some ⟨some 4, 0, []⟩ := rfl
  obtain ⟨pool, hpool, hle⟩ := used_le_capacity hrun hbuilt rfl
  exact ⟨[e, e'], w, pool, hrun.of_restrict, rfl, hpool, hle⟩

/-- A placement that lists a device of capacity 2 twice puts 4 bytes on it. -/
theorem repeated_device_exceeds_capacity : ∃ history w pool,
    (memory (Scenario.backend 2) Scenario.mem).Run history w ∧
      w.state.pools (.cpu 0) = some pool ∧ pool.capacity = some 2 ∧ pool.used = 4 := by
  have hreplay : (replayOps (Scenario.backend 2).inner [Scenario.registerBuffer,
      .put [1] ⟨.cache, [Scenario.slotOn (.each [.cpu 0, .cpu 0]) 2]⟩]
      (memory (Scenario.backend 2) Scenario.mem).start).map (fun r ↦ r.2.state.pools (.cpu 0)) =
      some (some ⟨some 2, 4, [([1], 0), ([1], 0)]⟩) := by rfl
  obtain ⟨⟨history, w⟩, hsome, hpool⟩ := Option.map_eq_some_iff.mp hreplay
  exact ⟨history, w, _, steps_of_replayOps Scenario.mem _ hsome, hpool, rfl, rfl⟩

end Pegastore.Memory
