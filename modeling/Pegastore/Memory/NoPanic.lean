import Pegastore.Memory.System

/-!
# When no operation panics

Queue entries outlive their objects: `remove` takes an object out of the index and leaves its
entries behind. When the key is put again with fewer slots, an old entry points past them, and the
next `make_room` that pops it indexes out of bounds (`stale_entry_panics`).

`Admissible` is the condition on a call that rules this out: a `Cache` object created under an
absent key has more slots than any queued entry of that key names. It also keeps the byte counters
below 64 bits and every allocation below the limit of a vector. Along runs whose calls are all
admissible no queue entry dangles (`Undangling`), so every admissible call returns
(`exec_returns`).
-/

set_option autoImplicit false
set_option relaxedAutoImplicit false

namespace Pegastore.Memory

open Outcome ByteMemory Transition

/-- No queued entry points past the slots of a present `Cache` object. -/
def Undangling (st : State) : Prop :=
  ∀ device pool entry, st.pools device = some pool → entry ∈ pool.fifo →
    ¬ Dangling st.objects entry

/-- A request that creates a `Cache` object has more slots than the queued entries of its key
name. -/
def OutnumbersQueued (st : State) (key : Key) (op : OpPut) : Prop :=
  op.retention = .cache → specAt st.objects key = none → ∀ device pool entry,
    st.pools device = some pool → entry ∈ pool.fifo → entry.1 = key →
      entry.2.toNat < op.slots.length

/-- The condition on a call under which it cannot panic. -/
def Admissible (w : World) : Op → Prop
  | .put key op => OutnumbersQueued w.state key op ∧
    (∀ device pool, w.state.pools device = some pool → pool.used + demand op.slots < 2 ^ 64) ∧
    ∀ ps ∈ op.slots, ps.spec.len ≤ isizeMax
  | .get _ op => totalLen (segsOf op.dst) ≤ isizeMax
  | _ => True

theorem Undangling.put {inner : Inner} {mem : UserMemory} {key : Key} {op : OpPut}
    {first st : State} {results : List (Result Unit)}
    (h : PutProgress inner mem key op first results st)
    (hresults : results.length = op.slots.length) (hqueued : OutnumbersQueued first key op)
    (hfirst : Undangling first) : Undangling st := by
  rintro device pool' entry hpool' hentry ⟨spec, hspec, hret, hlen⟩
  obtain ⟨pool, hpool, hfifo⟩ := h.mem_fifo hresults.le hpool' hentry
  have hslots : op.spec.slots.length = op.slots.length := by rw [OpPut.spec, List.length_map]
  by_cases hkey : entry.1 = key
  · rw [hkey, h.spec_self, Option.some.injEq] at hspec
    subst hspec
    rcases hfifo with hold | ⟨_, hnew⟩
    · rcases h.spec_before with hnone | hsome
      · have hlt := hqueued hret hnone device pool entry hpool hold hkey
        omega
      · exact hfirst device pool entry hpool hold ⟨op.spec, by rw [hkey, hsome], hret, hlen⟩
    · omega
  · have hold : entry ∈ pool.fifo := hfifo.resolve_right fun hnew ↦ hkey hnew.1
    exact hfirst device pool entry hpool hold
      ⟨spec, h.spec_other hkey hspec, hret, hlen⟩

/-- A call that stores nothing keeps the queues undangling. -/
theorem Undangling.of_shrinks {before after : State} (hbefore : Undangling before)
    (h : Shrinks before after) : Undangling after := by
  rintro device pool' entry hpool' hentry ⟨spec, hfound, hret, hlen⟩
  obtain ⟨pool, hpool, _, hfifo, _⟩ := h.pools device pool' hpool'
  rw [hfifo] at hentry
  exact hbefore device pool entry hpool hentry ⟨spec, h.spec_of _ _ hfound, hret, hlen⟩

/-- One admissible call keeps the queues undangling. -/
theorem Effect.undangling {inner : Inner} {w w' : World} {op : Op} {reply : Reply}
    (h : Effect inner w op reply w') (hadmissible : Admissible w op) (hw : Undangling w.state) :
    Undangling w'.state := by
  rcases h.put_or_shrinks with ⟨key, request, results, rfl, _, hdone⟩ | ⟨hshrinks, _⟩
  · exact Undangling.put hdone.progress hdone.length hadmissible.1 hw
  · exact hw.of_shrinks hshrinks

theorem MemoryBuilder.state_undangling (b : MemoryBuilder) : Undangling b.state := by
  intro device pool entry hpool hentry
  rw [(buildPools_some hpool).2.1] at hentry
  cases hentry

theorem run_undangling {b : MemoryBuilder} {m₀ : UserMemory} {history : List Event} {w : World}
    (h : ((memory b m₀).restrict fun w e ↦ Admissible w e.op).Run history w) :
    Undangling w.state := by
  refine run_induction (I := fun _ w ↦ Undangling w.state) b.state_undangling ?_ h
  intro _ w e w' _ hw hadmissible _ _ heffect
  exact heffect.undangling hadmissible hw

/-- An admissible call has no panic where no entry dangles. -/
theorem not_opPanic {w : World} {op : Op} {p : Panic} (hw : Undangling w.state)
    (hadmissible : Admissible w op) : ¬ OpPanic w op p := by
  cases op with
  | put key op =>
    obtain ⟨_, hused, hlen⟩ := hadmissible
    rintro (⟨_, device, pool, entry, hpool, hentry, _, hdangling⟩ |
      ⟨_, device, pool, hpool, hover⟩ | ⟨_, ps, hps, hbig⟩)
    · exact hw device pool entry hpool hentry hdangling
    · have hlt := hused device pool hpool
      omega
    · have hle := hlen ps hps
      omega
  | get key op =>
    rintro ⟨_, hbig⟩
    exact absurd hadmissible (not_le.mpr hbig)
  | register | dropRegion | userWrite | publish | stat | remove | removePrefix => exact id

/-- In every run of admissible calls, every admissible call returns, and every queued entry of a
present `Cache` object names one of its slots. -/
theorem exec_returns {b : MemoryBuilder} {m₀ : UserMemory} {history : List Event} {w : World}
    (hrun : ((memory b m₀).restrict fun w e ↦ Admissible w e.op).Run history w) :
    (∀ op, Admissible w op → ∃ reply w', exec b.inner w op = .ok (reply, w')) ∧
      ∀ device pool key slot obj, w.state.pools device = some pool → (key, slot) ∈ pool.fifo →
        w.state.objects.find? key = some obj → obj.spec.retention = .cache →
          slot.toNat < obj.slots.length := by
  have hundangling := run_undangling hrun
  have hsound : Sound w.state := run_sound hrun.of_restrict
  constructor
  · intro op hadmissible
    obtain ⟨⟨reply, w'⟩, hexec, _⟩ := (holds_exec b.inner op hsound).exists_ok
      fun p ↦ not_opPanic hundangling hadmissible
    exact ⟨reply, w', hexec⟩
  · intro device pool key slot obj hpool hentry hfind hret
    by_contra hlen
    refine hundangling device pool (key, slot) hpool hentry ⟨obj.spec, ?_, hret, ?_⟩
    · simp [specAt, hfind]
    · rw [← obj.slots_length]
      exact not_lt.mp hlen

namespace Scenario

/-- In a fresh backend every small request is admissible. -/
theorem admissible_registered (capacity : ℕ) {key : Key} {op : OpPut}
    (hdemand : demand op.slots < 2 ^ 64) (hlen : ∀ ps ∈ op.slots, ps.spec.len ≤ isizeMax) :
    Admissible (registered capacity) (.put key op) := by
  refine ⟨?_, ?_, hlen⟩
  · intro _ _ device pool entry hpool hentry
    rw [(buildPools_some hpool).2.1] at hentry
    cases hentry
  · intro device pool hpool
    rw [(buildPools_some hpool).1]
    omega

/-- Only the two devices of the backend have a pool. -/
theorem device_of_run {capacity : ℕ} {condition : World → Event → Prop} {history : List Event}
    {w : World} (h : ((memory (backend capacity) mem).restrict condition).Run history w)
    {device : Device} {pool : Pool} (hpool : w.state.pools device = some pool) :
    device ∈ [Device.cpu 0, .cpu 1] := by
  have hsame : ∀ device, (w.state.pools device).isSome =
      ((backend capacity).state.pools device).isSome := by
    refine run_induction (I := fun _ w ↦ ∀ device, (w.state.pools device).isSome =
      ((backend capacity).state.pools device).isSome) (fun _ ↦ rfl) ?_ h
    intro _ w e w' _ hw _ _ _ heffect device
    rw [← hw device]
    rcases heffect.put_or_shrinks with ⟨_, _, _, _, _, hdone⟩ | ⟨hshrinks, _⟩
    · exact hdone.progress.pools_isSome device
    · exact hshrinks.pools_isSome device
  have hbuilt := hsame device
  rw [hpool] at hbuilt
  obtain ⟨first, hfirst⟩ := Option.isSome_iff_exists.mp hbuilt.symm
  have hlisted := List.mem_map_of_mem (f := Prod.fst) (buildPools_some hfirst).2.2
  exact hlisted

/-- `Admissible` as a check of the two pools. -/
def admits (w : World) : Op → Bool
  | .put key op =>
    ([.cpu 0, .cpu 1].all fun device ↦ (w.state.pools device).all fun pool ↦
      pool.fifo.all (fun entry ↦ entry.1 != key || decide (entry.2.toNat < op.slots.length)) &&
        decide (pool.used + demand op.slots < 2 ^ 64)) &&
      op.slots.all fun ps ↦ decide (ps.spec.len ≤ isizeMax)
  | .get _ op => decide (totalLen (segsOf op.dst) ≤ isizeMax)
  | _ => true

theorem admissible_of_admits {w : World} {op : Op}
    (hdevices : ∀ device pool, w.state.pools device = some pool →
      device ∈ [Device.cpu 0, .cpu 1])
    (h : admits w op = true) : Admissible w op := by
  cases op with
  | put key op =>
    obtain ⟨hpools, hlen⟩ := (Bool.and_eq_true _ _).mp h
    have hpool : ∀ device pool, w.state.pools device = some pool →
        pool.fifo.all (fun entry ↦ entry.1 != key ||
          decide (entry.2.toNat < op.slots.length)) = true ∧
        decide (pool.used + demand op.slots < 2 ^ 64) = true := by
      intro device pool hpool
      have hall := List.all_eq_true.mp hpools device (hdevices device pool hpool)
      rw [hpool] at hall
      exact (Bool.and_eq_true _ _).mp hall
    refine ⟨fun _ _ device pool entry hfound hentry hkey ↦ ?_, fun device pool hfound ↦ ?_,
      fun ps hps ↦ of_decide_eq_true (List.all_eq_true.mp hlen ps hps)⟩
    · have hin := List.all_eq_true.mp (hpool device pool hfound).1 entry hentry
      exact of_decide_eq_true (((Bool.or_eq_true _ _).mp hin).resolve_left fun hne ↦
        bne_iff_ne.mp hne hkey)
    · exact of_decide_eq_true (hpool device pool hfound).2
  | get key op =>
    have hle : totalLen (segsOf op.dst) ≤ isizeMax := of_decide_eq_true h
    exact hle
  | register | dropRegion | userWrite | publish | stat | remove | removePrefix => trivial

/-- A replay of calls that pass the check is a run of admissible calls. -/
theorem run_of_admits {capacity : ℕ} (ops : List Op) {history : List Event} {w : World}
    (h : replay (fun w op ↦ if admits w op then call (backend capacity).inner w op else none) ops
      (memory (backend capacity) mem).start = some (history, w)) :
    ((memory (backend capacity) mem).restrict fun w e ↦ Admissible w e.op).Run history w := by
  have hchecked : ((memory (backend capacity) mem).restrict fun w e ↦
      admits w e.op = true).Run history w := by
    refine steps_of_replay (fun w op e w' hnext ↦ ?_) ops h
    split_ifs at hnext with hpass
    obtain ⟨rfl, hborrows, hmem, hexec⟩ := call_eq_some hnext
    exact ⟨hpass, hborrows, hmem, hexec⟩
  exact hchecked.weaken_of_run fun history w e hrun hpass ↦
    admissible_of_admits (fun device pool ↦ device_of_run hrun) hpass

/-- Two slots of one byte each on the first device. -/
def putTwo : OpPut := ⟨.cache, [slotOn (.strict (.cpu 0)) 1, slotOn (.strict (.cpu 0)) 1]⟩

/-- A key with two slots is removed, which leaves its entries in the queue, and a second key fills
the device. The first key is then put again: the call evicts the second key and stores both
slots. -/
theorem exec_returns_put_again : ∃ history w reply w',
    (memory (backend 2) mem).Run history w ∧
    w.state.pools (.cpu 0) = some ⟨some 2, 2, [([1], 0), ([1], 1), ([2], 0)]⟩ ∧
    exec (backend 2).inner w (.put [1] putTwo) = .ok (reply, w') ∧
    resultsOf reply = some [.ok (), .ok ()] ∧ (w'.state.objects.find? [2]).isNone = true := by
  let ops : List Op := [registerBuffer, .put [1] putTwo, .remove [[1]],
    .put [2] ⟨.cache, [slotOn (.strict (.cpu 0)) 2]⟩]
  obtain ⟨history, w, e, w', hreplay, hcall, hcheck⟩ := exists_replay_step
    (fun w op ↦ if admits w op then call (backend 2).inner w op else none)
    (memory (backend 2) mem).start ops (.put [1] putTwo)
    (fun _ w e w' ↦ decide (w.state.pools (.cpu 0) =
        some ⟨some 2, 2, [([1], 0), ([1], 1), ([2], 0)]⟩) &&
      decide (resultsOf e.reply = some [.ok (), .ok ()]) &&
      (w'.state.objects.find? [2]).isNone) (by decide +kernel)
  simp only [Bool.and_eq_true, decide_eq_true_eq] at hcheck
  obtain ⟨⟨hpool, hresults⟩, hgone⟩ := hcheck
  have hrun := run_of_admits ops hreplay
  split_ifs at hcall with hadmits
  obtain ⟨reply, w'', hexec⟩ := (exec_returns hrun).1 (.put [1] putTwo)
    (admissible_of_admits (fun device pool ↦ device_of_run hrun) hadmits)
  obtain ⟨_, _, _, hsame⟩ := call_eq_some hcall
  rw [hexec] at hsame
  cases hsame
  exact ⟨history, w, _, _, hrun.of_restrict, hpool, hexec, hresults, hgone⟩

/-- The panic a computation ends in. -/
def panicOf {α : Type} : Exec α → Option Panic
  | .ok _ => none
  | .error p => some p

theorem eq_error_of_panicOf {α : Type} {x : Exec α} {p : Panic} (h : panicOf x = some p) :
    x = .error p := by
  cases x with
  | ok a => cases h
  | error q => exact congrArg Except.error (Option.some.inj h)

/-- Two slots under a key, their removal, one slot under the same key on another device, and a
second key that fills the first device. -/
def shrinkKey : List Op :=
  [registerBuffer,
    .put [1] ⟨.cache, [slotOn (.strict (.cpu 0)) 1, slotOn (.strict (.cpu 0)) 1]⟩,
    .remove [[1]],
    .put [1] ⟨.cache, [slotOn (.strict (.cpu 1)) 1]⟩,
    .put [2] ⟨.cache, [slotOn (.strict (.cpu 0)) 2]⟩]

/-- After `shrinkKey`, a third put under pressure pops the old entry of the second slot and indexes
past the only slot there is. -/
theorem stale_entry_panics : ∃ history w, (memory (backend 2) mem).Run history w ∧
    Borrows w (.put [3] ⟨.cache, [slotOn (.strict (.cpu 0)) 1]⟩) ∧
    exec (backend 2).inner w (.put [3] ⟨.cache, [slotOn (.strict (.cpu 0)) 1]⟩) =
      .error .indexOutOfBounds := by
  have hreplay : (replayOps (backend 2).inner shrinkKey (memory (backend 2) mem).start).map
      (fun r ↦ (decide (Borrows r.2 (.put [3] ⟨.cache, [slotOn (.strict (.cpu 0)) 1]⟩)),
        panicOf (exec (backend 2).inner r.2 (.put [3] ⟨.cache, [slotOn (.strict (.cpu 0)) 1]⟩)))) =
      some (true, some .indexOutOfBounds) := by rfl
  obtain ⟨⟨history, w⟩, hsome, hlast⟩ := Option.map_eq_some_iff.mp hreplay
  obtain ⟨hborrows, hpanic⟩ := Prod.mk.inj hlast
  exact ⟨history, w, steps_of_replayOps mem shrinkKey hsome, of_decide_eq_true hborrows,
    eq_error_of_panicOf hpanic⟩

end Scenario

end Pegastore.Memory
