import Pegastore.Lib.Transition
import Pegastore.Memory.Put
import Pegastore.Memory.Read

/-!
# Runs of the in-process backend

A `World` is the state under the mutex, user memory, and the regions registered and not dropped.
Operations take whole steps, because each holds the mutex throughout; between them the user may
write their own memory. `memory b m₀` is the transition system of a backend built by `b`. Its labels
are events: the operation, its reply, and user memory when it was called. A step is a call that
returns, with regions that are alive, as the borrow of an `Iov` demands.

`Effect` lists what a call can do, one constructor per outcome, in terms of specs, replicas and
pools. `holds_exec` says that every call has one of these effects or a named panic, as long as the
state is `Sound`: counters match the index and replicas have the shape of their slots. `run_sound`
says that every reachable state is.
-/

set_option autoImplicit false
set_option relaxedAutoImplicit false

namespace Pegastore.Memory

open Outcome ByteMemory Transition

structure World where
  state : State
  mem : UserMemory
  nextId : ℕ
  regions : List MemoryRegion

/-- What a client does. -/
inductive Op
  | register (addr len : ℕ) (device : Device) (valid : addr + len ≤ 2 ^ 64)
  | dropRegion (id : ℕ)
  | userWrite (mem : UserMemory)
  | put (key : Key) (op : OpPut)
  | publish (key : Key) (op : OpPublish)
  | get (key : Key) (op : OpGet)
  | stat (keys : List Key)
  | remove (keys : List Key)
  | removePrefix (start : List UInt8)

inductive Reply
  | unit
  | region (r : Result MemoryRegion)
  | put (r : Result RpPut)
  | publish (r : Result Unit)
  | get (r : Result RpGet)
  | stat (infos : List (Option ObjectInfo))
  | removed (count : ℕ)

/-- A call with its reply, and user memory as the call found it. -/
structure Event where
  op : Op
  reply : Reply
  mem : UserMemory

/-- The segments an operation borrows. -/
def Op.iovs : Op → List Iov
  | .put _ op => op.slots.flatMap PutSlot.src
  | .publish _ op => op.src
  | .get _ op => op.dst
  | _ => []

/-- The region an operation drops. -/
def Op.drops : Op → List ℕ
  | .dropRegion id => [id]
  | _ => []

/-- The operation uses live regions only. -/
def Borrows (w : World) (op : Op) : Prop :=
  (∀ iov ∈ op.iovs, iov.region ∈ w.regions) ∧ ∀ id ∈ op.drops, id ∈ w.regions.map MemoryRegion.id

instance (w : World) (op : Op) : Decidable (Borrows w op) := instDecidableAnd

/-- One call. -/
def exec (inner : Inner) (w : World) : Op → Exec (Reply × World)
  | .register addr len device valid =>
    match inner.registerCheck device with
    | .error e => .ok (.region (.error e), w)
    | .ok _ =>
      let region : MemoryRegion := ⟨w.nextId, addr, len, device, valid⟩
      .ok (.region (.ok region),
        { w with nextId := w.nextId + 1, regions := w.regions ++ [region] })
  | .dropRegion id =>
    .ok (.unit, { w with
      state := w.state.retireRegion id
      regions := w.regions.filter fun region ↦ region.id ≠ id })
  | .userWrite mem => .ok (.unit, { w with mem := mem })
  | .put key op => do
    let (r, st) ← put inner w.mem w.state key op
    .ok (.put r, { w with state := st })
  | .publish key op => do
    let (r, st) ← publish w.state key op
    .ok (.publish r, { w with state := st })
  | .get key op => do
    let (r, mem) ← get inner w.mem w.state key op
    .ok (.get r, { w with mem := mem })
  | .stat keys => .ok (.stat (stat inner w.state keys), w)
  | .remove keys => do
    let st ← remove w.state keys
    .ok (.unit, { w with state := st })
  | .removePrefix start => do
    let (count, st) ← removePrefix w.state start
    .ok (.removed count, { w with state := st })

/-- The backend as a transition system. -/
def memory (b : MemoryBuilder) (m₀ : UserMemory) : System World Event where
  start := ⟨b.state, m₀, 1, []⟩
  step := fun w e w' ↦
    Borrows w e.op ∧ e.mem = w.mem ∧ exec b.inner w e.op = .ok (e.reply, w')

/-- A call that is allowed and returns, as an event. -/
def call (inner : Inner) (w : World) (op : Op) : Option (Event × World) :=
  if Borrows w op then
    match exec inner w op with
    | .ok (reply, w') => some (⟨op, reply, w.mem⟩, w')
    | .error _ => none
  else none

theorem call_eq_some {inner : Inner} {w w' : World} {op : Op} {e : Event}
    (h : call inner w op = some (e, w')) : e.op = op ∧ Borrows w op ∧ e.mem = w.mem ∧
      exec inner w op = .ok (e.reply, w') := by
  unfold call at h
  split_ifs at h with hborrows
  cases hexec : exec inner w op with
  | error p => simp [hexec] at h
  | ok pair =>
    rw [hexec] at h
    cases h
    exact ⟨rfl, hborrows, rfl, rfl⟩

/-- The run of a list of operations, as far as all of them are allowed and return. -/
def replayOps (inner : Inner) : List Op → World → Option (List Event × World) :=
  replay (call inner)

theorem steps_of_replayOps {b : MemoryBuilder} (m₀ : UserMemory) (ops : List Op) {w w' : World}
    {history : List Event} (h : replayOps b.inner ops w = some (history, w')) :
    (memory b m₀).Steps w history w' := by
  refine steps_of_replay ?_ ops h
  intro w op e w' hcall
  obtain ⟨rfl, hborrows, hmem, hexec⟩ := call_eq_some hcall
  exact ⟨hborrows, hmem, hexec⟩

/-- The events of a replay are its operations. -/
theorem ops_of_replayOps {inner : Inner} (ops : List Op) {w w' : World} {history : List Event}
    (h : replayOps inner ops w = some (history, w')) : history.map Event.op = ops :=
  inputs_of_replay (fun _ _ _ _ hcall ↦ (call_eq_some hcall).1) ops h

/-! ### Effects -/

/-- What a call that returns can do. -/
inductive Effect (inner : Inner) (w : World) : Op → Reply → World → Prop
  | registerRefused {addr len : ℕ} {device : Device} {valid : addr + len ≤ 2 ^ 64} {e : Error} :
    Effect inner w (.register addr len device valid) (.region (.error e)) w
  | registered {addr len : ℕ} {device : Device} {valid : addr + len ≤ 2 ^ 64} :
    Effect inner w (.register addr len device valid)
      (.region (.ok ⟨w.nextId, addr, len, device, valid⟩))
      { w with
        nextId := w.nextId + 1
        regions := w.regions ++ [⟨w.nextId, addr, len, device, valid⟩] }
  | dropped {id : ℕ} : Effect inner w (.dropRegion id) .unit
      { w with
        state := w.state.retireRegion id
        regions := w.regions.filter fun region ↦ region.id ≠ id }
  | wrote {mem : UserMemory} : Effect inner w (.userWrite mem) .unit { w with mem := mem }
  | putRefused {key : Key} {op : OpPut} {e : Error} :
    op.validate = .error e ∨ w.state.reserve key op.spec = .error e →
    Effect inner w (.put key op) (.put (.error e)) w
  | put {key : Key} {op : OpPut} {results : List (Result Unit)} {st : State} :
    PutDone inner w.mem key op w.state results st →
    Effect inner w (.put key op) (.put (.ok ⟨results⟩)) { w with state := st }
  | publishRefused {key : Key} {op : OpPublish} {e : Error} :
    Effect inner w (.publish key op) (.publish (.error e)) w
  | published {key : Key} {op : OpPublish} {st : State} :
    Published key op.slot.toNat op.src w.state st →
    Effect inner w (.publish key op) (.publish (.ok ())) { w with state := st }
  | getRefused {key : Key} {op : OpGet} {e : Error} :
    Effect inner w (.get key op) (.get (.error e)) w
  | got {key : Key} {op : OpGet} {dstLen : ℕ} {spec : ObjectSpec} {slotSpec : SlotSpec}
    {replica : ReplicaEntry} {mem : UserMemory} :
    Got inner w.mem w.state key op dstLen spec slotSpec replica mem →
    Effect inner w (.get key op) (.get (.ok ⟨inner.location replica.device replica.tier⟩))
      { w with mem := mem }
  | stat {keys : List Key} : Effect inner w (.stat keys) (.stat (stat inner w.state keys)) w
  | removed {keys : List Key} {st : State} : Removed keys w.state st →
    Effect inner w (.remove keys) .unit { w with state := st }
  | removedPrefix {start : List UInt8} {st : State} :
    Removed (w.state.keysFrom start) w.state st →
    Effect inner w (.removePrefix start) (.removed (w.state.keysFrom start).length)
      { w with state := st }

/-- A call is a put that is carried out, or it stores nothing. -/
theorem Effect.put_or_shrinks {inner : Inner} {w w' : World} {op : Op} {reply : Reply}
    (h : Effect inner w op reply w') :
    (∃ key request results, op = .put key request ∧ reply = .put (.ok ⟨results⟩) ∧
      PutDone inner w.mem key request w.state results w'.state) ∨
    (Shrinks w.state w'.state ∧ ∀ rp, reply ≠ .put (.ok rp)) := by
  cases h with
  | put hdone => exact Or.inl ⟨_, _, _, rfl, rfl, hdone⟩
  | registerRefused | registered | wrote | putRefused | publishRefused | getRefused | got | stat =>
    exact Or.inr ⟨Shrinks.refl _, fun _ ↦ nofun⟩
  | dropped => exact Or.inr ⟨Shrinks.retireRegion _ _, fun _ ↦ nofun⟩
  | published hpublished => exact Or.inr ⟨hpublished.shrinks, fun _ ↦ nofun⟩
  | removed hremoved | removedPrefix hremoved => exact Or.inr ⟨hremoved.shrinks, fun _ ↦ nofun⟩

/-- Counters match the index and replicas have the shape of their slots. -/
structure Sound (st : State) : Prop where
  accounted : Accounted st
  shaped : WellShaped st.objects

/-- The panics of a call. -/
def OpPanic (w : World) (op : Op) (p : Panic) : Prop :=
  match op with
  | .put key op => PutPanic key op w.state p
  | .get _ op => p = .capacityOverflow ∧ isizeMax < totalLen (segsOf op.dst)
  | _ => False

/-- Every call has one of the listed effects or one of the listed panics. -/
theorem holds_exec (inner : Inner) {w : World} (op : Op) (h : Sound w.state) :
    Holds (exec inner w op) (fun r ↦ Effect inner w op r.1 r.2) (OpPanic w op) := by
  cases op with
  | register addr len device valid =>
    unfold exec
    dsimp only
    cases hcheck : inner.registerCheck device with
    | error e =>
      rw [holds_ok]
      exact Effect.registerRefused
    | ok u =>
      rw [holds_ok]
      exact Effect.registered
  | dropRegion id => exact Effect.dropped
  | userWrite mem => exact Effect.wrote
  | put key op =>
    refine (holds_put inner w.mem key op h.accounted).bind ?_
    rintro ⟨r, st⟩ _ (⟨e, hr, hreason⟩ | ⟨results, hr, hdone⟩)
    · cases hr
      exact Effect.putRefused hreason
    · cases hr
      exact Effect.put hdone
  | publish key op =>
    refine ((holds_publish w.state key op).mono (fun _ h ↦ h) fun _ h ↦ h.elim).bind ?_
    rintro ⟨r, st⟩ _ (⟨e, hr⟩ | ⟨hr, hpublished⟩)
    · cases hr
      exact Effect.publishRefused
    · cases hr
      exact Effect.published hpublished
  | get key op =>
    refine (holds_get inner w.mem key op h.shaped).bind ?_
    rintro ⟨r, mem⟩ _ (⟨e, hr⟩ | ⟨dstLen, spec, slotSpec, replica, hr, hgot⟩)
    · cases hr
      exact Effect.getRefused
    · cases hr
      exact Effect.got hgot
  | stat keys => exact Effect.stat
  | remove keys =>
    refine ((holds_remove keys h.accounted).mono (fun _ h ↦ h) fun _ h ↦ h.elim).bind ?_
    intro st _ hremoved
    exact Effect.removed hremoved
  | removePrefix start =>
    refine ((holds_removePrefix start h.accounted).mono (fun _ h ↦ h) fun _ h ↦ h.elim).bind ?_
    rintro ⟨count, st⟩ _ ⟨hcount, hremoved⟩
    cases hcount
    exact Effect.removedPrefix hremoved

/-! ### Soundness of every reachable state -/

theorem shaped_ownedReplicas {targets : List (Device × Bool)} {bytes : List UInt8} {len : ℕ}
    (hlen : bytes.length = len) (hvector : len ≤ isizeMax) :
    ∀ r ∈ ownedReplicas targets bytes, Shaped len r := by
  intro r hr
  obtain ⟨t, _, rfl⟩ := List.mem_map.mp hr
  exact ⟨rfl, hlen, hvector⟩

/-- The slots of a `put` that landed fit in vectors. -/
theorem PutDone.len_le {inner : Inner} {mem : UserMemory} {key : Key} {op : OpPut}
    {first st : State} {results : List (Result Unit)}
    (h : PutDone inner mem key op first results st) {i : ℕ} {ps : PutSlot}
    (hps : op.slots[i]? = some ps) (hok : results[i]? = some (.ok ())) :
    ps.spec.len ≤ isizeMax := by
  obtain ⟨device, hiovs⟩ := h.valid ps (List.mem_of_getElem? hps)
  obtain ⟨writable, reserved, _, hdecided⟩ := h.decided
  obtain ⟨found, hfound, ⟨_, hwritten⟩ | ⟨_, before, after, _, _, hput, _⟩⟩ := hdecided i _ hok
  · cases hwritten
  · rw [hps] at hfound
    cases hfound
    exact len_le_of_putSlot hiovs hput

theorem WellShaped.put {inner : Inner} {mem : UserMemory} {key : Key} {op : OpPut}
    {first st : State} {results : List (Result Unit)}
    (hdone : PutDone inner mem key op first results st) (hshaped : WellShaped first.objects) :
    WellShaped st.objects := by
  have h := hdone.progress
  intro other spec i slotSpec hspec hslotSpec r hr
  by_cases hkey : other = key
  · subst hkey
    rw [h.spec_self, Option.some.injEq] at hspec
    subst hspec
    by_cases hok : results[i]? = some (.ok ())
    · obtain ⟨ps, hps, rfl⟩ : ∃ ps, op.slots[i]? = some ps ∧ ps.spec = slotSpec := by
        simpa [OpPut.spec] using hslotSpec
      obtain ⟨_, targets, _, _, _, hreplicas⟩ := h.landed i ps hps hok
      obtain ⟨device, hiovs⟩ := hdone.valid ps (List.mem_of_getElem? hps)
      rw [hreplicas] at hr
      exact shaped_ownedReplicas (length_readAll_of_valid mem hiovs) (hdone.len_le hps hok) r hr
    · rw [h.kept i hok] at hr
      rcases h.spec_before with hnone | hsome
      · rw [specAt_none_replicasAt hnone] at hr
        cases hr
      · exact hshaped other op.spec i slotSpec hsome hslotSpec r hr
  · exact hshaped other spec i slotSpec (h.spec_other hkey hspec) hslotSpec r
      ((h.sublist_other hkey i).subset hr)

theorem WellShaped.publish {key : Key} {idx : ℕ} {src : List Iov} {before after : State}
    (h : Published key idx src before after) (hshaped : WellShaped before.objects) :
    WellShaped after.objects := by
  intro other spec i slotSpec hspec hslotSpec r hr
  rw [h.spec_eq] at hspec
  by_cases hself : other = key ∧ i = idx
  · obtain ⟨rfl, rfl⟩ := hself
    obtain ⟨found, foundSlot, device, first, hfound, hfoundSlot, hvalid, _, hreplicas⟩ := h.valid
    rw [hspec, Option.some.injEq] at hfound
    subst hfound
    rw [hslotSpec, Option.some.injEq] at hfoundSlot
    subst hfoundSlot
    rw [hreplicas] at hr
    rcases List.mem_append.mp hr with hr | hr
    · exact hshaped other spec i slotSpec hspec hslotSpec r hr
    · rw [List.mem_singleton] at hr
      subst hr
      refine ⟨rfl, hvalid.total_eq.symm, hvalid.total_lt, ?_⟩
      intro s hs
      obtain ⟨iov, hiov, rfl⟩ := List.mem_map.mp hs
      exact iov.seg_end_le (hvalid.inBounds iov hiov)
  · rw [h.replicas_other other i (not_and_or.mp hself)] at hr
    exact hshaped other spec i slotSpec hspec hslotSpec r hr

theorem WellShaped.remove {keys : List Key} {before after : State} (h : Removed keys before after)
    (hshaped : WellShaped before.objects) : WellShaped after.objects := by
  intro key spec i slotSpec hspec hslotSpec r hr
  rw [h.spec key] at hspec
  rw [h.replicas key i] at hr
  split_ifs at hspec hr with hkey
  exact hshaped key spec i slotSpec hspec hslotSpec r hr

theorem WellShaped.retireRegion {st : State} (hshaped : WellShaped st.objects) (regionId : ℕ) :
    WellShaped (st.retireRegion regionId).objects := by
  intro key spec i slotSpec hspec hslotSpec r hr
  rw [specAt_retireRegion] at hspec
  rw [replicasAt_retireRegion] at hr
  exact hshaped key spec i slotSpec hspec hslotSpec r (List.mem_of_mem_filter hr)

theorem Effect.sound {inner : Inner} {w w' : World} {op : Op} {reply : Reply}
    (h : Effect inner w op reply w') (hs : Sound w.state) : Sound w'.state := by
  cases h with
  | registerRefused | registered | wrote | putRefused | publishRefused | getRefused | got | stat =>
    exact hs
  | dropped => exact ⟨hs.accounted.retireRegion _, hs.shaped.retireRegion _⟩
  | put hdone => exact ⟨hdone.progress.accounted, WellShaped.put hdone hs.shaped⟩
  | published hpublished =>
    refine ⟨?_, WellShaped.publish hpublished hs.shaped⟩
    intro device pool hpool
    rw [hpublished.owned device]
    rw [hpublished.pools] at hpool
    exact hs.accounted device pool hpool
  | removed hremoved => exact ⟨hremoved.accounted, WellShaped.remove hremoved hs.shaped⟩
  | removedPrefix hremoved => exact ⟨hremoved.accounted, WellShaped.remove hremoved hs.shaped⟩

theorem foldl_pools_some (devices : List (Device × Option ℕ)) :
    ∀ (seen : List (Device × Option ℕ)) (pools : Device → Option Pool),
      (∀ d pool, pools d = some pool →
        pool.used = 0 ∧ pool.fifo = [] ∧ (d, pool.capacity) ∈ seen) →
      ∀ d pool, devices.foldl (fun (pools : Device → Option Pool) d ↦
          Function.update pools d.1 (some ⟨d.2, 0, []⟩)) pools d = some pool →
        pool.used = 0 ∧ pool.fifo = [] ∧ (d, pool.capacity) ∈ seen ++ devices := by
  induction devices with
  | nil =>
    intro seen pools hpools d pool hpool
    rw [List.append_nil]
    exact hpools d pool hpool
  | cons first rest ih =>
    intro seen pools hpools d pool hpool
    rw [List.append_cons]
    refine ih (seen ++ [first]) _ ?_ d pool hpool
    intro d pool hpool
    dsimp only at hpool
    by_cases hd : d = first.1
    · subst hd
      rw [Function.update_self, Option.some.injEq] at hpool
      subst hpool
      exact ⟨rfl, rfl, by simp⟩
    · rw [Function.update_of_ne hd] at hpool
      obtain ⟨hused, hfifo, hmem⟩ := hpools d pool hpool
      exact ⟨hused, hfifo, List.mem_append_left _ hmem⟩

/-- A fresh pool is empty and has a capacity its device was built with. -/
theorem buildPools_some {devices : List (Device × Option ℕ)} {device : Device} {pool : Pool}
    (h : buildPools devices device = some pool) :
    pool.used = 0 ∧ pool.fifo = [] ∧ (device, pool.capacity) ∈ devices := by
  simpa using foldl_pools_some devices [] (fun _ ↦ none) (by simp) device pool h

theorem MemoryBuilder.state_sound (b : MemoryBuilder) : Sound b.state where
  accounted := by
    intro device pool hpool
    rw [(buildPools_some hpool).1]
    exact (SortedMap.sumOn_empty _).symm
  shaped := by
    intro key spec i slotSpec hspec
    simp [specAt, MemoryBuilder.state, SortedMap.find?_empty] at hspec

section Runs

variable {b : MemoryBuilder} {m₀ : UserMemory}

theorem step_effect {w w' : World} {e : Event} (hs : Sound w.state)
    (h : (memory b m₀).step w e w') : Effect b.inner w e.op e.reply w' :=
  (holds_exec b.inner e.op hs).of_ok h.2.2

theorem Steps.sound {w w' : World} {history : List Event} (hs : Sound w.state)
    (h : (memory b m₀).Steps w history w') : Sound w'.state := by
  refine h.invariant (I := fun w ↦ Sound w.state) hs ?_
  intro a e c _ ha hstep
  exact (step_effect ha hstep).sound ha

/-- Every reachable state is sound. -/
theorem run_sound {w : World} {history : List Event} (h : (memory b m₀).Run history w) :
    Sound w.state := Steps.sound b.state_sound h

/-- The rule of history invariants, with the effect of each step. -/
theorem run_induction {condition : World → Event → Prop} {I : List Event → World → Prop}
    (hstart : I [] (memory b m₀).start)
    (hstep : ∀ history w e w', Sound w.state → I history w → condition w e → Borrows w e.op →
      e.mem = w.mem → Effect b.inner w e.op e.reply w' → I (history ++ [e]) w')
    {history : List Event} {w : World} (h : ((memory b m₀).restrict condition).Run history w) :
    I history w := by
  refine System.Run.induction (S := (memory b m₀).restrict condition) hstart ?_ h
  rintro history w e w' hrun hI ⟨hcondition, hstep'⟩
  have hs : Sound w.state := run_sound hrun.of_restrict
  exact hstep history w e w' hs hI hcondition hstep'.1 hstep'.2.1 (step_effect hs hstep')

end Runs

/-! ### A small backend for scenarios -/

namespace Scenario

/-- Two CPU devices, the first with the given capacity and the second without a limit. -/
def backend (capacity : ℕ) : MemoryBuilder where
  node := 0
  devices := [(.cpu 0, some capacity), (.cpu 1, none)]
  gpuNuma := fun _ ↦ none
  capability := ⟨false⟩

/-- User memory that holds its own addresses. -/
def mem : UserMemory := fun a ↦ UInt8.ofNat a

/-- The first region of a run: eight bytes at address 0. -/
def buffer : MemoryRegion := ⟨1, 0, 8, .cpu 0, by decide⟩

/-- The registration of `buffer`. -/
def registerBuffer : Op := .register 0 8 (.cpu 0) (by decide)

/-- A slot of `len` bytes taken from the beginning of `buffer`. -/
def slotOn (placement : Placement) (len : ℕ) : PutSlot := ⟨⟨len, placement⟩, [⟨buffer, 0, len⟩]⟩

/-- The world after `registerBuffer`. -/
def registered (capacity : ℕ) : World := ⟨(backend capacity).state, mem, 2, [buffer]⟩

/-- A call that returns gives a step. -/
theorem exists_step {capacity : ℕ} {w : World} {op : Op} (hborrows : Borrows w op)
    (hok : (exec (backend capacity).inner w op).isOk = true) :
    ∃ e w', e.op = op ∧ (memory (backend capacity) mem).step w e w' := by
  cases hexec : exec (backend capacity).inner w op with
  | error p => simp [hexec, Except.isOk, Except.toBool] at hok
  | ok pair => exact ⟨⟨op, pair.1, w.mem⟩, pair.2, rfl, hborrows, rfl, hexec⟩

/-- A replay followed by one more call, with a check of that call. -/
theorem exists_run_step (capacity : ℕ) (ops : List Op) (op : Op)
    (check : List Event → World → Event → World → Bool)
    (h : (replayOps (backend capacity).inner ops (memory (backend capacity) mem).start).any (fun r ↦
      (call (backend capacity).inner r.2 op).any fun q ↦ check r.1 r.2 q.1 q.2) = true) :
    ∃ history w e w', history.map Event.op = ops ∧
      (memory (backend capacity) mem).Run history w ∧
      (memory (backend capacity) mem).step w e w' ∧ e.op = op ∧ check history w e w' = true := by
  obtain ⟨history, w, e, w', hreplay, hcall, hcheck⟩ := exists_replay_step _ _ _ _ _ h
  obtain ⟨rfl, hborrows, hmem, hexec⟩ := call_eq_some hcall
  exact ⟨history, w, e, w', ops_of_replayOps ops hreplay, steps_of_replayOps mem ops hreplay,
    ⟨hborrows, hmem, hexec⟩, rfl, hcheck⟩

/-- The run that registers `buffer`. -/
theorem run_registered (capacity : ℕ) (condition : World → Event → Prop)
    (hfirst : ∀ e, e.op = registerBuffer → condition (memory (backend capacity) mem).start e) :
    ((memory (backend capacity) mem).restrict condition).Run
      [⟨registerBuffer, .region (.ok buffer), mem⟩] (registered capacity) :=
  System.Run.snoc System.Run.nil ⟨hfirst _ rfl, ⟨by simp [registerBuffer, Op.iovs],
    by simp [registerBuffer, Op.drops]⟩, rfl, rfl⟩

/-- A run that registers `buffer` and makes one call, when both meet the condition. -/
theorem exists_run (capacity : ℕ) (condition : World → Event → Prop) (op : Op)
    (hfirst : ∀ e, e.op = registerBuffer → condition (memory (backend capacity) mem).start e)
    (hcondition : ∀ e, e.op = op → condition (registered capacity) e)
    (hborrows : Borrows (registered capacity) op)
    (hok : (exec (backend capacity).inner (registered capacity) op).isOk = true) :
    ∃ e e' w, e'.op = op ∧ (memory (backend capacity) mem).step (registered capacity) e' w ∧
      ((memory (backend capacity) mem).restrict condition).Run [e, e'] w := by
  obtain ⟨e', w, hop, hstep⟩ := exists_step hborrows hok
  exact ⟨_, e', w, hop, hstep,
    System.Run.snoc (run_registered capacity condition hfirst) ⟨hcondition e' hop, hstep⟩⟩

/-- The results of a `put`. -/
def resultsOf : Reply → Option (List (Result Unit))
  | .put (.ok rp) => some rp.slots
  | _ => none

theorem eq_of_resultsOf {reply : Reply} {results : List (Result Unit)}
    (h : resultsOf reply = some results) : reply = .put (.ok ⟨results⟩) := by
  unfold resultsOf at h
  split at h
  · cases h
    rfl
  · cases h

/-- A put in a given world that is not refused gives a step with its results. -/
theorem exists_put {capacity : ℕ} {w : World} {key : Key} {op : OpPut}
    (hborrows : Borrows w (.put key op))
    (h : (exec (backend capacity).inner w (.put key op)).toOption.any
      (fun r ↦ (resultsOf r.1).isSome) = true) :
    ∃ results w', (memory (backend capacity) mem).step w
      ⟨.put key op, .put (.ok ⟨results⟩), w.mem⟩ w' := by
  obtain ⟨⟨reply, w'⟩, hsome, hresults⟩ := (Option.any_eq_true _ _).mp h
  obtain ⟨results, hreply⟩ := Option.isSome_iff_exists.mp hresults
  cases hexec : exec (backend capacity).inner w (.put key op) with
  | error p => simp [hexec, Except.toOption] at hsome
  | ok pair =>
    rw [hexec, Except.toOption, Option.some.injEq] at hsome
    subst hsome
    have hput : reply = .put (.ok ⟨results⟩) := eq_of_resultsOf hreply
    exact ⟨results, w', hborrows, rfl, by rw [hexec, hput]⟩

end Scenario

end Pegastore.Memory
