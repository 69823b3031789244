import Pegastore.Memory.MakeRoom

/-!
# What placing one slot does

For one slot of a `put` the candidate loop makes room on some devices (`RoomSteps`), and the bytes
are then stored on the chosen targets and counted (`Stored`), or an error is reported.
`holds_putSlot` is the specification of one slot, with the panics it can end in.
-/

set_option autoImplicit false
set_option relaxedAutoImplicit false

namespace Pegastore.Memory

open Outcome ByteMemory

/-! ### Making room on several devices -/

/-- Finitely many calls of `make_room` that protect `kb`. -/
inductive RoomSteps (kb : Key) (first : State) : State → Prop
  | refl : RoomSteps kb first first
  | snoc {before after : State} {device : Device} {need : ℕ} {pool pool' : Pool} {fit : Bool}
    {popped rest : List FifoEntry} : RoomSteps kb first before →
    MadeRoom device need kb before pool fit after pool' popped rest → RoomSteps kb first after

theorem RoomSteps.single {kb : Key} {before after : State} {device : Device} {need : ℕ}
    {pool pool' : Pool} {fit : Bool} {popped rest : List FifoEntry}
    (h : MadeRoom device need kb before pool fit after pool' popped rest) :
    RoomSteps kb before after := RoomSteps.snoc RoomSteps.refl h

theorem RoomSteps.trans {kb : Key} {first second third : State} (h : RoomSteps kb first second)
    (h' : RoomSteps kb second third) : RoomSteps kb first third := by
  induction h' with
  | refl => exact h
  | snoc _ hlast ih => exact RoomSteps.snoc ih hlast

namespace RoomSteps

variable {kb : Key} {first last : State}

theorem accounted (h : RoomSteps kb first last) (hacc : Accounted first) : Accounted last := by
  induction h with
  | refl => exact hacc
  | snoc _ hlast ih => exact hlast.accounted ih

/-- The protected object keeps its spec and its replicas. -/
theorem protected_kept (h : RoomSteps kb first last) :
    (∀ spec, specAt first.objects kb = some spec → specAt last.objects kb = some spec) ∧
      ∀ i, replicasAt last.objects kb i = replicasAt first.objects kb i := by
  induction h with
  | refl => exact ⟨fun _ h ↦ h, fun _ ↦ rfl⟩
  | @snoc before after target need old new fit popped rest _ hlast ih =>
    have hkey : ∀ entry ∈ popped.filter fun e ↦ e.1 ≠ kb, entry.1 ≠ kb := by
      intro entry hentry
      simpa using (List.mem_filter.mp hentry).2
    refine ⟨fun spec hspec ↦ ?_, fun i ↦ ?_⟩
    · exact hlast.evicts.spec_kept (ih.1 spec hspec) (Or.inr hkey)
    · rw [hlast.evicts.replicas_kept (Or.inr hkey), ih.2 i]

theorem spec_of_last (h : RoomSteps kb first last) {key : Key} {spec : ObjectSpec}
    (hspec : specAt last.objects key = some spec) : specAt first.objects key = some spec := by
  induction h with
  | refl => exact hspec
  | snoc _ hlast ih => exact ih (hlast.evicts.spec_of_after key spec hspec)

/-- Objects that are not `Cache` objects are untouched. -/
theorem explicit_kept (h : RoomSteps kb first last) {key : Key} {spec : ObjectSpec}
    (hspec : specAt first.objects key = some spec) (hret : spec.retention ≠ .cache) :
    specAt last.objects key = some spec ∧
      ∀ i, replicasAt last.objects key i = replicasAt first.objects key i := by
  induction h with
  | refl => exact ⟨hspec, fun _ ↦ rfl⟩
  | @snoc before after target need old new fit popped rest _ hlast ih =>
    have hcache : ¬ CacheAt before.objects key := by
      rintro ⟨other, hother, hcache⟩
      rw [ih.1, Option.some.injEq] at hother
      exact hret (hother ▸ hcache)
    refine ⟨hlast.evicts.spec_kept ih.1 (Or.inl hret), fun i ↦ ?_⟩
    rw [hlast.evicts.replicas_kept (Or.inl hcache), ih.2 i]

/-- Making room leaves no key behind that it took the last replica of. -/
theorem reclaimed (h : RoomSteps kb first last) (key : Key) :
    Reclaimed first.objects last.objects key := by
  induction h with
  | refl => exact Reclaimed.of_replicas_eq fun _ ↦ rfl
  | snoc _ hlast ih =>
    exact ih.trans (hlast.evicts.reclaimed key) (hlast.evicts.spec_of_after key)

/-- Pools keep their capacity, their counters do not grow and no queue gets a new entry. -/
theorem pools_of_last (h : RoomSteps kb first last) {device : Device} {pool' : Pool}
    (hpool : last.pools device = some pool') : ∃ pool, first.pools device = some pool ∧
      pool'.capacity = pool.capacity ∧ pool'.used ≤ pool.used ∧
        ∀ entry ∈ pool'.fifo, entry ∈ pool.fifo := by
  induction h generalizing pool' with
  | refl => exact ⟨pool', hpool, rfl, le_rfl, fun _ h ↦ h⟩
  | @snoc before after target need old new fit popped rest _ hlast ih =>
    rw [hlast.pools_after] at hpool
    by_cases hdevice : device = target
    · subst hdevice
      rw [Function.update_self, Option.some.injEq] at hpool
      subst hpool
      obtain ⟨pool, hfirst, hcap, hused, hfifo⟩ := ih hlast.pool_before
      refine ⟨pool, hfirst, hlast.capacity.trans hcap, hlast.used_le.trans hused, ?_⟩
      intro entry hentry
      apply hfifo
      rw [hlast.queue_after] at hentry
      rw [hlast.queue]
      rcases List.mem_append.mp hentry with h | h
      · exact List.mem_append_left _ (List.mem_of_mem_filter h)
      · exact List.mem_append_right _ h
    · rw [Function.update_of_ne hdevice] at hpool
      exact ih hpool

/-- No pool appears or disappears. -/
theorem pools_isSome (h : RoomSteps kb first last) (device : Device) :
    (last.pools device).isSome = (first.pools device).isSome := by
  induction h with
  | refl => rfl
  | @snoc before after target need old new fit popped rest _ hlast ih =>
    rw [hlast.pools_after, ← ih]
    by_cases hdevice : device = target
    · subst hdevice
      rw [Function.update_self, hlast.pool_before]
      rfl
    · rw [Function.update_of_ne hdevice]

end RoomSteps

/-- There is room for `len` more bytes on the device. -/
def Roomy (st : State) (device : Device) (len : ℕ) : Prop :=
  ∀ pool cap, st.pools device = some pool → pool.capacity = some cap → pool.used + len ≤ cap

/-- Room made on one device stays while room is made elsewhere. -/
theorem RoomSteps.roomy {kb : Key} {first last : State} (h : RoomSteps kb first last)
    {device : Device} {len : ℕ} (hroomy : Roomy first device len) : Roomy last device len := by
  intro pool' cap hpool' hcap
  obtain ⟨pool, hpool, hcapacity, hused, _⟩ := h.pools_of_last hpool'
  have hle := hroomy pool cap hpool (hcapacity ▸ hcap)
  omega

/-- The panics of making room for `need` bytes in `st`. -/
def RoomPanic (kb : Key) (need : ℕ) (st : State) (p : Panic) : Prop :=
  (p = .indexOutOfBounds ∧ ∃ device pool entry, st.pools device = some pool ∧
    entry ∈ pool.fifo ∧ entry.1 ≠ kb ∧ Dangling st.objects entry) ∨
  (p = .addOverflow ∧ ∃ device pool, st.pools device = some pool ∧ 2 ^ 64 ≤ pool.used + need)

theorem RoomPanic.of_steps {kb : Key} {need : ℕ} {first last : State} {p : Panic}
    (h : RoomSteps kb first last) (hp : RoomPanic kb need last p) : RoomPanic kb need first p := by
  rcases hp with ⟨hp, device, pool', entry, hpool, hentry, hne, spec, hspec, hret, hlen⟩ |
    ⟨hp, device, pool', hpool, hover⟩
  · obtain ⟨pool, hfirst, _, _, hfifo⟩ := h.pools_of_last hpool
    exact Or.inl ⟨hp, device, pool, entry, hfirst, hfifo entry hentry, hne, spec,
      h.spec_of_last hspec, hret, hlen⟩
  · obtain ⟨pool, hfirst, _, hused, _⟩ := h.pools_of_last hpool
    exact Or.inr ⟨hp, device, pool, hfirst, by omega⟩

/-! ### The candidate loop -/

/-- What the loop does with one candidate, and whether it then goes on. -/
inductive Turn (each : Bool) (len : ℕ) (kb : Key) (c : Device × Bool) (p : Placing) :
    Placing → Bool → Prop
  | unknown (hnone : p.st.pools c.1 = none) :
    Turn each len kb c p { p with err := some (unknownDevice c.1) } (!each)
  | fits {st : State} (hmake : p.st.makeRoom c.1 len kb = .ok (true, st)) :
    Turn each len kb c p { p with st := st, targets := p.targets ++ [c] } each
  | full {st : State} (hmake : p.st.makeRoom c.1 len kb = .ok (false, st)) :
    Turn each len kb c p { p with st := st, err := some (noSpace c.1 len) } (!each)

/-- A loop that returns took a turn with its first candidate, and stopped there or went on. -/
theorem placeLoop_turn {each : Bool} {len : ℕ} {kb : Key} {c : Device × Bool}
    {rest : List (Device × Bool)} {p p' : Placing}
    (h : placeLoop each len kb (c :: rest) p = .ok p') :
    ∃ q more, Turn each len kb c p q more ∧
      (if more then placeLoop each len kb rest q else .ok q) = .ok p' := by
  unfold placeLoop at h
  by_cases hnone : (p.st.pools c.1).isNone = true
  · rw [if_pos hnone] at h
    refine ⟨_, _, .unknown (Option.isNone_iff_eq_none.mp hnone), ?_⟩
    cases each <;> exact h
  · rw [if_neg hnone] at h
    obtain ⟨⟨fit, st⟩, hmake, h⟩ := bind_eq_ok.mp h
    cases fit with
    | true =>
      refine ⟨_, _, .fits hmake, ?_⟩
      cases each <;> exact h
    | false =>
      refine ⟨_, _, .full hmake, ?_⟩
      cases each <;> exact h

/-- What the candidate loop of one slot establishes, from the candidates it had left. -/
structure Placed (each : Bool) (len : ℕ) (kb : Key) (candidates : List (Device × Bool))
    (p p' : Placing) : Prop where
  rooms : RoomSteps kb p.st p'.st
  targets : ∃ added, p'.targets = p.targets ++ added ∧ added.Sublist candidates ∧
    (∀ t ∈ added, (p.st.pools t.1).isSome = true ∧ Roomy p'.st t.1 len) ∧
    (each = false → added.length ≤ 1)

theorem holds_placeLoop (each : Bool) (len : ℕ) (kb : Key) (candidates : List (Device × Bool)) :
    ∀ p : Placing, Accounted p.st →
      Holds (placeLoop each len kb candidates p) (Placed each len kb candidates p)
        (fun panic ↦ candidates ≠ [] ∧ RoomPanic kb len p.st panic) := by
  induction candidates with
  | nil =>
    intro p _
    exact ⟨RoomSteps.refl, [], by simp, List.Sublist.refl _, by simp, by simp⟩
  | cons candidate rest ih =>
    intro p hacc
    obtain ⟨d, misplaced⟩ := candidate
    -- Going on with the other candidates after a step that added no target.
    have hcontinue : ∀ q : Placing, RoomSteps kb p.st q.st → q.targets = p.targets →
        Holds (placeLoop each len kb rest q) (Placed each len kb ((d, misplaced) :: rest) p)
          (fun panic ↦ (d, misplaced) :: rest ≠ [] ∧ RoomPanic kb len p.st panic) := by
      intro q hrooms htargets
      refine (ih q (hrooms.accounted hacc)).mono ?_ ?_
      · rintro p' ⟨hsteps, added, hadded, hsub, hpools, hone⟩
        refine ⟨hrooms.trans hsteps, added, by rw [hadded, htargets], hsub.cons _, ?_, hone⟩
        intro t ht
        rw [← hrooms.pools_isSome]
        exact hpools t ht
      · rintro panic ⟨_, hpanic⟩
        exact ⟨by simp, hpanic.of_steps hrooms⟩
    have hstop : ∀ q : Placing, RoomSteps kb p.st q.st → q.targets = p.targets →
        Placed each len kb ((d, misplaced) :: rest) p q := by
      intro q hrooms htargets
      exact ⟨hrooms, [], by simp [htargets], List.nil_sublist _, by simp, by simp⟩
    unfold placeLoop
    cases hpool : p.st.pools d with
    | none =>
      simp only [Option.isNone_none, if_true]
      cases each with
      | true => exact hstop _ RoomSteps.refl rfl
      | false => exact hcontinue _ RoomSteps.refl rfl
    | some pool =>
      simp only [Option.isNone_some, Bool.false_eq_true, if_false]
      refine ((holds_makeRoom len kb hacc hpool).mono (fun _ h ↦ h) ?_).bind ?_
      · rintro panic (⟨hp, entry, hentry, hne, hdangling⟩ | ⟨hp, hover⟩)
        · exact ⟨by simp, Or.inl ⟨hp, d, pool, entry, hpool, hentry, hne, hdangling⟩⟩
        · exact ⟨by simp, Or.inr ⟨hp, d, pool, hpool, hover⟩⟩
      · rintro ⟨fit, st⟩ _ ⟨pool', popped, queue, hmade⟩
        have hrooms : RoomSteps kb p.st st := RoomSteps.single hmade
        cases fit with
        | false =>
          simp only [Bool.false_eq_true, if_false]
          cases each with
          | true => exact hstop _ hrooms rfl
          | false => exact hcontinue _ hrooms rfl
        | true =>
          simp only [if_true]
          have hsome : (p.st.pools d).isSome = true := by rw [hpool]; rfl
          have hroomy : Roomy st d len := by
            intro found cap hfound hcap
            rw [hmade.pools_after, Function.update_self, Option.some.injEq] at hfound
            subst hfound
            exact hmade.fits rfl cap (hmade.capacity ▸ hcap)
          cases each with
          | false =>
            refine ⟨hrooms, [(d, misplaced)], rfl, by simp, ?_, by simp⟩
            intro t ht
            rw [List.mem_singleton] at ht
            subst ht
            exact ⟨hsome, hroomy⟩
          | true =>
            simp only [if_true]
            refine (ih _ (hrooms.accounted hacc)).mono ?_ ?_
            · rintro p' ⟨hsteps, added, hadded, hsub, hpools, _⟩
              refine ⟨hrooms.trans hsteps, (d, misplaced) :: added, by simp [hadded],
                hsub.cons_cons _, ?_, by simp⟩
              intro t ht
              rcases List.mem_cons.mp ht with rfl | ht
              · exact ⟨hsome, hsteps.roomy hroomy⟩
              · rw [← hrooms.pools_isSome]
                exact hpools t ht
            · rintro panic ⟨_, hpanic⟩
              exact ⟨by simp, hpanic.of_steps hrooms⟩

/-! ### Storing a slot -/

/-- A pool after `n` replicas of `len` bytes were counted and queued as `entry`. -/
def chargePool (entry : FifoEntry) (len n : ℕ) (pool : Pool) : Pool :=
  { pool with used := pool.used + n * len, fifo := pool.fifo ++ List.replicate n entry }

theorem chargePool_succ (entry : FifoEntry) (len n : ℕ) (pool : Pool) :
    chargePool entry len n { pool with used := pool.used + len, fifo := pool.fifo ++ [entry] } =
      chargePool entry len (n + 1) pool := by
  simp only [chargePool, List.append_assoc, List.singleton_append, List.replicate_succ,
    Pool.mk.injEq, true_and, and_true]
  rw [Nat.add_mul, Nat.one_mul]
  omega

/-- How often a device is among the targets of a slot. -/
def hits (targets : List (Device × Bool)) (device : Device) : ℕ :=
  (targets.map Prod.fst).count device

theorem hits_le_length (targets : List (Device × Bool)) (device : Device) :
    hits targets device ≤ targets.length := by
  have h := List.count_le_length (a := device) (l := targets.map Prod.fst)
  rwa [List.length_map] at h

theorem holds_charges (kb : Key) (slot : UInt32) (len : ℕ) (targets : List (Device × Bool)) :
    ∀ st : State, (∀ t ∈ targets, (st.pools t.1).isSome = true) →
      Holds (targets.foldlM (fun st t ↦ st.charge t.1 kb slot len) st)
        (fun st' ↦ st'.objects = st.objects ∧ ∀ device, st'.pools device =
          (st.pools device).map (chargePool (kb, slot) len (hits targets device)))
        (fun p ↦ p = .addOverflow ∧ ∃ device pool, st.pools device = some pool ∧
          2 ^ 64 ≤ pool.used + hits targets device * len) := by
  induction targets with
  | nil =>
    intro st _
    refine ⟨rfl, fun device ↦ ?_⟩
    cases st.pools device with
    | none => rfl
    | some pool => simp [chargePool, hits]
  | cons t rest ih =>
    intro st hpools
    obtain ⟨pool, hpool⟩ := Option.isSome_iff_exists.mp (hpools t List.mem_cons_self)
    have hself : hits (t :: rest) t.1 = hits rest t.1 + 1 := by simp [hits]
    have hother (device : Device) (h : device ≠ t.1) :
        hits (t :: rest) device = hits rest device := by
      simp [hits, h.symm]
    rw [List.foldlM_cons, State.charge, hpool, unwrap, ok_bind]
    by_cases hadd : pool.used + len < 2 ^ 64
    · rw [addU64, if_pos hadd, ok_bind]
      simp only [ok_bind]
      refine (ih _ ?_).mono ?_ ?_
      · intro other hmem
        dsimp only
        by_cases hdevice : other.1 = t.1
        · rw [hdevice, Function.update_self]
          rfl
        · rw [Function.update_of_ne hdevice]
          exact hpools other (List.mem_cons_of_mem _ hmem)
      · rintro st' ⟨hobjects, hafter⟩
        refine ⟨hobjects, fun device ↦ ?_⟩
        rw [hafter device]
        dsimp only
        by_cases hdevice : device = t.1
        · subst hdevice
          rw [Function.update_self, hpool, hself, Option.map_some, Option.map_some, chargePool_succ]
        · rw [Function.update_of_ne hdevice, hother device hdevice]
      · rintro p ⟨hp, device, found, hfound, hover⟩
        refine ⟨hp, ?_⟩
        dsimp only at hfound
        by_cases hdevice : device = t.1
        · subst hdevice
          rw [Function.update_self, Option.some.injEq] at hfound
          subst hfound
          refine ⟨t.1, pool, hpool, ?_⟩
          rw [hself, Nat.add_mul, Nat.one_mul]
          simp only at hover
          omega
        · rw [Function.update_of_ne hdevice] at hfound
          exact ⟨device, found, hfound, by rw [hother device hdevice]; exact hover⟩
    · rw [addU64, if_neg hadd]
      refine ⟨rfl, t.1, pool, hpool, ?_⟩
      rw [hself, Nat.add_mul, Nat.one_mul]
      omega

/-- Slot `i` of `kb` got the bytes on every target, and the pools count and queue them. -/
structure Stored (kb : Key) (i len : ℕ) (targets : List (Device × Bool)) (bytes : List UInt8)
    (before after : State) : Prop where
  objects : ∃ obj slot, before.objects.find? kb = some obj ∧ obj.slots[i]? = some slot ∧
    after.objects =
      before.objects.insert kb (obj.setSlot i ⟨slot.replicas ++ ownedReplicas targets bytes⟩)
  pools : ∀ device, after.pools device =
    (before.pools device).map (chargePool (kb, UInt32.ofNat i) len (hits targets device))

namespace Stored

variable {kb : Key} {i len : ℕ} {targets : List (Device × Bool)} {bytes : List UInt8}
  {before after : State}

theorem spec_eq (h : Stored kb i len targets bytes before after) (key : Key) :
    specAt after.objects key = specAt before.objects key := by
  obtain ⟨obj, slot, hfind, _, hobjects⟩ := h.objects
  rw [hobjects, specAt_insert, Object.setSlot_spec]
  split_ifs with hkey
  · subst hkey
    simp [specAt, hfind]
  · rfl

theorem replicas_self (h : Stored kb i len targets bytes before after) :
    replicasAt after.objects kb i =
      replicasAt before.objects kb i ++ ownedReplicas targets bytes := by
  obtain ⟨obj, slot, hfind, hslot, hobjects⟩ := h.objects
  have hlt : i < obj.slots.length := (List.getElem?_eq_some_iff.mp hslot).1
  rw [hobjects, replicasAt_insert, if_pos rfl, Object.replicasOf_setSlot _ _ _ hlt, if_pos rfl,
    replicasAt_of_find? hfind, Object.replicasOf_of_getElem? hslot]

theorem replicas_other (h : Stored kb i len targets bytes before after) {key : Key} {j : ℕ}
    (hne : key ≠ kb ∨ j ≠ i) :
    replicasAt after.objects key j = replicasAt before.objects key j := by
  obtain ⟨obj, slot, hfind, hslot, hobjects⟩ := h.objects
  have hlt : i < obj.slots.length := (List.getElem?_eq_some_iff.mp hslot).1
  rw [hobjects, replicasAt_insert]
  split_ifs with hkey
  · subst hkey
    rw [Object.replicasOf_setSlot _ _ _ hlt, if_neg (hne.resolve_left fun h ↦ h rfl),
      replicasAt_of_find? hfind]
  · rfl

theorem ownedOn_eq (h : Stored kb i len targets bytes before after) (device : Device) :
    ownedOn device after.objects =
      ownedOn device before.objects + hits targets device * bytes.length := by
  obtain ⟨obj, slot, hfind, hslot, hobjects⟩ := h.objects
  have hinsert := ownedOn_insert_of_find? device
    (obj.setSlot i ⟨slot.replicas ++ ownedReplicas targets bytes⟩) hfind
  have hset := obj.ownedOn_setSlot device ⟨slot.replicas ++ ownedReplicas targets bytes⟩ hslot
  have happend := ownedBytes_append device slot.replicas (ownedReplicas targets bytes)
  have hnew := ownedBytes_ownedReplicas device targets bytes
  rw [hobjects]
  simp only [hits] at *
  omega

theorem accounted (h : Stored kb i len targets bytes before after) (hlen : bytes.length = len)
    (hacc : Accounted before) : Accounted after := by
  intro device pool hpool
  rw [h.pools device] at hpool
  obtain ⟨old, hold, rfl⟩ := Option.map_eq_some_iff.mp hpool
  rw [h.ownedOn_eq device, ← hacc device old hold, hlen]
  rfl

end Stored

/-- The number of replicas a placement can ask for. -/
def copies : Placement → ℕ
  | .each ds => ds.length
  | _ => 1

/-- One writable slot is done: room was made, and then the slot was stored or an error reported. -/
def SlotDone (inner : Inner) (mem : UserMemory) (kb : Key) (i : ℕ) (ps : PutSlot) (before : State)
    (r : Result Unit) (after : State) : Prop :=
  ∃ mid, RoomSteps kb before mid ∧
    ((∃ e, r = .error e ∧ after = mid) ∨
      (r = .ok () ∧ ∃ targets, targets ≠ [] ∧
        targets.Sublist (inner.candidates ps.spec.placement) ∧
        targets.length ≤ copies ps.spec.placement ∧
        (∀ t ∈ targets, Roomy mid t.1 ps.spec.len) ∧
        Stored kb i ps.spec.len targets (readAll mem (segsOf ps.src)) mid after))

/-- The panics of one writable slot. -/
def SlotPanic (kb : Key) (ps : PutSlot) (st : State) (p : Panic) : Prop :=
  (p = .indexOutOfBounds ∧ ∃ device pool entry, st.pools device = some pool ∧
    entry ∈ pool.fifo ∧ entry.1 ≠ kb ∧ Dangling st.objects entry) ∨
  (p = .addOverflow ∧ ∃ device pool, st.pools device = some pool ∧
    2 ^ 64 ≤ pool.used + copies ps.spec.placement * ps.spec.len) ∨
  (p = .capacityOverflow ∧ isizeMax < ps.spec.len)

theorem gather_of_valid (mem : UserMemory) {iovs : List Iov} {device : Device} {total : ℕ}
    (hvalid : ValidIovs iovs device total) :
    gather mem iovs =
      if total ≤ isizeMax then .ok (readAll mem (segsOf iovs)) else .error .capacityOverflow := by
  have hsum : (iovs.map Iov.len).sum = total := by
    rw [hvalid.total_eq, totalLen, segsOf, List.map_map]
    rfl
  unfold gather
  rw [sumU64_of_lt (by rw [hsum]; exact hvalid.total_lt), ok_bind, hsum, withCapacity]
  split_ifs
  · rfl
  · rfl

theorem length_readAll_of_valid (mem : UserMemory) {iovs : List Iov} {device : Device} {total : ℕ}
    (hvalid : ValidIovs iovs device total) : (readAll mem (segsOf iovs)).length = total := by
  rw [length_readAll, hvalid.total_eq]

theorem candidates_length (inner : Inner) (placement : Placement)
    (heach : isEach placement = true) :
    (inner.candidates placement).length = copies placement := by
  cases placement with
  | each ds => simp [Inner.candidates, copies]
  | strict d => simp [isEach] at heach
  | prefer d => simp [isEach] at heach
  | anywhere => simp [isEach] at heach

theorem holds_storeSlot {kb : Key} {i : ℕ} (len : ℕ) {targets : List (Device × Bool)}
    (bytes : List UInt8) {st : State} {spec : ObjectSpec} (hspec : specAt st.objects kb = some spec)
    (hi : i < spec.slots.length) (hpools : ∀ t ∈ targets, (st.pools t.1).isSome = true) :
    Holds (storeSlot kb i len targets bytes st) (Stored kb i len targets bytes st)
      (fun p ↦ p = .addOverflow ∧ ∃ device pool, st.pools device = some pool ∧
        2 ^ 64 ≤ pool.used + hits targets device * len) := by
  obtain ⟨obj, hfind, rfl⟩ := specAt_eq_some.mp hspec
  rw [← obj.slots_length] at hi
  have hslot : obj.slots[i]? = some obj.slots[i] := List.getElem?_eq_getElem hi
  unfold storeSlot
  rw [hfind, unwrap, ok_bind, index_eq_ok.mpr hslot, ok_bind]
  refine Holds.mono (holds_charges kb (UInt32.ofNat i) len targets
    ⟨st.objects.insert kb (obj.setSlot i ⟨obj.slots[i].replicas ++ ownedReplicas targets bytes⟩),
      st.pools⟩ hpools) ?_ fun _ h ↦ h
  rintro st' ⟨hobjects, hafter⟩
  exact ⟨⟨obj, obj.slots[i], hfind, hslot, hobjects⟩, hafter⟩

theorem holds_putSlot (inner : Inner) (mem : UserMemory) {kb : Key} {i : ℕ} {ps : PutSlot}
    {st : State} {spec : ObjectSpec} {device : Device} (hacc : Accounted st)
    (hvalid : ValidIovs ps.src device ps.spec.len) (hspec : specAt st.objects kb = some spec)
    (hi : i < spec.slots.length) :
    Holds (putSlot inner mem kb i ps st) (fun r ↦ SlotDone inner mem kb i ps st r.1 r.2)
      (SlotPanic kb ps st) := by
  unfold putSlot
  have hplace := holds_placeLoop (isEach ps.spec.placement) ps.spec.len kb
    (inner.candidates ps.spec.placement) ⟨st, [], none⟩ hacc
  refine (hplace.mono (fun _ h ↦ h) ?_).bind ?_
  · rintro p ⟨hcandidates, hindex | ⟨hp, d, pool, hpool, hover⟩⟩
    · exact Or.inl hindex
    · refine Or.inr (Or.inl ⟨hp, d, pool, hpool, hover.trans ?_⟩)
      have hcopies : 1 ≤ copies ps.spec.placement := by
        cases hplacement : ps.spec.placement with
        | each ds =>
          rw [hplacement] at hcandidates
          exact List.length_pos_iff.mpr fun h ↦ hcandidates (by simp [Inner.candidates, h])
        | strict d => exact le_rfl
        | prefer d => exact le_rfl
        | anywhere => exact le_rfl
      exact Nat.add_le_add_left (Nat.le_mul_of_pos_left _ hcopies) _
  · rintro p _ ⟨hrooms, added, hadded, hsub, hpools, hone⟩
    simp only [List.nil_append] at hadded
    subst hadded
    have hlength : p.targets.length ≤ copies ps.spec.placement := by
      cases heach : isEach ps.spec.placement with
      | true =>
        rw [← candidates_length inner _ heach]
        exact hsub.length_le
      | false =>
        refine (hone heach).trans ?_
        cases hplacement : ps.spec.placement with
        | each ds => simp [hplacement, isEach] at heach
        | strict d => exact le_rfl
        | prefer d => exact le_rfl
        | anywhere => exact le_rfl
    by_cases hlanded : p.landed (isEach ps.spec.placement) = true
    · simp only [hlanded, Bool.not_true, Bool.false_eq_true, if_false]
      have hne : p.targets ≠ [] := by
        unfold Placing.landed at hlanded
        split_ifs at hlanded with heach
        · simp only [Bool.and_eq_true, Bool.not_eq_true', List.isEmpty_eq_false_iff] at hlanded
          exact hlanded.2
        · simpa using hlanded
      rw [gather_of_valid mem hvalid]
      by_cases hlen : ps.spec.len ≤ isizeMax
      · rw [if_pos hlen, ok_bind]
        have hspec' := hrooms.protected_kept.1 spec hspec
        have hpools' : ∀ t ∈ p.targets, (p.st.pools t.1).isSome = true := by
          intro t ht
          rw [hrooms.pools_isSome]
          exact (hpools t ht).1
        refine ((holds_storeSlot ps.spec.len _ hspec' hi hpools').mono (fun _ h ↦ h) ?_).bind ?_
        · rintro panic ⟨hp, d, pool', hpool', hover⟩
          obtain ⟨pool, hpool, _, hused, _⟩ := hrooms.pools_of_last hpool'
          have hmul := Nat.mul_le_mul_right ps.spec.len
            ((hits_le_length p.targets d).trans hlength)
          exact Or.inr (Or.inl ⟨hp, d, pool, hpool, by omega⟩)
        · intro st' _ hstored
          exact ⟨p.st, hrooms, Or.inr ⟨rfl, p.targets, hne, hsub, hlength,
            fun t ht ↦ (hpools t ht).2, hstored⟩⟩
      · rw [if_neg hlen]
        exact Or.inr (Or.inr ⟨rfl, not_le.mp hlen⟩)
    · simp only [hlanded, Bool.not_false, if_true]
      exact ⟨p.st, hrooms, Or.inl ⟨_, rfl, rfl⟩⟩

/-- A slot that landed has its bytes in a vector. -/
theorem len_le_of_putSlot {inner : Inner} {mem : UserMemory} {kb : Key} {i : ℕ} {ps : PutSlot}
    {st after : State} {device : Device} (hvalid : ValidIovs ps.src device ps.spec.len)
    (h : putSlot inner mem kb i ps st = .ok (.ok (), after)) : ps.spec.len ≤ isizeMax := by
  unfold putSlot at h
  obtain ⟨p, _, h⟩ := bind_eq_ok.mp h
  split_ifs at h
  · cases h
  · obtain ⟨bytes, hgather, _⟩ := bind_eq_ok.mp h
    rw [gather_of_valid mem hvalid] at hgather
    split_ifs at hgather with hlen
    exact hlen

end Pegastore.Memory
