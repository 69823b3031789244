import Pegastore.Memory.MakeRoom

/-!
# What publishing, removing and dropping a region do

Each call is described by its effect on specs, replicas and pools. `publish` appends one external
replica to one slot (`Published`), `remove` erases its keys and gives their bytes back (`Removed`,
which cannot underflow a counter that matches the index), and the drop of a region filters every
slot (`retireRegion` lemmas). None of them touches an eviction queue.
-/

set_option autoImplicit false
set_option relaxedAutoImplicit false

namespace Pegastore.Memory

open Outcome ByteMemory

/-! ### `publish` -/

/-- One external replica of `src` was added to slot `i` of `key`. -/
structure Published (key : Key) (i : ℕ) (src : List Iov) (before after : State) : Prop where
  valid : ∃ spec slotSpec device first, specAt before.objects key = some spec ∧
    spec.slots[i]? = some slotSpec ∧ ValidIovs src device slotSpec.len ∧ src.head? = some first ∧
    replicasAt after.objects key i =
      replicasAt before.objects key i ++ [externalReplica device first src]
  spec_eq : ∀ other, specAt after.objects other = specAt before.objects other
  replicas_other : ∀ other j, other ≠ key ∨ j ≠ i →
    replicasAt after.objects other j = replicasAt before.objects other j
  owned : ∀ device, ownedOn device after.objects = ownedOn device before.objects
  pools : after.pools = before.pools

theorem ownedBytes_externalReplica (target device : Device) (first : Iov) (src : List Iov) :
    ownedBytes target [externalReplica device first src] = 0 := by
  unfold ownedBytes externalReplica
  simp only [List.filterMap_cons, List.filterMap_nil, ReplicaEntry.ownedLenOn, ReplicaData.ownedLen,
    ite_self, List.sum_nil]

/-- `publish` refuses without a change or adds one replica; it does not panic. -/
theorem holds_publish (st : State) (key : Key) (op : OpPublish) :
    Holds (publish st key op)
      (fun r ↦ (∃ e, r = (.error e, st)) ∨
        (r.1 = .ok () ∧ Published key op.slot.toNat op.src st r.2))
      (fun _ ↦ False) := by
  unfold publish
  cases hvalidate : op.validate with
  | error e => exact Or.inl ⟨e, rfl⟩
  | ok pair =>
    obtain ⟨device, total⟩ := pair
    obtain ⟨hvalid, _⟩ := validateIovs_ok hvalidate
    dsimp only
    cases hfind : st.objects.find? key with
    | none => exact Or.inl ⟨_, rfl⟩
    | some obj =>
      dsimp only
      cases hslotSpec : obj.spec.slots[op.slot.toNat]? with
      | none => exact Or.inl ⟨_, rfl⟩
      | some slotSpec =>
        dsimp only
        by_cases hlen : slotSpec.len = total
        · rw [if_neg (not_not.mpr hlen)]
          obtain ⟨first, rest, hsrc⟩ := List.exists_cons_of_ne_nil hvalid.nonempty
          have hlt : op.slot.toNat < obj.slots.length := by
            rw [obj.slots_length]
            exact (List.getElem?_eq_some_iff.mp hslotSpec).1
          have hslot : obj.slots[op.slot.toNat]? = some obj.slots[op.slot.toNat] :=
            List.getElem?_eq_getElem hlt
          have hfirst : op.src[0]? = some first := by rw [hsrc]; rfl
          rw [index_eq_ok.mpr hfirst, ok_bind, index_eq_ok.mpr hslot, ok_bind]
          refine Or.inr ⟨rfl, ⟨obj.spec, slotSpec, device, first, ?_, hslotSpec, ?_, ?_, ?_⟩,
            ?_, ?_, ?_, rfl⟩
          · simp [specAt, hfind]
          · rw [hlen]
            exact hvalid
          · rw [hsrc]
            rfl
          · rw [replicasAt_insert, if_pos rfl, Object.replicasOf_setSlot _ _ _ hlt, if_pos rfl,
              replicasAt_of_find? hfind, Object.replicasOf_of_getElem? hslot]
          · intro other
            rw [specAt_insert, Object.setSlot_spec]
            split_ifs with hkey
            · rw [← hkey, specAt, hfind, Option.map_some]
            · rfl
          · intro other j hne
            rw [replicasAt_insert]
            split_ifs with hkey
            · rw [Object.replicasOf_setSlot _ _ _ hlt, ← hkey, replicasAt_of_find? hfind,
                if_neg (hne.resolve_left fun h ↦ h hkey.symm)]
            · rfl
          · intro target
            have hinsert := ownedOn_insert_of_find? target (obj.setSlot op.slot.toNat
              ⟨obj.slots[op.slot.toNat].replicas ++ [externalReplica device first op.src]⟩) hfind
            have hset := obj.ownedOn_setSlot target
              ⟨obj.slots[op.slot.toNat].replicas ++ [externalReplica device first op.src]⟩ hslot
            have happend := ownedBytes_append target obj.slots[op.slot.toNat].replicas
              [externalReplica device first op.src]
            have hzero := ownedBytes_externalReplica target device first op.src
            simp only at *
            omega
        · rw [if_pos hlen]
          exact Or.inl ⟨_, rfl⟩

/-! ### `remove` -/

/-- The keys are gone with their bytes; nothing else has changed. -/
structure Removed (keys : List Key) (before after : State) : Prop where
  spec : ∀ key, specAt after.objects key =
    if key ∈ keys then none else specAt before.objects key
  replicas : ∀ key i, replicasAt after.objects key i =
    if key ∈ keys then [] else replicasAt before.objects key i
  accounted : Accounted after
  pools_isSome : ∀ device, (after.pools device).isSome = (before.pools device).isSome
  pools : ∀ device pool', after.pools device = some pool' → ∃ pool,
    before.pools device = some pool ∧ pool'.capacity = pool.capacity ∧ pool'.fifo = pool.fifo ∧
      pool'.used ≤ pool.used

/-- A key that is not removed is untouched. -/
theorem Removed.kept {keys : List Key} {before after : State} (h : Removed keys before after)
    {key : Key} (hkey : key ∉ keys) : specAt after.objects key = specAt before.objects key ∧
      ∀ i, replicasAt after.objects key i = replicasAt before.objects key i :=
  ⟨by rw [h.spec key, if_neg hkey], fun i ↦ by rw [h.replicas key i, if_neg hkey]⟩

theorem ownedBytes_flatMap (device : Device) (slots : List Slot) :
    ownedBytes device (slots.flatMap Slot.replicas) =
      (slots.map fun s ↦ ownedBytes device s.replicas).sum := by
  induction slots with
  | nil => rfl
  | cons slot rest ih =>
    rw [List.flatMap_cons, ownedBytes_append, ih, List.map_cons, List.sum_cons]

/-- A pool after `bytes` bytes were given back. -/
def releasePool (bytes : ℕ) (pool : Pool) : Pool := { pool with used := pool.used - bytes }

theorem ownedBytes_cons (device : Device) (r : ReplicaEntry) (rest : List ReplicaEntry) :
    ownedBytes device (r :: rest) = ownedBytes device [r] + ownedBytes device rest :=
  ownedBytes_append device [r] rest

theorem holds_releaseReplica {pools : Device → Option Pool} (r : ReplicaEntry)
    (hle : ∀ device pool, pools device = some pool → ownedBytes device [r] ≤ pool.used) :
    Holds (releaseReplica pools r)
      (fun pools' ↦ ∀ device, pools' device =
        (pools device).map (releasePool (ownedBytes device [r])))
      (fun _ ↦ False) := by
  have hzero (device : Device) (h : ownedBytes device [r] = 0) :
      pools device = (pools device).map (releasePool (ownedBytes device [r])) := by
    rw [h]
    cases pools device with
    | none => rfl
    | some pool => rfl
  unfold releaseReplica
  cases hdata : r.data with
  | external segs regionId origins =>
    dsimp only
    intro device
    apply hzero
    simp [ownedBytes, ReplicaEntry.ownedLenOn, hdata, ReplicaData.ownedLen]
  | owned bytes =>
    have hself : ownedBytes r.device [r] = bytes.length := by
      simp [ownedBytes, ReplicaEntry.ownedLenOn, hdata, ReplicaData.ownedLen]
    have hother (device : Device) (hne : device ≠ r.device) : ownedBytes device [r] = 0 := by
      simp [ownedBytes, ReplicaEntry.ownedLenOn, hne.symm]
    cases hpool : pools r.device with
    | none =>
      dsimp only
      intro device
      by_cases hdevice : device = r.device
      · rw [hdevice, hpool]
        rfl
      · exact hzero device (hother device hdevice)
    | some pool =>
      dsimp only
      have hbytes := hle r.device pool hpool
      rw [hself] at hbytes
      rw [subU64, if_pos hbytes, ok_bind]
      intro device
      by_cases hdevice : device = r.device
      · rw [hdevice, Function.update_self, hpool, hself]
        rfl
      · rw [Function.update_of_ne hdevice]
        exact hzero device (hother device hdevice)

/-- Giving back replicas whose bytes are all counted does not underflow. -/
theorem holds_releases (replicas : List ReplicaEntry) : ∀ pools : Device → Option Pool,
    (∀ device pool, pools device = some pool → ownedBytes device replicas ≤ pool.used) →
      Holds (replicas.foldlM releaseReplica pools)
        (fun pools' ↦ ∀ device, pools' device =
          (pools device).map (releasePool (ownedBytes device replicas)))
        (fun _ ↦ False) := by
  induction replicas with
  | nil =>
    intro pools _
    change ∀ device, pools device = (pools device).map (releasePool (ownedBytes device []))
    intro device
    cases pools device with
    | none => rfl
    | some pool => rfl
  | cons r rest ih =>
    intro pools hle
    rw [List.foldlM_cons]
    refine (holds_releaseReplica r fun device pool hpool ↦ ?_).bind ?_
    · have hcons := ownedBytes_cons device r rest
      have hbytes := hle device pool hpool
      omega
    · intro mid _ hmid
      refine (ih mid ?_).mono ?_ fun _ h ↦ h
      · intro device pool' hpool'
        rw [hmid device] at hpool'
        obtain ⟨pool, hpool, rfl⟩ := Option.map_eq_some_iff.mp hpool'
        have hcons := ownedBytes_cons device r rest
        have hbytes := hle device pool hpool
        simp only [releasePool]
        omega
      · intro after hafter device
        rw [hafter device, hmid device, ownedBytes_cons device r rest, Option.map_map]
        congr 1
        funext pool
        simp only [Function.comp, releasePool, Nat.sub_add_eq]

theorem holds_removeKey {st : State} (key : Key) (hacc : Accounted st) :
    Holds (st.removeKey key) (Removed [key] st) (fun _ ↦ False) := by
  unfold State.removeKey
  cases hfind : st.objects.find? key with
  | none =>
    refine ⟨?_, ?_, hacc, fun _ ↦ rfl, fun _ pool h ↦ ⟨pool, h, rfl, rfl, le_rfl⟩⟩
    · intro other
      split_ifs with hkey
      · rw [List.mem_singleton.mp hkey, specAt, hfind, Option.map_none]
      · rfl
    · intro other i
      split_ifs with hkey
      · rw [List.mem_singleton.mp hkey, replicasAt_of_find?_none hfind]
      · rfl
  | some obj =>
    have howned (device : Device) : ownedBytes device (obj.slots.flatMap Slot.replicas) =
        obj.ownedOn device := ownedBytes_flatMap device obj.slots
    unfold State.releaseObject
    refine (holds_releases _ st.pools ?_).bind ?_
    · intro device pool hpool
      rw [howned, hacc device pool hpool]
      exact obj.ownedOn_le device hfind
    · intro pools _ hpools
      refine ⟨?_, ?_, ?_, ?_, ?_⟩
      · intro other
        rw [specAt_erase]
        simp only [List.mem_singleton, eq_comm]
      · intro other i
        rw [replicasAt_erase]
        simp only [List.mem_singleton, eq_comm]
      · intro device pool' hpool'
        change pools device = some pool' at hpool'
        rw [hpools device] at hpool'
        obtain ⟨pool, hpool, rfl⟩ := Option.map_eq_some_iff.mp hpool'
        have herase := ownedOn_erase_of_find? device hfind
        have hused := hacc device pool hpool
        simp only [releasePool, howned]
        omega
      · intro device
        change (pools device).isSome = _
        rw [hpools device, Option.isSome_map]
      · intro device pool' hpool'
        change pools device = some pool' at hpool'
        rw [hpools device] at hpool'
        obtain ⟨pool, hpool, rfl⟩ := Option.map_eq_some_iff.mp hpool'
        exact ⟨pool, hpool, rfl, rfl, Nat.sub_le _ _⟩

theorem Removed.append {first second : List Key} {before middle after : State}
    (h : Removed first before middle) (h' : Removed second middle after) :
    Removed (first ++ second) before after where
  spec := by
    intro key
    rw [h'.spec, h.spec]
    simp only [List.mem_append]
    split_ifs <;> simp_all
  replicas := by
    intro key i
    rw [h'.replicas, h.replicas]
    simp only [List.mem_append]
    split_ifs <;> simp_all
  accounted := h'.accounted
  pools_isSome := fun device ↦ (h'.pools_isSome device).trans (h.pools_isSome device)
  pools := by
    intro device pool'' hpool''
    obtain ⟨pool', hpool', hcap', hfifo', hused'⟩ := h'.pools device pool'' hpool''
    obtain ⟨pool, hpool, hcap, hfifo, hused⟩ := h.pools device pool' hpool'
    exact ⟨pool, hpool, hcap'.trans hcap, hfifo'.trans hfifo, hused'.trans hused⟩

/-- `remove` does not panic when the counters match the index. -/
theorem holds_remove {st : State} (keys : List Key) (hacc : Accounted st) :
    Holds (remove st keys) (Removed keys st) (fun _ ↦ False) := by
  have hnil : Removed [] st st := by
    refine ⟨by simp, by simp, hacc, fun _ ↦ rfl, fun _ pool h ↦ ⟨pool, h, rfl, rfl, le_rfl⟩⟩
  refine holds_foldlM (fun done after ↦ Removed done st after) ?_ keys [] st hnil
  intro done key mid hmid
  exact (holds_removeKey key hmid.accounted).mono (fun _ h ↦ hmid.append h) fun _ h ↦ h

/-- The keys that `remove_prefix` takes all start with the given bytes. -/
theorem State.isPrefixOf_of_mem_keysFrom {st : State} {start : List UInt8} {key : Key}
    (h : key ∈ st.keysFrom start) : start.isPrefixOf key = true := by
  unfold State.keysFrom at h
  obtain ⟨entry, hentry, rfl⟩ := List.mem_map.mp h
  have hall := List.all_takeWhile (l := st.objects.rangeFrom start)
    (p := fun e ↦ start.isPrefixOf e.1)
  exact List.all_eq_true.mp hall entry hentry

theorem holds_removePrefix {st : State} (start : List UInt8) (hacc : Accounted st) :
    Holds (removePrefix st start)
      (fun r ↦ r.1 = (st.keysFrom start).length ∧ Removed (st.keysFrom start) st r.2)
      (fun _ ↦ False) := by
  unfold removePrefix
  refine (holds_remove (st.keysFrom start) hacc).bind ?_
  intro st' _ hremoved
  exact ⟨rfl, hremoved⟩

/-! ### The drop of a region -/

theorem specAt_retireRegion (st : State) (regionId : ℕ) (key : Key) :
    specAt (st.retireRegion regionId).objects key = specAt st.objects key := by
  unfold specAt State.retireRegion
  rw [SortedMap.find?_mapValues, Option.map_map]
  rfl

theorem replicasAt_retireRegion (st : State) (regionId : ℕ) (key : Key) (i : ℕ) :
    replicasAt (st.retireRegion regionId).objects key i =
      (replicasAt st.objects key i).filter fun r ↦ !r.publishedFrom regionId := by
  unfold replicasAt State.retireRegion
  rw [SortedMap.find?_mapValues, Option.map_map]
  cases st.objects.find? key with
  | none => rfl
  | some obj => exact obj.replicasOf_mapSlots _ i

theorem ownedOn_retireRegion (st : State) (regionId : ℕ) (device : Device) :
    ownedOn device (st.retireRegion regionId).objects = ownedOn device st.objects := by
  unfold ownedOn State.retireRegion
  rw [SortedMap.sumOn_mapValues]
  intro _ obj
  apply Object.ownedOn_mapSlots
  intro r howned
  cases hdata : r.data with
  | owned bytes => simp [ReplicaEntry.publishedFrom, hdata]
  | external segs id origins => simp [hdata, ReplicaData.ownedLen] at howned

theorem Accounted.retireRegion {st : State} (hacc : Accounted st) (regionId : ℕ) :
    Accounted (st.retireRegion regionId) := by
  intro device pool hpool
  rw [ownedOn_retireRegion]
  exact hacc device pool hpool

/-! ### Calls that store nothing -/

/-- Nothing was stored: what the store owns was there before, and the queues are as they were. -/
structure Shrinks (before after : State) : Prop where
  spec_of : ∀ key spec, specAt after.objects key = some spec → specAt before.objects key = some spec
  owned_of : ∀ key i r device, r ∈ replicasAt after.objects key i → r.ownedOn device = true →
    r ∈ replicasAt before.objects key i
  pools_isSome : ∀ device, (after.pools device).isSome = (before.pools device).isSome
  pools : ∀ device pool', after.pools device = some pool' → ∃ pool,
    before.pools device = some pool ∧ pool'.capacity = pool.capacity ∧ pool'.fifo = pool.fifo ∧
      pool'.used ≤ pool.used

theorem Shrinks.refl (st : State) : Shrinks st st where
  spec_of := fun _ _ h ↦ h
  owned_of := fun _ _ _ _ h _ ↦ h
  pools_isSome := fun _ ↦ rfl
  pools := fun _ pool hpool ↦ ⟨pool, hpool, rfl, rfl, le_rfl⟩

/-- A published replica is not the store's own. -/
theorem Published.shrinks {key : Key} {i : ℕ} {src : List Iov} {before after : State}
    (h : Published key i src before after) : Shrinks before after where
  spec_of := by
    intro other spec hspec
    rwa [h.spec_eq] at hspec
  owned_of := by
    intro other j r device hr howned
    by_cases hself : other = key ∧ j = i
    · obtain ⟨rfl, rfl⟩ := hself
      obtain ⟨_, _, target, first, _, _, _, _, hreplicas⟩ := h.valid
      rw [hreplicas] at hr
      rcases List.mem_append.mp hr with hr | hr
      · exact hr
      · rw [List.mem_singleton.mp hr] at howned
        obtain ⟨_, bytes, hbytes⟩ := ReplicaEntry.ownedOn_iff.mp howned
        cases hbytes
    · rwa [h.replicas_other other j (not_and_or.mp hself)] at hr
  pools_isSome := fun device ↦ by rw [h.pools]
  pools := by
    intro device pool hpool
    rw [h.pools] at hpool
    exact ⟨pool, hpool, rfl, rfl, le_rfl⟩

theorem Removed.shrinks {keys : List Key} {before after : State} (h : Removed keys before after) :
    Shrinks before after where
  spec_of := by
    intro key spec hspec
    rw [h.spec key] at hspec
    split_ifs at hspec
    exact hspec
  owned_of := by
    intro key i r device hr _
    rw [h.replicas key i] at hr
    split_ifs at hr
    · cases hr
    · exact hr
  pools_isSome := h.pools_isSome
  pools := h.pools

theorem Shrinks.retireRegion (st : State) (regionId : ℕ) :
    Shrinks st (st.retireRegion regionId) where
  spec_of := by
    intro key spec hspec
    rwa [specAt_retireRegion] at hspec
  owned_of := by
    intro key i r device hr _
    rw [replicasAt_retireRegion] at hr
    exact List.mem_of_mem_filter hr
  pools_isSome := fun _ ↦ rfl
  pools := fun _ pool hpool ↦ ⟨pool, hpool, rfl, rfl, le_rfl⟩

end Pegastore.Memory
