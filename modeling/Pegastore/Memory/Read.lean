import Pegastore.Memory.Effects

/-!
# What a get returns

A replica holds the bytes of its slot: an owned one in the store, an external one behind its
segments in user memory (`ReplicaEntry.content`). Where every replica has the length its spec names
(`WellShaped`), a ranged read takes exactly the asked part of that content, the scatter writes it
over the destination segments, and neither runs out of bounds (`holds_get`).
-/

set_option autoImplicit false
set_option relaxedAutoImplicit false

namespace Pegastore.Memory

open Outcome ByteMemory

/-- The bytes behind a replica. -/
def ReplicaEntry.content (mem : UserMemory) (r : ReplicaEntry) : List UInt8 :=
  match r.data with
  | .owned bytes => bytes
  | .external segs _ _ => readAll mem segs

/-- The replica has the length of its slot, the tier of its kind, and bytes that fit in a vector or
segments that do not wrap. -/
def Shaped (len : ℕ) (r : ReplicaEntry) : Prop :=
  match r.data with
  | .owned bytes => r.tier = .dram ∧ bytes.length = len ∧ len ≤ isizeMax
  | .external segs _ _ => r.tier = .external ∧ totalLen segs = len ∧ len < 2 ^ 64 ∧
    ∀ s ∈ segs, s.addr + s.len ≤ 2 ^ 64

/-- Every replica of every slot has the shape its spec asks for. -/
def WellShaped (objects : Objects) : Prop :=
  ∀ key spec i slotSpec, specAt objects key = some spec → spec.slots[i]? = some slotSpec →
    ∀ r ∈ replicasAt objects key i, Shaped slotSpec.len r

/-! ### Ranged reads -/

theorem readSegs_eq (mem : UserMemory) (segs : List Segment)
    (hend : ∀ s ∈ segs, s.addr + s.len ≤ 2 ^ 64) : ∀ (skip want : ℕ) (out : List UInt8),
      readSegs mem segs skip want out =
        .ok (out ++ ((readAll mem segs).drop skip).take want) := by
  induction segs with
  | nil =>
    intro skip want out
    simp [readSegs, readAll]
  | cons s rest ih =>
    intro skip want out
    have hrest := ih fun t ht ↦ hend t (List.mem_cons_of_mem _ ht)
    have hlength : (read mem s).length = s.len := length_read mem s
    unfold readSegs
    rw [readAll_cons]
    split_ifs with hwant hskip
    · simp [hwant]
    · have hnil : (read mem s).drop skip = [] := List.drop_eq_nil_of_le (by omega)
      rw [hrest, List.drop_append, hnil, hlength, List.nil_append]
    · have hseg := hend s List.mem_cons_self
      rw [addU64, if_pos (by omega), ok_bind, hrest, read_part mem s (by omega)]
      rw [List.drop_append_of_le_length (by omega), List.take_append, List.length_drop, hlength,
        List.drop_zero, List.append_assoc]
      have htail : want - min (s.len - skip) want = want - (s.len - skip) := by omega
      have hhead : ((read mem s).drop skip).take (min (s.len - skip) want) =
          ((read mem s).drop skip).take want := by
        rw [Nat.min_comm, ← List.take_take, List.take_of_length_le (i := s.len - skip)]
        rw [List.length_drop, hlength]
      rw [htail, hhead]

theorem ReplicaData.len_of_shaped {len : ℕ} {r : ReplicaEntry} (h : Shaped len r) :
    r.data.len = .ok len := by
  unfold Shaped at h
  cases hdata : r.data with
  | owned bytes =>
    rw [hdata] at h
    rw [ReplicaData.len, h.2.1]
  | external segs regionId origins =>
    rw [hdata] at h
    obtain ⟨_, htotal, hlt, _⟩ := h
    rw [ReplicaData.len, ← htotal]
    exact sumU64_of_lt (by change totalLen segs < 2 ^ 64; omega)

theorem length_content {len : ℕ} {r : ReplicaEntry} (mem : UserMemory) (h : Shaped len r) :
    (r.content mem).length = len := by
  unfold Shaped at h
  unfold ReplicaEntry.content
  cases hdata : r.data with
  | owned bytes =>
    rw [hdata] at h
    exact h.2.1
  | external segs regionId origins =>
    rw [hdata] at h
    rw [← h.2.1, length_readAll]

/-- The bytes of the replica are in user memory. -/
def ReplicaEntry.External (r : ReplicaEntry) : Prop :=
  ∃ segs regionId origins, r.data = .external segs regionId origins

/-- A read inside the slot returns that part of the content; of user memory it first makes a vector
for it. -/
theorem read_eq {len : ℕ} {r : ReplicaEntry} (mem : UserMemory) {offset want : ℕ}
    (h : Shaped len r) (hrange : offset + want ≤ len) (hlt : offset + want < 2 ^ 64)
    (hvector : r.External → want ≤ isizeMax) :
    r.data.read mem offset want = .ok (((r.content mem).drop offset).take want) := by
  unfold Shaped at h
  unfold ReplicaEntry.content
  cases hdata : r.data with
  | owned bytes =>
    rw [hdata] at h
    unfold ReplicaData.read
    dsimp only at h ⊢
    rw [addU64, if_pos hlt, ok_bind, if_pos (by rw [h.2.1]; exact hrange)]
  | external segs regionId origins =>
    rw [hdata] at h
    unfold ReplicaData.read withCapacity
    dsimp only at h ⊢
    rw [if_pos (hvector ⟨segs, regionId, origins, hdata⟩), ok_bind,
      readSegs_eq mem segs h.2.2.2, List.nil_append]

theorem read_overflows {r : ReplicaEntry} (mem : UserMemory) (offset : ℕ) {want : ℕ}
    (h : r.External) (hwant : isizeMax < want) :
    r.data.read mem offset want = .error .capacityOverflow := by
  obtain ⟨segs, regionId, origins, hdata⟩ := h
  rw [hdata, ReplicaData.read, withCapacity, if_neg (not_le.mpr hwant)]
  rfl

/-! ### Scatter -/

/-- A scatter that fits writes the segments in order. -/
theorem scatter_eq {src : List UInt8} (hsrc : src.length < 2 ^ 64) (iovs : List Iov) :
    ∀ (off : ℕ) (mem : UserMemory), off + totalLen (segsOf iovs) ≤ src.length →
      scatter src iovs off mem = .ok (writeAll mem (segsOf iovs) (src.drop off)) := by
  induction iovs with
  | nil =>
    intro off mem _
    rfl
  | cons iov rest ih =>
    intro off mem hfit
    have hcons : totalLen (segsOf (iov :: rest)) = iov.len + totalLen (segsOf rest) := rfl
    unfold scatter
    rw [addU64, if_pos (by omega), ok_bind, if_pos (by omega), ih _ _ (by omega)]
    change _ = Except.ok (writeAll (write mem iov.asPtr ((src.drop off).take iov.len))
      (segsOf rest) ((src.drop off).drop iov.len))
    rw [List.drop_drop]

/-! ### `get` -/

/-- What a successful `get` did: the nearest replica, the asked part of its content, and where it
was written. -/
structure Got (inner : Inner) (mem : UserMemory) (st : State) (key : Key) (op : OpGet)
    (dstLen : ℕ) (spec : ObjectSpec) (slotSpec : SlotSpec) (replica : ReplicaEntry)
    (mem' : UserMemory) : Prop where
  valid : ∃ dstDevice, ValidIovs op.dst dstDevice dstLen ∧
    nearest inner dstDevice (replicasAt st.objects key op.slot.toNat) = some replica
  spec_eq : specAt st.objects key = some spec
  slotSpec_eq : spec.slots[op.slot.toNat]? = some slotSpec
  range : op.srcOffset + dstLen ≤ slotSpec.len
  mem_eq : mem' =
    writeAll mem (segsOf op.dst) (((replica.content mem).drop op.srcOffset).take dstLen)

theorem nearest_mem {inner : Inner} {dstDevice : Device} {replicas : List ReplicaEntry}
    {r : ReplicaEntry} (h : nearest inner dstDevice replicas = some r) : r ∈ replicas :=
  List.argmin_mem (by exact h)

theorem Got.mem_replicas {inner : Inner} {mem : UserMemory} {st : State} {key : Key} {op : OpGet}
    {dstLen : ℕ} {spec : ObjectSpec} {slotSpec : SlotSpec} {replica : ReplicaEntry}
    {mem' : UserMemory} (h : Got inner mem st key op dstLen spec slotSpec replica mem') :
    replica ∈ replicasAt st.objects key op.slot.toNat := by
  obtain ⟨_, _, hnearest⟩ := h.valid
  exact nearest_mem hnearest

/-- Every slot of the spec is there. -/
theorem Object.exists_slot (obj : Object) {i : ℕ} {slotSpec : SlotSpec}
    (h : obj.spec.slots[i]? = some slotSpec) : ∃ slot, obj.slots[i]? = some slot := by
  have hbound : i < obj.slots.length := by
    rw [obj.slots_length]
    exact (List.getElem?_eq_some_iff.mp h).1
  exact ⟨obj.slots[i], List.getElem?_eq_getElem hbound⟩

/-- The request is valid and in range, and the replica is the one it is served from. -/
structure Selects (inner : Inner) (st : State) (key : Key) (op : OpGet) (dstDevice : Device)
    (dstLen : ℕ) (spec : ObjectSpec) (slotSpec : SlotSpec) (replica : ReplicaEntry) : Prop where
  valid : op.validate = .ok (dstDevice, dstLen)
  nearest_eq : nearest inner dstDevice (replicasAt st.objects key op.slot.toNat) = some replica
  spec_eq : specAt st.objects key = some spec
  slotSpec_eq : spec.slots[op.slot.toNat]? = some slotSpec
  range : op.srcOffset + dstLen ≤ slotSpec.len
  bound : op.srcOffset + dstLen < 2 ^ 64

/-- The replica a `get` reads is decided without user memory: the request is refused, whatever the
memory holds, or it is served from one replica. -/
theorem get_cases (inner : Inner) (st : State) (key : Key) (op : OpGet) :
    (∃ e, ∀ mem, get inner mem st key op = .ok (.error e, mem)) ∨
      ∃ dstDevice dstLen spec slotSpec replica,
        Selects inner st key op dstDevice dstLen spec slotSpec replica := by
  unfold get
  cases hvalid : op.validate with
  | error e => exact Or.inl ⟨e, fun _ ↦ rfl⟩
  | ok pair =>
    obtain ⟨dstDevice, dstLen⟩ := pair
    dsimp only
    cases hfind : st.objects.find? key with
    | none => exact Or.inl ⟨_, fun _ ↦ rfl⟩
    | some obj =>
      dsimp only
      cases hslotSpec : obj.spec.slots[op.slot.toNat]? with
      | none => exact Or.inl ⟨_, fun _ ↦ rfl⟩
      | some slotSpec =>
        dsimp only
        cases hstop : (checkedAdd op.srcOffset dstLen).filter fun e ↦ e ≤ slotSpec.len with
        | none => exact Or.inl ⟨_, fun _ ↦ rfl⟩
        | some stop =>
          dsimp only
          obtain ⟨hadd, hle⟩ := Option.filter_eq_some_iff.mp hstop
          obtain ⟨hlt, rfl⟩ := checkedAdd_eq_some.mp hadd
          have hspec : specAt st.objects key = some obj.spec := by simp [specAt, hfind]
          obtain ⟨slot, hslot⟩ := obj.exists_slot hslotSpec
          have hreplicas : replicasAt st.objects key op.slot.toNat = _ :=
            (replicasAt_of_find? hfind _).trans (Object.replicasOf_of_getElem? hslot)
          simp only [Outcome.assert, if_pos hle, ok_bind, index_eq_ok.mpr hslot, ← hreplicas]
          cases hnearest : nearest inner dstDevice (replicasAt st.objects key op.slot.toNat) with
          | none => exact Or.inl ⟨_, fun _ ↦ rfl⟩
          | some replica =>
            exact Or.inr ⟨dstDevice, dstLen, obj.spec, slotSpec, replica, hvalid, hnearest, hspec,
              hslotSpec, of_decide_eq_true hle, hlt⟩

/-- The asked range of a replica fills the destination exactly. -/
theorem length_range {len offset want : ℕ} {r : ReplicaEntry} (mem : UserMemory) (h : Shaped len r)
    (hrange : offset + want ≤ len) :
    (((r.content mem).drop offset).take want).length = want := by
  rw [List.length_take, List.length_drop, length_content mem h]
  omega

section Selects

variable {inner : Inner} {st : State} {key : Key} {op : OpGet} {dstDevice : Device} {dstLen : ℕ}
  {spec : ObjectSpec} {slotSpec : SlotSpec} {replica : ReplicaEntry}

theorem Selects.validIovs
    (h : Selects inner st key op dstDevice dstLen spec slotSpec replica) :
    ValidIovs op.dst dstDevice dstLen := (validateIovs_ok h.valid).1

theorem Selects.shaped (h : Selects inner st key op dstDevice dstLen spec slotSpec replica)
    (hshaped : WellShaped st.objects) : Shaped slotSpec.len replica :=
  hshaped key spec _ slotSpec h.spec_eq h.slotSpec_eq replica (nearest_mem h.nearest_eq)

/-- The range is read and scattered. -/
theorem Selects.get_eq (h : Selects inner st key op dstDevice dstLen spec slotSpec replica)
    (hshaped : WellShaped st.objects) (mem : UserMemory) :
    get inner mem st key op = replica.data.read mem op.srcOffset dstLen >>= fun bytes ↦
      scatter bytes op.dst 0 mem >>= fun mem ↦
        .ok (.ok ⟨inner.location replica.device replica.tier⟩, mem) := by
  obtain ⟨obj, hfind, rfl⟩ := Option.map_eq_some_iff.mp h.spec_eq
  obtain ⟨slot, hslot⟩ := obj.exists_slot h.slotSpec_eq
  have hreplicas : replicasAt st.objects key op.slot.toNat = slot.replicas :=
    (replicasAt_of_find? hfind _).trans (Object.replicasOf_of_getElem? hslot)
  have hstop : (checkedAdd op.srcOffset dstLen).filter (fun e ↦ e ≤ slotSpec.len) =
      some (op.srcOffset + dstLen) :=
    Option.filter_eq_some_iff.mpr ⟨checkedAdd_eq_some.mpr ⟨h.bound, rfl⟩, decide_eq_true h.range⟩
  have hnearest := h.nearest_eq
  rw [hreplicas] at hnearest
  unfold get
  rw [h.valid]
  dsimp only
  rw [hfind]
  dsimp only
  rw [h.slotSpec_eq]
  dsimp only
  rw [hstop]
  dsimp only
  rw [Outcome.assert, if_pos (decide_eq_true h.range), ok_bind, index_eq_ok.mpr hslot, ok_bind,
    hnearest]
  dsimp only
  rw [ReplicaData.len_of_shaped (h.shaped hshaped), ok_bind, Outcome.assert,
    if_pos (decide_eq_true rfl), ok_bind]

/-- A range that a vector can hold is delivered. -/
theorem Selects.get_ok (h : Selects inner st key op dstDevice dstLen spec slotSpec replica)
    (hshaped : WellShaped st.objects) (hvector : replica.External → dstLen ≤ isizeMax)
    (mem : UserMemory) :
    get inner mem st key op = .ok (.ok ⟨inner.location replica.device replica.tier⟩,
      writeAll mem (segsOf op.dst) (((replica.content mem).drop op.srcOffset).take dstLen)) := by
  have hlength := length_range mem (h.shaped hshaped) h.range
  have htotal := h.validIovs.total_eq
  have htotalLt := h.validIovs.total_lt
  rw [h.get_eq hshaped, read_eq mem (h.shaped hshaped) h.range h.bound hvector, ok_bind,
    scatter_eq (by omega) op.dst 0 mem (by omega), ok_bind, List.drop_zero]

theorem Selects.get_overflows (h : Selects inner st key op dstDevice dstLen spec slotSpec replica)
    (hshaped : WellShaped st.objects) (hexternal : replica.External) (hlen : isizeMax < dstLen)
    (mem : UserMemory) : get inner mem st key op = .error .capacityOverflow := by
  rw [h.get_eq hshaped, read_overflows mem _ hexternal hlen]
  rfl

end Selects

/-- A `get` refuses without touching memory or copies the asked range; only an allocation beyond
the limit of a vector can panic. -/
theorem holds_get (inner : Inner) (mem : UserMemory) {st : State} (key : Key) (op : OpGet)
    (hshaped : WellShaped st.objects) :
    Holds (get inner mem st key op)
      (fun r ↦ (∃ e, r = (.error e, mem)) ∨ ∃ dstLen spec slotSpec replica,
        r.1 = .ok ⟨inner.location replica.device replica.tier⟩ ∧
        Got inner mem st key op dstLen spec slotSpec replica r.2)
      (fun p ↦ p = .capacityOverflow ∧ isizeMax < totalLen (segsOf op.dst)) := by
  rcases get_cases inner st key op with ⟨e, hrefused⟩ | ⟨dstDevice, dstLen, spec, slotSpec,
    replica, hselects⟩
  · rw [hrefused]
    exact Or.inl ⟨e, rfl⟩
  · by_cases hvector : replica.External → dstLen ≤ isizeMax
    · rw [hselects.get_ok hshaped hvector]
      exact Or.inr ⟨dstLen, spec, slotSpec, replica, rfl,
        ⟨dstDevice, hselects.validIovs, hselects.nearest_eq⟩, hselects.spec_eq,
        hselects.slotSpec_eq, hselects.range, rfl⟩
    · obtain ⟨hexternal, hlen⟩ := Classical.not_imp.mp hvector
      rw [hselects.get_overflows hshaped hexternal (not_le.mp hlen)]
      exact ⟨rfl, hselects.validIovs.total_eq ▸ not_le.mp hlen⟩

end Pegastore.Memory
