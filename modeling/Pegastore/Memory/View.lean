import Pegastore.Memory.Access

/-!
# The index as specs and replica lists

The invariants of the backend speak about the spec under a key (`specAt`) and the replicas of a
slot (`replicasAt`, empty where there is no object). Every update of the index is described by its
effect on these two, and on the bytes the store owns per device (`ownedOn`, the sum that the pool
counters are compared with).
-/

set_option autoImplicit false
set_option relaxedAutoImplicit false

namespace Pegastore.Memory

open Outcome ByteMemory

/-- The spec of the object under a key. -/
def specAt (objects : Objects) (key : Key) : Option ObjectSpec :=
  (objects.find? key).map Object.spec

/-- The replicas of slot `i` of an object. -/
def Object.replicasOf (obj : Object) (i : ℕ) : List ReplicaEntry :=
  (obj.slots[i]?.map Slot.replicas).getD []

/-- The replicas of slot `i` under a key. -/
def replicasAt (objects : Objects) (key : Key) (i : ℕ) : List ReplicaEntry :=
  ((objects.find? key).map fun obj ↦ obj.replicasOf i).getD []

/-- The bytes the store owns on `device` in a list of replicas. -/
def ownedBytes (device : Device) (replicas : List ReplicaEntry) : ℕ :=
  (replicas.filterMap (ReplicaEntry.ownedLenOn device)).sum

/-- The bytes the store owns on `device` in an object. -/
def Object.ownedOn (device : Device) (obj : Object) : ℕ :=
  (obj.slots.map fun s ↦ ownedBytes device s.replicas).sum

/-- The bytes the store owns on `device`. -/
def ownedOn (device : Device) (objects : Objects) : ℕ :=
  objects.sumOn fun _ obj ↦ obj.ownedOn device

/-! ### Replicas -/

theorem ReplicaEntry.ownedOn_iff {device : Device} {r : ReplicaEntry} :
    r.ownedOn device = true ↔ r.device = device ∧ ∃ bytes, r.data = .owned bytes := by
  unfold ReplicaEntry.ownedOn ReplicaData.ownedLen
  cases r.data with
  | owned bytes => simp
  | external segs regionId origins => simp

theorem ReplicaEntry.ownedLenOn_of_ownedOn {device : Device} {r : ReplicaEntry}
    (h : r.ownedOn device = false) : r.ownedLenOn device = none := by
  unfold ReplicaEntry.ownedOn at h
  unfold ReplicaEntry.ownedLenOn
  split_ifs with hdevice
  · simpa [hdevice] using h
  · rfl

@[simp] theorem ownedBytes_nil (device : Device) : ownedBytes device [] = 0 := rfl

theorem ownedBytes_append (device : Device) (first second : List ReplicaEntry) :
    ownedBytes device (first ++ second) = ownedBytes device first + ownedBytes device second := by
  simp [ownedBytes, List.filterMap_append]

/-- Dropping what is owned on `device` leaves no owned byte there. -/
theorem ownedBytes_dropOwned_self (device : Device) (replicas : List ReplicaEntry) :
    ownedBytes device (replicas.filter fun r ↦ !r.ownedOn device) = 0 := by
  induction replicas with
  | nil => rfl
  | cons r rest ih =>
    by_cases hr : r.ownedOn device = true
    · simpa [hr] using ih
    · have hfalse : r.ownedOn device = false := by simpa using hr
      unfold ownedBytes at ih ⊢
      simpa [hfalse, ReplicaEntry.ownedLenOn_of_ownedOn hfalse] using ih

/-- Dropping what is owned on `device` changes nothing on another device. -/
theorem ownedBytes_dropOwned_of_ne {device other : Device} (hne : other ≠ device)
    (replicas : List ReplicaEntry) :
    ownedBytes other (replicas.filter fun r ↦ !r.ownedOn device) = ownedBytes other replicas := by
  induction replicas with
  | nil => rfl
  | cons r rest ih =>
    unfold ownedBytes at ih ⊢
    by_cases hr : r.ownedOn device = true
    · have hdevice : ¬ r.device = other := by
        intro h
        exact hne (h.symm.trans (ReplicaEntry.ownedOn_iff.mp hr).1)
      simpa [hr, ReplicaEntry.ownedLenOn, hdevice] using ih
    · have hfalse : r.ownedOn device = false := by simpa using hr
      simp only [hfalse, Bool.not_false, List.filter_cons_of_pos, List.filterMap_cons]
      cases r.ownedLenOn other with
      | none => exact ih
      | some len => simp [ih]

/-- Dropping replicas that the store does not own changes no owned byte. -/
theorem ownedBytes_filter_of_owned (device : Device) (replicas : List ReplicaEntry)
    (keep : ReplicaEntry → Bool)
    (hkeep : ∀ r ∈ replicas, r.data.ownedLen.isSome = true → keep r = true) :
    ownedBytes device (replicas.filter keep) = ownedBytes device replicas := by
  induction replicas with
  | nil => rfl
  | cons r rest ih =>
    have hrest := ih fun s hs ↦ hkeep s (List.mem_cons_of_mem _ hs)
    unfold ownedBytes at hrest ⊢
    by_cases hk : keep r = true
    · rw [List.filter_cons_of_pos hk, List.filterMap_cons, List.filterMap_cons]
      cases r.ownedLenOn device with
      | none => exact hrest
      | some len => simp [hrest]
    · have howned : r.data.ownedLen = none := by
        by_contra hsome
        exact hk (hkeep r List.mem_cons_self (Option.isSome_iff_ne_none.mpr hsome))
      have hlen : r.ownedLenOn device = none := by
        simp [ReplicaEntry.ownedLenOn, howned]
      rw [List.filter_cons_of_neg hk, List.filterMap_cons, hlen]
      exact hrest

theorem ownedBytes_ownedReplicas (device : Device) (targets : List (Device × Bool))
    (bytes : List UInt8) :
    ownedBytes device (ownedReplicas targets bytes) =
      (targets.map Prod.fst).count device * bytes.length := by
  induction targets with
  | nil => simp [ownedReplicas]
  | cons t rest ih =>
    unfold ownedBytes ownedReplicas at ih ⊢
    by_cases ht : t.1 = device
    · simp only [List.map_cons, List.filterMap_cons, ReplicaEntry.ownedLenOn, ht, if_true,
        ReplicaData.ownedLen, List.sum_cons, List.count_cons_self, Nat.add_mul, Nat.one_mul]
      rw [ih]
      omega
    · simp only [List.map_cons, List.filterMap_cons, ReplicaEntry.ownedLenOn, ht, if_false]
      rw [List.count_cons_of_ne ht]
      exact ih

/-! ### Objects -/

@[simp] theorem Object.setSlot_spec (obj : Object) (i : ℕ) (slot : Slot) :
    (obj.setSlot i slot).spec = obj.spec := rfl

@[simp] theorem Object.setSlot_slots (obj : Object) (i : ℕ) (slot : Slot) :
    (obj.setSlot i slot).slots = obj.slots.set i slot := rfl

@[simp] theorem Object.mapSlots_spec (obj : Object) (f : Slot → Slot) :
    (obj.mapSlots f).spec = obj.spec := rfl

@[simp] theorem Object.fresh_spec (spec : ObjectSpec) : (Object.fresh spec).spec = spec := rfl

theorem Object.replicasOf_of_getElem? {obj : Object} {i : ℕ} {slot : Slot}
    (h : obj.slots[i]? = some slot) : obj.replicasOf i = slot.replicas := by
  simp [Object.replicasOf, h]

theorem Object.replicasOf_setSlot (obj : Object) {i : ℕ} (slot : Slot) (j : ℕ)
    (hi : i < obj.slots.length) :
    (obj.setSlot i slot).replicasOf j = if j = i then slot.replicas else obj.replicasOf j := by
  unfold Object.replicasOf
  rw [Object.setSlot_slots, List.getElem?_set]
  by_cases hj : j = i
  · subst hj
    simp [hi]
  · have hij : ¬ i = j := fun h ↦ hj h.symm
    simp [hj, hij]

@[simp] theorem Object.replicasOf_fresh (spec : ObjectSpec) (j : ℕ) :
    (Object.fresh spec).replicasOf j = [] := by
  unfold Object.replicasOf Object.fresh
  by_cases hj : j < spec.slots.length
  · simp [hj]
  · simp [hj]

theorem Object.replicasOf_mapSlots (obj : Object) (keep : ReplicaEntry → Bool) (j : ℕ) :
    (obj.mapSlots fun s ↦ ⟨s.replicas.filter keep⟩).replicasOf j =
      (obj.replicasOf j).filter keep := by
  unfold Object.replicasOf Object.mapSlots
  cases h : obj.slots[j]? with
  | none => simp [h]
  | some slot => simp [h]

theorem Object.isEmpty_iff (obj : Object) : obj.isEmpty = true ↔ ∀ j, obj.replicasOf j = [] := by
  unfold Object.isEmpty Object.replicasOf
  rw [List.all_eq_true]
  constructor
  · intro h j
    cases hj : obj.slots[j]? with
    | none => rfl
    | some slot => simpa using h slot (List.mem_of_getElem? hj)
  · intro h slot hslot
    obtain ⟨j, hj⟩ := List.mem_iff_getElem?.mp hslot
    have hempty := h j
    rw [hj] at hempty
    simpa using hempty

/-- Replacing a slot exchanges its owned bytes. -/
theorem Object.ownedOn_setSlot (device : Device) (obj : Object) {i : ℕ} {old : Slot} (slot : Slot)
    (h : obj.slots[i]? = some old) :
    (obj.setSlot i slot).ownedOn device + ownedBytes device old.replicas =
      obj.ownedOn device + ownedBytes device slot.replicas := by
  unfold Object.ownedOn
  rw [Object.setSlot_slots]
  generalize obj.slots = slots at h
  induction slots generalizing i with
  | nil => simp at h
  | cons s rest ih =>
    cases i with
    | zero =>
      simp only [List.getElem?_cons_zero, Option.some.injEq] at h
      subst h
      simp only [List.set_cons_zero, List.map_cons, List.sum_cons]
      omega
    | succ i =>
      have hrest := ih h
      simp only [List.set_cons_succ, List.map_cons, List.sum_cons]
      omega

@[simp] theorem Object.ownedOn_fresh (device : Device) (spec : ObjectSpec) :
    (Object.fresh spec).ownedOn device = 0 := by
  simp [Object.ownedOn, Object.fresh]

theorem Object.ownedOn_mapSlots (device : Device) (obj : Object) (keep : ReplicaEntry → Bool)
    (hkeep : ∀ r : ReplicaEntry, r.data.ownedLen.isSome = true → keep r = true) :
    (obj.mapSlots fun s ↦ ⟨s.replicas.filter keep⟩).ownedOn device = obj.ownedOn device := by
  unfold Object.ownedOn Object.mapSlots
  rw [List.map_map]
  congr 1
  apply List.map_congr_left
  intro s _
  exact ownedBytes_filter_of_owned device s.replicas keep fun r _ ↦ hkeep r

/-- An object without replicas owns nothing. -/
theorem Object.ownedOn_of_isEmpty (device : Device) {obj : Object} (h : obj.isEmpty = true) :
    obj.ownedOn device = 0 := by
  unfold Object.isEmpty at h
  rw [List.all_eq_true] at h
  unfold Object.ownedOn
  apply List.sum_eq_zero
  intro n hn
  obtain ⟨s, hs, rfl⟩ := List.mem_map.mp hn
  have hempty : s.replicas = [] := by simpa using h s hs
  rw [hempty, ownedBytes_nil]

/-- What a slot owns is part of what its object owns. -/
theorem Object.ownedBytes_le_ownedOn (device : Device) {obj : Object} {i : ℕ} {slot : Slot}
    (h : obj.slots[i]? = some slot) : ownedBytes device slot.replicas ≤ obj.ownedOn device := by
  have hset := obj.ownedOn_setSlot device ⟨[]⟩ h
  rw [ownedBytes_nil] at hset
  omega

/-! ### The index -/

theorem specAt_eq_some {objects : Objects} {key : Key} {spec : ObjectSpec} :
    specAt objects key = some spec ↔ ∃ obj, objects.find? key = some obj ∧ obj.spec = spec := by
  simp [specAt]

theorem replicasAt_of_find? {objects : Objects} {key : Key} {obj : Object}
    (h : objects.find? key = some obj) (i : ℕ) : replicasAt objects key i = obj.replicasOf i := by
  simp [replicasAt, h]

theorem replicasAt_of_find?_none {objects : Objects} {key : Key} (h : objects.find? key = none)
    (i : ℕ) : replicasAt objects key i = [] := by
  simp [replicasAt, h]

theorem specAt_insert (objects : Objects) (key other : Key) (obj : Object) :
    specAt (objects.insert key obj) other =
      if key = other then some obj.spec else specAt objects other := by
  unfold specAt
  rw [SortedMap.find?_insert]
  split_ifs
  · rfl
  · rfl

theorem replicasAt_insert (objects : Objects) (key other : Key) (obj : Object) (i : ℕ) :
    replicasAt (objects.insert key obj) other i =
      if key = other then obj.replicasOf i else replicasAt objects other i := by
  unfold replicasAt
  rw [SortedMap.find?_insert]
  split_ifs
  · rfl
  · rfl

theorem specAt_erase (objects : Objects) (key other : Key) :
    specAt (objects.erase key) other = if key = other then none else specAt objects other := by
  unfold specAt
  rw [SortedMap.find?_erase]
  split_ifs
  · rfl
  · rfl

theorem replicasAt_erase (objects : Objects) (key other : Key) (i : ℕ) :
    replicasAt (objects.erase key) other i =
      if key = other then [] else replicasAt objects other i := by
  unfold replicasAt
  rw [SortedMap.find?_erase]
  split_ifs
  · rfl
  · rfl

/-- Replacing the object of a key exchanges its owned bytes. -/
theorem ownedOn_insert_of_find? (device : Device) {objects : Objects} {key : Key} {old : Object}
    (obj : Object) (h : objects.find? key = some old) :
    ownedOn device (objects.insert key obj) + old.ownedOn device =
      ownedOn device objects + obj.ownedOn device := by
  have hsum := objects.sumOn_insert (fun _ obj ↦ obj.ownedOn device) key obj
  rw [h] at hsum
  exact hsum

theorem ownedOn_insert_of_none (device : Device) {objects : Objects} {key : Key} (obj : Object)
    (h : objects.find? key = none) :
    ownedOn device (objects.insert key obj) = ownedOn device objects + obj.ownedOn device := by
  have hsum := objects.sumOn_insert (fun _ obj ↦ obj.ownedOn device) key obj
  rw [h] at hsum
  exact hsum

theorem ownedOn_erase_of_find? (device : Device) {objects : Objects} {key : Key} {old : Object}
    (h : objects.find? key = some old) :
    ownedOn device (objects.erase key) + old.ownedOn device = ownedOn device objects := by
  have hsum := objects.sumOn_erase (fun _ obj ↦ obj.ownedOn device) key
  rw [h] at hsum
  exact hsum

/-- What an object owns is part of what the store owns. -/
theorem Object.ownedOn_le (device : Device) {objects : Objects} {key : Key} {obj : Object}
    (h : objects.find? key = some obj) : obj.ownedOn device ≤ Memory.ownedOn device objects :=
  objects.weight_le_sumOn (fun _ obj ↦ obj.ownedOn device) h

/-- An object is its spec and the replicas of its slots. -/
theorem Object.eq_of_view {first second : Object} (hspec : first.spec = second.spec)
    (hreplicas : ∀ i, first.replicasOf i = second.replicasOf i) : first = second := by
  have hlength : first.slots.length = second.slots.length := by
    rw [first.slots_length, second.slots_length, hspec]
  have hslots : first.slots = second.slots := by
    apply List.ext_getElem hlength
    intro i hfirst hsecond
    have h := hreplicas i
    rw [Object.replicasOf_of_getElem? (List.getElem?_eq_getElem hfirst),
      Object.replicasOf_of_getElem? (List.getElem?_eq_getElem hsecond)] at h
    exact congrArg Slot.mk h
  cases first
  cases second
  dsimp only at hspec hslots
  subst hspec hslots
  rfl

/-- Two indices that agree on the spec and the replicas under a key agree there. -/
theorem find?_of_view {first second : Objects} {key : Key} {obj : Object}
    (hfind : first.find? key = some obj) (hspec : specAt second key = specAt first key)
    (hreplicas : ∀ i, replicasAt second key i = replicasAt first key i) :
    second.find? key = some obj := by
  rw [specAt, specAt, hfind, Option.map_some] at hspec
  obtain ⟨other, hother, heq⟩ := Option.map_eq_some_iff.mp hspec
  rw [hother, Object.eq_of_view heq fun i ↦ ?_]
  have h := hreplicas i
  rwa [replicasAt_of_find? hother, replicasAt_of_find? hfind] at h

theorem ownedBytes_eq_zero {device : Device} {replicas : List ReplicaEntry}
    (h : ∀ r ∈ replicas, r.ownedOn device = false) : ownedBytes device replicas = 0 := by
  have hnil : replicas.filterMap (ReplicaEntry.ownedLenOn device) = [] := by
    rw [List.filterMap_eq_nil_iff]
    intro r hr
    exact ReplicaEntry.ownedLenOn_of_ownedOn (h r hr)
  rw [ownedBytes, hnil, List.sum_nil]

/-- An object with no owned replica on a device owns nothing there. -/
theorem Object.ownedOn_eq_zero {device : Device} {obj : Object}
    (h : ∀ i, ∀ r ∈ obj.replicasOf i, r.ownedOn device = false) : obj.ownedOn device = 0 := by
  unfold Object.ownedOn
  apply List.sum_eq_zero
  intro n hn
  obtain ⟨slot, hslot, rfl⟩ := List.mem_map.mp hn
  obtain ⟨i, hi⟩ := List.getElem?_of_mem hslot
  apply ownedBytes_eq_zero
  intro r hr
  refine h i r ?_
  rw [Object.replicasOf_of_getElem? hi]
  exact hr

end Pegastore.Memory
