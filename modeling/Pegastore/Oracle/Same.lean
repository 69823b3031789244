import Pegastore.Cuda.Get
import Pegastore.Memory.System

/-!
# Two backends with the same objects

The in-process backend is the oracle of the others: on the same objects they are to do the same.
`SameObjects R` says that a state of it and a state of the single-node backend hold the same
objects, whose replicas are related by `R` slot by slot, in order. What differs stays out of it: how
bytes are held, the claim flags, the queues and the pools.
-/

set_option autoImplicit false
set_option relaxedAutoImplicit false

namespace Pegastore.Oracle

open Outcome ByteMemory

/-- The same spec, and slot by slot the same replicas up to `R`. -/
structure SameObject (R : Memory.ReplicaEntry → Local.ReplicaEntry → Prop) (obj : Memory.Object)
    (obj' : Local.Object) : Prop where
  spec : obj'.spec = obj.spec
  slots : List.Forall₂ (fun s s' ↦ List.Forall₂ R s.replicas s'.replicas) obj.slots obj'.slots

/-- The same keys, with the same objects. -/
def SameObjects (R : Memory.ReplicaEntry → Local.ReplicaEntry → Prop) (objects : Memory.Objects)
    (objects' : Local.Objects) : Prop :=
  ∀ key, Option.Rel (SameObject R) (objects.find? key) (objects'.find? key)

/-- The same device, tier and bytes. -/
structure SameBytes (mem : Memory.UserMemory) (w : Local.World) (mem' : Local.ByteSpace)
    (r : Memory.ReplicaEntry) (r' : Local.ReplicaEntry) : Prop where
  device : r'.device = r.device
  tier : r'.tier = r.tier
  content : w.content mem' r'.data = r.content mem

section Same

variable {R : Memory.ReplicaEntry → Local.ReplicaEntry → Prop}

theorem SameObjects.cases {objects : Memory.Objects} {objects' : Local.Objects}
    (h : SameObjects R objects objects') (key : Key) :
    (objects.find? key = none ∧ objects'.find? key = none) ∨
      ∃ obj obj', objects.find? key = some obj ∧ objects'.find? key = some obj' ∧
        SameObject R obj obj' := by
  have hkey := h key
  revert hkey
  cases objects.find? key with
  | none =>
    cases objects'.find? key with
    | none => exact fun _ ↦ .inl ⟨rfl, rfl⟩
    | some obj' => exact fun hrel ↦ by cases hrel
  | some obj =>
    cases objects'.find? key with
    | none => exact fun hrel ↦ by cases hrel
    | some obj' =>
      intro hrel
      cases hrel with
      | some hsame => exact .inr ⟨obj, obj', rfl, rfl, hsame⟩

/-- Related lists stay related when related elements are set at one index. -/
theorem forall₂_set {α β : Type} {Q : α → β → Prop} {l : List α} {l' : List β}
    (h : List.Forall₂ Q l l') {a : α} {b : β} (hab : Q a b) :
    ∀ i, List.Forall₂ Q (l.set i a) (l'.set i b) := by
  induction h with
  | nil => exact fun _ ↦ .nil
  | cons hhead hrest ih =>
    intro i
    cases i with
    | zero => exact .cons hab hrest
    | succ i => exact .cons hhead (ih i)

theorem SameObject.setSlot {obj : Memory.Object} {obj' : Local.Object} (h : SameObject R obj obj')
    (i : ℕ) {slot : Memory.Slot} {slot' : Local.Slot}
    (hslot : List.Forall₂ R slot.replicas slot'.replicas) :
    SameObject R (obj.setSlot i slot) (obj'.setSlot i slot') where
  spec := h.spec
  slots := forall₂_set h.slots hslot i

/-- A slot of the one is a slot of the other, the other way round. -/
theorem SameObject.exists_slot {obj : Memory.Object} {obj' : Local.Object}
    (h : SameObject R obj obj') {i : ℕ} {slot' : Local.Slot}
    (hslot' : obj'.slots[i]? = some slot') :
    ∃ slot, obj.slots[i]? = some slot ∧ List.Forall₂ R slot.replicas slot'.replicas := by
  obtain ⟨hlt', rfl⟩ := List.getElem?_eq_some_iff.mp hslot'
  have hlt : i < obj.slots.length := by
    rw [h.slots.length_eq]
    exact hlt'
  exact ⟨obj.slots[i], List.getElem?_eq_getElem hlt, h.slots.get hlt hlt'⟩

/-- A slot that is rewritten without a change of replicas. -/
theorem SameObject.setSlot_right {obj : Memory.Object} {obj' : Local.Object}
    (h : SameObject R obj obj') {i : ℕ} {slot' new' : Local.Slot}
    (hslot' : obj'.slots[i]? = some slot') (hnew : new'.replicas = slot'.replicas) :
    SameObject R obj (obj'.setSlot i new') where
  spec := h.spec
  slots := by
    obtain ⟨slot, hslot, hreplicas⟩ := h.exists_slot hslot'
    obtain ⟨hlt, rfl⟩ := List.getElem?_eq_some_iff.mp hslot
    have hset := forall₂_set h.slots (a := obj.slots[i]) (b := new') (by rwa [hnew]) i
    rw [List.set_getElem_self] at hset
    exact hset

/-- Two objects without replicas. -/
theorem sameObject_fresh (spec : ObjectSpec) :
    SameObject R (Memory.Object.fresh spec) (Local.Object.fresh spec) where
  spec := rfl
  slots := by
    change List.Forall₂ _ (List.replicate _ _) (List.replicate _ _)
    generalize spec.slots.length = count
    induction count with
    | zero => exact .nil
    | succ count ih => exact .cons .nil ih

/-- The replicas stay when slots are rewritten without a change of replicas. -/
theorem SameObject.mapSlots {obj : Memory.Object} {obj' : Local.Object} (h : SameObject R obj obj')
    {f : Local.Slot → Local.Slot} (hf : ∀ slot, (f slot).replicas = slot.replicas) :
    SameObject R obj (obj'.mapSlots f) where
  spec := h.spec
  slots := by
    refine List.forall₂_map_right_iff.mpr (h.slots.imp fun slot slot' hslot ↦ ?_)
    rw [hf]
    exact hslot

theorem SameObjects.insert {objects : Memory.Objects} {objects' : Local.Objects}
    (h : SameObjects R objects objects') (key : Key) {obj : Memory.Object} {obj' : Local.Object}
    (hobj : SameObject R obj obj') :
    SameObjects R (objects.insert key obj) (objects'.insert key obj') := by
  intro other
  rw [SortedMap.find?_insert, SortedMap.find?_insert]
  split_ifs
  · exact .some hobj
  · exact h other

/-- An object that is replaced by one with the same replicas. -/
theorem SameObjects.insert_right {objects : Memory.Objects} {objects' : Local.Objects}
    (h : SameObjects R objects objects') {key : Key} {obj : Memory.Object} {obj' : Local.Object}
    (hfind : objects.find? key = some obj) (hobj : SameObject R obj obj') :
    SameObjects R objects (objects'.insert key obj') := by
  intro other
  rw [SortedMap.find?_insert]
  split_ifs with heq
  · rw [← heq, hfind]
    exact .some hobj
  · exact h other

/-- Another relation that the replicas of the index have. -/
theorem SameObjects.mono {S : Memory.ReplicaEntry → Local.ReplicaEntry → Prop}
    {objects : Memory.Objects} {objects' : Local.Objects} (h : SameObjects R objects objects')
    (himp : ∀ key j slot', Local.slotAt objects' key j = some slot' → ∀ r, ∀ r' ∈ slot'.replicas,
      R r r' → S r r') : SameObjects S objects objects' := by
  intro key
  rcases h.cases key with ⟨hfind, hfind'⟩ | ⟨obj, obj', hfind, hfind', hobj⟩
  · rw [hfind, hfind']
    exact .none
  · rw [hfind, hfind']
    refine .some ⟨hobj.spec, ?_⟩
    refine List.forall₂_iff_zip.mpr ⟨hobj.slots.length_eq, fun {slot slot'} hzip ↦ ?_⟩
    obtain ⟨j, hlt, hslot'⟩ := List.getElem_of_mem (List.of_mem_zip hzip).2
    have hat : Local.slotAt objects' key j = some slot' := by
      rw [Local.slotAt_of_find? hfind', ← hslot']
      exact List.getElem?_eq_getElem hlt
    have hreplicas := List.forall₂_zip hobj.slots hzip
    refine List.forall₂_iff_zip.mpr ⟨hreplicas.length_eq, fun {r r'} hpair ↦ ?_⟩
    exact himp key j slot' hat r r' (List.of_mem_zip hpair).2 (List.forall₂_zip hreplicas hpair)

/-- A replica of the one has its counterpart in the other. -/
theorem SameObjects.exists_replica {objects : Memory.Objects} {objects' : Local.Objects}
    (h : SameObjects R objects objects') {key : Key} {j : ℕ} {slot' : Local.Slot}
    (hslot' : Local.slotAt objects' key j = some slot') {r' : Local.ReplicaEntry}
    (hr' : r' ∈ slot'.replicas) : ∃ obj slot r, objects.find? key = some obj ∧
      obj.slots[j]? = some slot ∧ r ∈ slot.replicas ∧ R r r' := by
  obtain ⟨obj', hfind', hget'⟩ := Option.bind_eq_some_iff.mp hslot'
  rcases h.cases key with ⟨_, hnone⟩ | ⟨obj, found, hfind, hfound, hobj⟩
  · rw [hfind'] at hnone
    cases hnone
  · rw [hfind'] at hfound
    cases hfound
    obtain ⟨slot, hget, hreplicas⟩ := hobj.exists_slot hget'
    obtain ⟨k, hk', rfl⟩ := List.getElem_of_mem hr'
    have hk : k < slot.replicas.length := by
      rw [hreplicas.length_eq]
      exact hk'
    exact ⟨obj, slot, slot.replicas[k], hfind, hget, List.getElem_mem hk, hreplicas.get hk hk'⟩

end Same

end Pegastore.Oracle
