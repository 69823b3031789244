import Pegastore.Lib.SortedMap
import Pegastore.Core.Ops

/-!
# State of the in-process backend

The data of `services/memory.rs` under its one mutex: objects with their slots and replicas, and
per-device pools with a byte counter and the queue of landed replicas that drives eviction. The
operations here are the ones of `impl State`: `makeRoom`, `charge` and `releaseObject`, with the
retain loop of `make_room` written out entry by entry in `makeRoomLoop`.

An `Object` carries the fact that it has one slot per entry of its spec. An `External` replica
carries, besides the data of the source, the ids of the regions its segments were taken from; no
operation reads them.
-/

set_option autoImplicit false
set_option relaxedAutoImplicit false

namespace Pegastore.Memory

open Outcome ByteMemory

/-- User memory, as every region address sees it. -/
abbrev UserMemory := ℕ → UInt8

inductive ReplicaData
  | owned (bytes : List UInt8)
  | external (segs : List Segment) (regionId : ℕ) (origins : List ℕ)
deriving DecidableEq, Repr

structure ReplicaEntry where
  device : Device
  tier : Tier
  misplaced : Bool
  data : ReplicaData
deriving DecidableEq, Repr

structure Slot where
  replicas : List ReplicaEntry
deriving DecidableEq, Repr

structure Object where
  spec : ObjectSpec
  slots : List Slot
  slots_length : slots.length = spec.slots.length
deriving DecidableEq

/-- Entries of an eviction queue: a key and a slot index, as `u32`. -/
abbrev FifoEntry := Key × UInt32

structure Pool where
  capacity : Option ℕ
  used : ℕ
  fifo : List FifoEntry
deriving DecidableEq, Repr

abbrev Objects := SortedMap Key Object

structure State where
  objects : Objects
  pools : Device → Option Pool

/-! ### Objects and slots -/

/-- An object with all slots empty. -/
def Object.fresh (spec : ObjectSpec) : Object where
  spec := spec
  slots := List.replicate spec.slots.length ⟨[]⟩
  slots_length := List.length_replicate

/-- The object with one slot replaced. -/
def Object.setSlot (obj : Object) (i : ℕ) (slot : Slot) : Object where
  spec := obj.spec
  slots := obj.slots.set i slot
  slots_length := by rw [List.length_set, obj.slots_length]

/-- The object with every slot rewritten. -/
def Object.mapSlots (obj : Object) (f : Slot → Slot) : Object where
  spec := obj.spec
  slots := obj.slots.map f
  slots_length := by rw [List.length_map, obj.slots_length]

/-- No slot of the object has a replica. -/
def Object.isEmpty (obj : Object) : Bool := obj.slots.all fun s ↦ s.replicas.isEmpty

/-- The length of the bytes the store owns in a replica. -/
def ReplicaData.ownedLen : ReplicaData → Option ℕ
  | .owned bytes => some bytes.length
  | .external _ _ _ => none

/-- The replica is owned by the store and on `device`. -/
def ReplicaEntry.ownedOn (device : Device) (r : ReplicaEntry) : Bool :=
  r.device = device && r.data.ownedLen.isSome

/-- The length of a replica owned by the store on `device`, nothing for other replicas. -/
def ReplicaEntry.ownedLenOn (device : Device) (r : ReplicaEntry) : Option ℕ :=
  if r.device = device then r.data.ownedLen else none

/-- The lengths of the replicas of a slot that the store owns on `device`. -/
def Slot.ownedLens (device : Device) (slot : Slot) : List ℕ :=
  slot.replicas.filterMap (ReplicaEntry.ownedLenOn device)

/-- The slot without the replicas the store owns on `device`. -/
def Slot.dropOwned (device : Device) (slot : Slot) : Slot :=
  ⟨slot.replicas.filter fun r ↦ !r.ownedOn device⟩

/-! ### `impl State` -/

/-- One popped queue entry of a key that is not protected: skip it unless it names a present
`Cache` object, else drop what the store owns there on `device` and reclaim an emptied object. -/
def evictEntry (device : Device) (entry : FifoEntry) (objects : Objects) (used : ℕ) :
    Exec (Objects × ℕ) :=
  match objects.find? entry.1 with
  | none => .ok (objects, used)
  | some obj =>
    if obj.spec.retention ≠ .cache then .ok (objects, used)
    else do
      let slot ← index obj.slots entry.2.toNat
      let freed ← sumU64 (slot.ownedLens device)
      let used ← subU64 used freed
      let obj := obj.setSlot entry.2.toNat (slot.dropOwned device)
      if obj.isEmpty then .ok (objects.erase entry.1, used)
      else .ok (objects.insert entry.1 obj, used)

/-- What the loop of `make_room` works on: the rest of the queue, the objects, the byte counter of
the device and the protected entries set aside. -/
structure Room where
  fifo : List FifoEntry
  objects : Objects
  used : ℕ
  deferred : List FifoEntry

/-- The eviction loop of `make_room`: it runs while the counter exceeds the capacity and the queue
has an entry. -/
def makeRoomLoop (device : Device) (need cap : ℕ) (protect : Key) :
    List FifoEntry → Objects → ℕ → List FifoEntry → Exec Room
  | [], objects, used, deferred => do
    let _ ← addU64 used need
    .ok ⟨[], objects, used, deferred⟩
  | entry :: fifo, objects, used, deferred => do
    let total ← addU64 used need
    if total ≤ cap then .ok ⟨entry :: fifo, objects, used, deferred⟩
    else if entry.1 = protect then
      makeRoomLoop device need cap protect fifo objects used (deferred ++ [entry])
    else do
      let (objects, used) ← evictEntry device entry objects used
      makeRoomLoop device need cap protect fifo objects used deferred

/-- Make room for `need` bytes on `device` by evicting `Cache` replicas in queue order, never
touching `protect`. The entries set aside return to the front of the queue in their order. -/
def State.makeRoom (st : State) (device : Device) (need : ℕ) (protect : Key) :
    Exec (Bool × State) := do
  let pool ← unwrap (st.pools device)
  match pool.capacity with
  | none => .ok (true, st)
  | some cap =>
    if need > cap then .ok (false, st)
    else do
      let room ← makeRoomLoop device need cap protect pool.fifo st.objects pool.used []
      let pool := { pool with used := room.used, fifo := room.deferred ++ room.fifo }
      let total ← addU64 room.used need
      .ok (decide (total ≤ cap),
        { objects := room.objects, pools := Function.update st.pools device (some pool) })

/-- Count a landed replica of `len` bytes and queue it. -/
def State.charge (st : State) (device : Device) (key : Key) (slot : UInt32) (len : ℕ) :
    Exec State := do
  let pool ← unwrap (st.pools device)
  let used ← addU64 pool.used len
  let pool := { pool with used := used, fifo := pool.fifo ++ [(key, slot)] }
  .ok { st with pools := Function.update st.pools device (some pool) }

/-- Give back the bytes of one replica of a removed object. -/
def releaseReplica (pools : Device → Option Pool) (r : ReplicaEntry) :
    Exec (Device → Option Pool) :=
  match r.data, pools r.device with
  | .owned bytes, some pool => do
    let used ← subU64 pool.used bytes.length
    .ok (Function.update pools r.device (some { pool with used := used }))
  | _, _ => .ok pools

/-- Give back the bytes of every owned replica of a removed object, slot by slot. -/
def State.releaseObject (st : State) (obj : Object) : Exec State := do
  let pools ← (obj.slots.flatMap Slot.replicas).foldlM releaseReplica st.pools
  .ok { st with pools := pools }

end Pegastore.Memory
