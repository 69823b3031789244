import Pegastore.Lib.SortedMap
import Pegastore.Core.Ops
import Pegastore.Cuda.Pinned

/-!
# State of the single-node backend

The metadata of `local.rs` and the functions that run under its lock. Unlike the in-process backend,
an operation does not hold the lock throughout: a `put` claims its slots in one section, allocates
and copies without the lock, and stores in another; an allocation that finds no room runs one
eviction section per round. Each section is a function here, with its panics, and the buffers it
drops from the metadata are returned, since dropping the last holder of a buffer gives its range
back to the pool.

An `Object` carries the fact that it has one slot per entry of its spec. An `External` replica
carries, besides the data of the source, the ids of the regions its segments were taken from; no
operation reads them.
-/

set_option autoImplicit false
set_option relaxedAutoImplicit false

namespace Pegastore.Local

open Outcome ByteMemory

/-- A space of bytes: user memory by address, or a pool by offset. -/
abbrev ByteSpace := ℕ → UInt8

inductive ReplicaData
  | pinned (buf : PinnedBuf)
  | external (segs : List Segment) (regionId : ℕ) (origins : List ℕ)
deriving DecidableEq, Repr

structure ReplicaEntry where
  device : Device
  tier : Tier
  misplaced : Bool
  data : ReplicaData
deriving DecidableEq, Repr

structure Slot where
  replicas : List ReplicaEntry
  writing : Bool
deriving DecidableEq, Repr

structure Object where
  spec : ObjectSpec
  slots : List Slot
  slots_length : slots.length = spec.slots.length
deriving DecidableEq

/-- Entries of an eviction queue: a key and a slot index, as `u32`. -/
abbrev FifoEntry := Key × UInt32

abbrev Objects := SortedMap Key Object

structure State where
  objects : Objects
  fifo : Device → Option (List FifoEntry)

/-- The immutable part of the backend: the node, the topology, the GPUs served, the NUMA nodes with
a pool, in ascending order, and whether the build checks arithmetic for overflow. -/
structure Inner where
  node : ℕ
  gpuNuma : UInt16 → Option UInt16
  gpus : List UInt16
  poolOrder : List UInt16
  checks : Bool

/-! ### Objects, slots and replicas -/

/-- An object with all slots empty and unclaimed. -/
def Object.fresh (spec : ObjectSpec) : Object where
  spec := spec
  slots := List.replicate spec.slots.length ⟨[], false⟩
  slots_length := List.length_replicate

/-- The object with one slot replaced. -/
def Object.setSlot (obj : Object) (i : ℕ) (slot : Slot) : Object where
  spec := obj.spec
  slots := obj.slots.set i slot
  slots_length := by rw [List.length_set, obj.slots_length]

/-- The object with every slot rewritten. -/
def Object.mapSlots (obj : Object) (f : Slot → Slot) : Object where
  spec := obj.spec
  slots := obj.slots.map f
  slots_length := by rw [List.length_map, obj.slots_length]

/-- No slot of the object has a replica or a writer. -/
def Object.isIdle (obj : Object) : Bool := obj.slots.all fun s ↦ s.replicas.isEmpty && !s.writing

/-- The buffer of a replica the store owns. -/
def ReplicaEntry.buf? (r : ReplicaEntry) : Option PinnedBuf :=
  match r.data with
  | .pinned buf => some buf
  | .external _ _ _ => none

/-- The replica is owned by the store and on `device`. -/
def ReplicaEntry.pinnedOn (device : Device) (r : ReplicaEntry) : Bool :=
  r.device = device && r.buf?.isSome

/-- The buffers of the replicas the store owns. -/
def bufsOf (replicas : List ReplicaEntry) : List PinnedBuf := replicas.filterMap ReplicaEntry.buf?

/-- The buffers of an object. -/
def Object.bufs (obj : Object) : List PinnedBuf := obj.slots.flatMap fun s ↦ bufsOf s.replicas

/-- The buffers the metadata holds. -/
def bufsIn (objects : Objects) : List PinnedBuf := objects.entries.flatMap fun e ↦ e.2.bufs

/-! ### `put`: claim, place and store -/

/-- A slot can be claimed while it has neither a replica nor a writer. -/
def Slot.claimable (s : Slot) : Bool := s.replicas.isEmpty && !s.writing

def Slot.claim (s : Slot) : Slot := if s.claimable then { s with writing := true } else s

/-- The object a `put` works on: the present one, or a new one. -/
def State.entry (st : State) (kb : Key) (spec : ObjectSpec) : Object :=
  (st.objects.find? kb).getD (Object.fresh spec)

/-- Phase 1 of `put`: reserve the key and claim the writable slots. -/
def State.claim (st : State) (kb : Key) (spec : ObjectSpec) : Result (List Bool × State) :=
  let obj := st.entry kb spec
  if obj.spec ≠ spec then
    .error ((Error.new .specMismatch "existing object has a different spec").withContext "key"
      (.key kb))
  else
    .ok (obj.slots.map Slot.claimable,
      { st with objects := st.objects.insert kb (obj.mapSlots Slot.claim) })

def noPool (device : Device) : Error :=
  (Error.new .invalidInput "no pool on device").withContext "device" (.device device)

/-- The pool a device stands for. -/
def Inner.numaOf (inner : Inner) (d : Device) : Result UInt16 :=
  match d with
  | .cpu numa => if numa ∈ inner.poolOrder then .ok numa else .error (noPool d)
  | .gpu _ =>
    .error ((Error.new .invalidInput "GPU memory is not a store tier; use publish").withContext
      "device" (.device d))

/-- The pools to try for a slot, in order, with the misplaced flag of each. -/
def Inner.targets (inner : Inner) : Placement → Result (List (UInt16 × Bool))
  | .strict d => do
    let n ← inner.numaOf d
    .ok [(n, false)]
  | .each ds => ds.mapM fun d ↦ do
    let n ← inner.numaOf d
    .ok (n, false)
  | .prefer d => do
    let n ← inner.numaOf d
    .ok ((n, false) :: (inner.poolOrder.filter fun x ↦ x ≠ n).map fun x ↦ (x, true))
  | .anywhere => .ok (inner.poolOrder.map fun n ↦ (n, false))

def isEach : Placement → Bool
  | .each _ => true
  | _ => false

def noSpace (numa : UInt16) (len : ℕ) : Error :=
  ((Error.new .noSpace "pool cannot fit slot").withContext "device" (.device (.cpu numa))
    ).withContext "len" (.num len)

def slotWritten (i : ℕ) : Error :=
  (Error.new .alreadyExists "slot already written").withContext "slot" (.num i)

/-- A target with its buffer. -/
structure Placed where
  numa : UInt16
  misplaced : Bool
  buf : PinnedBuf
deriving DecidableEq, Repr

/-- The replicas a stored slot gets. -/
def pinnedReplicas (placed : List Placed) : List ReplicaEntry :=
  placed.map fun p ↦ ⟨.cpu p.numa, .dram, p.misplaced, .pinned p.buf⟩

/-- Queue a landed replica. -/
def State.enqueue (st : State) (kb : Key) (i : ℕ) (device : Device) : Exec State := do
  let queue ← unwrap (st.fifo device)
  .ok { st with fifo := Function.update st.fifo device (some (queue ++ [(kb, UInt32.ofNat i)])) }

/-- Phase 3 of `put`: find the object again, add the replicas of slot `i`, clear its flag and queue
them. -/
def State.store (st : State) (kb : Key) (i : ℕ) (placed : List Placed) : Exec (Result State) :=
  match st.objects.find? kb with
  | none => .ok (.error (Error.new .notFound "object removed during put"))
  | some obj => do
    let slot ← index obj.slots i
    let obj := obj.setSlot i ⟨slot.replicas ++ pinnedReplicas placed, false⟩
    let st := { st with objects := st.objects.insert kb obj }
    let st ← placed.foldlM (fun st p ↦ st.enqueue kb i (.cpu p.numa)) st
    .ok (.ok st)

/-- The failure section of `put`: find the object again and clear the flag of slot `i`. -/
def State.unclaim (st : State) (kb : Key) (i : ℕ) : Exec State :=
  match st.objects.find? kb with
  | none => .ok st
  | some obj => do
    let slot ← index obj.slots i
    .ok { st with objects := st.objects.insert kb (obj.setSlot i { slot with writing := false }) }

/-! ### Eviction -/

/-- What one popped queue entry did: whether something was evicted, the buffers dropped and the
objects left. -/
structure Popped where
  evicted : Bool
  dropped : List PinnedBuf
  objects : Objects

/-- One popped queue entry of a key that is not protected: skip it unless it names a present
`Cache` object, else drop what the store owns there on `device` and reclaim an idle object. -/
def evictEntry (device : Device) (entry : FifoEntry) (objects : Objects) : Exec Popped :=
  match objects.find? entry.1 with
  | none => .ok ⟨false, [], objects⟩
  | some obj =>
    if obj.spec.retention ≠ .cache then .ok ⟨false, [], objects⟩
    else do
      let slot ← index obj.slots entry.2.toNat
      let kept := slot.replicas.filter fun r ↦ !r.pinnedOn device
      let dropped := bufsOf (slot.replicas.filter fun r ↦ r.pinnedOn device)
      let obj := obj.setSlot entry.2.toNat { slot with replicas := kept }
      let objects := if obj.isIdle then objects.erase entry.1 else objects.insert entry.1 obj
      .ok ⟨kept.length ≠ slot.replicas.length, dropped, objects⟩

/-- What a round of eviction leaves: the last entry's effect, the rest of the queue and the
protected entries set aside. -/
structure Round where
  popped : Popped
  fifo : List FifoEntry
  deferred : List FifoEntry

/-- One round of eviction: pop entries until one evicts something or the queue is empty. -/
def evictLoop (device : Device) (protect : Key) :
    List FifoEntry → Objects → List FifoEntry → Exec Round
  | [], objects, deferred => .ok ⟨⟨false, [], objects⟩, [], deferred⟩
  | entry :: fifo, objects, deferred =>
    if entry.1 = protect then evictLoop device protect fifo objects (deferred ++ [entry])
    else do
      let popped ← evictEntry device entry objects
      if popped.evicted then .ok ⟨popped, fifo, deferred⟩
      else evictLoop device protect fifo popped.objects deferred

/-- One locked round of `alloc_or_evict`: whether it evicted, the buffers dropped and the state. The
entries set aside return to the front of the queue in their order. -/
def State.evictRound (st : State) (device : Device) (protect : Key) :
    Exec (Bool × List PinnedBuf × State) := do
  let queue ← unwrap (st.fifo device)
  let round ← evictLoop device protect queue st.objects []
  .ok (round.popped.evicted, round.popped.dropped,
    ⟨round.popped.objects,
      Function.update st.fifo device (some (round.deferred ++ round.fifo))⟩)

/-! ### `publish`, `get`, `remove` and regions -/

def noSuchKey (key : Key) : Error :=
  (Error.new .notFound "no such key").withContext "key" (.key key)

def slotOutOfRange (idx : ℕ) : Error :=
  (Error.new .invalidInput "slot index out of range").withContext "slot" (.num idx)

/-- The replica a `publish` of `src` on `device` adds. -/
def externalReplica (device : Device) (first : Iov) (src : List Iov) : ReplicaEntry where
  device := device
  tier := .external
  misplaced := false
  data := .external (segsOf src) first.region.id (src.map fun iov ↦ iov.region.id)

/-- The locked section of `publish`, after the validation returned `device` and `total`. -/
def State.publish (st : State) (key : Key) (op : OpPublish) (device : Device) (total : ℕ) :
    Exec (Result State) :=
  match st.objects.find? key with
  | none => .ok (.error (noSuchKey key))
  | some obj =>
    let idx := op.slot.toNat
    match obj.spec.slots[idx]? with
    | none => .ok (.error (slotOutOfRange idx))
    | some spec =>
      if spec.len ≠ total then
        .ok (.error (((Error.new .invalidInput "published length differs from slot length"
          ).withContext "len" (.num total)).withContext "expected" (.num spec.len)))
      else do
        let slot ← index obj.slots idx
        let first ← index op.src 0
        let replica := externalReplica device first op.src
        let obj := obj.setSlot idx { slot with replicas := slot.replicas ++ [replica] }
        .ok (.ok { st with objects := st.objects.insert key obj })

/-- Ordinal distance between two devices. -/
def Inner.distance (inner : Inner) (a b : Device) : ℕ :=
  if a = b then 0
  else
    match a, b with
    | .gpu _, .gpu _ => 1
    | .cpu numa, .gpu index | .gpu index, .cpu numa =>
      match inner.gpuNuma index with
      | some n => if n = numa then 2 else 4
      | none => 3
    | .cpu _, .cpu _ => 3

def tierRank : Tier → ℕ
  | .dram => 0
  | .external => 1
  | .ssd => 2

/-- The nearest replica, the first of them on a tie. -/
def nearest (inner : Inner) (dstDevice : Device) (replicas : List ReplicaEntry) :
    Option ReplicaEntry :=
  replicas.argmin fun r ↦ toLex (inner.distance dstDevice r.device, tierRank r.tier)

/-- The locked section of `get`: choose a replica. -/
def State.select (inner : Inner) (st : State) (key : Key) (idx : ℕ) (dstDevice : Device) :
    Exec (Result (ReplicaEntry × ℕ)) :=
  match st.objects.find? key with
  | none => .ok (.error (noSuchKey key))
  | some obj =>
    match obj.spec.slots[idx]? with
    | none => .ok (.error (slotOutOfRange idx))
    | some spec => do
      let slot ← index obj.slots idx
      match nearest inner dstDevice slot.replicas with
      | none =>
        .ok (.error (((Error.new .evicted "slot has no replica").withContext "key" (.key key)
          ).withContext "slot" (.num idx)))
      | some replica => .ok (.ok (replica, spec.len))

/-- Remove one key, with the buffers its object held. -/
def removeKey (objects : Objects) (key : Key) : List PinnedBuf × Objects :=
  match objects.find? key with
  | none => ([], objects)
  | some obj => (obj.bufs, objects.erase key)

/-- Remove keys one after another, with the buffers dropped. -/
def removeKeys : List Key → Objects → List PinnedBuf × Objects
  | [], objects => ([], objects)
  | key :: keys, objects =>
    let (dropped, objects) := removeKey objects key
    let (more, objects) := removeKeys keys objects
    (dropped ++ more, objects)

/-- The keys that start with `start`: the block of the index that begins there. -/
def State.keysFrom (st : State) (start : List UInt8) : List Key :=
  ((st.objects.rangeFrom start).takeWhile fun e ↦ start.isPrefixOf e.1).map Prod.fst

/-- The replica was published from the region. -/
def ReplicaEntry.publishedFrom (regionId : ℕ) (r : ReplicaEntry) : Bool :=
  match r.data with
  | .pinned _ => false
  | .external _ id _ => id = regionId

/-- Drop every `External` replica published from a region. -/
def State.retireRegion (st : State) (regionId : ℕ) : State where
  objects := st.objects.mapValues fun obj ↦
    obj.mapSlots fun s ↦ { s with replicas := s.replicas.filter fun r ↦ !r.publishedFrom regionId }
  fifo := st.fifo

end Pegastore.Local
