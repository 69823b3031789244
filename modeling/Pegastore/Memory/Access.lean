import Pegastore.Memory.State

/-!
# Operations of the in-process backend

The `Access` implementation of `services/memory.rs`: `put`, `publish`, `stat`, `get`, `remove`,
`remove_prefix`, `register` and the drop of a region. Every operation holds the mutex throughout,
so each is a function of the state. A function that can unwind returns an `Exec`; a function whose
source returns `Result` keeps it inside.
-/

set_option autoImplicit false
set_option relaxedAutoImplicit false

namespace Pegastore.Memory

open Outcome ByteMemory

/-! ### Configuration -/

/-- The capability the backend itself reads. -/
structure Capability where
  gpuMemory : Bool
deriving DecidableEq, Repr

structure MemoryBuilder where
  node : ℕ
  devices : List (Device × Option ℕ)
  gpuNuma : UInt16 → Option UInt16
  capability : Capability

/-- The immutable part of the backend. -/
structure Inner where
  node : ℕ
  capability : Capability
  deviceOrder : List Device
  gpuNuma : UInt16 → Option UInt16

/-- The devices of a backend, one CPU device when none was named. -/
def MemoryBuilder.deviceList (b : MemoryBuilder) : List (Device × Option ℕ) :=
  if b.devices.isEmpty then [(.cpu 0, none)] else b.devices

/-- The pools of a backend. A device named twice keeps its last capacity. -/
def buildPools (devices : List (Device × Option ℕ)) : Device → Option Pool :=
  devices.foldl (fun pools d ↦ Function.update pools d.1 (some ⟨d.2, 0, []⟩)) fun _ ↦ none

def MemoryBuilder.inner (b : MemoryBuilder) : Inner where
  node := b.node
  capability := b.capability
  deviceOrder := b.deviceList.map Prod.fst
  gpuNuma := b.gpuNuma

def MemoryBuilder.state (b : MemoryBuilder) : State where
  objects := SortedMap.empty
  pools := buildPools b.deviceList

/-- Ordinal distance between two devices. -/
def Inner.distance (inner : Inner) (a b : Device) : ℕ :=
  if a = b then 0
  else
    match a, b with
    | .gpu _, .gpu _ => 1
    | .cpu numa, .gpu index | .gpu index, .cpu numa =>
      match inner.gpuNuma index with
      | some n => if n = numa then 2 else 4
      | none => 3
    | .cpu _, .cpu _ => 3

def Inner.location (inner : Inner) (device : Device) (tier : Tier) : Location :=
  ⟨inner.node, device, tier⟩

def tierRank : Tier → ℕ
  | .dram => 0
  | .external => 1
  | .ssd => 2

/-! ### Moving bytes -/

/-- Copy the segments of a source list into one vector. -/
def gather (mem : UserMemory) (iovs : List Iov) : Exec (List UInt8) := do
  let total ← sumU64 (iovs.map Iov.len)
  withCapacity total
  .ok (readAll mem (segsOf iovs))

/-- Copy `src` over the segments of a destination list, from position `off` on. -/
def scatter (src : List UInt8) : List Iov → ℕ → UserMemory → Exec UserMemory
  | [], _, mem => .ok mem
  | iov :: rest, off, mem => do
    let stop ← addU64 off iov.len
    if stop ≤ src.length then
      scatter src rest stop (write mem iov.asPtr ((src.drop off).take iov.len))
    else .error .indexOutOfBounds

/-- The length of a replica. -/
def ReplicaData.len : ReplicaData → Exec ℕ
  | .owned bytes => .ok bytes.length
  | .external segs _ _ => sumU64 (segs.map Segment.len)

/-- The loop of `ReplicaData::read` over the segments of an external replica. -/
def readSegs (mem : UserMemory) : List Segment → ℕ → ℕ → List UInt8 → Exec (List UInt8)
  | [], _, _, out => .ok out
  | s :: rest, skip, want, out =>
    if want = 0 then .ok out
    else if skip ≥ s.len then readSegs mem rest (skip - s.len) want out
    else do
      let addr ← addU64 s.addr skip
      let n := min (s.len - skip) want
      readSegs mem rest 0 (want - n) (out ++ read mem ⟨addr, n⟩)

/-- Copy `[offset, offset + len)` of a replica into a fresh vector. -/
def ReplicaData.read (mem : UserMemory) (offset len : ℕ) : ReplicaData → Exec (List UInt8)
  | .owned bytes => do
    let stop ← addU64 offset len
    if stop ≤ bytes.length then .ok ((bytes.drop offset).take len)
    else .error .indexOutOfBounds
  | .external segs _ _ => do
    withCapacity len
    readSegs mem segs offset len []

/-! ### `put` -/

def unknownDevice (device : Device) : Error :=
  (Error.new .invalidInput "device not served by this backend").withContext "device"
    (.device device)

def noSpace (device : Device) (len : ℕ) : Error :=
  ((Error.new .noSpace "pool cannot fit slot").withContext "device" (.device device)
    ).withContext "len" (.num len)

/-- The devices to try for a slot, in order, with the misplaced flag of each. -/
def Inner.candidates (inner : Inner) : Placement → List (Device × Bool)
  | .strict d => [(d, false)]
  | .prefer d => (d, false) :: (inner.deviceOrder.filter fun x ↦ x ≠ d).map fun x ↦ (x, true)
  | .each ds => ds.map fun d ↦ (d, false)
  | .anywhere => inner.deviceOrder.map fun d ↦ (d, false)

def isEach : Placement → Bool
  | .each _ => true
  | _ => false

/-- What the candidate loop of `put` works on. -/
structure Placing where
  st : State
  targets : List (Device × Bool)
  err : Option Error

/-- The candidate loop of one slot. With `each` it stops at the first failure, otherwise at the
first device with room. -/
def placeLoop (each : Bool) (len : ℕ) (kb : Key) : List (Device × Bool) → Placing → Exec Placing
  | [], p => .ok p
  | (d, misplaced) :: rest, p =>
    if (p.st.pools d).isNone then
      let p := { p with err := some (unknownDevice d) }
      if each then .ok p else placeLoop each len kb rest p
    else do
      let (fit, st) ← p.st.makeRoom d len kb
      if fit then
        let p := { p with st := st, targets := p.targets ++ [(d, misplaced)] }
        if each then placeLoop each len kb rest p else .ok p
      else
        let p := { p with st := st, err := some (noSpace d len) }
        if each then .ok p else placeLoop each len kb rest p

/-- The candidate loop of one slot ended with the targets it needs. -/
def Placing.landed (each : Bool) (p : Placing) : Bool :=
  if each then p.err.isNone && !p.targets.isEmpty else !p.targets.isEmpty

/-- The replicas a landed slot gets. -/
def ownedReplicas (targets : List (Device × Bool)) (bytes : List UInt8) : List ReplicaEntry :=
  targets.map fun t ↦ ⟨t.1, .dram, t.2, .owned bytes⟩

/-- Store the bytes of slot `i` on every target and count them. -/
def storeSlot (kb : Key) (i len : ℕ) (targets : List (Device × Bool)) (bytes : List UInt8)
    (st : State) : Exec State := do
  let obj ← unwrap (st.objects.find? kb)
  let slot ← index obj.slots i
  let obj := obj.setSlot i ⟨slot.replicas ++ ownedReplicas targets bytes⟩
  let st := { st with objects := st.objects.insert kb obj }
  targets.foldlM (fun st t ↦ st.charge t.1 kb (UInt32.ofNat i) len) st

/-- One writable slot of a `put`: find room, then store, or report why there is none. -/
def putSlot (inner : Inner) (mem : UserMemory) (kb : Key) (i : ℕ) (ps : PutSlot) (st : State) :
    Exec (Result Unit × State) := do
  let each := isEach ps.spec.placement
  let p ← placeLoop each ps.spec.len kb (inner.candidates ps.spec.placement) ⟨st, [], none⟩
  if !p.landed each then
    let e := p.err.getD (Error.new .noSpace "no device available")
    .ok (.error (e.withContext "slot" (.num i)), p.st)
  else do
    let bytes ← gather mem ps.src
    let st ← storeSlot kb i ps.spec.len p.targets bytes p.st
    .ok (.ok (), st)

def slotWritten (i : ℕ) : Error :=
  (Error.new .alreadyExists "slot already written").withContext "slot" (.num i)

/-- Phase 2 of `put`: the slots in order, with the writable bits of phase 1. -/
def putSlots (inner : Inner) (mem : UserMemory) (kb : Key) (writable : List Bool) :
    List PutSlot → ℕ → List (Result Unit) → State → Exec (List (Result Unit) × State)
  | [], _, results, st => .ok (results, st)
  | ps :: rest, i, results, st => do
    let w ← index writable i
    if !w then
      putSlots inner mem kb writable rest (i + 1) (results ++ [.error (slotWritten i)]) st
    else do
      let (r, st) ← putSlot inner mem kb i ps st
      putSlots inner mem kb writable rest (i + 1) (results ++ [r]) st

/-- Phase 1 of `put`: reserve the key and decide which slots are writable. -/
def State.reserve (st : State) (kb : Key) (spec : ObjectSpec) : Result (List Bool × State) :=
  match st.objects.find? kb with
  | some obj =>
    if obj.spec ≠ spec then
      .error ((Error.new .specMismatch "existing object has a different spec").withContext "key"
        (.key kb))
    else .ok (obj.slots.map fun s ↦ s.replicas.isEmpty, st)
  | none =>
    .ok (List.replicate spec.slots.length true,
      { st with objects := st.objects.insert kb (Object.fresh spec) })

def put (inner : Inner) (mem : UserMemory) (st : State) (key : Key) (op : OpPut) :
    Exec (Result RpPut × State) :=
  match op.validate with
  | .error e => .ok (.error e, st)
  | .ok _ =>
    match st.reserve key op.spec with
    | .error e => .ok (.error e, st)
    | .ok (writable, reserved) => do
      let (results, st) ← putSlots inner mem key writable op.slots 0 [] reserved
      .ok (.ok ⟨results⟩, st)

/-! ### `publish`, `stat` and `get` -/

def noSuchKey (key : Key) : Error :=
  (Error.new .notFound "no such key").withContext "key" (.key key)

def slotOutOfRange (idx : ℕ) : Error :=
  (Error.new .invalidInput "slot index out of range").withContext "slot" (.num idx)

/-- The replica a `publish` of `src` on `device` adds. -/
def externalReplica (device : Device) (first : Iov) (src : List Iov) : ReplicaEntry where
  device := device
  tier := .external
  misplaced := false
  data := .external (segsOf src) first.region.id (src.map fun iov ↦ iov.region.id)

def publish (st : State) (key : Key) (op : OpPublish) : Exec (Result Unit × State) :=
  match op.validate with
  | .error e => .ok (.error e, st)
  | .ok (device, total) =>
    match st.objects.find? key with
    | none => .ok (.error (noSuchKey key), st)
    | some obj =>
      let idx := op.slot.toNat
      match obj.spec.slots[idx]? with
      | none => .ok (.error (slotOutOfRange idx), st)
      | some spec =>
        if spec.len ≠ total then
          .ok (.error ((((Error.new .invalidInput "published length differs from slot length"
            ).withContext "slot" (.num idx)).withContext "len" (.num total)
            ).withContext "expected" (.num spec.len)), st)
        else do
          let first ← index op.src 0
          let slot ← index obj.slots idx
          let obj := obj.setSlot idx ⟨slot.replicas ++ [externalReplica device first op.src]⟩
          .ok (.ok (), { st with objects := st.objects.insert key obj })

def Object.info (inner : Inner) (obj : Object) : ObjectInfo where
  retention := obj.spec.retention
  slots := (obj.slots.zip obj.spec.slots).map fun s ↦
    ⟨s.2.len, s.1.replicas.map fun r ↦ ⟨inner.location r.device r.tier, r.misplaced⟩⟩

def stat (inner : Inner) (st : State) (keys : List Key) : List (Option ObjectInfo) :=
  keys.map fun k ↦ (st.objects.find? k).map (Object.info inner)

/-- The nearest replica, the first of them on a tie. -/
def nearest (inner : Inner) (dstDevice : Device) (replicas : List ReplicaEntry) :
    Option ReplicaEntry :=
  replicas.argmin fun r ↦ toLex (inner.distance dstDevice r.device, tierRank r.tier)

def get (inner : Inner) (mem : UserMemory) (st : State) (key : Key) (op : OpGet) :
    Exec (Result RpGet × UserMemory) :=
  match op.validate with
  | .error e => .ok (.error e, mem)
  | .ok (dstDevice, dstLen) =>
    match st.objects.find? key with
    | none => .ok (.error (noSuchKey key), mem)
    | some obj =>
      let idx := op.slot.toNat
      match obj.spec.slots[idx]? with
      | none => .ok (.error (slotOutOfRange idx), mem)
      | some spec =>
        match (checkedAdd op.srcOffset dstLen).filter fun e ↦ e ≤ spec.len with
        | none =>
          .ok (.error ((((Error.new .invalidInput "read range exceeds slot").withContext
            "src_offset" (.num op.srcOffset)).withContext "len" (.num dstLen)).withContext
            "slot_len" (.num spec.len)), mem)
        | some stop => do
          assert (stop ≤ spec.len)
          let slot ← index obj.slots idx
          match nearest inner dstDevice slot.replicas with
          | none =>
            .ok (.error (((Error.new .evicted "slot has no replica").withContext "key" (.key key)
              ).withContext "slot" (.num idx)), mem)
          | some replica => do
            let len ← replica.data.len
            assert (len = spec.len)
            let bytes ← replica.data.read mem op.srcOffset dstLen
            let mem ← scatter bytes op.dst 0 mem
            .ok (.ok ⟨inner.location replica.device replica.tier⟩, mem)

/-! ### `remove`, `remove_prefix` and regions -/

/-- Remove one key, giving back the bytes of its object. -/
def State.removeKey (st : State) (key : Key) : Exec State :=
  match st.objects.find? key with
  | none => .ok st
  | some obj => { st with objects := st.objects.erase key }.releaseObject obj

def remove (st : State) (keys : List Key) : Exec State := keys.foldlM State.removeKey st

/-- The keys that start with `start`: the block of the index that begins there. -/
def State.keysFrom (st : State) (start : List UInt8) : List Key :=
  ((st.objects.rangeFrom start).takeWhile fun e ↦ start.isPrefixOf e.1).map Prod.fst

def removePrefix (st : State) (start : List UInt8) : Exec (ℕ × State) := do
  let keys := st.keysFrom start
  let st ← remove st keys
  .ok (keys.length, st)

/-- The replica was published from the region. -/
def ReplicaEntry.publishedFrom (regionId : ℕ) (r : ReplicaEntry) : Bool :=
  match r.data with
  | .owned _ => false
  | .external _ id _ => id = regionId

/-- Drop every `External` replica published from a region. -/
def State.retireRegion (st : State) (regionId : ℕ) : State where
  objects := st.objects.mapValues fun obj ↦
    obj.mapSlots fun s ↦ ⟨s.replicas.filter fun r ↦ !r.publishedFrom regionId⟩
  pools := st.pools

/-- `register` refuses GPU memory where the capability is off. -/
def Inner.registerCheck (inner : Inner) (device : Device) : Result Unit :=
  if device.isGpu && !inner.capability.gpuMemory then
    .error (Error.new .unsupported "gpu memory disabled")
  else .ok ()

end Pegastore.Memory
