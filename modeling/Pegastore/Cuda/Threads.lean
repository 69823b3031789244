import Pegastore.Lib.Transition
import Pegastore.Cuda.ZipCopy

/-!
# Concurrent operations of the single-node backend

Any number of operations run at once. A `put` in flight is a `PutThread`: the slot it works on, what
it has reported so far, and a program counter whose points are the places where another operation
can run in between. From one point to the next it does one locked section, one allocation, one copy,
or nothing that another operation could see. `World.exec` is one such step of one operation, and a
run is any interleaving of them.

Buffers are values with one owner. A buffer dropped by a `put` goes back to its pool at once; one
dropped from the metadata goes back unless a `get` in flight still holds a clone of its replica. A
panic of a thread that holds the lock poisons it, and every later section panics in turn. A copy
that succeeds has moved all its bytes when it returns; one that fails may have left anything in its
own target range.

A build without overflow checks rounds a length close to `2 ^ 64` up to nothing, so a buffer can be
shorter than the slot that is copied into it. `Action.Roundable` excludes that.
-/

set_option autoImplicit false
set_option relaxedAutoImplicit false

namespace Pegastore.Local

open Outcome ByteMemory Transition

/-- What the placement loop of a slot has so far: the buffers and the last error. -/
structure Placing where
  placed : List Placed
  err : Option Error

/-- Where a `put` is. -/
inductive Pc
  /-- At the beginning of a slot. -/
  | slot
  /-- About to allocate on the first of the remaining targets. -/
  | place (targets : List (UInt16 × Bool)) (p : Placing)
  /-- About to run an eviction round for a target. -/
  | evict (target : UInt16 × Bool) (rest : List (UInt16 × Bool)) (p : Placing)
  /-- About to allocate again after a round that evicted something or did not. -/
  | retry (target : UInt16 × Bool) (rest : List (UInt16 × Bool)) (p : Placing) (evicted : Bool)
  /-- About to copy into the first buffer that is left. -/
  | copy (filled todo : List Placed)
  /-- About to store. -/
  | store (placed : List Placed)
  /-- About to clear the flag of a slot that failed. -/
  | failed (e : Error)

/-- The buffers a `put` holds. -/
def Pc.placed : Pc → List Placed
  | .slot => []
  | .place _ p | .evict _ _ p | .retry _ _ p _ => p.placed
  | .copy filled todo => filled ++ todo
  | .store placed => placed
  | .failed _ => []

/-- A `put` in flight, after its claim. -/
structure PutThread where
  key : Key
  op : OpPut
  writable : List Bool
  i : ℕ
  results : List (Result Unit)
  pc : Pc

/-- The buffers a `put` holds. -/
def PutThread.bufs (th : PutThread) : List PinnedBuf := th.pc.placed.map Placed.buf

/-- A `get` in flight, with its clone of the replica. -/
structure Reader where
  op : OpGet
  dstLen : ℕ
  replica : ReplicaEntry
  slotLen : ℕ

/-- The pools, by NUMA node. -/
abbrev Pools := UInt16 → Option PinnedPool

/-- Everything the operations share, the operations in flight, and the next identities. -/
structure World where
  state : State
  poisoned : Bool
  pools : Pools
  pinned : UInt16 → ByteSpace
  threads : ℕ → Option PutThread
  readers : List Reader
  nextPut : ℕ
  nextBuf : ℕ

/-- What a step reports to the caller of the operation it belongs to. -/
inductive Reply
  | running
  | panicked (reason : Panic)
  | put (r : Result RpPut)
  | get (r : Result RpGet)
  | count (n : ℕ)
  | unit (r : Result Unit)

/-! ### Dropping buffers -/

/-- Give the range of a buffer back to its pool. -/
def releaseBuf (pools : Pools) (buf : PinnedBuf) : Pools :=
  Function.update pools buf.numa
    ((pools buf.numa).map fun pool ↦ pool.release buf.off buf.reserved)

def releaseBufs (pools : Pools) (bufs : List PinnedBuf) : Pools := bufs.foldl releaseBuf pools

def World.releaseAll (w : World) (bufs : List PinnedBuf) : World :=
  { w with pools := releaseBufs w.pools bufs }

/-- The buffers the metadata and the `get`s in flight hold. -/
def World.held (w : World) : List PinnedBuf :=
  bufsIn w.state.objects ++ bufsOf (w.readers.map Reader.replica)

/-- Let go of buffers: those that nothing else holds go back to their pools. -/
def World.dropArcs (w : World) (bufs : List PinnedBuf) : World :=
  w.releaseAll (bufs.filter fun buf ↦ buf ∉ w.held).dedup

/-! ### Steps of a `put` -/

/-- The thread goes on. -/
def World.setThread (w : World) (t : ℕ) (th : PutThread) : World :=
  { w with threads := Function.update w.threads t (some th) }

/-- The thread ends. -/
def World.endThread (w : World) (t : ℕ) : World :=
  { w with threads := Function.update w.threads t none }

/-- The thread goes on at another point of the same slot. -/
def World.goto (w : World) (t : ℕ) (th : PutThread) (pc : Pc) : World × Reply :=
  (w.setThread t { th with pc := pc }, .running)

/-- The thread after it reported a slot, at the next one. -/
def PutThread.reported (th : PutThread) (r : Result Unit) : PutThread :=
  { th with i := th.i + 1, results := th.results ++ [r], pc := .slot }

/-- The thread reports a slot and goes on with the next one. -/
def World.report (w : World) (t : ℕ) (th : PutThread) (r : Result Unit) : World × Reply :=
  (w.setThread t (th.reported r), .running)

/-- The slot fails after the thread has dropped its buffers. -/
def World.fail (w : World) (t : ℕ) (th : PutThread) (e : Error) : World × Reply :=
  (w.releaseAll th.bufs).goto t th (.failed e)

/-- The thread unwinds and drops its buffers. -/
def World.unwind (w : World) (t : ℕ) (th : PutThread) (reason : Panic) : World × Reply :=
  ((w.releaseAll th.bufs).endThread t, .panicked reason)

/-- The thread unwinds while it holds the lock. -/
def World.poison (w : World) (t : ℕ) (th : PutThread) (reason : Panic) : World × Reply :=
  { w with poisoned := true }.unwind t th reason

/-- A section of the thread: the lock is poisoned, the section panics, or it returns. -/
def World.locked {α : Type} (w : World) (t : ℕ) (th : PutThread) (sec : Exec α)
    (next : α → World × Reply) : World × Reply :=
  if w.poisoned then w.unwind t th .unwrapNone
  else
    match sec with
    | .error reason => w.poison t th reason
    | .ok a => next a

/-- The placement loop goes on after a buffer was taken. -/
def Placing.took (p : Placing) (each : Bool) (rest : List (UInt16 × Bool)) (x : Placed) : Pc :=
  .place (if each then rest else []) { p with placed := p.placed ++ [x] }

/-- The placement loop goes on after a target failed. -/
def Placing.missed (p : Placing) (each : Bool) (rest : List (UInt16 × Bool)) (e : Error) : Pc :=
  .place (if each then [] else rest) { p with err := some e }

/-- What an allocation on a target returned: the thread unwinds, goes on at `full`, or takes the
buffer. -/
def World.takeBuf (w : World) (t : ℕ) (th : PutThread) (each : Bool) (target : UInt16 × Bool)
    (rest : List (UInt16 × Bool)) (p : Placing) (full : Pc) :
    Exec (Option (PinnedBuf × PinnedPool)) → World × Reply
  | .error reason => w.unwind t th reason
  | .ok none => w.goto t th full
  | .ok (some (buf, after)) =>
    { w with
      pools := Function.update w.pools target.1 (some after)
      nextBuf := w.nextBuf + 1 }.goto t th (p.took each rest ⟨target.1, target.2, buf⟩)

/-- Allocate on a target; `full` is where the thread goes when the pool has no range for it. -/
def World.tryAlloc (inner : Inner) (w : World) (t : ℕ) (th : PutThread) (ps : PutSlot)
    (target : UInt16 × Bool) (rest : List (UInt16 × Bool)) (p : Placing) (full : PinnedPool → Pc) :
    World × Reply :=
  match w.pools target.1 with
  | none => w.goto t th (p.missed (isEach ps.spec.placement) rest (noPool (.cpu target.1)))
  | some pool =>
    w.takeBuf t th (isEach ps.spec.placement) target rest p (full pool)
      (pool.alloc inner.checks w.nextBuf ps.spec.len)

/-- The beginning of a slot. -/
def World.beginSlot (inner : Inner) (w : World) (t : ℕ) (th : PutThread) (ps : PutSlot) :
    World × Reply :=
  match th.writable[th.i]? with
  | none => w.unwind t th .indexOutOfBounds
  | some false => w.report t th (.error (slotWritten th.i))
  | some true =>
    match inner.targets ps.spec.placement with
    | .error e => w.fail t th e
    | .ok targets => w.goto t th (.place targets ⟨[], none⟩)

/-- The end of the placement loop. -/
def World.endPlacing (w : World) (t : ℕ) (th : PutThread) (ps : PutSlot) (p : Placing) :
    World × Reply :=
  if p.placed.isEmpty || (isEach ps.spec.placement && p.err.isSome) then
    w.fail t th (p.err.getD (Error.new .noSpace "no device available"))
  else w.goto t th (.copy [] p.placed)

/-- An eviction round. -/
def World.evict (w : World) (t : ℕ) (th : PutThread) (target : UInt16 × Bool)
    (rest : List (UInt16 × Bool)) (p : Placing) : World × Reply :=
  w.locked t th (w.state.evictRound (.cpu target.1) th.key) fun r ↦
    ({ w with state := r.2.2 }.dropArcs r.2.1).goto t th (.retry target rest p r.1)

/-- How a copy ends: with all bytes moved, or with an error and some bytes in the target. -/
inductive CopyOutcome
  | done
  | failed (e : Error) (moved : List UInt8)

/-- Bytes arrive at the beginning of a buffer, at most as many as it was asked for. -/
def World.fill (w : World) (buf : PinnedBuf) (bytes : List UInt8) : World :=
  { w with
    pinned := Function.update w.pinned buf.numa
      (write (w.pinned buf.numa) buf.off (bytes.take buf.len)) }

/-- The copy into the next buffer. -/
def World.copyIn (mem : ByteSpace) (w : World) (t : ℕ) (th : PutThread) (ps : PutSlot)
    (filled : List Placed) (x : Placed) (todo : List Placed) : CopyOutcome → World × Reply
  | .done =>
    (w.fill x.buf (readAll mem (segsOf ps.src))).goto t th (.copy (filled ++ [x]) todo)
  | .failed e moved => (w.fill x.buf moved).fail t th e

/-- The store section. -/
def World.store (w : World) (t : ℕ) (th : PutThread) (placed : List Placed) : World × Reply :=
  w.locked t th (w.state.store th.key th.i placed) fun r ↦
    match r with
    | .error e => w.fail t th e
    | .ok st => { w with state := st }.report t th (.ok ())

/-- The failure section. -/
def World.unclaim (w : World) (t : ℕ) (th : PutThread) (e : Error) : World × Reply :=
  w.locked t th (w.state.unclaim th.key th.i) fun st ↦
    { w with state := st }.report t th (.error (e.withContext "slot" (.num th.i)))

/-- One step of a `put` on the slot it works on. -/
def World.advanceSlot (inner : Inner) (mem : ByteSpace) (w : World) (t : ℕ) (th : PutThread)
    (ps : PutSlot) (outcome : CopyOutcome) : World × Reply :=
  match th.pc with
  | .slot => w.beginSlot inner t th ps
  | .place [] p => w.endPlacing t th ps p
  | .place (target :: rest) p =>
    w.tryAlloc inner t th ps target rest p fun pool ↦
      if ps.spec.len > pool.len then
        p.missed (isEach ps.spec.placement) rest (noSpace target.1 ps.spec.len)
      else .evict target rest p
  | .evict target rest p => w.evict t th target rest p
  | .retry target rest p evicted =>
    w.tryAlloc inner t th ps target rest p fun _ ↦
      if evicted then .evict target rest p
      else p.missed (isEach ps.spec.placement) rest (noSpace target.1 ps.spec.len)
  | .copy filled [] => w.goto t th (.store filled)
  | .copy filled (x :: todo) => w.copyIn mem t th ps filled x todo outcome
  | .store placed => w.store t th placed
  | .failed e => w.unclaim t th e

/-- One step of a `put`; after its last slot it returns. -/
def World.advance (inner : Inner) (mem : ByteSpace) (w : World) (t : ℕ) (th : PutThread)
    (outcome : CopyOutcome) : World × Reply :=
  match th.op.slots[th.i]? with
  | none => (w.endThread t, .put (.ok ⟨th.results⟩))
  | some ps => w.advanceSlot inner mem t th ps outcome

/-! ### Operations and runs -/

/-- A section of an operation that is not a `put` in flight. -/
def World.section {α : Type} (w : World) (sec : Exec α) (next : α → World × Reply) :
    World × Reply :=
  if w.poisoned then (w, .panicked .unwrapNone)
  else
    match sec with
    | .error reason => ({ w with poisoned := true }, .panicked reason)
    | .ok a => next a

theorem World.section_ok {α : Type} {w : World} (h : w.poisoned = false) (a : α)
    (next : α → World × Reply) : w.section (.ok a) next = next a :=
  if_neg (by rw [h]; exact Bool.false_ne_true)

/-- The beginning of a `put`: validation and the claim section. -/
def World.beginPut (w : World) (key : Key) (op : OpPut) : World × Reply :=
  match op.validate with
  | .error e => (w, .put (.error e))
  | .ok _ =>
    w.section (.ok (w.state.claim key op.spec)) fun r ↦
      match r with
      | .error e => (w, .put (.error e))
      | .ok (writable, st) =>
        ({ w with state := st, nextPut := w.nextPut + 1 }.setThread w.nextPut
          ⟨key, op, writable, 0, [], .slot⟩, .running)

def World.publish (w : World) (key : Key) (op : OpPublish) : World × Reply :=
  match op.validate with
  | .error e => (w, .unit (.error e))
  | .ok (device, total) =>
    w.section (w.state.publish key op device total) fun r ↦
      match r with
      | .error e => (w, .unit (.error e))
      | .ok st => ({ w with state := st }, .unit (.ok ()))

/-- The section of `remove` and `remove_prefix`: drop the objects of some keys. -/
def World.removeKeys (w : World) (keys : List Key) (reply : Reply) : World × Reply :=
  w.section (.ok (Local.removeKeys keys w.state.objects)) fun r ↦
    ({ w with state := { w.state with objects := r.2 } }.dropArcs r.1, reply)

def World.remove (w : World) (keys : List Key) : World × Reply := w.removeKeys keys (.unit (.ok ()))

def World.removePrefix (w : World) (start : List UInt8) : World × Reply :=
  w.removeKeys (w.state.keysFrom start) (.count (w.state.keysFrom start).length)

/-- The drop of a region. -/
def World.retireRegion (w : World) (regionId : ℕ) : World × Reply :=
  w.section (.ok (w.state.retireRegion regionId)) fun st ↦
    ({ w with state := st }, .unit (.ok ()))

/-- The beginning of a `get`: validation and the selection of a replica. -/
def World.beginGet (inner : Inner) (w : World) (key : Key) (op : OpGet) : World × Reply :=
  match op.validate with
  | .error e => (w, .get (.error e))
  | .ok (dstDevice, dstLen) =>
    w.section (w.state.select inner key op.slot.toNat dstDevice) fun r ↦
      match r with
      | .error e => (w, .get (.error e))
      | .ok (replica, slotLen) =>
        ({ w with readers := w.readers ++ [⟨op, dstLen, replica, slotLen⟩] }, .running)

/-- The bytes of a replica. -/
def World.content (w : World) (mem : ByteSpace) (data : ReplicaData) : List UInt8 :=
  match data with
  | .pinned buf => read (w.pinned buf.numa) ⟨buf.off, buf.len⟩
  | .external segs _ _ => readAll mem segs

/-- The segments of a replica: offsets into its pool, or addresses of user memory. -/
def ReplicaData.segs : ReplicaData → List Segment
  | .pinned buf => [⟨buf.off, buf.len⟩]
  | .external segs _ _ => segs

/-- The memory the segments of a replica are in, when user memory is `mem`. -/
def World.viewOf (w : World) (data : ReplicaData) (mem : ByteSpace) : ByteSpace :=
  match data with
  | .pinned buf => w.pinned buf.numa
  | .external _ _ _ => mem

/-- The copy out of a replica, when the engines do not fail. -/
def World.copy (w : World) (data : ReplicaData) (srcOffset : ℕ) (dst : List Segment) (total : ℕ)
    (mem : ByteSpace) : ByteSpace × Result Unit :=
  zipCopy (movePiece (w.viewOf data)) data.segs srcOffset dst total mem

def readRangeExceeds (op : OpGet) (dstLen slotLen : ℕ) : Error :=
  (((Error.new .invalidInput "read range exceeds slot").withContext
    "src_offset" (.num op.srcOffset)).withContext "len" (.num dstLen)).withContext
    "slot_len" (.num slotLen)

/-- What a `get` copies to its destination and what it returns. -/
def World.copyOut (inner : Inner) (mem : ByteSpace) (w : World) (rd : Reader)
    (outcome : CopyOutcome) : ByteSpace × Result RpGet :=
  match (checkedAdd rd.op.srcOffset rd.dstLen).filter fun e ↦ e ≤ rd.slotLen with
  | none => (mem, .error (readRangeExceeds rd.op rd.dstLen rd.slotLen))
  | some _ =>
    match outcome with
    | .failed e moved => (writeAll mem (segsOf rd.op.dst) (moved.take rd.dstLen), .error e)
    | .done =>
      match w.copy rd.replica.data rd.op.srcOffset (segsOf rd.op.dst) rd.dstLen mem with
      | (mem, .error e) => (mem, .error e)
      | (mem, .ok _) => (mem, .ok ⟨⟨inner.node, rd.replica.device, rd.replica.tier⟩⟩)

/-- The end of a `get`: the copy, and its clone of the replica is dropped. -/
def World.finishGet (inner : Inner) (mem : ByteSpace) (w : World) (k : ℕ) (rd : Reader)
    (outcome : CopyOutcome) : World × ByteSpace × Reply :=
  let r := w.copyOut inner mem rd outcome
  ({ w with readers := w.readers.eraseIdx k }.dropArcs (bufsOf [rd.replica]), r.1, .get r.2)

/-- What can happen: an operation begins or goes on, or user code writes its memory. -/
inductive Action
  | beginPut (key : Key) (op : OpPut)
  | advance (t : ℕ) (outcome : CopyOutcome)
  | publish (key : Key) (op : OpPublish)
  | remove (keys : List Key)
  | removePrefix (start : List UInt8)
  | retireRegion (regionId : ℕ)
  | beginGet (key : Key) (op : OpGet)
  | finishGet (k : ℕ) (outcome : CopyOutcome)
  | userWrite (addr : ℕ) (bytes : List UInt8)

/-- The length of every slot a `put` asks for can be rounded up. -/
def Action.Roundable : Action → Prop
  | .beginPut _ op => ∀ ps ∈ op.slots, ps.spec.len + ALIGN ≤ 2 ^ 64
  | _ => True

/-- An outcome that leaves user memory as it is. -/
def keepMem (mem : ByteSpace) (r : World × Reply) : World × ByteSpace × Reply := (r.1, mem, r.2)

/-- One action. -/
def World.exec (inner : Inner) (mem : ByteSpace) (w : World) :
    Action → Option (World × ByteSpace × Reply)
  | .beginPut key op => some (keepMem mem (w.beginPut key op))
  | .advance t outcome =>
    (w.threads t).map fun th ↦ keepMem mem (w.advance inner mem t th outcome)
  | .publish key op => some (keepMem mem (w.publish key op))
  | .remove keys => some (keepMem mem (w.remove keys))
  | .removePrefix start => some (keepMem mem (w.removePrefix start))
  | .retireRegion regionId => some (keepMem mem (w.retireRegion regionId))
  | .beginGet key op => some (keepMem mem (w.beginGet inner key op))
  | .finishGet k outcome => (w.readers[k]?).map fun rd ↦ w.finishGet inner mem k rd outcome
  | .userWrite addr bytes => some (w, write mem addr bytes, .running)

/-- Nothing has happened yet: every pool is one free range, of `bytes` rounded up. -/
def World.initial (inner : Inner) (bytes : UInt16 → ℕ) : World where
  state := ⟨SortedMap.empty, fun d ↦
    match d with
    | .cpu numa => if numa ∈ inner.poolOrder then some [] else none
    | .gpu index => if index ∈ inner.gpus then some [] else none⟩
  poisoned := false
  pools := fun numa ↦
    if numa ∈ inner.poolOrder then some (PinnedPool.new numa (bytes numa)) else none
  pinned := fun _ _ ↦ 0
  threads := fun _ ↦ none
  readers := []
  nextPut := 0
  nextBuf := 0

end Pegastore.Local
