import Pegastore.Lib.Outcome
import Pegastore.Lib.SortedMap
import Pegastore.Lib.Transition

/-!
# One RC session

`rc_backend/session.rs`: the worker of a session takes batches of RDMA operations one after the
other and runs `execute_batch` on each. `Batch` holds the local variables of that function, and the
functions on it are the pieces between two calls into the verbs library: posting a chain, polling
the completion queue, handling one completion, and the loop conditions.

`World` puts the worker next to the queue pair. A work request that was posted is outstanding until
the NIC completes it, in any order and with any status; its completion then waits in the completion
queue until the worker polls it. Every request carries the batch and the position of the operation
it was posted for. These two numbers exist only in the model: the source sees the `wr_id` alone.
-/

set_option autoImplicit false
set_option relaxedAutoImplicit false

namespace Pegastore.Rdma

open Outcome Transition

inductive TransferOp
  | read
  | write
deriving DecidableEq, Repr

inductive TransferError
  | invalidArgument (message : String)
  | memoryNotRegistered (ptr : ℕ)
  | deviceNotFound (message : String)
  | addressResolution (message : String)
  | backend (message : String)
  | unimplemented (message : String)
deriving DecidableEq, Repr

abbrev TransferResult (α : Type) := Except TransferError α

def maxWrChainOps : ℕ := 4

def maxSendWr : ℕ := 128

/-- One transfer, resolved to a local key and a remote key. -/
structure RdmaOp where
  lkey : ℕ
  localPtr : ℕ
  remotePtr : ℕ
  len : ℕ
  remoteRkey : ℕ
deriving DecidableEq, Repr

/-- What is handed to the NIC. -/
structure WorkRequest where
  wrId : ℕ
  kind : TransferOp
  remoteRkey : ℕ
  remotePtr : ℕ
  lkey : ℕ
  localPtr : ℕ
  len : ℕ
deriving DecidableEq, Repr

/-- What the NIC reports about a request. -/
structure WorkCompletion where
  wrId : ℕ
  status : ℕ
  opcode : ℕ
  vendorErr : ℕ
deriving DecidableEq, Repr

/-- `WorkCompletionStatus::Success`. -/
def statusSuccess : ℕ := 0

/-! ### Posting -/

/-- The outcome of `PostSendGuard::post`: the chain is accepted, or the call fails after the first
`count` requests of it were accepted. -/
inductive PostOutcome
  | accepted
  | rejected (count : ℕ) (message : String)

/-- The request for an operation; its length is truncated to 32 bits. -/
def workRequest (kind : TransferOp) (wrId : ℕ) (op : RdmaOp) : WorkRequest :=
  ⟨wrId, kind, op.remoteRkey, op.remotePtr, op.lkey, op.localPtr, op.len % 2 ^ 32⟩

/-- The loop of `post_rdma_wr_chain` that builds the requests, from position `idx` on. -/
def constructChain (kind : TransferOp) (firstWrId : ℕ) :
    ℕ → List RdmaOp → TransferResult (List WorkRequest)
  | _, [] => .ok []
  | idx, op :: rest =>
    if op.len > 2 ^ 32 - 1 then
      .error (.invalidArgument "len exceeds RDMA SGE length limit")
    else do
      let chain ← constructChain kind firstWrId (idx + 1) rest
      .ok (workRequest kind ((firstWrId + idx) % 2 ^ 64) op :: chain)

/-- Post a chain of operations: the requests the NIC accepted, and what the call returns. -/
def postRdmaWrChain (ops : List RdmaOp) (firstWrId : ℕ) (kind : TransferOp)
    (outcome : PostOutcome) : List WorkRequest × TransferResult ℕ :=
  if ops.isEmpty then ([], .ok 0)
  else
    match constructChain kind firstWrId 0 ops with
    | .error e => ([], .error e)
    | .ok chain =>
      match outcome with
      | .accepted => (chain, .ok ops.length)
      | .rejected count message => (chain.take count, .error (.backend message))

/-! ### `execute_batch` -/

/-- Where `execute_batch` is: in the loop that posts, about to poll, or in the loop over the
completions of one poll. -/
inductive Phase
  | filling
  | polling
  | draining
deriving DecidableEq, Repr

/-- The local variables of `execute_batch`. -/
structure Batch where
  ops : List RdmaOp
  kind : TransferOp
  nextIdx : ℕ
  nextWrId : ℕ
  inflight : SortedMap ℕ ℕ
  transferred : ℕ
  phase : Phase

/-- A batch is running or has returned. -/
inductive Status
  | running (b : Batch)
  | returned (r : TransferResult ℕ)

/-- The condition of the posting loop. -/
def Batch.canPost (b : Batch) : Bool :=
  b.nextIdx < b.ops.length && b.inflight.entries.length < maxSendWr

/-- The test of the posting loop. -/
def Batch.innerLoop (b : Batch) : Batch :=
  { b with phase := if b.canPost then .filling else .polling }

/-- The test of the outer loop. -/
def Batch.outerLoop (b : Batch) : Status :=
  if b.nextIdx < b.ops.length || !b.inflight.entries.isEmpty then .running b.innerLoop
  else .returned (.ok b.transferred)

/-- Record a posted chain in the inflight map. -/
def trackChain : List RdmaOp → SortedMap ℕ ℕ → ℕ → SortedMap ℕ ℕ × ℕ
  | [], inflight, nextWrId => (inflight, nextWrId)
  | op :: rest, inflight, nextWrId =>
    trackChain rest (inflight.insert nextWrId op.len) ((nextWrId + 1) % 2 ^ 64)

/-- The operations of the next chain. -/
def Batch.nextChain (b : Batch) : List RdmaOp :=
  let available := maxSendWr - b.inflight.entries.length
  let remaining := b.ops.length - b.nextIdx
  (b.ops.drop b.nextIdx).take (min (min maxWrChainOps available) remaining)

/-- One round of the posting loop. -/
def Batch.fill (b : Batch) (outcome : PostOutcome) : List WorkRequest × Status :=
  match postRdmaWrChain b.nextChain b.nextWrId b.kind outcome with
  | (accepted, .error e) => (accepted, .returned (.error e))
  | (accepted, .ok posted) =>
    if posted = 0 then (accepted, .running { b with phase := .polling })
    else
      let tracked := trackChain (b.nextChain.take posted) b.inflight b.nextWrId
      (accepted, .running { b with
        inflight := tracked.1
        nextWrId := tracked.2
        nextIdx := b.nextIdx + posted }.innerLoop)

/-- The outcome of `start_poll`. -/
inductive PollOutcome
  | ready
  | empty
  | failed (message : String)

def Batch.startPoll (qpn : ℕ) (b : Batch) : PollOutcome → Status
  | .ready => .running { b with phase := .draining }
  | .empty => b.outerLoop
  | .failed message =>
    .returned (.error (.backend s!"poll send CQ failed: local_qpn={qpn}, {message}"))

def completionFailed (qpn status opcode vendorErr : ℕ) : TransferError :=
  .backend (s!"send completion failed: local_qpn={qpn}, status={status}, " ++
    s!"opcode={opcode}, vendor_err={vendorErr}")

/-- `usize::saturating_add`. -/
def saturatingAdd (a b : ℕ) : ℕ := min (a + b) (2 ^ 64 - 1)

/-- The body of the loop over completions. -/
def Batch.handle (qpn : ℕ) (b : Batch) (wc : WorkCompletion) : Status :=
  match b.inflight.find? wc.wrId with
  | none => .running b
  | some bytes =>
    if wc.status ≠ statusSuccess then
      .returned (.error (completionFailed qpn wc.status wc.opcode wc.vendorErr))
    else .running { b with
      inflight := b.inflight.erase wc.wrId
      transferred := saturatingAdd b.transferred bytes }

/-- The beginning of `execute_batch`. -/
def executeBatch (ops : List RdmaOp) (kind : TransferOp) : Status :=
  if ops.length = 0 then .returned (.ok 0)
  else Batch.outerLoop ⟨ops, kind, 0, 1, SortedMap.empty, 0, .filling⟩

/-! ### The session -/

/-- A work request with the batch and the position of the operation it was posted for. -/
structure Posted where
  batch : ℕ
  idx : ℕ
  wr : WorkRequest
deriving DecidableEq, Repr

/-- The worker and the queue pair. `started` counts the batches so far, and `succeeded` records
every request that the NIC completed with success. -/
structure World where
  outstanding : List Posted
  cq : List (Posted × WorkCompletion)
  current : Option Batch
  started : ℕ
  succeeded : List Posted

/-- What can happen: the worker takes a batch, posts, polls, takes a completion or finds no more, or
the NIC completes the outstanding request at position `k`. A batch is a vector, so it has at most
`isize::MAX` operations. -/
inductive Action
  | start (ops : List RdmaOp) (kind : TransferOp) (fits : ops.length ≤ isizeMax)
  | post (outcome : PostOutcome)
  | poll (outcome : PollOutcome)
  | consume
  | pollEnd
  | complete (k status opcode vendorErr : ℕ)

/-- The worker goes on, or the batch returns. -/
def World.settle (w : World) : Status → World × Option (TransferResult ℕ)
  | .running b => ({ w with current := some b }, none)
  | .returned r => ({ w with current := none }, some r)

/-- The running batch, if it is in the given phase. -/
def World.batchIn (w : World) (phase : Phase) : Option Batch :=
  w.current.filter fun b ↦ b.phase = phase

/-- The requests a batch posts, with their positions in it. -/
def World.post (w : World) (b : Batch) (accepted : List WorkRequest) : World :=
  { w with outstanding := w.outstanding ++
      accepted.zipIdx.map fun a ↦ ⟨w.started, b.nextIdx + a.2, a.1⟩ }

/-- One action, with the result of the batch when the action ends it. -/
def World.exec (qpn : ℕ) (w : World) : Action → Option (World × Option (TransferResult ℕ))
  | .start ops kind _ =>
    if w.current.isSome then none
    else some ({ w with started := w.started + 1 }.settle (executeBatch ops kind))
  | .post outcome => do
    let b ← w.batchIn .filling
    let (accepted, status) := b.fill outcome
    some ((w.post b accepted).settle status)
  | .poll outcome => do
    let b ← w.batchIn .polling
    some (w.settle (b.startPoll qpn outcome))
  | .consume => do
    let b ← w.batchIn .draining
    match w.cq with
    | [] => none
    | (_, wc) :: rest => some ({ w with cq := rest }.settle (b.handle qpn wc))
  | .pollEnd => do
    let b ← w.batchIn .draining
    some (w.settle b.outerLoop)
  | .complete k status opcode vendorErr => do
    let p ← w.outstanding[k]?
    some ({ w with
      outstanding := w.outstanding.eraseIdx k
      cq := w.cq ++ [(p, ⟨p.wr.wrId, status, opcode, vendorErr⟩)]
      succeeded := if status = statusSuccess then w.succeeded ++ [p] else w.succeeded }, none)

/-- An action with the result of the batch it ends. -/
structure Event where
  action : Action
  returned : Option (TransferResult ℕ)

/-- A session with local queue pair number `qpn`. -/
def session (qpn : ℕ) : System World Event where
  start := ⟨[], [], none, 0, []⟩
  step := fun w e w' ↦ w.exec qpn e.action = some (w', e.returned)

/-- The operations of the batch that an action starts or continues. -/
def World.opsOf (w : World) : Action → List RdmaOp
  | .start ops _ _ => ops
  | _ => (w.current.map Batch.ops).getD []

/-- An action that is possible, as an event. -/
def act (qpn : ℕ) (w : World) (action : Action) : Option (Event × World) :=
  (w.exec qpn action).map fun r ↦ (⟨action, r.2⟩, r.1)

theorem step_of_act {qpn : ℕ} {w w' : World} {action : Action} {e : Event}
    (h : act qpn w action = some (e, w')) : (session qpn).step w e w' := by
  obtain ⟨r, hr, heq⟩ := Option.map_eq_some_iff.mp h
  cases heq
  exact hr

end Pegastore.Rdma
