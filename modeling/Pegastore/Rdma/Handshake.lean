import Pegastore.Rdma.Backend

/-!
# The handshake

`get_or_prepare`, `complete_handshake_for`, `abort_handshake` and `invalidate_connection`, cut where
they take or leave the lock of the backend. `RcBackend.exec` is one such piece, of one of any number
of clients. Between the pieces other clients run, so a handshake has a `HandshakePhase` that says
where it is. Creating a queue pair and connecting one are pieces of their own, and each may fail.

A queue pair lives as long as something refers to its session: a queue, a connection, or the
function that creates or connects it. The device may give a new queue pair every number that no
living queue pair of the NIC has (`Engine.live`).

A client that was given metadata completes with it or aborts, and aborts if completing fails. The
sessions of a handshake, which metadata was given out, which sessions were connected to which
endpoints and which completions succeeded are recorded only in the model.
-/

set_option autoImplicit false
set_option relaxedAutoImplicit false

namespace Pegastore.Rdma

open Outcome Transition Buckets

def RcSession.qpNum (session : RcSession) : ℕ := session.localEndpoint.qpNum

/-- Where a handshake is. -/
inductive HandshakePhase
  /-- `prepare_handshake` creates the queue pair `qpIdx` of the NIC `nicIdx` next. -/
  | creating (nicIdx qpIdx : ℕ)
  /-- Creation failed, and `get_or_prepare` has to remove the address. -/
  | unprepared (error : TransferError)
  /-- The client has the metadata. -/
  | prepared
  /-- `complete_handshake_for` has popped the sessions `pending` and has to connect `todo`. -/
  | connecting (remote : List NicHandshake) (pending : List (List RcSession))
    (todo : List ((ℕ × ℕ) × RcSession))
  /-- `complete_handshake_for` failed, with the first `popped` sessions popped and dropped. -/
  | failed (error : TransferError) (popped : ℕ)

/-- A handshake, with the sessions that its `prepare_handshake` created. -/
structure Handshake where
  addr : String
  sessions : List (List RcSession)
  phase : HandshakePhase

/-- A completion that returned `Ok`. -/
structure Completion where
  handshake : ℕ
  remoteNics : List NicHandshake
deriving DecidableEq

/-- The backend with its handshakes under way and the records of the model: the metadata that each
handshake gave out, the successful connects, and for every address the last successful completion
since its connection was invalidated. -/
structure Engine where
  state : RcBackendState
  psnCounter : ℕ
  handshakes : FinMap ℕ Handshake
  issued : ℕ
  sent : FinMap ℕ (List NicHandshake)
  connects : List (RcSession × RcEndpoint)
  completions : FinMap String Completion

/-- What a client does next in its handshake. -/
inductive HandshakeMove
  /-- The device creates a queue pair with a number. -/
  | create (qpNum : ℕ)
  | createFails (message : String)
  /-- The locked section of `prepare_handshake`. -/
  | push
  /-- The error path of `get_or_prepare`. -/
  | unprepare
  /-- `complete_handshake_for` up to the end of its first locked section. -/
  | complete (remote : List NicHandshake)
  /-- The next `connect`, with what the device answers. -/
  | connect (modified : TransferResult Unit)
  /-- The second locked section of `complete_handshake_for`. -/
  | insert
  | abort

/-- What can happen to a backend. -/
inductive HandshakeAction
  | prepare (addr : String)
  | client (id : ℕ) (move : HandshakeMove)
  | invalidate (addr : String)

/-! ### Sessions -/

def psnMask : ℕ := 0x00ffffff

/-- `RcSession::create`, for a queue pair that the device numbered `qpNum`. -/
def RcSession.create (runtime : RcRuntime) (psnSeed qpNum handshake nic position : ℕ) :
    RcSession where
  handshake := handshake
  nic := nic
  position := position
  localEndpoint := ⟨runtime.localGid, runtime.localLid, qpNum, psnSeed % 2 ^ 32 &&& psnMask⟩

/-- `RcSession::connect`; `modified` is what changing the state of the queue pair returns. -/
def RcSession.connect (runtime : RcRuntime) (remote : RcEndpoint) (modified : TransferResult Unit) :
    TransferResult Unit :=
  match runtime.linkLayer with
  | .infiniBand =>
    if remote.lid = 0 then .error (.invalidArgument "remote LID is zero for InfiniBand connection")
    else modified
  | .ethernet => modified
  | .unspecified => .error (.backend "unsupported link layer for RC connection: Unspecified")

/-- `remove_pending_by_qpn`. -/
def PerNicState.removePendingByQpn (pending : PerNicState) (qpn : ℕ) :
    Option RcSession × PerNicState :=
  match pending.findIdx? fun session ↦ session.qpNum = qpn with
  | some pos => (pending[pos]?, pending.eraseIdx pos)
  | none => (none, pending)

/-- `state.nics[nic_idx].remove_pending_by_qpn(qpn)`. -/
def removeAt (nics : List PerNicState) (nicIdx qpn : ℕ) :
    Exec (Option RcSession × List PerNicState) := do
  let pending ← index nics nicIdx
  let (removed, rest) := PerNicState.removePendingByQpn pending qpn
  return (removed, nics.set nicIdx rest)

/-- The loop that removes what is there. -/
def removeAll : List (ℕ × ℕ) → List PerNicState → Exec (List PerNicState)
  | [], nics => .ok nics
  | (nicIdx, qpn) :: rest, nics => do
    let (_, nics) ← removeAt nics nicIdx qpn
    removeAll rest nics

/-- The loop that pops the sessions: all of them, or how many are left at the first that is not
there. -/
def popAll : List (ℕ × ℕ) → List PerNicState → List (List RcSession) →
    Exec (List PerNicState × Except ℕ (List (List RcSession)))
  | [], nics, sessions => .ok (nics, .ok sessions)
  | (nicIdx, qpn) :: rest, nics, sessions => do
    match ← removeAt nics nicIdx qpn with
    | (some session, nics) =>
      let sessions ← pushAt sessions nicIdx session
      popAll rest nics sessions
    | (none, nics) => .ok (nics, .error (rest.length + 1))

/-- The numbers that metadata names, with their NICs. -/
def qpSlots (nics : List NicHandshake) : List (ℕ × ℕ) :=
  slots (nics.map fun nic ↦ nic.endpoints.map RcEndpoint.qpNum)

/-- `num_qps`. The sessions are objects in memory, so their number does not overflow. -/
def RcBackendState.numQps (state : RcBackendState) : ℕ :=
  ((state.addrConnections.entries.flatMap fun conn ↦ conn.2.nics).map
    fun nic ↦ nic.sessions.length).sum

/-- `local_meta_for_addr`. -/
def RcBackendState.localMetaForAddr (state : RcBackendState) (addr : String) :
    Option (List NicHandshake) :=
  (state.addrConnections.find? addr).map AddrConnection.localNics

/-! ### Handshakes -/

namespace Handshake

/-- The metadata of the sessions. -/
def localNics (h : Handshake) : List NicHandshake :=
  h.sessions.map fun sessions ↦ ⟨sessions.map RcSession.localEndpoint⟩

/-- The sessions on a NIC. -/
def sessionsOn (h : Handshake) (nic : ℕ) : List RcSession := h.sessions[nic]?.getD []

/-- The sessions that were pushed and that the handshake has not popped, with their NICs. -/
def unpopped (h : Handshake) : List (ℕ × RcSession) :=
  match h.phase with
  | .prepared => slots h.sessions
  | .failed _ popped => (slots h.sessions).drop popped
  | _ => []

/-- The sessions on a NIC that the running function refers to. -/
def heldOn (h : Handshake) (nic : ℕ) : List RcSession :=
  match h.phase with
  | .creating _ _ => h.sessionsOn nic
  | .connecting _ pending _ => pending[nic]?.getD []
  | _ => []

end Handshake

namespace Engine

/-- The numbers of the living queue pairs on a NIC. -/
def live (e : Engine) (nic : ℕ) : List ℕ :=
  (e.state.nics[nic]?.getD [] ++
    (e.state.addrConnections.entries.flatMap fun conn ↦
      (conn.2.nics[nic]?.elim [] ConnNic.sessions)) ++
    e.handshakes.entries.flatMap fun h ↦ h.2.heldOn nic).map RcSession.qpNum

/-- The handshake goes on. -/
def goOn (e : Engine) (id : ℕ) (h : Handshake) (phase : HandshakePhase) : Engine :=
  { e with handshakes := e.handshakes.insert id { h with phase := phase } }

end Engine

namespace RcBackend

variable (backend : RcBackend)

/-- The first locked section of `get_or_prepare`. -/
def getOrPrepare (e : Engine) (addr : String) : Engine :=
  if (e.state.addrConnections.find? addr).isSome then e
  else if addr ∈ e.state.connecting then e
  else
    { e with
      state := { e.state with connecting := addr :: e.state.connecting }
      handshakes := e.handshakes.insert e.issued
        ⟨addr, List.replicate backend.nicCount [], .creating 0 0⟩
      issued := e.issued + 1 }

/-- The loop counters after the queue pair `qpIdx` of the NIC `nicIdx`. -/
def afterQp (nicIdx qpIdx : ℕ) : HandshakePhase :=
  if qpIdx + 1 < backend.qpsPerPeer then .creating nicIdx (qpIdx + 1) else .creating (nicIdx + 1) 0

/-- A queue pair is created. -/
def createQp (e : Engine) (id : ℕ) (h : Handshake) (runtime : RcRuntime) (nicIdx qpIdx qpNum : ℕ) :
    Exec Engine := do
  let session := RcSession.create runtime e.psnCounter qpNum id nicIdx qpIdx
  let sessions ← pushAt h.sessions nicIdx session
  let next := e.goOn id { h with sessions := sessions } (backend.afterQp nicIdx qpIdx)
  return { next with psnCounter := (e.psnCounter + 1) % 2 ^ 64 }

/-- A queue pair cannot be created: the sessions that were are dropped. -/
def createQpFails (e : Engine) (id : ℕ) (h : Handshake) (runtime : RcRuntime) (qpIdx : ℕ)
    (message : String) : Engine :=
  let error := TransferError.backend
    ("QP creation failed on nic=" ++ runtime.nicName ++ s!" qp_idx={qpIdx}: " ++ message)
  let next := e.goOn id { h with sessions := [] } (.unprepared error)
  { next with psnCounter := (e.psnCounter + 1) % 2 ^ 64 }

/-- The locked section of `prepare_handshake`, after which the client has the metadata. -/
def pushSessions (e : Engine) (id : ℕ) (h : Handshake) : Exec Engine := do
  let nics ← (slots h.sessions).foldlM (fun nics slot ↦ pushAt nics slot.1 slot.2) e.state.nics
  let next := e.goOn id h .prepared
  return { next with
    state := { e.state with nics := nics }
    sent := e.sent.insert id h.localNics }

/-- The error path of `get_or_prepare`. -/
def unprepare (e : Engine) (id : ℕ) (h : Handshake) : Exec Engine := do
  assert (h.addr ∈ e.state.connecting)
  return { e with
    state := { e.state with connecting := e.state.connecting.erase h.addr }
    handshakes := e.handshakes.erase id }

/-- The checks on the metadata of the peer. -/
def checkRemote (remote : List NicHandshake) : TransferResult Unit :=
  if remote.length ≠ backend.nicCount then
    .error (.invalidArgument "remote NIC count mismatch in handshake")
  else
    match remote.zipIdx.find? fun nic ↦ nic.1.endpoints.length ≠ backend.qpsPerPeer with
    | some (nic, nicIdx) =>
      let qps := backend.qpsPerPeer
      let found := nic.endpoints.length
      .error (.backend
        s!"remote qps_per_peer mismatch on nic={nicIdx}: local={qps}, remote={found}")
    | none => .ok ()

/-- `complete_handshake_for` up to the end of its first locked section. -/
def startCompletion (e : Engine) (id : ℕ) (h : Handshake) (remote : List NicHandshake) :
    Exec Engine :=
  match backend.checkRemote remote with
  | .error error => .ok (e.goOn id h (.failed error 0))
  | .ok () =>
    if (e.state.addrConnections.find? h.addr).isSome then do
      let nics ← removeAll (qpSlots h.localNics) e.state.nics
      return { e with
        state := { e.state with nics := nics, connecting := e.state.connecting.erase h.addr }
        handshakes := e.handshakes.erase id
        completions := e.completions.insert h.addr ⟨id, remote⟩ }
    else do
      let slots := qpSlots h.localNics
      let (nics, popped) ← popAll slots e.state.nics (List.replicate backend.nicCount [])
      let phase := match popped with
        | .ok pending => .connecting remote pending (cells pending)
        | .error left => .failed (.backend "no pending session to complete") (slots.length - left)
      return { e.goOn id h phase with state := { e.state with nics := nics } }

/-- The next session is connected, outside the lock. An error drops all popped sessions. -/
def connectNext (e : Engine) (id : ℕ) (h : Handshake) (remote : List NicHandshake)
    (pending : List (List RcSession)) (cell : (ℕ × ℕ) × RcSession)
    (todo : List ((ℕ × ℕ) × RcSession)) (modified : TransferResult Unit) : Exec Engine := do
  let nic ← index remote cell.1.1
  let endpoint ← index nic.endpoints cell.1.2
  let runtime ← index backend.runtimes cell.1.1
  match RcSession.connect runtime endpoint modified with
  | .ok () =>
    return { e.goOn id h (.connecting remote pending todo) with
      connects := e.connects ++ [(cell.2, endpoint)] }
  | .error error => return e.goOn id h (.failed error (slots h.sessions).length)

/-- The second locked section of `complete_handshake_for`. -/
def insertConnection (e : Engine) (id : ℕ) (h : Handshake) (remote : List NicHandshake)
    (pending : List (List RcSession)) : Exec Engine := do
  assert (h.addr ∈ e.state.connecting)
  let conn : AddrConnection := ⟨pending.map fun sessions ↦ ⟨sessions, 0⟩, h.localNics⟩
  return { e with
    state := { e.state with
      connecting := e.state.connecting.erase h.addr
      addrConnections := e.state.addrConnections.insert h.addr conn }
    handshakes := e.handshakes.erase id
    completions := e.completions.insert h.addr ⟨id, remote⟩ }

/-- `abort_handshake`. -/
def abortHandshake (e : Engine) (id : ℕ) (h : Handshake) : Exec Engine := do
  assert (h.addr ∈ e.state.connecting)
  let nics ← removeAll (qpSlots h.localNics) e.state.nics
  return { e with
    state := { e.state with nics := nics, connecting := e.state.connecting.erase h.addr }
    handshakes := e.handshakes.erase id }

/-- `invalidate_connection`. -/
def invalidateConnection (e : Engine) (addr : String) : Engine :=
  { e with
    state := { e.state with addrConnections := e.state.addrConnections.erase addr }
    completions := e.completions.erase addr }

/-- The next piece of a handshake, if the handshake is there. -/
def advance (e : Engine) (id : ℕ) (h : Handshake) (move : HandshakeMove) : Option (Exec Engine) :=
  match move, h.phase with
  | .create qpNum, .creating nicIdx qpIdx =>
    match backend.runtimes[nicIdx]? with
    | some runtime =>
      if qpNum ∈ e.live nicIdx then none
      else some (backend.createQp e id h runtime nicIdx qpIdx qpNum)
    | none => none
  | .createFails message, .creating nicIdx qpIdx =>
    match backend.runtimes[nicIdx]? with
    | some runtime => some (.ok (createQpFails e id h runtime qpIdx message))
    | none => none
  | .push, .creating nicIdx _ =>
    match backend.runtimes[nicIdx]? with
    | some _ => none
    | none => some (pushSessions e id h)
  | .unprepare, .unprepared _ => some (unprepare e id h)
  | .complete remote, .prepared => some (backend.startCompletion e id h remote)
  | .connect modified, .connecting remote pending (cell :: todo) =>
    some (backend.connectNext e id h remote pending cell todo modified)
  | .insert, .connecting remote pending [] => some (insertConnection e id h remote pending)
  | .abort, .prepared => some (abortHandshake e id h)
  | .abort, .failed _ _ => some (abortHandshake e id h)
  | _, _ => none

/-- One piece of one of the functions. -/
def exec (e : Engine) : HandshakeAction → Option (Exec Engine)
  | .prepare addr => some (.ok (backend.getOrPrepare e addr))
  | .client id move => (e.handshakes.find? id).bind fun h ↦ backend.advance e id h move
  | .invalidate addr => some (.ok (invalidateConnection e addr))

/-- The backend after `new`. -/
def engine : Engine where
  state := RcBackendState.new backend.nicCount
  psnCounter := 1
  handshakes := FinMap.empty
  issued := 0
  sent := FinMap.empty
  connects := []
  completions := FinMap.empty

/-- Every interleaving of the pieces. -/
def handshaking : System Engine HandshakeAction where
  start := backend.engine
  step := fun e action e' ↦ backend.exec e action = some (.ok e')

end RcBackend

end Pegastore.Rdma
