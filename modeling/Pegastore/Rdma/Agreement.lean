import Pegastore.Rdma.HandshakeRuns

/-!
# Two engines agree

Two engines that complete a handshake with the metadata of each other have connected their sessions
pairwise: the session at a position of one connection to the endpoint of the session at the same
position of the other (`handshake_agreement`). The engines take their steps in any order and share
nothing but the metadata, so the result follows from what each keeps for itself: `Linked` ties every
successful completion to the connection it made, to the metadata that was given out and to the
endpoints that were connected.

As for the books, a number must not be used again while a handshake has it. Otherwise an engine may
connect a session of another handshake (`Scenario.connects_other_session`).
-/

set_option autoImplicit false
set_option relaxedAutoImplicit false

namespace Pegastore.Rdma

open Outcome Transition Buckets

/-- The session at a position of a connection. -/
def AddrConnection.session (conn : AddrConnection) (nic position : ℕ) : Option RcSession :=
  conn.nics[nic]?.bind fun connNic ↦ connNic.sessions[position]?

/-- The client has the metadata. -/
def HandshakePhase.given : HandshakePhase → Bool
  | .creating _ _ => false
  | .unprepared _ => false
  | _ => true

/-- A session is connected to the endpoint at its position in the metadata of the peer. -/
def ConnectedTo (e : Engine) (remote : List NicHandshake) (cell : (ℕ × ℕ) × RcSession) : Prop :=
  ∃ nic endpoint, remote[cell.1.1]? = some nic ∧ nic.endpoints[cell.1.2]? = some endpoint ∧
    (cell.2, endpoint) ∈ e.connects

theorem ConnectedTo.mono {e e' : Engine} (hconnects : e.connects ⊆ e'.connects)
    {remote : List NicHandshake} {cell : (ℕ × ℕ) × RcSession} (h : ConnectedTo e remote cell) :
    ConnectedTo e' remote cell := by
  obtain ⟨nic, endpoint, hnic, hendpoint, hmem⟩ := h
  exact ⟨nic, endpoint, hnic, hendpoint, hconnects hmem⟩

/-- The connection that a successful completion made. -/
structure Agreed (e : Engine) (completion : Completion) (conn : AddrConnection) : Prop where
  sent : e.sent.find? completion.handshake = some conn.localNics
  metadata : conn.localNics =
    conn.nics.map fun nic ↦ ⟨nic.sessions.map RcSession.localEndpoint⟩
  own : ∀ i j session, conn.session i j = some session →
    session.handshake = completion.handshake ∧ session.nic = i ∧ session.position = j
  connected : ∀ i j session, conn.session i j = some session →
    ConnectedTo e completion.remoteNics ((i, j), session)

theorem Agreed.mono {e e' : Engine} {completion : Completion} {conn : AddrConnection}
    (h : Agreed e completion conn)
    (hsent : e'.sent.find? completion.handshake = e.sent.find? completion.handshake)
    (hconnects : e.connects ⊆ e'.connects) : Agreed e' completion conn where
  sent := hsent.trans h.sent
  metadata := h.metadata
  own := h.own
  connected := fun i j session hsession ↦ (h.connected i j session hsession).mono hconnects

/-- The records of an engine fit together. -/
structure Linked (e : Engine) : Prop where
  given : ∀ id h, e.handshakes.find? id = some h → h.phase.given = true →
    e.sent.find? id = some h.localNics
  connecting : ∀ id h remote pending todo, e.handshakes.find? id = some h →
    h.phase = .connecting remote pending todo →
      ∀ cell ∈ cells pending, cell ∈ todo ∨ ConnectedTo e remote cell
  past : ∀ addr completion, e.completions.find? addr = some completion →
    completion.handshake < e.issued ∧ e.handshakes.find? completion.handshake = none
  agreed : ∀ addr completion, e.completions.find? addr = some completion →
    ∃ conn, e.state.addrConnections.find? addr = some conn ∧ Agreed e completion conn

namespace Linked

variable {e e' : Engine} {id : ℕ} {h new : Handshake}

theorem start (backend : RcBackend) : Linked backend.engine where
  given := nofun
  connecting := nofun
  past := nofun
  agreed := nofun

/-- A handshake goes on; what it may change is its own metadata and new connects. -/
theorem goOn (hl : Linked e) (hfind : e.handshakes.find? id = some h)
    (hhandshakes : e'.handshakes = e.handshakes.insert id new)
    (hconns : e'.state.addrConnections = e.state.addrConnections)
    (hissued : e'.issued = e.issued) (hcompletions : e'.completions = e.completions)
    (hsent : ∀ other, other ≠ id → e'.sent.find? other = e.sent.find? other)
    (hconnects : e.connects ⊆ e'.connects)
    (hgiven : new.phase.given = true → e'.sent.find? id = some new.localNics)
    (hconnecting : ∀ remote pending todo, new.phase = .connecting remote pending todo →
      ∀ cell ∈ cells pending, cell ∈ todo ∨ ConnectedTo e' remote cell) : Linked e' where
  given := by
    intro other h' hother hphase
    rw [hhandshakes, FinMap.find?_insert] at hother
    split_ifs at hother with heq
    · cases hother
      exact heq ▸ hgiven hphase
    · exact (hsent other (Ne.symm heq)).trans (hl.given other h' hother hphase)
  connecting := by
    intro other h' remote pending todo hother hphase cell hcell
    rw [hhandshakes, FinMap.find?_insert] at hother
    split_ifs at hother with heq
    · cases hother
      exact hconnecting remote pending todo hphase cell hcell
    · exact (hl.connecting other h' remote pending todo hother hphase cell hcell).imp_right
        (ConnectedTo.mono hconnects)
  past := by
    intro addr completion hcompletion
    rw [hcompletions] at hcompletion
    obtain ⟨hlt, hnone⟩ := hl.past addr completion hcompletion
    refine ⟨hissued ▸ hlt, ?_⟩
    rw [hhandshakes, FinMap.find?_insert, if_neg fun heq ↦ ?_]
    · exact hnone
    · rw [← heq, hfind] at hnone
      cases hnone
  agreed := by
    intro addr completion hcompletion
    rw [hcompletions] at hcompletion
    obtain ⟨conn, hconn, hagreed⟩ := hl.agreed addr completion hcompletion
    refine ⟨conn, hconns ▸ hconn, hagreed.mono (hsent _ fun heq ↦ ?_) hconnects⟩
    have hnone := (hl.past addr completion hcompletion).2
    rw [heq, hfind] at hnone
    cases hnone

/-- A handshake ends; it may have made a connection. -/
theorem finish (hl : Linked e) (hlt : id < e.issued)
    (hhandshakes : e'.handshakes = e.handshakes.erase id) (hissued : e'.issued = e.issued)
    (hsent : e'.sent = e.sent) (hconnects : e'.connects = e.connects)
    (hcompletions : ∀ addr completion, e'.completions.find? addr = some completion →
      (e.completions.find? addr = some completion ∧
        e'.state.addrConnections.find? addr = e.state.addrConnections.find? addr) ∨
      (completion.handshake = id ∧ ∃ conn, e'.state.addrConnections.find? addr = some conn ∧
        Agreed e completion conn)) : Linked e' where
  given := by
    intro other h' hother hphase
    rw [hhandshakes, FinMap.find?_erase] at hother
    split_ifs at hother
    exact hsent ▸ hl.given other h' hother hphase
  connecting := by
    intro other h' remote pending todo hother hphase cell hcell
    rw [hhandshakes, FinMap.find?_erase] at hother
    split_ifs at hother
    exact (hl.connecting other h' remote pending todo hother hphase cell hcell).imp_right
      (ConnectedTo.mono fun _ hin ↦ hconnects ▸ hin)
  past := by
    intro addr completion hcompletion
    rw [hissued, hhandshakes, FinMap.find?_erase]
    rcases hcompletions addr completion hcompletion with ⟨hold, _⟩ | ⟨heq, _⟩
    · obtain ⟨hbound, hnone⟩ := hl.past addr completion hold
      rw [hnone, ite_self]
      exact ⟨hbound, rfl⟩
    · rw [heq, if_pos rfl]
      exact ⟨hlt, rfl⟩
  agreed := by
    intro addr completion hcompletion
    rcases hcompletions addr completion hcompletion with ⟨hold, hsame⟩ | ⟨_, conn, hconn, hagreed⟩
    · obtain ⟨conn, hconn, hagreed⟩ := hl.agreed addr completion hold
      exact ⟨conn, hsame.trans hconn,
        hagreed.mono (by rw [hsent]) fun _ hin ↦ hconnects ▸ hin⟩
    · exact ⟨conn, hconn, hagreed.mono (by rw [hsent]) fun _ hin ↦ hconnects ▸ hin⟩

/-- A handshake begins under a new number. -/
theorem prepare (hl : Linked e) (state : RcBackendState)
    (hconns : state.addrConnections = e.state.addrConnections)
    (hphase : new.phase = .creating 0 0) : Linked { e with
      state := state
      handshakes := e.handshakes.insert e.issued new
      issued := e.issued + 1 } where
  given := by
    intro other h' hother hgiven
    rw [FinMap.find?_insert] at hother
    split_ifs at hother
    · cases hother
      rw [hphase] at hgiven
      cases hgiven
    · exact hl.given other h' hother hgiven
  connecting := by
    intro other h' remote pending todo hother hconnecting cell hcell
    rw [FinMap.find?_insert] at hother
    split_ifs at hother
    · cases hother
      rw [hphase] at hconnecting
      cases hconnecting
    · exact hl.connecting other h' remote pending todo hother hconnecting cell hcell
  past := by
    intro addr completion hcompletion
    obtain ⟨hlt, hnone⟩ := hl.past addr completion hcompletion
    refine ⟨Nat.lt_succ_of_lt hlt, ?_⟩
    rw [FinMap.find?_insert, if_neg hlt.ne']
    exact hnone
  agreed := by
    intro addr completion hcompletion
    obtain ⟨conn, hconn, hagreed⟩ := hl.agreed addr completion hcompletion
    exact ⟨conn, hconns ▸ hconn, hagreed.mono rfl fun _ hin ↦ hin⟩

theorem invalidate (hl : Linked e) (addr : String) :
    Linked (RcBackend.invalidateConnection e addr) where
  given := hl.given
  connecting := hl.connecting
  past := by
    intro other completion hcompletion
    dsimp only [RcBackend.invalidateConnection] at hcompletion
    rw [FinMap.find?_erase] at hcompletion
    split_ifs at hcompletion
    exact hl.past other completion hcompletion
  agreed := by
    intro other completion hcompletion
    dsimp only [RcBackend.invalidateConnection] at hcompletion ⊢
    rw [FinMap.find?_erase] at hcompletion ⊢
    split_ifs at hcompletion with heq
    rw [if_neg heq]
    obtain ⟨conn, hconn, hagreed⟩ := hl.agreed other completion hcompletion
    exact ⟨conn, hconn, hagreed.mono rfl fun _ hin ↦ hin⟩

/-- The connection that the last section of a completion makes. -/
theorem agreed_insert (hl : Linked e) {backend : RcBackend} (hshaped : Shaped backend id h)
    (hfind : e.handshakes.find? id = some h) {remote : List NicHandshake}
    (hphase : h.phase = .connecting remote h.sessions []) :
    Agreed e ⟨id, remote⟩ ⟨h.sessions.map fun sessions ↦ ⟨sessions, 0⟩, h.localNics⟩ := by
  have hcell : ∀ {i j session}, AddrConnection.session
      ⟨h.sessions.map fun sessions ↦ ⟨sessions, 0⟩, h.localNics⟩ i j = some session →
      ((i, j), session) ∈ cells h.sessions := by
    intro i j session hsession
    obtain ⟨connNic, hnic, hget⟩ := Option.bind_eq_some_iff.mp hsession
    rw [List.getElem?_map] at hnic
    obtain ⟨row, hrow, rfl⟩ := Option.map_eq_some_iff.mp hnic
    exact mem_cells.mpr ⟨row, hrow, hget⟩
  refine ⟨hl.given id h hfind (by rw [hphase]; rfl), ?_, fun i j session hsession ↦ ?_,
    fun i j session hsession ↦ ?_⟩
  · unfold Handshake.localNics
    rw [List.map_map]
    rfl
  · exact hshaped.own i j session (hcell hsession)
  · refine (hl.connecting id h remote h.sessions [] hfind hphase _ (hcell hsession)).resolve_left ?_
    exact List.not_mem_nil

end Linked

/-- Every piece keeps the records together. -/
theorem Effect.linked {backend : RcBackend} {e e' : Engine} {action : HandshakeAction}
    (heffect : Effect backend e action e') (ho : Orderly backend e) (hl : Linked e) :
    Linked e' := by
  cases heffect with
  | busy _ => exact hl
  | prepare _ _ => exact hl.prepare _ rfl rfl
  | @create id h nicIdx qpIdx runtime qpNum hfind _ _ =>
    refine hl.goOn hfind rfl rfl rfl rfl (fun _ _ ↦ rfl) (fun _ hin ↦ hin) (fun hgiven ↦ ?_)
      fun remote pending todo hphase ↦ ?_
    · dsimp only [RcBackend.afterQp] at hgiven
      split_ifs at hgiven <;> cases hgiven
    · dsimp only [RcBackend.afterQp] at hphase
      split_ifs at hphase
  | createFails message hfind _ _ =>
    exact hl.goOn hfind rfl rfl rfl rfl (fun _ _ ↦ rfl) (fun _ hin ↦ hin) nofun nofun
  | @push id h nicIdx qpIdx hfind _ _ =>
    refine hl.goOn hfind rfl rfl rfl rfl (fun other hne ↦ ?_) (fun _ hin ↦ hin) (fun _ ↦ ?_) nofun
    · dsimp only
      rw [FinMap.find?_insert, if_neg (Ne.symm hne)]
    · dsimp only
      rw [FinMap.find?_insert, if_pos rfl]
      rfl
  | @unprepare id h error hfind _ =>
    exact hl.finish (ho.ids id h hfind) rfl rfl rfl rfl fun addr completion hcompletion ↦
      Or.inl ⟨hcompletion, rfl⟩
  | @refuse id h remote error hfind hphase _ =>
    refine hl.goOn hfind rfl rfl rfl rfl (fun _ _ ↦ rfl) (fun _ hin ↦ hin) (fun _ ↦ ?_) nofun
    exact hl.given id h hfind (by rw [hphase]; rfl)
  | @pop id h remote hfind hphase _ =>
    refine hl.goOn hfind rfl rfl rfl rfl (fun _ _ ↦ rfl) (fun _ hin ↦ hin) (fun _ ↦ ?_)
      fun remote pending todo heq cell hcell ↦ ?_
    · exact hl.given id h hfind (by rw [hphase]; rfl)
    · cases heq
      exact Or.inl hcell
  | @connect id h remote pending cell todo modified nic endpoint hfind hphase hremote hendpoint =>
    have hconnects : e.connects ⊆ e.connects ++ [(cell.2, endpoint)] :=
      List.subset_append_left _ _
    refine hl.goOn hfind rfl rfl rfl rfl (fun _ _ ↦ rfl) hconnects (fun _ ↦ ?_)
      fun remote pending todo heq other hother ↦ ?_
    · exact hl.given id h hfind (by rw [hphase]; rfl)
    · cases heq
      rcases hl.connecting id h _ _ _ hfind hphase other hother with hin | hconnected
      · rcases List.mem_cons.mp hin with rfl | hrest
        · exact Or.inr ⟨nic, endpoint, hremote, hendpoint, by simp⟩
        · exact Or.inl hrest
      · exact Or.inr (hconnected.mono hconnects)
  | @connectFails id h remote pending cell todo modified error hfind hphase =>
    refine hl.goOn hfind rfl rfl rfl rfl (fun _ _ ↦ rfl) (fun _ hin ↦ hin) (fun _ ↦ ?_) nofun
    exact hl.given id h hfind (by rw [hphase]; rfl)
  | @insert id h remote pending hfind hphase =>
    have hshaped := (ho.booked.front hfind).shaped _ List.mem_cons_self
    obtain ⟨_, rfl, _, _⟩ := ho.booked.fits hfind hphase
    refine hl.finish (ho.ids id h hfind) rfl rfl rfl rfl fun addr completion hcompletion ↦ ?_
    dsimp only at hcompletion ⊢
    rw [FinMap.find?_insert] at hcompletion ⊢
    split_ifs at hcompletion with heq
    · cases hcompletion
      rw [if_pos heq]
      exact Or.inr ⟨rfl, _, rfl, hl.agreed_insert hshaped hfind hphase⟩
    · rw [if_neg heq]
      exact Or.inl ⟨hcompletion, rfl⟩
  | @abort id h hfind =>
    exact hl.finish (ho.ids id h hfind) rfl rfl rfl rfl fun addr completion hcompletion ↦
      Or.inl ⟨hcompletion, rfl⟩
  | invalidate addr => exact hl.invalidate addr

/-- In every run the books are in order and the records fit together. -/
theorem handshaking_linked {backend : RcBackend} {history : List HandshakeAction} {e : Engine}
    (hrun : (backend.handshaking.restrict Unnamed).Run history e) :
    Orderly backend e ∧ Linked e := by
  refine System.Steps.invariant (I := fun e ↦ Orderly backend e ∧ Linked e) hrun
    ⟨Orderly.start backend, Linked.start backend⟩ ?_
  rintro e action e' _ ⟨ho, hl⟩ ⟨hunnamed, hexec⟩
  obtain ⟨_, heq, heffect⟩ := ho.booked.exec_effect hexec
  cases heq
  exact ⟨heffect.orderly ho hunnamed, heffect.linked ho hl⟩

/-! ### Two engines -/

/-- The metadata of a connection has the endpoint of every session at its position. -/
theorem Agreed.endpoint {e : Engine} {completion : Completion} {conn : AddrConnection}
    (h : Agreed e completion conn) {i j : ℕ} {nic : NicHandshake} {endpoint : RcEndpoint}
    (hnic : conn.localNics[i]? = some nic) (hendpoint : nic.endpoints[j]? = some endpoint) :
    ∃ session, conn.session i j = some session ∧ session.localEndpoint = endpoint := by
  rw [h.metadata, List.getElem?_map] at hnic
  obtain ⟨connNic, hconnNic, rfl⟩ := Option.map_eq_some_iff.mp hnic
  rw [List.getElem?_map] at hendpoint
  obtain ⟨session, hsession, rfl⟩ := Option.map_eq_some_iff.mp hendpoint
  refine ⟨session, ?_, rfl⟩
  unfold AddrConnection.session
  rw [hconnNic]
  exact hsession

/-- A session of one engine is connected to the endpoint of the session of the other at the same
position, if the one completed with the metadata of the other. -/
theorem Agreed.connected_peer {e peer : Engine} {completion other : Completion}
    {conn peerConn : AddrConnection} (h : Agreed e completion conn)
    (hpeer : Agreed peer other peerConn) (hmeta : completion.remoteNics = peerConn.localNics)
    {i j : ℕ} {session : RcSession} (hsession : conn.session i j = some session) :
    ∃ peerSession, peerConn.session i j = some peerSession ∧
      (session, peerSession.localEndpoint) ∈ e.connects := by
  obtain ⟨nic, endpoint, hnic, hendpoint, hconnect⟩ := h.connected i j session hsession
  dsimp only at hnic hendpoint
  rw [hmeta] at hnic
  obtain ⟨peerSession, hpeerSession, rfl⟩ := hpeer.endpoint hnic hendpoint
  exact ⟨peerSession, hpeerSession, hconnect⟩

/-- A connection has a session at every position. -/
theorem Orderly.exists_session {backend : RcBackend} {e : Engine} (h : Orderly backend e)
    {addr : String} {conn : AddrConnection}
    (hconn : e.state.addrConnections.find? addr = some conn) {i j : ℕ} (hi : i < backend.nicCount)
    (hj : j < backend.qpsPerPeer) : ∃ session, conn.session i j = some session := by
  obtain ⟨hnics, hqps⟩ := h.booked.connections addr conn hconn
  have hnic := List.getElem?_eq_getElem (hnics.symm ▸ hi : i < conn.nics.length)
  have hlength := hqps _ (List.mem_of_getElem? hnic)
  unfold AddrConnection.session
  rw [hnic]
  exact ⟨_, List.getElem?_eq_getElem (hlength.symm ▸ hj)⟩

/-- Two engines whose handshakes succeed with the metadata of each other, in any order of steps and
with any other handshakes on either side, in which no number is used again: at every position each
has a session that its own handshake created there, connected to the endpoint of the session of the
other at this position, and each still has the metadata that it gave out. -/
theorem handshake_agreement (A B : RcBackend)
    {history : List (HandshakeAction ⊕ HandshakeAction)} {a b : Engine}
    (hrun : ((A.handshaking.restrict Unnamed).pair (B.handshaking.restrict Unnamed)).Run history
      (a, b))
    {addrA addrB : String} {idA idB : ℕ} {metaA metaB : List NicHandshake}
    (hsentA : a.sent.find? idA = some metaA) (hsentB : b.sent.find? idB = some metaB)
    (hcompletedA : a.completions.find? addrB = some ⟨idA, metaB⟩)
    (hcompletedB : b.completions.find? addrA = some ⟨idB, metaA⟩) :
    a.state.localMetaForAddr addrB = some metaA ∧ b.state.localMetaForAddr addrA = some metaB ∧
    ∃ connA connB, a.state.addrConnections.find? addrB = some connA ∧
      b.state.addrConnections.find? addrA = some connB ∧
      ∀ i j, (i < A.nicCount ∧ j < A.qpsPerPeer ∨ i < B.nicCount ∧ j < B.qpsPerPeer) →
        ∃ sessionA sessionB,
        connA.session i j = some sessionA ∧ connB.session i j = some sessionB ∧
        (sessionA, sessionB.localEndpoint) ∈ a.connects ∧
        (sessionB, sessionA.localEndpoint) ∈ b.connects ∧
        (sessionA.handshake = idA ∧ sessionA.nic = i ∧ sessionA.position = j) ∧
        sessionB.handshake = idB ∧ sessionB.nic = i ∧ sessionB.position = j := by
  obtain ⟨⟨_, hrunA⟩, _, hrunB⟩ := hrun.of_pair
  obtain ⟨hoA, hlA⟩ := handshaking_linked hrunA
  obtain ⟨hoB, hlB⟩ := handshaking_linked hrunB
  obtain ⟨connA, hconnA, hagreedA⟩ := hlA.agreed _ _ hcompletedA
  obtain ⟨connB, hconnB, hagreedB⟩ := hlB.agreed _ _ hcompletedB
  have hmetaA : metaA = connA.localNics := Option.some.inj (hsentA.symm.trans hagreedA.sent)
  have hmetaB : metaB = connB.localNics := Option.some.inj (hsentB.symm.trans hagreedB.sent)
  refine ⟨?_, ?_, connA, connB, hconnA, hconnB, fun i j hposition ↦ ?_⟩
  · rw [RcBackendState.localMetaForAddr, hconnA, hmetaA]
    rfl
  · rw [RcBackendState.localMetaForAddr, hconnB, hmetaB]
    rfl
  · obtain ⟨sessionA, hsessionA⟩ : ∃ session, connA.session i j = some session := by
      rcases hposition with ⟨hi, hj⟩ | ⟨hi, hj⟩
      · exact hoA.exists_session hconnA hi hj
      · obtain ⟨sessionB, hsessionB⟩ := hoB.exists_session hconnB hi hj
        obtain ⟨session, hsession, _⟩ := hagreedB.connected_peer hagreedA hmetaA hsessionB
        exact ⟨session, hsession⟩
    obtain ⟨sessionB, hsessionB, hconnectA⟩ := hagreedA.connected_peer hagreedB hmetaB hsessionA
    obtain ⟨found, hfound, hconnectB⟩ := hagreedB.connected_peer hagreedA hmetaA hsessionB
    have hsame : found = sessionA := Option.some.inj (hfound.symm.trans hsessionA)
    exact ⟨sessionA, sessionB, hsessionA, hsessionB, hconnectA, hsame ▸ hconnectB,
      hagreedA.own i j sessionA hsessionA, hagreedB.own i j sessionB hsessionB⟩

namespace Scenario

/-- What the first engine gives out in its second handshake. -/
def firstNics : List NicHandshake := [⟨[⟨[1], 0, 7, 2⟩]⟩]

/-- What the second engine gives out. -/
def secondNics : List NicHandshake := [⟨[⟨[1], 0, 4, 1⟩]⟩]

/-- After the abort that takes its session, a handshake finds the session of a third one under its
number and completes with it. -/
def mixing : List (HandshakeAction ⊕ HandshakeAction) :=
  (preparing "x" 0 [7] ++ failing 0 peerNics ++ preparing "b" 1 [7]).map .inl ++
  (preparing "a" 0 [4]).map .inr ++
  ([HandshakeAction.client 0 .abort] ++ preparing "z" 2 [7] ++ completing 1 secondNics).map .inl ++
  (completing 0 firstNics).map .inr

/-- The session of the third handshake. -/
def otherSession : RcSession := ⟨2, 0, 0, ⟨[1], 0, 7, 3⟩⟩

theorem connects_other_session : ∃ history a b,
    (oneNic.handshaking.pair oneNic.handshaking).Run history (a, b) ∧
    a.sent.find? 1 = some firstNics ∧ b.sent.find? 0 = some secondNics ∧
    a.completions.find? "b" = some ⟨1, secondNics⟩ ∧
    b.completions.find? "a" = some ⟨0, firstNics⟩ ∧
    ∃ conn, a.state.addrConnections.find? "b" = some conn ∧
      conn.session 0 0 = some otherSession ∧ otherSession.handshake ≠ 1 ∧
      ∀ c ∈ b.connects, c.2 ≠ otherSession.localEndpoint := by
  have hnext : ∀ e action label e', oneNic.next (fun _ _ ↦ true) e action = some (label, e') →
      oneNic.handshaking.step e label e' := fun _ _ _ _ h ↦ (step_of_next h).2
  obtain ⟨history, ⟨a, b⟩, hrun, hsentA, hsentB, hcompletedA, hcompletedB, hsession, hconnects⟩ :=
    exists_run_of_replay (step_of_pairNext hnext hnext) mixing (fun s ↦
      s.1.sent.find? 1 = some firstNics ∧ s.2.sent.find? 0 = some secondNics ∧
      s.1.completions.find? "b" = some ⟨1, secondNics⟩ ∧
      s.2.completions.find? "a" = some ⟨0, firstNics⟩ ∧
      ((s.1.state.addrConnections.find? "b").bind fun conn ↦ conn.session 0 0) =
        some otherSession ∧
      ∀ c ∈ s.2.connects, c.2 ≠ otherSession.localEndpoint) rfl
  obtain ⟨conn, hconn, hfound⟩ := Option.bind_eq_some_iff.mp hsession
  exact ⟨history, a, b, hrun, hsentA, hsentB, hcompletedA, hcompletedB, conn, hconn, hfound,
    Nat.succ_ne_self 1, hconnects⟩

/-- The metadata of two NICs whose queue pairs have the numbers `first` and `second`. -/
def pairedNics (first second psn : ℕ) : List NicHandshake :=
  [⟨[⟨[1], 0, first, psn⟩, ⟨[1], 0, second, psn + 1⟩]⟩,
    ⟨[⟨[2], 0, first, psn + 2⟩, ⟨[2], 0, second, psn + 3⟩]⟩]

/-- Two engines with two NICs and two queue pairs for each prepare a handshake, the first one while
its handshake with a third peer fails and is aborted. -/
def preparingBoth : List (HandshakeAction ⊕ HandshakeAction) :=
  (preparing "x" 0 [7, 8, 7, 8] ++ failing 0 (pairedNics 30 31 5)).map .inl ++
  (preparing "a" 0 [4, 5, 4, 5]).map .inr ++ (preparing "b" 1 [9, 10, 9, 10]).map .inl ++
  [.inl (.client 0 .abort)]

/-- Two engines connect over two NICs with two queue pairs each: at all four positions each session
is connected to the one at this position of the other engine. -/
theorem handshake_agreement_two_nics : ∃ history a b connA connB,
    ((twoNics.handshaking.restrict Unnamed).pair (twoNics.handshaking.restrict Unnamed)).Run history
      (a, b) ∧
    a.state.localMetaForAddr "b" = some (pairedNics 9 10 5) ∧
    b.state.localMetaForAddr "a" = some (pairedNics 4 5 1) ∧
    a.state.addrConnections.find? "b" = some connA ∧
    b.state.addrConnections.find? "a" = some connB ∧
    ∀ i < 2, ∀ j < 2, ∃ sessionA sessionB,
      connA.session i j = some sessionA ∧ connB.session i j = some sessionB ∧
      (sessionA, sessionB.localEndpoint) ∈ a.connects ∧
      (sessionB, sessionA.localEndpoint) ∈ b.connects := by
  obtain ⟨history, ⟨a, b⟩, hrun, hsentA, hsentB, hcompletedA, hcompletedB⟩ :=
    exists_run_of_replay (step_of_pairNext step_of_next_unnamed step_of_next_unnamed)
      (preparingBoth ++ (completing 0 (pairedNics 9 10 5)).map .inr ++
        (completing 1 (pairedNics 4 5 1)).map .inl)
      (fun s ↦ s.1.sent.find? 1 = some (pairedNics 9 10 5) ∧
        s.2.sent.find? 0 = some (pairedNics 4 5 1) ∧
        s.1.completions.find? "b" = some ⟨1, pairedNics 4 5 1⟩ ∧
        s.2.completions.find? "a" = some ⟨0, pairedNics 9 10 5⟩)
      (show (replay _ _ (twoNics.engine, twoNics.engine)).any _ = true from rfl)
  obtain ⟨hmetaA, hmetaB, connA, connB, hconnA, hconnB, hpositions⟩ :=
    handshake_agreement twoNics twoNics hrun hsentA hsentB hcompletedA hcompletedB
  refine ⟨history, a, b, connA, connB, hrun, hmetaA, hmetaB, hconnA, hconnB, fun i hi j hj ↦ ?_⟩
  obtain ⟨sessionA, sessionB, hsessionA, hsessionB, hconnectA, hconnectB, _⟩ :=
    hpositions i j (.inl ⟨hi, hj⟩)
  exact ⟨sessionA, sessionB, hsessionA, hsessionB, hconnectA, hconnectB⟩

end Scenario

end Pegastore.Rdma
