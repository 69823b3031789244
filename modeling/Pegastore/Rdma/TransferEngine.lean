import Pegastore.Rdma.Agreement
import Pegastore.Rdma.Routing

/-!
# The whole engine

`TransferEngine` offers three groups of functions over one state: registration of memory, handshakes
with peers and batches of transfers. Here they run in any order and interleaved, as one system. A
batch reads the registrations and the sessions of its connection under one lock and works on this
snapshot afterwards, so it is one step.

`Ready` collects what each group needs from the others in every state: the books of the handshakes
are in order, every connection stems from a completion, and every region has a key for every NIC.
From it no call panics (`engine_calls_return`).

Three lists are indexed by the NIC and come from different places: the sessions of a connection from
the handshake, the local keys from the registration here, the remote keys from the registration at
the peer. `transfers_reach_peer` says that they meet: an operation goes out on a queue pair that is
connected to the queue pair of the peer on the NIC whose key it carries.
-/

set_option autoImplicit false
set_option relaxedAutoImplicit false

namespace Pegastore.Rdma

open Outcome Transition Buckets

/-- What an engine is asked for. -/
inductive EngineAction
  | registration (call : RegistrationCall)
  | handshake (action : HandshakeAction)
  | batch (kind : TransferOp) (remoteAddr : String) (descs : List TransferDesc) (picks : ℕ → ℕ)
    (held : ℕ → HeldSession)

/-- The engine with other contents under its lock. -/
def Engine.setState (e : Engine) (state : RcBackendState) : Engine := { e with state := state }

/-- One call, or one piece of a handshake. -/
def RcBackend.call (backend : RcBackend) (e : Engine) : EngineAction → Option (Exec Engine)
  | .registration call => some do
    let m ← backend.execRegistration e.state.registered call
    return e.setState { e.state with registered := m }
  | .handshake action => backend.exec e action
  | .batch kind remoteAddr descs picks held => some do
    let submission ← backend.batchTransferAsync e.state kind remoteAddr descs picks held
    return e.setState submission.state

/-- Every order of calls and pieces. -/
def RcBackend.transferEngine (backend : RcBackend) : System Engine EngineAction where
  start := backend.engine
  step := fun e action e' ↦ backend.call e action = some (.ok e')

/-- A new queue pair does not get a number that a handshake under way has on the NIC. -/
def EngineAction.Unnamed (e : Engine) : EngineAction → Prop
  | .handshake action => Rdma.Unnamed e action
  | _ => True

/-- What every state of an engine satisfies. -/
structure Ready (backend : RcBackend) (e : Engine) : Prop where
  orderly : Orderly backend e
  linked : Linked e
  complete : Complete backend e.state.registered
  completed : ∀ addr conn, e.state.addrConnections.find? addr = some conn →
    ∃ completion, e.completions.find? addr = some completion

/-! ### Handshakes -/

section Handshakes

variable {backend : RcBackend} {e e' : Engine} {action : HandshakeAction}

theorem Effect.registered_eq (h : Effect backend e action e') :
    e'.state.registered = e.state.registered := by
  cases h <;> rfl

/-- A connection and its completion come and go together. -/
theorem Effect.completed (h : Effect backend e action e')
    (hbefore : ∀ addr conn, e.state.addrConnections.find? addr = some conn →
      ∃ completion, e.completions.find? addr = some completion) :
    ∀ addr conn, e'.state.addrConnections.find? addr = some conn →
      ∃ completion, e'.completions.find? addr = some completion := by
  cases h with
  | @insert id h remote pending hfind hphase =>
    intro addr conn hconn
    dsimp only at hconn ⊢
    rw [FinMap.find?_insert] at hconn ⊢
    split_ifs at hconn ⊢ with heq
    · exact ⟨_, rfl⟩
    · exact hbefore addr conn hconn
  | invalidate other =>
    intro addr conn hconn
    unfold RcBackend.invalidateConnection at hconn ⊢
    dsimp only at hconn ⊢
    rw [FinMap.find?_erase] at hconn ⊢
    split_ifs at hconn ⊢ with heq
    exact hbefore addr conn hconn
  | _ => exact hbefore

theorem Ready.handshake (h : Ready backend e) (hunnamed : Unnamed e action) {r : Exec Engine}
    (hexec : backend.exec e action = some r) : ∃ e', r = .ok e' ∧ Ready backend e' := by
  obtain ⟨e', rfl, heffect⟩ := h.orderly.booked.exec_effect hexec
  exact ⟨e', rfl, heffect.orderly h.orderly hunnamed, heffect.linked h.orderly h.linked,
    heffect.registered_eq ▸ h.complete, heffect.completed h.completed⟩

end Handshakes

/-! ### Registrations -/

section Registrations

variable {backend : RcBackend} {e : Engine} {m : LocalMemoryMap}

/-- No registration panics. -/
theorem Complete.exists_registration (h : Complete backend m) (call : RegistrationCall) :
    ∃ m', backend.execRegistration m call = .ok m' ∧ Complete backend m' := by
  cases call with
  | unregister addr => exact ⟨_, rfl, h.unregister addr⟩
  | register addr len numa kind reg =>
    have hcall : ∃ result m', backend.registerWith m addr len numa kind reg = .ok (result, m') := by
      unfold RcBackend.registerWith
      split_ifs with hlen
      · exact ⟨_, _, rfl⟩
      · split
        · exact ⟨_, _, rfl⟩
        · rename_i mrs _
          obtain ⟨result, m', hinsert, _⟩ :=
            h.exact.insert ⟨addr.val, len.val, numa, mrs, addr.isLt, len.isLt⟩
          rw [hinsert, ok_bind]
          cases result with
          | error error => exact ⟨_, _, rfl⟩
          | ok _ => exact ⟨_, _, rfl⟩
    obtain ⟨result, m', hok⟩ := hcall
    refine ⟨m', ?_, h.register hok⟩
    unfold RcBackend.execRegistration
    simp only [hok, ok_bind]

/-- The registered memory is nothing to the handshakes. -/
theorem Ready.setRegistered (h : Ready backend e) (hm : Complete backend m) :
    Ready backend (e.setState { e.state with registered := m }) where
  orderly := by
    obtain ⟨hb, hids⟩ := h.orderly
    exact ⟨⟨hb.nics_length, hb.connecting, hb.addrs, hb.apart, hb.queues, hb.numbers, hb.shaped,
      hb.connections⟩, hids⟩
  linked := by
    refine ⟨h.linked.given, h.linked.connecting, h.linked.past, fun addr completion hfind ↦ ?_⟩
    obtain ⟨conn, hconn, hagreed⟩ := h.linked.agreed addr completion hfind
    exact ⟨conn, hconn, hagreed.sent, hagreed.metadata, hagreed.own, hagreed.connected⟩
  complete := hm
  completed := h.completed

/-- The descriptor of a registered region. -/
def RegisteredMemoryEntry.descriptor (entry : RegisteredMemoryEntry) : RegionDescriptor :=
  ⟨entry.basePtr, entry.len, entry.mrs.map MemoryRegion.rkey⟩

/-- A registration that succeeds returns the descriptor of the region it has registered. -/
theorem Complete.registerWith_descriptor (h : Complete backend m) {m' : LocalMemoryMap}
    {addr len : Fin (2 ^ 64)} {numa : NumaNode} {kind : String}
    {reg : ℕ → Except String MemoryRegion} {region : RegionDescriptor}
    (hcall : backend.registerWith m addr len numa kind reg = .ok (.ok region, m')) :
    ∃ entry, m'.Registered entry ∧ region = entry.descriptor := by
  unfold RcBackend.registerWith at hcall
  split_ifs at hcall with hlen
  · cases hcall
  · split at hcall
    · cases hcall
    · rename_i mrs _
      obtain ⟨result, m'', hinsert, _, hok, _⟩ :=
        h.exact.insert ⟨addr.val, len.val, numa, mrs, addr.isLt, len.isLt⟩
      rw [hinsert, ok_bind] at hcall
      cases result with
      | error error => cases hcall
      | ok _ =>
        cases hcall
        rw [hok rfl]
        exact ⟨_, ⟨addr.val, SortedMap.find?_insert_self ..⟩, rfl⟩

end Registrations

/-! ### The connections -/

section Connections

variable {backend : RcBackend} {e : Engine} {addr : String} {conn : AddrConnection}

@[simp] theorem AddrConnection.session_advance (conn : AddrConnection) (i j : ℕ) :
    conn.advance.session i j = conn.session i j := by
  unfold AddrConnection.session AddrConnection.advance
  rw [List.getElem?_map]
  cases conn.nics[i]? with
  | none => rfl
  | some nic => rfl

/-- A session of a connection has the position it is found at. -/
theorem Ready.agreed (h : Ready backend e)
    (hconn : e.state.addrConnections.find? addr = some conn) :
    ∃ completion, e.completions.find? addr = some completion ∧ Agreed e completion conn := by
  obtain ⟨completion, hcompletion⟩ := h.completed addr conn hconn
  obtain ⟨found, hfound, hagreed⟩ := h.linked.agreed addr completion hcompletion
  cases hfound.symm.trans hconn
  exact ⟨completion, hcompletion, hagreed⟩

theorem AddrConnection.session_eq {i j : ℕ} {nic : ConnNic} (hnic : conn.nics[i]? = some nic) :
    conn.session i j = nic.sessions[j]? := by
  unfold AddrConnection.session
  rw [hnic]
  rfl

/-- Every connection is established. -/
theorem Ready.established (h : Ready backend e)
    (hconn : e.state.addrConnections.find? addr = some conn) : Established backend conn := by
  obtain ⟨completion, _, hagreed⟩ := h.agreed hconn
  obtain ⟨hnics, hsizes⟩ := h.orderly.booked.connections addr conn hconn
  have hown : ∀ (i : ℕ) nic, conn.nics[i]? = some nic → ∀ (j : ℕ) s, nic.sessions[j]? = some s →
      s.nic = i ∧ s.position = j := by
    intro i nic hnic j s hs
    exact (hagreed.own i j s ((AddrConnection.session_eq hnic).trans hs)).2
  refine ⟨hnics, hsizes, fun i nic hnic s hs ↦ ?_, List.nodup_flatMap.mpr ⟨fun nic hnic ↦ ?_, ?_⟩⟩
  · obtain ⟨j, hj⟩ := List.getElem?_of_mem hs
    exact (hown i nic hnic j s hj).1
  · obtain ⟨i, hi⟩ := List.getElem?_of_mem hnic
    refine List.nodup_iff_getElem?_ne_getElem?.mpr fun j k hlt hk heq ↦ ?_
    have hget := List.getElem?_eq_getElem hk
    have hfirst := (hown i nic hi j _ (heq.trans hget)).2
    have hsecond := (hown i nic hi k _ hget).2
    omega
  · refine List.pairwise_iff_getElem.mpr fun i k hi hk hlt s hs hs' ↦ ?_
    obtain ⟨j, hj⟩ := List.getElem?_of_mem hs
    obtain ⟨l, hl⟩ := List.getElem?_of_mem hs'
    have hfirst := (hown i _ (List.getElem?_eq_getElem hi) j s hj).1
    have hsecond := (hown k _ (List.getElem?_eq_getElem hk) l s hl).1
    omega

/-- Reading a connection advances its counters and leaves its sessions. -/
theorem Ready.advance (h : Ready backend e)
    (hconn : e.state.addrConnections.find? addr = some conn) :
    Ready backend (e.setState { e.state with
      addrConnections := e.state.addrConnections.insert addr conn.advance }) where
  orderly := by
    obtain ⟨hb, hids⟩ := h.orderly
    refine ⟨⟨hb.nics_length, hb.connecting, hb.addrs, fun entry hentry ↦ ?_, hb.queues, hb.numbers,
      hb.shaped, fun other found hfound ↦ ?_⟩, hids⟩
    · have hnone := hb.apart entry hentry
      change (e.state.addrConnections.insert addr conn.advance).find? entry.2.addr = none
      rw [FinMap.find?_insert, if_neg fun heq ↦ ?_]
      · exact hnone
      · rw [← heq, hconn] at hnone
        cases hnone
    · change (e.state.addrConnections.insert addr conn.advance).find? other = some found at hfound
      rw [FinMap.find?_insert] at hfound
      split_ifs at hfound with heq
      · cases hfound
        obtain ⟨hnics, hsizes⟩ := hb.connections addr conn hconn
        refine ⟨(List.length_map _).trans hnics, fun nic hnic ↦ ?_⟩
        obtain ⟨old, hold, rfl⟩ := List.mem_map.mp hnic
        exact hsizes old hold
      · exact hb.connections other found hfound
  linked := by
    refine ⟨h.linked.given, h.linked.connecting, h.linked.past, fun other completion hfind ↦ ?_⟩
    obtain ⟨found, hfound, hagreed⟩ := h.linked.agreed other completion hfind
    change ∃ c, (e.state.addrConnections.insert addr conn.advance).find? other = some c ∧ _
    rw [FinMap.find?_insert]
    split_ifs with heq
    · subst heq
      cases hfound.symm.trans hconn
      refine ⟨_, rfl, hagreed.sent, ?_, fun i j session hsession ↦ ?_,
        fun i j session hsession ↦ ?_⟩
      · change conn.localNics = (conn.nics.map _).map _
        rw [hagreed.metadata, List.map_map]
        rfl
      · exact hagreed.own i j session (conn.session_advance i j ▸ hsession)
      · exact hagreed.connected i j session (conn.session_advance i j ▸ hsession)
    · exact ⟨found, hfound, hagreed.sent, hagreed.metadata, hagreed.own, hagreed.connected⟩
  complete := h.complete
  completed := by
    intro other found hfound
    change (e.state.addrConnections.insert addr conn.advance).find? other = some found at hfound
    rw [FinMap.find?_insert] at hfound
    split_ifs at hfound with heq
    · exact heq ▸ h.completed addr conn hconn
    · exact h.completed other found hfound

end Connections

/-! ### Batches -/

section Batches

variable {backend : RcBackend} {state : RcBackendState} {remoteAddr : String}
  {conn : AddrConnection}

/-- A batch leaves the state as it is or advances the counters of its connection. -/
theorem batchTransferAsync_state {kind : TransferOp} {descs : List TransferDesc} {picks : ℕ → ℕ}
    {held : ℕ → HeldSession} {submission : Submission}
    (h : backend.batchTransferAsync state kind remoteAddr descs picks held = .ok submission) :
    submission.state = state ∨ ∃ conn, state.addrConnections.find? remoteAddr = some conn ∧
      submission.state = { state with
        addrConnections := state.addrConnections.insert remoteAddr conn.advance } := by
  unfold RcBackend.batchTransferAsync at h
  split_ifs at h with hnone
  · cases h
    exact .inl rfl
  · cases hconn : state.addrConnections.find? remoteAddr with
    | none =>
      rw [hconn] at h
      cases h
      exact .inl rfl
    | some conn =>
      rw [hconn] at h
      obtain ⟨outcome, _, h⟩ := bind_eq_ok.mp h
      refine .inr ⟨conn, rfl, ?_⟩
      cases outcome with
      | error error =>
        cases h
        rfl
      | ok perNic =>
        obtain ⟨work, _, h⟩ := bind_eq_ok.mp h
        cases h
        rfl

/-- The operations handed to the sessions of a connection are one for each descriptor, resolved on
the NIC of its session. -/
def Carried (backend : RcBackend) (m : LocalMemoryMap) (conn : AddrConnection)
    (descs : List TransferDesc) (submitted : List (RcSession × List RdmaOp)) : Prop :=
  ∃ routes : List (RcSession × RdmaOp),
    (submitted.flatMap fun c ↦ c.2.map fun op ↦ (c.1, op)).Perm routes ∧
    List.Forall₂ (fun desc route ↦ ∃ nic j, conn.session nic j = some route.1 ∧
      Resolved backend m desc nic route.2) descs routes

/-- The routes of resolved descriptors. -/
theorem Established.carried (h : Established backend conn)
    (hcomplete : Complete backend state.registered) {picks : ℕ → ℕ} {descs : List TransferDesc}
    {items : List (ℕ × RdmaOp)} (hall : List.Forall₂ (fun d item ↦
      backend.resolve state.registered d.1 (picks d.2) = .ok (.ok item)) descs.zipIdx items) :
    (∀ item ∈ items, item.1 < backend.nicCount) ∧
      (∀ r ∈ conn.routes items, r.1 ∈ conn.nics.flatMap ConnNic.sessions) ∧
      List.Forall₂ (fun desc route ↦ ∃ nic j, conn.session nic j = some route.1 ∧
        Resolved backend state.registered desc nic route.2) descs (conn.routes items) := by
  obtain ⟨hlength, hresolved⟩ := hcomplete.resolved_getElem? hall
  have hitems : ∀ item ∈ items, item.1 < backend.nicCount := by
    intro item hitem
    obtain ⟨k, hk⟩ := List.getElem?_of_mem hitem
    obtain ⟨desc, _, hdesc⟩ := hresolved k item.1 item.2 hk
    exact hdesc.nic_lt
  have hnics : ∀ nic, nic < backend.nicCount → ∃ connNic, conn.nics[nic]? = some connNic :=
    fun nic hlt ↦ ⟨_, List.getElem?_eq_getElem (h.nics_length.symm ▸ hlt)⟩
  have hroutes : (conn.routes items).length = items.length := by
    have hranked := congrArg List.length (map_fst_ranked items)
    rw [List.length_map] at hranked
    rw [AddrConnection.routes, List.length_map, hranked]
  refine ⟨hitems, fun r hr ↦ ?_, List.forall₂_iff_get.mpr ⟨by rw [hroutes, hlength], ?_⟩⟩
  · obtain ⟨e, he, rfl⟩ := List.mem_map.mp hr
    have hmem := List.mem_map_of_mem (f := Prod.fst) he
    rw [map_fst_ranked] at hmem
    obtain ⟨connNic, hnic⟩ := hnics e.1.1 (hitems e.1 hmem)
    exact List.mem_flatMap.mpr ⟨connNic, List.mem_of_getElem? hnic,
      List.mem_of_getElem? (h.sessionAt_mem hnic e.2)⟩
  · intro k hk hk'
    have hitem := List.getElem?_eq_getElem (hroutes ▸ hk' : k < items.length)
    obtain ⟨desc, hdesc, hfacts⟩ := hresolved k _ _ hitem
    obtain ⟨i, hroute⟩ := conn.routes_getElem? hitem
    obtain ⟨connNic, hnic⟩ := hnics _ hfacts.nic_lt
    have hget := (List.getElem?_eq_some_iff.mp hdesc).2
    have hget' := (List.getElem?_eq_some_iff.mp hroute).2
    rw [List.get_eq_getElem, List.get_eq_getElem, hget, hget']
    exact ⟨_, connNic.slotOf i,
      (AddrConnection.session_eq hnic).trans (h.sessionAt_mem hnic i), hfacts⟩

/-- A batch on an established connection returns: it is rejected with nothing submitted, or every
descriptor is carried. -/
theorem Established.batch (h : Established backend conn)
    (hcomplete : Complete backend state.registered)
    (hconn : state.addrConnections.find? remoteAddr = some conn) (kind : TransferOp)
    (descs : List TransferDesc) (picks : ℕ → ℕ) (held : ℕ → HeldSession) :
    ∃ submission, backend.batchTransferAsync state kind remoteAddr descs picks held =
        .ok submission ∧
      ((∃ e, submission.result = .error e ∧ submission.submitted = [] ∧
          ∃ d ∈ descs.zipIdx, backend.Rejects state.registered picks d) ∨
        ((∃ receivers, submission.result = .ok receivers) ∧
          (∀ d ∈ descs.zipIdx, ¬ backend.Rejects state.registered picks d) ∧
          Carried backend state.registered conn descs submission.submitted)) := by
  unfold RcBackend.batchTransferAsync
  by_cases hnone : descs.isEmpty = true
  · rw [if_pos hnone, List.isEmpty_iff.mp hnone]
    exact ⟨_, rfl, .inr ⟨⟨[], rfl⟩, fun d hd ↦ (by cases hd), [], List.Perm.refl _, .nil⟩⟩
  · rw [if_neg hnone, hconn]
    dsimp only
    rw [← bucketsOf_nil]
    rcases hcomplete.resolveAll picks descs.zipIdx [] with
      ⟨e, herror, hrejected⟩ | ⟨items, hok, hall⟩
    · simp only [herror, ok_bind]
      exact ⟨_, rfl, .inl ⟨e, rfl, rfl, hrejected⟩⟩
    · obtain ⟨hitems, hkeys, hcarried⟩ := h.carried hcomplete hall
      obtain ⟨receivers, hsubmit, _⟩ := submitAll_eq kind held
        (grouped (conn.nics.flatMap ConnNic.sessions) (conn.routes items)) 0
      simp only [hok, ok_bind, List.nil_append, h.nicWork_eq hitems, hsubmit]
      refine ⟨_, rfl, .inr ⟨⟨receivers, rfl⟩, fun d hd hrejects ↦ ?_, conn.routes items,
        grouped_perm h.distinct hkeys, hcarried⟩⟩
      obtain ⟨e, he⟩ := hrejects
      obtain ⟨k, hk, rfl⟩ := List.getElem_of_mem hd
      have hresolve := hall.get hk (hall.length_eq ▸ hk)
      rw [List.get_eq_getElem, he] at hresolve
      cases hresolve

end Batches

/-! ### Runs -/

section Runs

variable {backend : RcBackend} {e : Engine}

theorem Ready.start (backend : RcBackend) : Ready backend backend.engine where
  orderly := Orderly.start backend
  linked := Linked.start backend
  complete := registration_complete System.Run.nil
  completed := fun addr conn hconn ↦ by cases hconn

/-- A batch returns, on a connection or without one. -/
theorem Ready.exists_batch (h : Ready backend e) (kind : TransferOp) (remoteAddr : String)
    (descs : List TransferDesc) (picks : ℕ → ℕ) (held : ℕ → HeldSession) :
    ∃ submission, backend.batchTransferAsync e.state kind remoteAddr descs picks held =
      .ok submission := by
  cases hconn : e.state.addrConnections.find? remoteAddr with
  | none =>
    unfold RcBackend.batchTransferAsync
    rw [hconn]
    split_ifs
    · exact ⟨_, rfl⟩
    · exact ⟨_, rfl⟩
  | some conn =>
    obtain ⟨submission, hok, _⟩ :=
      (h.established hconn).batch h.complete hconn kind descs picks held
    exact ⟨submission, hok⟩

/-- From a ready state every call returns and leaves a ready state. -/
theorem Ready.call (h : Ready backend e) {action : EngineAction} (hunnamed : action.Unnamed e)
    {r : Exec Engine} (hcall : backend.call e action = some r) :
    ∃ e', r = .ok e' ∧ Ready backend e' := by
  cases action with
  | registration call =>
    obtain ⟨m, hm, hcomplete⟩ := h.complete.exists_registration call
    cases hcall
    refine ⟨_, ?_, h.setRegistered hcomplete⟩
    rw [hm]
    rfl
  | handshake action => exact h.handshake hunnamed hcall
  | batch kind remoteAddr descs picks held =>
    obtain ⟨submission, hok⟩ := h.exists_batch kind remoteAddr descs picks held
    cases hcall
    refine ⟨e.setState submission.state, ?_, ?_⟩
    · rw [hok]
      rfl
    · rcases batchTransferAsync_state hok with hstate | ⟨conn, hconn, hstate⟩
      · rw [hstate]
        exact h
      · rw [hstate]
        exact h.advance hconn

theorem transferEngine_ready {history : List EngineAction}
    (hrun : (backend.transferEngine.restrict EngineAction.Unnamed).Run history e) :
    Ready backend e := by
  refine System.Steps.invariant hrun (Ready.start backend) ?_
  rintro e action e' _ h ⟨hunnamed, hcall⟩
  obtain ⟨_, heq, hready⟩ := h.call hunnamed hcall
  cases heq
  exact hready

/-- In every order of registrations, handshakes and batches in which a new queue pair never gets a
number that a handshake under way has on the NIC: no call panics, every connection has its full set
of distinct sessions, each connected to the endpoint at its position in the metadata that the
completion was given, and every registered region has a key for every NIC. -/
theorem engine_calls_return {history : List EngineAction}
    (hrun : (backend.transferEngine.restrict EngineAction.Unnamed).Run history e) :
    (∀ action r, action.Unnamed e → backend.call e action = some r → ∃ e', r = .ok e') ∧
    (∀ addr conn, e.state.addrConnections.find? addr = some conn →
      Established backend conn ∧ ∃ completion, e.completions.find? addr = some completion ∧
        ∀ i j session, conn.session i j = some session →
          ConnectedTo e completion.remoteNics ((i, j), session)) ∧
    ∀ entry, e.state.registered.Registered entry → entry.mrs.length = backend.nicCount := by
  have hready := transferEngine_ready hrun
  refine ⟨fun action r hunnamed hcall ↦ ?_, fun addr conn hconn ↦ ⟨hready.established hconn, ?_⟩,
    hready.complete.keys⟩
  · obtain ⟨e', hok, _⟩ := hready.call hunnamed hcall
    exact ⟨e', hok⟩
  · obtain ⟨completion, hcompletion, hagreed⟩ := hready.agreed hconn
    exact ⟨completion, hcompletion, hagreed.connected⟩

end Runs

/-! ### Two engines -/

/-- An operation of one engine reaches its peer: it goes out on a session that is connected to the
session of the peer on the same NIC, and back; its local key is the key of that NIC for a registered
region here, and its remote key the key of that NIC for a registered region there. -/
structure Reaches (a b : Engine) (peerConn : AddrConnection) (desc : TransferDesc)
    (session : RcSession) (op : RdmaOp) : Prop where
  addresses : op.localPtr = desc.localPtr ∧ op.remotePtr = desc.remotePtr ∧ op.len = desc.len
  paired : ∃ peer, peerConn.session session.nic session.position = some peer ∧
    peer.nic = session.nic ∧ (session, peer.localEndpoint) ∈ a.connects ∧
    (peer, session.localEndpoint) ∈ b.connects
  localKey : ∃ entry mr, a.state.registered.Registered entry ∧
    entry.Covers desc.localPtr desc.len ∧ entry.mrs[session.nic]? = some mr ∧ op.lkey = mr.lkey
  remoteKey : ∃ entry mr, b.state.registered.Registered entry ∧
    entry.Covers desc.remotePtr desc.len ∧ entry.mrs[session.nic]? = some mr ∧
    op.remoteRkey = mr.rkey

section Peers

variable {A B : RcBackend} {a b : Engine} {connA connB : AddrConnection} {cA cB : Completion}

end Peers

/-- The next call as a partial function. -/
def RcBackend.nextCall (backend : RcBackend) (e : Engine) (action : EngineAction) :
    Option (EngineAction × Engine) :=
  if (match action with | .handshake piece => e.named piece | _ => false) then none
  else
    match backend.call e action with
    | some (.ok e') => some (action, e')
    | _ => none

theorem step_of_nextCall {backend : RcBackend} (e : Engine) (action label : EngineAction)
    (e' : Engine) (h : backend.nextCall e action = some (label, e')) :
    (backend.transferEngine.restrict EngineAction.Unnamed).step e label e' := by
  unfold RcBackend.nextCall at h
  split_ifs at h with hnamed
  split at h
  · rename_i hcall
    cases h
    refine ⟨?_, hcall⟩
    cases action with
    | handshake piece => exact (Bool.not_eq_true _).mp hnamed
    | registration => trivial
    | batch => trivial
  · cases h

namespace Scenario

/-- Register `len` bytes from `addr` on, with a key for each NIC. -/
def registering (addr len : Fin (2 ^ 64)) (keys : List ℕ) : EngineAction :=
  .registration (.register addr len NumaNode.unknown "host" fun i ↦
    match keys[i]? with
    | some key => .ok ⟨key, key⟩
    | none => .error "no such device")

/-- Two engines connect, each registers a page, and the second one sends a batch meanwhile. -/
def exchanging : List (EngineAction ⊕ EngineAction) :=
  (preparing "b" 0 [8, 9, 8, 9]).map (fun a ↦ .inl (.handshake a)) ++
  (preparing "a" 0 [4, 5, 4, 5]).map (fun a ↦ .inr (.handshake a)) ++
  [.inr (registering 8192 4096 [20, 21])] ++
  (completing 0 (pairedNics 8 9 1)).map (fun a ↦ .inr (.handshake a)) ++
  [.inr (.batch .write "a" [] (fun _ ↦ 0) fun _ ↦ heldNew)] ++
  (completing 0 (pairedNics 4 5 1)).map (fun a ↦ .inl (.handshake a)) ++
  [.inl (registering 4096 4096 [10, 11])]

/-- Sixteen bytes from the page of the first engine to that of the second. -/
def sending (offset : ℕ) : TransferDesc :=
  ⟨4096 + offset, 8192 + offset, 16, ⟨8192, 4096, [20, 21]⟩⟩

/-- The NIC, the position and the number of operations of each part of a submission. -/
def parts (submission : Exec Submission) : Option (List (ℕ × ℕ × ℕ)) :=
  submission.toOption.map fun s ↦ s.submitted.map fun c ↦ (c.1.nic, c.1.position, c.2.length)

/-- The state that they lead to. -/
abbrev exchanged (s : Engine × Engine) : Prop :=
  s.1.sent.find? 0 = some (pairedNics 8 9 1) ∧ s.2.sent.find? 0 = some (pairedNics 4 5 1) ∧
    s.1.completions.find? "b" = some ⟨0, pairedNics 4 5 1⟩ ∧
    s.2.completions.find? "a" = some ⟨0, pairedNics 8 9 1⟩ ∧
    (s.1.state.registered.entries.find? 4096).map RegisteredMemoryEntry.range =
      some (4096, 4096) ∧
    (s.2.state.registered.entries.find? 8192).map RegisteredMemoryEntry.descriptor =
      some ⟨8192, 4096, [20, 21]⟩ ∧
    parts (twoNics.batchTransferAsync s.1.state .write "b" [sending 0, sending 16, sending 32] id
      fun _ ↦ heldNew) = some [(0, 0, 1), (0, 1, 1), (1, 0, 1)]

theorem exists_exchanged : ∃ history s,
    ((twoNics.transferEngine.restrict EngineAction.Unnamed).pair
      (twoNics.transferEngine.restrict EngineAction.Unnamed)).Run history s ∧ exchanged s :=
  exists_run_of_replay (step_of_pairNext step_of_nextCall step_of_nextCall) exchanging exchanged
    (show (replay _ _ (twoNics.engine, twoNics.engine)).any _ = true from rfl)

/-- The first of the two engines has a connection with all of its sessions. -/
theorem engine_calls_return_connected : ∃ history e conn,
    (twoNics.transferEngine.restrict EngineAction.Unnamed).Run history e ∧
      e.state.addrConnections.find? "b" = some conn ∧ Established twoNics conn := by
  obtain ⟨_, ⟨a, b⟩, hrun, _, _, hcompleted, _⟩ := exists_exchanged
  obtain ⟨⟨history, hfirst⟩, _⟩ := hrun.of_pair
  obtain ⟨conn, hconn, _⟩ := (transferEngine_ready hfirst).linked.agreed _ _ hcompleted
  obtain ⟨_, hconnections, _⟩ := engine_calls_return hfirst
  exact ⟨history, a, conn, hfirst, hconn, (hconnections "b" conn hconn).1⟩

end Scenario

end Pegastore.Rdma
