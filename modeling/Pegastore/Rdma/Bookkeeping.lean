import Pegastore.Rdma.Pending

/-!
# The books of the handshakes

`Booked` ties the state under the lock to the handshakes under way: the addresses in `connecting`
are theirs, the queues hold what they have pushed and not popped, and no connection has one of their
addresses. It needs that the sessions of the handshakes under way have distinct numbers on each NIC,
also those that a failed completion has dropped, because the client still has their numbers and will
abort with them.

While the books are in order, `Effect` says what each piece of a function does.
-/

set_option autoImplicit false
set_option relaxedAutoImplicit false

namespace Pegastore.Rdma

open Outcome Transition Buckets

/-! ### Shapes -/

/-- All sessions of a handshake are there. -/
structure Full (backend : RcBackend) (sessions : List (List RcSession)) : Prop where
  nics : sessions.length = backend.nicCount
  qps : ∀ row ∈ sessions, row.length = backend.qpsPerPeer

/-- Metadata with an endpoint for every session. -/
structure FullRemote (backend : RcBackend) (remote : List NicHandshake) : Prop where
  nics : remote.length = backend.nicCount
  qps : ∀ nic ∈ remote, nic.endpoints.length = backend.qpsPerPeer

theorem fullRemote_of_checkRemote {backend : RcBackend} {remote : List NicHandshake}
    (h : backend.checkRemote remote = .ok ()) : FullRemote backend remote := by
  unfold RcBackend.checkRemote at h
  split_ifs at h with hlength
  split at h
  · cases h
  · rename_i hnone
    refine ⟨not_not.mp hlength, fun nic hnic ↦ ?_⟩
    obtain ⟨i, hi⟩ := List.mem_iff_getElem?.mp hnic
    have hmem : (nic, i) ∈ remote.zipIdx := List.mem_zipIdx_iff_getElem?.mpr hi
    simpa using List.find?_eq_none.mp hnone (nic, i) hmem

/-- What the phase says about the sessions. -/
def Fits (backend : RcBackend) (h : Handshake) : HandshakePhase → Prop
  | .creating nicIdx qpIdx => qpIdx < backend.qpsPerPeer ∧ h.sessions.length = backend.nicCount ∧
    ∀ (i : ℕ) row, h.sessions[i]? = some row → row.length =
      if i < nicIdx then backend.qpsPerPeer else if i = nicIdx then qpIdx else 0
  | .unprepared _ => True
  | .prepared => Full backend h.sessions
  | .connecting remote pending todo => Full backend h.sessions ∧ pending = h.sessions ∧
    FullRemote backend remote ∧ ∀ cell ∈ todo, cell ∈ cells pending
  | .failed _ popped => Full backend h.sessions ∧
    (popped = 0 ∨ popped = (slots h.sessions).length)

/-- A handshake has its own sessions, each at its place. -/
structure Shaped (backend : RcBackend) (id : ℕ) (h : Handshake) : Prop where
  own : ∀ i j session, ((i, j), session) ∈ cells h.sessions →
    session.handshake = id ∧ session.nic = i ∧ session.position = j
  fits : Fits backend h h.phase

theorem unpopped_sublist (h : Handshake) : h.unpopped.Sublist (slots h.sessions) := by
  unfold Handshake.unpopped
  split
  · exact List.Sublist.refl _
  · exact List.drop_sublist _ _
  · exact List.nil_sublist _

theorem valuesOf_unpopped_sublist (h : Handshake) (i : ℕ) :
    (valuesOf h.unpopped i).Sublist (h.sessionsOn i) := by
  have hsub : (valuesOf h.unpopped i).Sublist (valuesOf (slots h.sessions) i) :=
    ((unpopped_sublist h).filter _).map _
  rwa [valuesOf_slots] at hsub

/-- The loop is over: all sessions are there. -/
theorem full_of_creating {backend : RcBackend} {h : Handshake} {nicIdx qpIdx : ℕ}
    (hfits : Fits backend h (.creating nicIdx qpIdx)) (hend : backend.runtimes[nicIdx]? = none) :
    Full backend h.sessions := by
  obtain ⟨_, hlength, hrows⟩ := hfits
  refine ⟨hlength, fun row hrow ↦ ?_⟩
  obtain ⟨i, hi⟩ := List.mem_iff_getElem?.mp hrow
  have hlt : i < nicIdx := by
    have hi' := (List.getElem?_eq_some_iff.mp hi).1
    have hle : backend.nicCount ≤ nicIdx := List.getElem?_eq_none_iff.mp hend
    omega
  rw [hrows i row hi, if_pos hlt]

/-! ### The invariant -/

/-- The state under the lock agrees with the handshakes under way. -/
structure Booked (backend : RcBackend) (state : RcBackendState) (entries : List (ℕ × Handshake)) :
    Prop where
  nics_length : state.nics.length = backend.nicCount
  connecting : state.connecting.Perm (entries.map fun e ↦ e.2.addr)
  addrs : (entries.map fun e ↦ e.2.addr).Nodup
  apart : ∀ e ∈ entries, state.addrConnections.find? e.2.addr = none
  queues : ∀ (i : ℕ) pending, state.nics[i]? = some pending →
    pending.Perm (entries.flatMap fun e ↦ valuesOf e.2.unpopped i)
  numbers : ∀ i : ℕ, ((entries.flatMap fun e ↦ e.2.sessionsOn i).map RcSession.qpNum).Nodup
  shaped : ∀ e ∈ entries, Shaped backend e.1 e.2
  connections : ∀ addr conn, state.addrConnections.find? addr = some conn →
    conn.nics.length = backend.nicCount ∧
      ∀ nic ∈ conn.nics, nic.sessions.length = backend.qpsPerPeer

namespace Booked

variable {backend : RcBackend} {state : RcBackendState} {entries others : List (ℕ × Handshake)}
  {id : ℕ} {h new : Handshake} {nics : List PerNicState}

theorem start (backend : RcBackend) : Booked backend (RcBackendState.new backend.nicCount) [] where
  nics_length := List.length_replicate
  connecting := List.Perm.refl _
  addrs := List.nodup_nil
  apart := nofun
  queues := by
    intro i pending hpending
    rw [List.eq_of_mem_replicate (List.mem_of_getElem? hpending)]
    exact List.Perm.refl _
  numbers := fun _ ↦ List.nodup_nil
  shaped := nofun
  connections := nofun

/-- The order of the handshakes does not matter. -/
theorem perm (hb : Booked backend state entries) (hperm : entries.Perm others) :
    Booked backend state others where
  nics_length := hb.nics_length
  connecting := hb.connecting.trans (hperm.map _)
  addrs := (hperm.map _).nodup_iff.mp hb.addrs
  apart := fun e he ↦ hb.apart e (hperm.mem_iff.mpr he)
  queues := fun i pending hpending ↦ (hb.queues i pending hpending).trans (hperm.flatMap_right _)
  numbers := fun i ↦ ((hperm.flatMap_right _).map _).nodup_iff.mp (hb.numbers i)
  shaped := fun e he ↦ hb.shaped e (hperm.mem_iff.mpr he)
  connections := hb.connections

/-- The queues of booked handshakes have distinct numbers. -/
theorem distinct (hb : Booked backend state entries) : Distinct state.nics := by
  intro pending hpending
  obtain ⟨i, hi⟩ := List.mem_iff_getElem?.mp hpending
  have hsub : (entries.flatMap fun e ↦ valuesOf e.2.unpopped i).Sublist
      (entries.flatMap fun e ↦ e.2.sessionsOn i) := by
    clear hb
    induction entries with
    | nil => exact List.Sublist.refl _
    | cons e rest ih => exact (valuesOf_unpopped_sublist e.2 i).append ih
  exact ((hb.queues i pending hi).map _).nodup_iff.mpr ((hb.numbers i).sublist (hsub.map _))

/-- Without the numbers of a handshake, the queues are those of the others. -/
theorem queues_without (hb : Booked backend state ((id, h) :: others)) {i : ℕ}
    {pending : PerNicState}
    (hpending : (without (qpSlots h.localNics) state.nics)[i]? = some pending) :
    pending.Perm (others.flatMap fun e ↦ valuesOf e.2.unpopped i) := by
  rw [getElem?_without] at hpending
  obtain ⟨before, hbefore, rfl⟩ := Option.map_eq_some_iff.mp hpending
  refine ((hb.queues i before hbefore).filter _).trans ?_
  rw [List.flatMap_cons, List.filter_append]
  have hmine : (valuesOf h.unpopped i).filter
      (fun session ↦ (i, session.qpNum) ∉ qpSlots h.localNics) = [] := by
    refine List.filter_eq_nil_iff.mpr fun session hsession ↦ ?_
    have hin := (valuesOf_unpopped_sublist h i).subset hsession
    simpa using (mem_qpSlots h).mpr (List.mem_map_of_mem hin)
  have hothers : (others.flatMap fun e ↦ valuesOf e.2.unpopped i).filter
      (fun session ↦ (i, session.qpNum) ∉ qpSlots h.localNics) =
      others.flatMap fun e ↦ valuesOf e.2.unpopped i := by
    refine List.filter_eq_self.mpr fun session hsession ↦ decide_eq_true fun hnamed ↦ ?_
    obtain ⟨e, he, hwaits⟩ := List.mem_flatMap.mp hsession
    have hnumbers := hb.numbers i
    rw [List.flatMap_cons, List.map_append] at hnumbers
    refine List.disjoint_of_nodup_append hnumbers ((mem_qpSlots h).mp hnamed) ?_
    refine List.mem_map_of_mem (List.mem_flatMap.mpr ⟨e, he, ?_⟩)
    exact (valuesOf_unpopped_sublist e.2 i).subset hwaits
  rw [hmine, hothers, List.nil_append]

theorem head_fits (hb : Booked backend state ((id, h) :: others)) {phase : HandshakePhase}
    (hphase : h.phase = phase) : Fits backend h phase :=
  hphase ▸ (hb.shaped _ List.mem_cons_self).fits

/-- A handshake with nothing in the queues leaves them to the others. -/
theorem queues_others (hb : Booked backend state ((id, h) :: others)) (hnil : h.unpopped = [])
    {i : ℕ} {pending : PerNicState} (hpending : state.nics[i]? = some pending) :
    pending.Perm (others.flatMap fun e ↦ valuesOf e.2.unpopped i) := by
  have hqueue := hb.queues i pending hpending
  rwa [List.flatMap_cons, hnil] at hqueue

/-- A handshake goes on, with new queues. -/
theorem update (hb : Booked backend state ((id, h) :: others)) (haddr : new.addr = h.addr)
    (hlength : nics.length = backend.nicCount)
    (hqueues : ∀ (i : ℕ) pending, nics[i]? = some pending → pending.Perm
      (valuesOf new.unpopped i ++ others.flatMap fun e ↦ valuesOf e.2.unpopped i))
    (hnumbers : ∀ i : ℕ, ((new.sessionsOn i ++
      others.flatMap fun e ↦ e.2.sessionsOn i).map RcSession.qpNum).Nodup)
    (hshaped : Shaped backend id new) :
    Booked backend { state with nics := nics } ((id, new) :: others) where
  nics_length := hlength
  connecting := by
    have hconnecting := hb.connecting
    rw [List.map_cons] at hconnecting ⊢
    rwa [haddr]
  addrs := by
    have haddrs := hb.addrs
    rw [List.map_cons] at haddrs ⊢
    rwa [haddr]
  apart := by
    refine List.forall_mem_cons.mpr ⟨?_, fun e he ↦ hb.apart e (List.mem_cons_of_mem _ he)⟩
    dsimp only
    rw [haddr]
    exact hb.apart _ List.mem_cons_self
  queues := hqueues
  numbers := hnumbers
  shaped := List.forall_mem_cons.mpr
    ⟨hshaped, fun e he ↦ hb.shaped e (List.mem_cons_of_mem _ he)⟩
  connections := hb.connections

/-- A handshake goes on without new sessions and leaves the queues alone. -/
theorem goOn (hb : Booked backend state ((id, h) :: others)) (haddr : new.addr = h.addr)
    (hunpopped : new.unpopped = h.unpopped)
    (hsessions : ∀ i, (new.sessionsOn i).Sublist (h.sessionsOn i))
    (hshaped : Shaped backend id new) : Booked backend state ((id, new) :: others) := by
  refine hb.update haddr hb.nics_length ?_ (fun i ↦ ?_) hshaped
  · rw [hunpopped]
    exact hb.queues
  · exact (hb.numbers i).sublist (((hsessions i).append_right _).map _)

/-- A handshake ends. -/
theorem finish (hb : Booked backend state ((id, h) :: others))
    {conns : FinMap String AddrConnection} (hlength : nics.length = backend.nicCount)
    (hqueues : ∀ (i : ℕ) pending, nics[i]? = some pending →
      pending.Perm (others.flatMap fun e ↦ valuesOf e.2.unpopped i))
    (hother : ∀ addr, addr ≠ h.addr → conns.find? addr = state.addrConnections.find? addr)
    (hconns : ∀ conn, conns.find? h.addr = some conn → conn.nics.length = backend.nicCount ∧
      ∀ nic ∈ conn.nics, nic.sessions.length = backend.qpsPerPeer) :
    Booked backend { state with
      nics := nics
      addrConnections := conns
      connecting := state.connecting.erase h.addr } others where
  nics_length := hlength
  connecting := by
    have herase := hb.connecting.erase h.addr
    rwa [List.map_cons, List.erase_cons_head] at herase
  addrs := (List.nodup_cons.mp hb.addrs).2
  apart := by
    intro e he
    have hne : e.2.addr ≠ h.addr := by
      intro heq
      exact (List.nodup_cons.mp hb.addrs).1 (List.mem_map.mpr ⟨e, he, heq⟩)
    exact (hother _ hne).trans (hb.apart e (List.mem_cons_of_mem _ he))
  queues := hqueues
  numbers := by
    intro i
    have hnumbers := hb.numbers i
    rw [List.flatMap_cons] at hnumbers
    exact hnumbers.sublist ((List.sublist_append_right _ _).map _)
  shaped := fun e he ↦ hb.shaped e (List.mem_cons_of_mem _ he)
  connections := by
    intro addr conn hconn
    by_cases heq : addr = h.addr
    · exact hconns conn (heq ▸ hconn)
    · exact hb.connections addr conn ((hother addr heq).symm.trans hconn)

theorem invalidate (hb : Booked backend state entries) (addr : String) :
    Booked backend { state with addrConnections := state.addrConnections.erase addr } entries where
  nics_length := hb.nics_length
  connecting := hb.connecting
  addrs := hb.addrs
  apart := by
    intro e he
    dsimp only
    rw [FinMap.find?_erase, hb.apart e he, ite_self]
  queues := hb.queues
  numbers := hb.numbers
  shaped := hb.shaped
  connections := by
    intro other conn hconn
    dsimp only at hconn
    rw [FinMap.find?_erase] at hconn
    split_ifs at hconn
    exact hb.connections other conn hconn

/-- A handshake begins. -/
theorem prepare (hb : Booked backend state entries) {addr : String}
    (hnone : state.addrConnections.find? addr = none) (hnew : addr ∉ state.connecting) (id : ℕ) :
    Booked backend { state with connecting := addr :: state.connecting }
      ((id, ⟨addr, List.replicate backend.nicCount [], .creating 0 0⟩) :: entries) where
  nics_length := hb.nics_length
  connecting := hb.connecting.cons addr
  addrs := List.nodup_cons.mpr ⟨fun hin ↦ hnew (hb.connecting.mem_iff.mpr hin), hb.addrs⟩
  apart := List.forall_mem_cons.mpr ⟨hnone, hb.apart⟩
  queues := hb.queues
  numbers := by
    intro i
    have hempty : (List.replicate backend.nicCount ([] : List RcSession))[i]?.getD [] = [] := by
      rw [List.getElem?_replicate]
      split_ifs <;> rfl
    rw [List.flatMap_cons]
    unfold Handshake.sessionsOn
    rw [hempty]
    exact hb.numbers i
  shaped := by
    refine List.forall_mem_cons.mpr ⟨⟨fun i j session hcell ↦ ?_, ?_⟩, hb.shaped⟩
    · obtain ⟨row, hrow, hsession⟩ := mem_cells.mp hcell
      rw [List.eq_of_mem_replicate (List.mem_of_getElem? hrow)] at hsession
      cases hsession
    · refine ⟨backend.qpsPerPeer_pos, List.length_replicate, fun i row hrow ↦ ?_⟩
      rw [List.eq_of_mem_replicate (List.mem_of_getElem? hrow), if_neg (Nat.not_lt_zero i)]
      simp
  connections := hb.connections

end Booked

/-! ### What the pieces do -/

/-- What each piece does while the books are in order. -/
inductive Effect (backend : RcBackend) (e : Engine) : HandshakeAction → Engine → Prop
  | busy {addr : String}
    (hbusy : (e.state.addrConnections.find? addr).isSome ∨ addr ∈ e.state.connecting) :
    Effect backend e (.prepare addr) e
  | prepare {addr : String} (hnone : e.state.addrConnections.find? addr = none)
    (hnew : addr ∉ e.state.connecting) : Effect backend e (.prepare addr) { e with
      state := { e.state with connecting := addr :: e.state.connecting }
      handshakes := e.handshakes.insert e.issued
        ⟨addr, List.replicate backend.nicCount [], .creating 0 0⟩
      issued := e.issued + 1 }
  | create {id : ℕ} {h : Handshake} {nicIdx qpIdx : ℕ} {runtime : RcRuntime} (qpNum : ℕ)
    (hfind : e.handshakes.find? id = some h) (hphase : h.phase = .creating nicIdx qpIdx)
    (hnic : backend.runtimes[nicIdx]? = some runtime) :
    Effect backend e (.client id (.create qpNum)) { e.goOn id
        { h with sessions := h.sessions.modify nicIdx fun row ↦
            row ++ [RcSession.create runtime e.psnCounter qpNum id nicIdx qpIdx] }
        (backend.afterQp nicIdx qpIdx) with psnCounter := (e.psnCounter + 1) % 2 ^ 64 }
  | createFails {id : ℕ} {h : Handshake} {nicIdx qpIdx : ℕ} {runtime : RcRuntime}
    (message : String) (hfind : e.handshakes.find? id = some h)
    (hphase : h.phase = .creating nicIdx qpIdx)
    (hnic : backend.runtimes[nicIdx]? = some runtime) :
    Effect backend e (.client id (.createFails message))
      (RcBackend.createQpFails e id h runtime qpIdx message)
  | push {id : ℕ} {h : Handshake} {nicIdx qpIdx : ℕ} (hfind : e.handshakes.find? id = some h)
    (hphase : h.phase = .creating nicIdx qpIdx) (hend : backend.runtimes[nicIdx]? = none) :
    Effect backend e (.client id .push) { e.goOn id h .prepared with
      state := { e.state with
        nics := bucketsOf backend.nicCount (slots e.state.nics ++ slots h.sessions) }
      sent := e.sent.insert id h.localNics }
  | unprepare {id : ℕ} {h : Handshake} {error : TransferError}
    (hfind : e.handshakes.find? id = some h) (hphase : h.phase = .unprepared error) :
    Effect backend e (.client id .unprepare) { e with
      state := { e.state with connecting := e.state.connecting.erase h.addr }
      handshakes := e.handshakes.erase id }
  | refuse {id : ℕ} {h : Handshake} {remote : List NicHandshake} {error : TransferError}
    (hfind : e.handshakes.find? id = some h) (hphase : h.phase = .prepared)
    (hcheck : backend.checkRemote remote = .error error) :
    Effect backend e (.client id (.complete remote)) (e.goOn id h (.failed error 0))
  | pop {id : ℕ} {h : Handshake} {remote : List NicHandshake}
    (hfind : e.handshakes.find? id = some h) (hphase : h.phase = .prepared)
    (hcheck : backend.checkRemote remote = .ok ()) :
    Effect backend e (.client id (.complete remote))
      { e.goOn id h (.connecting remote h.sessions (cells h.sessions)) with
        state := { e.state with nics := without (qpSlots h.localNics) e.state.nics } }
  | connect {id : ℕ} {h : Handshake} {remote : List NicHandshake}
    {pending : List (List RcSession)} {cell : (ℕ × ℕ) × RcSession}
    {todo : List ((ℕ × ℕ) × RcSession)} {modified : TransferResult Unit} {nic : NicHandshake}
    {endpoint : RcEndpoint} (hfind : e.handshakes.find? id = some h)
    (hphase : h.phase = .connecting remote pending (cell :: todo))
    (hremote : remote[cell.1.1]? = some nic)
    (hendpoint : nic.endpoints[cell.1.2]? = some endpoint) :
    Effect backend e (.client id (.connect modified))
      { e.goOn id h (.connecting remote pending todo) with
        connects := e.connects ++ [(cell.2, endpoint)] }
  | connectFails {id : ℕ} {h : Handshake} {remote : List NicHandshake}
    {pending : List (List RcSession)} {cell : (ℕ × ℕ) × RcSession}
    {todo : List ((ℕ × ℕ) × RcSession)} {modified : TransferResult Unit} (error : TransferError)
    (hfind : e.handshakes.find? id = some h)
    (hphase : h.phase = .connecting remote pending (cell :: todo)) :
    Effect backend e (.client id (.connect modified))
      (e.goOn id h (.failed error (slots h.sessions).length))
  | insert {id : ℕ} {h : Handshake} {remote : List NicHandshake}
    {pending : List (List RcSession)} (hfind : e.handshakes.find? id = some h)
    (hphase : h.phase = .connecting remote pending []) :
    Effect backend e (.client id .insert) { e with
      state := { e.state with
        connecting := e.state.connecting.erase h.addr
        addrConnections := e.state.addrConnections.insert h.addr
          ⟨pending.map fun sessions ↦ ⟨sessions, 0⟩, h.localNics⟩ }
      handshakes := e.handshakes.erase id
      completions := e.completions.insert h.addr ⟨id, remote⟩ }
  | abort {id : ℕ} {h : Handshake} (hfind : e.handshakes.find? id = some h) :
    Effect backend e (.client id .abort) { e with
      state := { e.state with
        nics := without (qpSlots h.localNics) e.state.nics
        connecting := e.state.connecting.erase h.addr }
      handshakes := e.handshakes.erase id }
  | invalidate (addr : String) :
    Effect backend e (.invalidate addr) (RcBackend.invalidateConnection e addr)

namespace Booked

variable {backend : RcBackend} {e : Engine} {id : ℕ} {h : Handshake}

/-- The books, with one handshake in front. -/
theorem front (hb : Booked backend e.state e.handshakes.entries)
    (hfind : e.handshakes.find? id = some h) :
    Booked backend e.state ((id, h) :: (e.handshakes.erase id).entries) :=
  hb.perm (FinMap.entries_perm hfind)

/-- The address of a handshake is in the set. -/
theorem mem_connecting (hb : Booked backend e.state e.handshakes.entries)
    (hfind : e.handshakes.find? id = some h) : h.addr ∈ e.state.connecting :=
  (hb.front hfind).connecting.mem_iff.mpr List.mem_cons_self

theorem fits (hb : Booked backend e.state e.handshakes.entries)
    (hfind : e.handshakes.find? id = some h) {phase : HandshakePhase} (hphase : h.phase = phase) :
    Fits backend h phase :=
  (hb.front hfind).head_fits hphase

/-- The slots of a handshake are on NICs. -/
theorem lt_of_mem_qpSlots (hfull : h.sessions.length = backend.nicCount) {slot : ℕ × ℕ}
    (hslot : slot ∈ qpSlots h.localNics) : slot.1 < backend.nicCount := by
  rw [qpSlots_localNics] at hslot
  obtain ⟨item, hitem, rfl⟩ := List.mem_map.mp hslot
  exact hfull ▸ lt_of_mem_slots hitem

theorem removeAll_localNics (hb : Booked backend e.state e.handshakes.entries)
    (hfull : h.sessions.length = backend.nicCount) :
    removeAll (qpSlots h.localNics) e.state.nics =
      .ok (without (qpSlots h.localNics) e.state.nics) := by
  refine removeAll_eq _ hb.distinct fun slot hslot ↦ ?_
  rw [hb.nics_length]
  exact lt_of_mem_qpSlots hfull hslot

/-- A handshake that waits pops its own sessions. -/
theorem popAll_localNics (hb : Booked backend e.state e.handshakes.entries)
    (hfind : e.handshakes.find? id = some h) (hphase : h.phase = .prepared) :
    popAll (qpSlots h.localNics) e.state.nics (List.replicate backend.nicCount []) =
      .ok (without (qpSlots h.localNics) e.state.nics, .ok h.sessions) := by
  have hfront := hb.front hfind
  have hfull : Full backend h.sessions := hb.fits hfind hphase
  have hmem : ∀ item ∈ slots h.sessions, ∃ pending, e.state.nics[item.1]? = some pending ∧
      item.2 ∈ pending := by
    intro item hitem
    have hlt : item.1 < e.state.nics.length := by
      rw [hb.nics_length, ← hfull.nics]
      exact lt_of_mem_slots hitem
    have hget := List.getElem?_eq_getElem hlt
    refine ⟨_, hget, (hfront.queues _ _ hget).mem_iff.mpr ?_⟩
    refine List.mem_flatMap.mpr ⟨_, List.mem_cons_self, ?_⟩
    unfold Handshake.unpopped
    rw [hphase]
    dsimp only
    rw [valuesOf_slots]
    exact (mem_slots_sessions h).mp hitem
  have hnodup : (numbered (slots h.sessions)).Nodup := by
    refine nodup_of_nodup_valuesOf fun i ↦ ?_
    unfold numbered
    rw [valuesOf_map, valuesOf_slots]
    have hnumbers := hfront.numbers i
    rw [List.flatMap_cons, List.map_append] at hnumbers
    exact (List.nodup_append.mp hnumbers).1
  have hpop := popAll_eq (slots h.sessions) [] hb.distinct hb.nics_length hmem hnodup
  rw [List.nil_append, bucketsOf_nil, ← hfull.nics, bucketsOf_slots, hfull.nics] at hpop
  rw [qpSlots_localNics]
  exact hpop

/-- The sessions of a handshake are pushed. -/
theorem foldlM_pushAt_slots (hb : Booked backend e.state e.handshakes.entries)
    (hfull : h.sessions.length = backend.nicCount) :
    (slots h.sessions).foldlM (fun nics slot ↦ pushAt nics slot.1 slot.2) e.state.nics =
      .ok (bucketsOf backend.nicCount (slots e.state.nics ++ slots h.sessions)) := by
  have hslot : ∀ slot ∈ slots h.sessions,
      (Except.ok slot.1 : Exec ℕ) = .ok slot.1 ∧ slot.1 < backend.nicCount :=
    fun slot hmem ↦ ⟨rfl, hfull ▸ lt_of_mem_slots hmem⟩
  have hfold := foldlM_pushAt Prod.snd (slots h.sessions) hslot (slots e.state.nics)
  have hnics := bucketsOf_slots e.state.nics
  rw [hb.nics_length] at hnics
  rw [hnics] at hfold
  simpa using hfold

theorem createQp_effect (hb : Booked backend e.state e.handshakes.entries)
    (hfind : e.handshakes.find? id = some h) {nicIdx qpIdx : ℕ}
    (hphase : h.phase = .creating nicIdx qpIdx) {runtime : RcRuntime}
    (hnic : backend.runtimes[nicIdx]? = some runtime) (qpNum : ℕ) :
    ∃ e', backend.createQp e id h runtime nicIdx qpIdx qpNum = .ok e' ∧
      Effect backend e (.client id (.create qpNum)) e' := by
  have hlt : nicIdx < h.sessions.length := by
    rw [(hb.fits hfind hphase).2.1]
    exact (List.getElem?_eq_some_iff.mp hnic).1
  refine ⟨_, ?_, .create qpNum hfind hphase hnic⟩
  unfold RcBackend.createQp pushAt
  dsimp only
  rw [if_pos hlt]
  rfl

theorem pushSessions_effect (hb : Booked backend e.state e.handshakes.entries)
    (hfind : e.handshakes.find? id = some h) {nicIdx qpIdx : ℕ}
    (hphase : h.phase = .creating nicIdx qpIdx) (hend : backend.runtimes[nicIdx]? = none) :
    ∃ e', RcBackend.pushSessions e id h = .ok e' ∧ Effect backend e (.client id .push) e' := by
  refine ⟨_, ?_, .push hfind hphase hend⟩
  unfold RcBackend.pushSessions
  rw [hb.foldlM_pushAt_slots (hb.fits hfind hphase).2.1]
  rfl

theorem unprepare_effect (hb : Booked backend e.state e.handshakes.entries)
    (hfind : e.handshakes.find? id = some h) {error : TransferError}
    (hphase : h.phase = .unprepared error) :
    ∃ e', RcBackend.unprepare e id h = .ok e' ∧ Effect backend e (.client id .unprepare) e' := by
  refine ⟨_, ?_, .unprepare hfind hphase⟩
  unfold RcBackend.unprepare assert
  rw [if_pos (decide_eq_true (hb.mem_connecting hfind))]
  rfl

theorem startCompletion_effect (hb : Booked backend e.state e.handshakes.entries)
    (hfind : e.handshakes.find? id = some h) (hphase : h.phase = .prepared)
    (remote : List NicHandshake) : ∃ e', backend.startCompletion e id h remote = .ok e' ∧
      Effect backend e (.client id (.complete remote)) e' := by
  unfold RcBackend.startCompletion
  cases hcheck : backend.checkRemote remote with
  | error error => exact ⟨_, rfl, .refuse hfind hphase hcheck⟩
  | ok _ =>
    refine ⟨_, ?_, .pop hfind hphase hcheck⟩
    have hnone : e.state.addrConnections.find? h.addr = none :=
      (hb.front hfind).apart _ List.mem_cons_self
    dsimp only
    rw [hnone, if_neg (by simp), hb.popAll_localNics hfind hphase]
    rfl

/-- A session that has to be connected has its counterpart in the metadata of the peer. -/
theorem exists_endpoint (hb : Booked backend e.state e.handshakes.entries)
    (hfind : e.handshakes.find? id = some h) {remote : List NicHandshake}
    {pending : List (List RcSession)} {cell : (ℕ × ℕ) × RcSession}
    {todo : List ((ℕ × ℕ) × RcSession)}
    (hphase : h.phase = .connecting remote pending (cell :: todo)) :
    ∃ nic endpoint runtime, remote[cell.1.1]? = some nic ∧
      nic.endpoints[cell.1.2]? = some endpoint ∧ backend.runtimes[cell.1.1]? = some runtime := by
  obtain ⟨hfull, rfl, hremote, htodo⟩ := hb.fits hfind hphase
  obtain ⟨row, hrow, hsession⟩ := mem_cells.mp (htodo cell List.mem_cons_self)
  have hi : cell.1.1 < backend.nicCount := hfull.nics ▸ (List.getElem?_eq_some_iff.mp hrow).1
  have hj : cell.1.2 < backend.qpsPerPeer :=
    hfull.qps row (List.mem_of_getElem? hrow) ▸ (List.getElem?_eq_some_iff.mp hsession).1
  have hnic := List.getElem?_eq_getElem (hremote.nics.symm ▸ hi : cell.1.1 < remote.length)
  have hqps := hremote.qps _ (List.mem_of_getElem? hnic)
  exact ⟨_, _, _, hnic, List.getElem?_eq_getElem (hqps.symm ▸ hj), List.getElem?_eq_getElem hi⟩

theorem connectNext_effect (hb : Booked backend e.state e.handshakes.entries)
    (hfind : e.handshakes.find? id = some h) {remote : List NicHandshake}
    {pending : List (List RcSession)} {cell : (ℕ × ℕ) × RcSession}
    {todo : List ((ℕ × ℕ) × RcSession)}
    (hphase : h.phase = .connecting remote pending (cell :: todo))
    (modified : TransferResult Unit) :
    ∃ e', backend.connectNext e id h remote pending cell todo modified = .ok e' ∧
      Effect backend e (.client id (.connect modified)) e' := by
  obtain ⟨nic, endpoint, runtime, hnic, hendpoint, hruntime⟩ := hb.exists_endpoint hfind hphase
  unfold RcBackend.connectNext
  rw [index_eq_ok.mpr hnic, ok_bind, index_eq_ok.mpr hendpoint, ok_bind, index_eq_ok.mpr hruntime,
    ok_bind]
  cases RcSession.connect runtime endpoint modified with
  | error error => exact ⟨_, rfl, .connectFails error hfind hphase⟩
  | ok _ => exact ⟨_, rfl, .connect hfind hphase hnic hendpoint⟩

theorem insertConnection_effect (hb : Booked backend e.state e.handshakes.entries)
    (hfind : e.handshakes.find? id = some h) {remote : List NicHandshake}
    {pending : List (List RcSession)} (hphase : h.phase = .connecting remote pending []) :
    ∃ e', RcBackend.insertConnection e id h remote pending = .ok e' ∧
      Effect backend e (.client id .insert) e' := by
  refine ⟨_, ?_, .insert hfind hphase⟩
  unfold RcBackend.insertConnection assert
  rw [if_pos (decide_eq_true (hb.mem_connecting hfind))]
  rfl

theorem abortHandshake_effect (hb : Booked backend e.state e.handshakes.entries)
    (hfind : e.handshakes.find? id = some h) (hfull : Full backend h.sessions) :
    ∃ e', RcBackend.abortHandshake e id h = .ok e' ∧ Effect backend e (.client id .abort) e' := by
  refine ⟨_, ?_, .abort hfind⟩
  unfold RcBackend.abortHandshake assert
  rw [if_pos (decide_eq_true (hb.mem_connecting hfind)), ok_bind, hb.removeAll_localNics hfull.nics]
  rfl

/-- Every piece that can run has its effect; none panics. -/
theorem exec_effect (hb : Booked backend e.state e.handshakes.entries) {action : HandshakeAction}
    {r : Exec Engine} (hexec : backend.exec e action = some r) :
    ∃ e', r = .ok e' ∧ Effect backend e action e' := by
  cases action with
  | prepare addr =>
    cases hexec
    refine ⟨_, rfl, ?_⟩
    unfold RcBackend.getOrPrepare
    split_ifs with hconn hconnecting
    · exact .busy (Or.inl hconn)
    · exact .busy (Or.inr hconnecting)
    · exact .prepare (Option.not_isSome_iff_eq_none.mp hconn) hconnecting
  | invalidate addr =>
    cases hexec
    exact ⟨_, rfl, .invalidate addr⟩
  | client id move =>
    obtain ⟨h, hfind, hadvance⟩ := Option.bind_eq_some_iff.mp hexec
    unfold RcBackend.advance at hadvance
    split at hadvance <;> rename_i hphase
    · split at hadvance
      · rename_i hnic
        split_ifs at hadvance
        cases hadvance
        exact hb.createQp_effect hfind hphase hnic _
      · cases hadvance
    · split at hadvance
      · rename_i hnic
        cases hadvance
        exact ⟨_, rfl, .createFails _ hfind hphase hnic⟩
      · cases hadvance
    · split at hadvance
      · cases hadvance
      · rename_i hend
        cases hadvance
        exact hb.pushSessions_effect hfind hphase hend
    · cases hadvance
      exact hb.unprepare_effect hfind hphase
    · cases hadvance
      exact hb.startCompletion_effect hfind hphase _
    · cases hadvance
      exact hb.connectNext_effect hfind hphase _
    · cases hadvance
      exact hb.insertConnection_effect hfind hphase
    · cases hadvance
      exact hb.abortHandshake_effect hfind (hb.fits hfind hphase)
    · cases hadvance
      exact hb.abortHandshake_effect hfind (hb.fits hfind hphase).1
    · cases hadvance

end Booked

end Pegastore.Rdma
