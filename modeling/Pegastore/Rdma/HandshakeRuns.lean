import Pegastore.Rdma.Bookkeeping

/-!
# Interleaved handshakes

The books of the handshakes are in order in every interleaving in which a new queue pair never gets
a number that a handshake under way has on the NIC (`Unnamed`); `handshake_bookkeeping` says what
this means for the addresses, the queues and the connections.

The device is free to give out such a number. A completion that fails to connect drops its queue
pairs, and the client still has their numbers; when another handshake gets one of them, the abort of
the first takes the session of the other from the queue (`Scenario.abort_takes_session`).
-/

set_option autoImplicit false
set_option relaxedAutoImplicit false

namespace Pegastore.Rdma

open Outcome Transition Buckets

/-- The books are in order, and the numbers of handshakes are used once. -/
structure Orderly (backend : RcBackend) (e : Engine) : Prop where
  booked : Booked backend e.state e.handshakes.entries
  ids : ∀ id h, e.handshakes.find? id = some h → id < e.issued

/-- The NIC on which a queue pair is created next. -/
def HandshakePhase.nextNic : HandshakePhase → Option ℕ
  | .creating nicIdx _ => some nicIdx
  | _ => none

/-- The device gives a new queue pair a number that a session of a handshake under way has on the
NIC. -/
def Engine.named (e : Engine) : HandshakeAction → Bool
  | .client id (.create qpNum) =>
    ((e.handshakes.find? id).bind fun h ↦ h.phase.nextNic).any fun nicIdx ↦
      e.handshakes.entries.any fun other ↦ (qpSlots other.2.localNics).contains (nicIdx, qpNum)
  | _ => false

/-- It does not. -/
def Unnamed (e : Engine) (action : HandshakeAction) : Prop := e.named action = false

theorem Unnamed.not_mem {e : Engine} {id nicIdx qpIdx qpNum : ℕ} {h : Handshake}
    (hunnamed : Unnamed e (.client id (.create qpNum))) (hfind : e.handshakes.find? id = some h)
    (hphase : h.phase = .creating nicIdx qpIdx) {other : ℕ × Handshake}
    (hother : other ∈ e.handshakes.entries) : (nicIdx, qpNum) ∉ qpSlots other.2.localNics := by
  unfold Unnamed Engine.named at hunnamed
  dsimp only at hunnamed
  rw [hfind, Option.bind_some, hphase] at hunnamed
  simpa using List.any_eq_false.mp hunnamed other hother

theorem unpopped_afterQp {h : Handshake} {backend : RcBackend} {nicIdx qpIdx : ℕ}
    (hphase : h.phase = backend.afterQp nicIdx qpIdx) : h.unpopped = [] := by
  unfold RcBackend.afterQp at hphase
  unfold Handshake.unpopped
  rw [hphase]
  split_ifs <;> rfl

/-- The sessions after one more was created. -/
theorem sessionsOn_modify (h : Handshake) {nicIdx : ℕ} (hlt : nicIdx < h.sessions.length)
    (session : RcSession) (phase : HandshakePhase) (i : ℕ) :
    Handshake.sessionsOn ⟨h.addr, h.sessions.modify nicIdx fun row ↦ row ++ [session], phase⟩ i =
      h.sessionsOn i ++ if i = nicIdx then [session] else [] := by
  unfold Handshake.sessionsOn
  dsimp only
  rw [List.getElem?_modify]
  by_cases heq : nicIdx = i
  · subst heq
    simp [List.getElem?_eq_getElem hlt]
  · simp [heq, Ne.symm heq]

/-- The new session stands at its place, and the loop counters move on. -/
theorem shaped_modify {backend : RcBackend} {id nicIdx qpIdx : ℕ} {h : Handshake}
    (hshaped : Shaped backend id h) (hphase : h.phase = .creating nicIdx qpIdx)
    (runtime : RcRuntime) (psnSeed qpNum : ℕ) :
    Shaped backend id ⟨h.addr, h.sessions.modify nicIdx fun row ↦
      row ++ [RcSession.create runtime psnSeed qpNum id nicIdx qpIdx],
      backend.afterQp nicIdx qpIdx⟩ := by
  have hfits := hshaped.fits
  rw [hphase] at hfits
  obtain ⟨hqp, hlength, hrows⟩ := hfits
  have hnew : ∀ (i : ℕ) row, (h.sessions.modify nicIdx fun row ↦
      row ++ [RcSession.create runtime psnSeed qpNum id nicIdx qpIdx])[i]? = some row →
      ∃ before, h.sessions[i]? = some before ∧ row = before ++
        if i = nicIdx then [RcSession.create runtime psnSeed qpNum id nicIdx qpIdx] else [] := by
    intro i row hrow
    rw [List.getElem?_modify] at hrow
    obtain ⟨before, hbefore, rfl⟩ := Option.map_eq_some_iff.mp hrow
    refine ⟨before, hbefore, ?_⟩
    by_cases heq : nicIdx = i
    · simp [heq]
    · simp [heq, Ne.symm heq]
  refine ⟨fun i j session hcell ↦ ?_, ?_⟩
  · obtain ⟨row, hrow, hsession⟩ := mem_cells.mp hcell
    obtain ⟨before, hbefore, rfl⟩ := hnew i row hrow
    by_cases hold : j < before.length
    · rw [List.getElem?_append_left hold] at hsession
      exact hshaped.own i j session (mem_cells.mpr ⟨before, hbefore, hsession⟩)
    · rw [List.getElem?_append_right (not_lt.mp hold)] at hsession
      by_cases heq : i = nicIdx
      · have hbound := hrows i before hbefore
        rw [if_neg (by omega), if_pos heq] at hbound
        rw [if_pos heq] at hsession
        obtain ⟨hlt, rfl⟩ := List.getElem?_eq_some_iff.mp hsession
        rw [List.length_singleton] at hlt
        have hj : j = qpIdx := by omega
        simp [RcSession.create, heq, hj]
      · rw [if_neg heq] at hsession
        cases hsession
  · -- the length of every row, for the two ways the counters move
    have hlengths : ∀ (i : ℕ) row, (h.sessions.modify nicIdx fun row ↦
        row ++ [RcSession.create runtime psnSeed qpNum id nicIdx qpIdx])[i]? = some row →
        row.length = if i < nicIdx then backend.qpsPerPeer
          else if i = nicIdx then qpIdx + 1 else 0 := by
      intro i row hrow
      obtain ⟨before, hbefore, rfl⟩ := hnew i row hrow
      rw [List.length_append, hrows i before hbefore]
      split_ifs <;> first | omega | simp
    unfold RcBackend.afterQp
    split_ifs with hmore
    · exact ⟨hmore, (List.length_modify _ _ _).trans hlength, hlengths⟩
    · refine ⟨backend.qpsPerPeer_pos, (List.length_modify _ _ _).trans hlength, fun i row hrow ↦ ?_⟩
      rw [hlengths i row hrow]
      split_ifs <;> omega

namespace Booked

variable {backend : RcBackend} {state : RcBackendState} {others : List (ℕ × Handshake)}
  {id nicIdx qpIdx : ℕ} {h : Handshake}

/-- A session is created, with a number that no handshake under way has on the NIC. -/
theorem create (hb : Booked backend state ((id, h) :: others))
    (hphase : h.phase = .creating nicIdx qpIdx) {runtime : RcRuntime}
    (hnic : backend.runtimes[nicIdx]? = some runtime) (psnSeed : ℕ) {qpNum : ℕ}
    (hnew : ∀ e ∈ (id, h) :: others, qpNum ∉ (e.2.sessionsOn nicIdx).map RcSession.qpNum) :
    Booked backend state ((id, ⟨h.addr, h.sessions.modify nicIdx fun row ↦
      row ++ [RcSession.create runtime psnSeed qpNum id nicIdx qpIdx],
      backend.afterQp nicIdx qpIdx⟩) :: others) := by
  have hshaped := hb.shaped _ List.mem_cons_self
  have hlt : nicIdx < h.sessions.length := by
    rw [(hb.head_fits hphase).2.1]
    exact (List.getElem?_eq_some_iff.mp hnic).1
  refine hb.update rfl hb.nics_length (fun i pending hpending ↦ ?_) (fun i ↦ ?_)
    (shaped_modify hshaped hphase runtime psnSeed qpNum)
  · rw [unpopped_afterQp rfl]
    exact hb.queues_others (by rw [Handshake.unpopped, hphase]) hpending
  · rw [sessionsOn_modify h hlt]
    have hnumbers := hb.numbers i
    rw [List.flatMap_cons] at hnumbers
    by_cases heq : i = nicIdx
    · rw [if_pos heq, List.append_assoc, List.singleton_append]
      refine ((List.perm_middle.map _).nodup_iff).mpr (List.nodup_cons.mpr ⟨?_, hnumbers⟩)
      intro hin
      rw [List.map_append, List.mem_append] at hin
      rcases hin with hmine | hother
      · exact hnew _ List.mem_cons_self (heq ▸ hmine)
      · obtain ⟨session, hsession, hnum⟩ := List.mem_map.mp hother
        obtain ⟨e, he, hon⟩ := List.mem_flatMap.mp hsession
        exact hnew e (List.mem_cons_of_mem _ he) (List.mem_map.mpr ⟨session, heq ▸ hon, hnum⟩)
    · rwa [if_neg heq, List.append_nil]

/-- The sessions are pushed. -/
theorem push (hb : Booked backend state ((id, h) :: others))
    (hphase : h.phase = .creating nicIdx qpIdx) (hend : backend.runtimes[nicIdx]? = none) :
    Booked backend
      { state with nics := bucketsOf backend.nicCount (slots state.nics ++ slots h.sessions) }
      ((id, { h with phase := .prepared }) :: others) := by
  have hshaped := hb.shaped _ List.mem_cons_self
  have hfull : Full backend h.sessions := full_of_creating (hb.head_fits hphase) hend
  refine hb.update rfl (length_bucketsOf _ _) (fun i pending hpending ↦ ?_) (fun i ↦ ?_)
    ⟨hshaped.own, hfull⟩
  · have hi : i < backend.nicCount := by
      have hlt := (List.getElem?_eq_some_iff.mp hpending).1
      rwa [length_bucketsOf] at hlt
    have hlt : i < state.nics.length := hb.nics_length.symm ▸ hi
    have hget := List.getElem?_eq_getElem hlt
    have hbefore := hb.queues_others (by rw [Handshake.unpopped, hphase]) hget
    -- the queue of the NIC, followed by the new sessions
    have hafter : pending = state.nics[i] ++ h.sessionsOn i := by
      have hvalues := valuesOf_slots state.nics i
      rw [hget] at hvalues
      rw [getElem?_bucketsOf hi, List.filter_append, List.map_append] at hpending
      rw [← Option.some.inj hpending]
      exact congrArg₂ _ hvalues (valuesOf_slots h.sessions i)
    rw [hafter]
    refine List.perm_append_comm.trans ?_
    refine (hbefore.append_left _).trans (List.Perm.of_eq ?_)
    congr 1
    exact (valuesOf_slots h.sessions i).symm
  · exact hb.numbers i

/-- The metadata of the peer is refused. -/
theorem refuse (hb : Booked backend state ((id, h) :: others)) (hphase : h.phase = .prepared)
    (error : TransferError) :
    Booked backend state ((id, { h with phase := .failed error 0 }) :: others) := by
  have hshaped := hb.shaped _ List.mem_cons_self
  refine hb.goOn rfl ?_ (fun i ↦ List.Sublist.refl _)
    ⟨hshaped.own, hb.head_fits hphase, Or.inl rfl⟩
  rw [Handshake.unpopped, Handshake.unpopped, hphase]
  exact List.drop_zero

/-- The sessions are popped. -/
theorem pop (hb : Booked backend state ((id, h) :: others)) (hphase : h.phase = .prepared)
    {remote : List NicHandshake} (hremote : FullRemote backend remote) :
    Booked backend { state with nics := without (qpSlots h.localNics) state.nics }
      ((id, { h with phase := .connecting remote h.sessions (cells h.sessions) }) :: others) := by
  have hshaped := hb.shaped _ List.mem_cons_self
  exact hb.update rfl ((length_without _ _).trans hb.nics_length)
    (fun i pending hpending ↦ hb.queues_without hpending) hb.numbers
    ⟨hshaped.own, hb.head_fits hphase, rfl, hremote, fun cell hcell ↦ hcell⟩

section Connecting

variable {remote : List NicHandshake} {pending : List (List RcSession)}
  {todo : List ((ℕ × ℕ) × RcSession)}

theorem connect (hb : Booked backend state ((id, h) :: others)) {cell : (ℕ × ℕ) × RcSession}
    (hphase : h.phase = .connecting remote pending (cell :: todo)) :
    Booked backend state ((id, { h with phase := .connecting remote pending todo }) :: others) := by
  have hshaped := hb.shaped _ List.mem_cons_self
  obtain ⟨hfull, hpending, hremote, htodo⟩ := hb.head_fits hphase
  refine hb.goOn rfl ?_ (fun i ↦ List.Sublist.refl _) ⟨hshaped.own, hfull, hpending, hremote,
    fun other hother ↦ htodo other (List.mem_cons_of_mem _ hother)⟩
  rw [Handshake.unpopped, Handshake.unpopped, hphase]

/-- The popped sessions are dropped. -/
theorem connectFails (hb : Booked backend state ((id, h) :: others))
    (hphase : h.phase = .connecting remote pending todo) (error : TransferError) :
    Booked backend state
      ((id, { h with phase := .failed error (slots h.sessions).length }) :: others) := by
  have hshaped := hb.shaped _ List.mem_cons_self
  refine hb.goOn rfl ?_ (fun i ↦ List.Sublist.refl _)
    ⟨hshaped.own, (hb.head_fits hphase).1, Or.inr rfl⟩
  rw [Handshake.unpopped, Handshake.unpopped, hphase]
  exact List.drop_length

/-- The connection is inserted. -/
theorem insert (hb : Booked backend state ((id, h) :: others))
    (hphase : h.phase = .connecting remote pending todo) :
    Booked backend { state with
      connecting := state.connecting.erase h.addr
      addrConnections := state.addrConnections.insert h.addr
        ⟨pending.map fun sessions ↦ ⟨sessions, 0⟩, h.localNics⟩ } others := by
  obtain ⟨hfull, rfl, _, _⟩ := hb.head_fits hphase
  refine hb.finish hb.nics_length (fun i pending hpending ↦ ?_) (fun addr hne ↦ ?_)
    fun conn hconn ↦ ?_
  · exact hb.queues_others (by rw [Handshake.unpopped, hphase]) hpending
  · rw [FinMap.find?_insert, if_neg (Ne.symm hne)]
  · rw [FinMap.find?_insert, if_pos rfl] at hconn
    cases hconn
    refine ⟨(List.length_map _).trans hfull.nics, fun nic hnic ↦ ?_⟩
    obtain ⟨row, hrow, rfl⟩ := List.mem_map.mp hnic
    exact hfull.qps row hrow

end Connecting

end Booked

/-- A handshake that goes on keeps its number. -/
theorem Orderly.ids_insert {backend : RcBackend} {e : Engine} (ho : Orderly backend e) {id : ℕ}
    {h : Handshake} (hfind : e.handshakes.find? id = some h) (new : Handshake) :
    ∀ other h', (e.handshakes.insert id new).find? other = some h' → other < e.issued := by
  intro other h' hother
  rw [FinMap.find?_insert] at hother
  split_ifs at hother with heq
  · exact heq ▸ ho.ids id h hfind
  · exact ho.ids other h' hother

theorem Orderly.ids_erase {backend : RcBackend} {e : Engine} (ho : Orderly backend e) (id : ℕ) :
    ∀ other h', (e.handshakes.erase id).find? other = some h' → other < e.issued := by
  intro other h' hother
  rw [FinMap.find?_erase] at hother
  split_ifs at hother
  exact ho.ids other h' hother

/-- Every piece keeps the books in order. -/
theorem Effect.orderly {backend : RcBackend} {e e' : Engine} {action : HandshakeAction}
    (heffect : Effect backend e action e') (ho : Orderly backend e) (hunnamed : Unnamed e action) :
    Orderly backend e' := by
  have hb := ho.booked
  cases heffect with
  | busy _ => exact ho
  | prepare hnone hnew =>
    have hfresh : e.handshakes.find? e.issued = none := by
      refine Option.eq_none_iff_forall_ne_some.mpr fun h hfind ↦ ?_
      exact absurd (ho.ids _ h hfind) (lt_irrefl _)
    refine ⟨?_, fun other h' hother ↦ ?_⟩
    · dsimp only
      rw [FinMap.entries_insert_of_none hfresh]
      exact hb.prepare hnone hnew _
    · rw [FinMap.find?_insert] at hother
      split_ifs at hother with heq
      · exact heq ▸ Nat.lt_succ_self _
      · exact Nat.lt_succ_of_lt (ho.ids other h' hother)
  | create qpNum hfind hphase hnic =>
    refine ⟨(hb.front hfind).create hphase hnic _ fun other hother hin ↦ ?_,
      ho.ids_insert hfind _⟩
    refine hunnamed.not_mem hfind hphase ?_ ((mem_qpSlots other.2).mpr hin)
    exact (FinMap.entries_perm hfind).mem_iff.mpr hother
  | @createFails id h nicIdx qpIdx runtime message hfind hphase hnic =>
    refine ⟨(hb.front hfind).goOn rfl ?_ (fun i ↦ List.nil_sublist _) ⟨?_, trivial⟩,
      ho.ids_insert hfind _⟩
    · rw [Handshake.unpopped, Handshake.unpopped, hphase]
    · intro i j session hcell
      cases hcell
  | push hfind hphase hend =>
    exact ⟨(hb.front hfind).push hphase hend, ho.ids_insert hfind _⟩
  | @unprepare id h error hfind hphase =>
    have hnil : h.unpopped = [] := by rw [Handshake.unpopped, hphase]
    exact ⟨(hb.front hfind).finish hb.nics_length
      (fun i pending hpending ↦ (hb.front hfind).queues_others hnil hpending) (fun _ _ ↦ rfl)
      (hb.connections _), ho.ids_erase id⟩
  | refuse hfind hphase hcheck =>
    exact ⟨(hb.front hfind).refuse hphase _, ho.ids_insert hfind _⟩
  | pop hfind hphase hcheck =>
    exact ⟨(hb.front hfind).pop hphase (fullRemote_of_checkRemote hcheck), ho.ids_insert hfind _⟩
  | connect hfind hphase _ _ => exact ⟨(hb.front hfind).connect hphase, ho.ids_insert hfind _⟩
  | connectFails error hfind hphase =>
    exact ⟨(hb.front hfind).connectFails hphase error, ho.ids_insert hfind _⟩
  | insert hfind hphase => exact ⟨(hb.front hfind).insert hphase, ho.ids_erase _⟩
  | abort hfind =>
    exact ⟨(hb.front hfind).finish ((length_without _ _).trans hb.nics_length)
      (fun i pending hpending ↦ (hb.front hfind).queues_without hpending) (fun _ _ ↦ rfl)
      (hb.connections _), ho.ids_erase _⟩
  | invalidate addr => exact ⟨hb.invalidate addr, ho.ids⟩

theorem Orderly.start (backend : RcBackend) : Orderly backend backend.engine :=
  ⟨Booked.start backend, nofun⟩

/-- The books are in order in every run. -/
theorem handshaking_orderly {backend : RcBackend} {history : List HandshakeAction} {e : Engine}
    (hrun : (backend.handshaking.restrict Unnamed).Run history e) : Orderly backend e := by
  refine System.Steps.invariant hrun (Orderly.start backend) ?_
  rintro e action e' _ h ⟨hunnamed, hexec⟩
  obtain ⟨_, heq, heffect⟩ := h.booked.exec_effect hexec
  cases heq
  exact heffect.orderly h hunnamed

/-- The sessions of the connections, when each has all of its own. -/
theorem sum_sessions (n q : ℕ) (conns : List (String × AddrConnection))
    (h : ∀ conn ∈ conns, conn.2.nics.length = n ∧ ∀ nic ∈ conn.2.nics, nic.sessions.length = q) :
    ((conns.flatMap fun conn ↦ conn.2.nics).map fun nic ↦ nic.sessions.length).sum =
      n * q * conns.length := by
  induction conns with
  | nil => rfl
  | cons conn rest ih =>
    obtain ⟨hnics, hqps⟩ := h conn List.mem_cons_self
    have hconn : (conn.2.nics.map fun nic ↦ nic.sessions.length).sum = n * q := by
      rw [List.map_congr_left hqps, List.map_const', List.sum_replicate_nat, hnics]
    rw [List.flatMap_cons, List.map_append, List.sum_append, hconn,
      ih fun other hother ↦ h other (List.mem_cons_of_mem _ hother), List.length_cons,
      Nat.mul_succ, Nat.add_comm]

/-- A piece keeps every connection, unless it invalidates it. -/
theorem Effect.find?_addrConnections {backend : RcBackend} {e e' : Engine}
    {action : HandshakeAction} (heffect : Effect backend e action e') (h : Orderly backend e)
    {addr : String} {conn : AddrConnection}
    (hconn : e.state.addrConnections.find? addr = some conn) (hkeep : action ≠ .invalidate addr) :
    e'.state.addrConnections.find? addr = some conn := by
  cases heffect with
  | insert hfind hphase =>
    -- the address of a handshake has no connection
    have hnone := (h.booked.front hfind).apart _ List.mem_cons_self
    dsimp only at hnone ⊢
    rw [FinMap.find?_insert, if_neg fun heq ↦ ?_]
    · exact hconn
    · rw [heq, hconn] at hnone
      cases hnone
  | invalidate other =>
    unfold RcBackend.invalidateConnection
    dsimp only
    have hne : other ≠ addr := fun heq ↦ hkeep (congrArg HandshakeAction.invalidate heq)
    rw [FinMap.find?_erase, if_neg hne]
    exact hconn
  | _ => exact hconn

/-- In every interleaving in which a new queue pair never gets a number that a handshake under way
has on the NIC: an address has at most one handshake and is not connected meanwhile; the queues hold
the sessions of the handshakes that are not popped; every connection has all of its queue pairs;
with no handshake under way nothing is left over; and no piece panics or replaces a connection. -/
theorem handshake_bookkeeping (backend : RcBackend) {history : List HandshakeAction} {e : Engine}
    (hrun : (backend.handshaking.restrict Unnamed).Run history e) :
    (∀ id h id' h', e.handshakes.find? id = some h → e.handshakes.find? id' = some h' →
      h.addr = h'.addr → id = id') ∧
    (∀ addr ∈ e.state.connecting, e.state.addrConnections.find? addr = none) ∧
    (∀ (i : ℕ) pending, e.state.nics[i]? = some pending →
      pending.Perm (e.handshakes.entries.flatMap fun h ↦ valuesOf h.2.unpopped i)) ∧
    e.state.numQps =
      backend.nicCount * backend.qpsPerPeer * e.state.addrConnections.entries.length ∧
    (e.handshakes.entries = [] → e.state.connecting = [] ∧ ∀ pending ∈ e.state.nics, pending = []) ∧
    ∀ action r, backend.exec e action = some r → ∃ e', r = .ok e' ∧
      ∀ addr conn, e.state.addrConnections.find? addr = some conn → action ≠ .invalidate addr →
        e'.state.addrConnections.find? addr = some conn := by
  have horderly := handshaking_orderly hrun
  have hb := horderly.booked
  refine ⟨fun id h id' h' hfind hfind' haddr ↦ ?_, fun addr haddr ↦ ?_, hb.queues, ?_,
    fun hnone ↦ ⟨?_, fun pending hpending ↦ ?_⟩, fun action r hexec ↦ ?_⟩
  · have hsame := List.inj_on_of_nodup_map hb.addrs (e.handshakes.mem_entries_iff.mpr hfind)
      (e.handshakes.mem_entries_iff.mpr hfind') haddr
    exact congrArg Prod.fst hsame
  · obtain ⟨entry, hentry, rfl⟩ := List.mem_map.mp (hb.connecting.mem_iff.mp haddr)
    exact hb.apart entry hentry
  · refine sum_sessions _ _ _ fun conn hconn ↦ ?_
    exact hb.connections conn.1 conn.2 (e.state.addrConnections.mem_entries_iff.mp hconn)
  · have hconnecting := hb.connecting
    rw [hnone] at hconnecting
    exact hconnecting.eq_nil
  · obtain ⟨i, hi⟩ := List.mem_iff_getElem?.mp hpending
    have hqueue := hb.queues i pending hi
    rw [hnone] at hqueue
    exact hqueue.eq_nil
  · obtain ⟨e', rfl, heffect⟩ := hb.exec_effect hexec
    exact ⟨e', rfl, fun addr conn hconn hkeep ↦ heffect.find?_addrConnections horderly hconn hkeep⟩

/-! ### A number that is used again -/

/-- The next piece as a partial function, if it is allowed. -/
def RcBackend.next (backend : RcBackend) (allowed : Engine → HandshakeAction → Bool) (e : Engine)
    (action : HandshakeAction) : Option (HandshakeAction × Engine) :=
  if allowed e action then
    match backend.exec e action with
    | some (.ok e') => some (action, e')
    | _ => none
  else none

theorem step_of_next {backend : RcBackend} {allowed : Engine → HandshakeAction → Bool}
    {e e' : Engine} {action label : HandshakeAction}
    (h : backend.next allowed e action = some (label, e')) :
    allowed e label = true ∧ backend.handshaking.step e label e' := by
  unfold RcBackend.next at h
  split_ifs at h with hallowed
  split at h
  · rename_i hexec
    cases h
    exact ⟨hallowed, hexec⟩
  · cases h

/-- The pieces that use no number again. -/
theorem step_of_next_unnamed {backend : RcBackend} (e : Engine) (action label : HandshakeAction)
    (e' : Engine)
    (h : backend.next (fun e action ↦ !e.named action) e action = some (label, e')) :
    (backend.handshaking.restrict Unnamed).step e label e' :=
  ⟨(Bool.not_eq_true' _).mp (step_of_next h).1, (step_of_next h).2⟩

namespace Scenario

/-- One NIC with one queue pair per peer. -/
def oneNic : RcBackend where
  runtimes := [⟨"mlx5_0", ⟨0⟩, .ethernet, [1], 0⟩]
  qpsPerPeer := 1
  runtimes_ne_nil := List.cons_ne_nil _ _
  qpsPerPeer_pos := Nat.one_pos

/-- The metadata of a peer. -/
def peerNics : List NicHandshake := [⟨[⟨[9], 0, 3, 5⟩]⟩]

/-- `get_or_prepare` for a new address, with the numbers of the queue pairs. -/
def preparing (addr : String) (id : ℕ) (qpNums : List ℕ) : List HandshakeAction :=
  .prepare addr :: qpNums.map (fun qpNum ↦ .client id (.create qpNum)) ++ [.client id .push]

/-- `complete_handshake_for` that succeeds. -/
def completing (id : ℕ) (remote : List NicHandshake) : List HandshakeAction :=
  .client id (.complete remote) ::
    (remote.flatMap NicHandshake.endpoints).map (fun _ ↦ .client id (.connect (.ok ()))) ++
    [.client id .insert]

/-- `complete_handshake_for` that cannot connect. -/
def failing (id : ℕ) (remote : List NicHandshake) : List HandshakeAction :=
  [.client id (.complete remote), .client id (.connect (.error (.backend "timed out")))]

/-- A handshake fails to connect and drops its queue pair; another one gets the number; the first
aborts and takes the session of the other from the queue. -/
def reusing : List HandshakeAction :=
  preparing "x" 0 [7] ++ failing 0 peerNics ++ preparing "y" 1 [7] ++ [.client 0 .abort]

theorem abort_takes_session : ∃ history e, oneNic.handshaking.Run history e ∧
    ∃ (i : ℕ) (pending : PerNicState), e.state.nics[i]? = some pending ∧
      ¬ pending.Perm (e.handshakes.entries.flatMap fun h ↦ valuesOf h.2.unpopped i) := by
  have hnext : ∀ e action label e', oneNic.next (fun _ _ ↦ true) e action = some (label, e') →
      oneNic.handshaking.step e label e' := fun _ _ _ _ h ↦ (step_of_next h).2
  obtain ⟨history, e, hrun, hnics, hwaiting⟩ := exists_run_of_replay hnext reusing
    (fun e ↦ e.state.nics = [[]] ∧
      (e.handshakes.entries.flatMap fun h ↦ valuesOf h.2.unpopped 0) ≠ []) rfl
  refine ⟨history, e, hrun, 0, [], ?_, fun hperm ↦ hwaiting hperm.symm.eq_nil⟩
  rw [hnics]
  rfl

/-- One handshake succeeds while another one fails. -/
theorem handshake_bookkeeping_two : ∃ history e,
    (oneNic.handshaking.restrict Unnamed).Run history e ∧ e.state.numQps = 1 ∧
      e.handshakes.entries.length = 1 ∧
      ∀ addr ∈ e.state.connecting, e.state.addrConnections.find? addr = none := by
  obtain ⟨history, e, hrun, hconns, hlength⟩ := exists_run_of_replay step_of_next_unnamed
    (preparing "x" 0 [7] ++ preparing "y" 1 [8] ++ failing 0 peerNics ++ completing 1 peerNics)
    (fun e ↦ e.state.addrConnections.entries.length = 1 ∧ e.handshakes.entries.length = 1)
    (show (replay _ _ oneNic.engine).any _ = true from rfl)
  obtain ⟨_, hapart, _, hqps, _⟩ := handshake_bookkeeping oneNic hrun
  rw [hconns] at hqps
  exact ⟨history, e, hrun, hqps, hlength, hapart⟩

end Scenario

end Pegastore.Rdma
