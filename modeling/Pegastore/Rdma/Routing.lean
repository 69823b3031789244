import Pegastore.Rdma.Backend
import Pegastore.Rdma.Worker

/-!
# Routing a batch of transfers

`batch_transfer_async` resolves every descriptor to an operation on one NIC, spreads the operations
of each NIC over the sessions the connection has on it, and hands every session its operations as
one command. Three lists are indexed by the NIC: the keys of the local region, the keys of the
remote region and the sessions.

The model takes from outside what other threads may change meanwhile: the counter value that each
pick of a NIC reads, and the life of each session at its submission. The caller has a reference to
every session it submits to, so the submission is accepted (`HeldSession.transferBatchAsync_ok`).

Inside the loop over the descriptors nothing is submitted, so a rejected descriptor leaves no trace.
Otherwise the descriptors have a list of routes, one session and one operation each, and what is
submitted is that list grouped by session (`nicWork_eq`).
-/

set_option autoImplicit false
set_option relaxedAutoImplicit false

namespace Pegastore.Rdma

open Outcome Transition Buckets

/-- A transfer between local memory and a part of a remote region. -/
structure TransferDesc where
  localPtr : ℕ
  remotePtr : ℕ
  len : ℕ
  region : RegionDescriptor
deriving DecidableEq, Repr

/-! ### The source -/

/-- One descriptor: its NIC and its operation, or the error that rejects it. -/
def RcBackend.resolve (backend : RcBackend) (m : LocalMemoryMap) (desc : TransferDesc) (idx : ℕ) :
    Exec (TransferResult (ℕ × RdmaOp)) :=
  if desc.len = 0 then .ok (.error (.invalidArgument "len must be non-zero"))
  else do
    match ← m.findEntry desc.localPtr desc.len with
    | none => .ok (.error (.memoryNotRegistered desc.localPtr))
    | some entry =>
      if !desc.region.contains desc.remotePtr desc.len then
        .ok (.error (.invalidArgument "remote range not covered by its region descriptor"))
      else do
        let nicIdx ← (NumaRoundRobin.fromRuntimes backend.runtimes).pick entry.numa idx
        match desc.region.rkeys[nicIdx]? with
        | none => .ok (.error (.invalidArgument "region descriptor has no rkey for paired NIC"))
        | some remoteRkey => do
          let localMr ← index entry.mrs nicIdx
          .ok (.ok (nicIdx, ⟨localMr.lkey, desc.localPtr, desc.remotePtr, desc.len, remoteRkey⟩))

/-- The loop over the descriptors; `picks k` is the counter value that descriptor `k` reads. -/
def RcBackend.resolveAll (backend : RcBackend) (m : LocalMemoryMap) (picks : ℕ → ℕ) :
    List (TransferDesc × ℕ) → List (List RdmaOp) → Exec (TransferResult (List (List RdmaOp)))
  | [], perNic => .ok (.ok perNic)
  | (desc, k) :: rest, perNic => do
    match ← backend.resolve m desc (picks k) with
    | .error e => .ok (.error e)
    | .ok (nicIdx, op) => do
      let perNic ← pushAt perNic nicIdx op
      backend.resolveAll m picks rest perNic

/-- The session of the operation at position `i` of its NIC. -/
def ConnNic.slot (nic : ConnNic) (i : ℕ) : Exec ℕ :=
  remU64 ((nic.rrCounter + i) % 2 ^ 64) nic.sessions.length

/-- The operations of one NIC, spread over its sessions. -/
def ConnNic.spread (nic : ConnNic) (ops : List RdmaOp) : Exec (List (List RdmaOp)) :=
  ops.zipIdx.foldlM (fun buckets e ↦ do
    let i ← nic.slot e.2
    pushAt buckets i e.1) (List.replicate nic.sessions.length [])

/-- The buckets that are not empty, with their sessions. -/
def collectWork (sessions : List RcSession) :
    List (List RdmaOp × ℕ) → Exec (List (RcSession × List RdmaOp))
  | [] => .ok []
  | (prepared, qIdx) :: rest =>
    if prepared.isEmpty then collectWork sessions rest
    else do
      let session ← index sessions qIdx
      let more ← collectWork sessions rest
      .ok ((session, prepared) :: more)

/-- The loop over the NICs. -/
def nicWork (connNics : List ConnNic) :
    List (List RdmaOp × ℕ) → Exec (List (RcSession × List RdmaOp))
  | [] => .ok []
  | (ops, nicIdx) :: rest =>
    if ops.isEmpty then nicWork connNics rest
    else do
      let nic ← index connNics nicIdx
      let buckets ← nic.spread ops
      let work ← collectWork nic.sessions buckets.zipIdx
      let more ← nicWork connNics rest
      .ok (work ++ more)

/-- The life of a session to which the caller has a reference. -/
structure HeldSession where
  life : SessionLife
  reachable : ∃ moves, sessionLife.Run moves life
  held : life.holders ≠ 0

/-- The loop that submits: the commands that were accepted, and the receivers, each with the number
of its command. `held k` is the life of the session at submission `k`. -/
def submitAll (kind : TransferOp) (held : ℕ → HeldSession) :
    List ((RcSession × List RdmaOp) × ℕ) →
      List (RcSession × List RdmaOp) × TransferResult (List (RcSession × ℕ))
  | [] => ([], .ok [])
  | ((session, prepared), k) :: rest =>
    match ((held k).life.transferBatchAsync prepared kind).2 with
    | .error e => ([], .error e)
    | .ok () =>
      let (submitted, result) := submitAll kind held rest
      ((session, prepared) :: submitted,
        result.map fun receivers ↦ (session, (held k).life.accepted.length) :: receivers)

/-- What a call submitted and returned, and the state after it. -/
structure Submission where
  submitted : List (RcSession × List RdmaOp)
  result : TransferResult (List (RcSession × ℕ))
  state : RcBackendState

/-- Every session counter of a connection is advanced when its sessions are read. -/
def AddrConnection.advance (conn : AddrConnection) : AddrConnection :=
  { conn with nics := conn.nics.map fun nic ↦
      { nic with rrCounter := (nic.rrCounter + 1) % 2 ^ 64 } }

def RcBackend.batchTransferAsync (backend : RcBackend) (state : RcBackendState) (kind : TransferOp)
    (remoteAddr : String) (descs : List TransferDesc) (picks : ℕ → ℕ) (held : ℕ → HeldSession) :
    Exec Submission :=
  if descs.isEmpty then .ok ⟨[], .ok [], state⟩
  else
    match state.addrConnections.find? remoteAddr with
    | none =>
      .ok ⟨[], .error (.backend ("no connection for remote addr " ++ remoteAddr)), state⟩
    | some conn => do
      let state' := { state with
        addrConnections := state.addrConnections.insert remoteAddr conn.advance }
      match ← backend.resolveAll state.registered picks descs.zipIdx
        (List.replicate backend.nicCount []) with
      | .error e => .ok ⟨[], .error e, state'⟩
      | .ok perNic => do
        let work ← nicWork conn.nics perNic.zipIdx
        let (submitted, result) := submitAll kind held work.zipIdx
        .ok ⟨submitted, result, state'⟩

/-! ### One descriptor -/

/-- The operation of a descriptor on NIC `nic`: its addresses and length are those of the
descriptor, the local range lies in a registered region and the remote one in the descriptor's, the
keys are those of NIC `nic`, and the NIC is on the node of the local region if one is. -/
structure Resolved (backend : RcBackend) (m : LocalMemoryMap) (desc : TransferDesc) (nic : ℕ)
    (op : RdmaOp) : Prop where
  nic_lt : nic < backend.nicCount
  addresses : op.localPtr = desc.localPtr ∧ op.remotePtr = desc.remotePtr ∧ op.len = desc.len
  localRegion : ∃ entry mr, m.Registered entry ∧ entry.Covers desc.localPtr desc.len ∧
    entry.mrs[nic]? = some mr ∧ op.lkey = mr.lkey ∧
    (entry.numa.isValid = true → (∃ runtime ∈ backend.runtimes, runtime.numaNode = entry.numa) →
      ∃ runtime, backend.runtimes[nic]? = some runtime ∧ runtime.numaNode = entry.numa)
  remoteKey : desc.region.rkeys[nic]? = some op.remoteRkey
  remoteRange : ∀ x, Ranges.contains x (desc.remotePtr, desc.len) = true →
    Ranges.contains x (desc.region.addr, desc.region.len) = true

theorem RegionDescriptor.contains_subset {region : RegionDescriptor} {ptr len : ℕ}
    (h : region.contains ptr len = true) {x : ℕ} (hx : Ranges.contains x (ptr, len) = true) :
    Ranges.contains x (region.addr, region.len) = true := by
  unfold RegionDescriptor.contains checkedAdd saturatingAdd at h
  rw [Ranges.contains_iff] at hx ⊢
  split_ifs at h with hlt
  simp only [Bool.and_eq_true, decide_eq_true_iff] at h
  dsimp only at hx ⊢
  omega

/-- Resolving a descriptor does not panic, and an operation it returns is as described. -/
theorem Complete.resolve {backend : RcBackend} {m : LocalMemoryMap} (h : Complete backend m)
    (desc : TransferDesc) (idx : ℕ) : ∃ outcome, backend.resolve m desc idx = .ok outcome ∧
      ∀ nic op, outcome = .ok (nic, op) → Resolved backend m desc nic op := by
  unfold RcBackend.resolve
  by_cases hlen : desc.len = 0
  · rw [if_pos hlen]
    exact ⟨_, rfl, nofun⟩
  · rw [if_neg hlen]
    obtain ⟨found, hfound, hiff⟩ := h.exact.findEntry desc.localPtr (Nat.pos_of_ne_zero hlen)
    simp only [hfound, ok_bind]
    cases found with
    | none => exact ⟨_, rfl, nofun⟩
    | some entry =>
      obtain ⟨hregistered, hcovers⟩ := (hiff entry).mp rfl
      dsimp only
      split_ifs with hcontains
      · exact ⟨_, rfl, nofun⟩
      · obtain ⟨picked, hpick, hlt, hnuma⟩ := backend.exists_pick entry.numa idx
        simp only [hpick, ok_bind]
        cases hrkey : desc.region.rkeys[picked]? with
        | none => exact ⟨_, rfl, nofun⟩
        | some rkey =>
          have hkeys : picked < entry.mrs.length := by
            rw [h.keys entry hregistered]
            exact hlt
          have hmr : index entry.mrs picked = .ok entry.mrs[picked] :=
            index_eq_ok.mpr (List.getElem?_eq_getElem hkeys)
          refine ⟨_, by simp only [hmr, ok_bind]; rfl, fun nic op heq ↦ ?_⟩
          cases heq
          refine ⟨hlt, ⟨rfl, rfl, rfl⟩, ⟨entry, _, hregistered, hcovers,
            List.getElem?_eq_getElem hkeys, rfl, hnuma⟩, hrkey, fun x hx ↦ ?_⟩
          exact RegionDescriptor.contains_subset (by simpa using hcontains) hx

/-- A descriptor is rejected. -/
def RcBackend.Rejects (backend : RcBackend) (m : LocalMemoryMap) (picks : ℕ → ℕ)
    (d : TransferDesc × ℕ) : Prop := ∃ e, backend.resolve m d.1 (picks d.2) = .ok (.error e)

/-- The loop over the descriptors ends with an error if one of them is rejected, and otherwise with
the operations in the buckets of their NICs. -/
theorem Complete.resolveAll {backend : RcBackend} {m : LocalMemoryMap} (h : Complete backend m)
    (picks : ℕ → ℕ) (descs : List (TransferDesc × ℕ)) : ∀ done : List (ℕ × RdmaOp),
      (∃ e, backend.resolveAll m picks descs (bucketsOf backend.nicCount done) = .ok (.error e) ∧
        ∃ d ∈ descs, backend.Rejects m picks d) ∨
      ∃ items, backend.resolveAll m picks descs (bucketsOf backend.nicCount done) =
          .ok (.ok (bucketsOf backend.nicCount (done ++ items))) ∧
        List.Forall₂ (fun d item ↦ backend.resolve m d.1 (picks d.2) = .ok (.ok item)) descs
          items := by
  induction descs with
  | nil =>
    intro done
    refine Or.inr ⟨[], ?_, List.Forall₂.nil⟩
    rw [List.append_nil]
    rfl
  | cons d rest ih =>
    intro done
    obtain ⟨desc, k⟩ := d
    obtain ⟨outcome, houtcome, hresolved⟩ := h.resolve desc (picks k)
    unfold RcBackend.resolveAll
    simp only [houtcome, ok_bind]
    cases outcome with
    | error e => exact Or.inl ⟨e, rfl, _, List.mem_cons_self, e, houtcome⟩
    | ok item =>
      obtain ⟨nic, op⟩ := item
      simp only [pushAt_bucketsOf (hresolved nic op rfl).nic_lt, ok_bind]
      rcases ih (done ++ [(nic, op)]) with ⟨e, herror, d, hd, hrejects⟩ | ⟨items, hok, hall⟩
      · exact Or.inl ⟨e, herror, d, List.mem_cons_of_mem _ hd, hrejects⟩
      · refine Or.inr ⟨(nic, op) :: items, ?_, List.Forall₂.cons houtcome hall⟩
        rw [hok, List.append_assoc, List.singleton_append]

/-! ### The sessions of a connection -/

/-- The connection has `qps_per_peer` sessions on each NIC, and all sessions are distinct. -/
structure Established (backend : RcBackend) (conn : AddrConnection) : Prop where
  nics_length : conn.nics.length = backend.nicCount
  sizes : ∀ nic ∈ conn.nics, nic.sessions.length = backend.qpsPerPeer
  own : ∀ (i : ℕ) nic, conn.nics[i]? = some nic → ∀ s ∈ nic.sessions, s.nic = i
  distinct : (conn.nics.flatMap ConnNic.sessions).Nodup

/-- The position among the sessions of a NIC of the operation at position `i`. -/
def ConnNic.slotOf (nic : ConnNic) (i : ℕ) : ℕ :=
  (nic.rrCounter + i) % 2 ^ 64 % nic.sessions.length

/-- The session of the operation at position `i` of NIC `nic`. -/
def AddrConnection.sessionAt (conn : AddrConnection) (nic i : ℕ) : RcSession :=
  (conn.nics[nic]?.bind fun n ↦ n.sessions[n.slotOf i]?).getD default

/-- The sessions and operations of the resolved descriptors, in their order. -/
def AddrConnection.routes (conn : AddrConnection) (items : List (ℕ × RdmaOp)) :
    List (RcSession × RdmaOp) :=
  (ranked items).map fun e ↦ (conn.sessionAt e.1.1 e.2, e.1.2)

section Sessions

variable {backend : RcBackend} {conn : AddrConnection} {items : List (ℕ × RdmaOp)} {j : ℕ}
  {nic : ConnNic}

theorem Established.sessions_pos (h : Established backend conn) (hnic : nic ∈ conn.nics) :
    0 < nic.sessions.length := by
  rw [h.sizes nic hnic]
  exact backend.qpsPerPeer_pos

theorem Established.slot_eq (h : Established backend conn) (hnic : nic ∈ conn.nics) (i : ℕ) :
    nic.slot i = .ok (nic.slotOf i) ∧ nic.slotOf i < nic.sessions.length := by
  have hpos := h.sessions_pos hnic
  refine ⟨?_, Nat.mod_lt _ hpos⟩
  unfold ConnNic.slot remU64
  rw [if_neg hpos.ne']
  rfl

theorem Established.sessionAt_mem (h : Established backend conn) (hnic : conn.nics[j]? = some nic)
    (i : ℕ) : nic.sessions[nic.slotOf i]? = some (conn.sessionAt j i) := by
  have hlt := (h.slot_eq (List.mem_of_getElem? hnic) i).2
  unfold AddrConnection.sessionAt
  rw [hnic, Option.bind_some, List.getElem?_eq_getElem hlt]
  rfl

/-- A session is the one of an operation exactly when NIC and position are. -/
theorem Established.sessionAt_eq_iff (h : Established backend conn)
    (hnic : conn.nics[j]? = some nic) {q : ℕ} {session : RcSession}
    (hsession : nic.sessions[q]? = some session) {j' : ℕ} (hj' : j' < backend.nicCount) (i : ℕ) :
    conn.sessionAt j' i = session ↔ j' = j ∧ nic.slotOf i = q := by
  constructor
  · intro heq
    have hlt' : j' < conn.nics.length := h.nics_length ▸ hj'
    have hnic' := List.getElem?_eq_getElem hlt'
    have hmem' := h.sessionAt_mem hnic' i
    have hsame : j' = j := by
      rw [← h.own j' _ hnic' _ (List.mem_of_getElem? hmem'), heq]
      exact h.own j nic hnic session (List.mem_of_getElem? hsession)
    subst hsame
    refine ⟨rfl, ?_⟩
    have hmem := h.sessionAt_mem hnic i
    have hnodup : nic.sessions.Nodup :=
      (List.nodup_flatMap.mp h.distinct).1 nic (List.mem_of_getElem? hnic)
    obtain ⟨hltq, hgetq⟩ := List.getElem?_eq_some_iff.mp hsession
    obtain ⟨hlti, hgeti⟩ := List.getElem?_eq_some_iff.mp hmem
    exact (hnodup.getElem_inj_iff).mp (hgeti.trans (heq.trans hgetq.symm))
  · rintro ⟨rfl, rfl⟩
    have hmem := h.sessionAt_mem hnic i
    rw [hsession] at hmem
    exact (Option.some.inj hmem).symm

/-- The operations of a session, in the order of the descriptors, are those of its bucket. -/
theorem Established.valuesOf_routes (h : Established backend conn)
    (hitems : ∀ item ∈ items, item.1 < backend.nicCount) (hnic : conn.nics[j]? = some nic) {q : ℕ}
    {session : RcSession} (hsession : nic.sessions[q]? = some session) :
    valuesOf (conn.routes items) session =
      ((((items.filter fun item ↦ item.1 = j).map Prod.snd).zipIdx.map fun e ↦
        (nic.slotOf e.2, e.1)).filter fun e ↦ e.1 = q).map Prod.snd := by
  have hroutes : (conn.routes items).filter (fun r ↦ r.1 = session) =
      (((ranked items).filter fun e ↦ e.1.1 = j).filter fun e ↦ nic.slotOf e.2 = q).map
        fun e ↦ (conn.sessionAt e.1.1 e.2, e.1.2) := by
    unfold AddrConnection.routes
    rw [List.filter_map, List.filter_filter]
    congr 1
    refine List.filter_congr fun e he ↦ ?_
    have hlt : e.1.1 < backend.nicCount := by
      have hmem := List.mem_map_of_mem (f := Prod.fst) he
      rw [map_fst_ranked] at hmem
      exact hitems e.1 hmem
    rw [Bool.eq_iff_iff]
    simp only [Function.comp_apply, decide_eq_true_iff, Bool.and_eq_true]
    rw [h.sessionAt_eq_iff hnic hsession hlt, and_comm]
  unfold valuesOf
  rw [hroutes, ← filter_ranked items j]
  simp only [List.filter_map, List.map_map]
  rfl

theorem Established.spread_eq (h : Established backend conn) (hnic : nic ∈ conn.nics)
    (ops : List RdmaOp) : nic.spread ops = .ok (bucketsOf nic.sessions.length
      (ops.zipIdx.map fun e ↦ (nic.slotOf e.2, e.1))) := by
  unfold ConnNic.spread
  rw [← bucketsOf_nil]
  exact foldlM_pushAt Prod.fst ops.zipIdx (fun e _ ↦ h.slot_eq hnic e.2) []

/-- The buckets of the sessions from position `k` on. -/
theorem collectWork_eq {sessions : List RcSession} (buckets : List (List RdmaOp)) :
    ∀ {k : ℕ} {rest : List RcSession}, sessions.drop k = rest → buckets.length = rest.length →
      collectWork sessions (buckets.zipIdx k) =
        .ok ((rest.zip buckets).filter fun c ↦ !c.2.isEmpty) := by
  induction buckets with
  | nil =>
    intro k rest _ hlength
    rw [List.zip_nil_right]
    rfl
  | cons bucket buckets ih =>
    intro k rest hdrop hlength
    cases rest with
    | nil => cases hlength
    | cons session rest =>
      have hget : sessions[k]? = some session := by
        rw [← List.head?_drop, hdrop]
        rfl
      have htail : sessions.drop (k + 1) = rest := by
        rw [← List.tail_drop, hdrop]
        rfl
      rw [List.zipIdx_cons, collectWork, ih htail (Nat.succ.inj hlength)]
      by_cases hempty : bucket.isEmpty = true
      · simp [hempty]
      · simp only [hempty, index_eq_ok.mpr hget, ok_bind]
        simp [hempty]

/-- One NIC: every session with operations gets them in one command. -/
theorem Established.collectWork_spread (h : Established backend conn)
    (hitems : ∀ item ∈ items, item.1 < backend.nicCount) (hnic : conn.nics[j]? = some nic) :
    (nic.sessions.zip (bucketsOf nic.sessions.length
      (((items.filter fun item ↦ item.1 = j).map Prod.snd).zipIdx.map fun e ↦
        (nic.slotOf e.2, e.1)))).filter (fun c ↦ !c.2.isEmpty) =
      grouped nic.sessions (conn.routes items) := by
  unfold grouped
  congr 1
  refine List.ext_getElem? fun q ↦ ?_
  rw [List.getElem?_map]
  by_cases hq : q < nic.sessions.length
  · have hsession := List.getElem?_eq_getElem hq
    rw [hsession, Option.map_some, h.valuesOf_routes hitems hnic hsession]
    rw [List.getElem?_zip_eq_some]
    exact ⟨hsession, getElem?_bucketsOf hq _⟩
  · rw [List.getElem?_eq_none (by simpa using hq), List.getElem?_eq_none (by simpa using hq)]
    rfl

/-- The NICs from `k` on: the submissions are the routes, grouped by session. -/
theorem Established.nicWork_drop (h : Established backend conn)
    (hitems : ∀ item ∈ items, item.1 < backend.nicCount) (nics : List ConnNic) :
    ∀ {k : ℕ}, conn.nics.drop k = nics →
      nicWork conn.nics (((List.range' k nics.length).map fun j ↦
        (items.filter fun item ↦ item.1 = j).map Prod.snd).zipIdx k) =
      .ok (grouped (nics.flatMap ConnNic.sessions) (conn.routes items)) := by
  induction nics with
  | nil => exact fun _ ↦ rfl
  | cons nic nics ih =>
    intro k hdrop
    have hget : conn.nics[k]? = some nic := by
      rw [← List.head?_drop, hdrop]
      rfl
    have htail : conn.nics.drop (k + 1) = nics := by
      rw [← List.tail_drop, hdrop]
      rfl
    have hcollect := h.collectWork_spread hitems hget
    rw [List.length_cons, List.range'_succ, List.map_cons, List.zipIdx_cons, nicWork, ih htail,
      List.flatMap_cons, grouped_append, ← hcollect]
    generalize (items.filter fun item ↦ item.1 = k).map Prod.snd = ops
    by_cases hempty : ops.isEmpty = true
    · -- a NIC without operations has empty buckets only
      rw [if_pos hempty, List.isEmpty_iff.mp hempty]
      have hnone : (nic.sessions.zip (bucketsOf nic.sessions.length
          ((([] : List RdmaOp).zipIdx).map fun e ↦ (nic.slotOf e.2, e.1)))).filter
            (fun c ↦ !c.2.isEmpty) = [] := by
        refine List.filter_eq_nil_iff.mpr fun c hc ↦ ?_
        have hmem := (List.of_mem_zip hc).2
        rw [List.zipIdx_nil, List.map_nil, bucketsOf_nil] at hmem
        simp [(List.mem_replicate.mp hmem).2]
      rw [hnone, List.nil_append]
    · rw [if_neg hempty]
      simp only [index_eq_ok.mpr hget, ok_bind, h.spread_eq (List.mem_of_getElem? hget) ops]
      rw [collectWork_eq _ (List.drop_zero) (length_bucketsOf _ _)]
      rfl

theorem Established.nicWork_eq (h : Established backend conn)
    (hitems : ∀ item ∈ items, item.1 < backend.nicCount) :
    nicWork conn.nics (bucketsOf backend.nicCount items).zipIdx =
      .ok (grouped (conn.nics.flatMap ConnNic.sessions) (conn.routes items)) := by
  have hall := h.nicWork_drop hitems conn.nics (List.drop_zero)
  rwa [h.nics_length, ← List.range_eq_range'] at hall

end Sessions

/-! ### Submission -/

/-- A session to which the caller has a reference accepts a command. -/
theorem HeldSession.transferBatchAsync_ok (session : HeldSession) (ops : List RdmaOp)
    (kind : TransferOp) : (session.life.transferBatchAsync ops kind).2 = .ok () := by
  obtain ⟨moves, hrun⟩ := session.reachable
  rw [(sessionLife_accounted hrun).transferBatchAsync_eq session.held]

theorem submitAll_eq (kind : TransferOp) (held : ℕ → HeldSession)
    (work : List (RcSession × List RdmaOp)) : ∀ k : ℕ, ∃ receivers,
      submitAll kind held (work.zipIdx k) = (work, .ok receivers) ∧
        receivers.map Prod.fst = work.map Prod.fst := by
  induction work with
  | nil => exact fun _ ↦ ⟨[], rfl, rfl⟩
  | cons command work ih =>
    intro k
    obtain ⟨session, prepared⟩ := command
    obtain ⟨receivers, hrest, hsessions⟩ := ih (k + 1)
    refine ⟨(session, (held k).life.accepted.length) :: receivers, ?_, ?_⟩
    · rw [List.zipIdx_cons, submitAll, (held k).transferBatchAsync_ok]
      dsimp only
      rw [hrest]
      rfl
    · rw [List.map_cons, List.map_cons, hsessions]

/-! ### The whole call -/

/-- The resolved descriptor at a position. -/
theorem Complete.resolved_getElem? {backend : RcBackend} {m : LocalMemoryMap}
    (h : Complete backend m) {picks : ℕ → ℕ} {descs : List TransferDesc}
    {items : List (ℕ × RdmaOp)} (hall : List.Forall₂ (fun d item ↦
      backend.resolve m d.1 (picks d.2) = .ok (.ok item)) descs.zipIdx items) :
    items.length = descs.length ∧ ∀ (k : ℕ) nic op, items[k]? = some (nic, op) →
      ∃ desc, descs[k]? = some desc ∧ Resolved backend m desc nic op := by
  have hlength : items.length = descs.length :=
    hall.length_eq.symm.trans List.length_zipIdx
  refine ⟨hlength, fun k nic op hitem ↦ ?_⟩
  obtain ⟨hk, hget⟩ := List.getElem?_eq_some_iff.mp hitem
  have hkd : k < descs.length := hlength ▸ hk
  have hresolve := hall.get (by simpa using hkd) hk
  simp only [List.get_eq_getElem, List.getElem_zipIdx, hget] at hresolve
  refine ⟨descs[k], List.getElem?_eq_getElem hkd, ?_⟩
  obtain ⟨outcome, houtcome, hresolved⟩ := h.resolve descs[k] (picks (0 + k))
  refine hresolved nic op ?_
  rw [houtcome] at hresolve
  exact Except.ok.inj hresolve

theorem AddrConnection.routes_getElem? (conn : AddrConnection) {items : List (ℕ × RdmaOp)}
    {k nic : ℕ} {op : RdmaOp} (hitem : items[k]? = some (nic, op)) :
    ∃ i, (conn.routes items)[k]? = some (conn.sessionAt nic i, op) := by
  have hranked : ((ranked items).map Prod.fst)[k]? = some (nic, op) := by
    rw [map_fst_ranked]
    exact hitem
  rw [List.getElem?_map, Option.map_eq_some_iff] at hranked
  obtain ⟨⟨item, i⟩, hget, heq⟩ := hranked
  cases heq
  refine ⟨i, ?_⟩
  unfold AddrConnection.routes
  rw [List.getElem?_map, hget]
  rfl

/-- For every layout, connection, registration, counter values and descriptors the call does not
panic. If a descriptor is rejected, nothing is submitted. Otherwise every descriptor has one route,
a session and an operation on one NIC, whose keys the operation carries; the submissions are exactly
the routes, with one command per session at most and the descriptors of a session in their order. -/
theorem batch_transfer_routes (backend : RcBackend) {state : RcBackendState}
    {calls : List RegistrationCall}
    (hregistered : (registration backend).Run calls state.registered)
    {remoteAddr : String} {conn : AddrConnection}
    (hconn : state.addrConnections.find? remoteAddr = some conn)
    (hestablished : Established backend conn)
    (kind : TransferOp) (descs : List TransferDesc) (picks : ℕ → ℕ) (held : ℕ → HeldSession) :
    ∃ submission, backend.batchTransferAsync state kind remoteAddr descs picks held =
        .ok submission ∧
      ((∃ d ∈ descs.zipIdx, backend.Rejects state.registered picks d) →
        submission.submitted = [] ∧ ∃ e, submission.result = .error e) ∧
      ((∀ d ∈ descs.zipIdx, ¬ backend.Rejects state.registered picks d) →
        (∃ receivers, submission.result = .ok receivers ∧
          receivers.map Prod.fst = submission.submitted.map Prod.fst) ∧
        ∃ routes : List (RcSession × RdmaOp), routes.length = descs.length ∧
          (∀ (k : ℕ) desc, descs[k]? = some desc → ∃ session op nic connNic,
            routes[k]? = some (session, op) ∧ conn.nics[nic]? = some connNic ∧
            session ∈ connNic.sessions ∧ Resolved backend state.registered desc nic op) ∧
          (submission.submitted.flatMap fun c ↦ c.2.map fun op ↦ (c.1, op)).Perm routes ∧
          (submission.submitted.map Prod.fst).Nodup ∧
          ∀ c ∈ submission.submitted, c.2 = valuesOf routes c.1) := by
  have hcomplete := registration_complete hregistered
  unfold RcBackend.batchTransferAsync
  by_cases hnone : descs.isEmpty = true
  · rw [if_pos hnone, List.isEmpty_iff.mp hnone]
    refine ⟨_, rfl, fun hrejected ↦ ?_, fun _ ↦ ⟨⟨[], rfl, rfl⟩, [], rfl, nofun, ?_, ?_, nofun⟩⟩
    · obtain ⟨d, hd, _⟩ := hrejected
      cases hd
    · exact List.Perm.refl _
    · exact List.nodup_nil
  · rw [if_neg hnone, hconn]
    dsimp only
    rw [← bucketsOf_nil]
    rcases hcomplete.resolveAll picks descs.zipIdx [] with
      ⟨e, herror, d, hd, hrejects⟩ | ⟨items, hok, hall⟩
    · simp only [herror, ok_bind]
      exact ⟨_, rfl, fun _ ↦ ⟨rfl, e, rfl⟩, fun hnot ↦ absurd hrejects (hnot d hd)⟩
    · obtain ⟨hlength, hresolved⟩ := hcomplete.resolved_getElem? hall
      have hitems : ∀ item ∈ items, item.1 < backend.nicCount := by
        intro item hitem
        obtain ⟨k, hk⟩ := List.getElem?_of_mem hitem
        obtain ⟨desc, _, hdesc⟩ := hresolved k item.1 item.2 hk
        exact hdesc.nic_lt
      -- the session of every route is one of the connection
      have hsession (nic i : ℕ) (hlt : nic < backend.nicCount) : ∃ connNic,
          conn.nics[nic]? = some connNic ∧ conn.sessionAt nic i ∈ connNic.sessions := by
        have hnic := List.getElem?_eq_getElem (hestablished.nics_length.symm ▸ hlt)
        exact ⟨_, hnic, List.mem_of_getElem? (hestablished.sessionAt_mem hnic i)⟩
      have hkeys : ∀ r ∈ conn.routes items, r.1 ∈ conn.nics.flatMap ConnNic.sessions := by
        intro r hr
        obtain ⟨e, he, rfl⟩ := List.mem_map.mp hr
        have hmem := List.mem_map_of_mem (f := Prod.fst) he
        rw [map_fst_ranked] at hmem
        obtain ⟨connNic, hnic, hin⟩ := hsession e.1.1 e.2 (hitems e.1 hmem)
        exact List.mem_flatMap.mpr ⟨connNic, List.mem_of_getElem? hnic, hin⟩
      obtain ⟨receivers, hsubmit, hreceivers⟩ := submitAll_eq kind held
        (grouped (conn.nics.flatMap ConnNic.sessions) (conn.routes items)) 0
      simp only [hok, ok_bind, List.nil_append, hestablished.nicWork_eq hitems, hsubmit]
      refine ⟨_, rfl, fun hrejected ↦ ?_, fun _ ↦ ⟨⟨receivers, rfl, hreceivers⟩,
        conn.routes items, ?_, fun k desc hdesc ↦ ?_, grouped_perm hestablished.distinct hkeys,
        nodup_grouped hestablished.distinct _, fun c hc ↦ (valuesOf_of_mem_grouped hc).1⟩⟩
      · obtain ⟨d, hd, e, he⟩ := hrejected
        obtain ⟨k, hk, rfl⟩ := List.getElem_of_mem hd
        have hresolve := hall.get hk (hall.length_eq ▸ hk)
        rw [List.get_eq_getElem, he] at hresolve
        cases hresolve
      · have hranked := congrArg List.length (map_fst_ranked items)
        rw [List.length_map] at hranked
        rw [AddrConnection.routes, List.length_map, hranked, hlength]
      · obtain ⟨hk, _⟩ := List.getElem?_eq_some_iff.mp hdesc
        have hitem := List.getElem?_eq_getElem (hlength.symm ▸ hk)
        obtain ⟨desc', hdesc', hfacts⟩ := hresolved k _ _ hitem
        cases hdesc.symm.trans hdesc'
        obtain ⟨i, hroute⟩ := conn.routes_getElem? hitem
        obtain ⟨connNic, hnic, hin⟩ := hsession _ i hfacts.nic_lt
        exact ⟨_, _, _, connNic, hroute, hnic, hin, hfacts⟩

namespace Scenario

/-- A region of 4096 bytes on node 1 is registered with both NICs. -/
def onNodeOne : RegistrationCall :=
  .register ⟨4096, by decide⟩ ⟨4096, by decide⟩ ⟨1⟩ "host" fun i ↦ .ok ⟨10 + i, 20 + i⟩

/-- The map after the registration. -/
def oneRegion : LocalMemoryMap :=
  ⟨SortedMap.empty.insert 4096
    ⟨4096, 4096, ⟨1⟩, [⟨10, 20⟩, ⟨11, 21⟩], by decide, by decide⟩⟩

/-- A session of the first handshake. -/
def sessionOn (nic position : ℕ) : RcSession :=
  ⟨0, nic, position, ⟨[nic], 0, 2 * nic + position, 1⟩⟩

/-- A connection whose counters are about to wrap around. -/
def connected : AddrConnection where
  nics := [⟨[sessionOn 0 0, sessionOn 0 1], 2 ^ 64 - 1⟩,
    ⟨[sessionOn 1 0, sessionOn 1 1], 2 ^ 64 - 1⟩]
  localNics := []

/-- A part of the region, to a peer with two keys. -/
def desc (offset : ℕ) : TransferDesc := ⟨4096 + offset, 100 + offset, 8, ⟨100, 64, [7, 9]⟩⟩

def heldNew : HeldSession := ⟨SessionLife.create, ⟨[], System.Run.nil⟩, Nat.one_ne_zero⟩

theorem established_connected : Established twoNics connected where
  nics_length := rfl
  sizes := by decide
  own := by
    intro i nic hnic
    match i with
    | 0 =>
      cases hnic
      decide
    | 1 =>
      cases hnic
      decide
    | _ + 2 => cases hnic
  distinct := by decide

/-- The region is registered and a peer is connected. -/
def ready : RcBackendState := ⟨oneRegion, [[], []], FinMap.empty.insert "peer" connected, []⟩

/-- Three transfers from the region on node 1 go out on NIC 1, over its two sessions, with the keys
of that NIC. The second session gets the first one, the counter being at its largest value. -/
theorem batch_transfer_routes_two : ∃ submission routes,
    twoNics.batchTransferAsync ready .write "peer" [desc 0, desc 8, desc 16] (fun _ ↦ 2 ^ 64 - 1)
      (fun _ ↦ heldNew) = .ok submission ∧
    submission.submitted = [(sessionOn 1 0, [⟨11, 4104, 108, 8, 9⟩]),
      (sessionOn 1 1, [⟨11, 4096, 100, 8, 9⟩, ⟨11, 4112, 116, 8, 9⟩])] ∧
    (submission.submitted.flatMap fun c ↦ c.2.map fun op ↦ (c.1, op)).Perm routes ∧
    routes.length = 3 := by
  have hrun : (registration twoNics).Run [onNodeOne] ready.registered :=
    System.Run.nil.snoc (S := registration twoNics) (show _ = _ from rfl)
  have hconn : ready.addrConnections.find? "peer" = some connected := rfl
  obtain ⟨submission, hcall, hrejected, haccepted⟩ := batch_transfer_routes twoNics hrun hconn
    established_connected .write [desc 0, desc 8, desc 16] (fun _ ↦ 2 ^ 64 - 1) (fun _ ↦ heldNew)
  have hconcrete : twoNics.batchTransferAsync ready .write "peer" [desc 0, desc 8, desc 16]
      (fun _ ↦ 2 ^ 64 - 1) (fun _ ↦ heldNew) = .ok ⟨[(sessionOn 1 0, [⟨11, 4104, 108, 8, 9⟩]),
        (sessionOn 1 1, [⟨11, 4096, 100, 8, 9⟩, ⟨11, 4112, 116, 8, 9⟩])],
        .ok [(sessionOn 1 0, 0), (sessionOn 1 1, 0)], _⟩ := rfl
  have hsubmission := Except.ok.inj (hconcrete.symm.trans hcall)
  -- a rejected descriptor would leave nothing submitted
  obtain ⟨_, routes, hlength, _, hperm, _⟩ := haccepted fun d hd hrejects ↦ by
    obtain ⟨hnil, _⟩ := hrejected ⟨d, hd, hrejects⟩
    rw [← hsubmission] at hnil
    cases hnil
  exact ⟨submission, routes, hcall, by rw [← hsubmission], hperm, hlength⟩

end Scenario

end Pegastore.Rdma
