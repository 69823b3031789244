import Pegastore.Rdma.Attribution

/-!
# The window of a batch

One call of `execute_batch` on a session with nothing outstanding. `Call` adds to the session the
chains posted so far, in order, and what the call returned; both exist only in the model. A request
is outstanding from its post until its completion is polled.

`Issued` says what the posted chains are: the operations in list order, each once, in chains of
bounded length, with the outstanding ones among them and never more than `MAX_SEND_WR`. The inflight
map has the size of the outstanding requests because it holds the number of each of them
(`Attributed.pending_length`). `execute_batch_window` is the result for every run of a call, and
`Healthy` is the invariant of a call in which nothing fails.
-/

set_option autoImplicit false
set_option relaxedAutoImplicit false

namespace Pegastore.Rdma

open Outcome Transition

/-! ### One call -/

/-- A call of `execute_batch`, with the chains it posted and what it returned. -/
structure Call where
  world : World
  chains : List (List Posted)
  result : Option (TransferResult ℕ)

/-- The chain that an action posts. -/
def World.chainOf (w w' : World) : Action → List (List Posted)
  | .post _ => [w'.outstanding.drop w.outstanding.length]
  | _ => []

/-- One action of the call; no other batch starts. -/
def Call.exec (qpn : ℕ) (c : Call) : Action → Option Call
  | .start _ _ _ => none
  | action => (c.world.exec qpn action).map fun r ↦
    ⟨r.1, c.chains ++ c.world.chainOf r.1 action, r.2.or c.result⟩

/-- The call has made the first test of its loop; nothing is outstanding. -/
def Call.enter (ops : List RdmaOp) (kind : TransferOp) : Call :=
  let w : World := ⟨[], [], none, 1, []⟩
  ⟨(w.settle (executeBatch ops kind)).1, [], (w.settle (executeBatch ops kind)).2⟩

/-- A call of `execute_batch` on a session with nothing outstanding. -/
def call (qpn : ℕ) (ops : List RdmaOp) (kind : TransferOp) : System Call Action where
  start := Call.enter ops kind
  step := fun c action c' ↦ c.exec qpn action = some c'

/-! ### What is outstanding -/

theorem World.chain_idx (w : World) (b : Batch) (accepted : List WorkRequest) :
    (w.chain b accepted).map Posted.idx =
      (List.range accepted.length).map fun k ↦ b.nextIdx + k := by
  have hsnd : accepted.zipIdx.map Prod.snd = List.range accepted.length := by
    rw [List.zipIdx_map_snd, List.range_eq_range']
  unfold World.chain
  rw [← hsnd, List.map_map, List.map_map]
  rfl

theorem World.mem_chain {w : World} {b : Batch} {accepted : List WorkRequest} {p : Posted}
    (h : p ∈ w.chain b accepted) :
    ∃ k wr, accepted[k]? = some wr ∧ p = ⟨w.started, b.nextIdx + k, wr⟩ := by
  obtain ⟨⟨wr, k⟩, hmem, rfl⟩ := List.mem_map.mp h
  exact ⟨k, wr, List.mem_zipIdx_iff_getElem?.mp hmem, rfl⟩

/-- Nothing is outstanding but requests of the running batch. -/
def World.Sole (w : World) : Prop := ∀ p ∈ w.pending, p.batch = w.started

theorem Attributed.nodup_idx {w : World} {b : Batch} (h : Attributed w b) (hsole : w.Sole) :
    (w.pending.map Posted.idx).Nodup := by
  refine List.pairwise_map.mpr (List.Pairwise.imp_of_mem ?_ h.distinct)
  intro p q hp hq hdistinct
  exact hdistinct (hsole p hp) (hsole q hq)

/-- The inflight map holds the number of each outstanding request, so it has their count. -/
theorem Attributed.pending_length {w : World} {b : Batch} (h : Attributed w b) (hsole : w.Sole) :
    w.pending.length = b.inflight.entries.length := by
  have hids : (w.pending.map fun p ↦ p.idx + 1).Nodup := by
    have hmap := (h.nodup_idx hsole).map (fun a c heq ↦ Nat.add_right_cancel heq :
      Function.Injective fun i ↦ i + 1)
    rwa [List.map_map] at hmap
  have hkeys : (b.inflight.entries.map Prod.fst).Nodup :=
    List.pairwise_map.mpr (b.inflight.sorted.imp ne_of_lt)
  have hperm : (w.pending.map fun p ↦ p.idx + 1).Perm (b.inflight.entries.map Prod.fst) := by
    rw [List.perm_ext_iff_of_nodup hids hkeys]
    intro id
    constructor
    · intro hid
      obtain ⟨p, hp, rfl⟩ := List.mem_map.mp hid
      obtain ⟨_, op, hop, _⟩ := h.own p hp (hsole p hp)
      have hfind := (h.inflight (p.idx + 1) op.len).mpr
        ⟨p.idx, op, rfl, ⟨p, hp, hsole p hp, rfl⟩, hop, rfl⟩
      exact List.mem_map.mpr ⟨_, b.inflight.mem_entries_iff.mpr hfind, rfl⟩
    · intro hid
      obtain ⟨⟨key, len⟩, hmem, rfl⟩ := List.mem_map.mp hid
      obtain ⟨i, op, hkey, ⟨p, hp, _, rfl⟩, _⟩ :=
        (h.inflight key len).mp (b.inflight.mem_entries_iff.mp hmem)
      exact List.mem_map.mpr ⟨p, hp, hkey.symm⟩
  simpa using hperm.length_eq

/-! ### What one round posts -/

theorem Batch.nextChain_length (b : Batch) : b.nextChain.length ≤ maxWrChainOps ∧
    b.nextChain.length ≤ maxSendWr - b.inflight.entries.length := by
  unfold Batch.nextChain
  rw [List.length_take]
  omega

/-- The requests the NIC accepted are a first part of the chain. -/
theorem Batch.fill_accepted (b : Batch) (outcome : PostOutcome) : (b.fill outcome).1 = [] ∨
    ∃ chain count, constructChain b.kind b.nextWrId 0 b.nextChain = .ok chain ∧
      (b.fill outcome).1 = chain.take count := by
  unfold Batch.fill postRdmaWrChain
  split_ifs with hempty
  · exact Or.inl rfl
  · cases hchain : constructChain b.kind b.nextWrId 0 b.nextChain with
    | error e => exact Or.inl rfl
    | ok chain =>
      right
      cases outcome with
      | rejected count message => exact ⟨chain, count, rfl, rfl⟩
      | accepted =>
        refine ⟨chain, chain.length, rfl, ?_⟩
        rw [List.take_length]
        dsimp only
        split_ifs <;> rfl

theorem Attributed.fill_accepted {w : World} {b : Batch} (h : Attributed w b)
    (outcome : PostOutcome) : (b.fill outcome).1.length ≤ b.nextChain.length ∧
      ∀ k wr, (b.fill outcome).1[k]? = some wr → ∃ op, b.ops[b.nextIdx + k]? = some op ∧
        wr = workRequest b.kind (b.nextIdx + k + 1) op := by
  rcases b.fill_accepted outcome with hnil | ⟨chain, count, hchain, htake⟩
  · rw [hnil]
    exact ⟨Nat.zero_le _, by simp⟩
  · rw [htake]
    constructor
    · rw [List.length_take, ← (constructChain_eq_ok hchain).1]
      exact min_le_right _ _
    · intro k wr hwr
      rw [List.getElem?_take] at hwr
      split_ifs at hwr
      exact (h.accepted_eq hchain hwr).2

/-! ### The invariant -/

/-- The chains of a call: the operations in order, each once, with the outstanding ones among
them. -/
structure Issued (ops : List RdmaOp) (kind : TransferOp) (w : World) (chains : List (List Posted)) :
    Prop where
  positions : chains.flatten.map Posted.idx = List.range chains.flatten.length
  requests : ∀ p ∈ chains.flatten, ∃ op, ops[p.idx]? = some op ∧
    p = ⟨w.started, p.idx, workRequest kind (p.idx + 1) op⟩
  chains_le : ∀ chain ∈ chains, chain.length ≤ maxWrChainOps
  posted : ∀ p ∈ w.pending, p ∈ chains.flatten
  distinct : (w.pending.map Posted.idx).Nodup
  window : w.pending.length ≤ maxSendWr

/-- The worker goes on with the operations not posted yet, or has returned. -/
def Goes (ops : List RdmaOp) (kind : TransferOp) (w : World) (chains : List (List Posted)) :
    Status → Prop
  | .running b => Attributed w b ∧ b.ops = ops ∧ b.kind = kind ∧ b.nextIdx = chains.flatten.length
  | .returned (.ok total) => chains.flatten.length = ops.length ∧ w.pending = [] ∧
    (∀ p ∈ chains.flatten, p ∈ w.succeeded) ∧
    total = min (ops.map RdmaOp.len).sum (2 ^ 64 - 1)
  | .returned (.error _) => True

/-- The invariant of a call. -/
structure Windowed (ops : List RdmaOp) (kind : TransferOp) (c : Call) : Prop where
  issued : Issued ops kind c.world c.chains
  consistent : Consistent c.world
  running : ∀ b, c.world.current = some b → c.result = none ∧
    Goes ops kind c.world c.chains (.running b)
  returned : ∀ r, c.result = some r → Goes ops kind c.world c.chains (.returned r)

section Steps

variable {ops : List RdmaOp} {kind : TransferOp} {w w' : World} {b : Batch}
  {chains : List (List Posted)}

theorem Issued.sole (h : Issued ops kind w chains) : w.Sole := by
  intro p hp
  obtain ⟨op, _, heq⟩ := h.requests p (h.posted p hp)
  rw [heq]

/-- A step that posts nothing. -/
theorem Issued.of_subperm (h : Issued ops kind w chains) (hperm : w'.pending.Subperm w.pending)
    (hstarted : w'.started = w.started) : Issued ops kind w' chains where
  positions := h.positions
  requests := by
    rw [hstarted]
    exact h.requests
  chains_le := h.chains_le
  posted := fun p hp ↦ h.posted p (hperm.subset hp)
  distinct := by
    obtain ⟨l, hl, hsub⟩ := hperm
    exact (hl.map _).nodup_iff.mp (h.distinct.sublist (hsub.map _))
  window := hperm.length_le.trans h.window

/-- The accepted part of a chain continues the list. -/
theorem Issued.post (h : Issued ops kind w chains) (hb : Goes ops kind w chains (.running b))
    (outcome : PostOutcome) : Issued ops kind (w.post b (b.fill outcome).1)
      (chains ++ [w.chain b (b.fill outcome).1]) := by
  obtain ⟨hattributed, rfl, rfl, hnext⟩ := hb
  obtain ⟨hlength, haccepted⟩ := hattributed.fill_accepted outcome
  obtain ⟨hchain, havailable⟩ := b.nextChain_length
  have hflatten (new : List Posted) : (chains ++ [new]).flatten = chains.flatten ++ new := by
    rw [List.flatten_append, List.flatten_singleton]
  have hnew : (w.chain b (b.fill outcome).1).length = (b.fill outcome).1.length := by
    unfold World.chain
    rw [List.length_map, List.length_zipIdx]
  have hpositions : ((chains ++ [w.chain b (b.fill outcome).1]).flatten).map Posted.idx =
      List.range ((chains ++ [w.chain b (b.fill outcome).1]).flatten).length := by
    rw [hflatten, List.map_append, h.positions, w.chain_idx, List.length_append, hnew,
      List.range_add, hnext]
  have hperm := w.pending_post_perm b (b.fill outcome).1
  have hposted : ∀ p ∈ (w.post b (b.fill outcome).1).pending,
      p ∈ (chains ++ [w.chain b (b.fill outcome).1]).flatten := by
    intro p hp
    rw [hflatten]
    exact List.mem_append.mpr ((List.mem_append.mp (hperm.mem_iff.mp hp)).imp_left (h.posted p))
  refine ⟨hpositions, ?_, ?_, hposted, ?_, ?_⟩
  · intro p hp
    rw [hflatten] at hp
    rcases List.mem_append.mp hp with hold | hfresh
    · exact h.requests p hold
    · obtain ⟨k, wr, hk, rfl⟩ := World.mem_chain hfresh
      obtain ⟨op, hop, rfl⟩ := haccepted k wr hk
      exact ⟨op, hop, rfl⟩
  · intro chain hmem
    rcases List.mem_append.mp hmem with hold | hfresh
    · exact h.chains_le chain hold
    · rw [List.mem_singleton.mp hfresh, hnew]
      exact hlength.trans hchain
  · -- the new positions are those from the number of posted operations on
    rw [(hperm.map Posted.idx).nodup_iff, List.map_append, w.chain_idx]
    refine List.nodup_append.mpr ⟨h.distinct, List.nodup_range.map fun a c heq ↦
      Nat.add_left_cancel heq, ?_⟩
    intro i hi j hj
    obtain ⟨p, hp, rfl⟩ := List.mem_map.mp hi
    obtain ⟨k, _, rfl⟩ := List.mem_map.mp hj
    have hlt := (hattributed.own p hp (h.sole p hp)).1
    omega
  · have hsize := hattributed.pending_length h.sole
    have hwindow := h.window
    rw [hperm.length_eq, List.length_append, hnew]
    omega

/-- Where the worker is does not matter for what is outstanding. -/
theorem Windowed.settle (hissued : Issued ops kind w chains) (hw : Consistent w) {status : Status}
    (h : Goes ops kind w chains status) :
    Windowed ops kind ⟨(w.settle status).1, chains, (w.settle status).2⟩ := by
  cases status with
  | running b =>
    refine ⟨⟨hissued.positions, hissued.requests, hissued.chains_le, hissued.posted,
      hissued.distinct, hissued.window⟩, ⟨hw.batch_le, hw.cq⟩, fun b' hb' ↦ ⟨rfl, ?_⟩, nofun⟩
    cases hb'
    exact ⟨h.1.of_perm (List.Perm.refl _) rfl fun _ hp ↦ hp, h.2⟩
  | returned r =>
    refine ⟨⟨hissued.positions, hissued.requests, hissued.chains_le, hissued.posted,
      hissued.distinct, hissued.window⟩, ⟨hw.batch_le, hw.cq⟩, nofun, fun r' hr' ↦ ?_⟩
    cases hr'
    cases r with
    | ok total => exact h
    | error e => trivial

/-- The loop ends when everything is posted and nothing is outstanding. -/
theorem Goes.outerLoop (hissued : Issued ops kind w chains)
    (h : Goes ops kind w chains (.running b)) : Goes ops kind w chains b.outerLoop := by
  obtain ⟨hattributed, rfl, rfl, hnext⟩ := h
  unfold Batch.outerLoop
  split_ifs with hcond
  · exact ⟨hattributed.setPhase _, rfl, rfl, hnext⟩
  · simp only [Bool.or_eq_true, decide_eq_true_iff, Bool.not_eq_true', List.isEmpty_eq_false_iff,
      not_or, not_lt, not_not] at hcond
    obtain ⟨htotal, hdone⟩ := hattributed.finished hcond.1 hcond.2
    refine ⟨hnext ▸ le_antisymm hattributed.nextIdx_le hcond.1, ?_, fun p hp ↦ ?_, htotal⟩
    · have hsize := hattributed.pending_length hissued.sole
      rw [hcond.2] at hsize
      exact List.length_eq_zero_iff.mp hsize
    · obtain ⟨op, hop, heq⟩ := hissued.requests p hp
      rw [heq]
      exact hdone p.idx op hop

theorem Goes.fill (h : Goes ops kind w chains (.running b)) (outcome : PostOutcome) :
    Goes ops kind (w.post b (b.fill outcome).1) (chains ++ [w.chain b (b.fill outcome).1])
      (b.fill outcome).2 := by
  obtain ⟨hattributed, rfl, rfl, hnext⟩ := h
  have hfill : b.fill outcome = ((b.fill outcome).1, (b.fill outcome).2) := rfl
  have hsound := StatusSound.fill hattributed hfill
  have hlength : ((chains ++ [w.chain b (b.fill outcome).1]).flatten).length =
      b.nextIdx + (b.fill outcome).1.length := by
    rw [List.flatten_append, List.flatten_singleton, List.length_append, hnext, World.chain,
      List.length_map, List.length_zipIdx]
  rcases b.fill_cases hfill with ⟨e, hstatus⟩ | ⟨hnil, hstatus⟩ | ⟨hchain, hstatus⟩
  · rw [hstatus]
    trivial
  · rw [hstatus] at hsound ⊢
    refine ⟨hsound, rfl, rfl, ?_⟩
    rw [hlength, hnil]
    rfl
  · rw [hstatus] at hsound ⊢
    refine ⟨hsound, rfl, rfl, ?_⟩
    rw [hlength, (constructChain_eq_ok hchain).1]
    rfl

theorem Goes.handle (hw : Consistent w) (h : Goes ops kind w chains (.running b)) (qpn : ℕ)
    {p : Posted} {wc : WorkCompletion} {rest : List (Posted × WorkCompletion)}
    (hcq : w.cq = (p, wc) :: rest) :
    Goes ops kind { w with cq := rest } chains (b.handle qpn wc) := by
  obtain ⟨hattributed, rfl, rfl, hnext⟩ := h
  rcases hattributed.consume qpn hw hcq with ⟨e, he⟩ | ⟨b', hb', hkept⟩
  · rw [he]
    trivial
  · rw [hb']
    -- taking a completion leaves the operations and the position of the batch
    have hsame : b'.ops = b.ops ∧ b'.kind = b.kind ∧ b'.nextIdx = b.nextIdx := by
      unfold Batch.handle at hb'
      split at hb'
      · cases hb'
        exact ⟨rfl, rfl, rfl⟩
      · split_ifs at hb'
        cases hb'
        exact ⟨rfl, rfl, rfl⟩
    exact ⟨hkept, hsame.1, hsame.2.1, hsame.2.2.trans hnext⟩

/-- The call begins with nothing posted. -/
theorem Windowed.enter (kind : TransferOp) (hfits : ops.length ≤ isizeMax) :
    Windowed ops kind (Call.enter ops kind) := by
  have hidle : Consistent ⟨[], [], none, 0, []⟩ := ⟨nofun, nofun⟩
  have hissued : Issued ops kind ⟨[], [], none, 1, []⟩ [] :=
    ⟨rfl, nofun, nofun, nofun, List.nodup_nil, Nat.zero_le _⟩
  refine Windowed.settle hissued ⟨nofun, nofun⟩ ?_
  unfold executeBatch
  split_ifs with hempty
  · refine ⟨hempty.symm, rfl, nofun, ?_⟩
    rw [List.length_eq_zero_iff.mp hempty]
    rfl
  · exact Goes.outerLoop hissued ⟨Attributed.start kind hfits hidle nofun, rfl, rfl, rfl⟩

end Steps

theorem Windowed.inv {ops : List RdmaOp} {kind : TransferOp} {c : Call} (h : Windowed ops kind c) :
    Inv c.world := ⟨h.consistent, fun b hb ↦ (h.running b hb).2.1⟩

/-- A call whose batch was left in a status. -/
def Call.left (w : World) (status : Status) (chains : List (List Posted)) : Call :=
  ⟨(w.settle status).1, chains, (w.settle status).2⟩

/-- What each action of a call does. -/
inductive CallEffect (qpn : ℕ) (c : Call) : Action → Call → Prop
  | post {b : Batch} (outcome : PostOutcome) (hb : c.world.current = some b) :
    CallEffect qpn c (.post outcome) (.left (c.world.post b (b.fill outcome).1) (b.fill outcome).2
      (c.chains ++ [c.world.chain b (b.fill outcome).1]))
  | poll {b : Batch} (outcome : PollOutcome) (hb : c.world.current = some b) :
    CallEffect qpn c (.poll outcome) (.left c.world (b.startPoll qpn outcome) c.chains)
  | consume {b : Batch} {p : Posted} {wc : WorkCompletion} {rest : List (Posted × WorkCompletion)}
    (hb : c.world.current = some b) (hcq : c.world.cq = (p, wc) :: rest) :
    CallEffect qpn c .consume (.left { c.world with cq := rest } (b.handle qpn wc) c.chains)
  | pollEnd {b : Batch} (hb : c.world.current = some b) :
    CallEffect qpn c .pollEnd (.left c.world b.outerLoop c.chains)
  | complete {k : ℕ} {p : Posted} (status opcode vendorErr : ℕ)
    (hp : c.world.outstanding[k]? = some p) :
    CallEffect qpn c (.complete k status opcode vendorErr) { c with world := { c.world with
      outstanding := c.world.outstanding.eraseIdx k
      cq := c.world.cq ++ [(p, ⟨p.wr.wrId, status, opcode, vendorErr⟩)]
      succeeded := if status = statusSuccess then c.world.succeeded ++ [p]
        else c.world.succeeded } }

/-- A call that has not returned has these effects only. -/
theorem Call.exec_effect {qpn : ℕ} {c c' : Call} {action : Action}
    (hrunning : ∀ b, c.world.current = some b → c.result = none)
    (hexec : c.exec qpn action = some c') : CallEffect qpn c action c' := by
  cases action with
  | start ops kind fits => cases hexec
  | post outcome =>
    obtain ⟨r, hr, rfl⟩ := Option.map_eq_some_iff.mp hexec
    obtain ⟨b, hb, hrest⟩ := Option.bind_eq_some_iff.mp hr
    have hcurrent := World.batchIn_eq_some hb
    have hsettled : (c.world.post b (b.fill outcome).1).settle (b.fill outcome).2 = r :=
      Option.some.inj hrest
    subst hsettled
    have hnew : c.world.chainOf ((c.world.post b (b.fill outcome).1).settle (b.fill outcome).2).1
        (.post outcome) = [c.world.chain b (b.fill outcome).1] := by
      unfold World.chainOf World.settle
      cases (b.fill outcome).2 <;> simp [World.post, World.chain]
    rw [hrunning b hcurrent, Option.or_none, hnew]
    exact .post outcome hcurrent
  | poll outcome =>
    obtain ⟨r, hr, rfl⟩ := Option.map_eq_some_iff.mp hexec
    obtain ⟨b, hb, hrest⟩ := Option.bind_eq_some_iff.mp hr
    have hcurrent := World.batchIn_eq_some hb
    cases hrest
    change CallEffect qpn c _ ⟨_, c.chains ++ [], _⟩
    rw [hrunning b hcurrent, Option.or_none, List.append_nil]
    exact .poll outcome hcurrent
  | consume =>
    obtain ⟨r, hr, rfl⟩ := Option.map_eq_some_iff.mp hexec
    obtain ⟨b, hb, hrest⟩ := Option.bind_eq_some_iff.mp hr
    have hcurrent := World.batchIn_eq_some hb
    cases hcq : c.world.cq with
    | nil =>
      rw [hcq] at hrest
      cases hrest
    | cons e rest =>
      rw [hcq] at hrest
      cases hrest
      change CallEffect qpn c _ ⟨_, c.chains ++ [], _⟩
      rw [hrunning b hcurrent, Option.or_none, List.append_nil]
      exact .consume hcurrent hcq
  | pollEnd =>
    obtain ⟨r, hr, rfl⟩ := Option.map_eq_some_iff.mp hexec
    obtain ⟨b, hb, hrest⟩ := Option.bind_eq_some_iff.mp hr
    have hcurrent := World.batchIn_eq_some hb
    cases hrest
    change CallEffect qpn c _ ⟨_, c.chains ++ [], _⟩
    rw [hrunning b hcurrent, Option.or_none, List.append_nil]
    exact .pollEnd hcurrent
  | complete k status opcode vendorErr =>
    obtain ⟨r, hr, rfl⟩ := Option.map_eq_some_iff.mp hexec
    obtain ⟨p, hp, hrest⟩ := Option.bind_eq_some_iff.mp hr
    cases hrest
    change CallEffect qpn c _ ⟨_, c.chains ++ [], _⟩
    rw [Option.none_or, List.append_nil]
    exact .complete status opcode vendorErr hp

theorem Windowed.effect {qpn : ℕ} {ops : List RdmaOp} {kind : TransferOp} {c c' : Call}
    {action : Action} (h : Windowed ops kind c) (hexec : c.exec qpn action = some c') :
    CallEffect qpn c action c' :=
  Call.exec_effect (fun b hb ↦ (h.running b hb).1) hexec

/-- Every action of the call keeps the invariant. -/
theorem Windowed.exec {qpn : ℕ} {ops : List RdmaOp} {kind : TransferOp} {c c' : Call}
    {action : Action} (h : Windowed ops kind c) (hexec : c.exec qpn action = some c') :
    Windowed ops kind c' := by
  cases h.effect hexec with
  | @post b outcome hb =>
    have hgoes := (h.running b hb).2
    exact Windowed.settle (h.issued.post hgoes outcome) (h.consistent.post b _) (hgoes.fill outcome)
  | @poll b outcome hb =>
    have hgoes := (h.running b hb).2
    refine Windowed.settle h.issued h.consistent ?_
    cases outcome with
    | ready => exact ⟨hgoes.1.setPhase _, hgoes.2⟩
    | empty => exact hgoes.outerLoop h.issued
    | failed message => trivial
  | @consume b p wc rest hb hcq =>
    have hperm := World.pending_perm_consume hcq
    have hissued : Issued ops kind { c.world with cq := rest } c.chains :=
      h.issued.of_subperm ((List.sublist_cons_self p _).subperm.trans hperm.symm.subperm) rfl
    exact Windowed.settle hissued (h.consistent.consume hcq)
      ((h.running b hb).2.handle h.consistent qpn hcq)
  | @pollEnd b hb =>
    exact Windowed.settle h.issued h.consistent ((h.running b hb).2.outerLoop h.issued)
  | @complete k p status opcode vendorErr hp =>
    have hinv := h.inv.complete ⟨p.wr.wrId, status, opcode, vendorErr⟩ hp rfl
    have hperm := c.world.pending_perm_complete ⟨p.wr.wrId, status, opcode, vendorErr⟩ hp
    refine ⟨h.issued.of_subperm hperm.subperm rfl, hinv.consistent, fun b hb ↦ ?_, fun r hr ↦ ?_⟩
    · exact ⟨(h.running b hb).1, hinv.attributed b hb, (h.running b hb).2.2⟩
    · cases r with
      | error e => trivial
      | ok total =>
        -- nothing is outstanding any more when the call has returned `Ok`
        have hempty := (h.returned _ hr).2.1
        have hmem : p ∈ c.world.pending :=
          List.mem_append_left _ (List.mem_of_getElem? hp)
        rw [hempty] at hmem
        cases hmem

theorem call_windowed {qpn : ℕ} {ops : List RdmaOp} (kind : TransferOp)
    (hfits : ops.length ≤ isizeMax) {actions : List Action} {c : Call}
    (hrun : (call qpn ops kind).Run actions c) : Windowed ops kind c :=
  System.Steps.invariant hrun (Windowed.enter kind hfits) fun _ _ _ _ h hstep ↦ h.exec hstep

/-! ### A call in which nothing fails -/

/-- The action is not a failing post, a failing poll or an unsuccessful completion. -/
def Action.Succeeds : Action → Prop
  | .post outcome => outcome = .accepted
  | .poll outcome => ∀ message, outcome ≠ .failed message
  | .complete _ status _ _ => status = statusSuccess
  | _ => True

/-- No completion is a failure, and the call has not returned an error. -/
structure Healthy (c : Call) : Prop where
  cq : ∀ e ∈ c.world.cq, e.2.status = statusSuccess
  result : ∀ e, c.result ≠ some (.error e)

theorem constructChain_ne_error {kind : TransferOp} {firstWrId : ℕ} {ops : List RdmaOp}
    (hlens : ∀ op ∈ ops, op.len ≤ 2 ^ 32 - 1) :
    ∀ (idx : ℕ) (e : TransferError), constructChain kind firstWrId idx ops ≠ .error e := by
  induction ops with
  | nil => exact fun _ _ h ↦ by cases h
  | cons op rest ih =>
    intro idx e h
    rw [constructChain, if_neg (not_lt.mpr (hlens op List.mem_cons_self))] at h
    cases hrest : constructChain kind firstWrId (idx + 1) rest with
    | error e' => exact ih (fun op hop ↦ hlens op (List.mem_cons_of_mem _ hop)) _ e' hrest
    | ok chain =>
      rw [hrest] at h
      cases h

/-- A status is not a failure. -/
def Status.Fine (status : Status) : Prop := ∀ e, status ≠ .returned (.error e)

theorem Batch.fill_fine {b : Batch} (hlens : ∀ op ∈ b.ops, op.len ≤ 2 ^ 32 - 1) :
    (b.fill .accepted).2.Fine := by
  have hchain : ∀ op ∈ b.nextChain, op.len ≤ 2 ^ 32 - 1 := fun op hop ↦
    hlens op (List.mem_of_mem_drop (List.mem_of_mem_take hop))
  intro e h
  unfold Batch.fill postRdmaWrChain at h
  split_ifs at h
  · cases h
  · cases hconstruct : constructChain b.kind b.nextWrId 0 b.nextChain with
    | error e' => exact constructChain_ne_error hchain 0 e' hconstruct
    | ok chain =>
      rw [hconstruct] at h
      dsimp only at h
      split_ifs at h

theorem Batch.outerLoop_fine (b : Batch) : b.outerLoop.Fine := by
  intro e h
  unfold Batch.outerLoop at h
  split_ifs at h
  cases h

theorem Batch.handle_fine {qpn : ℕ} (b : Batch) {wc : WorkCompletion}
    (hstatus : wc.status = statusSuccess) : (b.handle qpn wc).Fine := by
  intro e h
  unfold Batch.handle at h
  split at h
  · cases h
  · rw [if_neg (not_not.mpr hstatus)] at h
    cases h

theorem Healthy.settle {w : World} {status : Status} {chains : List (List Posted)}
    (hcq : ∀ e ∈ w.cq, e.2.status = statusSuccess) (h : status.Fine) :
    Healthy ⟨(w.settle status).1, chains, (w.settle status).2⟩ := by
  cases status with
  | running b => exact ⟨hcq, nofun⟩
  | returned r =>
    refine ⟨hcq, fun e heq ↦ h e ?_⟩
    cases heq
    rfl

theorem Healthy.exec {qpn : ℕ} {ops : List RdmaOp} {kind : TransferOp} {c c' : Call}
    {action : Action} (hlens : ∀ op ∈ ops, op.len ≤ 2 ^ 32 - 1) (hw : Windowed ops kind c)
    (h : Healthy c) (haction : action.Succeeds) (hexec : c.exec qpn action = some c') :
    Healthy c' := by
  cases hw.effect hexec with
  | @post b outcome hb =>
    cases haction
    refine Healthy.settle h.cq (Batch.fill_fine ?_)
    rw [(hw.running b hb).2.2.1]
    exact hlens
  | @poll b outcome hb =>
    refine Healthy.settle h.cq ?_
    cases outcome with
    | ready => exact fun _ heq ↦ by cases heq
    | empty => exact b.outerLoop_fine
    | failed message => exact absurd rfl (haction message)
  | @consume b p wc rest hb hcq =>
    have hall := h.cq
    rw [hcq] at hall
    exact Healthy.settle (fun e he ↦ hall e (List.mem_cons_of_mem _ he))
      (b.handle_fine (hall (p, wc) List.mem_cons_self))
  | @pollEnd b hb => exact Healthy.settle h.cq b.outerLoop_fine
  | complete status opcode vendorErr hp =>
    refine ⟨fun e he ↦ ?_, h.result⟩
    rcases List.mem_append.mp he with hold | hnew
    · exact h.cq e hold
    · rw [List.mem_singleton.mp hnew]
      exact haction

/-- In every run of a call on a session with nothing outstanding: the operations are posted in list
order and each at most once, in chains of at most `MAX_WR_CHAIN_OPS`; the numbers of the outstanding
requests are distinct, at most `MAX_SEND_WR` are outstanding, and their count is the size of the
inflight map. If the call returned `Ok`, every operation was posted and completed with success, and
the total is the sum of the lengths. If no length exceeds 32 bits and nothing fails, the call has
not returned an error. -/
theorem execute_batch_window {qpn : ℕ} {ops : List RdmaOp} {kind : TransferOp}
    (hfits : ops.length ≤ isizeMax) {actions : List Action} {c : Call}
    (hrun : (call qpn ops kind).Run actions c) :
    (c.chains.flatten.map Posted.idx = List.range c.chains.flatten.length ∧
      ∀ p ∈ c.chains.flatten, ∃ op, ops[p.idx]? = some op ∧
        p.wr = workRequest kind p.wr.wrId op) ∧
    (∀ chain ∈ c.chains, chain.length ≤ maxWrChainOps) ∧
    ((∀ p ∈ c.world.pending, p ∈ c.chains.flatten) ∧
      (c.world.pending.map fun p ↦ p.wr.wrId).Nodup ∧ c.world.pending.length ≤ maxSendWr) ∧
    (∀ b, c.world.current = some b → c.world.pending.length = b.inflight.entries.length) ∧
    (∀ total, c.result = some (.ok total) → c.chains.flatten.length = ops.length ∧
      (∀ p ∈ c.chains.flatten, p ∈ c.world.succeeded) ∧
      total = min (ops.map RdmaOp.len).sum (2 ^ 64 - 1)) ∧
    ((∀ op ∈ ops, op.len ≤ 2 ^ 32 - 1) → (∀ action ∈ actions, action.Succeeds) →
      ∀ e, c.result ≠ some (.error e)) := by
  have h := call_windowed kind hfits hrun
  refine ⟨⟨h.issued.positions, fun p hp ↦ ?_⟩, h.issued.chains_le,
    ⟨h.issued.posted, ?_, h.issued.window⟩, ?_, ?_, ?_⟩
  · obtain ⟨op, hop, heq⟩ := h.issued.requests p hp
    refine ⟨op, hop, ?_⟩
    rw [heq]
    rfl
  · -- the number of a request is its position plus one
    have hids : (c.world.pending.map fun p ↦ p.wr.wrId) =
        (c.world.pending.map Posted.idx).map fun i ↦ i + 1 := by
      rw [List.map_map]
      refine List.map_congr_left fun p hp ↦ ?_
      obtain ⟨op, _, heq⟩ := h.issued.requests p (h.issued.posted p hp)
      rw [heq]
      rfl
    rw [hids]
    exact h.issued.distinct.map fun a b heq ↦ Nat.add_right_cancel heq
  · intro b hb
    exact (h.running b hb).2.1.pending_length h.issued.sole
  · intro total htotal
    obtain ⟨hlength, _, hdone, hsum⟩ := h.returned _ htotal
    exact ⟨hlength, hdone, hsum⟩
  · intro hlens hactions
    have hboth : Windowed ops kind c ∧ Healthy c := by
      refine System.Steps.invariant (I := fun c ↦ Windowed ops kind c ∧ Healthy c) hrun
        ⟨Windowed.enter kind hfits, ?_⟩ fun _ action _ hmem hc hstep ↦
          ⟨hc.1.exec hstep, hc.2.exec hlens hc.1 (hactions action hmem) hstep⟩
      refine Healthy.settle nofun ?_
      unfold executeBatch
      split_ifs
      · exact fun _ heq ↦ by cases heq
      · exact Batch.outerLoop_fine _
    exact hboth.2.result

namespace Scenario

/-- An action of a call, with itself as the label. -/
def actCall (qpn : ℕ) (c : Call) (action : Action) : Option (Action × Call) :=
  (c.exec qpn action).map fun c' ↦ (action, c')

theorem step_of_actCall {qpn : ℕ} {ops : List RdmaOp} {kind : TransferOp} (c : Call)
    (action label : Action) (c' : Call) (h : actCall qpn c action = some (label, c')) :
    (call qpn ops kind).step c label c' := by
  obtain ⟨next, hnext, heq⟩ := Option.map_eq_some_iff.mp h
  cases heq
  exact hnext

/-- Five operations are posted in chains of four and one. The completions arrive in another order,
two of them before the first poll. -/
theorem execute_batch_window_five : ∃ actions c,
    (call 5 (List.replicate 5 (transfer 2)) .write).Run actions c ∧ c.result = some (.ok 10) ∧
      c.chains.map List.length = [4, 1] ∧ ∀ p ∈ c.chains.flatten, p ∈ c.world.succeeded := by
  obtain ⟨actions, c, last, c', hreplay, hact, hcheck⟩ := exists_replay_step
    (actCall 5) (Call.enter (List.replicate 5 (transfer 2)) .write)
    [.post .accepted, .complete 2 0 0 0, .post .accepted, .complete 0 0 0 0, .poll .ready, .consume,
      .consume, .pollEnd, .complete 2 0 0 0, .complete 0 0 0 0, .complete 0 0 0 0, .poll .empty,
      .poll .ready, .consume, .consume, .consume] .pollEnd
    (fun _ _ _ c ↦ decide (c.result = some (.ok 10) ∧ c.chains.map List.length = [4, 1])) (by rfl)
  obtain ⟨hresult, hchains⟩ := of_decide_eq_true hcheck
  have hsteps := steps_of_replay (S := call 5 (List.replicate 5 (transfer 2)) .write)
    step_of_actCall _ hreplay
  have hrun : (call 5 (List.replicate 5 (transfer 2)) .write).Run (actions ++ [last]) c' :=
    hsteps.snoc (step_of_actCall _ _ _ _ hact)
  exact ⟨_, c', hrun, hresult, hchains,
    ((execute_batch_window (by decide) hrun).2.2.2.2.1 10 hresult).2.1⟩

end Scenario

end Pegastore.Rdma
