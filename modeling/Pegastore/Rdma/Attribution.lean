import Pegastore.Rdma.Session

/-!
# Whose completion it is

`execute_batch` numbers its work requests from 1 in every batch and recognises a completion by that
number alone. `Attributed` is the invariant under which this is sound: every pending request of the
running batch carries the number of its position, no pending request of an earlier batch carries a
number the running batch uses, and the inflight map holds exactly the positions still waited for.
Every action keeps it (`Attributed.post`, `Attributed.consume`, ...), and when a batch returns `Ok`
every operation of it has itself completed (`Attributed.finished`). `ok_batch_completed` is the
result for whole runs, when each batch starts with none of its numbers pending (`FreshIds`).

A batch that fails after posting leaves its requests behind. The next batch uses the same numbers,
takes the completion of an abandoned request for its own and returns `Ok` while its operation is
still outstanding (`stale_completion_taken`).
-/

set_option autoImplicit false
set_option relaxedAutoImplicit false

namespace Pegastore.Rdma

open Outcome Transition

/-! ### Chains -/

/-- The requests of a chain, with their numbers. -/
theorem constructChain_eq_ok {kind : TransferOp} {firstWrId : ℕ} {ops : List RdmaOp} :
    ∀ {idx : ℕ} {chain : List WorkRequest}, constructChain kind firstWrId idx ops = .ok chain →
      chain.length = ops.length ∧ ∀ k wr, chain[k]? = some wr → ∃ op, ops[k]? = some op ∧
        wr = workRequest kind ((firstWrId + (idx + k)) % 2 ^ 64) op := by
  induction ops with
  | nil =>
    intro idx chain h
    cases h
    exact ⟨rfl, by simp⟩
  | cons op rest ih =>
    intro idx chain h
    unfold constructChain at h
    split_ifs at h
    obtain ⟨tail, htail, hchain⟩ := bind_eq_ok.mp h
    cases hchain
    obtain ⟨hlength, hwrs⟩ := ih htail
    refine ⟨by rw [List.length_cons, List.length_cons, hlength], ?_⟩
    intro k wr hwr
    cases k with
    | zero =>
      rw [List.getElem?_cons_zero, Option.some.injEq] at hwr
      exact ⟨op, rfl, hwr.symm⟩
    | succ k =>
      rw [List.getElem?_cons_succ] at hwr
      obtain ⟨found, hfound, heq⟩ := hwrs k wr hwr
      refine ⟨found, by rw [List.getElem?_cons_succ]; exact hfound, ?_⟩
      rw [heq, Nat.add_right_comm idx 1 k, Nat.add_assoc idx k 1]

/-- After a chain of `n` requests the next number is `n` further on, and the map holds the lengths
of the chain under its numbers. -/
theorem trackChain_find? (chain : List RdmaOp) :
    ∀ (inflight : SortedMap ℕ ℕ) (first : ℕ), first + chain.length < 2 ^ 64 →
      (trackChain chain inflight first).2 = first + chain.length ∧
      ∀ id, (trackChain chain inflight first).1.find? id =
        if first ≤ id ∧ id < first + chain.length then chain[id - first]?.map RdmaOp.len
        else inflight.find? id := by
  induction chain with
  | nil =>
    intro inflight first _
    refine ⟨rfl, fun id ↦ ?_⟩
    rw [if_neg]
    · rfl
    · rw [List.length_nil]
      omega
  | cons op rest ih =>
    intro inflight first hfits
    rw [List.length_cons] at hfits
    have hmod : (first + 1) % 2 ^ 64 = first + 1 := Nat.mod_eq_of_lt (by omega)
    rw [trackChain, hmod]
    obtain ⟨hnext, hfind⟩ := ih (inflight.insert first op.len) (first + 1) (by omega)
    refine ⟨by rw [hnext, List.length_cons]; omega, fun id ↦ ?_⟩
    rw [hfind id, List.length_cons, SortedMap.find?_insert]
    by_cases hid : id = first
    · subst hid
      rw [if_neg (by omega), if_pos rfl, if_pos (by omega), Nat.sub_self]
      rfl
    · have hne : ¬ first = id := fun heq ↦ hid heq.symm
      rw [if_neg hne]
      by_cases hin : first + 1 ≤ id ∧ id < first + 1 + rest.length
      · rw [if_pos hin, if_pos (by omega)]
        rw [show id - first = id - (first + 1) + 1 by omega, List.getElem?_cons_succ]
      · rw [if_neg hin, if_neg (by omega)]

/-- Tracking a chain of new numbers adds its bytes. -/
theorem trackChain_sumOn (chain : List RdmaOp) :
    ∀ (inflight : SortedMap ℕ ℕ) (first : ℕ), first + chain.length < 2 ^ 64 →
      (∀ id, first ≤ id → inflight.find? id = none) →
      (trackChain chain inflight first).1.sumOn (fun _ len ↦ len) =
        inflight.sumOn (fun _ len ↦ len) + (chain.map RdmaOp.len).sum := by
  induction chain with
  | nil => exact fun _ _ _ _ ↦ rfl
  | cons op rest ih =>
    intro inflight first hfits hnew
    rw [List.length_cons] at hfits
    have hmod : (first + 1) % 2 ^ 64 = first + 1 := Nat.mod_eq_of_lt (by omega)
    rw [trackChain, hmod, ih _ _ (by omega)]
    · have hinsert := inflight.sumOn_insert (fun _ len ↦ len) first op.len
      rw [hnew first le_rfl, Option.elim_none] at hinsert
      rw [List.map_cons, List.sum_cons]
      omega
    · intro id hid
      rw [SortedMap.find?_insert_of_ne _ _ (by omega), hnew id (by omega)]

/-! ### The invariant -/

/-- The requests that were posted and whose completion was not polled yet. -/
def World.pending (w : World) : List Posted := w.outstanding ++ w.cq.map Prod.fst

/-- Position `i` of the running batch has a pending request. -/
def World.Awaits (w : World) (i : ℕ) : Prop := ∃ p ∈ w.pending, p.batch = w.started ∧ p.idx = i

/-- What holds of the queue pair in every run. -/
structure Consistent (w : World) : Prop where
  batch_le : ∀ p ∈ w.pending, p.batch ≤ w.started
  cq : ∀ e ∈ w.cq, e.2.wrId = e.1.wr.wrId ∧ (e.2.status = statusSuccess → e.1 ∈ w.succeeded)

/-- A completion with a number of the running batch belongs to that batch. -/
structure Attributed (w : World) (b : Batch) : Prop where
  fits : b.ops.length ≤ isizeMax
  nextIdx_le : b.nextIdx ≤ b.ops.length
  nextWrId_eq : b.nextWrId = b.nextIdx + 1
  own : ∀ p ∈ w.pending, p.batch = w.started → p.idx < b.nextIdx ∧
    ∃ op, b.ops[p.idx]? = some op ∧ p.wr = workRequest b.kind (p.idx + 1) op
  foreign : ∀ p ∈ w.pending, p.batch ≠ w.started → p.wr.wrId = 0 ∨ b.ops.length < p.wr.wrId
  distinct : w.pending.Pairwise fun p q ↦
    p.batch = w.started → q.batch = w.started → p.idx ≠ q.idx
  inflight : ∀ id len, b.inflight.find? id = some len ↔
    ∃ i op, id = i + 1 ∧ w.Awaits i ∧ b.ops[i]? = some op ∧ op.len = len
  done : ∀ i op, i < b.nextIdx → b.ops[i]? = some op → w.Awaits i ∨
    ⟨w.started, i, workRequest b.kind (i + 1) op⟩ ∈ w.succeeded
  bytes : ∃ total, b.transferred = min total (2 ^ 64 - 1) ∧
    total + b.inflight.sumOn (fun _ len ↦ len) = ((b.ops.take b.nextIdx).map RdmaOp.len).sum

/-- It does not matter where the worker is. -/
theorem Attributed.setPhase {w : World} {b : Batch} (h : Attributed w b) (phase : Phase) :
    Attributed w { b with phase := phase } :=
  ⟨h.fits, h.nextIdx_le, h.nextWrId_eq, h.own, h.foreign, h.distinct, h.inflight, h.done, h.bytes⟩

/-- A finished batch: every operation has completed, and the bytes are counted. -/
theorem Attributed.finished {w : World} {b : Batch} (h : Attributed w b)
    (hposted : b.ops.length ≤ b.nextIdx) (hempty : b.inflight.entries = []) :
    b.transferred = min (b.ops.map RdmaOp.len).sum (2 ^ 64 - 1) ∧
      ∀ i op, b.ops[i]? = some op →
        ⟨w.started, i, workRequest b.kind (i + 1) op⟩ ∈ w.succeeded := by
  constructor
  · obtain ⟨total, htransferred, htotal⟩ := h.bytes
    rw [List.take_of_length_le hposted, SortedMap.sumOn, hempty, List.map_nil, List.sum_nil,
      Nat.add_zero] at htotal
    rw [htransferred, htotal]
  · intro i op hop
    have hlt : i < b.nextIdx := (List.getElem?_eq_some_iff.mp hop).1.trans_le hposted
    refine (h.done i op hlt hop).resolve_left ?_
    intro hawaits
    have hfind := (h.inflight (i + 1) op.len).mpr ⟨i, op, rfl, hawaits, hop, rfl⟩
    have hmem := b.inflight.mem_entries_iff.mpr hfind
    rw [hempty] at hmem
    cases hmem

/-! ### Starting a batch, and the NIC -/

/-- A batch starts with none of its numbers pending. -/
theorem Attributed.start {w : World} {ops : List RdmaOp} (kind : TransferOp)
    (hfits : ops.length ≤ isizeMax) (hw : Consistent w)
    (hfresh : ∀ p ∈ w.pending, p.wr.wrId = 0 ∨ ops.length < p.wr.wrId) :
    Attributed { w with started := w.started + 1 }
      ⟨ops, kind, 0, 1, SortedMap.empty, 0, .filling⟩ := by
  have hold : ∀ p ∈ w.pending, p.batch ≠ w.started + 1 := by
    intro p hp heq
    have hle := hw.batch_le p hp
    omega
  refine ⟨hfits, Nat.zero_le _, rfl, ?_, fun p hp _ ↦ hfresh p hp, ?_, ?_, ?_, 0, rfl, ?_⟩
  · intro p hp heq
    exact absurd heq (hold p hp)
  · refine List.Pairwise.imp_of_mem ?_ (List.pairwise_of_forall fun _ _ ↦ trivial)
    intro p q hp _ _ heq
    exact absurd heq (hold p hp)
  · intro id len
    constructor
    · intro hfind
      rw [SortedMap.find?_empty] at hfind
      cases hfind
    · rintro ⟨i, op, _, ⟨p, hp, heq, _⟩, _⟩
      exact absurd heq (hold p hp)
  · intro i op hlt
    exact absurd hlt (Nat.not_lt_zero i)
  · rw [SortedMap.sumOn_empty]
    rfl

/-- A step that reorders the pending requests and forgets no success. -/
theorem Attributed.of_perm {w w' : World} {b : Batch} (h : Attributed w b)
    (hperm : w'.pending.Perm w.pending) (hstarted : w'.started = w.started)
    (hsucceeded : ∀ p ∈ w.succeeded, p ∈ w'.succeeded) : Attributed w' b := by
  have hawaits : ∀ i, w'.Awaits i ↔ w.Awaits i := by
    intro i
    unfold World.Awaits
    simp only [hperm.mem_iff, hstarted]
  refine ⟨h.fits, h.nextIdx_le, h.nextWrId_eq, ?_, ?_, ?_, ?_, ?_, h.bytes⟩
  · intro p hp heq
    exact h.own p (hperm.mem_iff.mp hp) (heq.trans hstarted)
  · intro p hp hne
    exact h.foreign p (hperm.mem_iff.mp hp) fun heq ↦ hne (heq.trans hstarted.symm)
  · rw [hperm.pairwise_iff fun hpq hq hp ↦ (hpq hp hq).symm, hstarted]
    exact h.distinct
  · intro id len
    simp only [hawaits]
    exact h.inflight id len
  · intro i op hlt hop
    rw [hawaits, hstarted]
    exact (h.done i op hlt hop).imp_right fun hmem ↦ hsucceeded _ hmem

/-! ### Posting -/

/-- The requests of a chain, with their positions. -/
def World.chain (w : World) (b : Batch) (accepted : List WorkRequest) : List Posted :=
  accepted.zipIdx.map fun a ↦ ⟨w.started, b.nextIdx + a.2, a.1⟩

theorem World.pending_post_perm (w : World) (b : Batch) (accepted : List WorkRequest) :
    (w.post b accepted).pending.Perm (w.pending ++ w.chain b accepted) := by
  unfold World.pending World.post World.chain
  rw [List.append_assoc, List.append_assoc]
  exact List.Perm.append_left _ List.perm_append_comm

/-- What the NIC accepted of a batch, in terms of positions. -/
theorem World.mem_pending_post {w : World} {b : Batch} {accepted : List WorkRequest} {p : Posted} :
    p ∈ (w.post b accepted).pending ↔ p ∈ w.pending ∨
      ∃ k wr, accepted[k]? = some wr ∧ p = ⟨w.started, b.nextIdx + k, wr⟩ := by
  unfold World.pending World.post
  simp only [List.mem_append, List.mem_map, Prod.exists, List.mem_zipIdx_iff_getElem?]
  constructor
  · rintro ((hp | ⟨wr, k, hk, rfl⟩) | hp)
    · exact Or.inl (Or.inl hp)
    · exact Or.inr ⟨k, wr, hk, rfl⟩
    · exact Or.inl (Or.inr hp)
  · rintro ((hp | hp) | ⟨k, wr, hk, rfl⟩)
    · exact Or.inl (Or.inl hp)
    · exact Or.inr hp
    · exact Or.inl (Or.inr ⟨wr, k, hk, rfl⟩)

theorem Consistent.post {w : World} (h : Consistent w) (b : Batch) (accepted : List WorkRequest) :
    Consistent (w.post b accepted) := by
  refine ⟨?_, h.cq⟩
  intro p hp
  rcases World.mem_pending_post.mp hp with hold | ⟨k, wr, _, rfl⟩
  · exact h.batch_le p hold
  · exact le_rfl

/-- One round of the posting loop fails, posts nothing, or posts the whole chain with consecutive
numbers. -/
theorem Batch.fill_cases {b : Batch} {outcome : PostOutcome} {accepted : List WorkRequest}
    {status : Status} (h : b.fill outcome = (accepted, status)) :
    (∃ e, status = .returned (.error e)) ∨
    (accepted = [] ∧ status = .running { b with phase := .polling }) ∨
    (constructChain b.kind b.nextWrId 0 b.nextChain = .ok accepted ∧
      status = .running { b with
        inflight := (trackChain b.nextChain b.inflight b.nextWrId).1
        nextWrId := (trackChain b.nextChain b.inflight b.nextWrId).2
        nextIdx := b.nextIdx + b.nextChain.length }.innerLoop) := by
  unfold Batch.fill postRdmaWrChain at h
  split_ifs at h with hempty
  · cases h
    exact Or.inr (Or.inl ⟨rfl, rfl⟩)
  · cases hchain : constructChain b.kind b.nextWrId 0 b.nextChain with
    | error e =>
      rw [hchain] at h
      cases h
      exact Or.inl ⟨e, rfl⟩
    | ok chain =>
      rw [hchain] at h
      cases outcome with
      | rejected count message =>
        cases h
        exact Or.inl ⟨_, rfl⟩
      | accepted =>
        have hlength : b.nextChain.length ≠ 0 := by
          intro hzero
          exact hempty (List.isEmpty_iff.mpr (List.length_eq_zero_iff.mp hzero))
        dsimp only at h
        rw [if_neg hlength, List.take_length] at h
        cases h
        exact Or.inr (Or.inr ⟨rfl, rfl⟩)

/-- The operations of the next chain are those from `next_idx` on. -/
theorem Batch.nextChain_getElem? (b : Batch) {k : ℕ} {op : RdmaOp}
    (h : b.nextChain[k]? = some op) : b.ops[b.nextIdx + k]? = some op := by
  unfold Batch.nextChain at h
  rw [List.getElem?_take] at h
  split_ifs at h
  rwa [List.getElem?_drop] at h

/-- The operations posted before and those of the next chain. -/
theorem Batch.take_nextIdx_add (b : Batch) :
    b.ops.take (b.nextIdx + b.nextChain.length) = b.ops.take b.nextIdx ++ b.nextChain := by
  rw [List.take_add]
  congr 1
  unfold Batch.nextChain
  rw [List.take_eq_take_iff, List.length_take]
  omega

theorem Batch.nextIdx_add_le (b : Batch) (h : b.nextIdx ≤ b.ops.length) :
    b.nextIdx + b.nextChain.length ≤ b.ops.length := by
  unfold Batch.nextChain
  rw [List.length_take, List.length_drop]
  omega

section Post

variable {w : World} {b : Batch} {accepted : List WorkRequest}

/-- The requests of a posted chain carry the numbers of their positions. -/
theorem Attributed.accepted_eq (h : Attributed w b)
    (hchain : constructChain b.kind b.nextWrId 0 b.nextChain = .ok accepted) {k : ℕ}
    {wr : WorkRequest} (hwr : accepted[k]? = some wr) : k < b.nextChain.length ∧
      ∃ op, b.ops[b.nextIdx + k]? = some op ∧ wr = workRequest b.kind (b.nextIdx + k + 1) op := by
  obtain ⟨hlength, hwrs⟩ := constructChain_eq_ok hchain
  obtain ⟨op, hop, rfl⟩ := hwrs k wr hwr
  have hlt : k < b.nextChain.length := (List.getElem?_eq_some_iff.mp hop).1
  have hle := b.nextIdx_add_le h.nextIdx_le
  have hfits := h.fits
  unfold isizeMax at hfits
  refine ⟨hlt, op, b.nextChain_getElem? hop, ?_⟩
  rw [h.nextWrId_eq, Nat.zero_add, Nat.mod_eq_of_lt (by omega), Nat.add_right_comm]

/-- After posting, the batch waits for the positions it waited for and those of the chain. -/
theorem Attributed.awaits_post
    (hchain : constructChain b.kind b.nextWrId 0 b.nextChain = .ok accepted) (i : ℕ) :
    (w.post b accepted).Awaits i ↔
      w.Awaits i ∨ (b.nextIdx ≤ i ∧ i < b.nextIdx + b.nextChain.length) := by
  have hlength := (constructChain_eq_ok hchain).1
  constructor
  · rintro ⟨p, hp, hbatch, rfl⟩
    rcases World.mem_pending_post.mp hp with hold | ⟨k, wr, hk, rfl⟩
    · exact Or.inl ⟨p, hold, hbatch, rfl⟩
    · have hlt : k < accepted.length := (List.getElem?_eq_some_iff.mp hk).1
      dsimp only
      exact Or.inr ⟨by omega, by omega⟩
  · rintro (⟨p, hp, hbatch, rfl⟩ | ⟨hle, hlt⟩)
    · exact ⟨p, World.mem_pending_post.mpr (Or.inl hp), hbatch, rfl⟩
    · have hk : i - b.nextIdx < accepted.length := by omega
      refine ⟨⟨w.started, b.nextIdx + (i - b.nextIdx), accepted[i - b.nextIdx]⟩,
        World.mem_pending_post.mpr (Or.inr ⟨_, _, List.getElem?_eq_getElem hk, rfl⟩), rfl, ?_⟩
      dsimp only
      omega

/-- The positions of a posted chain are new and distinct. -/
theorem Attributed.distinct_post (h : Attributed w b) :
    (w.post b accepted).pending.Pairwise fun p q ↦
      p.batch = w.started → q.batch = w.started → p.idx ≠ q.idx := by
  rw [(w.pending_post_perm b accepted).pairwise_iff fun hpq hq hp ↦ (hpq hp hq).symm,
    List.pairwise_append]
  refine ⟨h.distinct, ?_, ?_⟩
  · rw [World.chain, List.pairwise_map]
    have hnodup : (accepted.zipIdx.map Prod.snd).Nodup := by
      rw [List.zipIdx_map_snd]
      exact List.nodup_range'
    refine (List.pairwise_map.mp hnodup).imp ?_
    intro a c hne _ _ heq
    dsimp only at heq
    exact hne (by omega)
  · intro p hp q hq hbatch _
    obtain ⟨a, _, rfl⟩ := List.mem_map.mp hq
    have hlt := (h.own p hp hbatch).1
    dsimp only
    omega

/-- A posted chain is tracked under its own numbers. -/
theorem Attributed.post (h : Attributed w b)
    (hchain : constructChain b.kind b.nextWrId 0 b.nextChain = .ok accepted) :
    Attributed (w.post b accepted) { b with
      inflight := (trackChain b.nextChain b.inflight b.nextWrId).1
      nextWrId := (trackChain b.nextChain b.inflight b.nextWrId).2
      nextIdx := b.nextIdx + b.nextChain.length } := by
  have hle := b.nextIdx_add_le h.nextIdx_le
  have hfits := h.fits
  unfold isizeMax at hfits
  have hnext := h.nextWrId_eq
  obtain ⟨hnextWrId, hfind⟩ :=
    trackChain_find? b.nextChain b.inflight b.nextWrId (by omega)
  have hawaits := Attributed.awaits_post (w := w) hchain
  have hlt : ∀ i, w.Awaits i → i < b.nextIdx := by
    rintro i ⟨p, hp, hbatch, rfl⟩
    exact (h.own p hp hbatch).1
  refine ⟨h.fits, hle, by dsimp only; omega, ?_, ?_, h.distinct_post, ?_, ?_, ?_⟩
  · intro p hp hbatch
    dsimp only
    rcases World.mem_pending_post.mp hp with hold | ⟨k, wr, hk, rfl⟩
    · obtain ⟨hidx, hop⟩ := h.own p hold hbatch
      exact ⟨by omega, hop⟩
    · obtain ⟨hk, hop⟩ := h.accepted_eq hchain hk
      exact ⟨by dsimp only; omega, hop⟩
  · intro p hp hbatch
    rcases World.mem_pending_post.mp hp with hold | ⟨k, wr, hk, rfl⟩
    · exact h.foreign p hold hbatch
    · exact absurd rfl hbatch
  · intro id len
    rw [hfind id]
    by_cases hin : b.nextWrId ≤ id ∧ id < b.nextWrId + b.nextChain.length
    · rw [if_pos hin, Option.map_eq_some_iff]
      have hk : id - b.nextWrId < b.nextChain.length := by omega
      have hop := b.nextChain_getElem? (List.getElem?_eq_getElem hk)
      rw [List.getElem?_eq_getElem hk]
      constructor
      · rintro ⟨op, heq, hlen⟩
        rw [heq] at hop
        exact ⟨_, op, by omega, (hawaits _).mpr (Or.inr ⟨by omega, by omega⟩), hop, hlen⟩
      · rintro ⟨i, op, hid, _, hi, hlen⟩
        rw [show b.nextIdx + (id - b.nextWrId) = i by omega] at hop
        exact ⟨op, hop.symm.trans hi, hlen⟩
    · rw [if_neg hin, h.inflight id len]
      constructor
      · rintro ⟨i, op, hid, hold, hop⟩
        exact ⟨i, op, hid, (hawaits i).mpr (Or.inl hold), hop⟩
      · rintro ⟨i, op, hid, hnew, hop⟩
        refine ⟨i, op, hid, ((hawaits i).mp hnew).resolve_right ?_, hop⟩
        omega
  · intro i op hi hop
    dsimp only at hi hop ⊢
    rw [hawaits]
    by_cases hold : i < b.nextIdx
    · exact (h.done i op hold hop).imp_left Or.inl
    · exact Or.inl (Or.inr ⟨by omega, hi⟩)
  · obtain ⟨total, htransferred, htotal⟩ := h.bytes
    refine ⟨total, htransferred, ?_⟩
    have hnew : ∀ id, b.nextWrId ≤ id → b.inflight.find? id = none := by
      intro id hid
      rw [Option.eq_none_iff_forall_ne_some]
      intro len hsome
      obtain ⟨i, op, rfl, hold, _⟩ := (h.inflight id len).mp hsome
      have hi := hlt i hold
      omega
    dsimp only
    rw [trackChain_sumOn b.nextChain b.inflight b.nextWrId (by omega) hnew, b.take_nextIdx_add,
      List.map_append, List.sum_append, ← htotal, Nat.add_assoc]

end Post

/-! ### Taking a completion -/

section Consume

variable {w : World} {b : Batch} {p : Posted} {wc : WorkCompletion}
  {rest : List (Posted × WorkCompletion)}

theorem World.pending_perm_consume (hcq : w.cq = (p, wc) :: rest) :
    w.pending.Perm (p :: { w with cq := rest }.pending) := by
  unfold World.pending
  rw [hcq, List.map_cons]
  exact List.perm_middle

theorem Consistent.consume (h : Consistent w) (hcq : w.cq = (p, wc) :: rest) :
    Consistent { w with cq := rest } := by
  refine ⟨?_, ?_⟩
  · intro q hq
    exact h.batch_le q ((World.pending_perm_consume hcq).mem_iff.mpr (List.mem_cons_of_mem _ hq))
  · intro e he
    exact h.cq e (by rw [hcq]; exact List.mem_cons_of_mem _ he)

/-- A completion of the running batch carries the number of its position and is found under it. -/
theorem Attributed.find?_own (hw : Consistent w) (h : Attributed w b)
    (hcq : w.cq = (p, wc) :: rest) (hp : p.batch = w.started) :
    ∃ op, b.ops[p.idx]? = some op ∧ p.wr = workRequest b.kind (p.idx + 1) op ∧
      wc.wrId = p.idx + 1 ∧ b.inflight.find? wc.wrId = some op.len := by
  have hmem : p ∈ w.pending := (World.pending_perm_consume hcq).mem_iff.mpr List.mem_cons_self
  obtain ⟨hid, _⟩ := hw.cq (p, wc) (by rw [hcq]; exact List.mem_cons_self)
  obtain ⟨hidx, op, hop, hwr⟩ := h.own p hmem hp
  have hnumber : wc.wrId = p.idx + 1 := by
    rw [hid, hwr]
    rfl
  exact ⟨op, hop, hwr, hnumber,
    (h.inflight _ _).mpr ⟨p.idx, op, hnumber, ⟨p, hmem, hp, rfl⟩, hop, rfl⟩⟩

/-- A successful completion of the running batch settles its position. -/
theorem Attributed.consume_own (hw : Consistent w) (h : Attributed w b)
    (hcq : w.cq = (p, wc) :: rest) (hp : p.batch = w.started)
    (hstatus : wc.status = statusSuccess) {len : ℕ}
    (hfind : b.inflight.find? wc.wrId = some len) : Attributed { w with cq := rest } { b with
      inflight := b.inflight.erase wc.wrId
      transferred := saturatingAdd b.transferred len } := by
  have hperm := World.pending_perm_consume hcq
  obtain ⟨op, hop, hwr, hnumber, hown⟩ := h.find?_own hw hcq hp
  have hlen : op.len = len := Option.some.inj (hown.symm.trans hfind)
  subst hlen
  have hsucceeded := (hw.cq (p, wc) (by rw [hcq]; exact List.mem_cons_self)).2 hstatus
  have hdistinct := h.distinct
  rw [hperm.pairwise_iff fun hpq hq hp ↦ (hpq hp hq).symm, List.pairwise_cons] at hdistinct
  have hawaits : ∀ i, { w with cq := rest }.Awaits i ↔ w.Awaits i ∧ i ≠ p.idx := by
    intro i
    constructor
    · rintro ⟨q, hq, hbatch, rfl⟩
      exact ⟨⟨q, hperm.mem_iff.mpr (List.mem_cons_of_mem _ hq), hbatch, rfl⟩,
        (hdistinct.1 q hq hp hbatch).symm⟩
    · rintro ⟨⟨q, hq, hbatch, rfl⟩, hne⟩
      rcases List.mem_cons.mp (hperm.mem_iff.mp hq) with rfl | hq
      · exact absurd rfl hne
      · exact ⟨q, hq, hbatch, rfl⟩
  refine ⟨h.fits, h.nextIdx_le, h.nextWrId_eq, ?_, ?_, hdistinct.2, ?_, ?_, ?_⟩
  · intro q hq
    exact h.own q (hperm.mem_iff.mpr (List.mem_cons_of_mem _ hq))
  · intro q hq
    exact h.foreign q (hperm.mem_iff.mpr (List.mem_cons_of_mem _ hq))
  · intro id len
    dsimp only
    rw [SortedMap.find?_erase]
    by_cases hsame : wc.wrId = id
    · rw [if_pos hsame]
      constructor
      · intro hfalse
        cases hfalse
      · rintro ⟨i, _, hi, hwaits, _⟩
        exact absurd (show i = p.idx by omega) ((hawaits i).mp hwaits).2
    · rw [if_neg hsame, h.inflight id len]
      constructor
      · rintro ⟨i, found, hi, hwaits, hfound⟩
        exact ⟨i, found, hi, (hawaits i).mpr ⟨hwaits, fun heq ↦ hsame (by omega)⟩, hfound⟩
      · rintro ⟨i, found, hi, hwaits, hfound⟩
        exact ⟨i, found, hi, ((hawaits i).mp hwaits).1, hfound⟩
  · intro i found hi hfound
    by_cases heq : i = p.idx
    · right
      rw [heq] at hfound ⊢
      have hsame : op = found := Option.some.inj (hop.symm.trans hfound)
      have hself : (⟨w.started, p.idx, workRequest b.kind (p.idx + 1) found⟩ : Posted) = p := by
        rw [← hp, ← hsame, ← hwr]
      exact hself ▸ hsucceeded
    · exact (h.done i found hi hfound).imp_left fun hwaits ↦ (hawaits i).mpr ⟨hwaits, heq⟩
  · obtain ⟨total, htransferred, htotal⟩ := h.bytes
    have herase := b.inflight.sumOn_erase (fun _ len ↦ len) wc.wrId
    rw [hfind, Option.elim_some] at herase
    refine ⟨total + op.len, ?_, ?_⟩
    · dsimp only [saturatingAdd]
      omega
    · dsimp only
      omega

/-- A completion of an earlier batch has a number the running batch does not use. -/
theorem Attributed.consume_foreign (hw : Consistent w) (h : Attributed w b)
    (hcq : w.cq = (p, wc) :: rest) (hp : p.batch ≠ w.started) :
    b.inflight.find? wc.wrId = none ∧ Attributed { w with cq := rest } b := by
  have hperm := World.pending_perm_consume hcq
  have hmem : p ∈ w.pending := hperm.mem_iff.mpr List.mem_cons_self
  obtain ⟨hid, _⟩ := hw.cq (p, wc) (by rw [hcq]; exact List.mem_cons_self)
  have hnumber := h.foreign p hmem hp
  have hawaits : ∀ i, { w with cq := rest }.Awaits i ↔ w.Awaits i := by
    intro i
    constructor
    · rintro ⟨q, hq, hbatch⟩
      exact ⟨q, hperm.mem_iff.mpr (List.mem_cons_of_mem _ hq), hbatch⟩
    · rintro ⟨q, hq, hbatch, hidx⟩
      rcases List.mem_cons.mp (hperm.mem_iff.mp hq) with rfl | hq
      · exact absurd hbatch hp
      · exact ⟨q, hq, hbatch, hidx⟩
  have hdistinct := h.distinct
  rw [hperm.pairwise_iff fun hpq hq hp ↦ (hpq hp hq).symm, List.pairwise_cons] at hdistinct
  refine ⟨?_, h.fits, h.nextIdx_le, h.nextWrId_eq, ?_, ?_, hdistinct.2, ?_, ?_, h.bytes⟩
  · rw [Option.eq_none_iff_forall_ne_some]
    intro len hsome
    obtain ⟨i, op, hi, _, hop, _⟩ := (h.inflight _ len).mp hsome
    have hlt : i < b.ops.length := (List.getElem?_eq_some_iff.mp hop).1
    dsimp only at hid
    omega
  · intro q hq
    exact h.own q (hperm.mem_iff.mpr (List.mem_cons_of_mem _ hq))
  · intro q hq
    exact h.foreign q (hperm.mem_iff.mpr (List.mem_cons_of_mem _ hq))
  · intro id len
    simp only [hawaits]
    exact h.inflight id len
  · intro i op hi hop
    rw [hawaits]
    exact h.done i op hi hop

/-- Handling the completion at the head of the queue. -/
theorem Attributed.consume (qpn : ℕ) (hw : Consistent w) (h : Attributed w b)
    (hcq : w.cq = (p, wc) :: rest) :
    (∃ e, b.handle qpn wc = .returned (.error e)) ∨
      ∃ b', b.handle qpn wc = .running b' ∧ Attributed { w with cq := rest } b' := by
  unfold Batch.handle
  by_cases hp : p.batch = w.started
  · obtain ⟨op, _, _, _, hfind⟩ := h.find?_own hw hcq hp
    rw [hfind]
    dsimp only
    by_cases hstatus : wc.status = statusSuccess
    · rw [if_neg (not_not.mpr hstatus)]
      exact Or.inr ⟨_, rfl, h.consume_own hw hcq hp hstatus hfind⟩
    · rw [if_pos hstatus]
      exact Or.inl ⟨_, rfl⟩
  · obtain ⟨hfind, hkept⟩ := h.consume_foreign hw hcq hp
    rw [hfind]
    exact Or.inr ⟨b, rfl, hkept⟩

end Consume

/-! ### Every action -/

/-- The invariant of a session. -/
structure Inv (w : World) : Prop where
  consistent : Consistent w
  attributed : ∀ b, w.current = some b → Attributed w b

/-- None of the numbers of a batch that starts is pending. -/
def FreshIds (w : World) : Action → Prop
  | .start ops _ _ => ∀ p ∈ w.pending, p.wr.wrId = 0 ∨ ops.length < p.wr.wrId
  | _ => True

instance FreshIds.decidable (w : World) : (action : Action) → Decidable (FreshIds w action)
  | .start ops _ _ => inferInstanceAs
    (Decidable (∀ p ∈ w.pending, p.wr.wrId = 0 ∨ ops.length < p.wr.wrId))
  | .post _ => isTrue trivial
  | .poll _ => isTrue trivial
  | .consume => isTrue trivial
  | .pollEnd => isTrue trivial
  | .complete _ _ _ _ => isTrue trivial

/-- Every operation of the last batch has itself completed with success, and `total` counts the
bytes of these operations. -/
def Completed (ops : List RdmaOp) (w : World) (total : ℕ) : Prop :=
  total = min (ops.map RdmaOp.len).sum (2 ^ 64 - 1) ∧
    ∀ i op, ops[i]? = some op → ∃ p ∈ w.succeeded, p.batch = w.started ∧ p.idx = i ∧
      ∃ kind wrId, p.wr = workRequest kind wrId op

/-- The batch goes on attributed, fails, or returns with its operations completed. -/
def StatusSound (ops : List RdmaOp) (w : World) : Status → Prop
  | .running b => Attributed w b
  | .returned (.ok total) => Completed ops w total
  | .returned (.error _) => True

theorem StatusSound.settle {ops : List RdmaOp} {w w' : World} {status : Status}
    {r : Option (TransferResult ℕ)} (hstatus : StatusSound ops w status) (hw : Consistent w)
    (h : w.settle status = (w', r)) :
    Inv w' ∧ ∀ total, r = some (.ok total) → Completed ops w' total := by
  cases status with
  | running b =>
    cases h
    refine ⟨⟨⟨hw.batch_le, hw.cq⟩, ?_⟩, fun total hr ↦ by cases hr⟩
    intro b' hb'
    cases hb'
    exact Attributed.of_perm hstatus (List.Perm.refl _) rfl fun _ hp ↦ hp
  | returned result =>
    cases h
    refine ⟨⟨⟨hw.batch_le, hw.cq⟩, fun b hb ↦ by cases hb⟩, ?_⟩
    intro total hr
    rw [Option.some.injEq] at hr
    subst hr
    exact hstatus

/-- The test of the outer loop: the batch goes on, or everything is posted and nothing inflight. -/
theorem Attributed.outerLoop {w : World} {b : Batch} (h : Attributed w b) :
    StatusSound b.ops w b.outerLoop := by
  unfold Batch.outerLoop
  split_ifs with hcond
  · exact h.setPhase _
  · simp only [Bool.or_eq_true, decide_eq_true_iff, Bool.not_eq_true', List.isEmpty_eq_false_iff,
      not_or, not_lt, not_not] at hcond
    obtain ⟨htotal, hdone⟩ := h.finished hcond.1 hcond.2
    refine ⟨htotal, ?_⟩
    intro i op hop
    exact ⟨_, hdone i op hop, rfl, rfl, _, _, rfl⟩

theorem StatusSound.executeBatch {w : World} {ops : List RdmaOp} (kind : TransferOp)
    (hfits : ops.length ≤ isizeMax) (hw : Consistent w)
    (hfresh : ∀ p ∈ w.pending, p.wr.wrId = 0 ∨ ops.length < p.wr.wrId) :
    StatusSound ops { w with started := w.started + 1 } (executeBatch ops kind) := by
  unfold Rdma.executeBatch
  split_ifs with hempty
  · rw [List.length_eq_zero_iff.mp hempty]
    exact ⟨rfl, by simp⟩
  · exact (Attributed.start kind hfits hw hfresh).outerLoop

theorem StatusSound.fill {w : World} {b : Batch} {outcome : PostOutcome}
    {accepted : List WorkRequest} {status : Status} (h : Attributed w b)
    (hfill : b.fill outcome = (accepted, status)) :
    StatusSound b.ops (w.post b accepted) status := by
  rcases b.fill_cases hfill with ⟨e, rfl⟩ | ⟨rfl, rfl⟩ | ⟨hchain, rfl⟩
  · trivial
  · refine (h.setPhase .polling).of_perm (List.Perm.of_eq ?_) rfl fun _ hp ↦ hp
    simp [World.pending, World.post]
  · exact (h.post hchain).setPhase _

theorem World.batchIn_eq_some {w : World} {phase : Phase} {b : Batch}
    (h : w.batchIn phase = some b) : w.current = some b := (Option.filter_eq_some_iff.mp h).1

theorem World.opsOf_current {w : World} {b : Batch} (h : w.current = some b) {action : Action}
    (hstart : ∀ ops kind fits, action ≠ .start ops kind fits) : w.opsOf action = b.ops := by
  unfold World.opsOf
  split
  · exact absurd rfl (hstart _ _ _)
  · rw [h]
    rfl

theorem World.pending_perm_complete {w : World} {k : ℕ} {p : Posted} (wc : WorkCompletion)
    (hp : w.outstanding[k]? = some p) :
    (w.outstanding.eraseIdx k ++ (w.cq ++ [(p, wc)]).map Prod.fst).Perm w.pending := by
  obtain ⟨hlt, hget⟩ := List.getElem?_eq_some_iff.mp hp
  have herase : w.outstanding.Perm (p :: w.outstanding.eraseIdx k) := by
    rw [← hget]
    exact (List.getElem_cons_eraseIdx_perm hlt).symm
  rw [List.map_append, List.map_singleton, ← List.append_assoc]
  refine (List.perm_append_comm).trans ?_
  exact (herase.append_right _).symm

/-- The NIC moves a request to the completion queue. -/
theorem Inv.complete {w : World} {k : ℕ} {p : Posted} (wc : WorkCompletion) (h : Inv w)
    (hp : w.outstanding[k]? = some p) (hid : wc.wrId = p.wr.wrId) :
    Inv { w with
      outstanding := w.outstanding.eraseIdx k
      cq := w.cq ++ [(p, wc)]
      succeeded := if wc.status = statusSuccess then w.succeeded ++ [p] else w.succeeded } := by
  have hsucceeded : ∀ q ∈ w.succeeded,
      q ∈ if wc.status = statusSuccess then w.succeeded ++ [p] else w.succeeded := by
    intro q hq
    split_ifs
    · exact List.mem_append_left _ hq
    · exact hq
  have hperm := w.pending_perm_complete wc hp
  refine ⟨⟨?_, ?_⟩, ?_⟩
  · intro q hq
    exact h.consistent.batch_le q (hperm.mem_iff.mp hq)
  · intro e he
    rcases List.mem_append.mp he with hold | hnew
    · obtain ⟨hnumber, hstatus⟩ := h.consistent.cq e hold
      exact ⟨hnumber, fun hok ↦ hsucceeded _ (hstatus hok)⟩
    · rw [List.mem_singleton.mp hnew]
      refine ⟨hid, fun hok ↦ ?_⟩
      dsimp only at hok ⊢
      rw [if_pos hok]
      exact List.mem_append_right _ List.mem_cons_self
  · intro b hb
    exact (h.attributed b hb).of_perm hperm rfl hsucceeded

/-- One action that starts no batch with a pending number keeps the invariant, and a batch it ends
with `Ok` is completed. -/
theorem Inv.exec {qpn : ℕ} {w w' : World} {action : Action} {r : Option (TransferResult ℕ)}
    (h : Inv w) (hfresh : FreshIds w action) (hexec : w.exec qpn action = some (w', r)) :
    Inv w' ∧ ∀ total, r = some (.ok total) → Completed (w.opsOf action) w' total := by
  unfold World.exec at hexec
  cases action with
  | start ops kind fits =>
    dsimp only at hexec
    split_ifs at hexec with hidle
    refine (StatusSound.executeBatch kind fits h.consistent hfresh).settle ?_
      (Option.some.inj hexec)
    exact ⟨fun p hp ↦ (h.consistent.batch_le p hp).trans (Nat.le_succ _), h.consistent.cq⟩
  | post outcome =>
    obtain ⟨b, hb, hrest⟩ := Option.bind_eq_some_iff.mp hexec
    have hcurrent := World.batchIn_eq_some hb
    rw [World.opsOf_current hcurrent fun _ _ _ heq ↦ by cases heq]
    exact (StatusSound.fill (h.attributed b hcurrent) rfl).settle (h.consistent.post b _)
      (Option.some.inj hrest)
  | poll outcome =>
    obtain ⟨b, hb, hrest⟩ := Option.bind_eq_some_iff.mp hexec
    have hcurrent := World.batchIn_eq_some hb
    rw [World.opsOf_current hcurrent fun _ _ _ heq ↦ by cases heq]
    refine StatusSound.settle ?_ h.consistent (Option.some.inj hrest)
    cases outcome with
    | ready => exact (h.attributed b hcurrent).setPhase _
    | empty => exact (h.attributed b hcurrent).outerLoop
    | failed message => trivial
  | consume =>
    obtain ⟨b, hb, hrest⟩ := Option.bind_eq_some_iff.mp hexec
    have hcurrent := World.batchIn_eq_some hb
    rw [World.opsOf_current hcurrent fun _ _ _ heq ↦ by cases heq]
    cases hcq : w.cq with
    | nil =>
      rw [hcq] at hrest
      cases hrest
    | cons e rest =>
      rw [hcq] at hrest
      obtain ⟨p, wc⟩ := e
      refine StatusSound.settle ?_ (h.consistent.consume hcq) (Option.some.inj hrest)
      rcases (h.attributed b hcurrent).consume qpn h.consistent hcq with ⟨e, he⟩ | ⟨b', hb', hkept⟩
      · rw [he]
        trivial
      · rw [hb']
        exact hkept
  | pollEnd =>
    obtain ⟨b, hb, hrest⟩ := Option.bind_eq_some_iff.mp hexec
    have hcurrent := World.batchIn_eq_some hb
    rw [World.opsOf_current hcurrent fun _ _ _ heq ↦ by cases heq]
    exact (h.attributed b hcurrent).outerLoop.settle h.consistent (Option.some.inj hrest)
  | complete k status opcode vendorErr =>
    obtain ⟨p, hp, hrest⟩ := Option.bind_eq_some_iff.mp hexec
    cases hrest
    exact ⟨h.complete ⟨p.wr.wrId, status, opcode, vendorErr⟩ hp rfl,
      fun total hr ↦ by cases hr⟩

/-! ### Every run -/

theorem run_inv {qpn : ℕ} {history : List Event} {w : World}
    (hrun : ((session qpn).restrict fun w e ↦ FreshIds w e.action).Run history w) : Inv w := by
  refine System.Run.induction (S := (session qpn).restrict fun w e ↦ FreshIds w e.action)
    (I := fun _ w ↦ Inv w) ?_ ?_ hrun
  · refine ⟨⟨?_, ?_⟩, ?_⟩
    · intro p hp
      cases hp
    · intro e he
      cases he
    · intro b hb
      cases hb
  · intro _ w e w' _ hw hstep
    exact (hw.exec hstep.1 hstep.2).1

/-- In every run in which each batch starts with none of its numbers pending, a batch that returns
`Ok` has all its operations completed with success, and its total counts exactly their bytes. -/
theorem ok_batch_completed {qpn : ℕ} {history : List Event} {w w' : World} {e : Event} {total : ℕ}
    (hrun : ((session qpn).restrict fun w e ↦ FreshIds w e.action).Run history w)
    (hstep : ((session qpn).restrict fun w e ↦ FreshIds w e.action).step w e w')
    (hreturned : e.returned = some (.ok total)) :
    total = min ((w.opsOf e.action).map RdmaOp.len).sum (2 ^ 64 - 1) ∧
      ∀ i op, (w.opsOf e.action)[i]? = some op → ∃ p ∈ w'.succeeded, p.batch = w'.started ∧
        p.idx = i ∧ ∃ kind wrId, p.wr = workRequest kind wrId op :=
  ((run_inv hrun).exec hstep.1 hstep.2).2 total hreturned

namespace Scenario

/-- A transfer of `len` bytes. -/
def transfer (len : ℕ) : RdmaOp := ⟨7, 4096, 8192, len, 9⟩

/-- An action that starts no batch with a pending number. -/
def actFresh (qpn : ℕ) (w : World) (action : Action) : Option (Event × World) :=
  if FreshIds w action then act qpn w action else none

theorem step_of_actFresh {qpn : ℕ} (w : World) (action : Action) (e : Event) (w' : World)
    (h : actFresh qpn w action = some (e, w')) :
    ((session qpn).restrict fun w e ↦ FreshIds w e.action).step w e w' := by
  unfold actFresh at h
  split_ifs at h with hfresh
  obtain ⟨r, hr, heq⟩ := Option.map_eq_some_iff.mp h
  cases heq
  exact ⟨hfresh, hr⟩

/-- A batch of two operations, which complete in the other order. -/
theorem ok_batch_completed_two : ∃ history w e w', (session 5).Run history w ∧
    (session 5).step w e w' ∧ e.returned = some (.ok 3) ∧
    w.opsOf e.action = [transfer 1, transfer 2] ∧
    ∀ i op, (w.opsOf e.action)[i]? = some op → ∃ p ∈ w'.succeeded, p.batch = w'.started ∧
      p.idx = i ∧ ∃ kind wrId, p.wr = workRequest kind wrId op := by
  obtain ⟨history, w, e, w', hreplay, hact, hcheck⟩ := exists_replay_step
    (actFresh 5) (session 5).start
    [.start [transfer 1, transfer 2] .write (by decide), .post .accepted, .complete 1 0 0 0,
      .complete 0 0 0 0, .poll .ready, .consume, .consume] .pollEnd
    (fun _ w e _ ↦ decide (e.returned = some (.ok 3) ∧
      w.opsOf e.action = [transfer 1, transfer 2])) (by rfl)
  obtain ⟨hreturned, hops⟩ := of_decide_eq_true hcheck
  have hrun := steps_of_replay step_of_actFresh _ hreplay
  have hstep := step_of_actFresh _ _ _ _ hact
  exact ⟨history, w, e, w', hrun.of_restrict, hstep.2, hreturned, hops,
    (ok_batch_completed hrun hstep hreturned).2⟩

/-- Five operations of which the last is too long: four are posted, then the batch fails. -/
def abandoned : List RdmaOp :=
  [transfer 1, transfer 1, transfer 1, transfer 1, transfer (2 ^ 32)]

/-- A batch fails with four requests outstanding. The next batch posts one operation, takes the
completion of the first abandoned request for its own, and returns `Ok` with its operation still
outstanding. -/
theorem stale_completion_taken : ∃ history w e w' p, (session 5).Run history w ∧
    (session 5).step w e w' ∧ w.opsOf e.action = [transfer 8] ∧ e.returned = some (.ok 8) ∧
    p ∈ w'.outstanding ∧ p.batch = w'.started ∧ p.idx = 0 ∧
    ∀ q ∈ w'.succeeded, q.batch ≠ w'.started := by
  obtain ⟨history, w, e, w', hreplay, hact, hcheck⟩ := exists_replay_step
    (act 5) (session 5).start
    [.start abandoned .write (by decide), .post .accepted, .post .accepted,
      .start [transfer 8] .write (by decide), .post .accepted, .complete 0 0 0 0, .poll .ready,
      .consume] .pollEnd
    (fun _ w e w' ↦ decide (w.opsOf e.action = [transfer 8] ∧ e.returned = some (.ok 8) ∧
      (∃ p ∈ w'.outstanding, p.batch = w'.started ∧ p.idx = 0) ∧
      ∀ q ∈ w'.succeeded, q.batch ≠ w'.started)) (by rfl)
  obtain ⟨hops, hreturned, ⟨p, hp, hbatch, hidx⟩, hnone⟩ := of_decide_eq_true hcheck
  exact ⟨history, w, e, w', p, steps_of_replay (fun _ _ _ _ ↦ step_of_act) _ hreplay,
    step_of_act hact, hops, hreturned, hp, hbatch, hidx, hnone⟩

end Scenario

end Pegastore.Rdma
