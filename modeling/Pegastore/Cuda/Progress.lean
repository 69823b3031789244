import Pegastore.Cuda.NoPanic

/-!
# Operations in flight can finish

A `put` takes no lock across its steps and waits for nobody, so it should finish whenever it is left
alone. Its only loop without an obvious bound is the one of `alloc_or_evict`, which goes round as
long as a round evicts something; such a round leaves a shorter queue. `PutThread.rank` orders what
is left to do: slots, then the phase of the slot, then targets or copies, then rounds. Every step of
a `put` that goes on lowers it (`advance_lowers`), however its copies end.

So in every reachable state a `put` that takes the next steps alone returns, with one result per
slot (`put_returns_alone`), and the operations in flight can be finished one after another, which
leaves no slot claimed (`run_drains`). Other operations may take the space a round has freed, so
there is no such bound for a `put` among others.
-/

set_option autoImplicit false
set_option relaxedAutoImplicit false

namespace Pegastore.Local

open Outcome ByteMemory Transition

/-! ### What is left to do -/

/-- The phases of a slot, the last one first. -/
def Pc.phase : Pc → ℕ
  | .slot => 4
  | .place _ _ | .evict _ _ _ | .retry _ _ _ _ => 3
  | .copy _ _ => 2
  | .store _ => 1
  | .failed _ => 0

/-- The targets or the copies that are left. A target counts twice, since an allocation that fails
at first is tried again. -/
def Pc.left : Pc → ℕ
  | .place targets _ => 2 * targets.length
  | .evict _ rest _ | .retry _ rest _ _ => 2 * rest.length + 1
  | .copy _ todo => todo.length
  | _ => 0

/-- The length of the eviction queue of a node. -/
def State.queued (st : State) (numa : UInt16) : ℕ := ((st.fifo (.cpu numa)).getD []).length

/-- A bound on the steps of the eviction loop: a round that evicts leaves a shorter queue, and one
that does not is the last. -/
def Pc.rounds (st : State) : Pc → ℕ
  | .evict target _ _ => 2 * st.queued target.1 + 1
  | .retry target _ _ evicted => if evicted then 2 * st.queued target.1 + 2 else 0
  | _ => 0

/-- Slots, phase, targets or copies, rounds. -/
abbrev Rank := ℕ ×ₗ ℕ ×ₗ ℕ ×ₗ ℕ

/-- What a `put` has still to do. -/
def PutThread.rank (st : State) (th : PutThread) : Rank :=
  toLex (th.op.slots.length - th.i, toLex (th.pc.phase, toLex (th.pc.left, th.pc.rounds st)))

section Rank

variable {st st' : State} {th : PutThread} {pc : Pc}

theorem rank_lt_of_phase (h : pc.phase < th.pc.phase) :
    ({ th with pc := pc } : PutThread).rank st' < th.rank st :=
  Prod.Lex.toLex_lt_toLex.mpr (.inr ⟨rfl, Prod.Lex.toLex_lt_toLex.mpr (.inl h)⟩)

theorem rank_lt_of_left (hphase : pc.phase = th.pc.phase) (h : pc.left < th.pc.left) :
    ({ th with pc := pc } : PutThread).rank st' < th.rank st :=
  Prod.Lex.toLex_lt_toLex.mpr (.inr ⟨rfl, Prod.Lex.toLex_lt_toLex.mpr
    (.inr ⟨hphase, Prod.Lex.toLex_lt_toLex.mpr (.inl h)⟩)⟩)

theorem rank_lt_of_rounds (hphase : pc.phase = th.pc.phase) (hleft : pc.left = th.pc.left)
    (h : pc.rounds st' < th.pc.rounds st) :
    ({ th with pc := pc } : PutThread).rank st' < th.rank st :=
  Prod.Lex.toLex_lt_toLex.mpr (.inr ⟨rfl, Prod.Lex.toLex_lt_toLex.mpr
    (.inr ⟨hphase, Prod.Lex.toLex_lt_toLex.mpr (.inr ⟨hleft, h⟩)⟩)⟩)

theorem rank_reported_lt (hi : th.i < th.op.slots.length) (r : Result Unit) :
    (th.reported r).rank st' < th.rank st := by
  refine Prod.Lex.toLex_lt_toLex.mpr (.inl ?_)
  change th.op.slots.length - (th.i + 1) < th.op.slots.length - th.i
  omega

end Rank

/-! ### Every step lowers it -/

/-- The thread returns what it has reported, panics, or goes on with less to do and what it has
reported so far. -/
inductive Lowers (w : World) (t : ℕ) (th : PutThread) : World × Reply → Prop
  | returned {w' : World} (hend : th.op.slots[th.i]? = none) (hth : w'.threads t = none) :
    Lowers w t th (w', .put (.ok ⟨th.results⟩))
  | panicked {w' : World} {reason : Panic} : Lowers w t th (w', .panicked reason)
  | running {w' : World} {th' : PutThread} (hth : w'.threads t = some th') (hop : th'.op = th.op)
    (hresults : th.results <+: th'.results) (hrank : th'.rank w'.state < th.rank w.state) :
    Lowers w t th (w', .running)

section Lowers

variable {inner : Inner} {mem : ByteSpace} {w w' : World} {t : ℕ} {th : PutThread} {ps : PutSlot}

theorem lowers_goto {pc : Pc}
    (h : ({ th with pc := pc } : PutThread).rank w'.state < th.rank w.state) :
    Lowers w t th (w'.goto t th pc) :=
  .running (Function.update_self ..) rfl List.prefix_rfl h

theorem lowers_fail (h : 0 < th.pc.phase) (e : Error) : Lowers w t th (w'.fail t th e) :=
  lowers_goto (rank_lt_of_phase h)

theorem lowers_report (hps : th.op.slots[th.i]? = some ps) (r : Result Unit) :
    Lowers w t th (w'.report t th r) :=
  .running (Function.update_self ..) rfl (List.prefix_append _ _)
    (rank_reported_lt (List.getElem?_eq_some_iff.mp hps).1 r)

theorem lowers_locked {α : Type} {sec : Exec α} {next : α → World × Reply}
    (hnext : ∀ a, sec = .ok a → Lowers w t th (next a)) :
    Lowers w t th (w.locked t th sec next) := by
  unfold World.locked
  split_ifs
  · exact .panicked
  · cases sec with
    | error reason => exact .panicked
    | ok a => exact hnext a rfl

/-- The target is done with, whether it gave a buffer or not. -/
theorem left_lt_of_trying {target : UInt16 × Bool} {rest rest' : List (UInt16 × Bool)}
    {p p' : Placing} (htrying : th.pc.Trying target rest p) (hle : rest'.length ≤ rest.length) :
    ({ th with pc := .place rest' p' } : PutThread).rank w'.state < th.rank w.state := by
  rcases htrying with hpc | ⟨evicted, hpc⟩
  · refine rank_lt_of_left (by rw [hpc]; rfl) ?_
    rw [hpc]
    change 2 * rest'.length < 2 * (rest.length + 1)
    omega
  · refine rank_lt_of_left (by rw [hpc]; rfl) ?_
    rw [hpc]
    change 2 * rest'.length < 2 * rest.length + 1
    omega

theorem lowers_missed {target : UInt16 × Bool} {rest : List (UInt16 × Bool)} {p : Placing}
    (htrying : th.pc.Trying target rest p) (each : Bool) (e : Error) :
    Lowers w t th (w'.goto t th (p.missed each rest e)) := by
  refine lowers_goto (left_lt_of_trying htrying ?_)
  cases each <;> simp

/-- The step after an allocation, whatever the allocation returned. -/
theorem lowers_takeBuf {target : UInt16 × Bool} {rest : List (UInt16 × Bool)} {p : Placing}
    (htrying : th.pc.Trying target rest p) (each : Bool) {full : Pc}
    (hfull : Lowers w t th (w.goto t th full)) (taken : Exec (Option (PinnedBuf × PinnedPool))) :
    Lowers w t th (w.takeBuf t th each target rest p full taken) := by
  unfold World.takeBuf
  split
  · exact .panicked
  · exact hfull
  · refine lowers_goto (left_lt_of_trying htrying ?_)
    cases each <;> simp

theorem lowers_tryAlloc {target : UInt16 × Bool} {rest : List (UInt16 × Bool)} {p : Placing}
    (htrying : th.pc.Trying target rest p) (full : PinnedPool → Pc)
    (hfull : ∀ pool, Lowers w t th (w.goto t th (full pool))) :
    Lowers w t th (w.tryAlloc inner t th ps target rest p full) := by
  unfold World.tryAlloc
  split
  · exact lowers_missed htrying _ _
  · next pool _ => exact lowers_takeBuf htrying _ (hfull pool) _

/-- A round that evicted something leaves a shorter queue. -/
theorem queued_evictRound {st : State} {numa : UInt16} {protect : Key}
    {r : Bool × List PinnedBuf × State} (hround : st.evictRound (.cpu numa) protect = .ok r)
    (hevicted : r.1 = true) : r.2.2.queued numa < st.queued numa := by
  obtain ⟨popped, rest, hdone⟩ := evictRound_done hround
  rw [hevicted] at hdone
  have hshort := hdone.shorter
  unfold State.queued
  rw [hdone.fifo_eq, Function.update_self, hdone.queue]
  exact hshort

theorem lowers_evict {target : UInt16 × Bool} {rest : List (UInt16 × Bool)} {p : Placing}
    (hpc : th.pc = .evict target rest p) : Lowers w t th (w.evict t th target rest p) := by
  refine lowers_locked fun r hround ↦ lowers_goto (rank_lt_of_rounds ?_ ?_ ?_)
  · rw [hpc]
    rfl
  · rw [hpc]
    rfl
  · rw [hpc]
    change (if r.1 then 2 * r.2.2.queued target.1 + 2 else 0) < 2 * w.state.queued target.1 + 1
    split_ifs with hevicted
    · have hshort := queued_evictRound hround hevicted
      omega
    · omega

/-- Every step of a `put` lowers what it has to do, unless it ends it. -/
theorem advance_lowers (outcome : CopyOutcome) :
    Lowers w t th (w.advance inner mem t th outcome) := by
  unfold World.advance
  cases hps : th.op.slots[th.i]? with
  | none => exact .returned hps (Function.update_self ..)
  | some ps =>
    dsimp only
    unfold World.advanceSlot
    split
    · next hpc =>
      unfold World.beginSlot
      split
      · exact .panicked
      · exact lowers_report hps _
      · split
        · exact lowers_fail (by simp [hpc, Pc.phase]) _
        · exact lowers_goto (rank_lt_of_phase (by simp [hpc, Pc.phase]))
    · next hpc =>
      unfold World.endPlacing
      split_ifs
      · exact lowers_fail (by simp [hpc, Pc.phase]) _
      · exact lowers_goto (rank_lt_of_phase (by simp [hpc, Pc.phase]))
    · next target rest p hpc =>
      refine lowers_tryAlloc (.inl hpc) _ fun pool ↦ ?_
      split_ifs
      · exact lowers_missed (.inl hpc) _ _
      · refine lowers_goto (rank_lt_of_left (by rw [hpc]; rfl) ?_)
        rw [hpc]
        change 2 * rest.length + 1 < 2 * (rest.length + 1)
        omega
    · next hpc => exact lowers_evict hpc
    · next target rest p evicted hpc =>
      refine lowers_tryAlloc (.inr ⟨evicted, hpc⟩) _ fun pool ↦ ?_
      split_ifs with hevicted
      · refine lowers_goto (rank_lt_of_rounds (by rw [hpc]; rfl) (by rw [hpc]; rfl) ?_)
        rw [hpc, hevicted]
        exact Nat.lt_succ_self _
      · exact lowers_missed (.inr ⟨evicted, hpc⟩) _ _
    · next hpc => exact lowers_goto (rank_lt_of_phase (by simp [hpc, Pc.phase]))
    · next filled x todo hpc =>
      cases outcome with
      | done => exact lowers_goto (rank_lt_of_left (by rw [hpc]; rfl) (by rw [hpc]; simp [Pc.left]))
      | failed e moved => exact lowers_fail (by simp [hpc, Pc.phase]) e
    · next hpc =>
      refine lowers_locked fun r _ ↦ ?_
      cases r with
      | error e => exact lowers_fail (by simp [hpc, Pc.phase]) e
      | ok st => exact lowers_report hps _
    · exact lowers_locked fun st _ ↦ lowers_report hps _

end Lowers

/-! ### Runs -/

/-- A `put` in flight is at one of its slots, or past the last. -/
theorem run_index_le {inner : Inner} {bytes : UInt16 → ℕ} {history : List Event} {n : Node}
    (hrun : (backend inner bytes).Run history n) :
    ∀ t th, n.world.threads t = some th → th.i ≤ th.op.slots.length := by
  refine run_invariant_of_step
    (I := fun n ↦ ∀ t th, n.world.threads t = some th → th.i ≤ th.op.slots.length)
    (fun _ _ hth ↦ by cases hth) ?_ hrun
  intro n e n' live _ _ _ ih hstep t th' hth'
  rcases exec_thread_cases hstep.exec hth' with hsame | ⟨th, hold, hgoes⟩ | ⟨_, _, hzero, _⟩
  · exact ih t th' hsame
  · rw [hgoes.op_eq]
    have hle := ih t th hold
    rcases hgoes.index with heq | ⟨heq, hlt⟩ <;> omega
  · rw [hzero]
    exact Nat.zero_le _

/-- The `put` takes the steps from one state to another alone, its copies end as given, and the last
step returns its results. -/
structure ReturnsAlone (inner : Inner) (bytes : UInt16 → ℕ) (t : ℕ) (outcomes : ℕ → CopyOutcome)
    (n : Node) (events : List Event) (n' : Node) (rp : RpPut) : Prop where
  steps : (backend inner bytes).Steps n events n'
  actions : events.map Event.action =
    (List.range events.length).map fun j ↦ .advance t (outcomes j)
  reply : events.getLast?.map Event.reply = some (.put (.ok rp))
  threads : n'.world.threads = Function.update n.world.threads t none
  readers : n'.world.readers = n.world.readers

section Runs

variable {inner : Inner} {bytes : UInt16 → ℕ} {n n' : Node} {history : List Event} {t : ℕ}
  {th : PutThread}

/-- The last step. -/
theorem ReturnsAlone.last {outcomes : ℕ → CopyOutcome} {rp : RpPut}
    (hstep : (backend inner bytes).step n ⟨.advance t (outcomes 0), .put (.ok rp)⟩ n')
    (hthreads : n'.world.threads = Function.update n.world.threads t none)
    (hreaders : n'.world.readers = n.world.readers) :
    ReturnsAlone inner bytes t outcomes n [⟨.advance t (outcomes 0), .put (.ok rp)⟩] n' rp :=
  ⟨.snoc .nil hstep, rfl, rfl, hthreads, hreaders⟩

/-- One more step before the others. -/
theorem ReturnsAlone.cons {outcomes : ℕ → CopyOutcome} {rp : RpPut} {reply : Reply}
    {events : List Event} {m : Node}
    (hstep : (backend inner bytes).step n ⟨.advance t (outcomes 0), reply⟩ m)
    (hothers : ∀ t', t' ≠ t → m.world.threads t' = n.world.threads t')
    (hreaders : m.world.readers = n.world.readers)
    (h : ReturnsAlone inner bytes t (fun j ↦ outcomes (j + 1)) m events n' rp) :
    ReturnsAlone inner bytes t outcomes n (⟨.advance t (outcomes 0), reply⟩ :: events) n' rp where
  steps := System.Steps.append (.snoc .nil hstep) h.steps
  actions := by
    rw [List.map_cons, h.actions, List.length_cons, List.range_succ_eq_map, List.map_cons,
      List.map_map]
    rfl
  reply := by
    have hlast := h.reply
    cases events with
    | nil => cases hlast
    | cons e rest => rwa [List.getLast?_cons_cons]
  threads := by
    rw [h.threads]
    funext t'
    by_cases heq : t' = t
    · rw [heq, Function.update_self, Function.update_self]
    · rw [Function.update_of_ne heq, Function.update_of_ne heq, hothers t' heq]
  readers := h.readers.trans hreaders

/-- A step of a `put` in flight is one of the backend. -/
theorem exists_step_of_advance (inner : Inner) (bytes : UInt16 → ℕ)
    (hth : n.world.threads t = some th) (outcome : CopyOutcome) :
    ∃ m, m.world = (n.world.advance inner n.mem t th outcome).1 ∧ (backend inner bytes).step n
      ⟨.advance t outcome, (n.world.advance inner n.mem t th outcome).2⟩ m := by
  have hexec : n.world.exec inner n.mem (.advance t outcome) =
      some (keepMem n.mem (n.world.advance inner n.mem t th outcome)) := by
    rw [World.exec, hth]
    rfl
  exact ⟨_, rfl, congrArg (Option.map _) hexec⟩

/-- The other threads are where they were. -/
theorem Continues.threads_of_ne {w w' : World} (h : Continues w t th w') {t' : ℕ} (hne : t' ≠ t) :
    w'.threads t' = w.threads t' := by
  cases h with
  | ended hw | reported _ _ hw | next _ _ hw => rw [hw, Function.update_of_ne hne]

/-- A `put` that is left alone in an unbroken state returns. The induction is on its rank. -/
theorem exists_returnsAlone (t : ℕ) (rank : Rank) : ∀ {history : List Event} {n : Node}
    {th : PutThread} (outcomes : ℕ → CopyOutcome), (backend inner bytes).Run history n →
      Unbroken history n.world → n.world.threads t = some th → th.rank n.world.state = rank →
      ∃ events n' rp, ReturnsAlone inner bytes t outcomes n events n' rp ∧
        rp.slots.length = th.op.slots.length ∧ Unbroken (history ++ events) n'.world := by
  induction rank using WellFoundedLT.induction with
  | _ rank ih =>
    intro history n th outcomes hrun hunbroken hth hrank
    obtain ⟨m, hworld, hstep⟩ := exists_step_of_advance inner bytes hth (outcomes 0)
    have hnext := hunbroken.step hrun hstep trivial
      (fun first _ ↦ by cases first.action <;> trivial)
    have hcontinues : Continues n.world t th
        (n.world.advance inner n.mem t th (outcomes 0)).1 := advance_continues (outcomes 0)
    have hreaders : m.world.readers = n.world.readers := by
      rw [hworld]
      exact advance_readers (outcomes 0)
    have hlowers : Lowers n.world t th (n.world.advance inner n.mem t th (outcomes 0)) :=
      advance_lowers (outcomes 0)
    generalize n.world.advance inner n.mem t th (outcomes 0) = r
      at hworld hstep hnext hcontinues hlowers
    obtain ⟨w', reply⟩ := r
    change m.world = w' at hworld
    subst hworld
    have hothers : ∀ t', t' ≠ t → m.world.threads t' = n.world.threads t' :=
      fun t' hne ↦ hcontinues.threads_of_ne hne
    cases hlowers with
    | returned hend hnone =>
      obtain ⟨live, hsound⟩ := run_sound hrun
      refine ⟨_, m, _, .last hstep ?_ hreaders, ?_, hnext⟩
      · funext t'
        by_cases heq : t' = t
        · rw [heq, Function.update_self, hnone]
        · rw [Function.update_of_ne heq, hothers t' heq]
      · have hle := run_index_le hrun t th hth
        rw [(hsound.paced t th hth).reported]
        exact le_antisymm hle (List.getElem?_eq_none_iff.mp hend)
    | panicked =>
      exact absurd rfl (hnext.returned _ (List.mem_append_right _ (List.mem_singleton_self _)) _)
    | running hth' hop _ hlt =>
      rw [hrank] at hlt
      obtain ⟨events, n', rp, halone, hlength, hlast⟩ := ih _ hlt (fun j ↦ outcomes (j + 1))
        (hrun.snoc hstep) hnext hth' rfl
      refine ⟨_, n', rp, halone.cons hstep hothers hreaders, hlength.trans (by rw [hop]), ?_⟩
      rwa [List.append_cons]

/-- The action goes on with an operation in flight. -/
def Action.goesOn : Action → Bool
  | .advance _ _ | .finishGet _ _ => true
  | _ => false

/-- The last event of a `put` that has returned. -/
def Event.IsReturn (t : ℕ) (rp : RpPut) (e : Event) : Prop :=
  (∃ outcome, e.action = .advance t outcome) ∧ e.reply = .put (.ok rp)

theorem ReturnsAlone.goesOn {outcomes : ℕ → CopyOutcome} {events : List Event} {rp : RpPut}
    (h : ReturnsAlone inner bytes t outcomes n events n' rp) :
    ∀ e ∈ events, ∃ outcome, e.action = .advance t outcome := by
  intro e he
  have hmem : e.action ∈ events.map Event.action := List.mem_map_of_mem he
  rw [h.actions] at hmem
  obtain ⟨j, _, hj⟩ := List.mem_map.mp hmem
  exact ⟨outcomes j, hj.symm⟩

theorem ReturnsAlone.exists_return {outcomes : ℕ → CopyOutcome} {events : List Event} {rp : RpPut}
    (h : ReturnsAlone inner bytes t outcomes n events n' rp) : ∃ e ∈ events, e.IsReturn t rp := by
  obtain ⟨e, hlast, hreply⟩ := Option.map_eq_some_iff.mp h.reply
  have he := List.mem_of_getLast? hlast
  exact ⟨e, he, h.goesOn e he, hreply⟩

/-- The first `count` of the `put`s that have begun are finished, each alone. -/
structure Finishes (inner : Inner) (bytes : UInt16 → ℕ) (count : ℕ) (n : Node)
    (events : List Event) (n' : Node) : Prop where
  steps : (backend inner bytes).Steps n events n'
  goesOn : ∀ e ∈ events, e.action.goesOn = true
  threads : ∀ t, n'.world.threads t = if t < count then none else n.world.threads t
  readers : n'.world.readers = n.world.readers
  returns : ∀ t < count, ∀ th, n.world.threads t = some th →
    ∃ e ∈ events, ∃ rp, e.IsReturn t rp ∧ rp.slots.length = th.op.slots.length

theorem exists_finishes (count : ℕ) (hrun : (backend inner bytes).Run history n)
    (hunbroken : Unbroken history n.world) :
    ∃ events n', Finishes inner bytes count n events n' ∧
      Unbroken (history ++ events) n'.world := by
  induction count with
  | zero =>
    refine ⟨[], n, ⟨.nil, fun _ he ↦ absurd he List.not_mem_nil, fun _ ↦ rfl, rfl,
      fun t ht ↦ absurd ht (Nat.not_lt_zero t)⟩, ?_⟩
    rwa [List.append_nil]
  | succ count ih =>
    obtain ⟨events, m, hfinishes, hmiddle⟩ := ih
    have hlast : m.world.threads count = n.world.threads count := by
      rw [hfinishes.threads, if_neg (Nat.lt_irrefl count)]
    cases hth : n.world.threads count with
    | none =>
      refine ⟨events, m, ⟨hfinishes.steps, hfinishes.goesOn, fun t ↦ ?_, hfinishes.readers,
        fun t ht th hthread ↦ ?_⟩, hmiddle⟩
      · rw [hfinishes.threads]
        rcases Nat.lt_trichotomy t count with hlt | rfl | hgt
        · rw [if_pos hlt, if_pos (Nat.lt_succ_of_lt hlt)]
        · rw [if_neg (Nat.lt_irrefl t), if_pos (Nat.lt_succ_self t), hth]
        · rw [if_neg (Nat.not_lt_of_gt hgt), if_neg (by omega)]
      · refine hfinishes.returns t (lt_of_le_of_ne (Nat.le_of_lt_succ ht) fun heq ↦ ?_) th hthread
        rw [heq, hth] at hthread
        cases hthread
    | some th =>
      rw [hth] at hlast
      have hrun' : (backend inner bytes).Run (history ++ events) m := hrun.append hfinishes.steps
      obtain ⟨more, n', rp, halone, hlength, hend⟩ :=
        exists_returnsAlone count _ (fun _ ↦ .done) hrun' hmiddle hlast rfl
      rw [List.append_assoc] at hend
      refine ⟨events ++ more, n', ⟨hfinishes.steps.append halone.steps, fun e he ↦ ?_,
        fun t ↦ ?_, halone.readers.trans hfinishes.readers, fun t ht other hother ↦ ?_⟩, hend⟩
      · rcases List.mem_append.mp he with hold | hnew
        · exact hfinishes.goesOn e hold
        · obtain ⟨outcome, haction⟩ := halone.goesOn e hnew
          rw [haction]
          rfl
      · rw [halone.threads]
        by_cases heq : t = count
        · rw [heq, Function.update_self, if_pos (Nat.lt_succ_self count)]
        · rw [Function.update_of_ne heq, hfinishes.threads]
          exact if_congr (by omega) rfl rfl
      · rcases Nat.lt_succ_iff_lt_or_eq.mp ht with hlt | rfl
        · obtain ⟨e, he, hreturn⟩ := hfinishes.returns t hlt other hother
          exact ⟨e, List.mem_append_left _ he, hreturn⟩
        · rw [hth] at hother
          cases hother
          obtain ⟨e, he, hreturn⟩ := halone.exists_return
          exact ⟨e, List.mem_append_right _ he, rp, hreturn, hlength⟩

/-- The `get`s in flight can be finished, first come first served. -/
theorem exists_read (readers : List Reader) : ∀ {history : List Event} {n : Node},
    (backend inner bytes).Run history n → Unbroken history n.world → n.world.readers = readers →
      ∃ events n', (backend inner bytes).Steps n events n' ∧
        (∀ e ∈ events, e.action.goesOn = true) ∧ n'.world.threads = n.world.threads ∧
        n'.world.readers = [] ∧ Unbroken (history ++ events) n'.world := by
  induction readers with
  | nil =>
    intro history n hrun hunbroken hreaders
    refine ⟨[], n, .nil, fun _ he ↦ absurd he List.not_mem_nil, rfl, hreaders, ?_⟩
    rwa [List.append_nil]
  | cons rd rest ih =>
    intro history n hrun hunbroken hreaders
    let r := n.world.finishGet inner n.mem 0 rd .done
    let m : Node := ⟨r.1, r.2.1, n.ghost.record n.world r.1 n.mem (.finishGet 0 .done)⟩
    have hexec : n.world.exec inner n.mem (.finishGet 0 .done) = some r := by
      rw [World.exec, hreaders]
      rfl
    have hstep : (backend inner bytes).step n ⟨.finishGet 0 .done, r.2.2⟩ m :=
      congrArg (Option.map _) hexec
    have hrest : m.world.readers = rest := congrArg (List.eraseIdx · 0) hreaders
    obtain ⟨events, n', hsteps, hgoes, hthreads, hempty, hend⟩ := ih (hrun.snoc hstep)
      (hunbroken.step hrun hstep trivial fun first _ ↦ by cases first.action <;> trivial) hrest
    refine ⟨_ :: events, n', System.Steps.append (.snoc .nil hstep) hsteps, fun e he ↦ ?_, hthreads,
      hempty, by rwa [List.append_cons]⟩
    rcases List.mem_cons.mp he with rfl | hold
    · rfl
    · exact hgoes e hold

namespace Scenario

/-- A `put` that fills the pool, a `get` of its first slot that has not copied yet, and a second
`put` that is about to evict. -/
def crowded : List Action :=
  let full : OpPut := ⟨.cache, [slotOn (.strict (.cpu 0)) 1, slotOn (.strict (.cpu 0)) 1]⟩
  .beginPut key full :: (advance 0 13 ++ .beginGet key ⟨0, 0, [⟨buffer, 0, 1⟩]⟩ ::
    .beginPut [2] ⟨.cache, [slotOn (.strict (.cpu 0)) 1]⟩ :: advance 1 2)

/-- What holds after it. -/
structure Crowded (history : List Event) (n : Node) (th : PutThread) : Prop where
  run : (backend Scenario.inner Scenario.bytes).Run history n
  roundable : ∀ e ∈ history, e.action.Roundable
  noFewer : history.Pairwise fun first second ↦ first.action.NoFewer second.action
  thread : n.world.threads 1 = some th
  evicting : th.pc.evicting = true
  slots : th.op.slots.length = 1
  readers : n.world.readers.length = 1

theorem exists_crowded : ∃ history n th, Crowded history n th := by
  have hreplay : (replay (Node.next Scenario.inner) crowded
      (backend Scenario.inner Scenario.bytes).start).any (fun r ↦
        (r.2.world.threads 1).any (fun th ↦ th.pc.evicting && decide (th.op.slots.length = 1)) &&
          decide (r.2.world.readers.length = 1)) = true := by
    decide +kernel
  obtain ⟨⟨history, n⟩, hsome, hcheck⟩ := (Option.any_eq_true _ _).mp hreplay
  obtain ⟨hthread, hreaders⟩ := (Bool.and_eq_true _ _).mp hcheck
  obtain ⟨th, hth, hpc⟩ := (Option.any_eq_true _ _).mp hthread
  obtain ⟨hevicting, hslots⟩ := (Bool.and_eq_true _ _).mp hpc
  have hactions : history.map Event.action = crowded :=
    inputs_of_replay (fun _ _ _ _ h ↦ action_of_next h) crowded hsome
  have hround : ∀ action ∈ crowded, action.Roundable := by
    simp [crowded, advance, slotOn, Action.Roundable, ALIGN]
  have hmore : crowded.Pairwise Action.NoFewer := by
    simp [crowded, advance, key, Action.NoFewer, List.replicate]
  refine ⟨history, n, th, steps_of_actions _ hsome, fun e he ↦ ?_, ?_, hth, hevicting,
    of_decide_eq_true hslots, of_decide_eq_true hreaders⟩
  · exact hround _ (hactions ▸ List.mem_map_of_mem he)
  · exact List.pairwise_map.mp (hactions ▸ hmore)

end Scenario

/-- In every reachable state of the use that never panics, a `put` in flight that takes the next
steps alone returns, however its copies end, with one result for each of its slots. -/
theorem put_returns_alone (hrun : (backend inner bytes).Run history n)
    (hround : ∀ e ∈ history, e.action.Roundable)
    (hmore : history.Pairwise fun first second ↦ first.action.NoFewer second.action)
    (hth : n.world.threads t = some th) (outcomes : ℕ → CopyOutcome) :
    ∃ events n' rp, ReturnsAlone inner bytes t outcomes n events n' rp ∧
      rp.slots.length = th.op.slots.length := by
  obtain ⟨events, n', rp, halone, hlength, _⟩ :=
    exists_returnsAlone t _ outcomes hrun (run_unbroken hrun hround hmore) hth rfl
  exact ⟨events, n', rp, halone, hlength⟩

/-- The `put` that is about to evict returns, even if every copy fails. -/
theorem put_returns_alone_evicting : ∃ history n th, Scenario.Crowded history n th ∧
    ∃ events n' rp, ReturnsAlone Scenario.inner Scenario.bytes 1
      (fun _ ↦ .failed (Error.new .unexpected "copy failed") []) n events n' rp ∧
      rp.slots.length = 1 := by
  obtain ⟨history, n, th, h⟩ := Scenario.exists_crowded
  obtain ⟨events, n', rp, halone, hlength⟩ := put_returns_alone h.run h.roundable h.noFewer h.thread
    fun _ ↦ .failed (Error.new .unexpected "copy failed") []
  exact ⟨history, n, th, h, events, n', rp, halone, hlength.trans h.slots⟩

/-- In every reachable state of the use that never panics, the operations in flight can be finished
by themselves: every `put` returns one result per slot, every `get` returns, and then no slot is
claimed. -/
theorem run_drains (hrun : (backend inner bytes).Run history n)
    (hround : ∀ e ∈ history, e.action.Roundable)
    (hmore : history.Pairwise fun first second ↦ first.action.NoFewer second.action) :
    ∃ events n', (backend inner bytes).Steps n events n' ∧
      (∀ e ∈ events, e.action.goesOn = true) ∧
      (∀ t th, n.world.threads t = some th → ∃ e ∈ events, ∃ rp, e.IsReturn t rp ∧
        rp.slots.length = th.op.slots.length) ∧
      (∀ t, n'.world.threads t = none) ∧ n'.world.readers = [] ∧
      ∀ key j slot, slotAt n'.world.state.objects key j = some slot → slot.writing = false := by
  obtain ⟨live, hsound⟩ := run_sound hrun
  obtain ⟨events, m, hfinishes, hmiddle⟩ :=
    exists_finishes n.world.nextPut hrun (run_unbroken hrun hround hmore)
  have hrun' : (backend inner bytes).Run (history ++ events) m := hrun.append hfinishes.steps
  obtain ⟨more, n', hsteps, hgoes, hthreads, hreaders, hend⟩ := exists_read _ hrun' hmiddle rfl
  have hidle : ∀ t, n'.world.threads t = none := by
    intro t
    rw [hthreads, hfinishes.threads]
    split_ifs with ht
    · rfl
    · exact Option.eq_none_iff_forall_ne_some.mpr fun th hth ↦ ht (hsound.below t th hth)
  refine ⟨events ++ more, n', hfinishes.steps.append hsteps, fun e he ↦ ?_, fun t th hth ↦ ?_,
    hidle, hreaders, fun key j slot hslot ↦ ?_⟩
  · exact (List.mem_append.mp he).elim (hfinishes.goesOn e) (hgoes e)
  · obtain ⟨e, he, hreturn⟩ := hfinishes.returns t (hsound.below t th hth) th hth
    exact ⟨e, List.mem_append_left _ he, hreturn⟩
  · -- a flag would belong to a `put` in flight
    have hall : ((backend inner bytes).restrict fun _ e ↦ e.returns).Run _ n' :=
      (hrun'.append hsteps).restrict_of_forall fun e he _ ↦ hend.returned e he
    refine Bool.eq_false_of_not_eq_true fun hwriting ↦ ?_
    obtain ⟨t, th, hth, _⟩ := (run_flagged hall).2 key j slot hslot hwriting
    rw [hidle t] at hth
    cases hth

/-- The pool is full, a `get` holds one buffer and a `put` is about to evict. -/
theorem run_drains_crowded : ∃ history n th, Scenario.Crowded history n th ∧
    ∃ events n', (backend Scenario.inner Scenario.bytes).Steps n events n' ∧
      (∃ e ∈ events, ∃ rp, e.IsReturn 1 rp ∧ rp.slots.length = 1) ∧
      (∀ t, n'.world.threads t = none) ∧ n'.world.readers = [] := by
  obtain ⟨history, n, th, h⟩ := Scenario.exists_crowded
  obtain ⟨events, n', hsteps, _, hreturns, hidle, hreaders, _⟩ :=
    run_drains h.run h.roundable h.noFewer
  obtain ⟨e, he, rp, hreturn, hlength⟩ := hreturns 1 th h.thread
  exact ⟨history, n, th, h, events, n', hsteps, ⟨e, he, rp, hreturn, hlength.trans h.slots⟩, hidle,
    hreaders⟩

end Runs

end Pegastore.Local
