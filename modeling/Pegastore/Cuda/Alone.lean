import Pegastore.Cuda.Backend

/-!
# A `put` that runs alone

`World.put` takes one `put` to its reply with no other operation in between and no copy failing. It
is a sequence of steps of the system (`steps_of_put`), so what is said about it is said about the
backend.

`Leads` composes the steps of one `put`: a slot that was written before is skipped, a slot whose
targets cannot be resolved is given up, and a slot whose buffers are there lands. `Takes` says that
the pools have a buffer for each of a list of targets.
-/

set_option autoImplicit false
set_option relaxedAutoImplicit false

namespace Pegastore.Local

open Outcome ByteMemory Transition

/-- Go on unless there is a reply. -/
def resume (next : World → World × Reply) : World × Reply → World × Reply
  | (w, .running) => next w
  | r => r

/-- A `put` in flight goes on until it has a reply, at most `fuel` steps. -/
def World.drive (inner : Inner) (mem : ByteSpace) (t : ℕ) : ℕ → World → World × Reply
  | 0, w => (w, .running)
  | fuel + 1, w =>
    match w.threads t with
    | none => (w, .running)
    | some th => resume (World.drive inner mem t fuel) (w.advance inner mem t th .done)

/-- A whole `put`, when no other operation runs and every copy succeeds. -/
def World.put (inner : Inner) (mem : ByteSpace) (fuel : ℕ) (w : World) (key : Key) (op : OpPut) :
    World × Reply :=
  resume (World.drive inner mem w.nextPut fuel) (w.beginPut key op)

section Drive

variable {inner : Inner} {bytes : UInt16 → ℕ} {mem : ByteSpace} {t : ℕ} {w w' w'' : World}
  {th : PutThread}

theorem drive_succ (hth : w.threads t = some th) (fuel : ℕ) :
    World.drive inner mem t (fuel + 1) w =
      resume (World.drive inner mem t fuel) (w.advance inner mem t th .done) := by
  rw [World.drive, hth]

/-- Either the operation has its reply or it goes on. -/
theorem resume_cases (next : World → World × Reply) (r : World × Reply) :
    resume next r = r ∨ (r = (r.1, .running) ∧ resume next r = next r.1) := by
  obtain ⟨w, reply⟩ := r
  cases reply with
  | running => exact .inr ⟨rfl, rfl⟩
  | _ => exact .inl rfl

/-- One step of a `put` in flight is a step of the system. -/
theorem exists_step_advance (inner : Inner) (bytes : UInt16 → ℕ) {n : Node}
    (hth : n.world.threads t = some th) : ∃ n',
    n'.world = (n.world.advance inner n.mem t th .done).1 ∧ n'.mem = n.mem ∧
      (backend inner bytes).step n
        ⟨.advance t .done, (n.world.advance inner n.mem t th .done).2⟩ n' := by
  have hexec : n.world.exec inner n.mem (.advance t .done) =
      some (keepMem n.mem (n.world.advance inner n.mem t th .done)) := by
    rw [World.exec, hth]
    rfl
  exact ⟨⟨_, n.mem, n.ghost.record n.world _ n.mem (.advance t .done)⟩, rfl, rfl,
    congrArg (Option.map _) hexec⟩

/-- The steps of the system a `put` in flight takes by itself. -/
theorem steps_of_drive (inner : Inner) (bytes : UInt16 → ℕ) (t fuel : ℕ) : ∀ n : Node, ∃ history n',
    (backend inner bytes).Steps n history n' ∧ n'.mem = n.mem ∧
      n'.world = (World.drive inner n.mem t fuel n.world).1 ∧
      (history.getLast?.map Event.reply).getD .running =
        (World.drive inner n.mem t fuel n.world).2 ∧
      ∀ e ∈ history, e.action = .advance t .done := by
  induction fuel with
  | zero =>
    intro n
    exact ⟨[], n, .nil, rfl, rfl, rfl, fun _ he ↦ absurd he List.not_mem_nil⟩
  | succ fuel ih =>
    intro n
    cases hth : n.world.threads t with
    | none =>
      have hdrive : World.drive inner n.mem t (fuel + 1) n.world = (n.world, .running) := by
        rw [World.drive, hth]
      rw [hdrive]
      exact ⟨[], n, .nil, rfl, rfl, rfl, fun _ he ↦ absurd he List.not_mem_nil⟩
    | some th =>
      obtain ⟨n₁, hworld₁, hmem₁, hstep⟩ := exists_step_advance inner bytes hth
      have hone := System.Steps.snoc System.Steps.nil hstep
      rw [drive_succ hth]
      rcases resume_cases (World.drive inner n.mem t fuel)
        (n.world.advance inner n.mem t th .done) with hreply | ⟨hrunning, hnext⟩
      · rw [hreply]
        exact ⟨_, n₁, hone, hmem₁, hworld₁, rfl, fun e he ↦ by rw [List.mem_singleton.mp he]⟩
      · obtain ⟨history, n', hsteps, hmem, hworld, hlast, hactions⟩ := ih n₁
        rw [hmem₁, hworld₁] at hworld hlast
        rw [hnext]
        refine ⟨_, n', hone.append hsteps, hmem.trans hmem₁, hworld, ?_, fun e he ↦ ?_⟩
        · rw [← hlast, List.nil_append, List.getLast?_append]
          cases history.getLast? with
          | none => exact congrArg Prod.snd hrunning
          | some e => rfl
        · rcases List.mem_append.mp he with he | he
          · rw [List.mem_singleton.mp he]
          · exact hactions e he

/-- A `put` alone is a sequence of steps of the system, and its reply is that of the last one. -/
theorem steps_of_put (inner : Inner) (bytes : UInt16 → ℕ) (fuel : ℕ) (n : Node) (key : Key)
    (op : OpPut) : ∃ first history n',
    (backend inner bytes).Steps n (first :: history) n' ∧ first.action = .beginPut key op ∧
      (∀ e ∈ history, e.action = .advance n.world.nextPut .done) ∧ n'.mem = n.mem ∧
      n'.world = (n.world.put inner n.mem fuel key op).1 ∧
      (first :: history).getLast?.map Event.reply =
        some (n.world.put inner n.mem fuel key op).2 := by
  let r := n.world.beginPut key op
  let n₁ : Node := ⟨r.1, n.mem, n.ghost.record n.world r.1 n.mem (.beginPut key op)⟩
  have hstep : (backend inner bytes).step n ⟨.beginPut key op, r.2⟩ n₁ := rfl
  have hone := System.Steps.snoc System.Steps.nil hstep
  unfold World.put
  rcases resume_cases (World.drive inner n.mem n.world.nextPut fuel) r with
    hreply | ⟨hrunning, hnext⟩
  · rw [hreply]
    exact ⟨_, [], n₁, hone, rfl, fun _ he ↦ absurd he List.not_mem_nil, rfl, rfl, rfl⟩
  · obtain ⟨history, n', hsteps, hmem, hworld, hlast, hactions⟩ :=
      steps_of_drive inner bytes n.world.nextPut fuel n₁
    rw [hnext]
    refine ⟨⟨.beginPut key op, r.2⟩, history, n', hone.append hsteps, rfl, hactions, hmem, hworld,
      ?_⟩
    rw [List.getLast?_cons, ← hlast]
    cases history.getLast? with
    | none => exact congrArg some (congrArg Prod.snd hrunning)
    | some e => rfl

/-- The `put` gets from one state to the other by itself. -/
def Leads (inner : Inner) (mem : ByteSpace) (t : ℕ) (w w' : World) : Prop :=
  ∃ count, ∀ fuel, World.drive inner mem t (count + fuel) w = World.drive inner mem t fuel w'

theorem Leads.refl (w : World) : Leads inner mem t w w :=
  ⟨0, fun fuel ↦ by rw [Nat.zero_add]⟩

theorem Leads.trans (h : Leads inner mem t w w') (h' : Leads inner mem t w' w'') :
    Leads inner mem t w w'' := by
  obtain ⟨count, hcount⟩ := h
  obtain ⟨count', hcount'⟩ := h'
  refine ⟨count + count', fun fuel ↦ ?_⟩
  rw [Nat.add_assoc, hcount, hcount']

/-- One step. -/
theorem leads_step (th : PutThread) (hth : w.threads t = some th)
    (h : w.advance inner mem t th .done = (w', .running)) : Leads inner mem t w w' := by
  refine ⟨1, fun fuel ↦ ?_⟩
  rw [Nat.add_comm, drive_succ hth, h]
  rfl

/-- A `put` that gets to its last step has its reply. -/
theorem Leads.returns (h : Leads inner mem t w w') (hth : w'.threads t = some th)
    (hend : th.op.slots[th.i]? = none) :
    ∃ fuel, World.drive inner mem t fuel w = (w'.endThread t, .put (.ok ⟨th.results⟩)) := by
  obtain ⟨count, hcount⟩ := h
  refine ⟨count + 1, ?_⟩
  rw [hcount, drive_succ hth, World.advance, hend]
  rfl

end Drive

/-! ### One slot -/

/-- The pools have a buffer of `len` bytes for each target, one after another. -/
inductive Takes (checks : Bool) (len : ℕ) :
    List (UInt16 × Bool) → Pools → ℕ → List Placed → Pools → ℕ → Prop
  | nil {pools : Pools} {next : ℕ} : Takes checks len [] pools next [] pools next
  | cons {target : UInt16 × Bool} {rest : List (UInt16 × Bool)} {pools pools' : Pools}
    {next next' : ℕ} {pool after : PinnedPool} {buf : PinnedBuf} {placed : List Placed}
    (hpool : pools target.1 = some pool)
    (halloc : pool.alloc checks next len = .ok (some (buf, after)))
    (hrest : Takes checks len rest (Function.update pools target.1 (some after)) (next + 1) placed
      pools' next') :
    Takes checks len (target :: rest) pools next (⟨target.1, target.2, buf⟩ :: placed) pools' next'

/-- The targets of a slot that are needed: all of them, or the first one. -/
def needed (each : Bool) (targets : List (UInt16 × Bool)) : List (UInt16 × Bool) :=
  if each then targets else targets.take 1

/-- The bytes arrive in every buffer. -/
def fillAll (pinned : UInt16 → ByteSpace) (bytes : List UInt8) : List Placed → UInt16 → ByteSpace
  | [] => pinned
  | x :: placed =>
    fillAll (Function.update pinned x.buf.numa
      (write (pinned x.buf.numa) x.buf.off (bytes.take x.buf.len))) bytes placed

section Slots

variable {inner : Inner} {mem : ByteSpace} {t : ℕ} {w : World} {th : PutThread} {ps : PutSlot}

theorem setThread_setThread (w : World) (t : ℕ) (th th' : PutThread) :
    (w.setThread t th).setThread t th' = w.setThread t th' := by
  unfold World.setThread
  rw [Function.update_idem]

theorem goto_setThread (w : World) (t : ℕ) (th : PutThread) (pc : Pc) :
    (w.setThread t th).goto t th pc = (w.setThread t { th with pc := pc }, .running) := by
  unfold World.goto
  rw [setThread_setThread]

theorem report_setThread (w : World) (t : ℕ) (th : PutThread) (r : Result Unit) :
    (w.setThread t th).report t th r = (w.setThread t (th.reported r), .running) := by
  unfold World.report
  rw [setThread_setThread]

/-- A step inside a slot. -/
theorem leads_slot (th : PutThread) {w' : World} (hslot : th.op.slots[th.i]? = some ps)
    (h : (w.setThread t th).advanceSlot inner mem t th ps .done = (w', .running)) :
    Leads inner mem t (w.setThread t th) w' := by
  refine leads_step th (Function.update_self ..) ?_
  rw [World.advance, hslot]
  exact h

/-- A slot that was written before is reported and skipped. -/
theorem leads_skip (hslot : th.op.slots[th.i]? = some ps) (hpc : th.pc = .slot)
    (hwritable : th.writable[th.i]? = some false) :
    Leads inner mem t (w.setThread t th)
      (w.setThread t (th.reported (.error (slotWritten th.i)))) := by
  refine leads_slot th hslot ?_
  rw [World.advanceSlot, hpc]
  dsimp only
  rw [World.beginSlot, hwritable]
  exact report_setThread w t th _

/-- A slot with targets goes on to place its buffers. -/
theorem leads_begin {targets : List (UInt16 × Bool)} (hslot : th.op.slots[th.i]? = some ps)
    (hpc : th.pc = .slot) (hwritable : th.writable[th.i]? = some true)
    (htargets : inner.targets ps.spec.placement = .ok targets) :
    Leads inner mem t (w.setThread t th)
      (w.setThread t { th with pc := .place targets ⟨[], none⟩ }) := by
  refine leads_slot th hslot ?_
  rw [World.advanceSlot, hpc]
  dsimp only
  rw [World.beginSlot, hwritable]
  dsimp only
  rw [htargets]
  exact goto_setThread w t th _

/-- One target has its buffer. -/
theorem leads_take {target : UInt16 × Bool} {rest : List (UInt16 × Bool)} {p : Placing}
    {pool after : PinnedPool} {buf : PinnedBuf} (hslot : th.op.slots[th.i]? = some ps)
    (hpool : w.pools target.1 = some pool)
    (halloc : pool.alloc inner.checks w.nextBuf ps.spec.len = .ok (some (buf, after))) :
    Leads inner mem t (w.setThread t { th with pc := .place (target :: rest) p })
      ({ w with
        pools := Function.update w.pools target.1 (some after)
        nextBuf := w.nextBuf + 1 }.setThread t
          { th with
            pc := p.took (isEach ps.spec.placement) rest ⟨target.1, target.2, buf⟩ }) := by
  refine leads_slot { th with pc := .place (target :: rest) p } hslot ?_
  change World.tryAlloc inner _ t _ ps target rest p _ = _
  unfold World.tryAlloc
  rw [show (w.setThread t { th with pc := .place (target :: rest) p }).pools target.1 = some pool
    from hpool]
  dsimp only
  rw [show pool.alloc inner.checks (w.setThread t _).nextBuf ps.spec.len =
    .ok (some (buf, after)) from halloc]
  exact goto_setThread { w with
    pools := Function.update w.pools target.1 (some after)
    nextBuf := w.nextBuf + 1 } t _ _

/-- Every target has its buffer. -/
theorem leads_takes (hslot : th.op.slots[th.i]? = some ps)
    (heach : isEach ps.spec.placement = true) {targets : List (UInt16 × Bool)}
    {pools pools' : Pools} {next next' : ℕ} {placed : List Placed}
    (htakes : Takes inner.checks ps.spec.len targets pools next placed pools' next') :
    ∀ (w : World) (p : Placing), w.pools = pools → w.nextBuf = next →
      Leads inner mem t (w.setThread t { th with pc := .place targets p })
        ({ w with pools := pools', nextBuf := next' }.setThread t
          { th with pc := .place [] { p with placed := p.placed ++ placed } }) := by
  induction htakes with
  | nil =>
    intro w p hpools hnext
    subst hpools hnext
    rw [List.append_nil]
    exact Leads.refl _
  | @cons target rest pools pools' next next' pool after buf placed hpool halloc _ ih =>
    intro w p hpools hnext
    subst hpools hnext
    refine (leads_take hslot hpool halloc).trans ?_
    have hrest := ih { w with
      pools := Function.update w.pools target.1 (some after)
      nextBuf := w.nextBuf + 1 } { p with
        placed := p.placed ++ [⟨target.1, target.2, buf⟩] } rfl rfl
    rw [List.append_assoc] at hrest
    rw [heach]
    exact hrest

/-- The needed targets have their buffers. -/
theorem leads_needed (hslot : th.op.slots[th.i]? = some ps) {targets : List (UInt16 × Bool)}
    {pools' : Pools} {next' : ℕ} {placed : List Placed}
    (htakes : Takes inner.checks ps.spec.len (needed (isEach ps.spec.placement) targets) w.pools
      w.nextBuf placed pools' next') (hplaced : placed ≠ []) :
    Leads inner mem t (w.setThread t { th with pc := .place targets ⟨[], none⟩ })
      ({ w with pools := pools', nextBuf := next' }.setThread t
        { th with pc := .place [] ⟨placed, none⟩ }) := by
  cases heach : isEach ps.spec.placement with
  | true =>
    rw [heach] at htakes
    exact leads_takes hslot heach htakes w ⟨[], none⟩ rfl rfl
  | false =>
    rw [heach] at htakes
    cases targets with
    | nil =>
      cases htakes
      exact absurd rfl hplaced
    | cons target rest =>
      change Takes inner.checks ps.spec.len [target] _ _ _ _ _ at htakes
      cases htakes with
      | cons hpool halloc hrest =>
        cases hrest
        refine (leads_take hslot hpool halloc).trans ?_
        rw [heach]
        exact Leads.refl _

/-- The copies into the buffers that are left. -/
theorem leads_copies (hslot : th.op.slots[th.i]? = some ps) (todo : List Placed) :
    ∀ (w : World) (filled : List Placed),
      Leads inner mem t (w.setThread t { th with pc := .copy filled todo })
        ({ w with pinned := fillAll w.pinned (readAll mem (segsOf ps.src)) todo }.setThread t
          { th with pc := .store (filled ++ todo) }) := by
  induction todo with
  | nil =>
    intro w filled
    rw [List.append_nil]
    exact leads_slot { th with pc := .copy filled [] } hslot
      (goto_setThread w t { th with pc := .copy filled [] } _)
  | cons x todo ih =>
    intro w filled
    have hcopy : Leads inner mem t (w.setThread t { th with pc := .copy filled (x :: todo) })
        ((w.fill x.buf (readAll mem (segsOf ps.src))).setThread t
          { th with pc := .copy (filled ++ [x]) todo }) :=
      leads_slot { th with pc := .copy filled (x :: todo) } hslot
        (goto_setThread (w.fill x.buf (readAll mem (segsOf ps.src))) t
          { th with pc := .copy filled (x :: todo) } _)
    have hrest := ih (w.fill x.buf (readAll mem (segsOf ps.src))) (filled ++ [x])
    rw [List.append_assoc] at hrest
    exact hcopy.trans hrest

/-- The buffers are stored. -/
theorem leads_store {placed : List Placed} {st : State} (hslot : th.op.slots[th.i]? = some ps)
    (hlock : w.poisoned = false) (hstore : w.state.store th.key th.i placed = .ok (.ok st)) :
    Leads inner mem t (w.setThread t { th with pc := .store placed })
      ({ w with state := st }.setThread t (th.reported (.ok ()))) := by
  refine leads_slot { th with pc := .store placed } hslot ?_
  change World.store _ t _ placed = _
  unfold World.store
  rw [show (w.setThread t _).state.store _ _ placed = .ok (.ok st) from hstore, World.locked,
    if_neg (by rw [show (w.setThread t _).poisoned = false from hlock]; exact Bool.false_ne_true)]
  exact report_setThread { w with state := st } t { th with pc := .store placed } _

/-- A slot that failed gives its claim back. -/
theorem leads_unclaim {e : Error} {st : State} (hslot : th.op.slots[th.i]? = some ps)
    (hlock : w.poisoned = false) (hunclaim : w.state.unclaim th.key th.i = .ok st) :
    Leads inner mem t (w.setThread t { th with pc := .failed e })
      ({ w with state := st }.setThread t
        (th.reported (.error (e.withContext "slot" (.num th.i))))) := by
  refine leads_slot { th with pc := .failed e } hslot ?_
  change World.unclaim _ t _ e = _
  unfold World.unclaim
  rw [show (w.setThread t _).state.unclaim _ _ = .ok st from hunclaim, World.locked,
    if_neg (by rw [show (w.setThread t _).poisoned = false from hlock]; exact Bool.false_ne_true)]
  exact report_setThread { w with state := st } t { th with pc := .failed e } _

/-- A slot lands when every target it needs has a buffer. -/
theorem leads_land {targets : List (UInt16 × Bool)} {pools' : Pools} {next' : ℕ}
    {placed : List Placed} {st : State} (hslot : th.op.slots[th.i]? = some ps)
    (hpc : th.pc = .slot) (hwritable : th.writable[th.i]? = some true)
    (htargets : inner.targets ps.spec.placement = .ok targets)
    (htakes : Takes inner.checks ps.spec.len (needed (isEach ps.spec.placement) targets) w.pools
      w.nextBuf placed pools' next') (hplaced : placed ≠ []) (hlock : w.poisoned = false)
    (hstore : w.state.store th.key th.i placed = .ok (.ok st)) :
    Leads inner mem t (w.setThread t th)
      ({ w with
        state := st
        pools := pools'
        nextBuf := next'
        pinned := fillAll w.pinned (readAll mem (segsOf ps.src)) placed }.setThread t
          (th.reported (.ok ()))) := by
  have hcopy : Leads inner mem t
      ({ w with pools := pools', nextBuf := next' }.setThread t
        { th with pc := .place [] ⟨placed, none⟩ })
      ({ w with pools := pools', nextBuf := next' }.setThread t
        { th with pc := .copy [] placed }) := by
    refine leads_slot { th with pc := .place [] ⟨placed, none⟩ } hslot ?_
    change World.endPlacing _ t _ ps ⟨placed, none⟩ = _
    have hsome : placed.isEmpty = false := by
      cases placed with
      | nil => exact absurd rfl hplaced
      | cons x placed => rfl
    unfold World.endPlacing
    rw [hsome, Bool.false_or, Option.isSome_none, Bool.and_false, if_neg Bool.false_ne_true]
    exact goto_setThread { w with pools := pools', nextBuf := next' } t
      { th with pc := .place [] ⟨placed, none⟩ } _
  exact (leads_begin hslot hpc hwritable htargets).trans <|
    (leads_needed hslot htakes hplaced).trans <| hcopy.trans <|
    (leads_copies hslot placed { w with pools := pools', nextBuf := next' } []).trans <|
    leads_store hslot hlock hstore

/-- A slot without resolved targets fails. -/
theorem leads_reject {e : Error} {st : State} (hslot : th.op.slots[th.i]? = some ps)
    (hpc : th.pc = .slot) (hwritable : th.writable[th.i]? = some true)
    (htargets : inner.targets ps.spec.placement = .error e) (hlock : w.poisoned = false)
    (hunclaim : w.state.unclaim th.key th.i = .ok st) :
    Leads inner mem t (w.setThread t th)
      ({ w with state := st }.setThread t
        (th.reported (.error (e.withContext "slot" (.num th.i))))) := by
  refine (leads_slot th hslot ?_).trans (leads_unclaim (e := e) hslot hlock hunclaim)
  rw [World.advanceSlot, hpc]
  dsimp only
  rw [World.beginSlot, hwritable]
  dsimp only
  rw [htargets]
  change World.fail _ t th e = _
  have hbufs : th.bufs = [] := PutThread.bufs_of_idle (by rw [hpc]; rfl)
  unfold World.fail
  rw [hbufs]
  exact goto_setThread w t th _

/-- A slot without targets fails. -/
theorem leads_nowhere {st : State} (hslot : th.op.slots[th.i]? = some ps)
    (hpc : th.pc = .slot) (hwritable : th.writable[th.i]? = some true)
    (htargets : inner.targets ps.spec.placement = .ok []) (hlock : w.poisoned = false)
    (hunclaim : w.state.unclaim th.key th.i = .ok st) :
    Leads inner mem t (w.setThread t th)
      ({ w with state := st }.setThread t (th.reported
        (.error ((Error.new .noSpace "no device available").withContext "slot" (.num th.i))))) := by
  refine (leads_begin hslot hpc hwritable htargets).trans <| Leads.trans (leads_slot
    { th with pc := .place [] ⟨[], none⟩ } hslot ?_) (leads_unclaim hslot hlock hunclaim)
  exact goto_setThread w t { th with pc := .place [] ⟨[], none⟩ } _

end Slots


/-! ### The store section -/

section Store

variable {st : State} {device : Device}

theorem enqueue_fifo {st' : State} {kb : Key} {i : ℕ} (h : st.enqueue kb i device = .ok st')
    (other : Device) (hother : (st.fifo other).isSome = true) : (st'.fifo other).isSome = true := by
  unfold State.enqueue at h
  obtain ⟨queue, _, h⟩ := bind_eq_ok.mp h
  cases h
  change (Function.update st.fifo device _ other).isSome = true
  by_cases heq : other = device
  · rw [heq, Function.update_self]
    rfl
  · rw [Function.update_of_ne heq]
    exact hother

/-- Landed replicas are queued where there are queues. -/
theorem exists_enqueueAll (kb : Key) (i : ℕ) (placed : List Placed) : ∀ (st : State),
    (∀ p ∈ placed, (st.fifo (.cpu p.numa)).isSome = true) → ∃ st',
      placed.foldlM (fun st p ↦ st.enqueue kb i (.cpu p.numa)) st = .ok st' ∧
        st'.objects = st.objects ∧
        ∀ other, (st.fifo other).isSome = true → (st'.fifo other).isSome = true := by
  induction placed with
  | nil =>
    intro st _
    exact ⟨st, rfl, rfl, fun _ hother ↦ hother⟩
  | cons p placed ih =>
    intro st hqueues
    obtain ⟨queue, hqueue⟩ := Option.isSome_iff_exists.mp (hqueues p List.mem_cons_self)
    have hfirst : st.enqueue kb i (.cpu p.numa) = .ok { st with
        fifo := Function.update st.fifo (.cpu p.numa)
          (some (queue ++ [(kb, UInt32.ofNat i)])) } := by
      unfold State.enqueue
      rw [hqueue]
      rfl
    obtain ⟨st', hrest, hobjects, hfifo⟩ := ih _ fun q hq ↦
      enqueue_fifo hfirst _ (hqueues q (List.mem_cons_of_mem _ hq))
    refine ⟨st', ?_, hobjects, fun other hother ↦ hfifo other (enqueue_fifo hfirst other hother)⟩
    rw [List.foldlM_cons, hfirst]
    exact hrest

/-- A store into a slot that is there succeeds where there are queues. -/
theorem exists_store (st : State) (i : ℕ) (placed : List Placed) {kb : Key} {obj : Object}
    {slot : Slot} (hfind : st.objects.find? kb = some obj) (hslot : obj.slots[i]? = some slot)
    (hqueues : ∀ p ∈ placed, (st.fifo (.cpu p.numa)).isSome = true) :
    ∃ st', st.store kb i placed = .ok (.ok st') ∧
      st'.objects = st.objects.insert kb
        (obj.setSlot i ⟨slot.replicas ++ pinnedReplicas placed, false⟩) ∧
      ∀ other, (st.fifo other).isSome = true → (st'.fifo other).isSome = true := by
  let stored := obj.setSlot i ⟨slot.replicas ++ pinnedReplicas placed, false⟩
  obtain ⟨st', hall, hobjects, hfifo⟩ :=
    exists_enqueueAll kb i placed { st with objects := st.objects.insert kb stored } hqueues
  refine ⟨st', ?_, hobjects, hfifo⟩
  unfold State.store
  rw [hfind]
  dsimp only
  rw [index_eq_ok.mpr hslot, ok_bind, hall]
  rfl

/-- A claim on a slot that is there is given back. -/
theorem exists_unclaim {kb : Key} {i : ℕ} {obj : Object} {slot : Slot}
    (hfind : st.objects.find? kb = some obj) (hslot : obj.slots[i]? = some slot) :
    st.unclaim kb i = .ok { st with
      objects := st.objects.insert kb (obj.setSlot i { slot with writing := false }) } := by
  unfold State.unclaim
  rw [hfind]
  dsimp only
  rw [index_eq_ok.mpr hslot]
  rfl

end Store

/-! ### The whole operation -/

section Whole

variable {inner : Inner} {mem : ByteSpace} {w w' : World} {key : Key} {op : OpPut}
  {writable : List Bool} {st : State} {th : PutThread}

/-- A `put` that has claimed its slots goes through them. -/
theorem put_eq_drive (mem : ByteSpace) (fuel : ℕ) (hvalid : op.validate = .ok ())
    (hlock : w.poisoned = false) (hclaim : w.state.claim key op.spec = .ok (writable, st)) :
    w.put inner mem fuel key op = World.drive inner mem w.nextPut fuel
      ({ w with state := st, nextPut := w.nextPut + 1 }.setThread w.nextPut
        ⟨key, op, writable, 0, [], .slot⟩) := by
  have hbegin : w.beginPut key op =
      ({ w with state := st, nextPut := w.nextPut + 1 }.setThread w.nextPut
        ⟨key, op, writable, 0, [], .slot⟩, .running) := by
    unfold World.beginPut
    rw [hvalid]
    dsimp only
    rw [World.section_ok hlock, hclaim]
  unfold World.put
  rw [hbegin]
  rfl

/-- A `put` that begins and gets past its last slot returns what it has reported. -/
theorem put_returns (hvalid : op.validate = .ok ())
    (hlock : w.poisoned = false) (hclaim : w.state.claim key op.spec = .ok (writable, st))
    (hleads : Leads inner mem w.nextPut
      ({ w with state := st, nextPut := w.nextPut + 1 }.setThread w.nextPut
        ⟨key, op, writable, 0, [], .slot⟩) (w'.setThread w.nextPut th))
    (hend : th.op.slots[th.i]? = none) :
    ∃ fuel, w.put inner mem fuel key op =
      ((w'.setThread w.nextPut th).endThread w.nextPut, .put (.ok ⟨th.results⟩)) := by
  obtain ⟨fuel, hdrive⟩ := hleads.returns (Function.update_self ..) hend
  exact ⟨fuel, (put_eq_drive mem fuel hvalid hlock hclaim).trans hdrive⟩

end Whole

end Pegastore.Local
