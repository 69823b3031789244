import Pegastore.Cuda.Steps

/-!
# Runs of the single-node backend

A `Node` is the backend with its operations in flight, the user memory, and a `Ghost` that no step
reads: how often a key was created, which `put` set the flag of a slot, which `put` allocated a
buffer and what it copied there, what a `put` had claimed, and which regions are gone. `backend` is
the transition system; its steps are those of `World.exec`, in any order.

`Sound` is what every state of every run satisfies: the pools are partitioned, every buffer has one
holder, and every `put` in flight works on a slot it has claimed.
-/

set_option autoImplicit false
set_option relaxedAutoImplicit false

namespace Pegastore.Local

open Outcome ByteMemory Transition

/-! ### The system -/

/-- What a `put` claimed: the key, which object under it, the request and the slots. -/
structure Claim where
  key : Key
  incarnation : ℕ
  spec : ObjectSpec
  writable : List Bool

/-- What happened so far. `birth` counts the objects created under a key, `claimant` is the `put`
that set the flag of a slot last, `writer` the one that allocated a buffer and the slot it did so
for, `copied` the bytes of the last copy into a buffer. -/
structure Ghost where
  birth : Key → ℕ
  claimant : Key → ℕ → Option ℕ
  writer : ℕ → Option (ℕ × ℕ)
  copied : ℕ → List UInt8
  claims : ℕ → Option Claim
  dropped : List ℕ

/-- The claim of a `put` that begins. -/
def Ghost.claim (g : Ghost) (w : World) (key : Key) (op : OpPut) : Ghost :=
  let created := (w.state.objects.find? key).isNone
  let writable := (w.state.entry key op.spec).slots.map Slot.claimable
  let birth := if created then Function.update g.birth key (g.birth key + 1) else g.birth
  { g with
    birth := birth
    claimant := fun other j ↦
      if other = key ∧ writable[j]? = some true then some w.nextPut else g.claimant other j
    claims := Function.update g.claims w.nextPut (some ⟨key, birth key, op.spec, writable⟩) }

/-- The bytes a copy moves. -/
def CopyOutcome.bytes (mem : ByteSpace) (ps : PutSlot) : CopyOutcome → List UInt8
  | .done => readAll mem (segsOf ps.src)
  | .failed _ moved => moved

/-- The copy of a `put` in flight, if it is about to do one. -/
def Ghost.copy (g : Ghost) (mem : ByteSpace) (th : PutThread) (outcome : CopyOutcome) : Ghost :=
  match th.pc, th.op.slots[th.i]? with
  | .copy _ (x :: _), some ps =>
    { g with copied := Function.update g.copied x.buf.id (outcome.bytes mem ps) }
  | _, _ => g

/-- The allocation of a `put` in flight, if it did one. -/
def Ghost.alloc (g : Ghost) (w w' : World) (t : ℕ) (th : PutThread) : Ghost :=
  if w'.nextBuf = w.nextBuf then g
  else { g with writer := Function.update g.writer w.nextBuf (some (t, th.i)) }

/-- What a step adds. -/
def Ghost.record (g : Ghost) (w w' : World) (mem : ByteSpace) : Action → Ghost
  | .beginPut key op => if w'.nextPut = w.nextPut then g else g.claim w key op
  | .advance t outcome =>
    match w.threads t with
    | none => g
    | some th => (g.copy mem th outcome).alloc w w' t th
  | .retireRegion regionId => { g with dropped := regionId :: g.dropped }
  | _ => g

/-- The backend, the user memory and what happened so far. -/
structure Node where
  world : World
  mem : ByteSpace
  ghost : Ghost

def Node.exec (inner : Inner) (n : Node) (action : Action) : Option (Node × Reply) :=
  (n.world.exec inner n.mem action).map fun r ↦
    (⟨r.1, r.2.1, n.ghost.record n.world r.1 n.mem action⟩, r.2.2)

/-- An action with what it reports. -/
structure Event where
  action : Action
  reply : Reply

/-- A backend with pools of the given sizes. -/
def backend (inner : Inner) (bytes : UInt16 → ℕ) : System Node Event where
  start := ⟨World.initial inner bytes, fun _ ↦ 0,
    ⟨fun _ ↦ 0, fun _ _ ↦ none, fun _ ↦ none, fun _ ↦ [], fun _ ↦ none, []⟩⟩
  step := fun n e n' ↦ n.exec inner e.action = some (n', e.reply)

/-! ### What every state satisfies -/

/-- A `put` works on a slot it has claimed and has reported the slots before it. -/
structure PutThread.Paced (th : PutThread) : Prop where
  length_eq : th.writable.length = th.op.slots.length
  valid : ∀ ps ∈ th.op.slots, ∃ device, ValidIovs ps.src device ps.spec.len
  claimed : th.pc.busy = true → th.writable[th.i]? = some true
  reported : th.results.length = th.i

structure Sound (w : World) (live : List PinnedBuf) : Prop where
  exclusive : Exclusive w live
  paced : ∀ t th, w.threads t = some th → th.Paced
  below : ∀ t th, w.threads t = some th → t < w.nextPut

section Paced

variable {th th' : PutThread}

theorem PutThread.Paced.follows (h : th.Paced) (hfollows : Follows th th') : th'.Paced where
  length_eq := by rw [hfollows.writable_eq, hfollows.op_eq, h.length_eq]
  valid := by
    rw [hfollows.op_eq]
    exact h.valid
  claimed := by
    intro hbusy
    obtain ⟨hi, hcase⟩ := hfollows.current hbusy
    rcases hcase with hold | hnew
    · rw [hfollows.writable_eq, hi]
      exact h.claimed hold
    · exact hnew
  reported := by
    rcases hfollows.results with ⟨hi, hresults⟩ | ⟨hi, e, hresults⟩
    · rw [hi, hresults, h.reported]
    · rw [hi, hresults, List.length_append, h.reported]
      rfl

theorem PutThread.Paced.goto (h : th.Paced) (hbusy : th.pc.busy = true) (pc : Pc) :
    { th with pc := pc }.Paced :=
  ⟨h.length_eq, h.valid, fun _ ↦ h.claimed hbusy, h.reported⟩

theorem PutThread.Paced.next (h : th.Paced) (r : Result Unit) : (th.reported r).Paced where
  length_eq := h.length_eq
  valid := h.valid
  claimed := nofun
  reported := by
    change (th.results ++ [r]).length = th.i + 1
    rw [List.length_append, h.reported]
    rfl

/-- A `put` inside a slot has a slot to work on. -/
theorem PutThread.Paced.exists_slot (h : th.Paced) (hbusy : th.pc.busy = true) :
    ∃ ps, th.op.slots[th.i]? = some ps := by
  obtain ⟨hlt, _⟩ := List.getElem?_eq_some_iff.mp (h.claimed hbusy)
  rw [h.length_eq] at hlt
  exact ⟨_, List.getElem?_eq_getElem hlt⟩

/-- A `put` past its last slot holds no buffer. -/
theorem PutThread.Paced.bufs_of_end (h : th.Paced) (hend : th.op.slots[th.i]? = none) :
    th.bufs = [] := by
  refine PutThread.bufs_of_idle (Bool.eq_false_of_not_eq_true fun hbusy ↦ ?_)
  obtain ⟨ps, hps⟩ := h.exists_slot hbusy
  rw [hend] at hps
  cases hps

end Paced

section Sound

variable {inner : Inner} {mem : ByteSpace} {w w' : World} {live : List PinnedBuf}

theorem held_congr {st : State} (h : ∀ b, b ∈ bufsIn st.objects ↔ b ∈ bufsIn w.state.objects)
    (b : PinnedBuf) : b ∈ { w with state := st }.held ↔ b ∈ w.held := by
  unfold World.held
  rw [List.mem_append, List.mem_append, h b]

/-- The buffers in the metadata after a store. -/
theorem mem_bufsIn_store {key : Key} {i : ℕ} {placed : List Placed} {st : State}
    (hstore : w.state.store key i placed = .ok (.ok st)) {b : PinnedBuf} :
    b ∈ bufsIn st.objects ↔ b ∈ bufsIn w.state.objects ∨ b ∈ placed.map Placed.buf := by
  obtain ⟨hrewritten, hslot⟩ := store_rewritten hstore
  refine hrewritten.mem_bufsIn (placed.map Placed.buf) (fun s ↦ ?_) (.inr hslot) b
  rw [← bufsOf_pinnedReplicas]
  exact bufsOf_append _ _

/-- The buffers held after a store. -/
theorem mem_held_store {key : Key} {i : ℕ} {placed : List Placed} {st : State}
    (hstore : w.state.store key i placed = .ok (.ok st)) {b : PinnedBuf} :
    b ∈ { w with state := st }.held ↔ b ∈ w.held ∨ b ∈ placed.map Placed.buf := by
  unfold World.held
  rw [List.mem_append, List.mem_append, mem_bufsIn_store hstore]
  tauto

/-- The buffers in the metadata after a claim was given back. -/
theorem mem_bufsIn_unclaim {key : Key} {i : ℕ} {st : State}
    (hunclaim : w.state.unclaim key i = .ok st) (b : PinnedBuf) :
    b ∈ bufsIn st.objects ↔ b ∈ bufsIn w.state.objects := by
  rw [(unclaim_rewritten hunclaim).mem_bufsIn [] (fun s ↦ (List.append_nil _).symm) (.inl rfl)]
  simp only [List.not_mem_nil, or_false]

/-- The buffers held after a claim was given back. -/
theorem mem_held_unclaim {key : Key} {i : ℕ} {st : State}
    (hunclaim : w.state.unclaim key i = .ok st) {b : PinnedBuf} :
    b ∈ { w with state := st }.held ↔ b ∈ w.held :=
  held_congr (mem_bufsIn_unclaim hunclaim) b

theorem Sound.shed (h : Sound w live) {bs : List PinnedBuf} (hshed : Shed w w' bs) :
    Sound w' (live.filter fun b ↦ b ∉ bs) where
  exclusive := h.exclusive.frees hshed.toFrees
  paced := by
    intro t th' hth'
    obtain ⟨th, hth, hfollows⟩ := hshed.follows t th' hth'
    exact (h.paced t th hth).follows hfollows
  below := by
    intro t th' hth'
    obtain ⟨th, hth, _⟩ := hshed.follows t th' hth'
    rw [hshed.nextPut]
    exact h.below t th hth

/-- One thread goes on, and the rest follows from what it holds. -/
theorem Sound.setThread (h : Sound w live) {live' : List PinnedBuf} {t : ℕ} {th' : PutThread}
    (hexclusive : Exclusive w' live')
    (hthreads : w'.threads = Function.update w.threads t (some th')) (hpaced : th'.Paced)
    (hlt : t < w'.nextPut) (hle : w.nextPut ≤ w'.nextPut) : Sound w' live' where
  exclusive := hexclusive
  paced := by
    intro t' other hother
    rw [hthreads] at hother
    rcases thread_of_setThread hother with ⟨_, rfl⟩ | ⟨_, hsame⟩
    · exact hpaced
    · exact h.paced t' other hsame
  below := by
    intro t' other hother
    rw [hthreads] at hother
    rcases thread_of_setThread hother with ⟨rfl, _⟩ | ⟨_, hsame⟩
    · exact hlt
    · exact lt_of_lt_of_le (h.below t' other hsame) hle

theorem Sound.fill (h : Sound w live) (buf : PinnedBuf) (bytes : List UInt8) :
    Sound (w.fill buf bytes) live :=
  ⟨⟨h.exclusive.pools, h.exclusive.held, h.exclusive.thread, h.exclusive.nodup, h.exclusive.holder,
    h.exclusive.owned⟩, h.paced, h.below⟩

theorem Sound.began (h : Sound w live) {key : Key} {op : OpPut} {writable : List Bool} {st : State}
    (hvalid : op.validate = .ok ()) (hclaim : w.state.claim key op.spec = .ok (writable, st)) :
    Sound ({ w with state := st, nextPut := w.nextPut + 1 }.setThread w.nextPut
      ⟨key, op, writable, 0, [], .slot⟩) (live.filter fun b ↦ b ∉ []) := by
  have hclaimed := claim_claimed hclaim
  have hnone : w.threads w.nextPut = none := by
    cases hth : w.threads w.nextPut with
    | none => rfl
    | some th => exact absurd (h.below w.nextPut th hth) (lt_irrefl _)
  have hfrees : Frees w ({ w with state := st, nextPut := w.nextPut + 1 }.setThread w.nextPut
      ⟨key, op, writable, 0, [], .slot⟩) [] :=
    frees_setThread rfl rfl (held_congr hclaimed.mem_bufsIn) rfl (by rw [hnone]; rfl)
  refine h.setThread (h.exclusive.frees hfrees) rfl ?_ (Nat.lt_succ_self _) (Nat.le_succ _)
  refine ⟨?_, (OpPut.validate_ok hvalid).2, nofun, rfl⟩
  change writable.length = op.slots.length
  rw [hclaimed.length_eq]
  exact List.length_map _

theorem Sound.advanced (h : Sound w live) {t : ℕ} {th : PutThread} {ps : PutSlot}
    {outcome : CopyOutcome} {r : World × Reply} (hth : w.threads t = some th)
    (hadvanced : Advanced inner mem w t th ps outcome r) :
    ∃ live', Sound r.1 live' := by
  have hpaced := h.paced t th hth
  have hlt := h.below t th hth
  cases hadvanced with
  | shed _ hshed => exact ⟨_, h.shed hshed⟩
  | unwound _ hshed => exact ⟨_, h.shed hshed⟩
  | allocated _ hbusy hpool halloc hnext hbufs hfilled =>
    exact ⟨_, h.setThread (h.exclusive.alloc hth hpool halloc hbufs) rfl (hpaced.goto hbusy _) hlt
      (le_refl _)⟩
  | @copied filled todo x hpc =>
    have hbusy : th.pc.busy = true := by rw [hpc]; rfl
    have hbufs : { th with pc := .copy (filled ++ [x]) todo }.bufs = th.bufs := by
      unfold PutThread.bufs
      rw [hpc]
      exact congrArg _ (List.append_assoc filled [x] todo)
    have hfrees : Frees w ((w.fill x.buf (readAll mem (segsOf ps.src))).setThread t
        { th with pc := .copy (filled ++ [x]) todo }) [] :=
      frees_setThread rfl rfl (fun _ ↦ Iff.rfl) rfl (by rw [hth]; exact hbufs)
    exact ⟨_, h.setThread (h.exclusive.frees hfrees) rfl (hpaced.goto hbusy _) hlt (le_refl _)⟩
  | spilled _ _ hshed => exact ⟨_, (h.fill _ _).shed hshed⟩
  | @stored _ placed st hpc hstore =>
    have hbufs : th.bufs = placed.map Placed.buf := by
      unfold PutThread.bufs
      rw [hpc]
      rfl
    refine ⟨_, h.setThread (h.exclusive.store hth rfl fun b ↦ ?_) rfl (hpaced.next _) hlt
      (le_refl _)⟩
    rw [hbufs]
    exact mem_held_store hstore
  | @unclaimed _ e st r hpc hunclaim =>
    have hidle : th.bufs = [] := by
      unfold PutThread.bufs
      rw [hpc]
      rfl
    have hfrees : Frees w ({ w with state := st }.setThread t (th.reported (.error r))) [] :=
      frees_setThread rfl rfl (fun _ ↦ mem_held_unclaim hunclaim) rfl
        (by rw [hth]; exact hidle.symm)
    exact ⟨_, h.setThread (h.exclusive.frees hfrees) rfl (hpaced.next _) hlt (le_refl _)⟩

theorem Sound.stepped (h : Sound w live) {action : Action} {r : World × Reply}
    (hstep : Stepped inner mem w action r) : ∃ live', Sound r.1 live' := by
  cases hstep with
  | shed _ hshed => exact ⟨_, h.shed hshed⟩
  | began hvalid hclaim => exact ⟨_, h.began hvalid hclaim⟩
  | advanced hth _ hadvanced => exact h.advanced hth hadvanced
  | returned hth hend =>
    exact ⟨_, h.shed (shed_endThread h.exclusive hth ((h.paced _ _ hth).bufs_of_end hend))⟩

end Sound

/-! ### Runs -/

section Runs

variable {inner : Inner} {bytes : UInt16 → ℕ} {n n' : Node} {e : Event}

theorem sound_initial (inner : Inner) (bytes : UInt16 → ℕ) :
    Sound (World.initial inner bytes) [] where
  exclusive := by
    constructor
    case pools =>
      refine ⟨List.nodup_nil, nofun, nofun, ?_, ?_⟩
      · intro numa pool hpool
        change (if numa ∈ inner.poolOrder then some _ else none) = some pool at hpool
        split_ifs at hpool
        cases hpool
        rfl
      · intro numa pool hpool x
        change (if numa ∈ inner.poolOrder then some _ else none) = some pool at hpool
        split_ifs at hpool
        cases hpool
        change Ranges.cover [(0, _)] x + 0 = _
        rw [Ranges.cover_singleton, Nat.add_zero]
        simp only [Nat.zero_le, true_and, Nat.zero_add]
        rfl
    case held => exact fun _ hb ↦ absurd hb List.not_mem_nil
    case thread => exact fun _ _ hth ↦ by cases hth
    case nodup => exact fun _ _ hth ↦ by cases hth
    case holder => exact fun _ _ _ _ hth ↦ by cases hth
    case owned => exact fun _ hb ↦ absurd hb List.not_mem_nil
  paced := fun _ _ hth ↦ by cases hth
  below := fun _ _ hth ↦ by cases hth

/-- What a step of the system is. -/
structure IsStep (inner : Inner) (n : Node) (e : Event) (n' : Node) : Prop where
  exec : n.world.exec inner n.mem e.action = some (n'.world, n'.mem, e.reply)
  stepped : Stepped inner n.mem n.world e.action (n'.world, e.reply)
  ghost : n'.ghost = n.ghost.record n.world n'.world n.mem e.action

theorem isStep_of_step {live : List PinnedBuf} (hsound : Sound n.world live)
    (hstep : (backend inner bytes).step n e n') : IsStep inner n e n' := by
  obtain ⟨⟨w', mem', r⟩, hworld, heq⟩ := Option.map_eq_some_iff.mp hstep
  obtain ⟨hnode, hreply⟩ := Prod.mk.inj heq
  subst hnode
  rw [show r = e.reply from hreply] at hworld
  exact ⟨hworld, exec_cases hsound.exclusive hworld, rfl⟩

/-- Every state of every run is sound. -/
theorem run_sound {history : List Event} (hrun : (backend inner bytes).Run history n) :
    ∃ live, Sound n.world live := by
  refine System.Run.induction (S := backend inner bytes)
    (I := fun _ n ↦ ∃ live, Sound n.world live) ⟨[], sound_initial inner bytes⟩ ?_ hrun
  intro _ n e n' _ ⟨live, hsound⟩ hstep
  exact hsound.stepped (isStep_of_step hsound hstep).stepped

/-- The rule of state invariants of the backend: an invariant may use that the states are sound and
what a step does. -/
theorem run_invariant {condition : Node → Event → Prop} {I : Node → Prop}
    (hstart : I (backend inner bytes).start)
    (hstep : ∀ n e n' live live', Sound n.world live → Sound n'.world live' → condition n e →
      I n → IsStep inner n e n' → I n') {history : List Event}
    (hrun : ((backend inner bytes).restrict condition).Run history n) : I n := by
  refine System.Run.induction (S := (backend inner bytes).restrict condition) (I := fun _ n ↦ I n)
    hstart ?_ hrun
  intro history n e n' hrun hn ⟨hcondition, hlast⟩
  obtain ⟨live, hsound⟩ := run_sound (System.Run.of_restrict hrun)
  have his := isStep_of_step hsound hlast
  obtain ⟨live', hsound'⟩ := hsound.stepped his.stepped
  exact hstep n e n' live live' hsound hsound' hcondition hn his

/-- The rule without a condition on the steps. -/
theorem run_invariant_of_step {I : Node → Prop} (hstart : I (backend inner bytes).start)
    (hstep : ∀ n e n' live live', Sound n.world live → Sound n'.world live' → I n →
      IsStep inner n e n' → I n') {history : List Event}
    (hrun : (backend inner bytes).Run history n) : I n := by
  have hall : ((backend inner bytes).restrict fun _ _ ↦ True).Run history n :=
    hrun.restrict_of_forall fun _ _ _ ↦ trivial
  exact run_invariant hstart (fun n e n' live live' hsound hsound' _ ↦
    hstep n e n' live live' hsound hsound') hall

end Runs

/-! ### Buffers as long as their slots -/

/-- No length is rounded up to less: overflow panics, or no `put` asks for a length so large. -/
def Rounded (inner : Inner) (history : List Event) : Prop :=
  inner.checks = true ∨ ∀ e ∈ history, e.action.Roundable

theorem Rounded.mono {inner : Inner} {history later : List Event} (hsub : history ⊆ later)
    (h : Rounded inner later) : Rounded inner history :=
  h.imp_right fun hall e he ↦ hall e (hsub he)

theorem Rounded.init {inner : Inner} {history : List Event} {e : Event}
    (h : Rounded inner (history ++ [e])) : Rounded inner history :=
  h.mono (List.subset_append_left _ _)

/-- The buffer is as long as it was asked for, unless its length wraps around when rounded up. -/
def PinnedBuf.Fits (checks : Bool) (b : PinnedBuf) : Prop :=
  RoundsUp checks b.len → b.len ≤ b.reserved

/-- Every buffer that is held fits, and the lengths of the buffers and of the slots of every `put`
in flight are as described. -/
structure Measured (checks : Bool) (ok : ℕ → Prop) (w : World) : Prop where
  slots : ∀ t th, w.threads t = some th → ∀ ps ∈ th.op.slots, ok ps.spec.len
  bufs : ∀ b, w.Owns b → ok b.len ∧ b.Fits checks

/-- Every buffer that is held is as long as it was asked for, and no slot of a `put` in flight has a
length that wraps around. -/
def Fitting (inner : Inner) (w : World) : Prop := Measured inner.checks (RoundsUp inner.checks) w

theorem Fitting.bufs {inner : Inner} {w : World} (h : Fitting inner w) (b : PinnedBuf)
    (hb : w.Owns b) : b.len ≤ b.reserved :=
  (Measured.bufs h b hb).2 (Measured.bufs h b hb).1

section Measured

variable {inner : Inner} {bytes : UInt16 → ℕ} {mem : ByteSpace} {ok : ℕ → Prop} {w w' : World}
  {n : Node}

/-- A thread that went on has the buffers it had, or none. -/
theorem Follows.mem_bufs {th th' : PutThread} (h : Follows th th') {b : PinnedBuf}
    (hb : b ∈ th'.bufs) : b ∈ th.bufs := by
  rcases h.bufs with hnil | hsame
  · rw [hnil] at hb
    exact absurd hb List.not_mem_nil
  · exact hsame ▸ hb

theorem Shed.owns {bs : List PinnedBuf} (h : Shed w w' bs) {b : PinnedBuf} (hb : w'.Owns b) :
    w.Owns b := by
  rcases hb with hheld | ⟨t, th', hth', hmem⟩
  · exact .inl (h.held b hheld).1
  · obtain ⟨th, hth, hfollows⟩ := h.follows t th' hth'
    exact .inr ⟨t, th, hth, hfollows.mem_bufs hmem⟩

theorem Measured.shed {bs : List PinnedBuf} (h : Measured inner.checks ok w)
    (hshed : Shed w w' bs) : Measured inner.checks ok w' where
  slots := by
    intro t th' hth' ps hps
    obtain ⟨th, hth, hfollows⟩ := hshed.follows t th' hth'
    rw [hfollows.op_eq] at hps
    exact h.slots t th hth ps hps
  bufs := fun b hb ↦ h.bufs b (hshed.owns hb)

/-- A thread goes on, and the metadata and the thread hold what they held, or new buffers that are
as described. -/
theorem Measured.setThread (h : Measured inner.checks ok w) {t : ℕ} {th' : PutThread}
    (hthreads : w'.threads = Function.update w.threads t (some th'))
    (hslots : ∀ ps ∈ th'.op.slots, ok ps.spec.len) (hheld : ∀ b ∈ w'.held, w.Owns b)
    (hbufs : ∀ b ∈ th'.bufs, w.Owns b ∨ (ok b.len ∧ b.Fits inner.checks)) :
    Measured inner.checks ok w' where
  slots := by
    intro t' other hother
    rw [hthreads] at hother
    rcases thread_of_setThread hother with ⟨_, rfl⟩ | ⟨_, hsame⟩
    · exact hslots
    · exact h.slots t' other hsame
  bufs := by
    intro b hb
    rcases hb with hb | ⟨t', other, hother, hb⟩
    · exact h.bufs b (hheld b hb)
    · rw [hthreads] at hother
      rcases thread_of_setThread hother with ⟨_, rfl⟩ | ⟨_, hsame⟩
      · exact (hbufs b hb).elim (h.bufs b) id
      · exact h.bufs b (.inr ⟨t', other, hsame, hb⟩)

theorem Measured.advanced (h : Measured inner.checks ok w) {t : ℕ} {th : PutThread} {ps : PutSlot}
    {outcome : CopyOutcome} {r : World × Reply} (hth : w.threads t = some th)
    (hps : ps ∈ th.op.slots) (hadvanced : Advanced inner mem w t th ps outcome r) :
    Measured inner.checks ok r.1 := by
  have hslots := h.slots t th hth
  have howns : ∀ b ∈ th.bufs, w.Owns b := fun b hb ↦ .inr ⟨t, th, hth, hb⟩
  cases hadvanced with
  | shed _ hshed => exact h.shed hshed
  | unwound _ hshed => exact h.shed hshed
  | @allocated _ numa pool after buf pc _ _ _ halloc _ hbufs =>
    refine h.setThread rfl hslots (fun b hb ↦ .inl hb) fun b hb ↦ ?_
    rw [hbufs] at hb
    rcases List.mem_append.mp hb with hb | hb
    · exact .inl (howns b hb)
    · rw [List.mem_singleton.mp hb]
      unfold PinnedBuf.Fits
      rw [halloc.len_eq]
      exact .inr ⟨hslots ps hps, fun hrounds ↦ halloc.len_eq ▸ halloc.fits hrounds⟩
  | @copied filled todo x hpc =>
    refine h.setThread rfl hslots (fun b hb ↦ .inl hb) fun b hb ↦ .inl (howns b ?_)
    unfold PutThread.bufs at hb ⊢
    rw [hpc]
    change b ∈ ((filled ++ [x]) ++ todo).map Placed.buf at hb
    rw [List.append_assoc] at hb
    exact hb
  | @spilled filled todo x e moved w' bs _ _ hshed =>
    have hfilled : Measured inner.checks ok (w.fill x.buf moved) := ⟨h.slots, h.bufs⟩
    exact hfilled.shed hshed
  | @stored _ placed st hpc hstore =>
    refine h.setThread rfl hslots (fun b hb ↦ ?_) fun b hb ↦ absurd hb List.not_mem_nil
    rcases (mem_held_store hstore).mp hb with hold | hnew
    · exact .inl hold
    · refine howns b ?_
      unfold PutThread.bufs
      rw [hpc]
      exact hnew
  | unclaimed _ hunclaim =>
    exact h.setThread rfl hslots (fun b hb ↦ .inl ((mem_held_unclaim hunclaim).mp hb))
      fun b hb ↦ absurd hb List.not_mem_nil

/-- A step keeps the lengths as described if the requests that begin are. -/
theorem Measured.stepped {live : List PinnedBuf} (hsound : Sound w live)
    (h : Measured inner.checks ok w) {action : Action} {r : World × Reply}
    (hok : ∀ key op, action = .beginPut key op → ∀ ps ∈ op.slots, ok ps.spec.len)
    (hstep : Stepped inner mem w action r) : Measured inner.checks ok r.1 := by
  cases hstep with
  | shed _ hshed => exact h.shed hshed
  | @began key op writable st _ hclaim =>
    exact h.setThread rfl (hok key op rfl)
      (fun b hb ↦ .inl ((held_congr (claim_claimed hclaim).mem_bufsIn b).mp hb))
      fun b hb ↦ absurd hb List.not_mem_nil
  | advanced hth hps hadvanced => exact h.advanced hth (List.mem_of_getElem? hps) hadvanced
  | returned hth hend =>
    exact h.shed (shed_endThread hsound.exclusive hth ((hsound.paced _ _ hth).bufs_of_end hend))

theorem Fitting.stepped {live : List PinnedBuf} (hsound : Sound w live) (h : Fitting inner w)
    {action : Action} {r : World × Reply} (hround : inner.checks = true ∨ action.Roundable)
    (hstep : Stepped inner mem w action r) : Fitting inner r.1 := by
  refine Measured.stepped hsound h (fun key op heq ps hps ↦ ?_) hstep
  subst heq
  exact hround.imp_right fun hfits ↦ hfits ps hps

theorem measured_initial (inner : Inner) (bytes : UInt16 → ℕ) :
    Measured inner.checks ok (World.initial inner bytes) := by
  refine ⟨fun _ _ hth ↦ (by cases hth), fun b hb ↦ ?_⟩
  rcases hb with hb | ⟨_, _, hth, _⟩
  · exact absurd hb List.not_mem_nil
  · cases hth

/-- When no length wraps around, every buffer is as long as it was asked for. -/
theorem run_fitting {history : List Event} (hrun : (backend inner bytes).Run history n)
    (hround : Rounded inner history) : Fitting inner n.world := by
  have hrun' : ((backend inner bytes).restrict fun _ e ↦
      inner.checks = true ∨ e.action.Roundable).Run history n :=
    hrun.restrict_of_forall fun e he _ ↦ hround.imp_right fun hall ↦ hall e he
  refine run_invariant (I := fun n ↦ Fitting inner n.world) (measured_initial inner bytes) ?_ hrun'
  intro n e n' live live' hsound _ he hn hstep
  exact hn.stepped hsound he hstep.stepped

/-- In every state, a buffer whose length does not wrap around is as long as it was asked for. -/
theorem run_fits {history : List Event} (hrun : (backend inner bytes).Run history n)
    {b : PinnedBuf} (hb : n.world.Owns b) : b.Fits inner.checks := by
  have hmeasured : Measured inner.checks (fun _ ↦ True) n.world := by
    refine run_invariant_of_step (I := fun n ↦ Measured inner.checks (fun _ ↦ True) n.world)
      (measured_initial inner bytes) ?_ hrun
    intro n e n' live live' hsound _ hn hstep
    exact hn.stepped hsound (fun _ _ _ _ _ ↦ trivial) hstep.stepped
  exact (hmeasured.bufs b hb).2

end Measured

/-! ### Fixed inputs -/

/-- One action as a partial function, for runs on fixed inputs. -/
def Node.next (inner : Inner) (n : Node) (action : Action) : Option (Event × Node) :=
  (n.exec inner action).map fun r ↦ (⟨action, r.2⟩, r.1)

theorem step_of_next {inner : Inner} {bytes : UInt16 → ℕ} {n n' : Node} {action : Action}
    {e : Event} (h : n.next inner action = some (e, n')) : (backend inner bytes).step n e n' := by
  obtain ⟨⟨node, reply⟩, hexec, heq⟩ := Option.map_eq_some_iff.mp h
  cases heq
  exact hexec

theorem action_of_next {inner : Inner} {n n' : Node} {action : Action} {e : Event}
    (h : n.next inner action = some (e, n')) : e.action = action := by
  obtain ⟨_, _, heq⟩ := Option.map_eq_some_iff.mp h
  cases heq
  rfl

theorem steps_of_actions {inner : Inner} {bytes : UInt16 → ℕ} (actions : List Action) {n n' : Node}
    {history : List Event} (h : replay (Node.next inner) actions n = some (history, n')) :
    (backend inner bytes).Steps n history n' :=
  steps_of_replay (fun _ _ _ _ hnext ↦ step_of_next hnext) actions h

/-- A replay is a run under a condition, when the first action meets it at the start and the others
meet it in every state. -/
theorem run_of_actions {inner : Inner} {bytes : UInt16 → ℕ} {condition : Node → Event → Prop}
    {first : Action} {rest : List Action} {n : Node} {history : List Event}
    (hfirst : ∀ e, e.action = first → condition (backend inner bytes).start e)
    (hrest : ∀ n e, e.action ∈ rest → condition n e)
    (h : replay (Node.next inner) (first :: rest) (backend inner bytes).start = some (history, n)) :
    ((backend inner bytes).restrict condition).Run history n := by
  obtain ⟨⟨e, n₁⟩, hnext, hmap⟩ := Option.bind_eq_some_iff.mp h
  obtain ⟨⟨later, last⟩, hreplay, heq⟩ := Option.map_eq_some_iff.mp hmap
  cases heq
  have hone : ((backend inner bytes).restrict condition).Run [e] n₁ :=
    System.Run.snoc System.Run.nil ⟨hfirst e (action_of_next hnext), step_of_next hnext⟩
  have hlater : (backend inner bytes).Steps n₁ later last := steps_of_actions rest hreplay
  refine hone.append (hlater.restrict_of_forall fun label hlabel a ↦ hrest a label ?_)
  rw [← inputs_of_replay (fun _ _ _ _ hsome ↦ action_of_next hsome) rest hreplay]
  exact List.mem_map_of_mem hlabel

/-- Every `put` in flight passes a test. -/
def World.allThreads (w : World) (test : PutThread → Bool) : Bool :=
  (List.range w.nextPut).all fun t ↦ (w.threads t).all test

/-- No `put` is in flight. -/
def World.idle (w : World) : Bool := (List.range w.nextPut).all fun t ↦ (w.threads t).isNone

theorem Sound.threads_of_idle {w : World} {live : List PinnedBuf} (h : Sound w live)
    (hidle : w.idle = true) (t : ℕ) : w.threads t = none := by
  cases hth : w.threads t with
  | none => rfl
  | some th =>
    have hnone := List.all_eq_true.mp hidle t (List.mem_range.mpr (h.below t th hth))
    rw [hth] at hnone
    cases hnone

namespace Scenario

/-- One node with one pool, on NUMA node 0, with overflow checks. -/
def inner : Inner := ⟨0, fun _ ↦ none, [], [0], true⟩

/-- The same node, built without overflow checks. -/
def release : Inner := { inner with checks := false }

/-- A pool of two allocation units. -/
def bytes : UInt16 → ℕ := fun _ ↦ 2 * ALIGN

def key : Key := [1]

theorem buffer_fits : 0 + 8 ≤ 2 ^ 64 := by decide

/-- User memory of eight bytes, at address 0. -/
def buffer : MemoryRegion := ⟨1, 0, 8, .cpu 0, buffer_fits⟩

/-- A slot of `len` bytes taken from the beginning of `buffer`. -/
def slotOn (placement : Placement) (len : ℕ) : PutSlot := ⟨⟨len, placement⟩, [⟨buffer, 0, len⟩]⟩

/-- `count` steps of a `put`, none of whose copies fails. -/
def advance (t count : ℕ) : List Action := List.replicate count (.advance t .done)

end Scenario

end Pegastore.Local
