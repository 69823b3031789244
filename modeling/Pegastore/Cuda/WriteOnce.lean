import Pegastore.Cuda.Incarnation

/-!
# Write-once slots without removals

Where nothing is removed and nothing panics, a claimed slot keeps its object: eviction reclaims an
object only when no slot of it is flagged. So a claim that is open has its slot (`Present`), no key
is created while a claim under it is open, and the exclusiveness of open claims holds without a
condition on the clients. A slot is then written by one `put` at a time: between two `put`s that
report it written there is a state in which it has no replica, the one in which the second claimed
it.
-/

set_option autoImplicit false
set_option relaxedAutoImplicit false

namespace Pegastore.Local

open Outcome ByteMemory Transition

/-- The step removes nothing and does not panic. -/
def Event.Calm (e : Event) : Prop := e.action.removes = false ∧ e.returns

/-- Every slot with an open claim is there. -/
def Present (w : World) : Prop :=
  ∀ t th j, w.threads t = some th → th.Unfinished j →
    ∃ slot, slotAt w.state.objects th.key j = some slot

section Present

variable {inner : Inner} {mem : ByteSpace} {w w' : World} {g : Ghost} {live : List PinnedBuf}

/-- The threads have no new claims and the claimed slots are still there. -/
theorem Present.of_threads (h : Present w) (hincarnated : Incarnated w g)
    (hthreads : ∀ t th' j, w'.threads t = some th' → th'.Unfinished j →
      ∃ th, w.threads t = some th ∧ th'.key = th.key ∧ th.Unfinished j)
    (hslots : ∀ key j slot, slotAt w.state.objects key j = some slot → slot.writing = true →
      ∃ slot', slotAt w'.state.objects key j = some slot') : Present w' := by
  intro t th' j hth' hopen'
  obtain ⟨th, hth, hkey, hopen⟩ := hthreads t th' j hth' hopen'
  obtain ⟨slot, hslot⟩ := h t th j hth hopen
  rw [hkey]
  apply hslots th.key j slot hslot
  exact (hincarnated.owns t th j slot hth hopen hslot).1

theorem Present.shed (h : Present w) (hincarnated : Incarnated w g) {bs : List PinnedBuf}
    (hshed : Shed w w' bs) (hkeeps : KeepsClaims w.state.objects w'.state.objects) :
    Present w' := by
  apply h.of_threads hincarnated
  · intro t th' j hth' hopen'
    obtain ⟨th, hth, hfollows⟩ := hshed.follows t th' hth'
    exact ⟨th, hth, hfollows.key_eq, hopen'.of_follows hfollows⟩
  · intro key j slot hslot hwriting
    obtain ⟨slot', hslot', _⟩ := hkeeps key j slot hslot hwriting
    exact ⟨slot', hslot'⟩

/-- One thread went on without a new claim, and no slot disappeared. -/
theorem Present.setThread (h : Present w) (hincarnated : Incarnated w g) {t : ℕ}
    {th th' : PutThread} (hth : w.threads t = some th)
    (hthreads : w'.threads = Function.update w.threads t (some th')) (hkey : th'.key = th.key)
    (hopen : ∀ j, th'.Unfinished j → th.Unfinished j)
    (hslots : ∀ key j slot, slotAt w.state.objects key j = some slot →
      ∃ slot', slotAt w'.state.objects key j = some slot') : Present w' := by
  apply h.of_threads hincarnated
  · intro t' other j hother hopen'
    rw [hthreads] at hother
    rcases thread_of_setThread hother with ⟨rfl, rfl⟩ | ⟨_, hsame⟩
    · exact ⟨th, hth, hkey, hopen j hopen'⟩
    · exact ⟨other, hsame, rfl, hopen'⟩
  · exact fun key j slot hslot _ ↦ hslots key j slot hslot

/-- A slot that is rewritten is still there. -/
theorem Rewritten.exists_slot {before after : Objects} {key : Key} {i : ℕ} {f : Slot → Slot}
    (h : Rewritten before key i f after) (other : Key) (j : ℕ) (slot : Slot)
    (hslot : slotAt before other j = some slot) : ∃ slot', slotAt after other j = some slot' := by
  by_cases heq : other = key ∧ j = i
  · rw [heq.1, heq.2] at hslot ⊢
    exact ⟨f slot, by rw [h.slotAt_self, hslot]; rfl⟩
  · exact ⟨slot, by rw [h.slotAt_ne other j heq]; exact hslot⟩

theorem Present.began (h : Present w) {key : Key} {op : OpPut} {writable : List Bool} {st : State}
    (hclaim : w.state.claim key op.spec = .ok (writable, st)) :
    Present ({ w with state := st, nextPut := w.nextPut + 1 }.setThread w.nextPut
      ⟨key, op, writable, 0, [], .slot⟩) := by
  have hclaimed := claim_claimed hclaim
  intro t th j hth hopen
  change ∃ slot, slotAt st.objects th.key j = some slot
  rcases thread_of_setThread hth with ⟨rfl, rfl⟩ | ⟨_, hsame⟩
  · apply exists_slotAt hclaimed.specAt_key
    rw [← hclaimed.length_eq]
    exact (List.getElem?_eq_some_iff.mp hopen.2).1
  · obtain ⟨slot, hslot⟩ := h t th j hsame hopen
    by_cases heq : key = th.key
    · rw [← heq] at hslot ⊢
      rcases hclaimed.slotAt_of_before hslot with ⟨_, hafter⟩ | ⟨_, hafter, _⟩
      · exact ⟨slot, hafter⟩
      · exact ⟨_, hafter⟩
    · exact ⟨slot, by rw [hclaimed.slotAt_ne _ _ heq]; exact hslot⟩

theorem Present.advanced (h : Present w) (hincarnated : Incarnated w g) {t : ℕ} {th : PutThread}
    {ps : PutSlot} {outcome : CopyOutcome} {r : Reply} (hth : w.threads t = some th)
    (hreturns : ∀ reason, r ≠ .panicked reason)
    (hadvanced : Advanced inner mem w t th ps outcome (w', r)) : Present w' := by
  cases hadvanced with
  | shed _ hshed _ hkeeps => exact h.shed hincarnated hshed hkeeps
  | unwound => exact absurd rfl (hreturns _)
  | allocated =>
    exact h.setThread hincarnated hth rfl rfl (fun _ hopen ↦ hopen)
      fun _ _ slot hslot ↦ ⟨slot, hslot⟩
  | copied =>
    exact h.setThread hincarnated hth rfl rfl (fun _ hopen ↦ hopen)
      fun _ _ slot hslot ↦ ⟨slot, hslot⟩
  | spilled _ _ hshed _ hstate =>
    apply h.of_threads hincarnated
    · intro t' th' j hth' hopen'
      obtain ⟨old, hold, hfollows⟩ := hshed.follows t' th' hth'
      exact ⟨old, hold, hfollows.key_eq, hopen'.of_follows hfollows⟩
    · intro key j slot hslot _
      rw [hstate]
      exact ⟨slot, hslot⟩
  | stored _ hstore =>
    exact h.setThread hincarnated hth rfl rfl (fun _ hopen ↦ hopen.of_reported.1)
      (store_rewritten hstore).1.exists_slot
  | unclaimed _ hunclaim =>
    exact h.setThread hincarnated hth rfl rfl (fun _ hopen ↦ hopen.of_reported.1)
      (unclaim_rewritten hunclaim).exists_slot

theorem Present.stepped (h : Present w) (hincarnated : Incarnated w g) {e : Event}
    (hcalm : e.Calm) (hstep : Stepped inner mem w e.action (w', e.reply)) : Present w' := by
  obtain ⟨action, reply⟩ := e
  cases hstep with
  | shed _ hshed _ hkeeps => exact h.shed hincarnated hshed (hkeeps hcalm.1)
  | began _ hclaim => exact h.began hclaim
  | advanced hth _ hadvanced => exact h.advanced hincarnated hth hcalm.2 hadvanced
  | @returned t th _ hth _ =>
    apply h.of_threads hincarnated
    · intro t' other j hother hopen
      have hne : t' ≠ t := by
        intro heq
        rw [heq] at hother
        change Function.update w.threads t none t = some other at hother
        rw [Function.update_self] at hother
        cases hother
      change Function.update w.threads t none t' = some other at hother
      rw [Function.update_of_ne hne] at hother
      exact ⟨other, hother, rfl, hopen⟩
    · exact fun _ _ slot hslot _ ↦ ⟨slot, hslot⟩

/-- A key without an object has no open claim. -/
theorem Present.createsAlone (h : Present w) (action : Action) : CreatesAlone w action := by
  intro key op _ hnone j hopen
  obtain ⟨t, th, hth, hkey, hunfinished⟩ := hopen
  obtain ⟨slot, hslot⟩ := h t th j hth hunfinished
  rw [hkey, slotAt_of_absent hnone] at hslot
  cases hslot

end Present

/-! ### Reports -/

/-- In the step a `put` reports slot `i` of its object under `key` written. -/
def ReportsOk (n : Node) (e : Event) (n' : Node) (key : Key) (i : ℕ) : Prop :=
  ∃ t outcome th, e.action = .advance t outcome ∧ n.world.threads t = some th ∧ th.key = key ∧
    th.i = i ∧ n'.world.threads t = some (th.reported (.ok ()))

/-- The slot has no replica. -/
def World.Unwritten (w : World) (key : Key) (i : ℕ) : Prop :=
  ∀ slot, slotAt w.state.objects key i = some slot → slot.replicas = []

section Reports

variable {inner : Inner} {n : Node} {action : Action} {w' : World} {g' : Ghost} {t : ℕ}
  {th : PutThread}

/-- A `put` that went on without acquiring anything has not reported a slot written. -/
theorem not_follows_reported : ¬ Follows th (th.reported (.ok ())) := by
  intro hfollows
  rcases hfollows.results with ⟨hi, _⟩ | ⟨_, e, hresults⟩
  · exact absurd hi (Nat.succ_ne_self th.i)
  · change th.results ++ [.ok ()] = th.results ++ [.error e] at hresults
    cases List.singleton_injective (List.append_cancel_left hresults)

/-- A thread is not itself after a report. -/
theorem reported_ne (r : Result Unit) : th ≠ th.reported r := by
  intro heq
  exact absurd (congrArg PutThread.i heq) (Nat.succ_ne_self th.i).symm

/-- Only a store reports a slot written. -/
theorem Moves.of_reported {live : List PinnedBuf} (h : Moves inner n action w' g')
    (hsound : Sound n.world live) (hth : n.world.threads t = some th)
    (hreported : w'.threads t = some (th.reported (.ok ()))) :
    ∃ placed, th.pc = .store placed ∧
      ∀ t', t' ≠ t → w'.threads t' = n.world.threads t' := by
  -- a step of another thread, or of this one inside its slot, is not a report
  have hset : ∀ (w : World) t' th', w.threads = n.world.threads →
      (w.setThread t' th').threads t = some (th.reported (.ok ())) →
      t' = t ∧ th' = th.reported (.ok ()) := by
    intro w t' th' hthreads hsome
    rcases thread_of_setThread hsome with ⟨rfl, heq⟩ | ⟨_, hsame⟩
    · exact ⟨rfl, heq.symm⟩
    · rw [hthreads, hth] at hsame
      exact absurd (Option.some.inj hsame) (reported_ne _)
  cases h with
  | shed hshed =>
    obtain ⟨old, hold, hfollows⟩ := hshed.follows t _ hreported
    rw [hth] at hold
    cases hold
    exact absurd hfollows not_follows_reported
  | spilled _ _ hshed =>
    obtain ⟨old, hold, hfollows⟩ := hshed.follows t _ hreported
    change n.world.threads t = some old at hold
    rw [hth] at hold
    cases hold
    exact absurd hfollows not_follows_reported
  | began =>
    obtain ⟨heq, _⟩ := hset _ _ _ rfl hreported
    have hlt := hsound.below t th hth
    omega
  | allocated hth' =>
    obtain ⟨rfl, heq⟩ := hset _ _ _ rfl hreported
    rw [hth] at hth'
    cases hth'
    exact absurd (congrArg PutThread.i heq) (Nat.succ_ne_self _).symm
  | copied hth' =>
    obtain ⟨rfl, heq⟩ := hset _ _ _ rfl hreported
    rw [hth] at hth'
    cases hth'
    exact absurd (congrArg PutThread.i heq) (Nat.succ_ne_self _).symm
  | @stored t' _ th' placed st hth' hpc =>
    obtain ⟨rfl, _⟩ := hset _ _ _ rfl hreported
    rw [hth] at hth'
    cases hth'
    exact ⟨placed, hpc, fun other hne ↦ Function.update_of_ne hne _ _⟩
  | unclaimed hth' =>
    obtain ⟨rfl, heq⟩ := hset _ _ _ rfl hreported
    rw [hth] at hth'
    cases hth'
    have hresults : th.results ++ [.error _] = th.results ++ [.ok ()] :=
      congrArg PutThread.results heq
    cases List.singleton_injective (List.append_cancel_left hresults)

/-- An open claim was open before, or its slot had no replica. -/
theorem Moves.claimOpen {key : Key} {j : ℕ} (h : Moves inner n action w' g')
    (hopen : w'.ClaimOpen key j) : n.world.ClaimOpen key j ∨ n.world.Unwritten key j := by
  obtain ⟨t, th', hth', hkey, hunfinished⟩ := hopen
  have hset : ∀ {w : World} {t' : ℕ} {th : PutThread} {next : PutThread},
      (w.setThread t' next).threads t = some th' → w.threads = n.world.threads →
      n.world.threads t' = some th → next.key = th.key →
      (∀ j, next.Unfinished j → th.Unfinished j) → n.world.ClaimOpen key j := by
    intro w t' th next hsome hthreads hth hsame hstill
    rcases thread_of_setThread hsome with ⟨rfl, rfl⟩ | ⟨_, hother⟩
    · exact ⟨t, th, hth, by rw [← hsame, hkey], hstill j hunfinished⟩
    · rw [hthreads] at hother
      exact ⟨t, th', hother, hkey, hunfinished⟩
  have hfollow : ∀ {th}, n.world.threads t = some th → Follows th th' →
      n.world.ClaimOpen key j := fun hth hfollows ↦
    ⟨t, _, hth, by rw [← hfollows.key_eq, hkey], hunfinished.of_follows hfollows⟩
  cases h with
  | shed hshed =>
    obtain ⟨th, hth, hfollows⟩ := hshed.follows t th' hth'
    exact .inl (hfollow hth hfollows)
  | spilled _ _ hshed =>
    obtain ⟨th, hth, hfollows⟩ := hshed.follows t th' hth'
    exact .inl (hfollow hth hfollows)
  | allocated hth => exact .inl (hset hth' rfl hth rfl fun _ hstill ↦ hstill)
  | copied hth => exact .inl (hset hth' rfl hth rfl fun _ hstill ↦ hstill)
  | stored hth => exact .inl (hset hth' rfl hth rfl fun _ hstill ↦ hstill.of_reported.1)
  | unclaimed hth => exact .inl (hset hth' rfl hth rfl fun _ hstill ↦ hstill.of_reported.1)
  | began _ hclaim =>
    rcases thread_of_setThread hth' with ⟨_, rfl⟩ | ⟨_, hsame⟩
    · refine .inr fun slot hslot ↦ ?_
      rw [← hkey] at hslot
      rcases (claim_claimed hclaim).slotAt_of_before hslot with ⟨hfalse, _⟩ | ⟨_, _, rfl⟩
      · have htrue := hunfinished.2
        rw [hfalse] at htrue
        cases htrue
      · rfl
    · exact .inl ⟨t, th', hsame, hkey, hunfinished⟩

end Reports

/-! ### Runs -/

section Runs

variable {inner : Inner} {bytes : UInt16 → ℕ} {n n' : Node} {e : Event} {history : List Event}

/-- The runs of the statements below. -/
def calmBackend (inner : Inner) (bytes : UInt16 → ℕ) : System Node Event :=
  (backend inner bytes).restrict fun _ e ↦ e.Calm

/-- What holds in every state of such a run. -/
structure Orderly (n : Node) : Prop where
  incarnated : Incarnated n.world n.ghost
  present : Present n.world
  recorded : Recorded n.world n.ghost

theorem run_orderly (hrun : (calmBackend inner bytes).Run history n) : Orderly n := by
  apply run_invariant (I := Orderly) ?_ ?_ hrun
  · exact ⟨incarnated_start inner bytes, fun _ _ _ hth ↦ (by cases hth),
      run_recorded System.Run.nil⟩
  · intro n e n' live _ hsound _ hcalm horderly hstep
    have hmoves := hstep.moves hsound
    have halone := horderly.present.createsAlone e.action
    exact ⟨horderly.incarnated.moves hsound horderly.recorded halone hmoves,
      horderly.present.stepped horderly.incarnated hcalm hstep.stepped,
      horderly.recorded.moves hsound hmoves⟩

theorem calm_isStep (hrun : (calmBackend inner bytes).Run history n)
    (hstep : (calmBackend inner bytes).step n e n') : IsStep inner n e n' := by
  obtain ⟨live, hsound⟩ := run_sound hrun.of_restrict
  exact isStep_of_step hsound hstep.2

/-- A `put` that reports a slot written had it open, and then nobody has. -/
theorem ReportsOk.claims {key : Key} {i : ℕ} (h : ReportsOk n e n' key i)
    (hrun : (calmBackend inner bytes).Run history n)
    (hstep : (calmBackend inner bytes).step n e n') :
    n.world.ClaimOpen key i ∧ ¬ n'.world.ClaimOpen key i := by
  obtain ⟨t, outcome, th, _, hth, hkey, hi, hreported⟩ := h
  obtain ⟨live, hsound⟩ := run_sound hrun.of_restrict
  have hmoves := (calm_isStep hrun hstep).moves hsound
  obtain ⟨placed, hpc, hothers⟩ := hmoves.of_reported hsound hth hreported
  have hopen : th.Unfinished i := by
    rw [← hi]
    exact (hsound.paced t th hth).unfinished (by rw [hpc]; rfl)
  refine ⟨⟨t, th, hth, hkey, hopen⟩, fun hstill ↦ ?_⟩
  obtain ⟨t', th', hth', hkey', hopen'⟩ := hstill
  by_cases heq : t' = t
  · rw [heq, hreported] at hth'
    rw [← Option.some.inj hth'] at hopen'
    exact hopen'.of_reported.2 hi.symm
  · rw [hothers t' heq] at hth'
    apply heq
    exact (run_orderly hrun).incarnated.unique t' t th' th i hth' hth (hkey'.trans hkey.symm)
      hopen' hopen

/-- A step that does not remove leaves an object with a claimed slot where it is. -/
theorem specAt_of_claimed {mem : ByteSpace} {w w' : World} (hcalm : e.Calm)
    (hstep : Stepped inner mem w e.action (w', e.reply)) {key : Key} {j : ℕ} {slot : Slot}
    (hslot : slotAt w.state.objects key j = some slot) (hwriting : slot.writing = true) :
    specAt w'.state.objects key = specAt w.state.objects key := by
  have hlossy : ∀ after : Objects, Lossy w.state.objects after →
      KeepsClaims w.state.objects after → specAt after key = specAt w.state.objects key := by
    intro after hlossy hkeeps
    obtain ⟨slot', hslot', _⟩ := hkeeps key j slot hslot hwriting
    obtain ⟨spec, _, hspec, _⟩ := exists_slotSpec hslot'
    rw [hspec, hlossy.spec key spec hspec]
  obtain ⟨action, reply⟩ := e
  cases hstep with
  | shed _ hshed _ hkeeps => exact hlossy _ hshed.lossy (hkeeps hcalm.1)
  | @began key' op _ st _ hclaim =>
    have hclaimed := claim_claimed hclaim
    change specAt st.objects key = _
    by_cases heq : key' = key
    · obtain ⟨spec, _, hspec, _⟩ := exists_slotSpec hslot
      rw [← heq] at hspec ⊢
      rw [hclaimed.specAt_key, hspec, hclaimed.present spec hspec]
    · exact hclaimed.specAt_ne key heq
  | returned => rfl
  | advanced _ _ hadvanced =>
    cases hadvanced with
    | shed _ hshed _ hkeeps => exact hlossy _ hshed.lossy hkeeps
    | unwound => exact absurd rfl (hcalm.2 _)
    | allocated => rfl
    | copied => rfl
    | spilled _ _ _ _ hstate => rw [hstate]
    | stored _ hstore => exact (store_rewritten hstore).1.specAt_eq key
    | unclaimed _ hunclaim => exact (unclaim_rewritten hunclaim).specAt_eq key

/-- A `put` at its store section reports the slot written. -/
theorem store_reports (hrun : (calmBackend inner bytes).Run history n)
    (hstep : (calmBackend inner bytes).step n e n') {t : ℕ} {outcome : CopyOutcome}
    {th : PutThread} {placed : List Placed} (haction : e.action = .advance t outcome)
    (hth : n.world.threads t = some th) (hpc : th.pc = .store placed) :
    n'.world.threads t = some (th.reported (.ok ())) := by
  obtain ⟨live, hsound⟩ := run_sound hrun.of_restrict
  have hpaced := hsound.paced t th hth
  have hbusy : th.pc.busy = true := by rw [hpc]; rfl
  obtain ⟨ps, hps⟩ := hpaced.exists_slot hbusy
  obtain ⟨slot, hslot⟩ := (run_orderly hrun).present t th th.i hth (hpaced.unfinished hbusy)
  obtain ⟨obj, hfind, _⟩ := Option.bind_eq_some_iff.mp hslot
  have hexec := (calm_isStep hrun hstep).exec
  rw [haction] at hexec
  obtain ⟨_, hsome, heq⟩ := Option.map_eq_some_iff.mp hexec
  rw [hth] at hsome
  cases hsome
  have hadvance : n.world.advance inner n.mem t th outcome = n.world.store t th placed := by
    unfold World.advance World.advanceSlot
    rw [hps]
    dsimp only
    rw [hpc]
  have hresult : n.world.store t th placed = (n'.world, e.reply) := by
    rw [← hadvance]
    exact Prod.ext (congrArg (fun r ↦ r.1) heq) (congrArg (fun r ↦ r.2.2) heq)
  have hreturns := hstep.1.2
  unfold World.store World.locked at hresult
  split_ifs at hresult with hpoisoned
  · exact absurd (congrArg Prod.snd hresult).symm (hreturns _)
  · cases hsection : n.world.state.store th.key th.i placed with
    | error reason =>
      rw [hsection] at hresult
      exact absurd (congrArg Prod.snd hresult).symm (hreturns _)
    | ok r =>
      rw [hsection] at hresult
      cases r with
      | error err =>
        unfold State.store at hsection
        rw [hfind] at hsection
        obtain ⟨_, _, hrest⟩ := bind_eq_ok.mp hsection
        obtain ⟨_, _, hlast⟩ := bind_eq_ok.mp hrest
        cases hlast
      | ok st =>
        have hworld : { n.world with state := st }.setThread t (th.reported (.ok ())) = n'.world :=
          congrArg Prod.fst hresult
        rw [← hworld]
        exact Function.update_self ..

/-- Without removals and panics: two `put`s that report a slot written have a state in between in
which it has no replica; all replicas of a slot that the store owns are of one `put`; an object with
a claimed slot is never reclaimed; and a store section always finds its object. -/
theorem claims_write_once (hrun : (calmBackend inner bytes).Run history n) :
    (∀ e₁ n₁ later n₂ e₂ n₃ key i, (calmBackend inner bytes).step n e₁ n₁ →
      ReportsOk n e₁ n₁ key i → (calmBackend inner bytes).Steps n₁ later n₂ →
      (calmBackend inner bytes).step n₂ e₂ n₃ → ReportsOk n₂ e₂ n₃ key i →
        ∃ first second m, later = first ++ second ∧ (calmBackend inner bytes).Steps n₁ first m ∧
          (calmBackend inner bytes).Steps m second n₂ ∧ m.world.Unwritten key i) ∧
      (∀ key i slot, slotAt n.world.state.objects key i = some slot →
        ∃ p, ∀ b ∈ bufsOf slot.replicas, n.ghost.writer b.id = some (p, i)) ∧
      (∀ e n' key i slot, (calmBackend inner bytes).step n e n' →
        slotAt n.world.state.objects key i = some slot → slot.writing = true →
          specAt n'.world.state.objects key = specAt n.world.state.objects key) ∧
      ∀ e n' t outcome th placed, (calmBackend inner bytes).step n e n' →
        e.action = .advance t outcome → n.world.threads t = some th → th.pc = .store placed →
          n'.world.threads t = some (th.reported (.ok ())) := by
  refine ⟨?_, ?_, ?_, ?_⟩
  · intro e₁ n₁ later n₂ e₂ n₃ key i hfirst hreport hsteps hsecond hreport'
    have hrun₁ := hrun.snoc hfirst
    have hrun₂ : (calmBackend inner bytes).Run (history ++ [e₁] ++ later) n₂ := hrun₁.append hsteps
    have hclosed := (hreport.claims hrun hfirst).2
    have hopen := (hreport'.claims hrun₂ hsecond).1
    apply hsteps.exists_of_lost (P := fun m ↦ ¬ m.world.ClaimOpen key i) hclosed (not_not.mpr hopen)
    intro first a label b hpart ha hstep
    have hruna : (calmBackend inner bytes).Run (history ++ [e₁] ++ first) a := hrun₁.append hpart
    obtain ⟨live, hsound⟩ := run_sound hruna.of_restrict
    have hmoves := (calm_isStep hruna hstep).moves hsound
    by_cases hb : b.world.ClaimOpen key i
    · exact .inr ((hmoves.claimOpen hb).resolve_left ha)
    · exact .inl hb
  · intro key i slot hslot
    have hincarnated := (run_orderly hrun).incarnated
    cases hbufs : bufsOf slot.replicas with
    | nil => exact ⟨0, fun _ hb ↦ absurd hb List.not_mem_nil⟩
    | cons b rest =>
      have hmem : b ∈ bufsOf slot.replicas := by
        rw [hbufs]
        exact List.mem_cons_self
      obtain ⟨p, _, hwriter, _⟩ := hincarnated.stored key i slot b hslot hmem
      refine ⟨p, fun b' hb' ↦ ?_⟩
      rw [← hbufs] at hb'
      rw [hincarnated.together key i slot b' b hslot hb' hmem, hwriter]
  · intro e n' key i slot hstep hslot hwriting
    exact specAt_of_claimed hstep.1 (calm_isStep hrun hstep).stepped hslot hwriting
  · intro e n' t outcome th placed hstep haction hth hpc
    exact store_reports hrun hstep haction hth hpc

end Runs

namespace Scenario

/-- A check of `Event.Calm`. -/
def calm (e : Event) : Bool := e.quiet && !e.action.removes

theorem calm_sound {e : Event} (h : calm e = true) : e.Calm := by
  obtain ⟨hquiet, hkeeps⟩ := (Bool.and_eq_true _ _).mp h
  exact ⟨(Bool.not_eq_true' _).mp hkeeps, returns_of_quiet hquiet⟩

theorem calm_steps {inner : Inner} {bytes : UInt16 → ℕ} (actions : List Action) {n n' : Node}
    {history : List Event} (h : replay (Node.next inner) actions n = some (history, n'))
    (hcalm : history.all calm = true) : (calmBackend inner bytes).Steps n history n' :=
  (steps_of_actions actions h).restrict_of_forall fun e he _ ↦
    calm_sound (List.all_eq_true.mp hcalm e he)

/-- A `put` is about to store a slot. -/
def storing (n : Node) (t : ℕ) (key : Key) (i : ℕ) : Bool :=
  (n.world.threads t).any fun th ↦ decide (th.key = key ∧ th.i = i) &&
    match th.pc with
    | .store _ => true
    | _ => false

theorem reportsOk_of_storing {inner : Inner} {bytes : UInt16 → ℕ} {history : List Event}
    {n n' : Node} {e : Event} {t : ℕ} {outcome : CopyOutcome} {key : Key} {i : ℕ}
    (h : storing n t key i = true) (hrun : (calmBackend inner bytes).Run history n)
    (hstep : (calmBackend inner bytes).step n e n') (haction : e.action = .advance t outcome) :
    ReportsOk n e n' key i := by
  obtain ⟨th, hth, hfields⟩ := (Option.any_eq_true _ _).mp h
  obtain ⟨hplace, hpc⟩ := (Bool.and_eq_true _ _).mp hfields
  obtain ⟨hkey, hi⟩ := of_decide_eq_true hplace
  refine ⟨t, outcome, th, haction, hth, hkey, hi, ?_⟩
  split at hpc
  · next placed hstore => exact store_reports hrun hstep haction hth hstore
  · cases hpc

/-- One slot, on the only pool. -/
def oneSlot : OpPut := ⟨.cache, [slotOn (.strict (.cpu 0)) 1]⟩

/-- Two such slots. -/
def twoSlots : OpPut := ⟨.cache, [slotOn (.strict (.cpu 0)) 1, slotOn (.strict (.cpu 0)) 1]⟩

/-- Three `put`s in turns, up to the store of the first one: the second one asks for the slot that
the first one has claimed, the third one writes another key. -/
def untilStore : List Action :=
  .beginPut key oneSlot :: advance 0 2 ++ [.beginPut key oneSlot, .beginPut [2] twoSlots] ++
    advance 2 2 ++ advance 1 2 ++ advance 0 3

/-- From there to the next store of the slot: the third `put` evicts it, and a fourth one, which
begins before the third one is over, writes it again. -/
def untilNextStore : List Action :=
  advance 0 1 ++ advance 2 9 ++ .beginPut key oneSlot :: advance 3 1 ++ advance 2 4 ++ advance 3 6

/-- The two `put`s that report the slot written have a state between them in which it was empty
again. -/
theorem claims_write_once_evicted_between : ∃ history n e₁ n₁ later n₂ e₂ n₃ first m,
    (calmBackend inner bytes).Run history n ∧ ReportsOk n e₁ n₁ key 0 ∧
      (calmBackend inner bytes).Steps n₁ later n₂ ∧ ReportsOk n₂ e₂ n₃ key 0 ∧
      (calmBackend inner bytes).Steps n₁ first m ∧ m.world.Unwritten key 0 := by
  have hreplay : (replay (Node.next inner) untilStore (backend inner bytes).start).any (fun r ↦
      r.1.all calm && storing r.2 0 key 0 &&
      (r.2.next inner (.advance 0 .done)).any fun q ↦ calm q.1 &&
        (replay (Node.next inner) untilNextStore q.2).any fun s ↦
          s.1.all calm && storing s.2 3 key 0 &&
          (s.2.next inner (.advance 3 .done)).any fun u ↦ calm u.1) = true := by
    decide +kernel
  obtain ⟨⟨history, n⟩, hhistory, hcheck⟩ := (Option.any_eq_true _ _).mp hreplay
  simp only [Bool.and_eq_true] at hcheck
  obtain ⟨⟨hcalm, hstoring⟩, hnext⟩ := hcheck
  obtain ⟨⟨e₁, n₁⟩, hfirst, hcheck⟩ := (Option.any_eq_true _ _).mp hnext
  simp only [Bool.and_eq_true] at hcheck
  obtain ⟨hcalm₁, hlater⟩ := hcheck
  obtain ⟨⟨later, n₂⟩, hreplay₂, hcheck⟩ := (Option.any_eq_true _ _).mp hlater
  simp only [Bool.and_eq_true] at hcheck
  obtain ⟨⟨hcalm₂, hstoring₂⟩, hlast⟩ := hcheck
  obtain ⟨⟨e₂, n₃⟩, hsecond, hcalm₃⟩ := (Option.any_eq_true _ _).mp hlast
  have hrun : (calmBackend inner bytes).Run history n := calm_steps untilStore hhistory hcalm
  have hstep₁ : (calmBackend inner bytes).step n e₁ n₁ :=
    ⟨calm_sound hcalm₁, step_of_next hfirst⟩
  have hsteps : (calmBackend inner bytes).Steps n₁ later n₂ :=
    calm_steps untilNextStore hreplay₂ hcalm₂
  have hstep₂ : (calmBackend inner bytes).step n₂ e₂ n₃ :=
    ⟨calm_sound hcalm₃, step_of_next hsecond⟩
  have hreport₁ := reportsOk_of_storing hstoring hrun hstep₁ (action_of_next hfirst)
  have hrun₂ : (calmBackend inner bytes).Run (history ++ [e₁] ++ later) n₂ :=
    (hrun.snoc hstep₁).append hsteps
  have hreport₂ := reportsOk_of_storing hstoring₂ hrun₂ hstep₂ (action_of_next hsecond)
  obtain ⟨first, _, m, _, hm, _, hempty⟩ := (claims_write_once hrun).1 e₁ n₁ later n₂ e₂ n₃ key 0
    hstep₁ hreport₁ hsteps hstep₂ hreport₂
  exact ⟨history, n, e₁, n₁, later, n₂, e₂, n₃, first, m, hrun, hreport₁, hsteps, hreport₂, hm,
    hempty⟩

end Scenario

end Pegastore.Local
