import Pegastore.Cuda.Backend

/-!
# No slot stays claimed

The flag of a slot is set for all slots of a `put` at once and cleared slot by slot, by the section
that stores a slot and by the one that gives a failed slot back. Each of them finds its object again
by key, so the object may be another one by then. What survives that is weaker than "the flag is
set by a `put` in flight": a slot that is flagged has a `put` of its key in flight that has claimed
a slot of this index and not reported it yet (`Flagged`). It is kept by every step that does not
panic, and it is enough: without a `put` in flight no flag is set.
-/

set_option autoImplicit false
set_option relaxedAutoImplicit false

namespace Pegastore.Local

open Outcome ByteMemory Transition

/-- The `put` has claimed slot `j` and not reported it yet. -/
def PutThread.Unfinished (th : PutThread) (j : ℕ) : Prop :=
  th.i ≤ j ∧ th.writable[j]? = some true

/-- A `put` in flight has claimed slot `j` of its object under `key` and not reported it yet. -/
def World.ClaimOpen (w : World) (key : Key) (j : ℕ) : Prop :=
  ∃ t th, w.threads t = some th ∧ th.key = key ∧ th.Unfinished j

/-- Every flag belongs to a claim that is open. -/
def Flagged (w : World) : Prop :=
  ∀ key j slot, slotAt w.state.objects key j = some slot → slot.writing = true → w.ClaimOpen key j

/-- The step did not panic. -/
def Event.returns (e : Event) : Prop := ∀ reason, e.reply ≠ .panicked reason

/-- `returns`, to be evaluated. -/
def Event.quiet (e : Event) : Bool :=
  match e.reply with
  | .panicked _ => false
  | _ => true

theorem returns_of_quiet {e : Event} (h : e.quiet = true) : e.returns := by
  intro reason hreply
  unfold Event.quiet at h
  rw [hreply] at h
  cases h

section Open

variable {w w' : World} {t : ℕ} {th th' : PutThread} {key : Key} {j : ℕ}

theorem PutThread.Unfinished.follows (h : th.Unfinished j) (hfollows : Follows th th') :
    th'.Unfinished j := by
  refine ⟨?_, by rw [hfollows.writable_eq]; exact h.2⟩
  rcases hfollows.next with heq | ⟨heq, hskip⟩
  · rw [heq]
    exact h.1
  · -- the slot skipped was not claimed, so it is another one
    have hne : th.i ≠ j := by
      intro hsame
      rw [hsame, h.2] at hskip
      cases hskip
    have hle := h.1
    omega

theorem World.ClaimOpen.alive (h : w.ClaimOpen key j) (halive : Alive w w') :
    w'.ClaimOpen key j := by
  obtain ⟨t, th, hth, hkey, hopen⟩ := h
  obtain ⟨th', hth', hfollows⟩ := halive t th hth
  exact ⟨t, th', hth', hfollows.key_eq.trans hkey, hopen.follows hfollows⟩

/-- One thread went on and still has the slot open. -/
theorem World.ClaimOpen.setThread (h : w.ClaimOpen key j)
    (hself : ∀ th, w.threads t = some th → th.key = key → th.Unfinished j →
      th'.key = key ∧ th'.Unfinished j)
    (hthreads : w'.threads = Function.update w.threads t (some th')) : w'.ClaimOpen key j := by
  obtain ⟨t', other, hother, hkey, hopen⟩ := h
  by_cases heq : t' = t
  · subst heq
    obtain ⟨hkey', hopen'⟩ := hself other hother hkey hopen
    exact ⟨t', th', by rw [hthreads, Function.update_self], hkey', hopen'⟩
  · exact ⟨t', other, by rw [hthreads, Function.update_of_ne heq]; exact hother, hkey, hopen⟩

/-- A `put` that reports its slot has the others still open. -/
theorem World.ClaimOpen.reported (h : w.ClaimOpen key j) (hth : w.threads t = some th)
    (hne : ¬ (key = th.key ∧ j = th.i)) (r : Result Unit)
    (hthreads : w'.threads = Function.update w.threads t (some (th.reported r))) :
    w'.ClaimOpen key j := by
  refine h.setThread (fun other hother hkey hopen ↦ ?_) hthreads
  rw [hth] at hother
  cases hother
  refine ⟨hkey, ?_, hopen.2⟩
  have hle := hopen.1
  have hj : j ≠ th.i := fun hj ↦ hne ⟨hkey.symm, hj⟩
  change th.i + 1 ≤ j
  omega

end Open

section Flagged

variable {inner : Inner} {mem : ByteSpace} {w w' : World} {live : List PinnedBuf}

/-- The metadata lost things, and every open claim is still open. -/
theorem Flagged.lossy (h : Flagged w) (hlossy : Lossy w.state.objects w'.state.objects)
    (hopen : ∀ key j, w.ClaimOpen key j → w'.ClaimOpen key j) : Flagged w' := by
  intro key j slot hslot hwriting
  obtain ⟨old, hold, hflag, _⟩ := hlossy.slot key j slot hslot
  exact hopen key j (h key j old hold (hflag.symm.trans hwriting))

/-- A `put` cleared the flag of its slot and reported it. -/
theorem Flagged.cleared (h : Flagged w) {t : ℕ} {th : PutThread} {r : Result Unit} {st : State}
    {f : Slot → Slot} (hth : w.threads t = some th)
    (hrewritten : Rewritten w.state.objects th.key th.i f st.objects)
    (hclear : ∀ s, (f s).writing = false) :
    Flagged ({ w with state := st }.setThread t (th.reported r)) := by
  intro key j slot hslot hwriting
  by_cases heq : key = th.key ∧ j = th.i
  · rw [heq.1, heq.2] at hslot
    change slotAt st.objects th.key th.i = some slot at hslot
    rw [hrewritten.slotAt_self] at hslot
    obtain ⟨old, _, rfl⟩ := Option.map_eq_some_iff.mp hslot
    rw [hclear] at hwriting
    cases hwriting
  · change slotAt st.objects key j = some slot at hslot
    rw [hrewritten.slotAt_ne key j heq] at hslot
    exact (h key j slot hslot hwriting).reported hth heq r rfl

theorem Flagged.began (h : Flagged w) (hsound : Sound w live) {key : Key} {op : OpPut}
    {writable : List Bool} {st : State} (hclaim : w.state.claim key op.spec = .ok (writable, st)) :
    Flagged ({ w with state := st, nextPut := w.nextPut + 1 }.setThread w.nextPut
      ⟨key, op, writable, 0, [], .slot⟩) := by
  have hclaimed := claim_claimed hclaim
  -- the claims that were open are those of other threads
  have hopen : ∀ other j, w.ClaimOpen other j →
      ({ w with state := st, nextPut := w.nextPut + 1 }.setThread w.nextPut
        ⟨key, op, writable, 0, [], .slot⟩).ClaimOpen other j := by
    intro other j hold
    refine hold.setThread (fun th hth ↦ ?_) rfl
    exact absurd (hsound.below w.nextPut th hth) (lt_irrefl _)
  intro other j slot hslot hwriting
  change slotAt st.objects other j = some slot at hslot
  by_cases heq : key = other
  · subst heq
    rcases hclaimed.slotAt_key j slot hslot with ⟨_, hsame⟩ | ⟨hclaims, _, _⟩
    · exact hopen key j (h key j slot hsame hwriting)
    · exact ⟨w.nextPut, _, Function.update_self .., rfl, Nat.zero_le j, hclaims⟩
  · rw [hclaimed.slotAt_ne other j heq] at hslot
    exact hopen other j (h other j slot hslot hwriting)

theorem Flagged.advanced (h : Flagged w) {t : ℕ} {th : PutThread} {ps : PutSlot}
    {outcome : CopyOutcome} {r : Reply} (hth : w.threads t = some th)
    (hreturns : ∀ reason, r ≠ .panicked reason)
    (hadvanced : Advanced inner mem w t th ps outcome (w', r)) : Flagged w' := by
  -- a thread that stays on its slot keeps its claims
  have hstays : ∀ pc, ∀ key j, w.ClaimOpen key j →
      (w.setThread t { th with pc := pc }).ClaimOpen key j := by
    intro pc key j hopen
    refine hopen.setThread (fun other hother hkey hunfinished ↦ ?_) rfl
    rw [hth] at hother
    cases hother
    exact ⟨hkey, hunfinished⟩
  cases hadvanced with
  | shed _ hshed halive => exact h.lossy hshed.lossy fun key j hopen ↦ hopen.alive halive
  | unwound => exact absurd rfl (hreturns _)
  | allocated => exact h.lossy (Lossy.refl _) (hstays _)
  | copied => exact h.lossy (Lossy.refl _) (hstays _)
  | spilled _ _ _ halive hstate =>
    refine h.lossy ?_ fun key j hopen ↦ hopen.alive halive
    rw [hstate]
    exact Lossy.refl _
  | stored _ hstore => exact h.cleared hth (store_rewritten hstore).1 fun _ ↦ rfl
  | unclaimed _ hunclaim => exact h.cleared hth (unclaim_rewritten hunclaim) fun _ ↦ rfl

/-- A `put` that returns has no claim open. -/
theorem Flagged.returned (h : Flagged w) (hsound : Sound w live) {t : ℕ} {th : PutThread}
    (hth : w.threads t = some th) (hend : th.op.slots[th.i]? = none) : Flagged (w.endThread t) := by
  refine h.lossy (Lossy.refl _) fun key j ⟨t', other, hother, hkey, hopen⟩ ↦ ?_
  have hne : t' ≠ t := by
    intro heq
    rw [heq, hth] at hother
    cases hother
    have hlt := (List.getElem?_eq_some_iff.mp hopen.2).1
    rw [(hsound.paced t th hth).length_eq] at hlt
    have hle := List.getElem?_eq_none_iff.mp hend
    have hij := hopen.1
    omega
  refine ⟨t', other, ?_, hkey, hopen⟩
  change Function.update w.threads t none t' = some other
  rw [Function.update_of_ne hne]
  exact hother

theorem Flagged.stepped (h : Flagged w) (hsound : Sound w live) {action : Action} {r : Reply}
    (hreturns : ∀ reason, r ≠ .panicked reason) (hstep : Stepped inner mem w action (w', r)) :
    Flagged w' := by
  cases hstep with
  | shed _ hshed halive => exact h.lossy hshed.lossy fun key j hopen ↦ hopen.alive halive
  | began _ hclaim => exact h.began hsound hclaim
  | advanced hth _ hadvanced => exact h.advanced hth hreturns hadvanced
  | returned hth hend => exact h.returned hsound hth hend

end Flagged

/-! ### Runs -/

section Runs

variable {inner : Inner} {bytes : UInt16 → ℕ}

/-- Steps that do not panic leave the lock healthy and every flag with an open claim. -/
theorem run_flagged {history : List Event} {n : Node}
    (hrun : ((backend inner bytes).restrict fun _ e ↦ e.returns).Run history n) :
    n.world.poisoned = false ∧ Flagged n.world := by
  refine run_invariant (I := fun n ↦ n.world.poisoned = false ∧ Flagged n.world)
    ⟨rfl, fun _ _ _ hslot ↦ by cases hslot⟩ ?_ hrun
  intro n e n' live live' hsound _ hreturns ⟨hlock, hflagged⟩ hstep
  exact ⟨(hstep.stepped.poisoned_eq hreturns).trans hlock,
    hflagged.stepped hsound hreturns hstep.stepped⟩

/-- A `put` with the spec of a present object begins, and claims every slot without replica and
flag. -/
theorem exists_beginPut {n : Node} {key : Key} {op : OpPut} {j : ℕ}
    (hlock : n.world.poisoned = false) (hvalid : op.validate = .ok ())
    (hspec : specAt n.world.state.objects key = some op.spec)
    (hslot : slotAt n.world.state.objects key j = some ⟨[], false⟩) :
    ∃ n' th, (backend inner bytes).step n ⟨.beginPut key op, .running⟩ n' ∧
      n'.world.threads n.world.nextPut = some th ∧ th.key = key ∧ th.op = op ∧
      th.Unfinished j := by
  obtain ⟨obj, hfind, hobj⟩ := Option.map_eq_some_iff.mp hspec
  have hentry : n.world.state.entry key op.spec = obj := by
    unfold State.entry
    rw [hfind]
    rfl
  have hget : obj.slots[j]? = some ⟨[], false⟩ := by
    rw [← slotAt_of_find? hfind, hslot]
  let writable := obj.slots.map Slot.claimable
  let st : State := { n.world.state with
    objects := n.world.state.objects.insert key (obj.mapSlots Slot.claim) }
  let w' : World := { n.world with state := st, nextPut := n.world.nextPut + 1 }.setThread
    n.world.nextPut ⟨key, op, writable, 0, [], .slot⟩
  have hclaim : n.world.state.claim key op.spec = .ok (writable, st) := by
    unfold State.claim
    rw [hentry]
    exact if_neg (not_not.mpr hobj)
  have hbegin : n.world.beginPut key op = (w', .running) := by
    unfold World.beginPut
    rw [hvalid]
    dsimp only
    rw [World.section_ok hlock, hclaim]
  refine ⟨⟨w', n.mem, n.ghost.record n.world w' n.mem (.beginPut key op)⟩,
    ⟨key, op, writable, 0, [], .slot⟩, ?_, Function.update_self .., rfl, rfl, Nat.zero_le j, ?_⟩
  · change ((some (keepMem n.mem (n.world.beginPut key op))).map _ : Option (Node × Reply)) = _
    rw [hbegin]
    rfl
  · change (obj.slots.map Slot.claimable)[j]? = some true
    rw [List.getElem?_map, hget]
    rfl

/-- Whatever the operations in flight did, and wherever a `put` failed: as long as nothing panicked,
once no `put` is in flight no slot is claimed, and a slot without replica is claimed by the next
`put` of the same spec. -/
theorem no_claim_when_idle {history : List Event} {n : Node}
    (hrun : ((backend inner bytes).restrict fun _ e ↦ e.returns).Run history n)
    (hidle : ∀ t, n.world.threads t = none) :
    (∀ key j slot, slotAt n.world.state.objects key j = some slot → slot.writing = false) ∧
      ∀ key j slot op, slotAt n.world.state.objects key j = some slot → slot.replicas = [] →
        specAt n.world.state.objects key = some op.spec → op.validate = .ok () →
          ∃ n' th, (backend inner bytes).step n ⟨.beginPut key op, .running⟩ n' ∧
            n'.world.threads n.world.nextPut = some th ∧ th.key = key ∧ th.op = op ∧
            th.Unfinished j := by
  obtain ⟨hlock, hflagged⟩ := run_flagged hrun
  have hclear : ∀ key j slot, slotAt n.world.state.objects key j = some slot →
      slot.writing = false := by
    intro key j slot hslot
    refine Bool.eq_false_of_not_eq_true fun hwriting ↦ ?_
    obtain ⟨t, th, hth, _⟩ := hflagged key j slot hslot hwriting
    rw [hidle t] at hth
    cases hth
  refine ⟨hclear, fun key j slot op hslot hempty hspec hvalid ↦ ?_⟩
  refine exists_beginPut hlock hvalid hspec ?_
  have hwriting := hclear key j slot hslot
  rw [hslot, ← hempty, ← hwriting]

open Scenario in
/-- A `put` of two slots: the copy of the first fails, the second lands. -/
theorem no_claim_when_idle_half_landed : ∃ history n,
    ((backend Scenario.inner Scenario.bytes).restrict fun _ e ↦ e.returns).Run history n ∧
      (∀ t, n.world.threads t = none) ∧
      (slotAt n.world.state.objects key 0).map Slot.replicas = some [] ∧
      ∀ j slot, slotAt n.world.state.objects key j = some slot → slot.writing = false := by
  let op : OpPut := ⟨.cache, [slotOn (.strict (.cpu 0)) 1, slotOn .anywhere 2]⟩
  let failure : CopyOutcome := .failed (Error.new .unexpected "copy failed") []
  let actions : List Action := .beginPut key op :: advance 0 3 ++ .advance 0 failure :: advance 0 8
  have hreplay : (replay (Node.next Scenario.inner) actions
      (backend Scenario.inner Scenario.bytes).start).any (fun r ↦
        r.1.all Event.quiet && r.2.world.idle &&
        decide ((slotAt r.2.world.state.objects key 0).map Slot.replicas = some [])) = true := by
    decide +kernel
  obtain ⟨⟨history, n⟩, hsome, hcheck⟩ := (Option.any_eq_true _ _).mp hreplay
  simp only [Bool.and_eq_true, decide_eq_true_eq] at hcheck
  obtain ⟨⟨hreturns, hidle⟩, hempty⟩ := hcheck
  have hsteps : (backend Scenario.inner Scenario.bytes).Steps _ history n :=
    steps_of_actions actions hsome
  obtain ⟨live, hsound⟩ := run_sound hsteps
  have hnone := hsound.threads_of_idle hidle
  have hrun : ((backend Scenario.inner Scenario.bytes).restrict fun _ e ↦ e.returns).Run
      history n :=
    hsteps.restrict_of_forall fun e he _ ↦ returns_of_quiet (List.all_eq_true.mp hreturns e he)
  exact ⟨history, n, hrun, hnone, hempty, (no_claim_when_idle hrun hnone).1 key⟩

end Runs

end Pegastore.Local
