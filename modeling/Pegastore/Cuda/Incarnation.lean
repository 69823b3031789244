import Pegastore.Cuda.Get
import Pegastore.Cuda.Provenance

/-!
# Which object a `put` writes to

A `put` claims slots of the object under its key, lets go of the lock and finds the object again by
key when it stores. If the object was removed in between and another `put` has created a new one
under the key, the store goes to the new object: the replica may have the wrong length, the flag of
the other `put` is cleared, and a store of a slot that the new object does not have panics.

`Incarnated` is what holds when a key without an object is only put to while no claim of an earlier
`put` of it is open (`CreatesAlone`): at most one `put` has a slot open, the object of an open claim
is the one that was claimed, and every stored buffer belongs to the present object.
-/

set_option autoImplicit false
set_option relaxedAutoImplicit false

namespace Pegastore.Local

open Outcome ByteMemory Transition

/-- A `put` under a key without an object begins only while no claim under the key is open. -/
def CreatesAlone (w : World) (action : Action) : Prop :=
  ∀ key op, action = .beginPut key op → w.state.objects.find? key = none →
    ∀ j, ¬ w.ClaimOpen key j

/-- Open claims are exclusive and about the present object, and so are stored buffers. -/
structure Incarnated (w : World) (g : Ghost) : Prop where
  unique : ∀ t t' th th' j, w.threads t = some th → w.threads t' = some th' → th.key = th'.key →
    th.Unfinished j → th'.Unfinished j → t = t'
  current : ∀ t th j c spec, w.threads t = some th → th.Unfinished j → g.claims t = some c →
    specAt w.state.objects th.key = some spec → c.spec = spec ∧ c.incarnation = g.birth th.key
  owns : ∀ t th j slot, w.threads t = some th → th.Unfinished j →
    slotAt w.state.objects th.key j = some slot →
      slot.writing = true ∧ bufsOf slot.replicas = [] ∧ g.claimant th.key j = some t
  stored : ∀ key j slot b, slotAt w.state.objects key j = some slot → b ∈ bufsOf slot.replicas →
    ∃ p c, g.writer b.id = some (p, j) ∧ g.claims p = some c ∧ p < w.nextPut ∧ c.key = key ∧
      specAt w.state.objects key = some c.spec ∧ c.incarnation = g.birth key
  together : ∀ key j slot b b', slotAt w.state.objects key j = some slot →
    b ∈ bufsOf slot.replicas → b' ∈ bufsOf slot.replicas → g.writer b.id = g.writer b'.id

section Unfinished

variable {th th' : PutThread} {j : ℕ}

/-- Going on opens no claim. -/
theorem PutThread.Unfinished.of_follows (h : th'.Unfinished j) (hfollows : Follows th th') :
    th.Unfinished j := ⟨le_trans hfollows.le h.1, by rw [← hfollows.writable_eq]; exact h.2⟩

/-- Reporting opens no claim. -/
theorem PutThread.Unfinished.of_reported {r : Result Unit} (h : (th.reported r).Unfinished j) :
    th.Unfinished j ∧ j ≠ th.i := by
  have hle : th.i + 1 ≤ j := h.1
  exact ⟨⟨by omega, h.2⟩, by omega⟩

/-- The slot a `put` is inside of is one it has open. -/
theorem PutThread.Paced.unfinished (h : th.Paced) (hbusy : th.pc.busy = true) :
    th.Unfinished th.i := ⟨le_refl _, h.claimed hbusy⟩

end Unfinished

section Incarnated

variable {w w' : World} {g g' : Ghost} {live : List PinnedBuf} {t : ℕ} {th : PutThread}

/-- Nothing was acquired. -/
theorem Incarnated.shed (h : Incarnated w g) (hlossy : Lossy w.state.objects w'.state.objects)
    (hfollows : ∀ t th', w'.threads t = some th' → ∃ th, w.threads t = some th ∧ Follows th th')
    (hnextPut : w'.nextPut = w.nextPut) (hbirth : g'.birth = g.birth)
    (hclaimant : g'.claimant = g.claimant) (hwriter : g'.writer = g.writer)
    (hclaims : g'.claims = g.claims) : Incarnated w' g' where
  unique := by
    intro t t' th' other' j hth' hother' hkey hopen hopen'
    obtain ⟨th, hth, hstep⟩ := hfollows t th' hth'
    obtain ⟨other, hother, hstep'⟩ := hfollows t' other' hother'
    refine h.unique t t' th other j hth hother ?_ (hopen.of_follows hstep)
      (hopen'.of_follows hstep')
    rw [← hstep.key_eq, ← hstep'.key_eq, hkey]
  current := by
    intro t th' j c spec hth' hopen hc hspec
    obtain ⟨th, hth, hstep⟩ := hfollows t th' hth'
    rw [hstep.key_eq] at hspec ⊢
    rw [hbirth]
    rw [hclaims] at hc
    exact h.current t th j c spec hth (hopen.of_follows hstep) hc (hlossy.spec _ _ hspec)
  owns := by
    intro t th' j slot hth' hopen hslot
    obtain ⟨th, hth, hstep⟩ := hfollows t th' hth'
    rw [hstep.key_eq] at hslot ⊢
    obtain ⟨old, hold, hflag, hbufs⟩ := hlossy.slot _ _ _ hslot
    obtain ⟨hwriting, hempty, hclaim⟩ := h.owns t th j old hth (hopen.of_follows hstep) hold
    rw [hempty] at hbufs
    rw [hclaimant]
    exact ⟨hflag.trans hwriting, List.sublist_nil.mp hbufs, hclaim⟩
  stored := by
    intro key j slot b hslot hb
    obtain ⟨old, hold, _, hbufs⟩ := hlossy.slot _ _ _ hslot
    obtain ⟨p, c, hw, hc, hlt, hkey, hspec, hbirths⟩ := h.stored key j old b hold (hbufs.subset hb)
    obtain ⟨found, _, hfound, _⟩ := exists_slotSpec hslot
    rw [hlossy.spec _ _ hfound] at hspec
    rw [hwriter, hclaims, hnextPut, hbirth]
    exact ⟨p, c, hw, hc, hlt, hkey, hfound.trans hspec, hbirths⟩
  together := by
    intro key j slot b b' hslot hb hb'
    obtain ⟨old, hold, _, hbufs⟩ := hlossy.slot _ _ _ hslot
    rw [hwriter]
    exact h.together key j old b b' hold (hbufs.subset hb) (hbufs.subset hb')

/-- A thread went on inside its slot, and the metadata is as it was. -/
theorem Incarnated.goto (h : Incarnated w g) (hstate : w'.state = w.state)
    (hnextPut : w'.nextPut = w.nextPut) (hth : w.threads t = some th) {pc : Pc}
    (hthreads : w'.threads = Function.update w.threads t (some { th with pc := pc }))
    (hbirth : g'.birth = g.birth) (hclaimant : g'.claimant = g.claimant)
    (hwriter : ∀ b ∈ bufsIn w.state.objects, g'.writer b.id = g.writer b.id)
    (hclaims : g'.claims = g.claims) : Incarnated w' g' := by
  have hold : ∀ t' th', w'.threads t' = some th' → ∃ old, w.threads t' = some old ∧
      th'.key = old.key ∧ ∀ j, th'.Unfinished j → old.Unfinished j := by
    intro t' th' hth'
    rw [hthreads] at hth'
    rcases thread_of_setThread hth' with ⟨rfl, rfl⟩ | ⟨_, hsame⟩
    · exact ⟨th, hth, rfl, fun _ hopen ↦ hopen⟩
    · exact ⟨th', hsame, rfl, fun _ hopen ↦ hopen⟩
  have hmem : ∀ key j slot b, slotAt w.state.objects key j = some slot →
      b ∈ bufsOf slot.replicas → g'.writer b.id = g.writer b.id :=
    fun key j slot b hslot hb ↦ hwriter b (mem_bufsIn.mpr ⟨key, j, slot, hslot, hb⟩)
  constructor
  · intro t₁ t₂ th₁ th₂ j hth₁ hth₂ hkey hopen₁ hopen₂
    obtain ⟨old₁, hold₁, hkey₁, hstill₁⟩ := hold t₁ th₁ hth₁
    obtain ⟨old₂, hold₂, hkey₂, hstill₂⟩ := hold t₂ th₂ hth₂
    exact h.unique t₁ t₂ old₁ old₂ j hold₁ hold₂ (by rw [← hkey₁, ← hkey₂, hkey])
      (hstill₁ j hopen₁) (hstill₂ j hopen₂)
  · intro t₁ th₁ j c spec hth₁ hopen hc hspec
    obtain ⟨old, hsome, hkey, hstill⟩ := hold t₁ th₁ hth₁
    rw [hclaims] at hc
    rw [hstate, hkey] at hspec
    rw [hbirth, hkey]
    exact h.current t₁ old j c spec hsome (hstill j hopen) hc hspec
  · intro t₁ th₁ j slot hth₁ hopen hslot
    obtain ⟨old, hsome, hkey, hstill⟩ := hold t₁ th₁ hth₁
    rw [hstate, hkey] at hslot
    rw [hclaimant, hkey]
    exact h.owns t₁ old j slot hsome (hstill j hopen) hslot
  · intro key j slot b hslot hb
    rw [hstate] at hslot ⊢
    rw [hmem key j slot b hslot hb, hclaims, hnextPut, hbirth]
    exact h.stored key j slot b hslot hb
  · intro key j slot b b' hslot hb hb'
    rw [hstate] at hslot
    rw [hmem key j slot b hslot hb, hmem key j slot b' hslot hb']
    exact h.together key j slot b b' hslot hb hb'

/-- A `put` rewrote the slot it works on, which then holds only buffers of its own, and reported
it. -/
theorem Incarnated.rewritten (h : Incarnated w g) (hsound : Sound w live) (hrecorded : Recorded w g)
    {st : State} {f : Slot → Slot} {r : Result Unit} (hth : w.threads t = some th)
    (hbusy : th.pc.busy = true) (hrewritten : Rewritten w.state.objects th.key th.i f st.objects)
    (hnew : ∀ old b, slotAt w.state.objects th.key th.i = some old → b ∈ bufsOf (f old).replicas →
      b ∈ bufsOf old.replicas ∨ g.writer b.id = some (t, th.i)) :
    Incarnated ({ w with state := st }.setThread t (th.reported r)) g := by
  have hopen := (hsound.paced t th hth).unfinished hbusy
  -- the threads are those of before, and `t` has its slot no longer open
  have hold : ∀ t' th', ({ w with state := st }.setThread t (th.reported r)).threads t' = some th' →
      ∃ old, w.threads t' = some old ∧ th'.key = old.key ∧
        ∀ j, th'.Unfinished j → old.Unfinished j ∧ (t' = t → j ≠ th.i) := by
    intro t' th' hth'
    rcases thread_of_setThread hth' with ⟨rfl, rfl⟩ | ⟨hne, hsame⟩
    · exact ⟨th, hth, rfl, fun j hj ↦ ⟨hj.of_reported.1, fun _ ↦ hj.of_reported.2⟩⟩
    · exact ⟨th', hsame, rfl, fun j hj ↦ ⟨hj, fun heq ↦ absurd heq hne⟩⟩
  -- the buffers of the slot are those just stored
  have hown : ∀ slot b, slotAt st.objects th.key th.i = some slot → b ∈ bufsOf slot.replicas →
      g.writer b.id = some (t, th.i) := by
    intro slot b hslot hb
    rw [hrewritten.slotAt_self] at hslot
    obtain ⟨old, hsome, rfl⟩ := Option.map_eq_some_iff.mp hslot
    refine (hnew old b hsome hb).resolve_left fun hin ↦ ?_
    rw [(h.owns t th th.i old hth hopen hsome).2.1] at hin
    exact List.not_mem_nil hin
  constructor
  · intro t₁ t₂ th₁ th₂ j hth₁ hth₂ hkey hopen₁ hopen₂
    obtain ⟨old₁, hold₁, hkey₁, hstill₁⟩ := hold t₁ th₁ hth₁
    obtain ⟨old₂, hold₂, hkey₂, hstill₂⟩ := hold t₂ th₂ hth₂
    exact h.unique t₁ t₂ old₁ old₂ j hold₁ hold₂ (by rw [← hkey₁, ← hkey₂, hkey])
      (hstill₁ j hopen₁).1 (hstill₂ j hopen₂).1
  · intro t₁ th₁ j c spec hth₁ hopen₁ hc hspec
    obtain ⟨old, hsome, hkey, hstill⟩ := hold t₁ th₁ hth₁
    change specAt st.objects th₁.key = some spec at hspec
    rw [hrewritten.specAt_eq, hkey] at hspec
    rw [hkey]
    exact h.current t₁ old j c spec hsome (hstill j hopen₁).1 hc hspec
  · intro t₁ th₁ j slot hth₁ hopen₁ hslot
    obtain ⟨old, hsome, hkey, hstill⟩ := hold t₁ th₁ hth₁
    obtain ⟨hopen', hother⟩ := hstill j hopen₁
    have hne : ¬ (old.key = th.key ∧ j = th.i) := by
      intro ⟨hkeys, hj⟩
      rw [hj] at hopen'
      exact hother (h.unique t₁ t old th th.i hsome hth hkeys hopen' hopen) hj
    change slotAt st.objects th₁.key j = some slot at hslot
    rw [hkey, hrewritten.slotAt_ne _ _ hne] at hslot
    rw [hkey]
    exact h.owns t₁ old j slot hsome hopen' hslot
  · intro key j slot b hslot hb
    change slotAt st.objects key j = some slot at hslot
    change ∃ (p : ℕ) (c : Claim), _ ∧ _ ∧ _ ∧ _ ∧ specAt st.objects key = some c.spec ∧ _
    rw [hrewritten.specAt_eq]
    by_cases heq : key = th.key ∧ j = th.i
    · rw [heq.1, heq.2] at hslot ⊢
      obtain ⟨c, hc, hkey, _⟩ := (hrecorded.threads t th hth).claim
      obtain ⟨spec, _, hspec, _⟩ := exists_slotSpec hslot
      rw [hrewritten.specAt_eq] at hspec
      obtain ⟨hsame, hbirth⟩ := h.current t th th.i c spec hth hopen hc hspec
      exact ⟨t, c, hown slot b hslot hb, hc, hsound.below t th hth, hkey, hsame ▸ hspec, hbirth⟩
    · rw [hrewritten.slotAt_ne _ _ heq] at hslot
      exact h.stored key j slot b hslot hb
  · intro key j slot b b' hslot hb hb'
    change slotAt st.objects key j = some slot at hslot
    by_cases heq : key = th.key ∧ j = th.i
    · rw [heq.1, heq.2] at hslot
      rw [hown slot b hslot hb, hown slot b' hslot hb']
    · rw [hrewritten.slotAt_ne _ _ heq] at hslot
      exact h.together key j slot b b' hslot hb hb'

theorem Incarnated.stored_slot (h : Incarnated w g) (hsound : Sound w live)
    (hrecorded : Recorded w g) {placed : List Placed} {st : State} {r : Result Unit}
    (hth : w.threads t = some th) (hpc : th.pc = .store placed)
    (hstore : w.state.store th.key th.i placed = .ok (.ok st)) :
    Incarnated ({ w with state := st }.setThread t (th.reported r)) g := by
  refine h.rewritten hsound hrecorded hth (by rw [hpc]; rfl) (store_rewritten hstore).1 ?_
  intro old b _ hb
  change b ∈ bufsOf (old.replicas ++ pinnedReplicas placed) at hb
  rw [bufsOf_append, bufsOf_pinnedReplicas] at hb
  refine (List.mem_append.mp hb).imp_right fun hin ↦ ?_
  refine ((hrecorded.threads t th hth).taken b ?_).1
  unfold PutThread.bufs
  rw [hpc]
  exact hin

theorem Incarnated.unclaimed (h : Incarnated w g) (hsound : Sound w live)
    (hrecorded : Recorded w g) {st : State} {e : Error} {r : Result Unit}
    (hth : w.threads t = some th) (hpc : th.pc = .failed e)
    (hunclaim : w.state.unclaim th.key th.i = .ok st) :
    Incarnated ({ w with state := st }.setThread t (th.reported r)) g :=
  h.rewritten hsound hrecorded hth (by rw [hpc]; rfl) (unclaim_rewritten hunclaim)
    fun _ _ _ hb ↦ .inl hb

/-- The object created last under a key that has one is the present one. -/
theorem Ghost.claim_birth_present {key other : Key} {op : OpPut}
    (h : key = other → w.state.objects.find? key ≠ none) :
    (g.claim w key op).birth other = g.birth other := by
  unfold Ghost.claim
  dsimp only
  split_ifs with hcreated
  · have hne : other ≠ key := fun heq ↦ h heq.symm (Option.isNone_iff_eq_none.mp hcreated)
    rw [Function.update_of_ne hne]
  · rfl

theorem Ghost.claim_claims_of_lt {key : Key} {op : OpPut} {p : ℕ} (h : p < w.nextPut) :
    (g.claim w key op).claims p = g.claims p := Function.update_of_ne h.ne _ _

/-- A claim that begins does not take a slot that is open. -/
theorem Incarnated.not_claimed (h : Incarnated w g) {key : Key} {op : OpPut} {writable : List Bool}
    {st : State} (halone : w.state.objects.find? key = none → ∀ j, ¬ w.ClaimOpen key j)
    (hclaimed : Claimed w.state.objects key op.spec writable st.objects) {j : ℕ}
    (hth : w.threads t = some th) (hkey : th.key = key) (hopen : th.Unfinished j) :
    w.state.objects.find? key ≠ none ∧ writable[j]? ≠ some true := by
  have hpresent : w.state.objects.find? key ≠ none :=
    fun hnone ↦ halone hnone j ⟨t, th, hth, hkey, hopen⟩
  refine ⟨hpresent, fun hwritable ↦ ?_⟩
  obtain ⟨obj, hfind⟩ := Option.ne_none_iff_exists'.mp hpresent
  have hspec := specAt_of_find? hfind
  have hlt := (List.getElem?_eq_some_iff.mp hwritable).1
  rw [hclaimed.length_eq, ← hclaimed.present _ hspec] at hlt
  obtain ⟨slot, hslot⟩ := exists_slotAt hspec hlt
  rcases hclaimed.slotAt_of_before hslot with ⟨hnot, _⟩ | ⟨_, _, hidle⟩
  · rw [hwritable] at hnot
    cases hnot
  · rw [← hkey] at hslot
    have hwriting := (h.owns t th j slot hth hopen hslot).1
    rw [hidle] at hwriting
    cases hwriting

theorem Incarnated.began (h : Incarnated w g) (hsound : Sound w live) {key : Key} {op : OpPut}
    {writable : List Bool} {st : State}
    (halone : w.state.objects.find? key = none → ∀ j, ¬ w.ClaimOpen key j)
    (hclaim : w.state.claim key op.spec = .ok (writable, st)) :
    Incarnated ({ w with state := st, nextPut := w.nextPut + 1 }.setThread w.nextPut
      ⟨key, op, writable, 0, [], .slot⟩) (g.claim w key op) := by
  have hclaimed := claim_claimed hclaim
  have hwritable := claim_writable hclaim
  -- an old thread with a slot open under the key has not lost it
  have hnot : ∀ t' th' j, w.threads t' = some th' → th'.key = key → th'.Unfinished j →
      w.state.objects.find? key ≠ none ∧ writable[j]? ≠ some true :=
    fun t' th' j hth' hkey hopen ↦ h.not_claimed halone hclaimed hth' hkey hopen
  constructor
  · intro t₁ t₂ th₁ th₂ j hth₁ hth₂ hkey hopen₁ hopen₂
    rcases thread_of_setThread hth₁ with ⟨rfl, rfl⟩ | ⟨_, hsame₁⟩
    · rcases thread_of_setThread hth₂ with ⟨rfl, rfl⟩ | ⟨_, hsame₂⟩
      · rfl
      · exact absurd hopen₁.2 (hnot t₂ th₂ j hsame₂ hkey.symm hopen₂).2
    · rcases thread_of_setThread hth₂ with ⟨rfl, rfl⟩ | ⟨_, hsame₂⟩
      · exact absurd hopen₂.2 (hnot t₁ th₁ j hsame₁ hkey hopen₁).2
      · exact h.unique t₁ t₂ th₁ th₂ j hsame₁ hsame₂ hkey hopen₁ hopen₂
  · intro t' th' j c spec hth' hopen hc hspec
    change specAt st.objects th'.key = some spec at hspec
    rcases thread_of_setThread hth' with ⟨rfl, rfl⟩ | ⟨_, hsame⟩
    · change Function.update g.claims w.nextPut _ w.nextPut = some c at hc
      rw [Function.update_self] at hc
      cases hc
      rw [hclaimed.specAt_key] at hspec
      exact ⟨Option.some.inj hspec, rfl⟩
    · rw [Ghost.claim_claims_of_lt (hsound.below t' th' hsame)] at hc
      have hkeyed : key = th'.key → w.state.objects.find? key ≠ none :=
        fun heq ↦ (hnot t' th' j hsame heq.symm hopen).1
      rw [Ghost.claim_birth_present hkeyed]
      refine h.current t' th' j c spec hsame hopen hc ?_
      by_cases heq : key = th'.key
      · obtain ⟨obj, hfind⟩ := Option.ne_none_iff_exists'.mp (hkeyed heq)
        have hold := specAt_of_find? hfind
        rw [← heq, hclaimed.specAt_key, ← hclaimed.present _ hold, ← hold] at hspec
        rw [← heq]
        exact hspec
      · rw [hclaimed.specAt_ne _ heq] at hspec
        exact hspec
  · intro t' th' j slot hth' hopen hslot
    change slotAt st.objects th'.key j = some slot at hslot
    change _ ∧ _ ∧ (if th'.key = key ∧ ((w.state.entry key op.spec).slots.map Slot.claimable)[j]? =
      some true then some w.nextPut else g.claimant th'.key j) = some t'
    rw [← hwritable]
    rcases thread_of_setThread hth' with ⟨rfl, rfl⟩ | ⟨_, hsame⟩
    · rw [if_pos ⟨rfl, hopen.2⟩]
      rcases hclaimed.slotAt_key j slot hslot with ⟨hfalse, _⟩ | ⟨_, rfl, _⟩
      · have htrue : writable[j]? = some true := hopen.2
        rw [hfalse] at htrue
        cases htrue
      · exact ⟨rfl, rfl, rfl⟩
    · have hother : ¬ (th'.key = key ∧ writable[j]? = some true) :=
        fun hboth ↦ (hnot t' th' j hsame hboth.1 hopen).2 hboth.2
      rw [if_neg hother]
      refine h.owns t' th' j slot hsame hopen ?_
      by_cases heq : key = th'.key
      · rw [← heq] at hslot ⊢
        rcases hclaimed.slotAt_key j slot hslot with ⟨_, hold⟩ | ⟨htrue, _, _⟩
        · exact hold
        · exact absurd ⟨heq.symm, htrue⟩ hother
      · rw [hclaimed.slotAt_ne _ _ heq] at hslot
        exact hslot
  · intro other j slot b hslot hb
    change slotAt st.objects other j = some slot at hslot
    have hold := hclaimed.slotAt_of_mem hslot hb
    obtain ⟨p, c, hw, hc, hlt, hkey, hspec, hbirth⟩ := h.stored other j slot b hold hb
    have hpresent : key = other → w.state.objects.find? key ≠ none := by
      intro heq hnone
      rw [← heq, slotAt_of_absent hnone] at hold
      cases hold
    refine ⟨p, c, hw, by rw [Ghost.claim_claims_of_lt hlt, hc], Nat.lt_succ_of_lt hlt, hkey, ?_,
      by rw [Ghost.claim_birth_present hpresent, hbirth]⟩
    change specAt st.objects other = some c.spec
    by_cases heq : key = other
    · rw [← heq] at hspec ⊢
      rw [hclaimed.specAt_key, hclaimed.present _ hspec]
    · rw [hclaimed.specAt_ne _ heq, hspec]
  · intro other j slot b b' hslot hb hb'
    exact h.together other j slot b b' (hclaimed.slotAt_of_mem hslot hb) hb hb'

end Incarnated

theorem Incarnated.moves {inner : Inner} {n : Node} {action : Action} {w' : World} {g' : Ghost}
    {live : List PinnedBuf} (h : Incarnated n.world n.ghost) (hsound : Sound n.world live)
    (hrecorded : Recorded n.world n.ghost) (halone : CreatesAlone n.world action)
    (hmoves : Moves inner n action w' g') : Incarnated w' g' := by
  cases hmoves with
  | shed hshed hkept =>
    exact h.shed hshed.lossy hshed.follows hshed.nextPut hkept.birth hkept.claimant hkept.writer
      hkept.claims
  | began _ hclaim => exact h.began hsound (halone _ _ rfl) hclaim
  | allocated hth =>
    refine h.goto rfl rfl hth rfl rfl rfl (fun b hb ↦ Function.update_of_ne ?_ _ _) rfl
    exact (hsound.exclusive.pools.below b
      (hsound.exclusive.held b (List.mem_append_left _ hb))).ne
  | copied hth => exact h.goto rfl rfl hth rfl rfl rfl (fun _ _ ↦ rfl) rfl
  | spilled _ _ hshed =>
    exact h.shed hshed.lossy hshed.follows hshed.nextPut rfl rfl rfl rfl
  | stored hth hpc hstore => exact h.stored_slot hsound hrecorded hth hpc hstore
  | unclaimed hth hpc hunclaim => exact h.unclaimed hsound hrecorded hth hpc hunclaim

/-! ### The bytes of a slot -/

/-- Nothing is written to the sources of a `put` in flight, by user code or by a `get`. -/
def SparesSources (w : World) : Action → Prop
  | .userWrite addr bytes => ∀ t th ps, w.threads t = some th → ps ∈ th.op.slots →
      ∀ s ∈ segsOf ps.src, s.Disjoint ⟨addr, bytes.length⟩
  | .finishGet k _ => ∀ rd, w.readers[k]? = some rd → ∀ t th ps, w.threads t = some th →
      ps ∈ th.op.slots → ∀ s ∈ segsOf ps.src, ∀ d ∈ segsOf rd.op.dst, s.Disjoint d
  | _ => True

/-- A `get` writes to its destination only. -/
theorem copyOut_of_not_covered (inner : Inner) (mem : ByteSpace) (w : World) (rd : Reader)
    (outcome : CopyOutcome) {a : ℕ} (h : ∀ d ∈ segsOf rd.op.dst, ¬ d.Covers a) :
    (w.copyOut inner mem rd outcome).1 a = mem a := by
  unfold World.copyOut
  split
  · rfl
  · cases outcome with
    | done =>
      have hcopy : (w.copy rd.replica.data rd.op.srcOffset (segsOf rd.op.dst) rd.dstLen mem).1 a =
          mem a := zipLoop_of_not_covered _ _ _ _ h
      rw [← hcopy]
      dsimp only
      split <;> next heq => rw [heq]
    | failed e moved => exact writeAll_of_not_covered _ h _ _

theorem SparesSources.kept {inner : Inner} {mem mem' : ByteSpace} {w w' : World} {action : Action}
    {r : Reply} (h : SparesSources w action)
    (hexec : w.exec inner mem action = some (w', mem', r)) {t : ℕ} {th : PutThread} {ps : PutSlot}
    (hth : w.threads t = some th) (hps : ps ∈ th.op.slots) :
    readAll mem' (segsOf ps.src) = readAll mem (segsOf ps.src) := by
  cases action with
  | userWrite addr bytes =>
    cases hexec
    refine readAll_congr fun s hs a ha ↦ write_of_not_covered _ _ _ ?_
    exact fun hcovered ↦ h t th ps hth hps s hs a ha hcovered
  | finishGet k outcome =>
    obtain ⟨rd, hrd, heq⟩ := Option.map_eq_some_iff.mp hexec
    cases heq
    refine readAll_congr fun s hs a ha ↦ copyOut_of_not_covered inner mem w rd outcome ?_
    exact fun d hd ↦ h rd hrd t th ps hth hps s hs d hd a ha
  | advance t' outcome =>
    obtain ⟨other, _, heq⟩ := Option.map_eq_some_iff.mp hexec
    cases heq
    rfl
  | _ =>
    cases hexec
    rfl

/-- What a `put` in flight has copied is what its source holds, and the buffers of a slot were
filled with the same bytes. -/
structure Uniform (w : World) (mem : ByteSpace) (g : Ghost) : Prop where
  sources : ∀ t th ps b, w.threads t = some th → th.op.slots[th.i]? = some ps → b ∈ th.filled →
    g.copied b.id = readAll mem (segsOf ps.src)
  slots : ∀ key j slot b b', slotAt w.state.objects key j = some slot →
    b ∈ bufsOf slot.replicas → b' ∈ bufsOf slot.replicas → g.copied b.id = g.copied b'.id

section Uniform

variable {w w' : World} {mem mem' : ByteSpace} {g g' : Ghost} {live : List PinnedBuf} {t : ℕ}
  {th : PutThread}

theorem Uniform.shed (h : Uniform w mem g) (hex : Exclusive w live) {bs : List PinnedBuf}
    (hfrees : Frees w w' bs) (hlossy : Lossy w.state.objects w'.state.objects)
    (hfollows : ∀ t th', w'.threads t = some th' → ∃ th, w.threads t = some th ∧ Follows th th')
    (hsources : ∀ t th ps, w.threads t = some th → ps ∈ th.op.slots →
      readAll mem' (segsOf ps.src) = readAll mem (segsOf ps.src))
    (hcopied : ∀ b ∈ live, b ∉ bs → g'.copied b.id = g.copied b.id) : Uniform w' mem' g' where
  sources := by
    intro t th' ps b hth' hps hb
    obtain ⟨th, hth, hstep⟩ := hfollows t th' hth'
    have hmem := PutThread.mem_bufs_of_filled hb
    have hbusy : th'.pc.busy = true := by
      refine Bool.eq_true_of_not_eq_false fun hidle ↦ ?_
      rw [PutThread.bufs_of_idle hidle] at hmem
      exact List.not_mem_nil hmem
    obtain ⟨old, hold, hin, hnot⟩ := hfrees.thread_of_mem hth' hmem
    rw [hstep.op_eq, (hstep.current hbusy).1] at hps
    rw [hcopied b (hex.thread t old hold b hin).1 hnot,
      hsources t th ps hth (List.mem_of_getElem? hps)]
    exact h.sources t th ps b hth hps (hstep.filled b hb)
  slots := by
    intro key j slot b b' hslot hb hb'
    -- a buffer of the metadata was one before, and was not released
    have hkept : ∀ b ∈ bufsOf slot.replicas, g'.copied b.id = g.copied b.id := by
      intro b hb
      have hin : b ∈ w'.held := List.mem_append_left _ (mem_bufsIn.mpr ⟨key, j, slot, hslot, hb⟩)
      obtain ⟨hheld, hnot⟩ := hfrees.held b hin
      exact hcopied b (hex.held b hheld) hnot
    obtain ⟨old, hold, _, hbufs⟩ := hlossy.slot key j slot hslot
    rw [hkept b hb, hkept b' hb']
    exact h.slots key j old b b' hold (hbufs.subset hb) (hbufs.subset hb')

/-- One thread went on, and the metadata is as it was. -/
theorem Uniform.goto (h : Uniform w mem g) (hstate : w'.state = w.state) {th' : PutThread}
    (hthreads : w'.threads = Function.update w.threads t (some th'))
    (hsources : ∀ t th ps, w.threads t = some th → ps ∈ th.op.slots →
      readAll mem' (segsOf ps.src) = readAll mem (segsOf ps.src))
    (hself : ∀ ps b, th'.op.slots[th'.i]? = some ps → b ∈ th'.filled →
      g'.copied b.id = readAll mem' (segsOf ps.src))
    (hother : ∀ t' other, t' ≠ t → w.threads t' = some other → ∀ b ∈ other.bufs,
      g'.copied b.id = g.copied b.id)
    (hheld : ∀ b ∈ bufsIn w.state.objects, g'.copied b.id = g.copied b.id) :
    Uniform w' mem' g' where
  sources := by
    intro t' other ps b hthread hps hb
    rw [hthreads] at hthread
    rcases thread_of_setThread hthread with ⟨rfl, rfl⟩ | ⟨hne, hsame⟩
    · exact hself ps b hps hb
    · rw [hother t' other hne hsame b (PutThread.mem_bufs_of_filled hb),
        hsources t' other ps hsame (List.mem_of_getElem? hps)]
      exact h.sources t' other ps b hsame hps hb
  slots := by
    intro key j slot b b' hslot hb hb'
    rw [hstate] at hslot
    rw [hheld b (mem_bufsIn.mpr ⟨key, j, slot, hslot, hb⟩),
      hheld b' (mem_bufsIn.mpr ⟨key, j, slot, hslot, hb'⟩)]
    exact h.slots key j slot b b' hslot hb hb'

theorem Uniform.began (h : Uniform w mem g) {key : Key} {op : OpPut} {writable : List Bool}
    {st : State} (hclaim : w.state.claim key op.spec = .ok (writable, st)) :
    Uniform ({ w with state := st, nextPut := w.nextPut + 1 }.setThread w.nextPut
      ⟨key, op, writable, 0, [], .slot⟩) mem (g.claim w key op) where
  sources := by
    intro t' other ps b hthread hps hb
    rcases thread_of_setThread hthread with ⟨rfl, rfl⟩ | ⟨_, hsame⟩
    · exact absurd hb List.not_mem_nil
    · exact h.sources t' other ps b hsame hps hb
  slots := by
    intro other j slot b b' hslot hb hb'
    exact h.slots other j slot b b' ((claim_claimed hclaim).slotAt_of_mem hslot hb) hb hb'

/-- A `put` rewrote the slot it works on, which then holds buffers it has filled, and reported
it. -/
theorem Uniform.rewritten (h : Uniform w mem g) (hincarnated : Incarnated w g)
    (hsound : Sound w live) {st : State} {f : Slot → Slot} {r : Result Unit}
    (hth : w.threads t = some th) (hbusy : th.pc.busy = true)
    (hrewritten : Rewritten w.state.objects th.key th.i f st.objects)
    (hnew : ∀ old b, slotAt w.state.objects th.key th.i = some old → b ∈ bufsOf (f old).replicas →
      b ∈ bufsOf old.replicas ∨ b ∈ th.filled) :
    Uniform ({ w with state := st }.setThread t (th.reported r)) mem g where
  sources := by
    intro t' other ps b hthread hps hb
    rcases thread_of_setThread hthread with ⟨rfl, rfl⟩ | ⟨_, hsame⟩
    · exact absurd hb List.not_mem_nil
    · exact h.sources t' other ps b hsame hps hb
  slots := by
    intro key j slot b b' hslot hb hb'
    change slotAt st.objects key j = some slot at hslot
    by_cases heq : key = th.key ∧ j = th.i
    · rw [heq.1, heq.2, hrewritten.slotAt_self] at hslot
      obtain ⟨old, hold, rfl⟩ := Option.map_eq_some_iff.mp hslot
      have hpaced := hsound.paced t th hth
      have hempty := (hincarnated.owns t th th.i old hth (hpaced.unfinished hbusy) hold).2.1
      obtain ⟨ps, hps⟩ := hpaced.exists_slot hbusy
      have hsource : ∀ b ∈ bufsOf (f old).replicas,
          g.copied b.id = readAll mem (segsOf ps.src) := by
        intro b hb
        refine h.sources t th ps b hth hps ((hnew old b hold hb).resolve_left fun hin ↦ ?_)
        rw [hempty] at hin
        exact List.not_mem_nil hin
      rw [hsource b hb, hsource b' hb']
    · rw [hrewritten.slotAt_ne _ _ heq] at hslot
      exact h.slots key j slot b b' hslot hb hb'

end Uniform

theorem Uniform.moves {inner : Inner} {n : Node} {mem' : ByteSpace} {action : Action}
    {w' : World} {g' : Ghost} {live : List PinnedBuf} (h : Uniform n.world n.mem n.ghost)
    (hincarnated : Incarnated n.world n.ghost) (hsound : Sound n.world live)
    (hsources : ∀ t th ps, n.world.threads t = some th → ps ∈ th.op.slots →
      readAll mem' (segsOf ps.src) = readAll n.mem (segsOf ps.src))
    (hmem : action.advances = true ∨ (∃ key op, action = .beginPut key op) → mem' = n.mem)
    (hmoves : Moves inner n action w' g') : Uniform w' mem' g' := by
  -- a copy changes the record of its target only
  have hcopied : ∀ {t th filled todo} {x : Placed} (bytes : List UInt8),
      n.world.threads t = some th → th.pc = .copy filled (x :: todo) → ∀ b ∈ live, b ≠ x.buf →
        Function.update n.ghost.copied x.buf.id bytes b.id = n.ghost.copied b.id := by
    intro t th filled todo x bytes hth hpc b hb hne
    have hx := (hsound.exclusive.thread t th hth x.buf (mem_bufs_of_copy hpc)).1
    exact Function.update_of_ne (fun hid ↦ hne (hsound.exclusive.eq_of_id hb hx hid)) _ _
  cases hmoves with
  | shed hshed hkept =>
    exact h.shed hsound.exclusive hshed.toFrees hshed.lossy hshed.follows hsources
      fun b _ _ ↦ by rw [hkept.copied]
  | began _ hclaim =>
    rw [hmem (.inr ⟨_, _, rfl⟩)]
    exact h.began hclaim
  | allocated hth hps _ _ _ hfilled =>
    refine h.goto rfl rfl hsources (fun ps b _ hb ↦ ?_) (fun _ _ _ _ _ _ ↦ rfl) fun _ _ ↦ rfl
    rw [hfilled] at hb
    exact absurd hb List.not_mem_nil
  | @copied t th ps filled todo x hth hps hpc =>
    have hx := mem_bufs_of_copy hpc
    refine h.goto rfl rfl hsources (fun found b hfound hb ↦ ?_) (fun t' other hne hother b hb ↦ ?_)
      fun b hb ↦ ?_
    · change th.op.slots[th.i]? = some found at hfound
      rw [hps] at hfound
      cases hfound
      rw [hsources t th ps hth (List.mem_of_getElem? hps)]
      by_cases heq : b = x.buf
      · rw [heq]
        exact Function.update_self ..
      · have hold : b ∈ th.filled := by
          change b ∈ (filled ++ [x]).map Placed.buf at hb
          rw [List.map_append, List.mem_append, List.map_singleton, List.mem_singleton] at hb
          unfold PutThread.filled
          rw [hpc]
          exact hb.resolve_right heq
        have hlive := (hsound.exclusive.thread t th hth b (PutThread.mem_bufs_of_filled hold)).1
        exact (hcopied _ hth hpc b hlive heq).trans (h.sources t th ps b hth hps hold)
    · refine hcopied _ hth hpc b (hsound.exclusive.thread t' other hother b hb).1 fun heq ↦ hne ?_
      rw [heq] at hb
      exact hsound.exclusive.holder t' t other th hother hth x.buf hb hx
    · have hheld : b ∈ n.world.held := List.mem_append_left _ hb
      refine hcopied _ hth hpc b (hsound.exclusive.held b hheld) fun heq ↦ ?_
      rw [heq] at hheld
      exact (hsound.exclusive.thread t th hth x.buf hx).2 hheld
  | spilled hth hpc hshed hx =>
    have hfrees := hshed.toFrees
    exact h.shed hsound.exclusive ⟨hfrees.pools, hfrees.nextBuf, hfrees.nodup, hfrees.source,
      hfrees.kept, hfrees.held, hfrees.threads⟩ hshed.lossy hshed.follows hsources
      fun b hb hnot ↦ hcopied _ hth hpc b hb fun heq ↦ hnot (heq ▸ hx)
  | stored hth hpc hstore =>
    rw [hmem (.inl rfl)]
    refine h.rewritten hincarnated hsound hth (by rw [hpc]; rfl) (store_rewritten hstore).1
      fun old b _ hb ↦ ?_
    change b ∈ bufsOf (old.replicas ++ pinnedReplicas _) at hb
    rw [bufsOf_append, bufsOf_pinnedReplicas] at hb
    unfold PutThread.filled
    rw [hpc]
    exact List.mem_append.mp hb
  | unclaimed hth hpc hunclaim =>
    rw [hmem (.inl rfl)]
    exact h.rewritten hincarnated hsound hth (by rw [hpc]; rfl) (unclaim_rewritten hunclaim)
      fun _ _ _ hb ↦ .inl hb

/-! ### Runs -/

/-- The `put` is about to store its slot or to give its claim back. -/
def Pc.closing : Pc → Bool
  | .store _ | .failed _ => true
  | _ => false

theorem incarnated_start (inner : Inner) (bytes : UInt16 → ℕ) :
    Incarnated (backend inner bytes).start.world (backend inner bytes).start.ghost :=
  ⟨fun _ _ _ _ _ hth ↦ (by cases hth), fun _ _ _ _ _ hth ↦ (by cases hth),
    fun _ _ _ _ hth ↦ (by cases hth), fun _ _ _ _ hslot ↦ (by cases hslot),
    fun _ _ _ _ _ hslot ↦ (by cases hslot)⟩

/-- A step of a `put`, or its beginning, leaves user memory. -/
theorem IsStep.mem_eq {inner : Inner} {n n' : Node} {e : Event} (h : IsStep inner n e n')
    (hput : e.action.advances = true ∨ ∃ key op, e.action = .beginPut key op) : n'.mem = n.mem := by
  have hexec := h.exec
  rcases hput with hadvance | ⟨key, op, hbegin⟩
  · cases haction : e.action with
    | advance t outcome =>
      rw [haction] at hexec
      obtain ⟨th, _, heq⟩ := Option.map_eq_some_iff.mp hexec
      exact (congrArg (fun r ↦ r.2.1) heq).symm
    | _ =>
      rw [haction] at hadvance
      cases hadvance
  · rw [hbegin] at hexec
    exact (congrArg (fun r ↦ r.2.1) (Option.some.inj hexec)).symm

namespace Scenario

/-- A check of `CreatesAlone`: no `put` in flight has the key. -/
def createsAlone (w : World) : Action → Bool
  | .beginPut key _ => (w.state.objects.find? key).isSome ||
      w.allThreads fun th ↦ decide (th.key ≠ key)
  | _ => true

/-- One segment ends before the other begins. -/
def apart (s t : Segment) : Bool :=
  decide (s.addr + s.len ≤ t.addr) || decide (t.addr + t.len ≤ s.addr)

end Scenario

end Pegastore.Local
