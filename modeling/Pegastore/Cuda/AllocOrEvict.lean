import Pegastore.Cuda.Alone
import Pegastore.Cuda.Arena

/-!
# `alloc_or_evict` as a whole

In a `put` in flight an allocation is spread over several steps. `World.allocOrEvict` is the whole
call, when no other operation runs: an allocation, the test against the capacity, and then rounds of
one eviction section and one more allocation until a buffer was found or a round evicted nothing.
The loop has a bound here; that there is always a bound that suffices is shown where the loop is
proved to end.

`leads_allocOrEvict` says that the steps of a `put` do what the call does. A pool that gives a
buffer to the call is one that the calls on that pool alone can reach (`World.Draws`), so what is
known of every state of an arena is known of the buffers.
-/

set_option autoImplicit false
set_option relaxedAutoImplicit false

namespace Pegastore.Local

open Outcome Ranges Transition

/-- The world and what the call returned or panicked with. -/
abbrev Allocation := World × Exec (Result PinnedBuf)

/-- The world after a pool gave a buffer. -/
def World.gave (w : World) (numa : UInt16) (after : PinnedPool) : World :=
  { w with
    pools := Function.update w.pools numa (some after)
    nextBuf := w.nextBuf + 1 }

/-- What an allocation comes to: a panic, a buffer, or `full` when the pool has no range. -/
def World.grant (w : World) (numa : UInt16) (full : Option Allocation) :
    Exec (Option (PinnedBuf × PinnedPool)) → Option Allocation
  | .error reason => some (w, .error reason)
  | .ok none => full
  | .ok (some (buf, after)) => some (w.gave numa after, .ok (.ok buf))

/-- An allocation on the pool of a node. -/
def World.allocOn (checks : Bool) (w : World) (numa : UInt16) (len : ℕ) :
    Exec (Option (PinnedBuf × PinnedPool)) :=
  match w.pools numa with
  | none => .ok none
  | some pool => pool.alloc checks w.nextBuf len

/-- The world after an eviction section: the metadata is exchanged and the dropped buffers go back
to their pools. -/
def World.afterRound (w : World) (r : Bool × List PinnedBuf × State) : World :=
  { w with state := r.2.2 }.dropArcs r.2.1

/-- The loop of `alloc_or_evict`, at most `fuel` rounds. -/
def World.evictRounds (checks : Bool) (numa : UInt16) (len : ℕ) (protect : Key) :
    ℕ → World → Option Allocation
  | 0, _ => none
  | fuel + 1, w =>
    if w.poisoned then some (w, .error .unwrapNone)
    else
      match w.state.evictRound (.cpu numa) protect with
      | .error reason => some ({ w with poisoned := true }, .error reason)
      | .ok r =>
        (w.afterRound r).grant numa
          (if r.1 then World.evictRounds checks numa len protect fuel (w.afterRound r)
          else some (w.afterRound r, .ok (.error (noSpace numa len))))
          ((w.afterRound r).allocOn checks numa len)

/-- Allocate `len` bytes on `numa`, evicting replicas of `Cache` objects first-in first-out if
needed. -/
def World.allocOrEvict (checks : Bool) (w : World) (numa : UInt16) (len : ℕ) (protect : Key)
    (fuel : ℕ) : Option Allocation :=
  match w.pools numa with
  | none => some (w, .ok (.error (noPool (.cpu numa))))
  | some pool =>
    w.grant numa
      (if len > pool.len then some (w, .ok (.error (noSpace numa len)))
      else w.evictRounds checks numa len protect fuel)
      (pool.alloc checks w.nextBuf len)

/-! ### The calls on the pool -/

section Draws

variable {checks : Bool} {numa : UInt16} {size : PoolSize} {a : Arena} {w w' : World} {len fuel : ℕ}
  {protect : Key} {buf : PinnedBuf}

theorem World.grant_eq_ok {full : Option Allocation} {r : Result PinnedBuf}
    {allocated : Exec (Option (PinnedBuf × PinnedPool))}
    (h : w.grant numa full allocated = some (w', .ok r)) :
    (∃ buf after, allocated = .ok (some (buf, after)) ∧ w' = w.gave numa after ∧ r = .ok buf) ∨
      (allocated = .ok none ∧ full = some (w', .ok r)) := by
  rcases allocated with reason | (_ | ⟨buf, after⟩)
  · cases h
  · exact .inr ⟨rfl, h⟩
  · cases h
    exact .inl ⟨buf, after, rfl, rfl, rfl⟩

/-- The pool of the node is the arena's, and the buffers of it that the metadata or a `get` holds
are alive. -/
structure World.Draws (w : World) (numa : UInt16) (a : Arena) : Prop where
  pool : w.pools numa = some a.pool
  held : ∀ b ∈ w.held, b.numa = numa → b ∈ a.live

/-- Releasing live buffers is a sequence of drops on the pool they came from. -/
theorem exists_steps_releaseBufs (checks : Bool) (size : PoolSize) (bs : List PinnedBuf) :
    ∀ {pools : Pools} {a : Arena}, pools numa = some a.pool → bs.Nodup →
      (∀ b ∈ bs, b.numa = numa → b ∈ a.live) → ∃ calls a',
        (arena checks numa size).Steps a calls a' ∧ releaseBufs pools bs numa = some a'.pool ∧
        ∀ b ∈ a.live, b ∉ bs → b ∈ a'.live := by
  induction bs with
  | nil =>
    intro pools a hpool _ _
    exact ⟨[], a, .nil, hpool, fun b hb _ ↦ hb⟩
  | cons b bs ih =>
    intro pools a hpool hnodup hlive
    obtain ⟨hnotin, hnodup⟩ := List.nodup_cons.mp hnodup
    by_cases hnuma : b.numa = numa
    · subst hnuma
      let a₁ : Arena := ⟨a.pool.release b.off b.reserved, a.live.erase b⟩
      have hstep : (arena checks b.numa size).step a (.drop b) a₁ :=
        if_pos (hlive b List.mem_cons_self rfl)
      have hpool₁ : releaseBuf pools b b.numa = some a₁.pool := by
        unfold releaseBuf
        rw [Function.update_self, hpool]
        rfl
      obtain ⟨calls, a', hsteps, hreleased, hkept⟩ := ih hpool₁ hnodup fun c hc hnuma ↦
        (List.mem_erase_of_ne (ne_of_mem_of_not_mem hc hnotin)).mpr
          (hlive c (List.mem_cons_of_mem _ hc) hnuma)
      refine ⟨_, a', (System.Steps.snoc .nil hstep).append hsteps, hreleased, fun c hc hout ↦ ?_⟩
      rw [List.mem_cons, not_or] at hout
      exact hkept c ((List.mem_erase_of_ne hout.1).mpr hc) hout.2
    · have hpool₁ : releaseBuf pools b numa = some a.pool := by
        unfold releaseBuf
        rw [Function.update_of_ne (Ne.symm hnuma), hpool]
      obtain ⟨calls, a', hsteps, hreleased, hkept⟩ := ih hpool₁ hnodup fun c hc ↦
        hlive c (List.mem_cons_of_mem _ hc)
      exact ⟨calls, a', hsteps, hreleased, fun c hc hout ↦
        hkept c hc fun hin ↦ hout (List.mem_cons_of_mem _ hin)⟩

/-- An eviction section drops live buffers only. -/
theorem World.Draws.afterRound (h : w.Draws numa a) (checks : Bool) (size : PoolSize)
    {device : Device} {r : Bool × List PinnedBuf × State}
    (hround : w.state.evictRound device protect = .ok r) : ∃ calls a',
      (arena checks numa size).Steps a calls a' ∧ (w.afterRound r).Draws numa a' := by
  have hdrop : Dropping w.state.objects r.2.1 r.2.2.objects := evictRound_dropping hround
  have hheld : ∀ b ∈ (w.afterRound r).held, b ∈ w.held := by
    intro b hb
    rcases List.mem_append.mp hb with hb | hb
    · exact List.mem_append_left _ (hdrop.lossy.bufsIn hb)
    · exact List.mem_append_right _ hb
  obtain ⟨calls, a', hsteps, hpool, hkept⟩ := exists_steps_releaseBufs checks size
    (r.2.1.filter fun b ↦ b ∉ (w.afterRound r).held).dedup h.pool (List.nodup_dedup _) (by
      intro b hb
      have hin := List.mem_of_mem_filter (List.mem_dedup.mp hb)
      exact h.held b (List.mem_append_left _ (hdrop.bufs b hin)))
  refine ⟨calls, a', hsteps, hpool, fun b hb hnuma ↦ hkept b (h.held b (hheld b hb) hnuma) ?_⟩
  intro hreleased
  have hgone := (List.mem_filter.mp (List.mem_dedup.mp hreleased)).2
  exact of_decide_eq_true hgone hb

/-- A buffer the loop returns was given by a state of the pool that calls on it lead to. -/
theorem World.Draws.evictRounds (size : PoolSize) (fuel : ℕ) : ∀ {w : World} {a : Arena},
    w.Draws numa a → w.evictRounds checks numa len protect fuel = some (w', .ok (.ok buf)) →
      ∃ calls a' id after, (arena checks numa size).Steps a calls a' ∧
        a'.pool.alloc checks id len = .ok (some (buf, after)) := by
  induction fuel with
  | zero =>
    intro w a _ h
    cases h
  | succ fuel ih =>
    intro w a hdraws h
    rw [World.evictRounds] at h
    split_ifs at h with hpoisoned
    · cases h
    · cases hround : w.state.evictRound (.cpu numa) protect with
      | error reason =>
        rw [hround] at h
        cases h
      | ok r =>
        rw [hround] at h
        dsimp only at h
        obtain ⟨calls, a₁, hsteps, hdraws₁⟩ := hdraws.afterRound checks size hround
        rcases World.grant_eq_ok h with ⟨_, after, hgranted, _, heq⟩ | ⟨_, hfull⟩
        · cases heq
          rw [World.allocOn, hdraws₁.pool] at hgranted
          exact ⟨calls, a₁, _, after, hsteps, hgranted⟩
        · split_ifs at hfull with hevicted
          · obtain ⟨more, a', id, after, hmore, hgranted⟩ := ih hdraws₁ hfull
            exact ⟨calls ++ more, a', id, after, hsteps.append hmore, hgranted⟩
          · cases hfull

/-- A buffer `alloc_or_evict` returns was given by a state of the pool that calls on it lead to. -/
theorem World.Draws.allocOrEvict (size : PoolSize) (hdraws : w.Draws numa a)
    (h : w.allocOrEvict checks numa len protect fuel = some (w', .ok (.ok buf))) :
    ∃ calls a' id after, (arena checks numa size).Steps a calls a' ∧
      a'.pool.alloc checks id len = .ok (some (buf, after)) := by
  rw [World.allocOrEvict, hdraws.pool] at h
  rcases World.grant_eq_ok h with ⟨_, after, hgranted, _, heq⟩ | ⟨_, hfull⟩
  · cases heq
    exact ⟨[], a, _, after, .nil, hgranted⟩
  · split_ifs at hfull
    · cases hfull
    · exact hdraws.evictRounds size fuel hfull

end Draws

/-! ### The steps of a `put` -/

section Leads

variable {inner : Inner} {mem : ByteSpace} {t : ℕ} {w w' : World} {th : PutThread} {ps : PutSlot}
  {target : UInt16 × Bool} {rest : List (UInt16 × Bool)} {p : Placing}

/-- Where the placement loop goes on after `alloc_or_evict` returned for a target. -/
def Placing.after (p : Placing) (each : Bool) (target : UInt16 × Bool)
    (rest : List (UInt16 × Bool)) : Result PinnedBuf → Pc
  | .ok buf => p.took each rest ⟨target.1, target.2, buf⟩
  | .error e => p.missed each rest e

/-- The world of a `put` after a step that allocates: it has the buffer, or is at `full`. -/
def World.onward (w : World) (t : ℕ) (th : PutThread) (each : Bool) (target : UInt16 × Bool)
    (rest : List (UInt16 × Bool)) (p : Placing) (full : Pc) :
    Option (PinnedBuf × PinnedPool) → World
  | none => w.setThread t { th with pc := full }
  | some (buf, after) => (w.gave target.1 after).setThread t
      { th with pc := p.after each target rest (.ok buf) }

/-- A step that allocates. -/
theorem leads_tryAlloc (pc : Pc) (full : PinnedPool → Pc) {pool : PinnedPool}
    {granted : Option (PinnedBuf × PinnedPool)} (hslot : th.op.slots[th.i]? = some ps)
    (hstep : (w.setThread t { th with pc := pc }).advanceSlot inner mem t { th with pc := pc } ps
      .done = (w.setThread t { th with pc := pc }).tryAlloc inner t { th with pc := pc } ps target
      rest p full) (hpool : w.pools target.1 = some pool)
    (halloc : pool.alloc inner.checks w.nextBuf ps.spec.len = .ok granted) :
    Leads inner mem t (w.setThread t { th with pc := pc })
      (w.onward t th (isEach ps.spec.placement) target rest p (full pool) granted) := by
  refine leads_slot { th with pc := pc } hslot (hstep.trans ?_)
  rw [World.tryAlloc, show (w.setThread t { th with pc := pc }).pools target.1 = some pool from
    hpool]
  dsimp only
  rw [show pool.alloc inner.checks (w.setThread t { th with pc := pc }).nextBuf ps.spec.len =
    .ok granted from halloc]
  cases granted with
  | none => exact goto_setThread w t { th with pc := pc } _
  | some taken => exact goto_setThread (w.gave target.1 taken.2) t { th with pc := pc } _

/-- An eviction section of a `put`. -/
theorem leads_evict {r : Bool × List PinnedBuf × State} (hslot : th.op.slots[th.i]? = some ps)
    (hpoisoned : w.poisoned = false)
    (hround : w.state.evictRound (.cpu target.1) th.key = .ok r) :
    Leads inner mem t (w.setThread t { th with pc := .evict target rest p })
      ((w.afterRound r).setThread t { th with pc := .retry target rest p r.1 }) := by
  refine leads_slot { th with pc := .evict target rest p } hslot ?_
  change World.locked _ t _ (w.state.evictRound (.cpu target.1) th.key) _ = _
  unfold World.locked
  rw [if_neg (by rw [show (w.setThread t _).poisoned = false from hpoisoned]; decide), hround]
  exact goto_setThread (w.afterRound r) t { th with pc := .evict target rest p } _

/-- The rounds of a `put` are those of the call. -/
theorem leads_evictRounds (hslot : th.op.slots[th.i]? = some ps) (fuel : ℕ) : ∀ {w w' : World}
    {r : Result PinnedBuf}, (w.pools target.1).isSome = true →
      w.evictRounds inner.checks target.1 ps.spec.len th.key fuel = some (w', .ok r) →
      Leads inner mem t (w.setThread t { th with pc := .evict target rest p })
        (w'.setThread t { th with pc := p.after (isEach ps.spec.placement) target rest r }) := by
  induction fuel with
  | zero =>
    intro w w' r _ h
    cases h
  | succ fuel ih =>
    intro w w' r hsome h
    rw [World.evictRounds] at h
    split_ifs at h with hpoisoned
    · cases h
    · cases hround : w.state.evictRound (.cpu target.1) th.key with
      | error reason =>
        rw [hround] at h
        cases h
      | ok q =>
        rw [hround] at h
        dsimp only at h
        refine (leads_evict hslot (Bool.eq_false_of_not_eq_true hpoisoned) hround).trans ?_
        have hsome' : ((w.afterRound q).pools target.1).isSome = true :=
          (isSome_releaseBufs _ _ _).trans hsome
        obtain ⟨pool, hpool⟩ := Option.isSome_iff_exists.mp hsome'
        let full : Pc := if q.1 then .evict target rest p
          else p.missed (isEach ps.spec.placement) rest (noSpace target.1 ps.spec.len)
        have htry : ∀ granted,
            pool.alloc inner.checks (w.afterRound q).nextBuf ps.spec.len = .ok granted →
            Leads inner mem t
              ((w.afterRound q).setThread t { th with pc := .retry target rest p q.1 })
              ((w.afterRound q).onward t th (isEach ps.spec.placement) target rest p full
                granted) :=
          fun granted ↦ leads_tryAlloc (.retry target rest p q.1) (fun _ ↦ full) hslot rfl hpool
        rw [World.allocOn, hpool] at h
        rcases World.grant_eq_ok h with ⟨buf, after, halloc, rfl, rfl⟩ | ⟨halloc, hfull⟩
        · exact htry _ halloc
        · refine (htry _ halloc).trans ?_
          split_ifs at hfull with hevicted
          · have hfullpc : full = .evict target rest p := if_pos hevicted
            rw [hfullpc]
            exact ih hsome' hfull
          · have hfullpc : full = p.missed (isEach ps.spec.placement) rest _ := if_neg hevicted
            cases hfull
            rw [hfullpc]
            exact Leads.refl _

/-- A `put` that is about to allocate on a target gets by itself where `alloc_or_evict` gets. -/
theorem leads_allocOrEvict (hslot : th.op.slots[th.i]? = some ps) {fuel : ℕ}
    {r : Result PinnedBuf}
    (h : w.allocOrEvict inner.checks target.1 ps.spec.len th.key fuel = some (w', .ok r)) :
    Leads inner mem t (w.setThread t { th with pc := .place (target :: rest) p })
      (w'.setThread t { th with pc := p.after (isEach ps.spec.placement) target rest r }) := by
  rw [World.allocOrEvict] at h
  cases hpool : w.pools target.1 with
  | none =>
    rw [hpool] at h
    cases h
    refine leads_slot { th with pc := .place (target :: rest) p } hslot ?_
    change World.tryAlloc inner _ t _ ps target rest p _ = _
    rw [World.tryAlloc, show (w.setThread t _).pools target.1 = none from hpool]
    exact goto_setThread w t { th with pc := .place (target :: rest) p } _
  | some pool =>
    rw [hpool] at h
    dsimp only at h
    let full : Pc := if ps.spec.len > pool.len then
        p.missed (isEach ps.spec.placement) rest (noSpace target.1 ps.spec.len)
      else .evict target rest p
    have htry : ∀ granted, pool.alloc inner.checks w.nextBuf ps.spec.len = .ok granted →
        Leads inner mem t (w.setThread t { th with pc := .place (target :: rest) p })
          (w.onward t th (isEach ps.spec.placement) target rest p full granted) :=
      fun granted ↦ leads_tryAlloc (.place (target :: rest) p) (fun pool ↦
        if ps.spec.len > pool.len then
          p.missed (isEach ps.spec.placement) rest (noSpace target.1 ps.spec.len)
        else .evict target rest p) hslot rfl hpool
    rcases World.grant_eq_ok h with ⟨buf, after, halloc, rfl, rfl⟩ | ⟨halloc, hfull⟩
    · exact htry _ halloc
    · refine (htry _ halloc).trans ?_
      split_ifs at hfull with habove
      · have hfullpc : full = p.missed (isEach ps.spec.placement) rest _ := if_pos habove
        cases hfull
        rw [hfullpc]
        exact Leads.refl _
      · have hfullpc : full = .evict target rest p := if_neg habove
        rw [hfullpc]
        exact leads_evictRounds hslot fuel (by rw [hpool]; rfl) hfull

end Leads

/-! ### The arithmetic limit -/

/-- A buffer given by a state of an arena for a length whose round-up fits is long enough and inside
the pool. -/
theorem Arena.Whole.alloc_long {checks : Bool} {a : Arena} {bound len id : ℕ} {buf : PinnedBuf}
    {after : PinnedPool} (h : a.Whole checks bound) (hlen : len + ALIGN ≤ 2 ^ 64)
    (halloc : a.pool.alloc checks id len = .ok (some (buf, after))) :
    len ≤ buf.reserved ∧ buf.off + len ≤ bound := by
  obtain ⟨need, i, r, hneed, hget, hfit, rfl, rfl⟩ := PinnedPool.alloc_eq_some halloc
  rw [roundUp_of_lt (divCeil_mul_lt hlen), Except.ok.injEq] at hneed
  have hlong : len ≤ need := hneed ▸ le_divCeil_mul len
  have hend := h.free_within r (List.mem_of_getElem? hget)
  refine ⟨hlong, ?_⟩
  show r.1 + len ≤ bound
  omega

/-- A length above the capacity whose round-up fits finds no range. -/
theorem Arena.Whole.alloc_above {checks : Bool} {a : Arena} {bound len : ℕ} (id : ℕ)
    (h : a.Whole checks bound) (hlen : len + ALIGN ≤ 2 ^ 64) (habove : bound < len) :
    a.pool.alloc checks id len = .ok none := by
  refine (PinnedPool.alloc_eq_none_iff (roundUp_of_lt (divCeil_mul_lt hlen))).mpr fun r hr ↦ ?_
  have hend := h.free_within r hr
  have hlong := le_divCeil_mul len
  omega

/-- Without checks the round-up of a length in the last unit of the range wraps to nothing. -/
theorem roundUp_wraps {len : ℕ} (hlen : len < 2 ^ 64) (hover : 2 ^ 64 < len + ALIGN) :
    roundUp false len = .ok 0 := by
  have hbounds := divCeil_mul_bounds (show 0 < ALIGN by decide) len
  have hunits : divCeil len ALIGN * ALIGN = 2 ^ 64 := by
    unfold ALIGN at hbounds hover ⊢
    omega
  unfold roundUp mulU64
  rw [hunits]
  rfl

/-- Without checks such a length gets a buffer that reserves nothing, wherever a range is free. -/
theorem PinnedPool.alloc_wraps {pool : PinnedPool} {len : ℕ} (hlen : len < 2 ^ 64)
    (hover : 2 ^ 64 < len + ALIGN) (hfree : pool.free ≠ []) (id : ℕ) :
    ∃ buf after, pool.alloc false id len = .ok (some (buf, after)) ∧ buf.reserved = 0 := by
  have hround := roundUp_wraps hlen hover
  obtain ⟨r, hr⟩ := List.exists_mem_of_ne_nil _ hfree
  obtain ⟨buf, after, halloc⟩ : ∃ buf after, pool.alloc false id len = .ok (some (buf, after)) :=
    PinnedPool.alloc_of_fits hround hr (Nat.zero_le _)
  obtain ⟨need, i, r, hneed, _, _, rfl, rfl⟩ := PinnedPool.alloc_eq_some halloc
  rw [hround, Except.ok.injEq] at hneed
  exact ⟨_, _, halloc, hneed.symm⟩

/-- In every state of a pool, for a length whose round-up does not wrap, `alloc` and
`alloc_or_evict` hand out long enough buffers inside the pool only, and answer a length above the
capacity without one. For any other length both hand out a buffer that reserves nothing as soon as
the pool has a free range. -/
theorem alloc_not_short (numa : UInt16) (size : PoolSize) {history : List Arena.Call} {a : Arena}
    (hrun : (arena false numa size).Run history a) :
    (∀ len, len + ALIGN ≤ 2 ^ 64 →
      (∀ id buf after, a.pool.alloc false id len = .ok (some (buf, after)) →
        len ≤ buf.reserved ∧ buf.off + len ≤ a.pool.len) ∧
      (a.pool.len < len → ∀ id, a.pool.alloc false id len = .ok none) ∧
      ∀ (w : World) (protect : Key) (fuel : ℕ), w.Draws numa a →
        (∀ w' buf, w.allocOrEvict false numa len protect fuel = some (w', .ok (.ok buf)) →
          len ≤ buf.reserved ∧ buf.off + len ≤ a.pool.len) ∧
        (a.pool.len < len → w.allocOrEvict false numa len protect fuel =
          some (w, .ok (.error (noSpace numa len))))) ∧
    ∀ len, len < 2 ^ 64 → 2 ^ 64 < len + ALIGN → a.pool.free ≠ [] →
      (∀ id, ∃ buf after, a.pool.alloc false id len = .ok (some (buf, after)) ∧
        buf.reserved = 0) ∧
      ∀ (w : World) (protect : Key) (fuel : ℕ), w.Draws numa a → ∃ w' buf,
        w.allocOrEvict false numa len protect fuel = some (w', .ok (.ok buf)) ∧
        buf.reserved = 0 := by
  have hwhole := Arena.whole_of_run hrun
  rw [hwhole.len_eq]
  refine ⟨fun len hlen ↦ ⟨fun id buf after ↦ hwhole.alloc_long hlen,
    fun habove id ↦ hwhole.alloc_above id hlen habove,
    fun w protect fuel hdraws ↦ ⟨fun w' buf hgranted ↦ ?_, fun habove ↦ ?_⟩⟩,
    fun len hlen hover hfree ↦ ⟨PinnedPool.alloc_wraps hlen hover hfree,
      fun w protect fuel hdraws ↦ ?_⟩⟩
  · obtain ⟨calls, a', id, after, hsteps, halloc⟩ := hdraws.allocOrEvict size hgranted
    exact (Arena.whole_of_run (hrun.append hsteps)).alloc_long hlen halloc
  · rw [World.allocOrEvict, hdraws.pool]
    dsimp only
    rw [hwhole.alloc_above _ hlen habove]
    exact if_pos (hwhole.len_eq ▸ habove)
  · obtain ⟨buf, after, halloc, hnothing⟩ := PinnedPool.alloc_wraps hlen hover hfree w.nextBuf
    refine ⟨w.gave numa after, buf, ?_, hnothing⟩
    rw [World.allocOrEvict, hdraws.pool]
    dsimp only
    rw [halloc]
    rfl

namespace SplitPool

/-- A pool of four units. -/
def size : PoolSize := ⟨4 * ALIGN, by decide⟩

/-- Two buffers are taken and the first one is given back. -/
def calls : List Arena.Call := [.alloc 0 1, .alloc 1 1, .drop ⟨0, 0, 0, ALIGN, 1⟩]

/-- One unit is free before the buffer that is left, and two behind it. -/
def arena : Arena :=
  ⟨⟨0, 4 * ALIGN, [(0, ALIGN), (2 * ALIGN, 2 * ALIGN)]⟩, [⟨1, 0, ALIGN, ALIGN, 1⟩]⟩

/-- A backend whose pool is in that state. -/
def world : World :=
  { World.initial ⟨0, fun _ ↦ none, [], [0], false⟩ fun _ ↦ size.bytes with
    pools := fun _ ↦ some arena.pool }

theorem run : (Local.arena false 0 size).Run calls arena := by
  have hreplay : replay (Arena.nextFitting false) calls (Local.arena false 0 size).start =
      some (calls, arena) := by
    decide +kernel
  exact System.Run.of_restrict
    (steps_of_replay (fun _ _ _ _ ↦ Arena.step_of_nextFitting) calls hreplay)

end SplitPool

/-- In a pool of four units with a buffer in the second one, a length of more than one unit passes
over the first free range and gets the two units at the end, a length above the capacity gets
nothing, and the largest length gets a buffer that reserves nothing. -/
theorem alloc_not_short_split :
    (∃ after, SplitPool.arena.pool.alloc false 2 (ALIGN + 1) =
      .ok (some (⟨2, 0, 2 * ALIGN, 2 * ALIGN, ALIGN + 1⟩, after))) ∧
    (ALIGN + 1 ≤ 2 * ALIGN ∧ 2 * ALIGN + (ALIGN + 1) ≤ SplitPool.arena.pool.len) ∧
    (∀ protect fuel, SplitPool.world.allocOrEvict false 0 (4 * ALIGN + 1) protect fuel =
      some (SplitPool.world, .ok (.error (noSpace 0 (4 * ALIGN + 1))))) ∧
    ∀ protect fuel, ∃ w' buf, SplitPool.world.allocOrEvict false 0 (2 ^ 64 - 1) protect fuel =
      some (w', .ok (.ok buf)) ∧ buf.reserved = 0 := by
  have hdraws : SplitPool.world.Draws 0 SplitPool.arena :=
    ⟨rfl, fun _ hb ↦ absurd hb List.not_mem_nil⟩
  have halloc : SplitPool.arena.pool.alloc false 2 (ALIGN + 1) =
      .ok (some (⟨2, 0, 2 * ALIGN, 2 * ALIGN, ALIGN + 1⟩,
        ⟨0, 4 * ALIGN, [(0, ALIGN)]⟩)) := by
    decide +kernel
  obtain ⟨hlong, hshort⟩ := alloc_not_short 0 SplitPool.size SplitPool.run
  refine ⟨⟨_, halloc⟩, (hlong (ALIGN + 1) (by decide +kernel)).1 2 _ _ halloc,
    fun protect fuel ↦ ?_, fun protect fuel ↦ ?_⟩
  · obtain ⟨-, -, hcall⟩ := hlong (4 * ALIGN + 1) (by decide +kernel)
    exact (hcall SplitPool.world protect fuel hdraws).2 (by decide +kernel)
  · obtain ⟨-, hcall⟩ := hshort (2 ^ 64 - 1) (by decide +kernel) (by decide +kernel)
      (by decide +kernel)
    exact hcall SplitPool.world protect fuel hdraws

namespace OneUnit

/-- A backend with one node, built without overflow checks. -/
def inner : Inner := ⟨0, fun _ ↦ none, [], [0], false⟩

/-- A pool of one unit. -/
def size : PoolSize := ⟨ALIGN, by decide⟩

/-- The backend before its first operation. -/
def world : World := World.initial inner fun _ ↦ size.bytes

/-- Half the address space. -/
def region : MemoryRegion := ⟨0, 0, 2 ^ 63, .cpu 0, by decide⟩

/-- A slot that gathers the region twice, the second time without its last byte. -/
def huge : PutSlot := ⟨⟨2 ^ 64 - 1, .anywhere⟩, [⟨region, 0, 2 ^ 63⟩, ⟨region, 0, 2 ^ 63 - 1⟩]⟩

theorem world_pools : world.pools 0 = some (arena false 0 size).start.pool := rfl

theorem world_draws : world.Draws 0 (arena false 0 size).start := ⟨world_pools, nofun⟩

end OneUnit

/-- The round-up of the largest length wraps to nothing: a validated slot of that length gets a
buffer that reserves no byte, from `alloc` and from `alloc_or_evict`, although the pool has one unit
only. -/
theorem alloc_short_at_limit :
    (OpPut.mk .cache [OneUnit.huge]).validate = .ok () ∧ OneUnit.huge.spec.len = 2 ^ 64 - 1 ∧
    (arena false 0 OneUnit.size).Run [] (arena false 0 OneUnit.size).start ∧
    OneUnit.world.Draws 0 (arena false 0 OneUnit.size).start ∧
    (arena false 0 OneUnit.size).start.pool.len = ALIGN ∧
    (arena false 0 OneUnit.size).start.pool.alloc false 0 (2 ^ 64 - 1) =
      .ok (some (⟨0, 0, 0, 0, 2 ^ 64 - 1⟩, (arena false 0 OneUnit.size).start.pool)) ∧
    ∀ protect fuel, ∃ w', OneUnit.world.allocOrEvict false 0 (2 ^ 64 - 1) protect fuel =
      some (w', .ok (.ok ⟨0, 0, 0, 0, 2 ^ 64 - 1⟩)) := by
  have halloc : (arena false 0 OneUnit.size).start.pool.alloc false 0 (2 ^ 64 - 1) =
      .ok (some (⟨0, 0, 0, 0, 2 ^ 64 - 1⟩, (arena false 0 OneUnit.size).start.pool)) := by
    decide +kernel
  refine ⟨by decide +kernel, rfl, System.Run.nil, OneUnit.world_draws, by decide +kernel, halloc,
    fun protect fuel ↦ ⟨OneUnit.world.gave 0 (arena false 0 OneUnit.size).start.pool, ?_⟩⟩
  rw [World.allocOrEvict, OneUnit.world_pools]
  dsimp only
  rw [show OneUnit.world.nextBuf = 0 from rfl, halloc]
  rfl

end Pegastore.Local
