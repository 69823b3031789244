import Pegastore.Cuda.Ownership

/-!
# What one step does

Most steps of any operation only let go of things: `Shed w w' bs` says that the metadata is lossy,
the buffers `bs` were released and every `put` is where it was or further on without having acquired
anything. The remaining steps are the ones of `put` that acquire something: the claim, an
allocation, a copy, a store, and the section that gives a claim back. `advanceSlot_cases` lists them
for a `put` in flight and `exec_cases` for all operations; no later proof looks at the step
functions again.
-/

set_option autoImplicit false
set_option relaxedAutoImplicit false

namespace Pegastore.Local

open Outcome ByteMemory

/-- The `put` is inside a slot. -/
def Pc.busy : Pc → Bool
  | .slot => false
  | _ => true

/-- The `put` is about to copy. -/
def Pc.copying : Pc → Bool
  | .copy _ (_ :: _) => true
  | _ => false

/-- The buffers that hold all bytes of the slot. -/
def PutThread.filled (th : PutThread) : List PinnedBuf :=
  match th.pc with
  | .copy filled _ => filled.map Placed.buf
  | .store placed => placed.map Placed.buf
  | _ => []

theorem PutThread.bufs_of_idle {th : PutThread} (h : th.pc.busy = false) : th.bufs = [] := by
  unfold PutThread.bufs
  cases hpc : th.pc with
  | slot => rfl
  | _ =>
    rw [hpc] at h
    cases h

/-- A `put` went on without acquiring anything: it is on the same slot, or it skipped one that it
had not claimed. -/
structure Follows (th th' : PutThread) : Prop where
  key_eq : th'.key = th.key
  op_eq : th'.op = th.op
  writable_eq : th'.writable = th.writable
  next : th'.i = th.i ∨ (th'.i = th.i + 1 ∧ th.writable[th.i]? = some false)
  current : th'.pc.busy = true →
    th'.i = th.i ∧ (th.pc.busy = true ∨ th'.writable[th'.i]? = some true)
  bufs : th'.bufs = [] ∨ th'.bufs = th.bufs
  filled : ∀ b ∈ th'.filled, b ∈ th.filled
  results : (th'.i = th.i ∧ th'.results = th.results) ∨
    (th'.i = th.i + 1 ∧ ∃ e, th'.results = th.results ++ [.error e])

theorem Follows.refl (th : PutThread) : Follows th th :=
  ⟨rfl, rfl, rfl, .inl rfl, fun hbusy ↦ ⟨rfl, .inl hbusy⟩, .inr rfl, fun _ hb ↦ hb,
    .inl ⟨rfl, rfl⟩⟩

theorem Follows.le {th th' : PutThread} (h : Follows th th') : th.i ≤ th'.i := by
  rcases h.next with heq | ⟨heq, _⟩ <;> omega

/-- Every `put` in flight is still in flight. -/
def Alive (w w' : World) : Prop :=
  ∀ t th, w.threads t = some th → ∃ th', w'.threads t = some th' ∧ Follows th th'

theorem Alive.of_threads {w w' : World} (h : w'.threads = w.threads) : Alive w w' := by
  intro t th hth
  exact ⟨th, h ▸ hth, Follows.refl th⟩

/-- Nothing was acquired, and the buffers `bs` were released. -/
structure Shed (w w' : World) (bs : List PinnedBuf) : Prop extends Frees w w' bs where
  lossy : Lossy w.state.objects w'.state.objects
  pinned : w'.pinned = w.pinned
  nextPut : w'.nextPut = w.nextPut
  follows : ∀ t th', w'.threads t = some th' → ∃ th, w.threads t = some th ∧ Follows th th'

section Shed

variable {w w' : World} {live : List PinnedBuf}

/-- The threads went on with the buffers they had, or ended with none. -/
structure SameBufs (w w' : World) : Prop where
  follows : ∀ t th', w'.threads t = some th' →
    ∃ th, w.threads t = some th ∧ Follows th th' ∧ th'.bufs = th.bufs
  kept : ∀ t th, w.threads t = some th → th.bufs = [] ∨
    ∃ th', w'.threads t = some th' ∧ th'.bufs = th.bufs

theorem SameBufs.of_threads (h : w'.threads = w.threads) : SameBufs w w' where
  follows := fun _ th' hth' ↦ ⟨th', h ▸ hth', Follows.refl th', rfl⟩
  kept := fun _ th hth ↦ .inr ⟨th, h ▸ hth, rfl⟩

/-- The metadata and the `get`s let go of buffers, and those that nobody else holds are released. -/
theorem shed_drop (h : Exclusive w live) (dropped held : List PinnedBuf) (hheld : w'.held = held)
    (hpools : w'.pools = releaseBufs w.pools (dropped.filter fun b ↦ b ∉ held).dedup)
    (hnextBuf : w'.nextBuf = w.nextBuf) (hnextPut : w'.nextPut = w.nextPut)
    (hpinned : w'.pinned = w.pinned) (hlossy : Lossy w.state.objects w'.state.objects)
    (hsub : ∀ b ∈ held, b ∈ w.held) (hdropped : ∀ b ∈ dropped, b ∈ w.held)
    (hkept : ∀ b ∈ w.held, b ∈ held ∨ b ∈ dropped) (hthreads : SameBufs w w') :
    Shed w w' (dropped.filter fun b ↦ b ∉ held).dedup := by
  have hmem : ∀ b, b ∈ (dropped.filter fun b ↦ b ∉ held).dedup ↔ b ∈ dropped ∧ b ∉ held := by
    intro b
    rw [List.mem_dedup, List.mem_filter, decide_eq_true_iff]
  constructor
  case lossy => exact hlossy
  case pinned => exact hpinned
  case nextPut => exact hnextPut
  case follows =>
    intro t th' hth'
    obtain ⟨th, hth, hfollows, _⟩ := hthreads.follows t th' hth'
    exact ⟨th, hth, hfollows⟩
  constructor
  case pools => exact hpools
  case nextBuf => exact hnextBuf
  case nodup => exact List.nodup_dedup _
  case source => exact fun b hb ↦ .inl (hdropped b ((hmem b).mp hb).1)
  case kept =>
    intro b howns
    rcases howns with hb | ⟨t, th, hth, hb⟩
    · by_cases hstill : b ∈ held
      · exact .inr (.inl (hheld ▸ hstill))
      · exact .inl ((hmem b).mpr ⟨(hkept b hb).resolve_left hstill, hstill⟩)
    · rcases hthreads.kept t th hth with hnil | ⟨th', hth', hbufs⟩
      · rw [hnil] at hb
        exact absurd hb List.not_mem_nil
      · exact .inr (.inr ⟨t, th', hth', hbufs ▸ hb⟩)
  case held =>
    intro b hb
    rw [hheld] at hb
    exact ⟨hsub b hb, fun hin ↦ ((hmem b).mp hin).2 hb⟩
  case threads =>
    intro t th' hth'
    obtain ⟨th, hth, _, hbufs⟩ := hthreads.follows t th' hth'
    refine .inr ⟨th, hth, hbufs, fun b hb hin ↦ ?_⟩
    exact (h.thread t th hth b hb).2 (hdropped b ((hmem b).mp hin).1)

/-- A thread drops its buffers. -/
theorem shed_release (h : Exclusive w live) {t : ℕ} {th : PutThread} {o : Option PutThread}
    (hth : w.threads t = some th) (hpools : w'.pools = releaseBufs w.pools th.bufs)
    (hnextBuf : w'.nextBuf = w.nextBuf) (hnextPut : w'.nextPut = w.nextPut)
    (hpinned : w'.pinned = w.pinned) (hstate : w'.state = w.state) (hheld : w'.held = w.held)
    (hthreads : w'.threads = Function.update w.threads t o)
    (ho : ∀ th', o = some th' → Follows th th' ∧ th'.bufs = []) : Shed w w' th.bufs := by
  have hsource : ∀ t' th', w'.threads t' = some th' →
      (t' = t ∧ o = some th') ∨ (t' ≠ t ∧ w.threads t' = some th') := by
    intro t' th' hth'
    rw [hthreads] at hth'
    by_cases heq : t' = t
    · subst heq
      rw [Function.update_self] at hth'
      exact .inl ⟨rfl, hth'⟩
    · rw [Function.update_of_ne heq] at hth'
      exact .inr ⟨heq, hth'⟩
  constructor
  case lossy =>
    rw [hstate]
    exact Lossy.refl _
  case pinned => exact hpinned
  case nextPut => exact hnextPut
  case follows =>
    intro t' th' hth'
    rcases hsource t' th' hth' with ⟨rfl, hsome⟩ | ⟨_, hsame⟩
    · exact ⟨th, hth, (ho th' hsome).1⟩
    · exact ⟨th', hsame, Follows.refl th'⟩
  constructor
  case pools => exact hpools
  case nextBuf => exact hnextBuf
  case nodup => exact h.nodup t th hth
  case source => exact fun b hb ↦ .inr ⟨t, th, hth, hb⟩
  case kept =>
    intro b howns
    rcases howns with hb | ⟨t', other, hother, hb⟩
    · exact .inr (.inl (hheld ▸ hb))
    · by_cases heq : t' = t
      · rw [heq, hth] at hother
        cases hother
        exact .inl hb
      · refine .inr (.inr ⟨t', other, ?_, hb⟩)
        rw [hthreads, Function.update_of_ne heq]
        exact hother
  case held =>
    intro b hb
    rw [hheld] at hb
    exact ⟨hb, fun hin ↦ (h.thread t th hth b hin).2 hb⟩
  case threads =>
    intro t' th' hth'
    rcases hsource t' th' hth' with ⟨rfl, hsome⟩ | ⟨hne, hsame⟩
    · exact .inl (ho th' hsome).2
    · refine .inr ⟨th', hsame, rfl, fun b hb hin ↦ ?_⟩
      exact hne (h.holder t' t th' th hsame hth b hb hin)

/-- Only the threads changed. -/
theorem shed_threads (h : Exclusive w live) {threads : ℕ → Option PutThread}
    (hthreads : SameBufs w { w with threads := threads }) :
    Shed w { w with threads := threads } [] :=
  shed_drop h [] w.held rfl rfl rfl rfl rfl (Lossy.refl _) (fun _ hb ↦ hb)
    (fun _ hb ↦ absurd hb List.not_mem_nil) (fun _ hb ↦ .inl hb) hthreads

variable {t : ℕ} {th : PutThread}

/-- One thread went on. -/
theorem sameBufs_update (hth : w.threads t = some th) {th' : PutThread} (hfollows : Follows th th')
    (hbufs : th'.bufs = th.bufs) (hthreads : w'.threads = Function.update w.threads t (some th')) :
    SameBufs w w' where
  follows := by
    intro t' other hother
    rw [hthreads] at hother
    by_cases heq : t' = t
    · subst heq
      rw [Function.update_self] at hother
      cases hother
      exact ⟨th, hth, hfollows, hbufs⟩
    · rw [Function.update_of_ne heq] at hother
      exact ⟨other, hother, Follows.refl other, rfl⟩
  kept := by
    intro t' other hother
    right
    rw [hthreads]
    by_cases heq : t' = t
    · subst heq
      rw [hth] at hother
      cases hother
      exact ⟨th', Function.update_self .., hbufs⟩
    · exact ⟨other, by rw [Function.update_of_ne heq]; exact hother, rfl⟩

theorem alive_update (hth : w.threads t = some th) {th' : PutThread} (hfollows : Follows th th')
    (hthreads : w'.threads = Function.update w.threads t (some th')) : Alive w w' := by
  intro t' other hother
  rw [hthreads]
  by_cases heq : t' = t
  · subst heq
    rw [hth] at hother
    cases hother
    exact ⟨th', Function.update_self .., hfollows⟩
  · exact ⟨other, by rw [Function.update_of_ne heq]; exact hother, Follows.refl other⟩

/-- A thread without buffers ends. -/
theorem shed_endThread (h : Exclusive w live) (hth : w.threads t = some th) (hidle : th.bufs = []) :
    Shed w (w.endThread t) [] := by
  refine shed_threads h ⟨fun t' other hother ↦ ?_, fun t' other hother ↦ ?_⟩
  · change Function.update w.threads t none t' = some other at hother
    by_cases heq : t' = t
    · subst heq
      rw [Function.update_self] at hother
      cases hother
    · rw [Function.update_of_ne heq] at hother
      exact ⟨other, hother, Follows.refl other, rfl⟩
  · by_cases heq : t' = t
    · subst heq
      rw [hth] at hother
      cases hother
      exact .inl hidle
    · refine .inr ⟨other, ?_, rfl⟩
      change Function.update w.threads t none t' = some other
      rw [Function.update_of_ne heq]
      exact hother

end Shed

/-! ### The steps of a `put` in flight -/

/-- What a step of a `put` on slot `ps` leads to, and what it reports. -/
inductive Advanced (inner : Inner) (mem : ByteSpace) (w : World) (t : ℕ) (th : PutThread)
    (ps : PutSlot) : CopyOutcome → World × Reply → Prop
  /-- It only let go of things. -/
  | shed {outcome : CopyOutcome} {w' : World} {bs : List PinnedBuf}
    (hcopying : th.pc.copying = false) (hshed : Shed w w' bs) (halive : Alive w w')
    (hkeeps : KeepsClaims w.state.objects w'.state.objects) (hlock : w'.poisoned = w.poisoned) :
    Advanced inner mem w t th ps outcome (w', .running)
  /-- It unwound and dropped its buffers. -/
  | unwound {outcome : CopyOutcome} {w' : World} {bs : List PinnedBuf} {reason : Panic}
    (hcopying : th.pc.copying = false) (hshed : Shed w w' bs) :
    Advanced inner mem w t th ps outcome (w', .panicked reason)
  /-- It took a new buffer of the length of the slot. -/
  | allocated {outcome : CopyOutcome} {numa : UInt16} {pool after : PinnedPool} {buf : PinnedBuf}
    {pc : Pc} (hcopying : th.pc.copying = false) (hbusy : th.pc.busy = true)
    (hpool : w.pools numa = some pool)
    (halloc : Allocated inner.checks pool w.nextBuf ps.spec.len buf after) (hnext : pc.busy = true)
    (hbufs : { th with pc := pc }.bufs = th.bufs ++ [buf])
    (hfilled : { th with pc := pc }.filled = []) :
    Advanced inner mem w t th ps outcome ({ w with
      pools := Function.update w.pools numa (some after)
      nextBuf := w.nextBuf + 1 }.setThread t { th with pc := pc }, .running)
  /-- It copied the source into the next buffer. -/
  | copied {filled todo : List Placed} {x : Placed} (hpc : th.pc = .copy filled (x :: todo)) :
    Advanced inner mem w t th ps .done ((w.fill x.buf (readAll mem (segsOf ps.src))).setThread t
      { th with pc := .copy (filled ++ [x]) todo }, .running)
  /-- A copy into the next buffer failed, and the buffers were dropped. -/
  | spilled {filled todo : List Placed} {x : Placed} {e : Error} {moved : List UInt8}
    {w' : World} {bs : List PinnedBuf} (hpc : th.pc = .copy filled (x :: todo))
    (hx : x.buf ∈ bs) (hshed : Shed (w.fill x.buf moved) w' bs) (halive : Alive w w')
    (hstate : w'.state = w.state) (hlock : w'.poisoned = w.poisoned) :
    Advanced inner mem w t th ps (.failed e moved) (w', .running)
  /-- It stored the slot. -/
  | stored {outcome : CopyOutcome} {placed : List Placed} {st : State} (hpc : th.pc = .store placed)
    (hstore : w.state.store th.key th.i placed = .ok (.ok st)) :
    Advanced inner mem w t th ps outcome
      ({ w with state := st }.setThread t (th.reported (.ok ())), .running)
  /-- It gave the claim of a failed slot back. -/
  | unclaimed {outcome : CopyOutcome} {e : Error} {st : State} {r : Error} (hpc : th.pc = .failed e)
    (hunclaim : w.state.unclaim th.key th.i = .ok st) :
    Advanced inner mem w t th ps outcome
      ({ w with state := st }.setThread t (th.reported (.error r)), .running)

section Advanced

variable {inner : Inner} {mem : ByteSpace} {w : World} {live : List PinnedBuf} {t : ℕ}
  {th : PutThread} {ps : PutSlot} {outcome : CopyOutcome}

/-- A `put` goes on with the buffers it has. -/
theorem advanced_goto (h : Exclusive w live) (hth : w.threads t = some th)
    (hcopying : th.pc.copying = false) {pc : Pc}
    (hclaimed : th.pc.busy = true ∨ th.writable[th.i]? = some true)
    (hplaced : pc.placed = th.pc.placed)
    (hfilled : ∀ b ∈ { th with pc := pc }.filled, b ∈ th.filled) :
    Advanced inner mem w t th ps outcome (w.goto t th pc) := by
  have hbufs : { th with pc := pc }.bufs = th.bufs := congrArg (List.map Placed.buf) hplaced
  have hfollows : Follows th { th with pc := pc } :=
    ⟨rfl, rfl, rfl, .inl rfl, fun _ ↦ ⟨rfl, hclaimed⟩, .inr hbufs, hfilled, .inl ⟨rfl, rfl⟩⟩
  exact .shed hcopying (shed_threads h (sameBufs_update hth hfollows hbufs rfl))
    (alive_update hth hfollows rfl) (KeepsClaims.refl _) rfl

/-- A `put` skips a slot it has not claimed. -/
theorem advanced_report (h : Exclusive w live) (hth : w.threads t = some th)
    (hcopying : th.pc.copying = false) (hidle : th.pc.busy = false)
    (hskip : th.writable[th.i]? = some false) (e : Error) :
    Advanced inner mem w t th ps outcome (w.report t th (.error e)) := by
  have hbufs := PutThread.bufs_of_idle hidle
  have hfollows : Follows th (th.reported (.error e)) :=
    ⟨rfl, rfl, rfl, .inr ⟨rfl, hskip⟩, nofun, .inl rfl, fun _ hb ↦ absurd hb List.not_mem_nil,
      .inr ⟨rfl, e, rfl⟩⟩
  exact .shed hcopying (shed_threads h (sameBufs_update hth hfollows hbufs.symm rfl))
    (alive_update hth hfollows rfl) (KeepsClaims.refl _) rfl

/-- A slot that fails is still the one the `put` works on. -/
theorem follows_failed (hclaimed : th.pc.busy = true ∨ th.writable[th.i]? = some true) (e : Error) :
    Follows th { th with pc := .failed e } :=
  ⟨rfl, rfl, rfl, .inl rfl, fun _ ↦ ⟨rfl, hclaimed⟩, .inl rfl,
    fun _ hb ↦ absurd hb List.not_mem_nil, .inl ⟨rfl, rfl⟩⟩

theorem shed_fail (h : Exclusive w live) (hth : w.threads t = some th)
    (hclaimed : th.pc.busy = true ∨ th.writable[th.i]? = some true) (e : Error) :
    Shed w (w.fail t th e).1 th.bufs := by
  refine shed_release h hth rfl rfl rfl rfl rfl rfl rfl fun th' hth' ↦ ?_
  cases hth'
  exact ⟨follows_failed hclaimed e, rfl⟩

theorem advanced_fail (h : Exclusive w live) (hth : w.threads t = some th)
    (hcopying : th.pc.copying = false)
    (hclaimed : th.pc.busy = true ∨ th.writable[th.i]? = some true) (e : Error) :
    Advanced inner mem w t th ps outcome (w.fail t th e) :=
  .shed hcopying (shed_fail h hth hclaimed e) (alive_update hth (follows_failed hclaimed e) rfl)
    (KeepsClaims.refl _) rfl

theorem advanced_unwind (h : Exclusive w live) (hth : w.threads t = some th)
    (hcopying : th.pc.copying = false) (reason : Panic) :
    Advanced inner mem w t th ps outcome (w.unwind t th reason) :=
  .unwound hcopying (shed_release h hth rfl rfl rfl rfl rfl rfl rfl fun _ hnone ↦ by cases hnone)

theorem advanced_poison (h : Exclusive w live) (hth : w.threads t = some th)
    (hcopying : th.pc.copying = false) (reason : Panic) :
    Advanced inner mem w t th ps outcome (w.poison t th reason) :=
  .unwound hcopying (shed_release h hth rfl rfl rfl rfl rfl rfl rfl fun _ hnone ↦ by cases hnone)

/-- A section unwinds, or it returned a value. -/
theorem locked_cases (h : Exclusive w live) (hth : w.threads t = some th)
    (hcopying : th.pc.copying = false) {α : Type} (sec : Exec α)
    (next : α → World × Reply)
    (hnext : ∀ a, sec = .ok a → Advanced inner mem w t th ps outcome (next a)) :
    Advanced inner mem w t th ps outcome (w.locked t th sec next) := by
  unfold World.locked
  split_ifs
  · exact advanced_unwind h hth hcopying _
  · cases sec with
    | error reason => exact advanced_poison h hth hcopying reason
    | ok a => exact hnext a rfl

theorem filled_missed (th : PutThread) (p : Placing) (each : Bool) (rest : List (UInt16 × Bool))
    (e : Error) : { th with pc := p.missed each rest e }.filled = [] := rfl

theorem placed_missed (p : Placing) (each : Bool) (rest : List (UInt16 × Bool)) (e : Error) :
    (p.missed each rest e).placed = p.placed := rfl

/-- A `put` goes on inside the placement loop, where no buffer is filled yet. -/
theorem advanced_place (h : Exclusive w live) (hth : w.threads t = some th)
    (hcopying : th.pc.copying = false) (hbusy : th.pc.busy = true) {pc : Pc}
    (hplaced : pc.placed = th.pc.placed) (hfilled : { th with pc := pc }.filled = []) :
    Advanced inner mem w t th ps outcome (w.goto t th pc) := by
  refine advanced_goto h hth hcopying (.inl hbusy) hplaced fun b hb ↦ ?_
  rw [hfilled] at hb
  exact absurd hb List.not_mem_nil

theorem takeBuf_cases (h : Exclusive w live) (hth : w.threads t = some th)
    (hcopying : th.pc.copying = false) (hbusy : th.pc.busy = true)
    {each : Bool} {target : UInt16 × Bool} {rest : List (UInt16 × Bool)} {p : Placing} {full : Pc}
    {pool : PinnedPool} (hpool : w.pools target.1 = some pool) (hp : th.pc.placed = p.placed)
    (hplaced : full.placed = p.placed) (hfilled : { th with pc := full }.filled = [])
    (found : Exec (Option (PinnedBuf × PinnedPool)))
    (hfound : ∀ buf after, found = .ok (some (buf, after)) →
      Allocated inner.checks pool w.nextBuf ps.spec.len buf after) :
    Advanced inner mem w t th ps outcome (w.takeBuf t th each target rest p full found) := by
  cases found with
  | error reason => exact advanced_unwind h hth hcopying reason
  | ok result =>
    cases result with
    | none => exact advanced_place h hth hcopying hbusy (hplaced.trans hp.symm) hfilled
    | some pair =>
      refine .allocated hcopying hbusy hpool (hfound pair.1 pair.2 rfl) rfl ?_ rfl
      unfold PutThread.bufs
      rw [hp]
      exact List.map_append

theorem tryAlloc_cases (h : Exclusive w live) (hth : w.threads t = some th)
    (hcopying : th.pc.copying = false) (hbusy : th.pc.busy = true)
    {target : UInt16 × Bool} {rest : List (UInt16 × Bool)} {p : Placing} {full : PinnedPool → Pc}
    (hp : th.pc.placed = p.placed) (hplaced : ∀ pool, (full pool).placed = p.placed)
    (hfilled : ∀ pool, { th with pc := full pool }.filled = []) :
    Advanced inner mem w t th ps outcome (w.tryAlloc inner t th ps target rest p full) := by
  unfold World.tryAlloc
  cases hpool : w.pools target.1 with
  | none =>
    refine advanced_place h hth hcopying hbusy ?_ (filled_missed _ _ _ _ _)
    rw [placed_missed, hp]
  | some pool =>
    exact takeBuf_cases h hth hcopying hbusy hpool hp (hplaced pool) (hfilled pool) _
      fun buf after ↦ PinnedPool.alloc_spec

theorem evict_cases (h : Exclusive w live) (hth : w.threads t = some th) {target : UInt16 × Bool}
    {rest : List (UInt16 × Bool)} {p : Placing} (hpc : th.pc = .evict target rest p) :
    Advanced inner mem w t th ps outcome (w.evict t th target rest p) := by
  unfold World.evict
  refine locked_cases h hth (by rw [hpc]; rfl) _ _ ?_
  intro ⟨evicted, dropped, st⟩ hround
  have hdrop := evictRound_dropping hround
  have hsub : ∀ b ∈ { w with state := st }.held, b ∈ w.held := by
    intro b hb
    rcases List.mem_append.mp hb with hb | hb
    · exact List.mem_append_left _ (hdrop.lossy.bufsIn hb)
    · exact List.mem_append_right _ hb
  have hkept : ∀ b ∈ w.held, b ∈ { w with state := st }.held ∨ b ∈ dropped := by
    intro b hb
    rcases List.mem_append.mp hb with hb | hb
    · exact (hdrop.kept b hb).imp_left (List.mem_append_left _)
    · exact .inl (List.mem_append_right _ hb)
  have hbufs : { th with pc := .retry target rest p evicted }.bufs = th.bufs := by
    unfold PutThread.bufs
    rw [hpc]
    rfl
  have hfollows : Follows th { th with pc := .retry target rest p evicted } :=
    ⟨rfl, rfl, rfl, .inl rfl, fun _ ↦ ⟨rfl, .inl (by rw [hpc]; rfl)⟩, .inr hbufs,
      fun _ hb ↦ absurd hb List.not_mem_nil, .inl ⟨rfl, rfl⟩⟩
  exact .shed (by rw [hpc]; rfl) (shed_drop h dropped { w with state := st }.held rfl rfl rfl rfl
    rfl hdrop.lossy hsub (fun b hb ↦ List.mem_append_left _ (hdrop.bufs b hb)) hkept
    (sameBufs_update hth hfollows hbufs rfl)) (alive_update hth hfollows rfl)
    (evictRound_keepsClaims hround) rfl

theorem endPlacing_cases (h : Exclusive w live) (hth : w.threads t = some th) {p : Placing}
    (hpc : th.pc = .place [] p) :
    Advanced inner mem w t th ps outcome (w.endPlacing t th ps p) := by
  have hbusy : th.pc.busy = true := by rw [hpc]; rfl
  unfold World.endPlacing
  split_ifs
  · exact advanced_fail h hth (by rw [hpc]; rfl) (.inl hbusy) _
  · exact advanced_place h hth (by rw [hpc]; rfl) hbusy (by rw [hpc]; rfl) rfl

theorem beginSlot_cases (h : Exclusive w live) (hth : w.threads t = some th) (hpc : th.pc = .slot) :
    Advanced inner mem w t th ps outcome (w.beginSlot inner t th ps) := by
  unfold World.beginSlot
  cases hwritable : th.writable[th.i]? with
  | none => exact advanced_unwind h hth (by rw [hpc]; rfl) _
  | some claimed =>
    cases claimed with
    | false => exact advanced_report h hth (by rw [hpc]; rfl) (by rw [hpc]; rfl) hwritable _
    | true =>
      dsimp only
      cases inner.targets ps.spec.placement with
      | error e => exact advanced_fail h hth (by rw [hpc]; rfl) (.inr hwritable) e
      | ok targets =>
        exact advanced_goto h hth (by rw [hpc]; rfl) (.inr hwritable) (by rw [hpc]; rfl)
          fun _ hb ↦ absurd hb List.not_mem_nil

theorem copyIn_cases (h : Exclusive w live) (hth : w.threads t = some th)
    {filled todo : List Placed} {x : Placed} (hpc : th.pc = .copy filled (x :: todo))
    (outcome : CopyOutcome) :
    Advanced inner mem w t th ps outcome (w.copyIn mem t th ps filled x todo outcome) := by
  have hbusy : th.pc.busy = true := by rw [hpc]; rfl
  cases outcome with
  | done => exact .copied hpc
  | failed e moved =>
    have hfilled : Exclusive (w.fill x.buf moved) live :=
      ⟨h.pools, h.held, h.thread, h.nodup, h.holder, h.owned⟩
    have hx : x.buf ∈ th.bufs := by
      unfold PutThread.bufs
      rw [hpc]
      exact List.mem_map_of_mem (List.mem_append_right _ List.mem_cons_self)
    exact .spilled hpc hx (shed_fail hfilled hth (.inl hbusy) e)
      (alive_update hth (follows_failed (.inl hbusy) e) rfl) rfl rfl

theorem store_cases (h : Exclusive w live) (hth : w.threads t = some th) {placed : List Placed}
    (hpc : th.pc = .store placed) : Advanced inner mem w t th ps outcome (w.store t th placed) := by
  refine locked_cases h hth (by rw [hpc]; rfl) _ _ fun r hr ↦ ?_
  cases r with
  | error e => exact advanced_fail h hth (by rw [hpc]; rfl) (.inl (by rw [hpc]; rfl)) e
  | ok st => exact .stored hpc hr

theorem unclaim_cases (h : Exclusive w live) (hth : w.threads t = some th) {e : Error}
    (hpc : th.pc = .failed e) : Advanced inner mem w t th ps outcome (w.unclaim t th e) :=
  locked_cases h hth (by rw [hpc]; rfl) _ _ fun _ hst ↦ .unclaimed hpc hst

/-- Every step of a `put` on a slot is one of those listed. -/
theorem advanceSlot_cases (inner : Inner) (mem : ByteSpace) (h : Exclusive w live)
    (hth : w.threads t = some th) (ps : PutSlot) (outcome : CopyOutcome) :
    Advanced inner mem w t th ps outcome (w.advanceSlot inner mem t th ps outcome) := by
  unfold World.advanceSlot
  split
  · next hpc => exact beginSlot_cases h hth hpc
  · next p hpc => exact endPlacing_cases h hth hpc
  · next target rest p hpc =>
    refine tryAlloc_cases h hth (by rw [hpc]; rfl) (by rw [hpc]; rfl) (by rw [hpc]; rfl)
      (fun pool ↦ ?_) fun pool ↦ ?_
    · split_ifs <;> rfl
    · split_ifs <;> rfl
  · next target rest p hpc => exact evict_cases h hth hpc
  · next target rest p evicted hpc =>
    refine tryAlloc_cases h hth (by rw [hpc]; rfl) (by rw [hpc]; rfl) (by rw [hpc]; rfl)
      (fun _ ↦ ?_) fun _ ↦ ?_
    · split_ifs <;> rfl
    · split_ifs <;> rfl
  · next filled hpc =>
    refine advanced_goto h hth (by rw [hpc]; rfl) (.inl (by rw [hpc]; rfl)) ?_ ?_
    · rw [hpc]
      exact (List.append_nil filled).symm
    · intro b hb
      unfold PutThread.filled
      rw [hpc]
      exact hb
  · next filled x todo hpc => exact copyIn_cases h hth hpc outcome
  · next placed hpc => exact store_cases h hth hpc
  · next e hpc => exact unclaim_cases h hth hpc

end Advanced

/-! ### The steps of all operations -/

/-- The action is a step of a `put` in flight. -/
def Action.advances : Action → Bool
  | .advance _ _ => true
  | _ => false

/-- The action removes objects. -/
def Action.removes : Action → Bool
  | .remove _ | .removePrefix _ => true
  | _ => false

/-- What a step leads to, and what it reports. -/
inductive Stepped (inner : Inner) (mem : ByteSpace) (w : World) : Action → World × Reply → Prop
  /-- It only let go of things; only a removal may take a claimed slot away. -/
  | shed {action : Action} {w' : World} {bs : List PinnedBuf} {r : Reply}
    (hother : action.advances = false) (hshed : Shed w w' bs) (halive : Alive w w')
    (hkeeps : action.removes = false → KeepsClaims w.state.objects w'.state.objects)
    (hlock : w'.poisoned = w.poisoned ∨ ∃ reason, r = .panicked reason) :
    Stepped inner mem w action (w', r)
  /-- A `put` began. -/
  | began {key : Key} {op : OpPut} {writable : List Bool} {st : State}
    (hvalid : op.validate = .ok ()) (hclaim : w.state.claim key op.spec = .ok (writable, st)) :
    Stepped inner mem w (.beginPut key op)
      ({ w with state := st, nextPut := w.nextPut + 1 }.setThread w.nextPut
        ⟨key, op, writable, 0, [], .slot⟩, .running)
  /-- A `put` went on. -/
  | advanced {t : ℕ} {th : PutThread} {ps : PutSlot} {outcome : CopyOutcome} {r : World × Reply}
    (hth : w.threads t = some th) (hps : th.op.slots[th.i]? = some ps)
    (hadvanced : Advanced inner mem w t th ps outcome r) :
    Stepped inner mem w (.advance t outcome) r
  /-- A `put` returned. -/
  | returned {t : ℕ} {th : PutThread} {outcome : CopyOutcome} (hth : w.threads t = some th)
    (hend : th.op.slots[th.i]? = none) :
    Stepped inner mem w (.advance t outcome) (w.endThread t, .put (.ok ⟨th.results⟩))

section Stepped

variable {inner : Inner} {mem : ByteSpace} {w : World} {live : List PinnedBuf} {action : Action}

/-- Metadata and `get`s let go of buffers, and no `put` moved. -/
theorem stepped_drop (h : Exclusive w live) (hother : action.advances = false) {w' : World}
    {r : Reply} (dropped held : List PinnedBuf)
    (hheld : w'.held = held)
    (hpools : w'.pools = releaseBufs w.pools (dropped.filter fun b ↦ b ∉ held).dedup)
    (hnextBuf : w'.nextBuf = w.nextBuf) (hnextPut : w'.nextPut = w.nextPut)
    (hpinned : w'.pinned = w.pinned) (hthreads : w'.threads = w.threads)
    (hlossy : Lossy w.state.objects w'.state.objects)
    (hsub : ∀ b ∈ held, b ∈ w.held) (hdropped : ∀ b ∈ dropped, b ∈ w.held)
    (hkept : ∀ b ∈ w.held, b ∈ held ∨ b ∈ dropped)
    (hkeeps : action.removes = false → KeepsClaims w.state.objects w'.state.objects)
    (hlock : w'.poisoned = w.poisoned ∨ ∃ reason, r = .panicked reason) :
    Stepped inner mem w action (w', r) :=
  .shed hother (shed_drop h dropped held hheld hpools hnextBuf hnextPut hpinned hlossy hsub hdropped
    hkept (SameBufs.of_threads hthreads)) (Alive.of_threads hthreads) hkeeps hlock

/-- Only the lock may have been poisoned. -/
theorem stepped_lock (h : Exclusive w live) (hother : action.advances = false) (poisoned : Bool)
    {r : Reply} (hlock : poisoned = w.poisoned ∨ ∃ reason, r = .panicked reason) :
    Stepped inner mem w action ({ w with poisoned := poisoned }, r) :=
  stepped_drop h hother [] w.held rfl rfl rfl rfl rfl rfl (Lossy.refl _) (fun _ hb ↦ hb)
    (fun _ hb ↦ absurd hb List.not_mem_nil) (fun _ hb ↦ .inl hb) (fun _ ↦ KeepsClaims.refl _) hlock

theorem stepped_same (h : Exclusive w live) (hother : action.advances = false) (r : Reply) :
    Stepped inner mem w action (w, r) :=
  stepped_lock h hother w.poisoned (.inl rfl)

/-- A section panics, or it returned a value. -/
theorem section_cases (h : Exclusive w live) (hother : action.advances = false) {α : Type}
    (sec : Exec α) (next : α → World × Reply)
    (hnext : ∀ a, sec = .ok a → Stepped inner mem w action (next a)) :
    Stepped inner mem w action (w.section sec next) := by
  unfold World.section
  split_ifs
  · exact stepped_same h hother _
  · cases sec with
    | error reason => exact stepped_lock h hother true (.inr ⟨reason, rfl⟩)
    | ok a => exact hnext a rfl

/-- The metadata let go of buffers. -/
theorem stepped_dropping (h : Exclusive w live) (hother : action.advances = false) {st : State}
    {dropped : List PinnedBuf} {r : Reply}
    (hdrop : Dropping w.state.objects dropped st.objects)
    (hkeeps : action.removes = false → KeepsClaims w.state.objects st.objects) :
    Stepped inner mem w action ({ w with state := st }.dropArcs dropped, r) := by
  refine stepped_drop h hother dropped { w with state := st }.held rfl rfl rfl rfl rfl rfl
    hdrop.lossy ?_ (fun b hb ↦ List.mem_append_left _ (hdrop.bufs b hb)) ?_ hkeeps (.inl rfl)
  · intro b hb
    rcases List.mem_append.mp hb with hb | hb
    · exact List.mem_append_left _ (hdrop.lossy.bufsIn hb)
    · exact List.mem_append_right _ hb
  · intro b hb
    rcases List.mem_append.mp hb with hb | hb
    · exact (hdrop.kept b hb).imp_left (List.mem_append_left _)
    · exact .inl (List.mem_append_right _ hb)

theorem beginPut_cases (h : Exclusive w live) (key : Key) (op : OpPut) :
    Stepped inner mem w (.beginPut key op) (w.beginPut key op) := by
  unfold World.beginPut
  cases hvalid : op.validate with
  | error e => exact stepped_same h rfl _
  | ok _ =>
    refine section_cases h rfl _ _ fun r hr ↦ ?_
    cases hr
    cases hclaim : w.state.claim key op.spec with
    | error e => exact stepped_same h rfl _
    | ok pair => exact .began hvalid hclaim

theorem publish_cases (h : Exclusive w live) (key : Key) (op : OpPublish) :
    Stepped inner mem w (.publish key op) (w.publish key op) := by
  unfold World.publish
  cases op.validate with
  | error e => exact stepped_same h rfl _
  | ok pair =>
    refine section_cases h rfl _ _ fun r hr ↦ ?_
    cases r with
    | error e => exact stepped_same h rfl _
    | ok st => exact stepped_dropping h rfl (publish_dropping hr) fun _ ↦ publish_keepsClaims hr

theorem removeKeys_cases (h : Exclusive w live) (hother : action.advances = false)
    (hremoves : action.removes = true) (keys : List Key)
    (reply : Reply) : Stepped inner mem w action (w.removeKeys keys reply) := by
  refine section_cases h hother _ _ fun r hr ↦ ?_
  cases hr
  refine stepped_dropping h hother (removeKeys_dropping keys w.state.objects) fun hnot ↦ ?_
  rw [hremoves] at hnot
  cases hnot

theorem retireRegion_cases (h : Exclusive w live) (regionId : ℕ) :
    Stepped inner mem w (.retireRegion regionId) (w.retireRegion regionId) := by
  refine section_cases h rfl _ _ fun st hst ↦ ?_
  cases hst
  exact stepped_dropping h rfl (retireRegion_dropping w.state regionId)
    fun _ ↦ retireRegion_keepsClaims w.state regionId

/-- A `get` clones a replica of the metadata. -/
theorem beginGet_cases (h : Exclusive w live) (key : Key) (op : OpGet) :
    Stepped inner mem w (.beginGet key op) (w.beginGet inner key op) := by
  unfold World.beginGet
  cases op.validate with
  | error e => exact stepped_same h rfl _
  | ok pair =>
    refine section_cases h rfl _ _ fun r hr ↦ ?_
    cases r with
    | error e => exact stepped_same h rfl _
    | ok found =>
      obtain ⟨slot, hslot, hreplica⟩ := select_mem hr
      refine stepped_drop h rfl [] _ rfl rfl rfl rfl rfl rfl (Lossy.refl _) ?_
        (fun _ hb ↦ absurd hb List.not_mem_nil) ?_ (fun _ ↦ KeepsClaims.refl _) (.inl rfl)
      · intro b hb
        rcases List.mem_append.mp hb with hb | hb
        · exact List.mem_append_left _ hb
        · rw [List.map_append, bufsOf_append] at hb
          rcases List.mem_append.mp hb with hb | hb
          · exact List.mem_append_right _ hb
          · obtain ⟨r, hr, hbuf⟩ := List.mem_filterMap.mp hb
            rw [List.map_singleton, List.mem_singleton] at hr
            subst hr
            exact List.mem_append_left _ (mem_bufsIn.mpr ⟨key, op.slot.toNat, slot, hslot,
              List.mem_filterMap.mpr ⟨found.1, hreplica, hbuf⟩⟩)
      · intro b hb
        rcases List.mem_append.mp hb with hb | hb
        · exact .inl (List.mem_append_left _ hb)
        · refine .inl (List.mem_append_right _ ?_)
          rw [List.map_append, bufsOf_append]
          exact List.mem_append_left _ hb

/-- The replicas of the `get`s in flight are those of one of them and of the others. -/
theorem mem_bufsOf_readers {readers : List Reader} {k : ℕ} {rd : Reader}
    (hrd : readers[k]? = some rd) (b : PinnedBuf) :
    b ∈ bufsOf (readers.map Reader.replica) ↔
      b ∈ bufsOf ((readers.eraseIdx k).map Reader.replica) ∨ b ∈ bufsOf [rd.replica] := by
  obtain ⟨hlt, rfl⟩ := List.getElem?_eq_some_iff.mp hrd
  have hperm := ((List.getElem_cons_eraseIdx_perm hlt).map Reader.replica).filterMap
    ReplicaEntry.buf?
  have hsplit : bufsOf ((readers[k] :: readers.eraseIdx k).map Reader.replica) =
      bufsOf [readers[k].replica] ++ bufsOf ((readers.eraseIdx k).map Reader.replica) :=
    bufsOf_append [readers[k].replica] _
  change b ∈ (readers.map Reader.replica).filterMap ReplicaEntry.buf? ↔ _
  rw [← hperm.mem_iff]
  change b ∈ bufsOf ((readers[k] :: readers.eraseIdx k).map Reader.replica) ↔ _
  rw [hsplit, List.mem_append, or_comm]

/-- A `get` drops its clone. -/
theorem finishGet_cases (inner : Inner) (h : Exclusive w live) {k : ℕ} {rd : Reader}
    (hrd : w.readers[k]? = some rd) (outcome : CopyOutcome) (r : Reply) :
    Stepped inner mem w (.finishGet k outcome) ((w.finishGet inner mem k rd outcome).1, r) := by
  refine stepped_drop h rfl (bufsOf [rd.replica]) { w with readers := w.readers.eraseIdx k }.held
    rfl rfl rfl rfl rfl rfl (Lossy.refl _) ?_ ?_ ?_ (fun _ ↦ KeepsClaims.refl _) (.inl rfl)
  · intro b hb
    rcases List.mem_append.mp hb with hb | hb
    · exact List.mem_append_left _ hb
    · exact List.mem_append_right _ ((mem_bufsOf_readers hrd b).mpr (.inl hb))
  · intro b hb
    exact List.mem_append_right _ ((mem_bufsOf_readers hrd b).mpr (.inr hb))
  · intro b hb
    rcases List.mem_append.mp hb with hb | hb
    · exact .inl (List.mem_append_left _ hb)
    · exact ((mem_bufsOf_readers hrd b).mp hb).imp_left (List.mem_append_right _)

/-- Every step is one of those listed. -/
theorem exec_cases (h : Exclusive w live) {w' : World} {mem' : ByteSpace} {r : Reply}
    (hexec : w.exec inner mem action = some (w', mem', r)) :
    Stepped inner mem w action (w', r) := by
  cases action with
  | beginPut key op =>
    cases hexec
    exact beginPut_cases h key op
  | advance t outcome =>
    obtain ⟨th, hth, heq⟩ := Option.map_eq_some_iff.mp hexec
    cases heq
    unfold World.advance
    cases hps : th.op.slots[th.i]? with
    | none => exact .returned hth hps
    | some ps => exact .advanced hth hps (advanceSlot_cases inner mem h hth ps outcome)
  | publish key op =>
    cases hexec
    exact publish_cases h key op
  | remove keys =>
    cases hexec
    exact removeKeys_cases h rfl rfl keys _
  | removePrefix start =>
    cases hexec
    exact removeKeys_cases h rfl rfl _ _
  | retireRegion regionId =>
    cases hexec
    exact retireRegion_cases h regionId
  | beginGet key op =>
    cases hexec
    exact beginGet_cases h key op
  | finishGet k outcome =>
    obtain ⟨rd, hrd, heq⟩ := Option.map_eq_some_iff.mp hexec
    cases heq
    exact finishGet_cases inner h hrd outcome _
  | userWrite addr bytes =>
    cases hexec
    exact stepped_same h rfl _

/-- Only a panic poisons the lock. -/
theorem Stepped.poisoned_eq {w' : World} {r : Reply} (h : Stepped inner mem w action (w', r))
    (hreturns : ∀ reason, r ≠ .panicked reason) : w'.poisoned = w.poisoned := by
  cases h with
  | shed _ _ _ _ hlock =>
    refine hlock.resolve_right fun hpanic ↦ ?_
    obtain ⟨reason, hreason⟩ := hpanic
    exact hreturns reason hreason
  | began => rfl
  | returned => rfl
  | advanced _ _ hadvanced =>
    cases hadvanced with
    | shed _ _ _ _ hlock => exact hlock
    | unwound => exact absurd rfl (hreturns _)
    | spilled _ _ _ _ _ hlock => exact hlock
    | allocated => rfl
    | copied => rfl
    | stored => rfl
    | unclaimed => rfl

end Stepped

end Pegastore.Local
