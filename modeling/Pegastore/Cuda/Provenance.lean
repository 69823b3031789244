import Pegastore.Cuda.Flags

/-!
# Where the bytes of a buffer come from

`Moves` restates what a step does together with what it records. From it `Recorded` follows for
every run: a `put` in flight holds buffers that it allocated for the slot it works on, and a buffer
the metadata or a `get` holds was allocated by a `put` for a slot it had claimed and has the length
of that slot.

When no length wraps around, the buffers of different holders do not overlap, so a copy changes the
contents of its own target only (`bytesOf_fill_ne`). Every buffer that is filled then holds the
bytes that were copied into it (`Copied`).
-/

set_option autoImplicit false
set_option relaxedAutoImplicit false

namespace Pegastore.Local

open Outcome ByteMemory Transition

/-! ### Steps with their records -/

/-- Nothing was recorded about `put`s and their buffers. -/
structure Ghost.Kept (g g' : Ghost) : Prop where
  birth : g'.birth = g.birth
  claimant : g'.claimant = g.claimant
  writer : g'.writer = g.writer
  copied : g'.copied = g.copied
  claims : g'.claims = g.claims

/-- What a step leads to, and what it records. -/
inductive Moves (inner : Inner) (n : Node) : Action → World → Ghost → Prop
  /-- Nothing was acquired. -/
  | shed {action : Action} {w' : World} {g' : Ghost} {bs : List PinnedBuf}
    (hshed : Shed n.world w' bs) (hkept : n.ghost.Kept g') : Moves inner n action w' g'
  | began {key : Key} {op : OpPut} {writable : List Bool} {st : State}
    (hvalid : op.validate = .ok ())
    (hclaim : n.world.state.claim key op.spec = .ok (writable, st)) :
    Moves inner n (.beginPut key op)
      ({ n.world with state := st, nextPut := n.world.nextPut + 1 }.setThread n.world.nextPut
        ⟨key, op, writable, 0, [], .slot⟩) (n.ghost.claim n.world key op)
  | allocated {t : ℕ} {outcome : CopyOutcome} {th : PutThread} {ps : PutSlot} {numa : UInt16}
    {pool after : PinnedPool} {buf : PinnedBuf} {pc : Pc} (hth : n.world.threads t = some th)
    (hps : th.op.slots[th.i]? = some ps) (hpool : n.world.pools numa = some pool)
    (halloc : Allocated inner.checks pool n.world.nextBuf ps.spec.len buf after)
    (hbufs : { th with pc := pc }.bufs = th.bufs ++ [buf])
    (hfilled : { th with pc := pc }.filled = []) :
    Moves inner n (.advance t outcome)
      ({ n.world with
        pools := Function.update n.world.pools numa (some after)
        nextBuf := n.world.nextBuf + 1 }.setThread t { th with pc := pc })
      { n.ghost with writer := Function.update n.ghost.writer n.world.nextBuf (some (t, th.i)) }
  | copied {t : ℕ} {th : PutThread} {ps : PutSlot} {filled todo : List Placed} {x : Placed}
    (hth : n.world.threads t = some th) (hps : th.op.slots[th.i]? = some ps)
    (hpc : th.pc = .copy filled (x :: todo)) :
    Moves inner n (.advance t .done)
      ((n.world.fill x.buf (readAll n.mem (segsOf ps.src))).setThread t
        { th with pc := .copy (filled ++ [x]) todo })
      { n.ghost with
        copied := Function.update n.ghost.copied x.buf.id (readAll n.mem (segsOf ps.src)) }
  | spilled {t : ℕ} {th : PutThread} {filled todo : List Placed} {x : Placed} {e : Error}
    {moved : List UInt8} {w' : World} {bs : List PinnedBuf} (hth : n.world.threads t = some th)
    (hpc : th.pc = .copy filled (x :: todo)) (hshed : Shed (n.world.fill x.buf moved) w' bs)
    (hx : x.buf ∈ bs) :
    Moves inner n (.advance t (.failed e moved)) w'
      { n.ghost with copied := Function.update n.ghost.copied x.buf.id moved }
  | stored {t : ℕ} {outcome : CopyOutcome} {th : PutThread} {placed : List Placed} {st : State}
    (hth : n.world.threads t = some th) (hpc : th.pc = .store placed)
    (hstore : n.world.state.store th.key th.i placed = .ok (.ok st)) :
    Moves inner n (.advance t outcome)
      ({ n.world with state := st }.setThread t (th.reported (.ok ()))) n.ghost
  | unclaimed {t : ℕ} {outcome : CopyOutcome} {th : PutThread} {e r : Error} {st : State}
    (hth : n.world.threads t = some th) (hpc : th.pc = .failed e)
    (hunclaim : n.world.state.unclaim th.key th.i = .ok st) :
    Moves inner n (.advance t outcome)
      ({ n.world with state := st }.setThread t (th.reported (.error r))) n.ghost

section Records

variable {g : Ghost} {w w' : World} {mem : ByteSpace}

theorem Ghost.record_other {action : Action} (hother : action.advances = false)
    (hnextPut : w'.nextPut = w.nextPut) : g.Kept (g.record w w' mem action) := by
  cases action with
  | beginPut key op =>
    have hsame : g.record w w' mem (.beginPut key op) = g := if_pos hnextPut
    rw [hsame]
    exact ⟨rfl, rfl, rfl, rfl, rfl⟩
  | advance t outcome => cases hother
  | _ => exact ⟨rfl, rfl, rfl, rfl, rfl⟩

theorem Ghost.record_began {key : Key} {op : OpPut} (hnextPut : w'.nextPut = w.nextPut + 1) :
    g.record w w' mem (.beginPut key op) = g.claim w key op := if_neg (by omega)

theorem Ghost.record_advance {t : ℕ} {th : PutThread} (outcome : CopyOutcome)
    (hth : w.threads t = some th) :
    g.record w w' mem (.advance t outcome) = (g.copy mem th outcome).alloc w w' t th := by
  unfold Ghost.record
  dsimp only
  rw [hth]

theorem Ghost.copy_of_not_copying {th : PutThread} (outcome : CopyOutcome)
    (h : th.pc.copying = false) : g.copy mem th outcome = g := by
  unfold Ghost.copy
  split
  · next hpc _ =>
    rw [hpc] at h
    cases h
  · rfl

theorem Ghost.copy_of_end {th : PutThread} (outcome : CopyOutcome)
    (h : th.op.slots[th.i]? = none) : g.copy mem th outcome = g := by
  unfold Ghost.copy
  rw [h]
  split
  · next hps =>
    cases hps
  · rfl

theorem Ghost.copy_of_copying {th : PutThread} {ps : PutSlot} {filled todo : List Placed}
    {x : Placed} (outcome : CopyOutcome) (hpc : th.pc = .copy filled (x :: todo))
    (hps : th.op.slots[th.i]? = some ps) :
    g.copy mem th outcome =
      { g with copied := Function.update g.copied x.buf.id (outcome.bytes mem ps) } := by
  unfold Ghost.copy
  rw [hpc, hps]

theorem Ghost.alloc_same {t : ℕ} {th : PutThread} (h : w'.nextBuf = w.nextBuf) :
    g.alloc w w' t th = g := if_pos h

theorem Ghost.alloc_new {t : ℕ} {th : PutThread} (h : w'.nextBuf = w.nextBuf + 1) :
    g.alloc w w' t th = { g with writer := Function.update g.writer w.nextBuf (some (t, th.i)) } :=
  if_neg (by omega)

end Records

/-- A step moves the backend and its record. -/
theorem IsStep.moves {inner : Inner} {n n' : Node} {e : Event} {live : List PinnedBuf}
    (h : IsStep inner n e n') (hsound : Sound n.world live) :
    Moves inner n e.action n'.world n'.ghost := by
  obtain ⟨_, hstepped, hghost⟩ := h
  obtain ⟨action, reply⟩ := e
  obtain ⟨w', mem', g'⟩ := n'
  dsimp only at hstepped hghost ⊢
  subst hghost
  cases hstepped with
  | shed hother hshed => exact .shed hshed (Ghost.record_other hother hshed.nextPut)
  | began hvalid hclaim =>
    rw [Ghost.record_began rfl]
    exact .began hvalid hclaim
  | @returned t th outcome hth hend =>
    have hidle := (hsound.paced t th hth).bufs_of_end hend
    refine .shed (shed_endThread hsound.exclusive hth hidle) ?_
    rw [Ghost.record_advance _ hth, Ghost.copy_of_end _ hend, Ghost.alloc_same]
    · exact ⟨rfl, rfl, rfl, rfl, rfl⟩
    · rfl
  | @advanced t th ps outcome _ hth hps hadvanced =>
    rw [Ghost.record_advance _ hth]
    cases hadvanced with
    | shed hcopying hshed =>
      rw [Ghost.copy_of_not_copying _ hcopying, Ghost.alloc_same hshed.nextBuf]
      exact .shed hshed ⟨rfl, rfl, rfl, rfl, rfl⟩
    | unwound hcopying hshed =>
      rw [Ghost.copy_of_not_copying _ hcopying, Ghost.alloc_same hshed.nextBuf]
      exact .shed hshed ⟨rfl, rfl, rfl, rfl, rfl⟩
    | allocated hcopying _ hpool halloc _ hbufs hfilled =>
      rw [Ghost.copy_of_not_copying _ hcopying, Ghost.alloc_new]
      · exact .allocated hth hps hpool halloc hbufs hfilled
      · rfl
    | copied hpc =>
      rw [Ghost.copy_of_copying _ hpc hps, Ghost.alloc_same]
      · exact .copied hth hps hpc
      · rfl
    | spilled hpc hx hshed =>
      have hnextBuf : w'.nextBuf = n.world.nextBuf := hshed.nextBuf
      rw [Ghost.copy_of_copying _ hpc hps, Ghost.alloc_same hnextBuf]
      exact .spilled hth hpc hshed hx
    | stored hpc hstore =>
      rw [Ghost.copy_of_not_copying _ (by rw [hpc]; rfl), Ghost.alloc_same]
      · exact .stored hth hpc hstore
      · rfl
    | unclaimed hpc hunclaim =>
      rw [Ghost.copy_of_not_copying _ (by rw [hpc]; rfl), Ghost.alloc_same]
      · exact .unclaimed hth hpc hunclaim
      · rfl

/-! ### Contents -/

/-- The bytes of a buffer. -/
def World.bytesOf (w : World) (b : PinnedBuf) : List UInt8 := read (w.pinned b.numa) ⟨b.off, b.len⟩

section Contents

variable {w : World} {pools : Pools} {next : ℕ} {live : List PinnedBuf} {b x : PinnedBuf}

/-- A copy into one buffer leaves the others alone, when both are as long as asked for. -/
theorem bytesOf_fill_ne (h : Partitioned pools next live) (hb : b ∈ live) (hx : x ∈ live)
    (hne : b ≠ x) (hfits : b.len ≤ b.reserved) (hfits' : x.len ≤ x.reserved)
    (bytes : List UInt8) : (w.fill x bytes).bytesOf b = w.bytesOf b := by
  unfold World.bytesOf World.fill
  dsimp only
  by_cases hnuma : b.numa = x.numa
  · have hdisjoint := h.disjoint hb hx hne hnuma hfits hfits'
    rw [hnuma, Function.update_self]
    refine read_congr fun a ha ↦ write_of_not_covered _ _ _ fun hcovered ↦ hdisjoint a ha ?_
    have hlen : (bytes.take x.len).length ≤ x.len := List.length_take_le _ _
    exact ⟨hcovered.1, by have hlt := hcovered.2; change a < x.off + x.len; omega⟩
  · rw [Function.update_of_ne hnuma]

/-- A copy of a whole buffer is what it then holds. -/
theorem bytesOf_fill_self {bytes : List UInt8} (hlen : bytes.length = x.len) :
    (w.fill x bytes).bytesOf x = bytes := by
  unfold World.bytesOf World.fill
  dsimp only
  rw [Function.update_self, ← hlen, List.take_length]
  exact read_write _ ⟨x.off, bytes.length⟩ rfl

end Contents

/-! ### The record of every buffer -/

/-- The record of a `put` in flight and of its buffers. -/
structure Carries (g : Ghost) (t : ℕ) (th : PutThread) : Prop where
  claim : ∃ c, g.claims t = some c ∧ c.key = th.key ∧ c.spec = th.op.spec ∧
    c.writable = th.writable
  taken : ∀ b ∈ th.bufs, g.writer b.id = some (t, th.i) ∧
    ∃ ps, th.op.slots[th.i]? = some ps ∧ b.len = ps.spec.len

/-- The buffer was allocated by `put` `p` for slot `i` of its request, which it had claimed, and has
the length of that slot. -/
structure Written (w : World) (g : Ghost) (b : PinnedBuf) (p i : ℕ) (c : Claim) : Prop where
  writer : g.writer b.id = some (p, i)
  below : p < w.nextPut
  claims : g.claims p = some c
  claimed : c.writable[i]? = some true
  len : (c.spec.slots[i]?).map SlotSpec.len = some b.len

/-- Every buffer is on record. -/
structure Recorded (w : World) (g : Ghost) : Prop where
  threads : ∀ t th, w.threads t = some th → Carries g t th
  held : ∀ b ∈ w.held, ∃ p i c, Written w g b p i c

section Carries

variable {w w' : World} {g g' : Ghost} {t : ℕ} {th th' : PutThread}

/-- A record outlives steps of others. -/
theorem Carries.congr (h : Carries g t th) (hclaims : g'.claims t = g.claims t)
    (hwriter : ∀ b ∈ th.bufs, g'.writer b.id = g.writer b.id) : Carries g' t th where
  claim := by
    rw [hclaims]
    exact h.claim
  taken := by
    intro b hb
    rw [hwriter b hb]
    exact h.taken b hb

theorem Carries.follows (h : Carries g t th) (hfollows : Follows th th') : Carries g t th' where
  claim := by
    rw [hfollows.key_eq, hfollows.op_eq, hfollows.writable_eq]
    exact h.claim
  taken := by
    intro b hb
    have hbusy : th'.pc.busy = true := by
      refine Bool.eq_true_of_not_eq_false fun hidle ↦ ?_
      rw [PutThread.bufs_of_idle hidle] at hb
      exact List.not_mem_nil hb
    rw [(hfollows.current hbusy).1, hfollows.op_eq]
    exact h.taken b (hfollows.mem_bufs hb)

/-- The `put` goes on with buffers it had. -/
theorem Carries.goto (h : Carries g t th) {pc : Pc}
    (hbufs : ∀ b ∈ { th with pc := pc }.bufs, b ∈ th.bufs) : Carries g t { th with pc := pc } :=
  ⟨h.claim, fun b hb ↦ h.taken b (hbufs b hb)⟩

/-- The `put` goes on with the next slot. -/
theorem Carries.reported (h : Carries g t th) (r : Result Unit) : Carries g t (th.reported r) :=
  ⟨h.claim, fun _ hb ↦ absurd hb List.not_mem_nil⟩

/-- The bytes of a slot's source are as many as its buffers are long. -/
theorem Carries.length_source (h : Carries g t th) (hpaced : th.Paced) {ps : PutSlot}
    (hps : th.op.slots[th.i]? = some ps) (mem : ByteSpace) {b : PinnedBuf} (hb : b ∈ th.bufs) :
    (readAll mem (segsOf ps.src)).length = b.len := by
  obtain ⟨_, found, hfound, hlen⟩ := h.taken b hb
  rw [hps] at hfound
  cases hfound
  obtain ⟨device, hvalid⟩ := hpaced.valid ps (List.mem_of_getElem? hps)
  rw [length_readAll, ← hvalid.total_eq, hlen]

/-- A stored buffer is on record as one of the `put` and the slot that stored it. -/
theorem Carries.written (h : Carries g t th) (hpaced : th.Paced) (hlt : t < w.nextPut)
    {b : PinnedBuf} (hb : b ∈ th.bufs) (hbusy : th.pc.busy = true) :
    ∃ c, Written w g b t th.i c ∧ c.key = th.key ∧ c.spec = th.op.spec := by
  obtain ⟨c, hc, hkey, hspec, hwritable⟩ := h.claim
  obtain ⟨hwriter, ps, hps, hlen⟩ := h.taken b hb
  refine ⟨c, ⟨hwriter, hlt, hc, by rw [hwritable]; exact hpaced.claimed hbusy, ?_⟩, hkey, hspec⟩
  rw [hspec]
  change ((th.op.slots.map PutSlot.spec)[th.i]?).map SlotSpec.len = some b.len
  rw [List.getElem?_map, hps, hlen]
  rfl

theorem Written.congr {b : PinnedBuf} {p i : ℕ} {c : Claim} (h : Written w g b p i c)
    (hwriter : g'.writer b.id = g.writer b.id) (hclaims : g'.claims p = g.claims p)
    (hle : w.nextPut ≤ w'.nextPut) : Written w' g' b p i c :=
  ⟨hwriter.trans h.writer, lt_of_lt_of_le h.below hle, hclaims.trans h.claims, h.claimed, h.len⟩

end Carries

section Recorded

variable {inner : Inner} {w w' : World} {g g' : Ghost} {live : List PinnedBuf} {t : ℕ}
  {th : PutThread}

/-- Two live buffers with one id are one. -/
theorem Exclusive.eq_of_id (h : Exclusive w live) {b x : PinnedBuf} (hb : b ∈ live) (hx : x ∈ live)
    (hid : b.id = x.id) : b = x := List.inj_on_of_nodup_map h.pools.ids hb hx hid

/-- Buffers were let go of; what is left has its record. -/
theorem Recorded.shed (h : Recorded w g)
    (hheld : ∀ b ∈ w'.held, b ∈ w.held)
    (hfollows : ∀ t th', w'.threads t = some th' → ∃ th, w.threads t = some th ∧ Follows th th')
    (hnextPut : w'.nextPut = w.nextPut) (hwriter : g'.writer = g.writer)
    (hclaims : g'.claims = g.claims) : Recorded w' g' where
  threads := by
    intro t th' hth'
    obtain ⟨th, hth, hstep⟩ := hfollows t th' hth'
    exact ((h.threads t th hth).follows hstep).congr (by rw [hclaims]) fun b _ ↦ by rw [hwriter]
  held := by
    intro b hb
    obtain ⟨p, i, c, hwritten⟩ := h.held b (hheld b hb)
    exact ⟨p, i, c, hwritten.congr (by rw [hwriter]) (by rw [hclaims]) hnextPut.ge⟩

/-- What else was recorded does not matter. -/
theorem Recorded.record (h : Recorded w g) (hwriter : g'.writer = g.writer)
    (hclaims : g'.claims = g.claims) : Recorded w g' :=
  h.shed (fun _ hb ↦ hb) (fun _ th hth ↦ ⟨th, hth, Follows.refl th⟩) rfl hwriter hclaims

/-- A `put` goes on, and everybody holds what they held. -/
theorem Recorded.setThread (h : Recorded w g) {th' : PutThread}
    (hthreads : w'.threads = Function.update w.threads t (some th')) (hcarries : Carries g t th')
    (hheld : ∀ b ∈ w'.held, b ∈ w.held) (hnextPut : w'.nextPut = w.nextPut) : Recorded w' g where
  threads := by
    intro t' other hother
    rw [hthreads] at hother
    rcases thread_of_setThread hother with ⟨rfl, rfl⟩ | ⟨_, hsame⟩
    · exact hcarries
    · exact h.threads t' other hsame
  held := by
    intro b hb
    obtain ⟨p, i, c, hwritten⟩ := h.held b (hheld b hb)
    exact ⟨p, i, c, hwritten.congr rfl rfl hnextPut.ge⟩

/-- The claims a `put` gets are those of its record. -/
theorem claim_writable {st st' : State} {key : Key} {spec : ObjectSpec} {writable : List Bool}
    (h : st.claim key spec = .ok (writable, st')) :
    writable = (st.entry key spec).slots.map Slot.claimable := by
  unfold State.claim at h
  dsimp only at h
  split_ifs at h
  cases h
  rfl

theorem Recorded.began (h : Recorded w g) (hsound : Sound w live) {key : Key} {op : OpPut}
    {writable : List Bool} {st : State} (hclaim : w.state.claim key op.spec = .ok (writable, st)) :
    Recorded ({ w with state := st, nextPut := w.nextPut + 1 }.setThread w.nextPut
      ⟨key, op, writable, 0, [], .slot⟩) (g.claim w key op) := by
  have hclaims : ∀ p, p < w.nextPut → (g.claim w key op).claims p = g.claims p :=
    fun p hp ↦ Function.update_of_ne hp.ne _ _
  constructor
  · intro t th hth
    rcases thread_of_setThread hth with ⟨rfl, rfl⟩ | ⟨_, hsame⟩
    · exact ⟨⟨_, Function.update_self .., rfl, rfl, (claim_writable hclaim).symm⟩,
        fun _ hb ↦ absurd hb List.not_mem_nil⟩
    · exact (h.threads t th hsame).congr (hclaims t (hsound.below t th hsame)) fun _ _ ↦ rfl
  · intro b hb
    have hheld : b ∈ w.held := (held_congr (claim_claimed hclaim).mem_bufsIn b).mp hb
    obtain ⟨p, i, c, hwritten⟩ := h.held b hheld
    exact ⟨p, i, c, hwritten.congr rfl (hclaims p hwritten.below) (Nat.le_succ w.nextPut)⟩

theorem Recorded.allocated (h : Recorded w g) (hsound : Sound w live) {checks : Bool}
    {ps : PutSlot} {pool after : PinnedPool} {buf : PinnedBuf} {pc : Pc} {pools : Pools}
    (hth : w.threads t = some th) (hps : th.op.slots[th.i]? = some ps)
    (halloc : Allocated checks pool w.nextBuf ps.spec.len buf after)
    (hbufs : { th with pc := pc }.bufs = th.bufs ++ [buf]) :
    Recorded ({ w with pools := pools, nextBuf := w.nextBuf + 1 }.setThread t { th with pc := pc })
      { g with writer := Function.update g.writer w.nextBuf (some (t, th.i)) } := by
  -- the buffers that were there have other ids
  have hold : ∀ b ∈ live, Function.update g.writer w.nextBuf (some (t, th.i)) b.id =
      g.writer b.id := fun b hb ↦ Function.update_of_ne (hsound.exclusive.pools.below b hb).ne _ _
  constructor
  · intro t' other hother
    rcases thread_of_setThread hother with ⟨rfl, rfl⟩ | ⟨_, hsame⟩
    · refine ⟨(h.threads t' th hth).claim, fun b hb ↦ ?_⟩
      rw [hbufs] at hb
      rcases List.mem_append.mp hb with hb | hb
      · dsimp only
        rw [hold b (hsound.exclusive.thread t' th hth b hb).1]
        exact (h.threads t' th hth).taken b hb
      · rw [List.mem_singleton.mp hb]
        refine ⟨?_, ps, hps, halloc.len_eq⟩
        change Function.update g.writer w.nextBuf _ buf.id = _
        rw [halloc.id_eq, Function.update_self]
    · exact (h.threads t' other hsame).congr rfl fun b hb ↦
        hold b (hsound.exclusive.thread t' other hsame b hb).1
  · intro b hb
    obtain ⟨p, i, c, hwritten⟩ := h.held b hb
    exact ⟨p, i, c, hwritten.congr (hold b (hsound.exclusive.held b hb)) rfl (le_refl w.nextPut)⟩

/-- The next buffer to be copied into is one of the `put`'s. -/
theorem mem_bufs_of_copy {filled todo : List Placed} {x : Placed}
    (hpc : th.pc = .copy filled (x :: todo)) : x.buf ∈ th.bufs := by
  unfold PutThread.bufs
  rw [hpc]
  exact List.mem_map_of_mem (List.mem_append_right _ List.mem_cons_self)

/-- A `put` has the same buffers before and after a copy. -/
theorem bufs_of_copied {filled todo : List Placed} {x : Placed}
    (hpc : th.pc = .copy filled (x :: todo)) :
    { th with pc := .copy (filled ++ [x]) todo }.bufs = th.bufs := by
  unfold PutThread.bufs
  rw [hpc]
  exact congrArg _ (List.append_assoc filled [x] todo)

theorem Recorded.stored (h : Recorded w g) (hsound : Sound w live) {placed : List Placed}
    {st : State} (hth : w.threads t = some th) (hpc : th.pc = .store placed)
    (hstore : w.state.store th.key th.i placed = .ok (.ok st)) :
    Recorded ({ w with state := st }.setThread t (th.reported (.ok ()))) g := by
  have hcarries := h.threads t th hth
  constructor
  · intro t' other hthread
    rcases thread_of_setThread hthread with ⟨rfl, rfl⟩ | ⟨_, hsame⟩
    · exact hcarries.reported _
    · exact h.threads t' other hsame
  · intro b hb
    rcases (mem_held_store hstore).mp hb with hold | hnew
    · obtain ⟨p, i, c, hwritten⟩ := h.held b hold
      exact ⟨p, i, c, hwritten.congr rfl rfl (le_refl w.nextPut)⟩
    · have hmem : b ∈ th.bufs := by
        unfold PutThread.bufs
        rw [hpc]
        exact hnew
      obtain ⟨c, hwritten, _⟩ := hcarries.written (hsound.paced t th hth) (hsound.below t th hth)
        hmem (by rw [hpc]; rfl)
      exact ⟨t, th.i, c, hwritten.congr rfl rfl (le_refl w.nextPut)⟩

theorem Recorded.moves {n : Node} {action : Action} (h : Recorded n.world n.ghost)
    (hsound : Sound n.world live) (hmoves : Moves inner n action w' g') : Recorded w' g' := by
  cases hmoves with
  | shed hshed hkept =>
    exact h.shed (fun b hb ↦ (hshed.held b hb).1) hshed.follows hshed.nextPut hkept.writer
      hkept.claims
  | began _ hclaim => exact h.began hsound hclaim
  | allocated hth hps _ halloc hbufs => exact h.allocated hsound hth hps halloc hbufs
  | @copied t th ps filled todo x hth hps hpc =>
    have hcarries := (h.threads t th hth).goto fun b hb ↦ bufs_of_copied hpc ▸ hb
    have hafter : Recorded ((n.world.fill x.buf (readAll n.mem (segsOf ps.src))).setThread t
        { th with pc := .copy (filled ++ [x]) todo }) n.ghost :=
      h.setThread rfl hcarries (fun _ hb ↦ hb) rfl
    exact hafter.record rfl rfl
  | spilled hth hpc hshed hx =>
    exact h.shed (fun b hb ↦ (hshed.held b hb).1) hshed.follows hshed.nextPut rfl rfl
  | stored hth hpc hstore => exact h.stored hsound hth hpc hstore
  | unclaimed hth _ hunclaim =>
    exact h.setThread rfl ((h.threads _ _ hth).reported _)
      (fun b hb ↦ (mem_held_unclaim hunclaim).mp hb) rfl

end Recorded

/-- In every run every buffer is on record. -/
theorem run_recorded {inner : Inner} {bytes : UInt16 → ℕ} {history : List Event} {n : Node}
    (hrun : (backend inner bytes).Run history n) : Recorded n.world n.ghost := by
  have hstart : Recorded (World.initial inner bytes) (backend inner bytes).start.ghost :=
    ⟨fun _ _ hth ↦ (by cases hth), fun _ hb ↦ absurd hb List.not_mem_nil⟩
  refine run_invariant_of_step (I := fun n ↦ Recorded n.world n.ghost) hstart ?_ hrun
  exact fun n e n' live _ hsound _ hn hstep ↦ hn.moves hsound (hstep.moves hsound)

/-! ### The bytes of every buffer -/

/-- The buffer has got all its bytes: it is stored, or the copy into it is done. -/
def World.Filled (w : World) (b : PinnedBuf) : Prop :=
  b ∈ w.held ∨ ∃ t th, w.threads t = some th ∧ b ∈ th.filled

/-- Every buffer that is filled holds what was copied into it. -/
def Copied (w : World) (g : Ghost) : Prop := ∀ b, w.Filled b → w.bytesOf b = g.copied b.id

theorem PutThread.mem_bufs_of_filled {th : PutThread} {b : PinnedBuf} (h : b ∈ th.filled) :
    b ∈ th.bufs := by
  unfold PutThread.filled at h
  unfold PutThread.bufs
  cases hpc : th.pc with
  | copy filled todo =>
    rw [hpc] at h
    exact List.map_subset _ (List.subset_append_left _ _) h
  | store placed =>
    rw [hpc] at h
    exact h
  | _ =>
    rw [hpc] at h
    exact absurd h List.not_mem_nil

section Copied

variable {inner : Inner} {w w' : World} {g g' : Ghost} {live : List PinnedBuf} {t : ℕ}
  {th : PutThread} {b : PinnedBuf}

theorem World.Filled.owns (h : w.Filled b) : w.Owns b :=
  h.imp_right fun ⟨t, th, hth, hb⟩ ↦ ⟨t, th, hth, PutThread.mem_bufs_of_filled hb⟩

theorem Exclusive.mem_live (h : Exclusive w live) (hb : w.Owns b) : b ∈ live := by
  rcases hb with hheld | ⟨t, th, hth, hmem⟩
  · exact h.held b hheld
  · exact (h.thread t th hth b hmem).1

/-- The buffers that are filled were, with the same bytes and the same record. -/
theorem Copied.congr (h : Copied w g) (hfilled : ∀ b, w'.Filled b → w.Filled b ∧
    w'.bytesOf b = w.bytesOf b ∧ g'.copied b.id = g.copied b.id) : Copied w' g' := by
  intro b hb
  obtain ⟨hold, hbytes, hcopied⟩ := hfilled b hb
  rw [hbytes, hcopied]
  exact h b hold

/-- A buffer that is filled after others were let go of was filled, and is not one of them. -/
theorem Shed.filled {bs : List PinnedBuf} (h : Shed w w' bs) (hb : w'.Filled b) :
    w.Filled b ∧ b ∉ bs := by
  rcases hb with hheld | ⟨t, th', hth', hmem⟩
  · obtain ⟨hold, hnot⟩ := h.held b hheld
    exact ⟨.inl hold, hnot⟩
  · obtain ⟨th, hth, hfollows⟩ := h.follows t th' hth'
    obtain ⟨_, _, _, hnot⟩ := h.thread_of_mem hth' (PutThread.mem_bufs_of_filled hmem)
    exact ⟨.inr ⟨t, th, hth, hfollows.filled b hmem⟩, hnot⟩

/-- A buffer that is filled after a thread went on was filled, or the thread has filled it. -/
theorem World.Filled.of_setThread (w : World) {th' : PutThread} (hb : w'.Filled b)
    (hthreads : w'.threads = Function.update w.threads t (some th'))
    (hheld : ∀ b ∈ w'.held, w.Filled b) : w.Filled b ∨ b ∈ th'.filled := by
  rcases hb with hb | ⟨t', other, hother, hb⟩
  · exact .inl (hheld b hb)
  · rw [hthreads] at hother
    rcases thread_of_setThread hother with ⟨_, rfl⟩ | ⟨_, hsame⟩
    · exact .inr hb
    · exact .inl (.inr ⟨t', other, hsame, hb⟩)

/-- A copy into a buffer of a `put` leaves the bytes and the record of the others. -/
theorem Fitting.fill_ne (h : Fitting inner w) (hex : Exclusive w live) {x : PinnedBuf}
    (hx : w.Owns x) (hb : w.Owns b) (hne : b ≠ x) (bytes : List UInt8) (g : Ghost) :
    (w.fill x bytes).bytesOf b = w.bytesOf b ∧
      Function.update g.copied x.id bytes b.id = g.copied b.id := by
  have hblive := hex.mem_live hb
  have hxlive := hex.mem_live hx
  refine ⟨bytesOf_fill_ne hex.pools hblive hxlive hne (h.bufs b hb) (h.bufs x hx) bytes,
    Function.update_of_ne (fun hid ↦ hne (hex.eq_of_id hblive hxlive hid)) _ _⟩

theorem Copied.moves {n : Node} {action : Action} (h : Copied n.world n.ghost)
    (hfitting : Fitting inner n.world) (hrecorded : Recorded n.world n.ghost)
    (hsound : Sound n.world live) (hmoves : Moves inner n action w' g') : Copied w' g' := by
  cases hmoves with
  | shed hshed hkept =>
    refine h.congr fun b hb ↦ ⟨(hshed.filled hb).1, ?_, by rw [hkept.copied]⟩
    unfold World.bytesOf
    rw [hshed.pinned]
  | @began key op writable st _ hclaim =>
    refine h.congr fun b hb ↦ ⟨?_, rfl, rfl⟩
    refine (hb.of_setThread n.world rfl fun b hb ↦ .inl ?_).resolve_right List.not_mem_nil
    exact (held_congr (claim_claimed hclaim).mem_bufsIn b).mp hb
  | allocated hth _ _ _ _ hfilled =>
    refine h.congr fun b hb ↦ ⟨?_, rfl, rfl⟩
    refine (hb.of_setThread n.world rfl fun b hb ↦ .inl hb).resolve_right ?_
    rw [hfilled]
    exact List.not_mem_nil
  | @copied t th ps filled todo x hth hps hpc =>
    have hx := mem_bufs_of_copy hpc
    have hxowns : n.world.Owns x.buf := .inr ⟨t, th, hth, hx⟩
    intro b hb
    by_cases heq : b = x.buf
    · have hlen := (hrecorded.threads t th hth).length_source (hsound.paced t th hth) hps n.mem hx
      rw [heq]
      exact (bytesOf_fill_self hlen).trans (Function.update_self x.buf.id _ n.ghost.copied).symm
    · have hold : n.world.Filled b := by
        refine (hb.of_setThread n.world rfl fun b hb ↦ .inl hb).elim id fun hmem ↦
          .inr ⟨t, th, hth, ?_⟩
        change b ∈ (filled ++ [x]).map Placed.buf at hmem
        rw [List.map_append, List.mem_append, List.map_singleton, List.mem_singleton] at hmem
        unfold PutThread.filled
        rw [hpc]
        exact hmem.resolve_right heq
      obtain ⟨hbytes, hcopied⟩ := hfitting.fill_ne hsound.exclusive hxowns hold.owns heq
        (readAll n.mem (segsOf ps.src)) n.ghost
      exact hbytes.trans ((h b hold).trans hcopied.symm)
  | @spilled t th filled todo x e moved w' bs hth hpc hshed hx =>
    have hxowns : n.world.Owns x.buf := .inr ⟨t, th, hth, mem_bufs_of_copy hpc⟩
    refine h.congr fun b hb ↦ ?_
    obtain ⟨hold, hnot⟩ := hshed.filled hb
    -- the target of the copy is among the buffers dropped
    obtain ⟨hbytes, hcopied⟩ := hfitting.fill_ne hsound.exclusive hxowns
      (World.Filled.owns (w := n.world) hold) (fun heq ↦ hnot (heq ▸ hx)) moved n.ghost
    refine ⟨hold, Eq.trans ?_ hbytes, hcopied⟩
    unfold World.bytesOf
    rw [hshed.pinned]
  | @stored t outcome th placed st hth hpc hstore =>
    refine h.congr fun b hb ↦ ⟨?_, rfl, rfl⟩
    refine (hb.of_setThread n.world rfl fun b hb ↦ ?_).resolve_right List.not_mem_nil
    refine ((mem_held_store hstore).mp hb).imp_right fun hnew ↦ ⟨t, th, hth, ?_⟩
    unfold PutThread.filled
    rw [hpc]
    exact hnew
  | unclaimed hth _ hunclaim =>
    refine h.congr fun b hb ↦ ⟨?_, rfl, rfl⟩
    exact (hb.of_setThread n.world rfl fun b hb ↦
      .inl ((mem_held_unclaim hunclaim).mp hb)).resolve_right List.not_mem_nil

end Copied

end Pegastore.Local
