import Pegastore.Cuda.Evictable
import Pegastore.Cuda.Incarnation

/-!
# What each action does to what is stored

One lemma per action says what it does to the metadata, to the operations in flight and to the
pinned memory; a refused action leaves them as they are (`Alike`). A step of a `put` changes the
metadata in one of three ways (`Acts`): it evicts, it stores its slot and reports `Ok`, or it gives
a claim back; no other step reports `Ok`. The bytes of a buffer that the metadata or a `get` holds
do not change in any step (`Moves.bytesOf_held`).

`Pc.Next` lists the points a `put` can go to from each point of its slot, and `run_pc` turns a
property of points that every such move keeps into one of every `put` in flight in every run; that a
`put` never stores an empty set of buffers is one (`run_stocked`).
-/

set_option autoImplicit false
set_option relaxedAutoImplicit false

namespace Pegastore.Local

open Outcome ByteMemory Transition

/-! ### Steps that change nothing stored -/

/-- The metadata, the operations in flight and the pinned memory are the same. -/
structure Alike (w w' : World) : Prop where
  state : w'.state = w.state
  readers : w'.readers = w.readers
  pinned : w'.pinned = w.pinned
  threads : w'.threads = w.threads

theorem Alike.refl (w : World) : Alike w w := ⟨rfl, rfl, rfl, rfl⟩

/-- A section of an operation that is not a `put` in flight: it panics, or it goes on. -/
theorem section_outcome {α : Type} (w : World) (sec : Exec α) (next : α → World × Reply) :
    (Alike w (w.section sec next).1 ∧ ∃ reason, (w.section sec next).2 = .panicked reason) ∨
      ∃ a, sec = .ok a ∧ w.section sec next = next a := by
  unfold World.section
  split_ifs with hlock
  · exact .inl ⟨Alike.refl w, _, rfl⟩
  · cases sec with
    | error reason => exact .inl ⟨⟨rfl, rfl, rfl, rfl⟩, reason, rfl⟩
    | ok a => exact .inr ⟨a, rfl, rfl⟩

theorem eq_of_keepMem {mem mem' : ByteSpace} {r : World × Reply} {w' : World} {reply : Reply}
    (h : keepMem mem r = (w', mem', reply)) : r.1 = w' ∧ r.2 = reply := by
  cases h
  exact ⟨rfl, rfl⟩

/-- The beginning of a `put` is refused, or it claims. -/
theorem beginPut_outcome (w : World) (key : Key) (op : OpPut) :
    (Alike w (w.beginPut key op).1 ∧ (w.beginPut key op).2 ≠ .running) ∨
      ∃ writable st, w.state.claim key op.spec = .ok (writable, st) ∧
        w.beginPut key op = ({ w with state := st, nextPut := w.nextPut + 1 }.setThread w.nextPut
          ⟨key, op, writable, 0, [], .slot⟩, .running) := by
  unfold World.beginPut
  cases op.validate with
  | error e => exact .inl ⟨Alike.refl w, fun h ↦ (by cases h)⟩
  | ok _ =>
    dsimp only
    rcases section_outcome w (.ok (w.state.claim key op.spec)) _ with
      ⟨halike, reason, hreply⟩ | ⟨a, ha, heq⟩
    · exact .inl ⟨halike, by rw [hreply]; exact fun h ↦ (by cases h)⟩
    · rw [heq]
      cases a with
      | error e => exact .inl ⟨Alike.refl w, fun h ↦ (by cases h)⟩
      | ok pair => exact .inr ⟨pair.1, pair.2, Except.ok.inj ha, rfl⟩

theorem publish_outcome (w : World) (key : Key) (op : OpPublish) :
    Alike w (w.publish key op).1 ∨ ∃ device total st,
      w.state.publish key op device total = .ok (.ok st) ∧
        (w.publish key op).1 = { w with state := st } := by
  unfold World.publish
  cases op.validate with
  | error e => exact .inl (Alike.refl w)
  | ok pair =>
    dsimp only
    rcases section_outcome w (w.state.publish key op pair.1 pair.2) _ with
      ⟨halike, _⟩ | ⟨a, ha, heq⟩
    · exact .inl halike
    · rw [heq]
      cases a with
      | error e => exact .inl (Alike.refl w)
      | ok st => exact .inr ⟨pair.1, pair.2, st, ha, rfl⟩

/-- Removing keys panics, or it reports what it has removed. -/
theorem removeKeys_outcome (w : World) (keys : List Key) (reply : Reply) :
    (Alike w (w.removeKeys keys reply).1 ∧
        ∃ reason, (w.removeKeys keys reply).2 = .panicked reason) ∨
      ((w.removeKeys keys reply).2 = reply ∧
        Alike { w with state := ⟨(Local.removeKeys keys w.state.objects).2, w.state.fifo⟩ }
          (w.removeKeys keys reply).1) := by
  unfold World.removeKeys
  rcases section_outcome w (.ok (Local.removeKeys keys w.state.objects)) _ with
    hpanic | ⟨a, ha, heq⟩
  · exact .inl hpanic
  · rw [heq]
    cases ha
    exact .inr ⟨rfl, ⟨rfl, rfl, rfl, rfl⟩⟩

theorem retireRegion_outcome (w : World) (regionId : ℕ) :
    Alike w (w.retireRegion regionId).1 ∨
      (w.retireRegion regionId).1 = { w with state := w.state.retireRegion regionId } := by
  unfold World.retireRegion
  rcases section_outcome w (.ok (w.state.retireRegion regionId)) _ with
    ⟨halike, _⟩ | ⟨a, ha, heq⟩
  · exact .inl halike
  · rw [heq]
    cases ha
    exact .inr rfl

/-- The beginning of a `get` is refused, or it takes a replica of its slot along. -/
theorem beginGet_outcome (inner : Inner) (w : World) (key : Key) (op : OpGet) :
    (Alike w (w.beginGet inner key op).1 ∧ (w.beginGet inner key op).2 ≠ .running) ∨
      ∃ rd slot, rd.op = op ∧ slotAt w.state.objects key op.slot.toNat = some slot ∧
        rd.replica ∈ slot.replicas ∧
        w.beginGet inner key op = ({ w with readers := w.readers ++ [rd] }, .running) := by
  unfold World.beginGet
  cases op.validate with
  | error e => exact .inl ⟨Alike.refl w, fun h ↦ (by cases h)⟩
  | ok pair =>
    dsimp only
    rcases section_outcome w (w.state.select inner key op.slot.toNat pair.1) _ with
      ⟨halike, reason, hreply⟩ | ⟨a, ha, heq⟩
    · exact .inl ⟨halike, by rw [hreply]; exact fun h ↦ (by cases h)⟩
    · rw [heq]
      cases a with
      | error e => exact .inl ⟨Alike.refl w, fun h ↦ (by cases h)⟩
      | ok found =>
        obtain ⟨slot, hslot, hmem⟩ := select_mem ha
        exact .inr ⟨⟨op, pair.2, found.1, found.2⟩, slot, rfl, hslot, hmem, rfl⟩

/-! ### Steps of a `put` -/

/-- The thread did not report `Ok`. -/
def Silent (t : ℕ) (th : PutThread) (w' : World) : Prop :=
  ∀ th', w'.threads t = some th' → th'.results ≠ th.results ++ [.ok ()]

/-- The thread is about to run an eviction round. -/
def Pc.evicting : Pc → Bool
  | .evict _ _ _ => true
  | _ => false

/-- What a step of a `put` does to the metadata. -/
inductive Acts (w : World) (t : ℕ) (th : PutThread) (w' : World) : Prop
  | kept (hstate : w'.state = w.state) (hsilent : Silent t th w')
  | evicted {device : Device} {protect : Key} {r : Bool × List PinnedBuf × State}
    (hpc : th.pc.evicting = true) (hround : w.state.evictRound device protect = .ok r)
    (hstate : w'.state = r.2.2) (hsilent : Silent t th w')
  | stored {placed : List Placed} {st : State} (hpc : th.pc = .store placed)
    (hstore : w.state.store th.key th.i placed = .ok (.ok st))
    (hw : w' = { w with state := st }.setThread t (th.reported (.ok ())))
  | unclaimed {st : State} (hpc : th.pc.evicting = false)
    (hunclaim : w.state.unclaim th.key th.i = .ok st)
    (hstate : w'.state = st) (hsilent : Silent t th w')

section Acts

variable {inner : Inner} {mem : ByteSpace} {w : World} {t : ℕ} {th : PutThread}

/-- A thread that goes on inside its slot reports nothing. -/
theorem silent_goto (w : World) (pc : Pc) : Silent t th (w.goto t th pc).1 := by
  intro th' hth' hresults
  change Function.update w.threads t (some { th with pc := pc }) t = some th' at hth'
  rw [Function.update_self] at hth'
  cases hth'
  cases List.self_eq_append_right.mp hresults

/-- A thread that ends reports nothing for its slot. -/
theorem silent_endThread (w : World) : Silent t th (w.endThread t) := by
  intro th' hth'
  change Function.update w.threads t none t = some th' at hth'
  rw [Function.update_self] at hth'
  cases hth'

theorem silent_report (w : World) (e : Error) : Silent t th (w.report t th (.error e)).1 := by
  intro th' hth' hresults
  change Function.update w.threads t (some (th.reported (.error e))) t = some th' at hth'
  rw [Function.update_self] at hth'
  cases hth'
  cases List.append_cancel_left hresults

theorem acts_locked {α : Type} {sec : Exec α} {next : α → World × Reply}
    (hnext : ∀ a, sec = .ok a → Acts w t th (next a).1) :
    Acts w t th (w.locked t th sec next).1 := by
  unfold World.locked
  split_ifs
  · exact .kept rfl (silent_endThread _)
  · cases sec with
    | error reason => exact .kept rfl (silent_endThread _)
    | ok a => exact hnext a rfl

theorem acts_takeBuf (each : Bool) (target : UInt16 × Bool) (rest : List (UInt16 × Bool))
    (p : Placing) (full : Pc) (taken : Exec (Option (PinnedBuf × PinnedPool))) :
    Acts w t th (w.takeBuf t th each target rest p full taken).1 := by
  unfold World.takeBuf
  split
  · exact .kept rfl (silent_endThread _)
  · exact .kept rfl (silent_goto _ _)
  · exact .kept rfl (silent_goto _ _)

theorem acts_tryAlloc (ps : PutSlot) (target : UInt16 × Bool) (rest : List (UInt16 × Bool))
    (p : Placing) (full : PinnedPool → Pc) :
    Acts w t th (w.tryAlloc inner t th ps target rest p full).1 := by
  unfold World.tryAlloc
  split
  · exact .kept rfl (silent_goto _ _)
  · exact acts_takeBuf _ target rest p _ _

theorem acts_beginSlot (ps : PutSlot) : Acts w t th (w.beginSlot inner t th ps).1 := by
  unfold World.beginSlot
  split
  · exact .kept rfl (silent_endThread _)
  · exact .kept rfl (silent_report w _)
  · split
    · exact .kept rfl (silent_goto _ _)
    · exact .kept rfl (silent_goto _ _)

/-- Every step of a `put` is one of these. -/
theorem advance_acts (outcome : CopyOutcome) :
    Acts w t th (w.advance inner mem t th outcome).1 := by
  unfold World.advance
  cases th.op.slots[th.i]? with
  | none => exact .kept rfl (silent_endThread w)
  | some ps =>
    dsimp only
    unfold World.advanceSlot
    split
    · exact acts_beginSlot ps
    · unfold World.endPlacing
      split_ifs
      · exact .kept rfl (silent_goto _ _)
      · exact .kept rfl (silent_goto _ _)
    · exact acts_tryAlloc ps _ _ _ _
    · next hpc =>
      exact acts_locked fun r hr ↦ .evicted (by rw [hpc]; rfl) hr rfl (silent_goto _ _)
    · exact acts_tryAlloc ps _ _ _ _
    · exact .kept rfl (silent_goto _ _)
    · cases outcome with
      | done => exact .kept rfl (silent_goto _ _)
      | failed e moved => exact .kept rfl (silent_goto _ _)
    · next hpc =>
      refine acts_locked fun r hr ↦ ?_
      cases r with
      | error e => exact .kept rfl (silent_goto _ _)
      | ok st => exact .stored hpc hr rfl
    · next hpc =>
      exact acts_locked fun st hst ↦ .unclaimed (by rw [hpc]; rfl) hst rfl (silent_report _ _)

theorem advance_readers (outcome : CopyOutcome) :
    (w.advance inner mem t th outcome).1.readers = w.readers := (quiet_advance outcome).readers

end Acts

/-! ### Bytes of held buffers -/

/-- No step changes the bytes of a buffer that the metadata or a `get` holds, when the buffers are
as long as asked for. -/
theorem Moves.bytesOf_held {inner : Inner} {n : Node} {action : Action} {w' : World} {g' : Ghost}
    {live : List PinnedBuf} (h : Moves inner n action w' g') (hsound : Sound n.world live)
    (hfitting : Fitting inner n.world) {b : PinnedBuf} (hb : b ∈ n.world.held) :
    w'.bytesOf b = n.world.bytesOf b := by
  have hlive := hsound.exclusive.held b hb
  -- the target of a copy is held by its `put` alone
  have hcopy : ∀ {t th filled todo} {x : Placed} (bytes : List UInt8),
      n.world.threads t = some th → th.pc = .copy filled (x :: todo) →
        (n.world.fill x.buf bytes).bytesOf b = n.world.bytesOf b := by
    intro t th filled todo x bytes hth hpc
    have hx := mem_bufs_of_copy hpc
    obtain ⟨hxlive, hfree⟩ := hsound.exclusive.thread t th hth x.buf hx
    exact bytesOf_fill_ne hsound.exclusive.pools hlive hxlive (fun heq ↦ hfree (heq ▸ hb))
      (hfitting.bufs b (.inl hb)) (hfitting.bufs x.buf (.inr ⟨t, th, hth, hx⟩)) bytes
  cases h with
  | shed hshed _ => rw [World.bytesOf, hshed.pinned, World.bytesOf]
  | began | allocated | stored | unclaimed => rfl
  | copied hth _ hpc => exact hcopy _ hth hpc
  | spilled hth hpc hshed _ =>
    rw [World.bytesOf, hshed.pinned]
    exact hcopy _ hth hpc

/-! ### Where a `put` goes -/

/-- The thread is about to allocate on a target. -/
def Pc.Trying (pc : Pc) (target : UInt16 × Bool) (rest : List (UInt16 × Bool)) (p : Placing) :
    Prop := pc = .place (target :: rest) p ∨ ∃ evicted, pc = .retry target rest p evicted

/-- The points a `put` can go to inside its slot. -/
inductive Pc.Next (w : World) (ps : PutSlot) : Pc → Pc → Prop
  | placing (targets : List (UInt16 × Bool)) : Next w ps .slot (.place targets ⟨[], none⟩)
  | took {pc : Pc} {target : UInt16 × Bool} {rest : List (UInt16 × Bool)} {p : Placing}
    {checks : Bool} {pool after : PinnedPool} {buf : PinnedBuf} (each : Bool)
    (htrying : pc.Trying target rest p) (hpool : w.pools target.1 = some pool)
    (halloc : pool.alloc checks w.nextBuf ps.spec.len = .ok (some (buf, after))) :
    Next w ps pc (p.took each rest ⟨target.1, target.2, buf⟩)
  | missed {pc : Pc} {target : UInt16 × Bool} {rest : List (UInt16 × Bool)} {p : Placing}
    (each : Bool) (e : Error) (htrying : pc.Trying target rest p) :
    Next w ps pc (p.missed each rest e)
  | evicting {pc : Pc} {target : UInt16 × Bool} {rest : List (UInt16 × Bool)} {p : Placing}
    (htrying : pc.Trying target rest p) : Next w ps pc (.evict target rest p)
  | retrying {target : UInt16 × Bool} {rest : List (UInt16 × Bool)} {p : Placing}
    (evicted : Bool) : Next w ps (.evict target rest p) (.retry target rest p evicted)
  | copying {p : Placing} (hplaced : p.placed ≠ []) : Next w ps (.place [] p) (.copy [] p.placed)
  | copied {filled todo : List Placed} {x : Placed} :
    Next w ps (.copy filled (x :: todo)) (.copy (filled ++ [x]) todo)
  | storing {filled : List Placed} : Next w ps (.copy filled []) (.store filled)
  | failed (pc : Pc) (e : Error) : Next w ps pc (.failed e)

/-- What a step of a `put` makes of its thread. -/
inductive Continues (w : World) (t : ℕ) (th : PutThread) (w' : World) : Prop
  | ended (h : w'.threads = Function.update w.threads t none)
  | reported {ps : PutSlot} (hps : th.op.slots[th.i]? = some ps) (r : Result Unit)
    (h : w'.threads = Function.update w.threads t (some (th.reported r)))
  | next {ps : PutSlot} {pc : Pc} (hps : th.op.slots[th.i]? = some ps)
    (hnext : Pc.Next w ps th.pc pc)
    (h : w'.threads = Function.update w.threads t (some { th with pc := pc }))

section Continues

variable {inner : Inner} {mem : ByteSpace} {w : World} {t : ℕ} {th : PutThread} {ps : PutSlot}

theorem continues_locked {α : Type} {sec : Exec α} {next : α → World × Reply}
    (hnext : ∀ a, sec = .ok a → Continues w t th (next a).1) :
    Continues w t th (w.locked t th sec next).1 := by
  unfold World.locked
  split_ifs
  · exact .ended rfl
  · cases sec with
    | error reason => exact .ended rfl
    | ok a => exact hnext a rfl

theorem continues_takeBuf (hps : th.op.slots[th.i]? = some ps) (each : Bool)
    {target : UInt16 × Bool} {rest : List (UInt16 × Bool)} {p : Placing} {full : Pc}
    {checks : Bool} {pool : PinnedPool} (htrying : th.pc.Trying target rest p)
    (hpool : w.pools target.1 = some pool) (hfull : Pc.Next w ps th.pc full)
    {taken : Exec (Option (PinnedBuf × PinnedPool))}
    (htaken : pool.alloc checks w.nextBuf ps.spec.len = taken) :
    Continues w t th (w.takeBuf t th each target rest p full taken).1 := by
  unfold World.takeBuf
  split
  · exact .ended rfl
  · exact .next hps hfull rfl
  · exact .next hps (.took each htrying hpool htaken) rfl

theorem continues_tryAlloc (hps : th.op.slots[th.i]? = some ps) {target : UInt16 × Bool}
    {rest : List (UInt16 × Bool)} {p : Placing} (htrying : th.pc.Trying target rest p)
    (full : PinnedPool → Pc) (hfull : ∀ pool, Pc.Next w ps th.pc (full pool)) :
    Continues w t th (w.tryAlloc inner t th ps target rest p full).1 := by
  unfold World.tryAlloc
  split
  · exact .next hps (.missed _ _ htrying) rfl
  · next pool hpool => exact continues_takeBuf hps _ htrying hpool (hfull pool) rfl

/-- Every step of a `put` ends it, reports its slot, or leads to one of the next points. -/
theorem advance_continues (outcome : CopyOutcome) :
    Continues w t th (w.advance inner mem t th outcome).1 := by
  unfold World.advance
  cases hps : th.op.slots[th.i]? with
  | none => exact .ended rfl
  | some ps =>
    have hfail : ∀ e, Pc.Next w ps th.pc (.failed e) := fun e ↦ .failed th.pc e
    dsimp only
    unfold World.advanceSlot
    split
    · next hpc =>
      unfold World.beginSlot
      split
      · exact .ended rfl
      · exact .reported hps _ rfl
      · split
        · exact .next hps (hfail _) rfl
        · next targets _ => exact .next hps (hpc ▸ .placing targets) rfl
    · next p hpc =>
      unfold World.endPlacing
      split_ifs with hempty
      · exact .next hps (hfail _) rfl
      · refine .next hps (hpc ▸ .copying fun hnil ↦ ?_) rfl
        simp [hnil] at hempty
    · next target rest p hpc =>
      refine continues_tryAlloc hps (.inl hpc) _ fun pool ↦ ?_
      split_ifs
      · exact .missed _ _ (.inl hpc)
      · exact .evicting (.inl hpc)
    · next hpc => exact continues_locked fun r _ ↦ .next hps (hpc ▸ .retrying r.1) rfl
    · next target rest p evicted hpc =>
      refine continues_tryAlloc hps (.inr ⟨evicted, hpc⟩) _ fun pool ↦ ?_
      split_ifs
      · exact .evicting (.inr ⟨evicted, hpc⟩)
      · exact .missed _ _ (.inr ⟨evicted, hpc⟩)
    · next hpc => exact .next hps (hpc ▸ .storing) rfl
    · next hpc =>
      cases outcome with
      | done => exact .next hps (hpc ▸ .copied) rfl
      | failed e moved => exact .next hps (hfail e) rfl
    · refine continues_locked fun r _ ↦ ?_
      cases r with
      | error e => exact .next hps (hfail e) rfl
      | ok st => exact .reported hps _ rfl
    · exact continues_locked fun st _ ↦ .reported hps _ rfl

/-- The thread goes on at another point of its slot, or at the next slot. -/
structure GoesOn (w : World) (th th' : PutThread) : Prop where
  key_eq : th'.key = th.key
  op_eq : th'.op = th.op
  pc : th'.pc = .slot ∨ ∃ ps, th.op.slots[th.i]? = some ps ∧ Pc.Next w ps th.pc th'.pc
  index : th'.i = th.i ∨ (th'.i = th.i + 1 ∧ th.i < th.op.slots.length)

/-- The threads after a step of a `put`: those of before, and its own gone on. -/
theorem Continues.thread_cases {w' : World} (h : Continues w t th w') {t' : ℕ} {th' : PutThread}
    (hth' : w'.threads t' = some th') :
    w.threads t' = some th' ∨ (t' = t ∧ GoesOn w th th') := by
  by_cases heq : t' = t
  · subst heq
    cases h with
    | ended hw =>
      rw [hw, Function.update_self] at hth'
      cases hth'
    | reported hps r hw =>
      rw [hw, Function.update_self] at hth'
      cases hth'
      exact .inr ⟨rfl, rfl, rfl, .inl rfl, .inr ⟨rfl, (List.getElem?_eq_some_iff.mp hps).1⟩⟩
    | next hps hnext hw =>
      rw [hw, Function.update_self] at hth'
      cases hth'
      exact .inr ⟨rfl, rfl, rfl, .inr ⟨_, hps, hnext⟩, .inl rfl⟩
  · refine .inl ?_
    cases h with
    | ended hw | reported _ _ hw | next _ _ hw => rwa [hw, Function.update_of_ne heq] at hth'

end Continues

/-- The threads after an action: those of before, one that goes on, or one that begins. -/
theorem exec_thread_cases {inner : Inner} {mem mem' : ByteSpace} {w w' : World} {action : Action}
    {r : Reply} (hexec : w.exec inner mem action = some (w', mem', r)) {t' : ℕ} {th' : PutThread}
    (hth' : w'.threads t' = some th') :
    w.threads t' = some th' ∨ (∃ th, w.threads t' = some th ∧ GoesOn w th th') ∨
    (action = .beginPut th'.key th'.op ∧ th'.pc = .slot ∧ th'.i = 0 ∧
      specAt w'.state.objects th'.key = some th'.op.spec) := by
  cases action with
  | beginPut key op =>
    obtain ⟨hworld, _⟩ := eq_of_keepMem (Option.some.inj hexec)
    rcases beginPut_outcome w key op with ⟨halike, _⟩ | ⟨writable, st, hclaim, heq⟩
    · exact .inl (by rwa [← hworld, halike.threads] at hth')
    · rw [← hworld, heq] at hth' ⊢
      rcases thread_of_setThread hth' with ⟨_, rfl⟩ | ⟨_, hsame⟩
      · exact .inr (.inr ⟨rfl, rfl, rfl, (claim_claimed hclaim).specAt_key⟩)
      · exact .inl hsame
  | advance t outcome =>
    obtain ⟨th, hth, heq⟩ := Option.map_eq_some_iff.mp hexec
    obtain ⟨hworld, _⟩ := eq_of_keepMem heq
    rw [← hworld] at hth'
    rcases (advance_continues outcome).thread_cases hth' with hsame | ⟨rfl, hgoes⟩
    · exact .inl hsame
    · exact .inr (.inl ⟨th, hth, hgoes⟩)
  | publish key op =>
    obtain ⟨hworld, _⟩ := eq_of_keepMem (Option.some.inj hexec)
    rw [← hworld] at hth'
    rcases publish_outcome w key op with halike | ⟨_, _, st, _, heq⟩
    · exact .inl (by rwa [halike.threads] at hth')
    · exact .inl (by rwa [heq] at hth')
  | remove keys =>
    obtain ⟨hworld, _⟩ := eq_of_keepMem (Option.some.inj hexec)
    rw [← hworld] at hth'
    rcases removeKeys_outcome w keys (.unit (.ok ())) with ⟨halike, _⟩ | ⟨_, halike⟩
    · exact .inl (halike.threads ▸ hth')
    · exact .inl (halike.threads ▸ hth')
  | removePrefix start =>
    obtain ⟨hworld, _⟩ := eq_of_keepMem (Option.some.inj hexec)
    rw [← hworld] at hth'
    rcases removeKeys_outcome w (w.state.keysFrom start)
      (.count (w.state.keysFrom start).length) with ⟨halike, _⟩ | ⟨_, halike⟩
    · exact .inl (halike.threads ▸ hth')
    · exact .inl (halike.threads ▸ hth')
  | retireRegion regionId =>
    obtain ⟨hworld, _⟩ := eq_of_keepMem (Option.some.inj hexec)
    rw [← hworld] at hth'
    rcases retireRegion_outcome w regionId with halike | heq
    · exact .inl (by rwa [halike.threads] at hth')
    · exact .inl (by rwa [heq] at hth')
  | beginGet key op =>
    obtain ⟨hworld, _⟩ := eq_of_keepMem (Option.some.inj hexec)
    rw [← hworld] at hth'
    rcases beginGet_outcome inner w key op with ⟨halike, _⟩ | ⟨_, _, _, _, _, heq⟩
    · exact .inl (by rwa [halike.threads] at hth')
    · exact .inl (by rwa [heq] at hth')
  | finishGet k outcome =>
    obtain ⟨rd, _, heq⟩ := Option.map_eq_some_iff.mp hexec
    cases heq
    exact .inl hth'
  | userWrite addr bytes =>
    cases hexec
    exact .inl hth'

/-! ### Invariants of the program points -/

/-- What holds at the beginning of a slot and of every next point holds of every `put` in flight. -/
theorem run_pc {inner : Inner} {bytes : UInt16 → ℕ} {Q : Pc → Prop} (hslot : Q .slot)
    (hnext : ∀ {w ps pc pc'}, (∀ numa pool, w.pools numa = some pool → pool.numa = numa) →
      Pc.Next w ps pc pc' → Q pc → Q pc') {history : List Event} {n : Node}
    (hrun : (backend inner bytes).Run history n) {t : ℕ} {th : PutThread}
    (hth : n.world.threads t = some th) : Q th.pc := by
  refine run_invariant_of_step (I := fun n ↦ ∀ t th, n.world.threads t = some th → Q th.pc)
    (fun _ _ hth ↦ by cases hth) ?_ hrun t th hth
  intro n e n' live _ hsound _ ih hstep t' th' hth'
  rcases exec_thread_cases hstep.exec hth' with hsame | ⟨th, hold, hgoes⟩ | ⟨_, hslot', _⟩
  · exact ih t' th' hsame
  · rcases hgoes.pc with hslot' | ⟨ps, _, hpc⟩
    · exact hslot' ▸ hslot
    · exact hnext hsound.exclusive.pools.numa_eq hpc (ih t' th hold)
  · exact hslot' ▸ hslot

/-- A `put` past its placement loop has a buffer, and its buffers are on the nodes they are placed
on. -/
structure Pc.Stocked (pc : Pc) : Prop where
  filled : ∀ filled todo, pc = .copy filled todo → filled ++ todo ≠ []
  stored : ∀ placed, pc = .store placed → placed ≠ []
  placed : ∀ x ∈ pc.placed, x.buf.numa = x.numa

/-- Outside the copies and the store only the buffers matter. -/
theorem Pc.Stocked.loop {pc : Pc} (hcopy : ∀ filled todo, pc ≠ .copy filled todo)
    (hstore : ∀ placed, pc ≠ .store placed) (hplaced : ∀ x ∈ pc.placed, x.buf.numa = x.numa) :
    pc.Stocked :=
  ⟨fun filled todo h ↦ absurd h (hcopy filled todo), fun placed h ↦ absurd h (hstore placed),
    hplaced⟩

theorem Pc.Stocked.slot : Pc.slot.Stocked :=
  .loop (by simp) (by simp) fun _ hx ↦ absurd hx List.not_mem_nil

theorem Pc.Stocked.next {w : World} {ps : PutSlot} {pc pc' : Pc}
    (hnuma : ∀ numa pool, w.pools numa = some pool → pool.numa = numa)
    (hnext : Pc.Next w ps pc pc') (h : pc.Stocked) : pc'.Stocked := by
  have htried : ∀ {target rest p}, pc.Trying target rest p →
      ∀ x ∈ p.placed, x.buf.numa = x.numa := by
    rintro target rest p (rfl | ⟨evicted, rfl⟩)
    · exact h.placed
    · exact h.placed
  cases hnext with
  | placing targets => exact .loop (by simp) (by simp) fun x hx ↦ absurd hx List.not_mem_nil
  | @took _ target rest p checks pool after buf each htrying hpool halloc =>
    refine .loop (by simp [Placing.took]) (by simp [Placing.took]) fun x hx ↦ ?_
    rcases List.mem_append.mp hx with hold | hnew
    · exact htried htrying x hold
    · rw [List.mem_singleton.mp hnew]
      exact (PinnedPool.alloc_spec halloc).numa_eq.trans (hnuma _ pool hpool)
  | missed each e htrying =>
    exact .loop (by simp [Placing.missed]) (by simp [Placing.missed])
      fun x hx ↦ htried htrying x hx
  | evicting htrying => exact .loop (by simp) (by simp) (htried htrying)
  | retrying evicted => exact .loop (by simp) (by simp) h.placed
  | copying hplaced =>
    refine ⟨?_, fun _ heq ↦ (by cases heq), h.placed⟩
    rintro _ _ ⟨⟩
    exact hplaced
  | @copied filled todo x =>
    refine ⟨?_, fun _ heq ↦ (by cases heq), fun y hy ↦ h.placed y ?_⟩
    · rintro _ _ ⟨⟩
      simp
    · change y ∈ filled ++ x :: todo
      change y ∈ (filled ++ [x]) ++ todo at hy
      rwa [List.append_assoc] at hy
  | @storing filled =>
    refine ⟨fun _ _ heq ↦ (by cases heq), ?_, fun x hx ↦ h.placed x (List.mem_append_left _ hx)⟩
    rintro _ ⟨⟩
    simpa using h.filled filled [] rfl
  | failed => exact .loop (by simp) (by simp) fun x hx ↦ absurd hx List.not_mem_nil

/-- Every `put` in flight, in every state of every run. -/
theorem run_stocked {inner : Inner} {bytes : UInt16 → ℕ} {history : List Event} {n : Node}
    (hrun : (backend inner bytes).Run history n) {t : ℕ} {th : PutThread}
    (hth : n.world.threads t = some th) : th.pc.Stocked := by
  refine run_pc .slot ?_ hrun hth
  intro w ps pc pc' hnuma hnext hpc
  exact hpc.next hnuma hnext

end Pegastore.Local
