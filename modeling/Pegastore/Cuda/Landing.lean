import Pegastore.Cuda.Contiguous
import Pegastore.Cuda.Progress

/-!
# What a lone `put` leaves

`TakesAll` says that the pools have buffers for a list of slots, one slot after another, without
eviction. `Staged` is what a lone `put` finds before each of its slots: the pools are partitioned,
every pool has its queue, and the object is there. A slot that lands keeps it, leaves the bytes of
every buffer in the metadata, and its own buffers hold the bytes it was given. What a `put` has
reported for a slot is part of what it returns (`Leads.exists_results`).
-/

set_option autoImplicit false
set_option relaxedAutoImplicit false

namespace Pegastore.Local

open Outcome ByteMemory

/-- The pools have buffers for all targets the slots need. A slot whose targets cannot be resolved
needs none. -/
inductive TakesAll (inner : Inner) : List PutSlot → Pools → ℕ → Prop
  | nil {pools : Pools} {next : ℕ} : TakesAll inner [] pools next
  | rejected {ps : PutSlot} {slots : List PutSlot} {pools : Pools} {next : ℕ} {e : Error}
    (htargets : inner.targets ps.spec.placement = .error e)
    (hrest : TakesAll inner slots pools next) : TakesAll inner (ps :: slots) pools next
  | placed {ps : PutSlot} {slots : List PutSlot} {pools pools' : Pools} {next next' : ℕ}
    {targets : List (UInt16 × Bool)} {placed : List Placed}
    (htargets : inner.targets ps.spec.placement = .ok targets)
    (htakes : Takes inner.checks ps.spec.len (needed (isEach ps.spec.placement) targets) pools next
      placed pools' next') (hrest : TakesAll inner slots pools' next') :
    TakesAll inner (ps :: slots) pools next

section Takes

variable {checks : Bool} {len next next' : ℕ} {targets : List (UInt16 × Bool)}
  {pools pools' : Pools} {placed : List Placed}

/-- The buffers are those of the targets, in order. -/
theorem Takes.targets_eq (h : Takes checks len targets pools next placed pools' next') :
    placed.map (fun p ↦ (p.numa, p.misplaced)) = targets := by
  induction h with
  | nil => rfl
  | cons _ _ _ ih => rw [List.map_cons, ih]

theorem Takes.len_eq (h : Takes checks len targets pools next placed pools' next') :
    ∀ p ∈ placed, p.buf.len = len := by
  induction h with
  | nil => exact fun p hp ↦ absurd hp List.not_mem_nil
  | cons _ halloc _ ih =>
    intro p hp
    rcases List.mem_cons.mp hp with rfl | hp
    · exact (PinnedPool.alloc_spec halloc).len_eq
    · exact ih p hp

/-- The buffers are as long as asked for when the round-up does not wrap. -/
theorem Takes.fits (h : Takes checks len targets pools next placed pools' next')
    (hrounds : RoundsUp checks len) : ∀ p ∈ placed, p.buf.len ≤ p.buf.reserved := by
  induction h with
  | nil => exact fun p hp ↦ absurd hp List.not_mem_nil
  | cons _ halloc _ ih =>
    intro p hp
    rcases List.mem_cons.mp hp with rfl | hp
    · exact (PinnedPool.alloc_spec halloc).fits hrounds
    · exact ih p hp

/-- No pool appears or disappears. -/
theorem Takes.isSome_pools (h : Takes checks len targets pools next placed pools' next')
    (numa : UInt16) : (pools' numa).isSome = (pools numa).isSome := by
  induction h with
  | nil => rfl
  | @cons target rest pools pools' next next' pool after buf placed hpool _ _ ih =>
    rw [ih]
    by_cases heq : numa = target.1
    · rw [heq, Function.update_self, hpool]
      rfl
    · rw [Function.update_of_ne heq]

/-- A target that has its buffer has a pool. -/
theorem Takes.pooled (h : Takes checks len targets pools next placed pools' next') :
    ∀ p ∈ placed, (pools p.numa).isSome = true := by
  induction h with
  | nil => exact fun p hp ↦ absurd hp List.not_mem_nil
  | @cons target rest pools pools' next next' pool after buf placed hpool halloc hrest ih =>
    intro p hp
    rcases List.mem_cons.mp hp with rfl | hp
    · rw [hpool]
      rfl
    · have hafter := ih p hp
      by_cases heq : p.numa = target.1
      · rw [heq, hpool]
        rfl
      · rw [Function.update_of_ne heq] at hafter
        exact hafter

/-- The new buffers are live besides the others. -/
theorem Takes.partitioned (h : Takes checks len targets pools next placed pools' next') :
    ∀ {live : List PinnedBuf}, Partitioned pools next live →
      Partitioned pools' next' ((placed.map Placed.buf).reverse ++ live) := by
  induction h with
  | nil => exact fun hpools ↦ hpools
  | cons hpool halloc _ ih =>
    intro live hpools
    rw [List.map_cons, List.reverse_cons, List.append_assoc]
    exact ih (hpools.alloc hpool (PinnedPool.alloc_spec halloc))

end Takes

/-! ### The bytes of the buffers -/

section Bytes

variable {pools : Pools} {next : ℕ} {live : List PinnedBuf} {bytes : List UInt8}

/-- The world with the bytes in every buffer. -/
def World.fillAll (w : World) (bytes : List UInt8) (placed : List Placed) : World :=
  { w with pinned := Local.fillAll w.pinned bytes placed }

theorem World.fillAll_cons (w : World) (bytes : List UInt8) (x : Placed) (placed : List Placed) :
    w.fillAll bytes (x :: placed) = (w.fill x.buf bytes).fillAll bytes placed := rfl

/-- Copies into some live buffers leave the others alone. -/
theorem bytesOf_fillAll_of_not_mem (h : Partitioned pools next live) {b : PinnedBuf}
    (hb : b ∈ live) (hfits : b.len ≤ b.reserved) (placed : List Placed) :
    ∀ w : World, (∀ x ∈ placed, x.buf ∈ live ∧ x.buf.len ≤ x.buf.reserved) →
      b ∉ placed.map Placed.buf → (w.fillAll bytes placed).bytesOf b = w.bytesOf b := by
  induction placed with
  | nil => exact fun w _ _ ↦ rfl
  | cons x placed ih =>
    intro w hlive hnot
    rw [List.map_cons, List.mem_cons, not_or] at hnot
    rw [w.fillAll_cons, ih _ (fun y hy ↦ hlive y (List.mem_cons_of_mem _ hy)) hnot.2]
    obtain ⟨hx, hxfits⟩ := hlive x List.mem_cons_self
    exact bytesOf_fill_ne h hb hx hnot.1 hfits hxfits bytes

/-- Every buffer holds what was copied. -/
theorem bytesOf_fillAll_of_mem (h : Partitioned pools next live) (placed : List Placed) :
    ∀ w : World, (∀ x ∈ placed, x.buf ∈ live ∧ x.buf.len ≤ x.buf.reserved) →
      (∀ x ∈ placed, x.buf.len = bytes.length) → (placed.map Placed.buf).Nodup →
        ∀ x ∈ placed, (w.fillAll bytes placed).bytesOf x.buf = bytes := by
  induction placed with
  | nil => exact fun w _ _ _ x hx ↦ absurd hx List.not_mem_nil
  | cons y placed ih =>
    intro w hlive hlen hnodup x hx
    rw [List.map_cons, List.nodup_cons] at hnodup
    have hrest : ∀ z ∈ placed, z.buf ∈ live ∧ z.buf.len ≤ z.buf.reserved :=
      fun z hz ↦ hlive z (List.mem_cons_of_mem _ hz)
    rw [w.fillAll_cons]
    rcases List.mem_cons.mp hx with rfl | hx
    · obtain ⟨hxlive, hfits⟩ := hlive x List.mem_cons_self
      rw [bytesOf_fillAll_of_not_mem h hxlive hfits placed _ hrest hnodup.1]
      exact bytesOf_fill_self (hlen x List.mem_cons_self).symm
    · exact ih _ hrest (fun z hz ↦ hlen z (List.mem_cons_of_mem _ hz)) hnodup.2 x hx

end Bytes

/-! ### Before and after a slot -/

/-- What a lone `put` finds before a slot. -/
structure Staged (key : Key) (spec : ObjectSpec) (live : List PinnedBuf) (w : World) : Prop where
  pools : Partitioned w.pools w.nextBuf live
  fits : ∀ b ∈ bufsIn w.state.objects, b.len ≤ b.reserved
  held : ∀ b ∈ w.held, b ∈ live
  queued : ∀ numa, (w.pools numa).isSome = true → (w.state.fifo (.cpu numa)).isSome = true
  lock : w.poisoned = false
  spec : specAt w.state.objects key = some spec

section Staged

variable {key : Key} {spec : ObjectSpec} {live : List PinnedBuf} {w : World} {i : ℕ}

/-- The slots of a request are there. -/
theorem Staged.exists_slot (h : Staged key spec live w) (hi : i < spec.slots.length) :
    ∃ obj slot, w.state.objects.find? key = some obj ∧ obj.slots[i]? = some slot := by
  obtain ⟨slot, hslot⟩ := exists_slotAt h.spec hi
  obtain ⟨obj, hfind, hget⟩ := Option.bind_eq_some_iff.mp hslot
  exact ⟨obj, slot, hfind, hget⟩

/-- Another world with the same metadata but for one slot. -/
theorem Staged.rewritten (h : Staged key spec live w) {live' : List PinnedBuf} {w' : World}
    {f : Slot → Slot} (hpools : Partitioned w'.pools w'.nextBuf live')
    (hfits : ∀ b ∈ bufsIn w'.state.objects, b.len ≤ b.reserved) (hheld : ∀ b ∈ w'.held, b ∈ live')
    (hsome : ∀ numa, (w'.pools numa).isSome = (w.pools numa).isSome)
    (hfifo : ∀ device, (w.state.fifo device).isSome = true →
      (w'.state.fifo device).isSome = true) (hlock : w'.poisoned = w.poisoned)
    (hrewritten : Rewritten w.state.objects key i f w'.state.objects) :
    Staged key spec live' w' where
  pools := hpools
  fits := hfits
  held := hheld
  queued := fun numa hnuma ↦ hfifo _ (h.queued numa (by rw [← hsome]; exact hnuma))
  lock := hlock.trans h.lock
  spec := by
    rw [hrewritten.specAt_eq]
    exact h.spec

/-- A claim is given back. -/
theorem Staged.unclaim (h : Staged key spec live w) {st : State}
    (hunclaim : w.state.unclaim key i = .ok st) : Staged key spec live { w with state := st } := by
  refine h.rewritten h.pools (fun b hb ↦ h.fits b ((mem_bufsIn_unclaim hunclaim b).mp hb))
    (fun b hb ↦ h.held b ((mem_held_unclaim hunclaim).mp hb)) (fun _ ↦ rfl)
    (fun device hdevice ↦ ?_) rfl (unclaim_rewritten hunclaim)
  rw [show st.fifo device = w.state.fifo device by rw [unclaim_fifo hunclaim]]
  exact hdevice

/-- The world after a slot has landed. -/
def World.landed (w : World) (st : State) (pools : Pools) (next : ℕ) (bytes : List UInt8)
    (placed : List Placed) : World :=
  { w with
    state := st
    pools := pools
    nextBuf := next
    pinned := Local.fillAll w.pinned bytes placed }

section Land

variable {checks : Bool} {len next : ℕ} {targets : List (UInt16 × Bool)} {pools : Pools}
  {placed : List Placed} {st : State} {bytes : List UInt8}

/-- The new buffers are live and as long as asked for. -/
theorem Takes.live_and_fits (htakes : Takes checks len targets w.pools w.nextBuf placed pools next)
    (hrounds : RoundsUp checks len) (live : List PinnedBuf) : ∀ x ∈ placed,
      x.buf ∈ (placed.map Placed.buf).reverse ++ live ∧ x.buf.len ≤ x.buf.reserved := by
  intro x hx
  exact ⟨List.mem_append_left _ (List.mem_reverse.mpr (List.mem_map_of_mem hx)),
    htakes.fits hrounds x hx⟩

/-- A slot lands. -/
theorem Staged.land (h : Staged key spec live w)
    (htakes : Takes checks len targets w.pools w.nextBuf placed pools next)
    (hrounds : RoundsUp checks len) (hstore : w.state.store key i placed = .ok (.ok st))
    (bytes : List UInt8) :
    Staged key spec ((placed.map Placed.buf).reverse ++ live)
      (w.landed st pools next bytes placed) := by
  refine h.rewritten (htakes.partitioned h.pools) (fun b hb ↦ ?_) (fun b hb ↦ ?_)
    htakes.isSome_pools (fun device hdevice ↦ ?_) rfl (store_rewritten hstore).1
  · rcases (mem_bufsIn_store hstore).mp hb with hold | hnew
    · exact h.fits b hold
    · obtain ⟨x, hx, rfl⟩ := List.mem_map.mp hnew
      exact htakes.fits hrounds x hx
  · rw [List.mem_append, List.mem_reverse]
    have hheld : b ∈ { w with state := st }.held := hb
    rw [mem_held_store hstore] at hheld
    exact hheld.symm.imp_right (h.held b)
  · exact store_fifo hstore device hdevice

/-- A landed slot leaves the bytes of every buffer in the metadata. -/
theorem Staged.bytesOf_land (h : Staged key spec live w)
    (htakes : Takes checks len targets w.pools w.nextBuf placed pools next)
    (hrounds : RoundsUp checks len) (st : State) (bytes : List UInt8) {b : PinnedBuf}
    (hb : b ∈ bufsIn w.state.objects) :
    (w.landed st pools next bytes placed).bytesOf b = w.bytesOf b := by
  have hpools := htakes.partitioned h.pools
  have hlive := h.held b (List.mem_append_left _ hb)
  refine bytesOf_fillAll_of_not_mem hpools (List.mem_append_right _ hlive) (h.fits b hb) placed w
    (htakes.live_and_fits hrounds live) fun hin ↦ ?_
  exact (List.nodup_append.mp hpools.nodup).2.2 b (List.mem_reverse.mpr hin) b hlive rfl

/-- The buffers of a landed slot hold its bytes. -/
theorem Staged.bytesOf_placed (h : Staged key spec live w)
    (htakes : Takes checks bytes.length targets w.pools w.nextBuf placed pools next)
    (hrounds : RoundsUp checks bytes.length) (st : State) {x : Placed} (hx : x ∈ placed) :
    (w.landed st pools next bytes placed).bytesOf x.buf = bytes := by
  have hpools := htakes.partitioned h.pools
  exact bytesOf_fillAll_of_mem hpools placed w (htakes.live_and_fits hrounds live) htakes.len_eq
    (List.nodup_reverse.mp (List.nodup_append.mp hpools.nodup).1) x hx

end Land

end Staged

/-! ### What is reported stays -/

section Reported

variable {inner : Inner} {mem : ByteSpace} {t : ℕ} {w w' : World} {th : PutThread}
  {r : Result RpPut}

/-- A `put` that has its reply has the same with more fuel. -/
theorem drive_of_le (fuel more : ℕ) : ∀ w : World, World.drive inner mem t fuel w = (w', .put r) →
    World.drive inner mem t (fuel + more) w = (w', .put r) := by
  induction fuel with
  | zero =>
    intro w h
    cases h
  | succ fuel ih =>
    intro w h
    rw [Nat.succ_add]
    cases hth : w.threads t with
    | none =>
      rw [World.drive, hth] at h
      cases h
    | some th =>
      rw [drive_succ hth] at h ⊢
      rcases resume_cases (World.drive inner mem t fuel) (w.advance inner mem t th .done) with
        hreply | ⟨hrunning, hnext⟩
      · rw [hreply] at h
        rw [h]
        rfl
      · rw [hnext] at h
        rw [hrunning]
        exact ih _ h

/-- A `put` returns what it has reported, and more. -/
theorem exists_results_of_drive (fuel : ℕ) : ∀ (w : World) (th : PutThread),
    w.threads t = some th → World.drive inner mem t fuel w = (w', .put r) →
      ∃ results, r = .ok ⟨results⟩ ∧ th.results <+: results := by
  induction fuel with
  | zero =>
    intro w th _ h
    cases h
  | succ fuel ih =>
    intro w th hth h
    rw [drive_succ hth] at h
    have hlowers : Lowers w t th (w.advance inner mem t th .done) := advance_lowers .done
    generalize w.advance inner mem t th .done = after at hlowers h
    cases hlowers with
    | returned _ _ =>
      cases h
      exact ⟨th.results, rfl, List.prefix_rfl⟩
    | panicked => cases h
    | running hth' _ hresults _ =>
      obtain ⟨results, hr, hmore⟩ := ih _ _ hth' h
      exact ⟨results, hr, hresults.trans hmore⟩

/-- A `put` that gets to a state in which it has reported something returns that, and more. -/
theorem Leads.exists_results {w₁ : World} (h : Leads inner mem t w w₁)
    (hth : w₁.threads t = some th) {fuel : ℕ}
    (hdrive : World.drive inner mem t fuel w = (w', .put r)) :
    ∃ results, r = .ok ⟨results⟩ ∧ th.results <+: results := by
  obtain ⟨count, hcount⟩ := h
  have hmore := drive_of_le fuel count w hdrive
  rw [Nat.add_comm, hcount] at hmore
  exact exists_results_of_drive fuel w₁ th hth hmore

end Reported

end Pegastore.Local
