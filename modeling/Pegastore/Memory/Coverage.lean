import Pegastore.Memory.System

/-!
# Every evictable replica is queued

`make_room` finds a replica only through the queue of its device. `Covered` says that the queue
names every slot in which a `Cache` object owns bytes on the device. A call keeps it
(`Effect.covered`) when queue entries are faithful: the slot index is stored as 32 bits, so a
request must not have more than `2 ^ 32` slots (`FewSlots`). Entries are only lost with what they
name, and the entries of the key being put are set aside and returned.
-/

set_option autoImplicit false
set_option relaxedAutoImplicit false

namespace Pegastore.Memory

open Outcome ByteMemory Transition

/-- The queue of a device names every slot of a `Cache` object that has owned bytes there. -/
def Covered (st : State) : Prop :=
  ∀ device pool key i r, st.pools device = some pool → CacheAt st.objects key →
    r ∈ replicasAt st.objects key i → r.ownedOn device = true → Names pool.fifo key i

/-- The call has no more slots than a queue entry can number. -/
def FewSlots : Op → Prop
  | .put _ op => op.slots.length ≤ 2 ^ 32
  | _ => True

theorem queueEntry_toNat (kb : Key) {i : ℕ} (hi : i < 2 ^ 32) : (queueEntry kb i).2.toNat = i :=
  Nat.mod_eq_of_lt hi

/-- Whatever of another key is left was queued, and its entry is still there. -/
theorem Drained.covered_other {kb : Key} {gone : Device → List FifoEntry}
    {added : Device → List ℕ} {before after : State} (h : Drained kb gone added before after)
    (hbefore : Covered before) {device : Device} {pool' : Pool} {key : Key} {i : ℕ}
    {r : ReplicaEntry} (hkey : key ≠ kb) (hpool' : after.pools device = some pool')
    (hcache : CacheAt after.objects key) (hr : r ∈ replicasAt after.objects key i)
    (howned : r.ownedOn device = true) : ∃ entry ∈ othersOf kb pool'.fifo,
      entry.1 = key ∧ entry.2.toNat = i := by
  obtain ⟨pool, kept, hpool, hmoved⟩ := h.queues device pool' hpool'
  obtain ⟨spec, hspec, hret⟩ := hcache
  have hcache' : CacheAt before.objects key := ⟨spec, h.spec_of key spec hkey hspec, hret⟩
  obtain ⟨entry, hentry, hname, hslot⟩ := hbefore device pool key i r hpool hcache'
    ((h.sublist key i hkey).subset hr) howned
  have hother : entry ∈ othersOf kb pool.fifo := mem_othersOf.mpr ⟨hentry, hname ▸ hkey⟩
  rw [hmoved.others] at hother
  rcases List.mem_append.mp hother with hgone | hkept
  · exact absurd ⟨entry, hgone, hname, hslot⟩ (h.remaining key i r device hkey hcache' hr howned)
  · refine ⟨entry, ?_, hname, hslot⟩
    rw [hmoved.after_eq, othersOf_append]
    exact List.mem_append_left _ hkept

/-- Coverage through a `put`, at any point of it. -/
theorem Covered.put {inner : Inner} {mem : UserMemory} {kb : Key} {op : OpPut} {first st : State}
    {done : List (Result Unit)} (h : PutProgress inner mem kb op first done st)
    (hfew : done.length ≤ 2 ^ 32) (hfirst : Covered first) : Covered st := by
  intro device pool' key i r hpool' hcache hr howned
  obtain ⟨gone, added, hdrained, hqueued⟩ := h.drained
  by_cases hkey : key = kb
  · subst hkey
    obtain ⟨pool, kept, hpool, hmoved⟩ := hdrained.queues device pool' hpool'
    by_cases hok : done[i]? = some (.ok ())
    · have hlt : i < done.length := (List.getElem?_eq_some_iff.mp hok).1
      have hadded := hqueued.covers device i r hok hr howned
      refine ⟨queueEntry key i, ?_, rfl, queueEntry_toNat key (hlt.trans_le hfew)⟩
      rw [hmoved.after_eq]
      exact List.mem_append_right _ (List.mem_map_of_mem hadded)
    · rw [h.kept i hok] at hr
      have hcache' : CacheAt first.objects key := by
        obtain ⟨spec, hspec, hret⟩ := hcache
        rw [h.spec_self, Option.some.injEq] at hspec
        rcases h.spec_before with hnone | hsome
        · rw [specAt_none_replicasAt hnone] at hr
          cases hr
        · exact ⟨op.spec, hsome, hspec ▸ hret⟩
      obtain ⟨entry, hentry, hname, hslot⟩ := hfirst device pool key i r hpool hcache' hr howned
      have hown : entry ∈ ownOf key kept := by
        rw [hmoved.own]
        exact mem_ownOf.mpr ⟨hentry, hname⟩
      refine ⟨entry, ?_, hname, hslot⟩
      rw [hmoved.after_eq]
      exact List.mem_append_left _ (mem_ownOf.mp hown).1
  · obtain ⟨entry, hentry, hnamed⟩ :=
      hdrained.covered_other hfirst hkey hpool' hcache hr howned
    exact ⟨entry, (mem_othersOf.mp hentry).1, hnamed⟩

/-- A call that stores nothing keeps every evictable replica queued. -/
theorem Covered.of_shrinks {before after : State} (hbefore : Covered before)
    (h : Shrinks before after) : Covered after := by
  intro device pool' key i r hpool' hcache hr howned
  obtain ⟨pool, hpool, _, hfifo, _⟩ := h.pools device pool' hpool'
  obtain ⟨spec, hfound, hret⟩ := hcache
  rw [hfifo]
  exact hbefore device pool key i r hpool ⟨spec, h.spec_of key spec hfound, hret⟩
    (h.owned_of key i r device hr howned) howned

/-- One call with few slots keeps every evictable replica queued. -/
theorem Effect.covered {inner : Inner} {w w' : World} {op : Op} {reply : Reply}
    (h : Effect inner w op reply w') (hfew : FewSlots op) (hw : Covered w.state) :
    Covered w'.state := by
  rcases h.put_or_shrinks with ⟨key, request, results, rfl, _, hdone⟩ | ⟨hshrinks, _⟩
  · exact Covered.put hdone.progress (hdone.length.le.trans hfew) hw
  · exact hw.of_shrinks hshrinks

theorem MemoryBuilder.state_covered (b : MemoryBuilder) : Covered b.state := by
  intro device pool key i r _ _ hr
  change r ∈ replicasAt SortedMap.empty key i at hr
  rw [replicasAt_of_find?_none (SortedMap.find?_empty key)] at hr
  cases hr

theorem run_covered {b : MemoryBuilder} {m₀ : UserMemory} {history : List Event} {w : World}
    (h : ((memory b m₀).restrict fun _ e ↦ FewSlots e.op).Run history w) : Covered w.state := by
  refine run_induction (I := fun _ w ↦ Covered w.state) b.state_covered ?_ h
  intro _ w e w' _ hw hfew _ _ heffect
  exact heffect.covered hfew hw

end Pegastore.Memory
