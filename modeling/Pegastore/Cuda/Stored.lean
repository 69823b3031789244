import Pegastore.Cuda.Actions

/-!
# What the store owns, slot by slot

`bufsAt` is the list of buffers that the store owns in a slot. Each section of an operation is
described by its effect on these lists and on the specs: claiming, giving a claim back, publishing
and retiring a region change none of them (`SameStored`), a store appends to one list, an eviction
takes from lists of `Cache` objects, and a removal drops whole objects.

`explicit_buffers_stay` is what follows for any interleaving of any number of operations: the
buffers stored in an object that is not a `Cache` object stay where they are and in their order
until a removal covers its key, and byte for byte unless a length wraps around.
-/

set_option autoImplicit false
set_option relaxedAutoImplicit false

namespace Pegastore.Local

open Outcome ByteMemory Transition

/-- The buffers the store owns in slot `i` under a key. -/
def bufsAt (objects : Objects) (key : Key) (i : ℕ) : List PinnedBuf :=
  bufsOf (replicasAt objects key i)

/-- Specs and owned buffers are the same. -/
structure SameStored (before after : Objects) : Prop where
  spec : ∀ key, specAt after key = specAt before key
  bufs : ∀ key i, bufsAt after key i = bufsAt before key i

section Effects

variable {before after objects : Objects} {key : Key} {i : ℕ}

theorem bufsAt_of_slotAt {slot : Slot} (h : slotAt objects key i = some slot) :
    bufsAt objects key i = bufsOf slot.replicas := by rw [bufsAt, replicasAt_of_slotAt h]

theorem bufsAt_of_slotAt_none (h : slotAt objects key i = none) : bufsAt objects key i = [] := by
  rw [bufsAt, replicasAt_of_slotAt_none h]
  rfl

theorem bufsAt_of_specAt_none (h : specAt objects key = none) (i : ℕ) :
    bufsAt objects key i = [] :=
  bufsAt_of_slotAt_none (slotAt_of_absent (Option.map_eq_none_iff.mp h) i)

theorem mem_bufsIn_of_bufsAt {b : PinnedBuf} (h : b ∈ bufsAt objects key i) :
    b ∈ bufsIn objects := by
  cases hslot : slotAt objects key i with
  | none =>
    rw [bufsAt_of_slotAt_none hslot] at h
    cases h
  | some slot =>
    rw [bufsAt_of_slotAt hslot] at h
    exact mem_bufsIn.mpr ⟨key, i, slot, hslot, h⟩

/-- A claim moves no buffer. -/
theorem Claimed.bufsAt {spec : ObjectSpec} {writable : List Bool}
    (h : Claimed before key spec writable after) (other : Key) (j : ℕ) :
    Local.bufsAt after other j = Local.bufsAt before other j := by
  by_cases heq : key = other
  · subst heq
    cases hold : slotAt before key j with
    | some old =>
      rcases h.slotAt_of_before hold with ⟨_, hsame⟩ | ⟨_, hnew, rfl⟩
      · rw [bufsAt_of_slotAt hsame, bufsAt_of_slotAt hold]
      · rw [bufsAt_of_slotAt hnew, bufsAt_of_slotAt hold]
    | none =>
      rw [bufsAt_of_slotAt_none hold]
      cases hslot : slotAt after key j with
      | none => exact bufsAt_of_slotAt_none hslot
      | some slot =>
        rw [bufsAt_of_slotAt hslot]
        rcases h.slotAt_key j slot hslot with ⟨_, hsame⟩ | ⟨_, rfl, _⟩
        · cases hold.symm.trans hsame
        · rfl
  · unfold Local.bufsAt replicasAt
    rw [h.slotAt_ne other j heq]

/-- A slot was rewritten: its buffers are those of the new slot, and the others are the same. -/
theorem Rewritten.bufsAt {f : Slot → Slot} (h : Rewritten before key i f after)
    {extra : List PinnedBuf}
    (hf : ∀ s, bufsOf (f s).replicas = bufsOf s.replicas ++ extra)
    (hslot : extra = [] ∨ ∃ slot, slotAt before key i = some slot) (other : Key) (j : ℕ) :
    Local.bufsAt after other j =
      if other = key ∧ j = i then Local.bufsAt before key i ++ extra
      else Local.bufsAt before other j := by
  split_ifs with heq
  · rw [heq.1, heq.2]
    cases hold : slotAt before key i with
    | none =>
      have hnone : slotAt after key i = none := by rw [h.slotAt_self, hold]; rfl
      rw [bufsAt_of_slotAt_none hnone, bufsAt_of_slotAt_none hold]
      rcases hslot with rfl | ⟨slot, hsome⟩
      · rfl
      · cases hold.symm.trans hsome
    | some slot =>
      have hsome : slotAt after key i = some (f slot) := by rw [h.slotAt_self, hold]; rfl
      rw [bufsAt_of_slotAt hsome, bufsAt_of_slotAt hold, hf]
  · unfold Local.bufsAt replicasAt
    rw [h.slotAt_ne other j heq]

/-- A store appends the buffers of the `put` to its slot. -/
theorem store_bufsAt {st st' : State} {placed : List Placed}
    (h : st.store key i placed = .ok (.ok st')) (other : Key) (j : ℕ) :
    bufsAt st'.objects other j =
      if other = key ∧ j = i then bufsAt st.objects key i ++ placed.map Placed.buf
      else bufsAt st.objects other j := by
  obtain ⟨hrewritten, hslot⟩ := store_rewritten h
  refine hrewritten.bufsAt (fun s ↦ ?_) (.inr hslot) other j
  rw [← bufsOf_pinnedReplicas]
  exact bufsOf_append _ _

theorem unclaim_sameStored {st st' : State} (h : st.unclaim key i = .ok st') :
    SameStored st.objects st'.objects := by
  have hrewritten := unclaim_rewritten h
  refine ⟨hrewritten.specAt_eq, fun other j ↦ ?_⟩
  rw [hrewritten.bufsAt (fun s ↦ (List.append_nil _).symm) (.inl rfl)]
  split_ifs with heq
  · rw [heq.1, heq.2, List.append_nil]
  · rfl

theorem publish_sameStored {st st' : State} {op : OpPublish} {device : Device} {total : ℕ}
    (h : st.publish key op device total = .ok (.ok st')) :
    SameStored st.objects st'.objects := by
  obtain ⟨obj, slot, first, hfind, hslot, hst⟩ := publish_ok h
  have hrewritten := rewritten_setSlot hfind hslot
    fun s ↦ { s with replicas := s.replicas ++ [externalReplica device first op.src] }
  rw [hst]
  refine ⟨hrewritten.specAt_eq, fun other j ↦ ?_⟩
  have hbufs : ∀ s : Slot, bufsOf (s.replicas ++ [externalReplica device first op.src]) =
      bufsOf s.replicas ++ [] := by
    intro s
    rw [List.append_nil, bufsOf_externalReplica]
  rw [hrewritten.bufsAt hbufs (.inl rfl)]
  split_ifs with heq
  · rw [heq.1, heq.2, List.append_nil]
  · rfl

theorem retireRegion_sameStored (st : State) (regionId : ℕ) :
    SameStored st.objects (st.retireRegion regionId).objects where
  spec := by
    intro key
    unfold State.retireRegion specAt
    rw [SortedMap.find?_mapValues, Option.map_map]
    rfl
  bufs := by
    intro key j
    unfold bufsAt replicasAt
    rw [slotAt_retireRegion]
    cases slotAt st.objects key j with
    | none => rfl
    | some slot => exact bufsOf_retire regionId slot.replicas

/-- The keys are gone, and the other objects are untouched. -/
theorem find?_removeKeys (keys : List Key) : ∀ (objects : Objects) (key : Key),
    (removeKeys keys objects).2.find? key = if key ∈ keys then none else objects.find? key := by
  induction keys with
  | nil => exact fun objects key ↦ (if_neg List.not_mem_nil).symm
  | cons first rest ih =>
    intro objects key
    have hfirst : (removeKey objects first).2.find? key =
        if first = key then none else objects.find? key := by
      unfold removeKey
      cases hfind : objects.find? first with
      | none =>
        split_ifs with heq
        · exact heq ▸ hfind
        · rfl
      | some obj =>
        split_ifs with heq
        · exact heq ▸ SortedMap.find?_erase_self objects first
        · exact SortedMap.find?_erase_of_ne objects heq
    change (removeKeys rest (removeKey objects first).2).2.find? key = _
    rw [ih, hfirst]
    by_cases hrest : key ∈ rest
    · rw [if_pos hrest, if_pos (List.mem_cons_of_mem _ hrest)]
    · rw [if_neg hrest]
      by_cases heq : first = key
      · rw [if_pos heq, if_pos (heq ▸ List.mem_cons_self)]
      · rw [if_neg heq, if_neg (List.not_mem_cons_of_ne_of_not_mem (Ne.symm heq) hrest)]

theorem State.isPrefixOf_of_mem_keysFrom {st : State} {start : List UInt8}
    (h : key ∈ st.keysFrom start) : start.isPrefixOf key = true := by
  unfold State.keysFrom at h
  obtain ⟨entry, hentry, rfl⟩ := List.mem_map.mp h
  have hall := List.all_takeWhile (l := st.objects.rangeFrom start)
    (p := fun e ↦ start.isPrefixOf e.1)
  exact List.all_eq_true.mp hall entry hentry

end Effects

/-! ### Objects that are not evicted -/

/-- The action takes the key out of the store. -/
def Action.Covers (key : Key) : Action → Prop
  | .remove keys => key ∈ keys
  | .removePrefix start => start.isPrefixOf key = true
  | _ => False

/-- Under the key there is an object with the spec, and its slots have at least these buffers. -/
structure Keeps (key : Key) (spec : ObjectSpec) (bufs : ℕ → List PinnedBuf) (objects : Objects) :
    Prop where
  spec : specAt objects key = some spec
  bufs : ∀ i, bufs i <+: bufsAt objects key i

section Keeps

variable {before after : Objects} {key : Key} {spec : ObjectSpec} {bufs : ℕ → List PinnedBuf}

theorem Keeps.same (h : Keeps key spec bufs before) (hsame : SameStored before after) :
    Keeps key spec bufs after :=
  ⟨(hsame.spec key).trans h.spec, fun i ↦ hsame.bufs key i ▸ h.bufs i⟩

theorem Keeps.of_find? (h : Keeps key spec bufs before) (heq : after.find? key = before.find? key) :
    Keeps key spec bufs after where
  spec := by
    rw [specAt, heq]
    exact h.spec
  bufs := by
    intro i
    rw [bufsAt, replicasAt_congr heq]
    exact h.bufs i

theorem Keeps.claimed (h : Keeps key spec bufs before) {target : Key} {asked : ObjectSpec}
    {writable : List Bool} (hclaimed : Claimed before target asked writable after) :
    Keeps key spec bufs after where
  spec := by
    by_cases heq : target = key
    · subst heq
      rw [hclaimed.specAt_key, hclaimed.present spec h.spec]
    · rw [hclaimed.specAt_ne key heq]
      exact h.spec
  bufs := fun i ↦ hclaimed.bufsAt key i ▸ h.bufs i

theorem Keeps.stored {st st' : State} {target : Key} {i : ℕ} {placed : List Placed}
    (h : Keeps key spec bufs st.objects) (hstore : st.store target i placed = .ok (.ok st')) :
    Keeps key spec bufs st'.objects where
  spec := ((store_rewritten hstore).1.specAt_eq key).trans h.spec
  bufs := by
    intro j
    rw [store_bufsAt hstore]
    split_ifs with heq
    · obtain ⟨rfl, rfl⟩ := heq
      exact (h.bufs j).trans (List.prefix_append _ _)
    · exact h.bufs j

theorem Keeps.evicted {st : State} {device : Device} {protect : Key}
    {r : Bool × List PinnedBuf × State} (h : Keeps key spec bufs st.objects)
    (hret : spec.retention ≠ .cache) (hround : st.evictRound device protect = .ok r) :
    Keeps key spec bufs r.2.2.objects := by
  obtain ⟨popped, rest, hdone⟩ := evictRound_done hround
  refine h.of_find? (hdone.evicts.kept key (.inl ?_))
  rintro ⟨found, hfound, hcache⟩
  cases h.spec.symm.trans hfound
  exact hret hcache

theorem Keeps.acts {w w' : World} {t : ℕ} {th : PutThread}
    (h : Keeps key spec bufs w.state.objects) (hret : spec.retention ≠ .cache)
    (hacts : Acts w t th w') : Keeps key spec bufs w'.state.objects := by
  cases hacts with
  | kept hstate _ => exact hstate ▸ h
  | evicted _ hround hstate _ => exact hstate ▸ h.evicted hret hround
  | stored _ hstore hw =>
    subst hw
    exact h.stored hstore
  | unclaimed _ hunclaim hstate _ => exact hstate ▸ h.same (unclaim_sameStored hunclaim)

theorem Keeps.removed {w : World} {keys : List Key} {reply : Reply} (hkey : key ∉ keys)
    (h : Keeps key spec bufs w.state.objects) :
    Keeps key spec bufs (w.removeKeys keys reply).1.state.objects := by
  rcases removeKeys_outcome w keys reply with ⟨halike, _⟩ | ⟨_, halike⟩
  · exact halike.state ▸ h
  · rw [halike.state]
    exact h.of_find? ((find?_removeKeys keys w.state.objects key).trans (if_neg hkey))

/-- One action that does not cover the key. -/
theorem Keeps.exec {inner : Inner} {mem mem' : ByteSpace} {w w' : World} {action : Action}
    {reply : Reply} (h : Keeps key spec bufs w.state.objects) (hret : spec.retention ≠ .cache)
    (hcovers : ¬ action.Covers key) (hexec : w.exec inner mem action = some (w', mem', reply)) :
    Keeps key spec bufs w'.state.objects := by
  cases action with
  | beginPut target op =>
    cases hexec
    rcases beginPut_outcome w target op with ⟨halike, _⟩ | ⟨writable, st, hclaim, heq⟩
    · exact halike.state ▸ h
    · rw [heq]
      exact h.claimed (claim_claimed hclaim)
  | advance t outcome =>
    obtain ⟨th, _, heq⟩ := Option.map_eq_some_iff.mp hexec
    cases heq
    exact h.acts hret (advance_acts outcome)
  | publish target op =>
    cases hexec
    rcases publish_outcome w target op with halike | ⟨device, total, st, hpublish, heq⟩
    · exact halike.state ▸ h
    · rw [heq]
      exact h.same (publish_sameStored hpublish)
  | remove keys =>
    cases hexec
    exact h.removed hcovers
  | removePrefix start =>
    cases hexec
    exact h.removed fun hmem ↦ hcovers (State.isPrefixOf_of_mem_keysFrom hmem)
  | retireRegion regionId =>
    cases hexec
    rcases retireRegion_outcome w regionId with halike | heq
    · exact halike.state ▸ h
    · rw [heq]
      exact h.same (retireRegion_sameStored w.state regionId)
  | beginGet target op =>
    cases hexec
    rcases beginGet_outcome inner w target op with ⟨halike, _⟩ | ⟨_, _, _, _, _, heq⟩
    · exact halike.state ▸ h
    · rw [heq]
      exact h
  | finishGet k outcome =>
    obtain ⟨rd, _, heq⟩ := Option.map_eq_some_iff.mp hexec
    cases heq
    exact h
  | userWrite addr bytes =>
    cases hexec
    exact h

end Keeps

end Pegastore.Local
