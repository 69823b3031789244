import Pegastore.Cuda.Local

/-!
# What the locked sections do to the metadata

The metadata is read through `specAt` and `slotAt`: the spec of the object under a key, and slot `j`
of it. Most sections only let go of things. `Lossy` is what they have in common: a key that is
present afterwards was present before with the same spec, and a slot has the flag it had and no
buffer it did not have. The sections of `put` are the exceptions: `claim` sets flags, `store` adds
buffers and clears a flag, `unclaim` clears one.
-/

set_option autoImplicit false
set_option relaxedAutoImplicit false

namespace Pegastore.Local

open Outcome

/-- The spec of the object under a key. -/
def specAt (objects : Objects) (key : Key) : Option ObjectSpec :=
  (objects.find? key).map Object.spec

/-- Slot `j` of the object under a key. -/
def slotAt (objects : Objects) (key : Key) (j : ℕ) : Option Slot :=
  (objects.find? key).bind fun obj ↦ obj.slots[j]?

section View

variable {objects : Objects} {key : Key} {obj : Object}

theorem specAt_of_find? (h : objects.find? key = some obj) :
    specAt objects key = some obj.spec := by
  unfold specAt
  rw [h]
  rfl

theorem slotAt_of_find? (h : objects.find? key = some obj) (j : ℕ) :
    slotAt objects key j = obj.slots[j]? := by
  unfold slotAt
  rw [h]
  rfl

theorem specAt_of_absent (h : objects.find? key = none) : specAt objects key = none := by
  unfold specAt
  rw [h]
  rfl

theorem slotAt_of_absent (h : objects.find? key = none) (j : ℕ) : slotAt objects key j = none := by
  unfold slotAt
  rw [h]
  rfl

/-- A slot of an object has an entry in its spec. -/
theorem exists_slotSpec {j : ℕ} {slot : Slot} (h : slotAt objects key j = some slot) :
    ∃ spec s, specAt objects key = some spec ∧ spec.slots[j]? = some s := by
  obtain ⟨obj, hfind, hslot⟩ := Option.bind_eq_some_iff.mp h
  obtain ⟨hlt, _⟩ := List.getElem?_eq_some_iff.mp hslot
  rw [obj.slots_length] at hlt
  exact ⟨obj.spec, obj.spec.slots[j], specAt_of_find? hfind, List.getElem?_eq_getElem hlt⟩

/-- An entry of the spec of an object has a slot. -/
theorem exists_slotAt {spec : ObjectSpec} {j : ℕ} (h : specAt objects key = some spec)
    (hj : j < spec.slots.length) : ∃ slot, slotAt objects key j = some slot := by
  obtain ⟨obj, hfind, rfl⟩ := Option.map_eq_some_iff.mp h
  rw [← obj.slots_length] at hj
  exact ⟨obj.slots[j], by rw [slotAt_of_find? hfind, List.getElem?_eq_getElem hj]⟩

/-- The buffers of the metadata are those of its slots. -/
theorem mem_bufsIn {buf : PinnedBuf} :
    buf ∈ bufsIn objects ↔
      ∃ key j slot, slotAt objects key j = some slot ∧ buf ∈ bufsOf slot.replicas := by
  unfold bufsIn Object.bufs
  simp only [List.mem_flatMap]
  constructor
  · intro ⟨⟨key, obj⟩, hentry, slot, hslot, hbuf⟩
    obtain ⟨j, hj⟩ := List.mem_iff_getElem?.mp hslot
    exact ⟨key, j, slot, by rw [slotAt_of_find? (objects.mem_entries_iff.mp hentry), hj], hbuf⟩
  · intro ⟨key, j, slot, hslot, hbuf⟩
    obtain ⟨obj, hfind, hget⟩ := Option.bind_eq_some_iff.mp hslot
    exact ⟨(key, obj), objects.mem_entries_iff.mpr hfind, slot, List.mem_of_getElem? hget, hbuf⟩

theorem specAt_insert (objects : Objects) (key other : Key) (obj : Object) :
    specAt (objects.insert key obj) other =
      if key = other then some obj.spec else specAt objects other := by
  unfold specAt
  rw [SortedMap.find?_insert]
  split_ifs <;> rfl

theorem slotAt_insert (objects : Objects) (key other : Key) (obj : Object) (j : ℕ) :
    slotAt (objects.insert key obj) other j =
      if key = other then obj.slots[j]? else slotAt objects other j := by
  unfold slotAt
  rw [SortedMap.find?_insert]
  split_ifs <;> rfl

/-- Replacing a slot does not change any spec. -/
theorem specAt_setSlot (hfind : objects.find? key = some obj) (i : ℕ) (slot : Slot) (other : Key) :
    specAt (objects.insert key (obj.setSlot i slot)) other = specAt objects other := by
  rw [specAt_insert]
  split_ifs with heq
  · rw [← heq, specAt_of_find? hfind]
    rfl
  · rfl

/-- Replacing a slot changes that slot. -/
theorem slotAt_setSlot (hfind : objects.find? key = some obj) {i : ℕ} {old : Slot}
    (hold : obj.slots[i]? = some old) (slot : Slot) (other : Key) (j : ℕ) :
    slotAt (objects.insert key (obj.setSlot i slot)) other j =
      if other = key ∧ j = i then some slot else slotAt objects other j := by
  obtain ⟨hlt, _⟩ := List.getElem?_eq_some_iff.mp hold
  rw [slotAt_insert]
  by_cases hkey : other = key
  · subst hkey
    rw [if_pos rfl, slotAt_of_find? hfind]
    change (obj.slots.set i slot)[j]? = _
    by_cases hj : j = i
    · subst hj
      rw [if_pos ⟨rfl, rfl⟩, List.getElem?_set_self hlt]
    · have hne : ¬ (other = other ∧ j = i) := fun h ↦ hj h.2
      rw [if_neg hne, List.getElem?_set_ne (Ne.symm hj)]
  · have hne : ¬ (other = key ∧ j = i) := fun h ↦ hkey h.1
    rw [if_neg (Ne.symm hkey), if_neg hne]

end View

/-! ### Sections that only let go -/

/-- Nothing appeared: specs and flags are as they were where there still is something. -/
structure Lossy (before after : Objects) : Prop where
  spec : ∀ key spec, specAt after key = some spec → specAt before key = some spec
  slot : ∀ key j slot, slotAt after key j = some slot → ∃ old, slotAt before key j = some old ∧
    slot.writing = old.writing ∧ (bufsOf slot.replicas).Sublist (bufsOf old.replicas)

theorem Lossy.refl (objects : Objects) : Lossy objects objects where
  spec := fun _ _ h ↦ h
  slot := fun _ _ slot h ↦ ⟨slot, h, rfl, List.Sublist.refl _⟩

theorem Lossy.trans {first second third : Objects} (h : Lossy first second)
    (h' : Lossy second third) : Lossy first third where
  spec := fun key spec hspec ↦ h.spec key spec (h'.spec key spec hspec)
  slot := by
    intro key j slot hslot
    obtain ⟨middle, hmiddle, hflag, hbufs⟩ := h'.slot key j slot hslot
    obtain ⟨old, hold, hflag', hbufs'⟩ := h.slot key j middle hmiddle
    exact ⟨old, hold, hflag.trans hflag', hbufs.trans hbufs'⟩

theorem Lossy.bufsIn {before after : Objects} (h : Lossy before after) {buf : PinnedBuf}
    (hbuf : buf ∈ bufsIn after) : buf ∈ bufsIn before := by
  obtain ⟨key, j, slot, hslot, hmem⟩ := mem_bufsIn.mp hbuf
  obtain ⟨old, hold, _, hbufs⟩ := h.slot key j slot hslot
  exact mem_bufsIn.mpr ⟨key, j, old, hold, hbufs.subset hmem⟩

theorem lossy_erase (objects : Objects) (key : Key) : Lossy objects (objects.erase key) where
  spec := by
    intro other spec h
    unfold specAt at h ⊢
    rw [SortedMap.find?_erase] at h
    split_ifs at h
    · cases h
    · exact h
  slot := by
    intro other j slot h
    unfold slotAt at h
    rw [SortedMap.find?_erase] at h
    split_ifs at h
    · cases h
    · exact ⟨slot, h, rfl, List.Sublist.refl _⟩

theorem lossy_setSlot {objects : Objects} {key : Key} {obj : Object}
    (hfind : objects.find? key = some obj) {i : ℕ} {old slot : Slot}
    (hold : obj.slots[i]? = some old) (hflag : slot.writing = old.writing)
    (hbufs : (bufsOf slot.replicas).Sublist (bufsOf old.replicas)) :
    Lossy objects (objects.insert key (obj.setSlot i slot)) where
  spec := by
    intro other spec h
    rwa [specAt_setSlot hfind] at h
  slot := by
    intro other j new h
    rw [slotAt_setSlot hfind hold] at h
    split_ifs at h with heq
    · cases h
      refine ⟨old, ?_, hflag, hbufs⟩
      rw [heq.1, heq.2, slotAt_of_find? hfind, hold]
    · exact ⟨new, h, rfl, List.Sublist.refl _⟩

theorem bufsOf_filter (keep : ReplicaEntry → Bool) (replicas : List ReplicaEntry) :
    (bufsOf (replicas.filter keep)).Sublist (bufsOf replicas) :=
  List.filter_sublist.filterMap _

theorem bufsOf_append (first second : List ReplicaEntry) :
    bufsOf (first ++ second) = bufsOf first ++ bufsOf second := List.filterMap_append

@[simp] theorem bufsOf_pinnedReplicas (placed : List Placed) :
    bufsOf (pinnedReplicas placed) = placed.map Placed.buf := by
  unfold bufsOf pinnedReplicas
  rw [List.filterMap_map]
  exact congrFun List.filterMap_eq_map placed

/-! ### Sections that drop buffers -/

/-- Objects that only let go, and the buffers that were dropped on the way. -/
structure Dropping (before : Objects) (dropped : List PinnedBuf) (after : Objects) : Prop where
  lossy : Lossy before after
  bufs : ∀ buf ∈ dropped, buf ∈ bufsIn before
  kept : ∀ buf ∈ bufsIn before, buf ∈ bufsIn after ∨ buf ∈ dropped

theorem Dropping.refl (objects : Objects) : Dropping objects [] objects :=
  ⟨Lossy.refl objects, fun _ h ↦ absurd h List.not_mem_nil, fun _ h ↦ .inl h⟩

theorem Dropping.trans {first second third : Objects} {dropped more : List PinnedBuf}
    (h : Dropping first dropped second) (h' : Dropping second more third) :
    Dropping first (dropped ++ more) third where
  lossy := h.lossy.trans h'.lossy
  bufs := by
    intro buf hbuf
    rcases List.mem_append.mp hbuf with hbuf | hbuf
    · exact h.bufs buf hbuf
    · exact h.lossy.bufsIn (h'.bufs buf hbuf)
  kept := by
    intro buf hbuf
    rcases h.kept buf hbuf with hmiddle | hdropped
    · exact (h'.kept buf hmiddle).imp_right (List.mem_append_right _)
    · exact .inr (List.mem_append_left _ hdropped)

/-- A buffer of the metadata is one of the object under a key, or stays when that key goes. -/
theorem mem_bufsIn_erase {objects : Objects} {key : Key} {buf : PinnedBuf}
    (h : buf ∈ bufsIn objects) :
    buf ∈ bufsIn (objects.erase key) ∨ ∃ obj, objects.find? key = some obj ∧ buf ∈ obj.bufs := by
  obtain ⟨other, j, slot, hslot, hbuf⟩ := mem_bufsIn.mp h
  by_cases heq : key = other
  · subst heq
    obtain ⟨obj, hfind, hget⟩ := Option.bind_eq_some_iff.mp hslot
    exact .inr ⟨obj, hfind, List.mem_flatMap.mpr ⟨slot, List.mem_of_getElem? hget, hbuf⟩⟩
  · refine .inl (mem_bufsIn.mpr ⟨other, j, slot, ?_, hbuf⟩)
    unfold slotAt
    rw [SortedMap.find?_erase_of_ne objects heq]
    exact hslot

theorem Object.bufs_of_isIdle {obj : Object} (h : obj.isIdle = true) : obj.bufs = [] := by
  refine List.flatMap_eq_nil_iff.mpr fun slot hslot ↦ ?_
  obtain ⟨hempty, _⟩ := (Bool.and_eq_true _ _).mp (List.all_eq_true.mp h slot hslot)
  rw [List.isEmpty_iff.mp hempty]
  rfl

/-- The buffers of a slot are those on a device and the others. -/
theorem mem_bufsOf_split {replicas : List ReplicaEntry} {buf : PinnedBuf}
    (keep : ReplicaEntry → Bool) (h : buf ∈ bufsOf replicas) :
    buf ∈ bufsOf (replicas.filter keep) ∨ buf ∈ bufsOf (replicas.filter fun r ↦ !keep r) := by
  obtain ⟨r, hr, hbuf⟩ := List.mem_filterMap.mp h
  cases hkeep : keep r with
  | true => exact .inl (List.mem_filterMap.mpr ⟨r, List.mem_filter.mpr ⟨hr, hkeep⟩, hbuf⟩)
  | false =>
    exact .inr (List.mem_filterMap.mpr ⟨r, List.mem_filter.mpr ⟨hr, by rw [hkeep]; rfl⟩, hbuf⟩)

/-- A slot lets go of buffers. -/
theorem dropping_setSlot {objects : Objects} {key : Key} {obj : Object} {old slot : Slot} {i : ℕ}
    {dropped : List PinnedBuf} (hfind : objects.find? key = some obj)
    (hget : obj.slots[i]? = some old) (hflag : slot.writing = old.writing)
    (hsub : (bufsOf slot.replicas).Sublist (bufsOf old.replicas))
    (hdropped : ∀ buf ∈ dropped, buf ∈ bufsOf old.replicas)
    (hkept : ∀ buf ∈ bufsOf old.replicas, buf ∈ bufsOf slot.replicas ∨ buf ∈ dropped) :
    Dropping objects dropped (objects.insert key (obj.setSlot i slot)) where
  lossy := lossy_setSlot hfind hget hflag hsub
  bufs := by
    intro buf hbuf
    refine mem_bufsIn.mpr ⟨key, i, old, ?_, hdropped buf hbuf⟩
    rw [slotAt_of_find? hfind, hget]
  kept := by
    intro buf hbuf
    obtain ⟨other, j, found, hfound, hmem⟩ := mem_bufsIn.mp hbuf
    by_cases heq : other = key ∧ j = i
    · rw [heq.1, heq.2, slotAt_of_find? hfind, hget] at hfound
      cases hfound
      refine (hkept buf hmem).imp_left fun hkeep ↦ mem_bufsIn.mpr ⟨key, i, slot, ?_, hkeep⟩
      rw [slotAt_setSlot hfind hget, if_pos ⟨rfl, rfl⟩]
    · refine .inl (mem_bufsIn.mpr ⟨other, j, found, ?_, hmem⟩)
      rw [slotAt_setSlot hfind hget, if_neg heq]
      exact hfound

/-- An idle object holds no buffer, so reclaiming it drops none. -/
theorem Dropping.reclaim {objects : Objects} {key : Key} {obj : Object} {dropped : List PinnedBuf}
    (h : Dropping objects dropped (objects.insert key obj)) (hidle : obj.isIdle = true) :
    Dropping objects dropped (objects.erase key) where
  lossy := lossy_erase objects key
  bufs := h.bufs
  kept := by
    intro buf hbuf
    refine (h.kept buf hbuf).imp_left fun hin ↦ ?_
    obtain ⟨other, j, slot, hslot, hmem⟩ := mem_bufsIn.mp hin
    rw [slotAt_insert] at hslot
    split_ifs at hslot with heq
    · have hbufs : buf ∈ obj.bufs := List.mem_flatMap.mpr ⟨slot, List.mem_of_getElem? hslot, hmem⟩
      rw [Object.bufs_of_isIdle hidle] at hbufs
      exact absurd hbufs List.not_mem_nil
    · refine mem_bufsIn.mpr ⟨other, j, slot, ?_, hmem⟩
      unfold slotAt
      rw [SortedMap.find?_erase_of_ne objects heq]
      exact hslot

/-- Dropping the replicas of a region drops no buffer. -/
theorem bufsOf_retire (regionId : ℕ) (replicas : List ReplicaEntry) :
    bufsOf (replicas.filter fun r ↦ !r.publishedFrom regionId) = bufsOf replicas := by
  unfold bufsOf
  rw [List.filterMap_filter]
  refine List.filterMap_congr fun r _ ↦ ?_
  unfold ReplicaEntry.publishedFrom ReplicaEntry.buf?
  cases r.data with
  | pinned buf => rfl
  | external segs id origins =>
    dsimp only
    split_ifs <;> rfl

/-- Slot by slot, a retirement keeps flags and buffers. -/
theorem slotAt_retireRegion (st : State) (regionId : ℕ) (key : Key) (j : ℕ) :
    slotAt (st.retireRegion regionId).objects key j = (slotAt st.objects key j).map fun s ↦
      { s with replicas := s.replicas.filter fun r ↦ !r.publishedFrom regionId } := by
  unfold State.retireRegion slotAt
  rw [SortedMap.find?_mapValues]
  cases st.objects.find? key with
  | none => rfl
  | some obj => exact List.getElem?_map

theorem retireRegion_dropping (st : State) (regionId : ℕ) :
    Dropping st.objects [] (st.retireRegion regionId).objects where
  lossy := by
    constructor
    · intro key spec h
      unfold State.retireRegion specAt at h
      rw [SortedMap.find?_mapValues, Option.map_map] at h
      exact h
    · intro key j slot h
      rw [slotAt_retireRegion] at h
      obtain ⟨old, hold, rfl⟩ := Option.map_eq_some_iff.mp h
      exact ⟨old, hold, rfl, bufsOf_filter _ _⟩
  bufs := fun _ hbuf ↦ absurd hbuf List.not_mem_nil
  kept := by
    intro buf hbuf
    obtain ⟨key, j, slot, hslot, hmem⟩ := mem_bufsIn.mp hbuf
    refine .inl (mem_bufsIn.mpr ⟨key, j, _, by rw [slotAt_retireRegion, hslot]; rfl, ?_⟩)
    rw [bufsOf_retire]
    exact hmem

/-- A `publish` that succeeds found its object and added an `External` replica to its slot. -/
theorem publish_ok {st st' : State} {key : Key} {op : OpPublish} {device : Device}
    {total : ℕ} (h : st.publish key op device total = .ok (.ok st')) :
    ∃ obj slot first, st.objects.find? key = some obj ∧ obj.slots[op.slot.toNat]? = some slot ∧
      st'.objects = st.objects.insert key (obj.setSlot op.slot.toNat
        { slot with replicas := slot.replicas ++ [externalReplica device first op.src] }) := by
  unfold State.publish at h
  cases hfind : st.objects.find? key with
  | none =>
    rw [hfind] at h
    cases h
  | some obj =>
    rw [hfind] at h
    dsimp only at h
    cases hspec : obj.spec.slots[op.slot.toNat]? with
    | none =>
      rw [hspec] at h
      cases h
    | some spec =>
      rw [hspec] at h
      dsimp only at h
      split_ifs at h with hlen
      · cases h
      · obtain ⟨slot, hslot, h⟩ := bind_eq_ok.mp h
        obtain ⟨first, _, h⟩ := bind_eq_ok.mp h
        cases h
        exact ⟨obj, slot, first, rfl, index_eq_ok.mp hslot, rfl⟩

theorem bufsOf_externalReplica (replicas : List ReplicaEntry) (device : Device) (first : Iov)
    (src : List Iov) :
    bufsOf (replicas ++ [externalReplica device first src]) = bufsOf replicas := by
  rw [bufsOf_append]
  exact List.append_nil _

theorem publish_dropping {st st' : State} {key : Key} {op : OpPublish} {device : Device}
    {total : ℕ} (h : st.publish key op device total = .ok (.ok st')) :
    Dropping st.objects [] st'.objects := by
  obtain ⟨obj, slot, first, hfind, hget, hst⟩ := publish_ok h
  rw [hst]
  refine dropping_setSlot hfind hget rfl ?_ (fun _ hbuf ↦ absurd hbuf List.not_mem_nil)
    fun buf hbuf ↦ .inl ?_
  · rw [bufsOf_externalReplica]
  · rwa [bufsOf_externalReplica]

theorem evictEntry_dropping {device : Device} {entry : FifoEntry} {objects : Objects}
    {popped : Popped} (h : evictEntry device entry objects = .ok popped) :
    Dropping objects popped.dropped popped.objects := by
  unfold evictEntry at h
  cases hfind : objects.find? entry.1 with
  | none =>
    rw [hfind] at h
    cases h
    exact Dropping.refl objects
  | some obj =>
    rw [hfind] at h
    dsimp only at h
    split_ifs at h with hclass
    · cases h
      exact Dropping.refl objects
    · obtain ⟨slot, hslot, h⟩ := bind_eq_ok.mp h
      cases h
      have hdrop : Dropping objects (bufsOf (slot.replicas.filter fun r ↦ r.pinnedOn device))
          (objects.insert entry.1 (obj.setSlot entry.2.toNat
            { slot with replicas := slot.replicas.filter fun r ↦ !r.pinnedOn device })) :=
        dropping_setSlot hfind (index_eq_ok.mp hslot) rfl (bufsOf_filter _ _)
          (fun _ hbuf ↦ (bufsOf_filter _ _).subset hbuf)
          (fun _ hbuf ↦ (mem_bufsOf_split (ReplicaEntry.pinnedOn device) hbuf).symm)
      dsimp only
      split_ifs with hidle
      · exact hdrop.reclaim hidle
      · exact hdrop

/-- An entry that evicts nothing drops nothing. -/
theorem evictEntry_dropped {device : Device} {entry : FifoEntry} {objects : Objects}
    {popped : Popped} (h : evictEntry device entry objects = .ok popped)
    (hevicted : popped.evicted = false) : popped.dropped = [] := by
  unfold evictEntry at h
  cases hfind : objects.find? entry.1 with
  | none =>
    rw [hfind] at h
    cases h
    rfl
  | some obj =>
    rw [hfind] at h
    dsimp only at h
    split_ifs at h with hclass
    · cases h
      rfl
    · obtain ⟨slot, _, h⟩ := bind_eq_ok.mp h
      cases h
      have hlength := not_not.mp (of_decide_eq_false hevicted)
      have hall := List.length_filter_eq_length_iff.mp hlength
      have hnone : (slot.replicas.filter fun r ↦ r.pinnedOn device) = [] := by
        refine List.filter_eq_nil_iff.mpr fun r hr hpinned ↦ ?_
        have hnot := hall r hr
        rw [hpinned] at hnot
        cases hnot
      dsimp only
      rw [hnone]
      rfl

theorem evictLoop_dropping {device : Device} {protect : Key} (queue : List FifoEntry) :
    ∀ {objects : Objects} {deferred : List FifoEntry} {round : Round},
      evictLoop device protect queue objects deferred = .ok round →
        Dropping objects round.popped.dropped round.popped.objects := by
  induction queue with
  | nil =>
    intro objects deferred round h
    cases h
    exact Dropping.refl objects
  | cons entry queue ih =>
    intro objects deferred round h
    unfold evictLoop at h
    split_ifs at h with hprotect
    · exact ih h
    · obtain ⟨popped, hpopped, h⟩ := bind_eq_ok.mp h
      have hfirst := evictEntry_dropping hpopped
      split_ifs at h with hevicted
      · cases h
        exact hfirst
      · have hnone := evictEntry_dropped hpopped (Bool.eq_false_of_not_eq_true hevicted)
        have hboth := hfirst.trans (ih h)
        rwa [hnone, List.nil_append] at hboth

theorem evictRound_dropping {st st' : State} {device : Device} {protect : Key} {evicted : Bool}
    {dropped : List PinnedBuf} (h : st.evictRound device protect = .ok (evicted, dropped, st')) :
    Dropping st.objects dropped st'.objects := by
  unfold State.evictRound at h
  obtain ⟨queue, _, h⟩ := bind_eq_ok.mp h
  obtain ⟨round, hround, h⟩ := bind_eq_ok.mp h
  cases h
  exact evictLoop_dropping queue hround

/-- A claimed slot is still there. -/
def KeepsClaims (before after : Objects) : Prop :=
  ∀ key j slot, slotAt before key j = some slot → slot.writing = true →
    ∃ slot', slotAt after key j = some slot' ∧ slot'.writing = true

theorem KeepsClaims.refl (objects : Objects) : KeepsClaims objects objects :=
  fun _ _ slot hslot hwriting ↦ ⟨slot, hslot, hwriting⟩

theorem KeepsClaims.trans {first second third : Objects} (h : KeepsClaims first second)
    (h' : KeepsClaims second third) : KeepsClaims first third := by
  intro key j slot hslot hwriting
  obtain ⟨middle, hmiddle, hclaimed⟩ := h key j slot hslot hwriting
  exact h' key j middle hmiddle hclaimed

theorem keepsClaims_setSlot {objects : Objects} {key : Key} {obj : Object} {old slot : Slot} {i : ℕ}
    (hfind : objects.find? key = some obj) (hget : obj.slots[i]? = some old)
    (hflag : slot.writing = old.writing) :
    KeepsClaims objects (objects.insert key (obj.setSlot i slot)) := by
  intro other j found hfound hwriting
  rw [slotAt_setSlot hfind hget]
  split_ifs with heq
  · rw [heq.1, heq.2, slotAt_of_find? hfind, hget] at hfound
    cases hfound
    exact ⟨slot, rfl, hflag.trans hwriting⟩
  · exact ⟨found, hfound, hwriting⟩

/-- Reclaiming an idle object takes no claimed slot away. -/
theorem KeepsClaims.reclaim {objects : Objects} {key : Key} {obj : Object}
    (h : KeepsClaims objects (objects.insert key obj)) (hidle : obj.isIdle = true) :
    KeepsClaims objects (objects.erase key) := by
  intro other j slot hslot hwriting
  obtain ⟨found, hfound, hclaimed⟩ := h other j slot hslot hwriting
  rw [slotAt_insert] at hfound
  split_ifs at hfound with heq
  · obtain ⟨_, hnot⟩ := (Bool.and_eq_true _ _).mp
      (List.all_eq_true.mp hidle found (List.mem_of_getElem? hfound))
    rw [hclaimed] at hnot
    cases hnot
  · refine ⟨found, ?_, hclaimed⟩
    unfold slotAt
    rw [SortedMap.find?_erase_of_ne objects heq]
    exact hfound

theorem evictEntry_keepsClaims {device : Device} {entry : FifoEntry} {objects : Objects}
    {popped : Popped} (h : evictEntry device entry objects = .ok popped) :
    KeepsClaims objects popped.objects := by
  unfold evictEntry at h
  cases hfind : objects.find? entry.1 with
  | none =>
    rw [hfind] at h
    cases h
    exact KeepsClaims.refl objects
  | some obj =>
    rw [hfind] at h
    dsimp only at h
    split_ifs at h with hclass
    · cases h
      exact KeepsClaims.refl objects
    · obtain ⟨slot, hslot, h⟩ := bind_eq_ok.mp h
      cases h
      have hset : KeepsClaims objects (objects.insert entry.1 (obj.setSlot entry.2.toNat
          { slot with replicas := slot.replicas.filter fun r ↦ !r.pinnedOn device })) :=
        keepsClaims_setSlot hfind (index_eq_ok.mp hslot) rfl
      dsimp only
      split_ifs with hidle
      · exact hset.reclaim hidle
      · exact hset

theorem evictLoop_keepsClaims {device : Device} {protect : Key} (queue : List FifoEntry) :
    ∀ {objects : Objects} {deferred : List FifoEntry} {round : Round},
      evictLoop device protect queue objects deferred = .ok round →
        KeepsClaims objects round.popped.objects := by
  induction queue with
  | nil =>
    intro objects deferred round h
    cases h
    exact KeepsClaims.refl objects
  | cons entry queue ih =>
    intro objects deferred round h
    unfold evictLoop at h
    split_ifs at h with hprotect
    · exact ih h
    · obtain ⟨popped, hpopped, h⟩ := bind_eq_ok.mp h
      have hfirst := evictEntry_keepsClaims hpopped
      split_ifs at h with hevicted
      · cases h
        exact hfirst
      · exact hfirst.trans (ih h)

/-- Eviction reclaims no object with a claimed slot. -/
theorem evictRound_keepsClaims {st st' : State} {device : Device} {protect : Key} {evicted : Bool}
    {dropped : List PinnedBuf} (h : st.evictRound device protect = .ok (evicted, dropped, st')) :
    KeepsClaims st.objects st'.objects := by
  unfold State.evictRound at h
  obtain ⟨queue, _, h⟩ := bind_eq_ok.mp h
  obtain ⟨round, hround, h⟩ := bind_eq_ok.mp h
  cases h
  exact evictLoop_keepsClaims queue hround

theorem publish_keepsClaims {st st' : State} {key : Key} {op : OpPublish} {device : Device}
    {total : ℕ} (h : st.publish key op device total = .ok (.ok st')) :
    KeepsClaims st.objects st'.objects := by
  obtain ⟨obj, slot, replica, hfind, hget, hst⟩ := publish_ok h
  rw [hst]
  exact keepsClaims_setSlot hfind hget rfl

theorem retireRegion_keepsClaims (st : State) (regionId : ℕ) :
    KeepsClaims st.objects (st.retireRegion regionId).objects := by
  intro key j slot hslot hwriting
  rw [slotAt_retireRegion, hslot]
  exact ⟨_, rfl, hwriting⟩

theorem removeKey_dropping (objects : Objects) (key : Key) :
    Dropping objects (removeKey objects key).1 (removeKey objects key).2 := by
  unfold removeKey
  cases hfind : objects.find? key with
  | none => exact Dropping.refl objects
  | some obj =>
    refine ⟨lossy_erase objects key, fun buf hbuf ↦ ?_, fun buf hbuf ↦ ?_⟩
    · unfold bufsIn
      exact List.mem_flatMap.mpr ⟨(key, obj), objects.mem_entries_iff.mpr hfind, hbuf⟩
    · refine (mem_bufsIn_erase hbuf).imp_right fun ⟨found, hfound, hmem⟩ ↦ ?_
      rw [hfind] at hfound
      cases hfound
      exact hmem

theorem removeKeys_dropping (keys : List Key) : ∀ objects : Objects,
    Dropping objects (removeKeys keys objects).1 (removeKeys keys objects).2 := by
  induction keys with
  | nil => exact Dropping.refl
  | cons key keys ih =>
    exact fun objects ↦ (removeKey_dropping objects key).trans (ih (removeKey objects key).2)

/-! ### The sections of `put` -/

/-- What a claim does: the object is the one that was there or a new one, the slots without replica
and writer are claimed, and nothing else changes. -/
structure Claimed (before : Objects) (key : Key) (spec : ObjectSpec) (writable : List Bool)
    (after : Objects) : Prop where
  present : ∀ old, specAt before key = some old → old = spec
  length_eq : writable.length = spec.slots.length
  specAt_key : specAt after key = some spec
  specAt_ne : ∀ other, key ≠ other → specAt after other = specAt before other
  slotAt_ne : ∀ other j, key ≠ other → slotAt after other j = slotAt before other j
  slotAt_key : ∀ j slot, slotAt after key j = some slot →
    (writable[j]? = some false ∧ slotAt before key j = some slot) ∨
      (writable[j]? = some true ∧ slot = ⟨[], true⟩ ∧
        ∀ old, slotAt before key j = some old → old = ⟨[], false⟩)

theorem Slot.claim_cases (s : Slot) :
    (s.claimable = false ∧ s.claim = s) ∨
      (s.claimable = true ∧ s.claim = ⟨[], true⟩ ∧ s = ⟨[], false⟩) := by
  unfold Slot.claim
  cases hclaim : s.claimable with
  | false => exact .inl ⟨rfl, rfl⟩
  | true =>
    obtain ⟨replicas, writing⟩ := s
    obtain ⟨hempty, hidle⟩ := (Bool.and_eq_true _ _).mp hclaim
    have hnil : replicas = [] := List.isEmpty_iff.mp hempty
    have hnot : writing = false := by simpa using hidle
    subst hnil hnot
    exact .inr ⟨rfl, rfl, rfl⟩

theorem claim_claimed {st st' : State} {key : Key} {spec : ObjectSpec} {writable : List Bool}
    (h : st.claim key spec = .ok (writable, st')) :
    Claimed st.objects key spec writable st'.objects := by
  unfold State.claim at h
  dsimp only at h
  split_ifs at h with hspec
  cases h
  rw [not_not] at hspec
  -- a slot of the object the claim works on is a slot of the present object, or a fresh one
  have hentry : ∀ j old, slotAt st.objects key j = some old →
      (st.entry key spec).slots[j]? = some old := by
    intro j old hold
    obtain ⟨obj, hfind, hget⟩ := Option.bind_eq_some_iff.mp hold
    unfold State.entry
    rw [hfind]
    exact hget
  have hfresh : ∀ j s, (st.entry key spec).slots[j]? = some s → s.claimable = false →
      slotAt st.objects key j = some s := by
    intro j s hs hclaim
    unfold State.entry at hs
    cases hfind : st.objects.find? key with
    | some obj =>
      rw [hfind] at hs
      rw [slotAt_of_find? hfind]
      exact hs
    | none =>
      rw [hfind] at hs
      have hmem := List.mem_of_getElem? hs
      rw [List.eq_of_mem_replicate hmem] at hclaim
      cases hclaim
  constructor
  · intro old hold
    obtain ⟨obj, hfind, rfl⟩ := Option.map_eq_some_iff.mp hold
    rw [← hspec]
    unfold State.entry
    rw [hfind]
    rfl
  · rw [List.length_map, (st.entry key spec).slots_length, hspec]
  · rw [specAt_insert, if_pos rfl]
    exact congrArg some hspec
  · intro other hne
    rw [specAt_insert, if_neg hne]
  · intro other j hne
    rw [slotAt_insert, if_neg hne]
  · intro j slot hslot
    rw [slotAt_insert, if_pos rfl] at hslot
    change ((st.entry key spec).slots.map Slot.claim)[j]? = some slot at hslot
    rw [List.getElem?_map] at hslot ⊢
    obtain ⟨s, hs, rfl⟩ := Option.map_eq_some_iff.mp hslot
    rw [hs]
    rcases s.claim_cases with ⟨hclaim, hsame⟩ | ⟨hclaim, hnew, hidle⟩
    · rw [hsame]
      exact .inl ⟨congrArg some hclaim, hfresh j s hs hclaim⟩
    · refine .inr ⟨congrArg some hclaim, hnew, fun old hold ↦ ?_⟩
      have hsame := hentry j old hold
      rw [hs] at hsame
      cases hsame
      exact hidle

/-- A slot that is there before a claim is there after it. -/
theorem Claimed.slotAt_of_before {before after : Objects} {key : Key} {spec : ObjectSpec}
    {writable : List Bool} (h : Claimed before key spec writable after) {j : ℕ} {old : Slot}
    (hold : slotAt before key j = some old) :
    (writable[j]? = some false ∧ slotAt after key j = some old) ∨
      (writable[j]? = some true ∧ slotAt after key j = some ⟨[], true⟩ ∧ old = ⟨[], false⟩) := by
  obtain ⟨found, s, hspec, hs⟩ := exists_slotSpec hold
  rw [h.present found hspec] at hs
  obtain ⟨slot, hslot⟩ := exists_slotAt h.specAt_key (List.getElem?_eq_some_iff.mp hs).1
  rcases h.slotAt_key j slot hslot with ⟨hnot, hsame⟩ | ⟨hclaim, rfl, hempty⟩
  · rw [hold] at hsame
    cases hsame
    exact .inl ⟨hnot, hslot⟩
  · exact .inr ⟨hclaim, hslot, hempty old hold⟩

/-- A slot with a buffer is not one that was claimed just now. -/
theorem Claimed.slotAt_of_mem {before after : Objects} {key other : Key} {spec : ObjectSpec}
    {writable : List Bool} (h : Claimed before key spec writable after) {j : ℕ} {slot : Slot}
    {buf : PinnedBuf} (hslot : slotAt after other j = some slot)
    (hbuf : buf ∈ bufsOf slot.replicas) :
    slotAt before other j = some slot := by
  by_cases heq : key = other
  · subst heq
    rcases h.slotAt_key j slot hslot with ⟨_, hsame⟩ | ⟨_, rfl, _⟩
    · exact hsame
    · exact absurd hbuf List.not_mem_nil
  · rw [← h.slotAt_ne other j heq]
    exact hslot

/-- A claim does not touch any buffer. -/
theorem Claimed.mem_bufsIn {before after : Objects} {key : Key} {spec : ObjectSpec}
    {writable : List Bool} (h : Claimed before key spec writable after) (buf : PinnedBuf) :
    buf ∈ bufsIn after ↔ buf ∈ bufsIn before := by
  constructor
  · intro hbuf
    obtain ⟨other, j, slot, hslot, hmem⟩ := Local.mem_bufsIn.mp hbuf
    exact Local.mem_bufsIn.mpr ⟨other, j, slot, h.slotAt_of_mem hslot hmem, hmem⟩
  · intro hbuf
    obtain ⟨other, j, slot, hslot, hmem⟩ := Local.mem_bufsIn.mp hbuf
    by_cases heq : key = other
    · subst heq
      rcases h.slotAt_of_before hslot with ⟨_, hsame⟩ | ⟨_, _, rfl⟩
      · exact Local.mem_bufsIn.mpr ⟨key, j, slot, hsame, hmem⟩
      · exact absurd hmem List.not_mem_nil
    · refine Local.mem_bufsIn.mpr ⟨other, j, slot, ?_, hmem⟩
      rw [h.slotAt_ne other j heq]
      exact hslot

/-- One slot was rewritten, and nothing else changed. -/
structure Rewritten (before : Objects) (key : Key) (i : ℕ) (f : Slot → Slot) (after : Objects) :
    Prop where
  specAt_eq : ∀ other, specAt after other = specAt before other
  slotAt_self : slotAt after key i = (slotAt before key i).map f
  slotAt_ne : ∀ other j, ¬ (other = key ∧ j = i) → slotAt after other j = slotAt before other j

theorem rewritten_setSlot {objects : Objects} {key : Key} {obj : Object}
    (hfind : objects.find? key = some obj) {i : ℕ} {old : Slot} (hold : obj.slots[i]? = some old)
    (f : Slot → Slot) :
    Rewritten objects key i f (objects.insert key (obj.setSlot i (f old))) where
  specAt_eq := specAt_setSlot hfind i (f old)
  slotAt_self := by
    rw [slotAt_setSlot hfind hold, if_pos ⟨rfl, rfl⟩, slotAt_of_find? hfind, hold]
    rfl
  slotAt_ne := by
    intro other j hne
    rw [slotAt_setSlot hfind hold, if_neg hne]

/-- The buffers after a slot was rewritten so that it holds `extra` more. -/
theorem Rewritten.mem_bufsIn {before after : Objects} {key : Key} {i : ℕ} {f : Slot → Slot}
    (h : Rewritten before key i f after) (extra : List PinnedBuf)
    (hf : ∀ s, bufsOf (f s).replicas = bufsOf s.replicas ++ extra)
    (hslot : extra = [] ∨ ∃ slot, slotAt before key i = some slot) (buf : PinnedBuf) :
    buf ∈ bufsIn after ↔ buf ∈ bufsIn before ∨ buf ∈ extra := by
  constructor
  · intro hbuf
    obtain ⟨other, j, slot, hafter, hmem⟩ := Local.mem_bufsIn.mp hbuf
    by_cases heq : other = key ∧ j = i
    · rw [heq.1, heq.2, h.slotAt_self] at hafter
      obtain ⟨old, hold, rfl⟩ := Option.map_eq_some_iff.mp hafter
      rw [hf, List.mem_append] at hmem
      exact hmem.imp_left fun hin ↦ Local.mem_bufsIn.mpr ⟨key, i, old, hold, hin⟩
    · rw [h.slotAt_ne other j heq] at hafter
      exact .inl (Local.mem_bufsIn.mpr ⟨other, j, slot, hafter, hmem⟩)
  · intro hbuf
    rcases hbuf with hbuf | hextra
    · obtain ⟨other, j, slot, hbefore, hmem⟩ := Local.mem_bufsIn.mp hbuf
      by_cases heq : other = key ∧ j = i
      · rw [heq.1, heq.2] at hbefore
        refine Local.mem_bufsIn.mpr ⟨key, i, f slot, by rw [h.slotAt_self, hbefore]; rfl, ?_⟩
        rw [hf]
        exact List.mem_append_left _ hmem
      · refine Local.mem_bufsIn.mpr ⟨other, j, slot, ?_, hmem⟩
        rw [h.slotAt_ne other j heq]
        exact hbefore
    · rcases hslot with hnil | ⟨slot, hslot⟩
      · rw [hnil] at hextra
        exact absurd hextra List.not_mem_nil
      · refine Local.mem_bufsIn.mpr ⟨key, i, f slot, by rw [h.slotAt_self, hslot]; rfl, ?_⟩
        rw [hf]
        exact List.mem_append_right _ hextra

theorem enqueue_objects {st st' : State} {kb : Key} {i : ℕ} {device : Device}
    (h : st.enqueue kb i device = .ok st') : st'.objects = st.objects := by
  unfold State.enqueue at h
  obtain ⟨queue, _, h⟩ := bind_eq_ok.mp h
  cases h
  rfl

theorem enqueueAll_objects {kb : Key} {i : ℕ} (placed : List Placed) : ∀ {st st' : State},
    placed.foldlM (fun st p ↦ st.enqueue kb i (.cpu p.numa)) st = .ok st' →
      st'.objects = st.objects := by
  induction placed with
  | nil =>
    intro st st' h
    cases h
    rfl
  | cons p placed ih =>
    intro st st' h
    rw [List.foldlM_cons] at h
    obtain ⟨middle, hmiddle, h⟩ := bind_eq_ok.mp h
    rw [ih h, enqueue_objects hmiddle]

/-- The slot a store leaves. -/
def Slot.stored (placed : List Placed) (s : Slot) : Slot :=
  ⟨s.replicas ++ pinnedReplicas placed, false⟩

/-- A store that succeeds found its object and added to its slot. -/
theorem store_rewritten {st st' : State} {kb : Key} {i : ℕ} {placed : List Placed}
    (h : st.store kb i placed = .ok (.ok st')) :
    Rewritten st.objects kb i (Slot.stored placed) st'.objects ∧
      ∃ slot, slotAt st.objects kb i = some slot := by
  unfold State.store at h
  cases hfind : st.objects.find? kb with
  | none =>
    rw [hfind] at h
    cases h
  | some obj =>
    rw [hfind] at h
    obtain ⟨slot, hslot, h⟩ := bind_eq_ok.mp h
    obtain ⟨queued, hqueued, h⟩ := bind_eq_ok.mp h
    cases h
    have hget := index_eq_ok.mp hslot
    rw [enqueueAll_objects placed hqueued]
    exact ⟨rewritten_setSlot hfind hget (Slot.stored placed), slot,
      by rw [slotAt_of_find? hfind, hget]⟩

/-- The slot a failure section leaves. -/
def Slot.unclaimed (s : Slot) : Slot := { s with writing := false }

theorem unclaim_rewritten {st st' : State} {kb : Key} {i : ℕ} (h : st.unclaim kb i = .ok st') :
    Rewritten st.objects kb i Slot.unclaimed st'.objects := by
  unfold State.unclaim at h
  cases hfind : st.objects.find? kb with
  | none =>
    rw [hfind] at h
    cases h
    refine ⟨fun _ ↦ rfl, ?_, fun _ _ _ ↦ rfl⟩
    rw [slotAt_of_absent hfind]
    rfl
  | some obj =>
    rw [hfind] at h
    obtain ⟨slot, hslot, h⟩ := bind_eq_ok.mp h
    cases h
    exact rewritten_setSlot hfind (index_eq_ok.mp hslot) Slot.unclaimed

/-- `get` selects a replica of the slot it asks for. -/
theorem select_mem {inner : Inner} {st : State} {key : Key} {idx : ℕ} {dstDevice : Device}
    {replica : ReplicaEntry} {slotLen : ℕ}
    (h : st.select inner key idx dstDevice = .ok (.ok (replica, slotLen))) :
    ∃ slot, slotAt st.objects key idx = some slot ∧ replica ∈ slot.replicas := by
  unfold State.select at h
  cases hfind : st.objects.find? key with
  | none =>
    rw [hfind] at h
    cases h
  | some obj =>
    rw [hfind] at h
    dsimp only at h
    cases hspec : obj.spec.slots[idx]? with
    | none =>
      rw [hspec] at h
      cases h
    | some spec =>
      rw [hspec] at h
      obtain ⟨slot, hslot, h⟩ := bind_eq_ok.mp h
      cases hnear : nearest inner dstDevice slot.replicas with
      | none =>
        rw [hnear] at h
        cases h
      | some found =>
        rw [hnear] at h
        cases h
        exact ⟨slot, by rw [slotAt_of_find? hfind, index_eq_ok.mp hslot], List.argmin_mem hnear⟩

end Pegastore.Local
