import Pegastore.Memory.View

/-!
# What making room does

`make_room` pops queue entries of one device until the request fits. Its effect on the index
depends only on the entries it popped: `Evicts device popped before after` says that exactly the
slots they name lose what the store owned on `device`, that specs survive, and that only `Cache`
objects left without a replica disappear. The relation composes along the queue (`Evicts.trans`),
so the loop is a fold of one-entry steps (`holds_evictEntry`, `holds_makeRoomLoop`).

`holds_makeRoom` is the specification used everywhere: with pool counters that match the index, the
call keeps them so, pops a beginning of the queue without losing an entry of the protected key, and
either fits or has nothing left to evict. Its two panics are named: a queue entry that points past
the slots of a present `Cache` object, and a 64-bit overflow of the byte counter.
-/

set_option autoImplicit false
set_option relaxedAutoImplicit false

namespace Pegastore.Memory

open Outcome ByteMemory

/-- The object under the key is a `Cache` object. -/
def CacheAt (objects : Objects) (key : Key) : Prop :=
  ∃ spec, specAt objects key = some spec ∧ spec.retention = .cache

/-- Some queue entry names slot `i` of `key`. -/
def Names (entries : List FifoEntry) (key : Key) (i : ℕ) : Prop :=
  ∃ entry ∈ entries, entry.1 = key ∧ entry.2.toNat = i

/-- The queue entry points past the slots of a present `Cache` object. -/
def Dangling (objects : Objects) (entry : FifoEntry) : Prop :=
  ∃ spec, specAt objects entry.1 = some spec ∧ spec.retention = .cache ∧
    spec.slots.length ≤ entry.2.toNat

/-- The replicas without those the store owns on `device`. -/
def dropOwned (device : Device) (replicas : List ReplicaEntry) : List ReplicaEntry :=
  replicas.filter fun r ↦ !r.ownedOn device

@[simp] theorem dropOwned_nil (device : Device) : dropOwned device [] = [] := rfl

theorem dropOwned_dropOwned (device : Device) (replicas : List ReplicaEntry) :
    dropOwned device (dropOwned device replicas) = dropOwned device replicas := by
  simp [dropOwned]

/-- A key that had replicas and has none left is gone from the index. -/
def Reclaimed (before after : Objects) (key : Key) : Prop :=
  (∃ i, replicasAt before key i ≠ []) → (∀ i, replicasAt after key i = []) →
    specAt after key = none

theorem Reclaimed.of_replicas_eq {before after : Objects} {key : Key}
    (h : ∀ i, replicasAt after key i = replicasAt before key i) : Reclaimed before after key := by
  rintro ⟨i, hheld⟩ hempty
  exact absurd ((h i).symm.trans (hempty i)) hheld

theorem Reclaimed.trans {before middle after : Objects} {key : Key}
    (hfirst : Reclaimed before middle key) (hsecond : Reclaimed middle after key)
    (hspec : ∀ spec, specAt after key = some spec → specAt middle key = some spec) :
    Reclaimed before after key := by
  intro hheld hempty
  by_cases hmiddle : ∀ i, replicasAt middle key i = []
  · rw [Option.eq_none_iff_forall_not_mem]
    intro spec hafter
    have hnone := hfirst hheld hmiddle
    rw [hspec spec hafter] at hnone
    cases hnone
  · exact hsecond (not_forall.mp hmiddle) hempty

/-- The effect on the index of popping `popped` from the queue of `device`. -/
structure Evicts (device : Device) (popped : List FifoEntry) (before after : Objects) : Prop where
  spec_of_after : ∀ key spec, specAt after key = some spec → specAt before key = some spec
  spec_of_before : ∀ key spec, specAt before key = some spec → specAt after key = some spec ∨
    (specAt after key = none ∧ spec.retention = .cache ∧ ∃ entry ∈ popped, entry.1 = key)
  replicas : ∀ key i, (CacheAt before key ∧ Names popped key i →
      replicasAt after key i = dropOwned device (replicasAt before key i)) ∧
    (¬ (CacheAt before key ∧ Names popped key i) →
      replicasAt after key i = replicasAt before key i)
  reclaimed : ∀ key, Reclaimed before after key

theorem specAt_none_replicasAt {objects : Objects} {key : Key} (h : specAt objects key = none)
    (i : ℕ) : replicasAt objects key i = [] := by
  apply replicasAt_of_find?_none
  simpa [specAt] using h

theorem Names.append_iff {first second : List FifoEntry} {key : Key} {i : ℕ} :
    Names (first ++ second) key i ↔ Names first key i ∨ Names second key i := by
  unfold Names
  constructor
  · rintro ⟨entry, hentry, hnames⟩
    rcases List.mem_append.mp hentry with h | h
    · exact Or.inl ⟨entry, h, hnames⟩
    · exact Or.inr ⟨entry, h, hnames⟩
  · rintro (⟨entry, hentry, hnames⟩ | ⟨entry, hentry, hnames⟩)
    · exact ⟨entry, List.mem_append_left _ hentry, hnames⟩
    · exact ⟨entry, List.mem_append_right _ hentry, hnames⟩

namespace Evicts

variable {device : Device} {popped : List FifoEntry} {before middle after : Objects}

theorem refl (device : Device) (objects : Objects) : Evicts device [] objects objects where
  spec_of_after := fun _ _ h ↦ h
  spec_of_before := fun _ _ h ↦ Or.inl h
  replicas := by
    intro key i
    refine ⟨?_, fun _ ↦ rfl⟩
    rintro ⟨_, entry, hentry, _⟩
    simp at hentry
  reclaimed := fun _ ↦ Reclaimed.of_replicas_eq fun _ ↦ rfl

theorem cacheAt_of_after (h : Evicts device popped before after) {key : Key}
    (hcache : CacheAt after key) : CacheAt before key := by
  obtain ⟨spec, hspec, hret⟩ := hcache
  exact ⟨spec, h.spec_of_after key spec hspec, hret⟩

/-- A `Cache` object stays unless it is reclaimed, and then its slots are all empty. -/
theorem cacheAt_or_empty (h : Evicts device popped before after) {key : Key}
    (hcache : CacheAt before key) : CacheAt after key ∨ ∀ i, replicasAt after key i = [] := by
  obtain ⟨spec, hspec, hret⟩ := hcache
  rcases h.spec_of_before key spec hspec with hafter | ⟨hnone, _⟩
  · exact Or.inl ⟨spec, hafter, hret⟩
  · exact Or.inr (specAt_none_replicasAt hnone)

/-- A key that no popped entry names, or that is not a `Cache` object, keeps its spec. -/
theorem spec_kept (h : Evicts device popped before after) {key : Key} {spec : ObjectSpec}
    (hspec : specAt before key = some spec)
    (hkey : spec.retention ≠ .cache ∨ ∀ entry ∈ popped, entry.1 ≠ key) :
    specAt after key = some spec := by
  rcases h.spec_of_before key spec hspec with hafter | ⟨_, hret, entry, hentry, heq⟩
  · exact hafter
  · rcases hkey with hne | hne
    · exact absurd hret hne
    · exact absurd heq (hne entry hentry)

/-- A key that no popped entry names, or that is not a `Cache` object, keeps its replicas. -/
theorem replicas_kept (h : Evicts device popped before after) {key : Key}
    (hkey : ¬ CacheAt before key ∨ ∀ entry ∈ popped, entry.1 ≠ key) (i : ℕ) :
    replicasAt after key i = replicasAt before key i := by
  apply (h.replicas key i).2
  rintro ⟨hcache, entry, hentry, heq, _⟩
  rcases hkey with hne | hne
  · exact hne hcache
  · exact hne entry hentry heq

/-- Eviction only removes replicas. -/
theorem replicas_sublist (h : Evicts device popped before after) (key : Key) (i : ℕ) :
    (replicasAt after key i).Sublist (replicasAt before key i) := by
  by_cases hnamed : CacheAt before key ∧ Names popped key i
  · rw [(h.replicas key i).1 hnamed]
    exact List.filter_sublist
  · rw [(h.replicas key i).2 hnamed]

theorem trans {more : List FifoEntry} (hfirst : Evicts device popped before middle)
    (hsecond : Evicts device more middle after) : Evicts device (popped ++ more) before after where
  spec_of_after := fun key spec h ↦
    hfirst.spec_of_after key spec (hsecond.spec_of_after key spec h)
  spec_of_before := by
    intro key spec h
    rcases hfirst.spec_of_before key spec h with hmiddle | ⟨hnone, hret, entry, hentry, heq⟩
    · rcases hsecond.spec_of_before key spec hmiddle with hafter | ⟨hnone, hret, entry, hentry, heq⟩
      · exact Or.inl hafter
      · exact Or.inr ⟨hnone, hret, entry, List.mem_append_right _ hentry, heq⟩
    · refine Or.inr ⟨?_, hret, entry, List.mem_append_left _ hentry, heq⟩
      rw [Option.eq_none_iff_forall_not_mem]
      intro found hfound
      rw [hsecond.spec_of_after key found hfound] at hnone
      cases hnone
  replicas := by
    intro key i
    have hstep : CacheAt before key → Names more key i →
        replicasAt after key i = dropOwned device (replicasAt middle key i) := by
      intro hcache hnames
      rcases hfirst.cacheAt_or_empty hcache with hmiddle | hempty
      · exact (hsecond.replicas key i).1 ⟨hmiddle, hnames⟩
      · have hafter := hsecond.replicas_sublist key i
        rw [hempty i] at hafter ⊢
        exact List.sublist_nil.mp hafter
    constructor
    · rintro ⟨hcache, hnames⟩
      by_cases hmore : Names more key i
      · rw [hstep hcache hmore]
        by_cases hpopped : Names popped key i
        · rw [(hfirst.replicas key i).1 ⟨hcache, hpopped⟩, dropOwned_dropOwned]
        · rw [(hfirst.replicas key i).2 fun h ↦ hpopped h.2]
      · have hpopped : Names popped key i := (Names.append_iff.mp hnames).resolve_right hmore
        rw [(hsecond.replicas key i).2 fun h ↦ hmore h.2]
        exact (hfirst.replicas key i).1 ⟨hcache, hpopped⟩
    · intro hnot
      have hpopped : ¬ (CacheAt before key ∧ Names popped key i) := fun h ↦
        hnot ⟨h.1, Names.append_iff.mpr (Or.inl h.2)⟩
      have hmore : ¬ (CacheAt middle key ∧ Names more key i) := fun h ↦
        hnot ⟨hfirst.cacheAt_of_after h.1, Names.append_iff.mpr (Or.inr h.2)⟩
      rw [(hsecond.replicas key i).2 hmore, (hfirst.replicas key i).2 hpopped]
  reclaimed := fun key ↦
    (hfirst.reclaimed key).trans (hsecond.reclaimed key) (hsecond.spec_of_after key)

end Evicts

/-! ### One entry -/

theorem evicts_skip {device : Device} {entry : FifoEntry} {objects : Objects}
    (h : ¬ CacheAt objects entry.1) : Evicts device [entry] objects objects where
  spec_of_after := fun _ _ h ↦ h
  spec_of_before := fun _ _ h ↦ Or.inl h
  replicas := by
    intro key i
    refine ⟨?_, fun _ ↦ rfl⟩
    rintro ⟨hcache, named, hnamed, heq, _⟩
    rw [List.mem_singleton] at hnamed
    subst hnamed heq
    exact absurd hcache h
  reclaimed := fun _ ↦ Reclaimed.of_replicas_eq fun _ ↦ rfl

theorem replicasOf_dropOwned {device : Device} {obj : Object} {i : ℕ} {slot : Slot}
    (hslot : obj.slots[i]? = some slot) (j : ℕ) :
    (obj.setSlot i (slot.dropOwned device)).replicasOf j =
      if j = i then dropOwned device (obj.replicasOf i) else obj.replicasOf j := by
  have hlt : i < obj.slots.length := (List.getElem?_eq_some_iff.mp hslot).1
  rw [Object.replicasOf_setSlot obj _ j hlt, Object.replicasOf_of_getElem? hslot]
  rfl

/-- Dropping what a slot owns on `device`, and reclaiming the object if that leaves it empty. -/
theorem evicts_slot (device : Device) {entry : FifoEntry} {objects after : Objects} {obj : Object}
    {slot : Slot} (hfind : objects.find? entry.1 = some obj) (hret : obj.spec.retention = .cache)
    (hslot : obj.slots[entry.2.toNat]? = some slot)
    (hafter : after = if (obj.setSlot entry.2.toNat (slot.dropOwned device)).isEmpty
      then objects.erase entry.1
      else objects.insert entry.1 (obj.setSlot entry.2.toNat (slot.dropOwned device))) :
    Evicts device [entry] objects after := by
  have hspecBefore : specAt objects entry.1 = some obj.spec := by
    simp [specAt, hfind]
  have hspecOther : ∀ key, key ≠ entry.1 → specAt after key = specAt objects key := by
    intro key hkey
    rw [hafter]
    split_ifs
    · rw [specAt_erase, if_neg hkey.symm]
    · rw [specAt_insert, if_neg hkey.symm]
  have hspecSelf : specAt after entry.1 = some obj.spec ∨ specAt after entry.1 = none := by
    rw [hafter]
    split_ifs
    · right
      rw [specAt_erase, if_pos rfl]
    · left
      rw [specAt_insert, if_pos rfl, Object.setSlot_spec]
  have hrepOther : ∀ key, key ≠ entry.1 →
      ∀ i, replicasAt after key i = replicasAt objects key i := by
    intro key hkey i
    rw [hafter]
    split_ifs
    · rw [replicasAt_erase, if_neg hkey.symm]
    · rw [replicasAt_insert, if_neg hkey.symm]
  have hrepSelf : ∀ i, replicasAt after entry.1 i =
      (obj.setSlot entry.2.toNat (slot.dropOwned device)).replicasOf i := by
    intro i
    rw [hafter]
    split_ifs with hempty
    · rw [replicasAt_erase, if_pos rfl, (Object.isEmpty_iff _).mp hempty i]
    · rw [replicasAt_insert, if_pos rfl]
  refine ⟨?_, ?_, ?_, ?_⟩
  · intro key spec h
    by_cases hkey : key = entry.1
    · subst hkey
      rcases hspecSelf with hself | hself
      · rw [hspecBefore, ← hself, h]
      · rw [hself] at h
        cases h
    · rw [← hspecOther key hkey, h]
  · intro key spec h
    by_cases hkey : key = entry.1
    · subst hkey
      rw [hspecBefore, Option.some.injEq] at h
      subst h
      rcases hspecSelf with hself | hself
      · exact Or.inl hself
      · exact Or.inr ⟨hself, hret, entry, List.mem_singleton_self entry, rfl⟩
    · exact Or.inl ((hspecOther key hkey).trans h)
  · intro key i
    by_cases hkey : key = entry.1
    · subst hkey
      rw [hrepSelf i, replicasOf_dropOwned hslot, replicasAt_of_find? hfind]
      constructor
      · rintro ⟨_, named, hnamed, _, hi⟩
        rw [List.mem_singleton] at hnamed
        subst hnamed
        rw [if_pos hi.symm, hi]
      · intro hnot
        rw [if_neg]
        intro hi
        exact hnot ⟨⟨obj.spec, hspecBefore, hret⟩, entry, List.mem_singleton_self entry, rfl,
          hi.symm⟩
    · refine ⟨?_, fun _ ↦ hrepOther key hkey i⟩
      rintro ⟨_, named, hnamed, heq, _⟩
      rw [List.mem_singleton] at hnamed
      subst hnamed
      exact absurd heq.symm hkey
  · intro key
    by_cases hkey : key = entry.1
    · subst hkey
      intro _ hnone
      have hempty : (obj.setSlot entry.2.toNat (slot.dropOwned device)).isEmpty = true :=
        (Object.isEmpty_iff _).mpr fun i ↦ (hrepSelf i).symm.trans (hnone i)
      rw [hafter, if_pos hempty, specAt_erase, if_pos rfl]
    · exact Reclaimed.of_replicas_eq (hrepOther key hkey)

/-- What one popped entry of another key does, with a counter that matches the index. -/
theorem holds_evictEntry {device : Device} (entry : FifoEntry) {objects : Objects} {used : ℕ}
    (hused : used = ownedOn device objects) (hlt : used < 2 ^ 64) :
    Holds (evictEntry device entry objects used)
      (fun r ↦ Evicts device [entry] objects r.1 ∧ r.2 = ownedOn device r.1 ∧ r.2 ≤ used ∧
        ∀ other, other ≠ device → ownedOn other r.1 = ownedOn other objects)
      (fun p ↦ p = .indexOutOfBounds ∧ Dangling objects entry) := by
  unfold evictEntry
  cases hfind : objects.find? entry.1 with
  | none =>
    have hcache : ¬ CacheAt objects entry.1 := by
      rintro ⟨spec, hspec, _⟩
      simp [specAt, hfind] at hspec
    exact ⟨evicts_skip hcache, hused, le_rfl, fun _ _ ↦ rfl⟩
  | some obj =>
    have hspec : specAt objects entry.1 = some obj.spec := by simp [specAt, hfind]
    by_cases hret : obj.spec.retention = .cache
    · simp only [ne_eq, hret, not_true_eq_false, if_false]
      cases hslot : obj.slots[entry.2.toNat]? with
      | none =>
        rw [index, hslot]
        refine ⟨rfl, obj.spec, hspec, hret, ?_⟩
        rw [← obj.slots_length]
        exact List.getElem?_eq_none_iff.mp hslot
      | some slot =>
        rw [index, hslot]
        -- The bytes of the slot are part of the counter, so neither the sum nor the subtraction
        -- leaves the range.
        have hobj : obj.ownedOn device ≤ ownedOn device objects := obj.ownedOn_le device hfind
        have hbytes : ownedBytes device slot.replicas ≤ obj.ownedOn device :=
          Object.ownedBytes_le_ownedOn device hslot
        have hsum : sumU64 (slot.ownedLens device) = .ok (ownedBytes device slot.replicas) := by
          apply sumU64_of_lt
          change ownedBytes device slot.replicas < 2 ^ 64
          omega
        have hsub : subU64 used (ownedBytes device slot.replicas) =
            .ok (used - ownedBytes device slot.replicas) :=
          subU64_eq_ok.mpr ⟨by omega, rfl⟩
        simp only [ok_bind, hsum, hsub]
        have hevicts := evicts_slot device hfind hret hslot rfl
        have hset (other : Device) := obj.ownedOn_setSlot other (slot.dropOwned device) hslot
        have hself : ownedBytes device (slot.dropOwned device).replicas = 0 :=
          ownedBytes_dropOwned_self device slot.replicas
        have hother (other : Device) (hne : other ≠ device) :
            ownedBytes other (slot.dropOwned device).replicas = ownedBytes other slot.replicas :=
          ownedBytes_dropOwned_of_ne hne slot.replicas
        by_cases hempty : (obj.setSlot entry.2.toNat (slot.dropOwned device)).isEmpty = true
        · rw [if_pos hempty] at hevicts ⊢
          have herase (other : Device) := ownedOn_erase_of_find? other hfind
          have hzero (other : Device) := Object.ownedOn_of_isEmpty other hempty
          refine ⟨hevicts, ?_, Nat.sub_le _ _, fun other hne ↦ ?_⟩
          · have h1 := herase device
            have h2 := hset device
            have h3 := hzero device
            simp only
            omega
          · have h1 := herase other
            have h2 := hset other
            have h3 := hzero other
            have h4 := hother other hne
            simp only
            omega
        · rw [if_neg hempty] at hevicts ⊢
          have hinsert (other : Device) := ownedOn_insert_of_find? other
            (obj.setSlot entry.2.toNat (slot.dropOwned device)) hfind
          refine ⟨hevicts, ?_, Nat.sub_le _ _, fun other hne ↦ ?_⟩
          · have h1 := hinsert device
            have h2 := hset device
            simp only
            omega
          · have h1 := hinsert other
            have h2 := hset other
            have h4 := hother other hne
            simp only
            omega
    · simp only [ne_eq, hret, not_false_eq_true, if_true]
      have hcache : ¬ CacheAt objects entry.1 := by
        rintro ⟨spec, hother, hcache⟩
        rw [hspec, Option.some.injEq] at hother
        exact hret (hother ▸ hcache)
      exact ⟨evicts_skip hcache, hused, le_rfl, fun _ _ ↦ rfl⟩

/-! ### The loop -/

/-- What the eviction loop leaves behind, from a counter that matches the index. -/
structure RoomMade (device : Device) (need cap : ℕ) (protect : Key) (fifo : List FifoEntry)
    (objects : Objects) (used : ℕ) (deferred : List FifoEntry) (popped : List FifoEntry)
    (room : Room) : Prop where
  queue : fifo = popped ++ room.fifo
  deferred_eq : room.deferred = deferred ++ popped.filter fun e ↦ e.1 = protect
  evicts : Evicts device (popped.filter fun e ↦ e.1 ≠ protect) objects room.objects
  used_eq : room.used = ownedOn device room.objects
  used_le : room.used ≤ used
  others : ∀ other, other ≠ device → ownedOn other room.objects = ownedOn other objects
  sum_lt : room.used + need < 2 ^ 64
  done : room.used + need ≤ cap ∨ room.fifo = []

theorem Dangling.of_evicts {device : Device} {popped : List FifoEntry} {before after : Objects}
    (h : Evicts device popped before after) {entry : FifoEntry} (hdangling : Dangling after entry) :
    Dangling before entry := by
  obtain ⟨spec, hspec, hret, hlen⟩ := hdangling
  exact ⟨spec, h.spec_of_after _ _ hspec, hret, hlen⟩

theorem holds_makeRoomLoop (device : Device) (need cap : ℕ) (protect : Key)
    (fifo : List FifoEntry) : ∀ (objects : Objects) (used : ℕ) (deferred : List FifoEntry),
    used = ownedOn device objects →
    Holds (makeRoomLoop device need cap protect fifo objects used deferred)
      (fun room ↦ ∃ popped, RoomMade device need cap protect fifo objects used deferred popped room)
      (fun p ↦
        (p = .indexOutOfBounds ∧ ∃ entry ∈ fifo, entry.1 ≠ protect ∧ Dangling objects entry) ∨
        (p = .addOverflow ∧ 2 ^ 64 ≤ used + need)) := by
  induction fifo with
  | nil =>
    intro objects used deferred hused
    unfold makeRoomLoop
    by_cases hadd : used + need < 2 ^ 64
    · rw [addU64, if_pos hadd]
      exact ⟨[], rfl, by simp, Evicts.refl device objects, hused, le_rfl, fun _ _ ↦ rfl, hadd,
        Or.inr rfl⟩
    · rw [addU64, if_neg hadd]
      exact Or.inr ⟨rfl, not_lt.mp hadd⟩
  | cons entry rest ih =>
    intro objects used deferred hused
    unfold makeRoomLoop
    by_cases hadd : used + need < 2 ^ 64
    · rw [addU64, if_pos hadd, ok_bind]
      by_cases hcap : used + need ≤ cap
      · rw [if_pos hcap]
        exact ⟨[], rfl, by simp, Evicts.refl device objects, hused, le_rfl, fun _ _ ↦ rfl, hadd,
          Or.inl hcap⟩
      · rw [if_neg hcap]
        by_cases hprotect : entry.1 = protect
        · rw [if_pos hprotect]
          refine (ih objects used (deferred ++ [entry]) hused).mono ?_ ?_
          · rintro room ⟨popped, hroom⟩
            refine ⟨entry :: popped, ⟨?_, ?_, ?_, hroom.used_eq, hroom.used_le, hroom.others,
              hroom.sum_lt, hroom.done⟩⟩
            · rw [List.cons_append, ← hroom.queue]
            · rw [hroom.deferred_eq, List.filter_cons_of_pos (by simpa using hprotect)]
              simp
            · rw [List.filter_cons_of_neg (by simpa using hprotect)]
              exact hroom.evicts
          · rintro p (⟨hp, other, hother, hdangling⟩ | hover)
            · exact Or.inl ⟨hp, other, List.mem_cons_of_mem _ hother, hdangling⟩
            · exact Or.inr hover
        · rw [if_neg hprotect]
          have hentry := holds_evictEntry entry hused (by omega)
          refine (hentry.mono (fun _ h ↦ h) ?_).bind ?_
          · rintro p ⟨hp, hdangling⟩
            exact Or.inl ⟨hp, entry, List.mem_cons_self, hprotect, hdangling⟩
          · rintro ⟨objects', used'⟩ _ ⟨hevicts, hused', hle, hothers⟩
            refine (ih objects' used' deferred hused').mono ?_ ?_
            · rintro room ⟨popped, hroom⟩
              refine ⟨entry :: popped, ⟨?_, ?_, ?_, hroom.used_eq, hroom.used_le.trans hle, ?_,
                hroom.sum_lt, hroom.done⟩⟩
              · rw [List.cons_append, ← hroom.queue]
              · rw [hroom.deferred_eq, List.filter_cons_of_neg (by simpa using hprotect)]
              · rw [List.filter_cons_of_pos (by simpa using hprotect)]
                exact hevicts.trans hroom.evicts
              · intro other hne
                exact (hroom.others other hne).trans (hothers other hne)
            · rintro p (⟨hp, other, hother, hne, hdangling⟩ | ⟨hp, hover⟩)
              · exact Or.inl ⟨hp, other, List.mem_cons_of_mem _ hother, hne,
                  hdangling.of_evicts hevicts⟩
              · exact Or.inr ⟨hp, by simp only at hle; omega⟩
    · rw [addU64, if_neg hadd]
      exact Or.inr ⟨rfl, not_lt.mp hadd⟩

/-! ### The call -/

/-- Every pool counter is the number of bytes the store owns on its device. -/
def Accounted (st : State) : Prop :=
  ∀ device pool, st.pools device = some pool → pool.used = ownedOn device st.objects

/-- What a call of `make_room` on `device` does: it pops `popped` from the queue and puts back the
entries of the protected key. -/
structure MadeRoom (device : Device) (need : ℕ) (protect : Key) (before : State) (pool : Pool)
    (fit : Bool) (after : State) (pool' : Pool) (popped rest : List FifoEntry) : Prop where
  pool_before : before.pools device = some pool
  pools_after : after.pools = Function.update before.pools device (some pool')
  capacity : pool'.capacity = pool.capacity
  queue : pool.fifo = popped ++ rest
  queue_after : pool'.fifo = (popped.filter fun e ↦ e.1 = protect) ++ rest
  evicts : Evicts device (popped.filter fun e ↦ e.1 ≠ protect) before.objects after.objects
  used_eq : pool'.used = ownedOn device after.objects
  used_le : pool'.used ≤ pool.used
  others : ∀ other, other ≠ device → ownedOn other after.objects = ownedOn other before.objects
  fits : fit = true → ∀ cap, pool.capacity = some cap → pool'.used + need ≤ cap
  full : fit = false → ∃ cap, pool.capacity = some cap ∧ cap < pool'.used + need ∧
    (cap < need ∨ rest = [])

theorem MadeRoom.accounted {device : Device} {need : ℕ} {protect : Key} {before : State}
    {pool : Pool} {fit : Bool} {after : State} {pool' : Pool} {popped rest : List FifoEntry}
    (h : MadeRoom device need protect before pool fit after pool' popped rest)
    (hacc : Accounted before) : Accounted after := by
  intro other found hfound
  rw [h.pools_after] at hfound
  by_cases hother : other = device
  · subst hother
    rw [Function.update_self, Option.some.injEq] at hfound
    exact hfound ▸ h.used_eq
  · rw [Function.update_of_ne hother] at hfound
    rw [h.others other hother]
    exact hacc other found hfound

/-- A call that decides without touching the queue. -/
theorem MadeRoom.unchanged {device : Device} {need : ℕ} {protect : Key} {st : State} {pool : Pool}
    {fit : Bool} (hpool : st.pools device = some pool)
    (hused : pool.used = ownedOn device st.objects) (hfits : fit = true → pool.capacity = none)
    (hfull : fit = false → ∃ cap, pool.capacity = some cap ∧ cap < need) :
    MadeRoom device need protect st pool fit st pool [] pool.fifo where
  pool_before := hpool
  pools_after := by rw [← hpool, Function.update_eq_self]
  capacity := rfl
  queue := rfl
  queue_after := rfl
  evicts := Evicts.refl device st.objects
  used_eq := hused
  used_le := le_rfl
  others := fun _ _ ↦ rfl
  fits := by
    intro hfit cap hcap
    rw [hfits hfit] at hcap
    cases hcap
  full := by
    intro hfit
    obtain ⟨cap, hcap, hlt⟩ := hfull hfit
    exact ⟨cap, hcap, by omega, Or.inl hlt⟩

theorem holds_makeRoom {st : State} {device : Device} {pool : Pool} (need : ℕ) (protect : Key)
    (hacc : Accounted st) (hpool : st.pools device = some pool) :
    Holds (st.makeRoom device need protect)
      (fun r ↦ ∃ pool' popped rest,
        MadeRoom device need protect st pool r.1 r.2 pool' popped rest)
      (fun p ↦ (p = .indexOutOfBounds ∧
          ∃ entry ∈ pool.fifo, entry.1 ≠ protect ∧ Dangling st.objects entry) ∨
        (p = .addOverflow ∧ 2 ^ 64 ≤ pool.used + need)) := by
  have hused := hacc device pool hpool
  unfold State.makeRoom
  rw [hpool, unwrap, ok_bind]
  cases hcapacity : pool.capacity with
  | none =>
    exact ⟨pool, [], pool.fifo, MadeRoom.unchanged hpool hused (fun _ ↦ hcapacity) (by simp)⟩
  | some cap =>
    by_cases hneed : need > cap
    · simp only [hneed, if_true]
      exact ⟨pool, [], pool.fifo, MadeRoom.unchanged hpool hused (by simp)
        fun _ ↦ ⟨cap, hcapacity, hneed⟩⟩
    · simp only [hneed, if_false]
      refine (holds_makeRoomLoop device need cap protect pool.fifo st.objects pool.used []
        hused).bind ?_
      rintro room _ ⟨popped, hroom⟩
      rw [addU64, if_pos hroom.sum_lt, ok_bind]
      refine ⟨⟨some cap, room.used, room.deferred ++ room.fifo⟩, popped, room.fifo,
        ⟨hpool, rfl, hcapacity.symm, hroom.queue, ?_, hroom.evicts, hroom.used_eq, hroom.used_le,
        hroom.others, ?_, ?_⟩⟩
      · simp [hroom.deferred_eq]
      · intro hfit cap' hcap'
        rw [hcapacity, Option.some.injEq] at hcap'
        subst hcap'
        simpa using hfit
      · intro hfit
        have hlt : cap < room.used + need := by simpa using hfit
        refine ⟨cap, hcapacity, hlt, Or.inr ?_⟩
        rcases hroom.done with hdone | hdone
        · omega
        · exact hdone

end Pegastore.Memory
