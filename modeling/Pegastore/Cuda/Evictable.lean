import Pegastore.Cuda.Contiguous
import Pegastore.Cuda.Readers

/-!
# What a round of eviction takes

A queue entry is a key and a 32-bit slot index. A round pops entries until one of them evicts
something: `Evicts` says what the popped entries did to the index, `RoundDone` what the whole
section did. Everything but the owned replicas of `Cache` objects on the device stays as it is, and
the entries of the protected key keep their order (`Spared`).

An owned replica of a `Cache` object can be found by a round as long as an entry for its slot is
queued (`Covered`). Entries are popped only together with what they name, and a store queues what it
stores, so this holds in every state of every run, whatever the interleaving, when no put has more
slots than an entry can name (`run_covered`).
-/

set_option autoImplicit false
set_option relaxedAutoImplicit false

namespace Pegastore.Local

open Outcome Transition

/-- The replicas of slot `i` under a key. -/
def replicasAt (objects : Objects) (key : Key) (i : ℕ) : List ReplicaEntry :=
  ((slotAt objects key i).map Slot.replicas).getD []

/-- The object under the key is a `Cache` object. -/
def CacheAt (objects : Objects) (key : Key) : Prop :=
  ∃ spec, specAt objects key = some spec ∧ spec.retention = .cache

/-- Some queue entry names slot `i` of `key`. -/
def Names (entries : List FifoEntry) (key : Key) (i : ℕ) : Prop :=
  ∃ entry ∈ entries, entry.1 = key ∧ entry.2.toNat = i

/-- The replicas without those the store owns on `device`. -/
def dropPinned (device : Device) (replicas : List ReplicaEntry) : List ReplicaEntry :=
  replicas.filter fun r ↦ !r.pinnedOn device

section View

variable {objects : Objects} {key : Key} {i : ℕ} {device : Device}

theorem replicasAt_of_slotAt {slot : Slot} (h : slotAt objects key i = some slot) :
    replicasAt objects key i = slot.replicas := by
  rw [replicasAt, h]
  rfl

theorem replicasAt_of_slotAt_none (h : slotAt objects key i = none) :
    replicasAt objects key i = [] := by
  rw [replicasAt, h]
  rfl

theorem mem_replicasAt {r : ReplicaEntry} :
    r ∈ replicasAt objects key i ↔
      ∃ slot, slotAt objects key i = some slot ∧ r ∈ slot.replicas := by
  unfold replicasAt
  cases slotAt objects key i with
  | none => simp
  | some slot => simp

theorem slotAt_congr {after : Objects} (h : after.find? key = objects.find? key) (j : ℕ) :
    slotAt after key j = slotAt objects key j := by
  rw [slotAt, h, slotAt]

theorem replicasAt_congr {after : Objects} (h : after.find? key = objects.find? key) (j : ℕ) :
    replicasAt after key j = replicasAt objects key j := by
  rw [replicasAt, slotAt_congr h, replicasAt]

theorem cacheAt_congr {after : Objects} (h : after.find? key = objects.find? key) :
    CacheAt after key ↔ CacheAt objects key := by
  rw [CacheAt, specAt, h]
  rfl

theorem dropPinned_dropPinned (replicas : List ReplicaEntry) :
    dropPinned device (dropPinned device replicas) = dropPinned device replicas := by
  simp [dropPinned]

theorem not_pinned_of_mem_dropPinned {r : ReplicaEntry} {replicas : List ReplicaEntry}
    (h : r ∈ dropPinned device replicas) : r.pinnedOn device = false := by
  have hkept := (List.mem_filter.mp h).2
  rwa [Bool.not_eq_true'] at hkept

end View

/-! ### Popped entries -/

/-- The effect on the index of popping `popped` from the queue of `device`. -/
structure Evicts (device : Device) (popped : List FifoEntry) (before after : Objects) : Prop where
  kept : ∀ key, ¬ CacheAt before key ∨ (∀ entry ∈ popped, entry.1 ≠ key) →
    after.find? key = before.find? key
  spec_of_after : ∀ key spec, specAt after key = some spec → specAt before key = some spec
  named : ∀ key i, CacheAt before key → Names popped key i →
    replicasAt after key i = dropPinned device (replicasAt before key i)
  unnamed : ∀ key i, ¬ Names popped key i → replicasAt after key i = replicasAt before key i

namespace Evicts

variable {device : Device} {popped : List FifoEntry} {before middle after : Objects}

theorem refl (device : Device) (objects : Objects) : Evicts device [] objects objects where
  kept := fun _ _ ↦ rfl
  spec_of_after := fun _ _ h ↦ h
  named := fun _ _ _ ⟨_, hentry, _⟩ ↦ absurd hentry List.not_mem_nil
  unnamed := fun _ _ _ ↦ rfl

theorem cacheAt_of_after (h : Evicts device popped before after) {key : Key}
    (hcache : CacheAt after key) : CacheAt before key := by
  obtain ⟨spec, hspec, hret⟩ := hcache
  exact ⟨spec, h.spec_of_after key spec hspec, hret⟩

/-- The replicas of a slot are all there, or those on the device are gone. -/
theorem replicas_cases (h : Evicts device popped before after) (key : Key) (i : ℕ) :
    replicasAt after key i = replicasAt before key i ∨
      replicasAt after key i = dropPinned device (replicasAt before key i) := by
  by_cases hcache : CacheAt before key
  · by_cases hnames : Names popped key i
    · exact Or.inr (h.named key i hcache hnames)
    · exact Or.inl (h.unnamed key i hnames)
  · exact Or.inl (replicasAt_congr (h.kept key (Or.inl hcache)) i)

/-- What is not owned on the device stays. -/
theorem dropPinned_eq (h : Evicts device popped before after) (key : Key) (i : ℕ) :
    dropPinned device (replicasAt after key i) = dropPinned device (replicasAt before key i) := by
  rcases h.replicas_cases key i with heq | heq
  · rw [heq]
  · rw [heq, dropPinned_dropPinned]

theorem mem_before (h : Evicts device popped before after) {key : Key} {i : ℕ} {r : ReplicaEntry}
    (hr : r ∈ replicasAt after key i) : r ∈ replicasAt before key i := by
  rcases h.replicas_cases key i with heq | heq
  · exact heq ▸ hr
  · rw [heq] at hr
    exact List.mem_of_mem_filter hr

theorem trans {more : List FifoEntry} (hfirst : Evicts device popped before middle)
    (hsecond : Evicts device more middle after) : Evicts device (popped ++ more) before after where
  kept := by
    intro key hkey
    have hmiddle : middle.find? key = before.find? key := by
      refine hfirst.kept key (hkey.imp_right fun hout entry hentry ↦ ?_)
      exact hout entry (List.mem_append_left _ hentry)
    refine (hsecond.kept key ?_).trans hmiddle
    refine hkey.imp (fun hcache h ↦ hcache ((cacheAt_congr hmiddle).mp h)) ?_
    intro hout entry hentry
    exact hout entry (List.mem_append_right _ hentry)
  spec_of_after := fun key spec h ↦
    hfirst.spec_of_after key spec (hsecond.spec_of_after key spec h)
  named := by
    intro key i hcache hnames
    by_cases hmiddle : CacheAt middle key
    · by_cases hmore : Names more key i
      · rw [hsecond.named key i hmiddle hmore, hfirst.dropPinned_eq]
      · obtain ⟨entry, hentry, hname⟩ := hnames
        have hpopped : Names popped key i := by
          rcases List.mem_append.mp hentry with hin | hin
          · exact ⟨entry, hin, hname⟩
          · exact absurd ⟨entry, hin, hname⟩ hmore
        rw [hsecond.unnamed key i hmore, hfirst.named key i hcache hpopped]
    · -- the object was reclaimed, so none of its slots has a replica any more
      have hgone : middle.find? key = none := by
        cases hfind : middle.find? key with
        | none => rfl
        | some obj =>
          obtain ⟨spec, hspec, hret⟩ := hcache
          have hsame := hfirst.spec_of_after key obj.spec (specAt_of_find? hfind)
          rw [hspec, Option.some.injEq] at hsame
          exact absurd ⟨obj.spec, specAt_of_find? hfind, hsame ▸ hret⟩ hmiddle
      have hempty : replicasAt middle key i = [] :=
        replicasAt_of_slotAt_none (slotAt_of_absent hgone i)
      rw [replicasAt_congr (hsecond.kept key (Or.inl hmiddle)), hempty,
        ← hfirst.dropPinned_eq, hempty]
      rfl
  unnamed := by
    intro key i hnot
    rw [hsecond.unnamed key i, hfirst.unnamed key i]
    · exact fun ⟨entry, hentry, hname⟩ ↦ hnot ⟨entry, List.mem_append_left _ hentry, hname⟩
    · exact fun ⟨entry, hentry, hname⟩ ↦ hnot ⟨entry, List.mem_append_right _ hentry, hname⟩

end Evicts

theorem evicts_skip {device : Device} {entry : FifoEntry} {objects : Objects}
    (h : ¬ CacheAt objects entry.1) : Evicts device [entry] objects objects where
  kept := fun _ _ ↦ rfl
  spec_of_after := fun _ _ h ↦ h
  named := by
    intro key i hcache ⟨named, hnamed, hkey, _⟩
    rw [List.mem_singleton.mp hnamed] at hkey
    exact absurd (hkey ▸ hcache) h
  unnamed := fun _ _ _ ↦ rfl

/-- An idle object has no replica. -/
theorem replicas_of_isIdle {obj : Object} (h : obj.isIdle = true) {i : ℕ} {slot : Slot}
    (hslot : obj.slots[i]? = some slot) : slot.replicas = [] := by
  have hidle := List.all_eq_true.mp h slot (List.mem_of_getElem? hslot)
  exact List.isEmpty_iff.mp ((Bool.and_eq_true _ _).mp hidle).1

/-- Dropping what a slot owns on `device`, and reclaiming the object if that leaves it idle. -/
theorem evicts_slot (device : Device) {entry : FifoEntry} {objects after : Objects} {obj : Object}
    {slot : Slot} (hfind : objects.find? entry.1 = some obj) (hret : obj.spec.retention = .cache)
    (hslot : obj.slots[entry.2.toNat]? = some slot)
    (hafter : after = if (obj.setSlot entry.2.toNat
        { slot with replicas := dropPinned device slot.replicas }).isIdle
      then objects.erase entry.1
      else objects.insert entry.1
        (obj.setSlot entry.2.toNat { slot with replicas := dropPinned device slot.replicas })) :
    Evicts device [entry] objects after := by
  let rest := obj.setSlot entry.2.toNat { slot with replicas := dropPinned device slot.replicas }
  have hother (key : Key) (hkey : key ≠ entry.1) : after.find? key = objects.find? key := by
    rw [hafter]
    split_ifs
    · exact SortedMap.find?_erase_of_ne objects hkey.symm
    · rw [SortedMap.find?_insert, if_neg hkey.symm]
  -- reclaiming an idle object does not change the replicas of any slot
  have hreplicas (key : Key) (i : ℕ) :
      replicasAt after key i = replicasAt (objects.insert entry.1 rest) key i := by
    by_cases hkey : key = entry.1
    · rw [hafter]
      split_ifs with hidle
      · have hgone : (objects.erase entry.1).find? key = none := by
          rw [SortedMap.find?_erase, if_pos hkey.symm]
        rw [replicasAt_of_slotAt_none (slotAt_of_absent hgone i), replicasAt, slotAt_insert,
          if_pos hkey.symm]
        cases hget : rest.slots[i]? with
        | none => rfl
        | some s => exact (replicas_of_isIdle hidle hget).symm
      · rfl
    · refine (replicasAt_congr (hother key hkey) i).trans (replicasAt_congr ?_ i).symm
      rw [SortedMap.find?_insert, if_neg (Ne.symm hkey)]
  have hcache : CacheAt objects entry.1 := ⟨obj.spec, specAt_of_find? hfind, hret⟩
  refine ⟨?_, ?_, ?_, ?_⟩
  · intro key hkey
    refine hother key ?_
    rintro rfl
    rcases hkey with hnot | hout
    · exact hnot hcache
    · exact hout entry (List.mem_singleton_self entry) rfl
  · intro key spec hspec
    by_cases hkey : key = entry.1
    · subst hkey
      rw [hafter] at hspec
      split_ifs at hspec
      · rw [specAt_of_absent (by rw [SortedMap.find?_erase, if_pos rfl])] at hspec
        cases hspec
      · rwa [specAt_setSlot hfind] at hspec
    · rwa [specAt, hother key hkey] at hspec
  · intro key i _ ⟨named, hnamed, hkey, hi⟩
    rw [List.mem_singleton.mp hnamed] at hkey hi
    subst hkey hi
    have hself : slotAt (objects.insert entry.1 rest) entry.1 entry.2.toNat =
        some { slot with replicas := dropPinned device slot.replicas } := by
      rw [slotAt_setSlot hfind hslot, if_pos ⟨rfl, rfl⟩]
    rw [hreplicas, replicasAt_of_slotAt hself,
      replicasAt_of_slotAt ((slotAt_of_find? hfind _).trans hslot)]
  · intro key i hnot
    rw [hreplicas, replicasAt, slotAt_setSlot hfind hslot, if_neg, replicasAt]
    rintro ⟨hkey, hi⟩
    exact hnot ⟨entry, List.mem_singleton_self entry, hkey.symm, hi.symm⟩

theorem evictEntry_evicts {device : Device} {entry : FifoEntry} {objects : Objects}
    {popped : Popped} (h : evictEntry device entry objects = .ok popped) :
    Evicts device [entry] objects popped.objects := by
  unfold evictEntry at h
  cases hfind : objects.find? entry.1 with
  | none =>
    rw [hfind] at h
    cases h
    refine evicts_skip ?_
    rintro ⟨spec, hspec, _⟩
    rw [specAt_of_absent hfind] at hspec
    cases hspec
  | some obj =>
    rw [hfind] at h
    dsimp only at h
    split_ifs at h with hret
    · cases h
      refine evicts_skip ?_
      rintro ⟨spec, hspec, hcache⟩
      rw [specAt_of_find? hfind, Option.some.injEq] at hspec
      exact hret (hspec ▸ hcache)
    · obtain ⟨slot, hslot, h⟩ := bind_eq_ok.mp h
      cases h
      exact evicts_slot device hfind (not_not.mp hret) (index_eq_ok.mp hslot) rfl

/-! ### A round -/

/-- What a round on `device` did: it popped `popped`, put the entries of the protected key back, and
stopped at the first entry that evicted something or at the end of the queue. -/
structure RoundDone (device : Device) (protect : Key) (before : State) (evicted : Bool)
    (after : State) (popped rest : List FifoEntry) : Prop where
  queue : before.fifo device = some (popped ++ rest)
  fifo_eq : after.fifo = Function.update before.fifo device
    (some ((popped.filter fun e ↦ e.1 = protect) ++ rest))
  evicts : Evicts device (popped.filter fun e ↦ e.1 ≠ protect) before.objects after.objects
  exhausted : evicted = false → rest = []
  progress : evicted = true → ∃ entry ∈ popped, entry.1 ≠ protect

theorem evictLoop_done {device : Device} {protect : Key} (queue : List FifoEntry) :
    ∀ {objects : Objects} {deferred : List FifoEntry} {round : Round},
      evictLoop device protect queue objects deferred = .ok round → ∃ popped,
        queue = popped ++ round.fifo ∧
        round.deferred = deferred ++ popped.filter (fun e ↦ e.1 = protect) ∧
        Evicts device (popped.filter fun e ↦ e.1 ≠ protect) objects round.popped.objects ∧
        (round.popped.evicted = false → round.fifo = []) ∧
        (round.popped.evicted = true → ∃ entry ∈ popped, entry.1 ≠ protect) := by
  induction queue with
  | nil =>
    intro objects deferred round h
    cases h
    exact ⟨[], rfl, (List.append_nil _).symm, Evicts.refl device objects, fun _ ↦ rfl, nofun⟩
  | cons entry queue ih =>
    intro objects deferred round h
    unfold evictLoop at h
    split_ifs at h with hprotect
    · obtain ⟨popped, hqueue, hdeferred, hevicts, hend, hprogress⟩ := ih h
      refine ⟨entry :: popped, by rw [hqueue, List.cons_append], ?_, ?_, hend, fun hevicted ↦ ?_⟩
      · rw [hdeferred, List.filter_cons_of_pos (by simpa using hprotect)]
        simp
      · rwa [List.filter_cons_of_neg (by simpa using hprotect)]
      · obtain ⟨other, hother, hne⟩ := hprogress hevicted
        exact ⟨other, List.mem_cons_of_mem _ hother, hne⟩
    · obtain ⟨first, hfirst, h⟩ := bind_eq_ok.mp h
      have hentry := evictEntry_evicts hfirst
      split_ifs at h with hevicted
      · cases h
        refine ⟨[entry], rfl, ?_, ?_, fun hnot ↦ ?_, fun _ ↦ ?_⟩
        · rw [List.filter_cons_of_neg (by simpa using hprotect)]
          simp
        · rwa [List.filter_cons_of_pos (by simpa using hprotect)]
        · rw [hevicted] at hnot
          cases hnot
        · exact ⟨entry, List.mem_singleton_self entry, hprotect⟩
      · obtain ⟨popped, hqueue, hdeferred, hevicts, hend, hprogress⟩ := ih h
        refine ⟨entry :: popped, by rw [hqueue, List.cons_append], ?_, ?_, hend, fun hlater ↦ ?_⟩
        · rw [hdeferred, List.filter_cons_of_neg (by simpa using hprotect)]
        · rw [List.filter_cons_of_pos (by simpa using hprotect)]
          exact hentry.trans hevicts
        · exact ⟨entry, List.mem_cons_self, hprotect⟩

theorem evictRound_done {device : Device} {protect : Key} {st : State}
    {r : Bool × List PinnedBuf × State} (h : st.evictRound device protect = .ok r) :
    ∃ popped rest, RoundDone device protect st r.1 r.2.2 popped rest := by
  unfold State.evictRound at h
  obtain ⟨queue, hqueue, h⟩ := bind_eq_ok.mp h
  obtain ⟨round, hround, h⟩ := bind_eq_ok.mp h
  cases h
  obtain ⟨popped, heq, hdeferred, hevicts, hend, hprogress⟩ := evictLoop_done queue hround
  refine ⟨popped, round.fifo, ?_, ?_, hevicts, hend, hprogress⟩
  · rw [← heq]
    exact unwrap_eq_ok.mp hqueue
  · rw [hdeferred, List.nil_append]

/-- What eviction on `device` leaves alone: objects that are not `Cache` objects, the protected key,
everything that the store does not own on the device, the other queues, and the order of the
entries of the protected key. -/
structure Spared (device : Device) (protect : Key) (before after : State) : Prop where
  kept : ∀ key, ¬ CacheAt before.objects key ∨ key = protect →
    after.objects.find? key = before.objects.find? key
  others : ∀ key i, dropPinned device (replicasAt after.objects key i) =
    dropPinned device (replicasAt before.objects key i)
  queues : ∀ other, other ≠ device → after.fifo other = before.fifo other
  own : (after.fifo device).map (List.filter fun e ↦ e.1 = protect) =
    (before.fifo device).map (List.filter fun e ↦ e.1 = protect)

namespace Spared

variable {device : Device} {protect : Key} {before middle after : State}

theorem refl (device : Device) (protect : Key) (st : State) : Spared device protect st st where
  kept := fun _ _ ↦ rfl
  others := fun _ _ ↦ rfl
  queues := fun _ _ ↦ rfl
  own := rfl

theorem trans (h : Spared device protect before middle) (h' : Spared device protect middle after) :
    Spared device protect before after where
  kept := by
    intro key hkey
    have hmiddle := h.kept key hkey
    refine (h'.kept key (hkey.imp_left fun hnot hcache ↦ ?_)).trans hmiddle
    exact hnot ((cacheAt_congr hmiddle).mp hcache)
  others := fun key i ↦ (h'.others key i).trans (h.others key i)
  queues := fun other hother ↦ (h'.queues other hother).trans (h.queues other hother)
  own := h'.own.trans h.own

end Spared

section Round

variable {device : Device} {protect : Key} {before after : State} {evicted : Bool}
  {popped rest : List FifoEntry}

theorem RoundDone.spared (h : RoundDone device protect before evicted after popped rest) :
    Spared device protect before after where
  kept := by
    intro key hkey
    refine h.evicts.kept key (hkey.imp_right fun heq entry hentry ↦ ?_)
    have hne := of_decide_eq_true (List.mem_filter.mp hentry).2
    exact heq ▸ hne
  others := fun key i ↦ h.evicts.dropPinned_eq key i
  queues := by
    intro other hother
    rw [h.fifo_eq, Function.update_of_ne hother]
  own := by
    rw [h.fifo_eq, Function.update_self, h.queue, Option.map_some, Option.map_some,
      List.filter_append, List.filter_append, List.filter_filter]
    simp

/-- A round that evicted something leaves a shorter queue. -/
theorem RoundDone.shorter (h : RoundDone device protect before true after popped rest) :
    ((popped.filter fun e ↦ e.1 = protect) ++ rest).length < (popped ++ rest).length := by
  obtain ⟨entry, hentry, hne⟩ := h.progress rfl
  have hlt : (popped.filter fun e ↦ e.1 = protect).length < popped.length := by
    refine List.length_filter_lt_length_iff_exists.mpr ⟨entry, hentry, ?_⟩
    simpa using hne
  rw [List.length_append, List.length_append]
  omega

/-! ### Entries for everything that can be evicted -/

/-- Every owned replica of a `Cache` object has an entry in the queue of its device. -/
def Covered (st : State) : Prop :=
  ∀ device queue key i r, st.fifo device = some queue → CacheAt st.objects key →
    r ∈ replicasAt st.objects key i → r.pinnedOn device = true → Names queue key i

/-- A popped entry of another key takes what it names on the device with it. -/
theorem RoundDone.not_names (h : RoundDone device protect before evicted after popped rest)
    {key : Key} {i : ℕ} {r : ReplicaEntry} (hkey : key ≠ protect)
    (hcache : CacheAt after.objects key) (hr : r ∈ replicasAt after.objects key i)
    (hpinned : r.pinnedOn device = true) : ¬ Names popped key i := by
  rintro ⟨entry, hentry, hname, hi⟩
  have hnames : Names (popped.filter fun e ↦ e.1 ≠ protect) key i := by
    refine ⟨entry, List.mem_filter.mpr ⟨hentry, decide_eq_true ?_⟩, hname, hi⟩
    exact hname ▸ hkey
  rw [h.evicts.named key i (h.evicts.cacheAt_of_after hcache) hnames] at hr
  rw [not_pinned_of_mem_dropPinned hr] at hpinned
  cases hpinned

/-- What is left after a round was covered before it. -/
theorem RoundDone.names (h : RoundDone device protect before evicted after popped rest)
    (hcovered : Covered before) {other : Device} {queue : List FifoEntry} {key : Key} {i : ℕ}
    {r : ReplicaEntry} (hqueue : before.fifo other = some queue)
    (hcache : CacheAt after.objects key) (hr : r ∈ replicasAt after.objects key i)
    (hpinned : r.pinnedOn other = true) : Names queue key i :=
  hcovered other queue key i r hqueue (h.evicts.cacheAt_of_after hcache) (h.evicts.mem_before hr)
    hpinned

theorem RoundDone.covered (h : RoundDone device protect before evicted after popped rest)
    (hcovered : Covered before) : Covered after := by
  intro other queue key i r hqueue hcache hr hpinned
  by_cases hother : other = device
  · subst hother
    rw [h.fifo_eq, Function.update_self, Option.some.injEq] at hqueue
    obtain ⟨entry, hentry, hname, hi⟩ := h.names hcovered h.queue hcache hr hpinned
    refine ⟨entry, ?_, hname, hi⟩
    rw [← hqueue]
    rcases List.mem_append.mp hentry with hpopped | hrest
    · by_cases hkey : key = protect
      · exact List.mem_append_left _
          (List.mem_filter.mpr ⟨hpopped, decide_eq_true (hname.trans hkey)⟩)
      · exact absurd ⟨entry, hpopped, hname, hi⟩ (h.not_names hkey hcache hr hpinned)
    · exact List.mem_append_right _ hrest
  · rw [h.fifo_eq, Function.update_of_ne hother] at hqueue
    exact h.names hcovered hqueue hcache hr hpinned

/-- No owned replica of a `Cache` object other than the protected one is on the device. -/
def Exhausted (device : Device) (protect : Key) (objects : Objects) : Prop :=
  ∀ key i r, key ≠ protect → CacheAt objects key → r ∈ replicasAt objects key i →
    r.pinnedOn device = false

/-- A round that evicted nothing found nothing to evict. -/
theorem RoundDone.exhausts (h : RoundDone device protect before false after popped rest)
    (hcovered : Covered before) : Exhausted device protect after.objects := by
  intro key i r hkey hcache hr
  by_contra hpinned
  rw [Bool.not_eq_false] at hpinned
  have hnames := h.names hcovered h.queue hcache hr hpinned
  rw [h.exhausted rfl, List.append_nil] at hnames
  exact h.not_names hkey hcache hr hpinned hnames

end Round

/-! ### The other sections -/

/-- The replica is not one the store owns. -/
def ReplicaEntry.Foreign (r : ReplicaEntry) : Prop := r.buf? = none

theorem ReplicaEntry.Foreign.not_pinnedOn {r : ReplicaEntry} (h : r.Foreign) (device : Device) :
    r.pinnedOn device = false := by
  rw [ReplicaEntry.pinnedOn, show r.buf? = none from h]
  exact Bool.and_false _

section Others

variable {st st' : State} {key : Key}

/-- A section that queues nothing and stores nothing of its own. -/
theorem Covered.added (h : Covered st) (hfifo : st'.fifo = st.fifo)
    (hadded : Added ReplicaEntry.Foreign st.objects st'.objects)
    (hspec : ∀ key j slot spec, slotAt st.objects key j = some slot →
      specAt st'.objects key = some spec → specAt st.objects key = some spec) : Covered st' := by
  intro device queue key i r hqueue hcache hr hpinned
  obtain ⟨spec, hspec', hret⟩ := hcache
  obtain ⟨slot, hslot, hmem⟩ := mem_replicasAt.mp hr
  rw [hfifo] at hqueue
  rcases hadded key i slot hslot r hmem with hforeign | ⟨old, hold, hin⟩
  · rw [hforeign.not_pinnedOn] at hpinned
    cases hpinned
  · exact h device queue key i r hqueue ⟨spec, hspec key i old spec hold hspec', hret⟩
      (mem_replicasAt.mpr ⟨old, hold, hin⟩) hpinned

theorem Covered.claim {spec : ObjectSpec} {writable : List Bool} (h : Covered st)
    (hclaim : st.claim key spec = .ok (writable, st')) : Covered st' := by
  have hclaimed := claim_claimed hclaim
  refine h.added (claim_fifo hclaim) hclaimed.added fun other j slot found hslot hfound ↦ ?_
  by_cases heq : key = other
  · subst heq
    obtain ⟨old, _, hold, _⟩ := exists_slotSpec hslot
    rw [hclaimed.specAt_key] at hfound
    rw [hold, hclaimed.present old hold, hfound]
  · rwa [hclaimed.specAt_ne other heq] at hfound

theorem Covered.unclaim {i : ℕ} (h : Covered st) (hunclaim : st.unclaim key i = .ok st') :
    Covered st' := by
  have hrewritten := unclaim_rewritten hunclaim
  refine h.added (unclaim_fifo hunclaim) (hrewritten.added fun s r hr ↦ Or.inr hr) ?_
  intro other j slot spec _ hspec
  rwa [hrewritten.specAt_eq] at hspec

theorem Covered.publish {op : OpPublish} {device : Device} {total : ℕ} (h : Covered st)
    (hpublish : st.publish key op device total = .ok (.ok st')) : Covered st' := by
  obtain ⟨obj, slot, first, hfind, hslot, hobjects⟩ := publish_ok hpublish
  refine h.added (publish_fifo hpublish) ?_ fun other j old spec _ hspec ↦ ?_
  · rw [hobjects]
    refine added_setSlot hfind hslot fun r hr ↦ (List.mem_append.mp hr).symm.imp_left fun hnew ↦ ?_
    rw [List.mem_singleton.mp hnew]
    rfl
  · rwa [hobjects, specAt_setSlot hfind] at hspec

theorem Covered.removeKeys (h : Covered st) (keys : List Key) :
    Covered { st with objects := (Local.removeKeys keys st.objects).2 } :=
  h.added rfl (removeKeys_added keys st.objects) fun key _ _ spec _ hspec ↦
    (removeKeys_dropping keys st.objects).lossy.1 key spec hspec

theorem Covered.retireRegion (h : Covered st) (regionId : ℕ) :
    Covered (st.retireRegion regionId) := by
  refine h.added rfl (fun key j slot hslot r hr ↦ ?_) fun key _ _ spec _ hspec ↦
    (retireRegion_dropping st regionId).lossy.1 key spec hspec
  rw [slotAt_retireRegion] at hslot
  obtain ⟨old, hold, rfl⟩ := Option.map_eq_some_iff.mp hslot
  exact Or.inr ⟨old, hold, List.mem_of_mem_filter hr⟩

end Others

/-! ### A store queues what it stores -/

/-- Queueing keeps the entries, and the new one names the slot. -/
theorem enqueue_mem {st st' : State} {kb : Key} {i : ℕ} {device other : Device}
    {after : List FifoEntry} (h : st.enqueue kb i device = .ok st')
    (hafter : st'.fifo other = some after) :
    ∃ queue, st.fifo other = some queue ∧ (∀ entry ∈ queue, entry ∈ after) ∧
      (other = device → (kb, UInt32.ofNat i) ∈ after) := by
  unfold State.enqueue at h
  obtain ⟨queue, hqueue, h⟩ := bind_eq_ok.mp h
  cases h
  change Function.update st.fifo device (some (queue ++ [(kb, UInt32.ofNat i)])) other = _ at hafter
  by_cases heq : other = device
  · subst heq
    rw [Function.update_self, Option.some.injEq] at hafter
    rw [← hafter]
    exact ⟨queue, unwrap_eq_ok.mp hqueue, fun entry hentry ↦ List.mem_append_left _ hentry,
      fun _ ↦ List.mem_append_right _ (List.mem_singleton_self _)⟩
  · rw [Function.update_of_ne heq] at hafter
    exact ⟨after, hafter, fun _ hentry ↦ hentry, fun hsame ↦ absurd hsame heq⟩

theorem enqueueAll_mem {kb : Key} {i : ℕ} {other : Device} {after : List FifoEntry}
    (placed : List Placed) : ∀ {st st' : State},
      placed.foldlM (fun st p ↦ st.enqueue kb i (.cpu p.numa)) st = .ok st' →
      st'.fifo other = some after → ∃ queue, st.fifo other = some queue ∧
        (∀ entry ∈ queue, entry ∈ after) ∧
        ∀ p ∈ placed, other = .cpu p.numa → (kb, UInt32.ofNat i) ∈ after := by
  induction placed with
  | nil =>
    intro st st' h hafter
    cases h
    exact ⟨after, hafter, fun _ hentry ↦ hentry, fun _ hp ↦ absurd hp List.not_mem_nil⟩
  | cons p placed ih =>
    intro st st' h hafter
    rw [List.foldlM_cons] at h
    obtain ⟨middle, hfirst, hrest⟩ := bind_eq_ok.mp h
    obtain ⟨between, hbetween, hkept, hnew⟩ := ih hrest hafter
    obtain ⟨queue, hqueue, hkept', hnew'⟩ := enqueue_mem hfirst hbetween
    refine ⟨queue, hqueue, fun entry hentry ↦ hkept entry (hkept' entry hentry), fun q hq hon ↦ ?_⟩
    rcases List.mem_cons.mp hq with rfl | hq
    · exact hkept _ (hnew' hon)
    · exact hnew q hq hon

theorem store_mem {st st' : State} {kb : Key} {i : ℕ} {placed : List Placed} {other : Device}
    {after : List FifoEntry} (h : st.store kb i placed = .ok (.ok st'))
    (hafter : st'.fifo other = some after) :
    ∃ queue, st.fifo other = some queue ∧ (∀ entry ∈ queue, entry ∈ after) ∧
      ∀ p ∈ placed, other = .cpu p.numa → (kb, UInt32.ofNat i) ∈ after := by
  unfold State.store at h
  cases hfind : st.objects.find? kb with
  | none =>
    rw [hfind] at h
    cases h
  | some obj =>
    rw [hfind] at h
    obtain ⟨slot, _, h⟩ := bind_eq_ok.mp h
    obtain ⟨last, hall, h⟩ := bind_eq_ok.mp h
    cases h
    obtain ⟨queue, hqueue, hrest⟩ := enqueueAll_mem placed hall hafter
    exact ⟨queue, hqueue, hrest⟩

/-- A store keeps what is stored in reach, when an entry can name its slot. -/
theorem Covered.store {st st' : State} {kb : Key} {i : ℕ} {placed : List Placed} (h : Covered st)
    (hi : i < 2 ^ 32) (hstore : st.store kb i placed = .ok (.ok st')) : Covered st' := by
  intro device after key j r hafter hcache hr hpinned
  obtain ⟨queue, hqueue, hkept, hnew⟩ := store_mem hstore hafter
  have hrewritten := (store_rewritten hstore).1
  obtain ⟨spec, hspec, hret⟩ := hcache
  rw [hrewritten.specAt_eq] at hspec
  have hbefore (hold : r ∈ replicasAt st.objects key j) : Names after key j := by
    obtain ⟨entry, hentry, hname⟩ :=
      h device queue key j r hqueue ⟨spec, hspec, hret⟩ hold hpinned
    exact ⟨entry, hkept entry hentry, hname⟩
  obtain ⟨slot, hslot, hmem⟩ := mem_replicasAt.mp hr
  by_cases heq : key = kb ∧ j = i
  · obtain ⟨rfl, rfl⟩ := heq
    rw [hrewritten.slotAt_self] at hslot
    obtain ⟨old, hold, rfl⟩ := Option.map_eq_some_iff.mp hslot
    rcases List.mem_append.mp hmem with hin | hin
    · exact hbefore (mem_replicasAt.mpr ⟨old, hold, hin⟩)
    · obtain ⟨p, hp, rfl⟩ := List.mem_map.mp hin
      have hon := of_decide_eq_true ((Bool.and_eq_true _ _).mp hpinned).1
      exact ⟨_, hnew p hp hon.symm, rfl, UInt32.toNat_ofNat_of_lt hi⟩
  · rw [hrewritten.slotAt_ne key j heq] at hslot
    exact hbefore (mem_replicasAt.mpr ⟨slot, hslot, hmem⟩)

/-! ### Runs -/

/-- What a step can do to the metadata. -/
inductive Ran (w : World) : State → Prop
  | nothing : Ran w w.state
  | claimed {key : Key} {spec : ObjectSpec} {writable : List Bool} {st : State}
    (h : w.state.claim key spec = .ok (writable, st)) : Ran w st
  | evicted {device : Device} {protect : Key} {r : Bool × List PinnedBuf × State}
    (h : w.state.evictRound device protect = .ok r) : Ran w r.2.2
  | stored {t : ℕ} {th : PutThread} {placed : List Placed} {st : State}
    (hth : w.threads t = some th) (hi : th.i < th.op.slots.length)
    (h : w.state.store th.key th.i placed = .ok (.ok st)) : Ran w st
  | unclaimed {key : Key} {i : ℕ} {st : State} (h : w.state.unclaim key i = .ok st) : Ran w st
  | published {key : Key} {op : OpPublish} {device : Device} {total : ℕ} {st : State}
    (h : w.state.publish key op device total = .ok (.ok st)) : Ran w st
  | removed (keys : List Key) :
    Ran w { w.state with objects := (Local.removeKeys keys w.state.objects).2 }
  | retired (regionId : ℕ) : Ran w (w.state.retireRegion regionId)

section Ran

variable {inner : Inner} {mem mem' : ByteSpace} {w w' : World} {t : ℕ} {th : PutThread} {r : Reply}

theorem ran_of_eq {st : State} (h : st = w.state) : Ran w st := by
  rw [h]
  exact .nothing

theorem ran_locked {α : Type} {sec : Exec α} {next : α → World × Reply}
    (hnext : ∀ a, sec = .ok a → Ran w (next a).1.state) :
    Ran w (w.locked t th sec next).1.state := by
  unfold World.locked
  split_ifs
  · exact .nothing
  · cases sec with
    | error reason => exact .nothing
    | ok a => exact hnext a rfl

theorem ran_section {α : Type} {sec : Exec α} {next : α → World × Reply}
    (hnext : ∀ a, sec = .ok a → Ran w (next a).1.state) : Ran w (w.section sec next).1.state := by
  unfold World.section
  split_ifs
  · exact .nothing
  · cases sec with
    | error reason => exact .nothing
    | ok a => exact hnext a rfl

theorem state_takeBuf (each : Bool) (target : UInt16 × Bool) (rest : List (UInt16 × Bool))
    (p : Placing) (full : Pc) (taken : Exec (Option (PinnedBuf × PinnedPool))) :
    (w.takeBuf t th each target rest p full taken).1.state = w.state := by
  unfold World.takeBuf
  split <;> rfl

theorem state_tryAlloc (ps : PutSlot) (target : UInt16 × Bool) (rest : List (UInt16 × Bool))
    (p : Placing) (full : PinnedPool → Pc) :
    (w.tryAlloc inner t th ps target rest p full).1.state = w.state := by
  unfold World.tryAlloc
  split
  · rfl
  · exact state_takeBuf _ target rest p _ _

theorem state_beginSlot (ps : PutSlot) : (w.beginSlot inner t th ps).1.state = w.state := by
  unfold World.beginSlot
  split
  · rfl
  · rfl
  · split <;> rfl

theorem ran_advance (hth : w.threads t = some th) (outcome : CopyOutcome) :
    Ran w (w.advance inner mem t th outcome).1.state := by
  unfold World.advance
  cases hps : th.op.slots[th.i]? with
  | none => exact .nothing
  | some ps =>
    have hi := (List.getElem?_eq_some_iff.mp hps).1
    dsimp only
    unfold World.advanceSlot
    split
    · exact ran_of_eq (state_beginSlot ps)
    · unfold World.endPlacing
      split_ifs <;> exact .nothing
    · exact ran_of_eq (state_tryAlloc ps _ _ _ _)
    · exact ran_locked fun r hr ↦ .evicted hr
    · exact ran_of_eq (state_tryAlloc ps _ _ _ _)
    · exact .nothing
    · cases outcome with
      | done => exact .nothing
      | failed e moved => exact .nothing
    · refine ran_locked fun r hr ↦ ?_
      cases r with
      | error e => exact .nothing
      | ok st => exact .stored hth hi hr
    · exact ran_locked fun st hst ↦ .unclaimed hst

theorem ran_beginPut (key : Key) (op : OpPut) : Ran w (w.beginPut key op).1.state := by
  unfold World.beginPut
  cases op.validate with
  | error e => exact .nothing
  | ok _ =>
    refine ran_section fun a ha ↦ ?_
    cases a with
    | error e => exact .nothing
    | ok pair => exact .claimed (Except.ok.inj ha)

theorem ran_publish (key : Key) (op : OpPublish) : Ran w (w.publish key op).1.state := by
  unfold World.publish
  cases op.validate with
  | error e => exact .nothing
  | ok pair =>
    refine ran_section fun a ha ↦ ?_
    cases a with
    | error e => exact .nothing
    | ok st => exact .published ha

theorem ran_removeKeys (keys : List Key) (reply : Reply) :
    Ran w (w.removeKeys keys reply).1.state := by
  refine ran_section fun a ha ↦ ?_
  cases ha
  exact .removed keys

theorem ran_beginGet (key : Key) (op : OpGet) : Ran w (w.beginGet inner key op).1.state := by
  unfold World.beginGet
  cases op.validate with
  | error e => exact .nothing
  | ok pair =>
    refine ran_section fun a _ ↦ ?_
    cases a with
    | error e => exact .nothing
    | ok found => exact .nothing

theorem exec_ran {action : Action} (hexec : w.exec inner mem action = some (w', mem', r)) :
    Ran w w'.state := by
  cases action with
  | beginPut key op =>
    cases hexec
    exact ran_beginPut key op
  | advance t outcome =>
    obtain ⟨th, hth, heq⟩ := Option.map_eq_some_iff.mp hexec
    cases heq
    exact ran_advance hth outcome
  | publish key op =>
    cases hexec
    exact ran_publish key op
  | remove keys =>
    cases hexec
    exact ran_removeKeys keys _
  | removePrefix start =>
    cases hexec
    exact ran_removeKeys _ _
  | retireRegion regionId =>
    cases hexec
    refine ran_section fun st hst ↦ ?_
    cases hst
    exact .retired regionId
  | beginGet key op =>
    cases hexec
    exact ran_beginGet key op
  | finishGet k outcome =>
    obtain ⟨rd, _, heq⟩ := Option.map_eq_some_iff.mp hexec
    cases heq
    exact .nothing
  | userWrite addr bytes =>
    cases hexec
    exact .nothing

end Ran

/-- No `put` in flight has more slots than a queue entry can name. -/
def ShortPuts (w : World) : Prop :=
  ∀ t th, w.threads t = some th → th.op.slots.length ≤ 2 ^ 32

/-- A `put` that begins has no more slots than a queue entry can name. -/
def Action.FewSlots : Action → Prop
  | .beginPut _ op => op.slots.length ≤ 2 ^ 32
  | _ => True

section Runs

variable {inner : Inner} {bytes : UInt16 → ℕ} {mem : ByteSpace} {w w' : World}

theorem Covered.ran (h : Covered w.state) (hshort : ShortPuts w) {st : State} (hran : Ran w st) :
    Covered st := by
  cases hran with
  | nothing => exact h
  | claimed hclaim => exact h.claim hclaim
  | evicted hround =>
    obtain ⟨popped, rest, hdone⟩ := evictRound_done hround
    exact hdone.covered h
  | stored hth hi hstore => exact h.store (lt_of_lt_of_le hi (hshort _ _ hth)) hstore
  | unclaimed hunclaim => exact h.unclaim hunclaim
  | published hpublish => exact h.publish hpublish
  | removed keys => exact h.removeKeys keys
  | retired regionId => exact h.retireRegion regionId

theorem ShortPuts.shed (h : ShortPuts w) {bs : List PinnedBuf} (hshed : Shed w w' bs) :
    ShortPuts w' := by
  intro t th' hth'
  obtain ⟨th, hth, hfollows⟩ := hshed.follows t th' hth'
  rw [hfollows.op_eq]
  exact h t th hth

theorem ShortPuts.setThread (h : ShortPuts w) {t : ℕ} {th' : PutThread}
    (hthreads : w'.threads = Function.update w.threads t (some th'))
    (hshort : th'.op.slots.length ≤ 2 ^ 32) : ShortPuts w' := by
  intro t' other hother
  rw [hthreads] at hother
  rcases thread_of_setThread hother with ⟨_, rfl⟩ | ⟨_, hsame⟩
  · exact hshort
  · exact h t' other hsame

theorem ShortPuts.stepped {live : List PinnedBuf} {action : Action} {r : World × Reply}
    (h : ShortPuts w) (hsound : Sound w live) (hfew : action.FewSlots)
    (hstep : Stepped inner mem w action r) : ShortPuts r.1 := by
  cases hstep with
  | shed _ hshed => exact h.shed hshed
  | began _ _ => exact h.setThread rfl hfew
  | advanced hth _ hadvanced =>
    have hown := h _ _ hth
    cases hadvanced with
    | shed _ hshed => exact h.shed hshed
    | unwound _ hshed => exact h.shed hshed
    | allocated => exact h.setThread rfl hown
    | copied => exact h.setThread rfl hown
    | spilled _ _ hshed => exact ShortPuts.shed (w := w.fill _ _) h hshed
    | stored => exact h.setThread rfl hown
    | unclaimed => exact h.setThread rfl hown
  | returned hth hend =>
    exact h.shed (shed_endThread hsound.exclusive hth ((hsound.paced _ _ hth).bufs_of_end hend))

theorem covered_start (inner : Inner) (bytes : UInt16 → ℕ) :
    Covered (World.initial inner bytes).state := by
  intro device queue key i r _ _ hr _
  obtain ⟨slot, hslot, _⟩ := mem_replicasAt.mp hr
  cases hslot

/-- In every state of every run whose puts have no more slots than a queue entry can name, the
owned replicas of `Cache` objects are queued. -/
theorem run_covered {history : List Event} {n : Node}
    (hrun : ((backend inner bytes).restrict fun _ e ↦ e.action.FewSlots).Run history n) :
    Covered n.world.state := by
  have hboth : Covered n.world.state ∧ ShortPuts n.world := by
    refine run_invariant (I := fun n ↦ Covered n.world.state ∧ ShortPuts n.world)
      ⟨covered_start inner bytes, fun _ _ hth ↦ by cases hth⟩ ?_ hrun
    intro n e n' live live' hsound _ hfew ⟨hcovered, hshort⟩ hstep
    exact ⟨hcovered.ran hshort (exec_ran hstep.exec), hshort.stepped hsound hfew hstep.stepped⟩
  exact hboth.1

end Runs

end Pegastore.Local
