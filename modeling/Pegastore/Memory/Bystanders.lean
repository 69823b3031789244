import Pegastore.Memory.Eviction

/-!
# What a failing slot does to other objects

The candidate loop of a slot makes room device by device, and what it has evicted stays evicted when
the slot fails after all: the device cannot be emptied far enough, or a later device of an `Each`
list is full or unknown.

`Spares` is the condition on the state before the slot under which no device that the loop gets to
has anything to evict for it. Then making room changes no object and no counter, whatever the slot's
result (`Unharmed`). It is also necessary: eviction only takes replicas and objects away (`Fewer`),
so what the first device with something to evict has lost is not there at the end.
-/

set_option autoImplicit false
set_option relaxedAutoImplicit false

namespace Pegastore.Memory

open Outcome ByteMemory Transition

/-! ### Making room without evicting -/

/-- Popping the entry for `device` changes no object: a `Cache` object under its key has nothing
there that the store owns on `device`, and some replica elsewhere, so it is not reclaimed. -/
def Harmless (device : Device) (objects : Objects) (entry : FifoEntry) : Prop :=
  ∀ obj, objects.find? entry.1 = some obj → obj.spec.retention = .cache →
    (∀ r ∈ obj.replicasOf entry.2.toNat, r.ownedOn device = false) ∧ obj.isEmpty = false

/-- Making room for `need` bytes on `device` finds nothing to evict: the device is unlimited, or too
small, or has room already, or its queue is harmless outside `protect`. -/
def SparedOn (st : State) (device : Device) (need : ℕ) (protect : Key) : Prop :=
  ∀ pool cap, st.pools device = some pool → pool.capacity = some cap → need ≤ cap →
    cap < pool.used + need → ∀ entry ∈ pool.fifo, entry.1 ≠ protect →
      Harmless device st.objects entry

/-- No object and no counter changed, and no queue has new entries. -/
structure Unharmed (before after : State) : Prop where
  objects : ∀ key, after.objects.find? key = before.objects.find? key
  used : ∀ device, (after.pools device).map Pool.used = (before.pools device).map Pool.used
  pools : ∀ device pool', after.pools device = some pool' → ∃ pool,
    before.pools device = some pool ∧ pool'.capacity = pool.capacity ∧ pool'.used = pool.used ∧
      ∀ entry ∈ pool'.fifo, entry ∈ pool.fifo

theorem Unharmed.refl (st : State) : Unharmed st st :=
  ⟨fun _ ↦ rfl, fun _ ↦ rfl, fun _ pool' h ↦ ⟨pool', h, rfl, rfl, fun _ hentry ↦ hentry⟩⟩

theorem Unharmed.trans {first second third : State} (h : Unharmed first second)
    (h' : Unharmed second third) : Unharmed first third where
  objects := fun key ↦ (h'.objects key).trans (h.objects key)
  used := fun device ↦ (h'.used device).trans (h.used device)
  pools := by
    intro device pool₃ hpool₃
    obtain ⟨pool₂, hpool₂, hcap, hused, hfifo⟩ := h'.pools device pool₃ hpool₃
    obtain ⟨pool₁, hpool₁, hcap', hused', hfifo'⟩ := h.pools device pool₂ hpool₂
    exact ⟨pool₁, hpool₁, hcap.trans hcap', hused.trans hused',
      fun entry hentry ↦ hfifo' entry (hfifo entry hentry)⟩

/-- The device has room for `len` bytes as it is. -/
def State.HasRoom (st : State) (device : Device) (len : ℕ) : Prop :=
  ∃ pool, st.pools device = some pool ∧ ∀ cap, pool.capacity = some cap → pool.used + len ≤ cap

theorem Unharmed.hasRoom_iff {before after : State} (h : Unharmed before after) (device : Device)
    (len : ℕ) : after.HasRoom device len ↔ before.HasRoom device len := by
  constructor
  · rintro ⟨pool', hpool', hroom⟩
    obtain ⟨pool, hpool, hcapacity, hused, _⟩ := h.pools device pool' hpool'
    refine ⟨pool, hpool, fun cap hcap ↦ ?_⟩
    rw [← hused]
    exact hroom cap (hcapacity.trans hcap)
  · rintro ⟨pool, hpool, hroom⟩
    have hsame := h.used device
    rw [hpool] at hsame
    obtain ⟨pool', hpool', _⟩ := Option.map_eq_some_iff.mp hsame
    obtain ⟨found, hfound, hcapacity, hused, _⟩ := h.pools device pool' hpool'
    rw [hpool] at hfound
    cases hfound
    refine ⟨pool', hpool', fun cap hcap ↦ ?_⟩
    rw [hused]
    exact hroom cap (hcapacity.symm.trans hcap)

/-- What is spared stays spared. -/
theorem SparedOn.unharmed {before after : State} {device : Device} {need : ℕ} {protect : Key}
    (h : SparedOn before device need protect) (hunharmed : Unharmed before after) :
    SparedOn after device need protect := by
  intro pool' cap hpool' hcap hneed hfull entry hentry hne obj hfind
  obtain ⟨pool, hpool, hcapacity, hused, hfifo⟩ := hunharmed.pools device pool' hpool'
  rw [hcapacity] at hcap
  rw [hused] at hfull
  rw [hunharmed.objects] at hfind
  exact h pool cap hpool hcap hneed hfull entry (hfifo entry hentry) hne obj hfind

/-- What is spared on a device with the same pool was spared. -/
theorem SparedOn.of_same {before after : State} {device : Device} {need : ℕ} {protect : Key}
    (h : SparedOn after device need protect) (hpools : after.pools device = before.pools device)
    (hobjects : ∀ key, after.objects.find? key = before.objects.find? key) :
    SparedOn before device need protect := by
  intro pool cap hpool hcap hneed hfull entry hentry hne obj hfind
  rw [← hpools] at hpool
  rw [← hobjects] at hfind
  exact h pool cap hpool hcap hneed hfull entry hentry hne obj hfind

theorem evictEntry_harmless {device : Device} {entry : FifoEntry} {objects objects' : Objects}
    {used used' : ℕ} (hharmless : Harmless device objects entry)
    (h : evictEntry device entry objects used = .ok (objects', used')) :
    (∀ key, objects'.find? key = objects.find? key) ∧ used' = used := by
  unfold evictEntry at h
  cases hfind : objects.find? entry.1 with
  | none =>
    rw [hfind] at h
    cases h
    exact ⟨fun _ ↦ rfl, rfl⟩
  | some obj =>
    rw [hfind] at h
    dsimp only at h
    split_ifs at h with hclass
    · cases h
      exact ⟨fun _ ↦ rfl, rfl⟩
    · obtain ⟨hnone, hkept⟩ := hharmless obj hfind (not_not.mp hclass)
      obtain ⟨slot, hslot, h⟩ := bind_eq_ok.mp h
      have hget := index_eq_ok.mp hslot
      rw [Object.replicasOf_of_getElem? hget] at hnone
      -- nothing of the slot is dropped, so the object is the one that was there
      have hsame : slot.dropOwned device = slot := by
        unfold Slot.dropOwned
        rw [List.filter_eq_self.mpr fun r hr ↦ by rw [hnone r hr]; rfl]
      have hlens : slot.ownedLens device = [] :=
        List.filterMap_eq_nil_iff.mpr fun r hr ↦ ReplicaEntry.ownedLenOn_of_ownedOn (hnone r hr)
      have hobj : obj.setSlot entry.2.toNat slot = obj := by
        refine Object.eq_of_view rfl fun j ↦ ?_
        rw [Object.replicasOf_setSlot obj slot j (List.getElem?_eq_some_iff.mp hget).1]
        split_ifs with hj
        · rw [hj, Object.replicasOf_of_getElem? hget]
        · rfl
      rw [hlens, hsame, hobj, hkept] at h
      obtain ⟨freed, hfreed, h⟩ := bind_eq_ok.mp h
      cases hfreed
      obtain ⟨left, hleft, h⟩ := bind_eq_ok.mp h
      obtain ⟨_, rfl⟩ := subU64_eq_ok.mp hleft
      cases h
      refine ⟨fun key ↦ ?_, Nat.sub_zero _⟩
      rw [SortedMap.find?_insert]
      split_ifs with hkey
      · rw [← hkey, hfind]
      · rfl

theorem makeRoomLoop_harmless {device : Device} {need cap : ℕ} {protect : Key}
    (fifo : List FifoEntry) : ∀ {objects : Objects} {used : ℕ} {deferred : List FifoEntry}
      {room : Room},
      (cap < used + need → ∀ entry ∈ fifo, entry.1 ≠ protect → Harmless device objects entry) →
      makeRoomLoop device need cap protect fifo objects used deferred = .ok room →
        (∀ key, room.objects.find? key = objects.find? key) ∧ room.used = used ∧
          ∀ entry ∈ room.deferred ++ room.fifo, entry ∈ deferred ++ fifo := by
  induction fifo with
  | nil =>
    intro objects used deferred room _ h
    unfold makeRoomLoop at h
    obtain ⟨total, _, h⟩ := bind_eq_ok.mp h
    cases h
    exact ⟨fun _ ↦ rfl, rfl, fun _ hentry ↦ hentry⟩
  | cons entry fifo ih =>
    intro objects used deferred room hharmless h
    unfold makeRoomLoop at h
    obtain ⟨total, htotal, h⟩ := bind_eq_ok.mp h
    obtain ⟨_, rfl⟩ := addU64_eq_ok.mp htotal
    split_ifs at h with hfits hprotect
    · cases h
      exact ⟨fun _ ↦ rfl, rfl, fun _ hentry ↦ hentry⟩
    · obtain ⟨hobjects, hused, hqueue⟩ := ih (fun hfull other hother ↦
        hharmless hfull other (List.mem_cons_of_mem _ hother)) h
      refine ⟨hobjects, hused, fun other hother ↦ ?_⟩
      have hmem := hqueue other hother
      rw [List.append_assoc] at hmem
      exact hmem
    · obtain ⟨⟨objects', used'⟩, hpopped, hloop⟩ := bind_eq_ok.mp h
      have hfull := not_le.mp hfits
      obtain ⟨hobjects, rfl⟩ := evictEntry_harmless
        (hharmless hfull entry List.mem_cons_self hprotect) hpopped
      obtain ⟨hobjects', hused, hqueue⟩ := ih (fun _ other hother hne obj hfind ↦ by
        rw [hobjects] at hfind
        exact hharmless hfull other (List.mem_cons_of_mem _ hother) hne obj hfind) hloop
      refine ⟨fun key ↦ (hobjects' key).trans (hobjects key), hused, fun other hother ↦ ?_⟩
      rcases List.mem_append.mp (hqueue other hother) with hmem | hmem
      · exact List.mem_append_left _ hmem
      · exact List.mem_append_right _ (List.mem_cons_of_mem _ hmem)

/-- Making room where nothing is to be evicted changes no object, and succeeds exactly when there is
room. -/
theorem makeRoom_harmless {st st' : State} {device : Device} {need : ℕ} {protect : Key} {fit : Bool}
    (hspared : SparedOn st device need protect)
    (h : st.makeRoom device need protect = .ok (fit, st')) :
    Unharmed st st' ∧ (fit = true ↔ st.HasRoom device need) := by
  unfold State.makeRoom at h
  obtain ⟨pool, hpool, h⟩ := bind_eq_ok.mp h
  have hsome := unwrap_eq_ok.mp hpool
  have hroom : st.HasRoom device need ↔
      ∀ cap, pool.capacity = some cap → pool.used + need ≤ cap := by
    refine ⟨fun ⟨found, hfound, hall⟩ ↦ ?_, fun hall ↦ ⟨pool, hsome, hall⟩⟩
    rw [hsome] at hfound
    cases hfound
    exact hall
  rw [hroom]
  cases hcapacity : pool.capacity with
  | none =>
    rw [hcapacity] at h
    cases h
    exact ⟨Unharmed.refl st, iff_of_true rfl fun cap hcap ↦ by cases hcap⟩
  | some cap =>
    rw [hcapacity] at h
    dsimp only at h
    split_ifs at h with hneed
    · cases h
      refine ⟨Unharmed.refl st, iff_of_false Bool.false_ne_true fun hall ↦ ?_⟩
      have hfits := hall cap rfl
      omega
    · obtain ⟨room, hloop, h⟩ := bind_eq_ok.mp h
      obtain ⟨total, htotal, h⟩ := bind_eq_ok.mp h
      obtain ⟨_, rfl⟩ := addU64_eq_ok.mp htotal
      cases h
      obtain ⟨hobjects, hused, hqueue⟩ := makeRoomLoop_harmless pool.fifo
        (hspared pool cap hsome hcapacity (not_lt.mp hneed)) hloop
      refine ⟨⟨hobjects, fun other ↦ ?_, fun other pool' hpool' ↦ ?_⟩, ?_⟩
      · dsimp only
        by_cases heq : other = device
        · rw [heq, Function.update_self, hsome, Option.map_some, Option.map_some, hused]
        · rw [Function.update_of_ne heq]
      · dsimp only at hpool'
        by_cases heq : other = device
        · rw [heq, Function.update_self] at hpool'
          cases hpool'
          rw [heq]
          exact ⟨pool, hsome, hcapacity.symm, hused, hqueue⟩
        · rw [Function.update_of_ne heq] at hpool'
          exact ⟨pool', hpool', rfl, rfl, fun _ hentry ↦ hentry⟩
      · rw [decide_eq_true_iff, hused]
        refine ⟨fun hfits found hfound ↦ ?_, fun hall ↦ hall cap rfl⟩
        cases hfound
        exact hfits

/-! ### Eviction only takes away -/

/-- Objects are gone or have lost replicas. -/
structure Fewer (before after : Objects) : Prop where
  spec : ∀ key spec, specAt after key = some spec → specAt before key = some spec
  replicas : ∀ key i, (replicasAt after key i).Sublist (replicasAt before key i)

section Fewer

variable {before middle after : Objects}

theorem Fewer.refl (objects : Objects) : Fewer objects objects :=
  ⟨fun _ _ h ↦ h, fun _ _ ↦ List.Sublist.refl _⟩

theorem Fewer.trans (h : Fewer before middle) (h' : Fewer middle after) : Fewer before after :=
  ⟨fun key spec hspec ↦ h.spec key spec (h'.spec key spec hspec),
    fun key i ↦ (h'.replicas key i).trans (h.replicas key i)⟩

/-- What is there at the end was there all the time. -/
theorem Fewer.squeeze (h : Fewer before middle) (h' : Fewer middle after)
    (hsame : ∀ key, after.find? key = before.find? key) (key : Key) :
    middle.find? key = before.find? key := by
  have hspec : specAt middle key = specAt before key := by
    cases hbefore : specAt before key with
    | none =>
      rw [Option.eq_none_iff_forall_not_mem]
      intro spec hspec
      rw [h.spec key spec hspec] at hbefore
      cases hbefore
    | some spec =>
      refine h'.spec key spec ?_
      rw [specAt, hsame key]
      exact hbefore
  have hreplicas : ∀ i, replicasAt middle key i = replicasAt before key i := by
    intro i
    refine (h.replicas key i).antisymm ?_
    have hsub := h'.replicas key i
    rw [replicasAt, hsame key] at hsub
    exact hsub
  unfold specAt at hspec
  cases hmiddle : middle.find? key with
  | none =>
    rw [hmiddle] at hspec
    exact (Option.map_eq_none_iff.mp hspec.symm).symm
  | some obj =>
    rw [hmiddle] at hspec
    obtain ⟨obj', hbefore, heq⟩ := Option.map_eq_some_iff.mp hspec.symm
    rw [hbefore]
    refine congrArg some (Object.eq_of_view heq.symm fun i ↦ ?_)
    have hview := hreplicas i
    rw [replicasAt_of_find? hmiddle, replicasAt_of_find? hbefore] at hview
    exact hview

end Fewer

theorem evictEntry_fewer {device : Device} {entry : FifoEntry} {objects objects' : Objects}
    {used used' : ℕ} (h : evictEntry device entry objects used = .ok (objects', used')) :
    Fewer objects objects' := by
  unfold evictEntry at h
  cases hfind : objects.find? entry.1 with
  | none =>
    rw [hfind] at h
    cases h
    exact Fewer.refl _
  | some obj =>
    rw [hfind] at h
    dsimp only at h
    split_ifs at h with hclass
    · cases h
      exact Fewer.refl _
    · obtain ⟨slot, hslot, h⟩ := bind_eq_ok.mp h
      obtain ⟨freed, _, h⟩ := bind_eq_ok.mp h
      obtain ⟨left, _, h⟩ := bind_eq_ok.mp h
      have hevicts := evicts_slot device hfind (not_not.mp hclass) (index_eq_ok.mp hslot) rfl
      split_ifs at h hevicts with hempty
      · cases h
        exact ⟨hevicts.spec_of_after, hevicts.replicas_sublist⟩
      · cases h
        exact ⟨hevicts.spec_of_after, hevicts.replicas_sublist⟩

theorem makeRoomLoop_fewer {device : Device} {need cap : ℕ} {protect : Key}
    (fifo : List FifoEntry) : ∀ {objects : Objects} {used : ℕ} {deferred : List FifoEntry}
      {room : Room}, makeRoomLoop device need cap protect fifo objects used deferred = .ok room →
        Fewer objects room.objects := by
  induction fifo with
  | nil =>
    intro objects used deferred room h
    unfold makeRoomLoop at h
    obtain ⟨total, _, h⟩ := bind_eq_ok.mp h
    cases h
    exact Fewer.refl _
  | cons entry fifo ih =>
    intro objects used deferred room h
    unfold makeRoomLoop at h
    obtain ⟨total, _, h⟩ := bind_eq_ok.mp h
    split_ifs at h
    · cases h
      exact Fewer.refl _
    · exact ih h
    · obtain ⟨popped, hpopped, hloop⟩ := bind_eq_ok.mp h
      exact (evictEntry_fewer hpopped).trans (ih hloop)

/-- Making room changes one pool, and takes from the objects. -/
theorem makeRoom_fewer {st st' : State} {device : Device} {need : ℕ} {protect : Key} {fit : Bool}
    (h : st.makeRoom device need protect = .ok (fit, st')) :
    Fewer st.objects st'.objects ∧ ∀ other, other ≠ device → st'.pools other = st.pools other := by
  unfold State.makeRoom at h
  obtain ⟨pool, _, h⟩ := bind_eq_ok.mp h
  split at h
  · cases h
    exact ⟨Fewer.refl _, fun _ _ ↦ rfl⟩
  · split_ifs at h
    · cases h
      exact ⟨Fewer.refl _, fun _ _ ↦ rfl⟩
    · obtain ⟨room, hloop, h⟩ := bind_eq_ok.mp h
      obtain ⟨total, _, h⟩ := bind_eq_ok.mp h
      cases h
      exact ⟨makeRoomLoop_fewer pool.fifo hloop, fun other hne ↦ Function.update_of_ne hne _ _⟩

theorem Turn.fewer {each : Bool} {len : ℕ} {kb : Key} {c : Device × Bool} {p q : Placing}
    {more : Bool} (h : Turn each len kb c p q more) :
    Fewer p.st.objects q.st.objects ∧
      ∀ other, other ≠ c.1 → q.st.pools other = p.st.pools other := by
  cases h with
  | unknown => exact ⟨Fewer.refl _, fun _ _ ↦ rfl⟩
  | fits hmake => exact makeRoom_fewer hmake
  | full hmake => exact makeRoom_fewer hmake

theorem placeLoop_fewer {each : Bool} {len : ℕ} {kb : Key} (candidates : List (Device × Bool)) :
    ∀ {p p' : Placing}, placeLoop each len kb candidates p = .ok p' →
      Fewer p.st.objects p'.st.objects := by
  induction candidates with
  | nil =>
    intro p p' h
    cases h
    exact Fewer.refl _
  | cons c rest ih =>
    intro p p' h
    obtain ⟨q, more, hturn, h⟩ := placeLoop_turn h
    cases more with
    | true => exact hturn.fewer.1.trans (ih h)
    | false =>
      cases h
      exact hturn.fewer.1

/-! ### Nothing was evicted -/

/-- An entry whose eviction changed no object was harmless. -/
theorem harmless_of_evictEntry {device : Device} {entry : FifoEntry} {objects objects' : Objects}
    {used used' : ℕ} (h : evictEntry device entry objects used = .ok (objects', used'))
    (hsame : ∀ key, objects'.find? key = objects.find? key) : Harmless device objects entry := by
  intro obj hfind hcache
  have hself := hsame entry.1
  unfold evictEntry at h
  rw [hfind] at h hself
  dsimp only at h
  rw [if_neg (not_not.mpr hcache)] at h
  obtain ⟨slot, hslot, h⟩ := bind_eq_ok.mp h
  obtain ⟨freed, _, h⟩ := bind_eq_ok.mp h
  obtain ⟨left, _, h⟩ := bind_eq_ok.mp h
  split_ifs at h with hempty
  · cases h
    rw [SortedMap.find?_erase, if_pos rfl] at hself
    cases hself
  · cases h
    rw [SortedMap.find?_insert, if_pos rfl, Option.some.injEq] at hself
    refine ⟨fun r hr ↦ ?_, ?_⟩
    · rw [← hself, replicasOf_dropOwned (index_eq_ok.mp hslot), if_pos rfl] at hr
      exact Bool.not_eq_true' _ ▸ (List.mem_filter.mp hr).2
    · rw [← hself]
      exact Bool.eq_false_of_not_eq_true hempty

/-- A full device whose loop changed no object has gone through its whole queue. -/
theorem harmless_of_makeRoomLoop {device : Device} {need cap : ℕ} {protect : Key}
    (fifo : List FifoEntry) : ∀ {objects : Objects} {used : ℕ} {deferred : List FifoEntry}
      {room : Room}, makeRoomLoop device need cap protect fifo objects used deferred = .ok room →
        (∀ key, room.objects.find? key = objects.find? key) → cap < used + need →
          ∀ entry ∈ fifo, entry.1 ≠ protect → Harmless device objects entry := by
  induction fifo with
  | nil => exact fun _ _ _ entry hentry ↦ absurd hentry List.not_mem_nil
  | cons first fifo ih =>
    intro objects used deferred room h hsame hfull entry hentry hne
    unfold makeRoomLoop at h
    obtain ⟨total, htotal, h⟩ := bind_eq_ok.mp h
    obtain ⟨_, rfl⟩ := addU64_eq_ok.mp htotal
    rw [if_neg (not_le.mpr hfull)] at h
    split_ifs at h with hprotect
    · rcases List.mem_cons.mp hentry with rfl | hentry
      · exact absurd hprotect hne
      · exact ih h hsame hfull entry hentry hne
    · obtain ⟨⟨objects', used'⟩, hpopped, hloop⟩ := bind_eq_ok.mp h
      have hkept : ∀ key, objects'.find? key = objects.find? key :=
        (evictEntry_fewer hpopped).squeeze (makeRoomLoop_fewer fifo hloop) hsame
      have hharmless := harmless_of_evictEntry hpopped hkept
      rcases List.mem_cons.mp hentry with rfl | hentry
      · exact hharmless
      · obtain ⟨_, rfl⟩ := evictEntry_harmless hharmless hpopped
        intro obj hfind
        rw [← hkept] at hfind
        exact ih hloop (fun key ↦ (hsame key).trans (hkept key).symm) hfull entry hentry hne obj
          hfind

/-- A device on which making room changed no object had nothing to evict. -/
theorem spared_of_makeRoom {st st' : State} {device : Device} {need : ℕ} {protect : Key}
    {fit : Bool} (h : st.makeRoom device need protect = .ok (fit, st'))
    (hsame : ∀ key, st'.objects.find? key = st.objects.find? key) :
    SparedOn st device need protect := by
  intro pool cap hpool hcap hneed hfull
  unfold State.makeRoom at h
  rw [hpool, unwrap, ok_bind, hcap] at h
  dsimp only at h
  rw [if_neg (not_lt.mpr hneed)] at h
  obtain ⟨room, hloop, h⟩ := bind_eq_ok.mp h
  obtain ⟨total, _, h⟩ := bind_eq_ok.mp h
  cases h
  exact harmless_of_makeRoomLoop pool.fifo hloop hsame hfull

/-! ### One slot -/

/-- The candidate loop of a slot that fails gets to the candidate, if nothing is evicted before: an
`Each` list is left at the first device without room. -/
inductive Tried (st : State) (each : Bool) (len : ℕ) :
    List (Device × Bool) → Device × Bool → Prop
  | here {c : Device × Bool} {rest : List (Device × Bool)} : Tried st each len (c :: rest) c
  | later {c d : Device × Bool} {rest : List (Device × Bool)}
    (hroom : each = true → st.HasRoom d.1 len) (h : Tried st each len rest c) :
    Tried st each len (d :: rest) c

/-- No device that a slot gets to has anything to evict for it. -/
def Spares (inner : Inner) (st : State) (kb : Key) (spec : SlotSpec) : Prop :=
  ∀ c, Tried st (isEach spec.placement) spec.len (inner.candidates spec.placement) c →
    SparedOn st c.1 spec.len kb

theorem Tried.mono {st st' : State} {each : Bool} {len : ℕ} {candidates : List (Device × Bool)}
    {c : Device × Bool} (hmono : ∀ device, st.HasRoom device len → st'.HasRoom device len)
    (h : Tried st each len candidates c) : Tried st' each len candidates c := by
  induction h with
  | here => exact .here
  | later hroom _ ih => exact .later (fun heach ↦ hmono _ (hroom heach)) ih

/-- A turn on a device with nothing to evict evicts nothing, and the loop goes on after it exactly
if `each` and room go together. -/
theorem Turn.harmless {each : Bool} {len : ℕ} {kb : Key} {c : Device × Bool} {p q : Placing}
    {more : Bool} (h : Turn each len kb c p q more) (hspared : SparedOn p.st c.1 len kb) :
    Unharmed p.st q.st ∧ (more = true ↔ (each = true ↔ p.st.HasRoom c.1 len)) := by
  cases h with
  | unknown hnone =>
    have hroom : ¬ p.st.HasRoom c.1 len := by
      rintro ⟨pool, hpool, _⟩
      rw [hnone] at hpool
      cases hpool
    refine ⟨Unharmed.refl _, ?_⟩
    cases each <;> simp [hroom]
  | fits hmake =>
    obtain ⟨hunharmed, hfit⟩ := makeRoom_harmless hspared hmake
    refine ⟨hunharmed, ?_⟩
    cases each <;> simp [hfit.mp rfl]
  | full hmake =>
    obtain ⟨hunharmed, hfit⟩ := makeRoom_harmless hspared hmake
    have hroom : ¬ p.st.HasRoom c.1 len := fun hroom ↦ Bool.false_ne_true (hfit.mpr hroom)
    refine ⟨hunharmed, ?_⟩
    cases each <;> simp [hroom]

/-- Nothing is evicted when the devices that are tried have nothing to evict. -/
theorem placeLoop_harmless {each : Bool} {len : ℕ} {kb : Key} (candidates : List (Device × Bool)) :
    ∀ {p p' : Placing}, (∀ c, Tried p.st each len candidates c → SparedOn p.st c.1 len kb) →
      placeLoop each len kb candidates p = .ok p' → Unharmed p.st p'.st := by
  induction candidates with
  | nil =>
    intro p p' _ h
    cases h
    exact Unharmed.refl _
  | cons c rest ih =>
    intro p p' hspared h
    obtain ⟨q, more, hturn, h⟩ := placeLoop_turn h
    obtain ⟨hunharmed, hmore⟩ := hturn.harmless (hspared c .here)
    cases more with
    | true =>
      refine hunharmed.trans (ih (fun d hd ↦ ?_) h)
      have htried := hd.mono fun device ↦ (hunharmed.hasRoom_iff device len).mp
      exact (hspared d (.later (hmore.mp rfl).mp htried)).unharmed hunharmed
    | false =>
      cases h
      exact hunharmed

/-- A turn that changed no object was on a device with nothing to evict. -/
theorem Turn.spared {each : Bool} {len : ℕ} {kb : Key} {c : Device × Bool} {p q : Placing}
    {more : Bool} (h : Turn each len kb c p q more)
    (hsame : ∀ key, q.st.objects.find? key = p.st.objects.find? key) :
    SparedOn p.st c.1 len kb := by
  cases h with
  | unknown hnone =>
    intro pool cap hpool
    rw [hnone] at hpool
    cases hpool
  | fits hmake => exact spared_of_makeRoom hmake hsame
  | full hmake => exact spared_of_makeRoom hmake hsame

/-- A turn that ends a loop without `each` has found a target. -/
theorem Turn.stops {len : ℕ} {kb : Key} {c : Device × Bool} {p q : Placing}
    (h : Turn false len kb c p q false) : q.targets ≠ [] := by
  cases h with
  | fits => exact List.append_ne_nil_of_right_ne_nil _ (List.cons_ne_nil _ _)

/-- A loop that changed no object, and found no target if one would do, had nothing to evict on the
devices it tried. -/
theorem spared_of_placeLoop {each : Bool} {len : ℕ} {kb : Key} (candidates : List (Device × Bool)) :
    ∀ {p p' : Placing}, placeLoop each len kb candidates p = .ok p' →
      (∀ key, p'.st.objects.find? key = p.st.objects.find? key) →
      (each = false → p'.targets = []) →
      ∀ c, Tried p.st each len candidates c → SparedOn p.st c.1 len kb := by
  induction candidates with
  | nil =>
    intro p p' _ _ _ c hc
    cases hc
  | cons d rest ih =>
    intro p p' h hsame hfailed c hc
    obtain ⟨q, more, hturn, h⟩ := placeLoop_turn h
    obtain ⟨hfewer, hpools⟩ := hturn.fewer
    -- the objects after this device are the same, whether the loop goes on or not
    have hrest : Fewer q.st.objects p'.st.objects := by
      cases more with
      | true => exact placeLoop_fewer rest h
      | false =>
        cases h
        exact Fewer.refl _
    have hkept := hfewer.squeeze hrest hsame
    have hspared := hturn.spared hkept
    obtain ⟨hunharmed, hmore⟩ := hturn.harmless hspared
    cases hc with
    | here => exact hspared
    | later hroom hlater =>
      by_cases heq : c.1 = d.1
      · rw [heq]
        exact hspared
      · refine SparedOn.of_same ?_ (hpools c.1 heq) hkept
        cases more with
        | true =>
          exact ih h (fun key ↦ (hsame key).trans (hkept key).symm) hfailed c
            (hlater.mono fun device ↦ (hunharmed.hasRoom_iff device len).mpr)
        | false =>
          -- it stopped at this device: with `each` for lack of room, otherwise with a target
          cases h
          cases each with
          | true => exact absurd (hmore.mpr (iff_of_true rfl (hroom rfl))) Bool.false_ne_true
          | false => exact absurd (hfailed rfl) hturn.stops

/-- A slot that ends with an error changes nothing exactly when it has nothing to evict. -/
theorem putSlot_error_iff {inner : Inner} {mem : UserMemory} {kb : Key} {i : ℕ} {ps : PutSlot}
    {st st' : State} {e : Error} (h : putSlot inner mem kb i ps st = .ok (.error e, st')) :
    ((∀ other, st'.objects.find? other = st.objects.find? other) ∧
      ∀ device, (st'.pools device).map Pool.used = (st.pools device).map Pool.used) ↔
    Spares inner st kb ps.spec := by
  unfold putSlot at h
  obtain ⟨p, hp, h⟩ := bind_eq_ok.mp h
  split_ifs at h with hlanded
  · cases h
    constructor
    · rintro ⟨hobjects, _⟩
      refine spared_of_placeLoop (inner.candidates ps.spec.placement) (p := ⟨st, [], none⟩) hp
        hobjects fun heach ↦ ?_
      rw [heach] at hlanded
      have hempty : (!(!p.targets.isEmpty)) = true := hlanded
      rw [Bool.not_not, List.isEmpty_iff] at hempty
      exact hempty
    · intro hspares
      have hunharmed := placeLoop_harmless (inner.candidates ps.spec.placement)
        (p := ⟨st, [], none⟩) hspares hp
      exact ⟨hunharmed.objects, hunharmed.used⟩
  · obtain ⟨bytes, _, h⟩ := bind_eq_ok.mp h
    obtain ⟨stored, _, h⟩ := bind_eq_ok.mp h
    cases h

/-- A slot of a `put` that ends with an error leaves every object and every counter as it was
exactly when it was written before, or no device that it gets to has anything to evict for it. -/
theorem failed_slot_harms_no_bystander {inner : Inner} {mem : UserMemory} {key : Key} {op : OpPut}
    {writable : List Bool} {reserved st st' : State} {done : List (Result Unit)} {ps : PutSlot}
    {e : Error} (hbefore : Reaches inner mem key op writable reserved done st)
    (hafter : Reaches inner mem key op writable reserved (done ++ [.error e]) st')
    (hps : op.slots[done.length]? = some ps) :
    ((∀ other, st'.objects.find? other = st.objects.find? other) ∧
      ∀ device, (st'.pools device).map Pool.used = (st.pools device).map Pool.used) ↔
    (writable[done.length]? = some true → Spares inner st key ps.spec) := by
  unfold Reaches at hafter
  rw [List.length_append, List.length_singleton, hbefore.snoc_eq hps, putSlots] at hafter
  obtain ⟨w, hw, hafter⟩ := bind_eq_ok.mp hafter
  rw [index_eq_ok.mp hw]
  cases w with
  | false =>
    obtain ⟨_, rfl⟩ := Prod.mk.inj (Except.ok.inj hafter)
    exact iff_of_true ⟨fun _ ↦ rfl, fun _ ↦ rfl⟩ fun hwritable ↦ by cases hwritable
  | true =>
    obtain ⟨⟨r, found⟩, hslot, hafter⟩ := bind_eq_ok.mp hafter
    obtain ⟨hresults, rfl⟩ := Prod.mk.inj (Except.ok.inj hafter)
    have hr : r = .error e := List.singleton_inj.mp (List.append_cancel_left hresults)
    rw [hr] at hslot
    rw [putSlot_error_iff hslot]
    exact ⟨fun hspares _ ↦ hspares, fun hspares ↦ hspares rfl⟩

namespace Scenario

/-- A put of `len` bytes on the first device. -/
def putBytes (retention : Retention) (len : ℕ) : OpPut :=
  ⟨retention, [slotOn (.strict (.cpu 0)) len]⟩

/-- The put of one slot under the key `[3]` fails, and `check` holds of the states around it. -/
def failsWith (ps : PutSlot) (check : State → State → Bool) (w : World) : Bool :=
  (w.state.reserve [3] (OpPut.mk .cache [ps]).spec).toOption.any fun r ↦
    (putSlots (backend 2).inner w.mem [3] r.1 [ps] 0 [] r.2).toOption.any
      fun q ↦ (q.1.all fun result ↦ result.toOption.isNone) && check r.2 q.2

theorem exists_failed_slot (ps : PutSlot) (check : State → State → Bool) (ops : List Op)
    (h : (replayOps (backend 2).inner ops (memory (backend 2) mem).start).any
      (fun r ↦ failsWith ps check r.2) = true) :
    ∃ history w writable reserved st' e, (memory (backend 2) mem).Run history w ∧
      w.state.reserve [3] (OpPut.mk .cache [ps]).spec = .ok (writable, reserved) ∧
      Reaches (backend 2).inner w.mem [3] ⟨.cache, [ps]⟩ writable reserved [] reserved ∧
      Reaches (backend 2).inner w.mem [3] ⟨.cache, [ps]⟩ writable reserved [.error e] st' ∧
      check reserved st' = true := by
  obtain ⟨⟨history, w⟩, hreplay, hfails⟩ := (Option.any_eq_true _ _).mp h
  obtain ⟨⟨writable, reserved⟩, hreserve, hslots⟩ := (Option.any_eq_true _ _).mp hfails
  obtain ⟨⟨results, st'⟩, hresults, hboth⟩ := (Option.any_eq_true _ _).mp hslots
  obtain ⟨hfailed, hcheck⟩ := (Bool.and_eq_true _ _).mp hboth
  have hput := eq_ok_of_toOption hresults
  have hreserved := eq_ok_of_toOption hreserve
  -- one slot has one result, and it is an error
  obtain ⟨w₀, _, hrest⟩ := bind_eq_ok.mp hput
  obtain ⟨r, rfl⟩ : ∃ r, results = [r] := by
    cases w₀ with
    | false => exact ⟨_, (congrArg Prod.fst (Except.ok.inj hrest)).symm⟩
    | true =>
      obtain ⟨⟨r, found⟩, _, hrest⟩ := bind_eq_ok.mp hrest
      exact ⟨r, (congrArg Prod.fst (Except.ok.inj hrest)).symm⟩
  cases r with
  | ok u => cases hfailed
  | error e =>
    exact ⟨history, w, writable, reserved, st', e, steps_of_replayOps mem ops hreplay, hreserved,
      rfl, hput, hcheck⟩

/-- Two bytes on the first device. -/
def twoBytes : PutSlot := slotOn (.strict (.cpu 0)) 2

/-- Of the two bytes on a full device only one can be evicted: a put of two bytes fails, and the
object with that byte is gone. -/
theorem failed_slot_evicts_bystander : ∃ history w writable reserved st' e,
    (memory (backend 2) mem).Run history w ∧
      w.state.reserve [3] (OpPut.mk .cache [twoBytes]).spec = .ok (writable, reserved) ∧
      Reaches (backend 2).inner w.mem [3] ⟨.cache, [twoBytes]⟩ writable reserved [] reserved ∧
      Reaches (backend 2).inner w.mem [3] ⟨.cache, [twoBytes]⟩ writable reserved [.error e] st' ∧
      (reserved.objects.find? [1]).isSome = true ∧ (st'.objects.find? [1]).isNone = true ∧
      (reserved.pools (.cpu 0)).map Pool.used = some 2 ∧
      (st'.pools (.cpu 0)).map Pool.used = some 1 := by
  obtain ⟨history, w, writable, reserved, st', e, hrun, hreserve, hbefore, hafter, hcheck⟩ :=
    exists_failed_slot twoBytes (fun st st' ↦
      (st.objects.find? [1]).isSome && (st'.objects.find? [1]).isNone &&
        decide ((st.pools (.cpu 0)).map Pool.used = some 2) &&
        decide ((st'.pools (.cpu 0)).map Pool.used = some 1))
      [registerBuffer, .put [1] (putBytes .cache 1), .put [2] (putBytes .explicit 1)]
      (by rfl)
  simp only [Bool.and_eq_true, decide_eq_true_eq] at hcheck
  obtain ⟨⟨⟨hthere, hgone⟩, hused⟩, hused'⟩ := hcheck
  exact ⟨history, w, writable, reserved, st', e, hrun, hreserve, hbefore, hafter, hthere, hgone,
    hused, hused'⟩

/-- One byte on a device nobody serves and on the first one. -/
def unservedFirst : PutSlot := slotOn (.each [.cpu 7, .cpu 0]) 1

/-- An `Each` list that begins with a device nobody serves fails there. The next device is full of
bytes that could be evicted, but it is not tried. -/
theorem failed_slot_harms_no_bystander_unserved_first : ∃ history w writable reserved st' e,
    (memory (backend 2) mem).Run history w ∧
      Reaches (backend 2).inner w.mem [3] ⟨.cache, [unservedFirst]⟩ writable reserved [.error e]
        st' ∧
      (reserved.objects.find? [1]).isSome = true ∧
      (reserved.pools (.cpu 0)).map Pool.used = some 2 ∧
      st'.objects.find? [1] = reserved.objects.find? [1] ∧
      (st'.pools (.cpu 0)).map Pool.used = some 2 := by
  obtain ⟨history, w, writable, reserved, st', e, hrun, hreserve, hbefore, hafter, hcheck⟩ :=
    exists_failed_slot unservedFirst (fun st _ ↦ (st.objects.find? [1]).isSome &&
        decide ((st.pools (.cpu 0)).map Pool.used = some 2) && (st.pools (.cpu 7)).isNone)
      [registerBuffer, .put [1] (putBytes .cache 1), .put [2] (putBytes .cache 1)] (by rfl)
  simp only [Bool.and_eq_true, decide_eq_true_eq] at hcheck
  obtain ⟨⟨hthere, hused⟩, hunserved⟩ := hcheck
  have hnone : reserved.pools (.cpu 7) = none := Option.isNone_iff_eq_none.mp hunserved
  have hspares : Spares (backend 2).inner reserved [3] unservedFirst.spec := by
    intro c hc
    cases hc with
    | here =>
      intro pool cap hsome
      rw [hnone] at hsome
      cases hsome
    | later hroom _ =>
      obtain ⟨pool, hsome, _⟩ := hroom rfl
      rw [hnone] at hsome
      cases hsome
  obtain ⟨hobjects, hcounters⟩ :=
    (failed_slot_harms_no_bystander hbefore hafter rfl).mpr fun _ ↦ hspares
  exact ⟨history, w, writable, reserved, st', e, hrun, hafter, hthere, hused, hobjects [1],
    (hcounters (.cpu 0)).trans hused⟩

end Scenario

end Pegastore.Memory
