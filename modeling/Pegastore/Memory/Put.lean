import Pegastore.Memory.Queue

/-!
# What a put does

`put` reserves its key (`Reserved`) and then treats its slots in order (`holds_putSlots`, the rule
of that loop). `PutProgress` is the invariant: which slots have landed and with what, that
everything else under the key is untouched, that objects which are not `Cache` objects keep their
replicas, and how far queues, counters and capacities have moved. `holds_put` is the specification
of the whole call, with the panics it can end in. It also keeps, for every slot, the state in which
the slot was decided (`SlotsDecided`).
-/

set_option autoImplicit false
set_option relaxedAutoImplicit false

namespace Pegastore.Memory

open Outcome ByteMemory

/-! ### Reserving the key -/

/-- Phase 1 accepted the request: the key is present with the spec, nothing else has changed, and
the writable slots are the empty ones. -/
structure Reserved (kb : Key) (spec : ObjectSpec) (before : State) (writable : List Bool)
    (after : State) : Prop where
  spec_before : specAt before.objects kb = none ∨ specAt before.objects kb = some spec
  spec_self : specAt after.objects kb = some spec
  spec_other : ∀ key, key ≠ kb → specAt after.objects key = specAt before.objects key
  replicas : ∀ key i, replicasAt after.objects key i = replicasAt before.objects key i
  owned : ∀ device, ownedOn device after.objects = ownedOn device before.objects
  pools : after.pools = before.pools
  length : writable.length = spec.slots.length
  writable_iff : ∀ i w, writable[i]? = some w →
    (w = true ↔ replicasAt before.objects kb i = [])

theorem State.reserve_ok {st : State} {kb : Key} {spec : ObjectSpec} {writable : List Bool}
    {after : State} (h : st.reserve kb spec = .ok (writable, after)) :
    Reserved kb spec st writable after := by
  unfold State.reserve at h
  cases hfind : st.objects.find? kb with
  | some obj =>
    rw [hfind] at h
    dsimp only at h
    split_ifs at h with hspec
    cases h
    have hself : specAt st.objects kb = some spec := by
      rw [specAt, hfind, Option.map_some, not_not.mp hspec]
    refine ⟨Or.inr hself, hself, fun _ _ ↦ rfl, fun _ _ ↦ rfl, fun _ ↦ rfl, rfl, ?_, ?_⟩
    · rw [List.length_map, obj.slots_length, not_not.mp hspec]
    · intro i w hw
      obtain ⟨slot, hslot, rfl⟩ :
          ∃ slot, obj.slots[i]? = some slot ∧ slot.replicas.isEmpty = w := by
        simpa using hw
      rw [replicasAt_of_find? hfind, Object.replicasOf_of_getElem? hslot, List.isEmpty_iff]
  | none =>
    rw [hfind] at h
    cases h
    have hnone : specAt st.objects kb = none := by simp [specAt, hfind]
    refine ⟨Or.inl hnone, ?_, ?_, ?_, ?_, rfl, List.length_replicate, ?_⟩
    · rw [specAt_insert, if_pos rfl, Object.fresh_spec]
    · intro key hkey
      rw [specAt_insert, if_neg hkey.symm]
    · intro key i
      rw [replicasAt_insert]
      split_ifs with hkey
      · subst hkey
        rw [Object.replicasOf_fresh, replicasAt_of_find?_none hfind]
      · rfl
    · intro device
      rw [ownedOn_insert_of_none device _ hfind, Object.ownedOn_fresh, Nat.add_zero]
    · intro i w hw
      have htrue : w = true := (List.mem_replicate.mp (List.mem_of_getElem? hw)).2
      simp [htrue, replicasAt_of_find?_none hfind]

theorem Reserved.accounted {kb : Key} {spec : ObjectSpec} {before after : State}
    {writable : List Bool} (h : Reserved kb spec before writable after) (hacc : Accounted before) :
    Accounted after := by
  intro device pool hpool
  rw [h.pools] at hpool
  rw [h.owned device]
  exact hacc device pool hpool

/-! ### The slot loop -/

/-- The rule of the slot loop: an invariant of the results so far and the state. -/
theorem holds_putSlots {inner : Inner} {mem : UserMemory} {kb : Key} {writable : List Bool}
    {slots : List PutSlot} {I : List (Result Unit) → State → Prop} {E : Panic → Prop}
    (hlength : writable.length = slots.length)
    (hskip : ∀ done st, I done st → writable[done.length]? = some false →
      I (done ++ [.error (slotWritten done.length)]) st)
    (hslot : ∀ done ps st, I done st → slots[done.length]? = some ps →
      writable[done.length]? = some true →
      Holds (putSlot inner mem kb done.length ps st) (fun r ↦ I (done ++ [r.1]) r.2) E)
    (rest : List PutSlot) : ∀ (done : List (Result Unit)) (st : State),
      slots.drop done.length = rest → I done st → done.length ≤ slots.length →
      Holds (putSlots inner mem kb writable rest done.length done st)
        (fun r ↦ I r.1 r.2 ∧ r.1.length = slots.length) E := by
  induction rest with
  | nil =>
    intro done st hdrop hI hle
    refine ⟨hI, ?_⟩
    have := List.drop_eq_nil_iff.mp hdrop
    simp only
    omega
  | cons ps rest ih =>
    intro done st hdrop hI hle
    have hps : slots[done.length]? = some ps := by
      rw [← List.head?_drop, hdrop, List.head?_cons]
    have hlt : done.length < slots.length := (List.getElem?_eq_some_iff.mp hps).1
    have hnext (r : Result Unit) : slots.drop (done ++ [r]).length = rest := by
      rw [List.length_append, List.length_singleton, ← List.tail_drop, hdrop, List.tail_cons]
    have hbound : done.length < writable.length := by omega
    have hw : writable[done.length]? = some writable[done.length] := List.getElem?_eq_getElem hbound
    unfold putSlots
    rw [index_eq_ok.mpr hw, ok_bind]
    cases hwritable : writable[done.length] with
    | false =>
      have hI' := hskip done st hI (by rw [hw, hwritable])
      have hrec := ih _ st (hnext _) hI' (by simp; omega)
      simpa using hrec
    | true =>
      simp only [Bool.not_true, Bool.false_eq_true, if_false]
      refine (hslot done ps st hI hps (by rw [hw, hwritable])).bind ?_
      rintro ⟨r, st'⟩ _ hI'
      have hrec := ih _ st' (hnext r) hI' (by simp; omega)
      simpa using hrec

theorem putSlots_append (inner : Inner) (mem : UserMemory) (kb : Key) (writable : List Bool)
    (first second : List PutSlot) : ∀ (i : ℕ) (results : List (Result Unit)) (st : State),
      putSlots inner mem kb writable (first ++ second) i results st =
        putSlots inner mem kb writable first i results st >>= fun r ↦
          putSlots inner mem kb writable second (i + first.length) r.1 r.2 := by
  induction first with
  | nil =>
    intro i results st
    rfl
  | cons ps rest ih =>
    intro i results st
    have hnext : i + (ps :: rest).length = i + 1 + rest.length := by
      rw [List.length_cons]
      omega
    rw [List.cons_append, putSlots, putSlots, hnext]
    cases index writable i with
    | error p => rfl
    | ok w =>
      rw [ok_bind, ok_bind]
      cases w with
      | false => exact ih (i + 1) _ st
      | true =>
        simp only [Bool.not_true, Bool.false_eq_true, if_false]
        cases putSlot inner mem kb i ps st with
        | error p => rfl
        | ok r => exact ih (i + 1) _ r.2

/-- The results so far stay. -/
theorem prefix_of_putSlots {inner : Inner} {mem : UserMemory} {kb : Key} {writable : List Bool}
    {final : List (Result Unit)} {st' : State} (slots : List PutSlot) :
    ∀ (i : ℕ) (results : List (Result Unit)) (st : State),
      putSlots inner mem kb writable slots i results st = .ok (final, st') → results <+: final := by
  induction slots with
  | nil =>
    intro i results st h
    cases h
    exact List.prefix_rfl
  | cons ps slots ih =>
    intro i results st h
    rw [putSlots] at h
    obtain ⟨w, _, h⟩ := bind_eq_ok.mp h
    split_ifs at h
    · exact (List.prefix_append _ _).trans (ih (i + 1) _ st h)
    · obtain ⟨⟨r, after⟩, _, h⟩ := bind_eq_ok.mp h
      exact (List.prefix_append _ _).trans (ih (i + 1) _ after h)

/-- Phase 2 of the request, run on the slots that have results, ends in `st`. -/
def Reaches (inner : Inner) (mem : UserMemory) (kb : Key) (op : OpPut) (writable : List Bool)
    (reserved : State) (done : List (Result Unit)) (st : State) : Prop :=
  putSlots inner mem kb writable (op.slots.take done.length) 0 [] reserved = .ok (done, st)

namespace Reaches

variable {inner : Inner} {mem : UserMemory} {kb : Key} {op : OpPut} {writable : List Bool}
  {reserved st : State} {done : List (Result Unit)} {ps : PutSlot}

theorem snoc_eq (h : Reaches inner mem kb op writable reserved done st)
    (hps : op.slots[done.length]? = some ps) :
    putSlots inner mem kb writable (op.slots.take (done.length + 1)) 0 [] reserved =
      putSlots inner mem kb writable [ps] done.length done st := by
  have hlength : (op.slots.take done.length).length = done.length := by
    rw [List.length_take]
    have hlt := (List.getElem?_eq_some_iff.mp hps).1
    omega
  rw [List.take_add_one, hps, Option.toList_some, putSlots_append]
  unfold Reaches at h
  rw [h, ok_bind, hlength, Nat.zero_add]

theorem written (h : Reaches inner mem kb op writable reserved done st)
    (hps : op.slots[done.length]? = some ps) (hw : writable[done.length]? = some false) :
    Reaches inner mem kb op writable reserved (done ++ [.error (slotWritten done.length)]) st := by
  unfold Reaches
  rw [List.length_append, List.length_singleton, h.snoc_eq hps, putSlots, index_eq_ok.mpr hw]
  rfl

theorem slot (h : Reaches inner mem kb op writable reserved done st) {r : Result Unit}
    {after : State} (hps : op.slots[done.length]? = some ps)
    (hw : writable[done.length]? = some true)
    (heq : putSlot inner mem kb done.length ps st = .ok (r, after)) :
    Reaches inner mem kb op writable reserved (done ++ [r]) after := by
  unfold Reaches
  rw [List.length_append, List.length_singleton, h.snoc_eq hps, putSlots, index_eq_ok.mpr hw]
  simp only [ok_bind, Bool.not_true, Bool.false_eq_true, if_false, heq]
  rfl

end Reaches

/-- The bytes that the slots of a request can charge to one device. -/
def demand (slots : List PutSlot) : ℕ :=
  (slots.map fun ps ↦ copies ps.spec.placement * ps.spec.len).sum

theorem demand_take_succ {slots : List PutSlot} {i : ℕ} {ps : PutSlot} (h : slots[i]? = some ps) :
    demand (slots.take (i + 1)) =
      demand (slots.take i) + copies ps.spec.placement * ps.spec.len := by
  rw [List.take_add_one, h]
  simp [demand]

theorem demand_take_le (slots : List PutSlot) (i : ℕ) : demand (slots.take i) ≤ demand slots := by
  have hsub : (slots.take i).Sublist slots := List.take_sublist i slots
  exact (hsub.map _).sum_le_sum fun _ _ ↦ Nat.zero_le _

/-- Slot `i` was empty and now holds exactly the replicas this request stored. -/
def Landed (inner : Inner) (mem : UserMemory) (kb : Key) (i : ℕ) (ps : PutSlot)
    (first st : State) : Prop :=
  replicasAt first.objects kb i = [] ∧ ∃ targets, targets ≠ [] ∧
    targets.Sublist (inner.candidates ps.spec.placement) ∧
    targets.length ≤ copies ps.spec.placement ∧
    replicasAt st.objects kb i = ownedReplicas targets (readAll mem (segsOf ps.src))

/-- No pool with a capacity holds more than it. -/
def WithinCapacity (st : State) : Prop :=
  ∀ device pool cap, st.pools device = some pool → pool.capacity = some cap → pool.used ≤ cap

/-- The placement names no device twice. -/
def DistinctDevices : Placement → Prop
  | .each ds => ds.Nodup
  | _ => True

theorem hits_le_one {inner : Inner} {placement : Placement} {targets : List (Device × Bool)}
    (hdistinct : DistinctDevices placement)
    (hsub : targets.Sublist (inner.candidates placement))
    (hlen : targets.length ≤ copies placement) (device : Device) : hits targets device ≤ 1 := by
  cases placement with
  | each ds =>
    have hmap : (targets.map Prod.fst).Sublist ds := by
      have h := hsub.map Prod.fst
      simpa [Inner.candidates, Function.comp_def] using h
    exact (hmap.count_le device).trans (List.nodup_iff_count_le_one.mp hdistinct device)
  | strict d => exact (hits_le_length targets device).trans hlen
  | prefer d => exact (hits_le_length targets device).trans hlen
  | anywhere => exact (hits_le_length targets device).trans hlen

/-- The entries a `put` has queued: in slot order, of landed slots, and one for every replica. -/
structure PutQueued (kb : Key) (done : List (Result Unit)) (st : State)
    (added : Device → List ℕ) : Prop where
  sorted : ∀ device, (added device).Pairwise (· ≤ ·)
  landed : ∀ device i, i ∈ added device → done[i]? = some (.ok ())
  covers : ∀ device i r, done[i]? = some (.ok ()) → r ∈ replicasAt st.objects kb i →
    r.ownedOn device = true → i ∈ added device

/-- How far a `put` has come from the state `first` before it, with the results so far. -/
structure PutProgress (inner : Inner) (mem : UserMemory) (kb : Key) (op : OpPut) (first : State)
    (done : List (Result Unit)) (st : State) : Prop where
  accounted : Accounted st
  spec_before : specAt first.objects kb = none ∨ specAt first.objects kb = some op.spec
  spec_self : specAt st.objects kb = some op.spec
  landed : ∀ i ps, op.slots[i]? = some ps → done[i]? = some (.ok ()) →
    Landed inner mem kb i ps first st
  kept : ∀ i, done[i]? ≠ some (.ok ()) →
    replicasAt st.objects kb i = replicasAt first.objects kb i
  explicit_other : ∀ key spec, key ≠ kb → specAt first.objects key = some spec →
    spec.retention ≠ .cache → specAt st.objects key = some spec ∧
      ∀ i, replicasAt st.objects key i = replicasAt first.objects key i
  pools_isSome : ∀ device, (st.pools device).isSome = (first.pools device).isSome
  pools : ∀ device pool', st.pools device = some pool' → ∃ pool, first.pools device = some pool ∧
    pool'.capacity = pool.capacity ∧
    pool'.used ≤ pool.used + demand (op.slots.take done.length)
  within : (∀ ps ∈ op.slots, DistinctDevices ps.spec.placement) → WithinCapacity first →
    WithinCapacity st
  drained : ∃ gone added, Drained kb gone added first st ∧ PutQueued kb done st added
  reclaimed : ∀ key, key ≠ kb → Reclaimed first.objects st.objects key

theorem getElem?_snoc_eq_ok {done : List (Result Unit)} {r : Result Unit} {i : ℕ} :
    (done ++ [r])[i]? = some (.ok ()) ↔
      done[i]? = some (.ok ()) ∨ (i = done.length ∧ r = .ok ()) := by
  rw [List.getElem?_append]
  split_ifs with h
  · simp [Nat.ne_of_lt h]
  · have hnone : done[i]? = none := List.getElem?_eq_none_iff.mpr (not_lt.mp h)
    by_cases hi : i = done.length
    · simp [hi]
    · have : ¬ i - done.length = 0 := by omega
      simp [hnone, hi, this]

namespace PutProgress

variable {inner : Inner} {mem : UserMemory} {kb : Key} {op : OpPut} {first st : State}
  {done : List (Result Unit)}

theorem spec_other (h : PutProgress inner mem kb op first done st) {key : Key} {spec : ObjectSpec}
    (hkey : key ≠ kb) (hspec : specAt st.objects key = some spec) :
    specAt first.objects key = some spec := by
  obtain ⟨_, _, hdrained, _⟩ := h.drained
  exact hdrained.spec_of key spec hkey hspec

theorem sublist_other (h : PutProgress inner mem kb op first done st) {key : Key} (hkey : key ≠ kb)
    (i : ℕ) : (replicasAt st.objects key i).Sublist (replicasAt first.objects key i) := by
  obtain ⟨_, _, hdrained, _⟩ := h.drained
  exact hdrained.sublist key i hkey

/-- A queued entry was queued before, or belongs to the key and to a slot of the request. -/
theorem mem_fifo (h : PutProgress inner mem kb op first done st)
    (hle : done.length ≤ op.slots.length) {device : Device} {pool' : Pool}
    (hpool' : st.pools device = some pool') {entry : FifoEntry} (hentry : entry ∈ pool'.fifo) :
    ∃ pool, first.pools device = some pool ∧
      (entry ∈ pool.fifo ∨ (entry.1 = kb ∧ entry.2.toNat < op.slots.length)) := by
  obtain ⟨gone, added, hdrained, hqueued⟩ := h.drained
  obtain ⟨pool, kept, hpool, hmoved⟩ := hdrained.queues device pool' hpool'
  refine ⟨pool, hpool, ?_⟩
  rw [hmoved.after_eq] at hentry
  rcases List.mem_append.mp hentry with hkept | hnew
  · exact Or.inl (hmoved.sublist.subset hkept)
  · obtain ⟨i, hi, rfl⟩ := List.mem_map.mp hnew
    refine Or.inr ⟨rfl, ?_⟩
    have hlt : i < done.length := (List.getElem?_eq_some_iff.mp (hqueued.landed device i hi)).1
    have hmod : (UInt32.ofNat i).toNat ≤ i := Nat.mod_le _ _
    change (UInt32.ofNat i).toNat < op.slots.length
    omega

theorem start {writable : List Bool} (h : Reserved kb op.spec first writable st)
    (hacc : Accounted first) : PutProgress inner mem kb op first [] st where
  accounted := h.accounted hacc
  spec_before := h.spec_before
  spec_self := h.spec_self
  landed := by simp
  kept := fun i _ ↦ h.replicas kb i
  explicit_other := fun key spec hkey hspec _ ↦
    ⟨(h.spec_other key hkey).trans hspec, h.replicas key⟩
  pools_isSome := fun device ↦ by rw [h.pools]
  pools := by
    intro device pool hpool
    rw [h.pools] at hpool
    exact ⟨pool, hpool, rfl, by omega⟩
  within := by
    intro _ hwithin device pool cap hpool
    rw [h.pools] at hpool
    exact hwithin device pool cap hpool
  drained := by
    refine ⟨fun _ ↦ [], fun _ ↦ [], ?_, by simp, by simp, by simp⟩
    refine Drained.of_unchanged h.spec_other (fun key i _ ↦ h.replicas key i) ?_
    intro device pool hpool
    rw [h.pools] at hpool
    exact ⟨pool, hpool, (List.append_nil _).symm⟩
  reclaimed := fun key _ ↦ Reclaimed.of_replicas_eq (h.replicas key)

/-- A slot that reports an error and changes nothing. -/
theorem failed (h : PutProgress inner mem kb op first done st) (e : Error) :
    PutProgress inner mem kb op first (done ++ [.error e]) st where
  accounted := h.accounted
  spec_before := h.spec_before
  spec_self := h.spec_self
  landed := by
    intro i ps hps hok
    rcases getElem?_snoc_eq_ok.mp hok with hok | ⟨_, hr⟩
    · exact h.landed i ps hps hok
    · cases hr
  kept := by
    intro i hne
    exact h.kept i fun hok ↦ hne (getElem?_snoc_eq_ok.mpr (Or.inl hok))
  explicit_other := h.explicit_other
  pools_isSome := h.pools_isSome
  pools := by
    intro device pool' hpool
    obtain ⟨pool, hfirst, hcap, hused⟩ := h.pools device pool' hpool
    refine ⟨pool, hfirst, hcap, hused.trans ?_⟩
    rw [List.length_append, List.length_singleton]
    have hsub := (List.take_sublist_take_left (l := op.slots) (Nat.le_succ done.length))
    exact Nat.add_le_add_left ((hsub.map _).sum_le_sum fun _ _ ↦ Nat.zero_le _) _
  within := h.within
  drained := by
    obtain ⟨gone, added, hdrained, hqueued⟩ := h.drained
    refine ⟨gone, added, hdrained, hqueued.sorted, ?_, ?_⟩
    · intro device i hi
      exact getElem?_snoc_eq_ok.mpr (Or.inl (hqueued.landed device i hi))
    · intro device i r hok
      rcases getElem?_snoc_eq_ok.mp hok with hok | ⟨_, hr⟩
      · exact hqueued.covers device i r hok
      · cases hr
  reclaimed := h.reclaimed

/-- Making room for the next slot. -/
theorem rooms (h : PutProgress inner mem kb op first done st) {mid : State}
    (hrooms : RoomSteps kb st mid) : PutProgress inner mem kb op first done mid where
  accounted := hrooms.accounted h.accounted
  spec_before := h.spec_before
  spec_self := hrooms.protected_kept.1 _ h.spec_self
  landed := by
    intro i ps hps hok
    obtain ⟨hempty, targets, hne, hsub, hlen, hreplicas⟩ := h.landed i ps hps hok
    exact ⟨hempty, targets, hne, hsub, hlen, (hrooms.protected_kept.2 i).trans hreplicas⟩
  kept := fun i hne ↦ (hrooms.protected_kept.2 i).trans (h.kept i hne)
  explicit_other := by
    intro key spec hkey hspec hret
    obtain ⟨hst, hreplicas⟩ := h.explicit_other key spec hkey hspec hret
    obtain ⟨hmid, hkept⟩ := hrooms.explicit_kept hst hret
    exact ⟨hmid, fun i ↦ (hkept i).trans (hreplicas i)⟩
  pools_isSome := fun device ↦ (hrooms.pools_isSome device).trans (h.pools_isSome device)
  pools := by
    intro device pool'' hpool
    obtain ⟨pool', hst, hcap', hused', _⟩ := hrooms.pools_of_last hpool
    obtain ⟨pool, hfirst, hcap, hused⟩ := h.pools device pool' hst
    exact ⟨pool, hfirst, hcap'.trans hcap, hused'.trans hused⟩
  within := by
    intro hdistinct hwithin device pool'' cap hpool hcap
    obtain ⟨pool', hst, hcap', hused', _⟩ := hrooms.pools_of_last hpool
    exact hused'.trans (h.within hdistinct hwithin device pool' cap hst (hcap' ▸ hcap))
  drained := by
    obtain ⟨gone, added, hdrained, hqueued⟩ := h.drained
    obtain ⟨gone', hdrained'⟩ := Drained.of_rooms hrooms
    refine ⟨_, added, by simpa using hdrained.trans hdrained', hqueued.sorted, hqueued.landed, ?_⟩
    intro device i r hok hr
    rw [hrooms.protected_kept.2 i] at hr
    exact hqueued.covers device i r hok hr
  reclaimed := fun key hkey ↦
    (h.reclaimed key hkey).trans (hrooms.reclaimed key) fun _ hspec ↦ hrooms.spec_of_last hspec

theorem within_stored (h : PutProgress inner mem kb op first done st) {ps : PutSlot} {after : State}
    {targets : List (Device × Bool)} {bytes : List UInt8} (hps : ps ∈ op.slots)
    (hsub : targets.Sublist (inner.candidates ps.spec.placement))
    (hlen : targets.length ≤ copies ps.spec.placement)
    (hroomy : ∀ t ∈ targets, Roomy st t.1 ps.spec.len)
    (hstored : Stored kb done.length ps.spec.len targets bytes st after)
    (hdistinct : ∀ ps ∈ op.slots, DistinctDevices ps.spec.placement)
    (hwithin : WithinCapacity first) : WithinCapacity after := by
  intro device pool' cap hpool' hcap
  rw [hstored.pools device] at hpool'
  obtain ⟨pool, hpool, rfl⟩ := Option.map_eq_some_iff.mp hpool'
  have hone : hits targets device ≤ 1 := hits_le_one (hdistinct ps hps) hsub hlen device
  have hbefore := h.within hdistinct hwithin device pool cap hpool hcap
  change pool.used + hits targets device * ps.spec.len ≤ cap
  rcases Nat.eq_zero_or_pos (hits targets device) with hzero | hpos
  · rw [hzero, Nat.zero_mul]
    exact hbefore
  · obtain ⟨t, ht, hdevice⟩ := List.mem_map.mp (List.count_pos_iff.mp hpos)
    have hhits : hits targets device = 1 := by omega
    rw [hhits, Nat.one_mul]
    exact hroomy t ht pool cap (hdevice ▸ hpool) hcap

theorem drained_stored (h : PutProgress inner mem kb op first done st) {len : ℕ} {after : State}
    {targets : List (Device × Bool)} {bytes : List UInt8}
    (hempty : replicasAt first.objects kb done.length = [])
    (hstored : Stored kb done.length len targets bytes st after) :
    ∃ gone added, Drained kb gone added first after ∧
      PutQueued kb (done ++ [.ok ()]) after added := by
  obtain ⟨gone, added, hdrained, hqueued⟩ := h.drained
  refine ⟨_, _, hdrained.trans (Drained.of_stored hstored), ?_, ?_, ?_⟩
  · intro device
    refine List.pairwise_append.mpr ⟨hqueued.sorted device,
      List.pairwise_replicate.mpr (Or.inr le_rfl), ?_⟩
    intro i hi j hj
    have hlt := (List.getElem?_eq_some_iff.mp (hqueued.landed device i hi)).1
    rw [(List.mem_replicate.mp hj).2]
    omega
  · intro device i hi
    rcases List.mem_append.mp hi with hi | hi
    · exact getElem?_snoc_eq_ok.mpr (Or.inl (hqueued.landed device i hi))
    · exact getElem?_snoc_eq_ok.mpr (Or.inr ⟨(List.mem_replicate.mp hi).2, rfl⟩)
  · intro device i r hok hr howned
    rcases getElem?_snoc_eq_ok.mp hok with hok | ⟨rfl, _⟩
    · have hlt : i < done.length := (List.getElem?_eq_some_iff.mp hok).1
      rw [hstored.replicas_other (Or.inr (Nat.ne_of_lt hlt))] at hr
      exact List.mem_append_left _ (hqueued.covers device i r hok hr howned)
    · rw [hstored.replicas_self, h.kept done.length (by simp), hempty, List.nil_append] at hr
      obtain ⟨t, ht, rfl⟩ := List.mem_map.mp hr
      have hdevice : t.1 = device := (ReplicaEntry.ownedOn_iff.mp howned).1
      have hpos : 0 < hits targets device :=
        List.count_pos_iff.mpr (hdevice ▸ List.mem_map_of_mem ht)
      exact List.mem_append_right _ (List.mem_replicate.mpr ⟨by omega, rfl⟩)

/-- Storing the next slot, which was empty. -/
theorem stored (h : PutProgress inner mem kb op first done st) {ps : PutSlot} {after : State}
    {targets : List (Device × Bool)} {device : Device} (hps : op.slots[done.length]? = some ps)
    (hvalid : ValidIovs ps.src device ps.spec.len)
    (hempty : replicasAt first.objects kb done.length = []) (hne : targets ≠ [])
    (hsub : targets.Sublist (inner.candidates ps.spec.placement))
    (hlen : targets.length ≤ copies ps.spec.placement)
    (hroomy : ∀ t ∈ targets, Roomy st t.1 ps.spec.len)
    (hstored : Stored kb done.length ps.spec.len targets (readAll mem (segsOf ps.src)) st after) :
    PutProgress inner mem kb op first (done ++ [.ok ()]) after where
  accounted := hstored.accounted (length_readAll_of_valid mem hvalid) h.accounted
  spec_before := h.spec_before
  spec_self := (hstored.spec_eq kb).trans h.spec_self
  landed := by
    intro i other hother hok
    rcases getElem?_snoc_eq_ok.mp hok with hok | ⟨rfl, _⟩
    · have hlt : i < done.length := (List.getElem?_eq_some_iff.mp hok).1
      obtain ⟨hempty, targets, hne, hsub, hlen, hreplicas⟩ := h.landed i other hother hok
      refine ⟨hempty, targets, hne, hsub, hlen, ?_⟩
      rw [hstored.replicas_other (Or.inr (Nat.ne_of_lt hlt)), hreplicas]
    · rw [hps, Option.some.injEq] at hother
      subst hother
      refine ⟨hempty, targets, hne, hsub, hlen, ?_⟩
      rw [hstored.replicas_self, h.kept done.length (by simp), hempty, List.nil_append]
  kept := by
    intro i hnot
    have hi : i ≠ done.length := fun hi ↦ hnot (getElem?_snoc_eq_ok.mpr (Or.inr ⟨hi, rfl⟩))
    rw [hstored.replicas_other (Or.inr hi)]
    exact h.kept i fun hok ↦ hnot (getElem?_snoc_eq_ok.mpr (Or.inl hok))
  explicit_other := by
    intro key spec hkey hspec hret
    obtain ⟨hst, hreplicas⟩ := h.explicit_other key spec hkey hspec hret
    refine ⟨(hstored.spec_eq key).trans hst, fun i ↦ ?_⟩
    rw [hstored.replicas_other (Or.inl hkey), hreplicas i]
  pools_isSome := by
    intro other
    rw [hstored.pools other, Option.isSome_map, h.pools_isSome other]
  pools := by
    intro other pool'' hpool
    rw [hstored.pools other] at hpool
    obtain ⟨pool', hst, rfl⟩ := Option.map_eq_some_iff.mp hpool
    obtain ⟨pool, hfirst, hcap, hused⟩ := h.pools other pool' hst
    refine ⟨pool, hfirst, hcap, ?_⟩
    have hhits := Nat.mul_le_mul_right ps.spec.len ((hits_le_length targets other).trans hlen)
    rw [List.length_append, List.length_singleton, demand_take_succ hps]
    simp only [chargePool]
    omega
  within := h.within_stored (List.mem_of_getElem? hps) hsub hlen hroomy hstored
  drained := h.drained_stored hempty hstored
  reclaimed := by
    intro key hkey
    refine (h.reclaimed key hkey).trans ?_ fun spec hspec ↦ ?_
    · exact Reclaimed.of_replicas_eq fun i ↦ hstored.replicas_other (Or.inl hkey)
    · exact (hstored.spec_eq key).symm.trans hspec

end PutProgress

/-- Every slot so far was found written, or was empty and decided in the state that the slots before
it led to. -/
def SlotsDecided (inner : Inner) (mem : UserMemory) (kb : Key) (op : OpPut) (first : State)
    (writable : List Bool) (reserved : State) (done : List (Result Unit)) (st : State) : Prop :=
  ∀ i r, done[i]? = some r → ∃ ps, op.slots[i]? = some ps ∧
    ((replicasAt first.objects kb i ≠ [] ∧ r = .error (slotWritten i)) ∨
      (replicasAt first.objects kb i = [] ∧ ∃ before after,
        Reaches inner mem kb op writable reserved (done.take i) before ∧
        PutProgress inner mem kb op first (done.take i) before ∧
        putSlot inner mem kb i ps before = .ok (r, after) ∧
        replicasAt st.objects kb i = replicasAt after.objects kb i))

/-- Adding the result of the next slot. -/
theorem SlotsDecided.snoc {inner : Inner} {mem : UserMemory} {kb : Key} {op : OpPut}
    {first st st' reserved : State} {writable : List Bool} {done : List (Result Unit)}
    {r : Result Unit} {ps : PutSlot}
    (h : SlotsDecided inner mem kb op first writable reserved done st)
    (hps : op.slots[done.length]? = some ps)
    (hkept : ∀ i, i < done.length → replicasAt st'.objects kb i = replicasAt st.objects kb i)
    (hnew : (replicasAt first.objects kb done.length ≠ [] ∧ r = .error (slotWritten done.length)) ∨
      (replicasAt first.objects kb done.length = [] ∧ ∃ before after,
        Reaches inner mem kb op writable reserved done before ∧
        PutProgress inner mem kb op first done before ∧
        putSlot inner mem kb done.length ps before = .ok (r, after) ∧
        replicasAt st'.objects kb done.length = replicasAt after.objects kb done.length)) :
    SlotsDecided inner mem kb op first writable reserved (done ++ [r]) st' := by
  intro i found hfound
  by_cases hi : i < done.length
  · rw [List.getElem?_append_left hi] at hfound
    obtain ⟨other, hother, hcase⟩ := h i found hfound
    refine ⟨other, hother, ?_⟩
    rw [List.take_append_of_le_length hi.le, hkept i hi]
    exact hcase
  · have hlast : i = done.length ∧ r = found := by
      obtain ⟨hlt, _⟩ := List.getElem?_eq_some_iff.mp hfound
      rw [List.length_append, List.length_singleton] at hlt
      have hi' : i = done.length := by omega
      subst hi'
      simpa using hfound
    obtain ⟨rfl, rfl⟩ := hlast
    refine ⟨ps, hps, ?_⟩
    rw [List.take_left]
    exact hnew

/-- The panics of a whole `put`, in terms of the state before it. -/
def PutPanic (kb : Key) (op : OpPut) (first : State) (p : Panic) : Prop :=
  (p = .indexOutOfBounds ∧ ∃ device pool entry, first.pools device = some pool ∧
    entry ∈ pool.fifo ∧ entry.1 ≠ kb ∧ Dangling first.objects entry) ∨
  (p = .addOverflow ∧ ∃ device pool, first.pools device = some pool ∧
    2 ^ 64 ≤ pool.used + demand op.slots) ∨
  (p = .capacityOverflow ∧ ∃ ps ∈ op.slots, isizeMax < ps.spec.len)

theorem PutProgress.panic {inner : Inner} {mem : UserMemory} {kb : Key} {op : OpPut}
    {first st : State} {done : List (Result Unit)} {ps : PutSlot} {p : Panic}
    (h : PutProgress inner mem kb op first done st) (hps : op.slots[done.length]? = some ps)
    (hp : SlotPanic kb ps st p) : PutPanic kb op first p := by
  have hle : done.length ≤ op.slots.length := (List.getElem?_eq_some_iff.mp hps).1.le
  rcases hp with ⟨hp, device, pool', entry, hpool, hentry, hne, spec, hspec, hret, hlen⟩ |
    ⟨hp, device, pool', hpool, hover⟩ | ⟨hp, hlen⟩
  · obtain ⟨pool, hfirst, hfifo⟩ := h.mem_fifo hle hpool hentry
    have hold : entry ∈ pool.fifo := hfifo.resolve_right fun h ↦ hne h.1
    exact Or.inl ⟨hp, device, pool, entry, hfirst, hold, hne, spec,
      h.spec_other hne hspec, hret, hlen⟩
  · obtain ⟨pool, hfirst, _, hused⟩ := h.pools device pool' hpool
    refine Or.inr (Or.inl ⟨hp, device, pool, hfirst, ?_⟩)
    have hsucc := demand_take_succ hps
    have hle := demand_take_le op.slots (done.length + 1)
    omega
  · exact Or.inr (Or.inr ⟨hp, ps, List.mem_of_getElem? hps, hlen⟩)

/-- A slot changes no other slot of its key. -/
theorem SlotDone.replicas_kept {inner : Inner} {mem : UserMemory} {kb : Key} {i : ℕ} {ps : PutSlot}
    {before after : State} {r : Result Unit} (h : SlotDone inner mem kb i ps before r after) {j : ℕ}
    (hj : j ≠ i) : replicasAt after.objects kb j = replicasAt before.objects kb j := by
  obtain ⟨mid, hrooms, ⟨_, _, rfl⟩ | ⟨_, targets, _, _, _, _, hstored⟩⟩ := h
  · exact hrooms.protected_kept.2 j
  · rw [hstored.replicas_other (Or.inr hj), hrooms.protected_kept.2 j]

/-- One decided slot, as progress. -/
theorem PutProgress.slot {inner : Inner} {mem : UserMemory} {kb : Key} {op : OpPut}
    {first st after : State} {done : List (Result Unit)} {ps : PutSlot} {device : Device}
    {r : Result Unit} (h : PutProgress inner mem kb op first done st)
    (hps : op.slots[done.length]? = some ps) (hvalid : ValidIovs ps.src device ps.spec.len)
    (hempty : replicasAt first.objects kb done.length = [])
    (hdone : SlotDone inner mem kb done.length ps st r after) :
    PutProgress inner mem kb op first (done ++ [r]) after := by
  obtain ⟨mid, hrooms, ⟨e, hr, rfl⟩ | ⟨hr, targets, hne, hsub, hlen, hroomy, hstored⟩⟩ := hdone
  · rw [hr]
    exact (h.rooms hrooms).failed e
  · rw [hr]
    exact (h.rooms hrooms).stored hps hvalid hempty hne hsub hlen hroomy hstored

/-- What a `put` that is not refused did. -/
structure PutDone (inner : Inner) (mem : UserMemory) (kb : Key) (op : OpPut) (first : State)
    (results : List (Result Unit)) (st : State) : Prop where
  length : results.length = op.slots.length
  valid : ∀ ps ∈ op.slots, ∃ device, ValidIovs ps.src device ps.spec.len
  progress : PutProgress inner mem kb op first results st
  decided : ∃ writable reserved, first.reserve kb op.spec = .ok (writable, reserved) ∧
    SlotsDecided inner mem kb op first writable reserved results st

/-- A `put` ends with a reply that refuses the request and changes nothing, or with one result per
slot and the effect `PutProgress` describes. -/
theorem holds_put (inner : Inner) (mem : UserMemory) {st : State} (key : Key) (op : OpPut)
    (hacc : Accounted st) :
    Holds (put inner mem st key op)
      (fun r ↦ (∃ e, r = (.error e, st) ∧
          (op.validate = .error e ∨ st.reserve key op.spec = .error e)) ∨
        ∃ results, r.1 = .ok ⟨results⟩ ∧ PutDone inner mem key op st results r.2)
      (PutPanic key op st) := by
  unfold put
  cases hvalidate : op.validate with
  | error e => exact Or.inl ⟨e, rfl, Or.inl rfl⟩
  | ok u =>
    have hvalid := (OpPut.validate_ok hvalidate).2
    cases hreserve : st.reserve key op.spec with
    | error e => exact Or.inl ⟨e, rfl, Or.inr rfl⟩
    | ok pair =>
      obtain ⟨writable, reserved⟩ := pair
      have hres := State.reserve_ok hreserve
      have hlength : writable.length = op.slots.length := by
        rw [hres.length, OpPut.spec, List.length_map]
      have hstart : PutProgress inner mem key op st [] reserved := PutProgress.start hres hacc
      refine (holds_putSlots (E := PutPanic key op st) (I := fun done st' ↦
        PutProgress inner mem key op st done st' ∧
        Reaches inner mem key op writable reserved done st' ∧
        SlotsDecided inner mem key op st writable reserved done st')
        hlength ?_ ?_ op.slots [] reserved rfl ⟨hstart, rfl, by simp [SlotsDecided]⟩
        (Nat.zero_le _)).bind ?_
      · rintro done st' ⟨h, hreaches, hdecided⟩ hw
        have hlt : done.length < op.slots.length := by
          rw [← hlength]
          exact (List.getElem?_eq_some_iff.mp hw).1
        have hps : op.slots[done.length]? = some op.slots[done.length] :=
          List.getElem?_eq_getElem hlt
        refine ⟨h.failed (slotWritten done.length), hreaches.written hps hw, hdecided.snoc hps
          (fun _ _ ↦ rfl) (Or.inl ⟨?_, rfl⟩)⟩
        intro hempty
        exact absurd ((hres.writable_iff _ _ hw).mpr hempty) (by simp)
      · rintro done ps st' ⟨h, hreaches, hdecided⟩ hps hw
        obtain ⟨device, hiovs⟩ := hvalid ps (List.mem_of_getElem? hps)
        have hlt : done.length < op.spec.slots.length := by
          rw [OpPut.spec, List.length_map]
          exact (List.getElem?_eq_some_iff.mp hps).1
        have hempty := (hres.writable_iff _ _ hw).mp rfl
        refine (holds_putSlot inner mem h.accounted hiovs h.spec_self hlt).with_eq.mono ?_
          fun p hp ↦ h.panic hps hp
        rintro ⟨r, after⟩ ⟨heq, hdone⟩
        refine ⟨h.slot hps hiovs hempty hdone, hreaches.slot hps hw heq, hdecided.snoc hps ?_
          (Or.inr ⟨hempty, st', after, hreaches, h, heq, rfl⟩)⟩
        intro i hi
        exact hdone.replicas_kept (Nat.ne_of_lt hi)
      · rintro ⟨results, st'⟩ _ ⟨⟨hprogress, _, hdecided⟩, hlen⟩
        exact Or.inr ⟨results, rfl, hlen, hvalid, hprogress, writable, reserved, hreserve, hdecided⟩

end Pegastore.Memory
