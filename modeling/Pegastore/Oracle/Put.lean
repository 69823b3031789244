import Pegastore.Cuda.Landing
import Pegastore.Memory.Plenty
import Pegastore.Oracle.Same

/-!
# `put` against the oracle

Both backends decide the writable slots, resolve each placement and store. They resolve differently:
the oracle tries the candidates and passes over a device it does not serve, the single-node backend
looks every named device up first. And they hold bytes differently: the oracle in a vector, the
single-node backend in a pool. With room for all slots this makes a difference for a slot to be
written in two cases only (`Servable`): `Prefer` with a device that is not served while others are,
and a slot that is placed with more bytes than a vector takes. Other slots end alike in the oracle
and in a lone `put` of the single-node backend (`slot_matches`), and the first slot outside the
condition makes the two calls differ (`slots_differ`).
-/

set_option autoImplicit false
set_option relaxedAutoImplicit false

namespace Pegastore.Oracle

open Outcome ByteMemory

/-- The same device, tier, misplaced flag and bytes. -/
structure SameReplica (mem : Memory.UserMemory) (w : Local.World) (mem' : Local.ByteSpace)
    (r : Memory.ReplicaEntry) (r' : Local.ReplicaEntry) : Prop extends
    SameBytes mem w mem' r r' where
  misplaced : r'.misplaced = r.misplaced

/-- The slots that are written, of those from index `i` on. -/
def pending (writable : List Bool) : List PutSlot → ℕ → List PutSlot
  | [], _ => []
  | ps :: slots, i =>
    if writable[i]? = some true then ps :: pending writable slots (i + 1)
    else pending writable slots (i + 1)

/-! ### Placements -/

/-- A pool as a device. -/
def onCpu (target : UInt16 × Bool) : Device × Bool := (.cpu target.1, target.2)

section Placements

variable {inner : Memory.Inner} {inner' : Local.Inner}

theorem isEach_eq (placement : Placement) : Local.isEach placement = Memory.isEach placement := by
  cases placement <;> rfl

theorem needed_map (each : Bool) (targets : List (UInt16 × Bool)) :
    Memory.needed each (targets.map onCpu) = (Local.needed each targets).map onCpu := by
  cases each with
  | true => rfl
  | false => exact (List.map_take ..).symm

theorem needed_nil (each : Bool) : Local.needed each [] = [] := by
  cases each <;> rfl

theorem eq_nil_of_needed (each : Bool) {targets : List (UInt16 × Bool)}
    (h : Local.needed each targets = []) : targets = [] := by
  cases each with
  | true => exact h
  | false =>
    cases targets with
    | nil => rfl
    | cons target targets => cases h

/-- The targets of a slot are candidates. -/
theorem mem_of_wanted {placement : Placement} {c : Device × Bool}
    (h : c ∈ inner.wanted placement) : c ∈ inner.candidates placement := by
  unfold Memory.Inner.wanted Memory.needed at h
  split_ifs at h
  · exact h
  · exact List.mem_of_mem_take h

/-- A device is a pool, or it is not served. -/
theorem numaOf_cases (hdevices : inner.deviceOrder = inner'.poolOrder.map .cpu) (d : Device) :
    (∃ numa, inner'.numaOf d = .ok numa ∧ d = .cpu numa ∧ d ∈ inner.deviceOrder) ∨
      ∃ e, inner'.numaOf d = .error e ∧ e.kind = .invalidInput ∧ d ∉ inner.deviceOrder := by
  rw [hdevices]
  cases d with
  | cpu numa =>
    unfold Local.Inner.numaOf
    dsimp only
    by_cases hmem : numa ∈ inner'.poolOrder
    · exact .inl ⟨numa, if_pos hmem, rfl, List.mem_map_of_mem hmem⟩
    · refine .inr ⟨_, if_neg hmem, rfl, fun hin ↦ hmem ?_⟩
      obtain ⟨other, hother, heq⟩ := List.mem_map.mp hin
      cases heq
      exact hother
  | gpu index =>
    refine .inr ⟨_, rfl, rfl, fun hin ↦ ?_⟩
    obtain ⟨other, _, heq⟩ := List.mem_map.mp hin
    cases heq

/-- The pools of an `Each` list, or an unserved device in it. -/
theorem each_cases (hdevices : inner.deviceOrder = inner'.poolOrder.map .cpu) (ds : List Device) :
    (∃ targets, inner'.targets (.each ds) = .ok targets ∧
      ds.map (fun d ↦ (d, false)) = targets.map onCpu ∧ ∀ d ∈ ds, d ∈ inner.deviceOrder) ∨
    ∃ e, inner'.targets (.each ds) = .error e ∧ e.kind = .invalidInput ∧
      ∃ d ∈ ds, d ∉ inner.deviceOrder := by
  induction ds with
  | nil => exact .inl ⟨[], rfl, rfl, fun d hd ↦ absurd hd List.not_mem_nil⟩
  | cons d ds ih =>
    have hcons : inner'.targets (.each (d :: ds)) = (do
        let n ← inner'.numaOf d
        let rest ← inner'.targets (.each ds)
        .ok ((n, false) :: rest)) := by
      unfold Local.Inner.targets
      dsimp only
      rw [List.mapM_cons, bind_assoc]
      rfl
    rw [hcons]
    rcases numaOf_cases hdevices d with ⟨numa, hnuma, rfl, hserved⟩ | ⟨e, hnuma, hkind, hserved⟩
    · rw [hnuma, ok_bind]
      rcases ih with ⟨targets, htargets, hmap, hall⟩ | ⟨e, htargets, hkind, other, hother, hnot⟩
      · rw [htargets, ok_bind]
        refine .inl ⟨_, rfl, ?_, fun other hother ↦ ?_⟩
        · rw [List.map_cons, List.map_cons, hmap]
          rfl
        · rcases List.mem_cons.mp hother with rfl | hother
          · exact hserved
          · exact hall other hother
      · rw [htargets]
        exact .inr ⟨e, rfl, hkind, other, List.mem_cons_of_mem _ hother, hnot⟩
    · rw [hnuma]
      exact .inr ⟨e, rfl, hkind, d, List.mem_cons_self, hserved⟩

/-- `Prefer` with a device that is not served resolves to nothing. -/
theorem targets_prefer_unserved (hdevices : inner.deviceOrder = inner'.poolOrder.map .cpu)
    {d : Device} (hunserved : d ∉ inner.deviceOrder) :
    ∃ e, inner'.targets (.prefer d) = .error e ∧ e.kind = .invalidInput := by
  rcases numaOf_cases hdevices d with ⟨_, _, _, hserved⟩ | ⟨e, hnuma, hkind, _⟩
  · exact absurd hserved hunserved
  · refine ⟨e, ?_, hkind⟩
    change (inner'.numaOf d >>= fun n ↦ .ok ((n, false) :: _)) = _
    rw [hnuma]
    rfl

/-- Both backends try the same devices, or the one finds no target and the other an unserved
device that it needs. -/
theorem targets_cases (hdevices : inner.deviceOrder = inner'.poolOrder.map .cpu)
    {placement : Placement}
    (hprefer : ∀ d, placement = .prefer d → d ∈ inner.deviceOrder ∨ inner.deviceOrder = []) :
    (∃ targets, inner'.targets placement = .ok targets ∧
      inner.candidates placement = targets.map onCpu ∧
      ∀ c ∈ inner.candidates placement, c.1 ∈ inner.deviceOrder) ∨
    ∃ e, inner'.targets placement = .error e ∧ e.kind = .invalidInput ∧
      inner.wanted placement = inner.candidates placement ∧
      ∃ c ∈ inner.candidates placement, c.1 ∉ inner.deviceOrder := by
  cases placement with
  | strict d =>
    change (∃ targets, (inner'.numaOf d >>= fun n ↦ .ok [(n, false)]) = _ ∧ _) ∨
      ∃ e, (inner'.numaOf d >>= fun n ↦ .ok [(n, false)]) = _ ∧ _
    rcases numaOf_cases hdevices d with ⟨numa, hnuma, rfl, hserved⟩ | ⟨e, hnuma, hkind, hserved⟩
    · rw [hnuma]
      refine .inl ⟨_, rfl, rfl, fun c hc ↦ ?_⟩
      rw [List.mem_singleton.mp hc]
      exact hserved
    · rw [hnuma]
      exact .inr ⟨e, rfl, hkind, rfl, _, List.mem_cons_self, hserved⟩
  | prefer d =>
    rcases numaOf_cases hdevices d with ⟨numa, hnuma, rfl, hserved⟩ | ⟨_, _, _, hserved⟩
    · change (∃ targets, (inner'.numaOf (.cpu numa) >>= fun n ↦ .ok ((n, false) :: _)) = _ ∧ _) ∨ _
      rw [hnuma]
      refine .inl ⟨_, rfl, ?_, fun c hc ↦ ?_⟩
      · have hothers : (inner'.poolOrder.filter
            ((fun x ↦ decide (x ≠ Device.cpu numa)) ∘ Device.cpu)) =
              inner'.poolOrder.filter fun x ↦ decide (x ≠ numa) := by
          refine List.filter_congr fun x _ ↦ ?_
          exact decide_eq_decide.mpr (not_congr (Iff.of_eq (Device.cpu.injEq x numa)))
        unfold Memory.Inner.candidates
        dsimp only
        rw [hdevices, List.map_cons, List.map_map, List.filter_map, List.map_map, hothers]
        rfl
      · rcases List.mem_cons.mp hc with rfl | hc
        · exact hserved
        · obtain ⟨x, hx, rfl⟩ := List.mem_map.mp hc
          exact List.mem_of_mem_filter hx
    · -- no device is served, so there is no other candidate
      obtain ⟨e, htargets, hkind⟩ := targets_prefer_unserved hdevices hserved
      have hnone : inner.deviceOrder = [] := (hprefer d rfl).resolve_left hserved
      refine .inr ⟨e, htargets, hkind, ?_, _, List.mem_cons_self, hserved⟩
      unfold Memory.Inner.wanted Memory.Inner.candidates
      dsimp only
      rw [hnone]
      rfl
  | each ds =>
    rcases each_cases hdevices ds with ⟨targets, htargets, hmap, hall⟩ |
      ⟨e, htargets, hkind, d, hd, hnot⟩
    · refine .inl ⟨targets, htargets, hmap, fun c hc ↦ ?_⟩
      obtain ⟨d, hd, rfl⟩ := List.mem_map.mp hc
      exact hall d hd
    · exact .inr ⟨e, htargets, hkind, rfl, _, List.mem_map_of_mem hd, hnot⟩
  | anywhere =>
    refine .inl ⟨_, rfl, ?_, fun c hc ↦ ?_⟩
    · unfold Memory.Inner.candidates
      rw [hdevices, List.map_map, List.map_map]
      rfl
    · obtain ⟨d, hd, rfl⟩ := List.mem_map.mp hc
      exact hd

end Placements

/-! ### One slot -/

/-- What the two backends have in common before the slots that are left: the same objects, and room
for the slots that are written. -/
structure Matched (inner : Memory.Inner) (mem : Memory.UserMemory) (inner' : Local.Inner)
    (mem' : Local.ByteSpace) (key : Key) (spec : ObjectSpec) (todo : List PutSlot)
    (live : List Local.PinnedBuf) (st : Memory.State) (w : Local.World) : Prop where
  objects : SameObjects (SameReplica mem w mem') st.objects w.state.objects
  served : ∀ device, (st.pools device).isSome = true ↔ device ∈ inner.deviceOrder
  takes : st.Takes inner todo
  staged : Local.Staged key spec live w
  takesAll : Local.TakesAll inner' todo w.pools w.nextBuf

section Slots

variable {inner : Memory.Inner} {mem : Memory.UserMemory} {inner' : Local.Inner}
  {mem' : Local.ByteSpace} {key : Key} {spec : ObjectSpec} {todo : List PutSlot}
  {live : List Local.PinnedBuf} {st : Memory.State} {w : Local.World} {i : ℕ} {ps : PutSlot}

/-- The same replicas, seen from a world in which their buffers hold the same. -/
theorem SameReplica.of_bytes {w' : Local.World} {r : Memory.ReplicaEntry} {r' : Local.ReplicaEntry}
    (h : SameReplica mem w mem' r r')
    (hbytes : ∀ b ∈ Local.bufsOf [r'], w'.bytesOf b = w.bytesOf b) :
    SameReplica mem w' mem' r r' := by
  refine ⟨⟨h.device, h.tier, ?_⟩, h.misplaced⟩
  rw [← h.content]
  obtain ⟨device, tier, misplaced, data⟩ := r'
  cases data with
  | pinned b => exact hbytes b List.mem_cons_self
  | external segs len origins => rfl

/-- The same objects, seen from a world in which their buffers hold the same. -/
theorem SameObjects.of_bytes {w' : Local.World} {objects : Memory.Objects}
    (h : SameObjects (SameReplica mem w mem') objects w.state.objects)
    (hbytes : ∀ b ∈ Local.bufsIn w.state.objects, w'.bytesOf b = w.bytesOf b) :
    SameObjects (SameReplica mem w' mem') objects w.state.objects := by
  refine h.mono fun key j slot' hslot' r r' hr' hsame ↦ hsame.of_bytes fun b hb ↦ hbytes b ?_
  refine Local.mem_bufsIn.mpr ⟨key, j, slot', hslot', ?_⟩
  unfold Local.bufsOf at hb ⊢
  obtain ⟨found, hfound, hbuf⟩ := List.mem_filterMap.mp hb
  cases List.mem_singleton.mp hfound
  exact List.mem_filterMap.mpr ⟨r', hr', hbuf⟩

/-- The objects under the key of the request. -/
theorem Matched.exists_objects (h : Matched inner mem inner' mem' key spec todo live st w)
    (hi : i < spec.slots.length) : ∃ obj obj' slot slot', st.objects.find? key = some obj ∧
      w.state.objects.find? key = some obj' ∧ obj.spec = spec ∧
      SameObject (SameReplica mem w mem') obj obj' ∧
      obj.slots[i]? = some slot ∧ obj'.slots[i]? = some slot' ∧
      List.Forall₂ (SameReplica mem w mem') slot.replicas slot'.replicas := by
  obtain ⟨obj', slot', hfind', hslot'⟩ := h.staged.exists_slot hi
  rcases h.objects.cases key with ⟨_, hnone⟩ | ⟨obj, found, hfind, hfound, hobj⟩
  · rw [hfind'] at hnone
    cases hnone
  · rw [hfind'] at hfound
    cases hfound
    obtain ⟨slot, hslot, hreplicas⟩ := hobj.exists_slot hslot'
    have hspec := h.staged.spec
    rw [Local.specAt_of_find? hfind', Option.some.injEq] at hspec
    exact ⟨obj, obj', slot, slot', hfind, hfind', hobj.spec.symm.trans hspec, hobj, hslot, hslot',
      hreplicas⟩

/-- A slot that fails leaves the objects as they are. -/
theorem Matched.unclaim (h : Matched inner mem inner' mem' key spec (ps :: todo) live st w)
    (hi : i < spec.slots.length) (htakesAll : Local.TakesAll inner' todo w.pools w.nextBuf) :
    ∃ st', w.state.unclaim key i = .ok st' ∧
      Matched inner mem inner' mem' key spec todo live st { w with state := st' } := by
  obtain ⟨obj, obj', slot, slot', hfind, hfind', _, hobj, _, hslot', _⟩ := h.exists_objects hi
  have hunclaim := Local.exists_unclaim hfind' hslot'
  refine ⟨_, hunclaim, ?_, h.served, h.takes.tail, h.staged.unclaim hunclaim, htakesAll⟩
  have hreplicas : ({ slot' with writing := false } : Local.Slot).replicas = slot'.replicas := rfl
  have hobjects := h.objects.insert_right hfind (hobj.setSlot_right hslot' hreplicas)
  exact hobjects.mono fun _ _ _ _ r r' _ hsame ↦ hsame.of_bytes fun _ _ ↦ rfl

/-- The replicas of a slot that has landed in both. -/
theorem sameReplica_placed {bytes : List UInt8} {placed : List Local.Placed}
    {targets : List (UInt16 × Bool)}
    (htargets : placed.map (fun p ↦ (p.numa, p.misplaced)) = targets)
    (hbytes : ∀ p ∈ placed, w.bytesOf p.buf = bytes) :
    List.Forall₂ (SameReplica mem w mem') (Memory.ownedReplicas (targets.map onCpu) bytes)
      (Local.pinnedReplicas placed) := by
  unfold Memory.ownedReplicas Local.pinnedReplicas
  rw [← htargets, List.map_map, List.map_map, List.forall₂_map_left_iff,
    List.forall₂_map_right_iff, List.forall₂_same]
  exact fun p hp ↦ ⟨⟨rfl, rfl, hbytes p hp⟩, rfl⟩

/-- A slot lands in both. -/
theorem Matched.land (h : Matched inner mem inner' mem' key spec (ps :: todo) live st w)
    (hi : i < spec.slots.length) {bytes : List UInt8} {targets : List (UInt16 × Bool)}
    {placed : List Local.Placed} {pools : Local.Pools} {next : ℕ} {st₁ : Memory.State}
    (hstored : Memory.Stored key i ps.spec.len (targets.map onCpu) bytes st st₁)
    (hwanted : inner.wanted ps.spec.placement = targets.map onCpu)
    (hlen : bytes.length = ps.spec.len)
    (htakes : Local.Takes inner'.checks ps.spec.len targets w.pools w.nextBuf placed pools next)
    (hrounds : Local.RoundsUp inner'.checks ps.spec.len)
    (htakesAll : Local.TakesAll inner' todo pools next) :
    ∃ st₁', w.state.store key i placed = .ok (.ok st₁') ∧
      Matched inner mem inner' mem' key spec todo ((placed.map Local.Placed.buf).reverse ++ live)
        st₁ (w.landed st₁' pools next bytes placed) := by
  obtain ⟨obj, obj', slot, slot', hfind, hfind', _, hobj, hslot, hslot', hreplicas⟩ :=
    h.exists_objects hi
  obtain ⟨st₁', hstore, hobjects', hfifo⟩ := Local.exists_store w.state i placed hfind' hslot'
    fun p hp ↦ h.staged.queued p.numa (htakes.pooled p hp)
  refine ⟨st₁', hstore, ?_, fun device ↦ ?_, ?_, h.staged.land htakes hrounds hstore bytes,
    htakesAll⟩
  · obtain ⟨found, oldSlot, hfound, holdSlot, hobjects⟩ := hstored.objects
    rw [hfind] at hfound
    cases hfound
    rw [hslot] at holdSlot
    cases holdSlot
    -- the replicas that were there still hold their bytes, and the new ones hold those stored
    have hkept : ∀ b ∈ Local.bufsIn w.state.objects,
        (w.landed st₁' pools next bytes placed).bytesOf b = w.bytesOf b :=
      fun b hb ↦ h.staged.bytesOf_land htakes hrounds st₁' bytes hb
    have hold := SameObjects.of_bytes h.objects hkept
    have hnew : List.Forall₂ (SameReplica mem (w.landed st₁' pools next bytes placed) mem')
        (Memory.ownedReplicas (targets.map onCpu) bytes) (Local.pinnedReplicas placed) :=
      sameReplica_placed htakes.targets_eq fun p hp ↦
        h.staged.bytesOf_placed (by rw [hlen]; exact htakes) (by rw [hlen]; exact hrounds) st₁' hp
    change SameObjects _ st₁.objects st₁'.objects
    rw [hobjects, hobjects']
    rcases hold.cases key with ⟨hnone, _⟩ | ⟨_, _, hfound, hfound', hsame⟩
    · rw [hfind] at hnone
      cases hnone
    · rw [hfind] at hfound
      cases hfound
      rw [hfind'] at hfound'
      cases hfound'
      obtain ⟨_, hfoundSlot, holdReplicas⟩ := hsame.exists_slot hslot'
      rw [hslot] at hfoundSlot
      cases hfoundSlot
      exact hold.insert key (hsame.setSlot i (List.rel_append holdReplicas hnew))
  · rw [hstored.isSome_pools]
    exact h.served device
  · rw [← hwanted] at hstored
    exact hstored.takes h.takes

/-- The slot is placed when there is room: it has targets, and they are served. -/
def Places (inner : Memory.Inner) (placement : Placement) : Prop :=
  inner.wanted placement ≠ [] ∧ ∀ c ∈ inner.wanted placement, c.1 ∈ inner.deviceOrder

/-- The two backends end alike for a slot to be written: `Prefer` names a device that is served,
unless none is, and a slot that is placed fits in a vector. -/
structure Servable (inner : Memory.Inner) (ps : PutSlot) : Prop where
  prefer : ∀ d, ps.spec.placement = .prefer d → d ∈ inner.deviceOrder ∨ inner.deviceOrder = []
  vector : Places inner ps.spec.placement → ps.spec.len ≤ isizeMax

/-- What fits in a vector can be rounded up. -/
theorem roundsUp_of_vector {checks : Bool} {len : ℕ} (h : len ≤ isizeMax) :
    Local.RoundsUp checks len := by
  refine .inr ?_
  unfold isizeMax at h
  unfold Local.ALIGN
  omega

/-- A slot that is written ends alike in both. -/
theorem slot_matches {t : ℕ} (th : Local.PutThread) {slots : List PutSlot} {device : Device}
    (h : Matched inner mem inner' mem' th.key spec (ps :: slots) live st w)
    (hdevices : inner.deviceOrder = inner'.poolOrder.map .cpu)
    (hslot : th.op.slots[th.i]? = some ps) (hpc : th.pc = .slot)
    (hwritable : th.writable[th.i]? = some true) (hi : th.i < spec.slots.length)
    (hvalid : ValidIovs ps.src device ps.spec.len) (hservable : Servable inner ps)
    (hbytes : readAll mem' (segsOf ps.src) = readAll mem (segsOf ps.src)) :
    ∃ r st₁ r' live' w', Memory.putSlot inner mem th.key th.i ps st = .ok (r, st₁) ∧
      Local.Leads inner' mem' t (w.setThread t th) (w'.setThread t (th.reported r')) ∧
      kindOf r' = kindOf r ∧ Matched inner mem inner' mem' th.key spec slots live' st₁ w' := by
  rcases targets_cases hdevices hservable.prefer with ⟨targets, htargets, hcandidates, hserved⟩ |
    ⟨e, htargets, hkind, hall, c, hc, hunserved⟩
  · cases h.takesAll with
    | rejected herror =>
      rw [htargets] at herror
      cases herror
    | @placed _ _ _ pools _ next found placed hfound htakes hrest =>
      rw [htargets] at hfound
      cases hfound
      have hwanted : inner.wanted ps.spec.placement =
          (Local.needed (Local.isEach ps.spec.placement) targets).map onCpu := by
        rw [Memory.Inner.wanted, hcandidates, needed_map, isEach_eq]
      by_cases hempty : placed = []
      · -- no device was named
        have hnone : targets = [] := by
          refine eq_nil_of_needed (Local.isEach ps.spec.placement) ?_
          rw [← htakes.targets_eq, hempty]
          rfl
        subst hnone hempty
        rw [needed_nil] at htakes
        cases htakes
        obtain ⟨st', hunclaim, hmatched⟩ := h.unclaim hi hrest
        exact ⟨_, st, _, live, _, Memory.putSlot_nowhere mem hcandidates,
          Local.leads_nowhere hslot hpc hwritable htargets h.staged.lock hunclaim, rfl, hmatched⟩
      · have hsome : inner.wanted ps.spec.placement ≠ [] := by
          rw [hwanted, ← htakes.targets_eq]
          exact fun hnil ↦ hempty (List.map_eq_nil_iff.mp (List.map_eq_nil_iff.mp hnil))
        have hplaces : Places inner ps.spec.placement :=
          ⟨hsome, fun c hc ↦ hserved c (mem_of_wanted hc)⟩
        have hvector := hservable.vector hplaces
        obtain ⟨obj, obj', _, _, hfind, _, hspec, _⟩ := h.exists_objects hi
        obtain ⟨st₁, hput, hstored⟩ := Memory.exists_putSlot_stored mem hvalid hvector h.takes hsome
          (fun target htarget ↦ (h.served _).mpr (hplaces.2 target htarget))
          (Memory.specAt_eq_some.mpr ⟨obj, hfind, hspec⟩) hi
        rw [hwanted, ← hbytes] at hstored
        obtain ⟨st₁', hstore, hmatched⟩ := h.land hi hstored hwanted
          (by rw [hbytes]; exact Memory.length_readAll_of_valid mem hvalid) htakes
          (roundsUp_of_vector hvector) hrest
        exact ⟨_, st₁, _, _, _, hput, Local.leads_land hslot hpc hwritable htargets htakes hempty
          h.staged.lock hstore, rfl, hmatched⟩
  · cases h.takesAll with
    | placed hok =>
      rw [htargets] at hok
      cases hok
    | rejected _ hrest =>
      obtain ⟨st', hunclaim, hmatched⟩ := h.unclaim hi hrest
      have hnone : st.pools c.1 = none := by
        rw [← Option.not_isSome_iff_eq_none, h.served]
        exact hunserved
      obtain ⟨e', hkind', hput⟩ := Memory.exists_putSlot_unknown th.key th.i mem h.takes hall
        ⟨c, hc, hnone⟩
      refine ⟨_, st, _, live, _, hput,
        Local.leads_reject hslot hpc hwritable htargets h.staged.lock hunclaim, ?_, hmatched⟩
      change some e.kind = some e'.kind
      rw [hkind, hkind']

/-- A slot that is written and outside the condition does not end alike: the oracle panics, or it
goes on to another device and the single-node backend does not. -/
theorem slot_differs {t : ℕ} (th : Local.PutThread) {slots : List PutSlot} {device : Device}
    (h : Matched inner mem inner' mem' th.key spec (ps :: slots) live st w)
    (hdevices : inner.deviceOrder = inner'.poolOrder.map .cpu)
    (hslot : th.op.slots[th.i]? = some ps) (hpc : th.pc = .slot)
    (hwritable : th.writable[th.i]? = some true) (hi : th.i < spec.slots.length)
    (hvalid : ValidIovs ps.src device ps.spec.len) (hservable : ¬ Servable inner ps)
    {r : Result Unit} {st₁ : Memory.State}
    (hput : Memory.putSlot inner mem th.key th.i ps st = .ok (r, st₁)) :
    ∃ (r' : Result Unit) (w' : Local.World),
      Local.Leads inner' mem' t (w.setThread t th) (w'.setThread t (th.reported r')) ∧
      kindOf r' ≠ kindOf r := by
  by_cases hprefer : ∀ d, ps.spec.placement = .prefer d →
      d ∈ inner.deviceOrder ∨ inner.deviceOrder = []
  · have hvector : ¬ (Places inner ps.spec.placement → ps.spec.len ≤ isizeMax) :=
      fun hall ↦ hservable ⟨hprefer, hall⟩
    obtain ⟨hplaces, hlen⟩ := Classical.not_imp.mp hvector
    rw [Memory.putSlot_overflows th.key th.i mem hvalid (not_le.mp hlen) h.takes hplaces.1
      fun c hc ↦ (h.served _).mpr (hplaces.2 c hc)] at hput
    cases hput
  · obtain ⟨d, hd⟩ := not_forall.mp hprefer
    obtain ⟨hplacement, hunserved⟩ := Classical.not_imp.mp hd
    obtain ⟨hunserved, hothers⟩ := not_or.mp hunserved
    obtain ⟨e, htargets, hkind⟩ := targets_prefer_unserved hdevices hunserved
    rw [← hplacement] at htargets
    cases h.takesAll with
    | placed hok =>
      rw [htargets] at hok
      cases hok
    | rejected _ hrest =>
      obtain ⟨st', hunclaim, _⟩ := h.unclaim hi hrest
      refine ⟨_, _, Local.leads_reject hslot hpc hwritable htargets h.staged.lock hunclaim, ?_⟩
      change some e.kind ≠ kindOf r
      rw [hkind]
      cases r with
      | ok _ => exact fun heq ↦ by cases heq
      | error e' =>
        have hnone : st.pools d = none := by
          rw [← Option.not_isSome_iff_eq_none, h.served]
          exact hunserved
        have hspace := Memory.noSpace_of_unserved hplacement hnone
          (fun x hx ↦ (h.served x).mpr hx) hothers hput
        change some ErrorKind.invalidInput ≠ some e'.kind
        rw [hspace]
        exact fun heq ↦ by cases heq

end Slots

/-! ### The whole request -/

section Requests

variable {inner : Memory.Inner} {mem : Memory.UserMemory} {inner' : Local.Inner}
  {mem' : Local.ByteSpace} {key : Key} {op : OpPut} {writable : List Bool}

/-- A lone `put` gets to a point at which it has reported something else than `final`. -/
def Parts (inner' : Local.Inner) (mem' : Local.ByteSpace) (t : ℕ) (w : Local.World)
    (final : List (Result Unit)) : Prop :=
  ∃ (w₁ : Local.World) (th : Local.PutThread),
    Local.Leads inner' mem' t w (w₁.setThread t th) ∧ ¬ th.results.map kindOf <+: final.map kindOf

theorem Parts.after {t : ℕ} {w w₁ : Local.World} {final : List (Result Unit)}
    (hleads : Local.Leads inner' mem' t w w₁) (h : Parts inner' mem' t w₁ final) :
    Parts inner' mem' t w final := by
  obtain ⟨w₂, th, hmore, hnot⟩ := h
  exact ⟨w₂, th, hleads.trans hmore, hnot⟩

/-- Lists that begin alike and then differ in kind are not parts of one. -/
theorem not_isPrefix_of_kind {results results' final : List (Result Unit)} {r r' : Result Unit}
    (hlength : results'.length = results.length) (hfinal : results ++ [r] <+: final)
    (hkind : kindOf r' ≠ kindOf r) : ¬ (results' ++ [r']).map kindOf <+: final.map kindOf := by
  intro hother
  have hle : ((results' ++ [r']).map kindOf).length = ((results ++ [r]).map kindOf).length := by
    simp only [List.length_map, List.length_append, hlength]
    rfl
  have heq := (List.prefix_of_prefix_length_le hother (hfinal.map kindOf) hle.le).eq_of_length hle
  rw [List.map_append, List.map_append] at heq
  exact hkind (List.head_eq_of_cons_eq (List.append_inj_right' heq rfl))

/-- A `put` of the single-node backend that is about to begin the first of `slots`, where the oracle
has as many results. -/
structure AtSlots (th : Local.PutThread) (slots : List PutSlot) (results : List (Result Unit)) :
    Prop where
  pc : th.pc = .slot
  left : th.op.slots.drop th.i = slots
  count : th.i + slots.length = th.op.slots.length
  writable : th.writable.length = th.op.slots.length
  reported : th.results.length = results.length

section Slots

variable {t : ℕ} {th : Local.PutThread} {ps : PutSlot} {slots : List PutSlot}
  {results : List (Result Unit)} {r r' : Result Unit} {st st' : Memory.State} {w w' : Local.World}

theorem AtSlots.slot (h : AtSlots th (ps :: slots) results) : th.op.slots[th.i]? = some ps := by
  rw [← Nat.add_zero th.i, ← List.getElem?_drop, h.left]
  rfl

theorem AtSlots.next (h : AtSlots th (ps :: slots) results) (r r' : Result Unit) :
    AtSlots (th.reported r') slots (results ++ [r]) where
  pc := rfl
  left := by
    change th.op.slots.drop (th.i + 1) = slots
    rw [← List.drop_drop, h.left]
    rfl
  count := by
    have hcount := h.count
    rw [List.length_cons] at hcount
    change th.i + 1 + slots.length = th.op.slots.length
    omega
  writable := h.writable
  reported := by
    change (th.results ++ [r']).length = _
    rw [List.length_append, List.length_append, h.reported]
    rfl

/-- The slots that are left end alike in both, or the two part at one outside the condition. -/
inductive Ending (inner : Memory.Inner) (mem : Memory.UserMemory) (inner' : Local.Inner)
    (mem' : Local.ByteSpace) (t : ℕ) (th : Local.PutThread) (slots : List PutSlot)
    (results : List (Result Unit)) (st : Memory.State) (w : Local.World) : Prop
  | alike {rs rs' : List (Result Unit)} {st₁ : Memory.State} {live : List Local.PinnedBuf}
    {w₁ : Local.World} (hall : ∀ ps ∈ pending th.writable slots th.i, Servable inner ps)
    (hput : Memory.putSlots inner mem th.key th.writable slots th.i results st =
      .ok (results ++ rs, st₁))
    (hleads : Local.Leads inner' mem' t (w.setThread t th) (w₁.setThread t
      ⟨th.key, th.op, th.writable, th.op.slots.length, th.results ++ rs', .slot⟩))
    (hkinds : rs'.map kindOf = rs.map kindOf)
    (hend : Matched inner mem inner' mem' th.key th.op.spec [] live st₁ w₁)
  | parts {ps : PutSlot} (hps : ps ∈ pending th.writable slots th.i) (hnot : ¬ Servable inner ps)
    (hparts : ∀ final st₁, Memory.putSlots inner mem th.key th.writable slots th.i results st =
      .ok (final, st₁) → Parts inner' mem' t (w.setThread t th) final)

/-- A slot that ends alike is put before what the rest comes to. -/
theorem Ending.cons
    (hput : Memory.putSlots inner mem th.key th.writable (ps :: slots) th.i results st =
      Memory.putSlots inner mem th.key th.writable slots (th.i + 1) (results ++ [r]) st')
    (hleads : Local.Leads inner' mem' t (w.setThread t th) (w'.setThread t (th.reported r')))
    (hkind : kindOf r' = kindOf r)
    (hservable : ∀ x ∈ pending th.writable (ps :: slots) th.i,
      x ∈ pending th.writable slots (th.i + 1) ∨ Servable inner x)
    (hmem : ∀ x ∈ pending th.writable slots (th.i + 1), x ∈ pending th.writable (ps :: slots) th.i)
    (h : Ending inner mem inner' mem' t (th.reported r') slots (results ++ [r]) st' w') :
    Ending inner mem inner' mem' t th (ps :: slots) results st w := by
  cases h with
  | @alike rs rs' _ _ _ hall hrest hmore hkinds hend =>
    have hkinds' : (r' :: rs').map kindOf = (r :: rs).map kindOf := by
      rw [List.map_cons, List.map_cons, hkind, hkinds]
    refine .alike (fun x hx ↦ (hservable x hx).elim (hall x) id) ?_ ?_ hkinds' hend
    · rw [hput, List.append_cons results r rs]
      exact hrest
    · rw [List.append_cons th.results r' rs']
      exact hleads.trans hmore
  | parts hps hnot hparts =>
    refine .parts (hmem _ hps) hnot fun final st₁ hfinal ↦ ?_
    rw [hput] at hfinal
    exact (hparts final st₁ hfinal).after hleads

/-- A slot that is written already is passed over by both. -/
theorem Ending.skip (hslots : AtSlots th (ps :: slots) results)
    (hwritable : th.writable[th.i]? = some false)
    (h : Ending inner mem inner' mem' t (th.reported (.error (Local.slotWritten th.i))) slots
      (results ++ [.error (Memory.slotWritten th.i)]) st w) :
    Ending inner mem inner' mem' t th (ps :: slots) results st w := by
  have hpending : pending th.writable (ps :: slots) th.i =
      pending th.writable slots (th.i + 1) := by
    rw [pending, if_neg (by rw [hwritable]; exact fun h ↦ by cases h)]
  refine Ending.cons ?_ (Local.leads_skip hslots.slot hslots.pc hwritable) rfl ?_ ?_ h
  · rw [Memory.putSlots, index_eq_ok.mpr hwritable, ok_bind]
    rfl
  · exact fun x hx ↦ .inl (hpending ▸ hx)
  · exact fun x hx ↦ hpending ▸ hx

/-- The oracle writes a slot and goes on. -/
theorem putSlots_write (hwritable : th.writable[th.i]? = some true) :
    Memory.putSlots inner mem th.key th.writable (ps :: slots) th.i results st =
      Memory.putSlot inner mem th.key th.i ps st >>= fun r ↦
        Memory.putSlots inner mem th.key th.writable slots (th.i + 1) (results ++ [r.1]) r.2 := by
  rw [Memory.putSlots, index_eq_ok.mpr hwritable, ok_bind]
  rfl

/-- Whatever slots are left, they end so: by induction on them, one slot at a time. -/
theorem slots_cases (hdevices : inner.deviceOrder = inner'.poolOrder.map .cpu)
    (slots : List PutSlot) : ∀ {th : Local.PutThread} {results : List (Result Unit)}
      {st : Memory.State} {live : List Local.PinnedBuf} {w : Local.World},
      AtSlots th slots results →
      (∀ ps ∈ th.op.slots, readAll mem' (segsOf ps.src) = readAll mem (segsOf ps.src)) →
      (∀ ps ∈ th.op.slots, ∃ device, ValidIovs ps.src device ps.spec.len) →
      Matched inner mem inner' mem' th.key th.op.spec (pending th.writable slots th.i) live st w →
      Ending inner mem inner' mem' t th slots results st w := by
  induction slots with
  | nil =>
    intro th results st live w hslots _ _ hmatched
    have hkinds : ([] : List (Result Unit)).map kindOf = ([] : List (Result Unit)).map kindOf := rfl
    refine .alike (fun ps hps ↦ absurd hps List.not_mem_nil) ?_ ?_ hkinds hmatched
    · rw [List.append_nil]
      rfl
    · have hcount := hslots.count
      rw [List.length_nil, Nat.add_zero] at hcount
      rw [List.append_nil, ← hcount, ← hslots.pc]
      exact Local.Leads.refl _
  | cons ps slots ih =>
    intro th results st live w hslots hbytes hvalid hmatched
    have hmem : ps ∈ th.op.slots := List.mem_of_getElem? hslots.slot
    have hi : th.i < th.op.slots.length := (List.getElem?_eq_some_iff.mp hslots.slot).1
    have hbound : th.i < th.writable.length := hslots.writable ▸ hi
    have hwritable := List.getElem?_eq_getElem hbound
    cases hbit : th.writable[th.i] with
    | false =>
      rw [hbit] at hwritable
      rw [pending, if_neg (by rw [hwritable]; exact fun h ↦ by cases h)] at hmatched
      exact .skip hslots hwritable (ih (hslots.next _ _) hbytes hvalid hmatched)
    | true =>
      rw [hbit] at hwritable
      have hpending : pending th.writable (ps :: slots) th.i =
          ps :: pending th.writable slots (th.i + 1) := by
        rw [pending, if_pos hwritable]
      rw [hpending] at hmatched
      obtain ⟨device, hiovs⟩ := hvalid ps hmem
      have hspec : th.i < th.op.spec.slots.length := by
        rw [OpPut.spec, List.length_map]
        exact hi
      by_cases hservable : Servable inner ps
      · obtain ⟨r, st₁, r', live', w', hput, hleads, hkind, hnext⟩ :=
          slot_matches th hmatched hdevices hslots.slot hslots.pc hwritable hspec hiovs hservable
            (hbytes ps hmem)
        refine Ending.cons ?_ hleads hkind ?_ ?_ (ih (hslots.next r r') hbytes hvalid hnext)
        · rw [putSlots_write hwritable, hput, ok_bind]
        · intro x hx
          rw [hpending] at hx
          rcases List.mem_cons.mp hx with rfl | hx
          · exact .inr hservable
          · exact .inl hx
        · exact fun x hx ↦ hpending ▸ List.mem_cons_of_mem _ hx
      · refine .parts (hpending ▸ List.mem_cons_self) hservable fun final st₁ hfinal ↦ ?_
        rw [putSlots_write hwritable] at hfinal
        obtain ⟨⟨r, st₂⟩, hput, hfinal⟩ := bind_eq_ok.mp hfinal
        obtain ⟨r', w', hleads, hkind⟩ := slot_differs th hmatched hdevices hslots.slot hslots.pc
          hwritable hspec hiovs hservable hput
        exact ⟨w', _, hleads, not_isPrefix_of_kind hslots.reported
          (Memory.prefix_of_putSlots slots _ _ _ hfinal) hkind⟩

end Slots

/-- Without claims the slots that can be claimed are the empty ones. -/
theorem map_claimable {R : Memory.ReplicaEntry → Local.ReplicaEntry → Prop}
    {slots : List Memory.Slot} {slots' : List Local.Slot}
    (h : List.Forall₂ (fun s s' ↦ List.Forall₂ R s.replicas s'.replicas) slots slots')
    (hfree : ∀ slot' ∈ slots', slot'.writing = false) :
    slots'.map Local.Slot.claimable = slots.map fun slot ↦ slot.replicas.isEmpty := by
  induction h with
  | nil => rfl
  | @cons slot slot' slots slots' hreplicas _ ih =>
    rw [List.map_cons, List.map_cons, ih fun s hs ↦ hfree s (List.mem_cons_of_mem _ hs)]
    congr 1
    unfold Local.Slot.claimable
    rw [hfree slot' List.mem_cons_self, Bool.not_false, Bool.and_true]
    revert hreplicas
    cases slot.replicas with
    | nil =>
      intro hreplicas
      rw [List.forall₂_nil_left_iff.mp hreplicas]
      rfl
    | cons r replicas =>
      intro hreplicas
      obtain ⟨r', replicas', _, _, heq⟩ := List.forall₂_cons_left_iff.mp hreplicas
      rw [heq]
      rfl

/-- Both reserve the key alike when no other `put` has claimed one of its slots. -/
theorem reserve_cases {st : Memory.State} {w : Local.World} (spec : ObjectSpec)
    (hsame : SameObjects (SameReplica mem w mem') st.objects w.state.objects)
    (hfree : ∀ obj', w.state.objects.find? key = some obj' →
      ∀ slot' ∈ obj'.slots, slot'.writing = false) :
    (∃ writable reserved claimed, st.reserve key spec = .ok (writable, reserved) ∧
      w.state.claim key spec = .ok (writable, claimed) ∧ reserved.pools = st.pools ∧
      SameObjects (SameReplica mem w mem') reserved.objects claimed.objects) ∨
    ∃ e e', st.reserve key spec = .error e ∧ w.state.claim key spec = .error e' ∧
      e'.kind = e.kind := by
  have hclaim : ∀ slot : Local.Slot, slot.claim.replicas = slot.replicas := by
    intro slot
    unfold Local.Slot.claim
    split_ifs <;> rfl
  unfold Memory.State.reserve Local.State.claim Local.State.entry
  rcases hsame.cases key with ⟨hfind, hfind'⟩ | ⟨obj, obj', hfind, hfind', hobj⟩
  · rw [hfind, hfind']
    dsimp only
    rw [Option.getD_none,
      if_neg (show ¬ (Local.Object.fresh spec).spec ≠ spec from not_not.mpr rfl)]
    refine .inl ⟨_, _, { w.state with
      objects := w.state.objects.insert key ((Local.Object.fresh spec).mapSlots Local.Slot.claim) },
      rfl, ?_, rfl, hsame.insert key ((sameObject_fresh spec).mapSlots hclaim)⟩
    change Except.ok ((List.replicate spec.slots.length _).map Local.Slot.claimable, _) = _
    rw [List.map_replicate]
    rfl
  · rw [hfind, hfind']
    dsimp only
    rw [Option.getD_some, hobj.spec]
    by_cases hspec : obj.spec = spec
    · rw [if_neg (not_not.mpr hspec), if_neg (not_not.mpr hspec)]
      refine .inl ⟨_, _, { w.state with
        objects := w.state.objects.insert key (obj'.mapSlots Local.Slot.claim) }, rfl, ?_, rfl,
        hsame.insert_right hfind (hobj.mapSlots hclaim)⟩
      rw [map_claimable hobj.slots (hfree obj' hfind')]
    · rw [if_pos hspec, if_pos hspec]
      exact .inr ⟨_, _, rfl, rfl, rfl⟩

/-- A stored buffer whose bytes the oracle holds in a vector is as long as asked for. -/
theorem fits_of_same {b : Memory.MemoryBuilder} {m₀ : Memory.UserMemory}
    {history : List Memory.Event} {oracle : Memory.World}
    (hrun : (Memory.memory b m₀).Run history oracle) {bytes : UInt16 → ℕ}
    {history' : List Local.Event} {n : Local.Node}
    (hrun' : (Local.backend inner' bytes).Run history' n)
    (hsame : SameObjects (SameReplica oracle.mem n.world n.mem) oracle.state.objects
      n.world.state.objects) {buf : Local.PinnedBuf}
    (hbuf : buf ∈ Local.bufsIn n.world.state.objects) : buf.len ≤ buf.reserved := by
  obtain ⟨key, j, slot', hslot', hmem⟩ := Local.mem_bufsIn.mp hbuf
  obtain ⟨r', hr', hdata'⟩ := List.mem_filterMap.mp hmem
  obtain ⟨obj, slot, r, hfind, hslot, hr, hreplica⟩ := hsame.exists_replica hslot' hr'
  have hlt : j < obj.spec.slots.length := by
    rw [← obj.slots_length]
    exact (List.getElem?_eq_some_iff.mp hslot).1
  have hat : r ∈ Memory.replicasAt oracle.state.objects key j := by
    rw [Memory.replicasAt_of_find? hfind, Memory.Object.replicasOf_of_getElem? hslot]
    exact hr
  have hshape := (Memory.run_sound hrun).shaped key obj.spec j _
    (Memory.specAt_eq_some.mpr ⟨obj, hfind, rfl⟩) (List.getElem?_eq_getElem hlt) r hat
  have htier : r.tier = .dram := by
    rw [← hreplica.tier]
    exact Local.run_tier hrun' key j slot' hslot' r' hr' (by rw [hdata']; rfl)
  have hlength : buf.len = (r.content oracle.mem).length := by
    rw [← hreplica.content]
    unfold Local.ReplicaEntry.buf? at hdata'
    cases hd : r'.data with
    | pinned found =>
      rw [hd] at hdata'
      cases hdata'
      exact (length_read (n.world.pinned buf.numa) ⟨buf.off, buf.len⟩).symm
    | external segs id origins =>
      rw [hd] at hdata'
      cases hdata'
  refine Local.run_fits hrun' (.inl (List.mem_append_left _ hbuf)) (roundsUp_of_vector ?_)
  rw [hlength, Memory.length_content oracle.mem hshape]
  unfold Memory.Shaped at hshape
  cases hd : r.data with
  | owned data =>
    rw [hd] at hshape
    exact hshape.2.2
  | external segs id origins =>
    rw [hd, htier] at hshape
    cases hshape.1

/-- What a lone `put` finds once it has claimed its slots. -/
theorem staged_of_claim {bytes : UInt16 → ℕ} {history : List Local.Event} {n : Local.Node}
    (hrun : (Local.backend inner' bytes).Run history n)
    (hfits : ∀ buf ∈ Local.bufsIn n.world.state.objects, buf.len ≤ buf.reserved)
    (hlock : n.world.poisoned = false) {spec : ObjectSpec} {claimed : Local.State}
    (hclaim : n.world.state.claim key spec = .ok (writable, claimed)) :
    ∃ live, Local.Staged key spec live
      { n.world with state := claimed, nextPut := n.world.nextPut + 1 } := by
  obtain ⟨live, hsound⟩ := Local.run_sound hrun
  have hclaimed := Local.claim_claimed hclaim
  refine ⟨live, hsound.exclusive.pools, fun b hb ↦ hfits b ((hclaimed.mem_bufsIn b).mp hb),
    fun b hb ↦ hsound.exclusive.held b ?_, fun numa hnuma ↦ ?_, hlock, hclaimed.specAt_key⟩
  · exact (Local.held_congr hclaimed.mem_bufsIn b).mp hb
  · change (claimed.fifo _).isSome = true
    rw [Local.claim_fifo hclaim]
    exact (Local.run_usable hrun).queued numa hnuma

/-- The slots a request writes: those that have no replica yet, if it is accepted. -/
def unwritten (st : Memory.State) (key : Key) (op : OpPut) : List PutSlot :=
  match op.validate, st.reserve key op.spec with
  | .ok _, .ok (writable, _) => pending writable op.slots 0
  | _, _ => []

theorem unwritten_of_reserve {st reserved : Memory.State} (hvalid : op.validate = .ok ())
    (hreserve : st.reserve key op.spec = .ok (writable, reserved)) :
    unwritten st key op = pending writable op.slots 0 := by
  unfold unwritten
  rw [hvalid, hreserve]

/-- Reachable states of both backends, with the same CPU devices and the same objects, that have
room for the slots to be written. No other `put` has a claim on the key, and the sources hold the
same bytes for both. -/
structure Plentiful (b : Memory.MemoryBuilder) (inner' : Local.Inner) (oracle : Memory.World)
    (n : Local.Node) (key : Key) (op : OpPut) : Prop where
  run : ∃ m₀ history, (Memory.memory b m₀).Run history oracle
  run' : ∃ bytes history, (Local.backend inner' bytes).Run history n
  devices : b.inner.deviceOrder = inner'.poolOrder.map .cpu
  objects : SameObjects (SameReplica oracle.mem n.world n.mem) oracle.state.objects
    n.world.state.objects
  lock : n.world.poisoned = false
  free : ∀ obj', n.world.state.objects.find? key = some obj' →
    ∀ slot' ∈ obj'.slots, slot'.writing = false
  takes : oracle.state.Takes b.inner (unwritten oracle.state key op)
  takesAll : Local.TakesAll inner' (unwritten oracle.state key op) n.world.pools n.world.nextBuf
  bytes : ∀ ps ∈ op.slots, readAll n.mem (segsOf ps.src) = readAll oracle.mem (segsOf ps.src)

/-- Before the first slot the two have the same objects and room. -/
theorem Plentiful.exists_matched {b : Memory.MemoryBuilder} {oracle : Memory.World} {n : Local.Node}
    (h : Plentiful b inner' oracle n key op) (hvalid : op.validate = .ok ())
    {reserved : Memory.State} {claimed : Local.State}
    (hreserve : oracle.state.reserve key op.spec = .ok (writable, reserved))
    (hclaim : n.world.state.claim key op.spec = .ok (writable, claimed))
    (hpools : reserved.pools = oracle.state.pools)
    (hobjects : SameObjects (SameReplica oracle.mem n.world n.mem) reserved.objects
      claimed.objects) :
    ∃ live, Matched b.inner oracle.mem inner' n.mem key op.spec (pending writable op.slots 0) live
      reserved { n.world with state := claimed, nextPut := n.world.nextPut + 1 } := by
  obtain ⟨m₀, history, hrun⟩ := h.run
  obtain ⟨bytes, history', hrun'⟩ := h.run'
  have hpending := unwritten_of_reserve hvalid hreserve
  have htakes := h.takes
  have htakesAll := h.takesAll
  rw [hpending] at htakes htakesAll
  obtain ⟨live, hstaged⟩ := staged_of_claim hrun'
    (fun _ hbuf ↦ fits_of_same hrun hrun' h.objects hbuf) h.lock hclaim
  refine ⟨live, hobjects.mono fun _ _ _ _ r r' _ hr ↦ hr.of_bytes fun _ _ ↦ rfl, fun device ↦ ?_,
    fun device ↦ ?_, hstaged, htakesAll⟩
  · rw [hpools]
    exact Memory.run_served hrun device
  · rw [hpools]
    exact htakes device

/-- Both return an error of the same kind, or slot by slot `Ok` or an error of the same kind, and
hold the same replicas afterwards. -/
structure SamePut (mem : Memory.UserMemory) (mem' : Local.ByteSpace) (r : Result RpPut)
    (st : Memory.State) (r' : Result RpPut) (w' : Local.World) : Prop where
  kind : kindOf r' = kindOf r
  kinds : r'.toOption.map RpPut.kinds = r.toOption.map RpPut.kinds
  objects : SameObjects (SameReplica mem w' mem') st.objects w'.state.objects

/-- A `put` of the oracle that has reserved its key goes through its slots. -/
theorem oracle_put_eq {st reserved : Memory.State} (mem : Memory.UserMemory)
    (hvalid : op.validate = .ok ())
    (hreserve : st.reserve key op.spec = .ok (writable, reserved)) :
    Memory.put inner mem st key op =
      Memory.putSlots inner mem key writable op.slots 0 [] reserved >>= fun r ↦
        .ok (.ok ⟨r.1⟩, r.2) := by
  unfold Memory.put
  rw [hvalid]
  dsimp only
  rw [hreserve]

/-- When there is plenty of room in both, the single-node backend does with a request what the
oracle does exactly if every slot to be written is servable. -/
theorem put_matches_oracle {b : Memory.MemoryBuilder} {oracle : Memory.World} {n : Local.Node}
    (h : Plentiful b inner' oracle n key op) :
    (∃ r st fuel r' w', Memory.put b.inner oracle.mem oracle.state key op = .ok (r, st) ∧
      n.world.put inner' n.mem fuel key op = (w', .put r') ∧
      SamePut oracle.mem n.mem r st r' w') ↔
    ∀ ps ∈ unwritten oracle.state key op, Servable b.inner ps := by
  cases hvalid : op.validate with
  | error e =>
    have hnone : unwritten oracle.state key op = [] := by
      unfold unwritten
      rw [hvalid]
    rw [hnone]
    refine iff_of_true ⟨.error e, oracle.state, 0, .error e, n.world, ?_, ?_, rfl, rfl, h.objects⟩
      fun ps hps ↦ absurd hps List.not_mem_nil
    · unfold Memory.put
      rw [hvalid]
    · unfold Local.World.put Local.World.beginPut
      rw [hvalid]
      rfl
  | ok _ =>
    rcases reserve_cases op.spec h.objects h.free with
      ⟨writable, reserved, claimed, hreserve, hclaim, hpools, hobjects⟩ |
      ⟨e, e', hreserve, hclaim, hkind⟩
    · obtain ⟨live, hmatched⟩ := h.exists_matched hvalid hreserve hclaim hpools hobjects
      have hlength : writable.length = op.slots.length :=
        (Local.claim_claimed hclaim).length_eq.trans (List.length_map _)
      rw [unwritten_of_reserve hvalid hreserve, oracle_put_eq oracle.mem hvalid hreserve]
      have hending : Ending b.inner oracle.mem inner' n.mem n.world.nextPut
          ⟨key, op, writable, 0, [], .slot⟩ op.slots [] reserved _ :=
        slots_cases h.devices op.slots ⟨rfl, rfl, Nat.zero_add _, hlength, rfl⟩ h.bytes
          (OpPut.validate_ok hvalid).2 hmatched
      cases hending with
      | @alike rs rs' st _ _ hall hput hleads hkinds hend =>
        obtain ⟨fuel, hreturns⟩ := Local.put_returns hvalid h.lock hclaim hleads
          (List.getElem?_eq_none le_rfl)
        refine iff_of_true ⟨.ok ⟨rs⟩, st, fuel, .ok ⟨rs'⟩, _, ?_, hreturns, rfl,
          congrArg some hkinds, hend.objects.mono fun _ _ _ _ r r' _ hr ↦
            hr.of_bytes fun _ _ ↦ rfl⟩ hall
        rw [hput]
        rfl
      | @parts ps hps hnot hparts =>
        refine iff_of_false ?_ fun hall ↦ hnot (hall ps hps)
        rintro ⟨r, st, fuel, r', w', hput, hput', hsame⟩
        obtain ⟨⟨final, st₁⟩, hslots, hreply⟩ := bind_eq_ok.mp hput
        cases hreply
        obtain ⟨w₁, th, hleads, hdiffer⟩ := hparts final _ hslots
        rw [Local.put_eq_drive n.mem fuel hvalid h.lock hclaim] at hput'
        obtain ⟨results, rfl, hreported⟩ :=
          hleads.exists_results (Function.update_self ..) hput'
        have hkinds : results.map kindOf = final.map kindOf := Option.some.inj hsame.kinds
        exact hdiffer (hkinds ▸ hreported.map kindOf)
    · have hnone : unwritten oracle.state key op = [] := by
        unfold unwritten
        rw [hvalid, hreserve]
      rw [hnone]
      refine iff_of_true ⟨.error e, oracle.state, 0, .error e', n.world, ?_, ?_,
        congrArg some hkind, rfl, h.objects⟩ fun ps hps ↦ absurd hps List.not_mem_nil
      · unfold Memory.put
        rw [hvalid]
        dsimp only
        rw [hreserve]
      · unfold Local.World.put Local.World.beginPut
        rw [hvalid]
        dsimp only
        rw [Local.World.section_ok h.lock, hclaim]
        rfl

end Requests

namespace Scenario

/-- A node with two pools. -/
def twoPools : Local.Inner := ⟨0, fun _ ↦ none, [], [0, 1], true⟩

/-- The oracle with the same two devices. -/
def oracle : Memory.MemoryBuilder := Memory.Scenario.backend 8

/-- The oracle before any call, with user memory all zero. -/
def emptyOracle : Memory.World := (Memory.memory oracle fun _ ↦ 0).start

/-- The node before any call. -/
def emptyNode : Local.Node := (Local.backend twoPools Local.Scenario.bytes).start

/-- The kinds a `put` of the oracle reports. -/
def oracleKinds (op : OpPut) : Option (List (Option ErrorKind)) :=
  (Memory.put oracle.inner emptyOracle.mem emptyOracle.state [1] op).toOption.bind fun r ↦
    r.1.toOption.map RpPut.kinds

theorem pending_replicate (count : ℕ) (slots : List PutSlot) : ∀ i, i + slots.length ≤ count →
    pending (List.replicate count true) slots i = slots := by
  induction slots with
  | nil => exact fun _ _ ↦ rfl
  | cons ps slots ih =>
    intro i hi
    rw [List.length_cons] at hi
    rw [pending, if_pos (List.getElem?_replicate_of_lt (by omega)), ih (i + 1) (by omega)]

/-- All slots of a valid request are written where there are no objects. -/
theorem unwritten_empty {op : OpPut} (hvalid : op.validate = .ok ()) :
    unwritten emptyOracle.state [1] op = op.slots := by
  have hreserve : emptyOracle.state.reserve [1] op.spec =
      .ok (List.replicate op.spec.slots.length true,
        { emptyOracle.state with
          objects := emptyOracle.state.objects.insert [1] (Memory.Object.fresh op.spec) }) := rfl
  rw [unwritten_of_reserve hvalid hreserve]
  refine pending_replicate _ _ 0 ?_
  change 0 + op.slots.length ≤ (op.slots.map PutSlot.spec).length
  rw [List.length_map, Nat.zero_add]

/-- Backends without objects have plenty of room for up to eight bytes on each device. -/
theorem plentiful_empty {op : OpPut} (hvalid : op.validate = .ok ())
    (hfew : ∀ device ∈ oracle.inner.deviceOrder, Memory.load oracle.inner op.slots device ≤ 8)
    (htakesAll : Local.TakesAll twoPools op.slots emptyNode.world.pools emptyNode.world.nextBuf) :
    Plentiful oracle twoPools emptyOracle emptyNode [1] op where
  run := ⟨fun _ ↦ 0, [], Transition.System.Run.nil⟩
  run' := ⟨Local.Scenario.bytes, [], Transition.System.Run.nil⟩
  devices := rfl
  objects := fun key ↦ .none
  lock := rfl
  free := fun obj' hfind ↦ by cases hfind
  takes := by
    intro device pool hpool
    obtain ⟨hused, _, hbuilt⟩ := Memory.buildPools_some hpool
    have hload := hfew device (List.mem_map_of_mem hbuilt)
    rw [unwritten_empty hvalid]
    refine ⟨by omega, fun cap hcap ↦ ?_⟩
    rw [hcap] at hbuilt
    have height : cap = 8 := by
      rcases List.mem_cons.mp hbuilt with heq | hbuilt
      · cases heq
        rfl
      · cases List.mem_singleton.mp hbuilt
    omega
  takesAll := by
    rw [unwritten_empty hvalid]
    exact htakesAll
  bytes := fun _ _ ↦ rfl

/-- One byte takes a whole unit of a pool. -/
theorem oneUnit : Local.roundUp true 1 = .ok Local.ALIGN := by
  decide +kernel

theorem half_fits : 0 + 2 ^ 63 ≤ 2 ^ 64 := by decide

/-- One byte more than a vector takes, for a device nobody serves. -/
def hugeUnserved : PutSlot :=
  ⟨⟨2 ^ 63, .strict (.cpu 7)⟩, [⟨⟨2, 0, 2 ^ 63, .cpu 0, half_fits⟩, 0, 2 ^ 63⟩]⟩

/-- A slot that prefers the second pool, one on a GPU, and one that is too long for a vector. -/
def placedAndRefused : OpPut :=
  ⟨.cache, [Local.Scenario.slotOn (.prefer (.cpu 1)) 1, Local.Scenario.slotOn (.strict (.gpu 0)) 1,
    hugeUnserved]⟩

/-- The first lands in both and the others are refused by both; the last one is not placed, so its
length makes no difference. -/
theorem put_matches_oracle_placed_and_refused : oracleKinds placedAndRefused =
    some [none, some .invalidInput, some .invalidInput] ∧ ∃ r st fuel r' w',
      Memory.put oracle.inner emptyOracle.mem emptyOracle.state [1] placedAndRefused = .ok (r, st) ∧
      emptyNode.world.put twoPools emptyNode.mem fuel [1] placedAndRefused = (w', .put r') ∧
      SamePut emptyOracle.mem emptyNode.mem r st r' w' := by
  have hvalid : placedAndRefused.validate = .ok () := by decide +kernel
  refine ⟨by decide +kernel, (put_matches_oracle
    (plentiful_empty hvalid (by decide +kernel) ?_)).mpr ?_⟩
  · obtain ⟨buf, after, halloc⟩ : ∃ buf after,
        (Local.PinnedPool.new 1 (2 * Local.ALIGN)).alloc true 0 1 = .ok (some (buf, after)) :=
      Local.PinnedPool.alloc_of_fits oneUnit List.mem_cons_self (by decide +kernel)
    exact .placed rfl (.cons rfl halloc .nil) (.rejected rfl (.rejected rfl .nil))
  · rw [unwritten_empty hvalid]
    intro ps hps
    simp only [placedAndRefused, List.mem_cons, List.not_mem_nil, or_false] at hps
    rcases hps with rfl | rfl | rfl
    · refine ⟨fun d hd ↦ ?_, fun _ ↦ by decide⟩
      cases hd
      exact .inl (by decide)
    · exact ⟨fun d hd ↦ (by cases hd), fun _ ↦ by decide⟩
    · refine ⟨fun d hd ↦ (by cases hd), fun hplaces ↦ ?_⟩
      exact absurd (hplaces.2 (.cpu 7, false) List.mem_cons_self) (by decide)

/-- A slot that prefers a device nobody serves. -/
def preferUnserved : OpPut := ⟨.cache, [Local.Scenario.slotOn (.prefer (.cpu 7)) 1]⟩

/-- The oracle places the slot on another device, and the single-node backend refuses it. -/
theorem prefer_unserved_differs :
    Plentiful oracle twoPools emptyOracle emptyNode [1] preferUnserved ∧
      oracleKinds preferUnserved = some [none] ∧ ∃ fuel,
        Local.Scenario.kindsOf
          (emptyNode.world.put twoPools emptyNode.mem fuel [1] preferUnserved).2 =
            some [some .invalidInput] := by
  have hvalid : preferUnserved.validate = .ok () := by decide +kernel
  refine ⟨plentiful_empty hvalid (by decide +kernel) ?_, by decide +kernel, 4, by decide +kernel⟩
  exact .rejected rfl .nil

end Scenario

end Pegastore.Oracle
