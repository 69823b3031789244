import Pegastore.Memory.Coverage
import Pegastore.Memory.NoPanic

/-!
# Placement decisions

`fitsOn` is the closed form of what `make_room` decides: a slot fits on a device when its length
and the bytes that cannot be evicted there, those of `Explicit` objects and of the key being put,
are within the capacity. `chosen` is the placement policy in these terms. Where every evictable
replica is queued (`Covered`), the destructive eviction loop decides exactly `fitsOn`
(`MadeRoom.fit_eq`), so the candidate loop takes exactly the targets of `chosen`
(`putSlot_decides`), and `placement_exact` is the result for every put of every run.

Queue entries carry 32-bit slot indices. A slot past `2 ^ 32` is queued under another index, its
replica cannot be evicted, and a later put is refused although it fits
(`unqueued_slot_blocks_device`).
-/

set_option autoImplicit false
set_option relaxedAutoImplicit false

namespace Pegastore.Memory

open Outcome ByteMemory Transition

/-! ### The policy -/

/-- The bytes on `device` that a put of `kb` cannot evict. -/
def pinnedOn (kb : Key) (device : Device) (objects : Objects) : ℕ :=
  objects.sumOn fun key obj ↦
    if obj.spec.retention = .explicit ∨ key = kb then obj.ownedOn device else 0

/-- A slot of `len` bytes of `kb` fits on `device` once everything evictable is gone. -/
def fitsOn (st : State) (kb : Key) (len : ℕ) (device : Device) : Bool :=
  match st.pools device with
  | none => false
  | some pool =>
    match pool.capacity with
    | none => true
    | some cap => len + pinnedOn kb device st.objects ≤ cap

/-- The targets of a slot with their misplaced flags, where the placement can be met. -/
def chosen (inner : Inner) (st : State) (kb : Key) (spec : SlotSpec) :
    Option (List (Device × Bool)) :=
  match spec.placement with
  | .strict d => if fitsOn st kb spec.len d then some [(d, false)] else none
  | .prefer d =>
    ((d :: inner.deviceOrder.filter fun x ↦ x ≠ d).find? (fitsOn st kb spec.len)).map fun x ↦
      [(x, decide (x ≠ d))]
  | .each ds =>
    if ds ≠ [] ∧ ds.all (fitsOn st kb spec.len) then some (ds.map fun d ↦ (d, false)) else none
  | .anywhere => (inner.deviceOrder.find? (fitsOn st kb spec.len)).map fun x ↦ [(x, false)]

/-! ### What making room leaves alone -/

theorem pinnedOn_le_ownedOn (kb : Key) (device : Device) (objects : Objects) :
    pinnedOn kb device objects ≤ ownedOn device objects := by
  refine SortedMap.sumOn_le_sumOn objects ?_
  intro key obj _
  split_ifs
  · exact le_rfl
  · exact Nat.zero_le _

/-- Where nothing evictable is left, the owned bytes are the pinned ones. -/
theorem ownedOn_eq_pinnedOn {kb : Key} {device : Device} {objects : Objects}
    (h : ∀ key i r, key ≠ kb → CacheAt objects key → r ∈ replicasAt objects key i →
      r.ownedOn device = false) : ownedOn device objects = pinnedOn kb device objects := by
  refine SortedMap.sumOn_congr objects ?_
  intro key obj hfind
  split_ifs with hpinned
  · rfl
  · obtain ⟨hret, hkey⟩ := not_or.mp hpinned
    have hcache : CacheAt objects key := by
      refine ⟨obj.spec, by simp [specAt, hfind], ?_⟩
      cases hretention : obj.spec.retention with
      | cache => rfl
      | explicit => exact absurd hretention hret
    apply Object.ownedOn_eq_zero
    intro i r hr
    refine h key i r hkey hcache ?_
    rwa [replicasAt_of_find? hfind]

namespace RoomSteps

variable {kb : Key} {first last : State}

/-- Making room leaves the pinned objects as they are. -/
theorem find?_pinned (h : RoomSteps kb first last) {key : Key} {spec : ObjectSpec}
    (hspec : specAt first.objects key = some spec)
    (hpinned : spec.retention = .explicit ∨ key = kb) :
    specAt last.objects key = some spec ∧
      ∀ i, replicasAt last.objects key i = replicasAt first.objects key i := by
  rcases hpinned with hret | rfl
  · exact h.explicit_kept hspec (by rw [hret]; decide)
  · exact ⟨h.protected_kept.1 spec hspec, h.protected_kept.2⟩

theorem pinnedOn_eq (h : RoomSteps kb first last) (device : Device) :
    pinnedOn kb device last.objects = pinnedOn kb device first.objects := by
  apply le_antisymm
  · refine SortedMap.sumOn_le_of_find? last.objects first.objects ?_
    intro key obj hfind
    have hspec : specAt last.objects key = some obj.spec := by simp [specAt, hfind]
    split_ifs with hpinned
    · right
      have hfirst := h.spec_of_last hspec
      obtain ⟨_, hreplicas⟩ := h.find?_pinned hfirst hpinned
      exact find?_of_view hfind (hfirst.trans hspec.symm) fun i ↦ (hreplicas i).symm
    · exact Or.inl rfl
  · refine SortedMap.sumOn_le_of_find? first.objects last.objects ?_
    intro key obj hfind
    have hspec : specAt first.objects key = some obj.spec := by simp [specAt, hfind]
    split_ifs with hpinned
    · right
      obtain ⟨hlast, hreplicas⟩ := h.find?_pinned hspec hpinned
      exact find?_of_view hfind (hlast.trans hspec.symm) hreplicas
    · exact Or.inl rfl

/-- Making room does not change what fits. -/
theorem fitsOn_eq (h : RoomSteps kb first last) (len : ℕ) (device : Device) :
    fitsOn last kb len device = fitsOn first kb len device := by
  have hisSome := h.pools_isSome device
  unfold fitsOn
  cases hlast : last.pools device with
  | none =>
    rw [hlast] at hisSome
    have hfirst : first.pools device = none := by simpa using hisSome.symm
    rw [hfirst]
  | some pool' =>
    obtain ⟨pool, hfirst, hcapacity, _⟩ := h.pools_of_last hlast
    rw [hfirst]
    dsimp only
    rw [hcapacity, h.pinnedOn_eq device]

/-- Making room keeps every evictable replica queued. -/
theorem covered (h : RoomSteps kb first last) (hfirst : Covered first) : Covered last := by
  intro device pool' key i r hpool' hcache hr howned
  obtain ⟨gone, hdrained⟩ := Drained.of_rooms h
  by_cases hkey : key = kb
  · subst hkey
    obtain ⟨pool, kept, hpool, hmoved⟩ := hdrained.queues device pool' hpool'
    obtain ⟨spec, hspec, hret⟩ := hcache
    rw [h.protected_kept.2 i] at hr
    obtain ⟨entry, hentry, hname, hslot⟩ := hfirst device pool key i r hpool
      ⟨spec, h.spec_of_last hspec, hret⟩ hr howned
    have hown : entry ∈ ownOf key kept := by
      rw [hmoved.own]
      exact mem_ownOf.mpr ⟨hentry, hname⟩
    refine ⟨entry, ?_, hname, hslot⟩
    rw [hmoved.after_eq]
    exact List.mem_append_left _ (mem_ownOf.mp hown).1
  · obtain ⟨entry, hentry, hnamed⟩ :=
      hdrained.covered_other hfirst hkey hpool' hcache hr howned
    exact ⟨entry, (mem_othersOf.mp hentry).1, hnamed⟩

end RoomSteps

/-! ### The decision of `make_room` -/

/-- With an exhausted queue nothing evictable is left on the device. -/
theorem MadeRoom.nothing_evictable {device : Device} {need : ℕ} {kb : Key} {before after : State}
    {pool pool' : Pool} {fit : Bool} {popped : List FifoEntry}
    (h : MadeRoom device need kb before pool fit after pool' popped []) (hcovered : Covered before)
    {key : Key} {i : ℕ} {r : ReplicaEntry} (hkey : key ≠ kb) (hcache : CacheAt after.objects key)
    (hr : r ∈ replicasAt after.objects key i) : r.ownedOn device = false := by
  by_contra howned
  rw [Bool.not_eq_false] at howned
  have hbefore := h.evicts.cacheAt_of_after hcache
  obtain ⟨entry, hentry, hname, hslot⟩ := hcovered device pool key i r h.pool_before hbefore
    ((h.evicts.replicas_sublist key i).subset hr) howned
  rw [h.queue, List.append_nil] at hentry
  have hnames : Names (popped.filter fun e ↦ e.1 ≠ kb) key i := by
    refine ⟨entry, List.mem_filter.mpr ⟨hentry, ?_⟩, hname, hslot⟩
    rw [hname]
    exact decide_eq_true hkey
  rw [(h.evicts.replicas key i).1 ⟨hbefore, hnames⟩] at hr
  have hkept := (List.mem_filter.mp hr).2
  rw [howned] at hkept
  cases hkept

/-- The eviction loop decides exactly `fitsOn`. -/
theorem MadeRoom.fit_eq {device : Device} {need : ℕ} {kb : Key} {before after : State}
    {pool pool' : Pool} {fit : Bool} {popped rest : List FifoEntry}
    (h : MadeRoom device need kb before pool fit after pool' popped rest)
    (hcovered : Covered before) : fit = fitsOn before kb need device := by
  have hpinned := (RoomSteps.single h).pinnedOn_eq device
  have hle := pinnedOn_le_ownedOn kb device after.objects
  have hused := h.used_eq
  unfold fitsOn
  rw [h.pool_before]
  dsimp only
  cases hcapacity : pool.capacity with
  | none =>
    cases fit with
    | true => rfl
    | false =>
      obtain ⟨cap, hcap, _⟩ := h.full rfl
      rw [hcapacity] at hcap
      cases hcap
  | some cap =>
    cases fit with
    | true =>
      have hroom := h.fits rfl cap hcapacity
      symm
      exact decide_eq_true (by omega)
    | false =>
      obtain ⟨found, hfound, hlt, hcase⟩ := h.full rfl
      rw [hcapacity, Option.some.injEq] at hfound
      subst hfound
      symm
      refine decide_eq_false ?_
      rcases hcase with hbig | rfl
      · omega
      · have hall : ownedOn device after.objects = pinnedOn kb device after.objects :=
          ownedOn_eq_pinnedOn fun key i r hkey hcache hr ↦
            h.nothing_evictable hcovered hkey hcache hr
        omega

theorem makeRoom_decides {st after : State} {device : Device} {pool : Pool} {len : ℕ} {kb : Key}
    {fit : Bool} (hacc : Accounted st) (hcovered : Covered st) (hpool : st.pools device = some pool)
    (h : st.makeRoom device len kb = .ok (fit, after)) :
    fit = fitsOn st kb len device ∧ RoomSteps kb st after := by
  obtain ⟨pool', popped, rest, hmade⟩ := (holds_makeRoom len kb hacc hpool).of_ok h
  exact ⟨hmade.fit_eq hcovered, RoomSteps.single hmade⟩

/-! ### The candidate loop -/

/-- Why a device was passed over: it is not served, or it has no room. -/
def Refusal (st : State) (kb : Key) (len : ℕ) (device : Device) (e : Error) : Prop :=
  fitsOn st kb len device = false ∧
    ((st.pools device = none ∧ e = unknownDevice device) ∨
      ((st.pools device).isSome = true ∧ e = noSpace device len))

theorem Refusal.of_rooms {kb : Key} {first last : State} (h : RoomSteps kb first last) {len : ℕ}
    {device : Device} {e : Error} (hrefusal : Refusal last kb len device e) :
    Refusal first kb len device e := by
  obtain ⟨hfits, hcase⟩ := hrefusal
  refine ⟨(h.fitsOn_eq len device).symm.trans hfits, ?_⟩
  have hisSome := h.pools_isSome device
  rcases hcase with ⟨hnone, he⟩ | ⟨hsome, he⟩
  · rw [hnone] at hisSome
    exact Or.inl ⟨by simpa using hisSome.symm, he⟩
  · exact Or.inr ⟨hisSome.symm.trans hsome, he⟩

/-- What the loop does with one candidate: go on in a state with room, or note a refusal. -/
theorem placeLoop_cons {each : Bool} {len : ℕ} {kb : Key} {c : Device × Bool}
    {rest : List (Device × Bool)} {p p' : Placing} (hacc : Accounted p.st) (hcovered : Covered p.st)
    (h : placeLoop each len kb (c :: rest) p = .ok p') :
    ∃ st, RoomSteps kb p.st st ∧
      ((fitsOn p.st kb len c.1 = true ∧
          (if each then placeLoop each len kb rest ⟨st, p.targets ++ [c], p.err⟩
            else .ok ⟨st, p.targets ++ [c], p.err⟩) = .ok p') ∨
        ∃ e, Refusal p.st kb len c.1 e ∧
          (if each then .ok ⟨st, p.targets, some e⟩
            else placeLoop each len kb rest ⟨st, p.targets, some e⟩) = .ok p') := by
  obtain ⟨d, misplaced⟩ := c
  unfold placeLoop at h
  cases hpool : p.st.pools d with
  | none =>
    simp only [hpool, Option.isNone_none, if_true] at h
    refine ⟨p.st, RoomSteps.refl, Or.inr ⟨unknownDevice d, ⟨?_, Or.inl ⟨hpool, rfl⟩⟩, h⟩⟩
    simp [fitsOn, hpool]
  | some pool =>
    simp only [hpool, Option.isNone_some, Bool.false_eq_true, if_false] at h
    obtain ⟨⟨fit, st⟩, hmake, hrest⟩ := bind_eq_ok.mp h
    obtain ⟨hfit, hrooms⟩ := makeRoom_decides hacc hcovered hpool hmake
    refine ⟨st, hrooms, ?_⟩
    cases fit with
    | true =>
      simp only [if_true] at hrest
      exact Or.inl ⟨hfit.symm, hrest⟩
    | false =>
      simp only [Bool.false_eq_true, if_false] at hrest
      exact Or.inr ⟨noSpace d len, ⟨hfit.symm, Or.inr ⟨by rw [hpool]; rfl, rfl⟩⟩, hrest⟩

/-- With `Each` the loop takes all candidates, or stops with a refusal. -/
theorem placeLoop_each {len : ℕ} {kb : Key} (candidates : List (Device × Bool)) :
    ∀ {p p' : Placing}, Accounted p.st → Covered p.st →
      placeLoop true len kb candidates p = .ok p' →
      (candidates.all (fun c ↦ fitsOn p.st kb len c.1) = true →
        p'.targets = p.targets ++ candidates ∧ p'.err = p.err) ∧
      (candidates.all (fun c ↦ fitsOn p.st kb len c.1) = false →
        ∃ c ∈ candidates, ∃ e, p'.err = some e ∧ Refusal p.st kb len c.1 e) := by
  induction candidates with
  | nil =>
    intro p p' _ _ h
    cases h
    exact ⟨fun _ ↦ ⟨(List.append_nil _).symm, rfl⟩, by simp⟩
  | cons c rest ih =>
    intro p p' hacc hcovered h
    obtain ⟨st, hrooms, ⟨hfits, hrest⟩ | ⟨e, hrefusal, hstop⟩⟩ := placeLoop_cons hacc hcovered h
    · rw [if_pos rfl] at hrest
      obtain ⟨htaken, hrefused⟩ := ih (hrooms.accounted hacc) (hrooms.covered hcovered) hrest
      simp only [hrooms.fitsOn_eq] at htaken hrefused
      rw [List.all_cons, hfits, Bool.true_and]
      refine ⟨fun hall ↦ ?_, fun hall ↦ ?_⟩
      · obtain ⟨htargets, herr⟩ := htaken hall
        exact ⟨by rw [htargets, List.append_assoc, List.singleton_append], herr⟩
      · obtain ⟨other, hother, e, herr, hrefusal⟩ := hrefused hall
        exact ⟨other, List.mem_cons_of_mem _ hother, e, herr, hrefusal.of_rooms hrooms⟩
    · rw [if_pos rfl] at hstop
      cases hstop
      rw [List.all_cons, hrefusal.1, Bool.false_and]
      exact ⟨fun hfalse ↦ (by cases hfalse), fun _ ↦ ⟨c, List.mem_cons_self, e, rfl, hrefusal⟩⟩

/-- Otherwise the loop takes the first candidate that fits, or notes a refusal. -/
theorem placeLoop_first {len : ℕ} {kb : Key} (candidates : List (Device × Bool)) :
    ∀ {p p' : Placing}, Accounted p.st → Covered p.st →
      placeLoop false len kb candidates p = .ok p' →
      (∀ c, candidates.find? (fun c ↦ fitsOn p.st kb len c.1) = some c →
        p'.targets = p.targets ++ [c]) ∧
      (candidates.find? (fun c ↦ fitsOn p.st kb len c.1) = none → p'.targets = p.targets ∧
        ((candidates = [] ∧ p'.err = p.err) ∨
          ∃ c ∈ candidates, ∃ e, p'.err = some e ∧ Refusal p.st kb len c.1 e)) := by
  induction candidates with
  | nil =>
    intro p p' _ _ h
    cases h
    exact ⟨by simp, fun _ ↦ ⟨rfl, Or.inl ⟨rfl, rfl⟩⟩⟩
  | cons c rest ih =>
    intro p p' hacc hcovered h
    obtain ⟨st, hrooms, ⟨hfits, hstop⟩ | ⟨e, hrefusal, hrest⟩⟩ := placeLoop_cons hacc hcovered h
    · rw [if_neg (by decide)] at hstop
      cases hstop
      simp only [List.find?_cons, hfits]
      refine ⟨fun found hfound ↦ ?_, fun hnone ↦ (by cases hnone)⟩
      rw [Option.some.injEq] at hfound
      rw [hfound]
    · rw [if_neg (by decide)] at hrest
      obtain ⟨htaken, hrefused⟩ := ih (hrooms.accounted hacc) (hrooms.covered hcovered) hrest
      simp only [hrooms.fitsOn_eq] at htaken hrefused
      simp only [List.find?_cons, hrefusal.1]
      refine ⟨htaken, fun hnone ↦ ?_⟩
      obtain ⟨htargets, hcase⟩ := hrefused hnone
      refine ⟨htargets, Or.inr ?_⟩
      rcases hcase with ⟨_, herr⟩ | ⟨other, hother, found, herr, hother'⟩
      · exact ⟨c, List.mem_cons_self, e, herr, hrefusal⟩
      · exact ⟨other, List.mem_cons_of_mem _ hother, found, herr, hother'.of_rooms hrooms⟩

/-! ### One slot -/

/-- Outside `Each`, the policy is the first candidate that fits. -/
theorem chosen_eq_find? (inner : Inner) (st : State) (kb : Key) {spec : SlotSpec}
    (h : isEach spec.placement = false) :
    chosen inner st kb spec =
      ((inner.candidates spec.placement).find? fun c ↦ fitsOn st kb spec.len c.1).map
        fun c ↦ [c] := by
  unfold chosen
  cases hplacement : spec.placement with
  | strict d =>
    simp only [Inner.candidates, List.find?_singleton]
    split_ifs
    · rfl
    · rfl
  | prefer d =>
    simp only [Inner.candidates]
    cases hd : fitsOn st kb spec.len d with
    | true =>
      simp only [List.find?_cons, hd]
      simp
    | false =>
      simp only [List.find?_cons, hd, List.find?_map, Option.map_map]
      refine Option.map_congr ?_
      intro x hx
      have hne := (List.mem_filter.mp (List.mem_of_find?_eq_some hx)).2
      simp only [Function.comp_def, hne]
  | each ds => simp [hplacement, isEach] at h
  | anywhere =>
    simp only [Inner.candidates]
    rw [List.find?_map, Option.map_map]
    rfl

/-- The decision of the candidate loop, in terms of the policy. -/
theorem placeLoop_decides {inner : Inner} {kb : Key} {spec : SlotSpec} {st : State} {p : Placing}
    (hacc : Accounted st) (hcovered : Covered st)
    (h : placeLoop (isEach spec.placement) spec.len kb (inner.candidates spec.placement)
      ⟨st, [], none⟩ = .ok p) :
    (∀ targets, chosen inner st kb spec = some targets →
      p.landed (isEach spec.placement) = true ∧ p.targets = targets) ∧
    (chosen inner st kb spec = none → p.landed (isEach spec.placement) = false ∧
      ((inner.candidates spec.placement = [] ∧ p.err = none) ∨
        ∃ c ∈ inner.candidates spec.placement, ∃ e, p.err = some e ∧
          Refusal st kb spec.len c.1 e)) := by
  cases heach : isEach spec.placement with
  | false =>
    rw [heach] at h
    obtain ⟨htaken, hrefused⟩ := placeLoop_first _ hacc hcovered h
    rw [chosen_eq_find? inner st kb heach]
    refine ⟨?_, ?_⟩
    · intro targets htargets
      obtain ⟨c, hc, rfl⟩ := Option.map_eq_some_iff.mp htargets
      have hp := htaken c hc
      rw [List.nil_append] at hp
      exact ⟨by simp [Placing.landed, hp], hp⟩
    · intro hnone
      obtain ⟨htargets, hcase⟩ := hrefused (Option.map_eq_none_iff.mp hnone)
      dsimp only at htargets hcase
      exact ⟨by simp [Placing.landed, htargets], hcase⟩
  | true =>
    rw [heach] at h
    obtain ⟨htaken, hrefused⟩ := placeLoop_each _ hacc hcovered h
    cases hplacement : spec.placement with
    | each ds =>
      rw [hplacement] at htaken hrefused
      simp only [Inner.candidates, List.all_map, Function.comp_def] at htaken hrefused
      simp only [chosen, hplacement, Inner.candidates]
      by_cases hall : ds.all (fitsOn st kb spec.len) = true
      · obtain ⟨htargets, herr⟩ := htaken hall
        rw [List.nil_append] at htargets
        by_cases hnil : ds = []
        · subst hnil
          simp only [List.map_nil] at htargets
          refine ⟨by simp, fun _ ↦ ⟨by simp [Placing.landed, htargets], Or.inl ⟨rfl, herr⟩⟩⟩
        · rw [if_pos ⟨hnil, hall⟩]
          refine ⟨?_, fun hnone ↦ (by cases hnone)⟩
          intro targets heq
          rw [Option.some.injEq] at heq
          refine ⟨?_, htargets.trans heq⟩
          simp [Placing.landed, herr, htargets, hnil]
      · rw [if_neg fun hboth ↦ hall hboth.2]
        refine ⟨by simp, fun _ ↦ ?_⟩
        obtain ⟨c, hc, e, herr, hrefusal⟩ := hrefused (by simpa using hall)
        exact ⟨by simp [Placing.landed, herr], Or.inr ⟨c, hc, e, herr, hrefusal⟩⟩
    | strict d => simp [hplacement, isEach] at heach
    | prefer d => simp [hplacement, isEach] at heach
    | anywhere => simp [hplacement, isEach] at heach

/-- What the policy says of a slot is what its `put` does, in the state it is decided in. -/
structure DecidedBy (inner : Inner) (mem : UserMemory) (kb : Key) (i : ℕ) (ps : PutSlot)
    (st : State) (r : Result Unit) (replicas : List ReplicaEntry) : Prop where
  lands : ∀ targets, chosen inner st kb ps.spec = some targets → r = .ok () ∧
    replicas = ownedReplicas targets (readAll mem (segsOf ps.src))
  refused : chosen inner st kb ps.spec = none → ∃ e, r = .error (e.withContext "slot" (.num i)) ∧
    ((inner.candidates ps.spec.placement = [] ∧ e = Error.new .noSpace "no device available") ∨
      ∃ c ∈ inner.candidates ps.spec.placement, Refusal st kb ps.spec.len c.1 e)

/-- A slot whose candidate loop found what it needs lands, with the targets of the loop. -/
theorem putSlot_landed {inner : Inner} {mem : UserMemory} {kb : Key} {i : ℕ} {ps : PutSlot}
    {st after : State} {r : Result Unit} {p : Placing} {spec : ObjectSpec} {device : Device}
    (hacc : Accounted st) (hvalid : ValidIovs ps.src device ps.spec.len)
    (hspec : specAt st.objects kb = some spec) (hi : i < spec.slots.length)
    (hempty : replicasAt st.objects kb i = [])
    (hplace : placeLoop (isEach ps.spec.placement) ps.spec.len kb
      (inner.candidates ps.spec.placement) ⟨st, [], none⟩ = .ok p)
    (hlanded : p.landed (isEach ps.spec.placement) = true)
    (h : putSlot inner mem kb i ps st = .ok (r, after)) :
    r = .ok () ∧
      replicasAt after.objects kb i = ownedReplicas p.targets (readAll mem (segsOf ps.src)) := by
  unfold putSlot at h
  have hplaced := (holds_placeLoop _ _ _ _ _ hacc).of_ok hplace
  have hrooms : RoomSteps kb st p.st := hplaced.rooms
  simp only [hplace, ok_bind, hlanded, Bool.not_true, Bool.false_eq_true, if_false] at h
  obtain ⟨bytes, hgather, hstore⟩ := bind_eq_ok.mp h
  obtain ⟨stored, hstored, hlast⟩ := bind_eq_ok.mp hstore
  cases hlast
  have hbytes : bytes = readAll mem (segsOf ps.src) := by
    rw [gather_of_valid mem hvalid] at hgather
    split_ifs at hgather
    exact (Except.ok.inj hgather).symm
  obtain ⟨added, hadded, _, hpools, _⟩ := hplaced.targets
  rw [List.nil_append] at hadded
  have heffect : Stored kb i ps.spec.len p.targets bytes p.st after := by
    refine (holds_storeSlot ps.spec.len bytes (hrooms.protected_kept.1 spec hspec) hi ?_).of_ok
      hstored
    intro t ht
    rw [hrooms.pools_isSome]
    exact (hpools t (hadded ▸ ht)).1
  refine ⟨rfl, ?_⟩
  rw [heffect.replicas_self, hrooms.protected_kept.2 i, hempty, List.nil_append, hbytes]

theorem putSlot_decides {inner : Inner} {mem : UserMemory} {kb : Key} {i : ℕ} {ps : PutSlot}
    {st after : State} {r : Result Unit} {spec : ObjectSpec} {device : Device} (hacc : Accounted st)
    (hcovered : Covered st) (hvalid : ValidIovs ps.src device ps.spec.len)
    (hspec : specAt st.objects kb = some spec) (hi : i < spec.slots.length)
    (hempty : replicasAt st.objects kb i = [])
    (h : putSlot inner mem kb i ps st = .ok (r, after)) :
    DecidedBy inner mem kb i ps st r (replicasAt after.objects kb i) := by
  obtain ⟨p, hplace, hrest⟩ := bind_eq_ok.mp h
  obtain ⟨htaken, hrefused⟩ := placeLoop_decides hacc hcovered hplace
  refine ⟨?_, ?_⟩
  · intro targets htargets
    obtain ⟨hlanded, hp⟩ := htaken targets htargets
    rw [← hp]
    exact putSlot_landed hacc hvalid hspec hi hempty hplace hlanded h
  · intro hnone
    obtain ⟨hlanded, hcase⟩ := hrefused hnone
    simp only [hlanded, Bool.not_false, if_true] at hrest
    cases hrest
    refine ⟨_, rfl, ?_⟩
    rcases hcase with ⟨hcandidates, herr⟩ | ⟨c, hc, e, herr, hrefusal⟩
    · exact Or.inl ⟨hcandidates, by rw [herr, Option.getD_none]⟩
    · exact Or.inr ⟨c, hc, by rw [herr, Option.getD_some]; exact hrefusal⟩

/-! ### Every put of every run -/

/-- In a `put` on a covered state, each empty slot is decided by the policy, in the state that the
slots before it lead to. -/
theorem PutDone.decidedBy {inner : Inner} {mem : UserMemory} {kb : Key} {op : OpPut}
    {first st : State} {results : List (Result Unit)}
    (h : PutDone inner mem kb op first results st)
    (hcovered : ∀ done before, PutProgress inner mem kb op first done before →
      done.length < op.slots.length → Covered before) :
    ∃ writable reserved, first.reserve kb op.spec = .ok (writable, reserved) ∧
      ∀ i ps, op.slots[i]? = some ps → replicasAt first.objects kb i = [] →
        ∃ before r, putSlots inner mem kb writable (op.slots.take i) 0 [] reserved =
            .ok (results.take i, before) ∧
          PutProgress inner mem kb op first (results.take i) before ∧ results[i]? = some r ∧
          DecidedBy inner mem kb i ps before r (replicasAt st.objects kb i) := by
  obtain ⟨writable, reserved, hreserve, hdecided⟩ := h.decided
  refine ⟨writable, reserved, hreserve, ?_⟩
  intro i ps hps hempty
  have hlt : i < op.slots.length := (List.getElem?_eq_some_iff.mp hps).1
  have hbound : i < results.length := by
    rw [h.length]
    exact hlt
  have hresult : results[i]? = some results[i] := List.getElem?_eq_getElem hbound
  have hlength : (results.take i).length = i := by
    rw [List.length_take, h.length]
    omega
  obtain ⟨found, hfound,
    ⟨hwritten, _⟩ | ⟨_, before, after, hreaches, hprogress, hput, hreplicas⟩⟩ :=
    hdecided i _ hresult
  · exact absurd hempty hwritten
  · rw [hps, Option.some.injEq] at hfound
    subst hfound
    obtain ⟨device, hvalid⟩ := h.valid ps (List.mem_of_getElem? hps)
    have hspec : i < op.spec.slots.length := by
      rw [OpPut.spec, List.length_map]
      exact hlt
    have hbefore : replicasAt before.objects kb i = [] := by
      rw [hprogress.kept i ?_, hempty]
      rw [List.getElem?_eq_none_iff.mpr hlength.le]
      exact fun hfalse ↦ by cases hfalse
    refine ⟨before, _, ?_, hprogress, hresult, ?_⟩
    · unfold Reaches at hreaches
      rwa [hlength] at hreaches
    · rw [hreplicas]
      exact putSlot_decides hprogress.accounted
        (hcovered _ before hprogress (by rw [hlength]; exact hlt)) hvalid hprogress.spec_self hspec
        hbefore hput

/-- In every run of requests with at most `2 ^ 32` slots, every put that returns decides each empty
slot by the policy, in the state that the slots before it lead to. -/
theorem placement_exact {b : MemoryBuilder} {m₀ : UserMemory} {history : List Event} {w w' : World}
    {e : Event} {key : Key} {op : OpPut} {results : List (Result Unit)}
    (hrun : ((memory b m₀).restrict fun _ e ↦ FewSlots e.op).Run history w)
    (hstep : ((memory b m₀).restrict fun _ e ↦ FewSlots e.op).step w e w')
    (hop : e.op = .put key op) (hreply : e.reply = .put (.ok ⟨results⟩)) :
    ∃ writable reserved, w.state.reserve key op.spec = .ok (writable, reserved) ∧
      ∀ i ps, op.slots[i]? = some ps → replicasAt w.state.objects key i = [] →
        ∃ st r, putSlots b.inner w.mem key writable (op.slots.take i) 0 [] reserved =
            .ok (results.take i, st) ∧ results[i]? = some r ∧
          DecidedBy b.inner w.mem key i ps st r (replicasAt w'.state.objects key i) := by
  have hsound := run_sound hrun.of_restrict
  have hcovered := run_covered hrun
  have hfew : op.slots.length ≤ 2 ^ 32 := by
    have h : FewSlots e.op := hstep.1
    rw [hop] at h
    exact h
  have heffect := step_effect hsound hstep.2
  rw [hop, hreply] at heffect
  cases heffect with
  | put hdone =>
    obtain ⟨writable, reserved, hreserve, hslots⟩ := hdone.decidedBy fun done before hprogress hlt ↦
      Covered.put hprogress (hlt.le.trans hfew) hcovered
    refine ⟨writable, reserved, hreserve, ?_⟩
    intro i ps hps hempty
    obtain ⟨st, r, hput, _, hr, hdecided⟩ := hslots i ps hps hempty
    exact ⟨st, r, hput, hr, hdecided⟩

namespace Scenario

/-- A put of three bytes that prefers the full-size first device. -/
def putPrefer : OpPut := ⟨.cache, [slotOn (.prefer (.cpu 0)) 3]⟩

/-- The policy says where the slot lands: on the second device, flagged as misplaced, when the first
is too small. -/
theorem placement_exact_misplaced : ∃ e w' results,
    (memory (backend 2) mem).step (registered 2) e w' ∧ e.op = .put [1] putPrefer ∧
    e.reply = .put (.ok ⟨results⟩) ∧ results[0]? = some (.ok ()) ∧
    replicasAt w'.state.objects [1] 0 =
      ownedReplicas [(.cpu 1, true)] (readAll mem (segsOf [⟨buffer, 0, 3⟩])) := by
  have hrun := run_registered 2 (fun _ e ↦ FewSlots e.op) fun e he ↦ by rw [he]; trivial
  have hborrows : Borrows (registered 2) (.put [1] putPrefer) := by decide
  have hfew : FewSlots (.put [1] putPrefer) := by
    change 1 ≤ 2 ^ 32
    decide
  obtain ⟨results, w', hstep⟩ := exists_put hborrows
    (show (exec (backend 2).inner _ _).toOption.any _ = true by rfl)
  obtain ⟨writable, reserved, hreserve, hslots⟩ := placement_exact hrun ⟨hfew, hstep⟩ rfl rfl
  obtain ⟨st, r, hput, hr, hdecided⟩ := hslots 0 _ rfl rfl
  cases hreserve
  cases hput
  obtain ⟨hland, hreplicas⟩ := hdecided.lands [(.cpu 1, true)] (by rfl)
  exact ⟨_, w', results, hstep, rfl, rfl, hland ▸ hr, hreplicas⟩

/-! #### A slot that no entry names -/

/-- A slot that can be placed nowhere. -/
def nowhere : PutSlot := slotOn (.each []) 0

/-- One byte for the first device. -/
def oneByte : PutSlot := slotOn (.strict (.cpu 0)) 1

/-- One byte for the first device, after `n` slots that can be placed nowhere. -/
def tailByte (n : ℕ) : OpPut := ⟨.cache, List.replicate n nowhere ++ [oneByte]⟩

theorem slot_of_tailByte {n : ℕ} {ps : PutSlot} (h : ps ∈ (tailByte n).slots) :
    ps = nowhere ∨ ps = oneByte := by
  rcases List.mem_append.mp h with h | h
  · exact Or.inl (List.eq_of_mem_replicate h)
  · exact Or.inr (List.mem_singleton.mp h)

theorem tailByte_getElem? {n i : ℕ} (h : i < n) : (tailByte n).slots[i]? = some nowhere := by
  rw [tailByte, List.getElem?_append_left (by rw [List.length_replicate]; exact h),
    List.getElem?_replicate, if_pos h]

theorem tailByte_last (n : ℕ) : (tailByte n).slots[n]? = some oneByte := by
  rw [tailByte, List.getElem?_append_right (by rw [List.length_replicate]), List.length_replicate,
    Nat.sub_self]
  rfl

theorem tailByte_length (n : ℕ) : (tailByte n).slots.length = n + 1 := by
  rw [tailByte, List.length_append, List.length_replicate]
  rfl

theorem demand_tailByte (n : ℕ) : demand (tailByte n).slots = 1 := by
  rw [tailByte, demand, List.map_append, List.map_replicate, List.sum_append]
  rw [show copies nowhere.spec.placement * nowhere.spec.len = 0 from rfl, List.sum_replicate,
    nsmul_zero]
  rfl

theorem borrows_of_slots {w : World} {key : Key} {op : OpPut} (hregions : w.regions = [buffer])
    (h : ∀ ps ∈ op.slots, ps = nowhere ∨ ps = oneByte) : Borrows w (.put key op) := by
  refine ⟨?_, by simp [Op.drops]⟩
  intro iov hiov
  obtain ⟨ps, hps, hsrc⟩ := List.mem_flatMap.mp hiov
  rw [hregions]
  rcases h ps hps with rfl | rfl
  · rw [List.mem_singleton.mp hsrc]
    exact List.mem_singleton_self _
  · rw [List.mem_singleton.mp hsrc]
    exact List.mem_singleton_self _

/-- An admissible put of such slots under an absent key is carried out. -/
theorem exists_put_absent {w : World} {key : Key} {op : OpPut} (hsound : Sound w.state)
    (hundangling : Undangling w.state) (hadmissible : Admissible w (.put key op))
    (hregions : w.regions = [buffer]) (hnonempty : op.slots ≠ [])
    (hslots : ∀ ps ∈ op.slots, ps = nowhere ∨ ps = oneByte)
    (habsent : specAt w.state.objects key = none) :
    ∃ results st, (memory (backend 1) mem).step w ⟨.put key op, .put (.ok ⟨results⟩), w.mem⟩
        { w with state := st } ∧ PutDone (backend 1).inner w.mem key op w.state results st := by
  obtain ⟨⟨reply, w'⟩, hexec, heffect⟩ := (holds_exec (backend 1).inner (.put key op)
    hsound).exists_ok fun p ↦ not_opPanic hundangling hadmissible
  have hborrows : Borrows w (.put key op) := borrows_of_slots hregions hslots
  have hnone : w.state.objects.find? key = none := by
    simpa [specAt] using habsent
  cases heffect with
  | put hdone => exact ⟨_, _, ⟨hborrows, rfl, hexec⟩, hdone⟩
  | putRefused hreason =>
    exfalso
    rcases hreason with hvalidate | hreserve
    · rw [OpPut.validate_eq_ok hnonempty] at hvalidate
      · cases hvalidate
      · intro ps hps
        rcases hslots ps hps with rfl | rfl
        · rfl
        · rfl
    · unfold State.reserve at hreserve
      rw [hnone] at hreserve
      cases hreserve

/-- The slots that can be placed nowhere leave the backend empty. -/
theorem replicasAt_tailByte {n : ℕ} {m : UserMemory} {done : List (Result Unit)} {st : State}
    (h : PutProgress (backend 1).inner m [1] (tailByte n) (backend 1).state done st)
    (hdone : done.length ≤ n) (key : Key) (i : ℕ) : replicasAt st.objects key i = [] := by
  have hfirst : replicasAt (backend 1).state.objects key i = [] :=
    replicasAt_of_find?_none (SortedMap.find?_empty key) i
  by_cases hkey : key = [1]
  · subst hkey
    by_cases hok : done[i]? = some (.ok ())
    · have hi : i < n := (List.getElem?_eq_some_iff.mp hok).1.trans_le hdone
      obtain ⟨_, targets, hne, hsub, _⟩ := h.landed i nowhere (tailByte_getElem? hi) hok
      exact absurd (List.sublist_nil.mp hsub) hne
    · rw [h.kept i hok, hfirst]
  · have hsub := h.sublist_other hkey i
    rw [hfirst] at hsub
    exact List.sublist_nil.mp hsub

/-- Every object may be evicted. -/
def AllCache (st : State) : Prop :=
  ∀ key spec, specAt st.objects key = some spec → spec.retention = .cache

theorem allCache_start : AllCache (backend 1).state := by
  intro key spec hspec
  simp [specAt, MemoryBuilder.state, SortedMap.find?_empty] at hspec

theorem AllCache.put {inner : Inner} {m : UserMemory} {kb : Key} {op : OpPut} {first st : State}
    {done : List (Result Unit)} (h : PutProgress inner m kb op first done st)
    (hop : op.retention = .cache) (hfirst : AllCache first) : AllCache st := by
  intro key spec hspec
  by_cases hkey : key = kb
  · subst hkey
    rw [h.spec_self, Option.some.injEq] at hspec
    rw [← hspec]
    exact hop
  · exact hfirst key spec (h.spec_other hkey hspec)

/-- A byte fits on an empty-for-the-key device whose other bytes can be evicted. -/
theorem chosen_oneByte {st : State} {kb : Key} {pool : Pool}
    (hpool : st.pools (.cpu 0) = some pool) (hcapacity : pool.capacity = some 1)
    (hcache : AllCache st) (hempty : ∀ i, replicasAt st.objects kb i = []) :
    chosen (backend 1).inner st kb oneByte.spec = some [(.cpu 0, false)] := by
  have hpinned : pinnedOn kb (.cpu 0) st.objects ≤ 0 := by
    refine SortedMap.sumOn_le_of_find? st.objects SortedMap.empty ?_
    intro key obj hfind
    refine Or.inl ?_
    split_ifs with hcase
    · rcases hcase with hexplicit | rfl
      · have hretention := hcache key obj.spec (by simp [specAt, hfind])
        rw [hexplicit] at hretention
        cases hretention
      · apply Object.ownedOn_eq_zero
        intro i r hr
        have hnil := hempty i
        rw [replicasAt_of_find? hfind] at hnil
        rw [hnil] at hr
        cases hr
    · rfl
  have hfits : fitsOn st kb 1 (.cpu 0) = true := by
    unfold fitsOn
    rw [hpool]
    dsimp only
    rw [hcapacity]
    exact decide_eq_true (by omega)
  change (if fitsOn st kb 1 (.cpu 0) = true then _ else none) = _
  rw [if_pos hfits]

/-- The last slot lands, and the queue names it by its index modulo `2 ^ 32`. -/
theorem tailByte_lands {n : ℕ} {results : List (Result Unit)} {st : State}
    (h : PutDone (backend 1).inner mem [1] (tailByte n) (backend 1).state results st) :
    replicasAt st.objects [1] n = ownedReplicas [(.cpu 0, false)] [0] ∧
      ∀ device pool entry, st.pools device = some pool → entry ∈ pool.fifo →
        entry = queueEntry [1] n := by
  have hlength := h.length
  rw [tailByte_length] at hlength
  constructor
  · obtain ⟨_, _, _, hslots⟩ := h.decidedBy
      fun done before hprogress hlt device _ key i r _ _ hr ↦ by
      rw [tailByte_length] at hlt
      rw [replicasAt_tailByte hprogress (Nat.le_of_lt_succ hlt) key i] at hr
      cases hr
    obtain ⟨before, r, _, hprogress, _, hdecided⟩ := hslots n oneByte (tailByte_last n)
      (replicasAt_of_find?_none (SortedMap.find?_empty [1]) n)
    have htake : (results.take n).length ≤ n := List.length_take_le _ _
    have hsome : (before.pools (.cpu 0)).isSome = true := hprogress.pools_isSome (.cpu 0)
    obtain ⟨pool', hpool'⟩ := Option.isSome_iff_exists.mp hsome
    obtain ⟨pool, hpool, hcapacity, _⟩ := hprogress.pools (.cpu 0) pool' hpool'
    cases hpool
    exact (hdecided.lands _ (chosen_oneByte hpool' hcapacity
      (AllCache.put hprogress rfl allCache_start)
      (replicasAt_tailByte hprogress htake [1]))).2
  · intro device pool' entry hpool' hentry
    obtain ⟨gone, added, hdrained, hqueued⟩ := h.progress.drained
    obtain ⟨pool, kept, hpool, hmoved⟩ := hdrained.queues device pool' hpool'
    have hkept : kept = [] := by
      have hsub := hmoved.sublist
      rw [(buildPools_some hpool).2.1] at hsub
      exact List.sublist_nil.mp hsub
    rw [hmoved.after_eq, hkept, List.nil_append] at hentry
    obtain ⟨i, hi, rfl⟩ := List.mem_map.mp hentry
    have hok := hqueued.landed device i hi
    have hlt : i < results.length := (List.getElem?_eq_some_iff.mp hok).1
    by_cases hin : i < n
    · obtain ⟨_, targets, hne, hsub, _⟩ :=
        h.progress.landed i nowhere (tailByte_getElem? hin) hok
      exact absurd (List.sublist_nil.mp hsub) hne
    · rw [show i = n by omega]

/-- An object with a replica of one byte owns at least one. -/
theorem one_le_ownedOn {objects : Objects} {key : Key} {obj : Object} {i : ℕ} {byte : UInt8}
    (hfind : objects.find? key = some obj)
    (h : replicasAt objects key i = ownedReplicas [(.cpu 0, false)] [byte]) :
    1 ≤ obj.ownedOn (.cpu 0) := by
  rw [replicasAt_of_find? hfind] at h
  cases hslot : obj.slots[i]? with
  | none => simp [Object.replicasOf, hslot, ownedReplicas] at h
  | some slot =>
    rw [Object.replicasOf_of_getElem? hslot] at h
    have hle := Object.ownedBytes_le_ownedOn (.cpu 0) hslot
    rw [h] at hle
    exact hle

/-- The device has room for one of two bytes. -/
theorem not_both {st : State} {pool : Pool} {n : ℕ} {first second : UInt8} (hacc : Accounted st)
    (hpool : st.pools (.cpu 0) = some pool) (hused : pool.used ≤ 1)
    (h : replicasAt st.objects [1] n = ownedReplicas [(.cpu 0, false)] [first]) :
    replicasAt st.objects [2] 0 ≠ ownedReplicas [(.cpu 0, false)] [second] := by
  intro h'
  have howned := hacc (.cpu 0) pool hpool
  cases hfind : st.objects.find? [1] with
  | none => simp [replicasAt_of_find?_none hfind, ownedReplicas] at h
  | some obj =>
    cases hfind' : st.objects.find? [2] with
    | none => simp [replicasAt_of_find?_none hfind', ownedReplicas] at h'
    | some obj' =>
      have herase := ownedOn_erase_of_find? (.cpu 0) hfind
      have hother : (st.objects.erase [1]).find? [2] = some obj' := by
        rw [SortedMap.find?_erase, if_neg (by decide), hfind']
      have hle := Object.ownedOn_le (.cpu 0) hother
      have hone := one_le_ownedOn hfind h
      have hone' := one_le_ownedOn hfind' h'
      omega

/-- The slot that no entry names keeps its byte, so a put of one more byte does not land. -/
theorem not_ok_after_tailByte {n : ℕ} (hn : 0 < n) (hwrap : UInt32.ofNat n = 0) {m : UserMemory}
    {first st : State} {results : List (Result Unit)}
    (hslot : replicasAt first.objects [1] n = ownedReplicas [(.cpu 0, false)] [0])
    (hqueue : ∀ device pool entry, first.pools device = some pool → entry ∈ pool.fifo →
      entry = queueEntry [1] n)
    (hwithin : WithinCapacity first) {pool : Pool} (hpool : first.pools (.cpu 0) = some pool)
    (hcapacity : pool.capacity = some 1)
    (h : PutDone (backend 1).inner m [2] ⟨.cache, [oneByte]⟩ first results st) :
    results[0]? ≠ some (.ok ()) := by
  intro hok
  have hsome : (st.pools (.cpu 0)).isSome = true := by
    rw [h.progress.pools_isSome, hpool]
    rfl
  obtain ⟨pool', hpool'⟩ := Option.isSome_iff_exists.mp hsome
  obtain ⟨old, hold, hcapacity', _⟩ := h.progress.pools (.cpu 0) pool' hpool'
  rw [hpool, Option.some.injEq] at hold
  subst hold
  have hused : pool'.used ≤ 1 := by
    refine h.progress.within ?_ hwithin (.cpu 0) pool' 1 hpool' (hcapacity'.trans hcapacity)
    intro ps hps
    rw [List.mem_singleton.mp hps]
    trivial
  -- Losing the byte takes an entry that names slot `n`, and the only entry names slot 0.
  have hkept : replicasAt st.objects [1] n = ownedReplicas [(.cpu 0, false)] [0] := by
    have hsub := h.progress.sublist_other (show [1] ≠ [2] by decide) n
    rw [hslot] at hsub
    rcases List.sublist_singleton.mp hsub with hnil | hsame
    · exfalso
      obtain ⟨gone, added, hdrained, _⟩ := h.progress.drained
      have hmem : ⟨.cpu 0, .dram, false, .owned [0]⟩ ∈ replicasAt first.objects [1] n := by
        rw [hslot]
        exact List.mem_singleton_self _
      obtain ⟨_, device, _, howned, entry, hentry, _, hnamed⟩ :=
        hdrained.lost [1] n _ (by decide) hmem (by rw [hnil]; exact List.not_mem_nil)
      have hdevice : device = .cpu 0 := (ReplicaEntry.ownedOn_iff.mp howned).1.symm
      subst hdevice
      obtain ⟨before, kept, hbefore, hmoved⟩ := hdrained.queues _ pool' hpool'
      have hother : entry ∈ othersOf [2] before.fifo := by
        rw [hmoved.others]
        exact List.mem_append_left _ hentry
      rw [hqueue _ before entry hbefore (mem_othersOf.mp hother).1, queueEntry, hwrap] at hnamed
      exact absurd hnamed hn.ne
    · exact hsame
  obtain ⟨_, targets, hne, hsub, _, hreplicas⟩ := h.progress.landed 0 oneByte rfl hok
  rcases List.sublist_singleton.mp hsub with hnil | hsame
  · exact hne hnil
  · rw [hsame] at hreplicas
    exact not_both h.progress.accounted hpool' hused hkept hreplicas

theorem admissible_tailByte (n : ℕ) : Admissible (registered 1) (.put [1] (tailByte n)) := by
  refine admissible_registered 1 ?_ ?_
  · rw [demand_tailByte]
    decide
  · intro ps hps
    rcases slot_of_tailByte hps with rfl | rfl
    · decide
    · decide

theorem exists_tailByte_step (n : ℕ) : ∃ results st,
    (memory (backend 1) mem).step (registered 1)
        ⟨.put [1] (tailByte n), .put (.ok ⟨results⟩), mem⟩ { registered 1 with state := st } ∧
      PutDone (backend 1).inner mem [1] (tailByte n) (backend 1).state results st := by
  refine exists_put_absent (backend 1).state_sound (backend 1).state_undangling
    (admissible_tailByte n) rfl ?_ (fun ps ↦ slot_of_tailByte) ?_
  · exact List.append_ne_nil_of_right_ne_nil _ (List.cons_ne_nil _ _)
  · simp [specAt, registered, MemoryBuilder.state, SortedMap.find?_empty]

/-- The put of the last slot leaves the backend ready for another key. -/
theorem admissible_after_tailByte {n : ℕ} {results : List (Result Unit)} {st : State}
    (h : PutDone (backend 1).inner mem [1] (tailByte n) (backend 1).state results st) :
    Admissible { registered 1 with state := st } (.put [2] ⟨.cache, [oneByte]⟩) := by
  refine ⟨?_, ?_, ?_⟩
  · intro _ _ device pool entry hpool hentry hname
    rw [(tailByte_lands h).2 device pool entry hpool hentry] at hname
    exact absurd hname (show [1] ≠ [2] by decide)
  · intro device pool' hpool'
    obtain ⟨pool, hpool, _, hused⟩ := h.progress.pools device pool' hpool'
    have hle := demand_take_le (tailByte n).slots results.length
    rw [demand_tailByte] at hle
    rw [(buildPools_some hpool).1] at hused
    change pool'.used + 1 < 2 ^ 64
    omega
  · intro ps hps
    rw [List.mem_singleton.mp hps]
    decide

theorem withinCapacity_after_tailByte {n : ℕ} {results : List (Result Unit)} {st : State}
    (h : PutDone (backend 1).inner mem [1] (tailByte n) (backend 1).state results st) :
    WithinCapacity st := by
  refine h.progress.within ?_ ?_
  · intro ps hps
    rcases slot_of_tailByte hps with rfl | rfl
    · exact List.nodup_nil
    · trivial
  · intro device pool cap hpool _
    rw [(buildPools_some hpool).1]
    exact Nat.zero_le cap

/-- After a put whose last slot has index `2 ^ 32`, a byte that fits once that slot is evicted is
refused. -/
theorem unqueued_slot_blocks_device : ∃ history w e w' results writable reserved,
    (memory (backend 1) mem).Run history w ∧ (memory (backend 1) mem).step w e w' ∧
    e.op = .put [2] ⟨.cache, [oneByte]⟩ ∧ e.reply = .put (.ok ⟨results⟩) ∧
    w.state.reserve [2] ⟨.cache, [oneByte.spec]⟩ = .ok (writable, reserved) ∧
    replicasAt w.state.objects [2] 0 = [] ∧
    putSlots (backend 1).inner w.mem [2] writable [] 0 [] reserved = .ok ([], reserved) ∧
    chosen (backend 1).inner reserved [2] oneByte.spec = some [(.cpu 0, false)] ∧
    results[0]? ≠ some (.ok ()) := by
  obtain ⟨n, hn, hwrap⟩ : ∃ n : ℕ, 0 < n ∧ UInt32.ofNat n = 0 := ⟨2 ^ 32, by decide, by decide⟩
  obtain ⟨firstResults, st, hfirst, hdone⟩ := exists_tailByte_step n
  have hrun : (memory (backend 1) mem).Run _ { registered 1 with state := st } :=
    System.Run.snoc (run_registered 1 (fun _ _ ↦ True) fun _ _ ↦ trivial).of_restrict hfirst
  have habsent : specAt st.objects [2] = none := by
    cases hspec : specAt st.objects [2] with
    | none => rfl
    | some spec =>
      have hstart := hdone.progress.spec_other (show [2] ≠ [1] by decide) hspec
      simp [specAt, MemoryBuilder.state, SortedMap.find?_empty] at hstart
  have hundangling : Undangling st := Undangling.put hdone.progress hdone.length
    (admissible_tailByte n).1 (backend 1).state_undangling
  obtain ⟨results, last, hstep, hlast⟩ := exists_put_absent (run_sound hrun) hundangling
    (admissible_after_tailByte hdone) rfl (List.cons_ne_nil _ _)
    (fun ps hps ↦ Or.inr (List.mem_singleton.mp hps)) habsent
  obtain ⟨writable, reserved, hreserve, _⟩ := hlast.decided
  have hreserved := State.reserve_ok hreserve
  have hempty : ∀ i, replicasAt st.objects [2] i = [] := specAt_none_replicasAt habsent
  have hsome : (st.pools (.cpu 0)).isSome = true := hdone.progress.pools_isSome (.cpu 0)
  obtain ⟨pool, hpool⟩ := Option.isSome_iff_exists.mp hsome
  obtain ⟨fresh, hfresh, hcapacity, _⟩ := hdone.progress.pools (.cpu 0) pool hpool
  cases hfresh
  have hcache : AllCache reserved := by
    have hprogress : PutProgress (backend 1).inner mem [2] ⟨.cache, [oneByte]⟩ st [] reserved :=
      PutProgress.start hreserved (run_sound hrun).accounted
    exact AllCache.put hprogress rfl (AllCache.put hdone.progress rfl allCache_start)
  obtain ⟨hslot, hqueue⟩ := tailByte_lands hdone
  exact ⟨_, _, _, _, results, writable, reserved, hrun, hstep, rfl, rfl, hreserve, hempty 0, rfl,
    chosen_oneByte (by rw [hreserved.pools]; exact hpool) hcapacity hcache
      (fun i ↦ (hreserved.replicas [2] i).trans (hempty i)),
    not_ok_after_tailByte hn hwrap hslot hqueue (withinCapacity_after_tailByte hdone) hpool
      hcapacity hlast⟩

end Scenario

end Pegastore.Memory
