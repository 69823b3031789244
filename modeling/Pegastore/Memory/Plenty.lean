import Pegastore.Memory.Accounting

/-!
# Putting where there is room

When every device has room for its share of a request (`State.Takes`), making room evicts nothing
and changes nothing (`makeRoom_of_fits`), so a slot is decided by its placement alone: it lands on
all devices of an `Each` list or on the first candidate, it fails because a device is not served, or
because there is none. Only `Prefer` with a device that is not served goes on to other devices
(`noSpace_of_unserved`), and a slot that lands panics when its bytes do not fit in a vector
(`putSlot_overflows`).
-/

set_option autoImplicit false
set_option relaxedAutoImplicit false

namespace Pegastore.Memory

open Outcome ByteMemory Transition

/-- A device has room for `bytes` more bytes, and so has its counter. -/
def Pool.Fits (pool : Pool) (bytes : ℕ) : Prop :=
  pool.used + bytes < 2 ^ 64 ∧ ∀ cap, pool.capacity = some cap → pool.used + bytes ≤ cap

/-- The candidates of a slot that are needed when each has room: all of them, or the first one. -/
def needed (each : Bool) (candidates : List (Device × Bool)) : List (Device × Bool) :=
  if each then candidates else candidates.take 1

/-- The targets of a slot when there is room. -/
def Inner.wanted (inner : Inner) (placement : Placement) : List (Device × Bool) :=
  needed (isEach placement) (inner.candidates placement)

/-- The bytes that slots put on a device when there is room. -/
def load (inner : Inner) (slots : List PutSlot) (device : Device) : ℕ :=
  (slots.map fun ps ↦ hits (inner.wanted ps.spec.placement) device * ps.spec.len).sum

/-- Every device has room for its share of the slots. -/
def State.Takes (st : State) (inner : Inner) (slots : List PutSlot) : Prop :=
  ∀ device pool, st.pools device = some pool → pool.Fits (load inner slots device)

theorem Pool.Fits.mono {pool : Pool} {bytes less : ℕ} (h : pool.Fits bytes) (hle : less ≤ bytes) :
    pool.Fits less := by
  refine ⟨by have hcounter := h.1; omega, fun cap hcap ↦ ?_⟩
  have hroom := h.2 cap hcap
  omega

theorem load_cons (inner : Inner) (ps : PutSlot) (slots : List PutSlot) (device : Device) :
    load inner (ps :: slots) device =
      hits (inner.wanted ps.spec.placement) device * ps.spec.len + load inner slots device := by
  unfold load
  rw [List.map_cons, List.sum_cons]

/-- A target of the first slot has room for it. -/
theorem State.Takes.fits {st : State} {inner : Inner} {ps : PutSlot} {slots : List PutSlot}
    (h : st.Takes inner (ps :: slots)) {target : Device × Bool}
    (htarget : target ∈ inner.wanted ps.spec.placement) {pool : Pool}
    (hpool : st.pools target.1 = some pool) : pool.Fits ps.spec.len := by
  refine (h target.1 pool hpool).mono ?_
  have hhit : 0 < hits (inner.wanted ps.spec.placement) target.1 :=
    List.count_pos_iff.mpr (List.mem_map_of_mem htarget)
  have hone := Nat.le_mul_of_pos_left ps.spec.len hhit
  rw [load_cons]
  omega

theorem State.Takes.tail {st : State} {inner : Inner} {ps : PutSlot} {slots : List PutSlot}
    (h : st.Takes inner (ps :: slots)) : st.Takes inner slots := by
  intro device pool hpool
  refine (h device pool hpool).mono ?_
  rw [load_cons]
  exact Nat.le_add_left _ _

/-! ### Making room -/

/-- The loop of `make_room` does nothing when there is room. -/
theorem makeRoomLoop_of_room {device : Device} {need cap used : ℕ} {protect : Key}
    {objects : Objects} (hcounter : used + need < 2 ^ 64) (hroom : used + need ≤ cap)
    (fifo deferred : List FifoEntry) :
    makeRoomLoop device need cap protect fifo objects used deferred =
      .ok ⟨fifo, objects, used, deferred⟩ := by
  have hadd : addU64 used need = .ok (used + need) := addU64_eq_ok.mpr ⟨hcounter, rfl⟩
  cases fifo with
  | nil =>
    rw [makeRoomLoop, hadd]
    rfl
  | cons entry fifo =>
    rw [makeRoomLoop, hadd, ok_bind, if_pos hroom]

/-- Making room where there is room changes nothing. -/
theorem makeRoom_of_fits {st : State} {device : Device} {need : ℕ} {pool : Pool}
    (hpool : st.pools device = some pool) (hfits : pool.Fits need) (protect : Key) :
    st.makeRoom device need protect = .ok (true, st) := by
  obtain ⟨hcounter, hcap⟩ := hfits
  unfold State.makeRoom
  rw [hpool, unwrap, ok_bind]
  cases hcapacity : pool.capacity with
  | none => rfl
  | some cap =>
    have hroom := hcap cap hcapacity
    have hsame : some (⟨some cap, pool.used, [] ++ pool.fifo⟩ : Pool) = st.pools device := by
      rw [hpool, ← hcapacity, List.nil_append]
    dsimp only
    rw [if_neg (by omega), makeRoomLoop_of_room hcounter hroom, ok_bind,
      addU64_eq_ok.mpr ⟨hcounter, rfl⟩, ok_bind, decide_eq_true hroom]
    dsimp only
    rw [hsame, Function.update_eq_self]

/-- Making room adds no device and removes none. -/
theorem makeRoom_isSome {st st' : State} {device : Device} {need : ℕ} {protect : Key} {fit : Bool}
    (h : st.makeRoom device need protect = .ok (fit, st')) (other : Device) :
    (st'.pools other).isSome = (st.pools other).isSome := by
  unfold State.makeRoom at h
  obtain ⟨pool, hpool, h⟩ := bind_eq_ok.mp h
  split at h
  · cases h
    rfl
  · split_ifs at h
    · cases h
      rfl
    · obtain ⟨room, _, h⟩ := bind_eq_ok.mp h
      obtain ⟨total, _, h⟩ := bind_eq_ok.mp h
      cases h
      change (Function.update st.pools device _ other).isSome = _
      by_cases heq : other = device
      · rw [heq, Function.update_self, unwrap_eq_ok.mp hpool]
        rfl
      · rw [Function.update_of_ne heq]

/-! ### The candidate loop -/

section Candidates

variable (each : Bool) (len : ℕ) (kb : Key)

/-- The candidate loop takes the candidates it needs. -/
theorem placeLoop_served (candidates : List (Device × Bool)) : ∀ p : Placing,
    (∀ c ∈ needed each candidates, ∃ pool, p.st.pools c.1 = some pool ∧ pool.Fits len) →
      placeLoop each len kb candidates p =
        .ok { p with targets := p.targets ++ needed each candidates } := by
  induction candidates with
  | nil =>
    intro p _
    have hnil : needed each [] = [] := by cases each <;> rfl
    rw [hnil, List.append_nil]
    rfl
  | cons c candidates ih =>
    intro p hserved
    have hfirst : c ∈ needed each (c :: candidates) := by
      cases each <;> exact List.mem_cons_self
    obtain ⟨pool, hpool, hfits⟩ := hserved c hfirst
    have hsome : ¬ (p.st.pools c.1).isNone = true := by
      rw [hpool]
      exact Bool.false_ne_true
    rw [placeLoop, if_neg hsome, makeRoom_of_fits hpool hfits kb, ok_bind]
    dsimp only
    rw [if_pos rfl]
    cases each with
    | false => rfl
    | true =>
      rw [if_pos rfl, ih { p with targets := p.targets ++ [(c.1, c.2)] } fun d hd ↦
        hserved d (List.mem_cons_of_mem _ hd)]
      change Except.ok { p with targets := (p.targets ++ [c]) ++ candidates } = _
      rw [List.append_assoc]
      rfl

/-- An `Each` list with a device that is not served stops there. -/
theorem placeLoop_unknown (candidates : List (Device × Bool)) : ∀ p : Placing,
    (∀ c ∈ candidates, ∀ pool, p.st.pools c.1 = some pool → pool.Fits len) →
    (∃ c ∈ candidates, p.st.pools c.1 = none) → ∃ targets device,
      placeLoop true len kb candidates p = .ok ⟨p.st, targets, some (unknownDevice device)⟩ := by
  induction candidates with
  | nil =>
    intro p _ hunknown
    obtain ⟨c, hc, _⟩ := hunknown
    exact absurd hc List.not_mem_nil
  | cons c candidates ih =>
    intro p hfits hunknown
    rw [placeLoop]
    cases hpool : p.st.pools c.1 with
    | none =>
      rw [if_pos rfl]
      exact ⟨p.targets, c.1, rfl⟩
    | some pool =>
      have hroom := makeRoom_of_fits hpool (hfits c List.mem_cons_self pool hpool) kb
      rw [if_neg (show ¬ (some pool).isNone = true from Bool.false_ne_true), hroom, ok_bind]
      dsimp only
      rw [if_pos rfl, if_pos rfl]
      refine ih { p with targets := p.targets ++ [(c.1, c.2)] }
        (fun d hd ↦ hfits d (List.mem_cons_of_mem _ hd)) ?_
      obtain ⟨d, hd, hnone⟩ := hunknown
      rcases List.mem_cons.mp hd with rfl | hd
      · rw [hpool] at hnone
        cases hnone
      · exact ⟨d, hd, hnone⟩

/-- A search among devices that are served ends with a target or for lack of space. -/
theorem placeLoop_ends (candidates : List (Device × Bool)) : ∀ p p' : Placing,
    (∀ c ∈ candidates, (p.st.pools c.1).isSome = true) →
    (candidates = [] → ∃ e, p.err = some e ∧ e.kind = .noSpace) →
    placeLoop false len kb candidates p = .ok p' →
      p'.targets ≠ [] ∨ ∃ e, p'.err = some e ∧ e.kind = .noSpace := by
  induction candidates with
  | nil =>
    intro p p' _ hlast h
    cases h
    exact .inr (hlast rfl)
  | cons c candidates ih =>
    intro p p' hserved _ h
    obtain ⟨q, more, hturn, h⟩ := placeLoop_turn h
    cases hturn with
    | unknown hnone =>
      have hsome := hserved c List.mem_cons_self
      rw [hnone] at hsome
      cases hsome
    | fits =>
      cases h
      exact .inl (List.append_ne_nil_of_right_ne_nil _ (List.cons_ne_nil _ _))
    | full hroom =>
      refine ih _ p' (fun d hd ↦ ?_) (fun _ ↦ ⟨noSpace c.1 len, rfl, rfl⟩) h
      rw [makeRoom_isSome hroom]
      exact hserved d (List.mem_cons_of_mem _ hd)

end Candidates

/-! ### One slot -/

section Slot

variable {inner : Inner} {kb : Key} {i : ℕ} {ps : PutSlot} {slots : List PutSlot} {st : State}

/-- What a landed slot leaves has room for the others. -/
theorem Stored.takes {bytes : List UInt8} {after : State}
    (h : Stored kb i ps.spec.len (inner.wanted ps.spec.placement) bytes st after)
    (htakes : st.Takes inner (ps :: slots)) : after.Takes inner slots := by
  intro device pool hpool
  rw [h.pools device] at hpool
  obtain ⟨old, hold, rfl⟩ := Option.map_eq_some_iff.mp hpool
  obtain ⟨hcounter, hcap⟩ := htakes device old hold
  rw [load_cons, ← Nat.add_assoc] at hcounter hcap
  exact ⟨hcounter, hcap⟩

theorem Stored.isSome_pools {len : ℕ} {targets : List (Device × Bool)} {bytes : List UInt8}
    {after : State} (h : Stored kb i len targets bytes st after) (device : Device) :
    (after.pools device).isSome = (st.pools device).isSome := by
  rw [h.pools device, Option.isSome_map]

/-- A slot from what its candidate loop ends with. -/
theorem putSlot_eq (mem : UserMemory) {p : Placing}
    (hplace : placeLoop (isEach ps.spec.placement) ps.spec.len kb
      (inner.candidates ps.spec.placement) ⟨st, [], none⟩ = .ok p) :
    putSlot inner mem kb i ps st =
      if !p.landed (isEach ps.spec.placement) then
        .ok (.error ((p.err.getD (Error.new .noSpace "no device available")).withContext "slot"
          (.num i)), p.st)
      else gather mem ps.src >>= fun bytes ↦
        storeSlot kb i ps.spec.len p.targets bytes p.st >>= fun st ↦ .ok (.ok (), st) := by
  unfold putSlot
  dsimp only
  rw [hplace, ok_bind]

/-- A slot whose targets are served copies its bytes and stores them there. -/
theorem putSlot_of_served (kb : Key) (i : ℕ) (mem : UserMemory)
    (htakes : st.Takes inner (ps :: slots)) (hsome : inner.wanted ps.spec.placement ≠ [])
    (hserved : ∀ t ∈ inner.wanted ps.spec.placement, (st.pools t.1).isSome = true) :
    putSlot inner mem kb i ps st = gather mem ps.src >>= fun bytes ↦
      storeSlot kb i ps.spec.len (inner.wanted ps.spec.placement) bytes st >>= fun st ↦
        .ok (.ok (), st) := by
  have hplace := placeLoop_served (isEach ps.spec.placement) ps.spec.len kb
    (inner.candidates ps.spec.placement) ⟨st, [], none⟩ fun c hc ↦ by
      obtain ⟨pool, hpool⟩ := Option.isSome_iff_exists.mp (hserved c hc)
      exact ⟨pool, hpool, htakes.fits hc hpool⟩
  have hlanded : Placing.landed (isEach ps.spec.placement)
      ⟨st, inner.wanted ps.spec.placement, none⟩ = true := by
    have hne : (!(inner.wanted ps.spec.placement).isEmpty) = true := by
      rw [Bool.not_eq_true', List.isEmpty_eq_false_iff]
      exact hsome
    unfold Placing.landed
    cases isEach ps.spec.placement with
    | true => exact hne
    | false => exact hne
  rw [putSlot_eq mem hplace]
  change (if (!Placing.landed _ ⟨st, inner.wanted ps.spec.placement, none⟩) = true then _
    else _) = _
  rw [hlanded, if_neg (show ¬ (!true) = true from Bool.false_ne_true)]
  rfl

/-- A slot lands on the targets it needs when they are served. -/
theorem exists_putSlot_stored (mem : UserMemory) {device : Device}
    (hvalid : ValidIovs ps.src device ps.spec.len) (hlen : ps.spec.len ≤ isizeMax)
    (htakes : st.Takes inner (ps :: slots)) (hsome : inner.wanted ps.spec.placement ≠ [])
    (hserved : ∀ t ∈ inner.wanted ps.spec.placement, (st.pools t.1).isSome = true)
    {spec : ObjectSpec} (hspec : specAt st.objects kb = some spec) (hi : i < spec.slots.length) :
    ∃ st', putSlot inner mem kb i ps st = .ok (.ok (), st') ∧
      Stored kb i ps.spec.len (inner.wanted ps.spec.placement) (readAll mem (segsOf ps.src)) st
        st' := by
  have hfits : ∀ p, ¬ (p = Panic.addOverflow ∧ ∃ device pool, st.pools device = some pool ∧
      2 ^ 64 ≤ pool.used + hits (inner.wanted ps.spec.placement) device * ps.spec.len) := by
    rintro p ⟨_, device, pool, hpool, hover⟩
    have hcounter := (htakes device pool hpool).1
    rw [load_cons] at hcounter
    omega
  obtain ⟨st', hstore, hstored⟩ := (holds_storeSlot ps.spec.len (readAll mem (segsOf ps.src)) hspec
    hi hserved).exists_ok hfits
  refine ⟨st', ?_, hstored⟩
  rw [putSlot_of_served kb i mem htakes hsome hserved, gather_of_valid mem hvalid, if_pos hlen,
    ok_bind, hstore]
  rfl

/-- A slot whose targets are served panics when its bytes do not fit in a vector. -/
theorem putSlot_overflows (kb : Key) (i : ℕ) (mem : UserMemory) {device : Device}
    (hvalid : ValidIovs ps.src device ps.spec.len) (hlen : isizeMax < ps.spec.len)
    (htakes : st.Takes inner (ps :: slots)) (hsome : inner.wanted ps.spec.placement ≠ [])
    (hserved : ∀ t ∈ inner.wanted ps.spec.placement, (st.pools t.1).isSome = true) :
    putSlot inner mem kb i ps st = .error .capacityOverflow := by
  rw [putSlot_of_served kb i mem htakes hsome hserved, gather_of_valid mem hvalid,
    if_neg (not_le.mpr hlen)]
  rfl

/-- A slot fails when one of its candidates is not served, and it has no other choice. -/
theorem exists_putSlot_unknown (kb : Key) (i : ℕ) (mem : UserMemory)
    (htakes : st.Takes inner (ps :: slots))
    (hall : inner.wanted ps.spec.placement = inner.candidates ps.spec.placement)
    (hunknown : ∃ c ∈ inner.candidates ps.spec.placement, st.pools c.1 = none) :
    ∃ e, e.kind = .invalidInput ∧ putSlot inner mem kb i ps st = .ok (.error e, st) := by
  have hplace : ∃ targets device, placeLoop (isEach ps.spec.placement) ps.spec.len kb
      (inner.candidates ps.spec.placement) ⟨st, [], none⟩ =
        .ok ⟨st, targets, some (unknownDevice device)⟩ ∧
      Placing.landed (isEach ps.spec.placement)
        ⟨st, targets, some (unknownDevice device)⟩ = false := by
    cases heach : isEach ps.spec.placement with
    | true =>
      obtain ⟨targets, device, hplace⟩ := placeLoop_unknown ps.spec.len kb
        (inner.candidates ps.spec.placement) ⟨st, [], none⟩
        (fun c hc pool hpool ↦ htakes.fits (by rw [hall]; exact hc) hpool) hunknown
      exact ⟨targets, device, hplace, rfl⟩
    | false =>
      -- A single candidate is left: the loop tries it and ends.
      unfold Inner.wanted needed at hall
      rw [heach, if_neg Bool.false_ne_true] at hall
      obtain ⟨c, hc, hnone⟩ := hunknown
      rw [← hall] at hc ⊢
      cases hcandidates : inner.candidates ps.spec.placement with
      | nil =>
        rw [hcandidates] at hc
        exact absurd hc List.not_mem_nil
      | cons d candidates =>
        rw [hcandidates] at hc
        cases List.mem_singleton.mp hc
        refine ⟨[], c.1, ?_, rfl⟩
        change placeLoop false ps.spec.len kb [c] ⟨st, [], none⟩ = _
        rw [placeLoop, if_pos (by rw [hnone]; rfl)]
        rfl
  obtain ⟨targets, device, hplace, hlanded⟩ := hplace
  refine ⟨(unknownDevice device).withContext "slot" (.num i), rfl, ?_⟩
  rw [putSlot_eq mem hplace, hlanded]
  rfl

/-- A slot that prefers a device which is not served lands on another one or finds no space. -/
theorem noSpace_of_unserved {mem : UserMemory} {device : Device}
    (hprefer : ps.spec.placement = .prefer device) (hunserved : st.pools device = none)
    (hserved : ∀ d ∈ inner.deviceOrder, (st.pools d).isSome = true)
    (hsome : inner.deviceOrder ≠ []) {st' : State} {e : Error}
    (h : putSlot inner mem kb i ps st = .ok (.error e, st')) : e.kind = .noSpace := by
  unfold putSlot at h
  obtain ⟨p, hplace, h⟩ := bind_eq_ok.mp h
  rw [hprefer] at hplace h
  change placeLoop false ps.spec.len kb ((device, false) :: _) _ = _ at hplace
  rw [placeLoop, if_pos (by rw [hunserved]; rfl)] at hplace
  have hothers : ∀ c ∈ (inner.deviceOrder.filter fun x ↦ x ≠ device).map fun x ↦ (x, true),
      (st.pools c.1).isSome = true := by
    intro c hc
    obtain ⟨d, hd, rfl⟩ := List.mem_map.mp hc
    exact hserved d (List.mem_of_mem_filter hd)
  have hne : (inner.deviceOrder.filter fun x ↦ x ≠ device).map (fun x ↦ (x, true)) ≠ [] := by
    obtain ⟨d, rest, hdevices⟩ := List.exists_cons_of_ne_nil hsome
    have hd : d ∈ inner.deviceOrder := by
      rw [hdevices]
      exact List.mem_cons_self
    have hother : d ≠ device := by
      rintro rfl
      have hpool := hserved d hd
      rw [hunserved] at hpool
      cases hpool
    exact List.ne_nil_of_mem
      (List.mem_map_of_mem (List.mem_filter.mpr ⟨hd, decide_eq_true hother⟩))
  have hends := placeLoop_ends ps.spec.len kb _ _ p hothers (fun hnil ↦ absurd hnil hne) hplace
  split_ifs at h with hlanded
  · cases h
    rcases hends with htargets | ⟨err, herr, hkind⟩
    · -- with a target the slot would have landed
      refine absurd ?_ htargets
      have hempty : (!(!p.targets.isEmpty)) = true := hlanded
      rw [Bool.not_not, List.isEmpty_iff] at hempty
      exact hempty
    · rw [herr]
      exact hkind
  · obtain ⟨bytes, _, h⟩ := bind_eq_ok.mp h
    obtain ⟨stored, _, h⟩ := bind_eq_ok.mp h
    cases h

/-- A slot without candidates fails. -/
theorem putSlot_nowhere (mem : UserMemory) (hnone : inner.candidates ps.spec.placement = []) :
    putSlot inner mem kb i ps st = .ok (.error
      ((Error.new .noSpace "no device available").withContext "slot" (.num i)), st) := by
  have hplace : placeLoop (isEach ps.spec.placement) ps.spec.len kb
      (inner.candidates ps.spec.placement) ⟨st, [], none⟩ = .ok ⟨st, [], none⟩ := by
    rw [hnone]
    rfl
  have hlanded : Placing.landed (isEach ps.spec.placement) ⟨st, [], none⟩ = false := by
    cases isEach ps.spec.placement <;> rfl
  rw [putSlot_eq mem hplace, hlanded]
  rfl

end Slot

/-! ### Served devices -/

theorem isSome_foldl_pools (devices : List (Device × Option ℕ)) (device : Device) :
    ∀ pools : Device → Option Pool,
      (devices.foldl (fun (pools : Device → Option Pool) d ↦
        Function.update pools d.1 (some ⟨d.2, 0, []⟩)) pools device).isSome = true ↔
        (pools device).isSome = true ∨ device ∈ devices.map Prod.fst := by
  induction devices with
  | nil =>
    intro pools
    rw [List.foldl_nil, List.map_nil]
    exact ⟨.inl, fun h ↦ h.resolve_right List.not_mem_nil⟩
  | cons first devices ih =>
    intro pools
    rw [List.foldl_cons, ih, List.map_cons, List.mem_cons]
    by_cases heq : device = first.1
    · rw [heq, Function.update_self]
      exact ⟨fun _ ↦ .inr (.inl rfl), fun _ ↦ .inl rfl⟩
    · rw [Function.update_of_ne heq]
      exact or_congr_right (iff_or_self.mpr fun h ↦ absurd h heq)

/-- In every reachable state the devices the backend was built with have pools, and no others. -/
theorem run_served {b : MemoryBuilder} {m₀ : UserMemory} {history : List Event} {w : World}
    (hrun : (memory b m₀).Run history w) (device : Device) :
    (w.state.pools device).isSome = true ↔ device ∈ b.inner.deviceOrder := by
  have hsame : SameCapacities b.state w.state := by
    refine System.Run.induction (I := fun _ w ↦ SameCapacities b.state w.state) (fun _ ↦ rfl) ?_
      hrun
    intro history w e w' hrun hw hstep other
    rw [(step_effect (run_sound hrun) hstep).sameCapacities other, hw other]
  rw [← Option.isSome_map (f := Pool.capacity), hsame device, Option.isSome_map]
  exact (isSome_foldl_pools b.deviceList device _).trans
    ⟨fun h ↦ h.resolve_left Bool.false_ne_true, .inr⟩

end Pegastore.Memory
