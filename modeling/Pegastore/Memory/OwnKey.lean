import Pegastore.Memory.Placement

/-!
# What a put does to its own key

A put fills slots that were empty and leaves the others as they are (`OwnSlots`): a resident slot
reports that it is written, a landed slot holds the replicas of the targets its candidate loop
returned, and a slot with another error is still empty. Making room for a later slot runs on devices
that hold earlier slots of the same key; the key is protected there, so what the first phase decided
about a slot stays true until the slot is reached (`PutProgress.kept`). `put_fills_own_slots` is the
result for every put of every run, with the repetition of the put.
-/

set_option autoImplicit false
set_option relaxedAutoImplicit false

namespace Pegastore.Memory

open Outcome ByteMemory Transition

/-! ### The targets of a placement -/

/-- The targets a placement asks for: every device with `Each`, otherwise one device it allows. -/
def Takes (inner : Inner) (targets : List (Device × Bool)) : Placement → Prop
  | .strict d => targets = [(d, false)]
  | .prefer d => targets = [(d, false)] ∨ ∃ x ∈ inner.deviceOrder, x ≠ d ∧ targets = [(x, true)]
  | .each ds => ds ≠ [] ∧ targets = ds.map fun d ↦ (d, false)
  | .anywhere => ∃ x ∈ inner.deviceOrder, targets = [(x, false)]

/-- With `Each`, a candidate loop without an error has taken every candidate. -/
theorem targets_of_each {len : ℕ} {kb : Key} (candidates : List (Device × Bool)) :
    ∀ {p p' : Placing}, placeLoop true len kb candidates p = .ok p' → p'.err = none →
      p'.targets = p.targets ++ candidates := by
  induction candidates with
  | nil =>
    intro p p' h _
    cases h
    exact (List.append_nil _).symm
  | cons c rest ih =>
    intro p p' h herr
    obtain ⟨q, more, hturn, h⟩ := placeLoop_turn h
    cases hturn with
    | unknown =>
      cases h
      cases herr
    | fits => rw [ih h herr, List.append_assoc, List.singleton_append]
    | full =>
      cases h
      cases herr

/-- A candidate loop that found what it needs took what the placement asks for. -/
theorem takes_of_landed {inner : Inner} {kb : Key} {spec : SlotSpec} {st : State} {p : Placing}
    (hacc : Accounted st)
    (h : placeLoop (isEach spec.placement) spec.len kb (inner.candidates spec.placement)
      ⟨st, [], none⟩ = .ok p)
    (hlanded : p.landed (isEach spec.placement) = true) :
    Takes inner p.targets spec.placement := by
  obtain ⟨added, hadded, hsub, _, hone⟩ := ((holds_placeLoop _ _ _ _ _ hacc).of_ok h).targets
  rw [List.nil_append] at hadded
  rw [← hadded] at hsub hone
  -- outside `Each` the loop stops at its first target
  have hsingle : isEach spec.placement = false →
      ∃ c ∈ inner.candidates spec.placement, p.targets = [c] := by
    intro heach
    rw [heach] at hlanded
    have hne : p.targets ≠ [] := by simpa [Placing.landed] using hlanded
    have hlength := List.length_pos_iff.mpr hne
    obtain ⟨c, hc⟩ := List.length_eq_one_iff.mp (le_antisymm (hone heach) hlength)
    exact ⟨c, hsub.subset (hc ▸ List.mem_singleton_self c), hc⟩
  cases hplacement : spec.placement with
  | strict d =>
    obtain ⟨c, hc, htargets⟩ := hsingle (by rw [hplacement]; rfl)
    rw [hplacement] at hc
    rw [List.mem_singleton.mp hc] at htargets
    exact htargets
  | prefer d =>
    obtain ⟨c, hc, htargets⟩ := hsingle (by rw [hplacement]; rfl)
    rw [hplacement] at hc
    rcases List.mem_cons.mp hc with rfl | hc
    · exact Or.inl htargets
    · obtain ⟨x, hx, rfl⟩ := List.mem_map.mp hc
      obtain ⟨horder, hne⟩ := List.mem_filter.mp hx
      exact Or.inr ⟨x, horder, of_decide_eq_true hne, htargets⟩
  | each ds =>
    rw [hplacement] at h hlanded
    simp only [isEach, Placing.landed, if_true, Bool.and_eq_true, Option.isNone_iff_eq_none,
      Bool.not_eq_true', List.isEmpty_eq_false_iff] at h hlanded
    obtain ⟨herr, hne⟩ := hlanded
    have htargets := targets_of_each _ h herr
    rw [List.nil_append] at htargets
    refine ⟨?_, htargets⟩
    rintro rfl
    exact hne htargets
  | anywhere =>
    obtain ⟨c, hc, htargets⟩ := hsingle (by rw [hplacement]; rfl)
    rw [hplacement] at hc
    obtain ⟨x, hx, rfl⟩ := List.mem_map.mp hc
    exact ⟨x, hx, htargets⟩

/-! ### The slots of the key -/

/-- What a put did to the slots of its own key. -/
structure OwnSlots (inner : Inner) (mem : UserMemory) (kb : Key) (op : OpPut) (first : State)
    (results : List (Result Unit)) (st : State) : Prop where
  length : results.length = op.slots.length
  resident : ∀ i, replicasAt first.objects kb i ≠ [] →
    results[i]? = some (.error (slotWritten i)) ∧
      replicasAt st.objects kb i = replicasAt first.objects kb i
  landed : ∃ writable reserved, first.reserve kb op.spec = .ok (writable, reserved) ∧
    ∀ i ps, op.slots[i]? = some ps → results[i]? = some (.ok ()) →
      replicasAt first.objects kb i = [] ∧ ∃ before p,
        putSlots inner mem kb writable (op.slots.take i) 0 [] reserved =
          .ok (results.take i, before) ∧
        placeLoop (isEach ps.spec.placement) ps.spec.len kb (inner.candidates ps.spec.placement)
          ⟨before, [], none⟩ = .ok p ∧
        Takes inner p.targets ps.spec.placement ∧
        replicasAt st.objects kb i = ownedReplicas p.targets (readAll mem (segsOf ps.src))
  failed : ∀ i e, results[i]? = some (.error e) → e.kind ≠ .alreadyExists →
    replicasAt st.objects kb i = []

theorem lt_of_replicasAt_ne_nil {objects : Objects} {key : Key} {spec : ObjectSpec} {i : ℕ}
    (hspec : specAt objects key = some spec) (hne : replicasAt objects key i ≠ []) :
    i < spec.slots.length := by
  obtain ⟨obj, hfind, rfl⟩ := specAt_eq_some.mp hspec
  by_contra hge
  refine hne ?_
  rw [replicasAt_of_find? hfind, Object.replicasOf,
    List.getElem?_eq_none_iff.mpr (obj.slots_length ▸ not_lt.mp hge)]
  rfl

namespace PutDone

variable {inner : Inner} {mem : UserMemory} {kb : Key} {op : OpPut} {first st : State}
  {results : List (Result Unit)}

/-- A resident slot is in the range of the request. -/
theorem lt_of_resident (h : PutDone inner mem kb op first results st) {i : ℕ}
    (hne : replicasAt first.objects kb i ≠ []) : i < results.length := by
  rcases h.progress.spec_before with hnone | hsome
  · exact absurd (specAt_none_replicasAt hnone i) hne
  · have hlt := lt_of_replicasAt_ne_nil hsome hne
    rwa [OpPut.spec, List.length_map, ← h.length] at hlt

theorem result_of_resident (h : PutDone inner mem kb op first results st) {i : ℕ}
    (hne : replicasAt first.objects kb i ≠ []) :
    results[i]? = some (.error (slotWritten i)) := by
  obtain ⟨_, _, _, hdecided⟩ := h.decided
  have hresult := List.getElem?_eq_getElem (h.lt_of_resident hne)
  obtain ⟨_, _, ⟨_, hwritten⟩ | ⟨hempty, _⟩⟩ := hdecided i _ hresult
  · rw [hresult, hwritten]
  · exact absurd hempty hne

theorem ownSlots (h : PutDone inner mem kb op first results st) :
    OwnSlots inner mem kb op first results st where
  length := h.length
  resident := by
    intro i hne
    have hresult := h.result_of_resident hne
    refine ⟨hresult, h.progress.kept i ?_⟩
    rw [hresult]
    exact fun hok ↦ by cases hok
  landed := by
    obtain ⟨writable, reserved, hreserve, hdecided⟩ := h.decided
    refine ⟨writable, reserved, hreserve, ?_⟩
    intro i ps hps hok
    have hlt : i < op.slots.length := (List.getElem?_eq_some_iff.mp hps).1
    have hlength : (results.take i).length = i := by
      rw [List.length_take, h.length]
      omega
    obtain ⟨found, hfound, ⟨_, hwritten⟩ |
      ⟨hempty, before, after, hreaches, hprogress, hput, hreplicas⟩⟩ := hdecided i _ hok
    · cases hwritten
    rw [hps, Option.some.injEq] at hfound
    subst hfound
    obtain ⟨device, hvalid⟩ := h.valid ps (List.mem_of_getElem? hps)
    have hspec : i < op.spec.slots.length := by
      rw [OpPut.spec, List.length_map]
      exact hlt
    have hbefore : replicasAt before.objects kb i = [] := by
      rw [hprogress.kept i ?_, hempty]
      rw [List.getElem?_eq_none_iff.mpr hlength.le]
      exact fun hfalse ↦ by cases hfalse
    obtain ⟨p, hplace, hrest⟩ := bind_eq_ok.mp hput
    have hlanded : p.landed (isEach ps.spec.placement) = true := by
      by_contra hnot
      rw [Bool.not_eq_true] at hnot
      simp only [hnot, Bool.not_false, if_true] at hrest
      cases hrest
    obtain ⟨_, hafter⟩ := putSlot_landed hprogress.accounted hvalid hprogress.spec_self hspec
      hbefore hplace hlanded hput
    refine ⟨hempty, before, p, ?_, hplace, takes_of_landed hprogress.accounted hplace hlanded,
      hreplicas.trans hafter⟩
    unfold Reaches at hreaches
    rwa [hlength] at hreaches
  failed := by
    intro i e hresult hkind
    rw [h.progress.kept i (by rw [hresult]; exact fun hok ↦ by cases hok)]
    by_contra hne
    rw [h.result_of_resident hne] at hresult
    cases hresult
    exact hkind rfl

end PutDone

/-! ### Every put of every run -/

/-- A put that is carried out has a valid request. -/
theorem validate_of_put {inner : Inner} {mem : UserMemory} {st st' : State} {key : Key} {op : OpPut}
    {rp : RpPut} (h : put inner mem st key op = .ok (.ok rp, st')) : op.validate = .ok () := by
  unfold put at h
  cases hvalidate : op.validate with
  | ok u => rfl
  | error e =>
    rw [hvalidate] at h
    cases h

/-- A key that is present with the spec can be reserved. -/
theorem reserve_of_specAt {st : State} {kb : Key} {spec : ObjectSpec}
    (h : specAt st.objects kb = some spec) (e : Error) : st.reserve kb spec ≠ .error e := by
  obtain ⟨obj, hfind, rfl⟩ := specAt_eq_some.mp h
  unfold State.reserve
  rw [hfind]
  simp

/-- In every run, a put that is carried out fills only empty slots of its key, with the replicas its
placement chose, and repeating it finds every resident slot written and changes none of them. -/
theorem put_fills_own_slots {b : MemoryBuilder} {m₀ : UserMemory} {history : List Event}
    {w w' : World} {e : Event} {key : Key} {op : OpPut} {results : List (Result Unit)}
    (hrun : (memory b m₀).Run history w) (hstep : (memory b m₀).step w e w')
    (hop : e.op = .put key op) (hreply : e.reply = .put (.ok ⟨results⟩)) :
    OwnSlots b.inner w.mem key op w.state results w'.state ∧
      ∀ again w'', (memory b m₀).step w' again w'' → again.op = .put key op →
        ∃ results', again.reply = .put (.ok ⟨results'⟩) ∧
          ∀ i, replicasAt w'.state.objects key i ≠ [] →
            results'[i]? = some (.error (slotWritten i)) ∧
              replicasAt w''.state.objects key i = replicasAt w'.state.objects key i := by
  have hdone : PutDone b.inner w.mem key op w.state results w'.state := by
    have heffect := step_effect (run_sound hrun) hstep
    rw [hop, hreply] at heffect
    cases heffect with
    | put hdone => exact hdone
  refine ⟨hdone.ownSlots, ?_⟩
  intro again w'' hagain hopAgain
  have hvalidate : op.validate = .ok () := by
    have hexec := hstep.2.2
    rw [hop, hreply] at hexec
    obtain ⟨⟨r, st⟩, hput, heq⟩ := bind_eq_ok.mp hexec
    cases heq
    exact validate_of_put hput
  have heffect := step_effect (run_sound (hrun.snoc hstep)) hagain
  rw [hopAgain] at heffect
  generalize again.reply = reply at heffect
  cases heffect with
  | putRefused hreason =>
    rcases hreason with hinvalid | hmismatch
    · rw [hvalidate] at hinvalid
      cases hinvalid
    · exact absurd hmismatch (reserve_of_specAt hdone.progress.spec_self _)
  | put hdone' => exact ⟨_, rfl, hdone'.ownSlots.resident⟩

namespace Scenario

/-- The kind of error a slot reports. -/
def kindOf : Result Unit → Option ErrorKind
  | .ok _ => none
  | .error e => some e.kind

/-- One byte on the second device, and two and three bytes on the first. -/
def putMixed : OpPut :=
  ⟨.cache, [slotOn (.strict (.cpu 1)) 1, slotOn (.strict (.cpu 0)) 2, slotOn (.strict (.cpu 0)) 3]⟩

/-- While another object fills the first device only the first slot lands. Once that object is
removed, the same put finds the first slot written, fills the second and cannot fit the third. -/
theorem put_fills_own_slots_repair : ∃ history w e w' results,
    (memory (backend 2) mem).Run history w ∧ (memory (backend 2) mem).step w e w' ∧
    e.op = .put [1] putMixed ∧ e.reply = .put (.ok ⟨results⟩) ∧
    results.map kindOf = [some .alreadyExists, none, some .noSpace] ∧
    OwnSlots (backend 2).inner w.mem [1] putMixed w.state results w'.state := by
  obtain ⟨history, w, e, w', _, hrun, hstep, hop, hcheck⟩ := exists_run_step 2
    [registerBuffer, .put [2] ⟨.explicit, [slotOn (.strict (.cpu 0)) 2]⟩, .put [1] putMixed,
      .remove [[2]]]
    (.put [1] putMixed)
    (fun _ _ e _ ↦ (resultsOf e.reply).any fun results : List (Result Unit) ↦
      decide (results.map kindOf = [some .alreadyExists, none, some .noSpace])) (by rfl)
  obtain ⟨results, hresults, hkinds⟩ := (Option.any_eq_true _ _).mp hcheck
  have hreply := eq_of_resultsOf hresults
  exact ⟨history, w, e, w', results, hrun, hstep, hop, hreply, of_decide_eq_true hkinds,
    (put_fills_own_slots hrun hstep hop hreply).1⟩

end Scenario

end Pegastore.Memory
