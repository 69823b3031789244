import Pegastore.Memory.OwnKey

/-!
# Emptied objects

An object loses its replicas to eviction, device by device, and to the drop of regions it was
published from. The eviction loop looks whether the slot it emptied was the last one with a replica
and then drops the object (`Evicts.reclaimed`), so a put never leaves an emptied object behind
(`PutProgress.reclaimed`). The drop of a region only filters replicas. Where a drop always spares a
replica of every `Cache` object (`Op.SparesLast`), an object that loses its last replica is gone
from the index after the call that took it (`emptied_object_reclaimed`); otherwise it stays, answers
`Evicted`, and refuses every other spec (`dropped_region_leaves_object`).
-/

set_option autoImplicit false
set_option relaxedAutoImplicit false

namespace Pegastore.Memory

open Outcome ByteMemory Transition

/-- The operation does not drop a region that holds all replicas of a `Cache` object. -/
def Op.SparesLast (st : State) : Op → Prop
  | .dropRegion id => ∀ key, CacheAt st.objects key → (∃ i, replicasAt st.objects key i ≠ []) →
      ∃ i, ∃ r ∈ replicasAt st.objects key i, r.publishedFrom id = false
  | _ => True

/-! ### One call -/

theorem Published.reclaimed {key other : Key} {i : ℕ} {src : List Iov} {before after : State}
    (h : Published key i src before after) : Reclaimed before.objects after.objects other := by
  rintro ⟨j, hheld⟩ hempty
  by_cases hself : other = key ∧ j = i
  · obtain ⟨rfl, rfl⟩ := hself
    obtain ⟨_, _, _, _, _, _, _, _, hreplicas⟩ := h.valid
    rw [hempty j] at hreplicas
    exact absurd hreplicas (List.append_ne_nil_of_right_ne_nil _ (List.cons_ne_nil _ _)).symm
  · exact absurd ((h.replicas_other other j (not_and_or.mp hself)).symm.trans (hempty j)) hheld

theorem Removed.reclaimed {keys : List Key} {before after : State} (h : Removed keys before after)
    (key : Key) : Reclaimed before.objects after.objects key := by
  by_cases hkey : key ∈ keys
  · intro _ _
    rw [h.spec key, if_pos hkey]
  · exact Reclaimed.of_replicas_eq (h.kept hkey).2

theorem PutDone.reclaimed {inner : Inner} {mem : UserMemory} {kb : Key} {op : OpPut}
    {first st : State} {results : List (Result Unit)}
    (h : PutDone inner mem kb op first results st) (key : Key) :
    Reclaimed first.objects st.objects key := by
  by_cases hkey : key = kb
  · subst hkey
    rintro ⟨i, hheld⟩ hempty
    have hkept := (h.ownSlots.resident i hheld).2
    exact absurd (hkept.symm.trans (hempty i)) hheld
  · exact h.progress.reclaimed key hkey

/-- A call that spares the last replicas leaves no emptied `Cache` object behind. -/
theorem Effect.reclaimed {inner : Inner} {w w' : World} {op : Op} {reply : Reply}
    (h : Effect inner w op reply w') (hspares : op.SparesLast w.state) {key : Key}
    (hcache : CacheAt w.state.objects key) :
    Reclaimed w.state.objects w'.state.objects key := by
  cases h with
  | registerRefused | registered | wrote | putRefused | publishRefused | getRefused | got | stat =>
    exact Reclaimed.of_replicas_eq fun _ ↦ rfl
  | @dropped id =>
    intro hheld hempty
    obtain ⟨i, r, hr, hfrom⟩ := hspares key hcache hheld
    have hnone := hempty i
    rw [replicasAt_retireRegion] at hnone
    have hkept : r ∈ (replicasAt w.state.objects key i).filter fun r ↦ !r.publishedFrom id :=
      List.mem_filter.mpr ⟨hr, by rw [hfrom]; rfl⟩
    rw [hnone] at hkept
    cases hkept
  | put hdone => exact hdone.reclaimed key
  | published hpublished => exact hpublished.reclaimed
  | removed hremoved | removedPrefix hremoved => exact hremoved.reclaimed key

/-! ### An absent key -/

theorem find?_of_specAt_none {objects : Objects} {key : Key} (h : specAt objects key = none) :
    objects.find? key = none := by
  simpa [specAt] using h

theorem get_of_absent {inner : Inner} {st : State} {key : Key} (h : specAt st.objects key = none)
    (mem : UserMemory) {op : OpGet} {dst : Device × ℕ} (hvalid : op.validate = .ok dst) :
    get inner mem st key op = .ok (.error (noSuchKey key), mem) := by
  unfold get
  rw [hvalid]
  dsimp only
  rw [find?_of_specAt_none h]

theorem stat_of_absent {inner : Inner} {st : State} {key : Key} (h : specAt st.objects key = none)
    {keys : List Key} {j : ℕ} (hj : keys[j]? = some key) :
    (stat inner st keys)[j]? = some none := by
  unfold stat
  rw [List.getElem?_map, hj, Option.map_some, find?_of_specAt_none h, Option.map_none]

/-- A valid put of an absent key is not refused. -/
theorem put_of_absent {inner : Inner} {mem : UserMemory} {st st' : State} {key : Key} {op : OpPut}
    {r : Result RpPut} (hacc : Accounted st) (h : specAt st.objects key = none)
    (hvalid : op.validate = .ok ()) (hput : put inner mem st key op = .ok (r, st')) :
    ∃ rp, r = .ok rp := by
  rcases (holds_put inner mem key op hacc).of_ok hput with ⟨e, _, hinvalid | hmismatch⟩ |
    ⟨results, hr, _⟩
  · rw [hvalid] at hinvalid
    cases hinvalid
  · unfold State.reserve at hmismatch
    rw [find?_of_specAt_none h] at hmismatch
    cases hmismatch
  · exact ⟨⟨results⟩, hr⟩

/-! ### Every call of every run -/

/-- In every run, a `Cache` object that a call takes the last replica of, without dropping the
region that holds it, is gone after the call: gets do not find it, stat reports nothing, and a put
of the key is accepted whatever its spec. -/
theorem emptied_object_reclaimed {b : MemoryBuilder} {m₀ : UserMemory} {history : List Event}
    {w w' : World} {e : Event} {key : Key} (hrun : (memory b m₀).Run history w)
    (hstep : (memory b m₀).step w e w') (hspares : e.op.SparesLast w.state)
    (hcache : CacheAt w.state.objects key) (hheld : ∃ i, replicasAt w.state.objects key i ≠ [])
    (hempty : ∀ i, replicasAt w'.state.objects key i = []) :
    w'.state.objects.find? key = none ∧
      (∀ (op : OpGet) dst mem, op.validate = .ok dst →
        get b.inner mem w'.state key op = .ok (.error (noSuchKey key), mem)) ∧
      (∀ (keys : List Key) (j : ℕ), keys[j]? = some key →
        (stat b.inner w'.state keys)[j]? = some none) ∧
      ∀ (op : OpPut) mem r st, op.validate = .ok () →
        put b.inner mem w'.state key op = .ok (r, st) →
        ∃ rp, r = .ok rp := by
  have hgone : specAt w'.state.objects key = none :=
    (step_effect (run_sound hrun) hstep).reclaimed hspares hcache hheld hempty
  have hsound := run_sound (hrun.snoc hstep)
  exact ⟨find?_of_specAt_none hgone, fun op dst mem hvalid ↦ get_of_absent hgone mem hvalid,
    fun keys j hj ↦ stat_of_absent hgone hj,
    fun op mem r st hvalid hput ↦ put_of_absent hsound.accounted hgone hvalid hput⟩

namespace Scenario

/-- The key has a `Cache` object with a replica. -/
def holdsCache (w : World) (key : Key) : Bool :=
  (w.state.objects.find? key).any fun obj ↦
    decide (obj.spec.retention = .cache) && !obj.isEmpty

theorem cacheAt_of_holdsCache {w : World} {key : Key} (h : holdsCache w key = true) :
    CacheAt w.state.objects key ∧ ∃ i, replicasAt w.state.objects key i ≠ [] := by
  obtain ⟨obj, hfind, hboth⟩ := (Option.any_eq_true _ _).mp h
  obtain ⟨hret, hheld⟩ := (Bool.and_eq_true _ _).mp hboth
  refine ⟨⟨obj.spec, by simp [specAt, hfind], of_decide_eq_true hret⟩, ?_⟩
  by_contra hnone
  have hempty : obj.isEmpty = true := by
    refine (Object.isEmpty_iff obj).mpr fun i ↦ ?_
    rw [← replicasAt_of_find? hfind]
    exact not_not.mp (not_exists.mp hnone i)
  rw [hempty] at hheld
  cases hheld

/-- The key has no replica. -/
def holdsNothing (w : World) (key : Key) : Bool :=
  (w.state.objects.find? key).all Object.isEmpty

theorem replicasAt_of_holdsNothing {w : World} {key : Key} (h : holdsNothing w key = true)
    (i : ℕ) : replicasAt w.state.objects key i = [] := by
  unfold holdsNothing at h
  cases hfind : w.state.objects.find? key with
  | none => exact replicasAt_of_find?_none hfind i
  | some obj =>
    rw [hfind] at h
    rw [replicasAt_of_find? hfind]
    exact (Object.isEmpty_iff obj).mp h i

/-- A put that needs the whole device takes the only replica of an object; the object is gone. -/
theorem emptied_object_reclaimed_evicted : ∃ history w e w',
    (memory (backend 2) mem).Run history w ∧ (memory (backend 2) mem).step w e w' ∧
    e.op = .put [2] ⟨.cache, [slotOn (.strict (.cpu 0)) 2]⟩ ∧
    CacheAt w.state.objects [1] ∧ w'.state.objects.find? [1] = none := by
  obtain ⟨history, w, e, w', _, hrun, hstep, hop, hcheck⟩ := exists_run_step 2
    [registerBuffer, .put [1] ⟨.cache, [slotOn (.strict (.cpu 0)) 1]⟩]
    (.put [2] ⟨.cache, [slotOn (.strict (.cpu 0)) 2]⟩)
    (fun _ w _ w' ↦ holdsCache w [1] && holdsNothing w' [1]) (by rfl)
  obtain ⟨hbefore, hafter⟩ := (Bool.and_eq_true _ _).mp hcheck
  obtain ⟨hcache, hheld⟩ := cacheAt_of_holdsCache hbefore
  have hspares : e.op.SparesLast w.state := by
    rw [hop]
    trivial
  exact ⟨history, w, e, w', hrun, hstep, hop, hcache, (emptied_object_reclaimed hrun hstep hspares
    hcache hheld (replicasAt_of_holdsNothing hafter)).1⟩

/-- A second region, behind `buffer`. -/
def otherBuffer : MemoryRegion := ⟨2, 8, 8, .cpu 0, by decide⟩

/-- An object whose only replica is published from `buffer`. -/
def publishOnly : List Op :=
  [registerBuffer, .register 8 8 (.cpu 0) (by decide),
    .put [1] ⟨.cache, [slotOn (.strict (.cpu 7)) 2]⟩, .publish [1] ⟨0, [⟨buffer, 0, 2⟩]⟩]

/-- The kind of error a call replies. -/
def replyKind : Reply → Option ErrorKind
  | .get (.error e) => some e.kind
  | .put (.error e) => some e.kind
  | _ => none

/-- What an allowed call replies, as a kind of error. -/
def answers (w : World) (op : Op) : Option (Option ErrorKind) :=
  (call (backend 2).inner w op).map fun r ↦ replyKind r.1.reply

/-- After the drop of `buffer` the object is still in the index without a replica: a get of it
answers that it was evicted, and a put of one byte under its key is refused for its spec. -/
theorem dropped_region_leaves_object : ∃ history w e w',
    (memory (backend 2) mem).Run history w ∧ (memory (backend 2) mem).step w e w' ∧
    e.op = .dropRegion 1 ∧ CacheAt w.state.objects [1] ∧
    (∃ i, replicasAt w.state.objects [1] i ≠ []) ∧
    (∀ i, replicasAt w'.state.objects [1] i = []) ∧ (w'.state.objects.find? [1]).isSome = true ∧
    answers w' (.get [1] ⟨0, 0, [⟨otherBuffer, 0, 2⟩]⟩) = some (some .evicted) ∧
    answers w' (.put [1] ⟨.cache, [⟨⟨1, .strict (.cpu 0)⟩, [⟨otherBuffer, 0, 1⟩]⟩]⟩) =
      some (some .specMismatch) := by
  obtain ⟨history, w, e, w', _, hrun, hstep, hop, hcheck⟩ := exists_run_step 2 publishOnly
    (.dropRegion 1)
    (fun _ w _ w' ↦ holdsCache w [1] && holdsNothing w' [1] &&
      (w'.state.objects.find? [1]).isSome &&
      decide (answers w' (.get [1] ⟨0, 0, [⟨otherBuffer, 0, 2⟩]⟩) = some (some .evicted)) &&
      decide (answers w' (.put [1] ⟨.cache, [⟨⟨1, .strict (.cpu 0)⟩, [⟨otherBuffer, 0, 1⟩]⟩]⟩) =
        some (some .specMismatch))) (by rfl)
  simp only [Bool.and_eq_true, decide_eq_true_eq] at hcheck
  obtain ⟨⟨⟨⟨hbefore, hafter⟩, hthere⟩, hget⟩, hput⟩ := hcheck
  obtain ⟨hcache, hheld⟩ := cacheAt_of_holdsCache hbefore
  exact ⟨history, w, e, w', hrun, hstep, hop, hcache, hheld, replicasAt_of_holdsNothing hafter,
    hthere, hget, hput⟩

end Scenario

end Pegastore.Memory
