import Pegastore.Memory.NoPanic

/-!
# Many gets at once

`Store::get_many` makes one future per request and yields their outputs as they complete. A `get` of
this backend does not wait anywhere, so each future runs in one piece when it is polled, and the
order in which the futures run is the order in which they are yielded (`Store.yieldAll`).

What a request comes to is decided by the store state and by the published bytes: a result, and
bytes for its destination (`Answer`). Where no destination touches a published byte, the answer is
the same whenever the request runs (`exists_answer`), a run in any order is the fold of the answers
in that order (`yieldAll_eq`), and writes to disjoint destinations commute. Only a request that
comes to the read of a published replica makes a vector of the length of its destination. Beyond the
limit of a vector it panics whenever it runs, and the other futures are lost with it
(`huge_get_loses_others`); this is the only way in which the order matters
(`get_many_order_independent`).
-/

set_option autoImplicit false
set_option relaxedAutoImplicit false

namespace Pegastore.Memory

open Outcome ByteMemory Transition

/-! ### The store over the backend -/

/-- An error with the operation it is reported for. -/
structure StoreError where
  error : Error
  operation : String
deriving DecidableEq, Repr

/-- The errors of the backend name no operation, so the first one named stays. -/
def withOperation (operation : String) (e : Error) : StoreError := ⟨e, operation⟩

/-- The handle: the backend, and what its capability says about segment lists. -/
structure Store where
  inner : Inner
  maxIov : Option UInt32

def unsupported (what : String) : Error :=
  Error.new .unsupported ("backend does not support " ++ what)

def Store.checkIovCount (s : Store) (n : ℕ) : Result Unit :=
  match s.maxIov with
  | some max =>
    if n > max.toNat then
      .error ((unsupported "too many iov segments").withContext "max_iov" (.num max.toNat))
    else .ok ()
  | none => .ok ()

def Store.getOptions (s : Store) (w : World) (key : Key) (op : OpGet) :
    Exec (Except StoreError RpGet × World) :=
  match op.validate with
  | .error e => .ok (.error (withOperation "get" e), w)
  | .ok _ =>
    match s.checkIovCount op.dst.length with
    | .error e => .ok (.error (withOperation "get" e), w)
    | .ok _ => do
      let (r, mem) ← get s.inner w.mem w.state key op
      .ok (r.mapError (withOperation "get"), { w with mem := mem })

/-- One request of a batch. -/
abbrev Request := Key × OpGet

/-- The futures of a batch: every request with its index. -/
def getMany (reqs : List Request) : List (Request × ℕ) := reqs.zipIdx

/-- Run futures in the given order and yield their outputs. A panic ends the stream. -/
def Store.yieldAll (s : Store) : List (Request × ℕ) → World →
    Exec (List (ℕ × Except StoreError RpGet) × World)
  | [], w => .ok ([], w)
  | (req, i) :: rest, w => do
    let (r, w) ← s.getOptions w req.1 req.2
    let (yielded, w) ← s.yieldAll rest w
    .ok ((i, r) :: yielded, w)

/-! ### Answers -/

/-- The segments of user memory that a replica stands for. -/
def ReplicaData.segs : ReplicaData → List Segment
  | .owned _ => []
  | .external segs _ _ => segs

/-- Every published segment. -/
def State.publishedSegs (st : State) : List Segment :=
  st.objects.entries.flatMap fun e ↦ e.2.slots.flatMap fun slot ↦
    slot.replicas.flatMap fun r ↦ r.data.segs

/-- The byte lies in a published segment. -/
def State.PublishedByte (st : State) (a : ℕ) : Prop := ∃ s ∈ st.publishedSegs, s.Covers a

/-- The destination of the request touches no published byte. -/
def Request.Clear (st : State) (req : Request) : Prop :=
  ∀ s ∈ segsOf req.2.dst, ∀ t ∈ st.publishedSegs, s.Disjoint t

/-- The destinations of two requests have no byte in common. -/
def Request.Apart (req other : Request) : Prop :=
  ∀ s ∈ segsOf req.2.dst, ∀ t ∈ segsOf other.2.dst, s.Disjoint t

/-- The request comes to the read of a published replica. -/
def Request.ReadsExternal (s : Store) (st : State) (req : Request) : Prop :=
  s.checkIovCount req.2.dst.length = .ok () ∧ ∃ dstDevice dstLen spec slotSpec replica,
    Selects s.inner st req.1 req.2 dstDevice dstLen spec slotSpec replica ∧ replica.External

/-- If it does, a vector can hold the bytes it asks for. -/
def Request.Fits (s : Store) (st : State) (req : Request) : Prop :=
  req.ReadsExternal s st → totalLen (segsOf req.2.dst) ≤ isizeMax

/-- A result, and bytes for segments of user memory. -/
structure Answer where
  result : Except StoreError RpGet
  segs : List Segment
  bytes : List UInt8

def Answer.apply (mem : UserMemory) (x : Answer) : UserMemory := writeAll mem x.segs x.bytes

/-- The request comes to this answer in every memory with the published bytes of `w`. -/
structure Answers (s : Store) (w : World) (req : Request) (x : Answer) : Prop where
  segs : ∀ t ∈ x.segs, t ∈ segsOf req.2.dst
  length : totalLen x.segs ≤ x.bytes.length
  runs : ∀ mem, (∀ a, w.state.PublishedByte a → mem a = w.mem a) →
    s.getOptions { w with mem := mem } req.1 req.2 = .ok (x.result, { w with mem := x.apply mem })

/-- A request that is refused writes nothing. -/
theorem Answers.refused {s : Store} {w : World} {req : Request} {e : StoreError}
    (h : ∀ mem, s.getOptions { w with mem := mem } req.1 req.2 =
      .ok (.error e, { w with mem := mem })) : Answers s w req ⟨.error e, [], []⟩ where
  segs := fun _ ht ↦ absurd ht List.not_mem_nil
  length := le_rfl
  runs := fun mem _ ↦ h mem

theorem mem_publishedSegs {st : State} {key : Key} {i : ℕ} {r : ReplicaEntry} {s : Segment}
    (hr : r ∈ replicasAt st.objects key i) (hs : s ∈ r.data.segs) : s ∈ st.publishedSegs := by
  cases hfind : st.objects.find? key with
  | none =>
    rw [replicasAt_of_find?_none hfind] at hr
    cases hr
  | some obj =>
    rw [replicasAt_of_find? hfind, Object.replicasOf] at hr
    cases hslot : obj.slots[i]? with
    | none =>
      rw [hslot] at hr
      cases hr
    | some slot =>
      rw [hslot] at hr
      exact List.mem_flatMap.mpr ⟨(key, obj), (st.objects.mem_entries_iff).mpr hfind,
        List.mem_flatMap.mpr ⟨slot, List.mem_of_getElem? hslot, List.mem_flatMap.mpr ⟨r, hr, hs⟩⟩⟩

theorem content_congr {st : State} {key : Key} {i : ℕ} {r : ReplicaEntry} {mem mem' : UserMemory}
    (hr : r ∈ replicasAt st.objects key i) (h : ∀ a, st.PublishedByte a → mem a = mem' a) :
    r.content mem = r.content mem' := by
  have hsegs (s : Segment) (hs : s ∈ r.data.segs) (a : ℕ) (ha : s.Covers a) : mem a = mem' a :=
    h a ⟨s, mem_publishedSegs hr hs, ha⟩
  unfold ReplicaEntry.content
  cases hdata : r.data with
  | owned bytes => rfl
  | external segs regionId origins =>
    rw [hdata] at hsegs
    exact readAll_congr hsegs

/-- A request that passes the checks of the handle goes to the backend. -/
theorem getOptions_eq {s : Store} {op : OpGet} {pair : Device × ℕ}
    (hvalid : op.validate = .ok pair) (hcount : s.checkIovCount op.dst.length = .ok ())
    (w : World) (key : Key) :
    s.getOptions w key op = get s.inner w.mem w.state key op >>= fun r ↦
      .ok (r.1.mapError (withOperation "get"), { w with mem := r.2 }) := by
  simp only [Store.getOptions, hvalid, hcount]

/-- Every request that fits has an answer. -/
theorem exists_answer (s : Store) {w : World} (hshaped : WellShaped w.state.objects) (req : Request)
    (hfits : req.Fits s w.state) : ∃ x, Answers s w req x := by
  obtain ⟨key, op⟩ := req
  cases hvalid : op.validate with
  | error e =>
    exact ⟨⟨.error (withOperation "get" e), [], []⟩,
      Answers.refused fun mem ↦ by simp only [Store.getOptions, hvalid]⟩
  | ok pair =>
    cases hcount : s.checkIovCount op.dst.length with
    | error e =>
      exact ⟨⟨.error (withOperation "get" e), [], []⟩,
        Answers.refused fun mem ↦ by simp only [Store.getOptions, hvalid, hcount]⟩
    | ok u =>
      have hrun (mem : UserMemory) := getOptions_eq hvalid hcount { w with mem := mem } key
      rcases get_cases s.inner w.state key op with ⟨e, hrefused⟩ | ⟨dstDevice, dstLen, spec,
        slotSpec, replica, hselects⟩
      · exact ⟨_, Answers.refused fun mem ↦ by rw [hrun, hrefused]; rfl⟩
      · have htotal := hselects.validIovs.total_eq
        have hvector : replica.External → dstLen ≤ isizeMax := by
          intro hexternal
          rw [htotal]
          exact hfits ⟨hcount, dstDevice, dstLen, spec, slotSpec, replica, hselects, hexternal⟩
        refine ⟨⟨.ok ⟨s.inner.location replica.device replica.tier⟩, segsOf op.dst,
          ((replica.content w.mem).drop op.srcOffset).take dstLen⟩, fun _ ht ↦ ht, ?_, ?_⟩
        · rw [length_range w.mem (hselects.shaped hshaped) hselects.range, htotal]
        · intro mem hagree
          rw [hrun, hselects.get_ok hshaped hvector, ok_bind,
            content_congr (nearest_mem hselects.nearest_eq) hagree]
          rfl

/-- A request that does not fit panics. -/
theorem getOptions_overflows {s : Store} {w : World} (hshaped : WellShaped w.state.objects)
    {req : Request} (hfits : ¬ req.Fits s w.state) :
    s.getOptions w req.1 req.2 = .error .capacityOverflow := by
  obtain ⟨⟨hcount, _, _, _, _, _, hselects, hexternal⟩, hlen⟩ := Classical.not_imp.mp hfits
  rw [← hselects.validIovs.total_eq, not_le] at hlen
  rw [getOptions_eq hselects.valid hcount, hselects.get_overflows hshaped hexternal hlen]
  rfl

/-! ### A run in any order -/

/-- What a list of answered futures leaves in memory. -/
def applyAll (answer : Request × ℕ → Answer) (futures : List (Request × ℕ)) (mem : UserMemory) :
    UserMemory :=
  futures.foldl (fun mem f ↦ (answer f).apply mem) mem

/-- An answered future with a clear destination keeps the published bytes. -/
theorem Answers.keeps {s : Store} {w : World} {req : Request} {x : Answer}
    (h : Answers s w req x) (hclear : req.Clear w.state) {mem : UserMemory}
    (hagree : ∀ a, w.state.PublishedByte a → mem a = w.mem a) :
    ∀ a, w.state.PublishedByte a → x.apply mem a = w.mem a := by
  intro a ha
  have hout : ∀ t ∈ x.segs, ¬ t.Covers a := by
    intro t ht hcovers
    obtain ⟨u, hu, hua⟩ := ha
    exact hclear t (h.segs t ht) u hu a hcovers hua
  exact (writeAll_of_not_covered x.segs hout mem x.bytes).trans (hagree a ha)

/-- A run of answered futures yields their results in order and writes their bytes in order. -/
theorem yieldAll_eq {s : Store} {w : World} {answer : Request × ℕ → Answer}
    (futures : List (Request × ℕ)) (hanswer : ∀ f ∈ futures, Answers s w f.1 (answer f))
    (hclear : ∀ f ∈ futures, f.1.Clear w.state) : ∀ mem : UserMemory,
      (∀ a, w.state.PublishedByte a → mem a = w.mem a) →
      s.yieldAll futures { w with mem := mem } = .ok (futures.map fun f ↦ (f.2, (answer f).result),
        { w with mem := applyAll answer futures mem }) := by
  induction futures with
  | nil => exact fun _ _ ↦ rfl
  | cons f rest ih =>
    intro mem hagree
    have hfirst := hanswer f List.mem_cons_self
    have hkeeps := hfirst.keeps (hclear f List.mem_cons_self) hagree
    rw [Store.yieldAll, hfirst.runs mem hagree, ok_bind]
    dsimp only
    rw [ih (fun g hg ↦ hanswer g (List.mem_cons_of_mem _ hg))
      (fun g hg ↦ hclear g (List.mem_cons_of_mem _ hg)) _ hkeeps, ok_bind]
    rfl

/-- A request changes user memory at most. -/
theorem getOptions_world {s : Store} {w w' : World} {key : Key} {op : OpGet}
    {r : Except StoreError RpGet} (h : s.getOptions w key op = .ok (r, w')) :
    ∃ mem, w' = { w with mem := mem } := by
  unfold Store.getOptions at h
  split at h
  · cases h
    exact ⟨w.mem, rfl⟩
  · split at h
    · cases h
      exact ⟨w.mem, rfl⟩
    · obtain ⟨⟨_, mem⟩, _, h⟩ := bind_eq_ok.mp h
      cases h
      exact ⟨mem, rfl⟩

/-- In a run that ends every future has returned, over some user memory. -/
theorem exists_ran {s : Store} (futures : List (Request × ℕ)) : ∀ {w : World} {r},
    s.yieldAll futures w = .ok r → ∀ f ∈ futures, ∃ mem q,
      s.getOptions { w with mem := mem } f.1.1 f.1.2 = .ok q := by
  induction futures with
  | nil => exact fun _ _ hf ↦ absurd hf List.not_mem_nil
  | cons first rest ih =>
    intro w r h f hf
    rw [Store.yieldAll] at h
    obtain ⟨⟨result, w'⟩, hfirst, h⟩ := bind_eq_ok.mp h
    obtain ⟨yielded, hrest, _⟩ := bind_eq_ok.mp h
    obtain ⟨mem, rfl⟩ := getOptions_world hfirst
    rcases List.mem_cons.mp hf with rfl | hf
    · exact ⟨w.mem, _, hfirst⟩
    · exact ih hrest f hf

theorem Request.Apart.symm {req other : Request} (h : req.Apart other) : other.Apart req :=
  fun s hs t ht a ha hb ↦ h t ht s hs a hb ha

/-- Answers for destinations that are apart can be written in either order. -/
theorem Answers.apply_comm {s : Store} {w : World} {req other : Request} {x y : Answer}
    (hx : Answers s w req x) (hy : Answers s w other y) (hapart : req.Apart other)
    (mem : UserMemory) : y.apply (x.apply mem) = x.apply (y.apply mem) :=
  writeAll_comm mem (fun t ht u hu ↦ hapart t (hx.segs t ht) u (hy.segs u hu)) hx.length hy.length

/-- Two futures of a batch of requests that are apart are the same future or apart. -/
theorem apart_of_mem_getMany {reqs : List Request} (hapart : reqs.Pairwise Request.Apart)
    {f g : Request × ℕ} (hf : f ∈ getMany reqs) (hg : g ∈ getMany reqs) :
    f = g ∨ f.1.Apart g.1 := by
  obtain ⟨hflt, hfget⟩ := List.getElem?_eq_some_iff.mp (List.mem_zipIdx_iff_getElem?.mp hf)
  obtain ⟨hglt, hgget⟩ := List.getElem?_eq_some_iff.mp (List.mem_zipIdx_iff_getElem?.mp hg)
  have hpairs := List.pairwise_iff_getElem.mp hapart
  rcases lt_trichotomy f.2 g.2 with hlt | heq | hlt
  · right
    rw [← hfget, ← hgget]
    exact hpairs f.2 g.2 hflt hglt hlt
  · left
    refine Prod.ext ?_ heq
    rw [← hfget, ← hgget]
    simp only [heq]
  · right
    rw [← hfget, ← hgget]
    exact (hpairs g.2 f.2 hglt hflt hlt).symm

/-- In every reachable state, a batch of gets with destinations apart from each other and from every
published byte yields every index once, with the same result and the same final memory in every
order, and leaves the store as it is, if and only if every request that comes to the read of a
published replica asks for no more bytes than a vector can hold. -/
theorem get_many_order_independent {b : MemoryBuilder} {m₀ : UserMemory} {history : List Event}
    {w : World} (hrun : (memory b m₀).Run history w) (maxIov : Option UInt32)
    {reqs : List Request} (hapart : reqs.Pairwise Request.Apart)
    (hclear : ∀ req ∈ reqs, req.Clear w.state) :
    (∃ results mem',
      (Store.mk b.inner maxIov).yieldAll (getMany reqs) w = .ok (results, { w with mem := mem' }) ∧
      results.map Prod.fst = List.range reqs.length ∧
      ∀ order, order.Perm (getMany reqs) → ∃ yielded,
        (Store.mk b.inner maxIov).yieldAll order w = .ok (yielded, { w with mem := mem' }) ∧
        yielded.Perm results) ↔
      ∀ req ∈ reqs, req.Fits (Store.mk b.inner maxIov) w.state := by
  have hshaped := (run_sound hrun).shaped
  constructor
  · rintro ⟨_, _, hlist, _⟩ req hreq
    by_contra hfits
    obtain ⟨i, hlt, hget⟩ := List.getElem_of_mem hreq
    have hfuture : (req, i) ∈ getMany reqs :=
      List.mem_zipIdx_iff_getElem?.mpr (List.getElem?_eq_some_iff.mpr ⟨hlt, hget⟩)
    obtain ⟨mem, q, hran⟩ := exists_ran _ hlist _ hfuture
    have hpanic := getOptions_overflows (w := { w with mem := mem }) hshaped hfits
    rw [hpanic] at hran
    cases hran
  · intro hfits
    have hmem (f : Request × ℕ) (hf : f ∈ getMany reqs) : f.1 ∈ reqs :=
      List.mem_of_getElem? (List.mem_zipIdx_iff_getElem?.mp hf)
    have hexists (f : Request × ℕ) : ∃ x, f ∈ getMany reqs →
        Answers (Store.mk b.inner maxIov) w f.1 x := by
      by_cases hf : f ∈ getMany reqs
      · obtain ⟨x, hx⟩ := exists_answer (Store.mk b.inner maxIov) hshaped f.1
          (hfits f.1 (hmem f hf))
        exact ⟨x, fun _ ↦ hx⟩
      · exact ⟨⟨.error (withOperation "" (unsupported "")), [], []⟩, fun h ↦ absurd h hf⟩
    choose answer hanswer using hexists
    have hruns (order : List (Request × ℕ)) (hperm : order.Perm (getMany reqs)) :=
      yieldAll_eq order (fun f hf ↦ hanswer f (hperm.subset hf))
        (fun f hf ↦ hclear f.1 (hmem f (hperm.subset hf))) w.mem fun _ _ ↦ rfl
    refine ⟨_, _, hruns _ (List.Perm.refl _), ?_, ?_⟩
    · rw [List.map_map]
      exact (List.zipIdx_map_snd 0 reqs).trans List.range_eq_range'.symm
    · intro order hperm
      refine ⟨_, ?_, hperm.map _⟩
      rw [hruns order hperm]
      have hfold : applyAll answer order w.mem = applyAll answer (getMany reqs) w.mem := by
        refine hperm.foldl_eq' ?_ w.mem
        intro f hf g hg mem
        rcases apart_of_mem_getMany hapart (hperm.subset hf) (hperm.subset hg) with rfl | happart
        · rfl
        · exact (hanswer f (hperm.subset hf)).apply_comm (hanswer g (hperm.subset hg)) happart mem
      rw [hfold]

namespace Scenario

/-- Destinations behind all published segments are clear of them. -/
theorem clear_of_le {st : State} {segs : List Segment} {reqs : List Request} {limit : ℕ}
    (hsegs : st.publishedSegs = segs) (hlimit : ∀ t ∈ segs, t.addr + t.len ≤ limit)
    (hdst : ∀ req ∈ reqs, ∀ s ∈ segsOf req.2.dst, limit ≤ s.addr) :
    ∀ req ∈ reqs, req.Clear st := by
  intro req hreq s hs t ht
  rw [hsegs] at ht
  exact Segment.disjoint_of_le (Or.inr ((hlimit t ht).trans (hdst req hreq s hs)))

/-- Half of what a vector cannot hold, for a published replica and for a destination. -/
def sourceRegion : MemoryRegion := ⟨1, 0, 2 ^ 62, .cpu 0, by decide⟩

def targetRegion : MemoryRegion := ⟨2, 2 ^ 62, 2 ^ 62, .cpu 0, by decide⟩

def smallRegion : MemoryRegion := ⟨3, 2 ^ 63, 8, .cpu 0, by decide⟩

/-- Two published bytes. -/
def publishTwo : List Op :=
  [registerBuffer, .put [1] ⟨.cache, [slotOn (.strict (.cpu 7)) 2]⟩,
    .publish [1] ⟨0, [⟨buffer, 0, 2⟩]⟩]

/-- A get of them, and a get of more bytes than a vector can hold of a key that does not exist. -/
def getTwo : List Request :=
  [([1], ⟨0, 0, [⟨buffer, 4, 2⟩]⟩),
    ([2], ⟨0, 0, [⟨targetRegion, 0, 2 ^ 62⟩, ⟨targetRegion, 0, 2 ^ 62⟩]⟩)]

/-- Both orders of `getTwo` give the same outputs and the same memory. -/
theorem get_many_order_independent_two : ∃ history w results yielded mem',
    (memory (backend 4) mem).Run history w ∧ w.state.publishedSegs = [⟨0, 2⟩] ∧
    (Store.mk (backend 4).inner none).yieldAll (getMany getTwo) w =
      .ok (results, { w with mem := mem' }) ∧
    (Store.mk (backend 4).inner none).yieldAll (getMany getTwo).reverse w =
      .ok (yielded, { w with mem := mem' }) ∧
    yielded.Perm results := by
  have hreplay : (replayOps (backend 4).inner publishTwo (memory (backend 4) mem).start).map
      (fun r ↦ (r.2.state.publishedSegs, (specAt r.2.state.objects [2]).isNone)) =
        some ([⟨0, 2⟩], true) := by rfl
  obtain ⟨⟨history, w⟩, hsome, hchecks⟩ := Option.map_eq_some_iff.mp hreplay
  obtain ⟨hsegs, hnone⟩ := Prod.mk.inj hchecks
  have hrun : (memory (backend 4) mem).Run history w := steps_of_replayOps mem _ hsome
  have hapart : getTwo.Pairwise Request.Apart := by
    refine List.pairwise_pair.mpr fun s hs t ht ↦ ?_
    rw [List.mem_singleton.mp hs]
    have hstart : 8 ≤ t.addr := by
      revert t
      decide
    exact Segment.disjoint_of_le (.inl (le_trans (by decide) hstart))
  have hclear : ∀ req ∈ getTwo, req.Clear w.state :=
    clear_of_le hsegs (show ∀ t ∈ _, _ ≤ 2 by decide) (by decide)
  have hfits : ∀ req ∈ getTwo, req.Fits (Store.mk (backend 4).inner none) w.state := by
    intro req hreq
    rcases List.mem_cons.mp hreq with rfl | hreq
    · exact fun _ ↦ by decide
    · rw [List.mem_singleton.mp hreq]
      rintro ⟨_, _, _, _, _, _, hselects, _⟩
      have hsome := hselects.spec_eq
      rw [Option.isNone_iff_eq_none.mp hnone] at hsome
      cases hsome
  obtain ⟨results, mem', hlist, _, horders⟩ :=
    (get_many_order_independent hrun none hapart hclear).mpr hfits
  obtain ⟨yielded, hreverse, hperm⟩ := horders _ (List.reverse_perm _)
  exact ⟨history, w, results, yielded, mem', hrun, hsegs, hlist, hreverse, hperm⟩

/-- A slot of `2 ^ 63` bytes that no device takes, published as the same half twice. -/
def publishHuge : List Op :=
  [.register 0 (2 ^ 62) (.cpu 0) (by decide), .register (2 ^ 62) (2 ^ 62) (.cpu 0) (by decide),
    .register (2 ^ 63) 8 (.cpu 0) (by decide),
    .put [1] ⟨.cache, [⟨⟨2 ^ 63, .strict (.cpu 7)⟩,
      [⟨sourceRegion, 0, 2 ^ 62⟩, ⟨sourceRegion, 0, 2 ^ 62⟩]⟩]⟩,
    .publish [1] ⟨0, [⟨sourceRegion, 0, 2 ^ 62⟩, ⟨sourceRegion, 0, 2 ^ 62⟩]⟩]

/-- The whole slot into the second region, twice, and eight bytes of it into the third. -/
def getHuge : Request := ([1], ⟨0, 0, [⟨targetRegion, 0, 2 ^ 62⟩, ⟨targetRegion, 0, 2 ^ 62⟩]⟩)

def getSmall : Request := ([1], ⟨0, 0, [⟨smallRegion, 0, 8⟩]⟩)

/-- The get of the whole slot panics when it makes room for the bytes, and the other get, which
returns them when it runs alone, is not yielded. -/
theorem huge_get_loses_others : ∃ history w, (memory (backend 4) mem).Run history w ∧
    [getHuge, getSmall].Pairwise Request.Apart ∧
    (∀ req ∈ [getHuge, getSmall], req.Clear w.state) ∧
    (Store.mk (backend 4).inner none).yieldAll (getMany [getHuge, getSmall]) w =
      .error .capacityOverflow ∧
    ∃ rp w', (Store.mk (backend 4).inner none).getOptions w getSmall.1 getSmall.2 =
      .ok (.ok rp, w') := by
  have hreplay : (replayOps (backend 4).inner publishHuge (memory (backend 4) mem).start).any
      (fun r ↦ decide (r.2.state.publishedSegs = [⟨0, 2 ^ 62⟩, ⟨0, 2 ^ 62⟩]) &&
        decide (panicOf ((Store.mk (backend 4).inner none).yieldAll
          (getMany [getHuge, getSmall]) r.2) = some .capacityOverflow) &&
        ((Store.mk (backend 4).inner none).getOptions r.2 getSmall.1 getSmall.2).toOption.any
          (fun q ↦ q.1.isOk)) = true := by decide +kernel
  obtain ⟨⟨history, w⟩, hsome, hchecks⟩ := (Option.any_eq_true _ _).mp hreplay
  simp only [Bool.and_eq_true, decide_eq_true_eq] at hchecks
  obtain ⟨⟨hsegs, hpanic⟩, hsmall⟩ := hchecks
  refine ⟨history, w, steps_of_replayOps mem _ hsome, ?_, ?_, eq_error_of_panicOf hpanic, ?_⟩
  · refine List.pairwise_pair.mpr fun s hs t ht ↦ ?_
    rw [List.mem_singleton.mp ht]
    have hend : s.addr + s.len ≤ 2 ^ 63 := by
      revert s
      decide
    exact Segment.disjoint_of_le (Or.inl hend)
  · exact clear_of_le hsegs (show ∀ t ∈ _, _ ≤ 2 ^ 62 by decide) (by decide)
  · obtain ⟨⟨r, w'⟩, hget, hok⟩ := (Option.any_eq_true _ _).mp hsmall
    cases r with
    | error e => cases hok
    | ok rp => exact ⟨rp, w', eq_ok_of_toOption hget⟩

end Scenario

end Pegastore.Memory
