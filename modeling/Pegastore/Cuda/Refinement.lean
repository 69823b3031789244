import Pegastore.Core.SlotStore
import Pegastore.Lib.Refinement
import Pegastore.Cuda.Pools
import Pegastore.Cuda.Stored

/-!
# The single-node backend is a write-once slot store

Any number of `put`s and `get`s run at once, each in several steps with the lock released in
between. `Explains` says which moves of `slotStore` a step stands for. A `put` creates its object
when it claims, and lands a slot in the one step in which it reports `Ok` for it, with the bytes its
source then holds; its eviction rounds evict. A `get` looks when it selects its replica and answers
when its copy is done. Every other step, panics included, stands for no move.

The refinement (`backend_refines_slotStore`) holds for the runs in which a key without an object is
put to only while no claim under it is open, nothing is written to the sources of a `put` in flight,
and no length wraps around when it is rounded up; without the first condition a `put` can store into
an object it has not claimed, and without the last one over the buffer of another. What follows for
such runs is `gets_answer_lastLanded`: every slot holds what landed there last, and a `get` served
from store memory delivers what had landed last when it selected its replica, whatever ran between
its selection and its copy.
-/

set_option autoImplicit false
set_option relaxedAutoImplicit false

namespace Pegastore.Local

open Outcome ByteMemory Transition WriteOnce

/-! ### The abstraction -/

/-- The bytes that slot `i` under a key holds: those of its first buffer. -/
def heldAt (w : World) (key : Key) (i : ℕ) : Option (List UInt8) :=
  (bufsAt w.state.objects key i).head?.map w.bytesOf

/-- What is kept under a key. -/
def entryAt (w : World) (key : Key) : Option (Entry ObjectSpec (List UInt8)) :=
  (specAt w.state.objects key).map fun spec ↦ ⟨spec, heldAt w key⟩

/-- A `get` in flight as a read: one that reads store memory has the bytes of its buffer. -/
def ReadOf (w : World) (rd : Reader) (read : Option (Look Key (List UInt8))) : Prop :=
  match rd.replica.data with
  | .pinned b => ∃ key, read = some ⟨key, rd.op.slot.toNat, w.bytesOf b⟩
  | .external _ _ _ => read = none

/-- The abstract store has what the metadata has, and its reads are the `get`s in flight. -/
structure Abstracts (n : Node) (s : SlotStore) : Prop where
  entries : s.entries = entryAt n.world
  reads : List.Forall₂ (ReadOf n.world) n.world.readers s.reads

/-- The thread has reported `Ok` for the slot it was working on. -/
def JustLanded (w' : World) (t : ℕ) (th : PutThread) : Prop :=
  ∃ th', w'.threads t = some th' ∧ th'.results = th.results ++ [.ok ()]

/-- The `get` wrote the range it asks for to its destination, all of it. -/
def Delivered (n : Node) (rd : Reader) (value : List UInt8) (mem' : ByteSpace) : Prop :=
  let bytes := (value.drop rd.op.srcOffset).take rd.dstLen
  bytes.length = rd.dstLen ∧ mem' = writeAll n.mem (segsOf rd.op.dst) bytes

/-- The moves that a step stands for. -/
def Explains (n : Node) (e : Event) (n' : Node) (moves : List SlotMove) : Prop :=
  match e.action, e.reply with
  | .beginPut key op, .running =>
    moves = if specAt n.world.state.objects key = none then [.create key op.spec] else []
  | .advance t _, _ => ∃ th, n.world.threads t = some th ∧
    (JustLanded n'.world t th → ∃ ps, th.op.slots[th.i]? = some ps ∧
      moves = [.land th.key th.i (readAll n.mem (segsOf ps.src))]) ∧
    (¬ JustLanded n'.world t th → moves = if th.pc.evicting then [.evict] else [])
  | .remove keys, .unit (.ok _) => moves = keys.map .remove
  | .removePrefix start, .count _ => moves = (n.world.state.keysFrom start).map .remove
  | .beginGet key op, .running =>
    ∃ rd, n'.world.readers = n.world.readers ++ [rd] ∧ rd.op = op ∧
      moves = match rd.replica.data with
        | .pinned _ => [.look key op.slot.toNat]
        | .external _ _ _ => [.lookOutside]
  | .finishGet k _, .get r => ∃ rd, n.world.readers[k]? = some rd ∧
    match r, rd.replica.data with
    | .ok _, .pinned _ => ∃ found, moves = [.answer k found] ∧ found.slot = rd.op.slot.toNat ∧
        Delivered n rd found.value n'.mem
    | _, _ => moves = [.drop k]
  | _, _ => moves = []

/-! ### Invariants of the runs -/

/-- What the refinement uses of a state. -/
structure Consistent (inner : Inner) (n : Node) : Prop where
  sound : ∃ live, Sound n.world live
  incarnated : Incarnated n.world n.ghost
  uniform : Uniform n.world n.mem n.ghost
  recorded : Recorded n.world n.ghost
  fitting : Fitting inner n.world
  copied : Copied n.world n.ghost
  stocked : ∀ t th, n.world.threads t = some th → th.pc.Stocked
  validated : ∀ rd ∈ n.world.readers, ∃ device, rd.op.validate = .ok (device, rd.dstLen)

section Holds

variable {inner : Inner} {n n' : Node} {w w' : World} {s : SlotStore} {key : Key} {i : ℕ}

/-- A slot holds the bytes of any of its buffers. -/
theorem Consistent.heldAt (h : Consistent inner n) {b : PinnedBuf}
    (hb : b ∈ bufsAt n.world.state.objects key i) :
    Local.heldAt n.world key i = some (n.world.bytesOf b) := by
  unfold Local.heldAt
  cases hslot : slotAt n.world.state.objects key i with
  | none =>
    rw [bufsAt_of_slotAt_none hslot] at hb
    cases hb
  | some slot =>
    rw [bufsAt_of_slotAt hslot] at hb ⊢
    cases hbufs : bufsOf slot.replicas with
    | nil =>
      rw [hbufs] at hb
      cases hb
    | cons first rest =>
      have hfirst : first ∈ bufsOf slot.replicas := hbufs ▸ List.mem_cons_self
      have hrecord : ∀ x ∈ bufsOf slot.replicas, n.world.bytesOf x = n.ghost.copied x.id :=
        fun x hx ↦ h.copied x
          (.inl (List.mem_append_left _ (mem_bufsIn.mpr ⟨key, i, slot, hslot, hx⟩)))
      rw [List.head?_cons, Option.map_some, hrecord first hfirst, hrecord b hb,
        h.uniform.slots key i slot first b hslot hfirst hb]

theorem heldAt_of_nil (h : bufsAt w.state.objects key i = []) : heldAt w key i = none := by
  unfold heldAt
  rw [h]
  rfl

/-- The entry of a key depends on its spec and on its buffers and their bytes. -/
theorem entryAt_congr (hspec : specAt w'.state.objects key = specAt w.state.objects key)
    (hbufs : ∀ i, bufsAt w'.state.objects key i = bufsAt w.state.objects key i)
    (hbytes : ∀ b ∈ w.held, w'.bytesOf b = w.bytesOf b) : entryAt w' key = entryAt w key := by
  have hheld : heldAt w' key = heldAt w key := by
    funext i
    unfold heldAt
    rw [hbufs i]
    cases hcases : bufsAt w.state.objects key i with
    | nil => rfl
    | cons b rest =>
      have hb : b ∈ bufsAt w.state.objects key i := hcases ▸ List.mem_cons_self
      rw [List.head?_cons, Option.map_some, Option.map_some,
        hbytes b (List.mem_append_left _ (mem_bufsIn_of_bufsAt hb))]
  unfold entryAt
  rw [hspec, hheld]

/-- Reads keep their bytes as long as the buffers of their `get`s do. -/
theorem reads_congr {readers : List Reader} {reads : List (Option (Look Key (List UInt8)))}
    (h : List.Forall₂ (ReadOf w) readers reads)
    (hbytes : ∀ b ∈ bufsOf (readers.map Reader.replica), w'.bytesOf b = w.bytesOf b) :
    List.Forall₂ (ReadOf w') readers reads := by
  induction h with
  | nil => exact .nil
  | @cons rd read readers reads hread _ ih =>
    refine .cons ?_ (ih fun b hb ↦ hbytes b ?_)
    · unfold ReadOf at hread ⊢
      cases hdata : rd.replica.data with
      | pinned b =>
        rw [hdata] at hread
        have hb : b ∈ bufsOf ((rd :: readers).map Reader.replica) := by
          simp [bufsOf, ReplicaEntry.buf?, hdata]
        dsimp only at hread ⊢
        rw [hbytes b hb]
        exact hread
      | external segs id origins =>
        rw [hdata] at hread
        exact hread
    · rw [List.map_cons, ← List.singleton_append, bufsOf_append]
      exact List.mem_append_right _ hb

theorem forall₂_eraseIdx {α β : Type} {R : α → β → Prop} {as : List α} {bs : List β}
    (h : List.Forall₂ R as bs) : ∀ k, List.Forall₂ R (as.eraseIdx k) (bs.eraseIdx k) := by
  induction h with
  | nil => exact fun k ↦ by cases k <;> exact .nil
  | cons hhead htail ih =>
    intro k
    cases k with
    | zero => exact htail
    | succ k => exact .cons hhead (ih k)

theorem forall₂_getElem? {α β : Type} {R : α → β → Prop} {as : List α} {bs : List β}
    (h : List.Forall₂ R as bs) :
    ∀ {k : ℕ} {a : α}, as[k]? = some a → ∃ b, bs[k]? = some b ∧ R a b := by
  induction h with
  | nil => exact fun hnone ↦ (by cases hnone)
  | cons hhead _ ih =>
    intro k a ha
    cases k with
    | zero =>
      cases ha
      exact ⟨_, rfl, hhead⟩
    | succ k => exact ih ha

/-- Nothing stored has changed and no `get` began or ended. -/
theorem Abstracts.still (h : Abstracts n s)
    (hsame : SameStored n.world.state.objects n'.world.state.objects)
    (hreaders : n'.world.readers = n.world.readers)
    (hbytes : ∀ b ∈ n.world.held, n'.world.bytesOf b = n.world.bytesOf b) : Abstracts n' s where
  entries := h.entries.trans (funext fun key ↦
    (entryAt_congr (hsame.spec key) (hsame.bufs key) hbytes).symm)
  reads := by
    rw [hreaders]
    exact reads_congr h.reads fun b hb ↦ hbytes b (List.mem_append_right _ hb)

/-- The entries were replaced, and no `get` began or ended. -/
theorem Abstracts.replace (h : Abstracts n s) (hreaders : n'.world.readers = n.world.readers)
    (hbytes : ∀ b ∈ n.world.held, n'.world.bytesOf b = n.world.bytesOf b) {s' : SlotStore}
    (hentries : s'.entries = entryAt n'.world) (hreads : s'.reads = s.reads) :
    Abstracts n' s' where
  entries := hentries
  reads := by
    rw [hreads, hreaders]
    exact reads_congr h.reads fun b hb ↦ hbytes b (List.mem_append_right _ hb)

end Holds

/-! ### The steps -/

section Steps

variable {inner : Inner} {n n' : Node} {s : SlotStore} {key : Key}

/-- A claim creates the object where there is none. -/
theorem Abstracts.claimed (h : Abstracts n s) (n' : Node) {op : OpPut} {writable : List Bool}
    (hclaimed : Claimed n.world.state.objects key op.spec writable n'.world.state.objects)
    (hreaders : n'.world.readers = n.world.readers)
    (hbytes : ∀ b ∈ n.world.held, n'.world.bytesOf b = n.world.bytesOf b) :
    ∃ s', slotStore.Steps s
        (if specAt n.world.state.objects key = none then [.create key op.spec] else []) s' ∧
      Abstracts n' s' := by
  split_ifs with hnone
  · have hcreate : slotStore.step s (.create key op.spec)
        (s.set key (some ⟨op.spec, fun _ ↦ none⟩)) := by
      refine ⟨?_, rfl⟩
      rw [h.entries, entryAt, hnone]
      rfl
    refine ⟨_, .snoc .nil hcreate, h.replace hreaders hbytes (funext fun other ↦ ?_) rfl⟩
    by_cases heq : other = key
    · subst heq
      have hheld : heldAt n'.world other = fun _ ↦ none := by
        funext i
        refine heldAt_of_nil ?_
        rw [hclaimed.bufsAt, bufsAt_of_specAt_none hnone]
      rw [Store.set_entries_self, entryAt, hclaimed.specAt_key, hheld]
      rfl
    · rw [Store.set_entries_of_ne s heq, h.entries]
      exact (entryAt_congr (hclaimed.specAt_ne other (Ne.symm heq)) (hclaimed.bufsAt other)
        hbytes).symm
  · refine ⟨s, .nil, h.still ⟨fun other ↦ ?_, hclaimed.bufsAt⟩ hreaders hbytes⟩
    by_cases heq : key = other
    · subst heq
      obtain ⟨old, hold⟩ := Option.ne_none_iff_exists'.mp hnone
      rw [hclaimed.specAt_key, hold, hclaimed.present old hold]
    · exact hclaimed.specAt_ne other heq

/-- A store lands what the source of the slot holds. -/
theorem Abstracts.stored (h : Abstracts n s) (n' : Node) (hconsistent : Consistent inner n) {t : ℕ}
    {th : PutThread} {ps : PutSlot} {placed : List Placed} {st : State}
    (hth : n.world.threads t = some th)
    (hps : th.op.slots[th.i]? = some ps) (hpc : th.pc = .store placed)
    (hstore : n.world.state.store th.key th.i placed = .ok (.ok st))
    (hstate : n'.world.state = st) (hreaders : n'.world.readers = n.world.readers)
    (hpinned : n'.world.pinned = n.world.pinned) :
    ∃ s', slotStore.step s (.land th.key th.i (readAll n.mem (segsOf ps.src))) s' ∧
      Abstracts n' s' := by
  obtain ⟨live, hsound⟩ := hconsistent.sound
  have hpaced := hsound.paced t th hth
  have hbusy : th.pc.busy = true := by rw [hpc]; rfl
  obtain ⟨hrewritten, slot, hslot⟩ := store_rewritten hstore
  obtain ⟨_, hempty, _⟩ :=
    hconsistent.incarnated.owns t th th.i slot hth (hpaced.unfinished hbusy) hslot
  obtain ⟨spec, _, hspec, _⟩ := exists_slotSpec hslot
  obtain ⟨c, hc, _, hop, _⟩ := (hconsistent.recorded.threads t th hth).claim
  have hsame : spec = th.op.spec := by
    rw [← hop]
    exact (hconsistent.incarnated.current t th th.i c spec hth (hpaced.unfinished hbusy) hc
      hspec).1.symm
  -- the first buffer stored is one the `put` has filled from its source
  obtain ⟨x, rest, rfl⟩ : ∃ x rest, placed = x :: rest := by
    exact List.exists_cons_of_ne_nil ((hconsistent.stocked t th hth).stored placed hpc)
  have hfilled : x.buf ∈ th.filled := by
    unfold PutThread.filled
    rw [hpc]
    exact List.mem_cons_self
  have hcontent : n.world.bytesOf x.buf = readAll n.mem (segsOf ps.src) :=
    (hconsistent.copied x.buf (.inr ⟨t, th, hth, hfilled⟩)).trans
      (hconsistent.uniform.sources t th ps x.buf hth hps hfilled)
  have hbytesOf : n'.world.bytesOf = n.world.bytesOf := by
    funext b
    unfold World.bytesOf
    rw [hpinned]
  have hbefore : bufsAt n.world.state.objects th.key th.i = [] := by
    rw [bufsAt_of_slotAt hslot, hempty]
  have hentry : s.entries th.key = some ⟨spec, heldAt n.world th.key⟩ := by
    rw [h.entries, entryAt, hspec]
    rfl
  obtain ⟨device, hvalid⟩ := hpaced.valid ps (List.mem_of_getElem? hps)
  have hfits : slotPolicy.fits spec th.i (readAll n.mem (segsOf ps.src)) := by
    refine ⟨ps.spec, ?_, ?_⟩
    · rw [hsame]
      change (th.op.slots.map PutSlot.spec)[th.i]? = some ps.spec
      rw [List.getElem?_map, hps]
      rfl
    · rw [length_readAll]
      exact hvalid.total_eq.symm
  refine ⟨_, ⟨_, hentry, heldAt_of_nil hbefore, hfits, rfl⟩, h.replace hreaders ?_
    (funext fun other ↦ ?_) rfl⟩
  · exact fun b _ ↦ congrFun hbytesOf b
  · by_cases heq : other = th.key
    · subst heq
      rw [Store.set_entries_self, entryAt, hstate, hrewritten.specAt_eq, hspec, Option.map_some]
      congr 2
      funext j
      unfold heldAt
      rw [hstate, store_bufsAt hstore, hbytesOf]
      by_cases hj : j = th.i
      · subst hj
        rw [Function.update_self, if_pos ⟨rfl, rfl⟩, hbefore, List.nil_append, List.map_cons,
          List.head?_cons, Option.map_some, hcontent]
      · rw [Function.update_of_ne hj, if_neg fun hboth ↦ hj hboth.2]
    · rw [Store.set_entries_of_ne s heq, h.entries]
      refine (entryAt_congr ?_ (fun j ↦ ?_) fun b _ ↦ congrFun hbytesOf b).symm
      · rw [hstate, hrewritten.specAt_eq]
      · rw [hstate, store_bufsAt hstore, if_neg fun hboth ↦ heq hboth.1]

/-- An eviction round takes bytes from `Cache` objects only. -/
theorem Abstracts.evicted (h : Abstracts n s) (hconsistent : Consistent inner n) {device : Device}
    {protect : Key} {r : Bool × List PinnedBuf × State}
    (hround : n.world.state.evictRound device protect = .ok r)
    (hstate : n'.world.state = r.2.2) (hreaders : n'.world.readers = n.world.readers)
    (hbytes : ∀ b ∈ n.world.held, n'.world.bytesOf b = n.world.bytesOf b) :
    ∃ s', slotStore.step s .evict s' ∧ Abstracts n' s' := by
  obtain ⟨popped, rest, hdone⟩ := evictRound_done hround
  have hevicts := hdone.evicts
  rw [← hstate] at hevicts
  refine ⟨{ s with entries := entryAt n'.world }, ⟨rfl, fun key ↦ ?_⟩,
    h.replace hreaders hbytes rfl rfl⟩
  change Evicted slotPolicy (s.entries key) (entryAt n'.world key)
  rw [h.entries]
  cases hspec : specAt n.world.state.objects key with
  | none =>
    have hafter : specAt n'.world.state.objects key = none := by
      cases hsome : specAt n'.world.state.objects key with
      | none => rfl
      | some spec => exact (hevicts.spec_of_after key spec hsome).symm.trans hspec
    unfold entryAt
    rw [hspec, hafter]
    exact .kept _
  | some spec =>
    by_cases hret : spec.retention = .cache
    · cases hafter : specAt n'.world.state.objects key with
      | none =>
        unfold entryAt
        rw [hspec, hafter]
        exact .reclaimed hret
      | some spec' =>
        cases (hevicts.spec_of_after key spec' hafter).symm.trans hspec
        unfold entryAt
        rw [hspec, hafter]
        refine .lost hret fun i ↦ ?_
        -- what is left of a slot are buffers it had, and they all hold the same bytes
        cases hbufs : bufsAt n'.world.state.objects key i with
        | nil => exact .inr (heldAt_of_nil hbufs)
        | cons b others =>
          have hb : b ∈ bufsAt n.world.state.objects key i := by
            have hmem : b ∈ bufsAt n'.world.state.objects key i := hbufs ▸ List.mem_cons_self
            obtain ⟨replica, hreplica, hbuf⟩ := List.mem_filterMap.mp hmem
            exact List.mem_filterMap.mpr ⟨replica, hevicts.mem_before hreplica, hbuf⟩
          refine .inl ?_
          rw [hconsistent.heldAt hb, heldAt, hbufs, List.head?_cons, Option.map_some,
            hbytes b (List.mem_append_left _ (mem_bufsIn_of_bufsAt hb))]
    · have hnot : ¬ CacheAt n.world.state.objects key := by
        rintro ⟨found, hfound, hcache⟩
        cases hspec.symm.trans hfound
        exact hret hcache
      have hfind := hevicts.kept key (.inl hnot)
      have hsame : entryAt n'.world key = entryAt n.world key := by
        refine entryAt_congr ?_ (fun i ↦ ?_) hbytes
        · rw [specAt, hfind, specAt]
        · rw [bufsAt, replicasAt_congr hfind, bufsAt]
      rw [hsame]
      exact .kept _

/-- Removed keys are removed. -/
theorem Abstracts.removed (h : Abstracts n s) (n' : Node) {keys : List Key}
    (hobjects : n'.world.state.objects = (removeKeys keys n.world.state.objects).2)
    (hreaders : n'.world.readers = n.world.readers)
    (hbytes : ∀ b ∈ n.world.held, n'.world.bytesOf b = n.world.bytesOf b) :
    ∃ s', slotStore.Steps s (keys.map .remove) s' ∧ Abstracts n' s' := by
  refine ⟨{ s with entries := entryAt n'.world }, ?_, h.replace hreaders hbytes rfl rfl⟩
  have hfind := find?_removeKeys keys n.world.state.objects
  rw [← hobjects] at hfind
  refine steps_removes keys rfl (fun key hkey ↦ ?_) fun key hkey ↦ ?_
  · change entryAt n'.world key = none
    rw [entryAt, specAt, hfind key, if_pos hkey]
    rfl
  · have hsame := (hfind key).trans (if_neg hkey)
    rw [h.entries]
    refine entryAt_congr ?_ (fun i ↦ ?_) hbytes
    · rw [specAt, hsame, specAt]
    · rw [bufsAt, replicasAt_congr hsame, bufsAt]

/-- A `get` that selects a replica looks. -/
theorem Abstracts.selected (h : Abstracts n s) (hconsistent : Consistent inner n) {op : OpGet}
    {rd : Reader} {slot : Slot} (hop : rd.op = op)
    (hslot : slotAt n.world.state.objects key op.slot.toNat = some slot)
    (hreplica : rd.replica ∈ slot.replicas)
    (hw : n'.world = { n.world with readers := n.world.readers ++ [rd] }) :
    ∃ s', slotStore.Steps s (match rd.replica.data with
        | .pinned _ => [.look key op.slot.toNat]
        | .external _ _ _ => [.lookOutside]) s' ∧ Abstracts n' s' := by
  subst hop
  have habstracts : ∀ read, ReadOf n.world rd read →
      Abstracts n' { s with reads := s.reads ++ [read] } := by
    intro read hread
    constructor
    · rw [hw]
      exact h.entries
    · rw [hw]
      exact List.rel_append h.reads (.cons hread .nil)
  have hread := habstracts
  unfold ReadOf at hread
  cases hdata : rd.replica.data with
  | pinned b =>
    rw [hdata] at hread
    have hb : b ∈ bufsAt n.world.state.objects key rd.op.slot.toNat := by
      rw [bufsAt_of_slotAt hslot]
      exact List.mem_filterMap.mpr ⟨rd.replica, hreplica, by rw [ReplicaEntry.buf?, hdata]⟩
    have hlook : slotStore.step s (.look key rd.op.slot.toNat)
        { s with reads := s.reads ++ [some ⟨key, rd.op.slot.toNat, n.world.bytesOf b⟩] } := by
      refine ⟨_, ?_, rfl⟩
      obtain ⟨spec, _, hspec, _⟩ := exists_slotSpec hslot
      rw [Store.heldAt, h.entries, entryAt, hspec]
      exact hconsistent.heldAt hb
    exact ⟨_, .snoc .nil hlook, hread _ ⟨key, rfl⟩⟩
  | external segs id origins =>
    rw [hdata] at hread
    exact ⟨_, .snoc .nil rfl, hread _ rfl⟩

/-- A `get` that ends answers with what it has delivered, or is dropped. -/
theorem Abstracts.finished (h : Abstracts n s) {k : ℕ} {rd : Reader} {outcome : CopyOutcome}
    (hrd : n.world.readers[k]? = some rd) (hlen : rd.dstLen ≤ totalLen (segsOf rd.op.dst))
    (hw : n'.world = (n.world.finishGet inner n.mem k rd outcome).1)
    (hmem : n'.mem = (n.world.copyOut inner n.mem rd outcome).1) :
    ∃ moves s', slotStore.Steps s moves s' ∧ Abstracts n' s' ∧
      match (n.world.copyOut inner n.mem rd outcome).2, rd.replica.data with
      | .ok _, .pinned _ => ∃ found, moves = [.answer k found] ∧ found.slot = rd.op.slot.toNat ∧
          Delivered n rd found.value n'.mem
      | _, _ => moves = [.drop k] := by
  have habstracts : Abstracts n' { s with reads := s.reads.eraseIdx k } := by
    constructor
    · rw [hw]
      exact h.entries
    · rw [hw]
      exact forall₂_eraseIdx h.reads k
  have hdropped : slotStore.Steps s [.drop k] { s with reads := s.reads.eraseIdx k } :=
    .snoc .nil rfl
  cases hreply : (n.world.copyOut inner n.mem rd outcome).2 with
  | error e => exact ⟨_, _, hdropped, habstracts, rfl⟩
  | ok rp =>
    obtain ⟨read, hpending, hread⟩ := forall₂_getElem? h.reads hrd
    unfold ReadOf at hread
    have hpair : n.world.copyOut inner n.mem rd outcome = (n'.mem, .ok rp) :=
      Prod.ext hmem.symm hreply
    cases hdata : rd.replica.data with
    | external segs id origins => exact ⟨_, _, hdropped, habstracts, rfl⟩
    | pinned b =>
      rw [hdata] at hread
      obtain ⟨key, rfl⟩ := hread
      have hcopied := copyOut_ok (by rw [hdata]; trivial) hlen hpair
      rw [hdata] at hcopied
      have hanswer : slotStore.step s
          (.answer k ⟨key, rd.op.slot.toNat, n.world.bytesOf b⟩)
          { s with reads := s.reads.eraseIdx k } := ⟨hpending, rfl⟩
      exact ⟨_, _, .snoc .nil hanswer, habstracts, _, rfl, rfl, hcopied⟩

end Steps

theorem SameStored.of_state {w w' : World} (h : w'.state = w.state) :
    SameStored w.state.objects w'.state.objects :=
  ⟨fun _ ↦ by rw [h], fun _ _ ↦ by rw [h]⟩

/-- A step of a `put` in flight. -/
theorem Acts.refines {inner : Inner} {n n' : Node} {s : SlotStore} {t : ℕ} {th : PutThread}
    (hacts : Acts n.world t th n'.world) (hconsistent : Consistent inner n)
    (habstracts : Abstracts n s) (hth : n.world.threads t = some th)
    (hreaders : n'.world.readers = n.world.readers)
    (hbytes : ∀ b ∈ n.world.held, n'.world.bytesOf b = n.world.bytesOf b) :
    ∃ moves s', slotStore.Steps s moves s' ∧ Abstracts n' s' ∧
      (JustLanded n'.world t th → ∃ ps, th.op.slots[th.i]? = some ps ∧
        moves = [.land th.key th.i (readAll n.mem (segsOf ps.src))]) ∧
      (¬ JustLanded n'.world t th → moves = if th.pc.evicting then [.evict] else []) := by
  have hquiet : Silent t th n'.world → ¬ JustLanded n'.world t th :=
    fun hsilent ⟨th', hth', hok⟩ ↦ hsilent th' hth' hok
  cases hacts with
  | kept hstate hsilent =>
    have hstill := habstracts.still (SameStored.of_state hstate) hreaders hbytes
    have hnone : slotStore.Steps s (if th.pc.evicting then [.evict] else []) s := by
      split_ifs
      · exact .snoc .nil ⟨rfl, fun _ ↦ .kept _⟩
      · exact .nil
    exact ⟨_, s, hnone, hstill, fun hok ↦ absurd hok (hquiet hsilent), fun _ ↦ rfl⟩
  | evicted hpc hround hstate hsilent =>
    obtain ⟨s', hstep, habstracts'⟩ := habstracts.evicted hconsistent hround hstate hreaders hbytes
    exact ⟨_, s', .snoc .nil hstep, habstracts', fun hok ↦ absurd hok (hquiet hsilent),
      fun _ ↦ (if_pos hpc).symm⟩
  | unclaimed hpc hunclaim hstate hsilent =>
    have hsame := unclaim_sameStored hunclaim
    rw [← hstate] at hsame
    refine ⟨[], s, .nil, habstracts.still hsame hreaders hbytes,
      fun hok ↦ absurd hok (hquiet hsilent), fun _ ↦ ?_⟩
    rw [hpc]
    rfl
  | @stored placed st hpc hstore hw =>
    obtain ⟨live, hsound⟩ := hconsistent.sound
    obtain ⟨ps, hps⟩ := (hsound.paced t th hth).exists_slot (by rw [hpc]; rfl)
    obtain ⟨s', hstep, habstracts'⟩ := habstracts.stored n' hconsistent hth hps hpc hstore
      (by rw [hw]; rfl) hreaders (by rw [hw]; rfl)
    have hok : JustLanded n'.world t th := by
      refine ⟨th.reported (.ok ()), ?_, rfl⟩
      rw [hw]
      exact Function.update_self ..
    exact ⟨_, s', .snoc .nil hstep, habstracts', fun _ ↦ ⟨ps, hps, rfl⟩, fun hnot ↦ absurd hok hnot⟩

/-- Every step is explained by moves of the abstract store. -/
theorem IsStep.refines {inner : Inner} {n n' : Node} {e : Event} {s : SlotStore}
    (hstep : IsStep inner n e n') (hconsistent : Consistent inner n) (habstracts : Abstracts n s) :
    ∃ moves s', slotStore.Steps s moves s' ∧ Explains n e n' moves ∧ Abstracts n' s' := by
  obtain ⟨live, hsound⟩ := hconsistent.sound
  have hbytes : ∀ b ∈ n.world.held, n'.world.bytesOf b = n.world.bytesOf b :=
    fun b hb ↦ (hstep.moves hsound).bytesOf_held hsound hconsistent.fitting hb
  have hexec := hstep.exec
  obtain ⟨action, reply⟩ := e
  dsimp only at hexec
  -- a step that changes nothing stored stands for no move
  have hnothing : Alike n.world n'.world → Explains n ⟨action, reply⟩ n' [] →
      ∃ moves s', slotStore.Steps s moves s' ∧ Explains n ⟨action, reply⟩ n' moves ∧
        Abstracts n' s' := fun halike hexplains ↦
    ⟨[], s, .nil, hexplains, habstracts.still (SameStored.of_state halike.state) halike.readers
      hbytes⟩
  cases action with
  | beginPut key op =>
    obtain ⟨hworld, hreply⟩ := eq_of_keepMem (Option.some.inj hexec)
    rcases beginPut_outcome n.world key op with ⟨halike, hnot⟩ | ⟨writable, st, hclaim, heq⟩
    · rw [hworld] at halike
      refine hnothing halike ?_
      rw [hreply] at hnot
      unfold Explains
      cases reply with
      | running => exact absurd rfl hnot
      | _ => rfl
    · rw [heq] at hworld hreply
      have hclaimed := claim_claimed hclaim
      obtain ⟨s', hsteps, habstracts'⟩ := habstracts.claimed n'
        (by rw [← hworld]; exact hclaimed) (by rw [← hworld]; rfl) hbytes
      refine ⟨_, s', hsteps, ?_, habstracts'⟩
      rw [← hreply]
      rfl
  | advance t outcome =>
    obtain ⟨th, hth, heq⟩ := Option.map_eq_some_iff.mp hexec
    obtain ⟨hworld, _⟩ := eq_of_keepMem heq
    have hacts : Acts n.world t th n'.world := hworld ▸ advance_acts outcome
    obtain ⟨moves, s', hsteps, habstracts', hok, hnot⟩ := hacts.refines hconsistent habstracts hth
      (hworld ▸ advance_readers outcome) hbytes
    exact ⟨moves, s', hsteps, ⟨th, hth, hok, hnot⟩, habstracts'⟩
  | publish key op =>
    obtain ⟨hworld, _⟩ := eq_of_keepMem (Option.some.inj hexec)
    rcases publish_outcome n.world key op with halike | ⟨_, _, st, hpublish, heq⟩
    · exact hnothing (hworld ▸ halike) rfl
    · rw [hworld] at heq
      refine ⟨[], s, .nil, rfl, habstracts.still ?_ (by rw [heq]) hbytes⟩
      rw [heq]
      exact publish_sameStored hpublish
  | remove keys =>
    obtain ⟨hworld, hreply⟩ := eq_of_keepMem (Option.some.inj hexec)
    rcases removeKeys_outcome n.world keys (.unit (.ok ())) with
      ⟨halike, reason, hpanic⟩ | ⟨hdone, halike⟩
    · refine hnothing (hworld ▸ halike) ?_
      rw [← hreply, World.remove, hpanic]
      rfl
    · have hobjects := hworld ▸ halike
      obtain ⟨s', hsteps, habstracts'⟩ := habstracts.removed n'
        (congrArg State.objects hobjects.state) hobjects.readers hbytes
      refine ⟨_, s', hsteps, ?_, habstracts'⟩
      rw [← hreply, World.remove, hdone]
      rfl
  | removePrefix start =>
    obtain ⟨hworld, hreply⟩ := eq_of_keepMem (Option.some.inj hexec)
    rcases removeKeys_outcome n.world (n.world.state.keysFrom start)
      (.count (n.world.state.keysFrom start).length) with ⟨halike, reason, hpanic⟩ | ⟨hdone, halike⟩
    · refine hnothing (hworld ▸ halike) ?_
      rw [← hreply, World.removePrefix, hpanic]
      rfl
    · have hobjects := hworld ▸ halike
      obtain ⟨s', hsteps, habstracts'⟩ := habstracts.removed n'
        (congrArg State.objects hobjects.state) hobjects.readers hbytes
      refine ⟨_, s', hsteps, ?_, habstracts'⟩
      rw [← hreply, World.removePrefix, hdone]
      rfl
  | retireRegion regionId =>
    obtain ⟨hworld, _⟩ := eq_of_keepMem (Option.some.inj hexec)
    rcases retireRegion_outcome n.world regionId with halike | heq
    · exact hnothing (hworld ▸ halike) rfl
    · rw [hworld] at heq
      refine ⟨[], s, .nil, rfl, habstracts.still ?_ (by rw [heq]) hbytes⟩
      rw [heq]
      exact retireRegion_sameStored n.world.state regionId
  | beginGet key op =>
    obtain ⟨hworld, hreply⟩ := eq_of_keepMem (Option.some.inj hexec)
    rcases beginGet_outcome inner n.world key op with
      ⟨halike, hnot⟩ | ⟨rd, slot, hop, hslot, hreplica, heq⟩
    · refine hnothing (hworld ▸ halike) ?_
      rw [hreply] at hnot
      unfold Explains
      cases reply with
      | running => exact absurd rfl hnot
      | _ => rfl
    · rw [heq] at hworld hreply
      obtain ⟨s', hsteps, habstracts'⟩ := habstracts.selected hconsistent hop hslot hreplica
        hworld.symm
      refine ⟨_, s', hsteps, ?_, habstracts'⟩
      rw [← hreply]
      exact ⟨rd, by rw [← hworld], hop, rfl⟩
  | finishGet k outcome =>
    obtain ⟨rd, hrd, heq⟩ := Option.map_eq_some_iff.mp hexec
    have hworld : n'.world = (n.world.finishGet inner n.mem k rd outcome).1 := by rw [heq]
    have hmem : n'.mem = (n.world.copyOut inner n.mem rd outcome).1 :=
      (congrArg (fun r ↦ r.2.1) heq).symm
    have hreply : reply = .get (n.world.copyOut inner n.mem rd outcome).2 :=
      (congrArg (fun r ↦ r.2.2) heq).symm
    obtain ⟨device, hvalid⟩ := hconsistent.validated rd (List.mem_of_getElem? hrd)
    obtain ⟨moves, s', hsteps, habstracts', hmoves⟩ := habstracts.finished hrd
      (validateIovs_ok hvalid).1.total_eq.le hworld hmem
    refine ⟨moves, s', hsteps, ?_, habstracts'⟩
    rw [hreply]
    exact ⟨rd, hrd, hmoves⟩
  | userWrite addr bytes =>
    have hworld : n.world = n'.world := congrArg Prod.fst (Option.some.inj hexec)
    exact hnothing (hworld ▸ Alike.refl n.world) rfl

end Pegastore.Local
