import Pegastore.Memory.Place

/-!
# The queues while a key is put

`Drained kb gone added before after` follows the eviction queues while slots of `kb` are placed.
Each queue keeps a sublist of its entries, in order and with every entry of `kb`, and new entries of
`kb` join at the back (`added`, as slot indices). The entries of other keys that are gone form a
beginning of the queue (`gone`), and they are exactly what the other keys can have lost: a replica
of another key that is missing was named by an entry that is gone, and a replica that is still there
was not. The relation composes (`Drained.trans`), so it holds from the state before a `put` to any
state inside it.
-/

set_option autoImplicit false
set_option relaxedAutoImplicit false

namespace Pegastore.Memory

open Outcome ByteMemory

/-- The queue entry of slot `i`, whose index is truncated to 32 bits. -/
def queueEntry (kb : Key) (i : ℕ) : FifoEntry := (kb, UInt32.ofNat i)

/-- The entries of other keys. -/
def othersOf (kb : Key) (fifo : List FifoEntry) : List FifoEntry := fifo.filter fun e ↦ e.1 ≠ kb

/-- The entries of the key. -/
def ownOf (kb : Key) (fifo : List FifoEntry) : List FifoEntry := fifo.filter fun e ↦ e.1 = kb

theorem othersOf_append (kb : Key) (first second : List FifoEntry) :
    othersOf kb (first ++ second) = othersOf kb first ++ othersOf kb second :=
  List.filter_append first second

theorem ownOf_append (kb : Key) (first second : List FifoEntry) :
    ownOf kb (first ++ second) = ownOf kb first ++ ownOf kb second :=
  List.filter_append first second

theorem othersOf_queueEntries (kb : Key) (indices : List ℕ) :
    othersOf kb (indices.map (queueEntry kb)) = [] := by
  rw [othersOf, List.filter_eq_nil_iff]
  intro entry hentry
  obtain ⟨i, _, rfl⟩ := List.mem_map.mp hentry
  simp [queueEntry]

theorem ownOf_queueEntries (kb : Key) (indices : List ℕ) :
    ownOf kb (indices.map (queueEntry kb)) = indices.map (queueEntry kb) := by
  rw [ownOf, List.filter_eq_self]
  intro entry hentry
  obtain ⟨i, _, rfl⟩ := List.mem_map.mp hentry
  simp [queueEntry]

theorem mem_othersOf {kb : Key} {fifo : List FifoEntry} {entry : FifoEntry} :
    entry ∈ othersOf kb fifo ↔ entry ∈ fifo ∧ entry.1 ≠ kb := by
  simp [othersOf]

theorem mem_ownOf {kb : Key} {fifo : List FifoEntry} {entry : FifoEntry} :
    entry ∈ ownOf kb fifo ↔ entry ∈ fifo ∧ entry.1 = kb := by
  simp [ownOf]

/-- How one queue moved: a sublist of it with all entries of `kb` stays, the other entries that are
gone come first, and new entries of `kb` follow. -/
structure QueueMoved (kb : Key) (gone : List FifoEntry) (added : List ℕ)
    (before after kept : List FifoEntry) : Prop where
  after_eq : after = kept ++ added.map (queueEntry kb)
  sublist : kept.Sublist before
  others : othersOf kb before = gone ++ othersOf kb kept
  own : ownOf kb kept = ownOf kb before

theorem QueueMoved.refl (kb : Key) (fifo : List FifoEntry) :
    QueueMoved kb [] [] fifo fifo fifo where
  after_eq := (List.append_nil fifo).symm
  sublist := List.Sublist.refl fifo
  others := rfl
  own := rfl

theorem QueueMoved.trans {kb : Key} {gone gone' : List FifoEntry} {added added' : List ℕ}
    {before middle after kept kept' : List FifoEntry}
    (h : QueueMoved kb gone added before middle kept)
    (h' : QueueMoved kb gone' added' middle after kept') :
    ∃ rest, QueueMoved kb (gone ++ gone') (added ++ added') before after rest := by
  obtain ⟨rest, new, hkept', hrest, hnew⟩ := List.sublist_append_iff.mp (h.after_eq ▸ h'.sublist)
  -- Nothing of the key is lost, so the part of `kept'` among the new entries is all of them.
  have hown : ownOf kb rest ++ ownOf kb new = ownOf kb kept ++ added.map (queueEntry kb) := by
    rw [← ownOf_append, ← hkept', h'.own, h.after_eq, ownOf_append, ownOf_queueEntries]
  have hownRest : (ownOf kb rest).Sublist (ownOf kb kept) := hrest.filter _
  have hownNew : (ownOf kb new).Sublist (added.map (queueEntry kb)) := by
    rw [← ownOf_queueEntries kb added]
    exact hnew.filter _
  have hlength := congrArg List.length hown
  rw [List.length_append, List.length_append] at hlength
  have hle := hownRest.length_le
  have hle' := hownNew.length_le
  have hrestEq : ownOf kb rest = ownOf kb kept := hownRest.eq_of_length (by omega)
  have hnewEq : new = added.map (queueEntry kb) := by
    refine hnew.eq_of_length ?_
    have hfilter : (ownOf kb new).length ≤ new.length := List.length_filter_le _ _
    have hnewLe := hnew.length_le
    omega
  refine ⟨rest, ?_, hrest.trans h.sublist, ?_, hrestEq.trans h.own⟩
  · rw [h'.after_eq, hkept', hnewEq, List.map_append, List.append_assoc]
  · have hothers := h'.others
    rw [h.after_eq, hkept', hnewEq, othersOf_append, othersOf_append, othersOf_queueEntries,
      List.append_nil, List.append_nil] at hothers
    rw [h.others, hothers, List.append_assoc]

/-- How the queues and the replicas of other keys moved while slots of `kb` were placed. -/
structure Drained (kb : Key) (gone : Device → List FifoEntry) (added : Device → List ℕ)
    (before after : State) : Prop where
  spec_of : ∀ key spec, key ≠ kb → specAt after.objects key = some spec →
    specAt before.objects key = some spec
  sublist : ∀ key i, key ≠ kb →
    (replicasAt after.objects key i).Sublist (replicasAt before.objects key i)
  queues : ∀ device pool', after.pools device = some pool' → ∃ pool kept,
    before.pools device = some pool ∧
      QueueMoved kb (gone device) (added device) pool.fifo pool'.fifo kept
  remaining : ∀ key i r device, key ≠ kb → CacheAt before.objects key →
    r ∈ replicasAt after.objects key i → r.ownedOn device = true → ¬ Names (gone device) key i
  lost : ∀ key i r, key ≠ kb → r ∈ replicasAt before.objects key i →
    r ∉ replicasAt after.objects key i → CacheAt before.objects key ∧
      ∃ device, (before.pools device).isSome = true ∧ r.ownedOn device = true ∧
        Names (gone device) key i

namespace Drained

variable {kb : Key} {gone gone' : Device → List FifoEntry} {added added' : Device → List ℕ}
  {before middle after : State}

theorem not_names_nil {key : Key} {i : ℕ} : ¬ Names [] key i := by
  rintro ⟨entry, hentry, _⟩
  cases hentry

/-- Nothing happened to other keys and the queues only grew. -/
theorem of_unchanged
    (hspec : ∀ key, key ≠ kb → specAt after.objects key = specAt before.objects key)
    (hreplicas : ∀ key i, key ≠ kb →
      replicasAt after.objects key i = replicasAt before.objects key i)
    (hqueues : ∀ device pool', after.pools device = some pool' → ∃ pool,
      before.pools device = some pool ∧
        pool'.fifo = pool.fifo ++ (added device).map (queueEntry kb)) :
    Drained kb (fun _ ↦ []) added before after where
  spec_of := fun key spec hkey h ↦ (hspec key hkey).symm.trans h
  sublist := fun key i hkey ↦ by rw [hreplicas key i hkey]
  queues := by
    intro device pool' hpool'
    obtain ⟨pool, hpool, hfifo⟩ := hqueues device pool' hpool'
    exact ⟨pool, pool.fifo, hpool, hfifo, List.Sublist.refl _, rfl, rfl⟩
  remaining := fun _ _ _ _ _ _ _ _ ↦ not_names_nil
  lost := by
    intro key i r hkey hr hnot
    rw [hreplicas key i hkey] at hnot
    exact absurd hr hnot

theorem refl (kb : Key) (st : State) : Drained kb (fun _ ↦ []) (fun _ ↦ []) st st :=
  of_unchanged (fun _ _ ↦ rfl) (fun _ _ _ ↦ rfl) fun _ pool hpool ↦
    ⟨pool, hpool, (List.append_nil _).symm⟩

/-- A key with a replica left is still a `Cache` object if it was one. -/
theorem cacheAt_after (h : Drained kb gone added before after) {key : Key} {i : ℕ}
    {r : ReplicaEntry} (hkey : key ≠ kb) (hcache : CacheAt before.objects key)
    (hr : r ∈ replicasAt after.objects key i) : CacheAt after.objects key := by
  obtain ⟨spec, hspec, hret⟩ := hcache
  cases hafter : specAt after.objects key with
  | none =>
    rw [specAt_none_replicasAt hafter] at hr
    cases hr
  | some found =>
    have hfound := h.spec_of key found hkey hafter
    rw [hspec, Option.some.injEq] at hfound
    exact ⟨found, hafter, hfound ▸ hret⟩

theorem trans (h : Drained kb gone added before middle)
    (h' : Drained kb gone' added' middle after) :
    Drained kb (fun d ↦ gone d ++ gone' d) (fun d ↦ added d ++ added' d) before after where
  spec_of := fun key spec hkey hspec ↦ h.spec_of key spec hkey (h'.spec_of key spec hkey hspec)
  sublist := fun key i hkey ↦ (h'.sublist key i hkey).trans (h.sublist key i hkey)
  queues := by
    intro device pool'' hpool''
    obtain ⟨pool', kept', hpool', hmoved'⟩ := h'.queues device pool'' hpool''
    obtain ⟨pool, kept, hpool, hmoved⟩ := h.queues device pool' hpool'
    obtain ⟨rest, hrest⟩ := hmoved.trans hmoved'
    exact ⟨pool, rest, hpool, hrest⟩
  remaining := by
    intro key i r device hkey hcache hr howned hnames
    have hmiddle : r ∈ replicasAt middle.objects key i := (h'.sublist key i hkey).subset hr
    rcases Names.append_iff.mp hnames with hfirst | hsecond
    · exact h.remaining key i r device hkey hcache hmiddle howned hfirst
    · exact h'.remaining key i r device hkey (h.cacheAt_after hkey hcache hmiddle) hr howned hsecond
  lost := by
    intro key i r hkey hr hnot
    by_cases hmiddle : r ∈ replicasAt middle.objects key i
    · obtain ⟨⟨spec, hspec, hret⟩, device, hsome, howned, hnames⟩ :=
        h'.lost key i r hkey hmiddle hnot
      obtain ⟨pool', hpool'⟩ := Option.isSome_iff_exists.mp hsome
      obtain ⟨pool, _, hpool, _⟩ := h.queues device pool' hpool'
      exact ⟨⟨spec, h.spec_of key spec hkey hspec, hret⟩, device, by rw [hpool]; rfl, howned,
        Names.append_iff.mpr (Or.inr hnames)⟩
    · obtain ⟨hcache, device, hsome, howned, hnames⟩ := h.lost key i r hkey hr hmiddle
      exact ⟨hcache, device, hsome, howned, Names.append_iff.mpr (Or.inl hnames)⟩

/-- One call of `make_room`. -/
theorem of_madeRoom {device : Device} {need : ℕ} {pool pool' : Pool} {fit : Bool}
    {popped rest : List FifoEntry}
    (h : MadeRoom device need kb before pool fit after pool' popped rest) :
    Drained kb (Function.update (fun _ ↦ []) device (othersOf kb popped)) (fun _ ↦ [])
      before after where
  spec_of := fun key spec _ ↦ h.evicts.spec_of_after key spec
  sublist := fun key i _ ↦ h.evicts.replicas_sublist key i
  queues := by
    intro other found hfound
    rw [h.pools_after] at hfound
    by_cases hother : other = device
    · subst hother
      rw [Function.update_self, Option.some.injEq] at hfound
      subst hfound
      refine ⟨pool, ownOf kb popped ++ rest, h.pool_before, ?_, ?_, ?_, ?_⟩
      · rw [h.queue_after, List.map_nil, List.append_nil]
        rfl
      · rw [h.queue]
        exact List.filter_sublist.append (List.Sublist.refl rest)
      · rw [Function.update_self, h.queue, othersOf_append, othersOf_append]
        have hnil : othersOf kb (ownOf kb popped) = [] := by
          simp [othersOf, ownOf]
        rw [hnil, List.nil_append]
      · rw [h.queue, ownOf_append, ownOf_append]
        have hself : ownOf kb (ownOf kb popped) = ownOf kb popped := by
          simp [ownOf]
        rw [hself]
    · rw [Function.update_of_ne hother] at hfound
      refine ⟨found, found.fifo, hfound, ?_⟩
      rw [Function.update_of_ne hother]
      exact QueueMoved.refl kb found.fifo
  remaining := by
    intro key i r other hkey hcache hr howned hnames
    by_cases hother : other = device
    · subst hother
      rw [Function.update_self] at hnames
      rw [(h.evicts.replicas key i).1 ⟨hcache, hnames⟩] at hr
      have hkept := (List.mem_filter.mp hr).2
      rw [howned] at hkept
      cases hkept
    · rw [Function.update_of_ne hother] at hnames
      exact not_names_nil hnames
  lost := by
    intro key i r hkey hr hnot
    by_cases hnamed : CacheAt before.objects key ∧ Names (othersOf kb popped) key i
    · refine ⟨hnamed.1, device, by rw [h.pool_before]; rfl, ?_,
        by rw [Function.update_self]; exact hnamed.2⟩
      rw [(h.evicts.replicas key i).1 hnamed] at hnot
      by_contra howned
      exact hnot (List.mem_filter.mpr ⟨hr, by simpa using howned⟩)
    · rw [(h.evicts.replicas key i).2 hnamed] at hnot
      exact absurd hr hnot

theorem of_rooms (h : RoomSteps kb before after) :
    ∃ gone, Drained kb gone (fun _ ↦ []) before after := by
  induction h with
  | refl => exact ⟨fun _ ↦ [], refl kb before⟩
  | snoc _ hlast ih =>
    obtain ⟨gone, hgone⟩ := ih
    exact ⟨_, hgone.trans (of_madeRoom hlast)⟩

/-- Storing a slot adds its entry once for every target. -/
theorem of_stored {i len : ℕ} {targets : List (Device × Bool)} {bytes : List UInt8}
    (h : Stored kb i len targets bytes before after) :
    Drained kb (fun _ ↦ []) (fun d ↦ List.replicate (hits targets d) i) before after := by
  refine of_unchanged (fun key _ ↦ h.spec_eq key)
    (fun key j hkey ↦ h.replicas_other (Or.inl hkey)) ?_
  intro device pool' hpool'
  rw [h.pools device] at hpool'
  obtain ⟨pool, hpool, rfl⟩ := Option.map_eq_some_iff.mp hpool'
  refine ⟨pool, hpool, ?_⟩
  rw [List.map_replicate]
  rfl

end Drained

end Pegastore.Memory
