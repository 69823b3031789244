import Pegastore.Memory.Accounting

/-!
# What `remove_prefix` removes

The keys that begin with a byte string are one block of the index, which starts at the string
itself, so the scan that stops at the first other key finds all of them (`mem_keysFrom_iff`). What
`remove` leaves is determined by the set of its keys: the entries under other keys, and pools whose
counters are the bytes left (`remove_eq`). So the order of the keys and their repetitions make no
difference.
-/

set_option autoImplicit false
set_option relaxedAutoImplicit false

namespace Pegastore.Memory

open Outcome

/-- The entries whose key begins with the given bytes. -/
def State.block (st : State) (start : List UInt8) : List (Key × Object) :=
  st.objects.entries.filter fun e ↦ start.isPrefixOf e.1

theorem keysFrom_eq (st : State) (start : List UInt8) :
    st.keysFrom start = (st.block start).map Prod.fst :=
  congrArg (List.map Prod.fst) (st.objects.takeWhile_rangeFrom start)

/-- The scan finds the present keys that begin with the given bytes. -/
theorem mem_keysFrom_iff {st : State} {start : List UInt8} {key : Key} :
    key ∈ st.keysFrom start ↔
      (st.objects.find? key).isSome = true ∧ start.isPrefixOf key = true := by
  rw [keysFrom_eq, List.mem_map, Option.isSome_iff_exists]
  constructor
  · rintro ⟨e, he, rfl⟩
    obtain ⟨hmem, hprefix⟩ := List.mem_filter.mp he
    exact ⟨⟨e.2, (st.objects.mem_entries_iff).mp hmem⟩, hprefix⟩
  · rintro ⟨⟨obj, hobj⟩, hprefix⟩
    exact ⟨(key, obj), List.mem_filter.mpr ⟨(st.objects.mem_entries_iff).mpr hobj, hprefix⟩, rfl⟩

/-! ### What `remove` leaves -/

theorem removeKey_objects {st st' : State} {key : Key} (h : st.removeKey key = .ok st') :
    st'.objects = st.objects.erase key := by
  unfold State.removeKey at h
  cases hfind : st.objects.find? key with
  | none =>
    rw [hfind] at h
    cases h
    exact (SortedMap.erase_of_find?_eq_none hfind).symm
  | some obj =>
    rw [hfind] at h
    unfold State.releaseObject at h
    obtain ⟨pools, _, h⟩ := bind_eq_ok.mp h
    cases h
    rfl

theorem remove_objects (keys : List Key) : ∀ {st st' : State}, remove st keys = .ok st' →
    st'.objects = keys.foldl SortedMap.erase st.objects := by
  induction keys with
  | nil =>
    intro st st' h
    cases h
    rfl
  | cons key keys ih =>
    intro st st' h
    unfold remove at h
    rw [List.foldlM_cons] at h
    obtain ⟨middle, hfirst, hrest⟩ := bind_eq_ok.mp h
    rw [ih hrest, removeKey_objects hfirst, List.foldl_cons]

/-- A pool whose counter is the bytes some objects own on its device. -/
def Pool.holding (objects : Objects) (device : Device) (pool : Pool) : Pool :=
  { pool with used := ownedOn device objects }

/-- The state without the entries some keys are under. -/
def State.without (st : State) (keys : List Key) : State :=
  let objects := keys.foldl SortedMap.erase st.objects
  ⟨objects, fun device ↦ (st.pools device).map (Pool.holding objects device)⟩

/-- `remove` leaves the other entries, and counters of what they own. -/
theorem remove_eq {st : State} (keys : List Key) (hacc : Accounted st) :
    remove st keys = .ok (st.without keys) := by
  obtain ⟨st', hst', hremoved⟩ := (holds_remove keys hacc).exists_ok fun _ ↦ id
  have hobjects := remove_objects keys hst'
  have hpools : st'.pools = (st.without keys).pools := by
    funext device
    show _ = (st.pools device).map (Pool.holding (keys.foldl SortedMap.erase st.objects) device)
    rw [← hobjects]
    cases hpool' : st'.pools device with
    | none =>
      have hsome := hremoved.pools_isSome device
      rw [hpool', Option.isSome_none] at hsome
      have hnone : st.pools device = none := Option.not_isSome_iff_eq_none.mp (by
        rw [← hsome]
        exact Bool.false_ne_true)
      rw [hnone]
      rfl
    | some pool' =>
      obtain ⟨pool, hpool, hcap, hfifo, _⟩ := hremoved.pools device pool' hpool'
      have hused := hremoved.accounted device pool' hpool'
      rw [hpool, Option.map_some]
      obtain ⟨capacity, used, fifo⟩ := pool'
      subst hcap hfifo hused
      rfl
  obtain ⟨objects, pools⟩ := st'
  subst hpools
  rw [hst', show objects = (st.without keys).objects from hobjects]

/-- Only the set of the keys matters. -/
theorem without_congr {st : State} {first second : List Key}
    (h : ∀ e ∈ st.objects.entries, e.1 ∈ first ↔ e.1 ∈ second) :
    st.without first = st.without second := by
  have hobjects : first.foldl SortedMap.erase st.objects =
      second.foldl SortedMap.erase st.objects := by
    refine SortedMap.ext ?_
    rw [SortedMap.entries_foldl_erase, SortedMap.entries_foldl_erase]
    refine List.filter_congr fun e he ↦ ?_
    rw [decide_eq_decide, not_iff_not]
    exact h e he
  unfold State.without
  rw [hobjects]

theorem entries_without_keysFrom (st : State) (start : List UInt8) :
    (st.without (st.keysFrom start)).objects.entries =
      st.objects.entries.filter fun e ↦ !start.isPrefixOf e.1 := by
  refine SortedMap.entries_foldl_erase_of_iff fun e he ↦ ?_
  have hpresent : (st.objects.find? e.1).isSome = true := by
    rw [(st.objects.mem_entries_iff).mp he]
    rfl
  rw [mem_keysFrom_iff]
  exact and_iff_right hpresent

/-- What the block owns on a device and what the rest owns. -/
theorem ownedOn_block (st : State) (start : List UInt8) (device : Device) :
    ownedOn device (st.without (st.keysFrom start)).objects +
      ((st.block start).map fun e ↦ e.2.ownedOn device).sum = ownedOn device st.objects := by
  have hsum := sum_filter_add_sum_filter_not st.objects.entries
    (fun e : Key × Object ↦ e.2.ownedOn device) fun e ↦ start.isPrefixOf e.1
  unfold ownedOn SortedMap.sumOn
  rw [entries_without_keysFrom, Nat.add_comm]
  exact hsum

/-- In every reachable state `remove_prefix` removes the objects whose key begins with the given
bytes and no other, returns their number, takes what they own off the counters, and leaves what
`remove` leaves with those keys in any order and number. -/
theorem remove_prefix_exact {b : MemoryBuilder} {m₀ : UserMemory} {history : List Event} {w : World}
    (hrun : (memory b m₀).Run history w) (start : List UInt8) : ∃ st',
    removePrefix w.state start = .ok ((w.state.block start).length, st') ∧
    st'.objects.entries = w.state.objects.entries.filter (fun e ↦ !start.isPrefixOf e.1) ∧
    (∀ device, st'.pools device = (w.state.pools device).map fun pool ↦ { pool with
      used := pool.used - ((w.state.block start).map fun e ↦ e.2.ownedOn device).sum }) ∧
    (∀ device pool, w.state.pools device = some pool →
      ((w.state.block start).map fun e ↦ e.2.ownedOn device).sum ≤ pool.used) ∧
    ∀ keys : List Key, (∀ key, key ∈ keys ↔
        (w.state.objects.find? key).isSome = true ∧ start.isPrefixOf key = true) →
      remove w.state keys = .ok st' := by
  have hacc := (run_sound hrun).accounted
  refine ⟨w.state.without (w.state.keysFrom start), ?_, entries_without_keysFrom _ _,
    fun device ↦ ?_, fun device pool hpool ↦ ?_, fun keys hkeys ↦ ?_⟩
  · unfold removePrefix
    dsimp only
    rw [remove_eq _ hacc, ok_bind, keysFrom_eq, List.length_map]
  · have hblock := ownedOn_block w.state start device
    refine Option.map_congr fun pool hpool ↦ ?_
    have hused := hacc device pool hpool
    have hleft : ownedOn device (w.state.without (w.state.keysFrom start)).objects =
        pool.used - ((w.state.block start).map fun e ↦ e.2.ownedOn device).sum := by omega
    unfold Pool.holding
    rw [← hleft]
    rfl
  · rw [hacc device pool hpool, ← ownedOn_block w.state start device]
    exact Nat.le_add_left _ _
  · rw [remove_eq _ hacc]
    refine congrArg _ (without_congr fun e _ ↦ ?_)
    rw [hkeys, mem_keysFrom_iff]

/-- Three one-byte objects, two of them under the bytes 1 and 255: both go, in either order. -/
theorem remove_prefix_exact_two_of_three : ∃ history w st',
    (memory (Scenario.backend 4) Scenario.mem).Run history w ∧
    removePrefix w.state [1, 255] = .ok (2, st') ∧ st'.objects.entries.map Prod.fst = [[2]] ∧
    remove w.state [[1, 255, 0], [1, 255], [1, 255, 0]] = .ok st' := by
  let put (key : Key) : Op := .put key ⟨.cache, [Scenario.slotOn (.strict (.cpu 0)) 1]⟩
  have hreplay : (replayOps (Scenario.backend 4).inner
      [Scenario.registerBuffer, put [2], put [1, 255], put [1, 255, 0]]
      (memory (Scenario.backend 4) Scenario.mem).start).map (fun r ↦
        (r.2.state.objects.entries.map Prod.fst, r.2.state.keysFrom [1, 255])) =
      some ([[1, 255], [1, 255, 0], [2]], [[1, 255], [1, 255, 0]]) := by rfl
  obtain ⟨⟨history, w⟩, hsome, hkeys⟩ := Option.map_eq_some_iff.mp hreplay
  obtain ⟨hall, hfrom⟩ := Prod.ext_iff.mp hkeys
  dsimp only at hall hfrom
  have hrun : (memory (Scenario.backend 4) Scenario.mem).Run history w :=
    steps_of_replayOps Scenario.mem _ hsome
  obtain ⟨st', hremoved, hentries, -, -, hremove⟩ := remove_prefix_exact hrun [1, 255]
  have hlength : (w.state.block [1, 255]).length = 2 := by
    rw [← List.length_map Prod.fst, ← keysFrom_eq, hfrom]
    rfl
  rw [hlength] at hremoved
  refine ⟨history, w, st', hrun, hremoved, ?_, hremove _ fun key ↦ ?_⟩
  · have hfilter := List.filter_map (f := Prod.fst)
      (p := fun key : Key ↦ !List.isPrefixOf [1, 255] key)
      (l := w.state.objects.entries)
    rw [hall] at hfilter
    rw [hentries]
    exact hfilter.symm
  · rw [← mem_keysFrom_iff, hfrom]
    simp only [List.mem_cons, List.not_mem_nil, or_false]
    tauto

end Pegastore.Memory
