import Pegastore.Lib.Ranges
import Pegastore.Rdma.Session

/-!
# The registered memory of an engine

`LocalMemoryMap` of `rc_backend/state.rs` keeps the registered regions ordered by base. `insert`
looks at the nearest entry on each side and `find_entry` at the predecessor alone. That is enough
because the entries are non-empty, end inside the address space and are pairwise apart: `Exact` is
that invariant, and every sequence of calls keeps it.

A base and a length are numbers below `2 ^ 64`, which an entry carries as fields. The two additions
the source does not check are `addU64`; `Exact` says that they cannot overflow.
-/

set_option autoImplicit false
set_option relaxedAutoImplicit false

namespace Pegastore.Rdma

open Outcome Transition Ranges

/-- A NUMA node, where `u32::MAX` is the unknown node. -/
structure NumaNode where
  id : ℕ
deriving DecidableEq, Repr

def NumaNode.unknown : NumaNode := ⟨2 ^ 32 - 1⟩

def NumaNode.isValid (numa : NumaNode) : Bool := numa.id ≠ 2 ^ 32 - 1

/-- The keys of a memory region registered with one NIC. -/
structure MemoryRegion where
  lkey : ℕ
  rkey : ℕ
deriving DecidableEq, Repr

structure RegisteredMemoryEntry where
  basePtr : ℕ
  len : ℕ
  numa : NumaNode
  mrs : List MemoryRegion
  basePtr_lt : basePtr < 2 ^ 64
  len_lt : len < 2 ^ 64
deriving DecidableEq

structure LocalMemoryMap where
  entries : SortedMap ℕ RegisteredMemoryEntry

/-- `{:#x}`. -/
def alternateHex (n : ℕ) : String := "0x" ++ String.ofList (Nat.toDigits 16 n)

namespace LocalMemoryMap

def empty : LocalMemoryMap := ⟨SortedMap.empty⟩

/-- The registered region that `insert` finds in the way: the predecessor, if it ends after the new
base, or else the successor, if it begins before the new end. -/
def overlap (m : LocalMemoryMap) (entry : RegisteredMemoryEntry) (stop : ℕ) :
    Exec (Option RegisteredMemoryEntry) := do
  let before ← match m.entries.lastUpTo? entry.basePtr with
    | none => .ok none
    | some (_, prev) => do
      let prevEnd ← addU64 prev.basePtr prev.len
      .ok (if entry.basePtr < prevEnd then some prev else none)
  match before with
  | some prev => .ok (some prev)
  | none =>
    match (m.entries.rangeFrom entry.basePtr).head? with
    | none => .ok none
    | some (nextBase, next) => .ok (if nextBase < stop then some next else none)

/-- The text of the error of an overlap. -/
def overlapMessage (entry existing : RegisteredMemoryEntry) : String :=
  "memory region [" ++ alternateHex entry.basePtr ++ ", len=" ++ alternateHex entry.len ++
    ") overlaps registered region [" ++ alternateHex existing.basePtr ++ ", len=" ++
    alternateHex existing.len ++ ")"

/-- Insert a region: what the call returns, and the map after it. -/
def insert (m : LocalMemoryMap) (entry : RegisteredMemoryEntry) :
    Exec (TransferResult Unit × LocalMemoryMap) :=
  if entry.len = 0 then .ok (.error (.invalidArgument "len must be non-zero"), m)
  else
    match checkedAdd entry.basePtr entry.len with
    | none => .ok (.error (.invalidArgument "memory region overflows address space"), m)
    | some stop => do
      match ← m.overlap entry stop with
      | some existing => .ok (.error (.backend (overlapMessage entry existing)), m)
      | none => .ok (.ok (), ⟨m.entries.insert entry.basePtr entry⟩)

/-- Remove the region with a base: the region, and the map after it. -/
def remove (m : LocalMemoryMap) (basePtr : ℕ) : Option RegisteredMemoryEntry × LocalMemoryMap :=
  (m.entries.find? basePtr, ⟨m.entries.erase basePtr⟩)

/-- The region that covers `len` bytes from `ptr` on. -/
def findEntry (m : LocalMemoryMap) (ptr len : ℕ) : Exec (Option RegisteredMemoryEntry) :=
  match checkedAdd ptr len with
  | none => .ok none
  | some stop =>
    match m.entries.lastUpTo? ptr with
    | none => .ok none
    | some (_, entry) => do
      let entryEnd ← addU64 entry.basePtr entry.len
      .ok (if stop ≤ entryEnd then some entry else none)

end LocalMemoryMap

/-- A call that changes the map. -/
inductive MapCall
  | insert (entry : RegisteredMemoryEntry)
  | remove (basePtr : ℕ)

/-- The map after a call. -/
def LocalMemoryMap.exec (m : LocalMemoryMap) : MapCall → Exec LocalMemoryMap
  | .insert entry => do
    let (_, m') ← m.insert entry
    .ok m'
  | .remove basePtr => .ok (m.remove basePtr).2

/-- Every sequence of calls on a new map. -/
def localMemory : System LocalMemoryMap MapCall where
  start := LocalMemoryMap.empty
  step := fun m call m' ↦ m.exec call = .ok m'

/-! ### The invariant -/

/-- The addresses of a region. -/
def RegisteredMemoryEntry.range (e : RegisteredMemoryEntry) : ℕ × ℕ := (e.basePtr, e.len)

/-- Every byte of `[ptr, ptr + len)` is in the region. -/
def RegisteredMemoryEntry.Covers (e : RegisteredMemoryEntry) (ptr len : ℕ) : Prop :=
  ∀ x, contains x (ptr, len) = true → contains x e.range = true

theorem RegisteredMemoryEntry.covers_iff (e : RegisteredMemoryEntry) (ptr : ℕ) {len : ℕ}
    (hlen : 0 < len) : e.Covers ptr len ↔ e.basePtr ≤ ptr ∧ ptr + len ≤ e.basePtr + e.len := by
  unfold RegisteredMemoryEntry.Covers RegisteredMemoryEntry.range
  simp only [contains_iff]
  constructor
  · intro h
    have hfirst := h ptr ⟨le_refl _, by omega⟩
    have hlast := h (ptr + len - 1) ⟨by omega, by omega⟩
    omega
  · intro h x hx
    omega

/-- A region is registered. -/
def LocalMemoryMap.Registered (m : LocalMemoryMap) (e : RegisteredMemoryEntry) : Prop :=
  ∃ base, m.entries.find? base = some e

/-- The region can be registered: it is not empty, and it ends inside the address space. -/
def RegisteredMemoryEntry.Proper (e : RegisteredMemoryEntry) : Prop :=
  0 < e.len ∧ e.basePtr + e.len < 2 ^ 64

/-- The entries are under their bases, are proper, and are pairwise apart. -/
structure Exact (m : LocalMemoryMap) : Prop where
  keyed : ∀ base e, m.entries.find? base = some e → e.basePtr = base
  proper : ∀ e, m.Registered e → e.Proper
  apart : ∀ e f, m.Registered e → m.Registered f → e ≠ f → Apart e.range f.range

namespace Exact

variable {m : LocalMemoryMap}

theorem start : Exact LocalMemoryMap.empty where
  keyed := nofun
  proper := nofun
  apart := nofun

/-- Of two entries, one ends before the other begins. -/
theorem ends (h : Exact m) {e f : RegisteredMemoryEntry} (he : m.Registered e)
    (hf : m.Registered f) (hne : e ≠ f) :
    e.basePtr + e.len ≤ f.basePtr ∨ f.basePtr + f.len ≤ e.basePtr :=
  (apart_iff (h.proper e he).1 (h.proper f hf).1).mp (h.apart e f he hf hne)

/-- What the predecessor of an address says about every entry that begins up to it. -/
theorem lastUpTo (h : Exact m) {ptr base : ℕ} {prev : RegisteredMemoryEntry}
    (hlast : m.entries.lastUpTo? ptr = some (base, prev)) :
    m.Registered prev ∧ prev.basePtr ≤ ptr ∧ addU64 prev.basePtr prev.len =
      .ok (prev.basePtr + prev.len) ∧
    ∀ f, m.Registered f → f.basePtr ≤ ptr → f = prev ∨ f.basePtr + f.len ≤ prev.basePtr := by
  obtain ⟨hfind, hle, hmost⟩ := SortedMap.lastUpTo?_eq_some hlast
  have hprev : m.Registered prev := ⟨base, hfind⟩
  have hbase := h.keyed base prev hfind
  refine ⟨hprev, hbase ▸ hle, addU64_eq_ok.mpr ⟨(h.proper prev hprev).2, rfl⟩, ?_⟩
  rintro f ⟨base', hfind'⟩ hf
  have hbase' := h.keyed base' f hfind'
  have hbefore := hmost base' f hfind' (hbase' ▸ hf)
  by_cases heq : f = prev
  · exact Or.inl heq
  · have hpos := (h.proper prev hprev).1
    rcases h.ends ⟨base', hfind'⟩ hprev heq with hend | hend
    · exact Or.inr hend
    · omega

/-- `overlap` finds an entry that shares an address with the new region, if there is one. -/
theorem overlap (h : Exact m) {entry : RegisteredMemoryEntry} (hproper : entry.Proper) :
    ∃ found, m.overlap entry (entry.basePtr + entry.len) = .ok found ∧
      (found = none ↔ ∀ f, m.Registered f → Apart entry.range f.range) := by
  have hapart (f : RegisteredMemoryEntry) (hf : m.Registered f) :
      Apart entry.range f.range ↔
        entry.basePtr + entry.len ≤ f.basePtr ∨ f.basePtr + f.len ≤ entry.basePtr :=
    apart_iff hproper.1 (h.proper f hf).1
  have hpos := hproper.1
  -- where no entry up to the new base reaches past it, the successor decides
  have hnext (hbefore : ∀ f, m.Registered f → f.basePtr ≤ entry.basePtr →
        f.basePtr + f.len ≤ entry.basePtr) :
      ∃ found, (match (m.entries.rangeFrom entry.basePtr).head? with
        | none => (.ok none : Exec (Option RegisteredMemoryEntry))
        | some (nextBase, next) =>
          .ok (if nextBase < entry.basePtr + entry.len then some next else none)) = .ok found ∧
        (found = none ↔ ∀ f, m.Registered f → Apart entry.range f.range) := by
    split
    · rename_i hhead
      refine ⟨none, rfl, iff_of_true rfl fun f hf ↦ (hapart f hf).mpr (Or.inr ?_)⟩
      obtain ⟨base, hfind⟩ := hf
      have hlt := SortedMap.head?_rangeFrom_eq_none hhead hfind
      exact hbefore f ⟨base, hfind⟩ (by rw [h.keyed base f hfind]; exact hlt.le)
    · rename_i nextBase next hhead
      obtain ⟨hfind, hle, hleast⟩ := SortedMap.head?_rangeFrom_eq_some hhead
      have hbase := h.keyed nextBase next hfind
      refine ⟨_, rfl, ?_⟩
      split_ifs with hlt
      · refine iff_of_false nofun fun hall ↦ ?_
        have hlen := (h.proper next ⟨nextBase, hfind⟩).1
        have hends := (hapart next ⟨nextBase, hfind⟩).mp (hall next ⟨nextBase, hfind⟩)
        omega
      · refine iff_of_true rfl fun f hf ↦ (hapart f hf).mpr ?_
        rcases Nat.lt_or_ge f.basePtr entry.basePtr with hless | hge
        · exact Or.inr (hbefore f hf hless.le)
        · obtain ⟨base, hfind'⟩ := hf
          have hbase' := h.keyed base f hfind'
          have hmost := hleast base f hfind' (hbase' ▸ hge)
          omega
  unfold LocalMemoryMap.overlap
  cases hlast : m.entries.lastUpTo? entry.basePtr with
  | none =>
    refine hnext fun f hf hle ↦ ?_
    obtain ⟨base, hfind⟩ := hf
    have hlt := SortedMap.lastUpTo?_eq_none hlast hfind
    have hbase := h.keyed base f hfind
    omega
  | some last =>
    obtain ⟨base, prev⟩ := last
    obtain ⟨hprev, hle, hadd, hmost⟩ := h.lastUpTo hlast
    simp only [hadd, ok_bind]
    split_ifs with hlt
    · refine ⟨some prev, rfl, iff_of_false nofun fun hall ↦ ?_⟩
      have hends := (hapart prev hprev).mp (hall prev hprev)
      omega
    · refine hnext fun f hf hbefore ↦ ?_
      rcases hmost f hf hbefore with rfl | hend
      · exact not_lt.mp hlt
      · omega

/-- `insert` accepts a proper region that shares no address with an entry, and nothing else; if it
refuses, the map stays as it is. -/
theorem insert (h : Exact m) (entry : RegisteredMemoryEntry) :
    ∃ result m', m.insert entry = .ok (result, m') ∧
      (result = .ok () ↔ entry.Proper ∧ ∀ f, m.Registered f → Apart entry.range f.range) ∧
      (result = .ok () → m' = ⟨m.entries.insert entry.basePtr entry⟩) ∧
      (result ≠ .ok () → m' = m) := by
  unfold LocalMemoryMap.insert
  split_ifs with hlen
  · refine ⟨_, m, rfl, iff_of_false nofun fun hall ↦ ?_, nofun, fun _ ↦ rfl⟩
    exact absurd hlen hall.1.1.ne'
  · unfold checkedAdd
    split_ifs with hend
    · have hproper : entry.Proper := ⟨Nat.pos_of_ne_zero hlen, hend⟩
      obtain ⟨found, hfound, hnone⟩ := h.overlap hproper
      simp only [hfound, ok_bind]
      cases found with
      | none =>
        exact ⟨_, _, rfl, iff_of_true rfl ⟨hproper, hnone.mp rfl⟩, fun _ ↦ rfl,
          fun hne ↦ absurd rfl hne⟩
      | some existing =>
        refine ⟨_, m, rfl, iff_of_false nofun fun hall ↦ ?_, nofun, fun _ ↦ rfl⟩
        cases hnone.mpr hall.2
    · refine ⟨_, m, rfl, iff_of_false nofun fun hall ↦ ?_, nofun, fun _ ↦ rfl⟩
      exact absurd hall.1.2 hend

/-- Regions are added by an insertion and by nothing else. -/
theorem registered_insert {entry e : RegisteredMemoryEntry}
    (he : (LocalMemoryMap.mk (m.entries.insert entry.basePtr entry)).Registered e) :
    e = entry ∨ m.Registered e := by
  obtain ⟨base, hfind⟩ := he
  rw [SortedMap.find?_insert] at hfind
  split_ifs at hfind with hbase
  · exact Or.inl (Option.some.inj hfind).symm
  · exact Or.inr ⟨base, hfind⟩

theorem inserted (h : Exact m) {entry : RegisteredMemoryEntry} (hproper : entry.Proper)
    (hapart : ∀ f, m.Registered f → Apart entry.range f.range) :
    Exact ⟨m.entries.insert entry.basePtr entry⟩ where
  keyed := by
    intro base e hfind
    rw [SortedMap.find?_insert] at hfind
    split_ifs at hfind with hbase
    · cases hfind
      exact hbase
    · exact h.keyed base e hfind
  proper := by
    intro e he
    rcases registered_insert he with rfl | he
    · exact hproper
    · exact h.proper e he
  apart := by
    intro e f he hf hne
    rcases registered_insert he with rfl | heold
    · rcases registered_insert hf with rfl | hfold
      · exact absurd rfl hne
      · exact hapart f hfold
    · rcases registered_insert hf with rfl | hfold
      · exact (hapart e heold).symm
      · exact h.apart e f heold hfold hne

theorem registered_remove {base : ℕ} {e : RegisteredMemoryEntry}
    (he : (m.remove base).2.Registered e) : m.Registered e := by
  obtain ⟨base', hfind⟩ := he
  change (m.entries.erase base).find? base' = some e at hfind
  rw [SortedMap.find?_erase] at hfind
  split_ifs at hfind with hbase
  exact ⟨base', hfind⟩

theorem removed (h : Exact m) (base : ℕ) : Exact (m.remove base).2 where
  keyed := by
    intro base' e hfind
    change (m.entries.erase base).find? base' = some e at hfind
    rw [SortedMap.find?_erase] at hfind
    split_ifs at hfind with hbase
    exact h.keyed base' e hfind
  proper := fun e he ↦ h.proper e (registered_remove he)
  apart := fun e f he hf ↦ h.apart e f (registered_remove he) (registered_remove hf)

theorem exec (h : Exact m) {call : MapCall} {m' : LocalMemoryMap} (hexec : m.exec call = .ok m') :
    Exact m' := by
  cases call with
  | insert entry =>
    obtain ⟨result, m'', hinsert, hiff, hok, herr⟩ := h.insert entry
    have hm : m'' = m' := by
      unfold LocalMemoryMap.exec at hexec
      simp only [hinsert, ok_bind] at hexec
      exact Except.ok.inj hexec
    subst hm
    by_cases hresult : result = .ok ()
    · obtain ⟨hproper, hapart⟩ := hiff.mp hresult
      rw [hok hresult]
      exact h.inserted hproper hapart
    · rw [herr hresult]
      exact h
  | remove base =>
    cases hexec
    exact h.removed base

/-- The entry found is the one that covers the range. -/
theorem findEntry (h : Exact m) (ptr : ℕ) {len : ℕ} (hlen : 0 < len) :
    ∃ found, m.findEntry ptr len = .ok found ∧
      ∀ e, found = some e ↔ m.Registered e ∧ e.Covers ptr len := by
  have hmiss (hnone : ∀ e, m.Registered e → ¬ e.Covers ptr len) (e : RegisteredMemoryEntry) :
      none = some e ↔ m.Registered e ∧ e.Covers ptr len :=
    iff_of_false nofun fun hboth ↦ hnone e hboth.1 hboth.2
  unfold LocalMemoryMap.findEntry checkedAdd
  split_ifs with hend
  · cases hlast : m.entries.lastUpTo? ptr with
    | none =>
      refine ⟨none, rfl, hmiss ?_⟩
      rintro e ⟨base, hfind⟩ hcovers
      have hlt := SortedMap.lastUpTo?_eq_none hlast hfind
      have hbase := h.keyed base e hfind
      have hfirst := ((e.covers_iff ptr hlen).mp hcovers).1
      omega
    | some last =>
      obtain ⟨base, entry⟩ := last
      obtain ⟨hentry, hle, hadd, hmost⟩ := h.lastUpTo hlast
      -- an entry that begins before the predecessor ends before it, so it misses `ptr`
      have honly (e : RegisteredMemoryEntry) (he : m.Registered e) (hcovers : e.Covers ptr len) :
          e = entry := by
        obtain ⟨hfirst, hstop⟩ := (e.covers_iff ptr hlen).mp hcovers
        rcases hmost e he hfirst with heq | hbefore
        · exact heq
        · omega
      refine ⟨if ptr + len ≤ entry.basePtr + entry.len then some entry else none, ?_, ?_⟩
      · simp only [hadd, ok_bind]
      · by_cases hstop : ptr + len ≤ entry.basePtr + entry.len
        · rw [if_pos hstop]
          intro e
          constructor
          · intro heq
            cases heq
            exact ⟨hentry, (entry.covers_iff ptr hlen).mpr ⟨hle, hstop⟩⟩
          · rintro ⟨he, hcovers⟩
            rw [honly e he hcovers]
        · rw [if_neg hstop]
          refine hmiss fun e he hcovers ↦ hstop ?_
          have hin := (e.covers_iff ptr hlen).mp hcovers
          rw [honly e he hcovers] at hin
          exact hin.2
  · refine ⟨none, rfl, hmiss fun e he hcovers ↦ ?_⟩
    have hin := (e.covers_iff ptr hlen).mp hcovers
    have hproper := (h.proper e he).2
    omega

end Exact

theorem localMemory_exact {calls : List MapCall} {m : LocalMemoryMap}
    (hrun : localMemory.Run calls m) : Exact m :=
  System.Steps.invariant hrun Exact.start fun _ _ _ _ h hstep ↦ h.exec hstep

/-- After every sequence of calls the regions are proper and pairwise apart; `insert` accepts
exactly the proper regions that share no address with one of them, adds the region and nothing else,
and changes nothing otherwise; and `find_entry` returns the region that covers the range, if there
is one. No call panics. -/
theorem local_memory_map_exact {calls : List MapCall} {m : LocalMemoryMap}
    (hrun : localMemory.Run calls m) :
    (∀ e, m.Registered e → 0 < e.len ∧ e.basePtr + e.len < 2 ^ 64) ∧
      (∀ e f, m.Registered e → m.Registered f → e ≠ f → Apart e.range f.range) ∧
      (∀ entry, ∃ result m', m.insert entry = .ok (result, m') ∧
        (result = .ok () ↔ 0 < entry.len ∧ entry.basePtr + entry.len < 2 ^ 64 ∧
          ∀ f, m.Registered f → Apart entry.range f.range) ∧
        (result = .ok () → ∀ f, m'.Registered f ↔ f = entry ∨ m.Registered f) ∧
        (result ≠ .ok () → m' = m)) ∧
      ∀ ptr len, 0 < len → ∃ found, m.findEntry ptr len = .ok found ∧
        ∀ e, found = some e ↔ m.Registered e ∧ e.Covers ptr len := by
  have h := localMemory_exact hrun
  refine ⟨h.proper, h.apart, fun entry ↦ ?_, fun ptr len hlen ↦ h.findEntry ptr hlen⟩
  obtain ⟨result, m', hinsert, hiff, hok, herr⟩ := h.insert entry
  refine ⟨result, m', hinsert, hiff.trans and_assoc, fun hresult f ↦ ?_, herr⟩
  rw [hok hresult]
  constructor
  · exact Exact.registered_insert
  · rintro (rfl | ⟨base, hfind⟩)
    · exact ⟨f.basePtr, SortedMap.find?_insert_self _ _ _⟩
    · refine ⟨base, ?_⟩
      have hne : entry.basePtr ≠ base := by
        intro heq
        have hbase := h.keyed base f hfind
        have hapart := (hiff.mp hresult).2 f ⟨base, hfind⟩
        have hends := (apart_iff (hiff.mp hresult).1.1 (h.proper f ⟨base, hfind⟩).1).mp hapart
        have hlen := (hiff.mp hresult).1.1
        have hlen' := (h.proper f ⟨base, hfind⟩).1
        simp only [RegisteredMemoryEntry.range] at hends
        omega
      exact (SortedMap.find?_insert_of_ne _ _ hne).trans hfind

/-- A region of unknown NUMA node without keys. -/
def Scenario.region (basePtr len : ℕ) : RegisteredMemoryEntry :=
  ⟨basePtr % 2 ^ 64, len % 2 ^ 64, NumaNode.unknown, [], Nat.mod_lt _ (Nat.two_pow_pos 64),
    Nat.mod_lt _ (Nat.two_pow_pos 64)⟩

/-- Two abutting regions are registered. A range that straddles them is not found, so it is in
neither. -/
theorem local_memory_map_exact_abutting : ∃ m,
    localMemory.Run [.insert (Scenario.region 4096 256), .insert (Scenario.region 4352 256)] m ∧
      m.Registered (Scenario.region 4096 256) ∧ m.Registered (Scenario.region 4352 256) ∧
      m.findEntry 4336 32 = .ok none ∧ ∀ e, m.Registered e → ¬ e.Covers 4336 32 := by
  let first : LocalMemoryMap := ⟨SortedMap.empty.insert 4096 (Scenario.region 4096 256)⟩
  let second : LocalMemoryMap := ⟨first.entries.insert 4352 (Scenario.region 4352 256)⟩
  have hfirst : LocalMemoryMap.empty.exec (.insert (Scenario.region 4096 256)) = .ok first := rfl
  have hsecond : first.exec (.insert (Scenario.region 4352 256)) = .ok second := rfl
  have hrun : localMemory.Run _ second := (System.Run.nil.snoc hfirst).snoc hsecond
  have hnone : second.findEntry 4336 32 = .ok none := rfl
  refine ⟨second, hrun, ⟨4096, rfl⟩, ⟨4352, rfl⟩, hnone, fun e he hcovers ↦ ?_⟩
  obtain ⟨found, hfound, hiff⟩ := (local_memory_map_exact hrun).2.2.2 4336 32 (by decide)
  rw [hnone] at hfound
  cases hfound
  cases (hiff e).mpr ⟨he, hcovers⟩

end Pegastore.Rdma
