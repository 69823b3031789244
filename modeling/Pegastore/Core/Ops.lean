import Pegastore.Lib.ByteMemory
import Pegastore.Lib.Outcome
import Pegastore.Core.Types

/-!
# Registered memory and operation arguments

`region.rs` and `ops.rs`. A `MemoryRegion` carries the promise its registration asks of the caller,
that `[addr, addr + len)` is a valid range of the address space. An `Iov` is a segment of a region,
and `validateIovs` is the check that every gather or scatter list passes before any byte moves:
non-empty, every segment in bounds, all on one device, with a total that fits in 64 bits.
-/

set_option autoImplicit false
set_option relaxedAutoImplicit false

namespace Pegastore

open Outcome ByteMemory

/-- A user buffer registered with a backend. -/
structure MemoryRegion where
  id : ℕ
  addr : ℕ
  len : ℕ
  device : Device
  valid : addr + len ≤ 2 ^ 64
deriving DecidableEq

/-- One contiguous segment of a registered region. -/
structure Iov where
  region : MemoryRegion
  offset : ℕ
  len : ℕ
deriving DecidableEq

namespace Iov

/-- The address of the segment; the pointer addition wraps. -/
def asPtr (iov : Iov) : ℕ := (iov.region.addr + iov.offset) % 2 ^ 64

def device (iov : Iov) : Device := iov.region.device

def inBounds (iov : Iov) : Bool :=
  match checkedAdd iov.offset iov.len with
  | some e => e ≤ iov.region.len
  | none => false

/-- The range of addresses the segment stands for. -/
def seg (iov : Iov) : Segment := ⟨iov.asPtr, iov.len⟩

@[simp] theorem seg_len (iov : Iov) : iov.seg.len = iov.len := rfl

@[simp] theorem seg_addr (iov : Iov) : iov.seg.addr = iov.asPtr := rfl

theorem inBounds_iff (iov : Iov) :
    iov.inBounds = true ↔
      iov.offset + iov.len < 2 ^ 64 ∧ iov.offset + iov.len ≤ iov.region.len := by
  unfold inBounds checkedAdd
  split_ifs with h
  · rw [decide_eq_true_iff]
    exact ⟨fun hle ↦ ⟨h, hle⟩, fun hle ↦ hle.2⟩
  · constructor
    · intro hfalse
      cases hfalse
    · intro hle
      exact absurd hle.1 h

/-- A segment in bounds of its region does not wrap around the address space. -/
theorem seg_end_le (iov : Iov) (h : iov.inBounds = true) : iov.seg.addr + iov.seg.len ≤ 2 ^ 64 := by
  obtain ⟨_, hlen⟩ := iov.inBounds_iff.mp h
  have hvalid := iov.region.valid
  rw [seg_addr, seg_len, asPtr]
  by_cases hend : iov.region.addr + iov.offset < 2 ^ 64
  · rw [Nat.mod_eq_of_lt hend]
    omega
  · have hzero : iov.region.addr + iov.offset = 2 ^ 64 := by omega
    rw [hzero, Nat.mod_self]
    omega

end Iov

/-- The loop of `validate_iovs` over the segments, with the index and the running total. -/
def validateIovsLoop (device : Device) : ℕ → ℕ → List Iov → Result ℕ
  | _, total, [] => .ok total
  | i, total, iov :: rest =>
    if ¬ iov.inBounds then
      .error ((((((Error.new .invalidInput "iov out of region bounds").withContext "index" (.num i)
        ).withContext "offset" (.num iov.offset)).withContext "len" (.num iov.len)
        ).withContext "region_len" (.num iov.region.len)))
    else if iov.device ≠ device then
      .error (((Error.new .invalidInput "iov list spans multiple devices").withContext "index"
        (.num i)).withContext "device" (.device iov.device) |>.withContext "expected"
        (.device device))
    else
      match checkedAdd total iov.len with
      | none => .error (Error.new .invalidInput "iov total length overflows")
      | some total => validateIovsLoop device (i + 1) total rest

/-- Check a gather/scatter list. Returns the device and the total length. -/
def validateIovs (iovs : List Iov) (expectLen : Option ℕ) : Result (Device × ℕ) :=
  match iovs with
  | [] => .error (Error.new .invalidInput "empty iov list")
  | first :: rest =>
    match validateIovsLoop first.device 0 0 (first :: rest) with
    | .error e => .error e
    | .ok total =>
      match expectLen with
      | none => .ok (first.device, total)
      | some expect =>
        if total ≠ expect then
          .error (((Error.new .invalidInput "iov total length mismatch").withContext "total"
            (.num total)).withContext "expected" (.num expect))
        else .ok (first.device, total)

structure PutSlot where
  spec : SlotSpec
  src : List Iov

structure OpPut where
  retention : Retention
  slots : List PutSlot

def OpPut.spec (op : OpPut) : ObjectSpec := ⟨op.retention, op.slots.map PutSlot.spec⟩

/-- The loop of `OpPut::validate` over the slots. -/
def OpPut.validateLoop : ℕ → List PutSlot → Result Unit
  | _, [] => .ok ()
  | i, slot :: rest =>
    match validateIovs slot.src (some slot.spec.len) with
    | .error e => .error (e.withContext "slot" (.num i))
    | .ok _ => OpPut.validateLoop (i + 1) rest

def OpPut.validate (op : OpPut) : Result Unit :=
  if op.slots.isEmpty then .error (Error.new .invalidInput "object needs at least one slot")
  else OpPut.validateLoop 0 op.slots

/-- Per-slot outcome of a `put`. -/
structure RpPut where
  slots : List (Result Unit)

/-- The kind of an error, nothing for `Ok`. -/
def kindOf {α : Type} : Result α → Option ErrorKind
  | .ok _ => none
  | .error e => some e.kind

/-- What callers compare of a `put`: slot by slot, `Ok` or the kind of the error. -/
def RpPut.kinds (rp : RpPut) : List (Option ErrorKind) := rp.slots.map kindOf

structure OpGet where
  slot : UInt32
  srcOffset : ℕ
  dst : List Iov

def OpGet.validate (op : OpGet) : Result (Device × ℕ) := validateIovs op.dst none

/-- Which replica served the read. -/
structure RpGet where
  source : Location
deriving DecidableEq, Repr

structure OpPublish where
  slot : UInt32
  src : List Iov

def OpPublish.validate (op : OpPublish) : Result (Device × ℕ) := validateIovs op.src none

/-! ### What validation establishes -/

/-- The ranges a gather or scatter list stands for. -/
def segsOf (iovs : List Iov) : List Segment := iovs.map Iov.seg

/-- What an accepted list satisfies. -/
structure ValidIovs (iovs : List Iov) (device : Device) (total : ℕ) : Prop where
  nonempty : iovs ≠ []
  inBounds : ∀ iov ∈ iovs, iov.inBounds = true
  onDevice : ∀ iov ∈ iovs, iov.device = device
  total_eq : total = totalLen (segsOf iovs)
  total_lt : total < 2 ^ 64

theorem validateIovsLoop_ok {device : Device} {iovs : List Iov} :
    ∀ {i total result : ℕ}, total < 2 ^ 64 → validateIovsLoop device i total iovs = .ok result →
      (∀ iov ∈ iovs, iov.inBounds = true) ∧ (∀ iov ∈ iovs, iov.device = device) ∧
        result = total + totalLen (segsOf iovs) ∧ result < 2 ^ 64 := by
  induction iovs with
  | nil =>
    intro i total result htotal h
    cases h
    exact ⟨by simp, by simp, rfl, htotal⟩
  | cons iov rest ih =>
    intro i total result _ h
    unfold validateIovsLoop at h
    split_ifs at h with hbounds hdevice
    cases hadd : checkedAdd total iov.len with
    | none => simp [hadd] at h
    | some sum =>
      rw [hadd] at h
      obtain ⟨hlt, rfl⟩ := checkedAdd_eq_some.mp hadd
      obtain ⟨hin, hon, heq, hres⟩ := ih hlt h
      refine ⟨?_, ?_, ?_, hres⟩
      · intro other hother
        rcases List.mem_cons.mp hother with rfl | hother
        · simpa using hbounds
        · exact hin other hother
      · intro other hother
        rcases List.mem_cons.mp hother with rfl | hother
        · simpa using hdevice
        · exact hon other hother
      · rw [heq, segsOf, segsOf, List.map_cons, totalLen_cons, Iov.seg_len]
        omega

/-- An accepted list is valid, and has the expected length when one is given. -/
theorem validateIovs_ok {iovs : List Iov} {expectLen : Option ℕ} {device : Device} {total : ℕ}
    (h : validateIovs iovs expectLen = .ok (device, total)) :
    ValidIovs iovs device total ∧ ∀ expect, expectLen = some expect → total = expect := by
  cases iovs with
  | nil => simp [validateIovs] at h
  | cons first rest =>
    unfold validateIovs at h
    simp only at h
    cases hloop : validateIovsLoop first.device 0 0 (first :: rest) with
    | error e => simp [hloop] at h
    | ok sum =>
      rw [hloop] at h
      obtain ⟨hin, hon, heq, hlt⟩ := validateIovsLoop_ok (Nat.two_pow_pos 64) hloop
      rw [Nat.zero_add] at heq
      cases expectLen with
      | none =>
        cases h
        exact ⟨⟨by simp, hin, hon, heq, hlt⟩, by simp⟩
      | some expect =>
        simp only at h
        split_ifs at h with hne
        cases h
        refine ⟨⟨by simp, hin, hon, heq, hlt⟩, fun other hother ↦ ?_⟩
        cases hother
        exact not_not.mp hne

theorem OpPut.validateLoop_ok {slots : List PutSlot} :
    ∀ {i : ℕ}, OpPut.validateLoop i slots = .ok () → ∀ ps ∈ slots,
      ∃ device, ValidIovs ps.src device ps.spec.len := by
  induction slots with
  | nil => simp
  | cons slot rest ih =>
    intro i h ps hps
    unfold OpPut.validateLoop at h
    cases hvalid : validateIovs slot.src (some slot.spec.len) with
    | error e => simp [hvalid] at h
    | ok pair =>
      rw [hvalid] at h
      rcases List.mem_cons.mp hps with rfl | hps
      · obtain ⟨hv, hlen⟩ := validateIovs_ok hvalid
        exact ⟨pair.1, hlen _ rfl ▸ hv⟩
      · exact ih h ps hps

/-- Every slot of an accepted request has a valid source of the length its spec names. -/
theorem OpPut.validate_ok {op : OpPut} (h : op.validate = .ok ()) :
    op.slots ≠ [] ∧ ∀ ps ∈ op.slots, ∃ device, ValidIovs ps.src device ps.spec.len := by
  unfold OpPut.validate at h
  split_ifs at h with hempty
  exact ⟨by simpa using hempty, OpPut.validateLoop_ok h⟩

theorem OpPut.validateLoop_eq_ok {slots : List PutSlot}
    (h : ∀ ps ∈ slots, (validateIovs ps.src (some ps.spec.len)).isOk = true) :
    ∀ i : ℕ, OpPut.validateLoop i slots = .ok () := by
  induction slots with
  | nil => exact fun _ ↦ rfl
  | cons slot rest ih =>
    intro i
    have hslot := h slot List.mem_cons_self
    unfold OpPut.validateLoop
    cases hvalid : validateIovs slot.src (some slot.spec.len) with
    | error e =>
      rw [hvalid] at hslot
      cases hslot
    | ok pair => exact ih (fun ps hps ↦ h ps (List.mem_cons_of_mem _ hps)) (i + 1)

/-- A request is accepted when it has a slot and every source list is. -/
theorem OpPut.validate_eq_ok {op : OpPut} (hnonempty : op.slots ≠ [])
    (h : ∀ ps ∈ op.slots, (validateIovs ps.src (some ps.spec.len)).isOk = true) :
    op.validate = .ok () := by
  unfold OpPut.validate
  rw [if_neg (by simpa using hnonempty)]
  exact OpPut.validateLoop_eq_ok h 0

end Pegastore
