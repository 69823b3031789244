import Pegastore.Cuda.Lockstep

/-!
# Copies that are still running

A copy from or to a GPU is enqueued on a stream and runs until the stream is synchronised. `Streams`
is what the driver has taken and not finished; `Inner.copy` is the copy of `local.rs` for the four
pairs of devices, with a driver that may refuse any enqueue and fail any synchronisation.

`callAll_enqueue` says what a sequence of enqueues leaves running, and `Inner.copy` synchronises
the stream only after all of them were taken: an error on the way leaves by `?`. So nothing it
enqueued is running when it returns if and only if it enqueued nothing, its first enqueue was
refused, or all its enqueues were taken, the range was there and the synchronisation has waited
(`Driver.Settles`).

A synchronisation may have waited and report the error of a copy, or fail without having waited. A
host copy is over when it returns.
-/

set_option autoImplicit false
set_option relaxedAutoImplicit false

namespace Pegastore.Local

open Outcome ByteMemory

/-- An asynchronous copy, the GPU whose stream it is on and the number of its enqueue call. -/
structure Transfer where
  stream : UInt16
  call : ℕ
  piece : Piece
deriving DecidableEq, Repr

/-- The copies that are running, and the number of enqueue calls so far. -/
structure Streams where
  running : List Transfer
  calls : ℕ
  issued : ∀ t ∈ running, t.call < calls
deriving DecidableEq

/-- How a synchronisation ends: the stream has run dry, with an error of one of its copies or
without, or the call has failed before that. -/
inductive Synced
  | waited (e : Option Error)
  | gaveUp (e : Error)
deriving DecidableEq, Repr

/-- How the driver answers: the error of each enqueue call and the end of each synchronisation, by
the number of enqueue calls before it. -/
structure Driver where
  enqueue : ℕ → Option Error
  sync : ℕ → Synced

/-- One more call, which the driver refused. -/
def Streams.refuse (st : Streams) : Streams :=
  ⟨st.running, st.calls + 1, fun t ht ↦ Nat.lt_succ_of_lt (st.issued t ht)⟩

/-- One more call, which the driver took. -/
def Streams.take (st : Streams) (stream : UInt16) (piece : Piece) : Streams where
  running := st.running ++ [⟨stream, st.calls, piece⟩]
  calls := st.calls + 1
  issued := by
    intro t ht
    rcases List.mem_append.mp ht with hold | hnew
    · exact Nat.lt_succ_of_lt (st.issued t hold)
    · rw [List.mem_singleton.mp hnew]
      exact Nat.lt_succ_self st.calls

/-- The stream has run dry. -/
def Streams.drain (st : Streams) (stream : UInt16) : Streams :=
  ⟨st.running.filter fun t ↦ t.stream ≠ stream, st.calls,
    fun t ht ↦ st.issued t (List.mem_filter.mp ht).1⟩

/-- `h2d_async`, `d2h_async` and `peer_async`: one copy on a stream. -/
def Driver.copyAsync (driver : Driver) (stream : UInt16) : Mover Streams := fun src dst n st ↦
  match driver.enqueue st.calls with
  | some e => (st.refuse, .error e)
  | none => (st.take stream ⟨src, dst, n⟩, .ok ())

/-- `cuda::sync`: wait for a stream. -/
def Driver.wait (driver : Driver) (stream : UInt16) (st : Streams) : Streams × Result Unit :=
  match driver.sync st.calls with
  | .waited none => (st.drain stream, .ok ())
  | .waited (some e) => (st.drain stream, .error e)
  | .gaveUp e => (st, .error e)

def gpuNotServed (index : UInt16) : Error :=
  (Error.new .invalidInput "gpu not served").withContext "gpu" (.num index.toNat)

/-- Whether a GPU is served. -/
def Inner.gpu (inner : Inner) (index : UInt16) : Result Unit :=
  if index ∈ inner.gpus then .ok () else .error (gpuNotServed index)

/-- The stream is synchronised when every enqueue was taken; an error leaves at once. -/
def Driver.finish (driver : Driver) (stream : UInt16) :
    Streams × Result Unit → Streams × Result Unit
  | (st, .error e) => (st, .error e)
  | (st, .ok _) => driver.wait stream st

/-- The copies of a request on one stream. -/
def Driver.copyOn (driver : Driver) (stream : UInt16) (src : List Segment) (srcOffset : ℕ)
    (dst : List Segment) (total : ℕ) (st : Streams) : Exec (Streams × Result Unit) := do
  let r ← zipCopyBy (driver.copyAsync stream) src srcOffset dst total st
  .ok (driver.finish stream r)

/-- Move `total` bytes between two devices with the engine for that pair. -/
def Inner.copy (inner : Inner) (driver : Driver) (srcDev : Device) (src : List Segment)
    (srcOffset : ℕ) (dstDev : Device) (dst : List Segment) (total : ℕ) (st : Streams) :
    Exec (Streams × Result Unit) :=
  match srcDev, dstDev with
  | .cpu _, .cpu _ => zipCopyBy (fun _ _ _ st ↦ (st, .ok ())) src srcOffset dst total st
  | .cpu _, .gpu index | .gpu index, .cpu _ =>
    match inner.gpu index with
    | .error e => .ok (st, .error e)
    | .ok _ => driver.copyOn index src srcOffset dst total st
  | .gpu si, .gpu di =>
    match inner.gpu si, inner.gpu di with
    | .error e, _ => .ok (st, .error e)
    | .ok _, .error e => .ok (st, .error e)
    | .ok _, .ok _ => driver.copyOn di src srcOffset dst total st

/-- The copies of `put_slot` into the buffers of a slot, the first failure first. -/
def Inner.copyPlaced (inner : Inner) (driver : Driver) (srcDev : Device) (src : List Segment)
    (len : ℕ) : List Placed → Streams → Exec (Streams × Result Unit)
  | [], st => .ok (st, .ok ())
  | x :: placed, st => do
    let (st, r) ← inner.copy driver srcDev src 0 (.cpu x.numa) [⟨x.buf.off, len⟩] len st
    match r with
    | .error e => .ok (st, .error e)
    | .ok _ => inner.copyPlaced driver srcDev src len placed st

/-! ### What is left running -/

/-- None of the copies enqueued since `st` is running. -/
def Streams.Settled (st st' : Streams) : Prop := ∀ t ∈ st'.running, t.call < st.calls

/-- How the driver answers the calls of one copy when it leaves none of them running: there is no
call, or the first one is refused, or all are taken, the copy does not run past a list, and the
synchronisation waits. -/
def Driver.Settles (driver : Driver) (calls count : ℕ) (last : Result Unit) : Prop :=
  count = 0 ∨ (∃ e, driver.enqueue calls = some e) ∨
    (∀ k < count, driver.enqueue (calls + k) = none) ∧ last = .ok () ∧
      ∃ e, driver.sync (calls + count) = .waited e

/-- The stream that a copy between two devices is enqueued on. -/
def Inner.stream? (inner : Inner) : Device → Device → Option UInt16
  | .cpu _, .cpu _ => none
  | .cpu _, .gpu index | .gpu index, .cpu _ => if index ∈ inner.gpus then some index else none
  | .gpu si, .gpu di => if si ∈ inner.gpus ∧ di ∈ inner.gpus then some di else none

/-- The condition for a copy: one that is enqueued is answered so. -/
def Inner.Settles (inner : Inner) (driver : Driver) (srcDev : Device) (src : List Segment)
    (off : ℕ) (dstDev : Device) (dst : List Segment) (total : ℕ) (st : Streams) : Prop :=
  ∀ stream, inner.stream? srcDev dstDev = some stream →
    driver.Settles st.calls (pieces (skipSegs src off) dst total).length
      (ending (skipSegs src off) dst total)

/-- The condition for `put_slot`: every copy it comes to is answered so. -/
def Inner.SettlesAll (inner : Inner) (driver : Driver) (srcDev : Device) (src : List Segment)
    (len : ℕ) : List Placed → Streams → Prop
  | [], _ => True
  | x :: placed, st =>
    inner.Settles driver srcDev src 0 (.cpu x.numa) [⟨x.buf.off, len⟩] len st ∧ ∀ st',
      inner.copy driver srcDev src 0 (.cpu x.numa) [⟨x.buf.off, len⟩] len st = .ok (st', .ok ()) →
        inner.SettlesAll driver srcDev src len placed st'

/-- What a copy that has returned did to the streams: it added calls of its own and may have waited
for others, and it left none of its own running if it was answered so, and always when it returns
`Ok`. -/
structure Ended (st st' : Streams) (r : Result Unit) (settles : Prop) : Prop where
  calls_le : st.calls ≤ st'.calls
  old : ∀ t ∈ st'.running, t.call < st.calls → t ∈ st.running
  ok : r = .ok () → st.Settled st'
  iff : st.Settled st' ↔ settles

section Running

variable {driver : Driver} {inner : Inner} {src dst : List Segment} {off total : ℕ}
  {st st' : Streams} {r : Result Unit} {stream : UInt16}

/-- A copy that enqueues nothing. -/
theorem Ended.refl (st : Streams) (r : Result Unit) {settles : Prop} (h : settles) :
    Ended st st r settles :=
  ⟨le_refl _, fun _ ht _ ↦ ht, fun _ ↦ st.issued, fun _ ↦ h, fun _ ↦ st.issued⟩

theorem copyAsync_refused {e : Error} (h : driver.enqueue st.calls = some e) (stream : UInt16)
    (src dst n : ℕ) : driver.copyAsync stream src dst n st = (st.refuse, .error e) := by
  unfold Driver.copyAsync
  rw [h]

theorem copyAsync_taken (h : driver.enqueue st.calls = none) (stream : UInt16) (src dst n : ℕ) :
    driver.copyAsync stream src dst n st = (st.take stream ⟨src, dst, n⟩, .ok ()) := by
  unfold Driver.copyAsync
  rw [h]

/-- Enqueues on a stream: the calls taken, all of them or those before the first that is refused. -/
structure Enqueued (driver : Driver) (stream : UInt16) (st st' : Streams) (count : ℕ)
    (last r : Result Unit) (added : List Transfer) : Prop where
  running : st'.running = st.running ++ added
  own : ∀ t ∈ added, t.stream = stream ∧ st.calls ≤ t.call
  taken : ∀ k < added.length, driver.enqueue (st.calls + k) = none
  all_or_refused : (r = last ∧ added.length = count ∧ st'.calls = st.calls + count) ∨
    ∃ e, r = .error e ∧ added.length < count ∧
      driver.enqueue (st.calls + added.length) = some e ∧ st.calls ≤ st'.calls

theorem callAll_enqueue (driver : Driver) (stream : UInt16) (last : Result Unit)
    (calls : List Piece) : ∀ st : Streams, ∃ added,
      Enqueued driver stream st (callAll (driver.copyAsync stream) last calls st).1 calls.length
        last (callAll (driver.copyAsync stream) last calls st).2 added := by
  induction calls with
  | nil =>
    exact fun st ↦ ⟨[], (List.append_nil _).symm, fun _ ht ↦ absurd ht List.not_mem_nil,
      fun _ hk ↦ absurd hk (Nat.not_lt_zero _), .inl ⟨rfl, rfl, rfl⟩⟩
  | cons p rest ih =>
    intro st
    rw [callAll]
    cases hp : driver.enqueue st.calls with
    | some e =>
      rw [copyAsync_refused hp]
      exact ⟨[], (List.append_nil _).symm, fun _ ht ↦ absurd ht List.not_mem_nil,
        fun _ hk ↦ absurd hk (Nat.not_lt_zero _),
        .inr ⟨e, rfl, Nat.succ_pos _, hp, Nat.le_succ _⟩⟩
    | none =>
      rw [copyAsync_taken hp]
      obtain ⟨added, h⟩ := ih (st.take stream ⟨p.src, p.dst, p.len⟩)
      refine ⟨⟨stream, st.calls, ⟨p.src, p.dst, p.len⟩⟩ :: added, ?_, ?_, ?_, ?_⟩
      · exact h.running.trans (List.append_assoc _ _ _)
      · intro t ht
        rcases List.mem_cons.mp ht with rfl | ht
        · exact ⟨rfl, le_refl _⟩
        · exact ⟨(h.own t ht).1, Nat.le_of_succ_le (h.own t ht).2⟩
      · intro k hk
        cases k with
        | zero => exact hp
        | succ k =>
          have htaken := h.taken k (Nat.lt_of_succ_lt_succ hk)
          rwa [Streams.take, Nat.add_assoc, Nat.add_comm 1 k] at htaken
      · rcases h.all_or_refused with ⟨hlast, hcount, hcalls⟩ | ⟨e, herror, hlt, hrefused, hle⟩
        · refine .inl ⟨hlast, congrArg Nat.succ hcount, hcalls.trans ?_⟩
          rw [Streams.take, List.length_cons, Nat.add_assoc, Nat.add_comm 1]
        · refine .inr ⟨e, herror, Nat.succ_lt_succ hlt, ?_, Nat.le_of_succ_le hle⟩
          rwa [Streams.take, Nat.add_assoc, Nat.add_comm 1] at hrefused

section Enqueued

variable {count : ℕ} {last : Result Unit} {added : List Transfer}

theorem Enqueued.calls_le (h : Enqueued driver stream st st' count last r added) :
    st.calls ≤ st'.calls := by
  rcases h.all_or_refused with ⟨_, _, hcalls⟩ | ⟨_, _, _, _, hle⟩
  · rw [hcalls]
    exact Nat.le_add_right _ _
  · exact hle

theorem Enqueued.old (h : Enqueued driver stream st st' count last r added) {t : Transfer}
    (ht : t ∈ st'.running) (hcall : t.call < st.calls) : t ∈ st.running := by
  rw [h.running] at ht
  rcases List.mem_append.mp ht with hold | hnew
  · exact hold
  · exact absurd (h.own t hnew).2 (not_le.mpr hcall)

/-- Without a synchronisation what was taken is running. -/
theorem Enqueued.settled_iff (h : Enqueued driver stream st st' count last r added) :
    st.Settled st' ↔ added = [] := by
  constructor
  · intro hsettled
    refine List.eq_nil_iff_forall_not_mem.mpr fun t ht ↦ ?_
    have hin : t ∈ st'.running := h.running ▸ List.mem_append_right _ ht
    exact absurd (h.own t ht).2 (not_le.mpr (hsettled t hin))
  · intro hnil t ht
    rw [h.running, hnil, List.append_nil] at ht
    exact st.issued t ht

/-- A synchronisation that waits leaves none of them. -/
theorem Enqueued.settled_drain (h : Enqueued driver stream st st' count last r added) :
    st.Settled (st'.drain stream) := by
  intro t ht
  obtain ⟨hin, hother⟩ := List.mem_filter.mp ht
  rw [h.running] at hin
  rcases List.mem_append.mp hin with hold | hnew
  · exact st.issued t hold
  · exact absurd (h.own t hnew).1 (of_decide_eq_true hother)

/-- A copy that is left before a synchronisation that waits is answered so when nothing was
taken. -/
theorem Enqueued.settles_iff (h : Enqueued driver stream st st' count last r added)
    (hleft : r = .ok () → ∃ e, driver.sync st'.calls = .gaveUp e) :
    added = [] ↔ driver.Settles st.calls count last := by
  constructor
  · rintro rfl
    rcases h.all_or_refused with ⟨_, hcount, _⟩ | ⟨e, _, _, hrefused, _⟩
    · exact .inl hcount.symm
    · exact .inr (.inl ⟨e, hrefused⟩)
  · intro hsettles
    by_contra hsome
    have hpos : 0 < added.length := List.length_pos_iff.mpr hsome
    have hfirst := h.taken 0 hpos
    rcases hsettles with hzero | ⟨e, he⟩ | ⟨hall, hlast, e, hwaited⟩
    · rcases h.all_or_refused with ⟨_, hcount, _⟩ | ⟨_, _, hlt, _⟩ <;> omega
    · rw [Nat.add_zero, he] at hfirst
      cases hfirst
    · rcases h.all_or_refused with ⟨hr, _, hcalls⟩ | ⟨e', _, hlt, hrefused, _⟩
      · obtain ⟨e', hgaveUp⟩ := hleft (hr.trans hlast)
        rw [hcalls, hwaited] at hgaveUp
        cases hgaveUp
      · rw [hall _ hlt] at hrefused
        cases hrefused

/-- A copy that is left before a synchronisation that waits. -/
theorem Enqueued.ended (h : Enqueued driver stream st st' count last r added)
    (hleft : r = .ok () → ∃ e, driver.sync st'.calls = .gaveUp e) (e : Error) :
    Ended st st' (.error e) (driver.Settles st.calls count last) :=
  ⟨h.calls_le, fun _ ↦ h.old, nofun, h.settled_iff.trans (h.settles_iff hleft)⟩

/-- A copy that has waited. -/
theorem Enqueued.ended_drain (h : Enqueued driver stream st st' count last (.ok ()) added)
    {e : Option Error} (hwaited : driver.sync st'.calls = .waited e) (r : Result Unit) :
    Ended st (st'.drain stream) r (driver.Settles st.calls count last) := by
  refine ⟨h.calls_le, fun t ht ↦ h.old (List.mem_filter.mp ht).1, fun _ ↦ h.settled_drain,
    fun _ ↦ ?_, fun _ ↦ h.settled_drain⟩
  rcases h.all_or_refused with ⟨hlast, hcount, hcalls⟩ | ⟨_, herror, _⟩
  · exact .inr (.inr ⟨hcount ▸ h.taken, hlast.symm, e, hcalls ▸ hwaited⟩)
  · cases herror

end Enqueued

theorem copyOn_ended (h : driver.copyOn stream src off dst total st = .ok (st', r)) :
    Ended st st' r (driver.Settles st.calls (pieces (skipSegs src off) dst total).length
      (ending (skipSegs src off) dst total)) := by
  unfold Driver.copyOn at h
  obtain ⟨⟨middle, result⟩, hzip, h⟩ := bind_eq_ok.mp h
  have hcalls := (holds_zipCopyBy _ _ _ _ _ _).of_ok hzip
  obtain ⟨added, henqueued⟩ := callAll_enqueue driver stream (ending (skipSegs src off) dst total)
    (pieces (skipSegs src off) dst total) st
  rw [← hcalls] at henqueued
  dsimp only at henqueued
  cases result with
  | error e =>
    cases h
    exact henqueued.ended nofun e
  | ok u =>
    unfold Driver.finish Driver.wait at h
    dsimp only at h
    split at h
    · next hwaited =>
      cases h
      exact henqueued.ended_drain hwaited _
    · next hwaited =>
      cases h
      exact henqueued.ended_drain hwaited _
    · next e hgaveUp =>
      cases h
      exact henqueued.ended (fun _ ↦ ⟨e, hgaveUp⟩) e

theorem callAll_host (last : Result Unit) (calls : List Piece) (st : Streams) :
    (callAll (fun _ _ _ st ↦ (st, .ok ())) last calls st).1 = st := by
  rw [callAll_of_ok fun _ _ _ _ ↦ rfl]
  induction calls with
  | nil => rfl
  | cons p rest ih => exact ih

theorem gpu_of_served {index : UInt16} (h : index ∈ inner.gpus) : inner.gpu index = .ok () :=
  if_pos h

theorem gpu_of_unserved {index : UInt16} (h : index ∉ inner.gpus) :
    inner.gpu index = .error (gpuNotServed index) := if_neg h

/-- A copy is enqueued on the stream of the pair, or enqueues nothing. -/
theorem copy_stream {srcDev dstDev : Device}
    (h : inner.copy driver srcDev src off dstDev dst total st = .ok (st', r)) :
    (inner.stream? srcDev dstDev = none ∧ st' = st) ∨
      ∃ stream, inner.stream? srcDev dstDev = some stream ∧
        driver.copyOn stream src off dst total st = .ok (st', r) := by
  have hone : ∀ index, (match inner.gpu index with
      | .error e => .ok (st, .error e)
      | .ok _ => driver.copyOn index src off dst total st : Exec (Streams × Result Unit)) =
        .ok (st', r) →
      ((if index ∈ inner.gpus then some index else none) = none ∧ st' = st) ∨
        ∃ stream, (if index ∈ inner.gpus then some index else none) = some stream ∧
          driver.copyOn stream src off dst total st = .ok (st', r) := by
    intro index h
    by_cases hserved : index ∈ inner.gpus
    · rw [gpu_of_served hserved] at h
      exact .inr ⟨index, if_pos hserved, h⟩
    · rw [gpu_of_unserved hserved] at h
      cases h
      exact .inl ⟨if_neg hserved, rfl⟩
  unfold Inner.copy at h
  cases srcDev with
  | cpu =>
    cases dstDev with
    | cpu =>
      have hhost := congrArg Prod.fst ((holds_zipCopyBy _ _ _ _ _ _).of_ok h)
      rw [callAll_host] at hhost
      exact .inl ⟨rfl, hhost⟩
    | gpu index => exact hone index h
  | gpu si =>
    cases dstDev with
    | cpu => exact hone si h
    | gpu di =>
      dsimp only at h
      unfold Inner.stream?
      by_cases hsource : si ∈ inner.gpus
      · by_cases htarget : di ∈ inner.gpus
        · rw [gpu_of_served hsource, gpu_of_served htarget] at h
          exact .inr ⟨di, if_pos ⟨hsource, htarget⟩, h⟩
        · rw [gpu_of_served hsource, gpu_of_unserved htarget] at h
          cases h
          exact .inl ⟨if_neg fun hboth ↦ htarget hboth.2, rfl⟩
      · rw [gpu_of_unserved hsource] at h
        cases h
        exact .inl ⟨if_neg fun hboth ↦ hsource hboth.1, rfl⟩

theorem copy_ended {srcDev dstDev : Device}
    (h : inner.copy driver srcDev src off dstDev dst total st = .ok (st', r)) :
    Ended st st' r (inner.Settles driver srcDev src off dstDev dst total st) := by
  unfold Inner.Settles
  rcases copy_stream h with ⟨hnone, rfl⟩ | ⟨stream, hsome, hcopy⟩
  · rw [hnone]
    exact Ended.refl _ r nofun
  · have hended := copyOn_ended hcopy
    rw [hsome]
    exact ⟨hended.calls_le, hended.old, hended.ok,
      hended.iff.trans ⟨fun hsettles _ _ ↦ hsettles, fun hsettles ↦ hsettles stream rfl⟩⟩

/-- What is left running after two copies, when the first one has settled. -/
theorem Streams.Settled.trans_iff {st₁ st₂ : Streams} (hfirst : st.Settled st₁)
    (hle : st.calls ≤ st₁.calls)
    (hold : ∀ t ∈ st₂.running, t.call < st₁.calls → t ∈ st₁.running) :
    st.Settled st₂ ↔ st₁.Settled st₂ :=
  ⟨fun h t ht ↦ (h t ht).trans_le hle, fun h t ht ↦ hfirst t (hold t ht (h t ht))⟩

theorem copyPlaced_ended {srcDev : Device} {len : ℕ} (placed : List Placed) : ∀ {st : Streams},
    inner.copyPlaced driver srcDev src len placed st = .ok (st', r) →
      Ended st st' r (inner.SettlesAll driver srcDev src len placed st) := by
  induction placed with
  | nil =>
    intro st h
    cases h
    exact Ended.refl _ _ trivial
  | cons x placed ih =>
    intro st h
    unfold Inner.copyPlaced at h
    obtain ⟨⟨middle, result⟩, hcopy, h⟩ := bind_eq_ok.mp h
    have hfirst := copy_ended hcopy
    unfold Inner.SettlesAll
    rw [hcopy]
    cases result with
    | error e =>
      cases h
      refine ⟨hfirst.calls_le, hfirst.old, hfirst.ok, hfirst.iff.trans ?_⟩
      exact ⟨fun hsettles ↦ ⟨hsettles, nofun⟩, fun hboth ↦ hboth.1⟩
    | ok u =>
      have hrest := ih h
      have hsettled := hfirst.ok rfl
      have hiff := hsettled.trans_iff hfirst.calls_le hrest.old
      refine ⟨hfirst.calls_le.trans hrest.calls_le, fun t ht hcall ↦ ?_, fun hr ↦ ?_, ?_⟩
      · exact hfirst.old t (hrest.old t ht (hcall.trans_le hfirst.calls_le)) hcall
      · exact hiff.mpr (hrest.ok hr)
      · refine hiff.trans (hrest.iff.trans ⟨fun hall ↦ ⟨hfirst.iff.mp hsettled, ?_⟩,
          fun hboth ↦ ?_⟩)
        · rintro _ heq
          cases heq
          exact hall
        · exact hboth.2 middle rfl

end Running

/-- A copy, between any two devices and over any segment lists, leaves none of its transfers running
when it returns, `Ok` or not, if and only if it enqueues nothing, its first enqueue is refused, or
all its enqueues are taken and followed by a synchronisation that waits; the copies of `put_slot`,
which then keeps or drops its buffers, if and only if this holds of each copy it comes to. -/
theorem no_copy_outlives (inner : Inner) (driver : Driver) (st st' : Streams) (r : Result Unit) :
    (∀ srcDev src off dstDev dst total,
      inner.copy driver srcDev src off dstDev dst total st = .ok (st', r) →
        (st.Settled st' ↔ inner.Settles driver srcDev src off dstDev dst total st)) ∧
    ∀ srcDev src len placed, inner.copyPlaced driver srcDev src len placed st = .ok (st', r) →
      (st.Settled st' ↔ inner.SettlesAll driver srcDev src len placed st) :=
  ⟨fun _ _ _ _ _ _ h ↦ (copy_ended h).iff, fun _ _ _ placed h ↦ (copyPlaced_ended placed h).iff⟩

namespace TwoPieces

/-- A backend that serves one GPU. -/
def inner : Inner := ⟨0, fun _ ↦ none, [0], [0], true⟩

/-- A slot of two bytes gathered from two places. -/
def src : List Segment := [⟨0, 1⟩, ⟨8, 1⟩]

/-- The buffer it goes to. -/
def placed : Placed := ⟨0, false, ⟨0, 0, 0, ALIGN, 2⟩⟩

def refused : Error := Error.new .unexpected "cuMemcpyDtoHAsync"

/-- A driver that refuses the enqueue calls with the given numbers. -/
def driver (refuses : ℕ → Bool) : Driver :=
  ⟨fun k ↦ if refuses k then some refused else none, fun _ ↦ .waited none⟩

/-- Nothing is running and nothing was. -/
def idle : Streams := ⟨[], 0, fun _ ht ↦ absurd ht List.not_mem_nil⟩

theorem pieces_src : pieces (skipSegs src 0) [⟨0, 2⟩] 2 = [⟨0, 0, 1⟩, ⟨8, 1, 1⟩] := by
  have hskip : skipSegs src 0 = [⟨0, 1⟩, ⟨8, 1⟩] := by decide
  rw [hskip, pieces_cons (by decide)]
  simp [restAfter, pieces_cons, pieces_zero]

/-- The two copies of the slot. -/
theorem copy_src (driver : Driver) : inner.copy driver (.gpu 0) src 0 (.cpu 0) [⟨0, 2⟩] 2 idle =
    .ok (driver.finish 0
      (callAll (driver.copyAsync 0) (.ok ()) [⟨0, 0, 1⟩, ⟨8, 1, 1⟩] idle)) := by
  have hsrc : ∀ s ∈ src, NoWrap s := by
    unfold NoWrap
    decide
  have hdst : ∀ d ∈ ([⟨0, 2⟩] : List Segment), NoWrap d := by
    unfold NoWrap
    decide
  have hending : ending (skipSegs src 0) [⟨0, 2⟩] 2 = .ok () := by decide
  have hgpu : inner.gpu 0 = .ok () := by decide
  unfold Inner.copy
  dsimp only
  rw [hgpu]
  dsimp only
  unfold Driver.copyOn
  rw [zipCopyBy_eq _ hsrc hdst, hending, pieces_src, ok_bind]

end TwoPieces

open TwoPieces in
/-- A driver that takes both enqueues of the slot, whatever it refuses later, leaves nothing of it
running; one that refuses the second does not answer the copy so. -/
theorem no_copy_outlives_two_pieces :
    (∃ st', inner.copy (driver fun k ↦ decide (2 ≤ k)) (.gpu 0) src 0 (.cpu 0) [⟨0, 2⟩] 2 idle =
        .ok (st', .ok ()) ∧ st'.calls = 2 ∧ idle.Settled st') ∧
      ¬ inner.Settles (driver fun k ↦ k = 1) (.gpu 0) src 0 (.cpu 0) [⟨0, 2⟩] 2 idle := by
  constructor
  · have hcopy := copy_src (driver fun k ↦ decide (2 ≤ k))
    refine ⟨_, hcopy, rfl, ((no_copy_outlives inner _ idle _ _).1 _ _ _ _ _ _ hcopy).mpr ?_⟩
    intro stream _
    refine .inr (.inr ⟨fun k hk ↦ ?_, by decide, none, rfl⟩)
    rw [pieces_src] at hk
    exact if_neg (by simpa [idle] using hk)
  · have hcopy := copy_src (driver fun k ↦ k = 1)
    refine mt ((no_copy_outlives inner _ idle _ _).1 _ _ _ _ _ _ hcopy).mpr fun hsettled ↦ ?_
    exact absurd (hsettled ⟨0, 0, ⟨0, 0, 1⟩⟩ (by decide)) (by decide)

open TwoPieces in
/-- A driver that refuses the second enqueue: the copy returns the error with the first transfer
still running, and so do the copies of `put_slot`, which then gives the buffer back. -/
theorem copy_outlives_refused_enqueue : ∃ st', st'.running = [⟨0, 0, ⟨0, 0, 1⟩⟩] ∧ st'.calls = 2 ∧
    inner.copy (driver fun k ↦ k = 1) (.gpu 0) src 0 (.cpu 0) [⟨0, 2⟩] 2 idle =
      .ok (st', .error refused) ∧
    inner.copyPlaced (driver fun k ↦ k = 1) (.gpu 0) src 2 [placed] idle =
      .ok (st', .error refused) ∧ ¬ idle.Settled st' := by
  have hcopy := copy_src (driver fun k ↦ k = 1)
  refine ⟨_, rfl, rfl, hcopy, ?_, fun hsettled ↦ ?_⟩
  · unfold Inner.copyPlaced
    rw [show placed.buf.off = 0 from rfl, show placed.numa = 0 from rfl, hcopy]
    rfl
  · exact absurd (hsettled ⟨0, 0, ⟨0, 0, 1⟩⟩ (by decide)) (by decide)

end Pegastore.Local
