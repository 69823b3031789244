import Pegastore.Cuda.Pinned

/-!
# First touch of a pool

A new pool is written once per page by threads that run on its NUMA node, so that the operating
system places every page there. Each thread takes one chunk, a whole number of pages; the last
chunks may be short or empty. `firstTouch` returns the offsets each thread writes, in order.

Overflow checks are on, and no operation overflows for the length of a pool, so the offsets are the
same without the checks. The double round-up exceeds the length by less than a page and a thread per
thread, far less than the `ALIGN` bytes that the end of the address space is away.
-/

set_option autoImplicit false
set_option relaxedAutoImplicit false

namespace Pegastore.Local

open Outcome

/-- The distance of two writes. -/
def page : ℕ := 4096

/-- One thread per CPU of the node, at least one and at most 32, or 8 for an unknown node. -/
def touchThreads (cpus : Option (List ℕ)) : ℕ :=
  match cpus with
  | none => 8
  | some c => min (max c.length 1) 32

/-- The loop of one thread: the offsets from `off` on, a page apart, before `stop`. -/
def touchFrom (stop off : ℕ) : Exec (List ℕ) :=
  if off < stop then
    if off + page < 2 ^ 64 then do
      let rest ← touchFrom stop (off + page)
      .ok (off :: rest)
    else .error .addOverflow
  else .ok []
termination_by stop - off
decreasing_by
  have hpage : 0 < page := by decide
  omega

/-- The offsets that thread `t` writes. -/
def touchThread (len chunk t : ℕ) : Exec (List ℕ) := do
  let start ← mulU64 true t chunk
  if start ≥ len then .ok []
  else do
    let stop ← addU64 start chunk
    touchFrom (min stop len) start

/-- The length of a chunk. -/
def touchChunk (threads len : ℕ) : Exec ℕ :=
  mulU64 true (divCeil (divCeil len threads) page) page

/-- The offsets written by each thread. -/
def firstTouch (cpus : Option (List ℕ)) (len : ℕ) : Exec (List (List ℕ)) := do
  let chunk ← touchChunk (touchThreads cpus) len
  (List.range (touchThreads cpus)).mapM (touchThread len chunk)

theorem touchThreads_bounds (cpus : Option (List ℕ)) :
    0 < touchThreads cpus ∧ touchThreads cpus ≤ 32 := by
  unfold touchThreads
  split
  · decide
  · omega

/-! ### One thread -/

/-- The offsets of a loop that starts on a page: every page up to `stop`, in increasing order. -/
structure Touches (start stop : ℕ) (offsets : List ℕ) : Prop where
  mem_iff : ∀ off, off ∈ offsets ↔ start ≤ off ∧ off < stop ∧ page ∣ off
  increasing : offsets.Pairwise (· < ·)

theorem touchFrom_touches {stop : ℕ} (hstop : stop + page ≤ 2 ^ 64) (start : ℕ)
    (hstart : page ∣ start) :
    ∃ offsets, touchFrom stop start = .ok offsets ∧ Touches start stop offsets := by
  have hpage : 0 < page := by decide
  by_cases hlt : start < stop
  · obtain ⟨rest, hrest, htouches⟩ :=
      touchFrom_touches hstop (start + page) (Nat.dvd_add hstart (dvd_refl page))
    refine ⟨start :: rest, ?_, fun off ↦ ?_, ?_⟩
    · rw [touchFrom, if_pos hlt, if_pos (by omega), hrest]
      rfl
    · rw [List.mem_cons, htouches.mem_iff]
      constructor
      · rintro (rfl | ⟨hle, hoff, hdvd⟩)
        · exact ⟨le_refl _, hlt, hstart⟩
        · exact ⟨by omega, hoff, hdvd⟩
      · -- the next multiple of a page is a page further on
        rintro ⟨hle, hoff, hdvd⟩
        rcases Nat.eq_or_lt_of_le hle with heq | hgt
        · exact Or.inl heq.symm
        · have hgap : page ≤ off - start :=
            Nat.le_of_dvd (by omega) (Nat.dvd_sub hdvd hstart)
          exact Or.inr ⟨by omega, hoff, hdvd⟩
    · refine List.pairwise_cons.mpr ⟨fun off hoff ↦ ?_, htouches.increasing⟩
      have hle := ((htouches.mem_iff off).mp hoff).1
      omega
  · refine ⟨[], ?_, fun off ↦ ?_, List.Pairwise.nil⟩
    · rw [touchFrom, if_neg hlt]
    · simp only [List.not_mem_nil, false_iff, not_and]
      omega
termination_by stop - start
decreasing_by
  have hpositive : 0 < page := by decide
  omega

/-! ### All threads -/

/-- A chunk is a whole number of pages, the chunks together reach the end, and the round-ups exceed
the length by less than one page and one byte per thread. -/
structure ChunkFits (threads len chunk : ℕ) : Prop where
  dvd : page ∣ chunk
  covers : len ≤ threads * chunk
  slack : threads * chunk ≤ len + threads * (page + 1)

theorem touchChunk_fits {threads len : ℕ} (hthreads : 0 < threads)
    (hlen : len + threads * (page + 1) < 2 ^ 64) :
    ∃ chunk, touchChunk threads len = .ok chunk ∧ ChunkFits threads len chunk := by
  obtain ⟨hshare, hshare'⟩ := divCeil_mul_bounds hthreads len
  obtain ⟨hround, hround'⟩ := divCeil_mul_bounds (show 0 < page by decide) (divCeil len threads)
  have hslack : threads * (divCeil (divCeil len threads) page * page) ≤
      len + threads * (page + 1) := by
    have hmul := Nat.mul_le_mul_left threads hround'.le
    rw [Nat.mul_add, Nat.mul_comm threads (divCeil len threads)] at hmul
    rw [Nat.mul_add, Nat.mul_one]
    omega
  have hle := Nat.le_mul_of_pos_left (divCeil (divCeil len threads) page * page) hthreads
  refine ⟨_, if_pos (by omega), Nat.dvd_mul_left _ _, ?_, hslack⟩
  calc len ≤ divCeil len threads * threads := hshare
    _ = threads * divCeil len threads := Nat.mul_comm _ _
    _ ≤ _ := Nat.mul_le_mul_left threads hround

/-- The offsets of thread `t` are the pages of its chunk. -/
theorem touchThread_touches {threads len chunk t : ℕ} (hchunk : ChunkFits threads len chunk)
    (hlen : len + threads * (page + 1) + page < 2 ^ 64) (ht : t < threads) :
    ∃ offsets, touchThread len chunk t = .ok offsets ∧
      Touches (t * chunk) (min ((t + 1) * chunk) len) offsets := by
  have hnext : (t + 1) * chunk ≤ threads * chunk := Nat.mul_le_mul_right chunk ht
  have hslack := hchunk.slack
  rw [Nat.add_mul, Nat.one_mul] at hnext ⊢
  unfold touchThread
  rw [mulU64, if_pos (by omega), ok_bind]
  split_ifs with hpast
  · refine ⟨[], rfl, fun off ↦ ?_, List.Pairwise.nil⟩
    simp only [List.not_mem_nil, false_iff, not_and]
    omega
  · rw [addU64, if_pos (by omega), ok_bind]
    exact touchFrom_touches (by omega) (t * chunk) (Dvd.dvd.mul_left hchunk.dvd t)

/-- The length of a pool is a multiple of `ALIGN`, so it ends at least `ALIGN` bytes before the end
of the range. -/
theorem roundUp_add_le {checks : Bool} {bytes len : ℕ} (h : roundUp checks bytes = .ok len) :
    len + ALIGN ≤ 2 ^ 64 := by
  have hunits : 2 ^ 64 = 2 ^ 43 * ALIGN := by decide
  have hdvd : ALIGN ∣ len ∧ len < 2 ^ 64 := by
    unfold roundUp mulU64 at h
    split_ifs at h with hlt hchecks
    · cases h
      exact ⟨Nat.dvd_mul_left _ _, hlt⟩
    · cases h
      refine ⟨(Nat.dvd_mod_iff ?_).mpr (Nat.dvd_mul_left _ _), Nat.mod_lt _ (by decide)⟩
      rw [hunits]
      exact Nat.dvd_mul_left _ _
  obtain ⟨⟨units, rfl⟩, hlt⟩ := hdvd
  rw [hunits, Nat.mul_comm ALIGN] at hlt ⊢
  have hle : units + 1 ≤ 2 ^ 43 := Nat.lt_of_mul_lt_mul_right hlt
  calc units * ALIGN + ALIGN = (units + 1) * ALIGN := by rw [Nat.add_mul, Nat.one_mul]
    _ ≤ 2 ^ 43 * ALIGN := Nat.mul_le_mul_right _ hle

/-- For the length of every pool and every thread count, no arithmetic overflows, every thread
writes offsets of pages inside the pool only and none of them twice, every page of the pool is
written by exactly one thread, and a thread whose chunk begins past the end writes nothing. -/
theorem first_touch_covers (cpus : Option (List ℕ)) {checks : Bool} {bytes len : ℕ}
    (hlen : roundUp checks bytes = .ok len) :
    ∃ chunk writes, touchChunk (touchThreads cpus) len = .ok chunk ∧
      firstTouch cpus len = .ok writes ∧ writes.length = touchThreads cpus ∧
      (∀ (t : ℕ) offsets, writes[t]? = some offsets →
        offsets.Nodup ∧ (∀ off ∈ offsets, off < len ∧ page ∣ off) ∧
        (len ≤ t * chunk → offsets = [])) ∧
      ∀ off, off < len → page ∣ off →
        ∃! t : ℕ, ∃ offsets, writes[t]? = some offsets ∧ off ∈ offsets := by
  obtain ⟨hthreads, hmost⟩ := touchThreads_bounds cpus
  have hend := roundUp_add_le hlen
  have hslack : touchThreads cpus * (page + 1) + page < ALIGN :=
    lt_of_le_of_lt (Nat.add_le_add_right (Nat.mul_le_mul_right _ hmost) _) (by decide)
  obtain ⟨chunk, hchunk, hfits⟩ := touchChunk_fits hthreads (show len + _ < 2 ^ 64 by omega)
  obtain ⟨writes, hwrites, hlength, hall⟩ := exists_mapM (List.range (touchThreads cpus))
    fun t ht ↦ touchThread_touches hfits (by omega) (List.mem_range.mp ht)
  rw [List.length_range] at hlength
  have htouches (t : ℕ) (offsets : List ℕ) (h : writes[t]? = some offsets) :
      Touches (t * chunk) (min ((t + 1) * chunk) len) offsets := by
    have ht := (List.getElem?_eq_some_iff.mp h).1
    exact hall t t offsets (List.getElem?_range (hlength ▸ ht)) h
  refine ⟨chunk, writes, hchunk, ?_, hlength, fun t offsets h ↦ ⟨?_, fun off hoff ↦ ?_, ?_⟩, ?_⟩
  · rw [firstTouch, hchunk]
    exact hwrites
  · exact (htouches t offsets h).increasing.imp ne_of_lt
  · obtain ⟨_, hlt, hdvd⟩ := ((htouches t offsets h).mem_iff off).mp hoff
    exact ⟨by omega, hdvd⟩
  · intro hpast
    refine List.eq_nil_iff_forall_not_mem.mpr fun off hoff ↦ ?_
    obtain ⟨hle, hlt, _⟩ := ((htouches t offsets h).mem_iff off).mp hoff
    omega
  · intro off hoff hdvd
    have hcovers := hfits.covers
    have hpositive : 0 < chunk := by
      refine Nat.pos_of_ne_zero fun hzero ↦ ?_
      rw [hzero, Nat.mul_zero] at hcovers
      omega
    -- the thread is the number of whole chunks before the offset
    have ht : off / chunk < touchThreads cpus :=
      (Nat.div_lt_iff_lt_mul hpositive).mpr (by omega)
    have hget := List.getElem?_eq_getElem (hlength.symm ▸ ht)
    refine ⟨off / chunk, ⟨_, hget, ((htouches _ _ hget).mem_iff off).mpr ⟨?_, ?_, hdvd⟩⟩, ?_⟩
    · exact Nat.div_mul_le_self off chunk
    · exact lt_min (Nat.lt_mul_of_div_lt (Nat.lt_succ_self _) hpositive) hoff
    · rintro t ⟨offsets, hwritten, hmem⟩
      obtain ⟨hle, hlt, _⟩ := ((htouches t offsets hwritten).mem_iff off).mp hmem
      exact (Nat.div_eq_of_lt_le hle (lt_of_lt_of_le hlt (min_le_left _ _))).symm

/-- A pool for one byte, touched by the 8 threads of an unknown node: each takes 64 pages. -/
theorem first_touch_covers_unit : ∃ writes, firstTouch none ALIGN = .ok writes ∧
    writes.length = 8 ∧ ∀ off, off < ALIGN → page ∣ off →
      ∃! t : ℕ, ∃ offsets, writes[t]? = some offsets ∧ off ∈ offsets := by
  obtain ⟨chunk, writes, _, hwrites, hlength, _, hcovered⟩ :=
    first_touch_covers none (show roundUp true 1 = .ok ALIGN by decide)
  exact ⟨writes, hwrites, hlength, hcovered⟩

end Pegastore.Local
