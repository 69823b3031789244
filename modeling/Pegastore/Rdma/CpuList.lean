import Pegastore.Lib.Text

/-!
# CPU lists

The printer of `numa.rs` and the two readers of CPU lists, the strict one of `numa.rs` and the
lenient one of `topology.rs`. The printer turns every maximal run of consecutive numbers into one
span. `format_spans` says that its text is a list of spans whose numbers, in order, are the list;
both readers turn a printed span back into its numbers.

Where the strict reader accepts a part, the lenient one reads the same numbers
(`Numa.parsePart_eq_ok`), so they differ only in the order and the repetitions.
-/

set_option autoImplicit false
set_option relaxedAutoImplicit false

namespace Pegastore.Rdma

open Outcome Text

/-- `start..=stop`. -/
def inclusiveRange (start stop : ℕ) : List ℕ := List.range' start (stop + 1 - start)

/-! ### `numa.rs` -/

namespace Numa

/-- A span as text. -/
def formatSpan (start prev : ℕ) : List Char :=
  if start = prev then Nat.toDigits 10 start
  else Nat.toDigits 10 start ++ '-' :: Nat.toDigits 10 prev

/-- The variables of the loop of `format_cpu_list`. -/
structure FormatState where
  result : List (List Char)
  start : ℕ
  prev : ℕ

/-- The body of the loop. -/
def formatStep (s : FormatState) (cpu : ℕ) : Exec FormatState := do
  let next ← addU64 s.prev 1
  if cpu = next then .ok { s with prev := cpu }
  else .ok ⟨s.result ++ [formatSpan s.start s.prev], cpu, cpu⟩

def formatCpuList : List ℕ → Exec (List Char)
  | [] => .ok []
  | first :: rest => do
    let s ← rest.foldlM formatStep ⟨[], first, first⟩
    .ok ([','].intercalate (s.result ++ [formatSpan s.start s.prev]))

/-- `parse` with the error of an invalid number. -/
def parseId (s : List Char) : Except String ℕ :=
  match parseUsize s with
  | some n => .ok n
  | none => .error ("Invalid CPU ID: " ++ String.ofList s)

/-- The numbers of one part of a list. -/
def parsePart (part : List Char) : Except String (List ℕ) :=
  if '-' ∈ part then
    match part.splitOn '-' with
    | [first, last] => do
      let start ← parseId first
      let stop ← parseId last
      .ok (inclusiveRange start stop)
    | _ => .error ("Invalid CPU range format: " ++ String.ofList part)
  else do
    let cpu ← parseId part
    .ok [cpu]

/-- The body of the loop over the parts. -/
def addPart (cpus : List ℕ) (part : List Char) : Except String (List ℕ) := do
  let more ← parsePart part
  .ok (cpus ++ more)

def parseCpulist (cpulist : List Char) : Except String (List ℕ) :=
  if cpulist.isEmpty then .ok []
  else do
    let cpus ← (cpulist.splitOn ',').foldlM addPart []
    .ok (sortDedup cpus)

end Numa

/-! ### `topology.rs` -/

namespace Topology

/-- The numbers of one part of a list; what is not a number is skipped. -/
def parsePart (part : List Char) : List ℕ :=
  match splitOnce '-' part with
  | some (a, b) =>
    match parseUsize a, parseUsize b with
    | some a, some b => inclusiveRange a b
    | _, _ => []
  | none =>
    match parseUsize part with
    | some v => [v]
    | none => []

def parseCpulist (s : List Char) : List ℕ :=
  ((s.splitOn ',').filter fun part ↦ !part.isEmpty).flatMap parsePart

end Topology

/-! ### Printing -/

namespace Numa

/-- A span of 64-bit numbers that is not empty. -/
def Proper (span : ℕ × ℕ) : Prop := span.1 ≤ span.2 ∧ span.2 < 2 ^ 64

/-- The numbers of spans, in order. -/
def expand (spans : List (ℕ × ℕ)) : List ℕ := spans.flatMap fun span ↦ inclusiveRange span.1 span.2

theorem expand_append (first second : List (ℕ × ℕ)) :
    expand (first ++ second) = expand first ++ expand second := List.flatMap_append

theorem inclusiveRange_self (n : ℕ) : inclusiveRange n n = [n] := by
  unfold inclusiveRange
  rw [Nat.add_sub_cancel_left]
  rfl

theorem inclusiveRange_succ {start prev : ℕ} (h : start ≤ prev) :
    inclusiveRange start (prev + 1) = inclusiveRange start prev ++ [prev + 1] := by
  unfold inclusiveRange
  rw [show prev + 1 + 1 - start = prev + 1 - start + 1 by omega, List.range'_concat]
  congr 2
  omega

/-- The spans printed so far and the open one are the numbers seen so far. -/
theorem formatStep_spans {cpu : ℕ} {spans : List (ℕ × ℕ)} {start prev : ℕ}
    (hspans : ∀ span ∈ spans, Proper span) (hopen : start ≤ prev) (hprev : prev < 2 ^ 64 - 1)
    (hcpu : cpu < 2 ^ 64 - 1) : ∃ spans' start',
      formatStep ⟨spans.map fun span ↦ formatSpan span.1 span.2, start, prev⟩ cpu =
        .ok ⟨spans'.map fun span ↦ formatSpan span.1 span.2, start', cpu⟩ ∧
      (∀ span ∈ spans', Proper span) ∧ start' ≤ cpu ∧
      expand (spans' ++ [(start', cpu)]) = expand (spans ++ [(start, prev)]) ++ [cpu] := by
  have hnext : addU64 prev 1 = .ok (prev + 1) := addU64_eq_ok.mpr ⟨by omega, rfl⟩
  unfold formatStep
  simp only [hnext, ok_bind]
  by_cases heq : cpu = prev + 1
  · subst heq
    refine ⟨spans, start, by rw [if_pos rfl], hspans, by omega, ?_⟩
    rw [expand_append, expand_append, List.append_assoc]
    congr 1
    simp only [expand, List.flatMap_singleton]
    exact inclusiveRange_succ hopen
  · refine ⟨spans ++ [(start, prev)], cpu, ?_, ?_, le_refl _, ?_⟩
    · rw [if_neg heq, List.map_append]
      rfl
    · intro span hspan
      rcases List.mem_append.mp hspan with hold | hnew
      · exact hspans span hold
      · rw [List.mem_singleton.mp hnew]
        exact ⟨hopen, by dsimp only; omega⟩
    · rw [expand_append (spans ++ [(start, prev)])]
      congr 1
      simp only [expand, List.flatMap_singleton]
      exact inclusiveRange_self cpu

/-- The loop over the rest of the list. -/
theorem foldlM_formatStep (rest : List ℕ) (hrest : ∀ cpu ∈ rest, cpu < 2 ^ 64 - 1) :
    ∀ {spans : List (ℕ × ℕ)} {start prev : ℕ}, (∀ span ∈ spans, Proper span) → start ≤ prev →
      prev < 2 ^ 64 - 1 → ∃ spans' start' prev',
        rest.foldlM formatStep ⟨spans.map fun span ↦ formatSpan span.1 span.2, start, prev⟩ =
          .ok ⟨spans'.map fun span ↦ formatSpan span.1 span.2, start', prev'⟩ ∧
        (∀ span ∈ spans' ++ [(start', prev')], Proper span) ∧
        expand (spans' ++ [(start', prev')]) = expand (spans ++ [(start, prev)]) ++ rest := by
  induction rest with
  | nil =>
    intro spans start prev hspans hopen hprev
    refine ⟨spans, start, prev, rfl, fun span hspan ↦ ?_, by rw [List.append_nil]⟩
    rcases List.mem_append.mp hspan with hold | hnew
    · exact hspans span hold
    · rw [List.mem_singleton.mp hnew]
      exact ⟨hopen, by dsimp only; omega⟩
  | cons cpu rest ih =>
    intro spans start prev hspans hopen hprev
    obtain ⟨spans', start', hstep, hspans', hopen', hexpand⟩ :=
      formatStep_spans hspans hopen hprev (hrest cpu List.mem_cons_self)
    obtain ⟨spans'', start'', prev'', hloop, hproper, hall⟩ :=
      ih (fun c hc ↦ hrest c (List.mem_cons_of_mem _ hc)) hspans' hopen'
        (hrest cpu List.mem_cons_self)
    refine ⟨spans'', start'', prev'', ?_, hproper, ?_⟩
    · rw [List.foldlM_cons, hstep, ok_bind, hloop]
    · rw [hall, hexpand, List.append_assoc, List.singleton_append]

/-- The text of a list: its spans, separated by commas. -/
theorem format_spans (l : List ℕ) (hl : ∀ cpu ∈ l, cpu < 2 ^ 64 - 1) : ∃ spans,
    formatCpuList l =
      .ok ([','].intercalate (spans.map fun span ↦ formatSpan span.1 span.2)) ∧
    (∀ span ∈ spans, Proper span) ∧ expand spans = l := by
  cases l with
  | nil => exact ⟨[], rfl, nofun, rfl⟩
  | cons first rest =>
    obtain ⟨spans, start, prev, hloop, hproper, hexpand⟩ := foldlM_formatStep rest
      (fun cpu hcpu ↦ hl cpu (List.mem_cons_of_mem _ hcpu))
      (show ∀ span ∈ ([] : List (ℕ × ℕ)), Proper span from nofun) (le_refl first)
      (hl first List.mem_cons_self)
    refine ⟨spans ++ [(start, prev)], ?_, hproper, ?_⟩
    · rw [List.map_nil] at hloop
      rw [formatCpuList, hloop, ok_bind, List.map_append]
      rfl
    · rw [hexpand, List.nil_append]
      simp only [expand, List.flatMap_singleton]
      rw [inclusiveRange_self]
      rfl

/-! ### Reading a printed span -/

theorem formatSpan_ne_nil (start prev : ℕ) : formatSpan start prev ≠ [] := by
  unfold formatSpan
  split_ifs
  · exact Nat.toDigits_ne_nil
  · exact List.append_ne_nil_of_right_ne_nil _ (List.cons_ne_nil _ _)

theorem comma_not_mem_formatSpan (start prev : ℕ) : ',' ∉ formatSpan start prev := by
  have hdigits (n : ℕ) : ',' ∉ Nat.toDigits 10 n := not_mem_toDigits (by decide) n
  unfold formatSpan
  split_ifs
  · exact hdigits start
  · rw [List.mem_append, List.mem_cons, not_or, not_or]
    exact ⟨hdigits start, by decide, hdigits prev⟩

theorem parseId_toDigits {n : ℕ} (hn : n < 2 ^ 64) : parseId (Nat.toDigits 10 n) = .ok n := by
  unfold parseId
  rw [parseUsize_toDigits hn]

theorem parsePart_formatSpan {span : ℕ × ℕ} (h : Proper span) :
    parsePart (formatSpan span.1 span.2) = .ok (inclusiveRange span.1 span.2) := by
  have hdigits (n : ℕ) : '-' ∉ Nat.toDigits 10 n := not_mem_toDigits (by decide) n
  have hstart : parseId (Nat.toDigits 10 span.1) = .ok span.1 :=
    parseId_toDigits (lt_of_le_of_lt h.1 h.2)
  unfold parsePart formatSpan
  by_cases heq : span.1 = span.2
  · rw [if_pos heq, if_neg (hdigits _), hstart, ← heq, inclusiveRange_self]
    rfl
  · rw [if_neg heq, if_pos (List.mem_append_right _ List.mem_cons_self),
      List.splitOn_append_cons_self_of_not_mem (hdigits _), List.splitOn_eq_singleton (hdigits _)]
    simp only [hstart, parseId_toDigits h.2, ok_bind]

theorem topology_parsePart_formatSpan {span : ℕ × ℕ} (h : Proper span) :
    Topology.parsePart (formatSpan span.1 span.2) = inclusiveRange span.1 span.2 := by
  have hdigits (n : ℕ) : '-' ∉ Nat.toDigits 10 n := not_mem_toDigits (by decide) n
  have hstart : parseUsize (Nat.toDigits 10 span.1) = some span.1 :=
    parseUsize_toDigits (lt_of_le_of_lt h.1 h.2)
  unfold Topology.parsePart formatSpan
  by_cases heq : span.1 = span.2
  · rw [if_pos heq, splitOnce_eq_none (hdigits _), hstart, ← heq, inclusiveRange_self]
  · rw [if_neg heq, splitOnce_append (hdigits _)]
    dsimp only
    rw [hstart, parseUsize_toDigits h.2]

/-! ### Reading a printed list -/

/-- The parts of a printed list are its printed spans. -/
theorem splitOn_format {spans : List (ℕ × ℕ)} (hne : spans ≠ []) :
    ([','].intercalate (spans.map fun span ↦ formatSpan span.1 span.2)).splitOn ',' =
      spans.map fun span ↦ formatSpan span.1 span.2 := by
  refine List.splitOn_intercalate ',' ?_ (by simpa using hne)
  intro part hpart
  obtain ⟨span, _, rfl⟩ := List.mem_map.mp hpart
  exact comma_not_mem_formatSpan span.1 span.2

theorem foldlM_addPart (spans : List (ℕ × ℕ)) (hproper : ∀ span ∈ spans, Proper span) :
    ∀ cpus : List ℕ, (spans.map fun span ↦ formatSpan span.1 span.2).foldlM addPart cpus =
      .ok (cpus ++ expand spans) := by
  induction spans with
  | nil =>
    intro cpus
    rw [expand, List.flatMap_nil, List.append_nil]
    rfl
  | cons span spans ih =>
    intro cpus
    rw [List.map_cons, List.foldlM_cons, addPart,
      parsePart_formatSpan (hproper span List.mem_cons_self), ok_bind, ok_bind,
      ih fun other hother ↦ hproper other (List.mem_cons_of_mem _ hother), List.append_assoc]
    rfl

theorem parseCpulist_format {spans : List (ℕ × ℕ)} (hproper : ∀ span ∈ spans, Proper span) :
    parseCpulist ([','].intercalate (spans.map fun span ↦ formatSpan span.1 span.2)) =
      .ok (sortDedup (expand spans)) := by
  cases spans with
  | nil =>
    rw [expand, List.flatMap_nil, sortDedup_nil]
    rfl
  | cons span spans =>
    have hsplit := splitOn_format (List.cons_ne_nil span spans)
    have hempty : ¬ ([','].intercalate ((span :: spans).map fun span ↦
        formatSpan span.1 span.2)).isEmpty = true := by
      intro hnil
      rw [List.isEmpty_iff.mp hnil, List.splitOn_nil, List.map_cons] at hsplit
      exact formatSpan_ne_nil _ _ (List.cons.inj hsplit).1.symm
    rw [parseCpulist, if_neg hempty, hsplit, foldlM_addPart _ hproper, ok_bind, List.nil_append]

theorem topology_parseCpulist_format {spans : List (ℕ × ℕ)}
    (hproper : ∀ span ∈ spans, Proper span) :
    Topology.parseCpulist ([','].intercalate (spans.map fun span ↦ formatSpan span.1 span.2)) =
      expand spans := by
  cases spans with
  | nil => rfl
  | cons span spans =>
    have hkeep : ((span :: spans).map fun span ↦ formatSpan span.1 span.2).filter
        (fun part ↦ !part.isEmpty) = (span :: spans).map fun span ↦ formatSpan span.1 span.2 := by
      refine List.filter_eq_self.mpr fun part hpart ↦ ?_
      obtain ⟨other, _, rfl⟩ := List.mem_map.mp hpart
      simpa using formatSpan_ne_nil other.1 other.2
    rw [Topology.parseCpulist, splitOn_format (List.cons_ne_nil _ _), hkeep, List.flatMap_map]
    exact List.flatMap_congr fun other hother ↦ topology_parsePart_formatSpan (hproper other hother)

/-! ### Reading any text -/

/-- A part that the strict reader accepts is not empty, and the lenient reader reads the same
numbers. -/
theorem parsePart_eq_ok {part : List Char} {cpus : List ℕ} (h : parsePart part = .ok cpus) :
    part ≠ [] ∧ Topology.parsePart part = cpus := by
  have hid {s : List Char} {n : ℕ} (hs : parseId s = .ok n) : parseUsize s = some n := by
    unfold parseId at hs
    split at hs
    · rename_i heq
      cases hs
      exact heq
    · cases hs
  unfold parsePart at h
  split_ifs at h with hmem
  · refine ⟨List.ne_nil_of_mem hmem, ?_⟩
    split at h
    · rename_i first last hsplit
      obtain ⟨start, hstart, hrest⟩ := bind_eq_ok.mp h
      obtain ⟨stop, hstop, heq⟩ := bind_eq_ok.mp hrest
      cases heq
      unfold Topology.parsePart
      rw [splitOnce_of_splitOn hsplit]
      dsimp only
      rw [hid hstart, hid hstop]
    · cases h
  · obtain ⟨cpu, hcpu, heq⟩ := bind_eq_ok.mp h
    cases heq
    refine ⟨fun hnil ↦ ?_, ?_⟩
    · rw [hnil] at hcpu
      cases hcpu
    · unfold Topology.parsePart
      rw [splitOnce_eq_none hmem, hid hcpu]

theorem foldlM_addPart_eq_ok (parts : List (List Char)) : ∀ {cpus all : List ℕ},
    parts.foldlM addPart cpus = .ok all →
      all = cpus ++ (parts.filter fun part ↦ !part.isEmpty).flatMap Topology.parsePart := by
  induction parts with
  | nil =>
    intro cpus all h
    cases h
    simp
  | cons part parts ih =>
    intro cpus all h
    rw [List.foldlM_cons] at h
    obtain ⟨next, hnext, hrest⟩ := bind_eq_ok.mp h
    obtain ⟨more, hmore, heq⟩ := bind_eq_ok.mp hnext
    cases heq
    obtain ⟨hne, hsame⟩ := parsePart_eq_ok hmore
    rw [ih hrest, List.filter_cons_of_pos (by simpa using hne), List.flatMap_cons, hsame,
      List.append_assoc]

/-- What the strict reader returns is what the lenient one reads, sorted and without repetitions. -/
theorem sortDedup_topology {s : List Char} {cpus : List ℕ} (h : parseCpulist s = .ok cpus) :
    sortDedup (Topology.parseCpulist s) = cpus := by
  unfold parseCpulist at h
  split_ifs at h with hempty
  · cases h
    rw [List.isEmpty_iff.mp hempty]
    exact sortDedup_nil
  · obtain ⟨all, hall, heq⟩ := bind_eq_ok.mp h
    cases heq
    rw [foldlM_addPart_eq_ok _ hall]
    rfl

end Numa

/-- Every list of CPU numbers below `usize::MAX` is printed without an overflow; the strict reader
returns its numbers sorted and without repetitions, and the lenient reader returns the list itself.
On every text that the strict reader accepts, it returns what the lenient reader reads, sorted and
without repetitions. -/
theorem cpu_list_round_trip :
    (∀ l : List ℕ, (∀ cpu ∈ l, cpu < 2 ^ 64 - 1) → ∃ text, Numa.formatCpuList l = .ok text ∧
      Numa.parseCpulist text = .ok (sortDedup l) ∧ Topology.parseCpulist text = l) ∧
    (∀ s cpus, Numa.parseCpulist s = .ok cpus → sortDedup (Topology.parseCpulist s) = cpus) ∧
    ∀ l, (sortDedup l).Pairwise (· < ·) ∧ ∀ cpu, cpu ∈ sortDedup l ↔ cpu ∈ l := by
  refine ⟨fun l hl ↦ ?_, fun s cpus h ↦ Numa.sortDedup_topology h, sortDedup_spec⟩
  obtain ⟨spans, hformat, hproper, hexpand⟩ := Numa.format_spans l hl
  refine ⟨_, hformat, ?_, ?_⟩
  · rw [Numa.parseCpulist_format hproper, hexpand]
  · rw [Numa.topology_parseCpulist_format hproper, hexpand]

/-- A list that is not sorted and has a repetition. -/
theorem cpu_list_round_trip_unsorted : ∃ text, Numa.formatCpuList [8, 9, 10, 0, 0] = .ok text ∧
    Topology.parseCpulist text = [8, 9, 10, 0, 0] ∧
    ∃ cpus, Numa.parseCpulist text = .ok cpus ∧ ∀ cpu, cpu ∈ cpus ↔ cpu ∈ [8, 9, 10, 0, 0] := by
  obtain ⟨text, hformat, hstrict, hlenient⟩ :=
    cpu_list_round_trip.1 [8, 9, 10, 0, 0] (by decide)
  exact ⟨text, hformat, hlenient, _, hstrict, (cpu_list_round_trip.2.2 _).2⟩

example : Numa.formatCpuList [8, 9, 10, 0, 0] = .ok "8-10,0,0".toList := by decide

end Pegastore.Rdma
