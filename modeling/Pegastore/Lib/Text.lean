import Pegastore.Lib.Outcome

/-!
# Numbers in text

The standard library's reading of an unsigned number, and splitting at a character. A text is the
list of its characters. `parseUsize` accepts a leading plus sign and leading zeros and refuses
everything else that is not a number below `2 ^ 64`; on the decimal digits of such a number it
returns the number (`parseUsize_toDigits`). `sortDedup` is the sorted list without repetitions.
-/

set_option autoImplicit false
set_option relaxedAutoImplicit false

namespace Pegastore.Text

/-! ### Decimal numbers -/

/-- The loop over the digits, with the value so far; every value must fit into 64 bits. -/
def parseDigits (value : ℕ) : List Char → Option ℕ
  | [] => some value
  | c :: rest =>
    if c.isDigit then
      if 10 * value + (c.toNat - '0'.toNat) < 2 ^ 64 then
        parseDigits (10 * value + (c.toNat - '0'.toNat)) rest
      else none
    else none

/-- `str::parse::<usize>`. -/
def parseUsize (s : List Char) : Option ℕ :=
  if s = [] ∨ s = ['+'] ∨ s = ['-'] then none
  else parseDigits 0 (if s.head? = some '+' then s.tail else s)

theorem le_ofDigitChars (digits : List Char) : ∀ value : ℕ,
    value ≤ Nat.ofDigitChars 10 digits value := by
  induction digits with
  | nil => exact fun value ↦ Nat.le_refl value
  | cons c rest ih =>
    intro value
    rw [Nat.ofDigitChars_cons]
    refine le_trans ?_ (ih _)
    omega

/-- Digits whose value fits are read as their value. -/
theorem parseDigits_eq (digits : List Char) (hdigits : ∀ c ∈ digits, c.isDigit = true) :
    ∀ value : ℕ, Nat.ofDigitChars 10 digits value < 2 ^ 64 →
      parseDigits value digits = some (Nat.ofDigitChars 10 digits value) := by
  induction digits with
  | nil => exact fun _ _ ↦ rfl
  | cons c rest ih =>
    intro value hfits
    rw [Nat.ofDigitChars_cons] at hfits ⊢
    have hle := le_ofDigitChars rest (10 * value + (c.toNat - '0'.toNat))
    rw [parseDigits, if_pos (hdigits c List.mem_cons_self), if_pos (by omega)]
    exact ih (fun d hd ↦ hdigits d (List.mem_cons_of_mem _ hd)) _ hfits

/-- The decimal digits of a number contain no other character. -/
theorem not_mem_toDigits {c : Char} (hc : c.isDigit = false) (n : ℕ) : c ∉ Nat.toDigits 10 n := by
  intro hmem
  have hdigit := Nat.isDigit_of_mem_toDigits (by decide) (by decide) hmem
  rw [hc] at hdigit
  cases hdigit

theorem parseUsize_toDigits {n : ℕ} (hn : n < 2 ^ 64) :
    parseUsize (Nat.toDigits 10 n) = some n := by
  have hplus : '+' ∉ Nat.toDigits 10 n := not_mem_toDigits (by decide) n
  have hminus : '-' ∉ Nat.toDigits 10 n := not_mem_toDigits (by decide) n
  have hspecial : ¬ (Nat.toDigits 10 n = [] ∨ Nat.toDigits 10 n = ['+'] ∨
      Nat.toDigits 10 n = ['-']) := by
    rintro (h | h | h)
    · exact Nat.toDigits_ne_nil h
    · rw [h] at hplus
      exact hplus List.mem_cons_self
    · rw [h] at hminus
      exact hminus List.mem_cons_self
  have hhead : ¬ (Nat.toDigits 10 n).head? = some '+' := fun h ↦
    hplus (List.mem_of_mem_head? h)
  have hvalue : Nat.ofDigitChars 10 (Nat.toDigits 10 n) 0 = n := Nat.ofDigitChars_ten_toDigits
  unfold parseUsize
  rw [if_neg hspecial, if_neg hhead, parseDigits_eq, hvalue]
  · intro c hc
    exact Nat.isDigit_of_mem_toDigits (by decide) (by decide) hc
  · rw [hvalue]
    exact hn

/-! ### Splitting -/

/-- `str::split_once` at a character. -/
def splitOnce (sep : Char) (s : List Char) : Option (List Char × List Char) :=
  match s.dropWhile fun c ↦ c ≠ sep with
  | [] => none
  | _ :: after => some (s.takeWhile fun c ↦ c ≠ sep, after)

theorem splitOnce_append {sep : Char} {before : List Char} (h : sep ∉ before) (after : List Char) :
    splitOnce sep (before ++ sep :: after) = some (before, after) := by
  have hall : ∀ c ∈ before, decide (c ≠ sep) = true := by
    intro c hc
    exact decide_eq_true fun heq ↦ h (heq ▸ hc)
  unfold splitOnce
  rw [List.dropWhile_append_of_pos hall, List.takeWhile_append_of_pos hall]
  simp

theorem splitOnce_eq_none {sep : Char} {s : List Char} (h : sep ∉ s) : splitOnce sep s = none := by
  have hall : ∀ c ∈ s, decide (c ≠ sep) = true := by
    intro c hc
    exact decide_eq_true fun heq ↦ h (heq ▸ hc)
  have hdrop : s.dropWhile (fun c ↦ decide (c ≠ sep)) = [] := by
    have happend := @List.dropWhile_append_of_pos _ (fun c ↦ decide (c ≠ sep)) s [] hall
    simpa using happend
  unfold splitOnce
  rw [hdrop]

/-- A text with two parts has the separator once, between them. -/
theorem splitOnce_of_splitOn {sep : Char} {s before after : List Char}
    (h : s.splitOn sep = [before, after]) : splitOnce sep s = some (before, after) := by
  by_cases hmem : sep ∈ s
  · obtain ⟨first, rest, rfl, hnot⟩ := List.eq_append_cons_of_mem hmem
    rw [List.splitOn_append_cons_self_of_not_mem hnot] at h
    obtain ⟨hfirst, hrest⟩ := List.cons.inj h
    have hafter : [sep].intercalate (rest.splitOn sep) = rest := List.intercalate_splitOn sep
    rw [hrest] at hafter
    rw [splitOnce_append hnot, hfirst, ← hafter]
    simp
  · rw [List.splitOn_eq_singleton hmem] at h
    cases h

/-! ### Sorting -/

/-- `Vec::dedup`: of equal neighbours the first one stays. -/
def dedup : List ℕ → List ℕ
  | [] => []
  | [a] => [a]
  | a :: b :: rest => if a = b then dedup (b :: rest) else a :: dedup (b :: rest)

/-- `sort_unstable` followed by `dedup`. -/
def sortDedup (l : List ℕ) : List ℕ := dedup (l.mergeSort fun a b ↦ a ≤ b)

@[simp] theorem sortDedup_nil : sortDedup [] = [] := by
  simp [sortDedup, dedup]

theorem mem_dedup (l : List ℕ) (x : ℕ) : x ∈ dedup l ↔ x ∈ l := by
  fun_induction dedup l with
  | case1 => exact Iff.rfl
  | case2 => exact Iff.rfl
  | case3 a rest ih =>
    rw [ih]
    simp
  | case4 a b rest _ ih => simp only [List.mem_cons, ih]

theorem pairwise_dedup {l : List ℕ} (h : l.Pairwise (· ≤ ·)) : (dedup l).Pairwise (· < ·) := by
  fun_induction dedup l with
  | case1 => exact List.Pairwise.nil
  | case2 => exact List.pairwise_singleton _ _
  | case3 a rest ih => exact ih h.tail
  | case4 a b rest hne ih =>
    obtain ⟨hhead, htail⟩ := List.pairwise_cons.mp h
    refine List.pairwise_cons.mpr ⟨fun x hx ↦ ?_, ih htail⟩
    have hb : a < b := lt_of_le_of_ne (hhead b List.mem_cons_self) hne
    rcases List.mem_cons.mp ((mem_dedup _ _).mp hx) with rfl | hrest
    · exact hb
    · exact lt_of_lt_of_le hb ((List.pairwise_cons.mp htail).1 x hrest)

/-- The same numbers, in increasing order. -/
theorem sortDedup_spec (l : List ℕ) :
    (sortDedup l).Pairwise (· < ·) ∧ ∀ x, x ∈ sortDedup l ↔ x ∈ l := by
  have hsorted : (l.mergeSort fun a b ↦ a ≤ b).Pairwise (· ≤ ·) := by
    refine (List.pairwise_mergeSort ?_ ?_ l).imp of_decide_eq_true
    · intro a b c hab hbc
      exact decide_eq_true ((of_decide_eq_true hab).trans (of_decide_eq_true hbc))
    · intro a b
      simpa using Nat.le_total a b
  refine ⟨pairwise_dedup hsorted, fun x ↦ ?_⟩
  rw [sortDedup, mem_dedup]
  exact (List.mergeSort_perm l _).mem_iff

end Pegastore.Text
