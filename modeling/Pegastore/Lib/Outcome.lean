import Mathlib.Algebra.Order.BigOperators.Group.List
import Mathlib.Algebra.Order.Ring.Nat
import Mathlib.Data.List.Dedup
import Mathlib.Data.List.Lex
import Mathlib.Data.List.MinMax
import Mathlib.Data.List.Nodup
import Mathlib.Data.Prod.Lex
import Mathlib.Tactic.Common

/-!
# Computations that return a value or panic

A Rust function that may index a vector, unwrap an option or do checked machine arithmetic either
returns or unwinds. `Exec α` is that outcome, with the reason of the unwinding in `Panic`, and the
primitives below are the ones the standard library documents: 64-bit arithmetic with overflow
checks, `checked_add`, indexing, `Option::unwrap` and `Vec::with_capacity`.

`Holds x Q E` is the judgement used for all of them: if `x` returns, its value satisfies `Q`, and
if `x` panics, its reason satisfies `E`. Sequencing is `Holds.bind`, loops over a list are
`holds_foldlM`. Taking `E` to be false states that a computation cannot panic, and taking `E` to be
true states partial correctness, so one specification of a function serves both.
-/

set_option autoImplicit false
set_option relaxedAutoImplicit false

namespace Pegastore.Outcome

/-- Why a thread unwinds. -/
inductive Panic
  | indexOutOfBounds
  | addOverflow
  | subOverflow
  | mulOverflow
  | unwrapNone
  | capacityOverflow
  | assertionFailed
  | remainderByZero
deriving DecidableEq, Repr

/-- The outcome of a computation: a value, or a panic. -/
abbrev Exec (α : Type) := Except Panic α

/-- `isize::MAX`, the largest capacity in bytes of a vector. -/
def isizeMax : ℕ := 2 ^ 63 - 1

/-- `u64::checked_add`. -/
def checkedAdd (a b : ℕ) : Option ℕ := if a + b < 2 ^ 64 then some (a + b) else none

/-- `a + b` on `u64` with overflow checks. -/
def addU64 (a b : ℕ) : Exec ℕ := if a + b < 2 ^ 64 then .ok (a + b) else .error .addOverflow

/-- `a - b` on `u64` with overflow checks. -/
def subU64 (a b : ℕ) : Exec ℕ := if b ≤ a then .ok (a - b) else .error .subOverflow

/-- `a * b` on `u64`, which panics on overflow under `checks` and wraps otherwise. -/
def mulU64 (checks : Bool) (a b : ℕ) : Exec ℕ :=
  if a * b < 2 ^ 64 then .ok (a * b)
  else if checks then .error .mulOverflow
  else .ok (a * b % 2 ^ 64)

/-- `a % b`. -/
def remU64 (a b : ℕ) : Exec ℕ := if b = 0 then .error .remainderByZero else .ok (a % b)

/-- A sum of `u64` values with overflow checks. -/
def sumU64 (values : List ℕ) : Exec ℕ := values.foldlM addU64 0

/-- `Vec::<u8>::with_capacity`, which panics above `isize::MAX` bytes. -/
def withCapacity (n : ℕ) : Exec Unit :=
  if n ≤ isizeMax then .ok () else .error .capacityOverflow

/-- `v[i]` on a slice. -/
def index {α : Type} (l : List α) (i : ℕ) : Exec α :=
  match l[i]? with
  | some a => .ok a
  | none => .error .indexOutOfBounds

/-- `Option::unwrap`. -/
def unwrap {α : Type} : Option α → Exec α
  | some a => .ok a
  | none => .error .unwrapNone

/-- `assert!`, and `debug_assert!` where debug assertions are enabled. -/
def assert (condition : Bool) : Exec Unit :=
  if condition then .ok () else .error .assertionFailed

/-! ### The judgement -/

section Judgement

variable {ε α β : Type}

/-- If `x` returns, its value satisfies `Q`; if it fails, its error satisfies `E`. -/
def Holds (x : Except ε α) (Q : α → Prop) (E : ε → Prop) : Prop :=
  match x with
  | .ok a => Q a
  | .error e => E e

@[simp] theorem holds_ok {a : α} {Q : α → Prop} {E : ε → Prop} :
    Holds (.ok a : Except ε α) Q E ↔ Q a := Iff.rfl

@[simp] theorem holds_pure {a : α} {Q : α → Prop} {E : ε → Prop} :
    Holds (pure a : Except ε α) Q E ↔ Q a := Iff.rfl

@[simp] theorem holds_error {e : ε} {Q : α → Prop} {E : ε → Prop} :
    Holds (.error e : Except ε α) Q E ↔ E e := Iff.rfl

theorem Holds.of_ok {x : Except ε α} {Q : α → Prop} {E : ε → Prop} (h : Holds x Q E) {a : α}
    (hx : x = .ok a) : Q a := by
  subst hx
  exact h

theorem Holds.of_error {x : Except ε α} {Q : α → Prop} {E : ε → Prop} (h : Holds x Q E) {e : ε}
    (hx : x = .error e) : E e := by
  subst hx
  exact h

/-- A computation that gives a value returns it. -/
theorem eq_ok_of_toOption {x : Except ε α} {a : α} (h : x.toOption = some a) :
    x = .ok a := by
  cases x with
  | error e => cases h
  | ok b => exact congrArg Except.ok (Option.some.inj h)

/-- A computation whose errors are impossible returns. -/
theorem Holds.exists_ok {x : Except ε α} {Q : α → Prop} {E : ε → Prop} (h : Holds x Q E)
    (hE : ∀ e, ¬ E e) : ∃ a, x = .ok a ∧ Q a := by
  cases x with
  | ok a => exact ⟨a, rfl, h⟩
  | error e => exact (hE e h).elim

theorem Holds.mono {x : Except ε α} {Q Q' : α → Prop} {E E' : ε → Prop} (h : Holds x Q E)
    (hQ : ∀ a, Q a → Q' a) (hE : ∀ e, E e → E' e) : Holds x Q' E' := by
  cases x with
  | ok a => exact hQ a h
  | error e => exact hE e h

/-- The judgement with the value the computation returned. -/
theorem Holds.with_eq {x : Except ε α} {Q : α → Prop} {E : ε → Prop} (h : Holds x Q E) :
    Holds x (fun a ↦ x = .ok a ∧ Q a) E := by
  cases x with
  | ok a => exact ⟨rfl, h⟩
  | error e => exact h

/-- The rule of sequencing. -/
theorem Holds.bind {x : Except ε α} {f : α → Except ε β} {P : α → Prop} {Q : β → Prop}
    {E : ε → Prop} (hx : Holds x P E) (hf : ∀ a, x = .ok a → P a → Holds (f a) Q E) :
    Holds (x >>= f) Q E := by
  cases x with
  | ok a => exact hf a rfl hx
  | error e => exact hx

/-- The rule of iteration: an invariant of the items consumed so far. -/
theorem holds_foldlM {f : β → α → Except ε β} {E : ε → Prop} (I : List α → β → Prop)
    (hstep : ∀ done a b, I done b → Holds (f b a) (I (done ++ [a])) E) :
    ∀ (items done : List α) (b : β), I done b →
      Holds (items.foldlM f b) (I (done ++ items)) E := by
  intro items
  induction items with
  | nil =>
    intro done b hb
    simpa using hb
  | cons a rest ih =>
    intro done b hb
    rw [List.foldlM_cons]
    refine (hstep done a b hb).bind fun b' _ hb' ↦ ?_
    simpa using ih (done ++ [a]) b' hb'

/-- A sequence returns exactly when both parts do. -/
theorem bind_eq_ok {x : Except ε α} {f : α → Except ε β} {b : β} :
    (x >>= f) = .ok b ↔ ∃ a, x = .ok a ∧ f a = .ok b := by
  cases x with
  | ok a =>
    constructor
    · intro h
      exact ⟨a, rfl, h⟩
    · rintro ⟨a', ha, h⟩
      cases ha
      exact h
  | error e =>
    constructor
    · intro h
      cases h
    · rintro ⟨a, ha, _⟩
      cases ha

/-- A loop whose bodies all return, with what is known of the result of each. -/
theorem exists_mapM {f : α → Except ε β} {P : α → β → Prop} (l : List α)
    (h : ∀ a ∈ l, ∃ b, f a = .ok b ∧ P a b) :
    ∃ bs, l.mapM f = .ok bs ∧ bs.length = l.length ∧
      ∀ (i : ℕ) a b, l[i]? = some a → bs[i]? = some b → P a b := by
  induction l with
  | nil => exact ⟨[], rfl, rfl, by simp⟩
  | cons a l ih =>
    obtain ⟨b, hb, hP⟩ := h a List.mem_cons_self
    obtain ⟨bs, hbs, hlength, hall⟩ := ih fun c hc ↦ h c (List.mem_cons_of_mem _ hc)
    refine ⟨b :: bs, ?_, by rw [List.length_cons, List.length_cons, hlength], fun i c d hc hd ↦ ?_⟩
    · rw [List.mapM_cons, hb, hbs]
      rfl
    · cases i with
      | zero =>
        cases hc
        cases hd
        exact hP
      | succ i => exact hall i c d hc hd

@[simp] theorem ok_bind (a : α) (f : α → Except ε β) : (Except.ok a >>= f) = f a := rfl

@[simp] theorem error_bind (e : ε) (f : α → Except ε β) :
    ((Except.error e : Except ε α) >>= f) = .error e := rfl

end Judgement

/-! ### The primitives -/

theorem addU64_eq_ok {a b c : ℕ} : addU64 a b = .ok c ↔ a + b < 2 ^ 64 ∧ c = a + b := by
  unfold addU64
  split_ifs with h
  · rw [Except.ok.injEq, eq_comm]
    exact ⟨fun hc ↦ ⟨h, hc⟩, fun hc ↦ hc.2⟩
  · constructor
    · intro hc
      cases hc
    · intro hc
      exact absurd hc.1 h

theorem subU64_eq_ok {a b c : ℕ} : subU64 a b = .ok c ↔ b ≤ a ∧ c = a - b := by
  unfold subU64
  split_ifs with h
  · simp [h, eq_comm]
  · simp [h]

/-- A checked sum is the sum when that fits, and panics otherwise. -/
theorem foldlM_addU64 (values : List ℕ) : ∀ {start : ℕ}, start < 2 ^ 64 →
    values.foldlM addU64 start =
      if start + values.sum < 2 ^ 64 then .ok (start + values.sum) else .error .addOverflow := by
  induction values with
  | nil =>
    intro start hstart
    simp only [List.foldlM_nil, List.sum_nil, Nat.add_zero, hstart, if_true]
    rfl
  | cons value rest ih =>
    intro start hstart
    rw [List.foldlM_cons, List.sum_cons]
    by_cases hadd : start + value < 2 ^ 64
    · rw [addU64, if_pos hadd, ok_bind, ih hadd, Nat.add_assoc]
    · rw [addU64, if_neg hadd, error_bind, if_neg (by omega)]

theorem sumU64_of_lt {values : List ℕ} (h : values.sum < 2 ^ 64) :
    sumU64 values = .ok values.sum := by
  have hfold := foldlM_addU64 values (Nat.two_pow_pos 64)
  rw [Nat.zero_add, if_pos h] at hfold
  exact hfold

theorem holds_addU64 {a b : ℕ} {Q : ℕ → Prop} {E : Panic → Prop}
    (hok : a + b < 2 ^ 64 → Q (a + b)) (herr : 2 ^ 64 ≤ a + b → E .addOverflow) :
    Holds (addU64 a b) Q E := by
  unfold addU64
  split_ifs with h
  · exact hok h
  · exact herr (not_lt.mp h)

theorem index_eq_ok {α : Type} {l : List α} {i : ℕ} {a : α} :
    index l i = .ok a ↔ l[i]? = some a := by
  unfold index
  cases h : l[i]? with
  | some b => simp
  | none => simp

theorem unwrap_eq_ok {α : Type} {o : Option α} {a : α} : unwrap o = .ok a ↔ o = some a := by
  cases o with
  | some b => simp [unwrap]
  | none => simp [unwrap]

theorem checkedAdd_eq_some {a b c : ℕ} :
    checkedAdd a b = some c ↔ a + b < 2 ^ 64 ∧ c = a + b := by
  unfold checkedAdd
  split_ifs with h
  · rw [Option.some.injEq, eq_comm]
    exact ⟨fun hc ↦ ⟨h, hc⟩, fun hc ↦ hc.2⟩
  · constructor
    · intro hc
      cases hc
    · intro hc
      exact absurd hc.1 h

end Pegastore.Outcome
