import Mathlib.Algebra.Order.BigOperators.Group.List
import Mathlib.Algebra.Order.Ring.Nat
import Mathlib.Data.List.Dedup
import Mathlib.Data.List.Lex
import Mathlib.Data.List.MinMax
import Mathlib.Data.List.Nodup
import Mathlib.Data.Prod.Lex
import Mathlib.Tactic.Common

/-!
# Transition systems, runs and histories

A system has a start state and a labelled step relation. `Steps` is a finite sequence of steps
between two states with the labels it took, in order, and a run is such a sequence from the start
state. The labels of a run are its history: an invariant may speak about the state and the history
together (`Run.induction`), which is how "the most recent step that did X" is tied to the state.

`restrict` keeps only the steps that meet a condition on the state before the step, so a statement
about every run whose steps all meet the condition is a statement about the runs of the restricted
system.

`replay` runs a partial step function along a list of inputs. It evaluates, so a run on fixed inputs
is found by computing it (`steps_of_replay`).
-/

set_option autoImplicit false
set_option relaxedAutoImplicit false

namespace Pegastore.Transition

/-- A labelled transition system with one start state. -/
structure System (σ ℓ : Type) where
  start : σ
  step : σ → ℓ → σ → Prop

namespace System

variable {σ ℓ : Type} {S : System σ ℓ}

/-- Finitely many steps from one state to another, with their labels in order. -/
inductive Steps (S : System σ ℓ) (s : σ) : List ℓ → σ → Prop
  | nil : Steps S s [] s
  | snoc {t u : σ} {history : List ℓ} {label : ℓ} :
    Steps S s history t → S.step t label u → Steps S s (history ++ [label]) u

/-- A run from the start state, with its history. -/
def Run (S : System σ ℓ) (history : List ℓ) (s : σ) : Prop := S.Steps S.start history s

/-- The system that takes only the steps meeting a condition on the state before the step. -/
def restrict (S : System σ ℓ) (condition : σ → ℓ → Prop) : System σ ℓ where
  start := S.start
  step := fun s label t ↦ condition s label ∧ S.step s label t

theorem Run.nil : S.Run [] S.start := Steps.nil

theorem Run.snoc {history : List ℓ} {s t : σ} {label : ℓ} (hrun : S.Run history s)
    (hstep : S.step s label t) : S.Run (history ++ [label]) t := Steps.snoc hrun hstep

/-- The rule of history invariants: what holds at the start and is kept by every step of a run
holds of every run. -/
theorem Run.induction {I : List ℓ → σ → Prop} (hstart : I [] S.start)
    (hstep : ∀ history s label t, S.Run history s → I history s → S.step s label t →
      I (history ++ [label]) t) {history : List ℓ} {s : σ} (hrun : S.Run history s) :
    I history s := by
  unfold Run at hrun
  induction hrun with
  | nil => exact hstart
  | snoc hsteps hlast ih => exact hstep _ _ _ _ hsteps ih hlast

/-- The rule of state invariants along any sequence of steps. -/
theorem Steps.invariant {I : σ → Prop} {s t : σ} {history : List ℓ} (hsteps : S.Steps s history t)
    (hs : I s) (hstep : ∀ a label b, label ∈ history → I a → S.step a label b → I b) : I t := by
  induction hsteps with
  | nil => exact hs
  | snoc _ hlast ih =>
    refine hstep _ _ _ (by simp) (ih ?_) hlast
    intro a label b hlabel
    exact hstep a label b (List.mem_append_left _ hlabel)

/-- The rule of progress: where every counted step lowers a measure and no step raises it, as many
counted steps as the measure bring it to zero, whatever other steps are in between. -/
theorem Steps.measure_le {I : σ → Prop} {measure : σ → ℕ} {counted : ℓ → Bool} {s t : σ}
    {history : List ℓ} (hsteps : S.Steps s history t) (hs : I s)
    (hstep : ∀ a label b, I a → S.step a label b →
      I b ∧ measure b ≤ measure a - if counted label then 1 else 0) :
    I t ∧ measure t ≤ measure s - history.countP counted := by
  induction hsteps with
  | nil => exact ⟨hs, Nat.le_refl _⟩
  | @snoc a b history label _ hlast ih =>
    obtain ⟨hb, hle⟩ := hstep a label b ih.1 hlast
    refine ⟨hb, ?_⟩
    have hbefore := ih.2
    rw [List.countP_append, List.countP_singleton]
    omega

/-- Forgetting the condition turns a restricted run into a run. -/
theorem Steps.of_restrict {condition : σ → ℓ → Prop} {s t : σ} {history : List ℓ}
    (hsteps : (S.restrict condition).Steps s history t) : S.Steps s history t := by
  induction hsteps with
  | nil => exact Steps.nil
  | snoc _ hlast ih => exact Steps.snoc ih hlast.2

theorem Run.of_restrict {condition : σ → ℓ → Prop} {s : σ} {history : List ℓ}
    (hrun : (S.restrict condition).Run history s) : S.Run history s :=
  Steps.of_restrict hrun

/-- A run under a condition is a run under any that is weaker where such runs lead. -/
theorem Run.weaken_of_run {strong weak : σ → ℓ → Prop}
    (hweaker : ∀ history s label, (S.restrict strong).Run history s → strong s label → weak s label)
    {s : σ} {history : List ℓ} (hrun : (S.restrict strong).Run history s) :
    (S.restrict weak).Run history s := by
  refine Run.induction (S := S.restrict strong)
    (I := fun history s ↦ (S.restrict weak).Run history s) Run.nil ?_ hrun
  intro history s label t hbefore hweak hstep
  exact Run.snoc hweak ⟨hweaker history s label hbefore hstep.1, hstep.2⟩

theorem Run.weaken {strong weak : σ → ℓ → Prop} (hweaker : ∀ s label, strong s label → weak s label)
    {s : σ} {history : List ℓ} (hrun : (S.restrict strong).Run history s) :
    (S.restrict weak).Run history s :=
  hrun.weaken_of_run fun _ s label _ hstrong ↦ hweaker s label hstrong

theorem Steps.eq_of_nil {s t : σ} (h : S.Steps s [] t) : t = s := by
  generalize hnil : ([] : List ℓ) = labels at h
  cases h with
  | nil => rfl
  | snoc => simp at hnil

theorem Steps.last {s t : σ} {history : List ℓ} {label : ℓ}
    (h : S.Steps s (history ++ [label]) t) : ∃ m, S.Steps s history m ∧ S.step m label t := by
  generalize hsnoc : history ++ [label] = labels at h
  cases h with
  | nil => simp at hsnoc
  | @snoc m _ _ _ hbefore hlast =>
    obtain ⟨rfl, hlabel⟩ := List.append_inj' hsnoc rfl
    cases hlabel
    exact ⟨m, hbefore, hlast⟩

/-- Where a step is determined by the state and the label, so is a sequence of steps. -/
theorem Steps.unique (hdet : ∀ s label t u, S.step s label t → S.step s label u → t = u)
    {s t u : σ} {history : List ℓ} (h : S.Steps s history t) (h' : S.Steps s history u) :
    t = u := by
  induction h generalizing u with
  | nil => exact h'.eq_of_nil.symm
  | snoc _ hlast ih =>
    obtain ⟨m, hbefore, hlast'⟩ := h'.last
    obtain rfl := ih hbefore
    exact hdet _ _ _ _ hlast hlast'

/-- Steps whose labels meet the condition in every state are steps of the restricted system. -/
theorem Steps.restrict_of_forall {condition : σ → ℓ → Prop} {s t : σ} {history : List ℓ}
    (hsteps : S.Steps s history t) (hall : ∀ label ∈ history, ∀ a, condition a label) :
    (S.restrict condition).Steps s history t := by
  induction hsteps with
  | nil => exact Steps.nil
  | snoc _ hlast ih =>
    refine Steps.snoc (ih fun label hlabel ↦ hall label (List.mem_append_left _ hlabel)) ⟨?_, hlast⟩
    exact hall _ (by simp) _

/-- A property that holds at the beginning and not at the end was lost at some step; if it can only
be lost where `Q` holds, then `Q` holds on the way. -/
theorem Steps.exists_of_lost {P Q : σ → Prop} {s t : σ} {history : List ℓ}
    (hsteps : S.Steps s history t) (hs : P s) (ht : ¬ P t)
    (hstep : ∀ first a label b, S.Steps s first a → P a → S.step a label b → P b ∨ Q a) :
    ∃ first second m, history = first ++ second ∧ S.Steps s first m ∧ S.Steps m second t ∧ Q m := by
  induction hsteps with
  | nil => exact absurd hs ht
  | @snoc a b history label hsteps hlast ih =>
    by_cases ha : P a
    · exact ⟨history, [label], a, rfl, hsteps, Steps.snoc Steps.nil hlast,
        (hstep history a label b hsteps ha hlast).resolve_left ht⟩
    · obtain ⟨first, second, m, heq, hfirst, hsecond, hm⟩ := ih ha
      exact ⟨first, second ++ [label], m, by rw [heq, List.append_assoc], hfirst,
        Steps.snoc hsecond hlast, hm⟩

theorem Steps.append {s t u : σ} {first second : List ℓ} (hfirst : S.Steps s first t)
    (hsecond : S.Steps t second u) : S.Steps s (first ++ second) u := by
  induction hsecond with
  | nil => simpa using hfirst
  | snoc _ hlast ih =>
    rw [← List.append_assoc]
    exact Steps.snoc ih hlast

/-- Two systems side by side, in any order of their steps. -/
def pair {τ μ : Type} (S : System σ ℓ) (T : System τ μ) : System (σ × τ) (ℓ ⊕ μ) where
  start := (S.start, T.start)
  step := fun s label t ↦ match label with
    | .inl first => S.step s.1 first t.1 ∧ t.2 = s.2
    | .inr second => T.step s.2 second t.2 ∧ t.1 = s.1

/-- Each of the two takes a run of its own. -/
theorem Run.of_pair {τ μ : Type} {T : System τ μ} {history : List (ℓ ⊕ μ)} {s : σ × τ}
    (hrun : (S.pair T).Run history s) :
    (∃ first, S.Run first s.1) ∧ ∃ second, T.Run second s.2 := by
  refine Run.induction (S := S.pair T)
    (I := fun _ s ↦ (∃ first, S.Run first s.1) ∧ ∃ second, T.Run second s.2)
    ⟨⟨[], Run.nil⟩, ⟨[], Run.nil⟩⟩ ?_ hrun
  rintro _ s (label | label) t _ ⟨⟨first, hfirst⟩, second, hsecond⟩ ⟨hstep, hsame⟩
  · exact ⟨⟨_, hfirst.snoc hstep⟩, second, hsame ▸ hsecond⟩
  · exact ⟨⟨first, hsame ▸ hfirst⟩, _, hsecond.snoc hstep⟩

end System

section Replay

variable {σ ι ℓ : Type}

/-- Run a partial step function along a list of inputs. -/
def replay (next : σ → ι → Option (ℓ × σ)) : List ι → σ → Option (List ℓ × σ)
  | [], s => some ([], s)
  | input :: rest, s =>
    (next s input).bind fun r ↦ (replay next rest r.2).map fun q ↦ (r.1 :: q.1, q.2)

/-- A replay whose steps are steps of a system is a sequence of steps of it. -/
theorem steps_of_replay {S : System σ ℓ} {next : σ → ι → Option (ℓ × σ)}
    (hnext : ∀ s input label t, next s input = some (label, t) → S.step s label t)
    (inputs : List ι) : ∀ {s t : σ} {history : List ℓ},
      replay next inputs s = some (history, t) → S.Steps s history t := by
  induction inputs with
  | nil =>
    intro s t history h
    cases h
    exact System.Steps.nil
  | cons input rest ih =>
    intro s t history h
    obtain ⟨⟨label, middle⟩, hfirst, hrest⟩ := Option.bind_eq_some_iff.mp h
    obtain ⟨⟨labels, last⟩, hlabels, heq⟩ := Option.map_eq_some_iff.mp hrest
    cases heq
    have hstep : S.Steps s [label] middle :=
      System.Steps.snoc System.Steps.nil (hnext s input label middle hfirst)
    exact hstep.append (ih hlabels)

/-- The labels of a replay carry its inputs. -/
theorem inputs_of_replay {next : σ → ι → Option (ℓ × σ)} {inputOf : ℓ → ι}
    (hnext : ∀ s input label t, next s input = some (label, t) → inputOf label = input)
    (inputs : List ι) : ∀ {s t : σ} {history : List ℓ},
      replay next inputs s = some (history, t) → history.map inputOf = inputs := by
  induction inputs with
  | nil =>
    intro s t history h
    cases h
    rfl
  | cons input rest ih =>
    intro s t history h
    obtain ⟨⟨label, middle⟩, hfirst, hrest⟩ := Option.bind_eq_some_iff.mp h
    obtain ⟨⟨labels, last⟩, hlabels, heq⟩ := Option.map_eq_some_iff.mp hrest
    cases heq
    rw [List.map_cons, ih hlabels, hnext s input label middle hfirst]

/-- A run on fixed inputs, with a check of where it leads. -/
theorem exists_run_of_replay {S : System σ ℓ} {next : σ → ι → Option (ℓ × σ)}
    (hnext : ∀ s input label t, next s input = some (label, t) → S.step s label t)
    (inputs : List ι) (check : σ → Prop) [DecidablePred check]
    (h : (replay next inputs S.start).any (fun r ↦ check r.2) = true) :
    ∃ history s, S.Run history s ∧ check s := by
  obtain ⟨⟨history, s⟩, hreplay, hcheck⟩ := (Option.any_eq_true _ _).mp h
  exact ⟨history, s, steps_of_replay hnext inputs hreplay, of_decide_eq_true hcheck⟩

/-- A replay and one more step, with a check of what they lead to. -/
theorem exists_replay_step (next : σ → ι → Option (ℓ × σ)) (start : σ) (inputs : List ι)
    (input : ι) (check : List ℓ → σ → ℓ → σ → Bool)
    (h : (replay next inputs start).any (fun r ↦
      (next r.2 input).any fun q ↦ check r.1 r.2 q.1 q.2) = true) :
    ∃ history s label t, replay next inputs start = some (history, s) ∧
      next s input = some (label, t) ∧ check history s label t = true := by
  obtain ⟨⟨history, s⟩, hreplay, hlast⟩ := (Option.any_eq_true _ _).mp h
  obtain ⟨⟨label, t⟩, hnext, hcheck⟩ := (Option.any_eq_true _ _).mp hlast
  exact ⟨history, s, label, t, hreplay, hnext, hcheck⟩

section Pair

variable {τ κ μ : Type}

/-- The step functions of two systems side by side. -/
def pairNext (first : σ → ι → Option (ℓ × σ)) (second : τ → κ → Option (μ × τ)) (s : σ × τ) :
    ι ⊕ κ → Option ((ℓ ⊕ μ) × (σ × τ))
  | .inl input => (first s.1 input).map fun r ↦ (.inl r.1, (r.2, s.2))
  | .inr input => (second s.2 input).map fun r ↦ (.inr r.1, (s.1, r.2))

theorem step_of_pairNext {S : System σ ℓ} {T : System τ μ} {first : σ → ι → Option (ℓ × σ)}
    {second : τ → κ → Option (μ × τ)}
    (hfirst : ∀ s input label t, first s input = some (label, t) → S.step s label t)
    (hsecond : ∀ s input label t, second s input = some (label, t) → T.step s label t)
    (s : σ × τ) (input : ι ⊕ κ) (label : ℓ ⊕ μ) (t : σ × τ)
    (h : pairNext first second s input = some (label, t)) : (S.pair T).step s label t := by
  cases input with
  | inl input =>
    obtain ⟨⟨l, s'⟩, hnext, heq⟩ := Option.map_eq_some_iff.mp h
    cases heq
    exact ⟨hfirst _ _ _ _ hnext, rfl⟩
  | inr input =>
    obtain ⟨⟨l, s'⟩, hnext, heq⟩ := Option.map_eq_some_iff.mp h
    cases heq
    exact ⟨hsecond _ _ _ _ hnext, rfl⟩

end Pair

end Replay

end Pegastore.Transition
