import Pegastore.Lib.Transition

/-!
# Refinement between transition systems

A concrete system refines an abstract one through a relation `R` between their states when every
step of the first, taken from a related state of a run, is matched by finitely many steps of the
second that lead to related states again. Which abstract steps a concrete step may be matched by is
part of the statement: `explains s label s' moves` says that `moves` is a fair account of the step.

`Tracks` is a run of both systems together, chunk by chunk. `Refines.tracks` turns the condition on
single steps into one on runs: along every sequence of steps of the concrete system the abstract one
can be taken along, and every step has its account.
-/

set_option autoImplicit false
set_option relaxedAutoImplicit false

namespace Pegastore.Refinement

open Transition

variable {σ ℓ τ μ : Type}

/-- Steps of two systems side by side: each step of the first with the steps of the second that
account for it. -/
inductive Tracks (S : System σ ℓ) (T : System τ μ) (explains : σ → ℓ → σ → List μ → Prop) (s : σ)
    (t : τ) : List ℓ → σ → List μ → τ → Prop
  | nil : Tracks S T explains s t [] s [] t
  | snoc {history : List ℓ} {s' s'' : σ} {label : ℓ} {moves more : List μ} {t' t'' : τ} :
    Tracks S T explains s t history s' moves t' → S.step s' label s'' → T.Steps t' more t'' →
    explains s' label s'' more →
    Tracks S T explains s t (history ++ [label]) s'' (moves ++ more) t''

/-- The first system refines the second through `R`, with an account of every step. -/
structure Refines (S : System σ ℓ) (T : System τ μ) (R : σ → τ → Prop)
    (explains : σ → ℓ → σ → List μ → Prop) : Prop where
  start : R S.start T.start
  step : ∀ history s label s' t, S.Run history s → R s t → S.step s label s' →
    ∃ more t', T.Steps t more t' ∧ explains s label s' more ∧ R s' t'

section Refines

variable {S : System σ ℓ} {T : System τ μ} {R : σ → τ → Prop}
  {explains : σ → ℓ → σ → List μ → Prop} {s s' : σ} {t t' : τ} {history later : List ℓ}
  {moves : List μ}

theorem Tracks.right (h : Tracks S T explains s t history s' moves t') : T.Steps t moves t' := by
  induction h with
  | nil => exact .nil
  | snoc _ _ hmore _ ih => exact ih.append hmore

theorem Tracks.left (h : Tracks S T explains s t history s' moves t') : S.Steps s history s' := by
  induction h with
  | nil => exact .nil
  | snoc _ hstep _ _ ih => exact ih.snoc hstep

/-- The last step has its account. -/
theorem Tracks.last {label : ℓ} (h : Tracks S T explains s t (history ++ [label]) s' moves t') :
    ∃ before first more, S.Steps s history before ∧ explains before label s' more ∧
      moves = first ++ more := by
  generalize hall : history ++ [label] = all at h
  cases h with
  | nil => simp at hall
  | snoc hbefore _ _ hexplains =>
    obtain ⟨rfl, hlabel⟩ := List.append_inj' hall rfl
    cases hlabel
    exact ⟨_, _, _, hbefore.left, hexplains, rfl⟩

/-- Every sequence of steps that begins in a state of a run is tracked. -/
theorem Refines.tracks (h : Refines S T R explains) (hrun : S.Run history s) (hrel : R s t)
    (hsteps : S.Steps s later s') :
    ∃ moves t', Tracks S T explains s t later s' moves t' ∧ R s' t' := by
  induction hsteps with
  | nil => exact ⟨[], t, .nil, hrel⟩
  | @snoc a b later label hsteps hlast ih =>
    obtain ⟨moves, t', htracks, hrel'⟩ := ih
    obtain ⟨more, t'', hmore, hexplains, hrel''⟩ :=
      h.step (history ++ later) a label b t' (hrun.append hsteps) hrel' hlast
    exact ⟨moves ++ more, t'', .snoc htracks hlast hmore hexplains, hrel''⟩

/-- Every run is tracked. -/
theorem Refines.run (h : Refines S T R explains) (hrun : S.Run history s) :
    ∃ moves t, Tracks S T explains S.start T.start history s moves t ∧ R s t :=
  h.tracks System.Run.nil h.start hrun

end Refines

end Pegastore.Refinement
