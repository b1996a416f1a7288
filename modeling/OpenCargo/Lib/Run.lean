/-
Module: OpenCargo.Lib.Run
Purpose: Runs of a deterministic step function whose nondeterminism is data: every choice of the
  environment (who moves, which answer a call gets, which fresh name is drawn) is part of the action.
  A run records a relation `R` that each of its steps meets, so the same notion serves for the plain
  runs (`R` is trivial), for the runs whose steps meet a condition, and for the runs along which a
  property holds at each step.
Trusted boundary: none
Main exports: Run.stamped, exec, checked, Run.of_test
-/
import Mathlib.Data.List.Basic

namespace OpenCargo.Lib

variable {σ α : Type*}

/-- `Run step R s as t`: from `s` the actions `as`, in this order, lead to `t`, and every step taken
on the way, from `u` by `a` to `v`, satisfies `R u a v`. -/
inductive Run (step : σ → α → Option σ) (R : σ → α → σ → Prop) (s : σ) : List α → σ → Prop where
  | nil : Run step R s [] s
  | snoc {as : List α} {t : σ} {a : α} {u : σ} :
      Run step R s as t → step t a = some u → R t a u → Run step R s (as ++ [a]) u

/-- The relation every step meets: a `Run step Any` is a run with nothing asked of it. -/
def Any (_ : σ) (_ : α) (_ : σ) : Prop := True

namespace Run

variable {step : σ → α → Option σ} {R R' : σ → α → σ → Prop} {s t : σ} {as : List α}

/-- An invariant of the steps, given what each step is known to meet, holds where a run ends. -/
theorem invariant (I : σ → Prop) (start : I s)
    (keep : ∀ t a u, I t → step t a = some u → R t a u → I u) (run : Run step R s as t) : I t := by
  induction run with
  | nil => exact start
  | snoc _ taken met ih => exact keep _ _ _ ih taken met

/-- The rule the run theorems use: with an invariant at hand, what is known of each step may be
traded for what the invariant and the step together give. -/
theorem strengthen (I : σ → Prop) (start : I s)
    (keep : ∀ t a u, I t → step t a = some u → R t a u → I u ∧ R' t a u)
    (run : Run step R s as t) : Run step R' s as t := by
  have both : I t ∧ Run step R' s as t := by
    induction run with
    | nil => exact ⟨start, .nil⟩
    | snoc _ taken met ih =>
        obtain ⟨after, better⟩ := keep _ _ _ ih.1 taken met
        exact ⟨after, .snoc ih.2 taken better⟩
  exact both.2

/-- What every action of the list meets, every step does. -/
theorem of_forall {P : α → Prop} (run : Run step R s as t) (every : ∀ a ∈ as, P a) :
    Run step (fun _ a _ => P a) s as t := by
  induction run with
  | nil => exact .nil
  | snoc _ taken _ ih =>
      have earlier := ih fun a mem => every a (List.mem_append_left _ mem)
      exact .snoc earlier taken (every _ (List.mem_append_right _ (List.mem_singleton_self _)))

/-- The last step of a run that took one. -/
theorem last_met (run : Run step R s as t) (moved : as ≠ []) : ∃ u a, R u a t := by
  cases run with
  | nil => exact absurd rfl moved
  | snoc _ _ met => exact ⟨_, _, met⟩

/-- A value under a counter: if a step that does not move the counter brings no value that was not
there, then where a run ends with the counter as it was, a value that is there now was there. -/
theorem stamped {β : Type*} {counter : σ → ℕ} {value : σ → Option β} (I : σ → Prop) (start : I s)
    (keep : ∀ t a u, I t → step t a = some u → R t a u →
      I u ∧ counter t ≤ counter u ∧
        (counter t = counter u → ∀ x, value u = some x → value t = some x))
    (run : Run step R s as t) :
    counter s ≤ counter t ∧ (counter s = counter t → ∀ x, value t = some x → value s = some x) := by
  have both : I t ∧ counter s ≤ counter t ∧
      (counter s = counter t → ∀ x, value t = some x → value s = some x) := by
    induction run with
    | nil => exact ⟨start, Nat.le_refl _, fun _ _ held => held⟩
    | snoc _ taken met ih =>
        obtain ⟨inv, less, back⟩ := ih
        obtain ⟨after, more, last⟩ := keep _ _ _ inv taken met
        refine ⟨after, Nat.le_trans less more, fun same x held => ?_⟩
        exact back (by omega) x (last (by omega) x held)
  exact both.2

end Run

/-- Play a list of actions; `none` as soon as one of them is not enabled. -/
def exec (step : σ → α → Option σ) : σ → List α → Option σ
  | s, [] => some s
  | s, a :: as => (step s a).bind (exec step · as)

theorem exec_append {step : σ → α → Option σ} {s : σ} {as bs : List α} :
    exec step s (as ++ bs) = (exec step s as).bind (exec step · bs) := by
  induction as generalizing s with
  | nil => rfl
  | cons a as ih =>
      rw [List.cons_append, exec, exec, Option.bind_assoc]
      exact congrArg _ (funext fun t => ih)

namespace Run

variable {step : σ → α → Option σ} {R R' : σ → α → σ → Prop} {s t u v : σ} {as : List α} {a : α}

theorem exec_eq (run : Run step R s as t) : exec step s as = some t := by
  induction run with
  | nil => rfl
  | snoc _ taken _ ih => rw [exec_append, ih, Option.bind_some, exec, taken, Option.bind_some, exec]

/-- The actions decide where a run ends. -/
theorem unique (run : Run step R s as t) (other : Run step R' s as u) : t = u := by
  have same := run.exec_eq.symm.trans other.exec_eq
  exact Option.some.inj same

/-- What a run meets at its last step, where the state before that step is known. -/
theorem last (run : Run step R s (as ++ [a]) v) (before : Run step R' s as u)
    (taken : step u a = some v) : R u a v := by
  generalize same : as ++ [a] = bs at run
  cases run with
  | nil => exact absurd same (by simp)
  | snoc run' taken' met =>
      obtain ⟨rfl, last⟩ := List.append_inj' same rfl
      cases last
      rw [before.unique run']
      exact met

end Run

/-- The steps that meet `R`, as a step function. -/
def checked (step : σ → α → Option σ) (R : σ → α → σ → Prop) [∀ s a t, Decidable (R s a t)]
    (s : σ) (a : α) : Option σ :=
  (step s a).filter fun t => decide (R s a t)

section Traces

variable (step : σ → α → Option σ) (R : σ → α → σ → Prop) [∀ s a t, Decidable (R s a t)]

theorem checked_eq_some_iff {s t : σ} {a : α} :
    checked step R s a = some t ↔ step s a = some t ∧ R s a t := by
  simp [checked, Option.filter_eq_some_iff]

/-- A list of actions that plays to its end with every step checked is a run: how a concrete trace
becomes one. -/
theorem Run.of_exec_from {s t u : σ} {before as : List α} (run : Run step R s before t)
    (played : exec (checked step R) t as = some u) : Run step R s (before ++ as) u := by
  induction as generalizing before t with
  | nil =>
      simp only [exec, Option.some.injEq] at played
      subst played
      simpa using run
  | cons a as ih =>
      simp only [exec, Option.bind_eq_some_iff, checked_eq_some_iff] at played
      obtain ⟨v, ⟨taken, met⟩, rest⟩ := played
      have next := ih (run.snoc taken met) rest
      simpa using next

/-- A trace that plays to its end, every step checked, and whose last state passes a test. -/
theorem Run.of_test (s : σ) (as : List α) (test : σ → Bool)
    (passed : (exec (checked step R) s as).any test = true) :
    ∃ t, Run step R s as t ∧ test t = true := by
  cases played : exec (checked step R) s as with
  | none => simp [played] at passed
  | some t =>
      have run := Run.of_exec_from step R Run.nil played
      exact ⟨t, by simpa using run, by simpa [played] using passed⟩

end Traces

instance (s : σ) (a : α) (t : σ) : Decidable (Any s a t) := .isTrue trivial

end OpenCargo.Lib
