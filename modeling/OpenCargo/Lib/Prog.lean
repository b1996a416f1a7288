/-
Module: OpenCargo.Lib.Prog
Purpose: Sequential programs over a shared state, and rules of pre- and postconditions for them. What
  else happens between two operations, and what each operation is answered, is part of the state; a
  program that is never answered again stops, and has no outcome.
Trusted boundary: none
Main exports: Triple.weaken, Triple.assuming, Triple.of_exists, Triple.ite
-/
import Mathlib.Data.Option.Basic

namespace OpenCargo.Lib

/-- A program over states `σ` that answers an `α`, or stops. -/
abbrev Prog (σ α : Type) := StateT σ Option α

variable {σ α γ : Type}

/-- A program that goes on from what its first part answered. -/
theorem run_bind_of {program : Prog σ α} {next : α → Prog σ γ} {s t : σ} {a : α}
    (first : program.run s = some (a, t)) : (program >>= next).run s = (next a).run t := by
  rw [StateT.run_bind, first]
  rfl

/-- From a state where `P` holds, whatever the program answers, `Q` holds of the answer and of the state
it is answered in. -/
structure Triple (P : σ → Prop) (program : Prog σ α) (Q : α → σ → Prop) : Prop where
  outcome : ∀ s, P s → ∀ a t, program.run s = some (a, t) → Q a t

namespace Triple

variable {P P' : σ → Prop} {Q Q' : α → σ → Prop} {program : Prog σ α}

theorem pure {a : α} (holds : ∀ s, P s → Q a s) : Triple P (Pure.pure a) Q := by
  constructor
  intro s pre b t run
  cases run
  exact holds s pre

theorem bind {R : γ → σ → Prop} {next : α → Prog σ γ} (first : Triple P program Q)
    (rest : ∀ a, Triple (Q a) (next a) R) : Triple P (program >>= next) R := by
  constructor
  intro s pre c u run
  rw [StateT.run_bind] at run
  obtain ⟨⟨a, t⟩, one, two⟩ := Option.bind_eq_some_iff.mp run
  exact (rest a).outcome t (first.outcome s pre a t one) c u two

theorem modifyGet {f : σ → α × σ} (holds : ∀ s, P s → Q (f s).1 (f s).2) :
    Triple P (MonadState.modifyGet f) Q := by
  constructor
  intro s pre a t run
  have same : f s = (a, t) := Option.some.inj run
  have post := holds s pre
  rw [same] at post
  exact post

theorem weaken (triple : Triple P program Q) (pre : ∀ s, P' s → P s)
    (post : ∀ a s, Q a s → Q' a s) : Triple P' program Q' :=
  ⟨fun s holds a t run => post a t (triple.outcome s (pre s holds) a t run)⟩

/-- What the precondition says of the state may say something of the program. -/
theorem assuming {fact : Prop} (known : ∀ s, P s → fact) (triple : fact → Triple P program Q) :
    Triple P program Q :=
  ⟨fun s holds => (triple (known s holds)).outcome s holds⟩

theorem of_exists {ι : Type} {P : ι → σ → Prop} (each : ∀ i, Triple (P i) program Q) :
    Triple (fun s => ∃ i, P i s) program Q :=
  ⟨fun s ⟨i, holds⟩ => (each i).outcome s holds⟩

theorem ite {c : Bool} {yes no : Prog σ α} (one : c = true → Triple P yes Q)
    (two : c = false → Triple P no Q) : Triple P (if c then yes else no) Q := by
  cases c
  · exact two rfl
  · exact one rfl

end Triple

end OpenCargo.Lib
