/-
Module: OpenCargo.Lib.Fallible
Purpose: Computations that answer or fail with an error: when a sequence of them answers, and what a
  fallible loop keeps; and computations with fuel, which may also not have come to their end.
Trusted boundary: none
Main exports: returns_bind, answers_foldlM, turns_of_answers_foldlM, returns_foldlM
-/
import Mathlib.Data.List.Perm.Basic

namespace OpenCargo.Lib

variable {ε α β σ : Type}

/-- A sequence answers when its first part does and the rest does after it. -/
theorem bind_eq_ok {x : Except ε α} {f : α → Except ε β} {r : β} :
    (x >>= f) = .ok r ↔ ∃ a, x = .ok a ∧ f a = .ok r := by
  cases x with
  | error e => simp [bind, Except.bind]
  | ok a => simp [bind, Except.bind]

theorem foldlM_cons_eq_ok {f : σ → α → Except ε σ} {s t : σ} {a : α} {as : List α} :
    (a :: as).foldlM f s = .ok t ↔ ∃ u, f s a = .ok u ∧ as.foldlM f u = .ok t := by
  rw [List.foldlM_cons, bind_eq_ok]

/-- A fallible pass over a list answers when it does at each element. -/
theorem mapM_eq_ok_iff {f : α → Except ε β} {as : List α} {bs : List β} :
    as.mapM f = .ok bs ↔ List.Forall₂ (fun a b => f a = .ok b) as bs := by
  induction as generalizing bs with
  | nil => simp [pure, Except.pure, eq_comm]
  | cons a as ih =>
      rw [List.mapM_cons, bind_eq_ok, List.forall₂_cons_left_iff]
      constructor
      · rintro ⟨b, first, rest⟩
        obtain ⟨bs', later, same⟩ := bind_eq_ok.mp rest
        cases same
        exact ⟨b, bs', first, ih.mp later, rfl⟩
      · rintro ⟨b, bs', first, rest, rfl⟩
        exact ⟨b, first, bind_eq_ok.mpr ⟨bs', ih.mpr rest, rfl⟩⟩

theorem mapM_eq_some_iff {f : α → Option β} {as : List α} {bs : List β} :
    as.mapM f = some bs ↔ List.Forall₂ (fun a b => f a = some b) as bs := by
  induction as generalizing bs with
  | nil => simp [eq_comm]
  | cons a as ih =>
      rw [List.mapM_cons, List.forall₂_cons_left_iff]
      constructor
      · intro done
        obtain ⟨b, first, rest⟩ := Option.bind_eq_some_iff.mp done
        obtain ⟨bs', later, same⟩ := Option.bind_eq_some_iff.mp rest
        cases same
        exact ⟨b, bs', first, ih.mp later, rfl⟩
      · rintro ⟨b, bs', first, rest, rfl⟩
        exact Option.bind_eq_some_iff.mpr ⟨b, first, Option.bind_eq_some_iff.mpr ⟨bs', ih.mpr rest, rfl⟩⟩

theorem mapM_answers_iff {f : α → Except ε β} {as : List α} :
    (∃ bs, as.mapM f = .ok bs) ↔ ∀ a ∈ as, ∃ b, f a = .ok b := by
  simp only [mapM_eq_ok_iff]
  induction as with
  | nil => simp
  | cons a as ih =>
      simp only [List.forall₂_cons_left_iff, List.forall_mem_cons, ← ih]
      constructor
      · rintro ⟨_, b, bs, first, rest, rfl⟩
        exact ⟨⟨b, first⟩, bs, rest⟩
      · rintro ⟨⟨b, first⟩, bs, rest⟩
        exact ⟨_, b, bs, first, rest, rfl⟩

theorem mem_mapM {f : α → Except ε β} {as : List α} {bs : List β} (done : as.mapM f = .ok bs) {b : β} :
    b ∈ bs ↔ ∃ a ∈ as, f a = .ok b := by
  rw [mapM_eq_ok_iff] at done
  induction done with
  | nil => simp
  | cons first _ ih => simp [ih, first, eq_comm]

/-- What an answer's item comes from. -/
theorem exists_of_mem_right {R : α → β → Prop} {as : List α} {bs : List β} (each : List.Forall₂ R as bs) {b : β}
    (mem : b ∈ bs) : ∃ a ∈ as, R a b := by
  induction each with
  | nil => cases mem
  | @cons a b' as bs first _ ih =>
      rcases List.mem_cons.mp mem with rfl | mem
      · exact ⟨a, List.mem_cons_self, first⟩
      · obtain ⟨a', listed, holds⟩ := ih mem
        exact ⟨a', List.mem_cons_of_mem _ listed, holds⟩

/-- Over the list in another order it answers the same, in another order. -/
theorem mapM_perm {f : α → Except ε β} {as as' : List α} {bs : List β} (same : as.Perm as')
    (done : as.mapM f = .ok bs) : ∃ bs', as'.mapM f = .ok bs' ∧ bs'.Perm bs := by
  rw [mapM_eq_ok_iff] at done
  obtain ⟨bs', each, other⟩ := List.perm_comp_forall₂ same.symm done
  exact ⟨bs', mapM_eq_ok_iff.mpr each, other⟩

theorem mapM_congr {f g : α → Except ε β} {as : List α} (same : ∀ a ∈ as, f a = g a) :
    as.mapM f = as.mapM g := by
  induction as with
  | nil => rfl
  | cons a as ih =>
      rw [List.mapM_cons, List.mapM_cons, same a List.mem_cons_self,
        ih fun b mem => same b (List.mem_cons_of_mem _ mem)]

/-- What each turn of a fallible loop keeps, the whole loop keeps. -/
theorem foldlM_keeps {f : σ → α → Except ε σ} (R : σ → σ → Prop) (refl : ∀ s, R s s)
    (trans : ∀ s t u, R s t → R t u → R s u) {as : List α}
    (turn : ∀ s t, ∀ a ∈ as, f s a = .ok t → R s t) {s t : σ} (done : as.foldlM f s = .ok t) :
    R s t := by
  induction as generalizing s with
  | nil =>
      cases done
      exact refl _
  | cons a as ih =>
      obtain ⟨u, first, rest⟩ := foldlM_cons_eq_ok.mp done
      have later : R u t := ih (fun s t b mem => turn s t b (List.mem_cons_of_mem _ mem)) rest
      exact trans s u t (turn s u a List.mem_cons_self first) later

/-! ### With fuel

A recursion over data that may come back to itself is given fuel; with too little it has no answer. -/

/-- A computation that answers or fails, or has not come to its end. -/
abbrev Fueled (ε α : Type) : Type := ExceptT ε Option α

namespace Fueled

def outOfFuel : Fueled ε α := ExceptT.mk none

/-- A computation that needs no fuel. -/
def of (x : Except ε α) : Fueled ε α := ExceptT.mk (some x)

def Answers (x : Fueled ε α) (a : α) : Prop := x.run = some (.ok a)

/-- It came to its end, be it with an error. -/
def Returns (x : Fueled ε α) : Prop := x.run.isSome = true

variable {x : Fueled ε α} {f : α → Fueled ε β} {a : α} {b : β}

@[simp] theorem answers_pure {a' : α} : Answers (pure a : Fueled ε α) a' ↔ a = a' := by
  simp [Answers, pure, ExceptT.pure, ExceptT.run, ExceptT.mk]

@[simp] theorem answers_of {x : Except ε α} : Answers (of x) a ↔ x = .ok a := by
  simp [Answers, of, ExceptT.run, ExceptT.mk]

@[simp] theorem not_answers_outOfFuel : ¬Answers (outOfFuel : Fueled ε α) a := by
  simp [Answers, outOfFuel, ExceptT.run, ExceptT.mk]

theorem answers_bind : Answers (x >>= f) b ↔ ∃ a, Answers x a ∧ Answers (f a) b := by
  rcases x with _ | _ | a
  · simp [Answers, bind, ExceptT.bind, ExceptT.run, ExceptT.mk]
  · simp [Answers, bind, ExceptT.bind, ExceptT.bindCont, ExceptT.run, ExceptT.mk, pure]
  · simp [Answers, bind, ExceptT.bind, ExceptT.bindCont, ExceptT.run, ExceptT.mk]

@[simp] theorem returns_pure : Returns (pure a : Fueled ε α) := rfl

@[simp] theorem returns_of {x : Except ε α} : Returns (of x) := rfl

/-- A sequence comes to its end when its first part does and the rest does after each answer. -/
theorem returns_bind (first : Returns x) (rest : ∀ a, Answers x a → Returns (f a)) :
    Returns (x >>= f) := by
  rcases x with _ | _ | a
  · cases first
  · rfl
  · exact rest a rfl

section Loop

variable {g : σ → α → Fueled ε σ} (I : σ → Prop) {as : List α} {s t : σ}

/-- What each turn of a loop keeps holds where the loop answers. -/
theorem answers_foldlM (turn : ∀ s t, ∀ a ∈ as, I s → Answers (g s a) t → I t) (start : I s)
    (done : Answers (as.foldlM g s) t) : I t := by
  induction as generalizing s with
  | nil =>
      cases answers_pure.mp done
      exact start
  | cons a as ih =>
      rw [List.foldlM_cons, answers_bind] at done
      obtain ⟨u, first, rest⟩ := done
      have next : I u := turn s u a List.mem_cons_self start first
      exact ih (fun s t b mem => turn s t b (List.mem_cons_of_mem _ mem)) next rest

/-- A loop that answers has answered at each turn. -/
theorem turns_of_answers_foldlM (done : Answers (as.foldlM g s) t) :
    ∀ a ∈ as, ∃ u v, Answers (g u a) v := by
  induction as generalizing s with
  | nil => simp
  | cons a as ih =>
      rw [List.foldlM_cons, answers_bind] at done
      obtain ⟨u, first, rest⟩ := done
      exact List.forall_mem_cons.mpr ⟨⟨s, u, first⟩, ih rest⟩

/-- A loop whose every turn returns returns. -/
theorem returns_foldlM (returns : ∀ s, ∀ a ∈ as, I s → Returns (g s a))
    (turn : ∀ s t, ∀ a ∈ as, I s → Answers (g s a) t → I t) (start : I s) :
    Returns (as.foldlM g s) := by
  induction as generalizing s with
  | nil => exact returns_pure
  | cons a as ih =>
      rw [List.foldlM_cons]
      refine returns_bind (returns s a List.mem_cons_self start) fun u first => ?_
      exact ih (fun s b mem => returns s b (List.mem_cons_of_mem _ mem))
        (fun s t b mem => turn s t b (List.mem_cons_of_mem _ mem))
        (turn s u a List.mem_cons_self start first)

end Loop

end Fueled

end OpenCargo.Lib
