/-
Module: OpenCargo.Lib.Script
Purpose: Concurrent calls over a shared state. A script is a sequential program as the operations it
  asks for, one after the other; a pool runs any number of scripts, one operation of one of them at a
  time; and a call is proved alone, against what every step of the others may do to the state.
Trusted boundary: none
Main exports: Pool.Kept.step, Pool.Kept.relied, Pool.Asked, Pool.Asked.answer
-/
import OpenCargo.Lib.Run

namespace OpenCargo.Lib

/-- A script over operations `O`, the operation `o` being answered by an `A o`: it has ended with an
`α`, or it asks for one operation and goes on from the answer. -/
inductive Script (O : Type) (A : O → Type) (α : Type) where
  | done (a : α)
  | call (o : O) (next : A o → Script O A α)

namespace Script

variable {O : Type} {A : O → Type} {α β : Type}

protected def bind : Script O A α → (α → Script O A β) → Script O A β
  | .done a, f => f a
  | .call o next, f => .call o fun answer => (next answer).bind f

instance : Monad (Script O A) where
  pure := .done
  bind := Script.bind

/-- One operation. -/
def ask (o : O) : Script O A (A o) := .call o .done

theorem bind_eq (m : Script O A α) (f : α → Script O A β) : m >>= f = m.bind f := rfl

section Alone

variable {σ C : Type} (perform : σ → (o : O) → C → Option (A o × σ)) (c : C)

/-- What a script does that no other interrupts, every choice made alike. -/
def alone : Script O A α → σ → Option (α × σ)
  | .done a, s => some (a, s)
  | .call o next, s => (perform s o c).bind fun done => alone (next done.1) done.2

theorem alone_bind (m : Script O A α) (f : α → Script O A β) (s : σ) :
    (m >>= f).alone perform c s = (m.alone perform c s).bind fun done =>
      (f done.1).alone perform c done.2 := by
  rw [bind_eq]
  induction m generalizing s with
  | done a => rfl
  | call o next ih =>
      simp only [Script.bind, alone, Option.bind_assoc]
      exact congrArg _ (funext fun done => ih done.1 done.2)

end Alone

/-- As long as the answers it is given are valid, the script asks for operations in `P` only. -/
def Asks (P : O → Prop) (valid : (o : O) → A o → Prop) : Script O A α → Prop
  | .done _ => True
  | .call o next => P o ∧ ∀ answer, valid o answer → (next answer).Asks P valid

section Asks

variable {P : O → Prop} {valid : (o : O) → A o → Prop}

/-- One operation, and what is asked after its answer. -/
theorem Asks.ask_bind {o : O} {f : A o → Script O A β} (here : P o)
    (rest : ∀ answer, valid o answer → Asks P valid (f answer)) :
    Asks P valid (ask o >>= f) := ⟨here, rest⟩

theorem Asks.bind {m : Script O A α} {f : α → Script O A β} (first : Asks P valid m)
    (rest : ∀ a, Asks P valid (f a)) : Asks P valid (m >>= f) := by
  rw [bind_eq]
  induction m with
  | done a => exact rest a
  | call o next ih => exact ⟨first.1, fun answer ok => ih answer (first.2 answer ok)⟩

end Asks

/-- As long as the answers it is given are valid, the script asks for operations in `P` only, and ends
with a `Q`. -/
def Ends (P : O → Prop) (valid : (o : O) → A o → Prop) (Q : α → Prop) : Script O A α → Prop
  | .done a => Q a
  | .call o next => P o ∧ ∀ answer, valid o answer → (next answer).Ends P valid Q

section Ends

variable {P : O → Prop} {valid valid' : (o : O) → A o → Prop} {Q : α → Prop} {R : β → Prop}
  {m : Script O A α} {f : α → Script O A β}

theorem Ends.pure {a : α} (ends : Q a) : Ends P valid Q (Pure.pure a : Script O A α) := ends

theorem Ends.ask_bind {o : O} {f : A o → Script O A β} (here : P o)
    (rest : ∀ answer, valid o answer → Ends P valid R (f answer)) :
    Ends P valid R (ask o >>= f) := ⟨here, rest⟩

theorem Ends.bind (first : Ends P valid Q m) (rest : ∀ a, Q a → Ends P valid R (f a)) :
    Ends P valid R (m >>= f) := by
  rw [bind_eq]
  induction m with
  | done a => exact rest a first
  | call o next ih => exact ⟨first.1, fun answer ok => ih answer (first.2 answer ok)⟩

theorem Ends.weaken {Q' : α → Prop} (ends : Ends P valid Q m) (fewer : ∀ o a, valid' o a → valid o a)
    (post : ∀ a, Q a → Q' a) : Ends P valid' Q' m := by
  induction m with
  | done a => exact post a ends
  | call o next ih => exact ⟨ends.1, fun answer ok => ih answer (ends.2 answer (fewer o answer ok))⟩

theorem Ends.asking {P' : O → Prop} (ends : Ends P valid Q m) (more : ∀ o, P o → P' o) : Ends P' valid Q m := by
  induction m with
  | done a => exact ends
  | call o next ih => exact ⟨more o ends.1, fun answer ok => ih answer (ends.2 answer ok)⟩

theorem Ends.and {Q' : α → Prop} (ends : Ends P valid Q m) (also : Ends P valid Q' m) :
    Ends P valid (fun a => Q a ∧ Q' a) m := by
  induction m with
  | done a => exact ⟨ends, also⟩
  | call o next ih => exact ⟨ends.1, fun answer ok => ih answer (ends.2 answer ok) (also.2 answer ok)⟩

/-- What a script ends with when nothing interrupts it, and what its operations keep. -/
theorem Ends.alone {σ C : Type} {perform : σ → (o : O) → C → Option (A o × σ)} {c : C} {I : σ → Prop}
    {a : α} {s t : σ} (ends : Ends P valid Q m)
    (keeps : ∀ s o answer t, I s → P o → perform s o c = some (answer, t) → valid o answer ∧ I t)
    (inv : I s) (ran : m.alone perform c s = some (a, t)) : Q a ∧ I t := by
  induction m generalizing s with
  | done b =>
      cases ran
      exact ⟨ends, inv⟩
  | call o next ih =>
      rw [Script.alone, Option.bind_eq_some_iff] at ran
      obtain ⟨⟨answer, u⟩, performed, rest⟩ := ran
      obtain ⟨ok, later⟩ := keeps s o answer u inv ends.1 performed
      exact ih answer (ends.2 answer ok) later rest

end Ends

/-! ### A script that nothing interrupts -/

section Leads

variable {σ C : Type} (perform : σ → (o : O) → C → Option (A o × σ)) (c : C)

/-- From a `P` the script, every choice made by `c`, leads to a `Q`. -/
def Leads (P : σ → Prop) (Q : α → σ → Prop) (m : Script O A α) : Prop :=
  ∀ s a t, P s → m.alone perform c s = some (a, t) → Q a t

variable {perform : σ → (o : O) → C → Option (A o × σ)} {c : C} {P P' : σ → Prop} {Q Q' : α → σ → Prop}
  {R : β → σ → Prop} {m : Script O A α} {f : α → Script O A β}

theorem Leads.pure {a : α} (post : ∀ s, P s → Q a s) : Leads perform c P Q (Pure.pure a : Script O A α) := by
  intro s b t holds ran
  cases ran
  exact post s holds

theorem Leads.bind (first : Leads perform c P Q m) (rest : ∀ a, Leads perform c (Q a) R (f a)) :
    Leads perform c P R (m >>= f) := by
  intro s b t holds ran
  rw [alone_bind, Option.bind_eq_some_iff] at ran
  obtain ⟨⟨a, u⟩, one, two⟩ := ran
  exact rest a u b t (first s a u holds one) two

theorem Leads.weaken (leads : Leads perform c P Q m) (pre : ∀ s, P' s → P s) (post : ∀ a s, Q a s → Q' a s) :
    Leads perform c P' Q' m :=
  fun s a t holds ran => post a t (leads s a t (pre s holds) ran)

theorem Leads.assuming {p : Prop} (leads : p → Leads perform c P Q m) :
    Leads perform c (fun s => p ∧ P s) Q m :=
  fun s a t holds ran => leads holds.1 s a t holds.2 ran

theorem Leads.ask {o : O} {Q : A o → σ → Prop}
    (performs : ∀ s answer t, P s → perform s o c = some (answer, t) → Q answer t) :
    Leads perform c P Q (ask o : Script O A (A o)) := by
  intro s a t holds ran
  rw [Script.ask, alone, Option.bind_eq_some_iff] at ran
  obtain ⟨⟨answer, u⟩, performed, done⟩ := ran
  cases done
  exact performs s answer u holds performed

theorem Leads.of_ends {valid : (o : O) → A o → Prop} {ops : O → Prop} {post : α → Prop} {I : σ → Prop}
    (ends : Ends ops valid post m)
    (keeps : ∀ s o answer t, I s → ops o → perform s o c = some (answer, t) → valid o answer ∧ I t) :
    Leads perform c I (fun a t => post a ∧ I t) m :=
  fun _ _ _ inv ran => ends.alone keeps inv ran

/-- Where every operation is answered, the script ends. -/
theorem alone_isSome (answers : ∀ s o, ∃ done, perform s o c = some done) (s : σ) :
    ∃ done, m.alone perform c s = some done := by
  induction m generalizing s with
  | done a => exact ⟨_, rfl⟩
  | call o next ih =>
      obtain ⟨⟨answer, t⟩, performed⟩ := answers s o
      obtain ⟨done, ran⟩ := ih answer t
      exact ⟨done, by rw [alone, performed, Option.bind_some, ran]⟩

end Leads

end Script

/-- What calls that share a state promise each other: an invariant, and what any step of any of them
may do to a state in which it holds. -/
structure Pact (σ : Type) where
  inv : σ → Prop
  rely : σ → σ → Prop
  keeps : ∀ s t, inv s → rely s t → inv t

/-- An assertion no step of the others takes away. -/
def Pact.Stable {σ : Type} (pact : Pact σ) (P : σ → Prop) : Prop :=
  ∀ s t, pact.inv s → pact.rely s t → P s → P t

section Rules

variable {O : Type} {A : O → Type} {α β σ C : Type}

/-- From `P` on, whatever the others do, each operation of the script does to the state what `G` allows,
and the script ends with `Q`. `perform` answers an operation; what it does not decide is a choice
`c : C`. -/
def Meets (perform : σ → (o : O) → C → Option (A o × σ)) (pact : Pact σ) (G : σ → σ → Prop)
    (Q : α → σ → Prop) : Script O A α → (σ → Prop) → Prop
  | .done a, P => ∀ s, pact.inv s → P s → Q a s
  | .call o next, P =>
      ∀ s c answer t, pact.inv s → P s → perform s o c = some (answer, t) →
        G s t ∧ ∃ P', pact.Stable P' ∧ P' t ∧ Meets perform pact G Q (next answer) P'

variable {perform : σ → (o : O) → C → Option (A o × σ)} {pact : Pact σ} {G : σ → σ → Prop}
  {P P' : σ → Prop} {Q : α → σ → Prop} {R : β → σ → Prop}

namespace Meets

theorem weaken {m : Script O A α} (meets : Meets perform pact G Q m P)
    (pre : ∀ s, pact.inv s → P' s → P s) : Meets perform pact G Q m P' := by
  cases m with
  | done a => exact fun s inv holds => meets s inv (pre s inv holds)
  | call o next => exact fun s c answer t inv holds => meets s c answer t inv (pre s inv holds)

theorem pure {a : α} (post : ∀ s, pact.inv s → P s → Q a s) :
    Meets perform pact G Q (Pure.pure a : Script O A α) P := post

/-- One operation: what it does, and what is known once it is answered. -/
theorem ask {o : O} {Q : A o → σ → Prop} (stable : ∀ answer, pact.Stable (Q answer))
    (performs : ∀ s c answer t, pact.inv s → P s → perform s o c = some (answer, t) →
      G s t ∧ Q answer t) :
    Meets perform pact G Q (Script.ask o) P := by
  intro s c answer t inv holds performed
  have ⟨does, known⟩ := performs s c answer t inv holds performed
  exact ⟨does, Q answer, stable answer, known, fun _ _ post => post⟩

theorem bind {m : Script O A α} {f : α → Script O A β} (first : Meets perform pact G Q m P)
    (rest : ∀ a, Meets perform pact G R (f a) (Q a)) : Meets perform pact G R (m >>= f) P := by
  rw [Script.bind_eq]
  induction m generalizing P with
  | done a => exact (rest a).weaken first
  | call o next ih =>
      intro s c answer t inv holds performed
      have ⟨does, P', stable, known, later⟩ := first s c answer t inv holds performed
      exact ⟨does, P', stable, known, ih answer later⟩

end Meets

end Rules

/-- Any number of calls over a shared state, each with the request it serves. -/
structure Pool (ρ σ O : Type) (A : O → Type) (α : Type) where
  state : σ
  calls : List (ρ × Script O A α)

namespace Pool

variable {ρ σ O C α : Type} {A : O → Type}

/-- A request comes in, or the operation that call `i` waits for is answered. -/
inductive Act (ρ C : Type) where
  | start (r : ρ)
  | answer (i : Nat) (c : C)
deriving Repr, DecidableEq

section Step

variable (perform : σ → (o : O) → C → Option (A o × σ)) (program : ρ → Script O A α)

/-- A call that has ended has nothing to be answered. -/
def step (pool : Pool ρ σ O A α) : Act ρ C → Option (Pool ρ σ O A α)
  | .start r => some { pool with calls := pool.calls ++ [(r, program r)] }
  | .answer i c =>
      match pool.calls[i]? with
      | some (r, .call o next) =>
          (perform pool.state o c).map fun done =>
            { state := done.2, calls := pool.calls.set i (r, next done.1) }
      | _ => none

end Step

/-- What a step did to the state: nothing when a request comes in, and otherwise something the call it
was a step of may do. -/
def Did (G : ρ → σ → σ → Prop) (u : Pool ρ σ O A α) (act : Act ρ C) (v : Pool ρ σ O A α) : Prop :=
  match act with
  | .start _ => v.state = u.state
  | .answer i _ => ∃ r m, u.calls[i]? = some (r, m) ∧ G r u.state v.state

/-- The invariant holds, and each call in flight knows something of the state from which what is left
of it does what its request may do. -/
structure Kept (perform : σ → (o : O) → C → Option (A o × σ)) (pact : Pact σ)
    (G : ρ → σ → σ → Prop) (pool : Pool ρ σ O A α) : Prop where
  inv : pact.inv pool.state
  calls : ∀ call ∈ pool.calls, ∃ P, pact.Stable P ∧ P pool.state ∧
    Meets perform pact (G call.1) (fun _ _ => True) call.2 P

variable {perform : σ → (o : O) → C → Option (A o × σ)} {program : ρ → Script O A α}
  {pact : Pact σ} {G : ρ → σ → σ → Prop}

/-- The rule of the pool: when every step a request may take is one the others reckon with, and every
program does what its request may, then so does each step of the pool. -/
theorem Kept.step (within : ∀ r s t, pact.inv s → G r s t → pact.rely s t)
    (meets : ∀ r, Meets perform pact (G r) (fun _ _ => True) (program r) fun _ => True)
    {u v : Pool ρ σ O A α} {act : Act ρ C} (kept : Kept perform pact G u)
    (taken : u.step perform program act = some v) : Kept perform pact G v ∧ Did G u act v := by
  cases act with
  | start r =>
      cases taken
      have calls : ∀ call ∈ u.calls ++ [(r, program r)], ∃ P, pact.Stable P ∧ P u.state ∧
          Meets perform pact (G call.1) (fun _ _ => True) call.2 P := by
        intro call mem
        rcases List.mem_append.mp mem with old | new
        · exact kept.calls call old
        · cases List.mem_singleton.mp new
          exact ⟨fun _ => True, fun _ _ _ _ _ => trivial, trivial, meets r⟩
      exact ⟨⟨kept.inv, calls⟩, rfl⟩
  | answer i c =>
      cases found : u.calls[i]? with
      | none => simp [Pool.step, found] at taken
      | some call =>
          cases call with
          | mk r m =>
              cases m with
              | done a => simp [Pool.step, found] at taken
              | call o next =>
                  simp only [Pool.step, found, Option.map_eq_some_iff] at taken
                  obtain ⟨⟨answer, t⟩, performed, rfl⟩ := taken
                  have ⟨P, _, holds, goes⟩ := kept.calls _ (List.mem_of_getElem? found)
                  have ⟨does, P', stable, known, later⟩ :=
                    goes u.state c answer t kept.inv holds performed
                  have relied := within r u.state t kept.inv does
                  refine ⟨⟨pact.keeps _ _ kept.inv relied, ?_⟩, r, _, found, does⟩
                  intro other mem
                  rcases List.mem_or_eq_of_mem_set mem with old | rfl
                  · -- another call: what it knows survives this step
                    have ⟨P₂, stable₂, holds₂, goes₂⟩ := kept.calls other old
                    exact ⟨P₂, stable₂, stable₂ _ _ kept.inv relied holds₂, goes₂⟩
                  · exact ⟨P', stable, known, later⟩

/-- A step from outside, one the calls reckon with. -/
theorem Kept.relied {u : Pool ρ σ O A α} {t : σ} (kept : Kept perform pact G u)
    (relied : pact.rely u.state t) : Kept perform pact G { u with state := t } where
  inv := pact.keeps _ _ kept.inv relied
  calls call mem := by
    have ⟨P, stable, holds, goes⟩ := kept.calls call mem
    exact ⟨P, stable, stable _ _ kept.inv relied holds, goes⟩

/-- An answer leaves every call with its request. -/
theorem requests_answer {u v : Pool ρ σ O A α} {i : Nat} {c : C}
    (taken : u.step perform program (.answer i c) = some v) :
    ∀ call ∈ v.calls, ∃ m, (call.1, m) ∈ u.calls := by
  cases found : u.calls[i]? with
  | none => simp [Pool.step, found] at taken
  | some call =>
      obtain ⟨r, m⟩ := call
      cases m with
      | done a => simp [Pool.step, found] at taken
      | call o next =>
          simp only [Pool.step, found, Option.map_eq_some_iff] at taken
          obtain ⟨⟨answer, t⟩, -, rfl⟩ := taken
          intro other mem
          rcases List.mem_or_eq_of_mem_set mem with old | rfl
          · exact ⟨other.2, old⟩
          · exact ⟨_, List.mem_of_getElem? found⟩

section Asked

variable {P : ρ → O → Prop} {valid : ρ → (o : O) → A o → Prop}

/-- Each call in flight asks for what its request may. -/
def Asked (P : ρ → O → Prop) (valid : ρ → (o : O) → A o → Prop) (pool : Pool ρ σ O A α) : Prop :=
  ∀ call ∈ pool.calls, call.2.Asks (P call.1) (valid call.1)

/-- What an answer came from: an operation that the call's request may ask for. -/
def Performed (perform : σ → (o : O) → C → Option (A o × σ)) (P : ρ → O → Prop)
    (u : Pool ρ σ O A α) (i : Nat) (c : C) (t : σ) : Prop :=
  ∃ r o next answer, u.calls[i]? = some (r, .call o next) ∧ P r o ∧
    perform u.state o c = some (answer, t)

theorem Asked.start {u v : Pool ρ σ O A α} {r : ρ} (asked : Asked P valid u)
    (begins : (program r).Asks (P r) (valid r))
    (taken : u.step perform program (.start r : Act ρ C) = some v) : Asked P valid v := by
  cases taken
  intro call mem
  rcases List.mem_append.mp mem with old | new
  · exact asked call old
  · cases List.mem_singleton.mp new
    exact begins

theorem Asked.answer {u v : Pool ρ σ O A α} {i : Nat} {c : C} (asked : Asked P valid u)
    (valid_ : ∀ r o next answer t, u.calls[i]? = some (r, .call o next) →
      perform u.state o c = some (answer, t) → valid r o answer)
    (taken : u.step perform program (.answer i c) = some v) :
    Asked P valid v ∧ Performed perform P u i c v.state := by
  cases found : u.calls[i]? with
  | none => simp [Pool.step, found] at taken
  | some call =>
      obtain ⟨r, m⟩ := call
      cases m with
      | done a => simp [Pool.step, found] at taken
      | call o next =>
          simp only [Pool.step, found, Option.map_eq_some_iff] at taken
          obtain ⟨⟨answer, t⟩, performed, rfl⟩ := taken
          obtain ⟨here, rest⟩ := asked _ (List.mem_of_getElem? found)
          refine ⟨fun other mem => ?_, r, o, next, answer, found, here, performed⟩
          rcases List.mem_or_eq_of_mem_set mem with old | rfl
          · exact asked other old
          · exact rest answer (valid_ r o next answer t found performed)

end Asked

end Pool

end OpenCargo.Lib
