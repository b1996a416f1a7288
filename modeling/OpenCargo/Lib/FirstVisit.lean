/-
Module: OpenCargo.Lib.FirstVisit
Purpose: A walk down nodes that list others, which goes on below a node the first time it meets it and
  counts nothing the next time, and measures how deep it went. What it measures is the longest of the
  stacks that nothing shadows: no node listed before the next of the stack comes to that one or to one
  further down.
Trusted boundary: none
Main exports: Unshadowed, Unshadowed.stack, Acyclic.of_rank, Visits.longest
-/
import OpenCargo.Lib.Nesting

namespace OpenCargo.Lib

variable {α : Type*} {kids : α → Option (List α)} {a b : α} {seen seen' todo chain : List α}
  {n : Nat}

/-- A rank that falls from a node to the nodes it lists rules cycles out. -/
theorem Acyclic.of_rank (rank : α → Nat) (falls : ∀ a b, Lists kids a b → rank b < rank a) : Acyclic kids := by
  have below : ∀ a b, Relation.TransGen (Lists kids) a b → rank b < rank a := by
    intro a b way
    induction way with
    | single link => exact falls _ _ link
    | tail _ link ih => exact (falls _ _ link).trans ih
  exact fun a round => (below a a round).false

/-- `b` is `a` or below it. -/
abbrev Reaches (kids : α → Option (List α)) (a b : α) : Prop := Relation.ReflTransGen (Lists kids) a b

/-- Walking what is to do, with what has been seen before and after: how many nodes with lists it went down. -/
inductive Visits (kids : α → Option (List α)) : List α → List α → Nat → List α → Prop where
  | nil {seen : List α} : Visits kids seen [] 0 seen
  | old {seen seen' todo : List α} {a : α} {n : Nat} (met : a ∈ seen) (rest : Visits kids seen todo n seen') :
      Visits kids seen (a :: todo) n seen'
  | leaf {seen seen' todo : List α} {a : α} {n : Nat} (fresh : a ∉ seen) (none_ : kids a = none)
      (rest : Visits kids (a :: seen) todo n seen') : Visits kids seen (a :: todo) n seen'
  | node {seen seen₁ seen' todo listed : List α} {a : α} {below n : Nat} (fresh : a ∉ seen)
      (lists : kids a = some listed) (down : Visits kids (a :: seen) listed below seen₁)
      (rest : Visits kids seen₁ todo n seen') : Visits kids seen (a :: todo) (max (below + 1) n) seen'

theorem Visits.grows (visits : Visits kids seen todo n seen') : seen ⊆ seen' := by
  induction visits with
  | nil => exact List.Subset.refl _
  | old _ _ ih => exact ih
  | leaf _ _ _ ih => exact List.Subset.trans (List.subset_cons_self ..) ih
  | node _ _ _ _ down rest => exact List.Subset.trans (List.subset_cons_self ..) (List.Subset.trans down rest)

/-- A walk of one node, and of more after it. -/
theorem Visits.append {seen₁ : List α} {below : Nat} (first : Visits kids seen [a] below seen₁)
    (rest : Visits kids seen₁ todo n seen') : Visits kids seen (a :: todo) (max below n) seen' := by
  cases first with
  | old met done =>
      cases done
      rw [Nat.zero_max]
      exact .old met rest
  | leaf fresh none_ done =>
      cases done
      rw [Nat.zero_max]
      exact .leaf fresh none_ rest
  | node fresh lists down done =>
      cases done
      rw [Nat.max_zero]
      exact .node fresh lists down rest

/-! ### What a walk has seen -/

/-- Whatever was seen, and can be met again, was seen with all below it. -/
def Settled (kids : α → Option (List α)) (seen todo : List α) : Prop :=
  ∀ v ∈ seen, (∃ a ∈ todo, Reaches kids a v) → ∀ w, Reaches kids v w → w ∈ seen

theorem Settled.tail (settled : Settled kids seen (a :: todo)) : Settled kids seen todo :=
  fun v met ⟨b, mem, way⟩ => settled v met ⟨b, List.mem_cons_of_mem _ mem, way⟩

theorem reaches_of_leaf (none_ : kids a = none) (way : Reaches kids a b) : b = a := by
  rcases way.cases_head with rfl | ⟨c, ⟨listed, lists, -⟩, -⟩
  · rfl
  · rw [none_] at lists
    cases lists

theorem reaches_cons_iff {listed : List α} (lists : kids a = some listed) :
    Reaches kids a b ↔ b = a ∨ ∃ m ∈ listed, Reaches kids m b := by
  constructor
  · intro way
    rcases way.cases_head with rfl | ⟨m, ⟨listed', lists', mem⟩, rest⟩
    · exact .inl rfl
    · rw [lists] at lists'
      cases lists'
      exact .inr ⟨m, mem, rest⟩
  · rintro (rfl | ⟨m, mem, rest⟩)
    · exact .refl
    · exact .head ⟨listed, lists, mem⟩ rest

theorem Settled.leaf (settled : Settled kids seen (a :: todo)) (none_ : kids a = none) :
    Settled kids (a :: seen) todo := by
  intro v met again w way
  rcases List.mem_cons.mp met with rfl | met
  · exact reaches_of_leaf none_ way ▸ List.mem_cons_self
  · exact List.mem_cons_of_mem _ (settled.tail v met again w way)

/-- Nothing a node lists comes back to it. -/
theorem Settled.down (acyclic : Acyclic kids) {listed : List α} (settled : Settled kids seen (a :: todo))
    (lists : kids a = some listed) : Settled kids (a :: seen) listed := by
  rintro v met ⟨m, mem, again⟩ w way
  rcases List.mem_cons.mp met with rfl | met
  · exact absurd (Relation.TransGen.head' ⟨listed, lists, mem⟩ again) (acyclic v)
  · exact List.mem_cons_of_mem _
      (settled v met ⟨a, List.mem_cons_self, .head ⟨listed, lists, mem⟩ again⟩ w way)

/-- With what is below a node it goes on from what is settled. -/
theorem Settled.rest {seen₁ : List α} (settled : Settled kids seen (a :: todo))
    (first : ∀ b, b ∈ seen₁ ↔ b ∈ seen ∨ Reaches kids a b) : Settled kids seen₁ todo := by
  intro v met again w way
  rcases (first v).mp met with old | new
  · exact (first w).mpr (.inl (settled.tail v old again w way))
  · exact (first w).mpr (.inr (new.trans way))

/-- What a walk adds to what was seen is what it can reach, and all below that. -/
theorem Visits.mem_iff (acyclic : Acyclic kids) (visits : Visits kids seen todo n seen')
    (settled : Settled kids seen todo) : b ∈ seen' ↔ b ∈ seen ∨ ∃ a ∈ todo, Reaches kids a b := by
  induction visits generalizing b with
  | nil => simp
  | @old seen seen' todo a n met rest ih =>
      rw [ih settled.tail, List.exists_mem_cons_iff, ← or_assoc]
      refine or_congr_left ?_
      constructor
      · exact .inl
      · rintro (old | way)
        · exact old
        · exact settled a met ⟨a, List.mem_cons_self, .refl⟩ b way
  | @leaf seen seen' todo a n fresh none_ rest ih =>
      rw [ih (settled.leaf none_), List.exists_mem_cons_iff, ← or_assoc]
      refine or_congr_left ?_
      rw [List.mem_cons, or_comm]
      refine or_congr_right ?_
      constructor
      · rintro rfl
        exact .refl
      · exact reaches_of_leaf none_
  | @node seen seen₁ seen' todo listed a below n fresh lists down rest ihDown ihRest =>
      have first : ∀ b, b ∈ seen₁ ↔ b ∈ seen ∨ Reaches kids a b := by
        intro b
        rw [ihDown (settled.down acyclic lists), reaches_cons_iff lists, List.mem_cons, or_left_comm, or_assoc]
      rw [ihRest (settled.rest first), first, List.exists_mem_cons_iff, or_assoc]

theorem Settled.mem_down (acyclic : Acyclic kids) {listed seen₁ : List α} (settled : Settled kids seen (a :: todo))
    (lists : kids a = some listed) (down : Visits kids (a :: seen) listed n seen₁) (b : α) :
    b ∈ seen₁ ↔ b ∈ seen ∨ Reaches kids a b := by
  rw [down.mem_iff acyclic (settled.down acyclic lists), reaches_cons_iff lists, List.mem_cons, or_left_comm,
    or_assoc]

/-! ### What a walk measures -/

/-- A stack from what is to do, each of it met first where the stack goes to it. -/
inductive Unshadowed (kids : α → Option (List α)) : List α → List α → Prop where
  | nil {todo : List α} : Unshadowed kids todo []
  | cons {before after listed rest : List α} {a : α} (lists : kids a = some listed)
      (below : Unshadowed kids listed rest) (clear : ∀ m ∈ before, ∀ x ∈ a :: rest, ¬Reaches kids m x) :
      Unshadowed kids (before ++ a :: after) (a :: rest)

/-- The stack goes to the first, or past it. -/
theorem unshadowed_cons_iff : Unshadowed kids (a :: todo) chain ↔
    (∃ listed rest, kids a = some listed ∧ Unshadowed kids listed rest ∧ chain = a :: rest) ∨
      (Unshadowed kids todo chain ∧ ∀ x ∈ chain, ¬Reaches kids a x) := by
  constructor
  · intro open_
    generalize whole : a :: todo = all at open_
    cases open_ with
    | nil => exact .inr ⟨.nil, by simp⟩
    | @cons before after listed rest g lists below clear =>
        cases before with
        | nil =>
            cases whole
            exact .inl ⟨listed, rest, lists, below, rfl⟩
        | cons m before =>
            cases whole
            exact .inr ⟨.cons lists below fun m mem => clear m (List.mem_cons_of_mem _ mem),
              clear a List.mem_cons_self⟩
  · rintro (⟨listed, rest, lists, below, rfl⟩ | ⟨open_, clear⟩)
    · have first : Unshadowed kids ([] ++ a :: todo) (a :: rest) := .cons lists below (by simp)
      exact first
    · cases open_ with
      | nil => exact .nil
      | @cons before after listed rest g lists below clear' =>
          have past : Unshadowed kids (a :: before ++ g :: after) (g :: rest) :=
            .cons lists below (List.forall_mem_cons.mpr ⟨clear, clear'⟩)
          exact past

/-- An unshadowed stack is a stack. -/
theorem Unshadowed.stack (open_ : Unshadowed kids todo chain) :
    Stack kids chain ∧ ∀ a ∈ chain.head?, a ∈ todo := by
  induction open_ with
  | nil => exact ⟨⟨.nil, by simp⟩, by simp⟩
  | @cons before after listed rest a lists below clear ih =>
      obtain ⟨stack, first⟩ := ih
      refine ⟨⟨List.isChain_cons.mpr ⟨?_, stack.listed⟩, ?_⟩, by simp⟩
      · exact fun b isHead => ⟨listed, lists, first b isHead⟩
      · exact List.forall_mem_cons.mpr ⟨by rw [lists]; rfl, stack.nodes⟩

/-- What is listed further down a stack is below what it starts with. -/
theorem Stack.reaches (stack : Stack kids (a :: chain)) : ∀ x ∈ chain, Relation.TransGen (Lists kids) a x := by
  induction chain generalizing a with
  | nil => simp
  | cons b chain ih =>
      obtain ⟨first, rest⟩ := List.isChain_cons_cons.mp stack.listed
      have lower := ih ⟨rest, fun c mem => stack.nodes c (List.mem_cons_of_mem _ mem)⟩
      exact List.forall_mem_cons.mpr ⟨.single first, fun x mem => .head first (lower x mem)⟩

/-- The measure of a walk is the length of the longest unshadowed stack over what was not seen. -/
theorem Visits.longest (acyclic : Acyclic kids) (visits : Visits kids seen todo n seen')
    (settled : Settled kids seen todo) :
    (∀ chain, Unshadowed kids todo chain → (∀ x ∈ chain, x ∉ seen) → chain.length ≤ n) ∧
      ∃ chain, Unshadowed kids todo chain ∧ (∀ x ∈ chain, x ∉ seen) ∧ chain.length = n := by
  induction visits with
  | nil =>
      refine ⟨fun chain open_ _ => ?_, [], .nil, by simp, rfl⟩
      obtain ⟨-, first⟩ := open_.stack
      cases chain with
      | nil => exact Nat.le_refl _
      | cons a chain => exact absurd (first a rfl) List.not_mem_nil
  | @old seen seen' todo a n met rest ih =>
      obtain ⟨upper, chain, open_, fresh, long⟩ := ih settled.tail
      constructor
      · intro chain open_ fresh
        rcases unshadowed_cons_iff.mp open_ with ⟨listed, rest, lists, below, rfl⟩ | ⟨open_, clear⟩
        · exact absurd met (fresh a List.mem_cons_self)
        · exact upper chain open_ fresh
      · -- what was met has been settled, so nothing fresh is below it
        refine ⟨chain, unshadowed_cons_iff.mpr (.inr ⟨open_, fun x mem way => ?_⟩), fresh, long⟩
        exact fresh x mem (settled a met ⟨a, List.mem_cons_self, .refl⟩ x way)
  | @leaf seen seen' todo a n new none_ rest ih =>
      obtain ⟨upper, chain, open_, fresh, long⟩ := ih (settled.leaf none_)
      constructor
      · intro chain open_ fresh
        rcases unshadowed_cons_iff.mp open_ with ⟨listed, rest, lists, below, rfl⟩ | ⟨open_, clear⟩
        · rw [none_] at lists
          cases lists
        · refine upper chain open_ fun x mem met => ?_
          rcases List.mem_cons.mp met with rfl | met
          · exact clear x mem .refl
          · exact fresh x mem met
      · refine ⟨chain, unshadowed_cons_iff.mpr (.inr ⟨open_, fun x mem way => ?_⟩), ?_, long⟩
        · exact fresh x mem (reaches_of_leaf none_ way ▸ List.mem_cons_self)
        · exact fun x mem met => fresh x mem (List.mem_cons_of_mem _ met)
  | @node seen seen₁ seen' todo listed a below n new lists down rest ihDown ihRest =>
      have settledDown := settled.down acyclic lists
      have first : ∀ b, b ∈ seen₁ ↔ b ∈ seen ∨ Reaches kids a b := settled.mem_down acyclic lists down
      obtain ⟨upperDown, chainDown, openDown, freshDown, longDown⟩ := ihDown settledDown
      obtain ⟨upperRest, chainRest, openRest, freshRest, longRest⟩ := ihRest (settled.rest first)
      constructor
      · intro chain open_ fresh
        rcases unshadowed_cons_iff.mp open_ with ⟨listed', rest', lists', under, rfl⟩ | ⟨open_, clear⟩
        · cases lists.symm.trans lists'
          have lower : ∀ x ∈ rest', x ∉ a :: seen := by
            intro x mem met
            rcases List.mem_cons.mp met with rfl | met
            · exact acyclic x (open_.stack.1.reaches x mem)
            · exact fresh x (List.mem_cons_of_mem _ mem) met
          have short := upperDown rest' under lower
          rw [List.length_cons]
          omega
        · have short := upperRest chain open_ fun x mem met =>
            ((first x).mp met).elim (fresh x mem) (clear x mem)
          omega
      · rcases Nat.le_total (below + 1) n with less | more
        · rw [Nat.max_eq_right less]
          refine ⟨chainRest, unshadowed_cons_iff.mpr (.inr ⟨openRest, fun x mem way => ?_⟩), ?_, longRest⟩
          · exact freshRest x mem ((first x).mpr (.inr way))
          · exact fun x mem met => freshRest x mem ((first x).mpr (.inl met))
        · rw [Nat.max_eq_left more]
          refine ⟨a :: chainDown, unshadowed_cons_iff.mpr (.inl ⟨listed, chainDown, lists, openDown, rfl⟩), ?_, ?_⟩
          · exact List.forall_mem_cons.mpr ⟨new, fun x mem met => freshDown x mem (List.mem_cons_of_mem _ met)⟩
          · rw [List.length_cons, longDown]

end OpenCargo.Lib
