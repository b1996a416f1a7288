/-
Module: OpenCargo.Lib.Nesting
Purpose: Nodes that list others, and stacks of them: each lists the next, and each is one that lists.
  What becomes of the stacks when one node is given another list: a stack through it is one above it,
  the node, and one below, as long as nothing it lists comes back to it; and when the other list
  closes a cycle.
Trusted boundary: none
Main exports: Shallow.erase, Acyclic, acyclic_update_iff, Acyclic.erase
-/
import Mathlib.Data.List.Chain
import Mathlib.Logic.Relation

namespace OpenCargo.Lib

variable {α : Type*}

/-- `b` is in the list of `a`; a node that lists nothing at all has no list. -/
def Lists (kids : α → Option (List α)) (a b : α) : Prop := ∃ listed, kids a = some listed ∧ b ∈ listed

/-- Nodes with lists, each in the list of the one before. -/
structure Stack (kids : α → Option (List α)) (stack : List α) : Prop where
  listed : stack.IsChain (Lists kids)
  nodes : ∀ a ∈ stack, (kids a).isSome = true

/-- No stack is longer than `depth`. -/
def Shallow (depth : Nat) (kids : α → Option (List α)) : Prop :=
  ∀ stack, Stack kids stack → stack.length ≤ depth

variable {kids : α → Option (List α)} {a : α} {stack : List α}

instance [DecidableEq α] : DecidableRel (Lists kids) := fun a b =>
  decidable_of_iff ((kids a).any fun listed => b ∈ listed) (by simp [Lists, Option.any_eq_true])

instance [DecidableEq α] : Decidable (Stack kids stack) :=
  decidable_of_iff (stack.IsChain (Lists kids) ∧ ∀ a ∈ stack, (kids a).isSome = true)
    ⟨fun ⟨listed, nodes⟩ => ⟨listed, nodes⟩, fun ⟨listed, nodes⟩ => ⟨listed, nodes⟩⟩

/-- From the first of a stack one comes to whatever the last lists. -/
theorem Stack.below {b : α} (held : Stack kids (b :: stack))
    (last : ∀ u ∈ (b :: stack).getLast?, Lists kids u a) :
    Relation.TransGen (Lists kids) b a := by
  induction stack generalizing b with
  | nil => exact .single (last b rfl)
  | cons c stack ih =>
      obtain ⟨listed, nodes⟩ := held
      obtain ⟨first, rest⟩ := List.isChain_cons_cons.mp listed
      have below := ih ⟨rest, fun d mem => nodes d (List.mem_cons_of_mem _ mem)⟩
        (by simpa using last)
      exact .head first below

/-- A rank that falls from a node to the nodes it lists bounds the stacks. -/
theorem Shallow.of_rank {depth : Nat} (rank : α → Nat)
    (falls : ∀ a b, Lists kids a b → rank b < rank a)
    (bounded : ∀ a, (kids a).isSome = true → rank a < depth) : Shallow depth kids := by
  have below : ∀ stack a, Stack kids (a :: stack) → stack.length ≤ rank a := by
    intro stack
    induction stack with
    | nil => exact fun a _ => Nat.zero_le _
    | cons b stack ih =>
        intro a held
        obtain ⟨first, rest⟩ := List.isChain_cons_cons.mp held.listed
        have shorter := ih b ⟨rest, fun c mem => held.nodes c (List.mem_cons_of_mem _ mem)⟩
        have less := falls a b first
        rw [List.length_cons]
        omega
  intro stack held
  cases stack with
  | nil => exact Nat.zero_le _
  | cons a stack =>
      have above := below stack a held
      have bound := bounded a (held.nodes a List.mem_cons_self)
      rw [List.length_cons]
      omega

section Update

variable [DecidableEq α] {given : Option (List α)} {listed : List α} {depth : Nat}

theorem lists_update_of_ne {b c : α} (other : b ≠ a) :
    Lists (Function.update kids a given) b c ↔ Lists kids b c := by
  simp [Lists, Function.update_of_ne other]

/-- A stack without the node is one as before. -/
theorem Stack.of_absent (held : Stack (Function.update kids a given) stack) (absent : a ∉ stack) :
    Stack kids stack where
  listed := by
    refine held.listed.imp_of_mem_imp fun b c mem _ lists => ?_
    have other : b ≠ a := by rintro rfl; exact absent mem
    exact (lists_update_of_ne other).mp lists
  nodes b mem := by
    have other : b ≠ a := by rintro rfl; exact absent mem
    have node := held.nodes b mem
    rwa [Function.update_of_ne other] at node

/-- And the other way round. -/
theorem Stack.update (held : Stack kids stack) (absent : a ∉ stack) :
    Stack (Function.update kids a given) stack where
  listed := by
    refine held.listed.imp_of_mem_imp fun b c mem _ lists => ?_
    have other : b ≠ a := by rintro rfl; exact absent mem
    exact (lists_update_of_ne other).mpr lists
  nodes b mem := by
    have other : b ≠ a := by rintro rfl; exact absent mem
    rw [Function.update_of_ne other]
    exact held.nodes b mem

theorem Stack.split (held : Stack (Function.update kids a (some listed)) stack) (mem : a ∈ stack)
    (fresh : ∀ m ∈ listed, m ≠ a ∧ ¬Relation.TransGen (Lists kids) m a) :
    ∃ up down, stack = up ++ a :: down ∧ Stack kids up ∧ Stack kids down ∧ a ∉ up ∧ a ∉ down ∧
      (∀ u ∈ up.getLast?, Lists kids u a) ∧ ∀ d ∈ down.head?, d ∈ listed := by
  obtain ⟨up, down, rfl, above⟩ := List.eq_append_cons_of_mem mem
  obtain ⟨chainUp, chainDown, link⟩ := List.isChain_append.mp held.listed
  have stackUp : Stack kids up :=
    Stack.of_absent ⟨chainUp, fun b mem => held.nodes b (List.mem_append_left _ mem)⟩ above
  obtain ⟨first, rest⟩ := List.isChain_cons.mp chainDown
  have head : ∀ d ∈ down.head?, d ∈ listed := by
    intro d isHead
    obtain ⟨own, given, mem⟩ := first d isHead
    rw [Function.update_self, Option.some.injEq] at given
    exact given ▸ mem
  have stackDown : Stack (Function.update kids a (some listed)) down :=
    ⟨rest, fun b mem => held.nodes b (List.mem_append_right _ (List.mem_cons_of_mem _ mem))⟩
  -- a stack that came back to the node would have shown it below what it lists
  have below : a ∉ down := by
    intro again
    obtain ⟨between, after, rfl, absent⟩ := List.eq_append_cons_of_mem again
    cases between with
    | nil => exact (fresh a (head a rfl)).1 rfl
    | cons m between =>
        obtain ⟨chain, _, back⟩ := List.isChain_append.mp stackDown.listed
        have stack : Stack kids (m :: between) :=
          Stack.of_absent ⟨chain, fun b mem => stackDown.nodes b (List.mem_append_left _ mem)⟩ absent
        refine (fresh m (head m rfl)).2 (stack.below fun u last => ?_)
        have other : u ≠ a := by rintro rfl; exact absent (List.mem_of_getLast? last)
        exact (lists_update_of_ne other).mp (back u last a rfl)
  refine ⟨up, down, rfl, stackUp, stackDown.of_absent below, above, below, fun u last => ?_, head⟩
  have other : u ≠ a := by rintro rfl; exact above (List.mem_of_getLast? last)
  exact (lists_update_of_ne other).mp (link u last a rfl)

/-- What is above the node, itself and what would be below it fit, stacks through it set aside. -/
def HasRoom (depth : Nat) (kids : α → Option (List α)) (a : α) (listed : List α) : Prop :=
  ∀ up down, Stack kids up → Stack kids down → a ∉ up → a ∉ down →
    (∀ u ∈ up.getLast?, Lists kids u a) → (∀ d ∈ down.head?, d ∈ listed) →
    up.length + 1 + down.length ≤ depth

/-- A stack above the node and one below what it is given are one stack, with the node between. -/
theorem Stack.join {up down : List α} (above : Stack kids up) (below : Stack kids down)
    (notAbove : a ∉ up) (notBelow : a ∉ down) (link : ∀ u ∈ up.getLast?, Lists kids u a)
    (head : ∀ d ∈ down.head?, d ∈ listed) :
    Stack (Function.update kids a (some listed)) (up ++ a :: down) := by
  have upper : Stack (Function.update kids a (some listed)) up := above.update notAbove
  have lower : Stack (Function.update kids a (some listed)) down := below.update notBelow
  refine ⟨List.isChain_append.mpr ⟨upper.listed, List.isChain_cons.mpr ⟨?_, lower.listed⟩, ?_⟩, ?_⟩
  · intro d isHead
    exact ⟨listed, Function.update_self .., head d isHead⟩
  · intro u last b isHead
    cases isHead
    have other : u ≠ a := by rintro rfl; exact notAbove (List.mem_of_getLast? last)
    exact (lists_update_of_ne other).mpr (link u last)
  · intro b mem
    rcases List.mem_append.mp mem with inUp | inRest
    · exact upper.nodes b inUp
    · rcases List.mem_cons.mp inRest with rfl | inDown
      · simp
      · exact lower.nodes b inDown

/-- A node with another list keeps the depth exactly when it has room. -/
theorem shallow_update_iff (shallow : Shallow depth kids)
    (fresh : ∀ m ∈ listed, m ≠ a ∧ ¬Relation.TransGen (Lists kids) m a) :
    Shallow depth (Function.update kids a (some listed)) ↔ HasRoom depth kids a listed := by
  constructor
  · intro after up down above below notAbove notBelow link head
    have joined := after _ (above.join below notAbove notBelow link head)
    simp only [List.length_append, List.length_cons] at joined
    omega
  · intro room stack held
    by_cases mem : a ∈ stack
    · obtain ⟨up, down, rfl, above, below, notAbove, notBelow, link, head⟩ := held.split mem fresh
      have := room up down above below notAbove notBelow link head
      simp only [List.length_append, List.length_cons]
      omega
    · exact shallow stack (held.of_absent mem)

theorem Shallow.erase (shallow : Shallow depth kids) : Shallow depth (Function.update kids a none) := by
  intro stack held
  have absent : a ∉ stack := by
    intro mem
    have node := held.nodes a mem
    simp at node
  exact shallow stack (held.of_absent absent)

/-! ### Cycles -/

/-- No node comes back to itself. -/
def Acyclic (kids : α → Option (List α)) : Prop := ∀ a, ¬Relation.TransGen (Lists kids) a a

/-- A way to the node does not use the list of the node before it has arrived. -/
theorem arrives_update {m : α} (way : Relation.TransGen (Lists kids) m a) :
    m = a ∨ Relation.TransGen (Lists (Function.update kids a given)) m a := by
  induction way using Relation.TransGen.head_induction_on with
  | @single b link =>
      by_cases here : b = a
      · exact .inl here
      · exact .inr (.single ((lists_update_of_ne here).mpr link))
  | @head b c link _ ih =>
      by_cases here : b = a
      · exact .inl here
      · have first : Lists (Function.update kids a given) b c := (lists_update_of_ne here).mpr link
        rcases ih with rfl | later
        · exact .inr (.single first)
        · exact .inr (.head first later)

/-- A way with the other list is one as before, or comes to the node as before and goes on from
something that the node lists now. -/
theorem way_of_update {b c : α}
    (way : Relation.TransGen (Lists (Function.update kids a (some listed))) b c) :
    Relation.TransGen (Lists kids) b c ∨
      (b = a ∨ Relation.TransGen (Lists kids) b a) ∧
        ∃ m ∈ listed, m = c ∨ Relation.TransGen (Lists kids) m c := by
  have own : ∀ {d}, Lists (Function.update kids a (some listed)) a d → d ∈ listed := by
    rintro d ⟨given, now, mem⟩
    rw [Function.update_self, Option.some.injEq] at now
    exact now ▸ mem
  induction way with
  | @single c link =>
      by_cases here : b = a
      · subst here
        exact .inr ⟨.inl rfl, c, own link, .inl rfl⟩
      · exact .inl (.single ((lists_update_of_ne here).mp link))
  | @tail d c _ link ih =>
      by_cases here : d = a
      · subst here
        have front : b = d ∨ Relation.TransGen (Lists kids) b d := by
          rcases ih with before | ⟨front, _⟩
          · exact .inr before
          · exact front
        exact .inr ⟨front, c, own link, .inl rfl⟩
      · have last : Lists kids d c := (lists_update_of_ne here).mp link
        rcases ih with before | ⟨front, m, mem, rfl | way⟩
        · exact .inl (before.tail last)
        · exact .inr ⟨front, m, mem, .inr (.single last)⟩
        · exact .inr ⟨front, m, mem, .inr (way.tail last)⟩

/-- A node with another list closes no cycle exactly when nothing in the list is the node or comes back
to it. -/
theorem acyclic_update_iff (acyclic : Acyclic kids) :
    Acyclic (Function.update kids a (some listed)) ↔
      ∀ m ∈ listed, m ≠ a ∧ ¬Relation.TransGen (Lists kids) m a := by
  constructor
  · intro after m mem
    have first : Lists (Function.update kids a (some listed)) a m :=
      ⟨listed, Function.update_self .., mem⟩
    have other : m ≠ a := by
      rintro rfl
      exact after m (.single first)
    refine ⟨other, fun way => ?_⟩
    have arrives : m = a ∨
        Relation.TransGen (Lists (Function.update kids a (some listed))) m a := arrives_update way
    rcases arrives with here | back
    · exact other here
    · exact after a (.head first back)
  · intro fresh b round
    rcases way_of_update round with before | ⟨front, m, mem, back⟩
    · exact acyclic b before
    · obtain ⟨other, apart⟩ := fresh m mem
      rcases back with rfl | back
      · exact front.elim other apart
      · rcases front with rfl | front
        · exact apart back
        · exact apart (back.trans front)

theorem Acyclic.erase (acyclic : Acyclic kids) : Acyclic (Function.update kids a none) := by
  have fewer : Lists (Function.update kids a none) ≤ Lists kids := by
    rintro c d ⟨listed, now, mem⟩
    have other : c ≠ a := by
      rintro rfl
      rw [Function.update_self] at now
      cases now
    exact (lists_update_of_ne other).mp ⟨listed, now, mem⟩
  exact fun b round => acyclic b (Relation.TransGen.mono fewer b b round)

end Update

end OpenCargo.Lib
