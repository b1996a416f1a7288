/-
Module: OpenCargo.Lib.Runs
Purpose: Runs of one kind of letters joined by single letters of another, as a regular language, and the loop that
  recognises it: it remembers whether the letter before was one that joins.
Trusted boundary: none
Main exports: joined, scan, mem_joined_iff, flatMap_mem_joined
-/
import Mathlib.Computability.Language

namespace OpenCargo.Lib

open scoped Computability

variable {α : Type*}

/-- The words of one letter. -/
def single (p : α → Bool) : Language α := {w | ∃ a, p a = true ∧ w = [a]}

/-- `[p]+`. -/
def run (p : α → Bool) : Language α := single p * (single p)∗

/-- `[p]+([q][p]+)*`. -/
def joined (p q : α → Bool) : Language α := run p * (single q * run p)∗

/-- What may follow a letter of a run. -/
def afterLetter (p q : α → Bool) : Language α := (single p)∗ * (single q * run p)∗

/-- The loop; `before` tells whether the letter before was one that joins. -/
def scan (p q : α → Bool) : Bool → List α → Bool
  | _, [] => true
  | before, a :: w =>
      if p a then scan p q false w
      else if q a then !before && scan p q true w
      else false

variable {p q : α → Bool} {a : α} {w : List α}

theorem cons_mem_single_mul {L : Language α} : a :: w ∈ single p * L ↔ p a = true ∧ w ∈ L := by
  rw [Language.mem_mul]
  constructor
  · rintro ⟨_, ⟨b, letter, rfl⟩, v, rest, same⟩
    obtain ⟨rfl, rfl⟩ := List.cons.inj same
    exact ⟨letter, rest⟩
  · rintro ⟨letter, rest⟩
    exact ⟨[a], ⟨a, letter, rfl⟩, w, rest, rfl⟩

theorem nil_notMem_single_mul {L : Language α} : [] ∉ single p * L := by
  rw [Language.mem_mul]
  rintro ⟨_, ⟨b, _, rfl⟩, _, _, same⟩
  cases same

theorem joined_eq : joined p q = single p * afterLetter p q := by
  rw [joined, run, mul_assoc]
  rfl

theorem afterLetter_eq : afterLetter p q = single p * afterLetter p q + (1 + single q * joined p q) := by
  have rest : (single q * run p)∗ = 1 + single q * joined p q := by
    rw [joined, ← mul_assoc, Language.one_add_self_mul_kstar_eq_kstar]
  have first : (single p)∗ = single p * (single p)∗ + 1 := by
    rw [add_comm, Language.one_add_self_mul_kstar_eq_kstar]
  rw [← rest, afterLetter, ← mul_assoc]
  conv_lhs => rw [first]
  rw [add_mul, one_mul]

theorem nil_notMem_joined : [] ∉ joined p q := joined_eq (p := p) ▸ nil_notMem_single_mul

theorem cons_mem_joined : a :: w ∈ joined p q ↔ p a = true ∧ w ∈ afterLetter p q := by
  rw [joined_eq, cons_mem_single_mul]

theorem nil_mem_afterLetter : [] ∈ afterLetter p q := by
  rw [afterLetter_eq, Language.mem_add, Language.mem_add]
  exact .inr (.inl rfl)

theorem cons_mem_afterLetter :
    a :: w ∈ afterLetter p q ↔ (p a = true ∧ w ∈ afterLetter p q) ∨ (q a = true ∧ w ∈ joined p q) := by
  conv_lhs => rw [afterLetter_eq, Language.mem_add, Language.mem_add, cons_mem_single_mul, cons_mem_single_mul]
  rw [Language.mem_one]
  simp

/-- The loop and the look at the last letter, from after a letter that joins and from after one of a run. -/
theorem scan_iff (apart : ∀ a, p a = true → q a = false) :
    (scan p q false w = true ∧ w.getLast?.all p = true ↔ w ∈ afterLetter p q) ∧
      (w ≠ [] ∧ scan p q true w = true ∧ w.getLast?.all p = true ↔ w ∈ joined p q) := by
  induction w with
  | nil => simp [scan, nil_mem_afterLetter, nil_notMem_joined]
  | cons a w ih =>
      obtain ⟨within, begun⟩ := ih
      have last : (a :: w).getLast?.all p = true ↔ if w = [] then p a = true else w.getLast?.all p = true := by
        cases w with
        | nil => simp
        | cons b v => simp [List.getLast?_cons_cons]
      rw [cons_mem_afterLetter, cons_mem_joined, ← within, ← begun, last, scan, scan]
      cases letter : p a with
      | true => cases w <;> simp [apart a letter]
      | false => cases w <;> cases q a <;> simp

/-- A word of letters is in the language exactly where it begins and ends with a letter of a run and the loop passes
it. -/
theorem mem_joined_iff (apart : ∀ a, p a = true → q a = false) :
    w ∈ joined p q ↔
      w ≠ [] ∧ w.head?.all p = true ∧ w.getLast?.all p = true ∧ scan p q false w = true := by
  cases w with
  | nil => simp [nil_notMem_joined]
  | cons a w =>
      rw [← (scan_iff apart).2, scan, scan]
      cases letter : p a with
      | true => simp [letter, and_comm]
      | false => cases q a <;> simp [letter]

/-- A word spelled letter by letter, a letter that is neither as letters that begin with one that is neither. -/
theorem flatMap_mem_joined {β : Type*} {f : β → List α} {p' q' : β → Bool} {w : List β}
    (spelled : ∀ c, (∃ a, f c = [a] ∧ p a = p' c ∧ q a = q' c) ∨
      (p' c = false ∧ q' c = false ∧ ∃ a rest, f c = a :: rest ∧ p a = false ∧ q a = false)) :
    w.flatMap f ∈ joined p q ↔ w ∈ joined p' q' := by
  have both : (w.flatMap f ∈ afterLetter p q ↔ w ∈ afterLetter p' q') ∧
      (w.flatMap f ∈ joined p q ↔ w ∈ joined p' q') := by
    induction w with
    | nil => simp [nil_mem_afterLetter, nil_notMem_joined]
    | cons c w ih =>
        rw [List.flatMap_cons, cons_mem_afterLetter, cons_mem_joined]
        rcases spelled c with ⟨a, one, word, link⟩ | ⟨word, link, a, rest, first, other, other'⟩
        · rw [one, List.singleton_append, cons_mem_afterLetter, cons_mem_joined, ih.1, ih.2, word, link]
          exact ⟨Iff.rfl, Iff.rfl⟩
        · rw [first, List.cons_append, cons_mem_afterLetter, cons_mem_joined, other, other', word, link]
          simp
  exact both.2

end OpenCargo.Lib
