/-
Module: OpenCargo.Lib.Paging
Purpose: Rows in the order of a key, read in pages. What lies above a cursor and up to a bound is a
  stretch of the rows; a pass that follows cursors to the last page yields all of them when each page
  is the stretch up to its cursor; and the first row of each key in a sorted list.
Trusted boundary: none
Main exports: Follows.of_stretches, mem_destutter_iff, ascending_destutter, between_iff_prefix
-/
import Mathlib.Data.List.Destutter
import Mathlib.Data.List.Lex
import Mathlib.Data.List.Sort
import Mathlib.Order.Cover

namespace OpenCargo.Lib

variable {α κ γ ε : Type*} [LinearOrder κ]

/-- The keys after a cursor; all of them when there is none. -/
def above : Option κ → κ → Bool
  | none, _ => true
  | some b, k => decide (b < k)

@[simp] theorem above_none (k : κ) : above none k = true := rfl

@[simp] theorem above_some (b k : κ) : above (some b) k = decide (b < k) := rfl

theorem above_of_lt {c : Option κ} {b k : κ} (first : above c b = true) (less : b < k) :
    above c k = true := by
  cases c with
  | none => rfl
  | some a =>
      simp only [above_some, decide_eq_true_eq] at first ⊢
      exact first.trans less

/-- Strictly in the order of the key, so that a key names a row. -/
def Ascending (key : α → κ) (rows : List α) : Prop := rows.Pairwise fun a b => key a < key b

section Stretches

variable {key : α → κ} {rows : List α}

theorem Ascending.filter (asc : Ascending key rows) (p : α → Bool) : Ascending key (rows.filter p) :=
  List.Pairwise.filter p asc

/-- The rows up to the last of the first ones are the first ones, and what is above it is the rest. -/
theorem Ascending.filter_le_last {xs ys : List α} {x : α} (asc : Ascending key (xs ++ ys))
    (last : xs.getLast? = some x) :
    ((xs ++ ys).filter fun r => decide (key r ≤ key x)) = xs ∧
      ((xs ++ ys).filter fun r => decide (key x < key r)) = ys := by
  obtain ⟨front, rfl⟩ := List.getLast?_eq_some_iff.mp last
  have ⟨own, _, apart⟩ := List.pairwise_append.mp asc
  have below : ∀ r ∈ front, key r < key x := fun r mem =>
    (List.pairwise_append.mp own).2.2 r mem x (List.mem_singleton_self x)
  have less : ∀ r ∈ front ++ [x], key r ≤ key x := by
    intro r mem
    rcases List.mem_append.mp mem with mem | mem
    · exact (below r mem).le
    · rw [List.mem_singleton.mp mem]
  have more : ∀ r ∈ ys, key x < key r := fun r mem =>
    apart x (List.mem_append_right _ (List.mem_singleton_self x)) r mem
  constructor
  · rw [List.filter_append, List.filter_eq_self.mpr (by simpa using less),
      List.filter_eq_nil_iff.mpr (by simpa using more), List.append_nil]
  · rw [List.filter_append, List.filter_eq_nil_iff.mpr (by simpa using less),
      List.filter_eq_self.mpr (by simpa using more), List.nil_append]

/-- The rows above a cursor, up to a bound when there is one. -/
def stretch (key : α → κ) (c d : Option κ) (rows : List α) : List α :=
  rows.filter fun r => above c (key r) && d.all (decide <| key r ≤ ·)

theorem mem_stretch {c d : Option κ} {r : α} :
    r ∈ stretch key c d rows ↔ r ∈ rows ∧ above c (key r) = true ∧ ∀ b ∈ d, key r ≤ b := by
  cases d <;> simp [stretch]

theorem stretch_filter (c d : Option κ) (p : α → Bool) :
    stretch key c d (rows.filter p) = (stretch key c d rows).filter p := by
  simp only [stretch, List.filter_filter, Bool.and_comm]

theorem stretch_map {β : Type*} (f : β → α) (c d : Option κ) (xs : List β) :
    stretch key c d (xs.map f) = (stretch (key ∘ f) c d xs).map f := by
  simp [stretch, List.filter_map, Function.comp_def]

/-- A stretch cut at a bound inside it. -/
theorem stretch_filter_le {c d : Option κ} {b : κ} (inside : ∀ e ∈ d, b ≤ e) :
    ((stretch key c d rows).filter fun r => decide (key r ≤ b)) = stretch key c (some b) rows := by
  rw [stretch, List.filter_filter, stretch]
  refine List.filter_congr fun r _ => ?_
  by_cases less : key r ≤ b
  · have bounded : d.all (decide <| key r ≤ ·) = true := by
      cases d with
      | none => rfl
      | some e => simpa using less.trans (inside e rfl)
    simp [less, bounded]
  · simp [less]

theorem Ascending.stretch (asc : Ascending key rows) (c d : Option κ) :
    Ascending key (stretch key c d rows) := asc.filter _

/-- A stretch is the one up to a bound inside it, and the one above that. -/
theorem Ascending.stretch_split (asc : Ascending key rows) {c d : Option κ} {b : κ}
    (after : above c b = true) (inside : ∀ e ∈ d, b ≤ e) :
    Lib.stretch key c d rows =
      Lib.stretch key c (some b) rows ++ Lib.stretch key (some b) d rows := by
  induction rows with
  | nil => rfl
  | cons r rows ih =>
      have ⟨first, rest⟩ := List.pairwise_cons.mp asc
      have tail := ih rest
      by_cases less : key r ≤ b
      · have bounded : d.all (decide <| key r ≤ ·) = true := by
          cases d with
          | none => rfl
          | some e => simpa using less.trans (inside e rfl)
        cases low : above c (key r) <;>
          simpa [Lib.stretch, low, less, bounded, not_lt.mpr less] using tail
      · have more : b < key r := not_le.mp less
        have none : Lib.stretch key c (some b) rows = [] := by
          rw [Lib.stretch, List.filter_eq_nil_iff]
          intro s mem
          simp [more.trans (first s mem)]
        rw [none, List.nil_append] at tail
        have skipped : Lib.stretch key c (some b) (r :: rows) = [] := by
          simpa [Lib.stretch, less] using none
        rw [skipped, List.nil_append]
        cases high : d.all (decide <| key r ≤ ·) <;>
          simpa [Lib.stretch, above_of_lt after more, more, high] using tail

end Stretches

/-! ### Following cursors -/

/-- From the page at a cursor, `rows` are what the pages hold up to the one that carries no further
cursor. -/
inductive Follows (ask : Option γ → Except ε (List α × Option γ)) : Option γ → List α → Prop where
  | last {c : Option γ} {rows : List α} : ask c = .ok (rows, none) → Follows ask c rows
  | next {c : Option γ} {rows rest : List α} {d : γ} :
      ask c = .ok (rows, some d) → Follows ask (some d) rest → Follows ask c (rows ++ rest)

theorem Follows.unique {ask : Option γ → Except ε (List α × Option γ)} {c : Option γ}
    {rows rows' : List α} (one : Follows ask c rows) (two : Follows ask c rows') : rows = rows' := by
  induction one generalizing rows' with
  | last asked =>
      cases two with
      | last again =>
          rw [asked] at again
          cases again
          rfl
      | next again _ =>
          rw [asked] at again
          cases again
  | next asked _ ih =>
      cases two with
      | last again =>
          rw [asked] at again
          cases again
      | next again rest =>
          rw [asked] at again
          cases again
          rw [ih rest]

/-- If each page is the stretch of the rows above its cursor up to the cursor it carries, a key of some
finite list that lies after its own, then following the cursors yields all rows above the first. -/
theorem Follows.of_stretches {ask : Option γ → Except ε (List α × Option γ)} {key : α → κ}
    {rows : List α} (spell : κ → γ) (keys : List κ) (asc : Ascending key rows)
    (pages : ∀ c : Option κ, (∀ b ∈ c, b ∈ keys) → ∃ next : Option κ,
      ask (c.map spell) = .ok (stretch key c next rows, next.map spell) ∧
        ∀ b ∈ next, b ∈ keys ∧ above c b = true)
    (c : Option κ) (known : ∀ b ∈ c, b ∈ keys) :
    Follows ask (c.map spell) (stretch key c none rows) := by
  -- each cursor leaves fewer keys above it
  induction left : (keys.filter (above c)).length using Nat.strong_induction_on generalizing c with
  | h n ih =>
      obtain ⟨next, asked, moved⟩ := pages c known
      cases next with
      | none => exact .last asked
      | some b =>
          obtain ⟨mem, after⟩ := moved b rfl
          have fewer : (keys.filter (above (some b))).length < (keys.filter (above c)).length := by
            have sub : (keys.filter (above (some b))).Sublist (keys.filter (above c)) := by
              apply List.monotone_filter_right
              intro k high
              exact above_of_lt after (by simpa using high)
            refine lt_of_le_of_ne sub.length_le fun same => ?_
            have held : b ∈ keys.filter (above (some b)) := by
              rw [sub.eq_of_length same]
              exact List.mem_filter.mpr ⟨mem, after⟩
            simp at held
          rw [asc.stretch_split after (by simp)]
          exact .next asked (ih _ (left ▸ fewer) (some b) (by simpa using mem) rfl)

/-! ### The first of each key -/

section Firsts

variable {key : α → κ} {order : α → ℕ} [DecidableRel fun a b : α => key a ≠ key b]

/-- Of rows sorted by their key and then by their order, the ones kept where a row is dropped when it
has the key of the last one kept: the row of each key with the least order. -/
theorem mem_destutter'_iff {rows : List α} {a x : α}
    (sorted : (a :: rows).Pairwise fun a b => key a < key b ∨ (key a = key b ∧ order a < order b)) :
    x ∈ rows.destutter' (fun a b => key a ≠ key b) a ↔
      x ∈ a :: rows ∧ ∀ y ∈ a :: rows, key y = key x → order x ≤ order y := by
  induction rows generalizing a with
  | nil =>
      simp only [List.destutter'_nil, List.mem_singleton]
      constructor
      · rintro rfl
        simp
      · exact fun both => both.1
  | cons b rows ih =>
      have ⟨first, rest⟩ := List.pairwise_cons.mp sorted
      by_cases same : key a = key b
      · rw [List.destutter'_cons_neg _ (by simpa using same)]
        have dropped : (a :: rows).Pairwise fun a b =>
            key a < key b ∨ (key a = key b ∧ order a < order b) :=
          List.pairwise_cons.mpr
            ⟨fun y mem => first y (List.mem_cons_of_mem _ mem), (List.pairwise_cons.mp rest).2⟩
        have later : order a < order b := by
          rcases first b List.mem_cons_self with less | ⟨_, less⟩
          · exact absurd same less.ne
          · exact less
        rw [ih dropped]
        constructor
        · rintro ⟨mem, least⟩
          refine ⟨by simp only [List.mem_cons] at mem ⊢; tauto, ?_⟩
          intro y among equal
          rcases List.mem_cons.mp among with rfl | among
          · exact least y List.mem_cons_self equal
          · rcases List.mem_cons.mp among with rfl | among
            · exact (least a List.mem_cons_self (same.trans equal)).trans later.le
            · exact least y (List.mem_cons_of_mem _ among) equal
        · rintro ⟨mem, least⟩
          have other : x ≠ b := by
            rintro rfl
            exact absurd (least a List.mem_cons_self same) (not_le.mpr later)
          refine ⟨by simp only [List.mem_cons] at mem ⊢; tauto, ?_⟩
          intro y among equal
          exact least y (by simp only [List.mem_cons] at among ⊢; tauto) equal
      · rw [List.destutter'_cons_pos _ (by simpa using same), List.mem_cons, ih rest]
        have apart : ∀ y ∈ b :: rows, key a < key y := by
          intro y mem
          have ab : key a < key b := by
            rcases first b List.mem_cons_self with less | ⟨equal, _⟩
            · exact less
            · exact absurd equal same
          rcases List.mem_cons.mp mem with rfl | mem
          · exact ab
          · rcases (List.pairwise_cons.mp rest).1 y mem with less | ⟨equal, _⟩
            · exact ab.trans less
            · exact equal ▸ ab
        constructor
        · rintro (rfl | ⟨mem, least⟩)
          · refine ⟨List.mem_cons_self, fun y among equal => ?_⟩
            rcases List.mem_cons.mp among with rfl | among
            · exact le_rfl
            · exact absurd equal.symm (apart y among).ne
          · refine ⟨List.mem_cons_of_mem _ mem, fun y among equal => ?_⟩
            rcases List.mem_cons.mp among with rfl | among
            · exact absurd equal (apart x mem).ne
            · exact least y among equal
        · rintro ⟨mem, least⟩
          rcases List.mem_cons.mp mem with same | mem
          · exact .inl same
          · exact .inr ⟨mem, fun y among => least y (List.mem_cons_of_mem _ among)⟩

theorem mem_destutter_iff {rows : List α} {x : α}
    (sorted : rows.Pairwise fun a b => key a < key b ∨ (key a = key b ∧ order a < order b)) :
    x ∈ rows.destutter (fun a b => key a ≠ key b) ↔
      x ∈ rows ∧ ∀ y ∈ rows, key y = key x → order x ≤ order y := by
  cases rows with
  | nil => simp
  | cons a rows => exact mem_destutter'_iff sorted

/-- What is kept is strictly in the order of the key. -/
theorem ascending_destutter {rows : List α}
    (sorted : rows.Pairwise fun a b => key a < key b ∨ (key a = key b ∧ order a < order b)) :
    Ascending key (rows.destutter fun a b => key a ≠ key b) := by
  have kept := sorted.sublist (List.destutter_sublist (fun a b => key a ≠ key b) rows)
  refine kept.imp_of_mem ?_
  rintro a b before held (less | ⟨same, earlier⟩)
  · exact less
  · have least := ((mem_destutter_iff sorted).mp held).2
    have among := ((mem_destutter_iff sorted).mp before).1
    exact absurd earlier (not_lt.mpr (least a among same))

end Firsts

/-! ### Words with one beginning -/

/-- The words from one up to the same with its last letter replaced by the next are those that begin
with it. -/
theorem between_iff_prefix {c next : κ} (covers : c ⋖ next) (front word : List κ) :
    ¬word < front ++ [c] ∧ word < front ++ [next] ↔ front ++ [c] <+: word := by
  induction front generalizing word with
  | nil =>
      cases word with
      | nil => simp
      | cons d word =>
          simp only [List.nil_append, List.cons_lt_cons_iff, List.cons_prefix_cons, List.nil_prefix,
            and_true, List.not_lt_nil, and_false, or_false, not_lt]
          constructor
          · rintro ⟨low, high⟩
            exact low.eq_of_not_lt fun less => covers.2 less high
          · rintro rfl
            exact ⟨le_rfl, covers.1⟩
  | cons a front ih =>
      cases word with
      | nil => simp
      | cons d word =>
          simp only [List.cons_append, List.cons_lt_cons_iff, List.cons_prefix_cons, ← ih word]
          constructor
          · rintro ⟨low, more | ⟨rfl, high⟩⟩
            · exact absurd (.inl more) low
            · exact ⟨rfl, fun less => low (.inr ⟨rfl, less⟩), high⟩
          · rintro ⟨rfl, low, high⟩
            exact ⟨by simpa using low, .inr ⟨rfl, high⟩⟩

end OpenCargo.Lib
