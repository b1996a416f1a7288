/-
Module: OpenCargo.Pypi.Order
Purpose: The order of PEP 440 versions (`registry/pypi/version.rs`) as a composition of comparisons: it is a total
  preorder, on texts too, and sees neither the zeros a release ends with nor those that pad a local segment.
Trusted boundary: none
Main exports: releaseCmp_eq, Alike, cmp_eq_iff, compareVersions_eq
-/
import OpenCargo.Pypi.Version
import OpenCargo.Lib.Orders

namespace OpenCargo.Pypi

open OpenCargo.Lib (byReading padded paddedNil padded_eq_iff rdropWhile_cons_inj transCmp_of_part)

namespace Pep440

/-! ### The numbers of a release -/

/-- The first places compared. -/
def places (n : Nat) (a b : List Nat) : Ordering :=
  (((List.range n).map fun i => compare (a.getD i 0) (b.getD i 0)).find? (· ≠ .eq)).getD .eq

theorem places_succ (n : Nat) (a b : List Nat) :
    places (n + 1) a b = (compare (a.getD 0 0) (b.getD 0 0)).then (places n a.tail b.tail) := by
  have shift : ((List.range n).map Nat.succ).map (fun i => compare (a.getD i 0) (b.getD i 0)) =
      (List.range n).map fun i => compare (a.tail.getD i 0) (b.tail.getD i 0) := by
    rw [List.map_map]
    refine List.map_congr_left fun i _ => ?_
    cases a <;> cases b <;> rfl
  rw [places, places, List.range_succ_eq_map, List.map_cons, shift, List.find?_cons]
  cases compare (a.getD 0 0) (b.getD 0 0) <;> rfl

theorem places_eq {n : Nat} {a b : List Nat} (longA : a.length ≤ n) (longB : b.length ≤ n) :
    places n a b = padded compare 0 a b := by
  induction n generalizing a b with
  | zero =>
      obtain rfl := List.length_eq_zero_iff.mp (Nat.le_zero.mp longA)
      obtain rfl := List.length_eq_zero_iff.mp (Nat.le_zero.mp longB)
      rfl
  | succ n ih =>
      have more (as : List Nat) (long : as.length ≤ n + 1) : as.tail.length ≤ n := by
        rw [List.length_tail]
        omega
      rw [places_succ, ih (more a longA) (more b longB)]
      cases a <;> cases b <;> rfl

theorem releaseCmp_eq (a b : List Nat) : releaseCmp a b = padded compare 0 a b :=
  places_eq (Nat.le_max_left _ _) (Nat.le_max_right _ _)

/-! ### The keys of the other parts -/

instance {α β : Type} [Ord α] [Ord β] [Std.TransOrd α] [Std.TransOrd β] :
    Std.TransCmp (pairCmp (α := α) (β := β)) :=
  inferInstanceAs (Std.TransCmp (compareLex (compareOn Prod.fst) (compareOn Prod.snd)))

theorem pairCmp_eq_iff {α β : Type} [Ord α] [Ord β] [Std.LawfulEqOrd α] [Std.LawfulEqOrd β] {a b : α × β} :
    pairCmp a b = .eq ↔ a = b := by
  rw [pairCmp, Ordering.then_eq_eq, Std.LawfulEqCmp.compare_eq_iff_eq, Std.LawfulEqCmp.compare_eq_iff_eq,
    Prod.ext_iff]

/-- A local segment that counts as a number. -/
def Counted (part : Text) : Prop :=
  part ≠ [] ∧ (∀ c ∈ part, c.isDigit = true) ∧ Scan.value part < 2 ^ 64

instance (part : Text) : Decidable (Counted part) := inferInstanceAs (Decidable (_ ∧ _ ∧ _))

/-- Local segments that sort alike: one text, or numbers of one value. -/
def Alike (p q : Text) : Prop := p = q ∨ Counted p ∧ Counted q ∧ Scan.value p = Scan.value q

instance (p q : Text) : Decidable (Alike p q) := inferInstanceAs (Decidable (_ ∨ _))

theorem partKey_eq (part : Text) :
    partKey part = if Counted part then (1, Scan.value part, []) else (0, 0, part) := by
  have counts : (!part.isEmpty && part.all Char.isDigit && decide (Scan.value part < 2 ^ 64)) = true ↔
      Counted part := by
    simp [Counted, List.all_eq_true, and_assoc]
  rw [partKey]
  by_cases counted : Counted part
  · rw [if_pos counted, if_pos (counts.mpr counted)]
  · rw [if_neg counted, if_neg fun yes => counted (counts.mp yes)]

theorem partKey_eq_iff {p q : Text} : partKey p = partKey q ↔ Alike p q := by
  rw [partKey_eq, partKey_eq, Alike]
  by_cases countedP : Counted p <;> by_cases countedQ : Counted q
  · simp only [countedP, countedQ, if_true, Prod.mk.injEq, true_and, and_true, iff_or_self]
    rintro rfl
    rfl
  · simp only [countedP, countedQ, if_true, if_false, false_and, and_false, or_false]
    refine ⟨fun same => ?_, fun same => absurd (same ▸ countedP) countedQ⟩
    cases same
  · simp only [countedP, countedQ, if_true, if_false, false_and, or_false]
    refine ⟨fun same => ?_, fun same => absurd (same ▸ countedQ) countedP⟩
    cases same
  · simp [countedP, countedQ]

theorem partCmp_eq_iff {p q : Text} : partCmp p q = .eq ↔ Alike p q := by
  rw [← partKey_eq_iff, partCmp, Ordering.then_eq_eq, pairCmp_eq_iff, Std.LawfulEqCmp.compare_eq_iff_eq,
    ← Prod.ext_iff]

theorem localCmp_eq_iff {a b : List Text} : localCmp a b = .eq ↔ List.Forall₂ Alike a b := by
  induction a generalizing b with
  | nil => cases b <;> simp [localCmp, List.compareLex_nil_nil, List.compareLex_nil_cons]
  | cons p a ih =>
      cases b with
      | nil => simp [localCmp, List.compareLex_cons_nil]
      | cons q b =>
          rw [localCmp, List.compareLex_cons_cons, Ordering.then_eq_eq, partCmp_eq_iff, List.forall₂_cons, ← ih,
            localCmp]

/-- With one post-release and one dev release, the key tells what the pre-release is. -/
theorem preKey_inj {x y : Pep440} (key : x.preKey = y.preKey) (post : x.post = y.post) (dev : x.dev = y.dev) :
    x.pre = y.pre := by
  obtain ⟨_, _, p, q, d, _⟩ := x
  obtain ⟨_, _, p', _, _, _⟩ := y
  cases post
  cases dev
  cases p with
  | none =>
      cases p' with
      | none => rfl
      | some p' => cases p' <;> cases q <;> cases d <;> cases key
  | some p =>
      cases p' with
      | none => cases p <;> cases q <;> cases d <;> cases key
      | some p' => cases p <;> cases p' <;> cases key <;> rfl

theorem postKey_eq_iff {x y : Pep440} : x.postKey = y.postKey ↔ x.post = y.post := by
  rw [postKey, postKey]
  cases x.post <;> cases y.post <;> simp

theorem devKey_eq_iff {x y : Pep440} : x.devKey = y.devKey ↔ x.dev = y.dev := by
  rw [devKey, devKey]
  cases x.dev <;> cases y.dev <;> simp

/-! ### The order -/

theorem cmp_eq : cmp = compareLex (compareOn epoch)
    (compareLex (fun a b => padded compare 0 a.release b.release)
      (compareLex (fun a b => pairCmp a.preKey b.preKey)
        (compareLex (fun a b => pairCmp a.postKey b.postKey)
          (compareLex (fun a b => pairCmp a.devKey b.devKey) fun a b => localCmp a.local_ b.local_)))) := by
  funext a b
  rw [cmp, releaseCmp_eq]
  rfl

instance : Std.TransCmp partCmp := by
  have rest : Std.TransCmp fun a b : Nat × Nat × Text => pairCmp a.2 b.2 := transCmp_of_part Prod.snd
  have keys : Std.TransCmp (compareLex (compareOn Prod.fst) fun a b : Nat × Nat × Text => pairCmp a.2 b.2) :=
    inferInstance
  exact @transCmp_of_part _ _ _ keys partKey

instance : Std.TransCmp localCmp := inferInstanceAs (Std.TransCmp (List.compareLex partCmp))

instance : Std.TransCmp cmp := by
  have release : Std.TransCmp fun a b : Pep440 => padded compare 0 a.release b.release :=
    transCmp_of_part Pep440.release
  have pre : Std.TransCmp fun a b : Pep440 => pairCmp a.preKey b.preKey := transCmp_of_part preKey
  have post : Std.TransCmp fun a b : Pep440 => pairCmp a.postKey b.postKey := transCmp_of_part postKey
  have dev : Std.TransCmp fun a b : Pep440 => pairCmp a.devKey b.devKey := transCmp_of_part devKey
  have local_ : Std.TransCmp fun a b : Pep440 => localCmp a.local_ b.local_ := transCmp_of_part Pep440.local_
  rw [cmp_eq]
  infer_instance

theorem cmp_eq_iff {x y : Pep440} : x.cmp y = .eq ↔ x.epoch = y.epoch ∧
    x.release.rdropWhile (· == 0) = y.release.rdropWhile (· == 0) ∧ x.pre = y.pre ∧ x.post = y.post ∧
      x.dev = y.dev ∧ List.Forall₂ Alike x.local_ y.local_ := by
  rw [cmp, releaseCmp_eq, Ordering.then_eq_eq, Ordering.then_eq_eq, Ordering.then_eq_eq, Ordering.then_eq_eq,
    Ordering.then_eq_eq, padded_eq_iff, pairCmp_eq_iff, pairCmp_eq_iff, pairCmp_eq_iff, postKey_eq_iff,
    devKey_eq_iff, localCmp_eq_iff, Std.LawfulEqCmp.compare_eq_iff_eq]
  refine and_congr_right fun _ => and_congr_right fun _ => ?_
  constructor
  · rintro ⟨pre, post, dev, alike⟩
    exact ⟨preKey_inj pre post dev, post, dev, alike⟩
  · rintro ⟨pre, post, dev, alike⟩
    exact ⟨by rw [preKey, preKey, pre, post, dev], post, dev, alike⟩

end Pep440

theorem compareVersions_eq : compareVersions = byReading Pep440.parse Pep440.cmp compare := by
  funext a b
  rw [compareVersions, byReading]
  cases Pep440.parse a <;> cases Pep440.parse b <;> rfl

instance : Std.TransCmp compareVersions := by
  rw [compareVersions_eq]
  infer_instance

end OpenCargo.Pypi
