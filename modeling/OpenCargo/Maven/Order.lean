/-
Module: OpenCargo.Maven.Order
Purpose: What the comparison of Maven versions (`registry/maven/version.rs`) is as an order: turned round it is
  reversed, and a version equals itself; but no version is safe with every other two, because a component that
  counts as nothing is above some of what is below nothing. On steady versions, where every component stands on
  the side of nothing its kind stands on, it is a total preorder.
Trusted boundary: none
Main exports: Place, steady, regular, cmpLists_isLE_trans
-/
import OpenCargo.Maven.Version
import Mathlib.Data.List.Lex
import Mathlib.Data.Char

namespace OpenCargo.Maven.Version

/-! ### Texts and numbers -/

theorem isLE_cmpText {a b : Text} : (cmpText a b).isLE = true ↔ a ≤ b := by
  rw [cmpText, compareOfLessAndEq]
  split
  · rename_i less
    exact ⟨fun _ => less.le, fun _ => rfl⟩
  · split
    · rename_i same
      exact ⟨fun _ => same.le, fun _ => rfl⟩
    · rename_i above other
      exact ⟨nofun, fun below => absurd (lt_of_le_of_ne below other) above⟩

instance : Std.TransCmp cmpText where
  eq_swap := compareOfLessAndEq_eq_swap le_antisymm le_total not_le
  isLE_trans first rest := isLE_cmpText.mpr ((isLE_cmpText.mp first).trans (isLE_cmpText.mp rest))

instance : Std.LawfulEqCmp cmpText where
  compare_self := (compareOfLessAndEq_eq_eq le_refl not_le).mpr rfl
  eq_of_compare same := (compareOfLessAndEq_eq_eq le_refl not_le).mp same

instance : Std.TransCmp cmpInt :=
  inferInstanceAs (Std.TransCmp (compareLex (compareOn List.length) cmpText))

theorem cmpInt_eq {a b : Text} (same : cmpInt a b = .eq) : a = b :=
  Std.LawfulEqCmp.eq_of_compare (Ordering.then_eq_eq.mp same).2

/-! ### Turned round -/

theorem cmpLists_nil (items : List Item) : cmpLists items [] = (cmpNone items).swap := by
  induction items with
  | nil => rfl
  | cons item items ih => rw [cmpLists, cmpNone, ih, Ordering.swap_then, Ordering.swap_swap]

mutual

theorem cmpItem_swap (x y : Item) : cmpItem y x = (cmpItem x y).swap := by
  match x, y with
  | .int a, .int b =>
      show cmpInt b a = (cmpInt a b).swap
      exact Std.OrientedCmp.eq_swap
  | .str a, .str b =>
      show cmpText (qualifierRank b) (qualifierRank a) = (cmpText (qualifierRank a) (qualifierRank b)).swap
      exact Std.OrientedCmp.eq_swap
  | .list xs, .list ys => exact cmpLists_swap xs ys
  | .int _, .str _ | .int _, .list _ | .str _, .int _ | .str _, .list _ | .list _, .int _ | .list _, .str _ => rfl

theorem cmpLists_swap (xs ys : List Item) : cmpLists ys xs = (cmpLists xs ys).swap := by
  match xs, ys with
  | [], [] => rfl
  | [], y :: ys => exact cmpLists_nil (y :: ys)
  | x :: xs, [] => rw [cmpLists_nil, Ordering.swap_swap]; rfl
  | x :: xs, y :: ys => rw [cmpLists, cmpLists, cmpItem_swap x y, cmpLists_swap xs ys, Ordering.swap_then]

end

theorem cmpLists_self (items : List Item) : cmpLists items items = .eq := by
  have turned := cmpLists_swap items items
  cases same : cmpLists items items with
  | eq => rfl
  | lt | gt =>
      rw [same] at turned
      cases turned

/-! ### Steady versions -/

/-- Where a component stands in a version. -/
inductive Place where
  /-- At the start of the version. -/
  | start
  /-- After a component that is not null: a version may end here. -/
  | after
  /-- At the start of what follows a dash. -/
  | opening
  /-- After a null component: one that is not null follows. -/
  | held
deriving Repr, DecidableEq, Inhabited

/-- Where a version may end. -/
def Place.last : Place → Bool
  | .start | .after => true
  | .opening | .held => false

def Place.next (item : Item) : Place := if isNull item then .held else .after

/-- The side of nothing on which a component stands with what follows it. -/
def side (items : List Item) : Ordering := cmpLists items []

/-- Where a version may end, a number stands above nothing and a qualifier below; a qualifier a version
starts with is not one of the release. -/
def placed : Place → Item → List Item → Bool
  | .start, .int n, rest | .after, .int n, rest => side (.int n :: rest) == .gt
  | .start, .str s, _ | .opening, .str s, _ => !s.isEmpty
  | .after, .str s, rest => side (.str s :: rest) == .lt
  | .opening, .int n, _ => !n.isEmpty
  | .start, .list _, _ | .opening, .list _, _ => false
  | .after, .list _, _ | .held, _, _ => true

mutual

def steadyItem : Item → Bool
  | .int _ | .str _ => true
  | .list items => steady .opening items

def steady (place : Place) : List Item → Bool
  | [] => place.last
  | item :: rest => placed place item rest && steadyItem item && steady (Place.next item) rest

end

/-- A version whose components all stand on their own side of nothing. -/
def regular (version : Text) : Bool := steady .start (parse version)

/-! ### Sides -/

theorem qualifierRank_known {q : Text} {i : Nat} (found : qualifiers.findIdx? (· == q) = some i) :
    ∃ known, qualifiers[i]? = some known ∧ known = q ∧ i < 7 := by
  obtain ⟨inside, named, _⟩ := List.findIdx?_eq_some_iff_getElem.mp found
  exact ⟨_, List.getElem?_eq_getElem inside, eq_of_beq named, inside⟩

theorem qualifierRank_injective {q r : Text} (same : qualifierRank q = qualifierRank r) : q = r := by
  have seven : Nat.toDigits 10 qualifiers.length = ['7'] := by decide
  rw [qualifierRank, qualifierRank, seven] at same
  split at same
  · rename_i i found
    obtain ⟨_, at_i, rfl, small⟩ := qualifierRank_known found
    split at same
    · rename_i j found'
      obtain ⟨_, at_j, rfl, small'⟩ := qualifierRank_known found'
      rw [Nat.toDigits_of_lt_base (by omega), Nat.toDigits_of_lt_base (by omega)] at same
      have same : i = j := by
        interval_cases i <;> interval_cases j <;> first | rfl | exact absurd same (by decide)
      rw [same, at_j] at at_i
      exact (Option.some.inj at_i).symm
    · rw [Nat.toDigits_of_lt_base (by omega)] at same
      cases (List.cons.inj same).2
  · split at same
    · rename_i j found'
      obtain ⟨_, _, rfl, small'⟩ := qualifierRank_known found'
      rw [Nat.toDigits_of_lt_base (by omega)] at same
      cases (List.cons.inj same).2
    · exact (List.cons.inj (List.cons.inj same).2).2

theorem cmpNull_str_ne_eq {s : Text} (named : s ≠ []) : cmpNull (.str s) ≠ .eq := by
  intro same
  exact named (qualifierRank_injective (Std.LawfulEqCmp.eq_of_compare same))

section Sides

variable {place : Place} {xs ys zs : List Item}

theorem opening_sided {items : List Item} (steady_ : steady .opening items = true) :
    ∃ first rest, items = first :: rest ∧ (∀ inner, first ≠ .list inner) ∧ cmpNull first ≠ .eq := by
  cases items with
  | nil => cases steady_
  | cons first rest =>
      refine ⟨first, rest, rfl, ?_⟩
      simp only [steady, Bool.and_eq_true] at steady_
      cases first with
      | int n =>
          refine ⟨fun _ => nofun, ?_⟩
          have big : n.isEmpty = false := by simpa [placed] using steady_.1.1
          simp [cmpNull, big]
      | str s =>
          refine ⟨fun _ => nofun, cmpNull_str_ne_eq ?_⟩
          simpa [placed] using steady_.1.1
      | list inner => simp [placed] at steady_

theorem side_cons (item : Item) (rest : List Item) : side (item :: rest) = (cmpNull item).then (side rest) := by
  rw [side, cmpLists, side]

/-- A component that is no list is below another when the one is below nothing and the other above. -/
theorem cmpItem_of_sides {x z : Item} (plainX : ∀ inner, x ≠ .list inner) (plainZ : ∀ inner, z ≠ .list inner)
    (below : cmpNull x = .lt) (above : cmpNull z = .gt) : cmpItem x z = .lt := by
  cases x with
  | int n =>
      rw [cmpNull] at below
      split at below <;> cases below
  | list inner => exact absurd rfl (plainX inner)
  | str s =>
      cases z with
      | int _ => rfl
      | list inner => exact absurd rfl (plainZ inner)
      | str r =>
          rw [cmpNull] at below above
          show cmpText (qualifierRank s) (qualifierRank r) = .lt
          exact Std.TransCmp.lt_trans below (Std.OrientedCmp.gt_iff_lt.mp above)

theorem side_of_cmpNull {item : Item} {rest : List Item} (sided : cmpNull item ≠ .eq) :
    side (item :: rest) = cmpNull item := by
  rw [side_cons]
  cases item_side : cmpNull item with
  | eq => exact absurd item_side sided
  | lt | gt => rfl

theorem cmpNull_list {items : List Item} (steady_ : steadyItem (.list items) = true) : cmpNull (.list items) ≠ .eq := by
  obtain ⟨first, rest, rfl, _, sided⟩ := opening_sided steady_
  exact sided

theorem sided (last : place.last = true) (steady_ : steady place xs = true) (some_ : xs ≠ []) : side xs ≠ .eq := by
  cases xs with
  | nil => exact absurd rfl some_
  | cons item rest =>
      simp only [steady, Bool.and_eq_true] at steady_
      obtain ⟨⟨here, inner⟩, _⟩ := steady_
      cases item with
      | int n =>
          have above : side (.int n :: rest) = .gt := by
            cases place with
            | start | after => exact eq_of_beq here
            | opening | held => cases last
          rw [above]
          exact nofun
      | str s =>
          cases place with
          | start =>
              have named : s ≠ [] := by simpa [placed] using here
              have sided := cmpNull_str_ne_eq named
              rw [side_of_cmpNull sided]
              exact sided
          | after =>
              have below : side (.str s :: rest) = .lt := eq_of_beq here
              rw [below]
              exact nofun
          | opening | held => cases last
      | list items =>
          have sided := cmpNull_list inner
          rw [side_of_cmpNull sided]
          exact sided

theorem list_lt {items others : List Item} (steadyX : steadyItem (.list items) = true)
    (steadyZ : steadyItem (.list others) = true) (below : cmpNull (.list items) = .lt)
    (above : cmpNull (.list others) = .gt) : cmpItem (.list items) (.list others) = .lt := by
  obtain ⟨x, xs, rfl, plainX, _⟩ := opening_sided steadyX
  obtain ⟨z, zs, rfl, plainZ, _⟩ := opening_sided steadyZ
  rw [cmpItem, cmpLists, cmpItem_of_sides plainX plainZ below above, Ordering.lt_then]

/-- The first components of two versions, the one below nothing and the other above. -/
theorem head_lt {x z : Item} {xs zs : List Item} (last : place.last = true)
    (steadyX : steady place (x :: xs) = true) (steadyZ : steady place (z :: zs) = true)
    (below : side (x :: xs) = .lt) (above : side (z :: zs) = .gt) : cmpItem x z = .lt := by
  simp only [steady, Bool.and_eq_true] at steadyX steadyZ
  obtain ⟨⟨hereX, innerX⟩, _⟩ := steadyX
  obtain ⟨⟨hereZ, innerZ⟩, _⟩ := steadyZ
  cases place with
  | opening | held => cases last
  | start =>
      cases x with
      | list _ => cases hereX
      | int n =>
          have numbered : side (.int n :: xs) = .gt := eq_of_beq hereX
          rw [below] at numbered
          cases numbered
      | str s =>
          cases z with
          | list _ => cases hereZ
          | int _ => rfl
          | str r =>
              have namedX : s ≠ [] := by simpa [placed] using hereX
              have namedZ : r ≠ [] := by simpa [placed] using hereZ
              rw [side_of_cmpNull (cmpNull_str_ne_eq namedX)] at below
              rw [side_of_cmpNull (cmpNull_str_ne_eq namedZ)] at above
              exact cmpItem_of_sides (fun _ => nofun) (fun _ => nofun) below above
  | after =>
      cases z with
      | str r =>
          have qualified : side (.str r :: zs) = .lt := eq_of_beq hereZ
          rw [above] at qualified
          cases qualified
      | int m =>
          cases x with
          | int n =>
              have numbered : side (.int n :: xs) = .gt := eq_of_beq hereX
              rw [below] at numbered
              cases numbered
          | str _ | list _ => rfl
      | list others =>
          cases x with
          | int n =>
              have numbered : side (.int n :: xs) = .gt := eq_of_beq hereX
              rw [below] at numbered
              cases numbered
          | str _ => rfl
          | list items =>
              rw [side_of_cmpNull (cmpNull_list innerX)] at below
              rw [side_of_cmpNull (cmpNull_list innerZ)] at above
              exact list_lt innerX innerZ below above

theorem below_lt_above (last : place.last = true) (steadyX : steady place xs = true)
    (steadyZ : steady place zs = true) (below : side xs = .lt) (above : side zs = .gt) : cmpLists xs zs = .lt := by
  cases xs with
  | nil => cases below
  | cons x xs =>
      cases zs with
      | nil => cases above
      | cons z zs => rw [cmpLists, head_lt last steadyX steadyZ below above, Ordering.lt_then]

end Sides

theorem side_nil_left (items : List Item) : cmpLists [] items = (side items).swap := cmpLists_swap items []

section Sides

variable {place : Place} {ys zs : List Item} {y z : Item}

theorem above_of_le (last : place.last = true) (steadyY : steady place ys = true)
    (steadyZ : steady place (z :: zs) = true) (above : side ys = .gt) (le : (cmpLists ys (z :: zs)).isLE = true) :
    side (z :: zs) = .gt := by
  cases side_z : side (z :: zs) with
  | gt => rfl
  | eq => exact absurd side_z (sided last steadyZ (List.cons_ne_nil z zs))
  | lt =>
      rw [cmpLists_swap (z :: zs) ys, below_lt_above last steadyZ steadyY side_z above] at le
      cases le

theorem below_of_le (last : place.last = true) (steadyY : steady place (y :: ys) = true)
    (steadyZ : steady place zs = true) (below : side zs = .lt) (le : (cmpLists (y :: ys) zs).isLE = true) :
    side (y :: ys) = .lt := by
  cases side_y : side (y :: ys) with
  | lt => rfl
  | eq => exact absurd side_y (sided last steadyY (List.cons_ne_nil y ys))
  | gt =>
      rw [cmpLists_swap zs (y :: ys), below_lt_above last steadyZ steadyY below side_y] at le
      cases le

theorem below_of_le_nil (last : place.last = true) (steadyY : steady place (y :: ys) = true)
    (le : (cmpLists (y :: ys) []).isLE = true) : side (y :: ys) = .lt := by
  cases side_y : side (y :: ys) with
  | lt => rfl
  | eq => exact absurd side_y (sided last steadyY (List.cons_ne_nil y ys))
  | gt =>
      rw [← side, side_y] at le
      cases le

theorem above_of_nil_le (last : place.last = true) (steadyY : steady place (y :: ys) = true)
    (le : (cmpLists [] (y :: ys)).isLE = true) : side (y :: ys) = .gt := by
  rw [side_nil_left] at le
  cases side_y : side (y :: ys) with
  | gt => rfl
  | eq => exact absurd side_y (sided last steadyY (List.cons_ne_nil y ys))
  | lt =>
      rw [side_y] at le
      cases le

end Sides

/-! ### A total preorder -/

theorem isNull_of_eq {x y : Item} (steadyX : steadyItem x = true) (steadyY : steadyItem y = true)
    (same : cmpItem x y = .eq) : isNull x = isNull y := by
  cases x with
  | int n =>
      cases y with
      | int m =>
          obtain rfl := cmpInt_eq same
          rfl
      | str _ | list _ => cases same
  | str s =>
      cases y with
      | int _ | list _ => cases same
      | str r =>
          have ranks : cmpText (qualifierRank s) (qualifierRank r) = .eq := same
          rw [qualifierRank_injective (Std.LawfulEqCmp.eq_of_compare ranks)]
  | list xs =>
      cases y with
      | int _ | str _ => cases same
      | list ys =>
          obtain ⟨_, _, rfl, _⟩ := opening_sided steadyX
          obtain ⟨_, _, rfl, _⟩ := opening_sided steadyY
          rfl

theorem through_of_trans {α : Type} {cmp : α → α → Ordering} [Std.TransCmp cmp] {a b c : α}
    (first : (cmp a b).isLE = true) (rest : (cmp b c).isLE = true) : cmp a c = (cmp a b).then (cmp b c) := by
  cases below : cmp a b with
  | gt =>
      rw [below] at first
      cases first
  | eq => exact Std.TransCmp.congr_left below
  | lt => exact Std.TransCmp.lt_of_lt_of_isLE below rest

theorem then_lt {order : Ordering} (le : order.isLE = true) : order.then .lt = .lt := by
  cases order with
  | lt | eq => rfl
  | gt => cases le

theorem then_through {a b c d e : Ordering} (first : (a.then c).isLE = true) (rest : (b.then d).isLE = true)
    (tails : a = .eq → b = .eq → e = c.then d) : (a.then b).then e = (a.then c).then (b.then d) := by
  cases a with
  | lt => rfl
  | gt => cases first
  | eq =>
      cases b with
      | lt => exact (then_lt first).symm
      | gt => cases rest
      | eq => exact tails rfl rfl

mutual

theorem cmpItem_through {x y z : Item} (steadyX : steadyItem x = true) (steadyY : steadyItem y = true)
    (steadyZ : steadyItem z = true) (first : (cmpItem x y).isLE = true) (rest : (cmpItem y z).isLE = true) :
    cmpItem x z = (cmpItem x y).then (cmpItem y z) := by
  match x, y, z with
  | .int a, .int b, .int c =>
      show cmpInt a c = (cmpInt a b).then (cmpInt b c)
      exact through_of_trans first rest
  | .str a, .str b, .str c =>
      show cmpText (qualifierRank a) (qualifierRank c) =
        (cmpText (qualifierRank a) (qualifierRank b)).then (cmpText (qualifierRank b) (qualifierRank c))
      exact through_of_trans first rest
  | .list xs, .list ys, .list zs => exact cmpLists_through steadyX steadyY steadyZ first rest
  | .int _, .str _, _ | .int _, .list _, _ | .list _, .str _, _ => cases first
  | .int _, .int _, .str _ | .int _, .int _, .list _ | .str _, .int _, .str _ | .str _, .int _, .list _
  | .list _, .int _, .str _ | .list _, .int _, .list _ | .str _, .list _, .str _ | .list _, .list _, .str _ =>
      cases rest
  | .str _, .int _, .int _ | .list _, .int _, .int _ | .str _, .list _, .list _ | .str _, .list _, .int _ => rfl
  | .str _, .str _, .int _ | .str _, .str _, .list _ | .list _, .list _, .int _ => exact (then_lt first).symm

theorem cmpLists_through {place : Place} {xs ys zs : List Item} (steadyX : steady place xs = true)
    (steadyY : steady place ys = true) (steadyZ : steady place zs = true)
    (first : (cmpLists xs ys).isLE = true) (rest : (cmpLists ys zs).isLE = true) :
    cmpLists xs zs = (cmpLists xs ys).then (cmpLists ys zs) := by
  match xs, ys, zs with
  | [], [], zs => rfl
  | x :: xs, [], [] =>
      show side (x :: xs) = (side (x :: xs)).then .eq
      rw [Ordering.then_eq]
  | [], y :: ys, [] =>
      have above := above_of_nil_le steadyX steadyY first
      have below := below_of_le_nil steadyX steadyY rest
      rw [above] at below
      cases below
  | [], y :: ys, z :: zs =>
      have aboveY := above_of_nil_le steadyX steadyY first
      have aboveZ := above_of_le steadyX steadyY steadyZ aboveY rest
      rw [side_nil_left, side_nil_left, aboveY, aboveZ]
      rfl
  | x :: xs, [], z :: zs =>
      have below := below_of_le_nil steadyY steadyX first
      have above := above_of_nil_le steadyY steadyZ rest
      rw [below_lt_above steadyY steadyX steadyZ below above, ← side, below]
      rfl
  | x :: xs, y :: ys, [] =>
      have belowY := below_of_le_nil steadyZ steadyY rest
      have belowX := below_of_le steadyZ steadyX steadyY belowY first
      rw [← side, ← side, belowX, belowY, then_lt first]
  | x :: xs, y :: ys, z :: zs =>
      simp only [steady, Bool.and_eq_true] at steadyX steadyY steadyZ
      rw [cmpLists] at first rest
      have leXY := Ordering.isLE_left_of_isLE_then first
      have leYZ := Ordering.isLE_left_of_isLE_then rest
      have heads := cmpItem_through steadyX.1.2 steadyY.1.2 steadyZ.1.2 leXY leYZ
      rw [cmpLists, cmpLists, cmpLists, heads]
      refine then_through first rest fun sameXY sameYZ => ?_
      -- the heads are one component to the order: what comes after them comes at one place
      have nullXY := isNull_of_eq steadyX.1.2 steadyY.1.2 sameXY
      have nullYZ := isNull_of_eq steadyY.1.2 steadyZ.1.2 sameYZ
      rw [sameXY] at first
      rw [sameYZ] at rest
      rw [Place.next, ← nullXY] at steadyY
      rw [Place.next, ← nullYZ, ← nullXY] at steadyZ
      exact cmpLists_through steadyX.2 steadyY.2 steadyZ.2 first rest

end

theorem cmpLists_isLE_trans {place : Place} {xs ys zs : List Item} (steadyX : steady place xs = true)
    (steadyY : steady place ys = true) (steadyZ : steady place zs = true)
    (first : (cmpLists xs ys).isLE = true) (rest : (cmpLists ys zs).isLE = true) :
    (cmpLists xs zs).isLE = true := by
  rw [cmpLists_through steadyX steadyY steadyZ first rest]
  cases order : cmpLists xs ys with
  | lt => rfl
  | eq => exact rest
  | gt =>
      rw [order] at first
      cases first

end OpenCargo.Maven.Version
