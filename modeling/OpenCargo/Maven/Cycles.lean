/-
Module: OpenCargo.Maven.Cycles
Purpose: Where the comparison of Maven versions (`registry/maven/version.rs`) is a total preorder, and that it is
  on no version taken with all others: behind any version, `.sp` is above nothing, `-alpha` below it, and yet
  `-alpha` above `.sp`, or both are taken for the version itself.
Trusted boundary: none
Main exports: parse_sp, parse_alpha, no_version_is_safe, compare_orders_regular_versions
-/
import OpenCargo.Maven.Nulls

namespace OpenCargo.Maven.Version

/-- Transitivity, at three versions. -/
def Law (a b c : Text) : Prop := compare a b ≠ .gt → compare b c ≠ .gt → compare a c ≠ .gt

/-! ### Two versions behind a third -/

theorem cmpNull_of_null {item : Item} (null : isNull item = true) : cmpNull item = .eq := by
  cases item with
  | int n => simpa [cmpNull, isNull] using null
  | str s =>
      obtain rfl := List.isEmpty_iff.mp null
      show cmpText (qualifierRank []) (qualifierRank []) = .eq
      exact Std.ReflCmp.compare_self
  | list items =>
      obtain rfl := List.isEmpty_iff.mp null
      rfl

theorem side_null {item : Item} {rest : List Item} (null : isNull item = true) : side (item :: rest) = side rest := by
  rw [side_cons, cmpNull_of_null null, Ordering.eq_then]

theorem cmpLists_normalize (items tail : List Item) : cmpLists (items ++ tail) (normalize items) = side tail := by
  induction items using List.reverseRecOn generalizing tail with
  | nil => rfl
  | append_singleton items item ih =>
      by_cases null : isNull item = true
      · rw [normalize_concat_null null, List.append_assoc, ih, List.singleton_append, side_null null]
      · rw [normalize_concat_some null]
        calc cmpLists (items ++ [item] ++ tail) (items ++ [item])
            = cmpLists (items ++ [item] ++ tail) (items ++ [item] ++ []) := by rw [List.append_nil]
          _ = side tail := cmpLists_append _ _ _

/-- The first of three versions stands on the wrong sides of the others, or is taken for both of them. -/
structure Apart (base low high : List Item) : Prop where
  sorted : cmpLists low high = .lt
  sides : (cmpLists low base = .gt ∧ cmpLists high base = .lt) ∨ (cmpLists low base = .eq ∧ cmpLists high base = .eq)
  low_ : low ≠ []
  high_ : high ≠ []
  nothing : base = [] → cmpNull (.list low) = .eq ∧ cmpNull (.list high) = .eq

theorem isNull_list {items : List Item} (some_ : items ≠ []) : ¬isNull (.list items) = true := by
  simpa [isNull] using some_

theorem cmpLists_lists (items xs ys : List Item) :
    cmpLists (items ++ [.list xs]) (items ++ [.list ys]) = cmpLists xs ys := by
  rw [cmpLists_append, cmpLists, cmpItem]
  exact Ordering.then_eq

theorem cmpNull_behind {items inner : List Item} (null : ∀ item ∈ items, isNull item = true)
    (nothing : cmpNull (.list inner) = .eq) : cmpNull (.list (items ++ [.list inner])) = .eq := by
  cases items with
  | nil => exact nothing
  | cons item items =>
      show cmpNull item = .eq
      exact cmpNull_of_null (null item List.mem_cons_self)

theorem Apart.nest {base low high : List Item} (apart : Apart base low high) (items : List Item) :
    Apart (normalize (items ++ [.list base])) (items ++ [.list low]) (items ++ [.list high]) := by
  have sorted : cmpLists (items ++ [.list low]) (items ++ [.list high]) = .lt :=
    (cmpLists_lists items low high).trans apart.sorted
  by_cases empty : base = []
  · obtain ⟨lowNull, highNull⟩ := apart.nothing empty
    have null : isNull (.list base) = true := by
      rw [empty]
      rfl
    have flat (inner : List Item) (nothing : cmpNull (.list inner) = .eq) :
        cmpLists (items ++ [.list inner]) (normalize items) = .eq := by
      rw [cmpLists_normalize, side_cons, nothing]
      rfl
    rw [normalize_concat_null null]
    exact
      { sorted := sorted
        sides := .inr ⟨flat low lowNull, flat high highNull⟩
        low_ := by simp
        high_ := by simp
        nothing := fun gone =>
          have nulls := normalize_eq_nil.mp gone
          ⟨cmpNull_behind nulls lowNull, cmpNull_behind nulls highNull⟩ }
  · rw [normalize_concat_some (isNull_list empty)]
    exact
      { sorted := sorted
        sides := by
          rw [cmpLists_lists, cmpLists_lists]
          exact apart.sides
        low_ := by simp
        high_ := by simp
        nothing := by simp }

theorem closing_cons (items : List Item) (below : List (List Item)) (top : List Item) :
    closing (items :: below) top = closing below (items ++ [.list (normalize top)]) := rfl

theorem Apart.closing (below : List (List Item)) {base low high : List Item} (apart : Apart (normalize base) low high)
    (whole : normalize low = low) (whole' : normalize high = high) :
    Apart (normalize (closing below base)) (normalize (closing below low)) (normalize (closing below high)) := by
  induction below generalizing base low high with
  | nil =>
      rw [Version.closing, Version.closing, Version.closing, List.foldl_nil, List.foldl_nil, List.foldl_nil, whole,
        whole']
      exact apart
  | cons items below ih =>
      rw [closing_cons, closing_cons, closing_cons, whole, whole']
      exact ih (apart.nest items) (normalize_concat_some (isNull_list apart.low_))
        (normalize_concat_some (isNull_list apart.high_))

/-! ### No version is safe -/

section Behind

variable (version : Text)

/-- The innermost list where a separator follows. -/
def behind : List Item := (scan version).top ++ [component (scan version).token (scan version).digit false]

theorem parse_sp : parse (version ++ ".sp".toList) =
    normalize (closing (scan version).below (behind version ++ [.str "sp".toList])) := by
  have scanned : scan (version ++ ".sp".toList) = ⟨behind version, (scan version).below, "sp".toList, false⟩ := by
    have dot : (scan version).char '.' = ⟨behind version, (scan version).below, [], (scan version).digit⟩ := rfl
    rw [scan_append, show ".sp".toList = '.' :: "sp".toList from rfl, List.foldl_cons, dot]
    simp [Scan.char]
  rw [parse, ← scan, scanned, close_eq]
  rfl

theorem parse_alpha : parse (version ++ "-alpha".toList) =
    normalize (closing (scan version).below (behind version ++ [.list [.str "alpha".toList]])) := parse_dash

theorem parse_filled : parse version = normalize (closing (scan version).below (scan version).filled) := close_eq _

theorem normalize_filled : normalize (scan version).filled = normalize (behind version) := by
  rw [Scan.filled]
  split
  · rename_i empty
    have zero : isNull (component (scan version).token (scan version).digit false) = true := by
      rw [component, if_pos empty]
      rfl
    exact (normalize_concat_null zero).symm
  · rfl

end Behind

/-- Behind the same components a service pack is above nothing and an alpha below it. -/
theorem apart_behind {base items : List Item} (some_ : items ≠ []) (same : normalize base = normalize items) :
    Apart (normalize base) (items ++ [.str "sp".toList]) (items ++ [.list [.str "alpha".toList]]) := by
  have sp : side [.str "sp".toList] = .gt := by decide
  have alpha : side [.list [.str "alpha".toList]] = .lt := by decide
  have flat (last : Item) (gone : normalize items = []) : cmpNull (.list (items ++ [last])) = .eq := by
    obtain ⟨item, rest, rfl⟩ := List.exists_cons_of_ne_nil some_
    show cmpNull item = .eq
    exact cmpNull_of_null (normalize_eq_nil.mp gone item List.mem_cons_self)
  rw [same]
  exact
    { sorted := by rw [cmpLists_append]; rfl
      sides := .inl ⟨(cmpLists_normalize items _).trans sp, (cmpLists_normalize items _).trans alpha⟩
      low_ := by simp
      high_ := by simp
      nothing := fun gone => ⟨flat _ gone, flat _ gone⟩ }

theorem no_version_is_safe (version : Text) : ∃ b c, ¬(Law version b c ∧ Law c version b) := by
  have some_ : behind version ≠ [] := by simp [behind]
  have apart := (apart_behind some_ (normalize_filled version)).closing (scan version).below
    (normalize_concat_some (by decide)) (normalize_concat_some (by decide))
  rw [← parse_filled, ← parse_sp, ← parse_alpha] at apart
  refine ⟨version ++ ".sp".toList, version ++ "-alpha".toList, ?_⟩
  rintro ⟨above, below⟩
  rw [Law, compare, compare, compare] at above below
  rw [cmpLists_swap (parse (version ++ ".sp".toList)) (parse version)] at above below
  rw [cmpLists_swap (parse (version ++ "-alpha".toList)) (parse version)] at above
  rw [cmpLists_swap (parse (version ++ ".sp".toList)) (parse (version ++ "-alpha".toList))] at below
  rcases apart.sides with ⟨low, high⟩ | ⟨low, high⟩
  · rw [low, high, apart.sorted] at above
    exact above (by decide) (by decide) rfl
  · rw [low, high, apart.sorted] at below
    exact below (by decide) (by decide) rfl

/-- Turned round the comparison is reversed, and every version equals itself; regular versions are in a total
preorder; and every version at all is one of three that are not. -/
theorem compare_orders_regular_versions (a b c : Text) :
    compare b a = (compare a b).swap ∧ compare a a = .eq ∧
      (regular a = true → regular b = true → regular c = true → Law a b c) ∧
        ∃ b c, ¬(Law a b c ∧ Law c a b) := by
  refine ⟨cmpLists_swap _ _, cmpLists_self _, fun steadyA steadyB steadyC first rest => ?_, no_version_is_safe a⟩
  have first := Ordering.isLE_iff_ne_gt.mpr first
  have rest := Ordering.isLE_iff_ne_gt.mpr rest
  exact Ordering.isLE_iff_ne_gt.mp (cmpLists_isLE_trans steadyA steadyB steadyC first rest)

theorem compare_orders_releases : Law "1-rc1".toList "1".toList "1.0.1".toList :=
  (compare_orders_regular_versions _ _ _).2.2.1 (by decide) (by decide) (by decide)

/-- `2-sp` is above `2`, `2` above `2.0-rc1`, and that above `2-sp`. -/
theorem zero_above_service_pack : ¬∀ a b c, Law a b c := by
  intro law
  have cycle := law "2".toList "2-sp".toList "2.0-rc1".toList
  rw [Law] at cycle
  exact cycle (by decide) (by decide) (by decide)

end OpenCargo.Maven.Version
