/-
Module: OpenCargo.Nuget.Windows
Purpose: When the windows of a search are those of one list. The ids of everything the members hold for a query, in
  order and each once, do not depend on the window; a window shows its part of them exactly where the sum of skip
  and take fits, every id up to its end is within reach of a member's cut, and none of its hits is without a
  version.
Trusted boundary: as Nuget.Search
Main exports: Shows, Placed, hosted_in_reach, shows_iff_placed
-/
import OpenCargo.Nuget.Search

namespace OpenCargo.Nuget.Search

open OpenCargo.Lib

variable {reading : Reading} {params : SearchParams} {members : List Member}

/-! ### One list for every window -/

/-- The ids the members hold for a query, in order, each once. -/
def matching (reading : Reading) (params : SearchParams) (members : List Member) : List Text :=
  ((members.flatMap fun m => (m.listing reading params).map Hit.key).dedup).insertionSort (· ≤ ·)

theorem mem_matching {id : Text} :
    id ∈ matching reading params members ↔ ∃ m ∈ members, id ∈ (m.listing reading params).map Hit.key := by
  rw [matching, List.mem_insertionSort, List.mem_dedup, List.mem_flatMap]

theorem nodup_matching : (matching reading params members).Nodup :=
  (List.perm_insertionSort _ _).nodup_iff.mpr (List.nodup_dedup _)

theorem sorted_matching : (matching reading params members).Pairwise (· ≤ ·) := List.pairwise_insertionSort _ _

theorem matching_asked (skip? take? : Option UInt32) :
    matching reading { params with skip?, take? } members = matching reading params members := rfl

/-! ### What a search shows of it -/

/-- The members' rows up to a cut. -/
def rows (reading : Reading) (params : SearchParams) (members : List Member) (n : Nat) : List Hit :=
  members.flatMap fun m => (m.listing reading params).take n

theorem cut_eq (fits : params.skip.toNat + params.take.toNat < 2 ^ 32) :
    params.cut.toNat = params.skip.toNat + params.take.toNat := by
  rw [SearchParams.cut, UInt32.toNat_add, Nat.mod_eq_of_lt fits]

theorem answer_hits (m : Member) :
    (m.answer reading params).hits = (m.listing reading params).take params.cut.toNat := by
  cases m with
  | hosted candidates once =>
      rw [Member.answer, Member.listing, ← List.map_take]
      rfl
  | upstream total ranked => rfl

theorem countHits_snd (total : Nat) (out hits : List Hit) : (countHits total out hits).2 = firsts Hit.key out hits := by
  induction hits generalizing total out with
  | nil => rfl
  | cons h hits ih =>
      rw [countHits, firsts]
      split <;> rw [ih]

theorem firsts_append (out xs ys : List Hit) : firsts Hit.key out (xs ++ ys) = firsts Hit.key (firsts Hit.key out xs) ys := by
  induction xs generalizing out with
  | nil => rfl
  | cons x xs ih => rw [List.cons_append, firsts, ih, firsts]

theorem countAll_snd (total : Nat) (out : List Hit) (found : List Found) :
    (countAll total out found).2 = firsts Hit.key out (found.flatMap Found.hits) := by
  induction found generalizing total out with
  | nil => rfl
  | cons f found ih => rw [countAll, ih, countHits_snd, List.flatMap_cons, firsts_append]

/-- The union of the members' rows: the first hit of each id, in the order of the ids. -/
def union (reading : Reading) (params : SearchParams) (members : List Member) (n : Nat) : List Hit :=
  (firsts Hit.key [] (rows reading params members n)).insertionSort fun a b => a.key ≤ b.key

theorem merge_snd (skip take : UInt32) :
    (merge (members.map (Member.answer reading params)) skip take).2 =
      ((union reading params members params.cut.toNat).drop skip.toNat).take take.toNat := by
  have all : (members.map (Member.answer reading params)).flatMap Found.hits =
      rows reading params members params.cut.toNat := by
    rw [List.flatMap_map, rows]
    exact congrArg (fun f => List.flatMap f members) (funext answer_hits)
  rw [merge]
  have counted := countAll_snd 0 [] (members.map (Member.answer reading params))
  generalize countAll 0 [] (members.map (Member.answer reading params)) = union_ at counted ⊢
  obtain ⟨total, hits⟩ := union_
  dsimp only at counted ⊢
  rw [all] at counted
  rw [union, ← counted]
  split
  · rfl
  · rename_i few
    have alone : hits.insertionSort (fun a b => a.key ≤ b.key) = hits := by
      match hits, few with
      | [], _ => rfl
      | [_], _ => rfl
      | _ :: _ :: _, few => exact absurd (by simp) few
    rw [alone]

theorem map_union (n : Nat) :
    (union reading params members n).map Hit.key =
      ((firsts Hit.key [] (rows reading params members n)).map Hit.key).insertionSort (· ≤ ·) :=
  List.map_insertionSort _ _ _ _ fun _ _ _ _ => Iff.rfl

theorem mem_map_union {n : Nat} {id : Text} :
    id ∈ (union reading params members n).map Hit.key ↔
      ∃ m ∈ members, id ∈ ((m.listing reading params).take n).map Hit.key := by
  rw [map_union, List.mem_insertionSort, mem_map_firsts, rows, List.map_flatMap, List.mem_flatMap]
  simp

theorem map_union_sublist (n : Nat) :
    ((union reading params members n).map Hit.key).Sublist (matching reading params members) := by
  have once : ((union reading params members n).map Hit.key).Nodup := by
    rw [map_union]
    exact (List.perm_insertionSort _ _).nodup_iff.mpr (map_firsts_nodup .nil)
  have sorted : ((union reading params members n).map Hit.key).Pairwise (· ≤ ·) := by
    rw [map_union]
    exact List.pairwise_insertionSort _ _
  refine List.sublist_of_subperm_of_pairwise (once.subperm fun id mem => ?_) sorted sorted_matching
  obtain ⟨m, mem', within⟩ := mem_map_union.mp mem
  rw [List.map_take] at within
  exact mem_matching.mpr ⟨m, mem', List.mem_of_mem_take within⟩

/-! ### What is within reach -/

def Member.isHosted : Member → Bool
  | hosted .. => true
  | upstream .. => false

theorem map_filterMap_keep (query : FeedQuery) (candidates : List FeedHit) :
    ((candidates.filterMap (query.keep reading)).map fun c => c.package.name).Sublist
      (candidates.map fun c => c.package.name) := by
  induction candidates with
  | nil => exact .slnil
  | cons c candidates ih =>
      rw [List.filterMap_cons, List.map_cons]
      split
      · exact ih.cons _
      · rename_i kept found
        rw [FeedQuery.keep] at found
        split at found
        · cases found
        · cases found
          exact ih.cons_cons _

theorem map_listing_hosted {m : Member} (hosted : m.isHosted = true) :
    ((m.listing reading params).map Hit.key).Nodup ∧ ((m.listing reading params).map Hit.key).Pairwise (· ≤ ·) := by
  cases m with
  | upstream total ranked => cases hosted
  | hosted candidates once =>
      have names : ((Member.hosted candidates once).listing reading params).map Hit.key =
          ((feedQuery params).kept reading candidates).map fun c => c.package.name := by
        rw [Member.listing, List.map_map]
        rfl
      rw [names, FeedQuery.kept]
      refine ⟨?_, ?_⟩
      · refine ((List.perm_insertionSort _ _).map _).nodup_iff.mpr ?_
        exact once.sublist ((map_filterMap_keep _ _).trans (List.filter_sublist.map _))
      · rw [List.map_insertionSort _ (· ≤ ·) _ _ fun _ _ _ _ => Iff.rfl]
        exact List.pairwise_insertionSort _ _

/-- What a hosted member lists stands no further down there than among all the ids. -/
theorem hosted_in_reach {m : Member} {n : Nat} {id : Text} (mem : m ∈ members) (hosted : m.isHosted = true)
    (lists : id ∈ (m.listing reading params).map Hit.key) (first : id ∈ (matching reading params members).take n) :
    id ∈ ((m.listing reading params).take n).map Hit.key := by
  obtain ⟨once, sorted⟩ : ((m.listing reading params).map Hit.key).Nodup ∧
      ((m.listing reading params).map Hit.key).Pairwise (· ≤ ·) := map_listing_hosted hosted
  have part : ((m.listing reading params).map Hit.key).Sublist (matching reading params members) :=
    List.sublist_of_subperm_of_pairwise (once.subperm fun id there => mem_matching.mpr ⟨m, mem, there⟩) sorted
      sorted_matching
  rw [List.map_take]
  exact mem_take_of_sublist part nodup_matching lists first

/-! ### The windows -/

/-- The sum fits, and the window shows its part of the one list. -/
def Shows (reading : Reading) (params : SearchParams) (members : List Member) : Prop :=
  params.skip.toNat + params.take.toNat < 2 ^ 32 ∧
    (search reading params members).2.map Hit.key =
      ((matching reading params members).drop params.skip.toNat).take params.take.toNat

/-- The sum fits; unless the window is empty, every id up to its end is listed by a hosted member or ranked high
enough by an upstream; and of each id in the window, the first hit within reach has a version. -/
def Placed (reading : Reading) (params : SearchParams) (members : List Member) : Prop :=
  let (skip, take) := (params.skip.toNat, params.take.toNat)
  let ids := matching reading params members
  skip + take < 2 ^ 32 ∧
    (take = 0 ∨ ids.length ≤ skip ∨ ∀ id ∈ ids.take (skip + take), ∃ m ∈ members,
      m.isHosted = true ∧ id ∈ (m.listing reading params).map Hit.key ∨
        id ∈ ((m.listing reading params).take (skip + take)).map Hit.key) ∧
    ∀ id ∈ (ids.drop skip).take take, ∀ hit,
      (rows reading params members (skip + take)).find? (fun h => h.key == id) = some hit → hit.entries ≠ []

theorem find?_rows_of_mem {n : Nat} {h : Hit} (mem : h ∈ union reading params members n) :
    (rows reading params members n).find? (fun o => o.key == h.key) = some h := by
  have there : h ∈ firsts Hit.key [] (rows reading params members n) := (List.mem_insertionSort _).mp mem
  have once : ((firsts Hit.key [] (rows reading params members n)).map Hit.key).Nodup := map_firsts_nodup .nil
  have found : (firsts Hit.key [] (rows reading params members n)).find? (fun o => o.key == h.key) =
      ([].find? fun o : Hit => o.key == h.key).or
        ((rows reading params members n).find? fun o => o.key == h.key) := find?_firsts
  rw [List.find?_nil, Option.none_or] at found
  rw [← found]
  obtain ⟨other, held⟩ := Option.isSome_iff_exists.mp
    (List.find?_isSome.mpr ⟨h, there, beq_self_eq_true h.key⟩ :
      ((firsts Hit.key [] (rows reading params members n)).find? fun o => o.key == h.key).isSome)
  rw [held]
  have same : other.key = h.key := by simpa using List.find?_some held
  rw [List.inj_on_of_nodup_map once (List.mem_of_find?_eq_some held) there same]

/-- A list that is filtered is still as long as another that is no shorter only where nothing is left out. -/
theorem map_filter_eq_iff {hits : List Hit} {p : Hit → Bool} {ids : List Text} (long : hits.length ≤ ids.length) :
    (hits.filter p).map Hit.key = ids ↔ hits.map Hit.key = ids ∧ ∀ h ∈ hits, p h = true := by
  constructor
  · rintro rfl
    rw [List.length_map] at long
    have all := List.filter_sublist.eq_of_length_le long
    exact ⟨by rw [all], fun h mem => List.of_mem_filter (all.symm ▸ mem)⟩
  · rintro ⟨rfl, all⟩
    rw [List.filter_eq_self.mpr all]

theorem shows_iff_placed : Shows reading params members ↔ Placed reading params members := by
  refine and_congr_right fun fits => ?_
  have sublist : ((union reading params members (params.skip.toNat + params.take.toNat)).map Hit.key).Sublist
      (matching reading params members) := map_union_sublist _
  have shown : (search reading params members).2 =
      (((union reading params members (params.skip.toNat + params.take.toNat)).drop params.skip.toNat).take
        params.take.toNat).filter fun h => !h.entries.isEmpty := by
    rw [← cut_eq fits, ← merge_snd]
    rfl
  have windows := window_eq_iff (k := params.skip.toNat) (t := params.take.toNat) sublist nodup_matching
  rw [shown, map_filter_eq_iff ?_]
  · have reach : (∀ id ∈ (matching reading params members).take (params.skip.toNat + params.take.toNat),
        id ∈ (union reading params members (params.skip.toNat + params.take.toNat)).map Hit.key) ↔
        ∀ id ∈ (matching reading params members).take (params.skip.toNat + params.take.toNat), ∃ m ∈ members,
          m.isHosted = true ∧ id ∈ (m.listing reading params).map Hit.key ∨
            id ∈ ((m.listing reading params).take (params.skip.toNat + params.take.toNat)).map Hit.key := by
      refine forall₂_congr fun id first => mem_map_union.trans (exists_congr fun m => and_congr_right fun mem => ?_)
      exact ⟨.inr, fun either => either.elim (fun ⟨hosted, lists⟩ => hosted_in_reach mem hosted lists first) fun there => there⟩
    rw [List.map_take, List.map_drop, windows, reach]
    refine and_congr_right fun placed => ?_
    have same := windows.mpr (placed.imp_right (.imp_right reach.mpr))
    rw [← List.map_drop, ← List.map_take] at same
    rw [← same]
    constructor
    · intro all id mem hit found
      obtain ⟨h, within, rfl⟩ := List.mem_map.mp mem
      have own := find?_rows_of_mem (List.mem_of_mem_drop (List.mem_of_mem_take within))
      obtain rfl := Option.some.inj (own.symm.trans found)
      simpa using all h within
    · intro all h within
      have own := find?_rows_of_mem (List.mem_of_mem_drop (List.mem_of_mem_take within))
      simpa using all h.key (List.mem_map_of_mem within) h own
  · rw [List.length_take, List.length_drop, List.length_take, List.length_drop]
    have fewer := sublist.length_le
    rw [List.length_map] at fewer
    omega

/-- Every window is that of the one list of ids, whatever skip and take, exactly where these are placed. -/
theorem windows_of_one_list (reading : Reading) (params : SearchParams) (members : List Member) :
    (matching reading params members).Nodup ∧ ∀ skip? take? : Option UInt32,
      let asked := { params with skip?, take? }
      matching reading asked members = matching reading params members ∧
        (Shows reading asked members ↔ Placed reading asked members) :=
  ⟨nodup_matching, fun skip? take? => ⟨matching_asked skip? take?, shows_iff_placed⟩⟩

/-! ### Hits that are ranked by something else than their ids -/

section Example

def plain : Reading := ⟨id, fun _ => none, fun _ => none⟩

def versioned (key : Text) : Hit := ⟨key, [⟨key, "1.0.0".toList, "1.0.0".toList, true, none, default, none⟩], 0⟩

/-- An upstream that ranks `b` above `a`. -/
def ranking : List Member := [.upstream 2 [versioned "b".toList, versioned "a".toList]]

def asking (skip take : UInt32) : SearchParams := ⟨none, some skip, some take, none, none, none⟩

/-- The first window and the second both show `b`, and no window of one shows `a`. -/
theorem second_window_repeats : ¬∃ ids : List Text, ids.Nodup ∧ ∀ skip take : UInt32,
    skip.toNat + take.toNat < 2 ^ 32 → take ≤ maxTake →
      (search plain (asking skip take) ranking).2.map Hit.key = (ids.drop skip.toNat).take take.toNat := by
  rintro ⟨ids, once, tiles⟩
  have first := tiles 0 1 (by decide) (by decide)
  have second := tiles 1 1 (by decide) (by decide)
  have one : (search plain (asking 0 1) ranking).2.map Hit.key = ["b".toList] := by decide +kernel
  have two : (search plain (asking 1 1) ranking).2.map Hit.key = ["b".toList] := by decide +kernel
  rw [one] at first
  rw [two] at second
  match ids, once, first, second with
  | [], _, first, _ => cases first
  | [_], _, _, second => cases second
  | x :: y :: rest, once, first, second =>
      have head : "b".toList = x := (List.cons.inj first).1
      have next : "b".toList = y := (List.cons.inj second).1
      rw [← head, ← next] at once
      exact (List.nodup_cons.mp once).1 List.mem_cons_self

end Example

end OpenCargo.Nuget.Search
