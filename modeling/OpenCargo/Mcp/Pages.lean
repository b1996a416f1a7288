/-
Module: OpenCargo.Mcp.Pages
Purpose: Paging the catalogue. The batches of one member read a stretch of its rows, the merged page is a
  stretch of the first surviving row of each key up to its cursor, and so following `nextCursor` ends and
  yields each of them once, whatever the limit.
Trusted boundary: none
Main exports: firsts, merge_stretch, allEntries, listServers_follows
-/
import OpenCargo.Lib.Rows
import OpenCargo.Mcp.Catalog

namespace OpenCargo.Mcp

open OpenCargo.Lib

/-! ### One member -/

/-- The rows a gate serves, each with what it makes of it. -/
def judged (judge : CatalogRow → Governance.Visibility) (rows : List CatalogRow) :
    List (CatalogRow × Governance.Visibility) :=
  (rows.map fun row => (row, judge row)).filter (·.2.served)

section Member

variable {judge : CatalogRow → Governance.Visibility} {rows : List CatalogRow}

theorem judged_append (xs ys : List CatalogRow) :
    judged judge (xs ++ ys) = judged judge xs ++ judged judge ys := by
  simp [judged]

theorem mem_judged {row : CatalogRow} {visibility : Governance.Visibility} :
    (row, visibility) ∈ judged judge rows ↔
      row ∈ rows ∧ visibility = judge row ∧ visibility.served = true := by
  simp only [judged, List.mem_filter, List.mem_map, Prod.mk.injEq]
  constructor
  · rintro ⟨⟨_, mem, rfl, rfl⟩, served⟩
    exact ⟨mem, rfl, served⟩
  · rintro ⟨mem, rfl, served⟩
    exact ⟨⟨row, mem, rfl, rfl⟩, served⟩

theorem judged_stretch (c d : Option Key) :
    judged judge (stretch CatalogRow.key c d rows) =
      stretch (fun s => s.1.key) c d (judged judge rows) := by
  rw [judged, judged, stretch_filter, stretch_map]
  rfl

theorem ascending_judged (asc : Ascending CatalogRow.key rows) :
    Ascending (fun s : CatalogRow × Governance.Visibility => s.1.key) (judged judge rows) := by
  have paired : Ascending (fun s : CatalogRow × Governance.Visibility => s.1.key)
      (rows.map fun row => (row, judge row)) := List.pairwise_map.mpr asc
  exact paired.filter _

theorem foldl_visit (gates : Gates) (member : Int) (includeDeleted : Bool) (batch : List CatalogRow)
    (page : MemberPage) :
    batch.foldl (MemberPage.visit gates member includeDeleted) page =
      { page with
        frontier := (batch.getLast?.map CatalogRow.key).or page.frontier
        survivors := page.survivors ++
          judged (fun row => gates.decide member row includeDeleted) batch } := by
  induction batch generalizing page with
  | nil => simp [judged]
  | cons row batch ih =>
      rw [List.foldl_cons, ih]
      have first : (MemberPage.visit gates member includeDeleted page row).survivors =
          page.survivors ++ judged (fun row => gates.decide member row includeDeleted) [row] := by
        simp only [MemberPage.visit, judged, List.map_cons, List.map_nil, List.filter_singleton]
        cases (gates.decide member row includeDeleted).served <;> simp
      have whole : judged (fun row => gates.decide member row includeDeleted) (row :: batch) =
          judged (fun row => gates.decide member row includeDeleted) [row] ++
            judged (fun row => gates.decide member row includeDeleted) batch :=
        judged_append [row] batch
      rw [first, whole, List.append_assoc, List.getLast?_cons]
      cases batch.getLast? <;> simp [MemberPage.visit]

/-- How far the survivors of a page reach: everywhere when the member ran out. -/
def MemberPage.bound (page : MemberPage) : Option Key :=
  if page.exhausted then none else page.frontier

/-- A page of a member holds what survives of a stretch of its rows. -/
structure MemberPage.Reads (page : MemberPage) (rows : List CatalogRow)
    (judge : CatalogRow → Governance.Visibility) (start : Option Key) : Prop where
  survivors : page.survivors = judged judge (stretch CatalogRow.key start page.bound rows)
  bound : ∀ f ∈ page.bound, f ∈ rows.map CatalogRow.key ∧ above start f = true

/-- What was read so far goes up to where the next batch starts. -/
structure Resumes (rows : List CatalogRow) (judge : CatalogRow → Governance.Visibility)
    (start after : Option Key) (survivors : List (CatalogRow × Governance.Visibility)) : Prop where
  joins : ∀ d : Option Key, (∀ b ∈ after, ∀ e ∈ d, b ≤ e) →
    survivors ++ judged judge (stretch CatalogRow.key after d rows) =
      judged judge (stretch CatalogRow.key start d rows)
  later : ∀ k, above after k = true → above start k = true

/-- The first rows after a cursor, when there are that many, are the stretch up to the last of them. -/
theorem take_eq_stretch (asc : Ascending CatalogRow.key rows) {after : Option Key} {n : Nat}
    (full : n ≤ (rows.filter fun row => above after row.key).length) (some : 0 < n) :
    ∃ x ∈ rows, above after x.key = true ∧
      ((rows.filter fun row => above after row.key).take n).getLast? = Option.some x ∧
      (rows.filter fun row => above after row.key).take n =
        stretch CatalogRow.key after (Option.some x.key) rows := by
  have held : (rows.filter fun row => above after row.key).take n ≠ [] := by
    intro none
    have zero := congrArg List.length none
    simp only [List.length_take, List.length_nil] at zero
    omega
  have last := List.getLast?_eq_some_getLast held
  generalize ((rows.filter fun row => above after row.key).take n).getLast held = x at last
  have mem := List.mem_of_mem_take (List.mem_of_getLast? last)
  have ⟨among, after_x⟩ := List.mem_filter.mp mem
  refine ⟨x, among, after_x, last, ?_⟩
  have split := List.take_append_drop n (rows.filter fun row => above after row.key)
  have sorted : Ascending CatalogRow.key
      ((rows.filter fun row => above after row.key).take n ++
        (rows.filter fun row => above after row.key).drop n) := by
    rw [split]
    exact asc.filter _
  have cut := (sorted.filter_le_last last).1
  rw [split, List.filter_filter] at cut
  rw [← cut, stretch]
  refine List.filter_congr fun row _ => ?_
  simp [Bool.and_comm]

theorem readBatches_reads {t : Tables} {gates : Gates} {member : Int} {limit : Int}
    {start : Option Key} (left : Nat) (query : PageQuery) (page : MemberPage)
    (asc : Ascending CatalogRow.key (t.selected query)) (size : query.limit = batch)
    (resumes : Resumes (t.selected query)
      (fun row => gates.decide member row query.includeDeleted) start query.after page.survivors)
    (unread : page.exhausted = false)
    (ended : left = 0 → page.Reads (t.selected query)
      (fun row => gates.decide member row query.includeDeleted) start) :
    (readBatches t gates member limit left query page).Reads (t.selected query)
      (fun row => gates.decide member row query.includeDeleted) start := by
  induction left generalizing query page with
  | zero => exact ended rfl
  | succ left ih =>
      have read : t.page query =
          ((t.selected query).filter fun row => above query.after row.key).take batch := by
        simp [Tables.page, size]
      by_cases short :
          ((t.selected query).filter fun row => above query.after row.key).length < batch
      case pos =>
        have all : t.page query = stretch CatalogRow.key query.after none (t.selected query) := by
          rw [read, List.take_of_length_le short.le]
          simp [stretch]
        have few : (t.page query).length < batch := by
          rw [read, List.length_take]
          omega
        simp only [readBatches, if_pos few, foldl_visit]
        refine ⟨?_, by simp [MemberPage.bound]⟩
        simpa [MemberPage.bound, all] using resumes.joins none (by simp)
      case neg =>
        obtain ⟨x, mem, later, last, cut⟩ :=
          take_eq_stretch asc (not_lt.mp short) (by decide : 0 < batch)
        rw [← read] at last cut
        have many : ¬(t.page query).length < batch := by
          rw [read, List.length_take]
          omega
        have joined := resumes.joins (some x.key) fun b held e bound => by
          cases bound
          rw [held] at later
          simpa using (show b < x.key by simpa using later).le
        have reads : MemberPage.Reads
            { page with
              frontier := some x.key
              survivors := page.survivors ++
                judged (fun row => gates.decide member row query.includeDeleted) (t.page query) }
            (t.selected query) (fun row => gates.decide member row query.includeDeleted) start := by
          refine ⟨?_, ?_⟩
          · simpa [MemberPage.bound, unread, cut] using joined
          · intro f bound
            have same : x.key = f := by simpa [MemberPage.bound, unread] using bound
            exact same ▸ ⟨List.mem_map_of_mem mem, resumes.later _ later⟩
        simp only [readBatches, if_neg many, foldl_visit, last, Option.map_some, Option.some_or]
        split
        case isTrue => exact reads
        case isFalse =>
          have resumed : Resumes (t.selected query)
              (fun row => gates.decide member row query.includeDeleted) start (some x.key)
              (page.survivors ++
                judged (fun row => gates.decide member row query.includeDeleted) (t.page query)) := by
            refine ⟨fun d beyond => ?_, fun k high => ?_⟩
            · rw [cut, joined, ← judged_append, ← asc.stretch_split (resumes.later _ later)]
              exact fun e bound => beyond x.key rfl e bound
            · exact above_of_lt (resumes.later _ later) (by simpa using high)
          exact ih { query with after := some x.key } _ asc size resumed unread fun _ => reads

theorem readBatches_order (t : Tables) (gates : Gates) (member limit : Int) (left : Nat)
    (query : PageQuery) (page : MemberPage) :
    (readBatches t gates member limit left query page).order = page.order := by
  induction left generalizing query page with
  | zero => rfl
  | succ left ih =>
      rw [readBatches]
      simp only [foldl_visit]
      split
      · rfl
      · split
        · rfl
        · rw [ih]

/-- A member's page holds what survives of a stretch of its rows from the cursor on. -/
theorem readMember_reads {t : Tables} {gates : Gates} {member : Int} {base : PageQuery} {order : Nat}
    (asc : Ascending CatalogRow.key (t.selected (memberQuery gates member base))) :
    (readMember t gates member base order).Reads (t.selected (memberQuery gates member base))
      (fun row => gates.decide member row base.includeDeleted) base.after := by
  refine readBatches_reads _ (memberQuery gates member base) _ asc rfl ⟨?_, ?_⟩ rfl ?_
  · intro d _
    rfl
  · exact fun _ high => high
  · intro none
    split at none <;> cases none

end Member

/-! ### The merged page -/

/-- What the merged rows are sorted by. -/
def Entry.column (e : Entry) : Key ×ₗ ℕ := toLex (e.key, e.order)

/-- The entries sorted, and of each key the first. -/
def firsts (entries : List Entry) : List Entry :=
  (entries.insertionSort fun a b => a.column ≤ b.column).destutter fun a b => a.key ≠ b.key

section Firsts

variable {entries : List Entry}

theorem sorted_entries (distinct : (entries.map Entry.column).Nodup) :
    (entries.insertionSort fun a b => a.column ≤ b.column).Pairwise fun a b =>
      a.key < b.key ∨ (a.key = b.key ∧ a.order < b.order) := by
  refine (ordered_insertionSort distinct).imp fun {a b} less => ?_
  simpa [Entry.column, Prod.Lex.lt_iff] using less

theorem mem_firsts (distinct : (entries.map Entry.column).Nodup) {e : Entry} :
    e ∈ firsts entries ↔ e ∈ entries ∧ ∀ other ∈ entries, other.key = e.key → e.order ≤ other.order := by
  rw [firsts, mem_destutter_iff (sorted_entries distinct)]
  simp only [List.mem_insertionSort]

theorem ascending_firsts (distinct : (entries.map Entry.column).Nodup) :
    Ascending Entry.key (firsts entries) :=
  ascending_destutter (sorted_entries distinct)

end Firsts

/-- The pages of the members, each a stretch of what survives of its member. -/
structure Merges {ι : Type} (places : List ι) (pageOf : ι → MemberPage) (full : ι → List Entry)
    (start : Option Key) (keys : List Key) : Prop where
  reads : ∀ i ∈ places, (pageOf i).entries = stretch Entry.key start (pageOf i).bound (full i)
  bounds : ∀ i ∈ places, ∀ f ∈ (pageOf i).bound, f ∈ keys ∧ above start f = true
  distinct : ((places.flatMap full).map Entry.column).Nodup
  known : ∀ e ∈ places.flatMap full, e.key ∈ keys

section Merge

variable {ι : Type} {places : List ι} {pageOf : ι → MemberPage} {full : ι → List Entry}
  {start : Option Key} {keys : List Key}

theorem frontierOf_eq (pages : List MemberPage) :
    frontierOf pages = (pages.filterMap MemberPage.bound).min? := by
  rw [frontierOf]
  congr 1
  induction pages with
  | nil => rfl
  | cons page pages ih =>
      cases stopped : page.exhausted with
      | true => simpa [stopped, MemberPage.bound] using ih
      | false =>
          cases front : page.frontier <;> simpa [stopped, MemberPage.bound, front] using ih

theorem frontier_le {pages : List MemberPage} {page : MemberPage} {f b : Key} (mem : page ∈ pages)
    (bound : page.bound = some b) (front : frontierOf pages = some f) : f ≤ b := by
  rw [frontierOf_eq] at front
  exact (List.min?_eq_some_iff.mp front).2 b (List.mem_filterMap.mpr ⟨page, mem, bound⟩)

theorem frontier_mem {pages : List MemberPage} {f : Key} (front : frontierOf pages = some f) :
    ∃ page ∈ pages, page.bound = some f := by
  rw [frontierOf_eq] at front
  exact List.mem_filterMap.mp (List.min?_eq_some_iff.mp front).1

theorem frontier_none {pages : List MemberPage} (front : frontierOf pages = none) :
    ∀ page ∈ pages, page.bound = none := by
  rw [frontierOf_eq, List.min?_eq_none_iff, List.filterMap_eq_nil_iff] at front
  exact front

theorem Merges.mem_entries (merges : Merges places pageOf full start keys) {e : Entry}
    (within : ∀ f ∈ frontierOf (places.map pageOf), e.key ≤ f) :
    e ∈ (places.map pageOf).flatMap MemberPage.entries ↔
      e ∈ places.flatMap full ∧ above start e.key = true := by
  simp only [List.mem_flatMap, List.mem_map, exists_exists_and_eq_and]
  constructor
  · rintro ⟨i, mem, held⟩
    rw [merges.reads i mem] at held
    have ⟨among, after, _⟩ := mem_stretch.mp held
    exact ⟨⟨i, mem, among⟩, after⟩
  · rintro ⟨⟨i, mem, among⟩, after⟩
    refine ⟨i, mem, ?_⟩
    rw [merges.reads i mem]
    refine mem_stretch.mpr ⟨among, after, fun b bound => ?_⟩
    have page : pageOf i ∈ places.map pageOf := List.mem_map_of_mem mem
    cases front : frontierOf (places.map pageOf) with
    | none =>
        rw [frontier_none front _ page] at bound
        cases bound
    | some f => exact (within f front).trans (frontier_le page bound front)

theorem Merges.distinct_entries (merges : Merges places pageOf full start keys) :
    (((places.map pageOf).flatMap MemberPage.entries).map Entry.column).Nodup := by
  refine List.Nodup.sublist (List.Sublist.map _ ?_) merges.distinct
  rw [List.flatMap_map]
  refine List.Sublist.flatMap_right places fun i mem => ?_
  rw [merges.reads i mem]
  exact List.filter_sublist

/-- Cut at the frontier, the merged rows are the first survivors of their keys up to it. -/
theorem Merges.within (merges : Merges places pageOf full start keys) :
    ((firsts ((places.map pageOf).flatMap MemberPage.entries)).filter fun e =>
        (frontierOf (places.map pageOf)).all (decide <| e.key ≤ ·)) =
      stretch Entry.key start (frontierOf (places.map pageOf)) (firsts (places.flatMap full)) := by
  have inside : ∀ e : Entry, ((frontierOf (places.map pageOf)).all (decide <| e.key ≤ ·)) = true ↔
      ∀ f ∈ frontierOf (places.map pageOf), e.key ≤ f := by
    intro e
    cases frontierOf (places.map pageOf) <;> simp
  refine eq_of_ordered ((ascending_firsts merges.distinct_entries).filter _)
    ((ascending_firsts merges.distinct).stretch _ _) fun e => ?_
  rw [List.mem_filter, mem_firsts merges.distinct_entries, mem_stretch, mem_firsts merges.distinct,
    inside]
  constructor
  · rintro ⟨⟨held, least⟩, within⟩
    have ⟨among, after⟩ := (merges.mem_entries within).mp held
    refine ⟨⟨among, fun other other_mem same => ?_⟩, after, within⟩
    exact least other ((merges.mem_entries (same ▸ within)).mpr ⟨other_mem, same ▸ after⟩) same
  · rintro ⟨⟨among, least⟩, after, within⟩
    refine ⟨⟨(merges.mem_entries within).mpr ⟨among, after⟩, fun other held same => ?_⟩, within⟩
    exact least other ((merges.mem_entries (same ▸ within)).mp held).1 same

/-- The rows a page emits of those within the frontier. -/
def truncated (limit : Int) (within : List Entry) : List Entry :=
  if within.length > limit then within.take limit.toNat else within

theorem truncated_split (limit : Int) (within : List Entry) :
    ∃ rest, within = truncated limit within ++ rest := by
  rw [truncated]
  split
  · exact ⟨_, (List.take_append_drop limit.toNat within).symm⟩
  · exact ⟨[], (List.append_nil _).symm⟩

theorem eq_nil_of_truncated {limit : Int} (positive : 1 ≤ limit) {within : List Entry}
    (none : truncated limit within = []) : within = [] := by
  rw [truncated] at none
  split at none
  · rename_i longer
    have zero := congrArg List.length none
    simp only [List.length_take, List.length_nil] at zero
    omega
  · exact none

theorem merge_eq (pages : List MemberPage) (limit : Int) {within : List Entry}
    (cut : ((firsts (pages.flatMap MemberPage.entries)).filter fun e =>
      (frontierOf pages).all (decide <| e.key ≤ ·)) = within) :
    merge pages limit =
      ((truncated limit within).map fun e => (e.row, e.visibility),
        if pages.all (·.exhausted) &&
            !(decide (within.length < (firsts (pages.flatMap MemberPage.entries)).length) ||
              decide (within.length > limit)) then none
        else
          match (truncated limit within).getLast? with
          | some e => some (cursorText e.key)
          | none => (frontierOf pages).map cursorText) := by
  subst cut
  rfl

/-- A merged page is the stretch of the first survivors up to the cursor it carries. -/
theorem merge_stretch (merges : Merges places pageOf full start keys) {limit : Int}
    (positive : 1 ≤ limit) :
    ∃ next : Option Key,
      merge (places.map pageOf) limit =
          ((stretch Entry.key start next (firsts (places.flatMap full))).map fun e =>
            (e.row, e.visibility), next.map cursorText) ∧
        ∀ b ∈ next, b ∈ keys ∧ above start b = true := by
  rw [merge_eq _ _ merges.within]
  generalize front : frontierOf (places.map pageOf) = f
  have asc := (ascending_firsts merges.distinct).stretch start f
  obtain ⟨rest, split⟩ := truncated_split limit (stretch Entry.key start f (firsts (places.flatMap full)))
  split
  case isTrue last =>
    simp only [Bool.and_eq_true, List.all_eq_true, Bool.not_eq_true', Bool.or_eq_false_iff,
      decide_eq_false_iff_not] at last
    have unbounded : f = none := by
      cases f with
      | none => rfl
      | some f =>
          obtain ⟨page, mem, bound⟩ := frontier_mem front
          simp [MemberPage.bound, last.1 page mem] at bound
    subst unbounded
    refine ⟨none, ?_, by simp⟩
    rw [truncated, if_neg last.2.2]
    rfl
  case isFalse =>
    cases emitted :
        (truncated limit (stretch Entry.key start f (firsts (places.flatMap full)))).getLast? with
    | none =>
        have none := eq_nil_of_truncated positive (List.getLast?_eq_none_iff.mp emitted)
        refine ⟨f, ?_, fun b bound => ?_⟩
        · rw [List.getLast?_eq_none_iff.mp emitted, none]
        · obtain ⟨page, mem, held⟩ := frontier_mem (front.trans bound)
          obtain ⟨i, among, rfl⟩ := List.mem_map.mp mem
          exact merges.bounds i among b held
    | some e =>
        have mem : e ∈ stretch Entry.key start f (firsts (places.flatMap full)) := by
          rw [split]
          exact List.mem_append_left _ (List.mem_of_getLast? emitted)
        have ⟨first, after, inside⟩ := mem_stretch.mp mem
        refine ⟨some e.key, ?_, ?_⟩
        · have upto := (Ascending.filter_le_last (split ▸ asc) emitted).1
          rw [← split, stretch_filter_le inside] at upto
          rw [upto]
          rfl
        · rintro b ⟨⟩
          exact ⟨merges.known e ((mem_firsts merges.distinct).mp first).1, after⟩

end Merge

/-! ### The listing -/

theorem ascending_selected {t : Tables} (sound : t.Sound) (q : PageQuery) :
    Ascending CatalogRow.key (t.selected q) := by
  have distinct : ((t.versions.filter fun v =>
      v.repositoryId == q.member && q.asks v && t.prefilter q v).map ServerVersion.key).Nodup := by
    refine List.Nodup.map_on ?_ (List.Nodup.filter _ (List.Nodup.of_map _ sound.slots))
    intro v mem w other same
    simp only [List.mem_filter, Bool.and_eq_true, beq_iff_eq] at mem other
    have names : v.name = w.name ∧ v.version = w.version := by
      simpa [ServerVersion.key] using same
    refine List.inj_on_of_nodup_map sound.slots mem.1 other.1 ?_
    simp [ServerVersion.slot, names.1, names.2, mem.2.1.1, other.2.1.1]
  exact List.pairwise_map.mpr (ordered_insertionSort distinct)

theorem mem_selected {t : Tables} {q : PageQuery} {row : CatalogRow} :
    row ∈ t.selected q ↔ ∃ v ∈ t.versions, v.repositoryId = q.member ∧ q.asks v = true ∧
      t.prefilter q v = true ∧ t.catalogRow q.addressed v = row := by
  simp only [Tables.selected, List.mem_map, List.mem_insertionSort, List.mem_filter, Bool.and_eq_true,
    beq_iff_eq, and_assoc]

section Listing

variable (t : Tables) (scope : Scope) (base : PageQuery)

/-- What survives of the rows of the member at a place of the walk. -/
def entriesAt (place : Repository × Nat) : List Entry :=
  (judged (fun row => scope.gates.decide place.1.id row base.includeDeleted)
    (t.selected (memberQuery scope.gates place.1.id base))).map fun s => ⟨place.2, s.1, s.2⟩

/-- What survives of the rows of all members. -/
def allEntries : List Entry := scope.members.zipIdx.flatMap (entriesAt t scope base)

variable {t scope base}

theorem entriesAt_order {place : Repository × Nat} {e : Entry}
    (mem : e ∈ entriesAt t scope base place) : e.order = place.2 := by
  obtain ⟨_, _, rfl⟩ := List.mem_map.mp mem
  rfl

theorem ascending_entriesAt (sound : t.Sound) (place : Repository × Nat) :
    Ascending Entry.key (entriesAt t scope base place) :=
  List.pairwise_map.mpr (ascending_judged (ascending_selected sound _))

theorem allEntries_distinct (sound : t.Sound) : ((allEntries t scope base).map Entry.column).Nodup := by
  have places : scope.members.zipIdx.Pairwise fun a b => a.2 ≠ b.2 := by
    have indices : (scope.members.zipIdx.map Prod.snd).Nodup := by
      rw [List.zipIdx_map_snd]
      exact List.nodup_range'
    exact List.pairwise_map.mp indices
  refine List.pairwise_map.mpr (List.pairwise_flatMap.mpr ⟨fun place _ => ?_, ?_⟩)
  · refine (ascending_entriesAt sound place).imp fun {a b} less same => ?_
    have keys : a.key = b.key ∧ a.order = b.order := by simpa [Entry.column] using same
    exact less.ne keys.1
  · refine places.imp fun {a b} apart e mem other there same => ?_
    have keys : e.key = other.key ∧ e.order = other.order := by simpa [Entry.column] using same
    exact apart ((entriesAt_order mem).symm.trans (keys.2.trans (entriesAt_order there)))

theorem allEntries_known {e : Entry} (mem : e ∈ allEntries t scope base) :
    e.key ∈ t.versions.map ServerVersion.key := by
  obtain ⟨place, _, held⟩ := List.mem_flatMap.mp mem
  obtain ⟨⟨row, visibility⟩, among, rfl⟩ := List.mem_map.mp held
  obtain ⟨v, there, _, _, _, rfl⟩ := mem_selected.mp (mem_judged.mp among).1
  exact List.mem_map.mpr ⟨v, there, rfl⟩

theorem listing_merges (sound : t.Sound) (c : Option Key) :
    Merges scope.members.zipIdx
      (fun place => readMember t scope.gates place.1.id { base with after := c } place.2)
      (entriesAt t scope base) c (t.versions.map ServerVersion.key) where
  reads := by
    rintro ⟨member, order⟩ _
    have reads : (readMember t scope.gates member.id { base with after := c } order).Reads
        (t.selected (memberQuery scope.gates member.id base))
        (fun row => scope.gates.decide member.id row base.includeDeleted) c :=
      readMember_reads (ascending_selected sound _)
    have placed : (readMember t scope.gates member.id { base with after := c } order).order = order :=
      readBatches_order ..
    rw [MemberPage.entries, reads.survivors, placed, judged_stretch, entriesAt, stretch_map]
    rfl
  bounds := by
    rintro ⟨member, order⟩ _ f bound
    have reads : (readMember t scope.gates member.id { base with after := c } order).Reads
        (t.selected (memberQuery scope.gates member.id base))
        (fun row => scope.gates.decide member.id row base.includeDeleted) c :=
      readMember_reads (ascending_selected sound _)
    obtain ⟨held, after⟩ := reads.bound f bound
    obtain ⟨row, mem, rfl⟩ := List.mem_map.mp held
    obtain ⟨v, there, _, _, _, rfl⟩ := mem_selected.mp mem
    exact ⟨List.mem_map.mpr ⟨v, there, rfl⟩, after⟩
  distinct := allEntries_distinct sound
  known := fun _ => allEntries_known

theorem splitOnce_append {first rest : Text} {sep : Char} (none : sep ∉ first) :
    Maven.splitOnce (first ++ sep :: rest) sep = some (first, rest) := by
  have clear : ∀ c ∈ first, (c != sep) = true := by
    intro c mem
    simp only [bne_iff_ne, ne_eq]
    rintro rfl
    exact none mem
  rw [Maven.splitOnce, List.span_eq_takeWhile_dropWhile, List.takeWhile_append_of_pos clear,
    List.dropWhile_append_of_pos clear]
  simp

theorem cursorOf_cursorText (sound : t.Sound) {key : Key} {params : Params}
    (known : key ∈ t.versions.map ServerVersion.key) :
    Params.cursorOf { params with cursor := some (cursorText key) } = .ok (some key) := by
  obtain ⟨v, mem, rfl⟩ := List.mem_map.mp known
  have colon := colon_not_mem_of_validateName (sound.named v mem)
  have cut : Maven.splitOnce (cursorText v.key) ':' = some (v.name, v.version) :=
    splitOnce_append colon
  have nonempty : (cursorText v.key).isEmpty = false := by simp [cursorText]
  simp only [Params.cursorOf, nonempty, Bool.false_eq_true, if_false, cut]
  rfl

theorem base_cursor {params : Params} {rfc3339 : Text → Option Instant} {addressed : Int}
    (sound : t.Sound) (asked : Params.base { params with cursor := none } rfc3339 addressed = .ok base)
    {c : Option Key} (known : ∀ b ∈ c, b ∈ t.versions.map ServerVersion.key) :
    Params.base { params with cursor := c.map cursorText } rfc3339 addressed =
      .ok { base with after := c } := by
  have read : Params.cursorOf { params with cursor := c.map cursorText } = .ok c := by
    cases c with
    | none => rfl
    | some key => exact cursorOf_cursorText sound (known key rfl)
  obtain ⟨_, _, asked⟩ := Lib.bind_eq_ok.mp asked
  obtain ⟨limit, limited, asked⟩ := Lib.bind_eq_ok.mp asked
  obtain ⟨since, timed, done⟩ := Lib.bind_eq_ok.mp asked
  cases done
  rw [Params.base, read]
  exact Lib.bind_eq_ok.mpr ⟨c, rfl, Lib.bind_eq_ok.mpr ⟨limit, limited,
    Lib.bind_eq_ok.mpr ⟨since, timed, rfl⟩⟩⟩

theorem limit_pos {params : Params} {rfc3339 : Text → Option Instant} {addressed : Int}
    (asked : params.base rfc3339 addressed = .ok base) : 1 ≤ base.limit := by
  obtain ⟨_, _, asked⟩ := Lib.bind_eq_ok.mp asked
  obtain ⟨limit, limited, asked⟩ := Lib.bind_eq_ok.mp asked
  obtain ⟨_, _, done⟩ := Lib.bind_eq_ok.mp asked
  cases done
  rw [Params.limitOf] at limited
  split at limited
  · cases limited
    exact (by decide : 1 ≤ defaultLimit)
  · split at limited
    · cases limited
      exact le_max_left _ _
    · cases limited

/-- Following `nextCursor` from the first page to the last ends, and yields the first survivor of each
key in order. -/
theorem listServers_follows {params : Params} {rfc3339 : Text → Option Instant} {addressed : Int}
    (sound : t.Sound)
    (asked : Params.base { params with cursor := none } rfc3339 addressed = .ok base) :
    Follows (fun cursor => listServers t scope addressed rfc3339 { params with cursor := cursor })
      none ((firsts (allEntries t scope base)).map fun e => (e.row, e.visibility)) := by
  have asc : Ascending (fun s : CatalogRow × Governance.Visibility => s.1.key)
      ((firsts (allEntries t scope base)).map fun e => (e.row, e.visibility)) :=
    List.pairwise_map.mpr (ascending_firsts (allEntries_distinct sound))
  have pages : ∀ c : Option Key, (∀ b ∈ c, b ∈ t.versions.map ServerVersion.key) →
      ∃ next : Option Key,
        listServers t scope addressed rfc3339 { params with cursor := c.map cursorText } =
            .ok (stretch (fun s => s.1.key) c next
              ((firsts (allEntries t scope base)).map fun e => (e.row, e.visibility)),
              next.map cursorText) ∧
          ∀ b ∈ next, b ∈ t.versions.map ServerVersion.key ∧ above c b = true := by
    intro c known
    obtain ⟨next, merged, moved⟩ :=
      merge_stretch (listing_merges sound c) (limit_pos asked)
    refine ⟨next, ?_, moved⟩
    rw [listServers, base_cursor sound asked known, stretch_map]
    exact congrArg Except.ok merged
  have all : Follows
      (fun cursor => listServers t scope addressed rfc3339 { params with cursor := cursor }) none
      (stretch (fun s => s.1.key) none none
        ((firsts (allEntries t scope base)).map fun e => (e.row, e.visibility))) :=
    Follows.of_stretches cursorText _ asc pages none (by simp)
  simpa [stretch] using all

end Listing

end OpenCargo.Mcp
