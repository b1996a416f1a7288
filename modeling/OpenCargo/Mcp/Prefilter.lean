/-
Module: OpenCargo.Mcp.Prefilter
Purpose: What the query of a page leaves out against what the gate refuses: the ranges of `push_rule` are
  the names its rule matches, and of the rows the gate serves the query drops those whose name an exact
  deny rule shares with the letters of a longer allow rule, and under `Hide` the deleted ones that the
  rules or the verdict of the addressed repository would not let through.
Trusted boundary: none
Main exports: Gates.Accepted, Gates.load_accepted, Gates.Spares, prefilter_iff_spares
-/
import OpenCargo.Mcp.Catalog
import OpenCargo.Mcp.Floors

namespace OpenCargo.Mcp

open OpenCargo.Governance (AllowRule Cleared EndpointVerdict Floor admits admits_iff)
open OpenCargo.Keys (byteLength byteLength_append byteLength_pos)

/-! ### One rule -/

theorem dot_covers : '.' ⋖ '/' := by
  refine ⟨by decide, fun c low high => ?_⟩
  have low : '.'.toNat < c.toNat := low
  have high : c.toNat < '/'.toNat := high
  simp only [show '.'.toNat = 46 from rfl, show '/'.toNat = 47 from rfl] at low high
  omega

theorem slash_covers : '/' ⋖ '0' := by
  refine ⟨by decide, fun c low high => ?_⟩
  have low : '/'.toNat < c.toNat := low
  have high : c.toNat < '0'.toNat := high
  simp only [show '/'.toNat = 47 from rfl, show '0'.toNat = 48 from rfl] at low high
  omega

theorem stem_ends {rule : AllowRule} {stem : Text} (accepted : validatePattern rule.pattern = .ok ())
    (starred : rule.stem = some stem) :
    ∃ front c, stem = front ++ [c] ∧ (c = '/' ∨ c = '.') := by
  rw [AllowRule.stem] at starred
  split at starred
  case isFalse => cases starred
  case isTrue star =>
    cases starred
    rw [validatePattern] at accepted
    simp only [star, if_true] at accepted
    split at accepted
    · cases accepted
    · split at accepted
      · cases accepted
      · split at accepted
        · cases accepted
        · rename_i bounded
          cases last : rule.pattern.dropLast.getLast? with
          | none => simp [last] at bounded
          | some c =>
              obtain ⟨front, split⟩ := List.getLast?_eq_some_iff.mp last
              refine ⟨front, c, split, ?_⟩
              simp only [last, ne_eq, Option.some.injEq] at bounded
              tauto

theorem pushRule_eq_matchesName {rule : AllowRule} (accepted : validatePattern rule.pattern = .ok ())
    (name : Text) : pushRule rule name = rule.matchesName name := by
  cases starred : rule.stem with
  | none => simp [pushRule, AllowRule.matchesName, starred]
  | some stem =>
      obtain ⟨front, c, rfl, boundary⟩ := stem_ends accepted starred
      have next : c ⋖ Char.ofNat (c.toNat + 1) := by
        rcases boundary with rfl | rfl
        · exact slash_covers
        · exact dot_covers
      have upper : upperBound (front ++ [c]) = front ++ [Char.ofNat (c.toNat + 1)] := by
        simp [upperBound]
      have range := Lib.between_iff_prefix next front name
      rw [Bool.eq_iff_iff]
      simp only [pushRule, AllowRule.matchesName, starred, upper, Bool.and_eq_true, decide_eq_true_eq,
        List.isPrefixOf_iff_prefix, ← range, ← not_lt]

/-! ### One ruleset -/

theorem prefix_of_byteLength_lt {one two text : Text} (first : one <+: text) (second : two <+: text)
    (longer : byteLength one < byteLength two) : one <+: two := by
  rcases List.prefix_or_prefix_of_prefix first second with less | ⟨rest, rfl⟩
  · exact less
  · rw [byteLength_append] at longer
    omega

theorem pattern_of_stem {rule : AllowRule} {stem : Text} (starred : rule.stem = some stem) :
    rule.pattern = stem ++ ['*'] := by
  rw [AllowRule.stem] at starred
  split at starred
  case isFalse => cases starred
  case isTrue star =>
    cases starred
    obtain ⟨front, split⟩ := List.getLast?_eq_some_iff.mp star
    rw [split, List.dropLast_concat]

/-- An exact rule denies the very name whose letters a longer rule allows. -/
def Shadowed (rules : List AllowRule) (name : Text) : Prop :=
  (∃ deny ∈ rules, deny.effect = .deny ∧ deny.stem = none ∧ deny.pattern = name) ∧
    ∃ allow ∈ rules, allow.effect = .allow ∧ allow.stem = some name

/-- A rule that matches a name and denies it, and a longer one that matches it and allows it: the second
begins with the letters of the first, unless the first spells out the name. -/
theorem reopened {deny allow : AllowRule} {name : Text} (denies : deny.matchesName name = true)
    (allows : allow.matchesName name = true)
    (longer : byteLength deny.pattern < byteLength allow.pattern) :
    (∃ stem, deny.stem = some stem ∧ stem <+: allow.pattern) ∨
      (deny.stem = none ∧ deny.pattern = name ∧ allow.stem = some name) := by
  cases inside : deny.stem with
  | some stem =>
      left
      refine ⟨stem, rfl, ?_⟩
      have begins : stem <+: name := by
        simpa [AllowRule.matchesName, inside] using denies
      rw [pattern_of_stem inside, byteLength_append] at longer
      cases outer : allow.stem with
      | none =>
          have exact_ : name = allow.pattern := by
            simpa [AllowRule.matchesName, outer] using allows
          exact exact_ ▸ begins
      | some wider =>
          have opens : wider <+: name := by
            simpa [AllowRule.matchesName, outer] using allows
          rw [pattern_of_stem outer, byteLength_append] at longer
          rw [pattern_of_stem outer]
          exact (prefix_of_byteLength_lt begins opens (by omega)).trans (List.prefix_append _ _)
  | none =>
      right
      have whole : name = deny.pattern := by
        simpa [AllowRule.matchesName, inside] using denies
      refine ⟨rfl, whole.symm, ?_⟩
      cases outer : allow.stem with
      | none =>
          have exact_ : name = allow.pattern := by
            simpa [AllowRule.matchesName, outer] using allows
          rw [← whole, exact_] at longer
          exact absurd longer (lt_irrefl _)
      | some wider =>
          have ⟨rest, opens⟩ : wider <+: name := by
            simpa [AllowRule.matchesName, outer] using allows
          rw [pattern_of_stem outer, ← whole, ← opens, byteLength_append, byteLength_append] at longer
          have one : byteLength ['*'] = 1 := rfl
          have none : rest = [] := by
            by_contra some
            have := byteLength_pos some
            omega
          rw [none, List.append_nil] at opens
          rw [opens]

/-- A rule that allows goes on, past its length, inside what this one denies. -/
def Reopens (rules : List AllowRule) (deny : AllowRule) : Prop :=
  ∃ allow ∈ rules, allow.effect = .allow ∧ byteLength deny.pattern < byteLength allow.pattern ∧
    ∃ stem, deny.stem = some stem ∧ stem <+: allow.pattern

theorem mem_subtractableDenies {rules : List AllowRule} {deny : AllowRule} :
    deny ∈ (NameFilter.mk rules).subtractableDenies ↔
      deny ∈ rules ∧ deny.effect = .deny ∧ ¬Reopens rules deny := by
  have opens : ((NameFilter.mk rules).allows.any fun allow =>
      decide (byteLength allow.pattern > byteLength deny.pattern) &&
        deny.stem.any fun stem => stem.isPrefixOf allow.pattern) = true ↔ Reopens rules deny := by
    simp only [NameFilter.allows, List.any_eq_true, List.mem_filter, Bool.and_eq_true, beq_iff_eq,
      decide_eq_true_eq, Reopens, gt_iff_lt, and_assoc]
    refine exists_congr fun allow => and_congr_right fun _ => and_congr_right fun _ =>
      and_congr_right fun _ => ?_
    cases deny.stem <;> simp
  rw [NameFilter.subtractableDenies, List.mem_filter, Bool.and_eq_true, beq_iff_eq, Bool.not_eq_true',
    ← Bool.not_eq_true, opens]

/-- The names that pass: no rule allows anything or one allows the name, and each rule that denies it is
reopened. -/
theorem pushFilter_iff {rules : List AllowRule} {name : Text}
    (accepted : ∀ rule ∈ rules, validatePattern rule.pattern = .ok ()) :
    pushFilter ⟨rules⟩ name = true ↔
      ((∀ rule ∈ rules, rule.effect ≠ .allow) ∨
        ∃ rule ∈ rules, rule.effect = .allow ∧ rule.matchesName name = true) ∧
      ∀ deny ∈ rules, deny.effect = .deny → deny.matchesName name = true → Reopens rules deny := by
  have reads : ∀ rule ∈ rules, pushRule rule name = rule.matchesName name := fun rule mem =>
    pushRule_eq_matchesName (accepted rule mem) name
  rw [pushFilter, Bool.and_eq_true, Bool.or_eq_true, List.isEmpty_iff, List.all_eq_true,
    List.any_eq_true]
  simp only [mem_subtractableDenies, NameFilter.allows, List.filter_eq_nil_iff, List.mem_filter,
    beq_iff_eq, and_assoc, Bool.not_eq_true']
  refine and_congr (or_congr Iff.rfl ?_) ?_
  · refine exists_congr fun rule => and_congr_right fun mem => and_congr_right fun _ => ?_
    rw [reads rule mem]
  · constructor
    · intro all deny mem effect matched
      by_contra closed
      have passed := all deny ⟨mem, effect, closed⟩
      rw [reads deny mem, matched] at passed
      cases passed
    · rintro all deny ⟨mem, effect, closed⟩
      cases matched : deny.matchesName name with
      | false => rw [reads deny mem, matched]
      | true => exact absurd (all deny mem effect matched) closed

theorem pushFilter_of_admits {rules : List AllowRule} {name : Text}
    (accepted : ∀ rule ∈ rules, validatePattern rule.pattern = .ok ())
    (admitted : admits rules name = true) :
    pushFilter ⟨rules⟩ name = true ↔ ¬Shadowed rules name := by
  have exact_matches : ∀ rule : AllowRule, rule.stem = none → rule.pattern = name →
      rule.matchesName name = true := by
    rintro rule exact_ rfl
    simp [AllowRule.matchesName, exact_]
  rw [pushFilter_iff accepted]
  rcases admits_iff.mp admitted with ⟨best, decides, allows, only⟩ | ⟨unmatched, denies⟩
  · constructor
    · rintro ⟨_, reopen⟩ ⟨⟨deny, mem, effect, exact_, spelled⟩, _⟩
      obtain ⟨_, _, _, _, stem, starred, _⟩ := reopen deny mem effect (exact_matches deny exact_ spelled)
      simp [exact_] at starred
    · intro clear
      refine ⟨.inr ⟨best, decides.mem, allows, decides.reads⟩, fun deny mem effect reading => ?_⟩
      have shorter : byteLength deny.pattern < byteLength best.pattern := by
        refine lt_of_le_of_ne (decides.longest deny mem reading) fun same => ?_
        have level : deny.Decides rules name :=
          ⟨mem, reading, fun other among reads => same ▸ decides.longest other among reads⟩
        exact absurd (only deny level) (by simp [effect])
      rcases reopened reading decides.reads shorter with ⟨stem, starred, begins⟩ | ⟨exact_, spelled, outer⟩
      · exact ⟨best, decides.mem, allows, shorter, stem, starred, begins⟩
      · exact absurd ⟨⟨deny, mem, effect, exact_, spelled⟩, best, decides.mem, allows, outer⟩ clear
  · constructor
    · rintro _ ⟨⟨deny, mem, _, exact_, spelled⟩, _⟩
      have matched := exact_matches deny exact_ spelled
      simp [unmatched deny mem] at matched
    · intro _
      refine ⟨.inl fun rule mem => by simp [denies rule mem], fun deny mem _ reading => ?_⟩
      simp [unmatched deny mem] at reading

/-! ### The gates -/

/-- Every rule the gates hold was accepted. -/
structure Gates.Accepted (gates : Gates) : Prop where
  addressed : ∀ rule ∈ gates.addressed.rules, validatePattern rule.pattern = .ok ()
  floors : ∀ {member floor}, gates.floors member = some floor → ∀ fragment ∈ floor.fragments,
    ∀ rule ∈ fragment.2, validatePattern rule.pattern = .ok ()

/-- Floors that hold accepted rules only. -/
def AcceptedFloors (floors : Int → Option Floor) : Prop :=
  ∀ member floor, floors member = some floor → ∀ fragment ∈ floor.fragments,
    ∀ rule ∈ fragment.2, validatePattern rule.pattern = .ok ()

theorem AcceptedFloors.push {floors : Int → Option Floor} {fragment : Text × List AllowRule}
    (held : AcceptedFloors floors)
    (accepted : ∀ rule ∈ fragment.2, validatePattern rule.pattern = .ok ()) (leaf : Int) :
    AcceptedFloors (pushFragment fragment floors leaf) := by
  intro member floor found f mem
  by_cases here : member = leaf
  · subst here
    simp only [pushFragment, Function.update_self, Option.some.injEq] at found
    subst found
    rcases List.mem_append.mp mem with mem | mem
    · cases before : floors member with
      | none => simp [before] at mem
      | some floor =>
          simp only [before, Option.map_some, Option.getD_some] at mem
          exact held member floor before f mem
    · cases List.mem_singleton.mp mem
      exact accepted
  · rw [pushFragment, Function.update_of_ne here] at found
    exact held member floor found f mem

theorem AcceptedFloors.pushAll {floors : Int → Option Floor} {repo : Text} {rules : List AllowRule}
    (held : AcceptedFloors floors)
    (accepted : ∀ rule ∈ rules, validatePattern rule.pattern = .ok ()) (below : List Int) :
    AcceptedFloors (below.foldl (pushFragment (repo, rules)) floors) := by
  induction below generalizing floors with
  | nil => exact held
  | cons leaf below ih => exact ih (held.push accepted leaf)

theorem gateOf_accepted {mcp : StoredRules} {settings : Settings} {repo : Repository} {gate : Gate}
    (read : gateOf mcp.toMcpReads settings repo = .ok gate) :
    ∀ rule ∈ gate.rules, validatePattern rule.pattern = .ok () := by
  obtain ⟨rules, answer, done⟩ := Lib.bind_eq_ok.mp read
  cases done
  exact mcp.accepted (stored_eq_ok answer)

theorem gatherFloors_accepted {mcp : StoredRules} {settings : Settings} {addressed : Int}
    {nodes rest : List Node} {floors result : Int → Option Floor} (held : AcceptedFloors floors)
    (gathered : gatherFloors mcp.toMcpReads settings addressed nodes rest floors = .ok result) :
    AcceptedFloors result := by
  induction rest generalizing floors with
  | nil =>
      cases gathered
      exact held
  | cons node rest ih =>
      rw [gatherFloors] at gathered
      split at gathered
      case isTrue => exact ih held gathered
      case isFalse =>
        obtain ⟨gate, read, gathered⟩ := Lib.bind_eq_ok.mp gathered
        split at gathered
        case isTrue => exact ih held gathered
        case isFalse =>
          exact ih (held.pushAll (gateOf_accepted read) _) gathered

theorem Gates.load_accepted {mcp : StoredRules} {settings : Settings} {repos : RepositoryStore}
    {repo : Repository} {gates : Gates}
    (loaded : Gates.load mcp.toMcpReads settings repos repo = .ok gates) : gates.Accepted := by
  rw [Gates.load] at loaded
  obtain ⟨nodes, _, loaded⟩ := Lib.bind_eq_ok.mp loaded
  obtain ⟨floors, gathered, loaded⟩ := Lib.bind_eq_ok.mp loaded
  obtain ⟨gate, read, done⟩ := Lib.bind_eq_ok.mp loaded
  cases done
  refine ⟨gateOf_accepted read, fun {member floor} found fragment mem => ?_⟩
  obtain ⟨unsorted, held, rfl⟩ := Option.map_eq_some_iff.mp found
  have all := gatherFloors_accepted (fun _ _ none => by cases none) gathered
  exact all member unsorted held fragment ((List.mem_insertionSort _).mp mem)

/-- The query of a page keeps this row, if the gates serve it: no rule set in force shadows its name, and
under `Hide` a deleted one passes the filter of the addressed repository and is approved. -/
structure Gates.Spares (gates : Gates) (member : Int) (row : CatalogRow) : Prop where
  floors : ∀ floor, gates.floors member = some floor → ∀ fragment ∈ floor.fragments,
    ¬Shadowed fragment.2 row.name
  live : gates.addressed.mode = .hide → row.status ≠ .deleted →
    ¬Shadowed gates.addressed.rules row.name
  deleted : gates.addressed.mode = .hide → row.status = .deleted →
    pushFilter ⟨gates.addressed.rules⟩ row.name = true ∧ row.verdict.approved = true

theorem approvedIn_eq (t : Tables) (addressed : Int) (v : ServerVersion) :
    t.approvedIn addressed v = (t.shownVerdict addressed v).approved := by
  cases own : t.verdictOf addressed v.id with
  | some verdict => simp [Tables.approvedIn, Tables.shownVerdict, own]
  | none =>
      cases member : t.verdictOf v.repositoryId v.id with
      | some verdict => simp [Tables.approvedIn, Tables.shownVerdict, own, member]
      | none =>
          simp [Tables.approvedIn, Tables.shownVerdict, own, member, Tables.unjudged,
            EndpointVerdict.approved]

theorem Gates.served_iff {gates : Gates} {member : Int} {row : CatalogRow} {includeDeleted : Bool} :
    (gates.decide member row includeDeleted).served = true ↔
      (row.status = .deleted → includeDeleted = true) ∧
      (row.status ≠ .deleted → gates.addressed.mode = .hide →
        Cleared gates.addressed.rules row.candidate) ∧
      ∀ floor, gates.floors member = some floor → ∀ fragment ∈ floor.fragments,
        admits fragment.2 row.name = true := by
  have judged : (Governance.decide gates.addressed.mode gates.addressed.rules row.candidate
      includeDeleted).served = true ↔
      (row.status = .deleted → includeDeleted = true) ∧
      (row.status ≠ .deleted → gates.addressed.mode = .hide →
        Cleared gates.addressed.rules row.candidate) := by
    rw [Governance.decide_served_iff]
    by_cases deleted : row.status = .deleted
    · have gone : row.candidate.deleted = true := by simpa [CatalogRow.candidate] using deleted
      simp [gone, deleted]
    · have here : row.candidate.deleted = false := by simpa [CatalogRow.candidate] using deleted
      simp [here, deleted]
  cases floor : gates.floors member with
  | none => simp [Gates.decide, floor, judged]
  | some floor =>
      simp only [Gates.decide, floor, Governance.Visibility.served_worst, Bool.and_eq_true, judged,
        Governance.Floor.served_visibility, Option.some.injEq, forall_eq', and_assoc]

/-- Of the rows of a member that its gates serve, the query of its pages keeps the spared ones. -/
theorem prefilter_iff_spares {t : Tables} {gates : Gates} {member : Int} {base : PageQuery}
    {v : ServerVersion} (accepted : gates.Accepted) {includeDeleted : Bool}
    (served : (gates.decide member (t.catalogRow base.addressed v) includeDeleted).served = true) :
    t.prefilter (memberQuery gates member base) v = true ↔
      gates.Spares member (t.catalogRow base.addressed v) := by
  obtain ⟨_, cleared, floors⟩ := Gates.served_iff.mp served
  have floored : (((gates.floors member).map fun floor =>
      floor.fragments.map fun f => NameFilter.mk f.2).getD []).all (pushFilter · v.name) = true ↔
      ∀ floor, gates.floors member = some floor → ∀ fragment ∈ floor.fragments,
        ¬Shadowed fragment.2 v.name := by
    cases found : gates.floors member with
    | none => simp
    | some floor =>
        simp only [Option.map_some, Option.getD_some, List.all_map, List.all_eq_true,
          Function.comp_apply, Option.some.injEq, forall_eq']
        refine forall_congr' fun fragment => forall_congr' fun mem => ?_
        exact pushFilter_of_admits (accepted.floors found fragment mem) (floors floor found fragment mem)
  have split : t.prefilter (memberQuery gates member base) v = true ↔
      (gates.addressed.mode = .hide → pushFilter ⟨gates.addressed.rules⟩ v.name = true ∧
        (t.shownVerdict base.addressed v).approved = true) ∧
      ∀ floor, gates.floors member = some floor → ∀ fragment ∈ floor.fragments,
        ¬Shadowed fragment.2 v.name := by
    rw [← floored]
    simp only [Tables.prefilter, memberQuery, Gates.filters, Gates.requireApproved, List.all_append,
      Bool.and_eq_true, approvedIn_eq]
    by_cases hides : gates.addressed.mode = .hide
    · by_cases none : gates.addressed.rules = []
      · simp [hides, none, pushFilter, NameFilter.allows, NameFilter.subtractableDenies, and_comm]
      · simp [hides, none]
        tauto
    · simp [hides]
  rw [split]
  constructor
  · rintro ⟨hidden, clear⟩
    refine ⟨clear, fun hides here => ?_, fun hides _ => hidden hides⟩
    exact (pushFilter_of_admits accepted.addressed (cleared here hides).admitted).mp (hidden hides).1
  · intro spares
    refine ⟨fun hides => ?_, spares.floors⟩
    by_cases deleted : (t.catalogRow base.addressed v).status = .deleted
    · exact spares.deleted hides deleted
    · have clear := cleared deleted hides
      exact ⟨(pushFilter_of_admits accepted.addressed clear.admitted).mpr (spares.live hides deleted),
        clear.approved⟩

end OpenCargo.Mcp
