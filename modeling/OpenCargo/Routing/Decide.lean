/-
Module: OpenCargo.Routing.Decide
Purpose: Which members the rules leave able to answer: the decision over a whole rule set
  (`crates/domain/src/routing.rs`) and the gate a request asks, with its short cuts
  (`registry/routing.rs`).
Trusted boundary: none
Main exports: Gate, Gate.admits, gate_agrees_and_rules_only_close, refused_name_refuses_its_terms
-/
import OpenCargo.Repository
import OpenCargo.Routing.Formats

namespace OpenCargo.Routing

open OpenCargo.Lib

/-! ### The decision -/

/-- The literal a pattern starts with, before its first star. -/
def Pattern.head (pattern : Pattern) : Text := pattern.literals.headD []

/-- The member a decision is about. -/
structure MemberRef where
  kind : RepoKind
  incarnation : Text
deriving Repr, DecidableEq, Inhabited

namespace RoutingRule

/-- Whether the rule has anything to say about this name. -/
def covers (rule : RoutingRule) (matchKey identKey : Text) : Bool :=
  rule.patterns.any (fun pattern => pattern.matches matchKey) &&
    !rule.except.any (fun name => name == identKey)

def admits (rule : RoutingRule) (member : MemberRef) : Bool :=
  match rule.effect with
  | .deny => false
  | .anyHosted => member.kind == .hosted
  | .members targets => member.kind == .hosted && targets.any fun target => target == member.incarnation

/-- Whether the rule speaks about this name, in this format, and refuses this member for it. -/
def refuses (rule : RoutingRule) (format : Format) (matchKey identKey : Text) (member : MemberRef) :
    Bool :=
  rule.format == format && rule.covers matchKey identKey && !rule.admits member

/-- Whether the rule has anything to say about an enumeration term: a term inside the covered class,
or one that completes into it. -/
def touchesTerm (rule : RoutingRule) (termKey : Text) : Bool :=
  rule.patterns.any fun pattern =>
    termKey.isPrefixOf pattern.head || pattern.head.isPrefixOf termKey

end RoutingRule

/-- Every rule that refuses one member for one name, held as the query. -/
structure RefusalSet where
  rules : List RoutingRule
  format : Format
  matchKey : Text
  identKey : Text
  member : MemberRef
deriving Repr, DecidableEq, Inhabited

/-- `RefusalSet::rules`. -/
def RefusalSet.refusing (set : RefusalSet) : List RoutingRule :=
  set.rules.filter fun rule => rule.refuses set.format set.matchKey set.identKey set.member

def RefusalSet.names (set : RefusalSet) : List Text := set.refusing.map RoutingRule.name

/-- What a rule set said about one member. -/
inductive Decision where
  | admit_
  | refuse (set : RefusalSet)
deriving Repr, DecidableEq, Inhabited

namespace Decision

def admitted : Decision → Bool
  | admit_ => true
  | refuse _ => false

def refusedBy : Decision → Option RefusalSet
  | admit_ => none
  | refuse set => some set

end Decision

namespace RouteSet

/-- Whether any rule at all speaks for this format. -/
def governs (set : RouteSet) (format : Format) : Bool :=
  set.rules.any fun rule => rule.format == format

/-- The rules covering this name, in name order. -/
def covering (set : RouteSet) (format : Format) (matchKey identKey : Text) : List RoutingRule :=
  set.rules.filter fun rule => rule.format == format && rule.covers matchKey identKey

def touchesTerm (set : RouteSet) (format : Format) (termKey : Text) : Bool :=
  set.rules.any fun rule => rule.format == format && rule.touchesTerm termKey

/-- The rules that refuse this member for an enumeration term; exceptions are not consulted. -/
def termRefusers (set : RouteSet) (format : Format) (termKey : Text) (member : MemberRef) :
    List RoutingRule :=
  set.rules.filter fun rule =>
    rule.format == format && rule.touchesTerm termKey && !rule.admits member

/-- Every covering rule applies, and the allowed set is their intersection. -/
def decide (set : RouteSet) (format : Format) (matchKey identKey : Text) (member : MemberRef) :
    Decision :=
  if set.rules.any fun rule => rule.refuses format matchKey identKey member then
    .refuse { rules := set.rules, format := format, matchKey := matchKey, identKey := identKey,
              member := member }
  else .admit_

end RouteSet

/-! ### The gate -/

/-- What one request decides against. -/
structure Snapshot where
  set : RouteSet
  /-- Nothing has refreshed the set for longer than `max_snapshot_age`. -/
  stale : Bool
deriving Repr, DecidableEq, Inhabited

/-- Why a member was left out. -/
inductive Verdict where
  | admitted
  | refused (rules : List Text) (identKey : Text)
  | stale
deriving Repr, DecidableEq, Inhabited

def Verdict.isAdmitted : Verdict → Bool
  | admitted => true
  | _ => false

/-- The rules to name in an audit line. -/
def Verdict.rules : Verdict → List Text
  | refused rules _ => rules
  | _ => []

/-- What a leaf asks for. -/
inductive Subject where
  | named (name : Text)
  | enumeration (term : Option Text)
deriving Repr, DecidableEq, Inhabited

structure Keys where
  matchKey : Text
  identKey : Text
deriving Repr, DecidableEq, Inhabited

/-- One request's routing decision: opened once, asked once per member. -/
structure Gate where
  snapshot : Snapshot
  format : Format
  keys : Option Keys
  /-- An enumeration's term in `match_key` form. -/
  term : Option Text
deriving Repr, DecidableEq, Inhabited

namespace Gate

/-- `rules_of` answers for every format, so opening a gate does not fail. -/
def open_ (snapshot : Snapshot) (format : Format) : Subject → Gate
  | .named name =>
      { snapshot := snapshot, format := format,
        keys := some { matchKey := Routing.matchKey format name,
                       identKey := Routing.identKey format name },
        term := none }
  | .enumeration term =>
      { snapshot := snapshot, format := format, keys := none,
        term := term.map (Routing.matchKey format) }

def idle (gate : Gate) : Bool := !gate.snapshot.set.governs gate.format

def decideTerm (gate : Gate) (at_ : MemberRef) (term : Text) : Verdict :=
  let rules := (gate.snapshot.set.termRefusers gate.format term at_).map RoutingRule.name
  if rules.isEmpty then .admitted else .refused rules term

/-- Whether a rule has something to say about the subject. -/
def concerned (gate : Gate) : Bool :=
  match gate.keys, gate.term with
  | some keys, _ => !(gate.snapshot.set.covering gate.format keys.matchKey keys.identKey).isEmpty
  | none, some term => gate.snapshot.set.touchesTerm gate.format term
  -- an enumeration nobody narrowed: the merge is what filters
  | none, none => false

/-- The verdict on one member at a known incarnation. -/
def judge (gate : Gate) (at_ : MemberRef) : Verdict :=
  match gate.keys, gate.term with
  | some keys, _ =>
      match (gate.snapshot.set.decide gate.format keys.matchKey keys.identKey at_).refusedBy with
      | none => .admitted
      | some refusals => .refused refusals.names keys.identKey
  | none, some term => gate.decideTerm at_ term
  | none, none => .admitted

/-- The verdict on one member, and the one store read it can cost. -/
def admits (gate : Gate) (repos : RepositoryStore) (member : Repository) :
    Except ResolveError Verdict :=
  if gate.idle then .ok .admitted
  else do
    let kind ← liftDomain member.kind
    if gate.snapshot.stale && kind == .proxy then return .stale
    if !gate.concerned then return .admitted
    let incarnation ← liftStore (repos.incarnation member.id)
    return gate.judge { kind := kind, incarnation := incarnation.getD [] }

end Gate

/-! ### The plain decision -/

/-- The rules a decision is imputed to. -/
def Decision.refusers (decision : Decision) : List RoutingRule :=
  (decision.refusedBy.map RefusalSet.refusing).getD []

theorem RouteSet.decide_admitted_iff {set : RouteSet} {format : Format} {matchKey identKey : Text}
    {member : MemberRef} :
    (set.decide format matchKey identKey member).admitted = true ↔
      ∀ rule ∈ set.rules, rule.refuses format matchKey identKey member = false := by
  rw [RouteSet.decide]
  split
  · rename_i refused
    obtain ⟨rule, held, refuses⟩ := List.any_eq_true.mp refused
    simp only [Decision.admitted, Bool.false_eq_true, false_iff, not_forall]
    exact ⟨rule, held, by simp [refuses]⟩
  · rename_i admitted
    simpa [Decision.admitted] using admitted

theorem RouteSet.decide_refusers (set : RouteSet) (format : Format) (matchKey identKey : Text)
    (member : MemberRef) :
    (set.decide format matchKey identKey member).refusers =
      set.rules.filter fun rule => rule.refuses format matchKey identKey member := by
  rw [RouteSet.decide]
  split
  · rfl
  · rename_i admitted
    refine (List.filter_eq_nil_iff.mpr fun rule held refuses => admitted ?_).symm
    exact List.any_eq_true.mpr ⟨rule, held, refuses⟩

/-- The verdict read off all the rules, with no short cut: a name is decided by `decide`, a term by
the rules that refuse it, and an enumeration nobody narrowed is not decided here. -/
def plainVerdict (set : RouteSet) (format : Format) (subject : Subject) (at_ : MemberRef) : Verdict :=
  match subject with
  | .named name =>
      match set.decide format (matchKey format name) (identKey format name) at_ with
      | .admit_ => .admitted
      | .refuse refusals => .refused refusals.names (identKey format name)
  | .enumeration (some term) =>
      let refusers := set.termRefusers format (matchKey format term) at_
      if refusers.isEmpty then .admitted
      else .refused (refusers.map RoutingRule.name) (matchKey format term)
  | .enumeration none => .admitted

/-- What the plain decision needs to know of a member, as far as it can be read: a column that does
not parse and a read that fails leave it open. -/
structure Describes (repos : RepositoryStore) (member : Repository) (at_ : MemberRef) : Prop where
  kind : ∀ kind, member.kind = .ok kind → at_.kind = kind
  incarnation : ∀ found, repos.incarnation member.id = .ok found → at_.incarnation = found.getD []

theorem Gate.judge_open (snapshot : Snapshot) (format : Format) (subject : Subject)
    (at_ : MemberRef) :
    (Gate.open_ snapshot format subject).judge at_ =
      plainVerdict snapshot.set format subject at_ := by
  cases subject with
  | named name =>
      simp only [Gate.open_, Gate.judge, plainVerdict]
      cases snapshot.set.decide format (matchKey format name) (identKey format name) at_ with
      | admit_ => rfl
      | refuse refusals => rfl
  | enumeration term =>
      cases term with
      | none => rfl
      | some term => simp [Gate.open_, Gate.judge, Gate.decideTerm, plainVerdict]

theorem plainVerdict_of_not_concerned {snapshot : Snapshot} {format : Format} {subject : Subject}
    (aside : (Gate.open_ snapshot format subject).concerned = false) (at_ : MemberRef) :
    plainVerdict snapshot.set format subject at_ = .admitted := by
  cases subject with
  | named name =>
      simp only [Gate.open_, Gate.concerned, Bool.not_eq_false', List.isEmpty_iff,
        RouteSet.covering, List.filter_eq_nil_iff] at aside
      have admitted : (snapshot.set.decide format (matchKey format name) (identKey format name)
          at_).admitted = true := by
        refine RouteSet.decide_admitted_iff.mpr fun rule held => ?_
        have silent := aside rule held
        rw [Bool.not_eq_true] at silent
        rw [RoutingRule.refuses, silent, Bool.false_and]
      simp only [plainVerdict]
      cases decided : snapshot.set.decide format (matchKey format name) (identKey format name) at_ with
      | admit_ => rfl
      | refuse refusals =>
          rw [decided] at admitted
          cases admitted
  | enumeration term =>
      cases term with
      | none => rfl
      | some term =>
          simp only [Gate.open_, Option.map_some, Gate.concerned, RouteSet.touchesTerm,
            List.any_eq_false] at aside
          have none_ : snapshot.set.termRefusers format (matchKey format term) at_ = [] := by
            refine List.filter_eq_nil_iff.mpr fun rule held => ?_
            have silent := aside rule held
            rw [Bool.not_eq_true] at silent ⊢
            rw [silent, Bool.false_and]
          simp only [plainVerdict, none_, List.isEmpty_nil, if_true]

theorem Gate.not_concerned_of_idle {snapshot : Snapshot} {format : Format} {subject : Subject}
    (idle : (Gate.open_ snapshot format subject).idle = true) :
    (Gate.open_ snapshot format subject).concerned = false := by
  have other : ∀ rule ∈ snapshot.set.rules, (rule.format == format) = false := by
    cases subject <;>
      simpa [Gate.open_, Gate.idle, RouteSet.governs] using idle
  cases subject with
  | named name =>
      simp only [Gate.open_, Gate.concerned, Bool.not_eq_false', List.isEmpty_iff,
        RouteSet.covering, List.filter_eq_nil_iff]
      intro rule held
      rw [other rule held, Bool.false_and]
      exact Bool.false_ne_true
  | enumeration term =>
      cases term with
      | none => rfl
      | some term =>
          simp only [Gate.open_, Option.map_some, Gate.concerned, RouteSet.touchesTerm,
            List.any_eq_false]
          intro rule held
          rw [other rule held, Bool.false_and]
          exact Bool.false_ne_true

/-- The surface a stale snapshot closes: the proxies of a format that some rule speaks for. -/
def Snapshot.closes (snapshot : Snapshot) (format : Format) (kind : RepoKind) : Bool :=
  snapshot.stale && kind == .proxy && snapshot.set.governs format

theorem Gate.admits_answers {snapshot : Snapshot} {format : Format} {subject : Subject}
    {repos : RepositoryStore} {member : Repository} {at_ : MemberRef} {verdict : Verdict}
    (describes : Describes repos member at_)
    (answered : (Gate.open_ snapshot format subject).admits repos member = .ok verdict) :
    verdict = if snapshot.closes format at_.kind then .stale
      else plainVerdict snapshot.set format subject at_ := by
  have held : (Gate.open_ snapshot format subject).snapshot = snapshot ∧
      (Gate.open_ snapshot format subject).format = format := by
    cases subject <;> exact ⟨rfl, rfl⟩
  rw [Gate.admits] at answered
  cases idle : (Gate.open_ snapshot format subject).idle with
  | true =>
      have ungoverned : snapshot.set.governs format = false := by
        rw [Gate.idle, held.1, held.2] at idle
        simpa using idle
      rw [idle, if_pos rfl] at answered
      cases answered
      rw [Snapshot.closes, ungoverned, Bool.and_false, if_neg Bool.false_ne_true,
        plainVerdict_of_not_concerned (Gate.not_concerned_of_idle idle)]
  | false =>
      have governed : snapshot.set.governs format = true := by
        rw [Gate.idle, held.1, held.2] at idle
        simpa using idle
      rw [idle, if_neg Bool.false_ne_true] at answered
      cases kinded : member.kind with
      | error err => simp [kinded, liftDomain, Except.mapError, bind, Except.bind] at answered
      | ok kind =>
          rw [describes.kind kind kinded, Snapshot.closes, governed, Bool.and_true]
          simp only [kinded, liftDomain_ok, bind, Except.bind, held.1, pure, Except.pure] at answered
          cases closed : snapshot.stale && kind == .proxy with
          | true =>
              rw [closed, if_pos rfl] at answered
              cases answered
              rfl
          | false =>
              rw [closed, if_neg Bool.false_ne_true] at answered
              rw [if_neg Bool.false_ne_true]
              cases concerned : (Gate.open_ snapshot format subject).concerned with
              | false =>
                  rw [concerned] at answered
                  cases answered
                  exact (plainVerdict_of_not_concerned concerned at_).symm
              | true =>
                  rw [concerned] at answered
                  cases found : repos.incarnation member.id with
                  | error err =>
                      simp [found, liftStore, Except.mapError] at answered
                  | ok incarnation =>
                      simp only [found, liftStore_ok, Bool.not_true, Bool.false_eq_true, if_false,
                        Gate.judge_open, Except.ok.injEq] at answered
                      have same : at_ = { kind := kind, incarnation := incarnation.getD [] } := by
                        rw [← describes.kind kind kinded, ← describes.incarnation incarnation found]
                      rw [← answered, same]

theorem Gate.admits_total (gate : Gate) {repos : RepositoryStore} {member : Repository}
    {kind : RepoKind} {found : Option Text} (kinded : member.kind = .ok kind)
    (read : repos.incarnation member.id = .ok found) :
    ∃ verdict, gate.admits repos member = .ok verdict := by
  simp only [Gate.admits, kinded, read, liftDomain_ok, liftStore_ok, bind, Except.bind, pure,
    Except.pure]
  repeat' split
  all_goals exact ⟨_, rfl⟩

/-! ### Rules only close -/

theorem RouteSet.decide_mono {set more : RouteSet} (part : set.rules ⊆ more.rules) {format : Format}
    {matchKey identKey : Text} {member : MemberRef}
    (refused : (set.decide format matchKey identKey member).admitted = false) :
    (more.decide format matchKey identKey member).admitted = false := by
  by_contra open_
  rw [Bool.not_eq_false, RouteSet.decide_admitted_iff] at open_
  rw [RouteSet.decide_admitted_iff.mpr fun rule held => open_ rule (part held)] at refused
  cases refused

theorem RouteSet.decide_perm {set other : RouteSet} (same : set.rules.Perm other.rules)
    (format : Format) (matchKey identKey : Text) (member : MemberRef) :
    (set.decide format matchKey identKey member).admitted =
        (other.decide format matchKey identKey member).admitted ∧
      (set.decide format matchKey identKey member).refusers.Perm
        (other.decide format matchKey identKey member).refusers := by
  constructor
  · rw [Bool.eq_iff_iff, RouteSet.decide_admitted_iff, RouteSet.decide_admitted_iff]
    exact forall_congr' fun rule => imp_congr_left same.mem_iff
  · rw [RouteSet.decide_refusers, RouteSet.decide_refusers]
    exact same.filter _

/-- The gate answers what the rules decide, for every request: short cuts and the store's failures
change nothing but what a stale snapshot closes. The order of the rules changes neither the outcome
nor the rules it is imputed to, and a rule that is added opens nothing, for a name or for a term. -/
theorem gate_agrees_and_rules_only_close (format : Format) (subject : Subject) :
    (∀ (snapshot : Snapshot) (repos : RepositoryStore) (member : Repository) (at_ : MemberRef),
      Describes repos member at_ →
        (∀ verdict, (Gate.open_ snapshot format subject).admits repos member = .ok verdict →
          verdict = if snapshot.closes format at_.kind then .stale
            else plainVerdict snapshot.set format subject at_) ∧
        (∀ kind found, member.kind = .ok kind → repos.incarnation member.id = .ok found →
          ∃ verdict, (Gate.open_ snapshot format subject).admits repos member = .ok verdict)) ∧
    (∀ (set other : RouteSet) (matchKey identKey : Text) (member : MemberRef),
      set.rules.Perm other.rules →
        (set.decide format matchKey identKey member).admitted =
            (other.decide format matchKey identKey member).admitted ∧
          (set.decide format matchKey identKey member).refusers.Perm
            (other.decide format matchKey identKey member).refusers ∧
          (set.termRefusers format matchKey member).Perm
            (other.termRefusers format matchKey member)) ∧
    (∀ (set : RouteSet) (rule : RoutingRule) (matchKey identKey : Text) (member : MemberRef),
      ((set.decide format matchKey identKey member).admitted = false →
        ((RouteSet.new (rule :: set.rules) set.version).decide format matchKey identKey
          member).admitted = false) ∧
      (set.termRefusers format matchKey member ≠ [] →
        (RouteSet.new (rule :: set.rules) set.version).termRefusers format matchKey member ≠ [])) := by
  refine ⟨fun snapshot repos member at_ describes => ?_, ?_, fun set rule matchKey identKey member => ?_⟩
  · exact ⟨fun verdict answered => Gate.admits_answers describes answered,
      fun kind found kinded read => Gate.admits_total _ kinded read⟩
  · intro set other matchKey identKey member same
    have decided := RouteSet.decide_perm same format matchKey identKey member
    exact ⟨decided.1, decided.2, same.filter _⟩
  · have part : set.rules ⊆ (RouteSet.new (rule :: set.rules) set.version).rules := by
      intro held there
      exact (List.perm_insertionSort _ _).mem_iff.mpr (List.mem_cons_of_mem rule there)
    refine ⟨RouteSet.decide_mono part, fun some_ => ?_⟩
    obtain ⟨refuser, there⟩ := List.exists_mem_of_ne_nil _ some_
    obtain ⟨held, refuses⟩ := List.mem_filter.mp there
    exact List.ne_nil_of_mem (List.mem_filter.mpr ⟨part held, refuses⟩)

/-- `@acme/*` is served by hosted members only. -/
def internal : RoutingRule where
  name := "internal".toList
  format := .npm
  patterns := [{ literals := ["@acme/".toList, []], source := "@acme/*".toList }]
  except := []
  effect := .anyHosted

/-- A mirror of a public registry. -/
def mirror : Repository where
  id := 1
  name := "npmjs".toList
  repoType := "proxy".toList
  format := "npm".toList
  visibility := .public_
  config := none

/-- A store whose repositories have the incarnation `i1`. -/
def oneIncarnation : RepositoryStore where
  byName := fun _ => .ok none
  incarnation := fun _ => .ok (some "i1".toList)

theorem mirror_described : Describes oneIncarnation mirror ⟨.proxy, "i1".toList⟩ where
  kind kind kinded := by
    have read : mirror.kind = .ok .proxy := by decide
    rw [read] at kinded
    exact Except.ok.inj kinded
  incarnation found read := by
    cases read
    rfl

/-- The mirror is refused for the internal name, by the gate as by the rules. -/
theorem internal_name_is_refused_at_the_mirror :
    (Gate.open_ ⟨RouteSet.new [internal] 1, false⟩ .npm (.named "@acme/ui".toList)).admits
        oneIncarnation mirror = .ok (.refused ["internal".toList] "@acme/ui".toList) ∧
      plainVerdict (RouteSet.new [internal] 1) .npm (.named "@acme/ui".toList)
        ⟨.proxy, "i1".toList⟩ = .refused ["internal".toList] "@acme/ui".toList := by
  have answered : (Gate.open_ ⟨RouteSet.new [internal] 1, false⟩ .npm
      (.named "@acme/ui".toList)).admits oneIncarnation mirror =
        .ok (.refused ["internal".toList] "@acme/ui".toList) := by decide +kernel
  have agrees := ((gate_agrees_and_rules_only_close .npm (.named "@acme/ui".toList)).1
    ⟨RouteSet.new [internal] 1, false⟩ oneIncarnation mirror _ mirror_described).1 _ answered
  have fresh : Snapshot.closes ⟨RouteSet.new [internal] 1, false⟩ .npm .proxy = false := by decide
  rw [fresh, if_neg Bool.false_ne_true] at agrees
  exact ⟨answered, agrees.symm⟩

/-- A stale snapshot refuses the mirror for a name no rule speaks of. -/
theorem stale_gate_refuses_what_the_rules_admit :
    (Gate.open_ ⟨RouteSet.new [internal] 1, true⟩ .npm (.named "left-pad".toList)).admits
        oneIncarnation mirror = .ok .stale ∧
      ((RouteSet.new [internal] 1).decide .npm (matchKey .npm "left-pad".toList)
        (identKey .npm "left-pad".toList) ⟨.proxy, "i1".toList⟩).admitted = true := by
  exact ⟨by decide +kernel, by decide +kernel⟩

/-! ### Terms -/

/-- Keys grow with the name: a separator run the term ends in is not written yet. -/
theorem matchKey_mono (format : Format) (term rest : Text) :
    matchKey format term <+: matchKey format (term ++ rest) := by
  by_cases letterwise : format = .pypi
  · subst letterwise
    simp only [matchKey, normalize_eq_collapse]
    rw [List.dropWhile_append]
    split
    · rename_i blank
      rw [List.isEmpty_iff] at blank
      rw [blank]
      exact List.nil_prefix
    · rw [collapse_append]
      exact List.prefix_append _ _
  · obtain ⟨f, key, _⟩ := matchKey_letterwise letterwise
    rw [key, List.map_append]
    exact List.prefix_append _ _

theorem Pattern.head_isPrefix {pattern : Pattern} {key : Text} (caught : pattern.matches key = true) :
    pattern.head <+: key := by
  have fits := greedy_iff_fits.mp caught
  rw [Pattern.head]
  match cut : pattern.literals with
  | [] => exact List.nil_prefix
  | [only] =>
      rw [cut] at fits
      rw [fits]
      exact List.prefix_rfl
  | first :: next :: more =>
      rw [cut] at fits
      obtain ⟨rest, rfl, _⟩ := fits_cons_iff.mp fits
      exact List.prefix_append first rest

theorem RoutingRule.touchesTerm_of_covers {rule : RoutingRule} {matchKey identKey termKey : Text}
    (covers : rule.covers matchKey identKey = true) (starts : termKey <+: matchKey) :
    rule.touchesTerm termKey = true := by
  rw [RoutingRule.covers, Bool.and_eq_true] at covers
  obtain ⟨pattern, held, caught⟩ := List.any_eq_true.mp covers.1
  refine List.any_eq_true.mpr ⟨pattern, held, ?_⟩
  rw [Bool.or_eq_true, List.isPrefixOf_iff_prefix, List.isPrefixOf_iff_prefix]
  exact List.prefix_or_prefix_of_prefix starts (Pattern.head_isPrefix caught)

/-- A member the rules refuse for a name is refused for every term the name starts with. -/
theorem refused_name_refuses_its_terms {set : RouteSet} {format : Format} {term name identKey : Text}
    {member : MemberRef} (starts : term <+: name)
    (refused : (set.decide format (matchKey format name) identKey member).admitted = false) :
    set.termRefusers format (matchKey format term) member ≠ [] := by
  obtain ⟨rest, rfl⟩ := starts
  have found : ¬ ∀ rule ∈ set.rules,
      rule.refuses format (matchKey format (term ++ rest)) identKey member = false := by
    intro none_
    rw [RouteSet.decide_admitted_iff.mpr none_] at refused
    cases refused
  obtain ⟨rule, held, refuses⟩ : ∃ rule ∈ set.rules,
      rule.refuses format (matchKey format (term ++ rest)) identKey member = true := by
    simpa using found
  simp only [RoutingRule.refuses, Bool.and_eq_true] at refuses
  have touches := RoutingRule.touchesTerm_of_covers refuses.1.2 (matchKey_mono format term rest)
  refine List.ne_nil_of_mem (List.mem_filter.mpr ⟨held, ?_⟩)
  rw [refuses.1.1, touches, refuses.2]
  rfl

/-- Searching for `@Ac` at the mirror would complete into the internal name. -/
theorem term_of_the_internal_name_is_refused :
    (RouteSet.new [internal] 1).termRefusers .npm (matchKey .npm "@Ac".toList)
      ⟨.proxy, "i1".toList⟩ ≠ [] := by
  have refused : ((RouteSet.new [internal] 1).decide .npm (matchKey .npm "@Acme/ui".toList)
      (identKey .npm "@Acme/ui".toList) ⟨.proxy, "i1".toList⟩).admitted = false := by decide +kernel
  exact refused_name_refuses_its_terms (by decide) refused

end OpenCargo.Routing
