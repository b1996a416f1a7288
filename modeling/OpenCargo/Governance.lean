/-
Module: OpenCargo.Governance
Purpose: The gate over what a repository distributes (`crates/domain/src/governance.rs`): allow rules
  over names, approvals bound to a fingerprinted surface, and what both make of a candidate.
Trusted boundary: none
Main exports: endpointVerdict_approved_iff, decide_served_iff, hide_serves_only_cleared_iff
-/
import OpenCargo.Layout

namespace OpenCargo.Governance

open Keys (byteLength)

/-- What a repository's rules and approvals do to what it serves. -/
inductive GateMode where
  /-- Serve everything; nothing is flagged. -/
  | off
  /-- Serve everything, flagging what an approval or a rule would refuse. -/
  | warn
  /-- Remove what an approval or a rule refuses. -/
  | hide
deriving Repr, DecidableEq, Inhabited

inductive Effect where
  | allow
  | deny
deriving Repr, DecidableEq, Inhabited

/-- An exact name, or the letters before a trailing `*`. -/
structure AllowRule where
  pattern : Text
  effect : Effect
deriving Repr, DecidableEq, Inhabited

namespace AllowRule

/-- `AllowRule::prefix`: what a `*` rule matches at the start of a name, `none` for an exact rule. -/
def stem (rule : AllowRule) : Option Text :=
  if rule.pattern.getLast? = some '*' then some rule.pattern.dropLast else none

/-- `AllowRule::matches`. -/
def matchesName (rule : AllowRule) (name : Text) : Bool :=
  match rule.stem with
  | some stem => stem.isPrefixOf name
  | none => name == rule.pattern

/-- What two matching rules are compared by: the longer pattern, then the one that denies. -/
def weight (rule : AllowRule) : Nat ×ₗ Bool :=
  toLex (byteLength rule.pattern, rule.effect == .deny)

end AllowRule

/-- `Iterator::max_by_key`: the last of the elements with the greatest key. -/
def maxByKey {α κ : Type*} [LE κ] [DecidableLE κ] (key : α → κ) : List α → Option α
  | [] => none
  | x :: xs =>
      match maxByKey key xs with
      | none => some x
      | some best => if key x ≤ key best then some best else some x

/-- The rule deciding `name`: the longest matching pattern, `deny` winning a tie. `none` when no rule
matches. -/
def allowed (rules : List AllowRule) (name : Text) : Option Bool :=
  (maxByKey AllowRule.weight (rules.filter (·.matchesName name))).map (·.effect == .allow)

/-- Whether a ruleset lets `name` through. With no match, a set holding any `allow` rule is closed and a
deny-only set is open. -/
def admits (rules : List AllowRule) (name : Text) : Bool :=
  (allowed rules name).getD (!rules.any (·.effect == .allow))

/-- Which half of an approved surface moved, worst last. -/
inductive Drift where
  | none
  | permissions
  | tools
  | both
  /-- An endpoint no approval of the version covers. -/
  | newEndpoint
deriving Repr, DecidableEq, Inhabited

/-- The derived `Ord`, by the order of the variants. -/
def Drift.rank : Drift → Nat
  | .none => 0
  | .permissions => 1
  | .tools => 2
  | .both => 3
  | .newEndpoint => 4

/-- The two digests a reviewer approves: the declared permissions, and the tools when someone observed
them. -/
structure Fingerprint where
  permissions : Text
  tools : Option Text
deriving Repr, DecidableEq, Inhabited

/-- Each half compared on its own. Tools observed for the first time since the approval is a drift;
tools no longer observed is not. -/
def drift (approved current : Fingerprint) : Drift :=
  let permissions := approved.permissions != current.permissions
  let tools :=
    match approved.tools, current.tools with
    | some a, some c => a != c
    | none, some _ => true
    | _, none => false
  match permissions, tools with
  | false, false => .none
  | true, false => .permissions
  | false, true => .tools
  | true, true => .both

inductive Decision where
  | approved
  | blocked
deriving Repr, DecidableEq, Inhabited

/-- One endpoint of a version as a verdict sees it: what it currently answers, and what a reviewer
decided about it, if anyone did. -/
structure Endpoint where
  url : Text
  current : Fingerprint
  approval : Option (Decision × Fingerprint)
deriving Repr, DecidableEq, Inhabited

/-- The version's verdict for one repository, over every endpoint the record currently declares. -/
structure EndpointVerdict where
  surfaceEndpoints : Int
  approvedEndpoints : Int
  worstDrift : Drift
  driftedRemote : Option Text
deriving Repr, DecidableEq, Inhabited

/-- Every endpoint approved and none moved since. -/
def EndpointVerdict.approved (verdict : EndpointVerdict) : Bool :=
  decide (verdict.surfaceEndpoints > 0) &&
    verdict.approvedEndpoints == verdict.surfaceEndpoints && verdict.worstDrift == .none

/-- What one endpoint says of its drift; `reviewed` when some endpoint of the version has an
approval. -/
def Endpoint.moved (endpoint : Endpoint) (reviewed : Bool) : Drift :=
  match endpoint.approval with
  | some (_, approved) => drift approved endpoint.current
  | none => if reviewed then .newEndpoint else .none

/-- Whether an endpoint counts as approved: its approval still matches what it answers. -/
def Endpoint.counts (endpoint : Endpoint) : Bool :=
  match endpoint.approval with
  | some (decision, approved) =>
      decision == .approved && drift approved endpoint.current == .none
  | none => false

/-- One turn of the loop of `endpoint_verdict`. -/
def EndpointVerdict.fold (reviewed : Bool) (verdict : EndpointVerdict) (endpoint : Endpoint) :
    EndpointVerdict :=
  let counted :=
    if endpoint.counts then
      { verdict with approvedEndpoints := verdict.approvedEndpoints + 1 }
    else verdict
  let moved := endpoint.moved reviewed
  if moved.rank > counted.worstDrift.rank then
    { counted with worstDrift := moved, driftedRemote := some endpoint.url }
  else counted

def endpointVerdict (endpoints : List Endpoint) : EndpointVerdict :=
  let reviewed := endpoints.any (·.approval.isSome)
  endpoints.foldl (EndpointVerdict.fold reviewed)
    { surfaceEndpoints := endpoints.length
      approvedEndpoints := 0
      worstDrift := .none
      driftedRemote := none }

/-- What a gate does to one row. -/
inductive Visibility where
  | serve
  | serveFlagged (why : Text)
  | hide (why : Text)
deriving Repr, DecidableEq, Inhabited

namespace Visibility

def rank : Visibility → Nat
  | .serve => 0
  | .serveFlagged _ => 1
  | .hide _ => 2

/-- The stricter of two gates; the first one's reason on a tie. -/
def worst (self other : Visibility) : Visibility :=
  if other.rank > self.rank then other else self

def served : Visibility → Bool
  | .hide _ => false
  | _ => true

end Visibility

/-- `why` removed under `hide`, flagged under `warn`, ignored under `off`. -/
def byMode (mode : GateMode) (why : Text) : Visibility :=
  match mode with
  | .off => .serve
  | .warn => .serveFlagged why
  | .hide => .hide why

/-- Everything the gate knows about one server version in one repository. -/
structure Candidate where
  name : Text
  deleted : Bool
  verdict : EndpointVerdict
  blocked : Bool
deriving Repr, DecidableEq, Inhabited

def driftSubject : Drift → Text
  | .permissions => "declared permissions".toList
  | .tools => "tool descriptions".toList
  | _ => "permissions and tool descriptions".toList

/-- What is said of a candidate whose surface moved. -/
def driftReason (verdict : EndpointVerdict) : Text :=
  match verdict.worstDrift, verdict.driftedRemote.filter (fun remote => !remote.isEmpty) with
  | .newEndpoint, some remote =>
      "a new endpoint ".toList ++ remote ++ " appeared since approval".toList
  | moved, some remote =>
      driftSubject moved ++ " changed at ".toList ++ remote ++ " since approval".toList
  | moved, none => driftSubject moved ++ " changed since approval".toList

/-- One repository's gate over a server version: deletion first, then its allow rules, then the
approval of every endpoint. -/
def decide (mode : GateMode) (rules : List AllowRule) (candidate : Candidate)
    (includeDeleted : Bool) : Visibility :=
  if candidate.deleted then
    if !includeDeleted then .hide "deleted upstream".toList
    else .serveFlagged "deleted upstream".toList
  else
    let out :=
      if !admits rules candidate.name then
        Visibility.serve.worst (byMode mode "matches no allow rule".toList)
      else .serve
    if candidate.blocked then out.worst (byMode mode "blocked by an admin".toList)
    else if candidate.verdict.worstDrift ≠ .none then
      out.worst (byMode mode (driftReason candidate.verdict))
    else if !candidate.verdict.approved then out.worst (byMode mode "not approved".toList)
    else out

/-- A gate over something with no endpoints: allow rules, then one approval. -/
def decideSingle (mode : GateMode) (rules : List AllowRule) (name : Text)
    (decision : Option Decision) : Visibility :=
  let out :=
    if !admits rules name then
      Visibility.serve.worst (byMode mode "matches no allow rule".toList)
    else .serve
  match decision with
  | some .approved => out
  | some .blocked => out.worst (byMode mode "blocked by an admin".toList)
  | none => out.worst (byMode mode "not approved".toList)

/-- The allow rules of every `hide` repository from which a leaf is reachable, each with the name of its
repository, so that a hidden row says who hid it. -/
structure Floor where
  fragments : List (Text × List AllowRule)
deriving Repr, DecidableEq, Inhabited

def Floor.visibility (floor : Floor) (name : Text) : Visibility :=
  match floor.fragments.find? fun fragment => !admits fragment.2 name with
  | some (repo, _) => .hide ("matches no allow rule of ".toList ++ repo)
  | none => .serve

section Rules

theorem maxByKey_spec {α κ : Type*} [LinearOrder κ] (key : α → κ) {xs : List α} {best : α}
    (found : maxByKey key xs = some best) : best ∈ xs ∧ ∀ x ∈ xs, key x ≤ key best := by
  induction xs generalizing best with
  | nil => simp [maxByKey] at found
  | cons x xs ih =>
      rw [maxByKey] at found
      cases later : maxByKey key xs with
      | none =>
          have empty : xs = [] := by
            cases xs with
            | nil => rfl
            | cons y ys =>
                rw [maxByKey] at later
                split at later <;> (try split at later) <;> cases later
          simp only [later, Option.some.injEq] at found
          simp [found, empty]
      | some other =>
          have ⟨held, top⟩ := ih later
          simp only [later] at found
          split at found
          · rename_i below
            cases found
            exact ⟨List.mem_cons_of_mem _ held, by simpa using ⟨below, top⟩⟩
          · rename_i above
            cases found
            have under : ∀ y ∈ xs, key y ≤ key x := fun y mem =>
              (top y mem).trans (le_of_not_ge above)
            exact ⟨List.mem_cons_self, by simpa using under⟩

theorem maxByKey_eq_none_iff {α κ : Type*} [LinearOrder κ] {key : α → κ} {xs : List α} :
    maxByKey key xs = none ↔ xs = [] := by
  cases xs with
  | nil => simp [maxByKey]
  | cons x xs =>
      rw [maxByKey]
      split
      · simp
      · split <;> simp

/-- A rule decides a name when it matches it and no matching rule is longer. -/
structure AllowRule.Decides (rule : AllowRule) (rules : List AllowRule) (name : Text) : Prop where
  mem : rule ∈ rules
  reads : rule.matchesName name = true
  longest : ∀ other ∈ rules, other.matchesName name = true →
    byteLength other.pattern ≤ byteLength rule.pattern

/-- The heaviest matching rule decides the name, and where it allows, no rule that denies decides it
too. -/
theorem heaviest_decides {rules : List AllowRule} {name : Text} {rule : AllowRule}
    (found : maxByKey AllowRule.weight (rules.filter (·.matchesName name)) = some rule) :
    rule.Decides rules name ∧
      (rule.effect = .allow →
        ∀ other : AllowRule, other.Decides rules name → other.effect = .allow) := by
  have ⟨held, top⟩ := maxByKey_spec AllowRule.weight found
  have ⟨mem, reads⟩ := List.mem_filter.mp held
  have above : ∀ other ∈ rules, other.matchesName name = true → other.weight ≤ rule.weight :=
    fun other mem reads => top other (List.mem_filter.mpr ⟨mem, reads⟩)
  refine ⟨⟨mem, reads, fun other mem reads => ?_⟩, fun allows other decides => ?_⟩
  · rcases Prod.Lex.le_iff.mp (above other mem reads) with shorter | ⟨same, _⟩
    · exact shorter.le
    · exact same.le
  · have level := decides.longest rule mem reads
    rcases Prod.Lex.le_iff.mp (above other decides.mem decides.reads) with shorter | ⟨_, weaker⟩
    · exact absurd level (not_le.mpr shorter)
    · cases other_effect : other.effect with
      | allow => rfl
      | deny =>
          have denies : (Effect.deny == Effect.deny) ≤ (Effect.allow == Effect.deny) := by
            simpa only [AllowRule.weight, ofLex_toLex, other_effect, allows] using weaker
          exact absurd denies (by decide)

/-- A rule set admits a name when a rule that allows decides it and none that denies does, or when no
rule matches it and no rule allows anything. -/
theorem admits_iff {rules : List AllowRule} {name : Text} :
    admits rules name = true ↔
      (∃ rule : AllowRule, rule.Decides rules name ∧ rule.effect = .allow ∧
        ∀ other : AllowRule, other.Decides rules name → other.effect = .allow) ∨
      ((∀ rule ∈ rules, rule.matchesName name = false) ∧ ∀ rule ∈ rules, rule.effect = .deny) := by
  cases found : maxByKey AllowRule.weight (rules.filter (·.matchesName name)) with
  | none =>
      have unmatched : ∀ rule ∈ rules, rule.matchesName name = false := by
        simpa using maxByKey_eq_none_iff.mp found
      have undecided : ¬∃ rule : AllowRule, rule.Decides rules name ∧ rule.effect = .allow ∧
          ∀ other : AllowRule, other.Decides rules name → other.effect = .allow := by
        rintro ⟨rule, decides, _⟩
        simpa [unmatched rule decides.mem] using decides.reads
      have closed : admits rules name = true ↔ ∀ rule ∈ rules, rule.effect = .deny := by
        simp only [admits, allowed, found, Option.map_none, Option.getD_none, Bool.not_eq_true',
          List.any_eq_false, beq_iff_eq]
        constructor <;> intro all rule mem
        · cases effect : rule.effect with
          | allow => exact absurd effect (all rule mem)
          | deny => rfl
        · simp [all rule mem]
      rw [closed]
      simp only [undecided, false_or]
      exact (and_iff_right unmatched).symm
  | some best =>
      have ⟨decides, only⟩ := heaviest_decides found
      have matched : ¬∀ rule ∈ rules, rule.matchesName name = false := fun none =>
        absurd decides.reads (by simp [none best decides.mem])
      have allows : admits rules name = true ↔ best.effect = .allow := by
        simp [admits, allowed, found]
      rw [allows]
      constructor
      · intro effect
        exact .inl ⟨best, decides, effect, only effect⟩
      · rintro (⟨_, _, _, all⟩ | ⟨none, _⟩)
        · exact all best decides
        · exact absurd none matched

end Rules

section Verdict

theorem drift_eq_none_iff {approved current : Fingerprint} :
    drift approved current = .none ↔
      approved.permissions = current.permissions ∧
        (current.tools = none ∨ approved.tools = current.tools) := by
  have kept : approved.permissions = current.permissions ↔
      (approved.permissions != current.permissions) = false := by simp
  have halves : ∀ permissions tools : Bool,
      (match permissions, tools with
        | false, false => Drift.none
        | true, false => .permissions
        | false, true => .tools
        | true, true => .both) = .none ↔ permissions = false ∧ tools = false := by decide
  rw [kept]
  simp only [drift, halves]
  cases approved.tools <;> cases current.tools <;> simp

theorem Endpoint.moved_of_counts {endpoint : Endpoint} {reviewed : Bool}
    (counts : endpoint.counts = true) : endpoint.moved reviewed = .none := by
  cases approval : endpoint.approval with
  | none => simp [Endpoint.counts, approval] at counts
  | some pair =>
      simp only [Endpoint.counts, approval, Bool.and_eq_true, beq_iff_eq] at counts
      simpa [Endpoint.moved, approval] using counts.2

theorem fold_verdict (reviewed : Bool) (endpoints : List Endpoint) (start : EndpointVerdict) :
    (endpoints.foldl (EndpointVerdict.fold reviewed) start).surfaceEndpoints =
        start.surfaceEndpoints ∧
      (endpoints.foldl (EndpointVerdict.fold reviewed) start).approvedEndpoints =
        start.approvedEndpoints + endpoints.countP (·.counts) ∧
      ((endpoints.foldl (EndpointVerdict.fold reviewed) start).worstDrift = .none ↔
        start.worstDrift = .none ∧ ∀ e ∈ endpoints, e.moved reviewed = .none) := by
  induction endpoints generalizing start with
  | nil => simp
  | cons e rest ih =>
      have turn : (EndpointVerdict.fold reviewed start e).surfaceEndpoints =
            start.surfaceEndpoints ∧
          (EndpointVerdict.fold reviewed start e).approvedEndpoints =
            start.approvedEndpoints + (if e.counts then 1 else 0) ∧
          ((EndpointVerdict.fold reviewed start e).worstDrift = .none ↔
            start.worstDrift = .none ∧ e.moved reviewed = .none) := by
        cases moved : e.moved reviewed <;> cases worst : start.worstDrift <;>
          by_cases counts : e.counts = true <;>
          simp [EndpointVerdict.fold, moved, worst, counts, Drift.rank]
      have ⟨surface, approved, still⟩ := ih (EndpointVerdict.fold reviewed start e)
      rw [List.foldl_cons, surface, approved, still, turn.1, turn.2.1, turn.2.2]
      refine ⟨rfl, ?_, ?_⟩
      · by_cases counts : e.counts = true <;> (simp [counts]; try omega)
      · simp [and_assoc]

/-- A version is approved when it declares an endpoint and each one it declares was approved as it
answers now. -/
theorem endpointVerdict_approved_iff {endpoints : List Endpoint} :
    (endpointVerdict endpoints).approved = true ↔
      endpoints ≠ [] ∧ ∀ e ∈ endpoints, ∃ approved, e.approval = some (.approved, approved) ∧
        drift approved e.current = .none := by
  have ⟨surface, counted, moved⟩ :=
    fold_verdict (endpoints.any (·.approval.isSome)) endpoints
      { surfaceEndpoints := endpoints.length, approvedEndpoints := 0, worstDrift := .none,
        driftedRemote := none }
  have all : (endpoints.countP (·.counts) : Int) = endpoints.length ↔
      ∀ e ∈ endpoints, e.counts = true := by
    rw [Nat.cast_inj, List.countP_eq_length]
  have counts : ∀ e : Endpoint, e.counts = true ↔
      ∃ approved, e.approval = some (.approved, approved) ∧ drift approved e.current = .none := by
    intro e
    cases approval : e.approval with
    | none => simp [Endpoint.counts, approval]
    | some pair => cases pair with | mk decision approved => simp [Endpoint.counts, approval]
  simp only [← counts]
  simp only [endpointVerdict, EndpointVerdict.approved, Bool.and_eq_true, decide_eq_true_eq,
    beq_iff_eq, surface, counted, moved, zero_add, all, true_and, gt_iff_lt, Int.natCast_pos,
    List.length_pos_iff]
  constructor
  · rintro ⟨⟨some, every⟩, _⟩
    exact ⟨some, every⟩
  · rintro ⟨some, every⟩
    exact ⟨⟨some, every⟩, fun e mem => Endpoint.moved_of_counts (every e mem)⟩

end Verdict

section Gate

variable {mode : GateMode} {rules : List AllowRule}

theorem Visibility.served_worst {self other : Visibility} :
    (self.worst other).served = (self.served && other.served) := by
  cases self <;> cases other <;> rfl

theorem served_byMode {why : Text} : (byMode mode why).served = true ↔ mode ≠ .hide := by
  cases mode <;> simp [byMode, Visibility.served]

theorem Floor.served_visibility {floor : Floor} {name : Text} :
    (floor.visibility name).served = true ↔
      ∀ fragment ∈ floor.fragments, admits fragment.2 name = true := by
  unfold Floor.visibility
  split
  case h_1 repo rules found =>
    have refused := List.find?_some found
    have mem := List.mem_of_find?_eq_some found
    simp only [Visibility.served, Bool.false_eq_true, false_iff]
    intro every
    simp [every _ mem] at refused
  case h_2 absent => simpa [Visibility.served] using absent

/-- Nothing the gate knows of refuses the candidate. -/
structure Cleared (rules : List AllowRule) (candidate : Candidate) : Prop where
  admitted : admits rules candidate.name = true
  unblocked : candidate.blocked = false
  approved : candidate.verdict.approved = true

instance (rules : List AllowRule) (candidate : Candidate) : Decidable (Cleared rules candidate) :=
  decidable_of_iff
    (admits rules candidate.name = true ∧ candidate.blocked = false ∧
      candidate.verdict.approved = true)
    ⟨fun ⟨admitted, unblocked, approved⟩ => ⟨admitted, unblocked, approved⟩,
      fun cleared => ⟨cleared.admitted, cleared.unblocked, cleared.approved⟩⟩

/-- One more reason to refuse hides what was still served, exactly where the gate hides. -/
theorem served_worst_byMode {out : Visibility} {why : Text} :
    (out.worst (byMode mode why)).served = true ↔ out.served = true ∧ mode ≠ .hide := by
  rw [Visibility.served_worst, Bool.and_eq_true, served_byMode]

/-- What the rules alone leave of a name is served unless the gate hides and they refuse it. -/
theorem served_named {admitted : Bool} {why : Text} :
    (if !admitted then Visibility.serve.worst (byMode mode why) else .serve).served = true ↔
      (mode = .hide → admitted = true) := by
  cases admitted with
  | true => simp [Visibility.served]
  | false =>
      rw [Bool.not_false, if_pos rfl, served_worst_byMode]
      simp [Visibility.served]

theorem served_refused {admitted : Bool} {cleared : Prop} {named why : Text}
    (refused : ¬cleared) :
    ((if !admitted then Visibility.serve.worst (byMode mode named) else .serve).worst
        (byMode mode why)).served = true ↔ (mode = .hide → cleared) := by
  rw [served_worst_byMode, served_named]
  constructor
  · intro ⟨_, serves⟩ hides
    exact absurd hides serves
  · intro hides
    have serves : mode ≠ .hide := fun hide => refused (hides hide)
    exact ⟨fun hide => absurd hide serves, serves⟩

/-- A deleted candidate is served to whoever asks for deleted ones, in every mode and whatever the
rules say; any other is served unless the gate hides and something refuses it. -/
theorem decide_served_iff {candidate : Candidate} {includeDeleted : Bool} :
    (decide mode rules candidate includeDeleted).served = true ↔
      if candidate.deleted then includeDeleted = true
      else mode = .hide → Cleared rules candidate := by
  by_cases deleted : candidate.deleted = true
  · cases includeDeleted <;> simp [decide, deleted, Visibility.served]
  · simp only [decide, deleted, Bool.false_eq_true, if_false]
    split
    · rename_i blocked
      exact served_refused fun cleared => by simp [cleared.unblocked] at blocked
    · rename_i unblocked
      split
      · rename_i moved
        apply served_refused
        intro cleared
        have approved := cleared.approved
        simp only [EndpointVerdict.approved, Bool.and_eq_true, beq_iff_eq] at approved
        exact moved approved.2
      · split
        · rename_i unapproved
          exact served_refused fun cleared => by simp [cleared.approved] at unapproved
        · rename_i approved
          rw [served_named]
          simp only [Bool.not_eq_true, Bool.not_eq_false'] at unblocked approved
          exact imp_congr_right fun _ =>
            ⟨fun admitted => ⟨admitted, unblocked, approved⟩, Cleared.admitted⟩

/-- A skill's gate has no early return: it is served under `hide` only when its name is admitted and
its surface approved. -/
theorem decideSingle_served_iff {name : Text} {decision : Option Decision} :
    (decideSingle mode rules name decision).served = true ↔
      (mode = .hide → admits rules name = true ∧ decision = some .approved) := by
  cases decision with
  | none => exact served_refused (by simp)
  | some decision =>
      cases decision with
      | blocked => exact served_refused (by simp)
      | approved =>
          simp only [decideSingle, and_true]
          exact served_named

/-- Under `hide` a candidate is served only when cleared, unless it is a deleted one somebody asked for
and something refuses it. -/
theorem hide_serves_only_cleared_iff (rules : List AllowRule) (candidate : Candidate)
    (includeDeleted : Bool) :
    ((decide .hide rules candidate includeDeleted).served = true →
        admits rules candidate.name = true ∧ candidate.blocked = false ∧
          candidate.verdict.approved = true) ↔
      ¬(candidate.deleted = true ∧ includeDeleted = true ∧
        (admits rules candidate.name = false ∨ candidate.blocked = true ∨
          candidate.verdict.approved = false)) := by
  have cleared_iff : (admits rules candidate.name = true ∧ candidate.blocked = false ∧
      candidate.verdict.approved = true) ↔ Cleared rules candidate :=
    ⟨fun ⟨admitted, unblocked, approved⟩ => ⟨admitted, unblocked, approved⟩,
      fun cleared => ⟨cleared.admitted, cleared.unblocked, cleared.approved⟩⟩
  have refused_iff : (admits rules candidate.name = false ∨ candidate.blocked = true ∨
      candidate.verdict.approved = false) ↔ ¬Cleared rules candidate := by
    rw [← cleared_iff]
    simp only [not_and_or, Bool.not_eq_true, Bool.not_eq_false]
  rw [cleared_iff, refused_iff, decide_served_iff]
  by_cases deleted : candidate.deleted = true
  · simp [deleted]
  · simp [deleted]

/-- A namespace the rules deny. -/
def denied : List AllowRule := [⟨"io.github.evil/*".toList, .deny⟩]

/-- A server of it that an admin blocked, that nobody approved, and that its upstream deleted. -/
def deletedServer : Candidate where
  name := "io.github.evil/x".toList
  deleted := true
  verdict := endpointVerdict [⟨"https://evil".toList, ⟨"p".toList, none⟩, none⟩]
  blocked := true

/-- Asked for with the deleted ones, it is served under `hide`. -/
theorem deleted_server_passes_the_gate :
    decide .hide denied deletedServer true = .serveFlagged "deleted upstream".toList ∧
      ¬((decide .hide denied deletedServer true).served = true →
        admits denied deletedServer.name = true ∧ deletedServer.blocked = false ∧
          deletedServer.verdict.approved = true) := by
  decide

end Gate

end OpenCargo.Governance
