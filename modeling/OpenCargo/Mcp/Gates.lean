/-
Module: OpenCargo.Mcp.Gates
Purpose: The gate of an addressed MCP repository and the floor of every leaf below it
  (`registry/mcp/gate.rs`): the closure of the addressed repository read level by level, the leaves
  below each closed repository, and what both make of a row.
Trusted boundary: none
Main exports: Gates.load, Gates.decide, Gates.decideSkill, Below
-/
import OpenCargo.Governance
import OpenCargo.Lib.Fallible
import OpenCargo.Lib.Nesting
import OpenCargo.Resolve.Walk

namespace OpenCargo.Mcp

open OpenCargo.Governance (AllowRule Candidate Decision Drift EndpointVerdict Floor GateMode admits)
open OpenCargo.Lib (Lists Stack Shallow)
open OpenCargo.Resolve (maxGroupDepth)

/-! ### What is read -/

/-- The `status` column. -/
inductive Status where
  | active
  | deprecated
  | deleted
deriving Repr, DecidableEq, Inhabited

/-- A version as a read of the catalogue answers it, as far as the gate and the pages look at it. -/
structure CatalogRow where
  versionId : Int
  member : Int
  name : Text
  version : Text
  status : Status
  findingsHigh : Int
  findingsMedium : Int
  surfaceEndpoints : Int
  approvedEndpoints : Int
  worstDrift : Drift
  driftedRemote : Option Text
  decision : Option Decision
deriving Repr, DecidableEq, Inhabited

/-- The repository store at one state, with what its table promises: a row found by a name has that
name, and an id is the id of one row. -/
structure Store extends RepositoryStore where
  named : ∀ {name repo}, byName name = .ok (some repo) → repo.name = name
  keyed : ∀ {name other repo stored}, byName name = .ok (some repo) →
    byName other = .ok (some stored) → repo.id = stored.id → repo = stored

/-- `allow_rules`, at one state of the store. -/
structure McpReads where
  allowRules : Int → Except StoreError (List AllowRule)

/-- The `mode` of each repository the configuration names. -/
abbrev Settings := Text → Option GateMode

/-- `mode_of`; `GateMode::default()` is `Warn`. -/
def modeOf (settings : Settings) (repo : Text) : GateMode := (settings repo).getD .warn

/-! ### The closure of the addressed repository -/

/-- A repository of the closure, with the ids of its members. -/
structure Node where
  repo : Repository
  children : List Int
deriving Repr, DecidableEq, Inhabited

/-- `?` on a domain call and on a store call. -/
def domain {α : Type} : Except DomainError α → Except AppError α := Except.mapError .domain

def stored {α : Type} : Except StoreError α → Except AppError α := Except.mapError .store

/-- The members of a group that exist and are MCP repositories, in order. -/
def mcpMembers (repos : RepositoryStore) : List Text → Except AppError (List Repository)
  | [] => .ok []
  | name :: names => do
      match ← stored (repos.byName name) with
      | none => mcpMembers repos names
      | some member =>
          let format ← domain member.fmt
          let rest ← mcpMembers repos names
          if format = .mcp then pure (member :: rest) else pure rest

def childrenOf (repos : RepositoryStore) (repo : Repository) : Except AppError (List Repository) := do
  if (← domain repo.kind) = .group then mcpMembers repos repo.members else pure []

/-- One level: the repositories of the frontier that are new, and the members they have. -/
def visitLevel (repos : RepositoryStore) :
    List Repository → List Node → List Repository → Except AppError (List Node × List Repository)
  | [], nodes, next => .ok (nodes, next)
  | repo :: frontier, nodes, next => do
      if nodes.any (·.repo.id == repo.id) then
        visitLevel repos frontier nodes next
      else
        let children ← childrenOf repos repo
        visitLevel repos frontier (nodes ++ [⟨repo, children.map (·.id)⟩]) (next ++ children)

/-- The loop over the levels. -/
def visitLevels (repos : RepositoryStore) :
    Nat → List Repository → List Node → Except AppError (List Node)
  | 0, _, nodes => .ok nodes
  | levels + 1, frontier, nodes => do
      let (nodes, next) ← visitLevel repos frontier nodes []
      if next.isEmpty then pure nodes else visitLevels repos levels next nodes

/-- The repositories reachable from the addressed one, `0..=MAX_GROUP_DEPTH` levels of them. -/
def closure (repos : RepositoryStore) (addressed : Repository) : Except AppError (List Node) :=
  visitLevels repos (maxGroupDepth + 1) [addressed] []

def nodeOf (nodes : List Node) (id : Int) : Option Node := nodes.find? (·.repo.id == id)

/-- The loop of `leaves`; the last of the stack is popped first. -/
def leavesLoop (nodes : List Node) : Nat → List Int → List Int → List Int → List Int
  | 0, _, _, out => out
  | _ + 1, [], _, out => out
  | fuel + 1, id :: stack, seen, out =>
      if id ∈ seen then leavesLoop nodes fuel stack seen out
      else
        match nodeOf nodes id with
        | none => leavesLoop nodes fuel stack (id :: seen) out
        | some node =>
            if node.repo.kind = .ok .group then
              leavesLoop nodes fuel (node.children.reverse ++ stack) (id :: seen) out
            else leavesLoop nodes fuel stack (id :: seen) (id :: out)

/-- How many ids the loop can still push: the members of the nodes it has not seen. -/
def unspent (nodes : List Node) (seen : List Int) : Nat :=
  ((nodes.filter (·.repo.id ∉ seen)).map (·.children.length)).sum

/-- The hosted and proxy repositories reachable from `start`, itself included when it is one. -/
def leaves (nodes : List Node) (start : Int) : List Int :=
  leavesLoop nodes (1 + unspent nodes []) [start] [] []

/-! ### The gates -/

structure Gate where
  repo : Text
  mode : GateMode
  rules : List AllowRule
deriving Repr, DecidableEq, Inhabited

/-- The addressed repository's gate, and the floors by the id of their leaf. -/
structure Gates where
  addressed : Gate
  floors : Int → Option Floor

section Load

variable (mcp : McpReads) (settings : Settings)

def gateOf (repo : Repository) : Except AppError Gate := do
  let rules ← stored (mcp.allowRules repo.id)
  pure ⟨repo.name, modeOf settings repo.name, rules⟩

/-- `entry(leaf).or_default().fragments.push(…)`. -/
def pushFragment (fragment : Text × List AllowRule) (floors : Int → Option Floor) (leaf : Int) :
    Int → Option Floor :=
  Function.update floors leaf
    (some ⟨((floors leaf).map Floor.fragments).getD [] ++ [fragment]⟩)

/-- The loop over the closure that gathers the floors. -/
def gatherFloors (addressed : Int) (nodes : List Node) :
    List Node → (Int → Option Floor) → Except AppError (Int → Option Floor)
  | [], floors => .ok floors
  | node :: rest, floors => do
      if node.repo.id = addressed ∨ modeOf settings node.repo.name ≠ .hide then
        gatherFloors addressed nodes rest floors
      else
        let gate ← gateOf mcp settings node.repo
        if gate.rules.isEmpty then gatherFloors addressed nodes rest floors
        else
          gatherFloors addressed nodes rest
            ((leaves nodes node.repo.id).foldl (pushFragment (gate.repo, gate.rules)) floors)

/-- `fragments.sort_by` name. -/
def sortFragments (floor : Floor) : Floor where
  fragments := floor.fragments.insertionSort fun a b => a.1 ≤ b.1

/-- One load per request: the addressed gate, and a floor for every leaf of its closure. -/
def Gates.load (repos : RepositoryStore) (addressed : Repository) : Except AppError Gates := do
  let nodes ← closure repos addressed
  let floors ← gatherFloors mcp settings addressed.id nodes nodes fun _ => none
  let gate ← gateOf mcp settings addressed
  pure ⟨gate, fun leaf => (floors leaf).map sortFragments⟩

end Load

/-- A row as the gate judges it. -/
def CatalogRow.verdict (row : CatalogRow) : EndpointVerdict where
  surfaceEndpoints := row.surfaceEndpoints
  approvedEndpoints := row.approvedEndpoints
  worstDrift := row.worstDrift
  driftedRemote := row.driftedRemote

def CatalogRow.candidate (row : CatalogRow) : Candidate where
  name := row.name
  deleted := row.status == .deleted
  verdict := row.verdict
  blocked := row.decision == some .blocked

namespace Gates

variable (gates : Gates)

/-- The one decision about a row; the SQL filters only narrow what is read. -/
def decide (member : Int) (row : CatalogRow) (includeDeleted : Bool) : Governance.Visibility :=
  let addressed :=
    Governance.decide gates.addressed.mode gates.addressed.rules row.candidate includeDeleted
  match gates.floors member with
  | some floor => addressed.worst (floor.visibility row.name)
  | none => addressed

/-- A skill: the allow floor over its name and, under `Hide`, one approval of its current surface. -/
def decideSkill (member : Int) (name : Text) (decision : Option Decision) : Governance.Visibility :=
  let addressed :=
    Governance.decideSingle gates.addressed.mode gates.addressed.rules name decision
  match gates.floors member with
  | some floor => addressed.worst (floor.visibility name)
  | none => addressed

theorem floor_closes {member : Int} {floor : Floor} {name repo : Text} {rules : List AllowRule}
    (held : gates.floors member = some floor) (mem : (repo, rules) ∈ floor.fragments)
    (refused : admits rules name = false) :
    (∀ row includeDeleted, row.name = name → (gates.decide member row includeDeleted).served = false) ∧
      ∀ decision, (gates.decideSkill member name decision).served = false := by
  have hidden : (floor.visibility name).served = false := by
    rw [← Bool.not_eq_true, Floor.served_visibility]
    intro every
    simp [every _ mem] at refused
  constructor
  · rintro row includeDeleted rfl
    simp [decide, held, Governance.Visibility.served_worst, hidden]
  · intro decision
    simp [decideSkill, held, Governance.Visibility.served_worst, hidden]

end Gates

/-! ### The member graph -/

/-- `member` is a member of the group `repo`, and an MCP repository. -/
def Below (repos : RepositoryStore) (repo member : Repository) : Prop :=
  repo.kind = .ok .group ∧ member.fmt = .ok .mcp ∧
    ∃ name ∈ repo.members, repos.byName name = .ok (some member)

/-- The names a group lists; a name with no group behind it lists nothing at all. -/
def kids (repos : RepositoryStore) (name : Text) : Option (List Text) :=
  match repos.byName name with
  | .ok (some repo) => if repo.kind = .ok .group then some repo.members else none
  | _ => none

end OpenCargo.Mcp
