/-
Module: OpenCargo.Resolve.Walk
Purpose: Resolving a name through a group: the walk and what it asks, the caller's view of the group,
  the probe of an anonymous caller (`registry/resolve.rs`, `crates/domain/src/resolve.rs`), and the
  terminals an explanation shows (`app/routing.rs`).
Trusted boundary: what a repository answers is a parameter of the walk
Main exports: firstHit, view, probeAccess, explain
-/
import OpenCargo.Access.Authorize
import OpenCargo.Routing.Decide

namespace OpenCargo.Resolve

open OpenCargo.Access (Authorize AuthUser Rights)
open OpenCargo.Routing (Gate Snapshot Subject RoutingRule RouteSet)

/-! ### The request -/

/-- How many groups may nest before a read refuses. -/
def maxGroupDepth : Nat := 5

/-- One request's way to the stores a walk reads, who is asking, and the routing rules this node
knows. -/
structure Cx where
  repos : RepositoryStore
  /-- `PermissionStore::rights`. -/
  rights : Int → Int → Except StoreError (Option Rights)
  auth : Option AuthUser
  anonymousRead : Bool
  routing : Snapshot
  /-- The repository the client addressed. -/
  url : Text

def Cx.authorize (cx : Cx) : Authorize where
  rights := cx.rights
  repos := cx.repos
  anonymousRead := cx.anonymousRead

/-- Whether the caller may read this member; a grant that cannot be read stops the walk. -/
def readable (cx : Cx) (member : Repository) : Except ResolveError Bool :=
  match cx.authorize.member cx.auth member .read with
  | .ok => .ok true
  | .unauthenticated | .forbidden | .outOfScope => .ok false
  | .unavailable => .error (.store .unavailable)

/-- Whether a lookup had the thing asked for. -/
inductive Outcome (T : Type) where
  | found (hit : T)
  | notFound

/-- What a request asks of a repository. An answer may depend on the repositories asked before it;
`proxy` takes in the upstream a member is configured with. -/
structure Leaf (T : Type) where
  subject : Subject
  hosted : List Repository → Repository → Except ResolveError (Outcome T)
  proxy : List Repository → Repository → Except ResolveError (Outcome T)

/-! ### The walk's state -/

/-- What one member contributed to a walk. -/
inductive Visit (T : Type) where
  | hit (hit : T)
  | nothing
  | failed (why : Text)

/-- One pass over a group and its members. The last two fields are history and decide nothing: the
repositories that were asked, in order, and the members left out for want of the right to read. -/
structure Walk (T : Type) where
  hits : List T
  firstOnly : Bool
  seen : List Int
  failure : Option Text
  asked : List Repository
  skipped : List Repository

namespace Walk

variable {T : Type}

/-- The root counts as visited. -/
def new (root : Repository) (firstOnly : Bool) : Walk T where
  hits := []
  firstOnly := firstOnly
  seen := [root.id]
  failure := none
  asked := []
  skipped := []

/-- Whether the walk has what it was asked for and may stop. -/
def done (w : Walk T) : Bool := w.firstOnly && !w.hits.isEmpty

/-- First failure wins. -/
def record (w : Walk T) : Visit T → Walk T
  | .hit hit => { w with hits := w.hits ++ [hit] }
  | .nothing => w
  | .failed why => { w with failure := some (w.failure.getD why) }

def ask (w : Walk T) (repo : Repository) : Walk T := { w with asked := w.asked ++ [repo] }

def skip (w : Walk T) (member : Repository) : Walk T := { w with skipped := w.skipped ++ [member] }

def mark (w : Walk T) (id : Int) : Walk T := { w with seen := id :: w.seen }

@[simp] theorem record_seen (w : Walk T) (visit : Visit T) : (w.record visit).seen = w.seen := by
  cases visit <;> rfl

@[simp] theorem record_asked (w : Walk T) (visit : Visit T) : (w.record visit).asked = w.asked := by
  cases visit <;> rfl

@[simp] theorem record_skipped (w : Walk T) (visit : Visit T) :
    (w.record visit).skipped = w.skipped := by
  cases visit <;> rfl

@[simp] theorem record_firstOnly (w : Walk T) (visit : Visit T) :
    (w.record visit).firstOnly = w.firstOnly := by
  cases visit <;> rfl

end Walk

/-- What a step of a walk leaves: how it ended, and the state it ended in. -/
abbrev Step (σ : Type) := Except ResolveError Unit × σ

/-- Go on from where a step ended, unless it failed. -/
def Step.andThen {σ : Type} (step : Step σ) (next : σ → Step σ) : Step σ :=
  match step.1 with
  | .ok () => next step.2
  | .error err => (.error err, step.2)

/-- What one member's answer contributes: a miss is not a failure, an upstream's failure does not end
the walk, and every other refusal does. -/
def visit {T : Type} (member : Text) :
    Except ResolveError (Outcome T) → Except ResolveError (Visit T)
  | .ok (.found hit) => .ok (.hit hit)
  | .ok .notFound => .ok .nothing
  | .error (.notFound _) => .ok .nothing
  | .error (.upstream why) =>
      .ok (.failed ("member ".toList ++ member ++ " failed: ".toList ++ why))
  | .error err => .error err

/-! ### The walk -/

section Walk

variable {T : Type} (cx : Cx) (leaf : Leaf T) (gate : Gate)

/-- Ask one repository, and record what it answers. -/
def askMember (ask : List Repository → Repository → Except ResolveError (Outcome T))
    (repo : Repository) (w : Walk T) : Step (Walk T) :=
  match visit repo.name (ask w.asked repo) with
  | .ok visit => (.ok (), (w.ask repo).record visit)
  | .error err => (.error err, w.ask repo)

/-- The loop of `walk_members`. -/
def walkMembers (recur : Repository → Walk T → Step (Walk T)) (format : Format) :
    List Text → Walk T → Step (Walk T)
  | [], w => (.ok (), w)
  | name :: names, w =>
      if w.done then (.ok (), w)
      else
        match cx.repos.byName name with
        | .error err => (.error (.store err), w)
        | .ok none => walkMembers recur format names w
        | .ok (some member) =>
            match readable cx member with
            | .error err => (.error err, w)
            | .ok false => walkMembers recur format names (w.skip member)
            | .ok true =>
                match member.fmt with
                | .error err => (.error (.domain err), w)
                | .ok memberFormat =>
                    if memberFormat ≠ format then walkMembers recur format names w
                    else if member.id ∈ w.seen then walkMembers recur format names w
                    else
                      Step.andThen (recur member (w.mark member.id)) fun w =>
                        walkMembers recur format names w

/-- A group is walked through its members, `inner` being the walk one level down. -/
def walkGroup (inner : Option (Repository → Walk T → Step (Walk T))) (group : Repository)
    (w : Walk T) : Step (Walk T) :=
  match inner with
  | none => (.error (.internal "group nesting depth exceeded".toList), w)
  | some recur =>
      if group.members.isEmpty then (.ok (), w)
      else
        match group.fmt with
        | .error err => (.error (.domain err), w)
        | .ok format => walkMembers cx recur format group.members w

/-- A repository that is no group is asked, if the gate lets it be. -/
def walkTerminal (ask : List Repository → Repository → Except ResolveError (Outcome T))
    (repo : Repository) (w : Walk T) : Step (Walk T) :=
  match gate.admits cx.repos repo with
  | .error err => (.error err, w)
  | .ok verdict =>
      -- a refusal is a skip, never a failure
      if verdict.isAdmitted then askMember ask repo w else (.ok (), w.record .nothing)

/-- `walk`, at a repository that is or is not a group. -/
def walkOne (inner : Option (Repository → Walk T → Step (Walk T))) (repo : Repository)
    (w : Walk T) : Step (Walk T) :=
  match repo.kind with
  | .error err => (.error (.domain err), w)
  | .ok .hosted => walkTerminal cx gate leaf.hosted repo w
  | .ok .proxy => walkTerminal cx gate leaf.proxy repo w
  | .ok .group => walkGroup cx inner repo w

/-- `walk`, with the levels of groups that may still be entered: `MAX_GROUP_DEPTH` less `depth`. -/
def walk : Nat → Repository → Walk T → Step (Walk T)
  | 0 => walkOne cx leaf gate none
  | left + 1 => walkOne cx leaf gate (some (walk left))

end Walk

/-- `walk` from the addressed repository, through the gate of what the leaf asks. -/
def walkFrom {T : Type} (cx : Cx) (root : Repository) (leaf : Leaf T) (firstOnly : Bool) :
    Step (Walk T) :=
  match root.fmt with
  | .error err => (.error (.domain err), Walk.new root firstOnly)
  | .ok format =>
      walk cx leaf (Gate.open_ cx.routing format leaf.subject) maxGroupDepth root
        (Walk.new root firstOnly)

/-- Why there was no hit, under the name the client used. -/
def missed (url : Text) : Option Text → ResolveError
  | some why => .upstream ("group ".toList ++ url ++ ": ".toList ++ why)
  | none => .notFound ("not found in repository '".toList ++ url ++ "'".toList)

/-- First hit in member order. -/
def firstHit {T : Type} (cx : Cx) (root : Repository) (leaf : Leaf T) : Except ResolveError T :=
  match walkFrom cx root leaf true with
  | (.error err, _) => .error err
  | (.ok (), w) =>
      match w.hits with
      | hit :: _ => .ok hit
      | [] => .error (missed cx.url w.failure)

/-- Every hit in member order, and the reason the answer is partial. -/
def collect {T : Type} (cx : Cx) (root : Repository) (leaf : Leaf T) :
    Except ResolveError (List T × Option Text) :=
  match walkFrom cx root leaf false with
  | (.error err, _) => .error err
  | (.ok (), w) =>
      if w.hits.isEmpty && w.failure.isSome then .error (missed cx.url w.failure)
      else .ok (w.hits, w.failure)

/-! ### The view -/

structure Seen where
  seen : List Int
  out : List Repository

section View

variable (cx : Cx) (gate : Gate)

/-- The loop of `view_of`. -/
def viewMembers (recur : Repository → Seen → Step Seen) (format : Format) :
    List Text → Seen → Step Seen
  | [], v => (.ok (), v)
  | name :: names, v =>
      match cx.repos.byName name with
      | .error err => (.error (.store err), v)
      | .ok none => viewMembers recur format names v
      | .ok (some member) =>
          match readable cx member with
          | .error err => (.error err, v)
          | .ok false => viewMembers recur format names v
          | .ok true =>
              match member.fmt with
              | .error err => (.error (.domain err), v)
              | .ok memberFormat =>
                  if memberFormat ≠ format ∨ member.id ∈ v.seen then
                    viewMembers recur format names v
                  else
                    Step.andThen (recur member { v with seen := member.id :: v.seen }) fun v =>
                      viewMembers recur format names v

def viewTerminal (repo : Repository) (v : Seen) : Step Seen :=
  match gate.admits cx.repos repo with
  | .error err => (.error err, v)
  | .ok verdict =>
      if verdict.isAdmitted then (.ok (), { v with out := v.out ++ [repo] }) else (.ok (), v)

def viewGroup (inner : Option (Repository → Seen → Step Seen)) (group : Repository) (v : Seen) :
    Step Seen :=
  match inner with
  | none => (.error (.internal "group nesting depth exceeded".toList), v)
  | some recur =>
      match group.fmt with
      | .error err => (.error (.domain err), v)
      | .ok format => viewMembers cx recur format group.members v

def viewOne (inner : Option (Repository → Seen → Step Seen)) (repo : Repository) (v : Seen) :
    Step Seen :=
  match repo.kind with
  | .error err => (.error (.domain err), v)
  | .ok .group => viewGroup cx inner repo v
  | .ok _ => viewTerminal cx gate repo v

def viewOf : Nat → Repository → Seen → Step Seen
  | 0 => viewOne cx gate none
  | left + 1 => viewOne cx gate (some (viewOf left))

end View

/-- `view_of` from the addressed repository. -/
def viewFrom (cx : Cx) (root : Repository) (subject : Subject) : Step Seen :=
  match root.fmt with
  | .error err => (.error (.domain err), ⟨[root.id], []⟩)
  | .ok format =>
      viewOf cx (Gate.open_ cx.routing format subject) maxGroupDepth root ⟨[root.id], []⟩

/-- The hosted and proxy repositories a `collect` asks for this caller, in walk order. -/
def view (cx : Cx) (root : Repository) (subject : Subject) : Except ResolveError (List Repository) :=
  match viewFrom cx root subject with
  | (.error err, _) => .error err
  | (.ok (), v) => .ok v.out

/-! ### The probe -/

section Probe

variable (cx : Cx)

/-- The two inner loops of `probe_access`, over the names of one level: the members not seen before
must be readable, and are the next level. -/
def probeMembers : List Text → List Int × List Repository →
    Except ResolveError (List Int × List Repository)
  | [], found => .ok found
  | name :: names, (seen, next) =>
      match cx.repos.byName name with
      | .error err => .error (.store err)
      | .ok none => probeMembers names (seen, next)
      | .ok (some member) =>
          if member.id ∈ seen then probeMembers names (seen, next)
          else
            match readable cx member with
            | .error err => .error err
            | .ok false =>
                .error (.domain (.forbidden
                  ("read repository '".toList ++ cx.url ++ "'".toList)))
            | .ok true => probeMembers names (seen ++ [member.id], next ++ [member])

/-- The names of one level: the members of its groups. -/
def levelNames (level : List Repository) : List Text :=
  (level.filter fun repo => repo.kind.toOption == some .group).flatMap Repository.members

/-- The outer loop of `probe_access`, `rounds` levels of it. -/
def probeLevels : Nat → List Int → List Repository → Except ResolveError Unit
  | 0, _, _ => .ok ()
  | rounds + 1, seen, level =>
      match probeMembers cx (levelNames level) (seen, []) with
      | .error err => .error err
      | .ok (seen, next) => if next.isEmpty then .ok () else probeLevels rounds seen next

/-- For an anonymous caller only: refused when any member the group would walk is unreadable. -/
def probeAccess (repo : Repository) : Except ResolveError Unit :=
  if cx.auth.isSome then .ok () else probeLevels cx (maxGroupDepth + 1) [repo.id] [repo]

end Probe

/-! ### The explanation -/

section Explain

variable (repos : RepositoryStore)

/-- The loop of `walk_terminals`: the permission ladder is left out. -/
def terminalMembers (recur : Repository → Seen → Step Seen) (format : Format) :
    List Text → Seen → Step Seen
  | [], t => (.ok (), t)
  | name :: names, t =>
      match repos.byName name with
      | .error err => (.error (.store err), t)
      | .ok none => terminalMembers recur format names t
      | .ok (some member) =>
          match member.fmt with
          | .error err => (.error (.domain err), t)
          | .ok memberFormat =>
              if memberFormat ≠ format ∨ member.id ∈ t.seen then
                terminalMembers recur format names t
              else
                Step.andThen (recur member { t with seen := t.seen ++ [member.id] }) fun t =>
                  terminalMembers recur format names t

/-- Groups nested too deep are left out, not an error. -/
def terminalGroup (inner : Option (Repository → Seen → Step Seen)) (group : Repository) (t : Seen) :
    Step Seen :=
  match inner with
  | none => (.ok (), t)
  | some recur =>
      match group.fmt with
      | .error err => (.error (.domain err), t)
      | .ok format => terminalMembers repos recur format group.members t

def terminalOne (inner : Option (Repository → Seen → Step Seen)) (repo : Repository) (t : Seen) :
    Step Seen :=
  match repo.kind with
  | .error err => (.error (.domain err), t)
  | .ok .group => terminalGroup repos inner repo t
  | .ok _ => (.ok (), { t with out := t.out ++ [repo] })

def walkTerminals : Nat → Repository → Seen → Step Seen
  | 0 => terminalOne repos none
  | left + 1 => terminalOne repos (some (walkTerminals left))

/-- The terminal members a walk would visit, in walk order. -/
def terminals (root : Repository) : Except ResolveError (List Repository) :=
  match walkTerminals repos maxGroupDepth root ⟨[root.id], []⟩ with
  | (.error err, _) => .error err
  | (.ok (), t) => .ok t.out

/-- One member of an explanation. -/
structure Member where
  name : Text
  kind : RepoKind
  admitted : Bool
  refusedBy : List Text
  stale : Bool
deriving Repr, DecidableEq, Inhabited

def explainMember (gate : Gate) (member : Repository) : Except ResolveError Member := do
  let verdict ← gate.admits repos member
  let kind ← liftDomain member.kind
  return { name := member.name, kind := kind, admitted := verdict.isAdmitted,
           refusedBy := verdict.rules, stale := verdict == .stale }

structure Explanation where
  matchKey : Text
  identKey : Text
  version : Nat
  members : List Member
deriving Repr, DecidableEq, Inhabited

/-- What the walk would do with this name in this repository. `candidate` is a rule that is compiled
and not stored. -/
def explain (snapshot : Snapshot) (root : Repository) (name : Text)
    (candidate : Option RoutingRule) : Except ResolveError Explanation := do
  let format ← liftDomain root.fmt
  let snapshot : Snapshot :=
    match candidate with
    | none => snapshot
    | some rule =>
        { snapshot with set := RouteSet.new (snapshot.set.rules ++ [rule]) snapshot.set.version }
  let gate := Gate.open_ snapshot format (.named name)
  let terminals ← terminals repos root
  let members ← terminals.mapM (explainMember repos gate)
  return { matchKey := Routing.matchKey format name, identKey := Routing.identKey format name,
           version := snapshot.set.version, members := members }

end Explain

end OpenCargo.Resolve
