/-
Module: OpenCargo.Access.Authorize
Purpose: What a caller may do to a repository (`app/authorize.rs`): the rights the bearer holds at the
  request, narrowed by what the credential allows.
Trusted boundary: `toLowercase`, Rust's full Unicode lowercasing, is a parameter nothing is asked of
Main exports: Authorize, Authorize.decide, Authorize.member, scope_narrows_and_stays_frozen
-/
import OpenCargo.Access.Scope

namespace OpenCargo.Access

inductive Verdict where
  | ok
  /-- No credential at all. -/
  | unauthenticated
  /-- A valid credential whose bearer does not hold the right. -/
  | forbidden
  /-- A valid credential whose scope removed a right its bearer holds. -/
  | outOfScope
  /-- A store could not answer. -/
  | unavailable
deriving Repr, DecidableEq, Inhabited

/-- Who is asking, as far as authorization reads it. -/
structure AuthUser where
  userId : Option Int
  role : Text
  scope : TokenScope
deriving Repr, DecidableEq, Inhabited

/-- The stores a decision reads, and the deployment's answer for a public repository. -/
structure Authorize where
  /-- `PermissionStore::rights`, of a user on a repository. -/
  rights : Int → Int → Except StoreError (Option Rights)
  repos : RepositoryStore
  anonymousRead : Bool

def verdict (held effective : Rights) (action : RepoAction) : Verdict :=
  if effective.allows action then .ok
  else if held.allows action then .outOfScope
  else .forbidden

namespace Authorize

variable (toLowercase : Text → Text)

def decide (authz : Authorize) (caller : Option AuthUser) (repo : Repository)
    (package : Option Text) (action : RepoAction) (scope : TokenScope) : Verdict :=
  -- a scope narrows a public read only where sending no credential would not have served it
  if repo.visibility = .public_ ∧ action = .read ∧
      (scope.isInherit = true ∨ authz.anonymousRead = true) then .ok
  else
    match caller with
    | none => .unauthenticated
    | some caller =>
        let grant :=
          match caller.userId with
          | some id => authz.rights id repo.id
          | none => .ok none
        match grant with
        | .error _ => .unavailable
        | .ok grant =>
            let held := (effectiveRights caller.role grant).1
            if scope.isInherit then verdict held held action
            else
              match authz.repos.incarnation repo.id with
              | .error _ => .unavailable
              | .ok none => .outOfScope
              | .ok (some incarnation) =>
                  match package with
                  | none =>
                      verdict held (narrow toLowercase held scope (.repository incarnation)) action
                  | some package =>
                      match repo.fmt with
                      | .ok format =>
                          verdict held
                            (narrow toLowercase held scope (.package incarnation package format)) action
                      | .error _ => verdict held Rights.none action

/-- Inside a group's walk the scope is not evaluated: it was judged at the entry. No line of a scope is
compared, so nothing is lowercased. -/
def member (authz : Authorize) (caller : Option AuthUser) (repo : Repository) (action : RepoAction) :
    Verdict :=
  authz.decide id caller repo none action .inherit_

end Authorize

theorem verdict_eq_ok_iff {held effective : Rights} {action : RepoAction} :
    verdict held effective action = .ok ↔ effective.allows action = true := by
  rw [verdict]
  split
  · rename_i allows
    simp [allows]
  · rename_i refuses
    split <;> simp [refuses]

/-- A request under a frozen scope, on an incarnation that was not there when it was frozen, is served
only where a request with no credential is. -/
theorem Authorize.decide_frozen {toLowercase : Text → Text} {authz : Authorize} {caller : AuthUser}
    {repo : Repository} {package : Option Text} {action : RepoAction} {grants : List Grant}
    {world : List Incarnation} {incarnation : Text}
    (current : authz.repos.incarnation repo.id = .ok (some incarnation))
    (absent : incarnation ∉ world.map (·.incarnation))
    (served : authz.decide toLowercase (some caller) repo package action
      ((TokenScope.limited grants).resolved world) = .ok) :
    repo.visibility = .public_ ∧ action = .read ∧ authz.anonymousRead = true := by
  have limited : ((TokenScope.limited grants).resolved world).isInherit = false := rfl
  rw [Authorize.decide, limited] at served
  split at served
  · rename_i open_
    simpa using open_
  · exfalso
    simp only [current, Bool.false_eq_true, if_false] at served
    split at served
    · cases served
    · split at served
      · rw [verdict_eq_ok_iff, narrow_resolved_eq_none toLowercase rfl absent,
          Rights.none_allows] at served
        cases served
      · split at served
        · rw [verdict_eq_ok_iff, narrow_resolved_eq_none toLowercase rfl absent,
            Rights.none_allows] at served
          cases served
        · rw [verdict_eq_ok_iff, Rights.none_allows] at served
          cases served

/-- Scopes only narrow, and stay frozen. The effective right is never more than the bearer's, grows
with the lines of the scope and does not depend on their order. A scope frozen in one world gives no
right on an incarnation that is not in it, whatever the repository is called by then, and a request
under it is served on such a repository only where one with no credential is. -/
theorem scope_narrows_and_stays_frozen (toLowercase : Text → Text) (held : Rights) :
    (∀ scope subject action,
      (narrow toLowercase held scope subject).allows action = true → held.allows action = true) ∧
    (∀ grants more subject action, grants ⊆ more →
      (narrow toLowercase held (.limited grants) subject).allows action = true →
      (narrow toLowercase held (.limited more) subject).allows action = true) ∧
    (∀ grants other subject, grants.Perm other →
      narrow toLowercase held (.limited grants) subject =
        narrow toLowercase held (.limited other) subject) ∧
    (∀ grants world (subject : Subject) incarnation, subject.incarnation? = some incarnation →
      incarnation ∉ world.map Incarnation.incarnation →
      narrow toLowercase held ((TokenScope.limited grants).resolved world) subject = Rights.none) ∧
    (∀ (authz : Authorize) caller repo package action grants world incarnation,
      authz.repos.incarnation repo.id = .ok (some incarnation) →
      incarnation ∉ world.map Incarnation.incarnation →
      authz.decide toLowercase (some caller) repo package action
        ((TokenScope.limited grants).resolved world) = .ok →
      repo.visibility = .public_ ∧ action = .read ∧ authz.anonymousRead = true) :=
  ⟨fun _ _ _ => narrow_le toLowercase,
    fun _ _ _ _ => narrow_mono toLowercase,
    fun _ _ _ => narrow_perm toLowercase,
    fun _ _ _ _ => narrow_resolved_eq_none toLowercase,
    fun _ _ _ _ _ _ _ _ => Authorize.decide_frozen⟩

/-- A line over every repository of a team. -/
def teamLine : Grant where
  selector := .repo ⟨"team-*".toList⟩
  actions := [.read, .write]
  incarnations := []

/-- `team-a` is deleted and created again after the scope was frozen: the line reaches the incarnation
it was frozen with, still matches the name, and gives nothing on the new incarnation. -/
theorem recreated_repository_is_out_of_scope :
    (narrow id Rights.full ((TokenScope.limited [teamLine]).resolved
        [⟨"team-a".toList, "i1".toList⟩]) (.repository "i1".toList)).allows .write = true ∧
      narrow id Rights.full ((TokenScope.limited [teamLine]).resolved
        [⟨"team-a".toList, "i1".toList⟩]) (.repository "i2".toList) = Rights.none := by
  have named : NamePattern.matchesRepo ⟨"team-*".toList⟩ "team-a".toList = true :=
    Lib.marked_iff_reads.mpr (Lib.reads_iff_fits.mpr (Lib.greedy_iff_fits.mp (by decide)))
  have frozen : (TokenScope.limited [teamLine]).resolved [⟨"team-a".toList, "i1".toList⟩] =
      .limited [{ teamLine with incarnations := ["i1".toList] }] := by
    simp only [TokenScope.resolved, List.map_cons, List.map_nil, TokenScope.freeze, teamLine,
      List.filter_cons, named, if_true, List.filter_nil]
  refine ⟨?_, (scope_narrows_and_stays_frozen id Rights.full).2.2.2.1 [teamLine]
    [⟨"team-a".toList, "i1".toList⟩] (.repository "i2".toList) "i2".toList rfl (by decide)⟩
  rw [frozen]
  decide

end OpenCargo.Access
