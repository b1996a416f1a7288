/-
Module: OpenCargo.Resolve.Probe
Purpose: What a probe grants an anonymous caller: every member the group would walk is public, so the
  walk leaves out none of them for want of the right to read, and its answer is every caller's.
Trusted boundary: none
Main exports: Path, Expanding, probe_reaches_every_member, probed_group_is_wholly_public
-/
import OpenCargo.Resolve.Walk

namespace OpenCargo.Resolve

open OpenCargo.Access (Authorize AuthUser Rights)
open OpenCargo.Routing (Gate Snapshot Subject)

/-! ### The members of a group -/

/-- The rows a request meets: the one it addressed, and those it looks up by name. -/
def Row (cx : Cx) (root repo : Repository) : Prop :=
  repo = root ∨ ∃ name, cx.repos.byName name = .ok (some repo)

/-- `id` is the table's primary key. -/
def Keyed (cx : Cx) (root : Repository) : Prop :=
  ∀ a b, Row cx root a → Row cx root b → a.id = b.id → a = b

/-- One step from a group to a member of it. -/
def IsMember (cx : Cx) (group member : Repository) : Prop :=
  group.kind = .ok .group ∧ ∃ name ∈ group.members, cx.repos.byName name = .ok (some member)

/-- A way down from a repository, `length` memberships long. -/
inductive Path (cx : Cx) : Nat → Repository → Repository → Prop where
  | here (repo : Repository) : Path cx 0 repo repo
  | down {length : Nat} {group member repo : Repository} (step : IsMember cx group member)
      (rest : Path cx length member repo) : Path cx (length + 1) group repo

/-! ### What the levels of a probe have seen -/

section Levels

variable {cx : Cx} {root : Repository}

/-- Every member of the repository has been seen. -/
def Expanded (cx : Cx) (seen : List Int) (repo : Repository) : Prop :=
  ∀ member, IsMember cx repo member → member.id ∈ seen

/-- What holds between two levels: the rows seen are readable, the root apart, and they are in the
level or expanded. -/
structure Expanding (cx : Cx) (root : Repository) (seen : List Int) (level : List Repository) :
    Prop where
  open_ : ∀ repo, Row cx root repo → repo.id ∈ seen → repo = root ∨ readable cx repo = .ok true
  expanded : ∀ repo, Row cx root repo → repo.id ∈ seen → repo ∈ level ∨ Expanded cx seen repo

/-- What the names of one level leave. -/
structure Looked (cx : Cx) (names : List Text) (seen : List Int) (next : List Repository)
    (found : List Int × List Repository) : Prop where
  kept : ∀ id ∈ seen, id ∈ found.1
  held : ∀ repo ∈ next, repo ∈ found.2
  named : ∀ name ∈ names, ∀ member, cx.repos.byName name = .ok (some member) → member.id ∈ found.1
  fresh : ∀ id ∈ found.1, id ∈ seen ∨ ∃ member ∈ found.2, member.id = id ∧
    (∃ name, cx.repos.byName name = .ok (some member)) ∧ readable cx member = .ok true

theorem probeMembers_looked {names : List Text} {seen : List Int} {next : List Repository}
    {found : List Int × List Repository}
    (probed : probeMembers cx names (seen, next) = .ok found) : Looked cx names seen next found := by
  induction names generalizing seen next with
  | nil =>
      cases probed
      exact ⟨fun _ => id, fun _ => id, fun _ none_ => (List.not_mem_nil none_).elim, fun _ => .inl⟩
  | cons name names ih =>
      rw [probeMembers] at probed
      cases looked : cx.repos.byName name with
      | error err => simp [looked] at probed
      | ok row =>
          simp only [looked] at probed
          cases row with
          | none =>
              have rest := ih probed
              refine ⟨rest.kept, rest.held, fun other there => ?_, rest.fresh⟩
              rcases List.mem_cons.mp there with rfl | later
              · intro member same
                rw [looked] at same
                cases same
              · exact rest.named other later
          | some member =>
              simp only at probed
              by_cases again : member.id ∈ seen
              · rw [if_pos again] at probed
                have rest := ih probed
                refine ⟨rest.kept, rest.held, fun other there => ?_, rest.fresh⟩
                rcases List.mem_cons.mp there with rfl | later
                · intro member' same
                  rw [looked] at same
                  cases same
                  exact rest.kept _ again
                · exact rest.named other later
              · rw [if_neg again] at probed
                cases may : readable cx member with
                | error err => simp [may] at probed
                | ok may' =>
                    cases may' with
                    | false => simp [may] at probed
                    | true =>
                        simp only [may] at probed
                        have rest := ih probed
                        have marked : member.id ∈ found.1 :=
                          rest.kept _ (List.mem_append_right _ (List.mem_singleton_self _))
                        refine ⟨?_, ?_, fun other there => ?_, fun id there => ?_⟩
                        · exact fun id there => rest.kept id (List.mem_append_left _ there)
                        · exact fun repo there => rest.held repo (List.mem_append_left _ there)
                        · rcases List.mem_cons.mp there with rfl | later
                          · intro member' same
                            rw [looked] at same
                            cases same
                            exact marked
                          · exact rest.named other later
                        · rcases rest.fresh id there with before | later
                          · rcases List.mem_append.mp before with old | new
                            · exact .inl old
                            · rw [List.mem_singleton.mp new]
                              refine .inr ⟨member, ?_, rfl, ⟨name, looked⟩, may⟩
                              exact rest.held _ (List.mem_append_right _
                                (List.mem_singleton_self _))
                          · exact .inr later

theorem mem_levelNames {level : List Repository} {group : Repository} {name : Text}
    (there : group ∈ level) (kinded : group.kind = .ok .group) (named : name ∈ group.members) :
    name ∈ levelNames level := by
  refine List.mem_flatMap.mpr ⟨group, List.mem_filter.mpr ⟨there, ?_⟩, named⟩
  rw [kinded]
  rfl

theorem Expanding.next (keyed : Keyed cx root) {seen : List Int} {level : List Repository}
    {found : List Int × List Repository} (expanding : Expanding cx root seen level)
    (probed : probeMembers cx (levelNames level) (seen, []) = .ok found) :
    Expanding cx root found.1 found.2 ∧
      ∀ repo, Row cx root repo → repo.id ∈ seen → Expanded cx found.1 repo := by
  have looked := probeMembers_looked probed
  have older : ∀ repo, Row cx root repo → repo.id ∈ seen → Expanded cx found.1 repo := by
    intro repo row there member step
    rcases expanding.expanded repo row there with now | before
    · obtain ⟨kinded, name, named, found⟩ := step
      exact looked.named name (mem_levelNames now kinded named) member found
    · exact looked.kept _ (before member step)
  have newer : ∀ repo, Row cx root repo → repo.id ∈ found.1 → repo.id ∈ seen ∨
      (repo ∈ found.2 ∧ readable cx repo = .ok true) := by
    intro repo row there
    rcases looked.fresh repo.id there with before | ⟨member, next, same, named, may⟩
    · exact .inl before
    · rw [← keyed member repo (.inr named) row same]
      exact .inr ⟨next, may⟩
  refine ⟨⟨fun repo row there => ?_, fun repo row there => ?_⟩, older⟩
  · rcases newer repo row there with before | ⟨_, may⟩
    · exact expanding.open_ repo row before
    · exact .inr may
  · rcases newer repo row there with before | ⟨next, _⟩
    · exact .inr (older repo row before)
    · exact .inl next

/-- Once a level finds nothing new, every way down stays among the repositories seen. -/
theorem Expanding.closed {seen : List Int} (expanding : Expanding cx root seen []) {length : Nat}
    {repo last : Repository} (row : Row cx root repo) (there : repo.id ∈ seen)
    (path : Path cx length repo last) : last = root ∨ readable cx last = .ok true := by
  induction path with
  | here repo => exact expanding.open_ repo row there
  | down step _ ih =>
      obtain ⟨name, _, named⟩ := step.2
      rcases expanding.expanded _ row there with none_ | expanded
      · exact (List.not_mem_nil none_).elim
      · exact ih (.inr ⟨name, named⟩) (expanded _ step)

/-- A probe that ends well has found every repository within its rounds readable. -/
theorem probeLevels_reaches (keyed : Keyed cx root) {rounds : Nat} {seen : List Int}
    {level : List Repository} (expanding : Expanding cx root seen level)
    (probed : probeLevels cx rounds seen level = .ok ()) {length : Nat} (short : length ≤ rounds)
    {repo last : Repository} (row : Row cx root repo) (there : repo.id ∈ seen)
    (path : Path cx length repo last) : last = root ∨ readable cx last = .ok true := by
  induction rounds generalizing seen level length repo with
  | zero =>
      obtain rfl := Nat.le_zero.mp short
      cases path
      exact expanding.open_ _ row there
  | succ rounds ih =>
      cases path with
      | here => exact expanding.open_ _ row there
      | down step rest =>
          rw [probeLevels] at probed
          cases looked : probeMembers cx (levelNames level) (seen, []) with
          | error err => simp [looked] at probed
          | ok found =>
              obtain ⟨after, older⟩ := expanding.next keyed looked
              obtain ⟨name, _, named⟩ := step.2
              have reached := older repo row there _ step
              simp only [looked] at probed
              by_cases over_ : found.2.isEmpty = true
              · rw [List.isEmpty_iff.mp over_] at after
                exact after.closed (.inr ⟨name, named⟩) reached rest
              · rw [if_neg over_] at probed
                exact ih after probed (Nat.le_of_succ_le_succ short) (.inr ⟨name, named⟩) reached rest

/-- A probe that grants an anonymous caller the group has found every member the group would walk
readable. -/
theorem probe_reaches_every_member (keyed : Keyed cx root) (anonymous : cx.auth = none)
    (granted : probeAccess cx root = .ok ()) {length : Nat} (short : length ≤ maxGroupDepth + 1)
    {last : Repository} (path : Path cx length root last) :
    last = root ∨ readable cx last = .ok true := by
  rw [probeAccess, anonymous] at granted
  have started : Expanding cx root [root.id] [root] := by
    have only : ∀ repo, Row cx root repo → repo.id ∈ [root.id] → repo = root := by
      intro repo row there
      exact keyed repo root row (.inl rfl) (List.mem_singleton.mp there)
    refine ⟨fun repo row there => .inl (only repo row there), fun repo row there => .inl ?_⟩
    rw [only repo row there]
    exact List.mem_singleton_self root
  exact probeLevels_reaches keyed started granted short (.inl rfl) (List.mem_singleton_self _) path

end Levels

/-! ### A wholly public group -/

section Public

variable {T : Type} {cx : Cx} {gate : Gate} {leaf : Leaf T}

theorem readable_of_public (cx : Cx) {repo : Repository} (open_ : repo.visibility = .public_) :
    readable cx repo = .ok true := by
  simp [readable, Authorize.member, Authorize.decide, open_, Access.TokenScope.isInherit]

theorem public_of_readable {repo : Repository} (anonymous : cx.auth = none)
    (may : readable cx repo = .ok true) : repo.visibility = .public_ := by
  cases seen : repo.visibility with
  | public_ => rfl
  | private_ => simp [readable, Authorize.member, Authorize.decide, anonymous, seen] at may

/-- Every repository within `depth` memberships is public. -/
def PublicWithin (cx : Cx) (depth : Nat) (repo : Repository) : Prop :=
  ∀ length ≤ depth, ∀ last, Path cx length repo last → last.visibility = .public_

theorem PublicWithin.member {depth : Nat} {group member : Repository}
    (open_ : PublicWithin cx (depth + 1) group) (step : IsMember cx group member) :
    PublicWithin cx depth member := by
  intro length short last path
  exact open_ (length + 1) (Nat.succ_le_succ short) last (.down step path)

/-- Two callers' walks of a repository end alike, and the first leaves no one out. -/
def SameWalk (step step' : Repository → Walk T → Step (Walk T)) (repo : Repository) : Prop :=
  ∀ w, step repo w = step' repo w ∧ (step repo w).2.skipped = w.skipped

theorem walkMembers_same {auth : Option AuthUser} {recur recur' : Repository → Walk T → Step (Walk T)}
    {format : Format} {group : Repository} (kinded : group.kind = .ok .group)
    (open_ : ∀ member, IsMember cx group member →
      member.visibility = .public_ ∧ SameWalk recur recur' member)
    (names : List Text) (among : ∀ name ∈ names, name ∈ group.members) (w : Walk T) :
    walkMembers cx recur format names w = walkMembers { cx with auth := auth } recur' format names w ∧
      (walkMembers cx recur format names w).2.skipped = w.skipped := by
  induction names generalizing w with
  | nil => exact ⟨rfl, rfl⟩
  | cons name names ih =>
      have rest := ih fun other there => among other (List.mem_cons_of_mem name there)
      rw [walkMembers, walkMembers]
      by_cases done : w.done = true
      · rw [if_pos done, if_pos done]
        exact ⟨rfl, rfl⟩
      · rw [if_neg done, if_neg done]
        cases found : cx.repos.byName name with
        | error err => exact ⟨rfl, rfl⟩
        | ok row =>
            cases row with
            | none => exact rest w
            | some member =>
                obtain ⟨public_, same⟩ := open_ member
                  ⟨kinded, name, among name (List.mem_cons_self ..), found⟩
                simp only [readable_of_public cx public_,
                  readable_of_public { cx with auth := auth } public_]
                cases member.fmt with
                | error err => exact ⟨rfl, rfl⟩
                | ok memberFormat =>
                    simp only
                    split
                    · exact rest w
                    · split
                      · exact rest w
                      · obtain ⟨equal, kept⟩ := same (w.mark member.id)
                        rw [← equal]
                        rw [Step.andThen, Step.andThen]
                        split
                        · obtain ⟨equal', kept'⟩ := rest (recur member (w.mark member.id)).2
                          exact ⟨equal', kept'.trans kept⟩
                        · exact ⟨rfl, kept⟩

theorem walkTerminal_same (auth : Option AuthUser)
    (ask : List Repository → Repository → Except ResolveError (Outcome T)) (repo : Repository) :
    SameWalk (walkTerminal cx gate ask) (walkTerminal { cx with auth := auth } gate ask) repo := by
  intro w
  refine ⟨rfl, ?_⟩
  rw [walkTerminal]
  split
  · rfl
  · split
    · rw [askMember]
      split
      · rw [Walk.record_skipped]
        rfl
      · rfl
    · rfl

theorem walk_same (auth : Option AuthUser) {left : Nat} {repo : Repository}
    (open_ : PublicWithin cx left repo) :
    SameWalk (walk cx leaf gate left) (walk { cx with auth := auth } leaf gate left) repo := by
  induction left generalizing repo with
  | zero =>
      intro w
      simp only [walk, walkOne]
      cases repo.kind with
      | error err => exact ⟨rfl, rfl⟩
      | ok kind =>
          cases kind with
          | hosted => exact walkTerminal_same auth leaf.hosted repo w
          | proxy => exact walkTerminal_same auth leaf.proxy repo w
          | group => exact ⟨rfl, rfl⟩
  | succ left ih =>
      intro w
      simp only [walk, walkOne]
      cases kinded : repo.kind with
      | error err => exact ⟨rfl, rfl⟩
      | ok kind =>
          cases kind with
          | hosted => exact walkTerminal_same auth leaf.hosted repo w
          | proxy => exact walkTerminal_same auth leaf.proxy repo w
          | group =>
              simp only [walkGroup]
              split
              · exact ⟨rfl, rfl⟩
              · split
                · exact ⟨rfl, rfl⟩
                · refine walkMembers_same kinded (fun member step => ⟨?_, ?_⟩) repo.members
                    (fun _ => id) w
                  · exact open_ 1 (Nat.succ_le_succ (Nat.zero_le left)) member
                      (.down step (.here member))
                  · exact ih (open_.member step)

/-- Public means wholly public. When an anonymous caller may read a group and the probe grants it, the
anonymous walk leaves out no member for want of the right to read, and it ends in the same state as
the walk of every other caller: what they are answered is one answer. -/
theorem probed_group_is_wholly_public {root : Repository} (keyed : Keyed cx root)
    (anonymous : cx.auth = none) (entered : readable cx root = .ok true)
    (granted : probeAccess cx root = .ok ()) (leaf : Leaf T) (auth : Option AuthUser) :
    (∀ firstOnly, (walkFrom cx root leaf firstOnly).2.skipped = []) ∧
      (∀ firstOnly, walkFrom cx root leaf firstOnly =
        walkFrom { cx with auth := auth } root leaf firstOnly) ∧
      collect cx root leaf = collect { cx with auth := auth } root leaf ∧
      firstHit cx root leaf = firstHit { cx with auth := auth } root leaf := by
  have open_ : PublicWithin cx maxGroupDepth root := by
    intro length short last path
    rcases probe_reaches_every_member keyed anonymous granted (Nat.le_succ_of_le short) path with
      same | may
    · rw [same]
      exact public_of_readable anonymous entered
    · exact public_of_readable anonymous may
  have same : ∀ firstOnly, walkFrom cx root leaf firstOnly =
      walkFrom { cx with auth := auth } root leaf firstOnly ∧
        (walkFrom cx root leaf firstOnly).2.skipped = [] := by
    intro firstOnly
    rw [walkFrom, walkFrom]
    split
    · exact ⟨rfl, rfl⟩
    · exact walk_same auth open_ (Walk.new root firstOnly)
  refine ⟨fun firstOnly => (same firstOnly).2, fun firstOnly => (same firstOnly).1, ?_, ?_⟩
  · rw [collect, collect, (same false).1]
  · rw [firstHit, firstHit, (same true).1]

end Public

/-- A public group that lists a hosted repository, and itself. -/
def openGroup : Repository where
  id := 1
  name := "all".toList
  repoType := "group".toList
  format := "npm".toList
  visibility := .public_
  config := some ⟨["ours".toList, "all".toList]⟩

def openHosted : Repository where
  id := 2
  name := "ours".toList
  repoType := "hosted".toList
  format := "npm".toList
  visibility := .public_
  config := none

/-- An anonymous request on the two of them. -/
def visitor : Cx where
  repos :=
    { byName := fun name =>
        .ok (if name = "all".toList then some openGroup
          else if name = "ours".toList then some openHosted else none)
      incarnation := fun _ => .ok none }
  rights := fun _ _ => .error .unavailable
  auth := none
  anonymousRead := true
  routing := { set := Routing.RouteSet.default, stale := false }
  url := "all".toList

theorem visitor_keyed : Keyed visitor openGroup := by
  have rows : ∀ repo, Row visitor openGroup repo → repo = openGroup ∨ repo = openHosted := by
    intro repo row
    rcases row with rfl | ⟨name, found⟩
    · exact .inl rfl
    · have which := Except.ok.inj found
      split at which
      · exact .inl (Option.some.inj which).symm
      · split at which
        · exact .inr (Option.some.inj which).symm
        · cases which
  intro a b rowA rowB same
  rcases rows a rowA with rfl | rfl <;> rcases rows b rowB with rfl | rfl
  · rfl
  · cases same
  · cases same
  · rfl

/-- The anonymous walk of the group asks the hosted repository, leaves out no member, and answers what
an administrator is answered. -/
theorem visitor_is_answered_like_an_administrator :
    probeAccess visitor openGroup = .ok () ∧
      let leaf : Leaf Unit := ⟨.named "ui".toList, fun _ _ => .ok (.found ()), fun _ _ => .ok .notFound⟩
      (walkFrom visitor openGroup leaf false).2.skipped = [] ∧
        collect visitor openGroup leaf =
          collect { visitor with auth := some ⟨none, "admin".toList, .inherit_⟩ } openGroup leaf := by
  have granted : probeAccess visitor openGroup = .ok () := by decide +kernel
  refine ⟨granted, ?_⟩
  obtain ⟨skips, _, collected, _⟩ := probed_group_is_wholly_public visitor_keyed rfl
    (by decide +kernel) granted ⟨.named "ui".toList, fun _ _ => .ok (.found ()), fun _ _ => .ok .notFound⟩
    (some ⟨none, "admin".toList, .inherit_⟩)
  exact ⟨skips false, collected⟩

end OpenCargo.Resolve
