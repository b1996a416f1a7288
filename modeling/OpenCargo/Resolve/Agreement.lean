/-
Module: OpenCargo.Resolve.Agreement
Purpose: The three traversals of a group's members agree: the walk asks the repositories of the
  caller's view, in its order and each once, and the terminals an explanation shows an administrator
  are the ones the walk visits.
Trusted boundary: none
Main exports: Shows, walkTerminals_keepsUp, explain_of_view, one_walk_one_order
-/
import OpenCargo.Resolve.Walk

namespace OpenCargo.Resolve

open OpenCargo.Access (Authorize AuthUser Rights)
open OpenCargo.Routing (Gate Snapshot Subject Verdict RouteSet)

/-! ### The view only grows -/

section View

variable {cx : Cx} {gate : Gate}

theorem andThen_grows {out : List Repository} {step : Step Seen} {next : Seen → Step Seen}
    (first : out <+: step.2.out) (rest : ∀ v : Seen, v.out <+: (next v).2.out) :
    out <+: (Step.andThen step next).2.out := by
  rw [Step.andThen]
  split
  · exact first.trans (rest step.2)
  · exact first

theorem viewMembers_grows {recur : Repository → Seen → Step Seen} {format : Format}
    (grows : ∀ member v, v.out <+: (recur member v).2.out) (names : List Text) (v : Seen) :
    v.out <+: (viewMembers cx recur format names v).2.out := by
  induction names generalizing v with
  | nil => exact List.prefix_rfl
  | cons name names ih =>
      simp only [viewMembers]
      split
      · exact List.prefix_rfl
      · exact ih v
      · rename_i member _
        split
        · exact List.prefix_rfl
        · exact ih v
        · split
          · exact List.prefix_rfl
          · split
            · exact ih v
            · exact andThen_grows (grows member { v with seen := member.id :: v.seen }) ih

theorem viewOne_grows {inner : Option (Repository → Seen → Step Seen)}
    (grows : ∀ recur ∈ inner, ∀ member v, v.out <+: (recur member v).2.out) (repo : Repository)
    (v : Seen) : v.out <+: (viewOne cx gate inner repo v).2.out := by
  simp only [viewOne, viewGroup, viewTerminal]
  split
  · exact List.prefix_rfl
  · cases inner with
    | none => exact List.prefix_rfl
    | some recur =>
        simp only
        split
        · exact List.prefix_rfl
        · exact viewMembers_grows (grows recur rfl) _ v
  · split
    · exact List.prefix_rfl
    · split
      · exact List.prefix_append _ _
      · exact List.prefix_rfl

theorem viewOf_grows (left : Nat) (repo : Repository) (v : Seen) :
    v.out <+: (viewOf cx gate left repo v).2.out := by
  induction left generalizing repo v with
  | zero =>
      refine viewOne_grows (fun recur held => ?_) repo v
      cases held
  | succ left ih =>
      refine viewOne_grows (fun recur held => ?_) repo v
      cases held
      exact ih

end View

/-! ### The walk and the view -/

section Agreement

variable {T : Type} {cx : Cx} {gate : Gate} {leaf : Leaf T}

/-- The walk stopped of its own: it has its hit, or the last repository asked answered what ends a
walk. -/
def Ended (leaf : Leaf T) (walked : Step (Walk T)) : Prop :=
  (walked.1 = .ok () ∧ walked.2.done = true) ∨
    ∃ err front repo, walked.1 = .error err ∧ walked.2.asked = front ++ [repo] ∧
      (visit repo.name (leaf.hosted front repo) = .error err ∨
        visit repo.name (leaf.proxy front repo) = .error err)

/-- How a walk stands to the view: at the same place, or short of it because it stopped. -/
inductive Agrees (leaf : Leaf T) (walked : Step (Walk T)) (viewed : Step Seen) : Prop where
  | same (ended : walked.1 = viewed.1) (seen : walked.2.seen = viewed.2.seen)
      (asked : walked.2.asked = viewed.2.out)
  | ahead (asked : walked.2.asked <+: viewed.2.out) (ended : Ended leaf walked)

theorem walkTerminal_agrees {ask : List Repository → Repository → Except ResolveError (Outcome T)}
    (asks : ask = leaf.hosted ∨ ask = leaf.proxy) (repo : Repository) {w : Walk T} {v : Seen}
    (seen : w.seen = v.seen) (asked : w.asked = v.out) :
    Agrees leaf (walkTerminal cx gate ask repo w) (viewTerminal cx gate repo v) := by
  rw [walkTerminal, viewTerminal]
  cases gate.admits cx.repos repo with
  | error err => exact .same rfl seen asked
  | ok verdict =>
      simp only
      by_cases admitted : verdict.isAdmitted = true
      · rw [if_pos admitted, if_pos admitted, askMember]
        cases answered : visit repo.name (ask w.asked repo) with
        | ok visited =>
            refine .same rfl ?_ ?_
            · exact (Walk.record_seen _ _).trans seen
            · rw [Walk.record_asked, ← asked]
              rfl
        | error err =>
            refine .ahead ?_ (.inr ⟨err, w.asked, repo, rfl, rfl, ?_⟩)
            · rw [← asked]
              exact List.prefix_rfl
            · rcases asks with rfl | rfl
              · exact .inl answered
              · exact .inr answered
      · rw [if_neg admitted, if_neg admitted]
        exact .same rfl seen asked

theorem walkMembers_of_done {recur : Repository → Walk T → Step (Walk T)} {format : Format}
    (names : List Text) {w : Walk T} (done : w.done = true) :
    walkMembers cx recur format names w = (.ok (), w) := by
  cases names with
  | nil => rfl
  | cons name names => rw [walkMembers, if_pos done]

theorem walkMembers_agrees_next {recur : Repository → Walk T → Step (Walk T)}
    {recur' : Repository → Seen → Step Seen} {format : Format} {names : List Text}
    (grows : ∀ member v, v.out <+: (recur' member v).2.out)
    (rest : ∀ {w : Walk T} {v : Seen}, w.seen = v.seen → w.asked = v.out →
      Agrees leaf (walkMembers cx recur format names w) (viewMembers cx recur' format names v))
    {walked : Step (Walk T)} {viewed : Step Seen} (inner : Agrees leaf walked viewed) :
    Agrees leaf (Step.andThen walked fun w => walkMembers cx recur format names w)
      (Step.andThen viewed fun v => viewMembers cx recur' format names v) := by
  obtain ⟨walkedEnd, w⟩ := walked
  obtain ⟨viewedEnd, v⟩ := viewed
  cases inner with
  | same ended seen asked =>
      cases ended
      cases walkedEnd with
      | ok _ => exact rest seen asked
      | error err => exact .same rfl seen asked
  | ahead asked ended =>
      have longer : w.asked <+:
          (Step.andThen (viewedEnd, v) fun v => viewMembers cx recur' format names v).2.out :=
        andThen_grows asked fun v => viewMembers_grows grows names v
      rcases ended with ⟨ok_, done⟩ | ⟨err, front, repo, failed, last, answered⟩
      · cases ok_
        have stays : walkMembers cx recur format names w = (.ok (), w) :=
          walkMembers_of_done names done
        simp only [Step.andThen, stays]
        exact .ahead longer (.inl ⟨rfl, done⟩)
      · cases failed
        exact .ahead longer (.inr ⟨err, front, repo, rfl, last, answered⟩)

theorem walkMembers_agrees {recur : Repository → Walk T → Step (Walk T)}
    {recur' : Repository → Seen → Step Seen} {format : Format}
    (agrees : ∀ member format w v, member.fmt = .ok format → w.seen = v.seen → w.asked = v.out →
      Agrees leaf (recur member w) (recur' member v))
    (grows : ∀ member v, v.out <+: (recur' member v).2.out) (names : List Text) {w : Walk T}
    {v : Seen} (seen : w.seen = v.seen) (asked : w.asked = v.out) :
    Agrees leaf (walkMembers cx recur format names w) (viewMembers cx recur' format names v) := by
  induction names generalizing w v with
  | nil => exact .same rfl seen asked
  | cons name names ih =>
      rw [walkMembers]
      split
      · -- the walk has its hit, and the view goes on
        rename_i done
        refine .ahead ?_ (.inl ⟨rfl, done⟩)
        change w.asked <+: _
        rw [asked]
        exact viewMembers_grows grows (name :: names) v
      · rw [viewMembers]
        cases cx.repos.byName name with
        | error err => exact .same rfl seen asked
        | ok found =>
            cases found with
            | none => exact ih seen asked
            | some member =>
                simp only
                cases readable cx member with
                | error err => exact .same rfl seen asked
                | ok may =>
                    cases may with
                    | false => exact ih seen asked
                    | true =>
                        simp only
                        cases formatted : member.fmt with
                        | error err => exact .same rfl seen asked
                        | ok memberFormat =>
                            simp only
                            by_cases other : memberFormat ≠ format
                            · rw [if_pos other, if_pos (.inl other)]
                              exact ih seen asked
                            · rw [if_neg other]
                              by_cases again : member.id ∈ w.seen
                              · rw [if_pos again, if_pos (.inr (seen ▸ again))]
                                exact ih seen asked
                              · rw [if_neg again, if_neg (by simp [other, seen ▸ again])]
                                have inner := agrees member memberFormat (w.mark member.id)
                                  { v with seen := member.id :: v.seen } formatted
                                  (congrArg (List.cons member.id) seen) asked
                                exact walkMembers_agrees_next grows ih inner

theorem walkOne_agrees {inner : Option (Repository → Walk T → Step (Walk T))}
    {inner' : Option (Repository → Seen → Step Seen)}
    (levels : (inner = none ∧ inner' = none) ∨ ∃ recur recur', inner = some recur ∧
      inner' = some recur' ∧ (∀ member v, v.out <+: (recur' member v).2.out) ∧
      ∀ member format w v, member.fmt = .ok format → w.seen = v.seen → w.asked = v.out →
        Agrees leaf (recur member w) (recur' member v))
    {repo : Repository} {format : Format} (formatted : repo.fmt = .ok format) {w : Walk T} {v : Seen}
    (seen : w.seen = v.seen) (asked : w.asked = v.out) :
    Agrees leaf (walkOne cx leaf gate inner repo w) (viewOne cx gate inner' repo v) := by
  simp only [walkOne, viewOne]
  cases repo.kind with
  | error err => exact .same rfl seen asked
  | ok kind =>
      cases kind with
      | hosted => exact walkTerminal_agrees (.inl rfl) repo seen asked
      | proxy => exact walkTerminal_agrees (.inr rfl) repo seen asked
      | group =>
          rcases levels with ⟨rfl, rfl⟩ | ⟨recur, recur', rfl, rfl, grows, agrees⟩
          · exact .same rfl seen asked
          · simp only [walkGroup, viewGroup, formatted]
            by_cases empty : repo.members.isEmpty = true
            · rw [if_pos empty, List.isEmpty_iff.mp empty]
              exact .same rfl seen asked
            · rw [if_neg empty]
              exact walkMembers_agrees agrees grows repo.members seen asked

theorem walk_agrees_with_view (left : Nat) {repo : Repository} {format : Format}
    (formatted : repo.fmt = .ok format) {w : Walk T} {v : Seen} (seen : w.seen = v.seen)
    (asked : w.asked = v.out) :
    Agrees leaf (walk cx leaf gate left repo w) (viewOf cx gate left repo v) := by
  induction left generalizing repo format w v with
  | zero => exact walkOne_agrees (.inl ⟨rfl, rfl⟩) formatted seen asked
  | succ left ih =>
      refine walkOne_agrees (.inr ⟨_, _, rfl, rfl, viewOf_grows left, ?_⟩) formatted seen asked
      intro member memberFormat w v formatted seen asked
      exact ih formatted seen asked

theorem walkFrom_agrees (cx : Cx) (leaf : Leaf T) (root : Repository) (firstOnly : Bool) :
    Agrees leaf (walkFrom cx root leaf firstOnly) (viewFrom cx root leaf.subject) := by
  rw [walkFrom, viewFrom]
  cases formatted : root.fmt with
  | error err => exact .same rfl rfl rfl
  | ok format => exact walk_agrees_with_view maxGroupDepth formatted rfl rfl

end Agreement

/-! ### What a walk never touches -/

section Preserves

variable {T : Type} {cx : Cx} {gate : Gate} {leaf : Leaf T}

/-- A property that none of the walk's updates breaks. -/
structure Stable (P : Walk T → Prop) : Prop where
  record : ∀ w visit, P w → P (w.record visit)
  ask : ∀ w repo, P w → P (w.ask repo)
  skip : ∀ w member, P w → P (w.skip member)
  mark : ∀ w id, P w → P (w.mark id)

variable {P : Walk T → Prop}

theorem walkMembers_preserves (stable : Stable P) {recur : Repository → Walk T → Step (Walk T)}
    {format : Format} (inner : ∀ member w, P w → P (recur member w).2) (names : List Text)
    {w : Walk T} (holds : P w) : P (walkMembers cx recur format names w).2 := by
  induction names generalizing w with
  | nil => exact holds
  | cons name names ih =>
      simp only [walkMembers]
      split
      · exact holds
      · split
        · exact holds
        · exact ih holds
        · rename_i member _
          split
          · exact holds
          · exact ih (stable.skip w member holds)
          · split
            · exact holds
            · split
              · exact ih holds
              · split
                · exact ih holds
                · have after := inner member _ (stable.mark w member.id holds)
                  rw [Step.andThen]
                  split
                  · exact ih after
                  · exact after

theorem walkTerminal_preserves (stable : Stable P)
    (ask : List Repository → Repository → Except ResolveError (Outcome T)) (repo : Repository)
    {w : Walk T} (holds : P w) : P (walkTerminal cx gate ask repo w).2 := by
  rw [walkTerminal]
  split
  · exact holds
  · split
    · rw [askMember]
      split
      · exact stable.record _ _ (stable.ask w repo holds)
      · exact stable.ask w repo holds
    · exact stable.record w .nothing holds

theorem walkOne_preserves (stable : Stable P)
    {inner : Option (Repository → Walk T → Step (Walk T))}
    (deeper : ∀ recur ∈ inner, ∀ member w, P w → P (recur member w).2) (repo : Repository)
    {w : Walk T} (holds : P w) : P (walkOne cx leaf gate inner repo w).2 := by
  simp only [walkOne, walkGroup]
  split
  · exact holds
  · exact walkTerminal_preserves stable leaf.hosted repo holds
  · exact walkTerminal_preserves stable leaf.proxy repo holds
  · cases inner with
    | none => exact holds
    | some recur =>
        simp only
        split
        · exact holds
        · split
          · exact holds
          · exact walkMembers_preserves stable (deeper recur rfl) _ holds

theorem walk_preserves (stable : Stable P) (left : Nat) (repo : Repository) {w : Walk T}
    (holds : P w) : P (walk cx leaf gate left repo w).2 := by
  induction left generalizing repo w with
  | zero =>
      refine walkOne_preserves stable (fun recur held => ?_) repo holds
      cases held
  | succ left ih =>
      refine walkOne_preserves stable (fun recur held => ?_) repo holds
      cases held
      exact fun member w => ih member

theorem walkFrom_firstOnly (root : Repository) (firstOnly : Bool) :
    (walkFrom cx root leaf firstOnly).2.firstOnly = firstOnly := by
  have stable : Stable fun w : Walk T => w.firstOnly = firstOnly :=
    { record := fun w visit kept => (Walk.record_firstOnly w visit).trans kept
      ask := fun _ _ kept => kept
      skip := fun _ _ kept => kept
      mark := fun _ _ kept => kept }
  rw [walkFrom]
  split
  · rfl
  · exact walk_preserves stable maxGroupDepth root rfl

theorem walkFrom_collects (cx : Cx) (leaf : Leaf T) (root : Repository) :
    Agrees leaf (walkFrom cx root leaf false) (viewFrom cx root leaf.subject) ∧
      (walkFrom cx root leaf false).2.done = false := by
  refine ⟨walkFrom_agrees cx leaf root false, ?_⟩
  rw [Walk.done, walkFrom_firstOnly, Bool.false_and]

end Preserves

/-! ### Each repository once -/

section Once

variable {T : Type} {cx : Cx} {gate : Gate} {leaf : Leaf T}

/-- The repositories asked are marked, and no two of them share an id. -/
structure Marked (w : Walk T) : Prop where
  seen : ∀ repo ∈ w.asked, repo.id ∈ w.seen
  once : (w.asked.map Repository.id).Nodup

theorem Marked.mark {w : Walk T} (marked : Marked w) (id : Int) : Marked (w.mark id) where
  seen repo there := List.mem_cons_of_mem id (marked.seen repo there)
  once := marked.once

theorem Marked.not_asked {w : Walk T} (marked : Marked w) {id : Int} (unseen : id ∉ w.seen) :
    id ∉ w.asked.map Repository.id := by
  intro there
  obtain ⟨repo, held, rfl⟩ := List.mem_map.mp there
  exact unseen (marked.seen repo held)

theorem Marked.ask {w : Walk T} (marked : Marked w) {repo : Repository} (seen : repo.id ∈ w.seen)
    (fresh : repo.id ∉ w.asked.map Repository.id) : Marked (w.ask repo) where
  seen asked there := by
    rcases List.mem_append.mp there with before | last
    · exact marked.seen asked before
    · rw [List.mem_singleton.mp last]
      exact seen
  once := by
    rw [Walk.ask, List.map_append, List.nodup_append]
    refine ⟨marked.once, List.nodup_singleton _, ?_⟩
    intro id before id' last
    rw [List.map_singleton, List.mem_singleton] at last
    rintro rfl
    exact fresh (last ▸ before)

/-- A step may ask a repository that is marked and was not asked. -/
def AsksFresh (step : Repository → Walk T → Step (Walk T)) : Prop :=
  ∀ repo w, Marked w → repo.id ∈ w.seen → repo.id ∉ w.asked.map Repository.id →
    Marked (step repo w).2

theorem walkMembers_marked {recur : Repository → Walk T → Step (Walk T)} {format : Format}
    (fresh : AsksFresh recur) (names : List Text) {w : Walk T} (marked : Marked w) :
    Marked (walkMembers cx recur format names w).2 := by
  induction names generalizing w with
  | nil => exact marked
  | cons name names ih =>
      simp only [walkMembers]
      split
      · exact marked
      · split
        · exact marked
        · exact ih marked
        · rename_i member _
          split
          · exact marked
          · exact ih ⟨marked.seen, marked.once⟩
          · split
            · exact marked
            · split
              · exact ih marked
              · split
                · exact ih marked
                · rename_i unseen
                  have inner := fresh member (w.mark member.id) (marked.mark member.id)
                    (List.mem_cons_self ..) (marked.not_asked unseen)
                  rw [Step.andThen]
                  split
                  · exact ih inner
                  · exact inner

theorem walkTerminal_marked
    (ask : List Repository → Repository → Except ResolveError (Outcome T)) :
    AsksFresh (walkTerminal cx gate ask) := by
  intro repo w marked seen fresh
  have asked := marked.ask seen fresh
  rw [walkTerminal]
  split
  · exact marked
  · split
    · rw [askMember]
      split
      · exact ⟨by simpa using asked.seen, by simpa using asked.once⟩
      · exact asked
    · exact ⟨marked.seen, marked.once⟩

theorem walkOne_marked {inner : Option (Repository → Walk T → Step (Walk T))}
    (fresh : ∀ recur ∈ inner, AsksFresh recur) : AsksFresh (walkOne cx leaf gate inner) := by
  intro repo w marked seen unasked
  simp only [walkOne, walkGroup]
  split
  · exact marked
  · exact walkTerminal_marked leaf.hosted repo w marked seen unasked
  · exact walkTerminal_marked leaf.proxy repo w marked seen unasked
  · cases inner with
    | none => exact marked
    | some recur =>
        simp only
        split
        · exact marked
        · split
          · exact marked
          · exact walkMembers_marked (fresh recur rfl) _ marked

theorem walk_marked (left : Nat) : AsksFresh (walk cx leaf gate left) := by
  induction left with
  | zero =>
      refine walkOne_marked fun recur held => ?_
      cases held
  | succ left ih =>
      refine walkOne_marked fun recur held => ?_
      cases held
      exact ih

theorem walkFrom_asks_once (root : Repository) (firstOnly : Bool) :
    ((walkFrom cx root leaf firstOnly).2.asked.map Repository.id).Nodup := by
  have started : Marked (Walk.new root firstOnly : Walk T) :=
    ⟨fun repo none_ => (List.not_mem_nil none_).elim, List.nodup_nil⟩
  rw [walkFrom]
  split
  · exact started.once
  · exact (walk_marked maxGroupDepth root _ started (List.mem_cons_self ..)
      List.not_mem_nil).once

end Once

/-! ### The terminals of an explanation -/

section Terminals

variable {cx : Cx} {gate : Gate}

/-- Whether a walk through the gate asks this repository. -/
def lets (gate : Gate) (repos : RepositoryStore) (repo : Repository) : Bool :=
  match gate.admits repos repo with
  | .ok verdict => verdict.isAdmitted
  | .error _ => false

/-- The terminals visited so far, against the view: the same marks, and the view is the terminals the
gate lets through, all of which it answers for. -/
structure Shows (cx : Cx) (gate : Gate) (v t : Seen) : Prop where
  seen : ∀ id, id ∈ v.seen ↔ id ∈ t.seen
  out : v.out = t.out.filter (lets gate cx.repos)
  answered : ∀ repo ∈ t.out, (∃ verdict, gate.admits cx.repos repo = .ok verdict) ∧
    ∃ kind, repo.kind = .ok kind

/-- The caller is refused no member, though a grant may be unreadable. -/
def ReadsAll (cx : Cx) : Prop := ∀ member, readable cx member ≠ .ok false

/-- A step of the terminals keeps up with a step of the view that does not fail. -/
def KeepsUp (cx : Cx) (gate : Gate) (look show_ : Repository → Seen → Step Seen) : Prop :=
  ∀ repo v v' t, look repo v = (.ok (), v') → Shows cx gate v t →
    ∃ t', show_ repo t = (.ok (), t') ∧ Shows cx gate v' t'

theorem terminalMembers_keepsUp (all : ReadsAll cx) {look show_ : Repository → Seen → Step Seen}
    {format : Format} (up : KeepsUp cx gate look show_) (names : List Text) {v v' t : Seen}
    (viewed : viewMembers cx look format names v = (.ok (), v')) (shows : Shows cx gate v t) :
    ∃ t', terminalMembers cx.repos show_ format names t = (.ok (), t') ∧ Shows cx gate v' t' := by
  induction names generalizing v t with
  | nil =>
      cases viewed
      exact ⟨t, rfl, shows⟩
  | cons name names ih =>
      rw [viewMembers] at viewed
      rw [terminalMembers]
      cases found : cx.repos.byName name with
      | error err => simp [found] at viewed
      | ok member =>
          cases member with
          | none =>
              simp only [found] at viewed
              exact ih viewed shows
          | some member =>
              simp only [found] at viewed
              cases may : readable cx member with
              | error err => simp [may] at viewed
              | ok may' =>
                  cases may' with
                  | false => exact absurd may (all member)
                  | true =>
                      simp only [may] at viewed
                      cases formatted : member.fmt with
                      | error err => simp [formatted] at viewed
                      | ok memberFormat =>
                          simp only [formatted] at viewed ⊢
                          by_cases past : memberFormat ≠ format ∨ member.id ∈ v.seen
                          · rw [if_pos past] at viewed
                            rw [if_pos (past.imp_right (shows.seen member.id).mp)]
                            exact ih viewed shows
                          · rw [if_neg past] at viewed
                            rw [if_neg fun past' =>
                              past (past'.imp_right (shows.seen member.id).mpr)]
                            have marked : Shows cx gate { v with seen := member.id :: v.seen }
                                { t with seen := t.seen ++ [member.id] } :=
                              { seen := fun id => by
                                  rw [List.mem_cons, List.mem_append, List.mem_singleton,
                                    shows.seen id, or_comm]
                                out := shows.out
                                answered := shows.answered }
                            cases walked : look member { v with seen := member.id :: v.seen } with
                            | mk ended w =>
                                rw [walked] at viewed
                                cases ended with
                                | error err => cases viewed
                                | ok _ =>
                                    obtain ⟨u, shown, shows'⟩ := up member _ _ _ walked marked
                                    rw [shown]
                                    exact ih viewed shows'

theorem terminalOne_keepsUp (all : ReadsAll cx)
    {inner inner' : Option (Repository → Seen → Step Seen)}
    (levels : (inner = none ∧ inner' = none) ∨ ∃ look show_, inner = some look ∧
      inner' = some show_ ∧ KeepsUp cx gate look show_) :
    KeepsUp cx gate (viewOne cx gate inner) (terminalOne cx.repos inner') := by
  intro repo v v' t viewed shows
  have terminal : ∀ kind, repo.kind = .ok kind → viewTerminal cx gate repo v = (.ok (), v') →
      Shows cx gate v' { t with out := t.out ++ [repo] } := by
    intro kind kinded viewed
    rw [viewTerminal] at viewed
    cases judged : gate.admits cx.repos repo with
    | error err => simp [judged] at viewed
    | ok verdict =>
        have answered : ∀ shown ∈ t.out ++ [repo], (∃ verdict, gate.admits cx.repos shown =
            .ok verdict) ∧ ∃ kind, shown.kind = .ok kind := by
          intro shown there
          rcases List.mem_append.mp there with before | last
          · exact shows.answered shown before
          · rw [List.mem_singleton.mp last]
            exact ⟨⟨verdict, judged⟩, kind, kinded⟩
        have through : lets gate cx.repos repo = verdict.isAdmitted := by
          rw [lets, judged]
        simp only [judged] at viewed
        cases admitted : verdict.isAdmitted with
        | true =>
            rw [admitted, if_pos rfl] at viewed
            cases viewed
            refine ⟨shows.seen, ?_, answered⟩
            rw [List.filter_append, ← shows.out, List.filter_singleton, through, admitted]
            rfl
        | false =>
            rw [admitted, if_neg Bool.false_ne_true] at viewed
            cases viewed
            refine ⟨shows.seen, ?_, answered⟩
            rw [List.filter_append, ← shows.out, List.filter_singleton, through, admitted]
            exact (List.append_nil v.out).symm
  simp only [viewOne] at viewed
  simp only [terminalOne]
  cases kinded : repo.kind with
  | error err => simp [kinded] at viewed
  | ok kind =>
      cases kind with
      | hosted =>
          simp only [kinded] at viewed
          exact ⟨_, rfl, terminal .hosted kinded viewed⟩
      | proxy =>
          simp only [kinded] at viewed
          exact ⟨_, rfl, terminal .proxy kinded viewed⟩
      | group =>
          simp only [kinded, viewGroup] at viewed
          simp only [terminalGroup]
          rcases levels with ⟨rfl, rfl⟩ | ⟨look, show_, rfl, rfl, up⟩
          · cases viewed
          · simp only at viewed
            simp only
            cases formatted : repo.fmt with
            | error err => simp [formatted] at viewed
            | ok format =>
                simp only [formatted] at viewed
                exact terminalMembers_keepsUp all up repo.members viewed shows

theorem walkTerminals_keepsUp (all : ReadsAll cx) (left : Nat) :
    KeepsUp cx gate (viewOf cx gate left) (walkTerminals cx.repos left) := by
  induction left with
  | zero => exact terminalOne_keepsUp all (.inl ⟨rfl, rfl⟩)
  | succ left ih => exact terminalOne_keepsUp all (.inr ⟨_, _, rfl, rfl, ih⟩)

end Terminals

/-! ### One walk, one order -/

theorem readsAll_of_admin {cx : Cx} {user : AuthUser} (caller : cx.auth = some user)
    (admin : Access.canAdmin user.role = true) : ReadsAll cx := by
  intro member refused
  have judged : cx.authorize.member cx.auth member .read = .ok ∨
      cx.authorize.member cx.auth member .read = .unavailable := by
    simp only [Authorize.member, Authorize.decide, caller, Access.TokenScope.isInherit, if_true]
    split
    · exact .inl rfl
    · split
      · exact .inr rfl
      · left
        simp [Access.effectiveRights, admin, Access.verdict]
  rcases judged with ok_ | down
  · simp [readable, ok_] at refused
  · simp [readable, down] at refused

theorem explainMember_ok {repos : RepositoryStore} {gate : Gate} {repo : Repository}
    {verdict : Verdict} {kind : RepoKind} (judged : gate.admits repos repo = .ok verdict)
    (kinded : repo.kind = .ok kind) :
    explainMember repos gate repo =
      .ok { name := repo.name, kind := kind, admitted := verdict.isAdmitted,
            refusedBy := verdict.rules, stale := verdict == .stale } := by
  simp [explainMember, judged, kinded, bind, Except.bind, pure, Except.pure]

/-- The explanation of terminals the gate answers for, and which of them it marks admitted. -/
theorem mapM_explainMember {repos : RepositoryStore} {gate : Gate} {shown : List Repository}
    (answered : ∀ repo ∈ shown, (∃ verdict, gate.admits repos repo = .ok verdict) ∧
      ∃ kind, repo.kind = .ok kind) :
    ∃ members, shown.mapM (explainMember repos gate) = .ok members ∧
      members.map Member.name = shown.map Repository.name ∧
      (members.filter Member.admitted).map Member.name =
        (shown.filter (lets gate repos)).map Repository.name := by
  induction shown with
  | nil => exact ⟨[], rfl, rfl, rfl⟩
  | cons repo shown ih =>
      obtain ⟨members, done, names, through⟩ := ih fun other there =>
        answered other (List.mem_cons_of_mem repo there)
      obtain ⟨⟨verdict, judged⟩, kind, kinded⟩ := answered repo (List.mem_cons_self ..)
      have explained := explainMember_ok judged kinded
      refine ⟨⟨repo.name, kind, verdict.isAdmitted, verdict.rules, verdict == .stale⟩ :: members,
        ?_, congrArg (List.cons repo.name) names, ?_⟩
      · rw [List.mapM_cons, explained, done]
        rfl
      · have passes : lets gate repos repo = verdict.isAdmitted := by
          rw [lets, judged]
        cases admitted : verdict.isAdmitted with
        | true => simp [passes, admitted, through]
        | false => simp [passes, admitted, through]

theorem Agrees.prefix_out {T : Type} {leaf : Leaf T} {walked : Step (Walk T)} {viewed : Step Seen}
    (agrees : Agrees leaf walked viewed) : walked.2.asked <+: viewed.2.out := by
  cases agrees with
  | same ended seen asked => exact asked ▸ List.prefix_rfl
  | ahead asked ended => exact asked

theorem viewFrom_of_walk {T : Type} {cx : Cx} {root : Repository} {leaf : Leaf T}
    (fine : (walkFrom cx root leaf false).1 = .ok ()) :
    (viewFrom cx root leaf.subject).1 = .ok () ∧
      (viewFrom cx root leaf.subject).2.out = (walkFrom cx root leaf false).2.asked := by
  obtain ⟨agrees, going⟩ := walkFrom_collects cx leaf root
  cases agrees with
  | same ended seen asked => exact ⟨ended.symm.trans fine, asked.symm⟩
  | ahead asked ended =>
      rcases ended with ⟨_, done⟩ | ⟨err, front, repo, failed, _⟩
      · rw [going] at done
        cases done
      · rw [fine] at failed
        cases failed

theorem view_eq_ok {cx : Cx} {root : Repository} {subject : Subject}
    (fine : (viewFrom cx root subject).1 = .ok ()) :
    view cx root subject = .ok (viewFrom cx root subject).2.out := by
  rw [view]
  cases viewed : viewFrom cx root subject with
  | mk ended v =>
      rw [viewed] at fine
      cases fine
      rfl

theorem view_eq_error {cx : Cx} {root : Repository} {subject : Subject} {err : ResolveError}
    (failed : (viewFrom cx root subject).1 = .error err) : view cx root subject = .error err := by
  rw [view]
  cases viewed : viewFrom cx root subject with
  | mk ended v =>
      rw [viewed] at failed
      cases failed
      rfl

/-- A walk that collects fails where the view does, or on an answer that ends it. -/
theorem walk_failure {T : Type} {cx : Cx} {root : Repository} {leaf : Leaf T} {err : ResolveError}
    (failed : (walkFrom cx root leaf false).1 = .error err) :
    (view cx root leaf.subject = .error err ∧
        (walkFrom cx root leaf false).2.asked = (viewFrom cx root leaf.subject).2.out) ∨
      ∃ front repo, (walkFrom cx root leaf false).2.asked = front ++ [repo] ∧
        (visit repo.name (leaf.hosted front repo) = .error err ∨
          visit repo.name (leaf.proxy front repo) = .error err) := by
  cases walkFrom_agrees cx leaf root false with
  | same ended seen asked =>
      exact .inl ⟨view_eq_error (ended.symm.trans failed), asked⟩
  | ahead asked ended =>
      rcases ended with ⟨fine, _⟩ | ⟨err', front, repo, failed', last, answered⟩
      · rw [failed] at fine
        cases fine
      · rw [failed] at failed'
        cases failed'
        exact .inr ⟨front, repo, last, answered⟩

/-- What an explanation shows of a root whose view does not fail, to a caller refused no member. -/
theorem explain_of_view {cx : Cx} (all : ReadsAll cx) {root : Repository} {name : Text}
    (fine : (viewFrom cx root (.named name)).1 = .ok ()) :
    ∃ shown explanation, terminals cx.repos root = .ok shown ∧
      explain cx.repos cx.routing root name none = .ok explanation ∧
      explanation.members.map Member.name = shown.map Repository.name ∧
      (viewFrom cx root (.named name)).2.out.Sublist shown ∧
      (explanation.members.filter Member.admitted).map Member.name =
        (viewFrom cx root (.named name)).2.out.map Repository.name := by
  cases formatted : root.fmt with
  | error err =>
      rw [viewFrom, formatted] at fine
      cases fine
  | ok format =>
      have started : Shows cx (Gate.open_ cx.routing format (.named name)) ⟨[root.id], []⟩
          ⟨[root.id], []⟩ :=
        { seen := fun _ => Iff.rfl
          out := rfl
          answered := fun _ none_ => (List.not_mem_nil none_).elim }
      cases viewed : viewFrom cx root (.named name) with
      | mk ended v =>
          rw [viewed] at fine
          cases fine
          have walked : viewOf cx (Gate.open_ cx.routing format (.named name)) maxGroupDepth root
              ⟨[root.id], []⟩ = (.ok (), v) := by
            rw [viewFrom, formatted] at viewed
            exact viewed
          obtain ⟨t, shown, shows⟩ := walkTerminals_keepsUp all maxGroupDepth root _ _ _ walked started
          have listed : terminals cx.repos root = .ok t.out := by
            rw [terminals, shown]
          obtain ⟨members, explained, names, through⟩ := mapM_explainMember shows.answered
          refine ⟨t.out, ⟨Routing.matchKey format name, Routing.identKey format name,
            cx.routing.set.version, members⟩, listed, ?_, names, ?_, ?_⟩
          · simp [explain, formatted, listed, explained, bind, Except.bind, pure, Except.pure]
          · rw [shows.out]
            exact List.filter_sublist
          · rw [through, shows.out]

/-- One walk, one order. A walk that does not fail asks the repositories of the caller's view, in the
same order; in general it asks the first of them, and stops where the view fails or on an answer that
ends a walk. No repository is asked twice. The terminals an explanation shows are, for an
administrator whose walk does not fail, the repositories it visits in the same order, and the ones it
marks admitted are those the walk asks. -/
theorem one_walk_one_order {T : Type} (cx : Cx) (root : Repository) (leaf : Leaf T) :
    ((walkFrom cx root leaf false).1 = .ok () →
      view cx root leaf.subject = .ok (walkFrom cx root leaf false).2.asked) ∧
    (∀ firstOnly, (walkFrom cx root leaf firstOnly).2.asked <+:
      (viewFrom cx root leaf.subject).2.out) ∧
    (∀ err, (walkFrom cx root leaf false).1 = .error err →
      (view cx root leaf.subject = .error err ∧
        (walkFrom cx root leaf false).2.asked = (viewFrom cx root leaf.subject).2.out) ∨
      ∃ front repo, (walkFrom cx root leaf false).2.asked = front ++ [repo] ∧
        (visit repo.name (leaf.hosted front repo) = .error err ∨
          visit repo.name (leaf.proxy front repo) = .error err)) ∧
    (∀ firstOnly, ((walkFrom cx root leaf firstOnly).2.asked.map Repository.id).Nodup) ∧
    (∀ user name, cx.auth = some user → Access.canAdmin user.role = true →
      leaf.subject = .named name → (walkFrom cx root leaf false).1 = .ok () →
      ∃ shown explanation, terminals cx.repos root = .ok shown ∧
        explain cx.repos cx.routing root name none = .ok explanation ∧
        explanation.members.map Member.name = shown.map Repository.name ∧
        (walkFrom cx root leaf false).2.asked.Sublist shown ∧
        (explanation.members.filter Member.admitted).map Member.name =
          (walkFrom cx root leaf false).2.asked.map Repository.name) := by
  refine ⟨fun fine => ?_, fun firstOnly => (walkFrom_agrees cx leaf root firstOnly).prefix_out,
    fun err failed => walk_failure failed, walkFrom_asks_once root, ?_⟩
  · obtain ⟨viewed, asked⟩ := viewFrom_of_walk fine
    rw [view_eq_ok viewed, asked]
  · intro user name caller admin named fine
    obtain ⟨viewed, asked⟩ := viewFrom_of_walk fine
    rw [named] at viewed asked
    rw [← asked]
    exact explain_of_view (readsAll_of_admin caller admin) viewed

/-- A repository of the world below. -/
def row (id : Int) (name kind : Text) (members : Option RepoConfig) : Repository where
  id := id
  name := name
  repoType := kind
  format := "npm".toList
  visibility := .private_
  config := members

/-- A group of a hosted repository and a mirror. -/
def group : Repository :=
  row 1 "all".toList "group".toList (some ⟨["ours".toList, "npmjs".toList]⟩)

def smallWorld : RepositoryStore where
  byName := fun name =>
    .ok (if name = "ours".toList then some (row 2 name "hosted".toList none)
      else if name = "npmjs".toList then some (row 3 name "proxy".toList none)
      else none)
  incarnation := fun _ => .ok none

/-- An administrator's request, under the rule that closes `@acme/*` to mirrors. -/
def adminRequest : Cx where
  repos := smallWorld
  rights := fun _ _ => .ok none
  auth := some { userId := none, role := "admin".toList, scope := .inherit_ }
  anonymousRead := false
  routing := { set := RouteSet.new [Routing.internal] 1, stale := false }
  url := "all".toList

/-- A read of `@acme/ui` that no repository has. -/
def absent : Leaf Unit where
  subject := .named "@acme/ui".toList
  hosted := fun _ _ => .ok .notFound
  proxy := fun _ _ => .ok .notFound

/-- The administrator's walk asks the hosted repository, which is the view, and the explanation marks
it alone admitted. -/
theorem administrator_sees_what_the_walk_asks :
    (walkFrom adminRequest group absent false).1 = .ok () ∧
      view adminRequest group absent.subject =
        .ok (walkFrom adminRequest group absent false).2.asked ∧
      ∃ explanation, explain smallWorld adminRequest.routing group "@acme/ui".toList none =
          .ok explanation ∧
        (explanation.members.filter Member.admitted).map Member.name = ["ours".toList] := by
  have fine : (walkFrom adminRequest group absent false).1 = .ok () := by decide +kernel
  have asked : (walkFrom adminRequest group absent false).2.asked.map Repository.name =
      ["ours".toList] := by decide +kernel
  obtain ⟨viewed, _, _, _, shown⟩ := one_walk_one_order adminRequest group absent
  obtain ⟨_, explanation, _, explained, _, _, marked⟩ := shown _ _ rfl (by decide) rfl fine
  exact ⟨fine, viewed fine, explanation, explained, marked.trans asked⟩

/-- The explanation shows the mirror too, which the walk does not ask. -/
theorem explanation_shows_what_the_walk_leaves_out :
    (walkFrom adminRequest group absent false).1 = .ok () ∧
      (walkFrom adminRequest group absent false).2.asked.map Repository.name = ["ours".toList] ∧
      (explain smallWorld adminRequest.routing group "@acme/ui".toList none).toOption.map
        (fun explanation => explanation.members.map Member.name) =
          some ["ours".toList, "npmjs".toList] := by
  exact ⟨by decide +kernel, by decide +kernel, by decide +kernel⟩

end OpenCargo.Resolve
