/-
Module: OpenCargo.Groups.Walks
Purpose: The two walks below a group member. Each comes to its end with a call for every row; and where
  `reaches` answers no, nothing that can be reached lists the target, however the rows refer to
  each other.
Trusted boundary: none
Main exports: reaches_returns, step_isSome, Explored, not_reached_of_answers
-/
import OpenCargo.Groups.Spec
import OpenCargo.Lib.Nesting

namespace OpenCargo.Groups

open OpenCargo.Lib (Fueled Lists)
open OpenCargo.Lib.Fueled (Answers Returns answers_pure answers_of answers_bind answers_foldlM
  returns_pure returns_of returns_bind returns_foldlM)

variable {catalog : Catalog} {target : Text}

theorem Catalog.byName_eq_some_iff {name : Text} {row : Row} :
    catalog.byName name = some row ↔ row ∈ catalog.rows ∧ row.name = name := by
  constructor
  · intro found
    exact ⟨List.mem_of_find?_eq_some found, by simpa using List.find?_some found⟩
  · rintro ⟨mem, rfl⟩
    exact Lib.find?_of_unique catalog.names mem

/-! ### Every call returns -/

/-- How many rows a walk has not met. -/
def unseen {κ : Type} [DecidableEq κ] (key : Row → κ) (rows : List Row) (seen : List κ) : Nat :=
  rows.countP fun row => key row ∉ seen

section Unseen

variable {κ : Type} [DecidableEq κ] {key : Row → κ} {rows : List Row} {seen seen' : List κ}

theorem unseen_le (grows : seen ⊆ seen') : unseen key rows seen' ≤ unseen key rows seen := by
  refine List.countP_mono_left fun row _ fresh => ?_
  have fresh : key row ∉ seen' := by simpa using fresh
  simpa using fun old => fresh (grows old)

theorem unseen_cons_lt {row : Row} (mem : row ∈ rows) (fresh : key row ∉ seen) :
    unseen key rows (key row :: seen) < unseen key rows seen := by
  obtain ⟨before, after, rfl⟩ := List.append_of_mem mem
  have less : unseen key before (key row :: seen) ≤ unseen key before seen :=
    unseen_le (List.subset_cons_self ..)
  have fewer : unseen key after (key row :: seen) ≤ unseen key after seen :=
    unseen_le (List.subset_cons_self ..)
  simp only [unseen, List.countP_append, List.countP_cons] at *
  simp only [fresh, List.mem_cons_self, not_true, decide_false, decide_true, not_false_iff] at *
  simp only [Bool.false_eq_true, if_false, if_true]
  omega

theorem unseen_nil_lt : unseen key catalog.rows [] < catalog.fuel :=
  Nat.lt_succ_of_le List.countP_le_length

end Unseen

theorem groupMembers_eq_ok_some_iff {name : Text} {members : List Text} :
    groupMembers catalog name = .ok (some members) ↔
      ∃ row, catalog.byName name = some row ∧ row.appKind = .ok .group ∧ row.members = members := by
  rw [groupMembers]
  cases catalog.byName name with
  | none => simp
  | some row =>
      cases read : row.appKind with
      | error e => simp [Except.map, read]
      | ok kind => cases kind <;> simp [Except.map, read]

theorem nesting_grows {fuel : Nat} {name : Text} {seen seen' : List Text} {depth : Nat}
    (done : Answers (nesting catalog fuel name seen) (depth, seen')) : seen ⊆ seen' := by
  induction fuel generalizing name seen seen' depth with
  | zero => simp [nesting] at done
  | succ fuel ih =>
      rw [nesting] at done
      split at done
      · cases answers_pure.mp done
        exact fun _ mem => mem
      · obtain ⟨found, -, rest⟩ := answers_bind.mp done
        cases found with
        | none =>
            cases answers_pure.mp rest
            exact List.subset_cons_self ..
        | some members =>
            obtain ⟨⟨deepest, after⟩, loop, rest⟩ := answers_bind.mp rest
            cases answers_pure.mp rest
            refine answers_foldlM (fun s => seen ⊆ s.2) ?_ (List.subset_cons_self ..) loop
            rintro ⟨deepest, s⟩ t member - kept turn
            obtain ⟨⟨below, s'⟩, walked, rest⟩ := answers_bind.mp turn
            cases answers_pure.mp rest
            exact List.Subset.trans kept (ih walked)

theorem nesting_returns {fuel : Nat} {name : Text} {seen : List Text}
    (enough : unseen (·.name) catalog.rows seen < fuel) :
    Returns (nesting catalog fuel name seen) := by
  induction fuel generalizing name seen with
  | zero => omega
  | succ fuel ih =>
      rw [nesting]
      split
      · exact returns_pure
      · rename_i fresh
        refine returns_bind returns_of fun found read => ?_
        cases found with
        | none => exact returns_pure
        | some members =>
            obtain ⟨row, isRow, -, -⟩ := groupMembers_eq_ok_some_iff.mp (answers_of.mp read)
            obtain ⟨mem, rfl⟩ := Catalog.byName_eq_some_iff.mp isRow
            have fewer : unseen (·.name) catalog.rows (row.name :: seen) <
                unseen (·.name) catalog.rows seen := unseen_cons_lt mem fresh
            refine returns_bind ?_ fun _ _ => returns_pure
            refine returns_foldlM (fun s => row.name :: seen ⊆ s.2) ?_ ?_ fun _ mem => mem
            · rintro ⟨deepest, s⟩ member - kept
              have less : unseen (·.name) catalog.rows s ≤
                  unseen (·.name) catalog.rows (row.name :: seen) := unseen_le kept
              exact returns_bind (ih (by omega)) fun _ _ => returns_pure
            · rintro ⟨deepest, s⟩ t member - kept turn
              obtain ⟨⟨below, s'⟩, walked, rest⟩ := answers_bind.mp turn
              cases answers_pure.mp rest
              exact List.Subset.trans kept (nesting_grows walked)

section Reaches

variable {walk : Row → List Int → Fueled AppError (Bool × List Int)} {names : List Text}
  {seen seen' : List Int} {found : Bool}

theorem reachesAny_grows
    (grows : ∀ member s found s', Answers (walk member s) (found, s') → s ⊆ s')
    (done : Answers (reachesAny catalog target walk names seen) (found, seen')) : seen ⊆ seen' := by
  induction names generalizing seen with
  | nil =>
      cases answers_pure.mp done
      exact fun _ mem => mem
  | cons name names ih =>
      rw [reachesAny] at done
      split at done
      · cases answers_pure.mp done
        exact fun _ mem => mem
      · split at done
        · exact ih done
        · obtain ⟨kind, -, rest⟩ := answers_bind.mp done
          split at rest
          · obtain ⟨⟨hit, s⟩, walked, rest⟩ := answers_bind.mp rest
            have first := grows _ _ _ _ walked
            cases hit with
            | true =>
                cases answers_pure.mp rest
                exact first
            | false => exact List.Subset.trans first (ih rest)
          · exact ih rest

theorem reaches_grows {fuel : Nat} {group : Row}
    (done : Answers (reaches catalog target fuel group seen) (found, seen')) : seen ⊆ seen' := by
  induction fuel generalizing group seen found seen' with
  | zero => simp [reaches] at done
  | succ fuel ih =>
      rw [reaches] at done
      split at done
      · cases answers_pure.mp done
        exact fun _ mem => mem
      · have loop := reachesAny_grows (fun _ _ _ _ walked => ih walked) done
        exact List.Subset.trans (List.subset_cons_self ..) loop

theorem reachesAny_returns
    (grows : ∀ member s found s', Answers (walk member s) (found, s') → s ⊆ s')
    (returns : ∀ member ∈ catalog.rows, ∀ s, seen ⊆ s → Returns (walk member s)) :
    Returns (reachesAny catalog target walk names seen) := by
  induction names generalizing seen with
  | nil => exact returns_pure
  | cons name names ih =>
      rw [reachesAny]
      split
      · exact returns_pure
      · split
        · exact ih returns
        · rename_i member isRow
          refine returns_bind returns_of fun kind _ => ?_
          split
          · have mem := (Catalog.byName_eq_some_iff.mp isRow).1
            refine returns_bind (returns member mem seen fun _ mem => mem) fun answer walked => ?_
            obtain ⟨hit, s⟩ := answer
            have first := grows _ _ _ _ walked
            cases hit with
            | true => exact returns_pure
            | false => exact ih fun member mem s' kept =>
                returns member mem s' (List.Subset.trans first kept)
          · exact ih returns

theorem reaches_returns {fuel : Nat} {group : Row} (mem : group ∈ catalog.rows)
    (enough : unseen (·.id) catalog.rows seen < fuel) :
    Returns (reaches catalog target fuel group seen) := by
  induction fuel generalizing group seen with
  | zero => omega
  | succ fuel ih =>
      rw [reaches]
      split
      · exact returns_pure
      · rename_i fresh
        have fewer : unseen (·.id) catalog.rows (group.id :: seen) <
            unseen (·.id) catalog.rows seen := unseen_cons_lt mem fresh
        refine reachesAny_returns (fun _ _ _ _ => reaches_grows) fun member mem s kept => ?_
        have less : unseen (·.id) catalog.rows s ≤ unseen (·.id) catalog.rows (group.id :: seen) :=
          unseen_le kept
        exact ih mem (by omega)

end Reaches

theorem validateMember_returns {spec : RepoSpec} {member : Text} :
    Returns (validateMember catalog spec member) := by
  rw [validateMember]
  refine returns_bind (nesting_returns unseen_nil_lt) ?_
  rintro ⟨below, _⟩ -
  dsimp only
  split
  · exact returns_of
  · split
    · exact returns_of
    · rename_i row isRow
      have mem := (Catalog.byName_eq_some_iff.mp isRow).1
      refine returns_bind (reaches_returns mem unseen_nil_lt) ?_
      rintro ⟨found, _⟩ -
      dsimp only
      split
      · exact returns_of
      · exact returns_bind returns_of fun _ _ => returns_bind returns_of fun _ _ => returns_pure

theorem validateSpec_returns {env : Env} {spec : RepoSpec} :
    Returns (validateSpec env catalog spec) := by
  have members : Returns (validateMembers catalog spec) := by
    rw [validateMembers]
    split
    · exact returns_of
    · refine returns_bind (returns_foldlM (fun _ => True) ?_ (fun _ _ _ _ _ _ => trivial) trivial) ?_
      · exact fun _ _ _ _ => returns_bind validateMember_returns fun _ _ => returns_pure
      · intro deepest _
        split
        · exact returns_of
        · exact returns_pure
  rw [validateSpec]
  refine returns_bind returns_of fun _ _ => ?_
  split
  · exact returns_of
  · split
    · exact returns_bind returns_of fun _ _ => returns_of
    · exact returns_of
    · exact returns_bind returns_of fun _ _ => members

theorem step_isSome (env : Env) (catalog : Catalog) (act : Act) :
    (step env catalog act).isSome = true := by
  have returns : Returns (perform env catalog act) := by
    cases act with
    | create spec legacyBytes claimed =>
        refine returns_bind ?_ fun _ _ => returns_pure
        rw [createRepository]
        split
        · exact returns_of
        · refine returns_bind returns_of fun _ _ => ?_
          refine returns_bind validateSpec_returns fun _ _ => ?_
          refine returns_bind returns_of fun lead _ => ?_
          cases lead with
          | none => exact returns_of
          | some lead => exact returns_of
    | update name update purged =>
        refine returns_bind ?_ fun _ _ => returns_pure
        rw [updateRepository]
        refine returns_bind returns_of fun row _ => ?_
        refine returns_bind returns_of fun spec _ => ?_
        refine returns_bind validateSpec_returns fun _ _ => ?_
        exact returns_bind returns_of fun _ _ => returns_of
    | delete name occupied => exact returns_of
  rw [step]
  split
  · rfl
  · rfl
  · rename_i stuck
    rw [Returns, stuck] at returns
    cases returns

/-! ### What `reaches` has seen -/

/-- The member lists of the groups, as the store holds them. -/
def Catalog.kids (catalog : Catalog) (name : Text) : Option (List Text) :=
  (groupMembers catalog name).toOption.join

theorem Catalog.kids_eq_some_iff {name : Text} {members : List Text} :
    catalog.kids name = some members ↔
      ∃ row, catalog.byName name = some row ∧ row.appKind = .ok .group ∧ row.members = members := by
  rw [← groupMembers_eq_ok_some_iff, Catalog.kids]
  cases groupMembers catalog name with
  | error e => simp [Except.toOption]
  | ok found => simp [Except.toOption]

/-- A name that is not the target and, where it is a group, has been entered. -/
def Clear (catalog : Catalog) (target : Text) (seen : List Int) (name : Text) : Prop :=
  name ≠ target ∧
    ∀ row, catalog.byName name = some row → row.appKind = .ok .group → row.id ∈ seen

/-- What a walk that found nothing leaves: every row it entered lists clear names only. -/
structure Explored (catalog : Catalog) (target : Text) (seen seen' : List Int) : Prop where
  grows : seen ⊆ seen'
  done : ∀ row ∈ catalog.rows, row.id ∈ seen' →
    row.id ∈ seen ∨ ∀ name ∈ row.members, Clear catalog target seen' name

section Explored

variable {walk : Row → List Int → Fueled AppError (Bool × List Int)} {names : List Text}
  {seen seen' seen'' : List Int}

theorem Clear.mono {name : Text} (clear : Clear catalog target seen name) (grows : seen ⊆ seen') :
    Clear catalog target seen' name :=
  ⟨clear.1, fun row isRow group => grows (clear.2 row isRow group)⟩

theorem Explored.refl : Explored catalog target seen seen :=
  ⟨fun _ mem => mem, fun _ _ old => .inl old⟩

theorem Explored.trans (first : Explored catalog target seen seen')
    (rest : Explored catalog target seen' seen'') : Explored catalog target seen seen'' where
  grows := List.Subset.trans first.grows rest.grows
  done row mem entered := by
    rcases rest.done row mem entered with before | clear
    · rcases first.done row mem before with old | clear
      · exact .inl old
      · exact .inr fun name listed => (clear name listed).mono rest.grows
    · exact .inr clear

theorem reachesAny_explores
    (walked : ∀ member ∈ catalog.rows, ∀ s s', Answers (walk member s) (false, s') →
      Explored catalog target s s' ∧ member.id ∈ s')
    (done : Answers (reachesAny catalog target walk names seen) (false, seen')) :
    Explored catalog target seen seen' ∧ ∀ name ∈ names, Clear catalog target seen' name := by
  induction names generalizing seen with
  | nil =>
      cases answers_pure.mp done
      exact ⟨.refl, by simp⟩
  | cons name names ih =>
      rw [reachesAny] at done
      split at done
      · cases answers_pure.mp done
      · rename_i other
        split at done
        · rename_i noRow
          obtain ⟨explored, clear⟩ := ih done
          have own : Clear catalog target seen' name := ⟨other, by simp [noRow]⟩
          exact ⟨explored, List.forall_mem_cons.mpr ⟨own, clear⟩⟩
        · rename_i member isRow
          obtain ⟨kind, read, rest⟩ := answers_bind.mp done
          split at rest
          · obtain ⟨⟨hit, s⟩, walk, rest⟩ := answers_bind.mp rest
            cases hit with
            | true => cases answers_pure.mp rest
            | false =>
                have mem := (Catalog.byName_eq_some_iff.mp isRow).1
                obtain ⟨first, entered⟩ := walked member mem _ _ walk
                obtain ⟨explored, clear⟩ := ih rest
                have own : Clear catalog target seen' name := by
                  refine ⟨other, fun row again _ => ?_⟩
                  cases isRow.symm.trans again
                  exact explored.grows entered
                exact ⟨first.trans explored, List.forall_mem_cons.mpr ⟨own, clear⟩⟩
          · rename_i notGroup
            obtain ⟨explored, clear⟩ := ih rest
            have own : Clear catalog target seen' name := by
              refine ⟨other, fun row again group => ?_⟩
              cases isRow.symm.trans again
              cases (answers_of.mp read).symm.trans group
              exact absurd rfl notGroup
            exact ⟨explored, List.forall_mem_cons.mpr ⟨own, clear⟩⟩

theorem reaches_explores {fuel : Nat} {group : Row} (mem : group ∈ catalog.rows)
    (done : Answers (reaches catalog target fuel group seen) (false, seen')) :
    Explored catalog target seen seen' ∧ group.id ∈ seen' := by
  induction fuel generalizing group seen seen' with
  | zero => simp [reaches] at done
  | succ fuel ih =>
      rw [reaches] at done
      split at done
      · rename_i old
        cases answers_pure.mp done
        exact ⟨.refl, old⟩
      · obtain ⟨explored, clear⟩ := reachesAny_explores (fun _ mem _ _ => ih mem) done
        have entered : group.id ∈ seen' := explored.grows List.mem_cons_self
        refine ⟨⟨fun id old => explored.grows (List.mem_cons_of_mem _ old), ?_⟩, entered⟩
        intro row inside met
        rcases explored.done row inside met with before | done
        · rcases List.mem_cons.mp before with same | old
          · -- the group itself: ids are unique, and the loop has cleared what it lists
            cases List.inj_on_of_nodup_map catalog.ids inside mem same
            exact .inr clear
          · exact .inl old
        · exact .inr done

end Explored

theorem not_reached_of_answers {fuel : Nat} {member : Text} {row : Row} {seen : List Int}
    (isRow : catalog.byName member = some row)
    (done : Answers (reaches catalog target fuel row []) (false, seen)) :
    ¬Relation.TransGen (Lists catalog.kids) member target := by
  have mem := (Catalog.byName_eq_some_iff.mp isRow).1
  obtain ⟨explored, entered⟩ := reaches_explores mem done
  have listed : ∀ r ∈ catalog.rows, r.id ∈ seen → ∀ name ∈ r.members,
      Clear catalog target seen name := fun r inside met =>
    (explored.done r inside met).resolve_left (by simp)
  -- everything below the member is clear, by the length of the way to it
  have below : ∀ name, Relation.TransGen (Lists catalog.kids) member name →
      Clear catalog target seen name := by
    intro name way
    induction way with
    | single link =>
        obtain ⟨members, isGroup, inList⟩ := link
        obtain ⟨r, found, -, rfl⟩ := Catalog.kids_eq_some_iff.mp isGroup
        cases isRow.symm.trans found
        exact listed row mem entered _ inList
    | tail _ link ih =>
        obtain ⟨members, isGroup, inList⟩ := link
        obtain ⟨r, found, group, rfl⟩ := Catalog.kids_eq_some_iff.mp isGroup
        have inside := (Catalog.byName_eq_some_iff.mp found).1
        exact listed r inside (ih.2 r found group) _ inList
  exact fun way => (below target way).1 rfl

end OpenCargo.Groups
