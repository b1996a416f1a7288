/-
Module: OpenCargo.Groups.Nesting
Purpose: How deep the groups below a name are stacked, over the rows and the entries a seed has pending
  (`app/repo_spec.rs`), and when the measure is the real one: the walk shares what it has seen between
  the members, so a stack through a group that an earlier member has led to is not measured.
Trusted boundary: none
Main exports: Catalog.kidsWith, nestingWith_visits, LongestFrom, nesting_is_longest_iff
-/
import OpenCargo.Groups.Walks
import OpenCargo.Lib.FirstVisit

namespace OpenCargo.Groups

open OpenCargo.Lib (Fueled Stack Acyclic Visits Unshadowed Settled)
open OpenCargo.Lib.Fueled (Answers answers_pure answers_of answers_bind outOfFuel)

/-- An entry of the seed that is not a row yet. -/
structure Pending where
  name : Text
  format : Format
  kind : RepoKind
  members : List Text
deriving Repr, DecidableEq, Inhabited

/-- The member list of a group; a row wins over a pending entry. -/
def membersOf (catalog : Catalog) (pending : List Pending) (name : Text) : Except AppError (Option (List Text)) :=
  match catalog.byName name with
  | some row => row.appKind.map fun kind => if kind = .group then some row.members else none
  | none =>
      match pending.find? (·.name == name) with
      | some p => .ok (if p.kind = .group then some p.members else none)
      | none => .ok none

/-- `nesting`: groups stacked below `name`, itself included; a name met before counts nothing. -/
def nestingWith (catalog : Catalog) (pending : List Pending) :
    Nat → Text → List Text → Fueled AppError (Nat × List Text)
  | 0, _, _ => outOfFuel
  | fuel + 1, name, seen => do
      if name ∈ seen then
        pure (0, seen)
      else
        match ← Fueled.of (membersOf catalog pending name) with
        | none => pure (0, name :: seen)
        | some members =>
            let (deepest, seen) ← members.foldlM (fun (deepest, seen) member => do
              let (below, seen) ← nestingWith catalog pending fuel member seen
              pure (max deepest below, seen)) (0, name :: seen)
            pure (deepest + 1, seen)

section Walk

variable {catalog : Catalog} {pending : List Pending} {name : Text} {seen seen' : List Text} {fuel depth : Nat}

/-- The member lists of the groups, stored and pending. -/
def Catalog.kidsWith (catalog : Catalog) (pending : List Pending) (name : Text) : Option (List Text) :=
  (membersOf catalog pending name).toOption.join

theorem kidsWith_of_membersOf {found : Option (List Text)} (read : membersOf catalog pending name = .ok found) :
    catalog.kidsWith pending name = found := by
  rw [Catalog.kidsWith, read]
  rfl

theorem membersOf_of_kidsWith {members : List Text} (lists : catalog.kidsWith pending name = some members) :
    membersOf catalog pending name = .ok (some members) := by
  rw [Catalog.kidsWith] at lists
  cases read : membersOf catalog pending name with
  | error e =>
      rw [read] at lists
      cases lists
  | ok found =>
      rw [read] at lists
      exact congrArg Except.ok lists

theorem nestingWith_visits (done : Answers (nestingWith catalog pending fuel name seen) (depth, seen')) :
    Visits (catalog.kidsWith pending) seen [name] depth seen' := by
  induction fuel generalizing name seen seen' depth with
  | zero => simp [nestingWith] at done
  | succ fuel ih =>
      have loop : ∀ (members : List Text) (start : Nat × List Text) (deepest : Nat) (after : List Text),
          Answers (members.foldlM (fun (deepest, seen) member => do
            let (below, seen) ← nestingWith catalog pending fuel member seen
            pure (max deepest below, seen)) start) (deepest, after) →
          ∃ n, deepest = max start.1 n ∧ Visits (catalog.kidsWith pending) start.2 members n after := by
        intro members
        induction members with
        | nil =>
            intro start deepest after done
            cases answers_pure.mp done
            exact ⟨0, (Nat.max_zero _).symm, .nil⟩
        | cons member members ihMembers =>
            rintro ⟨deepest₀, seen₀⟩ deepest after done
            rw [List.foldlM_cons] at done
            obtain ⟨⟨deepest₁, seen₁⟩, turn, rest⟩ := answers_bind.mp done
            obtain ⟨⟨below, s⟩, walked, same⟩ := answers_bind.mp turn
            cases answers_pure.mp same
            obtain ⟨n, rfl, visits⟩ := ihMembers _ _ _ rest
            exact ⟨max below n, Nat.max_assoc .., (ih walked).append visits⟩
      rw [nestingWith] at done
      split at done
      · rename_i met
        cases answers_pure.mp done
        exact .old met .nil
      · rename_i fresh
        obtain ⟨found, read, rest⟩ := answers_bind.mp done
        have kids := kidsWith_of_membersOf (answers_of.mp read)
        cases found with
        | none =>
            cases answers_pure.mp rest
            exact .leaf fresh kids .nil
        | some members =>
            obtain ⟨⟨deepest, after⟩, walked, rest⟩ := answers_bind.mp rest
            cases answers_pure.mp rest
            obtain ⟨n, same, visits⟩ := loop members _ _ _ walked
            rw [Nat.zero_max] at same
            cases same
            have whole : Visits (catalog.kidsWith pending) seen [name] (max (deepest + 1) 0) seen' :=
              .node fresh kids visits .nil
            simpa using whole

/-! ### The walk answers -/

/-- Every name the walk can go down from. -/
def nodeNames (catalog : Catalog) (pending : List Pending) : List Text :=
  catalog.rows.map (·.name) ++ pending.map (·.name)

theorem mem_nodeNames {members : List Text} (read : membersOf catalog pending name = .ok (some members)) :
    name ∈ nodeNames catalog pending := by
  rw [membersOf] at read
  split at read
  · rename_i row isRow
    obtain ⟨mem, rfl⟩ := Catalog.byName_eq_some_iff.mp isRow
    exact List.mem_append_left _ (List.mem_map_of_mem mem)
  · split at read
    · rename_i p isPending
      obtain rfl : p.name = name := by simpa using List.find?_some isPending
      exact List.mem_append_right _ (List.mem_map_of_mem (List.mem_of_find?_eq_some isPending))
    · cases read

/-- How many names the walk has not met. -/
def unmet (catalog : Catalog) (pending : List Pending) (seen : List Text) : Nat :=
  (nodeNames catalog pending).countP (· ∉ seen)

theorem unmet_le (grows : seen ⊆ seen') : unmet catalog pending seen' ≤ unmet catalog pending seen := by
  refine List.countP_mono_left fun name _ fresh => ?_
  have fresh : name ∉ seen' := by simpa using fresh
  simpa using fun old => fresh (grows old)

theorem unmet_cons_lt (mem : name ∈ nodeNames catalog pending) (fresh : name ∉ seen) :
    unmet catalog pending (name :: seen) < unmet catalog pending seen := by
  obtain ⟨before, after, whole⟩ := List.append_of_mem mem
  have fewer : ∀ names : List Text, names.countP (· ∉ name :: seen) ≤ names.countP (· ∉ seen) := by
    refine fun names => List.countP_mono_left fun other _ fresh => ?_
    have fresh : other ∉ name :: seen := by simpa using fresh
    simpa using fun old => fresh (List.mem_cons_of_mem _ old)
  have one := fewer before
  have two := fewer after
  rw [unmet, unmet, whole, List.countP_append, List.countP_append, List.countP_cons_of_neg (by simp),
    List.countP_cons_of_pos (by simpa using fresh)]
  omega

/-- Every row says what kind it is. -/
def Catalog.Typed (catalog : Catalog) : Prop := ∀ row ∈ catalog.rows, ∃ kind, row.appKind = .ok kind

theorem membersOf_answers (typed : catalog.Typed) (name : Text) :
    ∃ found, membersOf catalog pending name = .ok found := by
  rw [membersOf]
  split
  · rename_i row isRow
    obtain ⟨kind, read⟩ := typed row (Catalog.byName_eq_some_iff.mp isRow).1
    exact ⟨_, by rw [read]; rfl⟩
  · split
    · exact ⟨_, rfl⟩
    · exact ⟨_, rfl⟩

/-- A call for every name, and one more, is enough. -/
def seedFuel (catalog : Catalog) (pending : List Pending) : Nat := (nodeNames catalog pending).length + 1

theorem nestingWith_answers (typed : catalog.Typed) (enough : unmet catalog pending seen < fuel) :
    ∃ depth seen', Answers (nestingWith catalog pending fuel name seen) (depth, seen') := by
  induction fuel generalizing name seen with
  | zero => omega
  | succ fuel ih =>
      rw [nestingWith]
      split
      · exact ⟨_, _, answers_pure.mpr rfl⟩
      · rename_i fresh
        obtain ⟨found, read⟩ : ∃ found, membersOf catalog pending name = .ok found := membersOf_answers typed name
        cases found with
        | none => exact ⟨_, _, answers_bind.mpr ⟨none, answers_of.mpr read, answers_pure.mpr rfl⟩⟩
        | some members =>
            have fewer := unmet_cons_lt (mem_nodeNames read) fresh
            have loop : ∀ (members : List Text) (start : Nat × List Text), name :: seen ⊆ start.2 →
                ∃ deepest after, Answers (members.foldlM (fun (deepest, seen) member => do
                  let (below, seen) ← nestingWith catalog pending fuel member seen
                  pure (max deepest below, seen)) start) (deepest, after) := by
              intro members
              induction members with
              | nil => exact fun start _ => ⟨_, _, answers_pure.mpr rfl⟩
              | cons member members ihMembers =>
                  rintro ⟨deepest, s⟩ kept
                  have less : unmet catalog pending s ≤ unmet catalog pending (name :: seen) := unmet_le kept
                  obtain ⟨below, s', walked⟩ : ∃ below s', Answers (nestingWith catalog pending fuel member s)
                      (below, s') := ih (by omega)
                  obtain ⟨deepest', after, rest⟩ :=
                    ihMembers (max deepest below, s') (List.Subset.trans kept (nestingWith_visits walked).grows)
                  refine ⟨deepest', after, ?_⟩
                  rw [List.foldlM_cons, answers_bind]
                  exact ⟨_, answers_bind.mpr ⟨_, walked, answers_pure.mpr rfl⟩, rest⟩
            obtain ⟨deepest, after, walked⟩ := loop members (0, name :: seen) (List.Subset.refl _)
            refine ⟨deepest + 1, after, answers_bind.mpr ⟨some members, answers_of.mpr read, ?_⟩⟩
            exact answers_bind.mpr ⟨(deepest, after), walked, answers_pure.mpr rfl⟩

/-! ### When the measure is the real one -/

/-- The longest stack of groups that starts with `name` has `depth` of them; with none there is no stack but
the empty one. -/
def LongestFrom (kids : Text → Option (List Text)) (name : Text) (depth : Nat) : Prop :=
  (∀ stack, Stack kids stack → (∀ a ∈ stack.head?, a = name) → stack.length ≤ depth) ∧
    ∃ stack, Stack kids stack ∧ (∀ a ∈ stack.head?, a = name) ∧ stack.length = depth

theorem stack_of_unshadowed {kids : Text → Option (List Text)} {stack : List Text}
    (open_ : Unshadowed kids [name] stack) : Stack kids stack ∧ ∀ a ∈ stack.head?, a = name := by
  obtain ⟨held, first⟩ := open_.stack
  exact ⟨held, fun a isHead => List.mem_singleton.mp (first a isHead)⟩

/-- The measure is the length of the longest stack exactly where some longest stack is met whole: nothing
listed before the next group of it leads there or further down. -/
theorem nesting_is_longest_iff (typed : catalog.Typed) (acyclic : Acyclic (catalog.kidsWith pending)) :
    (∃ depth seen, Answers (nestingWith catalog pending (seedFuel catalog pending) name []) (depth, seen) ∧
      LongestFrom (catalog.kidsWith pending) name depth) ↔
      ∃ stack, Unshadowed (catalog.kidsWith pending) [name] stack ∧
        ∀ other, Stack (catalog.kidsWith pending) other → (∀ a ∈ other.head?, a = name) →
          other.length ≤ stack.length := by
  have enough : unmet catalog pending [] < seedFuel catalog pending :=
    Nat.lt_succ_of_le List.countP_le_length
  obtain ⟨depth, seen, done⟩ : ∃ depth seen,
      Answers (nestingWith catalog pending (seedFuel catalog pending) name []) (depth, seen) :=
    nestingWith_answers typed enough
  have settled : Settled (catalog.kidsWith pending) [] [name] := fun v met => absurd met List.not_mem_nil
  obtain ⟨upper, measured, open_, -, long⟩ := (nestingWith_visits done).longest acyclic settled
  constructor
  · rintro ⟨depth', seen', done', longest⟩
    cases done.symm.trans done'
    exact ⟨measured, open_, fun other held first => long ▸ longest.1 other held first⟩
  · rintro ⟨stack, whole, longest⟩
    have short := upper stack whole fun x _ => List.not_mem_nil
    have same : stack.length = depth := by
      have less := longest measured (stack_of_unshadowed open_).1 (stack_of_unshadowed open_).2
      omega
    obtain ⟨held, first⟩ := stack_of_unshadowed whole
    exact ⟨depth, seen, done, fun other held first => same ▸ longest other held first, stack, held, first, same⟩

end Walk

/-! ### A shared member -/

def npmRow (id : Int) (name : String) (members : List String) : Row where
  id := id
  name := name.toList
  repoType := (if members.isEmpty then RepoKind.hosted else .group).asStr
  format := Format.npm.asStr
  visibility := .private_
  config := some ⟨members.map String.toList⟩
  upstreamUrl := none

/-- `a` on `c` on `h`. -/
def stacked : Catalog :=
  ⟨[npmRow 1 "h" [], npmRow 2 "c" ["h"], npmRow 3 "a" ["c"]], 3, by decide, by decide, by decide⟩

/-- `g`, which lists `c` before the group on it. -/
def shared : List Pending := [⟨"g".toList, .npm, .group, ["c".toList, "a".toList]⟩]

theorem stacked_typed : stacked.Typed := by
  have kinds : ∀ row ∈ stacked.rows, row.appKind = .ok .hosted ∨ row.appKind = .ok .group := by decide
  intro row mem
  rcases kinds row mem with hosted | group
  · exact ⟨_, hosted⟩
  · exact ⟨_, group⟩

theorem stacked_acyclic : Acyclic (stacked.kidsWith shared) := by
  refine .of_rank (fun name => ["h", "c", "a", "g"].idxOf (String.ofList name)) fun a b link => ?_
  have falls : ∀ a ∈ nodeNames stacked shared, ∀ b ∈ (stacked.kidsWith shared a).getD [],
      ["h", "c", "a", "g"].idxOf (String.ofList b) < ["h", "c", "a", "g"].idxOf (String.ofList a) := by
    decide +kernel
  obtain ⟨members, lists, mem⟩ := link
  exact falls a (mem_nodeNames (membersOf_of_kidsWith lists)) b (by rw [lists]; exact mem)

theorem stacked_kids : stacked.kidsWith shared "a".toList = some ["c".toList] ∧
    stacked.kidsWith shared "c".toList = some ["h".toList] ∧ stacked.kidsWith shared "h".toList = none := by
  decide +kernel

theorem eq_of_lists_singleton {kids : Text → Option (List Text)} {a b m : Text} (lists : kids a = some [b])
    (link : Lib.Lists kids a m) : m = b := by
  obtain ⟨listed, given, mem⟩ := link
  rw [lists] at given
  cases given
  exact List.mem_singleton.mp mem

theorem stacked_nesting_is_longest : ∃ depth seen,
    Answers (nestingWith stacked shared (seedFuel stacked shared) "a".toList []) (depth, seen) ∧
      LongestFrom (stacked.kidsWith shared) "a".toList depth := by
  refine (nesting_is_longest_iff stacked_typed stacked_acyclic).mpr ⟨["a".toList, "c".toList], ?_, ?_⟩
  · have lower : Unshadowed (stacked.kidsWith shared) ([] ++ "c".toList :: []) ["c".toList] :=
      .cons stacked_kids.2.1 .nil (by simp)
    have whole : Unshadowed (stacked.kidsWith shared) ([] ++ "a".toList :: []) ["a".toList, "c".toList] :=
      .cons stacked_kids.1 lower (by simp)
    exact whole
  · intro other held first
    match other, held, first with
    | [], _, _ => exact Nat.zero_le _
    | [_], _, _ => exact Nat.le_succ 1
    | [_, _], _, _ => exact Nat.le_refl _
    | x :: y :: z :: rest, held, first =>
        obtain rfl : x = "a".toList := first x rfl
        obtain ⟨link, below⟩ := List.isChain_cons_cons.mp held.listed
        obtain ⟨link', -⟩ := List.isChain_cons_cons.mp below
        obtain rfl := eq_of_lists_singleton stacked_kids.1 link
        obtain rfl := eq_of_lists_singleton stacked_kids.2.1 link'
        have node := held.nodes "h".toList (by simp)
        rw [stacked_kids.2.2] at node
        cases node

/-- Under `g` are three groups, and the walk, which comes to `c` first, measures two. -/
theorem shared_member_is_not_measured : ¬ ∃ depth seen,
    Answers (nestingWith stacked shared (seedFuel stacked shared) "g".toList []) (depth, seen) ∧
      LongestFrom (stacked.kidsWith shared) "g".toList depth := by
  rintro ⟨depth, seen, done, longest⟩
  have measured : (nestingWith stacked shared (seedFuel stacked shared) "g".toList []).run =
      some (.ok (2, ["a".toList, "h".toList, "c".toList, "g".toList])) := by decide +kernel
  cases measured.symm.trans done
  have held : Stack (stacked.kidsWith shared) ["g".toList, "a".toList, "c".toList] := by decide +kernel
  have long := longest.1 _ held (by decide)
  exact absurd long (by decide)

end OpenCargo.Groups
