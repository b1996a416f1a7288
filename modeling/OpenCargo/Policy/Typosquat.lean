/-
Module: OpenCargo.Policy.Typosquat
Purpose: The rule that names a squat (`policy/rules/typosquat.rs`): the lists of one ecosystem, its top names
  in buckets by their length and their first or last two bytes, and the check that reads four buckets for
  a candidate. The buckets lose no top name within one edit.
Trusted boundary: none
Main exports: Lists.parse, classify, Passes, squats_are_found
-/
import OpenCargo.Policy.Distance
import OpenCargo.Policy.Totals

namespace OpenCargo.Policy

open OpenCargo.Lib

/-! ### The buckets -/

def minWord : Nat := 5

/-- The first and the last two bytes of a name that has five. -/
def bigrams (name : Text) : Option (List UInt8 × List UInt8) :=
  let b := bytesOf name
  if minWord ≤ b.length then some (b.take 2, lasts 2 b) else none

/-- Top names, by their length and their first or last two bytes. -/
structure Pool where
  byPrefix : Nat × List UInt8 → List Text
  bySuffix : Nat × List UInt8 → List Text

namespace Pool

def empty : Pool := ⟨fun _ => [], fun _ => []⟩

def insert (pool : Pool) (name : Text) : Pool :=
  match bigrams name with
  | none => pool
  | some (first, last) =>
      let len := (bytesOf name).length
      { byPrefix := Function.update pool.byPrefix (len, first) (pool.byPrefix (len, first) ++ [name])
        bySuffix := Function.update pool.bySuffix (len, last) (pool.bySuffix (len, last) ++ [name]) }

/-- The top names one edit from `candidate` could come from. -/
def candidates (pool : Pool) (candidate : Text) : List Text :=
  let len := (bytesOf candidate).length
  match bigrams candidate with
  | none => []
  | some (first, last) =>
      pool.byPrefix (len, first) ++ pool.bySuffix (len, last) ++ pool.byPrefix (len + 1, first) ++
        pool.bySuffix (len + 1, last)

end Pool

/-! ### The lists and the check -/

/-- One ecosystem's lists. -/
structure Lists where
  top : List Text
  unscoped : Pool
  scoped_ : Pool
  scopes : List Text
  known : List Text

namespace Lists

/-- The body of the loop over the top names. -/
def file (lists : Lists) (name : Text) : Lists :=
  match scopedName name with
  | some (scope, _) => { lists with scopes := scope :: lists.scopes, scoped_ := lists.scoped_.insert name }
  | none => { lists with unscoped := lists.unscoped.insert name }

/-- `Lists::parse` from the two sets of names, in the order they are gone through. -/
def of (top known : List Text) : Lists := top.foldl file ⟨top, .empty, .empty, [], known⟩

def parse (top known : Text) : Lists := of (names top) (names known)

/-- The pool of one kind of name. -/
def pool (lists : Lists) (isScoped : Bool) : Pool := if isScoped then lists.scoped_ else lists.unscoped

end Lists

/-- The first top name of the pool that is one edit from a candidate. -/
def hitIn (pool : Pool) (full : Text) : Option (Edit × Text) :=
  (pool.candidates full).findSome? fun top => (oneEdit full top).map (·, top)

/-- `classify`: the verdict on a name and its reason. -/
def classify (lists : Lists) (format : Format) (name : Text) : Verdict × Text :=
  let n := normalizeName format name
  let full := n.full
  if full ∈ lists.top then (.pass, "exact match of a top-N name".toList)
  else if full ∈ lists.known then (.pass, "known package, not a squat".toList)
  else
    match n.scope.filter (· ∈ lists.scopes) with
    | some scope => (.pass, "scope @".toList ++ scope ++ " is itself top-N".toList)
    | none =>
        if n.word.length < minWord then (.pass, "too short for a 1-edit comparison".toList)
        else
          match hitIn (lists.pool n.scope.isSome) full with
          | some (edit, top) =>
              (.wouldBlock, edit.asStr ++ " of '".toList ++ top ++ "', not in the top 20 k".toList)
          | none => (.pass, "no top-N name within one edit".toList)

/-! ### What the buckets hold -/

section Buckets

variable {buckets : Pool} {lists : Lists} {name candidate t : Text} {top known more : List Text}

/-- The names whose buckets a candidate reads. -/
structure Near (candidate t : Text) : Prop where
  long : minWord ≤ (bytesOf candidate).length
  length : (bytesOf t).length = (bytesOf candidate).length ∨
    (bytesOf t).length = (bytesOf candidate).length + 1
  bigram : (bytesOf candidate).take 2 = (bytesOf t).take 2 ∨
    lasts 2 (bytesOf candidate) = lasts 2 (bytesOf t)

theorem mem_update_concat {κ α : Type*} [DecidableEq κ] {f : κ → List α} {k k' : κ} {x y : α} :
    x ∈ Function.update f k (f k ++ [y]) k' ↔ x ∈ f k' ∨ (x = y ∧ k' = k) := by
  by_cases same : k' = k
  · subst same
    rw [Function.update_self, List.mem_append, List.mem_singleton]
    simp
  · rw [Function.update_of_ne same]
    simp [same]

theorem bigrams_of_long (long : minWord ≤ (bytesOf name).length) :
    bigrams name = some ((bytesOf name).take 2, lasts 2 (bytesOf name)) := if_pos long

theorem Pool.mem_candidates_insert :
    t ∈ (buckets.insert name).candidates candidate ↔
      t ∈ buckets.candidates candidate ∨ (t = name ∧ Near candidate name) := by
  by_cases long : minWord ≤ (bytesOf candidate).length
  · by_cases long' : minWord ≤ (bytesOf name).length
    · have near : Near candidate name ↔ ((bytesOf name).length = (bytesOf candidate).length ∨
          (bytesOf name).length = (bytesOf candidate).length + 1) ∧
          ((bytesOf candidate).take 2 = (bytesOf name).take 2 ∨
            lasts 2 (bytesOf candidate) = lasts 2 (bytesOf name)) :=
        ⟨fun ⟨_, length, bigram⟩ => ⟨length, bigram⟩, fun ⟨length, bigram⟩ => ⟨long, length, bigram⟩⟩
      simp only [insert, candidates, bigrams_of_long long, bigrams_of_long long', List.mem_append,
        mem_update_concat, Prod.mk.injEq, near]
      have turn : ∀ n : Nat, n = (bytesOf name).length ↔ (bytesOf name).length = n := fun _ => eq_comm
      simp only [turn]
      tauto
    · have far : ¬Near candidate name := fun near => long' (by have := near.length; have := near.long; omega)
      have kept : buckets.insert name = buckets := by rw [insert, bigrams, if_neg long']
      rw [kept]
      simp [far]
  · have none_ : bigrams candidate = none := if_neg long
    have far : ¬Near candidate name := fun near => long near.long
    simp [candidates, none_, far]

theorem Pool.not_mem_candidates_empty : t ∉ Pool.empty.candidates candidate := by
  rw [candidates]
  split
  · exact List.not_mem_nil
  · simp [empty]

theorem Lists.top_foldl :
    (more.foldl file lists).top = lists.top ∧ (more.foldl file lists).known = lists.known := by
  induction more generalizing lists with
  | nil => exact ⟨rfl, rfl⟩
  | cons name more ih =>
      have kept : (file lists name).top = lists.top ∧ (file lists name).known = lists.known := by
        rw [file]
        split <;> exact ⟨rfl, rfl⟩
      rw [List.foldl_cons, ih.1, ih.2]
      exact kept

theorem Lists.mem_scopes_foldl {scope : Text} : scope ∈ (more.foldl file lists).scopes ↔
    scope ∈ lists.scopes ∨ ∃ t ∈ more, (scopedName t).map Prod.fst = some scope := by
  induction more generalizing lists with
  | nil => simp
  | cons name more ih =>
      rw [List.foldl_cons, ih, file]
      cases split : scopedName name with
      | none => simp [split]
      | some parts =>
          rw [List.exists_mem_cons_iff, split, Option.map_some, Option.some.injEq, List.mem_cons,
            eq_comm (a := scope), or_assoc, or_left_comm]

theorem Lists.pool_file {isScoped : Bool} : (file lists name).pool isScoped =
    if (scopedName name).isSome = isScoped then (lists.pool isScoped).insert name else lists.pool isScoped := by
  rw [file]
  cases split : scopedName name <;> cases isScoped <;> rfl

theorem Lists.mem_candidates_foldl {isScoped : Bool} :
    t ∈ ((more.foldl file lists).pool isScoped).candidates candidate ↔
      t ∈ (lists.pool isScoped).candidates candidate ∨
        (t ∈ more ∧ (scopedName t).isSome = isScoped ∧ Near candidate t) := by
  induction more generalizing lists with
  | nil => simp
  | cons name more ih =>
      have filed : t ∈ ((file lists name).pool isScoped).candidates candidate ↔
          t ∈ (lists.pool isScoped).candidates candidate ∨
            (t = name ∧ (scopedName t).isSome = isScoped ∧ Near candidate t) := by
        rw [pool_file]
        split
        · rename_i kind
          rw [Pool.mem_candidates_insert]
          refine or_congr_right (and_congr_right ?_)
          rintro rfl
          exact (and_iff_right kind).symm
        · rename_i other
          refine (or_iff_left ?_).symm
          rintro ⟨rfl, kind, -⟩
          exact other kind
      rw [List.foldl_cons, ih, filed, List.mem_cons]
      tauto

theorem Lists.mem_candidates {isScoped : Bool} :
    t ∈ ((of top known).pool isScoped).candidates candidate ↔
      t ∈ top ∧ (scopedName t).isSome = isScoped ∧ Near candidate t := by
  rw [of, mem_candidates_foldl, or_iff_right]
  cases isScoped
  · exact Pool.not_mem_candidates_empty
  · exact Pool.not_mem_candidates_empty

end Buckets

/-! ### No squat is lost -/

section Squats

variable {candidate t : Text}

theorem length_le_bytesOf (t : Text) : t.length ≤ (bytesOf t).length := by
  induction t with
  | nil => exact Nat.zero_le _
  | cons c t ih =>
      have some_ : 1 ≤ (String.utf8EncodeChar c).length := by
        rw [String.length_utf8EncodeChar]
        exact c.utf8Size_pos
      rw [bytesOf, List.flatMap_cons, List.length_append, List.length_cons]
      rw [bytesOf] at ih
      omega

theorem Normalized.word_le_full (n : Normalized) : n.word.length ≤ (bytesOf n.full).length := by
  refine le_trans ?_ (length_le_bytesOf n.full)
  rw [full]
  split
  · simp only [List.cons_append, List.length_cons, List.length_append]
    omega
  · exact le_rfl

theorem near_of_edit (long : minWord ≤ (bytesOf candidate).length) (edited : (oneEdit candidate t).isSome = true) :
    Near candidate t := by
  obtain ⟨length, bigram⟩ := kept_of_edit edited long
  exact ⟨long, length, bigram⟩

theorem hitIn_isSome_iff {top known : List Text} {isScoped : Bool} (long : minWord ≤ (bytesOf candidate).length) :
    (hitIn ((Lists.of top known).pool isScoped) candidate).isSome = true ↔
      ∃ t ∈ top, (scopedName t).isSome = isScoped ∧ (oneEdit candidate t).isSome = true := by
  rw [hitIn, List.findSome?_isSome_iff]
  simp only [Option.isSome_map, Lists.mem_candidates]
  constructor
  · rintro ⟨t, ⟨listed, kind, -⟩, edited⟩
    exact ⟨t, listed, kind, edited⟩
  · rintro ⟨t, listed, kind, edited⟩
    exact ⟨t, ⟨listed, kind, near_of_edit long edited⟩, edited⟩

/-- Why a name passes before it is compared. -/
inductive Passes (top known : List Text) (n : Normalized) : Prop where
  | exact_ (listed : n.full ∈ top)
  | known (listed : n.full ∈ known)
  | scope {scope t : Text} (own : n.scope = some scope) (listed : t ∈ top)
      (theirs : (scopedName t).map Prod.fst = some scope)
  | short (few : n.word.length < minWord)

theorem classify_eq_wouldBlock_iff {lists : Lists} {format : Format} {name : Text} {n : Normalized}
    (normal : normalizeName format name = n) :
    (classify lists format name).1 = .wouldBlock ↔
      n.full ∉ lists.top ∧ n.full ∉ lists.known ∧ (∀ scope ∈ n.scope, scope ∉ lists.scopes) ∧
        minWord ≤ n.word.length ∧ (hitIn (lists.pool n.scope.isSome) n.full).isSome = true := by
  rw [classify, normal]
  by_cases exact_ : n.full ∈ lists.top
  · simp [exact_]
  · by_cases known_ : n.full ∈ lists.known
    · simp [exact_, known_]
    · rw [and_iff_right exact_, and_iff_right known_]
      simp only [if_neg exact_, if_neg known_]
      split
      · rename_i scope taken
        obtain ⟨own, mem⟩ := Option.filter_eq_some_iff.mp taken
        simp only [reduceCtorEq, false_iff]
        exact fun held => held.1 scope own (of_decide_eq_true mem)
      · rename_i free
        have own : ∀ scope ∈ n.scope, scope ∉ lists.scopes := by
          intro scope own mem
          simp [Option.mem_def.mp own, mem] at free
        by_cases short : n.word.length < minWord
        · simp [short]
        · have long := Nat.not_lt.mp short
          rw [if_neg short, and_iff_right own, and_iff_right long]
          split
          · rename_i hit
            simp [hit]
          · rename_i hit
            simp [hit]

/-- A name is called a squat exactly where no condition lets it pass and some top name of its kind is one
edit away; and an edit is one byte for another that marks no family, two different neighbours swapped, or
one separator left out. -/
theorem squats_are_found (top known : List Text) :
    (∀ format name, (classify (.of top known) format name).1 = .wouldBlock ↔
      ¬Passes top known (normalizeName format name) ∧
        ∃ t ∈ top, (scopedName t).isSome = (normalizeName format name).scope.isSome ∧
          (oneEdit (normalizeName format name).full t).isSome = true) ∧
    ∀ candidate t, (oneEdit candidate t).isSome = true ↔
      Substituted (bytesOf candidate) (bytesOf t) ∨ Transposed (bytesOf candidate) (bytesOf t) ∨
        Dropped (bytesOf candidate) (bytesOf t) := by
  refine ⟨fun format name => ?_, fun _ _ => editOf_isSome_iff⟩
  have listed : (Lists.of top known).top = top := Lists.top_foldl.1
  have listed' : (Lists.of top known).known = known := Lists.top_foldl.2
  have scopes : ∀ scope, scope ∈ (Lists.of top known).scopes ↔
      ∃ t ∈ top, (scopedName t).map Prod.fst = some scope := by
    intro scope
    rw [Lists.of, Lists.mem_scopes_foldl]
    simp
  rw [classify_eq_wouldBlock_iff rfl, listed, listed']
  generalize normalizeName format name = n
  constructor
  · rintro ⟨exact_, known_, free, long, hit⟩
    refine ⟨?_, (hitIn_isSome_iff (long.trans n.word_le_full)).mp hit⟩
    rintro (mem | mem | ⟨own, theirs, same⟩ | few)
    · exact exact_ mem
    · exact known_ mem
    · exact free _ own ((scopes _).mpr ⟨_, theirs, same⟩)
    · exact absurd few (Nat.not_lt.mpr long)
  · rintro ⟨stays, squat⟩
    have long : minWord ≤ n.word.length := Nat.not_lt.mp fun few => stays (.short few)
    refine ⟨fun mem => stays (.exact_ mem), fun mem => stays (.known mem), fun scope own mem => ?_, long,
      (hitIn_isSome_iff (long.trans n.word_le_full)).mpr squat⟩
    obtain ⟨t, theirs, same⟩ := (scopes scope).mp mem
    exact stays (.scope own theirs same)

example : classify (.parse "# top\nlodash\nreact-dom\n".toList []) .npm "lodask".toList =
    (.wouldBlock, "substitution of 'lodash', not in the top 20 k".toList) := by decide +kernel

end Squats

end OpenCargo.Policy
