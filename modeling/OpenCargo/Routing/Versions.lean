/-
Module: OpenCargo.Routing.Versions
Purpose: What a version of the routing snapshot names. A refresh reads the version and the rules in two
  statements; where no write is committed between the two, any two sets installed under one version are
  the same set.
Trusted boundary: `rulesOf`, the rules of each format, is a parameter nothing is asked of
Main exports: Unmoved, Labelled, unmoved_versions_name_one_set
-/
import OpenCargo.Routing.Registry

namespace OpenCargo.Routing

open OpenCargo.Lib

/-! ### What one step does -/

section Step

variable {rulesOf : Format → Except DomainError FormatRules} {node after : Node} {act : Act}

theorem step_table (taken : step rulesOf node act = some after) :
    (after.table = node.table ∧ after.committed = node.committed) ∨
      ∃ write : RuleWrite, write.commit node.table = .ok after.table ∧
        after.committed = after.table :: node.committed := by
  cases act with
  | commit write =>
      simp only [Routing.step] at taken
      split at taken
      case h_1 table done =>
        cases taken
        exact .inr ⟨write, done, rfl⟩
      case h_2 => cases taken
  | administer id write =>
      simp only [Routing.step] at taken
      split at taken
      case isTrue =>
        split at taken
        case h_1 table done =>
          cases taken
          exact .inr ⟨write, done, rfl⟩
        case h_2 => cases taken
      case isFalse => cases taken
  | _ =>
      simp only [Routing.step] at taken
      repeat' split at taken
      all_goals first
        | (cases taken; exact .inl ⟨rfl, rfl⟩)
        | cases taken

theorem set_compiled {id at_ : Nat} {task : Option Refresh} {write : Option Nat} {set : RouteSet}
    (found : (node.set id task).refreshes at_ = some ⟨write, .compiled set⟩) :
    node.refreshes at_ = some ⟨write, .compiled set⟩ ∨
      at_ = id ∧ task = some ⟨write, .compiled set⟩ := by
  by_cases same : at_ = id
  · subst same
    right
    exact ⟨rfl, by simpa [Node.set] using found⟩
  · left
    simpa [Node.set, Function.update_of_ne same] using found

theorem step_compiled (taken : step rulesOf node act = some after) {id : Nat} {write : Option Nat}
    {set : RouteSet} (found : after.refreshes id = some ⟨write, .compiled set⟩) :
    node.refreshes id = some ⟨write, .compiled set⟩ ∨
      ∃ version, act = .readRules id ∧ node.refreshes id = some ⟨write, .versioned version⟩ ∧
        compile rulesOf node.table.all version = .ok set := by
  cases act with
  | commit other =>
      simp only [Routing.step] at taken
      split at taken
      · cases taken
        exact .inl found
      · cases taken
  | administer at_ other =>
      simp only [Routing.step] at taken
      split at taken
      · split at taken
        · cases taken
          rcases set_compiled found with old | ⟨_, new⟩
          · exact .inl old
          · cases new
        · cases taken
      · cases taken
  | readRules at_ =>
      simp only [Routing.step] at taken
      split at taken
      case h_1 earlier version before =>
        split at taken
        case h_1 compiled done =>
          cases taken
          rcases set_compiled found with old | ⟨rfl, new⟩
          · exact .inl old
          · cases new
            exact .inr ⟨version, rfl, before, done⟩
        case h_2 => cases taken
      case h_2 => cases taken
  | _ =>
      simp only [Routing.step] at taken
      repeat' split at taken
      all_goals first
        | cases taken
          rcases set_compiled found with old | ⟨_, new⟩
          · exact .inl old
          · cases new
        | cases taken

theorem step_installed (taken : step rulesOf node act = some after) {set : RouteSet}
    (mem : set ∈ after.installed) :
    set ∈ node.installed ∨ ∃ id write, node.refreshes id = some ⟨write, .compiled set⟩ := by
  cases act with
  | install id =>
      simp only [Routing.step] at taken
      split at taken
      case h_1 write compiled found =>
        cases taken
        rcases List.mem_cons.mp mem with rfl | old
        · exact .inr ⟨id, write, found⟩
        · exact .inl old
      case h_2 => cases taken
  | _ =>
      simp only [Routing.step] at taken
      repeat' split at taken
      all_goals first
        | (cases taken; exact .inl mem)
        | cases taken

end Step

/-! ### One version, one set -/

/-- A refresh reads the rules of the version it read: when it reads them, the store's version is still
that one. -/
def Unmoved (node : Node) (act : Act) (_ : Node) : Prop :=
  match act with
  | .readRules id => ∀ write version, node.refreshes id = some ⟨write, .versioned version⟩ →
      node.table.version = version
  | _ => True

variable {rulesOf : Format → Except DomainError FormatRules}

/-- The set is compiled from the table that had its version. -/
def Node.Names (rulesOf : Format → Except DomainError FormatRules) (node : Node) (set : RouteSet) :
    Prop :=
  ∃ table ∈ node.committed, table.version = set.version ∧
    compile rulesOf table.all set.version = .ok set

/-- Every version the table has had names one table, and every set that was read is the one its version
names. -/
structure Labelled (rulesOf : Format → Except DomainError FormatRules) (node : Node) : Prop where
  current : node.table ∈ node.committed
  latest : ∀ table ∈ node.committed, table.version ≤ node.table.version
  one : ∀ a ∈ node.committed, ∀ b ∈ node.committed, a.version = b.version → a = b
  compiled : ∀ id write set, node.refreshes id = some ⟨write, .compiled set⟩ →
    node.Names rulesOf set
  installed : ∀ set ∈ node.installed, node.Names rulesOf set

theorem labelled_boot (table : RuleTable) : Labelled rulesOf (boot table) where
  current := List.mem_cons_self
  latest := by
    intro other mem
    rw [List.mem_singleton.mp mem]
    exact le_refl _
  one := by
    intro a left b right _
    rw [List.mem_singleton.mp left, List.mem_singleton.mp right]
  compiled := nofun
  installed := nofun

theorem Node.Names.mono {node after : Node} {set : RouteSet} (names : node.Names rulesOf set)
    (grown : ∀ table ∈ node.committed, table ∈ after.committed) : after.Names rulesOf set := by
  obtain ⟨table, mem, rest⟩ := names
  exact ⟨table, grown table mem, rest⟩

theorem Labelled.grown {node after : Node} {act : Act}
    (taken : step rulesOf node act = some after) : ∀ table ∈ node.committed, table ∈ after.committed := by
  intro table mem
  rcases step_table taken with ⟨_, same⟩ | ⟨_, _, same⟩
  · rw [same]
    exact mem
  · rw [same]
    exact List.mem_cons_of_mem _ mem

theorem Labelled.history {node after : Node} {act : Act} (labelled : Labelled rulesOf node)
    (taken : step rulesOf node act = some after) :
    after.table ∈ after.committed ∧
      (∀ table ∈ after.committed, table.version ≤ after.table.version) ∧
      ∀ a ∈ after.committed, ∀ b ∈ after.committed, a.version = b.version → a = b := by
  rcases step_table taken with ⟨table, history⟩ | ⟨write, done, history⟩
  · rw [table, history]
    exact ⟨labelled.current, labelled.latest, labelled.one⟩
  · rw [history]
    rcases RuleWrite.commit_moves done with same | moved
    · rw [same]
      have among : ∀ other ∈ node.table :: node.committed, other ∈ node.committed := by
        intro other mem
        rcases List.mem_cons.mp mem with rfl | old
        · exact labelled.current
        · exact old
      refine ⟨List.mem_cons_self, fun other mem => labelled.latest other (among other mem), ?_⟩
      exact fun a left b right => labelled.one a (among a left) b (among b right)
    · have below : ∀ other ∈ node.committed, other.version < after.table.version :=
        fun other mem => lt_of_le_of_lt (labelled.latest other mem) moved
      refine ⟨List.mem_cons_self, ?_, ?_⟩
      · intro other mem
        rcases List.mem_cons.mp mem with rfl | old
        · exact le_refl _
        · exact (below other old).le
      · intro a left b right same
        rcases List.mem_cons.mp left with rfl | older
        · rcases List.mem_cons.mp right with rfl | old
          · rfl
          · exact absurd same (below b old).ne'
        · rcases List.mem_cons.mp right with rfl | old
          · exact absurd same (below a older).ne
          · exact labelled.one a older b old same

theorem Labelled.step {node after : Node} {act : Act} (labelled : Labelled rulesOf node)
    (taken : Routing.step rulesOf node act = some after) (unmoved : Unmoved node act after) :
    Labelled rulesOf after := by
  obtain ⟨current, latest, one⟩ := labelled.history taken
  refine ⟨current, latest, one, ?_, ?_⟩
  · intro id write set found
    rcases step_compiled taken found with old | ⟨version, rfl, before, compiled⟩
    · exact (labelled.compiled id write set old).mono (Labelled.grown taken)
    · have label := compile_version compiled
      refine Node.Names.mono ⟨node.table, labelled.current, ?_, ?_⟩ (Labelled.grown taken)
      · rw [label]
        exact unmoved write version before
      · rw [label]
        exact compiled
  · intro set mem
    rcases step_installed taken mem with old | ⟨id, write, found⟩
    · exact (labelled.installed set old).mono (Labelled.grown taken)
    · exact (labelled.compiled id write set found).mono (Labelled.grown taken)

/-- Where no write is committed between the two statements of a refresh, a version names one rule set:
any two sets that are ever installed under one version are the same. -/
theorem unmoved_versions_name_one_set {table : RuleTable} {acts : List Act} {node : Node}
    (run : Run (step rulesOf) Unmoved (boot table) acts node) {a b : RouteSet}
    (first : a ∈ node.installed) (second : b ∈ node.installed) (same : a.version = b.version) :
    a = b := by
  have labelled : Labelled rulesOf node :=
    run.invariant (Labelled rulesOf) (labelled_boot table) fun _ _ _ before taken unmoved =>
      before.step taken unmoved
  obtain ⟨left, mem, versionA, compiledA⟩ := labelled.installed a first
  obtain ⟨right, other, versionB, compiledB⟩ := labelled.installed b second
  have shared : left = right := labelled.one left mem right other (by rw [versionA, versionB, same])
  rw [shared, same, compiledB] at compiledA
  exact (Except.ok.inj compiledA).symm

/-! ### Two refreshes -/

/-- When a refresh reads the rules, the version it read is the store's. -/
def unmoved (node : Node) : Act → Bool
  | .readRules id =>
      match node.refreshes id with
      | some ⟨_, .versioned version⟩ => node.table.version == version
      | _ => true
  | _ => true

theorem unmoved_iff {node after : Node} {act : Act} :
    unmoved node act = true ↔ Unmoved node act after := by
  cases act with
  | readRules id =>
      simp only [unmoved, Unmoved]
      split
      case h_1 write version found =>
        rw [beq_iff_eq]
        constructor
        · intro same other at_ here
          rw [found] at here
          cases here
          exact same
        · exact fun all => all write version found
      case h_2 other =>
        exact ⟨fun _ write version found => absurd found (other write version), fun _ => rfl⟩
  | _ => simp [unmoved, Unmoved]

instance (node : Node) (act : Act) (after : Node) : Decidable (Unmoved node act after) :=
  decidable_of_iff _ unmoved_iff

/-- `load`, then an administrator's create, whose own refresh installs it, then the timer's. -/
def loadedAndCreated : List Act :=
  [.tick 0, .readVersion 0, .readRules 0, .install 0, .answer 0,
   .administer 1 (.create closing 0), .readVersion 1, .readRules 1, .install 1, .answer 1,
   .tick 2, .readVersion 2, .readRules 2, .install 2]

/-- The versions and the sizes of what was installed, the latest first. -/
def Node.labels (node : Node) : List (Nat × Nat) :=
  node.installed.map fun set => (set.version, set.rules.length)

theorem quiet_refreshes_agree :
    ∃ node a b, Run (step fun _ => .ok exactRules) Unmoved (boot .migrated) loadedAndCreated node ∧
      a ∈ node.installed ∧ b ∈ node.installed ∧ a.version = 2 ∧ b.version = 2 ∧ a = b := by
  obtain ⟨node, run, test⟩ := Run.of_test (step fun _ => .ok exactRules) Unmoved (boot .migrated)
    loadedAndCreated (fun node => node.labels == [(2, 1), (2, 1), (1, 0)]) (by decide +kernel)
  obtain ⟨a, rest, found, first, others⟩ := List.map_eq_cons_iff.mp (beq_iff_eq.mp test)
  obtain ⟨b, _, rfl, second, _⟩ := List.map_eq_cons_iff.mp others
  have here : a ∈ node.installed ∧ b ∈ node.installed := by
    rw [found]
    simp
  have versions : a.version = 2 ∧ b.version = 2 :=
    ⟨congrArg Prod.fst first, congrArg Prod.fst second⟩
  exact ⟨node, a, b, run, here.1, here.2, versions.1, versions.2,
    unmoved_versions_name_one_set run here.1 here.2 (versions.1.trans versions.2.symm)⟩

/-- `load` installs version 1, with no rule. The timer's refresh reads version 1; a rule is created in
another process; the timer's refresh reads the rules. -/
def movedInBetween : List Act :=
  [.tick 0, .readVersion 0, .readRules 0, .install 0, .answer 0,
   .tick 1, .readVersion 1, .commit (.create closing 0), .readRules 1, .install 1]

/-- Version 1 is installed twice: with no rule, and with the rule that made version 2. -/
theorem moved_version_names_two_sets :
    ∃ node a b, Run (step fun _ => .ok exactRules) Any (boot .migrated) movedInBetween node ∧
      a ∈ node.installed ∧ b ∈ node.installed ∧ a.version = b.version ∧ a.rules = [] ∧
      b.rules.length = 1 := by
  obtain ⟨node, run, test⟩ := Run.of_test (step fun _ => .ok exactRules) Any (boot .migrated)
    movedInBetween (fun node => node.labels == [(1, 1), (1, 0)]) (by decide +kernel)
  obtain ⟨b, rest, found, second, others⟩ := List.map_eq_cons_iff.mp (beq_iff_eq.mp test)
  obtain ⟨a, _, rfl, first, _⟩ := List.map_eq_cons_iff.mp others
  have versions : a.version = 1 ∧ b.version = 1 :=
    ⟨congrArg Prod.fst first, congrArg Prod.fst second⟩
  refine ⟨node, a, b, run, ?_, ?_, versions.1.trans versions.2.symm, ?_, congrArg Prod.snd second⟩
  · rw [found]
    simp
  · rw [found]
    simp
  · exact List.length_eq_zero_iff.mp (congrArg Prod.snd first)

end OpenCargo.Routing
