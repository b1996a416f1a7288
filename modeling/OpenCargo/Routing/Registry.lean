/-
Module: OpenCargo.Routing.Registry
Purpose: One process's routing snapshot (`registry/routing.rs`): any number of refreshes, the timer's
  and the ones an administrative write ends with (`app/routing.rs`), interleaved with the writes that
  commit in the store. A refresh reads the version, then the rules, then installs what it compiled,
  and these are three steps.
Trusted boundary: `rulesOf`, the rules of each format, is a parameter nothing is asked of
Main exports: step, InOrder, Kept, refresh_in_order_iff_never_back
-/
import OpenCargo.Lib.Run
import OpenCargo.Routing.Store

namespace OpenCargo.Routing

open OpenCargo.Lib

/-! ### The node -/

/-- Where one call of `RoutingRegistry::refresh` stands. -/
inductive Phase where
  | started
  /-- `store.version()` has answered. -/
  | versioned (version : Nat)
  /-- `store.all()` has answered and what it read is compiled. -/
  | compiled (set : RouteSet)
  | installed
deriving Repr, DecidableEq, Inhabited

/-- A refresh under way. `write` is the version the administrative write that ends with it left in the
store; the timer's refresh and the one of `load` follow no write. -/
structure Refresh where
  write : Option Nat
  phase : Phase
deriving Repr, DecidableEq, Inhabited

/-- The store and the process. The last three fields are history and decide nothing: every state the
table has been in, every set that was ever installed, and the versions left by the administrative
writes that have answered `Ok`. -/
structure Node where
  table : RuleTable
  held : RouteSet
  refreshes : Nat → Option Refresh
  committed : List RuleTable
  installed : List RouteSet
  answered : List Nat

/-- The registry as `load` builds it, before its own refresh has run. -/
def boot (table : RuleTable) : Node where
  table := table
  held := RouteSet.default
  refreshes := fun _ => none
  committed := [table]
  installed := []
  answered := []

/-- `RoutingRegistry::snapshot`: what a request decides against. -/
def Node.snapshot (node : Node) : RouteSet := node.held

inductive Act where
  /-- A write of another process, or the seeding of an empty table. -/
  | commit (write : RuleWrite)
  /-- `create`, `update` or `delete` of `RoutingRules`: its transaction commits, and its refresh is
  about to start. -/
  | administer (id : Nat) (write : RuleWrite)
  /-- `load`'s refresh, or the timer's. -/
  | tick (id : Nat)
  | readVersion (id : Nat)
  | readRules (id : Nat)
  | install (id : Nat)
  /-- The call that made the refresh returns `Ok`. -/
  | answer (id : Nat)
  /-- A read failed, or the rules did not compile: the last valid snapshot is kept. -/
  | fail (id : Nat)
deriving Repr, DecidableEq, Inhabited

namespace Node

def commit (node : Node) (table : RuleTable) : Node :=
  { node with table := table, committed := table :: node.committed }

def set (node : Node) (id : Nat) (task : Option Refresh) : Node :=
  { node with refreshes := Function.update node.refreshes id task }

end Node

variable (rulesOf : Format → Except DomainError FormatRules)

def step (node : Node) : Act → Option Node
  | .commit write =>
      match write.commit node.table with
      | .ok table => some (node.commit table)
      | .error _ => none
  | .administer id write =>
      -- the routes are served once `load` has installed its set
      if node.refreshes id = none ∧ node.installed ≠ [] ∧ write.administrative then
        match write.commit node.table with
        | .ok table =>
            some ((node.commit table).set id
              (some { write := some table.version, phase := .started }))
        | .error _ => none
      else none
  | .tick id =>
      if node.refreshes id = none then
        some (node.set id (some { write := none, phase := .started }))
      else none
  | .readVersion id =>
      match node.refreshes id with
      | some ⟨write, .started⟩ =>
          some (node.set id (some { write := write, phase := .versioned node.table.version }))
      | _ => none
  | .readRules id =>
      match node.refreshes id with
      | some ⟨write, .versioned version⟩ =>
          match compile rulesOf node.table.all version with
          | .ok set => some (node.set id (some { write := write, phase := .compiled set }))
          | .error _ => none
      | _ => none
  | .install id =>
      match node.refreshes id with
      | some ⟨write, .compiled set⟩ =>
          some { node.set id (some { write := write, phase := .installed }) with
            held := set, installed := set :: node.installed }
      | _ => none
  | .answer id =>
      match node.refreshes id with
      | some ⟨write, .installed⟩ =>
          some { node.set id none with answered := write.toList ++ node.answered }
      | _ => none
  | .fail id =>
      match node.refreshes id with
      | some _ => some (node.set id none)
      | none => none

/-! ### What is claimed, and the order it needs -/

/-- No refresh is overtaken: when a refresh installs what it compiled, no set of a later version has
been installed before. -/
def InOrder (node : Node) (act : Act) (_ : Node) : Prop :=
  match act with
  | .install id => ∀ write set, node.refreshes id = some ⟨write, .compiled set⟩ →
      ∀ earlier ∈ node.installed, earlier.version ≤ set.version
  | _ => True

/-- A set that `store.all()` gave at one of the states the table has been in, no older than the
version the set carries. -/
def Node.Read (node : Node) (set : RouteSet) (version : Nat) : Prop :=
  ∃ table ∈ node.committed, version ≤ table.version ∧
    compile rulesOf table.all set.version = .ok set

/-- One step keeps the snapshot from going back: its version does not decrease, and for every
administrative write that has answered `Ok` it holds the rules of the table as it stood at that write
or later. -/
def Kept (before : Node) (_ : Act) (after : Node) : Prop :=
  before.snapshot.version ≤ after.snapshot.version ∧
    ∀ write ∈ after.answered, after.Read rulesOf after.snapshot write

/-! ### The invariant -/

/-- What a refresh knows of the node, at each of its phases. -/
def Refresh.Sound (node : Node) (task : Refresh) : Prop :=
  match task.phase with
  | .started => ∀ write ∈ task.write, write ≤ node.table.version
  | .versioned version => version ≤ node.table.version ∧ ∀ write ∈ task.write, write ≤ version
  | .compiled set =>
      node.Read rulesOf set set.version ∧ ∀ write ∈ task.write, write ≤ set.version
  | .installed => node.installed ≠ [] ∧ ∀ write ∈ task.write, write ≤ node.held.version

structure Sound (node : Node) : Prop where
  current : node.table ∈ node.committed
  refreshing : ∀ id task, node.refreshes id = some task → task.Sound rulesOf node
  held : node.held ∈ node.installed ∨ node.held.version = 0
  read : node.installed ≠ [] → node.Read rulesOf node.held node.held.version
  below : ∀ set ∈ node.installed, set.version ≤ node.held.version
  answered : ∀ write ∈ node.answered, node.installed ≠ [] ∧ write ≤ node.held.version

variable {rulesOf}

theorem Node.Read.le {node : Node} {set : RouteSet} {version older : Nat}
    (read : node.Read rulesOf set version) (le : older ≤ version) :
    node.Read rulesOf set older := by
  obtain ⟨table, mem, at_least, compiled⟩ := read
  exact ⟨table, mem, le.trans at_least, compiled⟩

theorem Node.Read.mono {node after : Node} {set : RouteSet} {version : Nat}
    (grown : ∀ table ∈ node.committed, table ∈ after.committed)
    (read : node.Read rulesOf set version) : after.Read rulesOf set version := by
  obtain ⟨table, mem, rest⟩ := read
  exact ⟨table, grown table mem, rest⟩

/-- A refresh that is left alone stays sound as long as the store and the snapshot only move
forward. -/
theorem Refresh.Sound.mono {node after : Node} {task : Refresh}
    (version : node.table.version ≤ after.table.version)
    (grown : ∀ table ∈ node.committed, table ∈ after.committed)
    (installed : node.installed ≠ [] → after.installed ≠ [])
    (held : node.held.version ≤ after.held.version)
    (sound : task.Sound rulesOf node) : task.Sound rulesOf after := by
  obtain ⟨write, phase⟩ := task
  cases phase with
  | started => exact fun w mem => (sound w mem).trans version
  | versioned v => exact ⟨sound.1.trans version, sound.2⟩
  | compiled set => exact ⟨sound.1.mono grown, sound.2⟩
  | installed => exact ⟨installed sound.1, fun w mem => (sound.2 w mem).trans held⟩

theorem refreshing_set (node : Node) {after : Node} {id : Nat} {task : Option Refresh}
    (others : ∀ id task, node.refreshes id = some task → task.Sound rulesOf after)
    (moved : ∀ t ∈ task, t.Sound rulesOf after) (at_ : Nat) (t : Refresh)
    (found : Function.update node.refreshes id task at_ = some t) : t.Sound rulesOf after := by
  by_cases same : at_ = id
  · subst same
    rw [Function.update_self] at found
    exact moved t found
  · rw [Function.update_of_ne same] at found
    exact others at_ t found

theorem sound_boot (table : RuleTable) : Sound rulesOf (boot table) where
  current := List.mem_singleton.mpr rfl
  refreshing := by
    intro id task found
    cases found
  held := .inr rfl
  read := fun installed => absurd rfl installed
  below := by
    intro set mem
    cases mem
  answered := by
    intro write mem
    cases mem

theorem Sound.commit {node : Node} {table : RuleTable} (sound : Sound rulesOf node)
    (version : node.table.version ≤ table.version) : Sound rulesOf (node.commit table) where
  current := List.mem_cons_self
  refreshing := fun id task found =>
    (sound.refreshing id task found).mono version (fun _ mem => List.mem_cons_of_mem _ mem)
      (fun installed => installed) (le_refl _)
  held := sound.held
  read := fun installed => (sound.read installed).mono fun _ mem => List.mem_cons_of_mem _ mem
  below := sound.below
  answered := sound.answered

theorem Sound.set {node : Node} {id : Nat} {task : Option Refresh} (sound : Sound rulesOf node)
    (moved : ∀ t ∈ task, t.Sound rulesOf node) : Sound rulesOf (node.set id task) where
  current := sound.current
  refreshing := refreshing_set node sound.refreshing moved
  held := sound.held
  read := sound.read
  below := sound.below
  answered := sound.answered

/-- Installing keeps the invariant exactly when it does not take the version back. -/
theorem Sound.install {node : Node} {id : Nat} {write : Option Nat} {set : RouteSet}
    (sound : Sound rulesOf node) (found : node.refreshes id = some ⟨write, .compiled set⟩)
    (forward : node.held.version ≤ set.version) :
    Sound rulesOf { node.set id (some { write := write, phase := .installed }) with
      held := set, installed := set :: node.installed } := by
  obtain ⟨read, newer⟩ := sound.refreshing id _ found
  refine
    { current := sound.current
      refreshing := refreshing_set node (fun at_ task other => ?_) ?_
      held := .inl List.mem_cons_self
      read := fun _ => read
      below := ?_
      answered := ?_ }
  · refine Refresh.Sound.mono ?_ ?_ ?_ ?_ (sound.refreshing at_ task other)
    · exact le_refl _
    · exact fun _ mem => mem
    · exact fun _ => List.cons_ne_nil _ _
    · exact forward
  · rintro t ⟨⟩
    exact ⟨List.cons_ne_nil _ _, newer⟩
  · intro earlier mem
    rcases List.mem_cons.mp mem with rfl | mem
    · exact le_refl _
    · exact (sound.below earlier mem).trans forward
  · intro w mem
    exact ⟨List.cons_ne_nil _ _, (sound.answered w mem).2.trans forward⟩

theorem Sound.step {node after : Node} {act : Act} (sound : Sound rulesOf node)
    (taken : step rulesOf node act = some after)
    (forward : node.held.version ≤ after.held.version) : Sound rulesOf after := by
  cases act with
  | commit write =>
      simp only [Routing.step] at taken
      split at taken
      case h_1 table done =>
        cases taken
        exact sound.commit (RuleWrite.commit_version_le done)
      case h_2 => cases taken
  | administer id write =>
      simp only [Routing.step] at taken
      split at taken
      case isTrue =>
        split at taken
        case h_1 table done =>
          cases taken
          refine (sound.commit (RuleWrite.commit_version_le done)).set ?_
          rintro t ⟨⟩ w ⟨⟩
          exact le_refl _
        case h_2 => cases taken
      case isFalse => cases taken
  | tick id =>
      simp only [Routing.step] at taken
      split at taken
      case isTrue =>
        cases taken
        refine sound.set ?_
        rintro t ⟨⟩ w ⟨⟩
      case isFalse => cases taken
  | readVersion id =>
      simp only [Routing.step] at taken
      split at taken
      case h_1 write found =>
        cases taken
        refine sound.set ?_
        rintro t ⟨⟩
        exact ⟨le_refl _, sound.refreshing id _ found⟩
      case h_2 => cases taken
  | readRules id =>
      simp only [Routing.step] at taken
      split at taken
      case h_1 write version found =>
        split at taken
        case h_1 set compiled =>
          cases taken
          refine sound.set ?_
          rintro t ⟨⟩
          -- the table may have moved since the version was read, and only forward
          obtain ⟨read, newer⟩ := sound.refreshing id _ found
          have label := compile_version compiled
          refine ⟨⟨node.table, sound.current, ?_, ?_⟩, ?_⟩
          · rw [label]
            exact read
          · rw [label]
            exact compiled
          · rw [label]
            exact newer
        case h_2 => cases taken
      case h_2 => cases taken
  | install id =>
      simp only [Routing.step] at taken
      split at taken
      case h_1 write set found =>
        cases taken
        exact sound.install found forward
      case h_2 => cases taken
  | answer id =>
      simp only [Routing.step] at taken
      split at taken
      case h_1 write found =>
        cases taken
        have settled : Sound rulesOf (node.set id none) := sound.set (by rintro t ⟨⟩)
        refine { settled with answered := ?_ }
        intro w mem
        rcases List.mem_append.mp mem with mine | earlier
        · obtain ⟨installed, newer⟩ := sound.refreshing id _ found
          exact ⟨installed, newer w (Option.mem_toList.mp mine)⟩
        · exact sound.answered w earlier
      case h_2 => cases taken
  | fail id =>
      simp only [Routing.step] at taken
      split at taken
      case h_1 =>
        cases taken
        exact sound.set (by rintro t ⟨⟩)
      case h_2 => cases taken

theorem step_held {node after : Node} {act : Act} (taken : step rulesOf node act = some after) :
    after.held = node.held ∨ ∃ id write set, act = .install id ∧
      node.refreshes id = some ⟨write, .compiled set⟩ ∧ after.held = set := by
  cases act with
  | install id =>
      simp only [Routing.step] at taken
      split at taken
      case h_1 write set found =>
        cases taken
        exact .inr ⟨id, write, set, rfl, found, rfl⟩
      case h_2 => cases taken
  | _ =>
      simp only [Routing.step] at taken
      repeat' split at taken
      all_goals first
        | (cases taken; exact .inl rfl)
        | cases taken

theorem Sound.forward {node after : Node} {act : Act} (sound : Sound rulesOf node)
    (taken : Routing.step rulesOf node act = some after) (ordered : InOrder node act after) :
    node.held.version ≤ after.held.version := by
  rcases step_held taken with same | ⟨id, write, set, rfl, found, same⟩
  · rw [same]
  · rw [same]
    rcases sound.held with installed | unloaded
    · exact ordered write set found node.held installed
    · rw [unloaded]
      exact Nat.zero_le _

theorem Sound.kept {node after : Node} {act : Act} (sound : Sound rulesOf after)
    (forward : node.held.version ≤ after.held.version) : Kept rulesOf node act after := by
  refine ⟨forward, fun write mem => ?_⟩
  obtain ⟨installed, older⟩ := sound.answered write mem
  exact (sound.read installed).le older

/-- A step that keeps the snapshot from going back is one in which no refresh is overtaken. -/
theorem Sound.inOrder {node after : Node} {act : Act} (sound : Sound rulesOf node)
    (taken : Routing.step rulesOf node act = some after) (kept : Kept rulesOf node act after) :
    InOrder node act after := by
  cases act with
  | install id =>
      intro write set found earlier mem
      have installs : after.held = set := by
        simp only [Routing.step, found, Option.some.injEq] at taken
        rw [← taken]
      calc earlier.version ≤ node.held.version := sound.below earlier mem
        _ ≤ after.held.version := kept.1
        _ = set.version := by rw [installs]
  | _ => trivial

/-- The runs in which no refresh is overtaken are the runs along which the snapshot never goes back:
its version never decreases, and it contains every administrative write that has answered. -/
theorem refresh_in_order_iff_never_back (rulesOf : Format → Except DomainError FormatRules)
    (table : RuleTable) (acts : List Act) (node : Node) :
    Run (step rulesOf) InOrder (boot table) acts node ↔
      Run (step rulesOf) (Kept rulesOf) (boot table) acts node := by
  constructor
  · intro run
    refine run.strengthen (Sound rulesOf) (sound_boot table) ?_
    intro before act after sound taken ordered
    have forward := sound.forward taken ordered
    have next := sound.step taken forward
    exact ⟨next, next.kept forward⟩
  · intro run
    refine run.strengthen (Sound rulesOf) (sound_boot table) ?_
    intro before act after sound taken kept
    exact ⟨sound.step taken kept.1, sound.inOrder taken kept⟩

/-! ### A refresh that is overtaken -/

/-- The rules of a format that compares names byte for byte, on patterns without a star. -/
def exactRules : FormatRules where
  identKey := id
  canonicalPattern := fun pattern => .ok { literals := [pattern], source := pattern }

/-- The rule an operator closes a name with. -/
def closing : NewRule where
  name := "close".toList
  format := .raw
  patterns := ["acme/tool".toList]
  except := []
  effect := .deny

/-- `load`; the timer's refresh reads the version and the rules and stalls; an administrator creates a
rule, whose own refresh installs it, and is answered `Ok`; the timer's refresh installs what it read
before. -/
def overtaken : List Act :=
  [.tick 0, .readVersion 0, .readRules 0, .install 0, .answer 0,
   .tick 1, .readVersion 1, .readRules 1,
   .administer 2 (.create closing 0), .readVersion 2, .readRules 2, .install 2, .answer 2,
   .install 1]

/-- The state `overtaken` ends in: the create has answered, and nothing of it is in the snapshot. -/
def reopened (node : Node) : Bool :=
  node.answered == [2] && node.snapshot == RouteSet.mk [] 1 &&
    node.committed.all fun table =>
      table.version < 2 ||
        (match compile (fun _ => .ok exactRules) table.all 1 with
          | .ok set => set != RouteSet.mk [] 1
          | .error _ => true)

theorem overtaken_refresh_reopens_name :
    ∃ node, Run (step fun _ => .ok exactRules) Any (boot .migrated) overtaken node ∧
      node.answered = [2] ∧ node.snapshot = RouteSet.mk [] 1 ∧
      ¬ Run (step fun _ => .ok exactRules) (Kept fun _ => .ok exactRules) (boot .migrated)
        overtaken node := by
  obtain ⟨node, run, test⟩ := Run.of_test (step fun _ => .ok exactRules) Any (boot .migrated)
    overtaken reopened (by decide +kernel)
  simp only [reopened, Bool.and_eq_true, beq_iff_eq, List.all_eq_true] at test
  obtain ⟨⟨answered, held⟩, lost⟩ := test
  refine ⟨node, run, answered, held, fun kept => ?_⟩
  obtain ⟨_, _, _, contains⟩ := kept.last_met (by decide)
  obtain ⟨table, mem, later, compiled⟩ := contains 2 (by simp [answered])
  have fate := lost table mem
  rw [held] at compiled
  simp only [compiled] at fate
  simp at fate
  omega

end OpenCargo.Routing
