/-
Module: OpenCargo.Routing.Store
Purpose: The routing rules as the store keeps them (`adapters/sqlite/routing.rs`), the transactions
  that write them, and their compiled form (`crates/domain/src/routing.rs`, `registry/routing.rs`).
Trusted boundary: none
Main exports: RuleWrite.commit, RuleTable.all, RouteSet, compile
-/
import OpenCargo.Domain

namespace OpenCargo.Routing

/-! ### The rules as they are stored -/

/-- Which members a rule leaves able to answer. -/
inductive Effect where
  | anyHosted
  | members (incarnations : List Text)
  | deny
deriving Repr, DecidableEq, Inhabited

/-- One rule as it is stored: patterns and exceptions as written, targets as repository
incarnations. The two instants are kept as `bind_ts` spells them. -/
structure StoredRule where
  name : Text
  format : Format
  patterns : List Text
  except : List Text
  effect : Effect
  createdAt : Int
  updatedAt : Int
deriving Repr, DecidableEq, Inhabited

/-- What a create or an update writes. -/
structure NewRule where
  name : Text
  format : Format
  patterns : List Text
  except : List Text
  effect : Effect
deriving Repr, DecidableEq, Inhabited

/-- `routing_rules`, and the one row of `routing_snapshot_version`. -/
structure RuleTable where
  rules : List StoredRule
  version : Nat
deriving Repr, DecidableEq, Inhabited

namespace RuleTable

/-- What migration 031 leaves. -/
def migrated : RuleTable where
  rules := []
  version := 1

/-- The one statement every write ends with. -/
def bump (table : RuleTable) : RuleTable :=
  { table with version := table.version + 1 }

def fetch (table : RuleTable) (name : Text) : Option StoredRule :=
  table.rules.find? fun row => row.name == name

/-- `INSERT` when creating, `UPDATE … WHERE name = ?1` otherwise: an update keeps `created_at`. -/
def write (table : RuleTable) (rule : NewRule) (now : Instant) (creating : Bool) : RuleTable :=
  if creating then
    { table with
      rules := table.rules ++
        [{ name := rule.name, format := rule.format, patterns := rule.patterns,
           except := rule.except, effect := rule.effect,
           createdAt := bindTs now, updatedAt := bindTs now }] }
  else
    { table with
      rules := table.rules.map fun row =>
        if row.name == rule.name then
          { row with
            format := rule.format, patterns := rule.patterns, except := rule.except,
            effect := rule.effect, updatedAt := bindTs now }
        else row }

/-- Write the rule and move the version, then read the row back. -/
def upsert (table : RuleTable) (rule : NewRule) (now : Instant) (creating : Bool) :
    Except StoreError (StoredRule × RuleTable) :=
  match table.fetch rule.name, creating with
  | some _, true => .error .conflict
  | none, false => .error .notFound
  | _, _ =>
      let written := (table.write rule now creating).bump
      match written.fetch rule.name with
      | some row => .ok (row, written)
      | none => .error .notFound

def remove (table : RuleTable) (name : Text) : Except StoreError RuleTable :=
  if table.rules.any fun row => row.name == name then
    .ok (bump { table with rules := table.rules.filter fun row => row.name != name })
  else .error .notFound

/-- The emptiness test and the inserts are one transaction. A name given twice breaks the primary
key and rolls the transaction back. -/
def seed (table : RuleTable) (rules : List NewRule) (now : Instant) :
    Except StoreError (Nat × RuleTable) :=
  if table.rules.length > 0 || rules.isEmpty then .ok (0, table)
  else if (rules.map (·.name)).Nodup then
    .ok (rules.length, (rules.foldl (fun t rule => t.write rule now true) table).bump)
  else .error .conflict

/-- Every rule, `ORDER BY name`. -/
def all (table : RuleTable) : List StoredRule :=
  table.rules.insertionSort fun a b => a.name ≤ b.name

end RuleTable

/-! ### The writes -/

/-- The transactions that write the rules. -/
inductive RuleWrite where
  | create (rule : NewRule) (now : Instant)
  | update (rule : NewRule) (now : Instant)
  | delete (name : Text)
  | ensureSeeded (rules : List NewRule) (now : Instant)
deriving Repr, DecidableEq, Inhabited

/-- What a transaction leaves; a refused one rolls back and leaves the table as it was. -/
def RuleWrite.commit (table : RuleTable) : RuleWrite → Except StoreError RuleTable
  | .create rule now => (table.upsert rule now true).map Prod.snd
  | .update rule now => (table.upsert rule now false).map Prod.snd
  | .delete name => table.remove name
  | .ensureSeeded rules now => (table.seed rules now).map Prod.snd

/-- The writes an administrator makes through the use case, which refreshes the node's snapshot
before it answers. -/
def RuleWrite.administrative : RuleWrite → Bool
  | .ensureSeeded _ _ => false
  | _ => true

@[simp] theorem RuleTable.bump_version (table : RuleTable) :
    table.bump.version = table.version + 1 := rfl

@[simp] theorem RuleTable.write_version (table : RuleTable) (rule : NewRule) (now : Instant)
    (creating : Bool) : (table.write rule now creating).version = table.version := by
  unfold write
  split <;> rfl

theorem RuleTable.writes_version (table : RuleTable) (rules : List NewRule) (now : Instant) :
    (rules.foldl (fun t rule => t.write rule now true) table).version = table.version := by
  induction rules generalizing table with
  | nil => rfl
  | cons rule rules ih => simp only [List.foldl_cons, ih, write_version]

theorem RuleTable.upsert_version {table after : RuleTable} {rule : NewRule} {now : Instant}
    {creating : Bool} {row : StoredRule}
    (done : table.upsert rule now creating = .ok (row, after)) :
    after.version = table.version + 1 := by
  unfold upsert at done
  split at done
  · cases done
  · cases done
  · simp only at done
    split at done
    · simp only [Except.ok.injEq, Prod.mk.injEq] at done
      rw [← done.2, bump_version, write_version]
    · cases done

theorem RuleTable.remove_version {table after : RuleTable} {name : Text}
    (done : table.remove name = .ok after) : after.version = table.version + 1 := by
  unfold remove at done
  split at done
  · cases done
    rfl
  · cases done

theorem RuleTable.seed_moves {table after : RuleTable} {rules : List NewRule} {now : Instant}
    {written : Nat} (done : table.seed rules now = .ok (written, after)) :
    after = table ∨ table.version < after.version := by
  unfold seed at done
  split at done
  · cases done
    exact .inl rfl
  · split at done
    · simp only [Except.ok.injEq, Prod.mk.injEq] at done
      rw [← done.2, bump_version, writes_version]
      exact .inr (Nat.lt_succ_self _)
    · cases done

private theorem map_snd_ok {ε α β : Type*} {x : Except ε (α × β)} {b : β}
    (h : x.map Prod.snd = .ok b) : ∃ a, x = .ok (a, b) := by
  cases x with
  | error e => cases h
  | ok pair =>
      obtain ⟨a, b'⟩ := pair
      cases h
      exact ⟨a, rfl⟩

theorem RuleWrite.commit_moves {table after : RuleTable} {write : RuleWrite}
    (done : write.commit table = .ok after) : after = table ∨ table.version < after.version := by
  cases write with
  | create rule now =>
      obtain ⟨_, h⟩ := map_snd_ok done
      have := RuleTable.upsert_version h
      omega
  | update rule now =>
      obtain ⟨_, h⟩ := map_snd_ok done
      have := RuleTable.upsert_version h
      omega
  | delete name =>
      have := RuleTable.remove_version done
      omega
  | ensureSeeded rules now =>
      obtain ⟨_, h⟩ := map_snd_ok done
      exact RuleTable.seed_moves h

theorem RuleWrite.commit_version_le {table after : RuleTable} {write : RuleWrite}
    (done : write.commit table = .ok after) : table.version ≤ after.version := by
  rcases RuleWrite.commit_moves done with same | moved
  · rw [same]
  · exact moved.le

/-! ### The compiled form -/

/-- A compiled glob: the pieces between the stars, canonicalized, and the pattern as written. -/
structure Pattern where
  literals : List Text
  source : Text
deriving Repr, DecidableEq, Inhabited

/-- One rule as the walk decides against it. -/
structure RoutingRule where
  name : Text
  format : Format
  patterns : List Pattern
  except : List Text
  effect : Effect
deriving Repr, DecidableEq, Inhabited

/-- The compiled snapshot, and the version it carries. -/
structure RouteSet where
  rules : List RoutingRule
  version : Nat
deriving Repr, DecidableEq, Inhabited

/-- `RouteSet::default`. -/
def RouteSet.default : RouteSet where
  rules := []
  version := 0

/-- Rules are held in name order. -/
def RouteSet.new (rules : List RoutingRule) (version : Nat) : RouteSet where
  rules := rules.insertionSort fun a b => a.name ≤ b.name
  version := version

/-- What compiling a rule asks of its format. -/
structure FormatRules where
  identKey : Text → Text
  canonicalPattern : Text → Except DomainError Pattern

/-- One stored rule becomes a decidable one: the body of `compile`'s loop. -/
def compileRule (rulesOf : Format → Except DomainError FormatRules) (rule : StoredRule) :
    Except DomainError RoutingRule := do
  let formatRules ← rulesOf rule.format
  let patterns ← rule.patterns.mapM formatRules.canonicalPattern
  return { name := rule.name, format := rule.format, patterns := patterns,
           except := rule.except.map formatRules.identKey, effect := rule.effect }

/-- `compile`: an unreadable rule set is an error and never an empty one. The rules of a format are
found with `rulesOf`. -/
def compile (rulesOf : Format → Except DomainError FormatRules) (stored : List StoredRule)
    (version : Nat) : Except DomainError RouteSet := do
  let rules ← stored.mapM (compileRule rulesOf)
  return RouteSet.new rules version

theorem compile_version {rulesOf : Format → Except DomainError FormatRules}
    {stored : List StoredRule} {version : Nat} {set : RouteSet}
    (done : compile rulesOf stored version = .ok set) : set.version = version := by
  unfold compile at done
  cases compiled : stored.mapM (compileRule rulesOf) with
  | error e => simp [compiled, bind, Except.bind] at done
  | ok rules =>
      simp only [compiled, bind, Except.bind, pure, Except.pure, Except.ok.injEq] at done
      rw [← done]
      rfl

end OpenCargo.Routing
