/-
Module: OpenCargo.Limits.Meter
Purpose: How often one account may publish: the limits and which one applies
  (`crates/domain/src/limits.rs`), the meter that counts (`auth/publish_limit.rs`), the same meter
  without its sweep, and the meter as it is meant, over a log of what was let by.
Trusted boundary: none
Main exports: admit_, admitUnswept, play, ideal
-/
import OpenCargo.Domain
import OpenCargo.Lib.Rows
import OpenCargo.Lib.Sliding

namespace OpenCargo.Limits

open OpenCargo.Lib

/-! ### The limits -/

/-- `MAX_PER_WINDOW`. -/
def maxPerWindow : Nat := 1000000

/-- `MAX_WINDOW_SECS`. -/
def maxWindowSecs : Nat := 86400

inductive LimitError where
  | empty
  | tooLarge
  | window
deriving Repr, DecidableEq, Inhabited

/-- `max` publishes per `windowSecs`, per account: finite by construction. -/
structure PublishLimit where
  max : Nat
  windowSecs : Nat
  atLeastOne : 0 < max
  bounded : max ≤ maxPerWindow
  lasts : 0 < windowSecs
  ends : windowSecs ≤ maxWindowSecs
deriving Repr, DecidableEq

def PublishLimit.new (max windowSecs : Nat) : Except LimitError PublishLimit :=
  if empty : max = 0 then .error .empty
  else if large : max > maxPerWindow then .error .tooLarge
  else if odd : windowSecs = 0 ∨ windowSecs > maxWindowSecs then .error .window
  else .ok ⟨max, windowSecs, by omega, by omega, by omega, by omega⟩

/-- The window, in nanoseconds. -/
def PublishLimit.window (limit : PublishLimit) : Int := limit.windowSecs * 1000000000

/-- Which entry a limit was read from. -/
inductive LimitScope where
  | repository (name : Text)
  | format (format : Format)
  | every
deriving Repr, DecidableEq, Inhabited

def LimitScope.key : LimitScope → Text
  | .repository name => "repository:".toList ++ name
  | .format kind => "format:".toList ++ kind.asStr
  | .every => "every".toList

/-- One fallback for every format, the entries that replace it per format, and the entries that
replace those per repository. -/
structure PublishLimits where
  every : Option PublishLimit
  perFormat : List (Format × PublishLimit)
  perRepository : List (Text × PublishLimit)
deriving Repr, DecidableEq

namespace PublishLimits

/-- The limit the entry of a scope holds. -/
def limitOf (limits : PublishLimits) : LimitScope → Option PublishLimit
  | .repository name => (limits.perRepository.find? fun entry => entry.1 == name).map Prod.snd
  | .format format => (limits.perFormat.find? fun entry => entry.1 == format).map Prod.snd
  | .every => limits.every

/-- The most specific entry that exists. -/
def applicable (limits : PublishLimits) (format : Format) (repository : Text) :
    Option (LimitScope × PublishLimit) :=
  match limits.limitOf (.repository repository) with
  | some limit => some (.repository repository, limit)
  | none =>
      match limits.limitOf (.format format) with
      | some limit => some (.format format, limit)
      | none => limits.every.map fun limit => (.every, limit)

theorem limitOf_applicable {limits : PublishLimits} {format : Format} {repository : Text}
    {scope : LimitScope} {limit : PublishLimit}
    (applies : limits.applicable format repository = some (scope, limit)) :
    limits.limitOf scope = some limit := by
  rw [applicable] at applies
  split at applies
  · rename_i own
    cases applies
    exact own
  · split at applies
    · rename_i own
      cases applies
      exact own
    · obtain ⟨_, fallback, same⟩ := Option.map_eq_some_iff.mp applies
      cases same
      exact fallback

end PublishLimits

/-! ### The meter -/

/-- One publish: who, of what, where, and when. -/
structure Call where
  account : Text
  format : Format
  repository : Text
  now : Instant
deriving Repr, DecidableEq, Inhabited

inductive Admission where
  | allowed
  | refused (scope : LimitScope) (limit : PublishLimit) (retryAfterSecs : Nat)
deriving Repr, DecidableEq

/-- What was counted under each key: a map, as the list of its entries. -/
abbrev Windows := List (Text × List Instant)

/-- `SWEEP_ABOVE`. -/
def sweepAbove : Nat := 1024

def keyOf (scope : LimitScope) (account : Text) : Text := scope.key ++ '|' :: account

def cutoff (limit : PublishLimit) (now : Instant) : Instant := now - limit.window

def hitsOf (windows : Windows) (key : Text) : List Instant :=
  ((windows.find? fun entry => entry.1 == key).map Prod.snd).getD []

def put (windows : Windows) (key : Text) (hits : List Instant) : Windows :=
  upsert Prod.fst (fun entry => (entry.1, hits)) (key, hits) windows

/-- Above a number of keys, those with no hit after the cutoff are dropped. -/
def sweep (windows : Windows) (cutoff : Instant) : Windows :=
  if windows.length > sweepAbove then windows.filter fun entry => entry.2.any fun hit => hit > cutoff
  else windows

/-- Whole seconds until the oldest hit has left the window, and one more; the milliseconds are
`chrono`'s, cut towards zero. -/
def retryAfterSecs (hits : List Instant) (limit : PublishLimit) (now : Instant) : Nat :=
  let freesAt := hits.min?.getD now + limit.window
  (max ((freesAt - now).tdiv 1000000 / 1000) 0).toNat + 1

/-- Count one publish against the limit, or refuse it. -/
def count (windows : Windows) (account : Text) (scope : LimitScope) (limit : PublishLimit)
    (now : Instant) : Admission × Windows :=
  let key := keyOf scope account
  let hits := recent (hitsOf windows key) (cutoff limit now)
  if hits.length < limit.max then (.allowed, put windows key (hits ++ [now]))
  else (.refused scope limit (retryAfterSecs hits limit now), put windows key hits)

/-- `PublishMeter::admit`. -/
def admit_ (limits : PublishLimits) (windows : Windows) (call : Call) : Admission × Windows :=
  match limits.applicable call.format call.repository with
  | none => (.allowed, windows)
  | some (scope, limit) =>
      count (sweep windows (cutoff limit call.now)) call.account scope limit call.now

/-- The same meter without the sweep. -/
def admitUnswept (limits : PublishLimits) (windows : Windows) (call : Call) : Admission × Windows :=
  match limits.applicable call.format call.repository with
  | none => (.allowed, windows)
  | some (scope, limit) => count windows call.account scope limit call.now

/-- The answers to a sequence of calls, and what is left of it. -/
def play {σ : Type} (meter : σ → Call → Admission × σ) : σ → List Call → List Admission × σ
  | s, [] => ([], s)
  | s, call :: calls =>
      let first := meter s call
      let rest := play meter first.2 calls
      (first.1 :: rest.1, rest.2)

/-! ### The meter as it is meant -/

/-- Who was let by under which entry, and when. -/
abbrev Log := List ((LimitScope × Text) × Instant)

/-- Nothing is forgotten: a call is let by while fewer than `max` of its account and entry were within
the window behind it. -/
def ideal (limits : PublishLimits) (log : Log) (call : Call) : Admission × Log :=
  match limits.applicable call.format call.repository with
  | none => (.allowed, log)
  | some (scope, limit) =>
      let hits := recent (timesOf log (scope, call.account)) (cutoff limit call.now)
      if hits.length < limit.max then (.allowed, log ++ [((scope, call.account), call.now)])
      else (.refused scope limit (retryAfterSecs hits limit call.now), log)

theorem play_append {σ : Type} (meter : σ → Call → Admission × σ) (s : σ) (pre post : List Call) :
    play meter s (pre ++ post) =
      ((play meter s pre).1 ++ (play meter (play meter s pre).2 post).1,
        (play meter (play meter s pre).2 post).2) := by
  induction pre generalizing s with
  | nil => rfl
  | cons call pre ih => simp [play, ih]

theorem play_length {σ : Type} (meter : σ → Call → Admission × σ) (s : σ) (calls : List Call) :
    (play meter s calls).1.length = calls.length := by
  induction calls generalizing s with
  | nil => rfl
  | cons call calls ih => simp [play, ih]

/-! ### What a map of windows reads back -/

section Windows

variable {windows : Windows} {key other : Text} {hits : List Instant}

theorem hitsOf_put_self : hitsOf (put windows key hits) key = hits := by
  have keeps (entry : Text × List Instant) (_ : entry.1 = (key, hits).1) :
      (entry.1, hits).1 = entry.1 := rfl
  have found : (upsert Prod.fst (fun entry => (entry.1, hits)) (key, hits) windows).find?
      (fun entry => entry.1 == (key, hits).1) = _ := find?_upsert_self keeps
  rw [hitsOf, put, found]
  cases windows.find? fun entry => entry.1 == key with
  | none => rfl
  | some entry => rfl

theorem hitsOf_put_of_ne (apart : other ≠ key) :
    hitsOf (put windows key hits) other = hitsOf windows other := by
  have keeps (entry : Text × List Instant) (_ : entry.1 = (key, hits).1) :
      (entry.1, hits).1 = entry.1 := rfl
  have found : (upsert Prod.fst (fun entry => (entry.1, hits)) (key, hits) windows).find?
      (fun entry => entry.1 == other) = _ := find?_upsert_of_ne keeps apart
  rw [hitsOf, put, found, hitsOf]

theorem nodup_put (unique : (windows.map Prod.fst).Nodup) :
    ((put windows key hits).map Prod.fst).Nodup := nodup_upsert (fun _ _ => rfl) unique

theorem nodup_sweep (unique : (windows.map Prod.fst).Nodup) (cutoff : Instant) :
    ((sweep windows cutoff).map Prod.fst).Nodup := by
  rw [sweep]
  split
  · exact unique.sublist (List.filter_sublist.map _)
  · exact unique

theorem hitsOf_of_mem {entry : Text × List Instant} (unique : (windows.map Prod.fst).Nodup)
    (mem : entry ∈ windows) : hitsOf windows entry.1 = entry.2 := by
  rw [hitsOf, find?_of_unique unique mem]
  rfl

theorem hitsOf_of_absent (absent : ∀ entry ∈ windows, entry.1 ≠ key) : hitsOf windows key = [] := by
  rw [hitsOf, List.find?_eq_none.mpr (by simpa using absent)]
  rfl

/-- A key that is dropped has hits up to the cutoff only; any other is read as it was. -/
theorem hitsOf_sweep (unique : (windows.map Prod.fst).Nodup) (cutoff : Instant) (key : Text) :
    hitsOf (sweep windows cutoff) key = hitsOf windows key ∨
      hitsOf (sweep windows cutoff) key = [] ∧ windows.length > sweepAbove ∧
        (key, hitsOf windows key) ∈ windows ∧ ∀ hit ∈ hitsOf windows key, hit ≤ cutoff := by
  have swept := nodup_sweep unique cutoff
  rw [sweep] at swept ⊢
  split
  · rename_i many
    rw [if_pos many] at swept
    by_cases held : ∃ entry ∈ windows, entry.1 = key
    · obtain ⟨entry, mem, rfl⟩ := held
      rw [hitsOf_of_mem unique mem]
      by_cases live : entry.2.any (fun hit => hit > cutoff) = true
      · exact .inl (hitsOf_of_mem swept (List.mem_filter.mpr ⟨mem, live⟩))
      · refine .inr ⟨hitsOf_of_absent ?_, many, mem, by simpa using live⟩
        intro other kept same
        obtain ⟨held, live'⟩ := List.mem_filter.mp kept
        cases List.inj_on_of_nodup_map unique held mem same
        exact live live'
    · have absent : ∀ entry ∈ windows, entry.1 ≠ key := fun entry mem same => held ⟨entry, mem, same⟩
      rw [hitsOf_of_absent absent]
      exact .inl (hitsOf_of_absent fun entry kept => absent entry (List.mem_filter.mp kept).1)
  · exact .inl rfl

end Windows

end OpenCargo.Limits
