/-
Module: OpenCargo.Limits.Sweep
Purpose: The meter counts as it is meant to while no two entries share a key and no sweep drops a key
  that still counts. A sweep looks at every key with the window of the call it runs in, so under a
  longer limit it may forget what is not over yet.
Trusted boundary: none
Main exports: Calm, Counts, MeterLaws, publish_limits_hold
-/
import OpenCargo.Limits.Meter

namespace OpenCargo.Limits

open OpenCargo.Lib

/-! ### When the meter counts -/

/-- Two calls are counted under one key only when they are of one entry and one account. -/
def Unambiguous (limits : PublishLimits) (calls : List Call) : Prop :=
  ∀ c ∈ calls, ∀ d ∈ calls, ∀ scope limit scope' limit',
    limits.applicable c.format c.repository = some (scope, limit) →
    limits.applicable d.format d.repository = some (scope', limit') →
    keyOf scope c.account = keyOf scope' d.account → scope = scope' ∧ c.account = d.account

/-- A sweep the call runs drops no key with a hit inside the window of the key's own limit. -/
def Spares (limits : PublishLimits) (calls : List Call) (windows : Windows) (call : Call) : Prop :=
  ∀ scope limit, limits.applicable call.format call.repository = some (scope, limit) →
    windows.length > sweepAbove → ∀ entry ∈ windows,
      (∀ hit ∈ entry.2, hit ≤ cutoff limit call.now) →
      ∀ d ∈ calls, ∀ scope' limit', limits.applicable d.format d.repository = some (scope', limit') →
        keyOf scope' d.account = entry.1 → ∀ hit ∈ entry.2, hit ≤ cutoff limit' call.now

/-- Each call of a sequence meets a condition on the state it finds. -/
def Along {σ : Type} (meter : σ → Call → Admission × σ) (Ok : σ → Call → Prop) :
    σ → List Call → Prop
  | _, [] => True
  | s, call :: rest => Ok s call ∧ Along meter Ok (meter s call).2 rest

/-- No key is shared, and every sweep spares what counts. -/
structure Calm (limits : PublishLimits) (calls : List Call) : Prop where
  keys : Unambiguous limits calls
  sweeps : Along (admit_ limits) (Spares limits calls) [] calls

/-! ### The meter against the log -/

section Refines

variable {limits : PublishLimits} {calls : List Call} {windows : Windows} {log : Log}
  {now later : Instant}

/-- Under the key of each call of the sequence the windows hold what the log has within its limit's
window. -/
structure Counts (limits : PublishLimits) (calls : List Call) (windows : Windows) (log : Log)
    (now : Instant) : Prop where
  unique : (windows.map Prod.fst).Nodup
  live : ∀ d ∈ calls, ∀ scope limit, limits.applicable d.format d.repository = some (scope, limit) →
    recent (hitsOf windows (keyOf scope d.account)) (cutoff limit now) =
      recent (timesOf log (scope, d.account)) (cutoff limit now)

theorem Counts.nil (limits : PublishLimits) (calls : List Call) (now : Instant) :
    Counts limits calls [] [] now where
  unique := by simp
  live d _ scope limit _ := by simp [hitsOf, timesOf]

theorem Counts.mono (counts : Counts limits calls windows log now) (le : now ≤ later) :
    Counts limits calls windows log later where
  unique := counts.unique
  live d mem scope limit applies := by
    have cut : cutoff limit now ≤ cutoff limit later := Int.sub_le_sub_right le _
    rw [← recent_recent cut, counts.live d mem scope limit applies, recent_recent cut]

theorem Counts.sweep {call : Call} {scope : LimitScope} {limit : PublishLimit}
    (counts : Counts limits calls windows log call.now)
    (applies : limits.applicable call.format call.repository = some (scope, limit))
    (spares : Spares limits calls windows call) :
    Counts limits calls (sweep windows (cutoff limit call.now)) log call.now where
  unique := nodup_sweep counts.unique _
  live d mem scope' limit' applies' := by
    rw [← counts.live d mem scope' limit' applies']
    rcases hitsOf_sweep counts.unique (cutoff limit call.now) (keyOf scope' d.account) with
      same | ⟨none, many, held, old⟩
    · rw [same]
    · have gone := spares scope limit applies many _ held old d mem scope' limit' applies' rfl
      have empty : recent (hitsOf windows (keyOf scope' d.account)) (cutoff limit' call.now) = [] := by
        rw [recent, List.filter_eq_nil_iff]
        intro hit mem
        simpa using gone hit mem
      rw [none, empty]
      rfl

/-- A metered call is answered alike, and what it writes keeps the windows and the log together. -/
theorem Counts.count {call : Call} {scope : LimitScope} {limit : PublishLimit}
    (counts : Counts limits calls windows log call.now) (keys : Unambiguous limits calls)
    (mem : call ∈ calls)
    (applies : limits.applicable call.format call.repository = some (scope, limit)) :
    (count windows call.account scope limit call.now).1 = (ideal limits log call).1 ∧
      Counts limits calls (count windows call.account scope limit call.now).2
        (ideal limits log call).2 call.now := by
  have own := counts.live call mem scope limit applies
  -- every other entry or account is counted under another key
  have others {d : Call} {scope' : LimitScope} {limit' : PublishLimit} (mem' : d ∈ calls)
      (applies' : limits.applicable d.format d.repository = some (scope', limit'))
      (other : (scope, call.account) ≠ (scope', d.account)) :
      keyOf scope' d.account ≠ keyOf scope call.account := by
    intro same
    have ⟨one, two⟩ := keys call mem d mem' scope limit scope' limit' applies applies' same.symm
    exact other (Prod.ext one two)
  have same_limit {d : Call} {limit' : PublishLimit}
      (applies' : limits.applicable d.format d.repository = some (scope, limit')) :
      limit' = limit := by
    have one := PublishLimits.limitOf_applicable applies
    have two := PublishLimits.limitOf_applicable applies'
    exact Option.some.inj (two.symm.trans one)
  simp only [Limits.count, ideal, applies, own]
  split
  · refine ⟨rfl, nodup_put counts.unique, ?_⟩
    intro d mem' scope' limit' applies'
    rw [timesOf_append]
    by_cases same : (scope, call.account) = (scope', d.account)
    · obtain ⟨rfl, account⟩ := Prod.ext_iff.mp same
      simp only at account
      rw [← account, hitsOf_put_self, if_pos rfl, same_limit applies']
      rw [recent, List.filter_append, ← recent, recent_recent (le_refl _), recent, recent,
        List.filter_append]
    · rw [hitsOf_put_of_ne (others mem' applies' same), if_neg same, List.append_nil]
      exact counts.live d mem' scope' limit' applies'
  · refine ⟨rfl, nodup_put counts.unique, ?_⟩
    intro d mem' scope' limit' applies'
    by_cases same : (scope, call.account) = (scope', d.account)
    · obtain ⟨rfl, account⟩ := Prod.ext_iff.mp same
      simp only at account
      rw [← account, hitsOf_put_self, same_limit applies', recent_recent (le_refl _)]
    · rw [hitsOf_put_of_ne (others mem' applies' same)]
      exact counts.live d mem' scope' limit' applies'

theorem ideal_of_unmetered {call : Call} (free : limits.applicable call.format call.repository = none)
    (log : Log) : ideal limits log call = (.allowed, log) := by
  rw [ideal, free]

theorem Counts.admitUnswept {call : Call} (keys : Unambiguous limits calls) (mem : call ∈ calls)
    (counts : Counts limits calls windows log call.now) :
    (admitUnswept limits windows call).1 = (ideal limits log call).1 ∧
      Counts limits calls (admitUnswept limits windows call).2 (ideal limits log call).2
        call.now := by
  rw [Limits.admitUnswept]
  split
  · rename_i free
    rw [ideal_of_unmetered free]
    exact ⟨rfl, counts⟩
  · rename_i scope limit applies
    exact counts.count keys mem applies

theorem Counts.admit_ {call : Call} (keys : Unambiguous limits calls) (mem : call ∈ calls)
    (counts : Counts limits calls windows log call.now) (spares : Spares limits calls windows call) :
    (admit_ limits windows call).1 = (ideal limits log call).1 ∧
      Counts limits calls (admit_ limits windows call).2 (ideal limits log call).2 call.now := by
  rw [Limits.admit_]
  split
  · rename_i free
    rw [ideal_of_unmetered free]
    exact ⟨rfl, counts⟩
  · rename_i scope limit applies
    exact (counts.sweep applies spares).count keys mem applies

/-- A meter that answers each call as the log does answers the sequence as the log does. -/
theorem play_eq_ideal {meter : Windows → Call → Admission × Windows} {Ok : Windows → Call → Prop}
    (step : ∀ windows log call, call ∈ calls → Counts limits calls windows log call.now →
      Ok windows call → (meter windows call).1 = (ideal limits log call).1 ∧
        Counts limits calls (meter windows call).2 (ideal limits log call).2 call.now)
    {rest : List Call} (within : ∀ c ∈ rest, c ∈ calls)
    (counts : Counts limits calls windows log now)
    (ordered : rest.Pairwise fun c d => c.now ≤ d.now) (ahead : ∀ c ∈ rest, now ≤ c.now)
    (along : Along meter Ok windows rest) :
    (play meter windows rest).1 = (play (ideal limits) log rest).1 := by
  induction rest generalizing windows log now with
  | nil => rfl
  | cons call rest ih =>
      obtain ⟨first, later⟩ := List.pairwise_cons.mp ordered
      have ⟨answer, after⟩ := step windows log call (within call List.mem_cons_self)
        (counts.mono (ahead call List.mem_cons_self)) along.1
      have rest := ih (fun c mem => within c (List.mem_cons_of_mem _ mem)) after later first along.2
      simp only [play, answer, rest]

theorem along_any {σ : Type} (meter : σ → Call → Admission × σ) (s : σ) (calls : List Call) :
    Along meter (fun _ _ => True) s calls := by
  induction calls generalizing s with
  | nil => trivial
  | cons call calls ih => exact ⟨trivial, ih _⟩

end Refines

/-! ### The answers to a sequence -/

/-- What the meter answers to the calls, from its start. -/
def answers (limits : PublishLimits) (calls : List Call) : List Admission :=
  (play (admit_ limits) [] calls).1

/-- What it answers to `post` once `pre` has been answered. -/
def answersAfter (limits : PublishLimits) (pre post : List Call) : List Admission :=
  (play (admit_ limits) (play (admit_ limits) [] pre).2 post).1

/-- What it answers to one call once `pre` has been answered. -/
def answer (limits : PublishLimits) (pre : List Call) (call : Call) : Admission :=
  (admit_ limits (play (admit_ limits) [] pre).2 call).1

/-- What the log answers to `post` once `pre` has been answered. -/
def idealAfter (limits : PublishLimits) (pre post : List Call) : List Admission :=
  (play (ideal limits) (play (ideal limits) [] pre).2 post).1

section Answers

variable {limits : PublishLimits} {calls pre post : List Call} {call : Call}

theorem exists_around (calls : List Call) :
    ∃ start last, ∀ c ∈ calls, start ≤ c.now ∧ c.now ≤ last := by
  induction calls with
  | nil => exact ⟨0, 0, fun c mem => by cases mem⟩
  | cons call calls ih =>
      obtain ⟨start, last, around⟩ := ih
      refine ⟨min call.now start, max call.now last, fun c mem => ?_⟩
      rcases List.mem_cons.mp mem with rfl | held
      · exact ⟨min_le_left _ _, le_max_left _ _⟩
      · have ⟨after, before⟩ := around c held
        exact ⟨(min_le_right _ _).trans after, before.trans (le_max_right _ _)⟩

theorem answers_eq_ideal (ordered : calls.Pairwise fun c d => c.now ≤ d.now)
    (calm : Calm limits calls) : answers limits calls = (play (ideal limits) [] calls).1 := by
  obtain ⟨start, _, around⟩ := exists_around calls
  exact play_eq_ideal (fun _ _ _ mem counts spares => counts.admit_ calm.keys mem spares)
    (fun _ mem => mem) (Counts.nil limits calls start) ordered (fun c mem => (around c mem).1)
    calm.sweeps

theorem unswept_eq_ideal (ordered : calls.Pairwise fun c d => c.now ≤ d.now)
    (keys : Unambiguous limits calls) :
    (play (admitUnswept limits) [] calls).1 = (play (ideal limits) [] calls).1 := by
  obtain ⟨start, _, around⟩ := exists_around calls
  exact play_eq_ideal (fun _ _ _ mem counts _ => counts.admitUnswept keys mem)
    (fun _ mem => mem) (Counts.nil limits calls start) ordered (fun c mem => (around c mem).1)
    (along_any _ _ _)

theorem answersAfter_eq_ideal (ordered : (pre ++ post).Pairwise fun c d => c.now ≤ d.now)
    (calm : Calm limits (pre ++ post)) : answersAfter limits pre post = idealAfter limits pre post := by
  have whole := answers_eq_ideal ordered calm
  rw [answers, play_append, play_append] at whole
  exact (List.append_inj whole (by rw [play_length, play_length])).2

end Answers

/-! ### What the log keeps -/

def quota (limits : PublishLimits) (k : LimitScope × Text) : Quota :=
  match limits.limitOf k.1 with
  | some limit => ⟨limit.max, limit.window⟩
  | none => ⟨0, 0⟩

/-- When the account was let by under the entry, by the answers. -/
def admitted (limits : PublishLimits) (scope : LimitScope) (account : Text) (calls : List Call)
    (answers : List Admission) : List Instant :=
  (calls.zip answers).filterMap fun one =>
    if one.2 = .allowed ∧
        (limits.applicable one.1.format one.1.repository).map Prod.fst = some scope ∧
        one.1.account = account then
      some one.1.now
    else none

section Log

variable {limits : PublishLimits} {calls : List Call} {call : Call} {log : Log} {scope : LimitScope}
  {limit : PublishLimit} {account : Text} {now last : Instant}

theorem quota_of_limit (own : limits.limitOf scope = some limit) (account : Text) :
    quota limits (scope, account) = ⟨limit.max, limit.window⟩ := by
  simp [quota, own]

theorem ideal_eq_note (applies : limits.applicable call.format call.repository = some (scope, limit)) :
    (ideal limits log call).2 = note (quota limits) log (scope, call.account) call.now := by
  have own := quota_of_limit (PublishLimits.limitOf_applicable applies) call.account
  have noted : note (quota limits) log (scope, call.account) call.now =
      if (recent (timesOf log (scope, call.account)) (cutoff limit call.now)).length < limit.max then
        log ++ [((scope, call.account), call.now)] else log := by
    rw [note, own]
    rfl
  rw [noted]
  simp only [ideal, applies]
  split <;> rfl

theorem Spread.ideal (spread : Spread (quota limits) log now) (later : now ≤ call.now) :
    Spread (quota limits) (ideal limits log call).2 call.now := by
  cases applies : limits.applicable call.format call.repository with
  | none =>
      rw [ideal_of_unmetered applies]
      exact spread.mono later
  | some both =>
      obtain ⟨scope, limit⟩ := both
      rw [ideal_eq_note applies]
      exact (spread.mono later).note _

theorem Spread.play (spread : Spread (quota limits) log now)
    (ordered : calls.Pairwise fun c d => c.now ≤ d.now) (ahead : ∀ c ∈ calls, now ≤ c.now)
    (bound : ∀ c ∈ calls, c.now ≤ last) (le : now ≤ last) :
    Spread (quota limits) (play (Limits.ideal limits) log calls).2 last := by
  induction calls generalizing log now with
  | nil => exact spread.mono le
  | cons call calls ih =>
      obtain ⟨first, later⟩ := List.pairwise_cons.mp ordered
      exact ih (Spread.ideal spread (ahead call List.mem_cons_self)) later first
        (fun c mem => bound c (List.mem_cons_of_mem _ mem)) (bound call List.mem_cons_self)

theorem admitted_cons {first : Admission} {rest : List Admission} :
    admitted limits scope account (call :: calls) (first :: rest) =
      (if first = .allowed ∧
          (limits.applicable call.format call.repository).map Prod.fst = some scope ∧
          call.account = account then [call.now] else []) ++
        admitted limits scope account calls rest := by
  simp only [admitted, List.zip_cons_cons, List.filterMap_cons]
  split
  · rename_i none
    split at none
    · cases none
    · rename_i out
      rw [if_neg out]
      rfl
  · rename_i time some
    split at some
    · rename_i in_
      cases some
      rw [if_pos in_]
      rfl
    · cases some

theorem timesOf_ideal : timesOf (ideal limits log call).2 (scope, account) =
    timesOf log (scope, account) ++
      if (ideal limits log call).1 = .allowed ∧
          (limits.applicable call.format call.repository).map Prod.fst = some scope ∧
          call.account = account then [call.now] else [] := by
  cases applies : limits.applicable call.format call.repository with
  | none => simp [ideal_of_unmetered applies]
  | some both =>
      obtain ⟨scope', limit⟩ := both
      simp only [ideal, applies, Option.map_some, Option.some.injEq]
      split
      · rw [timesOf_append]
        simp
      · simp

theorem timesOf_play : timesOf (play (ideal limits) log calls).2 (scope, account) =
    timesOf log (scope, account) ++
      admitted limits scope account calls (play (ideal limits) log calls).1 := by
  induction calls generalizing log with
  | nil => simp [play, admitted]
  | cons call calls ih =>
      simp only [play]
      rw [ih, timesOf_ideal, admitted_cons, List.append_assoc]

theorem seconds_reach_past (now oldest window : Int) (inside : now - window < oldest) :
    oldest ≤ now + ((max ((oldest + window - now).tdiv 1000000 / 1000) 0).toNat + 1 : Nat) *
      1000000000 - window := by
  have ahead : 0 ≤ oldest + window - now := by omega
  rw [Int.tdiv_eq_ediv_of_nonneg ahead]
  omega

theorem room_after_retry (spread : Spread (quota limits) log now)
    (own : limits.limitOf scope = some limit)
    (full : ¬(recent (timesOf log (scope, account)) (cutoff limit now)).length < limit.max) :
    (recent (timesOf log (scope, account)) (cutoff limit (now +
      retryAfterSecs (recent (timesOf log (scope, account)) (cutoff limit now)) limit now *
        1000000000))).length < limit.max := by
  have some_ : recent (timesOf log (scope, account)) (cutoff limit now) ≠ [] := by
    intro empty
    rw [empty] at full
    exact full limit.atLeastOne
  obtain ⟨oldest, least⟩ := Option.isSome_iff_exists.mp (List.isSome_min?_of_ne_nil some_)
  have held := List.min?_mem least
  have inside : cutoff limit now < oldest := by
    rw [recent, List.mem_filter] at held
    simpa using held.2
  have read := quota_of_limit own account
  have behind : oldest ∈ recent (timesOf log (scope, account))
      (now - (quota limits (scope, account)).window) := by
    rw [read]
    exact held
  have left : oldest ≤ now + (retryAfterSecs (recent (timesOf log (scope, account))
      (cutoff limit now)) limit now : Int) * 1000000000 - (quota limits (scope, account)).window := by
    rw [read, retryAfterSecs, least]
    exact seconds_reach_past now oldest limit.window inside
  have ahead : now ≤ now + (retryAfterSecs (recent (timesOf log (scope, account))
      (cutoff limit now)) limit now : Int) * 1000000000 := by
    exact Int.le_add_of_nonneg_right (by positivity)
  have room := spread.room_after_oldest behind ahead left
  rw [read] at room
  exact room

end Log

/-! ### The laws of the meter -/

/-- At most `max` in any half-open window, whichever end is in it; a refused call leaves no trace; a
refusal tells when to come back; and the sweep is not seen. Where a call is left out, the shorter
sequence is asked to meet `Ok`. -/
structure MeterLaws (limits : PublishLimits) (calls : List Call) (Ok : List Call → Prop) : Prop where
  spread : ∀ scope account limit, limits.limitOf scope = some limit → ∀ start : Instant,
    ((admitted limits scope account calls (answers limits calls)).filter fun t =>
        start ≤ t ∧ t < start + limit.window).length ≤ limit.max ∧
      ((admitted limits scope account calls (answers limits calls)).filter fun t =>
        start < t ∧ t ≤ start + limit.window).length ≤ limit.max
  refusals : ∀ pre call post scope limit secs, calls = pre ++ call :: post →
    answer limits pre call = .refused scope limit secs → Ok (pre ++ post) →
      answersAfter limits (pre ++ [call]) post = answersAfter limits pre post
  retries : ∀ pre call next post scope limit secs, calls = pre ++ call :: next :: post →
    answer limits pre call = .refused scope limit secs →
    (limits.applicable next.format next.repository).map Prod.fst = some scope →
    next.account = call.account → next.now = call.now + (secs : Int) * 1000000000 →
      answer limits (pre ++ [call]) next = .allowed
  unswept : answers limits calls = (play (admitUnswept limits) [] calls).1

section Laws

variable {limits : PublishLimits} {calls pre post : List Call} {call : Call} {scope : LimitScope}
  {limit : PublishLimit} {secs : Nat}

theorem answer_eq_ideal (ordered : (pre ++ call :: post).Pairwise fun c d => c.now ≤ d.now)
    (calm : Calm limits (pre ++ call :: post)) :
    answer limits pre call = (ideal limits (play (ideal limits) [] pre).2 call).1 := by
  have same := answersAfter_eq_ideal ordered calm
  simp only [answersAfter, idealAfter, play, List.cons.injEq] at same
  exact same.1

theorem last_answer_eq_ideal
    (same : answers limits (pre ++ [call]) = (play (ideal limits) [] (pre ++ [call])).1) :
    answer limits pre call = (ideal limits (play (ideal limits) [] pre).2 call).1 := by
  rw [answers, play_append, play_append] at same
  have last := (List.append_inj same (by rw [play_length, play_length])).2
  simp only [play, List.cons.injEq, and_true] at last
  exact last

/-- A call the log refuses is metered and finds no room, and the log stays as it is. -/
theorem ideal_refused {log : Log} (refused : (ideal limits log call).1 = .refused scope limit secs) :
    limits.applicable call.format call.repository = some (scope, limit) ∧
      ¬(recent (timesOf log (scope, call.account)) (cutoff limit call.now)).length < limit.max ∧
      secs = retryAfterSecs (recent (timesOf log (scope, call.account)) (cutoff limit call.now)) limit
        call.now ∧ (ideal limits log call).2 = log := by
  cases applies : limits.applicable call.format call.repository with
  | none =>
      rw [ideal_of_unmetered applies] at refused
      cases refused
  | some both =>
      obtain ⟨scope', limit'⟩ := both
      simp only [ideal, applies] at refused ⊢
      split at refused
      · cases refused
      · rename_i full
        cases refused
        exact ⟨rfl, full, rfl, by rw [if_neg full]⟩

theorem room_of_allowed {log : Log}
    (applies : limits.applicable call.format call.repository = some (scope, limit))
    (allowed : (ideal limits log call).1 = .allowed) :
    (recent (timesOf log (scope, call.account)) (cutoff limit call.now)).length < limit.max := by
  simp only [ideal, applies] at allowed
  split at allowed
  · rename_i room
    exact room
  · cases allowed

theorem play_snoc {σ : Type} (meter : σ → Call → Admission × σ) (s : σ) :
    (play meter s (pre ++ [call])).2 = (meter (play meter s pre).2 call).2 := by
  rw [play_append]
  rfl

/-- The log of an ordered sequence is spread, at any time none of its calls is after. -/
theorem spread_play {last : Instant} (ordered : calls.Pairwise fun c d => c.now ≤ d.now)
    (bound : ∀ c ∈ calls, c.now ≤ last) :
    Spread (quota limits) (play (ideal limits) [] calls).2 last := by
  obtain ⟨start, _, around⟩ := exists_around calls
  have spread : Spread (quota limits) ([] : Log) (min start last) := .nil
  refine Spread.play spread ordered (fun c mem => ?_) bound (min_le_right _ _)
  exact (min_le_left _ _).trans (around c mem).1

/-- While no two entries share a key and every sweep spares what counts, the meter keeps its laws. -/
theorem publish_limits_hold (ordered : calls.Pairwise fun c d => c.now ≤ d.now)
    (calm : Calm limits calls) : MeterLaws limits calls (Calm limits) where
  spread scope account limit own start := by
    obtain ⟨_, last, around⟩ := exists_around calls
    have spread : Spread (quota limits) (play (ideal limits) [] calls).2 last :=
      spread_play ordered fun c mem => (around c mem).2
    have fits := spread.fits (scope, account)
    rw [quota_of_limit own, timesOf_play, timesOf, List.filter_nil, List.map_nil, List.nil_append,
      ← answers_eq_ideal ordered calm] at fits
    refine ⟨fits _ (narrow_fromStart start limit.window), fits _ ?_⟩
    have narrow := narrow_toEnd (start + limit.window) limit.window
    simpa using narrow
  refusals pre call post scope limit secs whole refused calm' := by
    subst whole
    have shorter : (pre ++ post).Pairwise fun c d => c.now ≤ d.now :=
      ordered.sublist ((List.sublist_cons_self call post).append_left pre)
    rw [answer_eq_ideal ordered calm] at refused
    obtain ⟨_, _, _, untouched⟩ := ideal_refused refused
    have long : answersAfter limits (pre ++ [call]) post = idealAfter limits (pre ++ [call]) post :=
      answersAfter_eq_ideal (by simpa using ordered) (by simpa using calm)
    rw [long, answersAfter_eq_ideal shorter calm', idealAfter, idealAfter, play_snoc, untouched]
  retries pre call next post scope limit secs whole refused same own later := by
    subst whole
    rw [answer_eq_ideal ordered calm] at refused
    obtain ⟨applies, full, told, untouched⟩ := ideal_refused refused
    have next_to : pre ++ call :: next :: post = pre ++ [call] ++ next :: post := by simp
    have answered := answer_eq_ideal (next_to ▸ ordered) (next_to ▸ calm)
    have before : ∀ c ∈ pre, c.now ≤ call.now := fun c mem =>
      (List.pairwise_append.mp ordered).2.2 c mem call List.mem_cons_self
    have spread : Spread (quota limits) (play (ideal limits) [] pre).2 call.now :=
      spread_play (List.pairwise_append.mp ordered).1 before
    have limited := PublishLimits.limitOf_applicable applies
    have room := room_after_retry spread limited full
    rw [← told, ← later, ← own] at room
    rw [answered, play_snoc, untouched]
    obtain ⟨⟨scope', limit'⟩, applies', rfl⟩ := Option.map_eq_some_iff.mp same
    have two := PublishLimits.limitOf_applicable applies'
    cases Option.some.inj (two.symm.trans limited)
    simp only [ideal, applies']
    rw [if_pos room]
  unswept := (answers_eq_ideal ordered calm).trans (unswept_eq_ideal ordered calm.keys).symm

end Laws

/-! ### Where the condition holds, and where not -/

section Conditions

variable {limits : PublishLimits}

theorem takeWhile_key {key : Text} (plain : '|' ∉ key) (account : Text) :
    (key ++ '|' :: account).takeWhile (· != '|') = key := by
  have before : ∀ c ∈ key, (c != '|') = true := by
    intro c mem
    rw [bne_iff_ne]
    rintro rfl
    exact plain mem
  rw [List.takeWhile_append_of_pos before]
  simp

theorem Format.asStr_injective {a b : Format} (same : a.asStr = b.asStr) : a = b := by
  cases a <;> cases b <;> first | rfl | exact absurd same (by decide)

/-- The letter a key starts with tells what kind of entry it is of. -/
def LimitScope.letter : LimitScope → Char
  | .repository _ => 'r'
  | .format _ => 'f'
  | .every => 'e'

theorem LimitScope.head?_key (scope : LimitScope) : scope.key.head? = some scope.letter := by
  cases scope <;> rfl

theorem LimitScope.key_injective {a b : LimitScope} (same : a.key = b.key) : a = b := by
  have letters : a.letter = b.letter := by
    have heads := congrArg List.head? same
    rw [head?_key, head?_key] at heads
    exact Option.some.inj heads
  cases a with
  | repository name =>
      cases b with
      | repository other => rw [List.append_cancel_left same]
      | format kind => simp [letter] at letters
      | every => simp [letter] at letters
  | format kind =>
      cases b with
      | repository other => simp [letter] at letters
      | format other => rw [Format.asStr_injective (List.append_cancel_left same)]
      | every => simp [letter] at letters
  | every =>
      cases b with
      | repository other => simp [letter] at letters
      | format kind => simp [letter] at letters
      | every => rfl

theorem unambiguous_of_plain_names (plain : ∀ entry ∈ limits.perRepository, '|' ∉ entry.1)
    (calls : List Call) : Unambiguous limits calls := by
  have barless {scope : LimitScope} {limit : PublishLimit}
      (own : limits.limitOf scope = some limit) : '|' ∉ scope.key := by
    cases scope with
    | repository name =>
        rw [PublishLimits.limitOf, Option.map_eq_some_iff] at own
        obtain ⟨entry, found, _⟩ := own
        have named : entry.1 = name := by simpa using List.find?_some found
        have bar := plain entry (List.mem_of_find?_eq_some found)
        have spelled : (LimitScope.repository name).key = "repository:".toList ++ name := rfl
        have barless : '|' ∉ "repository:".toList := by decide
        rw [spelled, List.mem_append, not_or]
        exact ⟨barless, named ▸ bar⟩
    | format kind => cases kind <;> decide
    | every => decide
  intro c _ d _ scope limit scope' limit' applies applies' same
  have one := takeWhile_key (barless (PublishLimits.limitOf_applicable applies)) c.account
  have two := takeWhile_key (barless (PublishLimits.limitOf_applicable applies')) d.account
  have keys : scope.key = scope'.key := by
    rw [← one, ← two]
    exact congrArg _ same
  cases LimitScope.key_injective keys
  simpa [keyOf] using same

theorem calm_of_one_window (plain : ∀ entry ∈ limits.perRepository, '|' ∉ entry.1)
    (one : ∀ scope limit scope' limit', limits.limitOf scope = some limit →
      limits.limitOf scope' = some limit' → limit.window = limit'.window) (calls : List Call) :
    Calm limits calls where
  keys := unambiguous_of_plain_names plain calls
  sweeps := by
    have spares (windows : Windows) (call : Call) : Spares limits calls windows call := by
      intro scope limit applies _ entry _ old d _ scope' limit' applies' _
      have same := one _ _ _ _ (PublishLimits.limitOf_applicable applies)
        (PublishLimits.limitOf_applicable applies')
      rwa [cutoff, same] at old
    have all : ∀ (rest : List Call) (windows : Windows),
        Along (admit_ limits) (Spares limits calls) windows rest := by
      intro rest
      induction rest with
      | nil => exact fun _ => trivial
      | cons call rest ih => exact fun windows => ⟨spares windows call, ih _⟩
    exact all calls []

end Conditions

def second : Int := 1000000000

def onceAMinute : PublishLimit := ⟨1, 60, by decide, by decide, by decide, by decide⟩

def onceAnHour : PublishLimit := ⟨1, 3600, by decide, by decide, by decide, by decide⟩

def minuteForAll : PublishLimits := ⟨some onceAMinute, [], []⟩

/-- The same account at these seconds. -/
def knocks (seconds : List Int) : List Call :=
  seconds.map fun at_ => ⟨"ci".toList, .npm, "fast".toList, at_ * second⟩

theorem knocking_in_vain_costs_nothing :
    MeterLaws minuteForAll (knocks [0, 30, 61]) (Calm minuteForAll) ∧
      answers minuteForAll (knocks [0, 30, 61]) =
        [.allowed, .refused .every onceAMinute 31, .allowed] := by
  refine ⟨publish_limits_hold ?_ (calm_of_one_window ?_ ?_ _), by decide⟩
  · simp [knocks, second]
  · simp [minuteForAll]
  · intro scope limit scope' limit' own own'
    cases scope <;> cases scope' <;> simp_all [minuteForAll, PublishLimits.limitOf]

/-! ### A crowd on a short limit -/

/-- A repository of its own with a longer window than the rest. -/
def slowAndFast : PublishLimits := ⟨some onceAMinute, [], [("slow".toList, onceAnHour)]⟩

def slowCall (at_ : Int) : Call := ⟨"ci".toList, .npm, "slow".toList, at_ * second⟩

def fastCall (account : Text) (at_ : Int) : Call := ⟨account, .npm, "fast".toList, at_ * second⟩

/-- As many accounts as asked, each with one publish. -/
def crowd (n : Nat) : List Call := (List.range n).map fun i => fastCall (List.replicate i 'x') 0

def slowKey : Text := keyOf (.repository "slow".toList) "ci".toList

/-- What is held once the crowd has published. -/
def held (n : Nat) : Windows :=
  (slowKey, [0]) :: (List.range n).map fun i => (keyOf .every (List.replicate i 'x'), [0])

theorem put_of_absent {windows : Windows} {key : Text} (absent : ∀ entry ∈ windows, entry.1 ≠ key)
    (hits : List Instant) : put windows key hits = windows ++ [(key, hits)] := by
  rw [put, upsert, if_neg]
  simp only [List.any_eq_true, decide_eq_true_eq, not_exists, not_and]
  exact absent

theorem held_absent {n : Nat} {account : Text} (new : ∀ i < n, account ≠ List.replicate i 'x') :
    ∀ entry ∈ held n, entry.1 ≠ keyOf .every account := by
  intro entry mem
  rcases List.mem_cons.mp mem with rfl | crowded
  · intro same
    have letters : some 'r' = some 'e' := congrArg List.head? same
    exact absurd letters (by decide)
  · obtain ⟨i, within, rfl⟩ := List.mem_map.mp crowded
    intro same
    have accounts : List.replicate i 'x' = account := by simpa [keyOf] using same
    exact new i (List.mem_range.mp within) accounts.symm

theorem length_held (n : Nat) : (held n).length = n + 1 := by simp [held]

theorem admit_fast {windows : Windows} {account : Text} {at_ : Int}
    (few : windows.length ≤ sweepAbove)
    (absent : ∀ entry ∈ windows, entry.1 ≠ keyOf .every account) :
    admit_ slowAndFast windows (fastCall account at_) =
      (.allowed, windows ++ [(keyOf .every account, [at_ * second])]) := by
  have applies : slowAndFast.applicable .npm "fast".toList = some (.every, onceAMinute) := by decide
  have swept (cutoff : Instant) : sweep windows cutoff = windows := if_neg (Nat.not_lt.mpr few)
  have room : (recent ([] : List Instant) (cutoff onceAMinute (at_ * second))).length <
      onceAMinute.max := Nat.one_pos
  simp only [admit_, fastCall, applies, swept, count, hitsOf_of_absent absent]
  rw [if_pos room, put_of_absent absent]
  rfl

theorem held_after_crowd {n : Nat} (few : n ≤ sweepAbove) :
    (play (admit_ slowAndFast) [] (slowCall 0 :: crowd n)).2 = held n := by
  induction n with
  | zero => decide
  | succ n ih =>
      have longer : slowCall 0 :: crowd (n + 1) =
          (slowCall 0 :: crowd n) ++ [fastCall (List.replicate n 'x') 0] := by
        simp [crowd, List.range_succ]
      have fresh : ∀ i < n, List.replicate n 'x' ≠ List.replicate i 'x' := by
        intro i less same
        have := congrArg List.length same
        simp at this
        omega
      rw [longer, play_snoc, ih (Nat.le_of_succ_le few),
        admit_fast (by rw [length_held]; exact few) (held_absent fresh)]
      simp [held, List.range_succ]

/-- Everything that is held is from the start, so a sweep two minutes on drops it all. -/
theorem sweep_held : sweep (held sweepAbove) (cutoff onceAMinute (120 * second)) = [] := by
  rw [sweep, if_pos (by rw [length_held]; exact Nat.lt_succ_self _), List.filter_eq_nil_iff]
  intro entry mem
  have first : entry.2 = [0] := by
    rcases List.mem_cons.mp mem with rfl | crowded
    · rfl
    · obtain ⟨i, _, rfl⟩ := List.mem_map.mp crowded
      rfl
  rw [first]
  decide

/-- The slow repository's publish, forgotten by a sweep the fast ones' crowd sets off. -/
def crowded : List Call := slowCall 0 :: crowd sweepAbove ++ [fastCall "late".toList 120]

theorem slow_call_is_let_by_again : answer slowAndFast crowded (slowCall 130) = .allowed := by
  have late : (play (admit_ slowAndFast) [] crowded).2 =
      [(keyOf .every "late".toList, [120 * second])] := by
    rw [crowded, play_snoc, held_after_crowd (Nat.le_refl _)]
    have applies : slowAndFast.applicable .npm "fast".toList = some (.every, onceAMinute) := by decide
    simp only [admit_, fastCall, applies, sweep_held]
    decide
  rw [answer, late]
  decide

/-- By the log it is not: its first publish is ten seconds more than two minutes behind. -/
theorem slow_call_is_not_due (rest : List Call) :
    (ideal slowAndFast (play (ideal slowAndFast) [] (slowCall 0 :: rest)).2 (slowCall 130)).1 ≠
      .allowed := by
  have logged : (0 : Instant) ∈ timesOf (play (ideal slowAndFast) [] (slowCall 0 :: rest)).2
      (.repository "slow".toList, "ci".toList) := by
    simp only [play]
    rw [timesOf_play]
    exact List.mem_append_left _ (by decide)
  generalize (play (ideal slowAndFast) [] (slowCall 0 :: rest)).2 = log at logged ⊢
  have applies : slowAndFast.applicable .npm "slow".toList =
      some (.repository "slow".toList, onceAnHour) := by decide
  have behind : (0 : Instant) ∈ recent (timesOf log (.repository "slow".toList, "ci".toList))
      (cutoff onceAnHour (130 * second)) := List.mem_filter.mpr ⟨logged, by decide⟩
  intro allowed
  have room := room_of_allowed applies allowed
  exact absurd room (Nat.not_lt.mpr (List.length_pos_of_mem behind))

theorem crowded_ordered : (crowded ++ [slowCall 130]).Pairwise fun c d => c.now ≤ d.now := by
  have start : ∀ c ∈ slowCall 0 :: crowd sweepAbove, c.now = 0 := by
    intro c mem
    rcases List.mem_cons.mp mem with rfl | crowded
    · rfl
    · obtain ⟨i, _, rfl⟩ := List.mem_map.mp crowded
      rfl
  rw [crowded, List.append_assoc, List.pairwise_append]
  refine ⟨List.pairwise_of_forall_mem_list fun c mem d mem' => ?_, by decide, fun c mem d mem' => ?_⟩
  · rw [start c mem, start d mem']
  · rw [start c mem]
    rcases List.mem_cons.mp mem' with rfl | last
    · decide
    · cases List.mem_singleton.mp last
      decide

/-- A thousand accounts on a limit of a minute make the meter forget what counts for an hour. -/
theorem crowd_lifts_a_longer_limit :
    ¬∀ (limits : PublishLimits) (calls : List Call),
      (calls.Pairwise fun c d => c.now ≤ d.now) → MeterLaws limits calls fun _ => True := by
  intro laws
  have unseen := (laws slowAndFast (crowded ++ [slowCall 130]) crowded_ordered).unswept
  have plain : ∀ entry ∈ slowAndFast.perRepository, '|' ∉ entry.1 := by decide
  rw [unswept_eq_ideal crowded_ordered (unambiguous_of_plain_names plain _)] at unseen
  have last := last_answer_eq_ideal unseen
  rw [slow_call_is_let_by_again, crowded, List.cons_append] at last
  exact slow_call_is_not_due _ last.symm

end OpenCargo.Limits
