/-
Module: OpenCargo.Identity.Clock
Purpose: The re-authentication clock stands still for the time the provider could not be reached, each
  instant counted once. The probes of one authority keep its outages apart; a migration brings those
  of two authorities together, and counts once what lies in one of them only.
Trusted boundary: the probes' clock does not go back
Main exports: Kept, Kept.step, suspended_eq_covered, suspension_counts_each_instant_once
-/
import OpenCargo.Identity.Gate
import OpenCargo.Lib.Spans

namespace OpenCargo.Identity

open OpenCargo.Lib

/-- The tables, and when the last probe was made. -/
structure Clocked where
  tables : Tables
  clock : Instant
deriving Repr, DecidableEq, Inhabited

/-- A probe is made no earlier than the one before it. -/
def Clocked.step (s : Clocked) (act : Act) : Option Clocked :=
  match act with
  | .recordProbe _ _ now =>
      if s.clock ≤ now then (s.tables.step act).map (⟨·, now⟩) else none
  | _ => (s.tables.step act).map (⟨·, s.clock⟩)

/-! ### Outages as spans -/

def Outage.span (o : Outage) : Span := ⟨o.start, o.end_⟩

/-- In seconds, as the table has it. -/
def OutageRow.span (row : OutageRow) : Span := ⟨row.startedAt, row.endedAt⟩

def OutageRow.outage (row : OutageRow) : Outage := ⟨readTs row.startedAt, row.endedAt.map readTs⟩

theorem OutageRow.covers_second {row : OutageRow} {i : Instant} (covers : row.outage.span.Covers i) :
    row.span.Covers (bindTs i) := by
  obtain ⟨begun, going⟩ := covers
  refine ⟨(Int.le_ediv_iff_mul_le (by decide)).mpr begun, fun e ends => ?_⟩
  have before := going (readTs e) (Option.mem_map_of_mem readTs ends)
  exact (Int.ediv_lt_iff_lt_mul (by decide)).mpr before

theorem OutageRow.apart_outage {row other : OutageRow} (apart : row.span.Apart other.span) :
    row.outage.span.Apart other.outage.span :=
  fun i both => apart (bindTs i) ⟨covers_second both.1, covers_second both.2⟩

theorem Outage.elapsed_eq_within (o : Outage) (lastLogin now : Instant) :
    o.elapsed lastLogin now = o.span.within lastLogin now := by
  have length (a b : Int) : (if a < b then b - a else 0) = max 0 (b - a) := by
    split <;> omega
  exact length _ _

theorem suspended_eq_sum (link : LinkState) (now : Instant) :
    suspended link now = (link.outages.map fun o => o.span.within link.lastLogin now).sum := by
  simp only [suspended, Outage.elapsed_eq_within]
  rw [List.sum_eq_foldl, List.foldl_map]

theorem suspended_eq_covered {link : LinkState} (now : Instant)
    (apart : (link.outages.map Outage.span).Pairwise Span.Apart) :
    suspended link now = covered (link.outages.map Outage.span) link.lastLogin now := by
  rw [suspended_eq_sum, covered_eq_sum apart, List.map_map]
  rfl

/-! ### The outages a run leaves -/

/-- Those of one authority are apart, and none of them is ahead of the probes. -/
structure Kept (s : Clocked) : Prop where
  unique : (s.tables.outages.map OutageRow.slot).Nodup
  apart : s.tables.outages.Pairwise fun row other =>
    row.authority = other.authority → row.span.Apart other.span
  past : ∀ row ∈ s.tables.outages, ∀ e ∈ row.endedAt, e ≤ bindTs s.clock

/-- The authorities a migration is between. -/
def Act.migration : Act → Option (Authority × Authority)
  | .migrateAuthority source target => some (source, target)
  | _ => none

/-- A migration that goes through brings together outages that are apart: the source's own, moved
to another authority, share no second with the target's. -/
def Merges (s : Clocked) (act : Act) (_ : Clocked) : Prop :=
  ∀ move ∈ act.migration, move.1 ≠ move.2 → (s.tables.act act).isSome = true →
    ∀ row ∈ s.tables.outages, ∀ other ∈ s.tables.outages,
      row.authority = move.1 → other.authority = move.2 → row.span.Apart other.span

instance (s : Clocked) (act : Act) (t : Clocked) : Decidable (Merges s act t) :=
  inferInstanceAs (Decidable (∀ move ∈ act.migration, _))

section Keeps

variable {s t : Clocked}

theorem bindTs_mono {a b : Instant} (le : a ≤ b) : bindTs a ≤ bindTs b :=
  Int.ediv_le_ediv (by decide) le

theorem Kept.of_same (kept : Kept s) (same : t.tables.outages = s.tables.outages)
    (later : s.clock ≤ t.clock) : Kept t where
  unique := by
    rw [same]
    exact kept.unique
  apart := by
    rw [same]
    exact kept.apart
  past row mem e ends := by
    rw [same] at mem
    exact (kept.past row mem e ends).trans (bindTs_mono later)

theorem Kept.opened (kept : Kept s) {authority : Authority} {now : Instant} (later : s.clock ≤ now)
    (closed : s.tables.openOutage authority = none)
    (fresh : ∀ row ∈ s.tables.outages, row.slot ≠ (authority, bindTs now)) :
    Kept ⟨{ s.tables with outages := s.tables.outages ++ [⟨authority, bindTs now, none⟩] }, now⟩ where
  unique := by
    rw [List.map_append, List.nodup_append]
    refine ⟨kept.unique, by simp, ?_⟩
    rintro _ mem _ new rfl
    obtain ⟨row, held, same⟩ := List.mem_map.mp mem
    exact fresh row held (same.trans (List.mem_singleton.mp new))
  apart := by
    rw [List.pairwise_append]
    refine ⟨kept.apart, by simp, ?_⟩
    rintro row mem _ new own i ⟨before, after⟩
    cases List.mem_singleton.mp new
    obtain ⟨e, ends⟩ : ∃ e, row.endedAt = some e := by
      have ended := List.find?_eq_none.mp closed row mem
      exact Option.ne_none_iff_exists'.mp (by simpa [own] using ended)
    have before := before.2 e ends
    have after := after.1
    have := kept.past row mem e ends
    have := bindTs_mono later
    simp only [OutageRow.span] at after
    omega
  past row mem e ends := by
    rcases List.mem_append.mp mem with old | new
    · exact (kept.past row old e ends).trans (bindTs_mono later)
    · cases List.mem_singleton.mp new
      cases ends

theorem Kept.closed (kept : Kept s) {row : OutageRow} {now : Instant} (later : s.clock ≤ now)
    (mem : row ∈ s.tables.outages) (lasting : row.endedAt = none) :
    Kept ⟨{ s.tables with
      outages := updateAt OutageRow.slot row.slot
        (fun row => { row with endedAt := some (bindTs now) }) s.tables.outages }, now⟩ where
  unique := by
    have slots : (updateAt OutageRow.slot row.slot
        (fun row => { row with endedAt := some (bindTs now) }) s.tables.outages).map OutageRow.slot =
          s.tables.outages.map OutageRow.slot := map_updateAt fun _ _ => rfl
    exact slots ▸ kept.unique
  apart := by
    have shrinks : ∀ old ∈ s.tables.outages, ∀ i,
        (if old.slot = row.slot then { old with endedAt := some (bindTs now) } else old).span.Covers i →
          old.span.Covers i := by
      intro old held i
      split
      · rename_i same
        cases List.inj_on_of_nodup_map kept.unique held mem same
        exact fun covers => Span.Covers.of_cut (a := row.span) covers lasting
      · exact id
    rw [updateAt, List.pairwise_map]
    refine kept.apart.imp_of_mem fun held held' apart own i both => ?_
    refine apart ?_ i ⟨shrinks _ held i both.1, shrinks _ held' i both.2⟩
    split at own <;> split at own <;> exact own
  past old mem e ends := by
    rcases mem_updateAt.mp mem with ⟨held, _⟩ | ⟨_, _, _, rfl⟩
    · exact (kept.past old held e ends).trans (bindTs_mono later)
    · cases ends
      exact le_refl _

/-- Outages that come under one authority were under one, or are a source's and a target's. -/
theorem moved_eq {source target a b : Authority}
    (same : Tables.moved source target a = Tables.moved source target b) :
    a = b ∨ (source ≠ target ∧ (a = source ∧ b = target ∨ a = target ∧ b = source)) := by
  simp only [Tables.moved] at same
  split at same <;> split at same <;> grind

theorem Kept.migrated (kept : Kept s) {source target : Authority} {t : Tables}
    (unique : (t.outages.map OutageRow.slot).Nodup)
    (merged : t.outages = s.tables.outages.map fun row =>
      { row with authority := Tables.moved source target row.authority })
    (merges : source ≠ target → ∀ row ∈ s.tables.outages, ∀ other ∈ s.tables.outages,
      row.authority = source → other.authority = target → row.span.Apart other.span) :
    Kept ⟨t, s.clock⟩ where
  unique := unique
  apart := by
    rw [merged, List.pairwise_map]
    refine kept.apart.imp_of_mem fun held held' apart own => ?_
    rcases moved_eq own with same | ⟨other, ⟨first, second⟩ | ⟨first, second⟩⟩
    · exact apart same
    · exact (merges other _ held _ held' first second :)
    · exact (merges other _ held' _ held second first).symm
  past row mem e ends := by
    rw [merged] at mem
    obtain ⟨old, held, rfl⟩ := List.mem_map.mp mem
    exact kept.past old held e ends

end Keeps

theorem outages_act {s t : Tables} {act : Act} (done : s.act act = some t) :
    (∃ authority reachable now, act = .recordProbe authority reachable now) ∨
      (∃ source target, act = .migrateAuthority source target) ∨ t.outages = s.outages := by
  cases act with
  | recordProbe authority reachable now => exact .inl ⟨_, _, _, rfl⟩
  | migrateAuthority source target => exact .inr (.inl ⟨_, _, rfl⟩)
  | createUser account passwordHash now =>
      obtain ⟨_, created⟩ := committed_eq_some.mp done
      obtain ⟨_, _, rfl⟩ := createUser_spec created
      exact .inr (.inr rfl)
  | updateAccount username patch admin now =>
      obtain ⟨_, updated⟩ := committed_eq_some.mp done
      obtain ⟨_, _, _, _, _, rfl⟩ := updateAccount_spec updated
      exact .inr (.inr rfl)
  | deleteUser username =>
      obtain ⟨_, deleted⟩ := committed_eq_some.mp done
      obtain ⟨_, _, _, _, _, _, _, outages⟩ := Tables.deleteUser_spec deleted
      exact .inr (.inr outages)
  | createToken token now =>
      cases inserted : s.insertToken token now with
      | error e => simp [Tables.act, inserted, Except.toOption] at done
      | ok next =>
          simp only [Tables.act, inserted, Except.toOption, Option.some.injEq] at done
          obtain ⟨_, rfl⟩ := Tables.insertToken_spec inserted
          exact .inr (.inr (done ▸ rfl))
  | provision user a now =>
      obtain ⟨_, provisioned⟩ := committed_eq_some.mp done
      obtain ⟨_, _, _, _, rfl⟩ := Tables.provision_spec provisioned
      exact .inr (.inr rfl)
  | admit_ a now =>
      obtain ⟨_, admitted⟩ := committed_eq_some.mp done
      obtain ⟨_, _, _, _, rfl, _⟩ := Tables.admit_spec admitted
      exact .inr (.inr rfl)
  | attach id key email now =>
      obtain ⟨_, attached⟩ := committed_eq_some.mp done
      obtain ⟨_, _, _, rfl⟩ := Tables.attach_spec attached
      exact .inr (.inr rfl)
  | detach id key =>
      obtain ⟨_, detached⟩ := committed_eq_some.mp done
      obtain ⟨_, _, _, _, rfl⟩ := Tables.detach_spec detached
      exact .inr (.inr rfl)
  | disableLink key =>
      obtain ⟨_, disabled⟩ := committed_eq_some.mp done
      cases Tables.disableLink_spec disabled
      exact .inr (.inr rfl)
  | disableUser id disabledBy now =>
      obtain ⟨_, disabled⟩ := committed_eq_some.mp done
      cases Tables.disableUser_spec disabled
      exact .inr (.inr rfl)
  | deprovision key now =>
      obtain ⟨_, disabled⟩ := committed_eq_some.mp done
      obtain ⟨_, _, rfl⟩ := Tables.deprovision_spec disabled
      exact .inr (.inr rfl)
  | issueSession token key now =>
      obtain ⟨_, issued⟩ := committed_eq_some.mp done
      obtain ⟨_, _, _, rfl⟩ := Tables.issueSession_spec issued
      exact .inr (.inr rfl)
  | deleteToken id =>
      cases done
      exact .inr (.inr rfl)
  | enableUser id =>
      cases done
      exact .inr (.inr rfl)
  | revokeAuthority authority =>
      cases done
      exact .inr (.inr rfl)

section Runs

variable {s t : Clocked}

theorem Clocked.step_eq_some {act : Act} (taken : s.step act = some t) :
    t.tables = (s.tables.act act).getD s.tables ∧ s.clock ≤ t.clock ∧
      ∀ authority reachable now, act = .recordProbe authority reachable now → t.clock = now := by
  unfold step at taken
  split at taken
  · split at taken
    · rename_i later
      cases taken
      refine ⟨rfl, later, ?_⟩
      rintro _ _ _ ⟨⟩
      rfl
    · cases taken
  · rename_i other
    cases taken
    exact ⟨rfl, le_refl _, fun _ _ _ probe => absurd probe (other _ _ _)⟩

theorem Kept.recordProbe (kept : Kept s) {authority : Authority} {reachable : Bool} {now : Instant}
    {next : Tables} {done : Unit} (later : s.clock ≤ now)
    (probed : s.tables.recordProbe authority reachable now = .ok (done, next)) : Kept ⟨next, now⟩ := by
  unfold Tables.recordProbe at probed
  split at probed
  · rename_i row found
    cases probed
    have lasting : row.endedAt = none := by
      have held := List.find?_some found
      simp only [Bool.and_eq_true, Option.isNone_iff_eq_none] at held
      exact held.2
    exact kept.closed later (List.mem_of_find?_eq_some found) lasting
  · rename_i closed
    simp only at probed
    split at probed
    · cases probed
    · rename_i fresh
      cases probed
      exact kept.opened later closed (by simpa [OutageRow.slot] using fresh)
  · cases probed
    exact kept.of_same rfl later

theorem Kept.step (kept : Kept s) {act : Act} (taken : s.step act = some t) (merges : Merges s act t) :
    Kept t := by
  obtain ⟨wrote, later, clocked⟩ := Clocked.step_eq_some taken
  cases done : s.tables.act act with
  | none =>
      rw [done] at wrote
      exact kept.of_same (by rw [wrote]; rfl) later
  | some next =>
      obtain ⟨tables, clock⟩ := t
      rw [done] at wrote
      cases (wrote : tables = next)
      rcases outages_act done with ⟨authority, reachable, now, rfl⟩ | ⟨source, target, rfl⟩ | same
      · cases clocked _ _ _ rfl
        obtain ⟨_, probed⟩ := committed_eq_some.mp done
        exact kept.recordProbe later probed
      · obtain ⟨_, migrated⟩ := committed_eq_some.mp done
        obtain ⟨_, unique, same⟩ := Tables.migrateAuthority_spec migrated
        have merged := kept.migrated unique (by rw [same])
          fun other => merges _ rfl other (by rw [done]; rfl)
        exact merged.of_same rfl later
      · exact kept.of_same same later

theorem Kept.empty (repositories : List Repository) (start : Instant) :
    Kept ⟨Tables.empty repositories, start⟩ where
  unique := by simp [Tables.empty]
  apart := by simp [Tables.empty]
  past row mem := by cases mem

theorem Kept.outagesOf (kept : Kept s) (authority : Authority) :
    ((s.tables.outagesOf authority).map Outage.span).Pairwise Span.Apart := by
  have apart : (s.tables.outages.filter fun row => row.authority == authority).Pairwise
      fun row other => row.span.Apart other.span := by
    rw [List.pairwise_filter]
    refine kept.apart.imp fun apart own other => apart ?_
    rw [eq_of_beq own, eq_of_beq other]
  have sorted := (List.perm_insertionSort (fun a b : OutageRow => a.startedAt ≤ b.startedAt)
    (s.tables.outages.filter fun row => row.authority == authority)).symm
  rw [Tables.outagesOf, List.map_map, List.pairwise_map]
  refine ((sorted.pairwise_iff fun apart => apart.symm).mp apart).imp ?_
  exact OutageRow.apart_outage

/-- The clock of a link stands still for the instants of the outages between the login and now, each
counted once, up to the grace: in every state of a run in which no migration brings together outages
that overlap. -/
theorem suspension_counts_each_instant_once {repositories : List Repository} {start : Instant}
    {acts : List Act} (run : Run Clocked.step Merges ⟨Tables.empty repositories, start⟩ acts s)
    (authority : Authority) (lastLogin now : Instant) (graceMax : Int) :
    suspension ⟨lastLogin, s.tables.outagesOf authority⟩ now graceMax =
      min (covered ((s.tables.outagesOf authority).map Outage.span) lastLogin now : Int)
        graceMax := by
  have kept : Kept s :=
    run.invariant Kept (Kept.empty repositories start) fun _ _ _ kept taken merges =>
      kept.step taken merges
  rw [suspension, suspended_eq_covered now (kept.outagesOf authority)]

end Runs

/-! ### An issuer that moves -/

def legacy : Authority := ⟨"corp".toList, "https://old.example".toList⟩

/-- Both issuers were down for an hour, and the old one moves to the new. -/
def downInTurn : List Act :=
  [.recordProbe legacy false hour, .recordProbe legacy true (2 * hour),
    .recordProbe corp false (3 * hour), .recordProbe corp true (4 * hour),
    .migrateAuthority legacy corp]

theorem downtimes_in_turn_add_up :
    ∃ s, Run Clocked.step Merges ⟨Tables.empty [], 0⟩ downInTurn s ∧
      suspension ⟨0, s.tables.outagesOf corp⟩ (5 * hour) (10 * hour) = 2 * hour ∧
      suspension ⟨0, s.tables.outagesOf corp⟩ (5 * hour) (10 * hour) =
        min (covered ((s.tables.outagesOf corp).map Outage.span) 0 (5 * hour) : Int)
          (10 * hour) := by
  obtain ⟨s, run, passed⟩ :=
    Run.of_test Clocked.step Merges ⟨Tables.empty [], 0⟩ downInTurn
      (fun s => suspension ⟨0, s.tables.outagesOf corp⟩ (5 * hour) (10 * hour) == 2 * hour)
      (by decide)
  exact ⟨s, run, eq_of_beq passed, suspension_counts_each_instant_once run corp 0 _ _⟩

/-- Both issuers are down at once before the old one moves to the new. -/
def downAtOnce : List Act :=
  [.recordProbe legacy false hour, .recordProbe corp false (2 * hour),
    .migrateAuthority legacy corp]

/-- An hour in which both were down counts as two. -/
theorem shared_downtime_counts_twice :
    ¬∀ (acts : List Act) (s : Clocked),
      Run Clocked.step Any ⟨Tables.empty [], 0⟩ acts s →
      ∀ (authority : Authority) (lastLogin now : Instant) (graceMax : Int),
        suspension ⟨lastLogin, s.tables.outagesOf authority⟩ now graceMax =
          min (covered ((s.tables.outagesOf authority).map Outage.span) lastLogin now : Int)
            graceMax := by
  intro counts
  obtain ⟨s, run, passed⟩ :=
    Run.of_test Clocked.step Any ⟨Tables.empty [], 0⟩ downAtOnce
      (fun s => suspension ⟨2 * hour, s.tables.outagesOf corp⟩ (3 * hour) (10 * hour) == 2 * hour)
      (by decide)
  have twice := eq_of_beq passed
  rw [counts downAtOnce s run corp (2 * hour) (3 * hour) (10 * hour)] at twice
  have once : (covered ((s.tables.outagesOf corp).map Outage.span) (2 * hour) (3 * hour) : Int) ≤
      max 0 (3 * hour - 2 * hour) := covered_le
  simp only [hour] at once twice
  omega

end OpenCargo.Identity
