/-
Module: OpenCargo.Limits.Guessing
Purpose: What the limiter of failed logins keeps along every interleaving of password attempts: each failure
  is held for as long as it is within the window; and of one account no more wrong passwords are verified in
  any window than the limit, as long as an attempt passes the check only while the failures that are held
  and the attempts under way leave room for it.
Trusted boundary: as Limits.Attempts
Main exports: Kept, Within, guessing_bounded, crowd_guesses_past_the_limit
-/
import OpenCargo.Limits.Attempts

namespace OpenCargo.Limits.Login

open OpenCargo.Identity (User)
open OpenCargo.Lib

variable {settings : Settings} {s t : Logins} {act : Act} {windows : Windows} {key other : Text}
  {window now after : Int}

/-! ### What is claimed, and what is asked of a step -/

/-- The check has let an attempt by, and a failure of it is not recorded yet. -/
def Phase.underway : Phase → Bool
  | .looking => true
  | .verifying _ => true
  | .failing _ => true
  | .recording .. => true
  | _ => false

/-- How many attempts on the key are in such a phase. -/
def Logins.count (settings : Settings) (s : Logins) (key : Text) (p : Phase → Bool) : Nat :=
  s.attempts.countP fun a => keyFor settings a.username = key && p a.phase

/-- What the clock said before the check. -/
def Phase.read : Phase → Option Int
  | .checking now => some now
  | _ => none

/-- An attempt passes the check only while the failures that are held within the window and the attempts
under way on its key are fewer than the limit. -/
def Roomy (settings : Settings) (s : Logins) : Act → Prop
  | .next i _ => ∀ a ∈ s.attempts[i]?, ∀ now ∈ a.phase.read,
      (isLimited settings.maxRequests settings.window s.windows (keyFor settings a.username) now).1 = false →
      (recent (hitsOf s.windows (keyFor settings a.username)) (now - settings.window)).length +
        s.count settings (keyFor settings a.username) Phase.underway < settings.maxRequests
  | _ => True

/-- The limiter holds each failure that was recorded and is still within the window. -/
def Remembers (settings : Settings) (s : Logins) : Prop :=
  ∀ key, recent (hitsOf s.windows key) (s.now - settings.window) =
    recent (timesOf s.failures key) (s.now - settings.window)

/-- No window holds more wrong passwords of one account than the limit. -/
def Bounded (settings : Settings) (s : Logins) : Prop :=
  ∀ username p, Narrow settings.window p →
    ((s.wrong username).filter p).length ≤ settings.maxRequests

/-! ### The limiter -/

theorem recent_append {times more : List Int} : recent (times ++ more) after = recent times after ++ recent more after :=
  List.filter_append ..

@[simp] theorem recent_nil : recent [] after = [] := rfl

theorem nodup_isLimited {max : Nat} (unique : (windows.map Prod.fst).Nodup) :
    ((isLimited max window windows key now).2.map Prod.fst).Nodup := by
  rw [isLimited]
  split
  · exact nodup_put unique
  · exact unique

theorem recent_isLimited {max : Nat} (late : now - window ≤ after) :
    recent (hitsOf (isLimited max window windows key now).2 other) after = recent (hitsOf windows other) after := by
  rw [isLimited]
  split
  · rename_i entry found
    by_cases same : other = key
    · subst same
      have held : hitsOf windows other = entry.2 := by rw [hitsOf, found]; rfl
      rw [hitsOf_put_self, recent_recent late, held]
    · rw [hitsOf_put_of_ne same]
  · rfl

theorem recent_sweep (unique : (windows.map Prod.fst).Nodup) (late : now - window ≤ after) :
    recent (hitsOf (sweep windows (now - window)) key) after = recent (hitsOf windows key) after := by
  rcases hitsOf_sweep unique (now - window) key with same | ⟨gone, -, -, old⟩
  · rw [same]
  · rw [gone]
    refine (List.filter_eq_nil_iff.mpr fun hit mem => ?_).symm
    have past := old hit mem
    rw [decide_eq_true_eq, not_lt]
    exact past.trans late

/-- A failure is added under its key, and nothing within the window is lost under any. -/
theorem recent_recordFailure (unique : (windows.map Prod.fst).Nodup) (late : now - window ≤ after) :
    recent (hitsOf (recordFailure window windows key now) other) after =
      recent (hitsOf windows other) after ++ recent (if key = other then [now] else []) after := by
  rw [recordFailure]
  by_cases same : key = other
  · subst same
    rw [hitsOf_put_self, recent_append, recent_recent late, recent_sweep unique late, if_pos rfl]
  · rw [hitsOf_put_of_ne (Ne.symm same), recent_sweep unique late, if_neg same, recent_nil, List.append_nil]

theorem nodup_recordFailure (unique : (windows.map Prod.fst).Nodup) :
    ((recordFailure window windows key now).map Prod.fst).Nodup := nodup_put (nodup_sweep unique _)

/-! ### What holds in every run -/

/-- A failure after that instant that is not recorded yet. -/
def Phase.failedAfter (after : Int) : Phase → Bool
  | .failing since => after < since
  | .recording since _ => after < since
  | _ => false

/-- The password is still to be verified. -/
def Phase.unverified : Phase → Bool
  | .looking => true
  | .verifying _ => true
  | _ => false

/-- The clock an attempt has read is not ahead, and the account it found is of the name it asked for. -/
def Phase.Sane (username : Text) (now : Int) : Phase → Prop
  | .checking read => read ≤ now
  | .verifying user => ∀ found ∈ user, found.username = username
  | .failing since => since ≤ now
  | .recording since read => since ≤ read ∧ read ≤ now
  | _ => True

/-- The refuted passwords under the keys of their accounts. -/
def Logins.keyed (settings : Settings) (s : Logins) : List (Text × Int) :=
  s.refuted.map fun entry => (keyFor settings entry.1.username, entry.2)

structure Kept (settings : Settings) (s : Logins) : Prop where
  unique : (s.windows.map Prod.fst).Nodup
  sane : ∀ a ∈ s.attempts, a.phase.Sane a.username s.now
  remembers : ∀ key after, s.now - settings.window ≤ after →
    recent (hitsOf s.windows key) after = recent (timesOf s.failures key) after
  /-- A password that was refuted is recorded as a failure, or is about to be. -/
  covered : ∀ key after, s.now - settings.window ≤ after →
    (recent (timesOf (s.keyed settings) key) after).length ≤
      (recent (hitsOf s.windows key) after).length + s.count settings key (Phase.failedAfter after)

theorem kept_begin {users : List User} : Kept settings (begin_ now users) where
  unique := .nil
  sane _ mem := nomatch mem
  remembers _ _ _ := rfl
  covered _ _ _ := Nat.zero_le _

section Counting

variable {α : Type} {p : α → Bool} {xs : List α} {i : Nat} {a b : α}

theorem countP_set (there : xs[i]? = some a) :
    (xs.set i b).countP p + (if p a then 1 else 0) = xs.countP p + if p b then 1 else 0 := by
  induction xs generalizing i with
  | nil => cases there
  | cons x xs ih =>
      cases i with
      | zero =>
          cases there
          rw [List.set_cons_zero, List.countP_cons, List.countP_cons]
          omega
      | succ i =>
          have later := ih (i := i) there
          rw [List.set_cons_succ, List.countP_cons, List.countP_cons]
          omega

end Counting

theorem count_set {i : Nat} {a : Attempt} {phase : Phase} {p : Phase → Bool} {u : Logins}
    (same : u.attempts = s.attempts.set i { a with phase }) (there : s.attempts[i]? = some a) :
    u.count settings key p + (if keyFor settings a.username = key ∧ p a.phase = true then 1 else 0) =
      s.count settings key p + if keyFor settings a.username = key ∧ p phase = true then 1 else 0 := by
  have counts := countP_set (p := fun a : Attempt => keyFor settings a.username = key && p a.phase)
    (b := { a with phase }) there
  simpa [Logins.count, same] using counts

/-- What an attempt in a phase is to add to the failures of the key after that instant. -/
def owes (settings : Settings) (key : Text) (after : Int) (username : Text) (phase : Phase) : Nat :=
  if keyFor settings username = key ∧ phase.failedAfter after = true then 1 else 0

section Owes

variable {username : Text} {since : Int} {phase : Phase}

theorem owes_none (none_ : phase.failedAfter after = false) : owes settings key after username phase = 0 :=
  if_neg fun both => Bool.false_ne_true (none_.symm.trans both.2)

theorem owes_of_failed (failed : phase.failedAfter after = decide (after < since)) :
    owes settings key after username phase =
      (recent (if keyFor settings username = key then [since] else []) after).length := by
  rw [owes, failed]
  by_cases own : keyFor settings username = key <;> by_cases new : after < since <;> simp [own, new, recent]

theorem length_recent_single_le (after : Int) (le : since ≤ now) {p : Prop} [Decidable p] :
    (recent (if p then [since] else []) after).length ≤ (recent (if p then [now] else []) after).length := by
  by_cases own : p
  · rw [if_pos own, if_pos own]
    by_cases new : after < since
    · have newer : after < now := lt_of_lt_of_le new le
      simp [recent, new, newer]
    · simp [recent, new]
  · rw [if_neg own, if_neg own]

end Owes

/-- A step of attempt `i`: what it does to the logs makes up for what it does to the attempt. -/
theorem Kept.advanced (kept : Kept settings s) {i : Nat} {a : Attempt} {phase : Phase} {u : Logins}
    (there : s.attempts[i]? = some a) (now_ : u.now = s.now)
    (same : u.attempts = s.attempts.set i { a with phase })
    (unique : (u.windows.map Prod.fst).Nodup) (sane : phase.Sane a.username s.now)
    (remembers : ∀ key after, s.now - settings.window ≤ after →
      recent (hitsOf u.windows key) after = recent (timesOf u.failures key) after)
    (makesUp : ∀ key after, s.now - settings.window ≤ after →
      (recent (timesOf (u.keyed settings) key) after).length + (recent (hitsOf s.windows key) after).length +
          owes settings key after a.username a.phase ≤
        (recent (timesOf (s.keyed settings) key) after).length + (recent (hitsOf u.windows key) after).length +
          owes settings key after a.username phase) :
    Kept settings u := by
  refine ⟨unique, fun other mem => ?_, fun key after late => ?_, fun key after late => ?_⟩
  · rw [same] at mem
    rw [now_]
    rcases List.mem_or_eq_of_mem_set mem with old | rfl
    · exact kept.sane other old
    · exact sane
  · rw [now_] at late
    exact remembers key after late
  · rw [now_] at late
    have counts : u.count settings key _ + owes settings key after a.username a.phase =
      s.count settings key _ + owes settings key after a.username phase := count_set same there
    have before := kept.covered key after late
    have change := makesUp key after late
    omega

theorem byName_name {username : Text} {user : User} (found : user ∈ s.byName username) : user.username = username :=
  of_decide_eq_true (List.find?_some (p := fun user : User => decide (user.username = username)) found)

theorem Kept.quiet (kept : Kept settings s) {i : Nat} {a : Attempt} {phase : Phase}
    (there : s.attempts[i]? = some a) (sane : phase.Sane a.username s.now)
    (more : ∀ key after, owes settings key after a.username a.phase ≤ owes settings key after a.username phase) :
    Kept settings { s with attempts := s.attempts.set i { a with phase } } :=
  kept.advanced there rfl rfl kept.unique sane kept.remembers fun key after _ =>
    Nat.add_le_add_left (more key after) _

theorem Kept.next (kept : Kept settings s) {i : Nat} {a : Attempt} {phase : Phase} {u : Logins} {fails : Bool}
    (there : s.attempts[i]? = some a) (advanced : advance settings s a fails = some (phase, u)) :
    Kept settings { u with attempts := u.attempts.set i { a with phase } } := by
  have sane := kept.sane a (List.mem_of_getElem? there)
  have read : ∀ now, now ≤ s.now → ∀ after, s.now - settings.window ≤ after → now - settings.window ≤ after := by
    intro now past after le
    omega
  have idle : ∀ phase, (∀ after, a.phase.failedAfter after = false) → ∀ key after,
      owes settings key after a.username a.phase ≤ owes settings key after a.username phase := by
    intro phase none_ key after
    rw [owes_none (none_ after)]
    exact Nat.zero_le _
  unfold advance at advanced
  cases at_ : a.phase with
  | checking now =>
      rw [at_] at advanced sane idle
      cases advanced
      refine kept.advanced there rfl rfl (nodup_isLimited kept.unique) ?_ (fun key after le => ?_) fun key after le => ?_
      · split <;> trivial
      · exact (recent_isLimited (read now sane after le)).trans (kept.remembers key after le)
      · rw [recent_isLimited (read now sane after le), at_]
        exact Nat.add_le_add_left (idle _ (fun _ => rfl) key after) _
  | looking =>
      rw [at_] at advanced idle
      cases advanced
      refine kept.quiet there ?_ (by rw [at_]; exact idle _ fun _ => rfl)
      cases fails with
      | true => trivial
      | false => exact fun user found => byName_name found
  | verifying user =>
      rw [at_] at advanced sane idle
      cases user with
      | none =>
          cases advanced
          exact kept.quiet there (Int.le_refl _) (by rw [at_]; exact idle _ fun _ => rfl)
      | some user =>
          dsimp only at advanced
          split at advanced
          · cases advanced
            exact kept.quiet there trivial (by rw [at_]; exact idle _ fun _ => rfl)
          · cases advanced
            refine kept.advanced there rfl rfl kept.unique (Int.le_refl _) kept.remembers fun key after le => ?_
            have name : user.username = a.username := sane user rfl
            have keyed : timesOf ((s.refuted ++ [(user, s.now)]).map fun entry : User × Int =>
                (keyFor settings entry.1.username, entry.2)) key =
                timesOf (s.keyed settings) key ++ if keyFor settings a.username = key then [s.now] else [] := by
              rw [List.map_append, List.map_singleton, timesOf_append, name]
              rfl
            have more := congrArg (fun times => (recent times after).length) keyed
            simp only [recent_append, List.length_append] at more
            rw [at_, owes_none rfl, owes_of_failed rfl]
            change (recent (timesOf (List.map _ _) key) after).length + _ + 0 ≤ _
            rw [more]
            exact Nat.le_of_eq (by ac_rfl)
  | failing since =>
      rw [at_] at advanced sane
      cases advanced
      exact kept.quiet there ⟨sane, Int.le_refl _⟩ fun key after => by rw [at_]; exact Nat.le_refl _
  | recording since now =>
      rw [at_] at advanced sane
      cases advanced
      obtain ⟨behind, past⟩ := sane
      refine kept.advanced there rfl rfl (nodup_recordFailure kept.unique) trivial (fun key after le => ?_)
        fun key after le => ?_
      · rw [recent_recordFailure kept.unique (read now past after le), timesOf_append, recent_append,
          kept.remembers key after le]
      · rw [recent_recordFailure kept.unique (read now past after le), List.length_append, at_,
          owes_of_failed rfl, owes_none rfl]
        have more := length_recent_single_le after behind (p := keyFor settings a.username = key)
        change (recent (timesOf (s.keyed settings) key) after).length + _ + _ ≤ _
        omega
  | gating user =>
      rw [at_] at advanced idle
      cases advanced
      exact kept.quiet there trivial (by rw [at_]; exact idle _ fun _ => rfl)
  | ended result =>
      rw [at_] at advanced
      cases advanced

theorem step_next {i : Nat} {fails : Bool} (taken : step settings s (.next i fails) = some t) :
    ∃ a phase u, s.attempts[i]? = some a ∧ advance settings s a fails = some (phase, u) ∧
      t = { u with attempts := u.attempts.set i { a with phase } } := by
  simp only [step, Option.bind_eq_bind, Option.bind_eq_some_iff] at taken
  obtain ⟨a, there, ⟨phase, u⟩, advanced, same⟩ := taken
  exact ⟨a, phase, u, there, advanced, (Option.some.inj same).symm⟩

theorem Phase.Sane.mono {username : Text} {phase : Phase} {later : Int} (sane : phase.Sane username now)
    (le : now ≤ later) : phase.Sane username later := by
  cases phase with
  | checking read => exact Int.le_trans sane le
  | failing since => exact Int.le_trans sane le
  | recording since read => exact ⟨sane.1, Int.le_trans sane.2 le⟩
  | verifying user => exact sane
  | looking => trivial
  | gating user => trivial
  | ended result => trivial

theorem Kept.step (kept : Kept settings s) (taken : step settings s act = some t) : Kept settings t := by
  cases act with
  | pass time =>
      cases taken
      have later : s.now ≤ s.now + time := by omega
      have wider : ∀ after, s.now + time - settings.window ≤ after → s.now - settings.window ≤ after := by
        intro after le
        omega
      exact ⟨kept.unique, fun a mem => (kept.sane a mem).mono later,
        fun key after le => kept.remembers key after (wider after le),
        fun key after le => kept.covered key after (wider after le)⟩
  | accounts users =>
      cases taken
      exact ⟨kept.unique, kept.sane, kept.remembers, kept.covered⟩
  | start username password =>
      cases taken
      refine ⟨kept.unique, fun a mem => ?_, kept.remembers, fun key after le => ?_⟩
      · rcases List.mem_append.mp mem with old | new
        · exact kept.sane a old
        · cases List.mem_singleton.mp new
          exact Int.le_refl _
      · refine (kept.covered key after le).trans (Nat.add_le_add_left ?_ _)
        rw [Logins.count, Logins.count, List.countP_append]
        exact Nat.le_add_right _ _
  | next i fails =>
      obtain ⟨a, phase, u, there, advanced, rfl⟩ := step_next taken
      exact kept.next there advanced

/-! ### What holds where there is room -/

structure Within (settings : Settings) (s : Logins) : Prop where
  /-- What was refuted within the window, and what may be, is within the limit. -/
  room : ∀ key, (recent (timesOf (s.keyed settings) key) (s.now - settings.window)).length +
    s.count settings key Phase.unverified ≤ settings.maxRequests
  spread : Spread (fun _ => ⟨settings.maxRequests, settings.window⟩) (s.keyed settings) s.now

theorem within_begin {users : List User} : Within settings (begin_ now users) :=
  ⟨fun _ => Nat.zero_le _, .nil⟩

theorem count_add_le {p q r : Phase → Bool} (first : ∀ phase, p phase = true → r phase = true)
    (second : ∀ phase, q phase = true → r phase = true ∧ p phase = false) :
    s.count settings key p + s.count settings key q ≤ s.count settings key r := by
  rw [Logins.count, Logins.count, Logins.count]
  induction s.attempts with
  | nil => exact Nat.le_refl _
  | cons a rest ih =>
      have here (mine : Bool) : (if (mine && p a.phase) = true then 1 else 0) + (if (mine && q a.phase) = true then 1 else 0) ≤
          if (mine && r a.phase) = true then 1 else 0 := by
        have one := first a.phase
        have two := second a.phase
        revert one two
        generalize p a.phase = p', q a.phase = q', r a.phase = r'
        revert mine p' q' r'
        decide
      have head := here (keyFor settings a.username = key)
      rw [List.countP_cons, List.countP_cons, List.countP_cons]
      omega

theorem length_recent_le (times : List Int) {before : Int} (le : before ≤ after) :
    (recent times after).length ≤ (recent times before).length := by
  rw [← recent_recent le]
  exact List.length_filter_le _ _

/-- What an attempt in a phase may yet have refuted under the key. -/
def pends (settings : Settings) (key username : Text) (phase : Phase) : Nat :=
  if keyFor settings username = key ∧ phase.unverified = true then 1 else 0

theorem pends_none {username : Text} {phase : Phase} (none_ : phase.unverified = false) :
    pends settings key username phase = 0 :=
  if_neg fun both => Bool.false_ne_true (none_.symm.trans both.2)

theorem Within.advanced {i : Nat} {a : Attempt} {phase : Phase} {u : Logins}
    (there : s.attempts[i]? = some a) (now_ : u.now = s.now)
    (same : u.attempts = s.attempts.set i { a with phase })
    (spread : Spread (fun _ => ⟨settings.maxRequests, settings.window⟩) (u.keyed settings) s.now)
    (fits : ∀ key, (recent (timesOf (u.keyed settings) key) (s.now - settings.window)).length +
      s.count settings key Phase.unverified + pends settings key a.username phase ≤
        settings.maxRequests + pends settings key a.username a.phase) : Within settings u := by
  refine ⟨fun key => ?_, now_ ▸ spread⟩
  have counts : u.count settings key _ + pends settings key a.username a.phase =
    s.count settings key _ + pends settings key a.username phase := count_set same there
  have fit := fits key
  rw [now_]
  omega

theorem Within.quiet (within : Within settings s) {i : Nat} {a : Attempt} {phase : Phase} {windows : Windows}
    {failures : List (Text × Int)} (there : s.attempts[i]? = some a)
    (less : phase.unverified = true → a.phase.unverified = true) :
    Within settings { s with windows, failures, attempts := s.attempts.set i { a with phase } } := by
  refine Within.advanced there rfl rfl within.spread fun key => ?_
  have room := within.room key
  have fewer : pends settings key a.username phase ≤ pends settings key a.username a.phase := by
    rw [pends, pends]
    by_cases own : keyFor settings a.username = key ∧ phase.unverified = true
    · rw [if_pos own, if_pos ⟨own.1, less own.2⟩]
    · rw [if_neg own]
      exact Nat.zero_le _
  change (recent (timesOf (s.keyed settings) key) _).length + _ + _ ≤ _
  omega

theorem Within.next (within : Within settings s) (kept : Kept settings s) {i : Nat} {a : Attempt} {phase : Phase}
    {u : Logins} {fails : Bool} (roomy : Roomy settings s (.next i fails)) (there : s.attempts[i]? = some a)
    (advanced : advance settings s a fails = some (phase, u)) :
    Within settings { u with attempts := u.attempts.set i { a with phase } } := by
  have sane := kept.sane a (List.mem_of_getElem? there)
  unfold advance at advanced
  cases at_ : a.phase with
  | checking now =>
      rw [at_] at advanced sane
      cases advanced
      cases limited : (isLimited settings.maxRequests settings.window s.windows (keyFor settings a.username) now).1 with
      | true => exact within.quiet there fun unverified => Bool.noConfusion unverified
      | false =>
          refine Within.advanced there rfl rfl within.spread fun key => ?_
          have room := within.room key
          change (recent (timesOf (s.keyed settings) key) _).length + _ + pends settings key a.username .looking ≤ _
          by_cases own : keyFor settings a.username = key
          · -- the failures it may have found are those that are held, and those under way
            have free := roomy a there now (by rw [at_]; rfl) limited
            have held := kept.covered key (s.now - settings.window) (Int.le_refl _)
            have apart : s.count settings key Phase.unverified +
                s.count settings key (Phase.failedAfter (s.now - settings.window)) ≤
                  s.count settings key Phase.underway := count_add_le
              (fun phase unverified => by cases phase <;> first | rfl | cases unverified)
              (fun phase failed => by cases phase <;> first | exact ⟨rfl, rfl⟩ | cases failed)
            have past : now ≤ s.now := sane
            have fewer := length_recent_le (hitsOf s.windows key)
              (show now - settings.window ≤ s.now - settings.window by omega)
            rw [own] at free
            rw [pends, if_pos ⟨own, rfl⟩]
            omega
          · rw [pends, if_neg fun both => own both.1]
            omega
  | looking =>
      rw [at_] at advanced
      cases advanced
      exact within.quiet there fun _ => by rw [at_]; rfl
  | verifying user =>
      rw [at_] at advanced sane
      cases user with
      | none =>
          cases advanced
          exact within.quiet there fun unverified => Bool.noConfusion unverified
      | some user =>
          dsimp only at advanced
          split at advanced
          · cases advanced
            exact within.quiet there fun unverified => Bool.noConfusion unverified
          · cases advanced
            have name : user.username = a.username := sane user rfl
            have keyed : ((s.refuted ++ [(user, s.now)]).map fun entry : User × Int =>
                (keyFor settings entry.1.username, entry.2)) =
                s.keyed settings ++ [(keyFor settings a.username, s.now)] := by
              rw [List.map_append, List.map_singleton, name]
              rfl
            refine Within.advanced there rfl rfl ?_ fun key => ?_
            · have pending : 0 < s.count settings (keyFor settings a.username) Phase.unverified :=
                List.countP_pos_iff.mpr ⟨a, List.mem_of_getElem? there, by simp [at_, Phase.unverified]⟩
              have room := within.room (keyFor settings a.username)
              have noted := within.spread.note (keyFor settings a.username)
              rw [note, if_pos (show _ < settings.maxRequests by dsimp only; omega)] at noted
              rw [← keyed] at noted
              exact noted
            · have room := within.room key
              have more := congrArg (fun log => (recent (timesOf log key) (s.now - settings.window)).length) keyed
              simp only [timesOf_append, recent_append, List.length_append] at more
              change (recent (timesOf (List.map _ _) key) _).length + _ + _ ≤ _
              rw [more, at_, pends_none rfl, pends]
              by_cases own : keyFor settings a.username = key
              · rw [if_pos own, if_pos ⟨own, rfl⟩]
                have one : (recent [s.now] (s.now - settings.window)).length ≤ 1 := List.length_filter_le _ _
                omega
              · rw [if_neg own, if_neg fun both => own both.1, recent_nil, List.length_nil]
                omega
  | failing since =>
      rw [at_] at advanced
      cases advanced
      exact within.quiet there fun unverified => Bool.noConfusion unverified
  | recording since now =>
      rw [at_] at advanced
      cases advanced
      exact within.quiet there fun unverified => Bool.noConfusion unverified
  | gating user =>
      rw [at_] at advanced
      cases advanced
      exact within.quiet there fun unverified => Bool.noConfusion unverified
  | ended result =>
      rw [at_] at advanced
      cases advanced

theorem Within.step (within : Within settings s) (kept : Kept settings s) (roomy : Roomy settings s act)
    (taken : step settings s act = some t) : Within settings t := by
  cases act with
  | pass time =>
      cases taken
      refine ⟨fun key => ?_, within.spread.mono (by dsimp only; omega)⟩
      have fewer := length_recent_le (timesOf (s.keyed settings) key)
        (show s.now - settings.window ≤ s.now + time - settings.window by omega)
      exact (Nat.add_le_add_right fewer _).trans (within.room key)
  | accounts users =>
      cases taken
      exact ⟨within.room, within.spread⟩
  | start username password =>
      cases taken
      refine ⟨fun key => ?_, within.spread⟩
      have same : Logins.count settings { s with
          attempts := s.attempts ++ [⟨username, password, .checking s.now⟩] } key Phase.unverified =
          s.count settings key Phase.unverified := by
        simp [Logins.count, List.countP_append, Phase.unverified]
      rw [same]
      exact within.room key
  | next i fails =>
      obtain ⟨a, phase, u, there, advanced, rfl⟩ := step_next taken
      exact within.next kept roomy there advanced

/-! ### Runs -/

theorem Within.bounded (within : Within settings s) : Bounded settings s := by
  intro username p narrow
  have fits := within.spread.fits (keyFor settings username) p narrow
  refine Nat.le_trans (List.Sublist.length_le (List.Sublist.filter p ?_)) fits
  rw [Logins.wrong, timesOf, Logins.keyed, List.filter_map, List.map_map]
  refine List.Sublist.map _ (List.monotone_filter_right _ fun entry own => ?_)
  rw [decide_eq_true_eq] at own
  simp [own]

/-- In every run the limiter holds each failure that is within the window; and where each attempt passes the
check only while there is room for it, no window holds more wrong passwords of an account than the limit. -/
theorem guessing_bounded (settings : Settings) (now : Int) (users : List User) (acts : List Act) (s : Logins) :
    (Run (step settings) Any (begin_ now users) acts s → Remembers settings s) ∧
      (Run (step settings) (fun u act _ => Roomy settings u act) (begin_ now users) acts s →
        Bounded settings s) := by
  constructor
  · intro run
    have kept : Kept settings s := run.invariant (Kept settings) kept_begin fun _ _ _ kept taken _ => kept.step taken
    exact fun key => kept.remembers key _ (Int.le_refl _)
  · intro run
    have both : Kept settings s ∧ Within settings s := by
      refine run.invariant (fun u => Kept settings u ∧ Within settings u) ⟨kept_begin, within_begin⟩ ?_
      exact fun _ _ _ held taken roomy => ⟨held.1.step taken, held.2.step held.1 roomy taken⟩
    exact both.2.bounded

/-! ### The attempts that all pass the check before any has failed -/

section Example

/-- Five failures a minute, as the server sets it; no password is right. -/
def fivePerMinute : Settings := ⟨5, 60000000000, id, fun _ _ => false, fun _ _ => true⟩

def victim : User := ⟨1, "root".toList, none, [], "admin".toList, false, 0, 0⟩

/-- So many attempts on one account, each step of them all before the next. -/
def crowd (n : Nat) : List Act :=
  List.replicate n (.start victim.username []) ++
    (List.replicate 3 ((List.range n).map fun i => Act.next i false)).flatten

/-- An attempt is over before the next one starts. -/
def inTurn (n : Nat) : List Act :=
  ((List.range n).map fun i => .start victim.username [] :: List.replicate 5 (.next i false)).flatten

instance (s : Logins) (act : Act) : Decidable (Roomy settings s act) :=
  match act with
  | .pass _ => inferInstanceAs (Decidable True)
  | .accounts _ => inferInstanceAs (Decidable True)
  | .start .. => inferInstanceAs (Decidable True)
  | .next i _ => inferInstanceAs (Decidable (∀ a ∈ s.attempts[i]?, ∀ now ∈ a.phase.read,
      (isLimited settings.maxRequests settings.window s.windows (keyFor settings a.username) now).1 = false →
      (recent (hitsOf s.windows (keyFor settings a.username)) (now - settings.window)).length +
        s.count settings (keyFor settings a.username) Phase.underway < settings.maxRequests))

theorem crowd_guesses_past_the_limit :
    ∃ s, Run (step fivePerMinute) Any (begin_ 0 [victim]) (crowd 6) s ∧ ¬Bounded fivePerMinute s := by
  obtain ⟨s, run, six⟩ := Run.of_test (step fivePerMinute) Any (begin_ 0 [victim]) (crowd 6)
    (fun s => ((s.wrong victim.username).filter fun t => 0 ≤ t ∧ t < 0 + 60000000000).length = 6)
    (by decide +kernel)
  refine ⟨s, run, fun bounded => ?_⟩
  have five := bounded victim.username _ (narrow_fromStart 0 60000000000)
  rw [of_decide_eq_true six] at five
  exact absurd five (by decide)

theorem guessing_bounded_in_turn :
    ∃ s, Run (step fivePerMinute) (fun u act _ => Roomy fivePerMinute u act) (begin_ 0 [victim]) (inTurn 5) s ∧
      Remembers fivePerMinute s ∧ Bounded fivePerMinute s := by
  obtain ⟨s, run, -⟩ := Run.of_test (step fivePerMinute) (fun u act _ => Roomy fivePerMinute u act)
    (begin_ 0 [victim]) (inTurn 5) (fun _ => true) (by decide +kernel)
  have laws := guessing_bounded fivePerMinute 0 [victim] (inTurn 5) s
  exact ⟨s, run, laws.1 (run.strengthen (fun _ => True) trivial fun _ _ _ _ _ _ => ⟨trivial, trivial⟩), laws.2 run⟩

end Example

end OpenCargo.Limits.Login
