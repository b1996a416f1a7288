/-
Module: OpenCargo.Limits.Attempts
Purpose: Password attempts (`app/authenticate.rs`) on the limiter of failed logins (`auth/rate_limit.rs`):
  any number of attempts, each checking the limiter, looking the account up, verifying the password and
  recording a failure, one critical section or one call of a store after the other.
Trusted boundary: `verifies` (Argon2), `toLowercase` (Rust's full Unicode lowercasing) and `allowed` (the
  login gate) are parameters nothing is asked of; that a clock never goes back
Main exports: Logins, Act, step, Logins.wrong
-/
import OpenCargo.Identity.Store
import OpenCargo.Lib.Run
import OpenCargo.Limits.Meter

namespace OpenCargo.Limits

open OpenCargo.Identity (User)
open OpenCargo.Lib

namespace Login

/-! ### The limiter -/

/-- `is_limited`, `now` being what the clock said before the lock was taken. -/
def isLimited (max : Nat) (window : Int) (windows : Windows) (key : Text) (now : Int) : Bool × Windows :=
  match windows.find? fun entry => entry.1 == key with
  | some entry =>
      let live := recent entry.2 (now - window)
      (max ≤ live.length, put windows key live)
  | none => (false, windows)

/-- `record_failure`: a map of more than 1024 keys loses those with no failure after the cutoff. -/
def recordFailure (window : Int) (windows : Windows) (key : Text) (now : Int) : Windows :=
  let windows := sweep windows (now - window)
  put windows key (recent (hitsOf windows key) (now - window) ++ [now])

/-! ### The attempts -/

structure Settings where
  maxRequests : Nat
  window : Int
  toLowercase : Text → Text
  /-- Whether the password is the one of the hash; an error is none. -/
  verifies (password hash : Text) : Bool
  /-- `login_allowed` for a password, at an instant. -/
  allowed (user : User) (now : Int) : Bool

inductive Refusal where
  | invalid
  | throttled
  | unavailable
deriving Repr, DecidableEq

/-- Where an attempt is. -/
inductive Phase where
  /-- `is_limited` has read the clock. -/
  | checking (now : Int)
  | looking
  | verifying (user : Option User)
  /-- The password was found wrong, or nobody to have one, at that instant. -/
  | failing (since : Int)
  /-- `record_failure` has read the clock. -/
  | recording (since now : Int)
  | gating (user : User)
  | ended (result : Except Refusal User)

structure Attempt where
  username : Text
  password : Text
  phase : Phase

def keyFor (settings : Settings) (username : Text) : Text :=
  "login:".toList ++ settings.toLowercase username

structure Logins where
  now : Int
  users : List User
  windows : Windows
  attempts : List Attempt
  /-- The accounts whose password was verified and found wrong, and when. -/
  refuted : List (User × Int)
  /-- The failures that were recorded: under which key, and when. -/
  failures : List (Text × Int)

def begin_ (now : Int) (users : List User) : Logins := ⟨now, users, [], [], [], []⟩

def Logins.byName (s : Logins) (username : Text) : Option User :=
  s.users.find? fun user => user.username = username

inductive Act where
  | pass (time : Nat)
  /-- Accounts are written. -/
  | accounts (users : List User)
  | start (username password : Text)
  /-- The next step of an attempt; a call of a store in it fails or not. -/
  | next (i : Nat) (fails : Bool)
deriving Repr, DecidableEq

/-- One step of an attempt, and what it leaves of the limiter. -/
def advance (settings : Settings) (s : Logins) (a : Attempt) (fails : Bool) : Option (Phase × Logins) :=
  let key := keyFor settings a.username
  match a.phase with
  | .checking now =>
      let answer := isLimited settings.maxRequests settings.window s.windows key now
      some (if answer.1 then .ended (.error .throttled) else .looking, { s with windows := answer.2 })
  | .looking =>
      some (if fails then .ended (.error .unavailable) else .verifying (s.byName a.username), s)
  | .verifying none => some (.failing s.now, s)
  | .verifying (some user) =>
      if settings.verifies a.password user.passwordHash then some (.gating user, s)
      else some (.failing s.now, { s with refuted := s.refuted ++ [(user, s.now)] })
  | .failing since => some (.recording since s.now, s)
  | .recording _ now =>
      some (.ended (.error .invalid),
        { s with
          windows := recordFailure settings.window s.windows key now
          failures := s.failures ++ [(key, now)] })
  | .gating user =>
      some (.ended (if fails then .error .unavailable
        else if settings.allowed user s.now then .ok user else .error .invalid), s)
  | .ended _ => none

def step (settings : Settings) (s : Logins) : Act → Option Logins
  | .pass time => some { s with now := s.now + time }
  | .accounts users => some { s with users }
  | .start username password =>
      some { s with attempts := s.attempts ++ [⟨username, password, .checking s.now⟩] }
  | .next i fails => do
      let a ← s.attempts[i]?
      let (phase, s) ← advance settings s a fails
      return { s with attempts := s.attempts.set i { a with phase } }

/-- When passwords of the account were verified and found wrong. No statement changes the name of an
account. -/
def Logins.wrong (s : Logins) (username : Text) : List Int :=
  (s.refuted.filter fun entry => entry.1.username = username).map Prod.snd

end Login

end OpenCargo.Limits
