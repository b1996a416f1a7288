/-
Module: OpenCargo.Identity.Issue
Purpose: The issuing of an API token (`app/tokens.rs`), from what the endpoint passes on to the row the
  store keeps. A token that is issued ends exactly as many days later as were asked. The sum of the date
  and the days is not checked, and panics where it leaves the range of dates, unless the request is
  refused before it is made.
Trusted boundary: the date library, as it is documented; a store that cannot be reached refuses, and is not
  here
Main exports: issue, Answer.Exact, Reaches, issued_exactly_iff
-/
import OpenCargo.Identity.Bought

namespace OpenCargo.Identity

open OpenCargo.Access (TokenScope ScopeError maxGrants maxPatternChars maxWildcards)

/-! ### Dates -/

/-- The nanoseconds of a day, and those of the longest `TimeDelta`: `i64::MAX` milliseconds. -/
def day : Int := 86400 * 1000000000
def longestSpan : Int := (2 ^ 63 - 1) * 1000000

/-- The date library as far as it is called: the range of its dates, `TimeDelta::days`, and a date and a
span added. `none` is a panic. -/
structure Dates where
  earliest : Instant
  latest : Instant
  days : Int → Option Int
  add : Instant → Int → Option Instant

def Dates.holds (dates : Dates) (at_ : Instant) : Prop := dates.earliest ≤ at_ ∧ at_ ≤ dates.latest

instance (dates : Dates) (at_ : Instant) : Decidable (dates.holds at_) :=
  inferInstanceAs (Decidable (_ ∧ _))

/-- Spans panic past the longest, sums outside the range of dates, and no two dates are further apart
than a span is long. -/
structure Dates.Documented (dates : Dates) : Prop where
  days : ∀ n, dates.days n = if |n * day| ≤ longestSpan then some (n * day) else none
  add : ∀ at_ span, dates.add at_ span = if dates.holds (at_ + span) then some (at_ + span) else none
  room : dates.latest - dates.earliest ≤ longestSpan

/-! ### The call -/

/-- The length of the lookup key cut from the front of an issued token. -/
def keyLen : Nat := 16

/-- What the ids and the random bytes give. -/
structure Drawn where
  id : Text
  hexPart : Text
deriving Repr, DecidableEq, Inhabited

/-- What the endpoint passes on. `narrowed`: the credential of the caller narrows
them. -/
structure IssueRequest where
  username : Text
  name : Text
  expiresInDays : Option Int
  scope : TokenScope
  narrowed : Bool
deriving Repr, DecidableEq, Inhabited

/-- A token as its owner sees it exactly once. -/
structure IssuedToken where
  id : Text
  name : Text
  lead : Text
  token : Text
  expiresAt : Option Instant
  scope : TokenScope
deriving Repr, DecidableEq, Inhabited

inductive Panic where
  /-- The lookup key is cut within a character. -/
  | lead
  /-- `TimeDelta::days` is out of bounds. -/
  | days
  /-- `DateTime + TimeDelta` overflowed. -/
  | date
deriving Repr, DecidableEq, Inhabited

inductive Answer where
  | refused (error : AppError)
  | panicked (why : Panic)
  | issued (token : IssuedToken) (tables : Tables)
deriving Repr, DecidableEq, Inhabited

def scopeMessage : ScopeError → Text
  | .emptyPattern => "empty pattern".toList
  | .patternTooLong => "pattern longer than ".toList ++ (toString maxPatternChars).toList ++ " characters".toList
  | .tooManyStars => "pattern uses more than ".toList ++ (toString maxWildcards).toList ++ " wildcards".toList
  | .controlCharacter => "pattern contains a control character".toList
  | .tooManyGrants => "a scope carries more than ".toList ++ (toString maxGrants).toList ++ " lines".toList
  | .noAction => "a scope line names no action".toList
  | .actionNotOnSelector action => action ++ " is not an action of this selector".toList
  | .writeForbidden domain => "a scoped credential never writes the ".toList ++ domain ++ " domain".toList
  | .incarnationsNotOnSelector => "only a repository selector resolves to incarnations".toList
  | .packagePattern why => "package pattern: ".toList ++ why

/-- `generate_token`: the raw token of a scope. -/
def rawToken (d : Deployment) (scope : TokenScope) (drawn : Drawn) : Text :=
  (if scope.isInherit then d.tokenPrefix else d.scopedPrefix) ++ drawn.hexPart

/-- `expires_in_days.map(|days| now + Duration::days(days))`. -/
def expiry (dates : Dates) (now : Instant) : Option Int → Except Panic (Option Instant)
  | none => .ok none
  | some n =>
      match dates.days n with
      | none => .error .days
      | some span =>
          match dates.add now span with
          | none => .error .date
          | some at_ => .ok (some at_)

/-- `IssueToken::run`, from the account on: the scope is frozen, the token drawn and the row written. -/
def issueFor (d : Deployment) (dates : Dates) (tables : Tables) (drawn : Drawn) (request : IssueRequest)
    (now : Instant) (user : User) (scope : TokenScope) : Answer :=
  let token := rawToken d scope drawn
  match leadOf keyLen token with
  | none => .panicked .lead
  | some lead =>
      match expiry dates now request.expiresInDays with
      | .error why => .panicked why
      | .ok expiresAt =>
          let row : NewToken :=
            ⟨drawn.id, user.id, request.name, lead, d.hashCredential token, expiresAt, scope⟩
          match tables.insertToken row now with
          | .error e => .refused (.store e)
          | .ok tables => .issued ⟨drawn.id, request.name, lead, token, expiresAt, scope⟩ tables

/-- `IssueToken::run`. -/
def issue (d : Deployment) (dates : Dates) (tables : Tables) (repositories : List Access.Incarnation)
    (drawn : Drawn) (request : IssueRequest) (now : Instant) : Answer :=
  if request.narrowed then
    .refused (.forbidden "a scoped credential never issues another credential".toList)
  else
    match request.scope.validate with
    | .error e => .refused (.badRequest ("invalid scope: ".toList ++ scopeMessage e))
    | .ok _ =>
        match tables.userNamed request.username with
        | none => .refused (.notFound ("user not found: ".toList ++ request.username))
        | some user => issueFor d dates tables drawn request now user (request.scope.resolved repositories)

/-! ### What is recorded -/

/-- No sum overflowed; and a token that was issued ends as many days after now as were asked, in the answer
and, to the second, in the row, which is of a token that lives when the days are more than none. -/
def Answer.Exact (now : Instant) (days : Option Int) : Answer → Prop
  | .refused _ => True
  | .panicked why => why = .lead
  | .issued token tables =>
      token.expiresAt = days.map (fun n => now + n * day) ∧
        ∃ row, tables.tokens.getLast? = some row ∧ row.expiresAt = token.expiresAt.map bindTs ∧
          ∀ n ∈ days, 0 < n → row.expiresAt.isSome = true ∧ row.isLive now = true

/-- The request is refused neither for the caller's credential, nor for its scope, nor for its account, and
its token can be cut: it comes to the sum. -/
structure Reaches (d : Deployment) (tables : Tables) (repositories : List Access.Incarnation) (drawn : Drawn)
    (request : IssueRequest) : Prop where
  whole : request.narrowed = false
  scope : request.scope.validate = .ok ()
  account : (tables.userNamed request.username).isSome = true
  lead : (leadOf keyLen (rawToken d (request.scope.resolved repositories) drawn)).isSome = true

variable {d : Deployment} {dates : Dates} {tables : Tables} {repositories : List Access.Incarnation} {drawn : Drawn}
  {request : IssueRequest} {now : Instant}

theorem span_of_dates {earliest latest at_ span longest : Int} (room : latest - earliest ≤ longest)
    (held : earliest ≤ at_ ∧ at_ ≤ latest) (inside : earliest ≤ at_ + span ∧ at_ + span ≤ latest) :
    |span| ≤ longest := by
  rw [abs_le]
  omega

theorem live_of_days {at_ n : Int} (some_ : 0 < n) : at_ ≤ readTs (bindTs (at_ + n * day)) := by
  change at_ ≤ (at_ + n * (86400 * 1000000000)) / 1000000000 * 1000000000
  omega

theorem expiry_eq_ok_iff (documented : dates.Documented) (held : dates.holds now) {n : Int} {at_ : Option Instant} :
    expiry dates now (some n) = .ok at_ ↔ at_ = some (now + n * day) ∧ dates.holds (now + n * day) := by
  rw [expiry, documented.days]
  by_cases inside : dates.holds (now + n * day)
  · -- two dates are no further apart than a span is long
    have short := span_of_dates documented.room held inside
    simp only [if_pos short, documented.add, if_pos inside, Except.ok.injEq]
    exact ⟨fun same => ⟨same.symm, inside⟩, fun both => both.1.symm⟩
  · refine iff_of_false ?_ fun both => inside both.2
    split
    · nofun
    · rename_i span spanned
      split at spanned
      · cases spanned
        simp [documented.add, if_neg inside]
      · cases spanned

theorem exact_of_expiry {user : User} {scope : TokenScope} {expiresAt : Option Instant}
    (summed : expiry dates now request.expiresInDays = .ok expiresAt)
    (asked : expiresAt = request.expiresInDays.map fun n => now + n * day) :
    (issueFor d dates tables drawn request now user scope).Exact now request.expiresInDays := by
  rw [issueFor]
  split
  · rfl
  · rw [summed]
    dsimp only
    split
    · trivial
    · rename_i written
      obtain ⟨-, -, rfl⟩ := Tables.insertToken_spec written
      refine ⟨asked, _, List.getLast?_concat, rfl, fun n given some_ => ?_⟩
      rw [Option.mem_def.mp given, Option.map_some] at asked
      subst asked
      exact ⟨rfl, decide_eq_true (live_of_days some_)⟩

theorem expiry_error {days : Option Int} {why : Panic} (failed : expiry dates now days = .error why) :
    why ≠ .lead := by
  unfold expiry at failed
  split at failed
  · cases failed
  · split at failed
    · cases failed
      nofun
    · split at failed
      · cases failed
        nofun
      · cases failed

/-- The call panics on no sum and records exactly the days that were asked if and only if it is refused
before the sum is made, or no days were asked, or the sum is a date. -/
theorem issued_exactly_iff (documented : dates.Documented) (held : dates.holds now) :
    (issue d dates tables repositories drawn request now).Exact now request.expiresInDays ↔
      (Reaches d tables repositories drawn request →
        ∀ n ∈ request.expiresInDays, dates.holds (now + n * day)) := by
  constructor
  · rintro exact_ ⟨whole, scope, account, lead⟩ n asked
    obtain ⟨user, found⟩ := Option.isSome_iff_exists.mp account
    obtain ⟨cut, leads⟩ := Option.isSome_iff_exists.mp lead
    simp only [issue, whole, scope, found, Bool.false_eq_true, if_false, issueFor, leads,
      Option.mem_def.mp asked] at exact_
    cases summed : expiry dates now (some n) with
    | error why =>
        rw [summed] at exact_
        exact absurd exact_ (expiry_error summed)
    | ok at_ => exact ((expiry_eq_ok_iff documented held).mp summed).2
  · intro inside
    rw [issue]
    split
    · trivial
    · rename_i whole
      split
      · trivial
      · rename_i scope
        split
        · trivial
        · rename_i user found
          cases leads : leadOf keyLen (rawToken d (request.scope.resolved repositories) drawn) with
          | none =>
              simp only [issueFor, leads]
              rfl
          | some cut =>
              cases asked : request.expiresInDays with
              | none =>
                  have summed : expiry dates now request.expiresInDays = .ok none := by rw [asked]; rfl
                  exact asked ▸ exact_of_expiry summed (by rw [asked]; rfl)
              | some n =>
                  have reaches : Reaches d tables repositories drawn request :=
                    ⟨by simpa using whole, scope, by rw [found]; rfl, by rw [leads]; rfl⟩
                  have summed : expiry dates now request.expiresInDays = .ok (some (now + n * day)) := by
                    rw [asked]
                    exact (expiry_eq_ok_iff documented held).mpr ⟨rfl, inside reaches n asked⟩
                  exact asked ▸ exact_of_expiry summed (by rw [asked]; rfl)

/-! ### A year, and three million -/

/-- The dates of the library, the first of January of the year -262143 to the end of 262142. -/
def utc : Dates where
  earliest := -8334601228800 * 1000000000
  latest := 8210266876799 * 1000000000 + 999999999
  days n := if |n * day| ≤ longestSpan then some (n * day) else none
  add at_ span :=
    if -8334601228800 * 1000000000 ≤ at_ + span ∧ at_ + span ≤ 8210266876799 * 1000000000 + 999999999 then
      some (at_ + span)
    else none

theorem utc_documented : utc.Documented where
  days _ := rfl
  add _ _ := rfl
  room := by decide

def alice : User := ⟨1, "alice".toList, none, "!".toList, "reader".toList, false, 0, 0⟩

def withAlice : Tables := { (default : Tables) with users := [alice], sequence := 1 }

def drawnToken : Drawn := ⟨"t1".toList, "0123456789abcdef0123456789abcdef".toList⟩

def asking (days : Int) : IssueRequest := ⟨"alice".toList, "ci".toList, some days, .inherit_, false⟩

theorem year_is_issued_exactly :
    (issue plainDeployment utc withAlice [] drawnToken (asking 365) 0).Exact 0 (some 365) := by
  have held : utc.holds 0 := by decide
  have year : utc.holds (0 + 365 * day) := by decide
  have exact_ := @issued_exactly_iff plainDeployment utc withAlice [] drawnToken (asking 365) 0 utc_documented held
  refine exact_.mpr fun _ n asked => ?_
  cases asked
  exact year

/-- A thousand million days from now are no date, and a million million are no span. -/
theorem distant_expiry_panics :
    issue plainDeployment utc withAlice [] drawnToken (asking 1000000000) 0 = .panicked .date ∧
      issue plainDeployment utc withAlice [] drawnToken (asking 1000000000000) 0 = .panicked .days ∧
      ¬ (issue plainDeployment utc withAlice [] drawnToken (asking 1000000000) 0).Exact 0 (some 1000000000) := by
  have past : issue plainDeployment utc withAlice [] drawnToken (asking 1000000000) 0 = .panicked .date := by
    decide
  refine ⟨past, by decide, ?_⟩
  rw [past]
  nofun

end OpenCargo.Identity
