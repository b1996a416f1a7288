/-
Module: OpenCargo.Identity.Lookup
Purpose: Whether an issued token authenticates as itself (`app/authenticate.rs`, `auth/tokens.rs`). The row is looked
  up by the first sixteen bytes of the raw value, which nothing keeps apart: the first row of them is taken.
Trusted boundary: as Identity.Issue
Main exports: Register, step, rawToken_form, issued_token_is_found_iff
-/
import OpenCargo.Identity.Issue

namespace OpenCargo.Identity.Lookup

open OpenCargo.Access (TokenScope)
open OpenCargo.Lib

/-! ### The forms -/

/-- `format!("{b:02x}")` of each byte. -/
def hexOf (bytes : Vector UInt8 16) : Text :=
  bytes.toList.flatMap fun b => [Nat.digitChar (b.toNat / 16), Nat.digitChar (b.toNat % 16)]

def draw (id : Text) (bytes : Vector UInt8 16) : Drawn := ⟨id, hexOf bytes⟩

theorem digitChar_ne_s {n : Nat} (digit : n < 16) : Nat.digitChar n ≠ 's' := by
  revert n
  decide

theorem head_hexOf (bytes : Vector UInt8 16) : ∃ c rest, hexOf bytes = c :: rest ∧ c ≠ 's' := by
  obtain ⟨b, rest, split⟩ := List.exists_cons_of_length_pos (l := bytes.toList) (by simp)
  have high : b.toNat / 16 < 16 := Nat.div_lt_of_lt_mul b.toNat_lt
  rw [hexOf, split, List.flatMap_cons, List.cons_append]
  exact ⟨_, _, rfl, digitChar_ne_s high⟩

section Forms

variable {d : Deployment} {hexPart : Text}

/-- The two prefixes part at the letter after the configured one, or at its last. -/
theorem plain_apart (apart : ∃ c rest, hexPart = c :: rest ∧ c ≠ 's') :
    d.isScopedForm (d.tokenPrefix ++ hexPart) = false := by
  obtain ⟨c, rest, rfl, other⟩ := apart
  rw [Deployment.isScopedForm, Deployment.scopedPrefix, Bool.eq_false_iff, ne_eq, List.isPrefixOf_iff_prefix]
  intro starts
  split at starts
  · rename_i ends
    obtain ⟨stem, same⟩ : ∃ stem, d.tokenPrefix = stem ++ ['_'] := by
      obtain ⟨stem, same⟩ := List.getLast?_eq_some_iff.mp ends
      exact ⟨stem, same⟩
    rw [same, List.dropLast_concat, List.append_assoc, List.prefix_append_right_inj] at starts
    exact absurd (List.cons_prefix_cons.mp starts).1 (by decide)
  · rw [List.prefix_append_right_inj] at starts
    exact other (List.cons_prefix_cons.mp starts).1.symm

theorem rawToken_form (d : Deployment) (scope : TokenScope) (id : Text) (bytes : Vector UInt8 16) :
    d.isScopedForm (rawToken d scope (draw id bytes)) = !scope.isInherit := by
  rw [rawToken]
  cases inherits : scope.isInherit with
  | true => exact plain_apart (head_hexOf bytes)
  | false => exact List.isPrefixOf_iff_prefix.mpr (List.prefix_append _ _)

end Forms

/-! ### Runs -/

/-- The tables, and every value that was issued, with the row that was stored for it. -/
structure Register where
  tables : Tables
  issued : List (Text × Token)
deriving Repr, DecidableEq

def Register.start (tables : Tables) : Register := ⟨tables, []⟩

inductive Act where
  | issue (repositories : List Access.Incarnation) (id : Text) (bytes : Vector UInt8 16) (request : IssueRequest)
      (now : Instant)
  /-- Any other operation of the store: a session's token, whose prefix is not the configured one, an account's end. -/
  | store (act : Identity.Act)

def step (d : Deployment) (dates : Dates) (r : Register) : Act → Option Register
  | .issue repositories id bytes request now =>
      match issue d dates r.tables repositories (draw id bytes) request now with
      | .issued token tables =>
          some ⟨tables, r.issued ++ (tables.tokens.getLast?.map fun row => (token.token, row)).toList⟩
      | _ => some r
  | .store act => (r.tables.step act).map fun tables => { r with tables := tables }

/-- Every row that was stored for a value has the first bytes of the value, and its hash. -/
def Register.Kept (d : Deployment) (r : Register) : Prop :=
  ∀ raw row, (raw, row) ∈ r.issued → leadOf keyLen raw = some row.lead ∧ row.tokenHash = d.hashCredential raw

section Run

variable {d : Deployment} {dates : Dates} {r after : Register} {act : Act} {acts : List Act} {now : Instant}

theorem issueFor_row {tables t : Tables} {drawn : Drawn} {request : IssueRequest} {user : User} {scope : TokenScope}
    {token : IssuedToken} (done : issueFor d dates tables drawn request now user scope = .issued token t) :
    ∃ row, t.tokens.getLast? = some row ∧ leadOf keyLen token.token = some row.lead ∧
      row.tokenHash = d.hashCredential token.token := by
  rw [issueFor] at done
  split at done
  · cases done
  · rename_i lead cut
    split at done
    · cases done
    · dsimp only at done
      split at done
      · cases done
      · rename_i written
        cases done
        obtain ⟨-, rfl⟩ := Tables.insertToken_spec written
        exact ⟨_, List.getLast?_concat, cut, rfl⟩

theorem issue_row {tables t : Tables} {repositories : List Access.Incarnation} {drawn : Drawn}
    {request : IssueRequest} {token : IssuedToken}
    (done : issue d dates tables repositories drawn request now = .issued token t) :
    ∃ row, t.tokens.getLast? = some row ∧ leadOf keyLen token.token = some row.lead ∧
      row.tokenHash = d.hashCredential token.token := by
  rw [issue] at done
  split at done
  · cases done
  · split at done
    · cases done
    · split at done
      · cases done
      · exact issueFor_row done

theorem Register.Kept.step (kept : r.Kept d) (taken : step d dates r act = some after) : after.Kept d := by
  cases act with
  | issue repositories id bytes request at_ =>
      rw [Lookup.step] at taken
      split at taken
      · rename_i token tables done
        obtain ⟨row, last, own⟩ := issue_row done
        cases taken
        rintro raw other mem
        rw [last] at mem
        rcases List.mem_append.mp mem with old | new
        · exact kept raw other old
        · cases List.mem_singleton.mp new
          exact own
      · cases taken
        exact kept
  | store act =>
      rw [Lookup.step, Option.map_eq_some_iff] at taken
      obtain ⟨tables, -, rfl⟩ := taken
      exact kept

end Run

/-! ### The lookup -/

/-- No row before it has its first bytes. -/
def First (tables : Tables) (row : Token) : Prop :=
  ∃ before after, tables.tokens = before ++ row :: after ∧ ∀ other ∈ before, other.lead ≠ row.lead

theorem find?_lead_iff {tables : Tables} {row : Token} :
    (tables.tokens.find? fun token => token.lead == row.lead) = some row ↔ First tables row := by
  rw [List.find?_eq_some_iff_append, First]
  simp

/-- In every run, a value that was issued and whose row is live is answered with that row if and only if the row is
there and none before it has the same first sixteen bytes; and every value is hashed in the form its scope asks for,
whatever prefix is configured. -/
theorem issued_token_is_found_iff (d : Deployment) (dates : Dates) (tables : Tables) :
    (∀ acts r, Run (step d dates) Any (.start tables) acts r → ∀ raw row, (raw, row) ∈ r.issued →
      ∀ now staticTokens, row.isLive now = true →
        ((Server.mk r.tables staticTokens now).liveApiToken d raw = some row ↔ First r.tables row)) ∧
      ∀ scope id bytes, d.hashCredential (rawToken d scope (draw id bytes)) =
        if scope.isInherit then d.hashToken (rawToken d scope (draw id bytes))
        else d.hashToken ("scoped:".toList ++ rawToken d scope (draw id bytes)) := by
  constructor
  · intro acts r run raw row mem now staticTokens live
    have kept : r.Kept d := run.invariant (Register.Kept d) (fun _ _ none => by cases none)
      fun _ _ _ kept taken _ => kept.step taken
    obtain ⟨cut, hash⟩ := kept raw row mem
    have found : (Server.mk r.tables staticTokens now).liveApiToken d raw =
        (r.tables.tokens.find? fun token => token.lead == row.lead).bind fun stored =>
          if d.hashCredential raw != stored.tokenHash || !stored.isLive now then none else some stored := by
      rw [Server.liveApiToken, show leadOf 16 raw = _ from cut]
      rfl
    rw [found, ← find?_lead_iff, Option.bind_eq_some_iff]
    constructor
    · rintro ⟨stored, first, answered⟩
      split at answered
      · cases answered
      · cases answered
        exact first
    · intro first
      exact ⟨row, first, by simp [hash, live]⟩
  · intro scope id bytes
    rw [Deployment.hashCredential, rawToken_form]
    cases scope.isInherit <;> rfl

/-! ### A long prefix -/

/-- A prefix that has sixteen bytes of its own. -/
def longPrefix : Deployment := { plainDeployment with tokenPrefix := "opencargo-builds_".toList }

def twoTokens : List Act :=
  [.issue [] "t1".toList (.replicate 16 0) ⟨"alice".toList, "ci".toList, none, .inherit_, false⟩ 0,
    .issue [] "t2".toList (.replicate 16 1) ⟨"alice".toList, "cd".toList, none, .inherit_, false⟩ 0]

/-- The first of them is answered with its row. -/
theorem first_token_is_found :
    ∃ r, Run (step longPrefix utc) Any (.start withAlice) twoTokens r ∧
      ∃ raw row, (raw, row) ∈ r.issued ∧ (Server.mk r.tables [] 0).liveApiToken longPrefix raw = some row := by
  obtain ⟨r, run, tested⟩ := Run.of_test (step longPrefix utc) Any (.start withAlice) twoTokens
    (fun r => r.issued.any fun one => one.2.isLive 0 && r.tables.tokens.head? == some one.2) (by decide)
  simp only [List.any_eq_true, Bool.and_eq_true, beq_iff_eq] at tested
  obtain ⟨⟨raw, row⟩, mem, live, leads⟩ := tested
  obtain ⟨rest, tokens⟩ := List.head?_eq_some_iff.mp leads
  have first : First r.tables row := ⟨[], rest, tokens, fun _ none => by cases none⟩
  exact ⟨r, run, raw, row, mem,
    ((issued_token_is_found_iff longPrefix utc withAlice).1 twoTokens r run raw row mem 0 [] live).mpr first⟩

/-- Two tokens are issued, both live; the second is answered with nothing. -/
theorem second_token_is_not_found :
    ∃ r, Run (step longPrefix utc) Any (.start withAlice) twoTokens r ∧ (r.issued.map Prod.fst).Nodup ∧
      ∃ raw row, (raw, row) ∈ r.issued ∧ row ∈ r.tables.tokens ∧ row.isLive 0 = true ∧
        (Server.mk r.tables [] 0).liveApiToken longPrefix raw = none := by
  obtain ⟨r, run, tested⟩ := Run.of_test (step longPrefix utc) Any (.start withAlice) twoTokens
    (fun r => decide ((r.issued.map Prod.fst).Nodup) && r.issued.any fun one =>
      r.tables.tokens.contains one.2 && one.2.isLive 0 &&
        ((Server.mk r.tables [] 0).liveApiToken longPrefix one.1).isNone) (by decide)
  simp only [Bool.and_eq_true, decide_eq_true_eq, List.any_eq_true, List.contains_iff_mem, Option.isNone_iff_eq_none]
    at tested
  obtain ⟨apart, ⟨raw, row⟩, mem, ⟨stored, live⟩, missed⟩ := tested
  exact ⟨r, run, apart, raw, row, mem, stored, live, missed⟩

end OpenCargo.Identity.Lookup
