/-
Module: OpenCargo.Proxy.Tokens
Purpose: The cache of upstream tokens (`proxy/auth.rs`) over any run of look-ups and of realms' replies. A reply's
  lifetime is scaled and added to the clock under the lock: where the sum is no instant the addition panics, and
  the cache is poisoned for good.
Trusted boundary: instants as Unix has them, in nanoseconds, of 63 bits of seconds
Main exports: mulF32, TokenCache.put, put_panics_iff, fitting_replies_keep_the_cache
-/
import OpenCargo.Domain
import OpenCargo.Lib.Entries
import OpenCargo.Lib.Run

namespace OpenCargo.Proxy.Tokens

open OpenCargo.Lib

/-! ### Durations -/

/-- A quotient rounded to the nearest, a half to the even one. -/
def halfEven (n d : Nat) : Nat :=
  if 2 * (n % d) < d ∨ 2 * (n % d) = d ∧ n / d % 2 = 0 then n / d else n / d + 1

/-- `n as f32`: 24 bits of it. -/
def asF32 (n : Nat) : Nat := if n < 2 ^ 24 then n else halfEven n (2 ^ (n.log2 - 23)) * 2 ^ (n.log2 - 23)

/-- `0.9_f32`, in parts of `2 ^ 24`. -/
def nineTenths : Nat := 15099494

/-- `Duration::from_secs(secs).mul_f32(0.9)`, in nanoseconds. No product of a `u64` overflows. -/
def mulF32 (secs : Nat) : Nat := halfEven (asF32 (asF32 secs * nineTenths) * 1000000000) (2 ^ 24)

/-- The first instant there is none of. -/
def instantLimit : Nat := 2 ^ 63 * 1000000000

/-- `Instant + Duration`; `none` is a panic. -/
def addInstant (now span : Nat) : Option Nat := if now + span < instantLimit then some (now + span) else none

def defaultTokenTtl : Nat := 300

example : mulF32 defaultTokenTtl = 270 * 1000000000 := by decide

/-! ### The cache -/

/-- The member holding the credentials, the upstream base and the scope. -/
abbrev TokenKey := Int × Text × Text

structure TokenCache where
  inner : Entries TokenKey (Text × Nat)
  poisoned : Bool

namespace TokenCache

def empty : TokenCache := ⟨⟨[], List.nodup_nil⟩, false⟩

/-- `none` is a panic: the lock is poisoned. -/
def get (cache : TokenCache) (now : Nat) (key : TokenKey) : Option (Option Text) :=
  if cache.poisoned then none
  else some (((cache.inner.get key).filter fun entry => decide (now < entry.2)).map Prod.fst)

/-- The cache, and whether the call returned. The lock is held where the sum panics, and the entry not yet made. -/
def put (cache : TokenCache) (now : Nat) (key : TokenKey) (token : Text) (ttl : Nat) : Bool × TokenCache :=
  if cache.poisoned then (false, cache)
  else
    match addInstant now (mulF32 ttl) with
    | none => (false, { cache with poisoned := true })
    | some until_ => (true, { cache with inner := cache.inner.set key (token, until_) })

end TokenCache

structure TokenReply where
  token : Option Text
  accessToken : Option Text
  expiresIn : Option UInt64
deriving Repr, DecidableEq, Inhabited

namespace TokenReply

/-- The token of a reply that has one. -/
def chosen (reply : TokenReply) : Option Text := (reply.token.or reply.accessToken).filter (!·.isEmpty)

def ttl (reply : TokenReply) : Nat := (reply.expiresIn.map UInt64.toNat).getD defaultTokenTtl

end TokenReply

/-! ### Runs -/

/-- A token that was stored, when, and the lifetime its reply gave. -/
structure Stored where
  key : TokenKey
  token : Text
  since : Nat
  ttl : Nat
deriving Repr, DecidableEq, Inhabited

/-- The cache and the clock; `stored` is history, the latest first. -/
structure World where
  cache : TokenCache
  now : Nat
  stored : List Stored

def World.start (now : Nat) : World := ⟨.empty, now, []⟩

inductive Act where
  | pass (nanos : Nat)
  | lookUp (key : TokenKey)
  /-- A realm's reply, to a challenge for the scope, if it named one. -/
  | reply (member : Int) (base : Text) (scope : Option Text) (answer : TokenReply)
deriving Repr, DecidableEq, Inhabited

/-- What is put in the cache, if anything. -/
def Act.puts : Act → Option (TokenKey × Text × Nat)
  | .reply member base (some scope) answer =>
      answer.chosen.map fun token => ((member, base, scope), token, answer.ttl)
  | _ => none

def World.put (w : World) (key : TokenKey) (token : Text) (ttl : Nat) : World where
  cache := (w.cache.put w.now key token ttl).2
  now := w.now
  stored := if (w.cache.put w.now key token ttl).1 then ⟨key, token, w.now, ttl⟩ :: w.stored else w.stored

def step (w : World) : Act → Option World
  | .pass nanos => some { w with now := w.now + nanos }
  | .lookUp _ => some w
  | .reply member base scope answer =>
      some ((Act.reply member base scope answer).puts.elim w fun put => w.put put.1 put.2.1 put.2.2)

/-- Nine tenths of the lifetime from now there is an instant. -/
def Fits (w : World) (act : Act) (_ : World) : Prop :=
  (act.puts.all fun put => decide (w.now + mulF32 put.2.2 < instantLimit)) = true

instance (w : World) (act : Act) (after : World) : Decidable (Fits w act after) :=
  inferInstanceAs (Decidable (_ = _))

/-- The cache is whole, and holds what was stored last for each key, to the end of nine tenths of its lifetime. -/
structure Kept (w : World) : Prop where
  sound : w.cache.poisoned = false
  holds : ∀ key, w.cache.inner.get key =
    (w.stored.find? fun s => decide (s.key = key)).map fun s => (s.token, s.since + mulF32 s.ttl)

section Run

variable {w after : World} {act : Act} {acts : List Act} {key : TokenKey} {token : Text} {now ttl : Nat}

theorem put_panics_iff (cache : TokenCache) : (cache.put now key token ttl).1 = false ↔
    cache.poisoned = true ∨ instantLimit ≤ now + mulF32 ttl := by
  rw [TokenCache.put]
  cases cache.poisoned with
  | true => simp
  | false =>
      rw [if_neg Bool.false_ne_true, addInstant]
      by_cases fits : now + mulF32 ttl < instantLimit
      · simp [fits]
      · simp [fits, Nat.le_of_not_lt fits]

theorem put_eq {cache : TokenCache} (sound : cache.poisoned = false) (fits : now + mulF32 ttl < instantLimit) :
    cache.put now key token ttl =
      (true, { cache with inner := cache.inner.set key (token, now + mulF32 ttl) }) := by
  rw [TokenCache.put, if_neg (by simp [sound]), addInstant, if_pos fits]

theorem Kept.put (kept : Kept w) (fits : w.now + mulF32 ttl < instantLimit) : Kept (w.put key token ttl) := by
  rw [World.put, put_eq kept.sound fits]
  refine ⟨kept.sound, fun other => ?_⟩
  dsimp only
  rw [Entries.get_set, if_pos rfl, List.find?_cons]
  by_cases own : key = other
  · simp [own]
  · simp [own, Ne.symm own, kept.holds other]

theorem Kept.step (kept : Kept w) (taken : step w act = some after) (fits : Fits w act after) : Kept after := by
  cases act with
  | pass nanos =>
      cases taken
      exact ⟨kept.sound, kept.holds⟩
  | lookUp key =>
      cases taken
      exact kept
  | reply member base scope answer =>
      rw [Fits] at fits
      rw [Tokens.step] at taken
      cases put : (Act.reply member base scope answer).puts with
      | none =>
          rw [put] at taken
          cases taken
          exact kept
      | some put' =>
          rw [put, Option.all_some, decide_eq_true_eq] at fits
          rw [put, Option.elim_some] at taken
          cases taken
          exact kept.put fits

/-- In every run whose replies all fit no put has panicked, and the cache is not poisoned: every look-up returns,
and a token it returns is the one stored last for that member, upstream and scope, before nine tenths of its lifetime
have passed. -/
theorem fitting_replies_keep_the_cache {start : Nat} (run : Run step Fits (.start start) acts w) :
    w.cache.poisoned = false ∧ ∀ key, ∃ answer, w.cache.get w.now key = some answer ∧
      ∀ token ∈ answer, ∃ s, w.stored.find? (fun s => decide (s.key = key)) = some s ∧ s.key = key ∧
        s.token = token ∧ w.now < s.since + mulF32 s.ttl := by
  have kept : Kept w := run.invariant Kept ⟨rfl, fun _ => rfl⟩ fun _ _ _ kept taken fits => kept.step taken fits
  refine ⟨kept.sound, fun key => ⟨_, if_neg (by simp [kept.sound]), fun token returned => ?_⟩⟩
  obtain ⟨⟨token', until_⟩, held, rfl⟩ := Option.map_eq_some_iff.mp returned
  rw [Option.filter_eq_some_iff, kept.holds key, Option.map_eq_some_iff] at held
  obtain ⟨⟨s, last, same⟩, early⟩ := held
  cases same
  have own := List.find?_some last
  exact ⟨s, last, of_decide_eq_true own, rfl, of_decide_eq_true early⟩

end Run

/-! ### The longest lifetime -/

def libraryKey : TokenKey := (1, "https://registry.example/".toList, "repository:library/alpine:pull".toList)

def replyOf (expiresIn : Option UInt64) : Act :=
  .reply 1 "https://registry.example/".toList (some "repository:library/alpine:pull".toList)
    ⟨some "t".toList, none, expiresIn⟩

theorem default_lifetime_is_looked_up :
    ∃ w, Run step Fits (.start 0) [replyOf none, .pass 1, .lookUp libraryKey] w ∧ w.cache.poisoned = false ∧
      w.cache.get w.now libraryKey = some (some "t".toList) := by
  obtain ⟨w, run, tested⟩ := Run.of_test step Fits (.start 0) [replyOf none, .pass 1, .lookUp libraryKey]
    (fun w => w.cache.get w.now libraryKey == some (some "t".toList)) (by decide)
  exact ⟨w, run, (fitting_replies_keep_the_cache run).1, eq_of_beq tested⟩

/-- A realm that answers the greatest number there is poisons the cache, and every look-up after it panics. -/
theorem greatest_lifetime_poisons :
    ∃ w, Run step Any (.start 0) [replyOf (some (2 ^ 64 - 1).toUInt64)] w ∧ w.cache.poisoned = true ∧
      ∀ key, w.cache.get w.now key = none := by
  obtain ⟨w, run, poisoned⟩ := Run.of_test step Any (.start 0) [replyOf (some (2 ^ 64 - 1).toUInt64)]
    (fun w => w.cache.poisoned) (by decide)
  exact ⟨w, run, poisoned, fun key => if_pos poisoned⟩

end OpenCargo.Proxy.Tokens
