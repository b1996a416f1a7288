/-
Module: OpenCargo.Reclaim.Store
Purpose: The reclamation tables (migrations 025 to 027) and the transactions over them
  (`adapters/sqlite/reclaim.rs`, and what `adapters/sqlite/repositories.rs` does to them). What the
  committed rows reference is an argument: the union the statements call `REFERENCED`.
Trusted boundary: the nonces and tokens `uuid::Uuid::new_v4` gives are arguments
Main exports: Tables.claimOne, Tables.release, Tables.prunePins, Tables.retire
-/
import OpenCargo.Layout

namespace OpenCargo.Reclaim

/-! ### The rows -/

/-- One line of the union of every port's references: `protects` is the union's `p = 1`, a key that
protects everything under it. -/
structure Ref where
  key : Text
  protects : Bool
deriving Repr, DecidableEq, Inhabited

/-- `reclaim_pins`. -/
structure Pin where
  token : Text
  physicalKey : Text
  repoPrefix : Text
  until_ : Int
deriving Repr, DecidableEq, Inhabited

/-- `reclaim_candidates`. -/
structure CandidateRow where
  key : Text
  isPrefix : Bool
  enqueuedAt : Int
deriving Repr, DecidableEq, Inhabited

/-- `reclaim_claims`. -/
structure ClaimRow where
  key : Text
  token : Text
  until_ : Int
deriving Repr, DecidableEq, Inhabited

/-- `storage_prefixes`. -/
structure StoragePrefix where
  key : Text
  incarnation : Text
deriving Repr, DecidableEq, Inhabited

/-- The reclamation tables. `claimed` is `reclaim_claimed`, `retired` is `retired_incarnations`. -/
structure Tables where
  pins : List Pin
  candidates : List CandidateRow
  claims : List ClaimRow
  claimed : List Text
  prefixes : List StoragePrefix
  retired : List Text
deriving Repr, DecidableEq, Inhabited

/-- What `pin` hands to a placement for one logical key. -/
structure PinToken where
  token : Text
  logicalKey : Text
  physicalKey : Text
deriving Repr, DecidableEq, Inhabited

inductive Pinned where
  | retired
  | tokens (tokens : List PinToken)
deriving Repr, DecidableEq, Inhabited

inductive Claim where
  | claimed (token : Text)
  | referenced
  | pinned
  | notDue
deriving Repr, DecidableEq, Inhabited

/-- What `due` hands to a reclaimer. -/
structure Candidate where
  key : Text
  isPrefix : Bool
deriving Repr, DecidableEq, Inhabited

inductive Renewal where
  | renewed
  | superseded
deriving Repr, DecidableEq, Inhabited

/-! ### What the rows reference -/

/-- `REFERENCES_KEY`: the key is referenced, or (for a prefix) something under it is, or a protecting
key covers it. -/
def referencesKey (refs : List Ref) (key : Text) (isPrefix : Bool) : Bool :=
  refs.any fun ref =>
    ref.key == key || (isPrefix && Layout.sqlWithin ref.key key) ||
      (ref.protects && Layout.sqlWithin key ref.key)

/-- A generation of `logical` minted under `epoch`, that a committed row references and no claim ever
took. -/
def reusable (refs : List Ref) (claimed : List Text) (logical epoch : Text) : Option Text :=
  let stem := Layout.physicalKey logical []
  let minted := epoch ++ ['-']
  let found := refs.find? fun ref =>
    !ref.protects && ref.key.take stem.length == stem &&
      !(ref.key.drop stem.length).contains '/' &&
      (ref.key.drop stem.length).take minted.length == minted &&
      !claimed.contains ref.key
  found.map Ref.key

namespace Tables

/-! ### The queue -/

/-- `INSERT … ON CONFLICT(key) DO NOTHING`: a key that is queued keeps its instant. -/
def enqueueKey (tables : Tables) (now : Instant) (key : Text) : Tables :=
  if tables.candidates.any fun row => row.key == key then tables
  else { tables with candidates := tables.candidates ++ [⟨key, false, bindTs now⟩] }

def enqueueKeys (tables : Tables) (keys : List Text) (now : Instant) : Tables :=
  keys.foldl (fun t key => t.enqueueKey now key) tables

/-- `INSERT … ON CONFLICT(key) DO UPDATE SET prefix = 1`. -/
def enqueuePrefix (tables : Tables) (key : Text) (now : Instant) : Tables :=
  if tables.candidates.any fun row => row.key == key then
    { tables with
      candidates := tables.candidates.map fun row =>
        if row.key == key then { row with isPrefix := true } else row }
  else { tables with candidates := tables.candidates ++ [⟨key, true, bindTs now⟩] }

def dropCandidate (tables : Tables) (key : Text) : Tables :=
  { tables with candidates := tables.candidates.filter fun row => row.key != key }

/-! ### Pins -/

/-- Every pin under `root`, or taken for it, is revoked. -/
def revokeUnder (tables : Tables) (root : Text) : Tables :=
  { tables with
    pins := tables.pins.filter fun pin =>
      !(pin.repoPrefix == root || pin.physicalKey == root || Layout.sqlWithin pin.physicalKey root) }

/-- The pin a token stands for is still there. -/
def pinned (tables : Tables) (token : PinToken) : Bool :=
  tables.pins.any fun pin => pin.token == token.token && pin.physicalKey == token.physicalKey

/-- The tokens a commit spends, all or none: an error names the physical keys whose pin is gone. -/
def spendPins (tables : Tables) (tokens : List PinToken) : Except (List Text) Tables :=
  let revoked := (tokens.filter fun token => !tables.pinned token).map PinToken.physicalKey
  if revoked.isEmpty then
    .ok { tables with
      pins := tables.pins.filter fun pin =>
        !tokens.any fun token => pin.token == token.token && pin.physicalKey == token.physicalKey }
  else .error revoked

/-- `is_live_prefix`: a prefix of an incarnation that is not retired. -/
def isLivePrefix (tables : Tables) (key : Text) : Bool :=
  tables.prefixes.any fun row => row.key == key && !tables.retired.contains row.incarnation

/-- `is_retired`. -/
def isRetired (tables : Tables) (repoPrefix : Text) : Bool := !tables.isLivePrefix repoPrefix

/-- `is_retired_prefix`: a prefix of an incarnation that is retired. -/
def isRetiredPrefix (tables : Tables) (key : Text) : Bool :=
  tables.prefixes.any fun row => row.key == key && tables.retired.contains row.incarnation

/-- The physical key a placement is given: a generation that can be used again, or a fresh one. -/
def place (tables : Tables) (refs : List Ref) (epoch logical nonce : Text) : Text :=
  (reusable refs tables.claimed logical epoch).getD
    (Layout.physicalKey logical (Layout.generation epoch nonce))

/-- One round of `pin_all`'s loop, with the nonce and the token it draws. -/
def pinOne (tables : Tables) (refs : List Ref) (epoch repoPrefix logical nonce token : Text)
    (until_ : Instant) : PinToken × Tables :=
  let physical := tables.place refs epoch logical nonce
  (⟨token, logical, physical⟩,
    { tables with pins := tables.pins ++ [⟨token, physical, repoPrefix, bindTs until_⟩] })

/-- A logical key with the nonce and the token `pin_all` draws for it. -/
structure Draw where
  logical : Text
  nonce : Text
  token : Text
deriving Repr, DecidableEq, Inhabited

def pinEach (refs : List Ref) (epoch repoPrefix : Text) (until_ : Instant) :
    Tables → List Draw → List PinToken × Tables
  | tables, [] => ([], tables)
  | tables, draw :: draws =>
      let (token, next) :=
        tables.pinOne refs epoch repoPrefix draw.logical draw.nonce draw.token until_
      let (tokens, last) := pinEach refs epoch repoPrefix until_ next draws
      (token :: tokens, last)

def pinAll (tables : Tables) (refs : List Ref) (epoch repoPrefix : Text) (draws : List Draw)
    (until_ : Instant) : Pinned × Tables :=
  if tables.isRetired repoPrefix then (.retired, tables)
  else
    let (tokens, next) := pinEach refs epoch repoPrefix until_ tables draws
    (.tokens tokens, next)

/-! ### Claims -/

def cutoff (grace : Duration) (now : Instant) : Instant := now - grace

/-- A claim on the key that has not run out. -/
def held (tables : Tables) (key : Text) (now : Instant) : Bool :=
  tables.claims.any fun row => row.key == key && row.until_ > bindTs now

/-- A pin under the key that has not run out, with its grace. -/
def protectedBy (tables : Tables) (key : Text) (isPrefix : Bool) (grace : Duration)
    (now : Instant) : Bool :=
  tables.pins.any fun pin =>
    pin.until_ > bindTs (cutoff grace now) &&
      (pin.physicalKey == key || (isPrefix && Layout.sqlWithin pin.physicalKey key))

/-- The pins a claim revokes, and the mark it leaves on an exact key. -/
def revoke (tables : Tables) (key : Text) (isPrefix : Bool) : Tables :=
  if isPrefix then tables.revokeUnder key
  else
    { tables with
      pins := tables.pins.filter fun pin => pin.physicalKey != key
      claimed := if tables.claimed.contains key then tables.claimed else tables.claimed ++ [key] }

def setClaim (tables : Tables) (key token : Text) (until_ : Instant) : Tables :=
  if tables.claims.any fun row => row.key == key then
    { tables with
      claims := tables.claims.map fun row =>
        if row.key == key then { row with token := token, until_ := bindTs until_ } else row }
  else { tables with claims := tables.claims ++ [⟨key, token, bindTs until_⟩] }

/-- `claim_one`, with the token it draws. -/
def claimOne (tables : Tables) (refs : List Ref) (key : Text) (grace : Duration)
    (now until_ : Instant) (token : Text) : Claim × Tables :=
  match tables.candidates.find? fun row => row.key == key with
  | none => (.notDue, tables)
  | some candidate =>
      let retired := candidate.isPrefix && tables.isRetiredPrefix key
      if candidate.isPrefix && !retired && tables.isLivePrefix key then
        (.referenced, tables.dropCandidate key)
      else if !retired && candidate.enqueuedAt > bindTs (cutoff grace now) then (.notDue, tables)
      else if tables.held key now then (.notDue, tables)
      else if referencesKey refs key candidate.isPrefix then (.referenced, tables.dropCandidate key)
      else if tables.protectedBy key candidate.isPrefix grace now && !retired then (.pinned, tables)
      else (.claimed token, (tables.revoke key candidate.isPrefix).setClaim key token until_)

/-- The candidates a reclaimer is handed: due, or of a retired prefix, and not held. -/
def due (tables : Tables) (grace : Duration) (now : Instant) (limit : Nat) : List Candidate :=
  let ready := tables.candidates.filter fun row =>
    (row.enqueuedAt ≤ bindTs (cutoff grace now) || (row.isPrefix && tables.isRetiredPrefix row.key))
      && !tables.held row.key now
  let ordered := ready.insertionSort fun a b =>
    a.enqueuedAt < b.enqueuedAt ∨ (a.enqueuedAt = b.enqueuedAt ∧ a.key ≤ b.key)
  (ordered.take limit).map fun row => ⟨row.key, row.isPrefix⟩

def renew (tables : Tables) (token : Text) (until_ : Instant) : Renewal × Tables :=
  if tables.claims.any fun row => row.token == token then
    (.renewed,
      { tables with
        claims := tables.claims.map fun row =>
          if row.token == token then { row with until_ := bindTs until_ } else row })
  else (.superseded, tables)

/-- Drop the claim and the candidate it was of. -/
def release (tables : Tables) (token : Text) : Tables :=
  match tables.claims.find? fun row => row.token == token with
  | none => tables
  | some row =>
      { tables with claims := tables.claims.filter fun r => r.token != token }.dropCandidate row.key

def forgetClaimed (tables : Tables) (key : Text) : Tables :=
  { tables with claimed := tables.claimed.filter fun k => k != key }

/-- Drop a retired prefix, and the retirement with its last one. -/
def forgetRetired (tables : Tables) (key : Text) : Tables :=
  match tables.prefixes.find? fun row => row.key == key && tables.retired.contains row.incarnation with
  | none => tables
  | some row =>
      let left := tables.prefixes.filter fun r => r.key != key
      { tables with
        prefixes := left
        retired :=
          if left.any fun r => r.incarnation == row.incarnation then tables.retired
          else tables.retired.filter fun i => i != row.incarnation }

/-- The oldest pins that have run out, with their grace. -/
def prunePins (tables : Tables) (grace : Duration) (now : Instant) (limit : Nat) : Tables :=
  let out := (tables.pins.filter fun pin => pin.until_ ≤ bindTs (cutoff grace now)).insertionSort
    fun a b => a.until_ ≤ b.until_
  let pruned := (out.take limit).map fun pin => (pin.until_, pin.token)
  { tables with pins := tables.pins.filter fun pin => !pruned.contains (pin.until_, pin.token) }

/-! ### Repositories -/

/-- What `insert` does to the tables for a repository created under a fresh incarnation: it adopts its
own prefix and the name-keyed ones, whose candidates and claims go. -/
def adopt (tables : Tables) (format : Format) (name incarnation : Text) : Tables :=
  let legacy := Layout.nameKeyedPrefixes format name
  let own := Layout.incarnationPrefix incarnation :: legacy
  { tables with
    candidates := tables.candidates.filter fun row => !(row.isPrefix && legacy.contains row.key)
    claims := tables.claims.filter fun row => !legacy.contains row.key
    prefixes :=
      (tables.prefixes.filter fun row => !own.contains row.key) ++ own.map (⟨·, incarnation⟩) }

/-- A name-keyed prefix that is being emptied keeps its name from being taken again. -/
def adoptable (tables : Tables) (format : Format) (name : Text) (now : Instant) : Bool :=
  (Layout.nameKeyedPrefixes format name).all fun key => !tables.held key now

/-- What `retire_row` does to the tables for a repository of this incarnation. -/
def retire (tables : Tables) (incarnation : Text) (group : Bool) (now : Instant) : Tables :=
  let own := (tables.prefixes.filter fun row => row.incarnation == incarnation).map StoragePrefix.key
  let marked : Tables :=
    if tables.retired.contains incarnation then tables
    else { tables with retired := tables.retired ++ [incarnation] }
  let revoked := own.foldl revokeUnder marked
  if group then revoked else own.foldl (fun t key => t.enqueuePrefix key now) revoked

end Tables

end OpenCargo.Reclaim
