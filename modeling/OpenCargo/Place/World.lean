/-
Module: OpenCargo.Place.World
Purpose: A placement at work in the system it is part of. Between any two of its calls anybody else may
  take any number of steps of the reclamation, and any call may fail; what is asked of the
  placement's own steps and of the others' are parameters.
Trusted boundary: a token or a nonce that is drawn was never drawn before (`uuid::Uuid::new_v4`)
Main exports: World.step, call, worldPorts, Triple.call
-/
import OpenCargo.Place
import OpenCargo.Reclaim.Queue

namespace OpenCargo.Place

open OpenCargo.Lib
open OpenCargo.Reclaim

/-! ### The world of one placement -/

/-- What happens around one call. -/
structure Turn (χ : Type) where
  /-- What others do before the call is made. -/
  acts : List (Act Bytes)
  /-- What they make of the other tables. -/
  rest : Option χ
  storeFails : Option StoreError
  storageFails : Option StorageError
  /-- A write that fails has landed all the same. -/
  landed : Bool
  /-- The nonces and the tokens that are drawn. -/
  draws : List (Text × Text)
  /-- What the rows reference once the call's transaction is made, and what it queues. -/
  rows : List Ref
  queues : List Text
deriving Inhabited

/-- The reclamation, the other tables, and the turns to come. `mine` (the tokens this placement was
given), `wrote` (the keys it wrote an object at) and `commits` (what its commits found and left) are
history. -/
structure World (χ : Type) where
  state : State Bytes
  rest : χ
  turns : List (Turn χ)
  mine : List PinToken
  wrote : List Text
  commits : List ((State Bytes × χ) × State Bytes × χ)

variable {χ : Type}

/-- What is true of the steps besides what they check. A token that is drawn is new; a segment of an
upload is written once, at a key nobody has named before; a repository is only retired once it holds
no row, and a group never places anything. -/
def genuine (w : World χ) : Act Bytes → Bool
  | .pin _ draws _ => draws.all fun draw =>
      w.state.tables.pins.all (fun pin => pin.token != draw.token) &&
        w.mine.all fun token => token.token != draw.token
  | .claim _ _ _ _ _ token =>
      w.state.tables.claims.all (fun row => row.token != token) &&
        w.state.holders.all fun h => h.token != token
  | .write key _ => w.state.placed.contains key || !w.state.seen.contains key
  | .retire incarnation group rows _ => (w.state.tables.ownPrefixes incarnation).all fun root =>
      !referencesKey rows root true &&
        (!group || w.state.tables.pins.all fun pin =>
          pin.repoPrefix != root && !Layout.under pin.physicalKey root)
  | _ => true

/-- The world in which a placement starts. -/
def World.start (state : State Bytes) (rest : χ) (turns : List (Turn χ)) : World χ :=
  ⟨state, rest, turns, [], [], []⟩

def World.step (w : World χ) (act : Act Bytes) : Option (World χ) :=
  if genuine w act then (Reclaim.step w.state act).map fun state => { w with state := state } else none

theorem World.step_some {w after : World χ} {act : Act Bytes} (taken : World.step w act = some after) :
    genuine w act = true ∧ ∃ state, Reclaim.step w.state act = some state ∧
      after = { w with state := state } := by
  unfold World.step at taken
  split at taken
  case isTrue fair =>
    obtain ⟨state, moved, rfl⟩ := Option.map_eq_some_iff.mp taken
    exact ⟨fair, state, moved, rfl⟩
  case isFalse => cases taken

/-- Nobody else spends the tokens of this placement. -/
def others (w : World χ) : Act Bytes → Prop
  | .commit tokens _ _ _ => ∀ token ∈ tokens, ∀ own ∈ w.mine, token.token ≠ own.token
  | _ => True

instance (w : World χ) (act : Act Bytes) : Decidable (others w act) := by
  unfold others
  apply @Act.casesOn _ _ act <;> intros <;> infer_instance

/-! ### The calls -/

section Calls

variable (met theirs : World χ → Act Bytes → World χ → Prop)
  [∀ w act after, Decidable (met w act after)] [∀ w act after, Decidable (theirs w act after)]
  (lands : Bool)

/-- A step of somebody else's. -/
def elsewhere (w : World χ) (act : Act Bytes) (after : World χ) : Prop :=
  others w act ∧ theirs w act after

instance (w : World χ) (act : Act Bytes) (after : World χ) :
    Decidable (elsewhere theirs w act after) := by
  unfold elsewhere
  infer_instance

/-- The next turn, with what others do in it. -/
def nextTurn : Prog (World χ) (Turn χ) := fun w =>
  match w.turns with
  | [] => none
  | turn :: turns =>
      if turn.landed && !lands then none
      else (exec (checked World.step (elsewhere theirs))
        { w with turns := turns, rest := turn.rest.getD w.rest } turn.acts).map fun after => (turn, after)

/-- A call: the next turn, and then what the call does in it. -/
def call {α : Type} (does : Turn χ → World χ → Option (α × World χ)) : Prog (World χ) α := do
  let turn ← nextTurn theirs lands
  does turn

/-- A call that reads the store. -/
def readCall {α : Type} (read : Objects Bytes → Except StorageError α) :
    Prog (World χ) (Except StorageError α) :=
  call theirs lands fun turn w =>
    match turn.storageFails with
    | some e => some (.error e, w)
    | none => some (read w.state.objects, w)

/-- A step of the placement's own. -/
def own (w : World χ) (act : Act Bytes) : Option (World χ) := checked World.step met w act

/-- The object of a key is written, and this is remembered. -/
def writes (w : World χ) (key : Text) (body : Bytes) : Option (World χ) :=
  (own met w (.write key body)).map fun after => { after with wrote := key :: after.wrote }

/-- A call that writes the object of a key, of what it finds in the store. -/
def writeCall (found : Objects Bytes → Option Bytes) (key : Text) :
    Prog (World χ) (Except StorageError Unit) :=
  call theirs lands fun turn w =>
    match turn.storageFails, found w.state.objects with
    | some e, some body =>
        if turn.landed then (writes met w key body).map fun after => (.error e, after)
        else some (.error e, w)
    | some e, none => some (.error e, w)
    | none, none => some (.error .notFound, w)
    | none, some body => (writes met w key body).map fun after => (.ok (), after)

/-- A key with the nonce and the token that are drawn for it. -/
def drawsOf (logical : List Text) (draws : List (Text × Text)) : List Tables.Draw :=
  List.zipWith (fun key drawn => ⟨key, drawn.1, drawn.2⟩) logical draws

/-- The tokens a pin answers. -/
def given : Pinned → List PinToken
  | .retired => []
  | .tokens tokens => tokens

variable (incarnation : Text) (until_ now : Instant)

def pinCall (repoPrefix : Text) (logical : List Text) : Prog (World χ) (Except StoreError Pinned) :=
  call theirs lands fun turn w =>
    match turn.storeFails with
    | some e => some (.error e, w)
    | none =>
        if repoPrefix = Layout.incarnationPrefix incarnation ∧ turn.draws.length = logical.length then
          let draws := drawsOf logical turn.draws
          let answer := (w.state.tables.pinAll w.state.rows w.state.epoch repoPrefix draws until_).1
          (own met w (.pin incarnation draws until_)).map fun after =>
            (.ok answer, { after with mine := given answer ++ after.mine })
        else none

/-- What a placement under this incarnation asks for. Its own queueing does not fail. -/
def worldPorts : Place.Ports (World χ) where
  pin := pinCall met theirs lands incarnation until_
  enqueue := fun keys => call theirs lands fun _ w =>
    (own met w (.enqueue keys now)).map fun after => ((), after)
  put := fun key body => writeCall met theirs lands (fun _ => some body) key
  copyObject := fun source target => writeCall met theirs lands (fun objects => objects.get source) target
  relocate := fun source target => do
    let answer ← writeCall met theirs lands (fun objects => objects.get source) target
    modifyGet fun w => (answer, if answer.isOk then
      { w with state := { w.state with objects := w.state.objects.delete source } } else w)
  concat := fun keys target => writeCall met theirs lands (fun objects => objects.gather keys) target
  stat := fun key => readCall theirs lands fun objects => .ok ((objects.get key).map List.length)

/-- Each of these tokens' keys is referenced or queued. -/
def settles (tokens : List PinToken) (rows : List Ref) (queues : List Text) : Bool :=
  tokens.all fun token =>
    decide (Referenced rows token.physicalKey) || queues.contains token.physicalKey

/-- A caller's commit: refused, superseded by a revocation, or made, whatever its rows are. -/
def commitCall (tokens : List PinToken) : Prog (World χ) (Except StoreError Unit) :=
  call theirs lands fun turn w =>
    match turn.storeFails with
    | some (.superseded _) => none
    | some e => some (.error e, w)
    | none =>
        match w.state.tables.spendPins tokens with
        | .error revoked => some (.error (.superseded revoked), w)
        | .ok _ =>
            if settles tokens turn.rows turn.queues then
              (own met w (.commit tokens turn.rows turn.queues now)).map fun after => (.ok (), after)
            else none

end Calls

/-! ### Rules for the calls -/

theorem pinAll_tokens {tables : Tables} {refs : List Ref} {epoch repoPrefix : Text}
    {draws : List Tables.Draw} {until_ : Instant} {tokens : List PinToken}
    (answer : (tables.pinAll refs epoch repoPrefix draws until_).1 = .tokens tokens) :
    tokens = draws.map (tables.tokenOf refs epoch) := by
  unfold Tables.pinAll at answer
  split at answer
  · cases answer
  · rw [Tables.pinEach_eq] at answer
    exact (Pinned.tokens.inj answer).symm

theorem drawsOf_length {logical : List Text} {draws : List (Text × Text)}
    (same : draws.length = logical.length) : (drawsOf logical draws).length = logical.length := by
  simp [drawsOf, same]

section Rules

variable {met theirs : World χ → Act Bytes → World χ → Prop}
  [∀ w act after, Decidable (met w act after)] [∀ w act after, Decidable (theirs w act after)]
  {lands : Bool} {P : World χ → Prop}

/-- Where the world stands, whatever the turns to come and the other tables. -/
structure Stable (theirs : World χ → Act Bytes → World χ → Prop) (P : World χ → Prop) : Prop where
  turns : ∀ w turns rest, P w → P { w with turns := turns, rest := rest }
  step : ∀ w act after, P w → World.step w act = some after → others w act → theirs w act after → P after

theorem Stable.played (stable : Stable theirs P) {w after : World χ} {acts : List (Act Bytes)}
    (holds : P w) (played : exec (checked World.step (elsewhere theirs)) w acts = some after) : P after := by
  have run : Run World.step (elsewhere theirs) w acts after := by
    simpa using Run.of_exec_from World.step (elsewhere theirs) Run.nil played
  exact run.invariant P holds fun u act v before taken both =>
    stable.step u act v before taken both.1 both.2

theorem triple_nextTurn (stable : Stable theirs P) : Triple P (nextTurn theirs lands) fun turn w =>
    P w ∧ (turn.landed = true → lands = true) := by
  constructor
  intro w holds turn after run
  change (match w.turns with
    | [] => none
    | turn :: turns => _ : Option (Turn χ × World χ)) = _ at run
  split at run
  case h_1 => cases run
  case h_2 next turns _ =>
    split at run
    case isTrue => cases run
    case isFalse fits =>
      obtain ⟨v, played, same⟩ := Option.map_eq_some_iff.mp run
      cases same
      refine ⟨stable.played (stable.turns w turns _ holds) played, ?_⟩
      intro landed
      simpa [landed] using fits

theorem Triple.call {α : Type} {does : Turn χ → World χ → Option (α × World χ)}
    {Q : α → World χ → Prop} (stable : Stable theirs P)
    (outcome : ∀ turn w a after, P w → (turn.landed = true → lands = true) →
      does turn w = some (a, after) → Q a after) :
    Triple P (Place.call theirs lands does) Q := by
  apply (triple_nextTurn stable).bind
  intro turn
  exact ⟨fun w holds a after run => outcome turn w a after holds.1 holds.2 run⟩

theorem triple_read {α : Type} {read : Objects Bytes → Except StorageError α}
    {Q : Except StorageError α → World χ → Prop} (stable : Stable theirs P)
    (failed : ∀ e w, P w → Q (.error e) w) (found : ∀ w, P w → Q (read w.state.objects) w) :
    Triple P (readCall theirs lands read) Q := by
  apply Triple.call stable
  intro turn w a after holds _ run
  split at run
  · cases run
    exact failed _ w holds
  · cases run
    exact found w holds

theorem triple_write {found : Objects Bytes → Option Bytes} {key : Text}
    {Q : Except StorageError Unit → World χ → Prop} (stable : Stable theirs P)
    (failed : ∀ e w, P w → Q (.error e) w)
    (written : ∀ w body after r, P w → found w.state.objects = some body →
      writes met w key body = some after → (lands = false → r = .ok ()) → Q r after) :
    Triple P (writeCall met theirs lands found key) Q := by
  apply Triple.call stable
  intro turn w a after holds may run
  split at run
  case h_1 e body _ there =>
    split at run
    case isTrue landed =>
      obtain ⟨v, wrote, same⟩ := Option.map_eq_some_iff.mp run
      obtain ⟨rfl, rfl⟩ := Prod.mk.inj same
      apply written w body v _ holds there wrote
      intro never
      rw [may landed] at never
      cases never
    case isFalse =>
      cases run
      exact failed e w holds
  case h_2 e _ _ =>
    cases run
    exact failed e w holds
  case h_3 =>
    cases run
    exact failed _ w holds
  case h_4 body _ there =>
    obtain ⟨v, wrote, same⟩ := Option.map_eq_some_iff.mp run
    obtain ⟨rfl, rfl⟩ := Prod.mk.inj same
    exact written w body v _ holds there wrote fun _ => rfl

end Rules

end OpenCargo.Place
