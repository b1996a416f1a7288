/-
Module: OpenCargo.Place
Purpose: `place_shared` (`app/place.rs`), the placer of shared keys: pin every entry, write each at the
  key it was given, and hand the tokens to the caller's commit; where the commit finds pins revoked,
  pin and place these entries again. It is written over the ports it uses, whatever answers them.
Trusted boundary: none
Main exports: Ports.write, Ports.rewrite, placeShared, unreferenced
-/
import OpenCargo.Lib.Prog
import OpenCargo.Reclaim.Store
import OpenCargo.Storage

namespace OpenCargo.Place

open OpenCargo.Lib
open OpenCargo.Reclaim (PinToken Pinned)

/-- Where an entry's bytes come from. -/
inductive Source where
  | bytes (body : Bytes)
  | copy (key : Text)
  | draft (key : Text)
  | segments (keys : List Text) (size : Nat)
  | existing
deriving Repr, DecidableEq, Inhabited

structure Entry where
  logicalKey : Text
  source : Source
deriving Repr, DecidableEq, Inhabited

inductive PlaceError where
  | retired
  | refused (error : StoreError)
  | unavailable
  | store (error : StoreError)
  | storage (error : StorageError)
deriving Repr, DecidableEq, Inhabited

/-- `ATTEMPTS`. -/
def attempts : Nat := 3

/-- What a placement asks of the reclamation store and of the artifact store. `concat` is the streamed
copy of several objects into one, that its writer commits as a whole. -/
structure Ports (σ : Type) where
  pin : Text → List Text → Prog σ (Except StoreError Pinned)
  enqueue : List Text → Prog σ Unit
  put : Text → Bytes → Prog σ (Except StorageError Unit)
  copyObject : Text → Text → Prog σ (Except StorageError Unit)
  relocate : Text → Text → Prog σ (Except StorageError Unit)
  concat : List Text → Text → Prog σ (Except StorageError Unit)
  stat : Text → Prog σ (Except StorageError (Option Nat))

/-- An entry with the token it was given, and the size its generation was found to have. -/
structure Slot where
  entry : Entry
  token : PinToken
  size : Option Nat
deriving Repr, DecidableEq, Inhabited

/-- Every generation this call wrote, less the revoked ones. -/
def unreferenced (written revoked : List Text) : List Text :=
  written.filter fun key => !revoked.contains key

section Placer

variable {σ T : Type} (ports : Ports σ)

/-- `Placer::pin`. -/
def pin (repoPrefix : Text) (logical : List Text) : Prog σ (Except PlaceError (List PinToken)) := do
  match ← ports.pin repoPrefix logical with
  | .ok (.tokens tokens) => return .ok tokens
  | .ok .retired => return .error .retired
  | .error e => return .error (.store e)

/-- Whether this call wrote `target`: a skipped or existing entry is not its residue. -/
def write (source : Source) (target : Text) : Prog σ (Except StorageError Bool) :=
  match source with
  | .bytes body => return (← ports.put target body).map fun _ => true
  | .copy key => return (← ports.copyObject key target).map fun _ => true
  | .draft key => return (← ports.relocate key target).map fun _ => true
  | .segments keys size => do
      match ← ports.stat target with
      | .error e => return .error e
      | .ok found =>
          if found == some size then return .ok false
          else return (← ports.concat keys target).map fun _ => true
  | .existing => return .ok false

/-- `size_of`: what a draft's generation committed. -/
def sizeOf (source : Source) (key : Text) : Prog σ (Option Nat) :=
  match source with
  | .draft _ => return (← ports.stat key).toOption.bind id
  | _ => return none

/-- A source that survives is read again; a draft that was moved is copied back from the revoked
generation when that is whole, and otherwise cannot be replayed. -/
def rewrite (source : Source) (revoked : Text) (size : Option Nat) (target : Text) :
    Prog σ (Except StorageError (Option Bool)) :=
  match source with
  | .draft _ => do
      match ← ports.stat revoked with
      | .error e => return .error e
      | .ok found =>
          if found.isSome && found == size then
            match ← ports.copyObject revoked target with
            | .ok _ => return .ok (some true)
            | .error .notFound => return .ok none
            | .error e => return .error e
          else return .ok none
  | source => return (← write ports source target).map some

/-- `Placer::enqueue`: nothing is asked for no key. -/
def enqueue (keys : List Text) : Prog σ Unit :=
  if keys.isEmpty then return () else ports.enqueue keys

/-- The first round of writes, each at the key its entry was given. -/
def writeEach : List (Entry × PinToken) → List Text →
    Prog σ (Except (List Text × StorageError) (List Text × List Slot))
  | [], written => return .ok (written, [])
  | (entry, token) :: rest, written => do
      match ← write ports entry.source token.physicalKey with
      | .error e => return .error (written, e)
      | .ok wrote =>
          let size ← sizeOf ports entry.source token.physicalKey
          match ← writeEach rest (if wrote then written ++ [token.physicalKey] else written) with
          | .error e => return .error e
          | .ok (written, slots) => return .ok (written, ⟨entry, token, size⟩ :: slots)

/-- Why an entry was not placed again: its source is gone, or the store failed. -/
inductive Replay where
  | gone (token : PinToken)
  | failed (error : StorageError)
deriving Repr, DecidableEq, Inhabited

/-- The entries whose key is revoked are placed again, each at the next fresh key. -/
def replayEach (revoked : List Text) : List Slot → List PinToken → List Text →
    Prog σ (Except (List Text × Replay) (List Text × List Slot))
  | [], _, written => return .ok (written, [])
  | slots, [], written => return .ok (written, slots)
  | slot :: rest, token :: fresh, written =>
      if revoked.contains slot.token.physicalKey then do
        match ← rewrite ports slot.entry.source slot.token.physicalKey slot.size
            token.physicalKey with
        | .ok (some wrote) =>
            let size ← sizeOf ports slot.entry.source token.physicalKey
            match ← replayEach revoked rest fresh
                (if wrote then written ++ [token.physicalKey] else written) with
            | .error e => return .error e
            | .ok (written, slots) => return .ok (written, ⟨slot.entry, token, size⟩ :: slots)
        | .ok none => return .error (written, .gone token)
        | .error e => return .error (written, .failed e)
      else do
        match ← replayEach revoked rest (token :: fresh) written with
        | .error e => return .error e
        | .ok (written, slots) => return .ok (written, slot :: slots)

/-- One attempt to commit, with `left` more to come. -/
def attempt (repoPrefix : Text) (commit : List PinToken → Prog σ (Except StoreError T)) :
    Nat → List Slot → List Text → Prog σ (Except PlaceError T)
  | left, slots, written => do
      match ← commit (slots.map Slot.token) with
      | .ok done => return .ok done
      | .error (.superseded revoked) =>
          match left with
          | 0 => do
              enqueue ports (unreferenced written revoked)
              return .error .unavailable
          | left + 1 => do
              let again := slots.filter fun slot => revoked.contains slot.token.physicalKey
              match ← pin ports repoPrefix (again.map fun slot => slot.entry.logicalKey) with
              | .error e => do
                  enqueue ports (unreferenced written revoked)
                  return .error e
              | .ok fresh => do
                  match ← replayEach ports revoked slots fresh written with
                  | .ok (written, slots) => attempt repoPrefix commit left slots written
                  | .error (written, .gone token) => do
                      enqueue ports (unreferenced written revoked ++ [token.physicalKey])
                      return .error .unavailable
                  | .error (written, .failed e) => do
                      enqueue ports (unreferenced written revoked)
                      return .error (.storage e)
      | .error refused => do
          enqueue ports written
          return .error (.refused refused)

/-- Places `entries` under `repoPrefix` and runs `commit` with one token per entry, in entry order. -/
def placeShared (repoPrefix : Text) (entries : List Entry)
    (commit : List PinToken → Prog σ (Except StoreError T)) : Prog σ (Except PlaceError T) := do
  match ← pin ports repoPrefix (entries.map Entry.logicalKey) with
  | .error e => return .error e
  | .ok tokens => do
      match ← writeEach ports (entries.zip tokens) [] with
      | .error (written, e) => do
          enqueue ports written
          return .error (.storage e)
      | .ok (written, slots) => attempt ports repoPrefix commit (attempts - 1) slots written

end Placer

/-! ### What a placement leaves -/

section Spec

/-- What is said of the state while a placement is under way: the invariant, which may speak of what
was written; that a key whose pin was found revoked is taken care of; that a token was given; that an
entry is in place at the key it was given; and, at the end, that nothing is left over. -/
structure Account (σ : Type) where
  kept : List Text → σ → Prop
  doomed : Text → σ → Prop
  held : PinToken → σ → Prop
  placed : Entry → PinToken → σ → Prop
  clean : σ → Prop

variable {σ T : Type} {ports : Ports σ} {A : Account σ} {E : Entry → Prop}
  {Given : Text → PinToken → Prop}

def Slot.pair (slot : Slot) : Entry × PinToken := (slot.entry, slot.token)

theorem Slot.map_fst_pair (slots : List Slot) :
    (slots.map Slot.pair).map Prod.fst = slots.map Slot.entry := by
  simp [Slot.pair, Function.comp_def]

theorem Slot.map_snd_pair (slots : List Slot) :
    (slots.map Slot.pair).map Prod.snd = slots.map Slot.token := by
  simp [Slot.pair, Function.comp_def]

/-- The keys written so far, after one more write. -/
def note (written : List Text) (key : Text) (wrote : Bool) : List Text :=
  if wrote then written ++ [key] else written

/-- Where a placement stands: what was written, the keys that are taken care of, the tokens it was
given, and the entries that are in place. -/
structure Placing (A : Account σ) (written doomed : List Text) (held : List PinToken)
    (pairs : List (Entry × PinToken)) (s : σ) : Prop where
  kept : A.kept written s
  doomed : ∀ key ∈ doomed, A.doomed key s
  held : ∀ token ∈ held, A.held token s
  placed : ∀ x ∈ pairs, A.placed x.1 x.2 s

/-- What is asked of the ports, for the entries `E` that are placed. A call changes nothing of where the
placement stands; a pin answers one token for each key; a write puts its entry in place and is noted
when it wrote; and once everything that was written is queued or taken care of, nothing is left over. -/
structure Served (ports : Ports σ) (A : Account σ) (E : Entry → Prop)
    (Given : Text → PinToken → Prop) : Prop where
  pin : ∀ written doomed held pairs repoPrefix logical,
    Triple (Placing A written doomed held pairs) (ports.pin repoPrefix logical) fun r s =>
      Placing A written doomed held pairs s ∧ ∀ tokens, r = .ok (.tokens tokens) →
        List.Forall₂ Given logical tokens ∧ ∀ token ∈ tokens, A.held token s
  stat : ∀ written doomed held pairs key,
    Triple (Placing A written doomed held pairs) (ports.stat key)
      fun _ => Placing A written doomed held pairs
  write : ∀ written doomed held pairs entry token, E entry → Given entry.logicalKey token →
    token ∈ held → Triple (Placing A written doomed held pairs)
      (write ports entry.source token.physicalKey) fun r s =>
        match r with
        | .ok wrote => Placing A (note written token.physicalKey wrote) doomed held
            ((entry, token) :: pairs) s
        | .error _ => Placing A written doomed held pairs s
  rewrite : ∀ written doomed held pairs entry token revoked size, E entry →
    Given entry.logicalKey token → token ∈ held → Triple (Placing A written doomed held pairs)
      (rewrite ports entry.source revoked size token.physicalKey) fun r s =>
        match r with
        | .ok (some wrote) => Placing A (note written token.physicalKey wrote) doomed held
            ((entry, token) :: pairs) s
        | _ => Placing A written doomed held pairs s
  enqueue : ∀ written doomed keys, (∀ key ∈ written, key ∈ keys ∨ key ∈ doomed) →
    Triple (Placing A written doomed [] []) (enqueue ports keys) fun _ => A.clean
  nothing : ∀ s, A.kept [] s → A.clean s

theorem Placing.subset {written doomed : List Text} {held fewer : List PinToken}
    {pairs others : List (Entry × PinToken)} {s : σ} (placing : Placing A written doomed held pairs s)
    (subset : ∀ x ∈ others, x ∈ pairs) (tokens : ∀ token ∈ fewer, token ∈ held) :
    Placing A written doomed fewer others s :=
  { placing with
    placed := fun x mem => placing.placed x (subset x mem)
    held := fun token mem => placing.held token (tokens token mem) }

theorem Placing.bare {written doomed : List Text} {held : List PinToken}
    {pairs : List (Entry × PinToken)} {s : σ} (placing : Placing A written doomed held pairs s) :
    Placing A written doomed [] [] s :=
  placing.subset nofun nofun

theorem Served.sizeOf (served : Served ports A E Given) (written doomed : List Text)
    (held : List PinToken) (pairs : List (Entry × PinToken)) (source : Source) (key : Text) :
    Triple (Placing A written doomed held pairs) (sizeOf ports source key)
      fun _ => Placing A written doomed held pairs := by
  unfold Place.sizeOf
  split
  · apply (served.stat written doomed held pairs key).bind
    exact fun _ => .pure fun _ placing => placing
  · exact .pure fun _ placing => placing

theorem Served.pinned (served : Served ports A E Given) (written doomed : List Text)
    (held : List PinToken) (pairs : List (Entry × PinToken)) (repoPrefix : Text)
    (logical : List Text) :
    Triple (Placing A written doomed held pairs) (Place.pin ports repoPrefix logical) fun r s =>
      Placing A written doomed held pairs s ∧ ∀ tokens, r = .ok tokens →
        List.Forall₂ Given logical tokens ∧ ∀ token ∈ tokens, A.held token s := by
  unfold Place.pin
  apply (served.pin written doomed held pairs repoPrefix logical).bind
  intro answer
  split
  case h_1 tokens =>
    apply Triple.pure
    intro s kept
    refine ⟨kept.1, ?_⟩
    intro all same
    cases same
    exact kept.2 tokens rfl
  case h_2 => exact .pure fun s kept => ⟨kept.1, nofun⟩
  case h_3 => exact .pure fun s kept => ⟨kept.1, nofun⟩

/-- Every key that was written is one of these, or its pin was found revoked. -/
def Accounted (written doomed : List Text) (pairs : List (Entry × PinToken)) : Prop :=
  ∀ key ∈ written, key ∈ doomed ∨ ∃ x ∈ pairs, x.2.physicalKey = key

theorem Accounted.note {written doomed : List Text} {pairs : List (Entry × PinToken)}
    (accounted : Accounted written doomed pairs) (entry : Entry) (token : PinToken) (wrote : Bool) :
    Accounted (note written token.physicalKey wrote) doomed ((entry, token) :: pairs) := by
  intro key mem
  have old : key ∈ written → key ∈ doomed ∨ ∃ x ∈ (entry, token) :: pairs, x.2.physicalKey = key := by
    intro there
    rcases accounted key there with gone | ⟨x, inside, same⟩
    · exact .inl gone
    · exact .inr ⟨x, List.mem_cons_of_mem _ inside, same⟩
  unfold Place.note at mem
  split at mem
  · rcases List.mem_append.mp mem with there | here
    · exact old there
    · exact .inr ⟨_, List.mem_cons_self, (List.mem_singleton.mp here).symm⟩
  · exact old mem

theorem Accounted.mono {written doomed more : List Text} {pairs others : List (Entry × PinToken)}
    (accounted : Accounted written doomed pairs)
    (kept : ∀ x ∈ pairs, x ∈ others ∨ x.2.physicalKey ∈ more) (wider : ∀ key ∈ doomed, key ∈ more) :
    Accounted written more others := by
  intro key mem
  rcases accounted key mem with gone | ⟨x, inside, same⟩
  · exact .inl (wider key gone)
  · rcases kept x inside with there | revoked
    · exact .inr ⟨x, there, same⟩
    · exact .inl (same ▸ revoked)

theorem Served.writeEach (served : Served ports A E Given) (doomed : List Text) (held : List PinToken)
    (pairs : List (Entry × PinToken))
    (given : ∀ x ∈ pairs, E x.1 ∧ Given x.1.logicalKey x.2 ∧ x.2 ∈ held)
    (done : List (Entry × PinToken)) (written : List Text) (accounted : Accounted written doomed done) :
    Triple (Placing A written doomed held done) (writeEach ports pairs written) fun r s =>
      match r with
      | .ok (written, slots) => slots.map Slot.pair = pairs ∧
          Placing A written doomed held (done ++ pairs) s ∧ Accounted written doomed (done ++ pairs)
      | .error (written, _) => Placing A written doomed [] [] s := by
  induction pairs generalizing done written with
  | nil =>
      apply Triple.pure
      intro s placing
      exact ⟨rfl, by simpa using placing, by simpa using accounted⟩
  | cons x rest ih =>
      obtain ⟨entry, token⟩ := x
      unfold Place.writeEach
      obtain ⟨ours, here, ready⟩ := given (entry, token) List.mem_cons_self
      apply (served.write written doomed held done entry token ours here ready).bind
      intro answer
      rcases answer with e | wrote
      · exact .pure fun s placing => placing.bare
      · apply (served.sizeOf _ doomed held _ entry.source token.physicalKey).bind
        intro size
        have later := ih (fun x mem => given x (List.mem_cons_of_mem _ mem)) ((entry, token) :: done)
          (note written token.physicalKey wrote) (accounted.note entry token wrote)
        apply later.bind
        intro answer
        rcases answer with e | ⟨all, slots⟩
        · exact .pure fun s placing => placing
        · apply Triple.pure
          rintro s ⟨same, placing, counted⟩
          have move : ∀ x, x ∈ (entry, token) :: done ++ rest ↔ x ∈ done ++ (entry, token) :: rest := by
            intro x
            simp only [List.cons_append, List.mem_append, List.mem_cons]
            tauto
          refine ⟨?_, placing.subset (fun x mem => (move x).mpr mem) fun _ mem => mem, ?_⟩
          · rw [List.map_cons, same]
            rfl
          · exact counted.mono (fun x mem => .inl ((move x).mp mem)) fun _ mem => mem

/-- What a round of replays leaves of these slots, where `done` was in place: every entry has its slot,
the slots that were not revoked are as they were, and all of them are in place. -/
def Replayed (A : Account σ) (doomed revoked : List Text) (held : List PinToken)
    (done : List (Entry × PinToken)) (slots : List Slot)
    (r : Except (List Text × Replay) (List Text × List Slot)) (s : σ) : Prop :=
  match r with
  | .ok (written, placed) => placed.map Slot.entry = slots.map Slot.entry ∧
      (∀ slot ∈ slots, revoked.contains slot.token.physicalKey = false → slot ∈ placed) ∧
      Placing A written doomed held (done ++ placed.map Slot.pair) s ∧
      Accounted written doomed (done ++ placed.map Slot.pair)
  | .error (written, _) => Placing A written doomed [] [] s

theorem Replayed.cons {doomed revoked written : List Text} {held : List PinToken} {done : List (Entry × PinToken)}
    {old slot : Slot} {rest placed : List Slot} {s : σ} (same : slot.entry = old.entry)
    (kept : revoked.contains old.token.physicalKey = false → slot = old)
    (replayed : Replayed A doomed revoked held (slot.pair :: done) rest (.ok (written, placed)) s) :
    Replayed A doomed revoked held done (old :: rest) (.ok (written, slot :: placed)) s := by
  obtain ⟨entries, stay, placing, counted⟩ := replayed
  have move : ∀ x, x ∈ slot.pair :: done ++ placed.map Slot.pair ↔
      x ∈ done ++ (slot :: placed).map Slot.pair := by
    intro x
    simp only [List.map_cons, List.cons_append, List.mem_append, List.mem_cons]
    tauto
  refine ⟨?_, ?_, placing.subset (fun x mem => (move x).mpr mem) fun _ mem => mem, ?_⟩
  · rw [List.map_cons, List.map_cons, same, entries]
  · intro other mem miss
    rcases List.mem_cons.mp mem with rfl | later
    · rw [kept miss]
      exact List.mem_cons_self
    · exact List.mem_cons_of_mem _ (stay other later miss)
  · exact counted.mono (fun x mem => .inl ((move x).mp mem)) fun _ mem => mem

theorem again_cons_hit {revoked : List Text} {slot : Slot} {rest : List Slot}
    (hit : revoked.contains slot.token.physicalKey = true) :
    (slot :: rest).filter (fun slot => revoked.contains slot.token.physicalKey) =
      slot :: rest.filter fun slot => revoked.contains slot.token.physicalKey := by
  rw [List.filter_cons, if_pos hit]

theorem again_cons_miss {revoked : List Text} {slot : Slot} {rest : List Slot}
    (miss : revoked.contains slot.token.physicalKey = false) :
    (slot :: rest).filter (fun slot => revoked.contains slot.token.physicalKey) =
      rest.filter fun slot => revoked.contains slot.token.physicalKey := by
  rw [List.filter_cons, if_neg (Bool.eq_false_iff.mp miss)]

/-- A round of replays: the revoked entries are in place again, each at the next fresh key. -/
theorem Served.replayEach (served : Served ports A E Given) (doomed revoked : List Text)
    (slots : List Slot) (ours : ∀ slot ∈ slots, E slot.entry) (fresh : List PinToken)
    (given : List.Forall₂ Given ((slots.filter fun slot =>
      revoked.contains slot.token.physicalKey).map fun slot => slot.entry.logicalKey) fresh)
    (held : List PinToken) (ready : ∀ token ∈ fresh, token ∈ held) (done : List (Entry × PinToken))
    (kept : ∀ slot ∈ slots, revoked.contains slot.token.physicalKey = false → slot.pair ∈ done)
    (written : List Text) (accounted : Accounted written doomed done) :
    Triple (Placing A written doomed held done) (replayEach ports revoked slots fresh written)
      (Replayed A doomed revoked held done slots) := by
  induction slots generalizing fresh done written with
  | nil =>
      unfold Place.replayEach
      apply Triple.pure
      intro s placing
      exact ⟨rfl, nofun, by simpa using placing, by simpa using accounted⟩
  | cons slot rest ih =>
      have later : ∀ slot ∈ rest, E slot.entry := fun x mem => ours x (List.mem_cons_of_mem _ mem)
      have keptLater : ∀ x ∈ rest, revoked.contains x.token.physicalKey = false → x.pair ∈ done :=
        fun x mem => kept x (List.mem_cons_of_mem _ mem)
      cases hit : revoked.contains slot.token.physicalKey with
      | true =>
          rw [again_cons_hit hit, List.map_cons] at given
          cases given with
          | cons here given =>
            rename_i token fresh
            unfold Place.replayEach
            rw [if_pos hit]
            apply (served.rewrite written doomed held done slot.entry token _ _
              (ours slot List.mem_cons_self) here (ready token List.mem_cons_self)).bind
            intro answer
            rcases answer with e | none | wrote
            · exact .pure fun s placing => placing.bare
            · exact .pure fun s placing => placing.bare
            · apply (served.sizeOf _ doomed held _ slot.entry.source token.physicalKey).bind
              intro size
              apply (ih later fresh given (fun x mem => ready x (List.mem_cons_of_mem _ mem))
                ((slot.entry, token) :: done)
                (fun x mem miss => List.mem_cons_of_mem _ (keptLater x mem miss))
                (note written token.physicalKey wrote) (accounted.note slot.entry token wrote)).bind
              intro answer
              rcases answer with e | ⟨all, placed⟩
              · exact .pure fun s placing => placing
              · apply Triple.pure
                intro s replayed
                have moved : Replayed A doomed revoked held
                    (Slot.pair ⟨slot.entry, token, size⟩ :: done) rest (.ok (all, placed)) s := replayed
                have same : (⟨slot.entry, token, size⟩ : Slot).entry = slot.entry := rfl
                apply moved.cons same
                intro miss
                rw [hit] at miss
                cases miss
      | false =>
          rw [again_cons_miss hit] at given
          have here : slot.pair ∈ done := kept slot List.mem_cons_self hit
          have same : ∀ x, x ∈ slot.pair :: done ↔ x ∈ done := by
            intro x
            rw [List.mem_cons, or_iff_right_iff_imp]
            rintro rfl
            exact here
          cases fresh with
          | nil =>
              -- no key is left to give, so no slot that is left is revoked
              have noneLeft := List.forall₂_nil_right_iff.mp given
              rw [List.map_eq_nil_iff, List.filter_eq_nil_iff] at noneLeft
              have inPlace : ∀ x ∈ (slot :: rest).map Slot.pair, x ∈ done := by
                intro x mem
                obtain ⟨other, found, rfl⟩ := List.mem_map.mp mem
                rcases List.mem_cons.mp found with rfl | among
                · exact here
                · exact keptLater other among (Bool.eq_false_iff.mpr (noneLeft other among))
              unfold Place.replayEach
              apply Triple.pure
              intro s placing
              refine ⟨rfl, fun x mem _ => mem, placing.subset ?_ fun _ mem => mem, ?_⟩
              · intro x mem
                rcases List.mem_append.mp mem with old | new
                · exact old
                · exact inPlace x new
              · exact accounted.mono (fun x mem => .inl (List.mem_append_left _ mem)) fun _ mem => mem
          | cons token fresh =>
              unfold Place.replayEach
              rw [if_neg (Bool.eq_false_iff.mp hit)]
              have recur := ih later (token :: fresh) given ready (slot.pair :: done)
                (fun x mem miss => List.mem_cons_of_mem _ (keptLater x mem miss)) written
                (accounted.mono (fun x mem => .inl (List.mem_cons_of_mem _ mem)) fun _ mem => mem)
              refine Triple.bind (recur.weaken (fun s placing => ?_) fun _ _ kept => kept) ?_
              · exact placing.subset (fun x mem => (same x).mp mem) fun _ mem => mem
              intro answer
              rcases answer with e | ⟨all, placed⟩
              · exact .pure fun s placing => placing
              · apply Triple.pure
                intro s replayed
                exact replayed.cons rfl fun _ => rfl

/-! ### The attempts -/

/-- What the caller's commit leaves: what it promises, or where the placement stood; and where it found
pins revoked, their keys are taken care of. -/
def Committed (A : Account σ) (Q : T → σ → Prop) (written doomed : List Text)
    (pairs : List (Entry × PinToken)) (r : Except StoreError T) (s : σ) : Prop :=
  match r with
  | .ok done => Q done s
  | .error (.superseded revoked) => Placing A written (revoked ++ doomed) [] pairs s
  | .error _ => Placing A written doomed [] pairs s

/-- What a placement leaves: what its commit promises, or nothing that is left over. -/
def Settled (A : Account σ) (Q : T → σ → Prop) (r : Except PlaceError T) (s : σ) : Prop :=
  match r with
  | .ok done => Q done s
  | .error _ => A.clean s

theorem Served.fails (served : Served ports A E Given) {Q : T → σ → Prop}
    (written doomed : List Text) (held : List PinToken) (pairs : List (Entry × PinToken))
    (keys : List Text) (e : PlaceError)
    (all : ∀ key ∈ written, key ∈ keys ∨ key ∈ doomed) :
    Triple (Placing A written doomed held pairs)
      (do Place.enqueue ports keys; return .error e : Prog σ (Except PlaceError T)) (Settled A Q) := by
  have queued := (served.enqueue written doomed keys all).weaken
    (fun s (placing : Placing A written doomed held pairs s) => placing.bare) fun _ _ kept => kept
  apply queued.bind
  exact fun _ => .pure fun s kept => kept

theorem unreferenced_all {written revoked doomed : List Text} :
    ∀ key ∈ written, key ∈ unreferenced written revoked ∨ key ∈ revoked ++ doomed := by
  intro key mem
  by_cases hit : key ∈ revoked
  · exact .inr (List.mem_append_left _ hit)
  · exact .inl (List.mem_filter.mpr ⟨mem, by simpa using hit⟩)

/-- The slots that are not revoked. -/
def stayed (revoked : List Text) (slots : List Slot) : List (Entry × PinToken) :=
  (slots.filter fun slot => !revoked.contains slot.token.physicalKey).map Slot.pair

theorem mem_stayed {revoked : List Text} {slots : List Slot} {x : Entry × PinToken} :
    x ∈ stayed revoked slots ↔
      ∃ slot ∈ slots, revoked.contains slot.token.physicalKey = false ∧ slot.pair = x := by
  simp only [stayed, List.mem_map, List.mem_filter, Bool.not_eq_true', and_assoc]

/-- After a round of replays the placement stands where it stood, with a slot for every entry. -/
theorem Replayed.stands {doomed revoked written : List Text} {held : List PinToken}
    {slots placed : List Slot} {s : σ}
    (replayed : Replayed A doomed revoked held (stayed revoked slots) slots (.ok (written, placed)) s) :
    placed.map Slot.entry = slots.map Slot.entry ∧
      Placing A written doomed [] (placed.map Slot.pair) s ∧
      Accounted written doomed (placed.map Slot.pair) := by
  obtain ⟨entries, stay, placing, counted⟩ := replayed
  refine ⟨entries, placing.subset (fun x mem => List.mem_append_right _ mem) nofun, ?_⟩
  apply counted.mono _ fun _ mem => mem
  intro x mem
  left
  rcases List.mem_append.mp mem with old | new
  · obtain ⟨slot, among, miss, rfl⟩ := mem_stayed.mp old
    exact List.mem_map_of_mem (stay slot among miss)
  · exact new

/-- Where a commit found pins revoked: their entries are placed again, and the rest goes on. -/
theorem Served.replayed (served : Served ports A E Given) {revoked doomed written : List Text}
    {slots : List Slot} (ours : ∀ slot ∈ slots, E slot.entry) (fresh : List PinToken)
    (given : List.Forall₂ Given ((slots.filter fun slot =>
      revoked.contains slot.token.physicalKey).map fun slot => slot.entry.logicalKey) fresh)
    (accounted : Accounted written doomed (slots.map Slot.pair)) :
    Triple (Placing A written (revoked ++ doomed) fresh (slots.map Slot.pair))
      (Place.replayEach ports revoked slots fresh written)
      (Replayed A (revoked ++ doomed) revoked fresh (stayed revoked slots) slots) := by
  have counted : Accounted written (revoked ++ doomed) (stayed revoked slots) := by
    apply accounted.mono
    · intro x mem
      obtain ⟨slot, among, rfl⟩ := List.mem_map.mp mem
      by_cases hit : slot.token.physicalKey ∈ revoked
      · exact .inr (List.mem_append_left _ hit)
      · exact .inl (mem_stayed.mpr ⟨slot, among, by simpa using hit, rfl⟩)
    · exact fun key mem => List.mem_append_right _ mem
  have round := served.replayEach (revoked ++ doomed) revoked slots ours fresh given fresh
    (fun _ mem => mem) (stayed revoked slots)
    (fun slot mem miss => mem_stayed.mpr ⟨slot, mem, miss, rfl⟩) written counted
  refine round.weaken (fun s placing => placing.subset ?_ fun _ mem => mem) fun _ _ kept => kept
  intro x mem
  obtain ⟨slot, among, _, rfl⟩ := mem_stayed.mp mem
  exact List.mem_map_of_mem among

theorem Served.attempt (served : Served ports A E Given) {Q : T → σ → Prop} (repoPrefix : Text)
    (commit : List PinToken → Prog σ (Except StoreError T)) (entries : List Entry)
    (ours : ∀ entry ∈ entries, E entry)
    (commits : ∀ written doomed pairs, pairs.map Prod.fst = entries → Accounted written doomed pairs →
      Triple (Placing A written doomed [] pairs) (commit (pairs.map Prod.snd))
        (Committed A Q written doomed pairs))
    (left : Nat) (slots : List Slot) (same : slots.map Slot.entry = entries) (written doomed : List Text)
    (accounted : Accounted written doomed (slots.map Slot.pair)) :
    Triple (Placing A written doomed [] (slots.map Slot.pair))
      (attempt ports repoPrefix commit left slots written) (Settled A Q) := by
  induction left generalizing slots written doomed with
  | zero =>
      unfold Place.attempt
      have committed := commits written doomed (slots.map Slot.pair)
        ((Slot.map_fst_pair slots).trans same) accounted
      rw [Slot.map_snd_pair] at committed
      apply committed.bind
      intro answer
      rcases answer with e | done
      · cases e with
        | superseded revoked => exact served.fails written (revoked ++ doomed) _ _ _ _ unreferenced_all
        | _ => exact served.fails written doomed _ _ _ _ fun key mem => .inl mem
      · exact .pure fun s kept => kept
  | succ left ih =>
      unfold Place.attempt
      have committed := commits written doomed (slots.map Slot.pair)
        ((Slot.map_fst_pair slots).trans same) accounted
      rw [Slot.map_snd_pair] at committed
      apply committed.bind
      intro answer
      rcases answer with e | done
      · cases e with
        | superseded revoked =>
            apply (served.pinned written (revoked ++ doomed) [] (slots.map Slot.pair) repoPrefix _).bind
            intro answer
            rcases answer with e | fresh
            · refine Triple.weaken (served.fails written (revoked ++ doomed) [] (slots.map Slot.pair)
                (unreferenced written revoked) e unreferenced_all) ?_ fun _ _ kept => kept
              exact fun s kept => kept.1
            · apply Triple.assuming fun s kept => (kept.2 fresh rfl).1
              intro given
              have again := served.replayed (fun slot mem => ours _ (same ▸ List.mem_map_of_mem mem))
                fresh given accounted
              refine Triple.bind (again.weaken (fun s kept => ?_) fun _ _ kept => kept) ?_
              · exact { kept.1 with held := (kept.2 fresh rfl).2 }
              intro answer
              rcases answer with ⟨written, gone⟩ | ⟨written, slots⟩
              · rcases gone with token | e
                · apply served.fails written (revoked ++ doomed) [] [] _ _
                  intro key mem
                  exact (unreferenced_all key mem).imp (List.mem_append_left _) fun gone => gone
                · exact served.fails written (revoked ++ doomed) [] [] _ _ unreferenced_all
              · apply Triple.assuming fun s kept => And.intro kept.stands.1 kept.stands.2.2
                rintro ⟨entries, counted⟩
                refine (ih slots (entries.trans same) written (revoked ++ doomed) counted).weaken
                  ?_ fun _ _ kept => kept
                exact fun s kept => kept.stands.2.1
        | _ => exact served.fails written doomed _ _ _ _ fun key mem => .inl mem
      · exact .pure fun s kept => kept

/-- A placement, from a moment at which it has written nothing: whatever its ports answer, in whatever
attempt it ends, it leaves what its commit promises, or nothing that is left over. -/
theorem Served.placeShared (served : Served ports A E Given) {Q : T → σ → Prop}
    (repoPrefix : Text) (entries : List Entry) (ours : ∀ entry ∈ entries, E entry)
    (commit : List PinToken → Prog σ (Except StoreError T))
    (commits : ∀ written doomed pairs, pairs.map Prod.fst = entries → Accounted written doomed pairs →
      Triple (Placing A written doomed [] pairs) (commit (pairs.map Prod.snd))
        (Committed A Q written doomed pairs)) :
    Triple (A.kept []) (placeShared ports repoPrefix entries commit) (Settled A Q) := by
  unfold Place.placeShared
  have pinned := (served.pinned [] [] [] [] repoPrefix (entries.map Entry.logicalKey)).weaken
    (fun s (kept : A.kept [] s) => ⟨kept, nofun, nofun, nofun⟩) fun _ _ kept => kept
  apply pinned.bind
  intro answer
  rcases answer with e | tokens
  · exact .pure fun s kept => served.nothing s kept.1.kept
  · apply Triple.assuming fun s kept => (kept.2 tokens rfl).1
    intro given
    have pairs : ∀ x ∈ entries.zip tokens, E x.1 ∧ Given x.1.logicalKey x.2 ∧ x.2 ∈ tokens := by
      intro x mem
      refine ⟨ours x.1 (List.of_mem_zip mem).1, ?_, (List.of_mem_zip mem).2⟩
      exact List.forall₂_zip (List.forall₂_map_left_iff.mp given) mem
    have round := served.writeEach [] tokens (entries.zip tokens) pairs [] [] nofun
    refine Triple.bind (round.weaken (fun s kept => ?_) fun _ _ kept => kept) ?_
    · exact { kept.1 with held := (kept.2 tokens rfl).2 }
    intro answer
    rcases answer with ⟨written, e⟩ | ⟨written, slots⟩
    · exact served.fails written [] [] [] written _ fun key mem => .inl mem
    · apply Triple.assuming fun s kept => And.intro kept.1 kept.2.2
      rintro ⟨same, counted⟩
      have firsts : slots.map Slot.entry = entries := by
        rw [← Slot.map_fst_pair, same, List.map_fst_zip]
        have lengths := given.length_eq
        rw [List.length_map] at lengths
        exact lengths.le
      rw [List.nil_append, ← same] at counted
      refine (served.attempt repoPrefix commit entries ours commits _ slots firsts written []
        counted).weaken ?_ fun _ _ kept => kept
      intro s kept
      rw [same]
      exact kept.2.1.subset (fun x mem => mem) nofun

/-! ### An invariant no call touches -/

/-- Every call of the ports keeps `K`, and a pin answers one token for each key. -/
structure Keeps (ports : Ports σ) (K : σ → Prop) : Prop where
  pin : ∀ repoPrefix logical, Triple K (ports.pin repoPrefix logical) fun r s =>
    K s ∧ ∀ tokens, r = .ok (.tokens tokens) → tokens.length = logical.length
  enqueue : ∀ keys, Triple K (ports.enqueue keys) fun _ => K
  put : ∀ key body, Triple K (ports.put key body) fun _ => K
  copyObject : ∀ source target, Triple K (ports.copyObject source target) fun _ => K
  relocate : ∀ source target, Triple K (ports.relocate source target) fun _ => K
  concat : ∀ keys target, Triple K (ports.concat keys target) fun _ => K
  stat : ∀ key, Triple K (ports.stat key) fun _ => K

variable {K : σ → Prop}

theorem Keeps.write (keeps : Keeps ports K) (source : Source) (target : Text) :
    Triple K (Place.write ports source target) fun _ => K := by
  unfold Place.write
  split
  case h_1 body => exact (keeps.put target body).bind fun _ => .pure fun _ kept => kept
  case h_2 key => exact (keeps.copyObject key target).bind fun _ => .pure fun _ kept => kept
  case h_3 key => exact (keeps.relocate key target).bind fun _ => .pure fun _ kept => kept
  case h_4 keys size =>
    apply (keeps.stat target).bind
    intro answer
    rcases answer with e | found
    · exact .pure fun _ kept => kept
    · apply Triple.ite
      · exact fun _ => .pure fun _ kept => kept
      · exact fun _ => (keeps.concat keys target).bind fun _ => .pure fun _ kept => kept
  case h_5 => exact .pure fun _ kept => kept

theorem Keeps.rewrite (keeps : Keeps ports K) (source : Source) (revoked : Text) (size : Option Nat)
    (target : Text) : Triple K (Place.rewrite ports source revoked size target) fun _ => K := by
  unfold Place.rewrite
  split
  case h_1 =>
    apply (keeps.stat revoked).bind
    intro answer
    rcases answer with e | found
    · exact .pure fun _ kept => kept
    · apply Triple.ite
      · intro _
        apply (keeps.copyObject revoked target).bind
        intro answer
        rcases answer with e | _
        · cases e
          all_goals exact .pure fun _ kept => kept
        · exact .pure fun _ kept => kept
      · exact fun _ => .pure fun _ kept => kept
  case h_2 => exact (keeps.write _ target).bind fun _ => .pure fun _ kept => kept

/-- All that is said of the state is `K`. -/
def account (K : σ → Prop) : Account σ where
  kept := fun _ => K
  doomed := fun _ _ => True
  held := fun _ _ => True
  placed := fun _ _ _ => True
  clean := K

theorem placing_account {written doomed : List Text} {held : List PinToken}
    {pairs : List (Entry × PinToken)} {s : σ} :
    Placing (account K) written doomed held pairs s ↔ K s :=
  ⟨fun placing => placing.kept,
    fun kept => ⟨kept, fun _ _ => trivial, fun _ _ => trivial, fun _ _ => trivial⟩⟩

theorem Keeps.served (keeps : Keeps ports K) :
    Served ports (account K) (fun _ => True) fun _ _ => True where
  pin := by
    intro written doomed held pairs repoPrefix logical
    refine (keeps.pin repoPrefix logical).weaken (fun s placing => placing.kept) ?_
    rintro answer s ⟨kept, counted⟩
    refine ⟨placing_account.mpr kept, ?_⟩
    intro tokens same
    refine ⟨List.forall₂_iff_get.mpr ⟨(counted tokens same).symm, fun _ _ _ => trivial⟩, ?_⟩
    exact fun _ _ => trivial
  stat := fun written doomed held pairs key =>
    (keeps.stat key).weaken (fun s placing => placing.kept) fun _ s kept => placing_account.mpr kept
  write := by
    intro written doomed held pairs entry token _ _ _
    refine (keeps.write entry.source token.physicalKey).weaken (fun s placing => placing.kept) ?_
    intro answer s kept
    rcases answer with e | wrote
    all_goals exact placing_account.mpr kept
  rewrite := by
    intro written doomed held pairs entry token revoked size _ _ _
    refine (keeps.rewrite entry.source revoked size token.physicalKey).weaken
      (fun s placing => placing.kept) ?_
    intro answer s kept
    rcases answer with e | none | wrote
    all_goals exact placing_account.mpr kept
  enqueue := by
    intro written doomed keys _
    unfold Place.enqueue
    apply Triple.ite
    · exact fun _ => .pure fun s placing => placing.kept
    · exact fun _ => (keeps.enqueue keys).weaken (fun s placing => placing.kept) fun _ _ kept => kept
  nothing := fun s kept => kept

end Spec

end OpenCargo.Place
