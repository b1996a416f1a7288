/-
Module: OpenCargo.Import.Fence
Purpose: Several owners of one journal. A `begin` takes the journal over from an owner that no longer
  beats, and the fence in every write is to keep the old one out. Which handle began last, which items
  each has claimed since it began, and who claimed an item last, are kept beside the files.
Trusted boundary: as Import.Journal
Main exports: Orderly, Guarded, Watched.Inv, superseded_stays_out
-/
import OpenCargo.Import.Journal
import OpenCargo.Lib.Run

namespace OpenCargo.Import

open OpenCargo.Lib (Run Any)

/-! ### The journal and its history -/

/-- The files, and what has happened to them. -/
structure Watched where
  files : Files
  /-- The handle whose `begin` succeeded last. -/
  last : Option Nat
  /-- The handles a `begin` has succeeded through. -/
  began : Nat → Bool
  /-- What each handle has claimed since it began, and has in hand. -/
  claims : List (Nat × Text)
  /-- The handle that claimed an item last. -/
  claimer : Text → Option Nat

inductive Event where
  | act (a : Act)
  /-- The worker that has the item in hand is gone. -/
  | dropped (handle : Nat) (sourceRef : Text)
deriving Repr, DecidableEq, Inhabited

namespace Watched

def start : Watched := ⟨.opened, none, fun _ => false, [], fun _ => none⟩

def drop (w : Watched) (i : Nat) (sourceRef : Text) : Watched :=
  { w with claims := w.claims.filter (· ≠ (i, sourceRef)) }

/-- The history, after an operation through the handle `i` that succeeded. -/
def note (w : Watched) (i : Nat) : Op → Answer → Watched
  | .begin .., _ =>
      { w with
        last := some i
        began := fun k => if k = i then true else w.began k
        claims := w.claims.filter (·.1 ≠ i) }
  | .claim .., .claimed (some item) =>
      let sourceRef := item.planned.item.sourceRef
      { w with
        claims := (i, sourceRef) :: w.claims
        claimer := fun x => if x = sourceRef then some i else w.claimer x }
  | .complete sourceRef _, _ => w.drop i sourceRef
  | _, _ => w

def step (needsRedaction : Text → Bool) (w : Watched) : Event → Option Watched
  | .act a =>
      match w.files.answer needsRedaction a with
      | .ok (answer, after) =>
          some { w.note a.handle a.op answer with files := ⟨after, w.files.heard a true⟩ }
      | .error _ => some { w with files := ⟨w.files.journal, w.files.heard a false⟩ }
  | .dropped i sourceRef => some (w.drop i sourceRef)

end Watched

/-! ### What is promised -/

/-- Each handle begins, and beats, under its own token. -/
def Own (token : Nat → Text) : Event → Prop
  | .act ⟨i, .begin _ owner _ _, _⟩ => owner = token i
  | .act ⟨i, .heartbeat owner _, _⟩ => owner = token i
  | _ => True

instance (token : Nat → Text) : (e : Event) → Decidable (Own token e)
  | .act ⟨i, .begin _ owner _ _, _⟩ => inferInstanceAs (Decidable (owner = token i))
  | .act ⟨i, .heartbeat owner _, _⟩ => inferInstanceAs (Decidable (owner = token i))
  | .act ⟨_, .finish .., _⟩ => .isTrue trivial
  | .act ⟨_, .streams .., _⟩ => .isTrue trivial
  | .act ⟨_, .record .., _⟩ => .isTrue trivial
  | .act ⟨_, .replaceRunGaps .., _⟩ => .isTrue trivial
  | .act ⟨_, .takeCollisions, _⟩ => .isTrue trivial
  | .act ⟨_, .claim .., _⟩ => .isTrue trivial
  | .act ⟨_, .complete .., _⟩ => .isTrue trivial
  | .act ⟨_, .sealed .., _⟩ => .isTrue trivial
  | .dropped .. => .isTrue trivial

/-- An operation through this handle passes the fence. -/
def Watched.Able (w : Watched) (i : Nat) : Prop := w.files.journal.fence (w.files.handles i) = .ok ()

/-- The handle began, and another has begun since. -/
def Watched.Superseded (w : Watched) (i : Nat) : Prop := w.began i = true ∧ w.last ≠ some i

def Op.begins : Op → Bool
  | .begin .. => true
  | _ => false

/-- What the fence is for, at one step: nothing a superseded handle writes takes effect; an item is
completed by the handle that claimed it last; and no two handles that have claimed an item can both
complete it. -/
structure Guarded (needsRedaction : Text → Bool) (w : Watched) (e : Event) (w' : Watched) : Prop where
  superseded : ∀ a, e = .act a → w.Superseded a.handle → a.op.begins = false →
    w'.files.journal = w.files.journal
  completed : ∀ i sourceRef outcome fails answered, e = .act ⟨i, .complete sourceRef outcome, fails⟩ →
    w.files.answer needsRedaction ⟨i, .complete sourceRef outcome, fails⟩ = .ok answered →
      w.claimer sourceRef = some i
  exclusive : ∀ i k sourceRef, (i, sourceRef) ∈ w'.claims → (k, sourceRef) ∈ w'.claims →
    w'.Able i → w'.Able k → i = k

/-- A handle that began still holds its owner. -/
def Watched.Holds (w : Watched) (i : Nat) : Prop := w.began i = true → w.files.handles i ≠ none

instance (w : Watched) (i : Nat) : Decidable (w.Holds i) :=
  inferInstanceAs (Decidable (_ → _))

/-- What its callers have to keep to: a handle that began writes no more once `finish` was called on it,
until it begins again; it claims only while it holds its owner, completes what it has in hand, and has
nothing in hand when it finishes. -/
def Orderly (w : Watched) : Event → Prop
  | .act ⟨_, .begin .., _⟩ => True
  | .act ⟨_, .heartbeat .., _⟩ => True
  | .act ⟨i, .claim .., _⟩ => w.files.handles i ≠ none
  | .act ⟨i, .complete sourceRef _, _⟩ => w.files.handles i ≠ none ∧ (i, sourceRef) ∈ w.claims
  | .act ⟨i, .finish .., _⟩ =>
      w.Holds i ∧ ∀ claim ∈ w.claims, claim.1 ≠ i
  | .act ⟨i, _, _⟩ => w.Holds i
  | .dropped .. => True

instance (w : Watched) : (e : Event) → Decidable (Orderly w e)
  | .act ⟨_, .begin .., _⟩ => .isTrue trivial
  | .act ⟨_, .heartbeat .., _⟩ => .isTrue trivial
  | .act ⟨i, .claim .., _⟩ => inferInstanceAs (Decidable (w.files.handles i ≠ none))
  | .act ⟨_, .complete .., _⟩ => inferInstanceAs (Decidable (_ ∧ _))
  | .act ⟨i, .finish .., _⟩ => inferInstanceAs (Decidable (w.Holds i ∧ ∀ claim ∈ w.claims, claim.1 ≠ i))
  | .act ⟨i, .streams .., _⟩ => inferInstanceAs (Decidable (w.Holds i))
  | .act ⟨i, .record .., _⟩ => inferInstanceAs (Decidable (w.Holds i))
  | .act ⟨i, .replaceRunGaps .., _⟩ => inferInstanceAs (Decidable (w.Holds i))
  | .act ⟨i, .takeCollisions, _⟩ => inferInstanceAs (Decidable (w.Holds i))
  | .act ⟨i, .sealed .., _⟩ => inferInstanceAs (Decidable (w.Holds i))
  | .dropped .. => .isTrue trivial

/-! ### The owner -/

namespace Journal

theorem run_foldl_plan {stream : Text} {planned : List Planned} {j : Journal} :
    (planned.foldl (plan stream) j).run = j.run := by
  induction planned generalizing j with
  | nil => rfl
  | cons p rest ih => exact ih.trans rfl

theorem owner_began {j : Journal} {header : RunHeader} {owner : Text} {fresh : Bool} {now : Instant} :
    (j.began header owner fresh now).owner = some owner := by
  cases fresh <;> rfl

theorem owner_of_map {j j' : Journal} {f : RunRow → RunRow} {owner : Text}
    (written : j'.run = j.run.map f) (keeps : ∀ row, (f row).owner = some owner → row.owner = some owner)
    (owned : j'.owner = some owner) : j.owner = some owner := by
  obtain ⟨row, held, named⟩ := Option.bind_eq_some_iff.mp owned
  rw [written, Option.map_eq_some_iff] at held
  obtain ⟨old, there, rfl⟩ := held
  exact Option.bind_eq_some_iff.mpr ⟨old, there, keeps old named⟩

end Journal

theorem owner_performed {j j' : Journal} {me : Option Text} {op : Op} {answer : Answer} {owner : Text}
    (done : Performed j me op answer j') (other : op.begins = false) (owned : j'.owner = some owner) :
    j.owner = some owner := by
  have same : j'.run = j.run → j.owner = some owner := by
    intro same
    rw [← owned, Journal.owner, Journal.owner, same]
  cases done with
  | began free => cases other
  | beat own =>
      refine Journal.owner_of_map rfl ?_ owned
      exact fun _ named => named
  | closed left =>
      refine Journal.owner_of_map rfl (fun row named => ?_) owned
      split at named
      · exact named
      · exact named
  | released holds own =>
      refine Journal.owner_of_map rfl ?_ owned
      intro row named
      cases named
  | streams passed => exact same rfl
  | recorded passed =>
      refine same (Journal.run_foldl_plan.trans ?_)
      split
      · rfl
      · rfl
  | replacedRunGaps passed => exact same rfl
  | tookCollisions passed => exact same rfl
  | @claimed lane now passed =>
      refine same ?_
      rw [Journal.claim]
      split
      · rfl
      · rfl
  | completed passed =>
      refine same ?_
      rw [Journal.complete]
      split
      · rfl
      · rfl
  | sealed passed => exact same rfl

/-! ### What a handle remembers -/

section Handles

variable {f : Files} {a : Act} {done : Bool} {k : Nat}

theorem heard_eq_some {owner : Text} (held : f.heard a done k = some owner) :
    f.handles k = some owner ∨
      k = a.handle ∧ done = true ∧ ∃ header fresh now, a.op = .begin header owner fresh now := by
  rw [Files.heard] at held
  split at held
  · rename_i own
    cases is : a.op with
    | begin header other fresh now =>
        rw [is, remembered] at held
        split at held
        · rename_i done
          cases held
          exact .inr ⟨own, done, header, fresh, now, rfl⟩
        · exact .inl held
    | finish phase now =>
        rw [is] at held
        cases held
    | _ =>
        rw [is] at held
        exact .inl held
  · exact .inl held

theorem heard_eq_none (left : f.heard a done k = none) :
    f.handles k = none ∨ k = a.handle ∧ ∃ phase now, a.op = .finish phase now := by
  rw [Files.heard] at left
  split at left
  · rename_i own
    cases is : a.op with
    | begin header other fresh now =>
        rw [is, remembered] at left
        split at left
        · cases left
        · exact .inl left
    | finish phase now => exact .inr ⟨own, phase, now, rfl⟩
    | _ =>
        rw [is] at left
        exact .inl left
  · exact .inl left

end Handles

/-! ### The invariant -/

/-- A handle that remembers an owner remembers its token, and has begun; the file's owner is the handle
that began last; and who has an item in hand holds its owner, and claimed the item last if nobody has
begun since. -/
structure Watched.Inv (token : Nat → Text) (w : Watched) : Prop where
  holds : ∀ i owner, w.files.handles i = some owner → owner = token i ∧ w.began i = true
  owned : ∀ owner, w.files.journal.owner = some owner → ∃ i, w.last = some i ∧ owner = token i
  hands : ∀ i sourceRef, (i, sourceRef) ∈ w.claims → w.files.handles i ≠ none
  latest : ∀ i sourceRef, (i, sourceRef) ∈ w.claims → w.last = some i → w.claimer sourceRef = some i

section Fence

variable {needsRedaction : Text → Bool} {token : Nat → Text} {w w' : Watched} {i : Nat}

theorem Watched.began_note {i k : Nat} {op : Op} {answer : Answer} (before : w.began k = true) :
    (w.note i op answer).began k = true := by
  cases op with
  | begin header owner fresh now =>
      change (if k = i then true else w.began k) = true
      rw [before, ite_self]
  | claim lane now =>
      cases answer with
      | claimed item => cases item <;> exact before
      | done => exact before
      | gaps found => exact before
  | _ => exact before

theorem Watched.last_note {i : Nat} {op : Op} {answer : Answer} (other : op.begins = false) :
    (w.note i op answer).last = w.last := by
  cases op with
  | begin header owner fresh now => cases other
  | claim lane now =>
      cases answer with
      | claimed item => cases item <;> rfl
      | done => rfl
      | gaps found => rfl
  | _ => rfl

namespace Watched.Inv

theorem start : Watched.start.Inv token where
  holds := by
    intro i owner held
    cases held
  owned := by
    intro owner owned
    cases owned
  hands := by
    intro i sourceRef mem
    cases mem
  latest := by
    intro i sourceRef mem
    cases mem

theorem last_of_owner (inv : w.Inv token) (distinct : Function.Injective token)
    (owned : w.files.journal.owner = some (token i)) : w.last = some i := by
  obtain ⟨k, last, same⟩ := inv.owned _ owned
  rw [last, distinct same]

/-- The fence lets through, of the handles that hold an owner, the one that began last. -/
theorem last_of_able (inv : w.Inv token) (distinct : Function.Injective token)
    (holds : w.files.handles i ≠ none) (able : w.Able i) : w.last = some i := by
  obtain ⟨owner, held⟩ := Option.ne_none_iff_exists'.mp holds
  obtain ⟨rfl, _⟩ := inv.holds i owner held
  exact inv.last_of_owner distinct (fence_eq_ok.mp able _ held)

theorem drop (inv : w.Inv token) (sourceRef : Text) : (w.drop i sourceRef).Inv token where
  holds := inv.holds
  owned := inv.owned
  hands := fun k x mem => inv.hands k x (List.mem_filter.mp mem).1
  latest := fun k x mem => inv.latest k x (List.mem_filter.mp mem).1

theorem refused (inv : w.Inv token) {a : Act} (orderly : Orderly w (.act a)) :
    { w with files := ⟨w.files.journal, w.files.heard a false⟩ }.Inv token where
  holds := by
    intro k owner held
    rcases heard_eq_some held with before | ⟨_, done, _⟩
    · exact inv.holds k owner before
    · cases done
  owned := inv.owned
  hands := by
    intro k sourceRef mem left
    rcases heard_eq_none left with before | ⟨rfl, phase, now, is⟩
    · exact inv.hands k sourceRef mem before
    · obtain ⟨i, op, fails⟩ := a
      cases is
      exact orderly.2 _ mem rfl
  latest := inv.latest

/-- What was in hand stays so after an operation of this handle other than `begin` and `finish`. -/
theorem still (inv : w.Inv token) {a : Act} {done : Bool} {k : Nat} {x : Text}
    (mem : (k, x) ∈ w.claims) (stays : ∀ phase now, a.op = .finish phase now → k ≠ a.handle) :
    w.files.heard a done k ≠ none := by
  intro left
  rcases heard_eq_none left with before | ⟨own, phase, now, is⟩
  · exact inv.hands k x mem before
  · exact stays phase now is own

theorem claimed (inv : w.Inv token) (distinct : Function.Injective token) {item : Journaled}
    (holds : w.files.handles i ≠ none) (able : w.Able i) {k : Nat} {x : Text}
    (mem : (k, x) ∈ (i, item.planned.item.sourceRef) :: w.claims) (last : w.last = some k) :
    (if x = item.planned.item.sourceRef then some i else w.claimer x) = some k := by
  have own : some i = some k := (inv.last_of_able distinct holds able).symm.trans last
  split
  · exact own
  · rename_i other
    rcases List.mem_cons.mp mem with new | old
    · exact absurd (congrArg Prod.snd new) other
    · exact inv.latest k x old last

theorem in_hand (inv : w.Inv token) (distinct : Function.Injective token) {a : Act} {answer : Answer}
    {after : Journal} {k : Nat} {x : Text} (orderly : Orderly w (.act a))
    (done : Performed w.files.journal (w.files.handles a.handle) a.op answer after)
    (mem : (k, x) ∈ (w.note a.handle a.op answer).claims) :
    w.files.heard a true k ≠ none ∧
      ((w.note a.handle a.op answer).last = some k →
        (w.note a.handle a.op answer).claimer x = some k) := by
  obtain ⟨i, op, fails⟩ := a
  cases done with
  | began free =>
      obtain ⟨old, other⟩ := List.mem_filter.mp mem
      have ne : k ≠ i := by simpa using other
      refine ⟨inv.still old (by rintro _ _ ⟨⟩), fun last => ?_⟩
      exact absurd (Option.some.inj last).symm ne
  | closed left =>
      exact ⟨inv.still mem fun _ _ _ => orderly.2 _ mem, inv.latest k x mem⟩
  | released holds own =>
      exact ⟨inv.still mem fun _ _ _ => orderly.2 _ mem, inv.latest k x mem⟩
  | @claimed lane now passed =>
      cases found : (w.files.journal.claim lane now).1 with
      | none =>
          rw [found] at mem
          exact ⟨inv.still mem (by rintro _ _ ⟨⟩), inv.latest k x mem⟩
      | some item =>
          rw [found] at mem
          refine ⟨?_, inv.claimed distinct orderly passed mem⟩
          rcases List.mem_cons.mp mem with new | old
          · cases new
            intro left
            rcases heard_eq_none left with before | ⟨_, _, _, is⟩
            · exact orderly before
            · cases is
          · exact inv.still old (by rintro _ _ ⟨⟩)
  | completed passed =>
      have old := (List.mem_filter.mp mem).1
      exact ⟨inv.still old (by rintro _ _ ⟨⟩), inv.latest k x old⟩
  | beat own => exact ⟨inv.still mem (by rintro _ _ ⟨⟩), inv.latest k x mem⟩
  | streams passed => exact ⟨inv.still mem (by rintro _ _ ⟨⟩), inv.latest k x mem⟩
  | recorded passed => exact ⟨inv.still mem (by rintro _ _ ⟨⟩), inv.latest k x mem⟩
  | replacedRunGaps passed => exact ⟨inv.still mem (by rintro _ _ ⟨⟩), inv.latest k x mem⟩
  | tookCollisions passed => exact ⟨inv.still mem (by rintro _ _ ⟨⟩), inv.latest k x mem⟩
  | sealed passed => exact ⟨inv.still mem (by rintro _ _ ⟨⟩), inv.latest k x mem⟩

theorem performed (inv : w.Inv token) (distinct : Function.Injective token) {a : Act} {answer : Answer}
    {after : Journal} (own : Own token (.act a)) (orderly : Orderly w (.act a))
    (done : Performed w.files.journal (w.files.handles a.handle) a.op answer after) :
    { w.note a.handle a.op answer with files := ⟨after, w.files.heard a true⟩ }.Inv token where
  holds := by
    intro k owner held
    rcases heard_eq_some held with before | ⟨rfl, _, header, fresh, now, is⟩
    · exact ⟨(inv.holds k owner before).1, began_note (inv.holds k owner before).2⟩
    · obtain ⟨i, op, fails⟩ := a
      cases is
      exact ⟨own, if_pos rfl⟩
  owned := by
    intro owner owned
    cases begins : a.op.begins with
    | true =>
        obtain ⟨i, op, fails⟩ := a
        cases done <;> try cases begins
        cases Journal.owner_began.symm.trans owned
        exact ⟨i, rfl, own⟩
    | false =>
        rw [last_note begins]
        exact inv.owned owner (owner_performed done begins owned)
  hands := fun k x mem => (inv.in_hand distinct orderly done mem).1
  latest := fun k x mem => (inv.in_hand distinct orderly done mem).2

theorem step (inv : w.Inv token) (distinct : Function.Injective token) {e : Event} (own : Own token e)
    (orderly : Orderly w e) (taken : w.step needsRedaction e = some w') : w'.Inv token := by
  cases e with
  | dropped k sourceRef =>
      cases taken
      exact inv.drop sourceRef
  | act a =>
      rw [Watched.step] at taken
      split at taken
      · rename_i answer after answered
        cases taken
        exact inv.performed distinct own orderly (Files.answered answered)
      · cases taken
        exact inv.refused orderly

theorem not_performed (inv : w.Inv token) (distinct : Function.Injective token) {a : Act} {answer : Answer}
    {after : Journal} (own : Own token (.act a)) (orderly : Orderly w (.act a))
    (superseded : w.Superseded a.handle) (other : a.op.begins = false) :
    ¬Performed w.files.journal (w.files.handles a.handle) a.op answer after := by
  intro done
  obtain ⟨i, op, fails⟩ := a
  have out : w.files.handles i ≠ none → ¬w.Able i := fun holds able =>
    superseded.2 (inv.last_of_able distinct holds able)
  cases done with
  | began free => cases other
  | beat owned => exact superseded.2 (inv.last_of_owner distinct (own ▸ owned))
  | closed left => exact orderly.1 superseded.1 left
  | released holds owned =>
      obtain ⟨rfl, _⟩ := inv.holds _ _ holds
      exact superseded.2 (inv.last_of_owner distinct owned)
  | streams passed => exact out (orderly superseded.1) passed
  | recorded passed => exact out (orderly superseded.1) passed
  | replacedRunGaps passed => exact out (orderly superseded.1) passed
  | tookCollisions passed => exact out (orderly superseded.1) passed
  | claimed passed => exact out orderly passed
  | completed passed => exact out orderly.1 passed
  | sealed passed => exact out (orderly superseded.1) passed

theorem guarded (inv : w.Inv token) (distinct : Function.Injective token) {e : Event} (own : Own token e)
    (orderly : Orderly w e) (taken : w.step needsRedaction e = some w') :
    Guarded needsRedaction w e w' where
  superseded := by
    rintro a rfl superseded other
    rw [Watched.step] at taken
    split at taken
    · rename_i answer after answered
      exact absurd (Files.answered answered) (inv.not_performed distinct own orderly superseded other)
    · cases taken
      rfl
  completed := by
    rintro i sourceRef outcome fails ⟨answer, after⟩ rfl answered
    have done := Files.answered answered
    cases done with
    | completed passed =>
        exact inv.latest i sourceRef orderly.2 (inv.last_of_able distinct orderly.1 passed)
  exclusive := by
    intro i k sourceRef mine theirs able able'
    have next := inv.step distinct own orderly taken
    have last := next.last_of_able distinct (next.hands i sourceRef mine) able
    have last' := next.last_of_able distinct (next.hands k sourceRef theirs) able'
    exact Option.some.inj (last.symm.trans last')

end Watched.Inv

/-- Along every run of any number of handles, each under a token of its own, the journal fences off a
superseded owner, as long as its callers are orderly. -/
theorem superseded_stays_out (needsRedaction : Text → Bool) (token : Nat → Text)
    (distinct : Function.Injective token) (events : List Event) (w : Watched)
    (run : Run (Watched.step needsRedaction) (fun w e _ => Own token e ∧ Orderly w e) .start events w) :
    Run (Watched.step needsRedaction) (fun w e w' => Guarded needsRedaction w e w') .start events w := by
  refine run.strengthen (fun w => w.Inv token) Watched.Inv.start ?_
  intro before e after inv taken met
  exact ⟨inv.step distinct met.1 met.2 taken, inv.guarded distinct met.1 met.2 taken⟩

/-! ### A straggler -/

/-- The token of each handle of a trace. -/
def hostOf (i : Nat) : Text := "host:".toList ++ List.replicate i 'i'

theorem hostOf_injective : Function.Injective hostOf := by
  intro i k same
  have lengths := congrArg List.length (List.append_cancel_left same)
  simpa using lengths

def noUrl (_ : Text) : Bool := false

def emptyHeader : RunHeader := ⟨[], [], [], [], 0, none, "running".toList, none⟩

def package (name : Text) : Planned where
  item :=
    { sourceRef := name
      format := .npm
      coord := ⟨"r".toList, name, "1.0.0".toList⟩
      publishedAt := none
      size := none
      want := ⟨none, none, none, none⟩
      origin := .npm [] name
      pkg := ⟨[], []⟩
      extra := ⟨false⟩ }
  targetRepo := "t".toList
  targetName := name
  targetFormat := .npm

def copiedOutcome : Outcome := ⟨.copied, some 1, none, none, none, []⟩

def through (i : Nat) (op : Op) : Event := .act ⟨i, op, false⟩

def afterStale : Instant := 61 * 1000000000

/-- An importer lists and claims a package, stalls, and another takes the journal over and claims it too;
then the first finds itself lost, and its run ends. -/
def takenOver : List Event :=
  [through 0 (.begin emptyHeader (hostOf 0) true 0),
    through 0 (.record "s".toList true [package "x".toList] [] none true),
    through 0 (.claim .file 0),
    through 1 (.begin emptyHeader (hostOf 1) false afterStale),
    through 1 (.claim .file afterStale),
    through 0 (.finish "aborted".toList afterStale)]

/-- The same take-over in order: the first importer's worker is gone when it finishes. -/
def inOrder : List Event :=
  takenOver.take 5 ++
    [through 1 (.complete "x".toList copiedOutcome), .dropped 0 "x".toList,
      through 0 (.finish "aborted".toList afterStale), through 1 (.finish "finished".toList afterStale)]

theorem superseded_stays_out_in_order :
    ∃ w, Run (Watched.step noUrl) (fun w e w' => Guarded noUrl w e w') .start inOrder w := by
  obtain ⟨w, run, _⟩ := Run.of_test (Watched.step noUrl) (fun w e _ => Own hostOf e ∧ Orderly w e) .start
    inOrder (fun _ => true) (by decide +kernel)
  exact ⟨w, superseded_stays_out noUrl hostOf hostOf_injective inOrder w run⟩

/-- What a worker of the first importer still sends. -/
def straggler : Event := through 0 (.complete "x".toList copiedOutcome)

theorem a_straggler_completes_what_it_lost :
    ¬∀ (needsRedaction : Text → Bool) (token : Nat → Text), Function.Injective token →
      ∀ events w, Run (Watched.step needsRedaction) (fun _ e _ => Own token e) .start events w →
        Run (Watched.step needsRedaction) (fun w e w' => Guarded needsRedaction w e w') .start events w := by
  intro guards
  obtain ⟨w, run, test⟩ := Run.of_test (Watched.step noUrl) (fun _ e _ => Own hostOf e) .start takenOver
    (fun w => w.began 0 && w.last != some 0 && (w.step noUrl straggler).any fun w' =>
      decide (w'.files.journal ≠ w.files.journal)) (by decide +kernel)
  simp only [Bool.and_eq_true, bne_iff_ne, ne_eq, Option.any_eq_true, decide_eq_true_eq] at test
  obtain ⟨superseded, w', taken, written⟩ := test
  have guarded := guards noUrl hostOf hostOf_injective _ _ (run.snoc taken trivial)
  have met := Run.last guarded run taken
  exact written (met.superseded _ rfl superseded rfl)

end Fence

end OpenCargo.Import
