/-
Module: OpenCargo.Import.Scopes
Purpose: The gaps of the journal, by scope. Every gap is in one table under the text of its scope, where
  the names of the source's streams stand beside the words of the importer's own; which of them an
  operation may change, and for which names it keeps to that.
Trusted boundary: as Import.Journal
Main exports: Framed, Plain, framed_of_plain, gaps_keep_apart_iff
-/
import OpenCargo.Import.Journal
import OpenCargo.Lib.Run

namespace OpenCargo.Import

open OpenCargo.Lib (Run Any bind_eq_ok upsert find?_upsert_self find?_upsert_of_ne find?_filter_of_imp)

/-! ### What an operation does to the gaps of a scope -/

/-- How often the gap is recorded in the scope: zero when it is not there. -/
def Journal.recorded (j : Journal) (scope : Text) (g : Gap) : Nat :=
  (j.gaps.find? fun row => row.key == (scope, g)).elim 0 GapRow.count

/-- The scope the operation writes its gaps into. -/
def Op.scope : Op → Option Text
  | .record stream .. => some stream
  | .replaceRunGaps _ => some runScope
  | .takeCollisions => some collisionScope
  | .complete sourceRef _ => some (itemScope sourceRef)
  | .sealed targetRepo name _ => some (sealScope targetRepo name)
  | _ => none

/-- The gaps it writes there. -/
def Op.gaps (j : Journal) : Op → List Gap
  | .record _ _ _ gaps _ _ => gaps
  | .replaceRunGaps gaps => gaps
  | .takeCollisions => j.takeCollisions.1
  | .complete _ outcome => outcome.gaps
  | .sealed _ _ gaps => gaps
  | _ => []

/-- The scopes whose gaps the operation deletes. -/
def Op.erases : Op → Text → Bool
  | .begin _ _ fresh _, scope => fresh && clearedScope scope
  | .record stream restarted .., scope => restarted && scope == stream
  | .replaceRunGaps _, scope => scope == runScope
  | .complete sourceRef _, scope => scope == itemScope sourceRef
  | .sealed targetRepo name _, scope => scope == sealScope targetRepo name
  | _, _ => false

/-- How often the operation inserts the gap into the scope. -/
def Op.inserted (j : Journal) (op : Op) (scope : Text) (g : Gap) : Nat :=
  if op.scope = some scope then (op.gaps j).count g else 0

namespace Journal

variable {j j' : Journal} {scope into : Text} {g : Gap} {gaps : List Gap}

theorem recorded_congr (same : j'.gaps = j.gaps) : j'.recorded scope g = j.recorded scope g := by
  rw [recorded, recorded, same]

theorem recorded_insert (rows : List GapRow) (first : Gap) :
    ((upsert GapRow.key (fun row => { row with count := row.count + 1 }) ⟨into, first, 1⟩ rows).find?
        fun row => row.key == (scope, g)).elim 0 GapRow.count =
      (rows.find? fun row => row.key == (scope, g)).elim 0 GapRow.count +
        if some into = some scope then [first].count g else 0 := by
  have keeps : ∀ row : GapRow, row.key = GapRow.key ⟨into, first, 1⟩ →
      GapRow.key { row with count := row.count + 1 } = row.key := fun _ _ => rfl
  by_cases same : (scope, g) = GapRow.key ⟨into, first, 1⟩
  · have own : scope = into ∧ g = first := by simpa [GapRow.key] using same
    rw [same, find?_upsert_self keeps, Option.elim_some, if_pos (congrArg some own.1.symm), own.2]
    cases rows.find? fun row => row.key == GapRow.key ⟨into, first, 1⟩ with
    | none => simp
    | some row => simp
  · rw [find?_upsert_of_ne keeps same]
    by_cases here : into = scope
    · have other : first ≠ g := fun eq => same (by simp [GapRow.key, here, eq])
      simp [here, other]
    · simp [here]

theorem recorded_insertGaps :
    (j.insertGaps into gaps).recorded scope g =
      j.recorded scope g + if some into = some scope then gaps.count g else 0 := by
  induction gaps generalizing j with
  | nil => simp [insertGaps, recorded]
  | cons first rest ih =>
      have split : j.insertGaps into (first :: rest) = (j.insertGaps into [first]).insertGaps into rest :=
        rfl
      have one : (j.insertGaps into [first]).recorded scope g =
          j.recorded scope g + if some into = some scope then [first].count g else 0 := recorded_insert _ _
      rw [split, ih, one]
      split_ifs
      · simp only [List.count_cons, List.count_nil]
        omega
      · rfl

theorem recorded_deleteGaps {gone : Text → Bool} :
    (j.deleteGaps gone).recorded scope g = if gone scope then 0 else j.recorded scope g := by
  split
  · rename_i erased
    have none : ∀ row ∈ j.gaps.filter fun row => !gone row.scope, ¬(row.key == (scope, g)) = true := by
      intro row mem same
      have kept : gone row.scope = false := by simpa using (List.mem_filter.mp mem).2
      have own : row.scope = scope := congrArg Prod.fst (eq_of_beq same)
      rw [own, erased] at kept
      cases kept
    rw [recorded, deleteGaps, List.find?_eq_none.mpr none]
    rfl
  · rename_i stays
    rw [recorded, recorded, deleteGaps, find?_filter_of_imp]
    intro row _ same
    have own : row.scope = scope := congrArg Prod.fst (eq_of_beq same)
    simp [own, stays]

theorem recorded_replace {gone : Text → Bool} :
    ((j.deleteGaps gone).insertGaps into gaps).recorded scope g =
      (if gone scope then 0 else j.recorded scope g) + if some into = some scope then gaps.count g else 0 := by
  rw [recorded_insertGaps, recorded_deleteGaps]

theorem gaps_foldl_plan {stream : Text} {planned : List Planned} :
    (planned.foldl (plan stream) j).gaps = j.gaps := by
  induction planned generalizing j with
  | nil => rfl
  | cons p rest ih => exact ih.trans rfl

theorem recorded_began {header : RunHeader} {owner : Text} {fresh : Bool} {now : Instant} :
    (j.began header owner fresh now).recorded scope g =
      if fresh && clearedScope scope then 0 else j.recorded scope g := by
  rw [began]
  cases fresh with
  | false => exact recorded_congr rfl
  | true =>
      rw [if_pos rfl, rewind, recorded_deleteGaps]
      rfl

theorem recorded_record {stream : Text} {restarted done : Bool} {planned : List Planned}
    {cursor : Cursor} :
    (j.record stream restarted planned gaps cursor done).recorded scope g =
      (if restarted && scope == stream then 0 else j.recorded scope g) +
        if some stream = some scope then gaps.count g else 0 := by
  have same : ∀ kept : Journal, (kept.insertGaps stream gaps).gaps =
      ((planned.foldl (plan stream) kept).insertGaps stream gaps).gaps := by
    intro kept
    rw [insertGaps, insertGaps, gaps_foldl_plan]
  cases restarted with
  | false => exact (recorded_congr (same j).symm).trans recorded_insertGaps
  | true => exact (recorded_congr (same (j.deleteGaps (· == stream))).symm).trans recorded_replace

theorem recorded_complete {sourceRef : Text} {outcome : Outcome} :
    (j.complete sourceRef outcome).recorded scope g =
      (if scope == itemScope sourceRef then 0 else j.recorded scope g) +
        if some (itemScope sourceRef) = some scope then outcome.gaps.count g else 0 := by
  rw [complete]
  split
  · exact recorded_replace
  · exact (recorded_congr rfl).trans recorded_replace

end Journal

/-- What an operation that succeeds does to the gaps of any scope: it deletes those of the scopes it
erases, then inserts its own. -/
theorem recorded_perform {j j' : Journal} {me : Option Text} {op : Op} {answer : Answer}
    (done : Performed j me op answer j') (scope : Text) (g : Gap) :
    j'.recorded scope g =
      (if op.erases scope then 0 else j.recorded scope g) + op.inserted j scope g := by
  cases done with
  | began free => exact Journal.recorded_began
  | beat own => exact Journal.recorded_congr rfl
  | closed left => exact Journal.recorded_congr rfl
  | released holds own => exact Journal.recorded_congr rfl
  | streams passed => exact Journal.recorded_congr rfl
  | recorded passed => exact Journal.recorded_record
  | replacedRunGaps passed => exact Journal.recorded_replace
  | tookCollisions passed =>
      rw [Journal.takeCollisions]
      exact Journal.recorded_insertGaps
  | @claimed lane now passed =>
      have same : (j.claim lane now).2.gaps = j.gaps := by
        rw [Journal.claim]
        split
        · rfl
        · rfl
      exact Journal.recorded_congr same
  | completed passed => exact Journal.recorded_complete
  | sealed passed => exact (Journal.recorded_congr rfl).trans Journal.recorded_replace

/-! ### Whose gaps are whose -/

/-- The scopes that are no stream's. -/
inductive Fixed where
  | run
  | collision
  | item (sourceRef : Text)
  /-- Of the package spelt `repository/name`. -/
  | seal_ (package : Text)
  | permissions
deriving Repr, DecidableEq, Inhabited

/-- The name the `permissions` command records its proposal under. -/
def permissionsStream : Text := "permissions".toList

def Fixed.text : Fixed → Text
  | .run => runScope
  | .collision => collisionScope
  | .item sourceRef => itemScope sourceRef
  | .seal_ package => "seal:".toList ++ package
  | .permissions => permissionsStream

/-- A call of the journal: an import's, or that of the `permissions` command, which records what no
grant maps to as one more stream. -/
inductive Call where
  | run (op : Op)
  | permissions (gaps : List Gap)
deriving Repr, DecidableEq, Inhabited

namespace Call

def op : Call → Op
  | .run op => op
  | .permissions gaps => .record permissionsStream true [] gaps none true

/-- The streams an import records are those its source lists. -/
def Listed (names : Set Text) : Call → Prop
  | .run (.record stream ..) => stream ∈ names
  | _ => True

/-- The call owns the scope. A fresh `begin` forgets the collisions, and the gaps of the items and the
packages it forgets. -/
def owns : Call → Fixed → Bool
  | .run (.replaceRunGaps _), .run => true
  | .run .takeCollisions, .collision => true
  | .run (.complete sourceRef _), .item other => sourceRef == other
  | .run (.sealed targetRepo name _), .seal_ package => targetRepo ++ "/".toList ++ name == package
  | .run (.begin _ _ fresh _), .collision => fresh
  | .run (.begin _ _ fresh _), .item _ => fresh
  | .run (.begin _ _ fresh _), .seal_ _ => fresh
  | .permissions _, .permissions => true
  | _, _ => false

/-- The call restarts the stream. -/
def restarts : Call → Text → Bool
  | .run (.record stream restarted ..), other => restarted && other == stream
  | _, _ => false

end Call

/-- The gaps of each stream stay until it restarts, and those of every other scope until its owner
changes them. -/
structure Framed (names : Set Text) (c : Call) (j j' : Journal) : Prop where
  streams : ∀ stream ∈ names, c.restarts stream = false → ∀ g, j.recorded stream g ≤ j'.recorded stream g
  fixed : ∀ scope, c.owns scope = false → ∀ g, j'.recorded scope.text g = j.recorded scope.text g

/-! ### The names that keep apart -/

/-- A name that is none of the importer's own words, and that a fresh `begin` does not take for a scope
of items, packages or collisions. -/
def Plain (name : Text) : Prop :=
  name ≠ runScope ∧ name ≠ permissionsStream ∧ clearedScope name = false

theorem likeStart_append (word rest : Text) : likeStart word (word ++ rest) = true := by
  induction word with
  | nil => simp [likeStart]
  | cons c word ih =>
      have tail : (List.zipWith likeChar word (word ++ rest)).all id = true := by
        rw [likeStart, Bool.and_eq_true] at ih
        exact ih.2
      simpa [likeStart, likeChar] using tail

namespace Plain

variable {name : Text}

theorem ne_of_cleared {scope : Text} (plain : Plain name) (cleared : clearedScope scope = true) :
    scope ≠ name := by
  rintro rfl
  rw [plain.2.2] at cleared
  cases cleared

theorem ne_item (plain : Plain name) (sourceRef : Text) : itemScope sourceRef ≠ name := by
  have like : likeStart "item:".toList (itemScope sourceRef) = true := likeStart_append _ _
  refine plain.ne_of_cleared ?_
  rw [clearedScope, like, Bool.true_or, Bool.true_or]

theorem ne_seal_ (plain : Plain name) (package : Text) : "seal:".toList ++ package ≠ name := by
  have like : likeStart "seal:".toList ("seal:".toList ++ package) = true := likeStart_append _ _
  refine plain.ne_of_cleared ?_
  rw [clearedScope, like, Bool.or_true, Bool.true_or]

theorem ne_text (plain : Plain name) (scope : Fixed) : scope.text ≠ name := by
  cases scope with
  | run => exact plain.1.symm
  | collision => exact plain.ne_of_cleared (by decide)
  | item sourceRef => exact plain.ne_item sourceRef
  | seal_ package => exact plain.ne_seal_ package
  | permissions => exact plain.2.1.symm

end Plain

/-- A fixed scope read back: their first letters tell them apart. -/
def Fixed.read : Text → Fixed
  | 'r' :: _ => .run
  | 'c' :: _ => .collision
  | 'i' :: rest => .item (rest.drop 4)
  | 's' :: rest => .seal_ (rest.drop 4)
  | _ => .permissions

theorem Fixed.read_text (scope : Fixed) : Fixed.read scope.text = scope := by
  cases scope <;> rfl

theorem Fixed.text_injective {scope other : Fixed} (same : scope.text = other.text) : scope = other := by
  rw [← read_text scope, same, read_text]

theorem clearedScope_fixed {scope : Fixed} (cleared : clearedScope scope.text = true) :
    scope ≠ .run ∧ scope ≠ .permissions := by
  constructor
  · rintro rfl
    revert cleared
    decide
  · rintro rfl
    revert cleared
    decide

/-! ### What a call leaves alone -/

section Calls

variable {names : Set Text} {c : Call} {scope : Fixed}

/-- A call that writes into a fixed scope owns it, as long as the streams it records are plain. -/
theorem Call.owns_of_scope (plain : ∀ name ∈ names, Plain name) (listed : c.Listed names)
    (writes : c.op.scope = some scope.text) : c.owns scope = true := by
  have only : ∀ {other : Fixed}, some other.text = some scope.text → other = scope :=
    fun same => Fixed.text_injective (Option.some.inj same)
  cases c with
  | permissions gaps =>
      have same : .permissions = scope := only writes
      rw [← same]
      rfl
  | run op =>
      cases op with
      | record stream restarted planned gaps cursor done =>
          exact absurd (Option.some.inj writes).symm ((plain stream listed).ne_text scope)
      | replaceRunGaps gaps =>
          have same : .run = scope := only writes
          rw [← same]
          rfl
      | takeCollisions =>
          have same : .collision = scope := only writes
          rw [← same]
          rfl
      | complete sourceRef outcome =>
          have same : .item sourceRef = scope := only writes
          rw [← same, owns, beq_self_eq_true]
      | sealed targetRepo name gaps =>
          have same : .seal_ (targetRepo ++ "/".toList ++ name) = scope := only writes
          rw [← same, owns, beq_self_eq_true]
      | begin header owner fresh now => cases writes
      | heartbeat owner now => cases writes
      | finish phase now => cases writes
      | streams names => cases writes
      | claim lane now => cases writes

theorem Op.erases_cases {op : Op} {scope : Text} (erased : op.erases scope = true) :
    op.scope = some scope ∨
      ∃ header owner now, op = .begin header owner true now ∧ clearedScope scope = true := by
  cases op with
  | begin header owner fresh now =>
      obtain ⟨rfl, cleared⟩ := Bool.and_eq_true_iff.mp erased
      exact .inr ⟨header, owner, now, rfl, cleared⟩
  | record stream restarted planned gaps cursor done =>
      have same : scope = stream := eq_of_beq (Bool.and_eq_true_iff.mp erased).2
      exact .inl (congrArg some same.symm)
  | replaceRunGaps gaps => exact .inl (congrArg some (eq_of_beq erased).symm)
  | complete sourceRef outcome => exact .inl (congrArg some (eq_of_beq erased).symm)
  | sealed targetRepo name gaps => exact .inl (congrArg some (eq_of_beq erased).symm)
  | heartbeat owner now => cases erased
  | finish phase now => cases erased
  | streams names => cases erased
  | takeCollisions => cases erased
  | claim lane now => cases erased

theorem Call.erases_fixed (plain : ∀ name ∈ names, Plain name) (listed : c.Listed names)
    (apart : c.owns scope = false) : c.op.erases scope.text = false := by
  refine Bool.eq_false_iff.mpr fun erased => ?_
  rcases Op.erases_cases erased with writes | ⟨header, owner, now, is, cleared⟩
  · rw [owns_of_scope plain listed writes] at apart
    cases apart
  · have others := clearedScope_fixed cleared
    cases c with
    | permissions gaps => cases is
    | run op =>
        cases is
        cases scope with
        | run => exact others.1 rfl
        | permissions => exact others.2 rfl
        | collision => cases apart
        | item sourceRef => cases apart
        | seal_ package => cases apart

theorem Call.erases_stream {stream : Text} (plain : Plain stream) (goes : c.restarts stream = false) :
    c.op.erases stream = false := by
  have ne : ∀ scope : Fixed, (stream == scope.text) = false :=
    fun scope => beq_eq_false_iff_ne.mpr (plain.ne_text scope).symm
  cases c with
  | permissions gaps => exact ne .permissions
  | run op =>
      cases op with
      | begin header owner fresh now => rw [op, Op.erases, plain.2.2, Bool.and_false]
      | record other restarted planned gaps cursor done => exact goes
      | replaceRunGaps gaps => exact ne .run
      | complete sourceRef outcome => exact ne (.item sourceRef)
      | sealed targetRepo name gaps => exact ne (.seal_ (targetRepo ++ "/".toList ++ name))
      | heartbeat owner now => rfl
      | finish phase now => rfl
      | streams names => rfl
      | takeCollisions => rfl
      | claim lane now => rfl

theorem framed_of_plain {j j' : Journal} {me : Option Text} {answer : Answer}
    (plain : ∀ name ∈ names, Plain name) (listed : c.Listed names)
    (done : Performed j me c.op answer j') : Framed names c j j' where
  streams := by
    intro stream mem goes g
    rw [recorded_perform done, Call.erases_stream (plain stream mem) goes]
    exact Nat.le_add_right _ _
  fixed := by
    intro scope apart g
    have writes : c.op.scope ≠ some scope.text := by
      intro writes
      rw [Call.owns_of_scope plain listed writes] at apart
      cases apart
    rw [recorded_perform done, Call.erases_fixed plain listed apart, Op.inserted, if_neg writes]
    rfl

end Calls

/-! ### Runs -/

/-- A call through one of the handles open on the journal. -/
structure CallAct where
  handle : Nat
  call : Call
  fails : Bool
deriving Repr, DecidableEq, Inhabited

section Runs

variable (needsRedaction : Text → Bool) {names : Set Text} {f f' : Files} {as : List CallAct}

def callStep (f : Files) (a : CallAct) : Option Files :=
  f.step needsRedaction ⟨a.handle, a.call.op, a.fails⟩

/-- The streams every call records are among these names. -/
def ListedRun (names : Set Text) : List CallAct → Files → Prop :=
  Run (callStep needsRedaction) (fun _ a _ => a.call.Listed names) .opened

/-- Every call leaves the gaps of the other scopes alone. -/
def FramedRun (names : Set Text) : List CallAct → Files → Prop :=
  Run (callStep needsRedaction) (fun f a f' => Framed names a.call f.journal f'.journal) .opened

variable {needsRedaction}

theorem framed_of_step {a : CallAct} (plain : ∀ name ∈ names, Plain name) (listed : a.call.Listed names)
    (taken : callStep needsRedaction f a = some f') : Framed names a.call f.journal f'.journal := by
  rcases Files.step_cases taken with ⟨answer, after, rfl, done⟩ | rfl
  · exact framed_of_plain plain listed done
  · exact ⟨fun _ _ _ _ => Nat.le_refl _, fun _ _ _ => rfl⟩

/-- A gap of a stream that is not plain, recorded once. -/
def gapOf (stream : Text) : Gap := ⟨.noTarget, stream, "no target repository".toList⟩

def recordGap (stream : Text) : CallAct where
  handle := 0
  call := .run (.record stream false [] [gapOf stream] none false)
  fails := false

/-- The file after it. -/
def withGap (stream : Text) : Files where
  journal := Journal.empty.record stream false [] [gapOf stream] none false
  handles := (Files.opened).heard ⟨0, (recordGap stream).call.op, false⟩ true

theorem recordGap_taken (stream : Text) :
    callStep needsRedaction .opened (recordGap stream) = some (withGap stream) := rfl

theorem recorded_withGap (stream : Text) :
    (withGap stream).journal.recorded stream (gapOf stream) = 1 := by
  rw [withGap, Journal.recorded_record]
  simp [Journal.recorded, Journal.empty]

theorem recordGap_run {stream : Text} (mem : stream ∈ names) :
    ListedRun needsRedaction names [recordGap stream] (withGap stream) :=
  .snoc .nil (recordGap_taken stream) mem

theorem not_framed_of_fixed {stream : Text} (scope : Fixed) (same : scope.text = stream) :
    ¬FramedRun needsRedaction names ([] ++ [recordGap stream]) (withGap stream) := by
  intro framed
  have first : Run (callStep needsRedaction) Any .opened [] .opened := .nil
  have met := Run.last framed first (recordGap_taken stream)
  have kept := met.fixed scope rfl (gapOf stream)
  rw [same, recorded_withGap] at kept
  cases kept

def plainHeader : RunHeader := ⟨[], [], [], [], 0, none, [], none⟩

def beginFresh : CallAct where
  handle := 0
  call := .run (.begin plainHeader "me".toList true 0)
  fails := false

/-- The file of `withGap` after a fresh `begin`. -/
def refreshed (stream : Text) : Files where
  journal := (withGap stream).journal.began plainHeader "me".toList true 0
  handles := (withGap stream).heard ⟨0, beginFresh.call.op, false⟩ true

theorem beginFresh_taken (coordinates : needsRedaction [] = false) (stream : Text) :
    callStep needsRedaction (withGap stream) beginFresh = some (refreshed stream) := by
  have began : (withGap stream).journal.begin needsRedaction plainHeader "me".toList true 0 =
      .ok (refreshed stream).journal := Journal.begin_eq_ok coordinates coordinates rfl
  have done : (withGap stream).answer needsRedaction ⟨0, beginFresh.call.op, false⟩ =
      .ok (.done, (refreshed stream).journal) :=
    bind_eq_ok.mpr ⟨_, began, rfl⟩
  change Files.step needsRedaction (withGap stream) ⟨0, beginFresh.call.op, false⟩ = _
  rw [Files.step, done]
  rfl

theorem not_framed_of_cleared (coordinates : needsRedaction [] = false) {stream : Text}
    (mem : stream ∈ names) (cleared : clearedScope stream = true) :
    ¬FramedRun needsRedaction names ([recordGap stream] ++ [beginFresh]) (refreshed stream) := by
  intro framed
  have met := Run.last framed (recordGap_run mem) (beginFresh_taken coordinates stream)
  have kept := met.streams stream mem rfl (gapOf stream)
  rw [recorded_withGap, refreshed, Journal.recorded_began, cleared] at kept
  cases kept

variable (needsRedaction)

/-- Whatever streams a source lists, the gaps of each stream stay until it restarts, and all others until
the operation that owns them, exactly when the streams have plain names. -/
theorem gaps_keep_apart_iff (coordinates : needsRedaction [] = false) (names : Set Text) :
    (∀ as f, ListedRun needsRedaction names as f → FramedRun needsRedaction names as f) ↔
      ∀ name ∈ names, Plain name := by
  constructor
  · intro framed name mem
    refine ⟨?_, ?_, Bool.eq_false_iff.mpr fun cleared => ?_⟩
    · exact fun same => not_framed_of_fixed .run same.symm (framed _ _ (recordGap_run mem))
    · exact fun same => not_framed_of_fixed .permissions same.symm (framed _ _ (recordGap_run mem))
    · refine not_framed_of_cleared coordinates mem cleared (framed _ _ ?_)
      exact (recordGap_run mem).snoc (beginFresh_taken coordinates name) trivial
  · intro plain as f run
    refine run.strengthen (fun _ => True) trivial ?_
    exact fun before a after _ taken listed => ⟨trivial, framed_of_step plain listed taken⟩

/-- What is a URL with a query needs redaction; the empty text is none. -/
def withQuery (s : Text) : Bool := "https://".toList.isPrefixOf s && s.contains '?'

theorem gaps_keep_apart_npm :
    (∀ as f, ListedRun withQuery {"npm-hosted".toList} as f →
        FramedRun withQuery {"npm-hosted".toList} as f) ↔
      ∀ name ∈ ({"npm-hosted".toList} : Set Text), Plain name :=
  gaps_keep_apart_iff withQuery (by decide) {"npm-hosted".toList}

/-- A repository of the source is called `run`: its gap is in the scope of the run, and what replaces the
run's gaps takes it. -/
theorem a_stream_called_run_loses_its_gap :
    ¬∀ (names : Set Text) (as : List CallAct) (f : Files),
      ListedRun withQuery names as f → FramedRun withQuery names as f := by
  intro framed
  let replacing : CallAct := ⟨0, .run (.replaceRunGaps []), false⟩
  let replaced : Files :=
    ⟨(withGap "run".toList).journal.replaceRunGaps [],
      (withGap "run".toList).heard ⟨0, .replaceRunGaps [], false⟩ true⟩
  have mem : "run".toList ∈ ({"run".toList} : Set Text) := rfl
  have taken : callStep withQuery (withGap "run".toList) replacing = some replaced := rfl
  have before : ListedRun withQuery {"run".toList} [recordGap "run".toList] (withGap "run".toList) :=
    recordGap_run mem
  have framed := framed _ _ _ (before.snoc taken trivial)
  have met := Run.last framed before taken
  have kept := met.streams _ mem rfl (gapOf "run".toList)
  revert kept
  decide

end Runs

end OpenCargo.Import
