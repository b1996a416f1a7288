/-
Module: OpenCargo.Policy.Writer
Purpose: The policy writer's loop (`policy/writer.rs`): a channel, the classification, gather tasks under a semaphore,
  batches that are inserted apart; and where each event given to `record` ends.
Trusted boundary: a gather answers one resolution for its event; a batch's insert is one transaction
Main exports: Act, step, Inv, writer_accounts_for_every_event
-/
import OpenCargo.Policy.Children
import OpenCargo.Lib.Run

namespace OpenCargo.Policy.Oci

open OpenCargo.Lib

def QUEUE : Nat := 4096
def INFLIGHT : Nat := 64
def BATCH : Nat := 64

/-- A task of the set: its permit goes with its end, which `join_next` sees later. -/
inductive Task where
  | running
  | done
  | panicked
deriving Repr, DecidableEq, Inhabited

/-- The events that wait for a permit, and the gather tasks. -/
structure Slots where
  waiting : List Pending
  tasks : List (Pending × Task)
deriving Repr, DecidableEq, Inhabited

/-- The channel, the loop's own state, and the counter. A resolution that a gather answered stands for its event.
From `recorded` on it is history: each event, and where it ended. -/
structure Writer where
  queue : List Pending
  closed : Bool
  shared : Shared
  now : Nat
  slots : Slots
  ready : List Pending
  flushes : List (List Pending)
  breaking : Bool
  ended : Bool
  dropped : Nat
  recorded : List Pending
  refused : List Pending
  suppressed : List Pending
  letOut : List (Nat × Pending × Nat)
  inserted : List (List Pending)
  failed : List (List Pending)
  panicked : List Pending
  abandoned : List Pending

namespace Writer

def start : Writer where
  queue := []
  closed := false
  shared := .new
  now := 0
  slots := ⟨[], []⟩
  ready := []
  flushes := []
  breaking := false
  ended := false
  dropped := 0
  recorded := []
  refused := []
  suppressed := []
  letOut := []
  inserted := []
  failed := []
  panicked := []
  abandoned := []

/-! ### The loop's functions -/

/-- `Shared::dropped`. -/
def drop (w : Writer) (p : Pending) : Writer := { w with dropped := w.dropped + 1, refused := w.refused ++ [p] }

/-- Never awaits: a full queue drops and counts the event, and so does a writer that is gone. -/
def record (w : Writer) (p : Pending) : Writer :=
  let w := { w with recorded := w.recorded ++ [p] }
  if w.ended then w.drop p
  else if QUEUE ≤ w.queue.length then w.drop p
  else { w with queue := w.queue ++ [p] }

def spawnWork (slots : Slots) (p : Pending) : Slots := { slots with tasks := slots.tasks ++ [(p, .running)] }

/-- Whether a permit is free. -/
def free (slots : Slots) : Bool := slots.tasks.countP (fun task => task.2 = .running) < INFLIGHT

/-- Spawns at once when a slot is free, else queues for the next permit. -/
def admitOne (slots : Slots) (p : Pending) : Slots :=
  if free slots then spawnWork slots p else { slots with waiting := slots.waiting ++ [p] }

def flush (w : Writer) : Writer :=
  if w.ready = [] then w else { w with ready := [], flushes := w.flushes ++ [w.ready] }

/-- What was parked before and no longer is. -/
def gone (before after : Shared) : List (Nat × Pending × Nat) := before.parked.filter fun e => !after.isParked e.1

/-- Whether the event is answered or parked. -/
def kept (answer : Option Pending) (shared : Shared) (p : Pending) : Bool :=
  (answer.toList ++ shared.parked.map fun e => e.2.1).any fun o => o.request == p.request

section Clock

variable (ttl : Nat)

/-- What the channel gives is classified, and what that answers is admitted. -/
def receive (w : Writer) (p : Pending) (rest : List Pending) : Writer :=
  let (answer, shared) := classify ttl w.shared p w.now
  { w with
    queue := rest
    shared := shared
    slots := answer.toList.foldl admitOne w.slots
    letOut := w.letOut ++ gone w.shared shared
    suppressed := if kept answer shared p then w.suppressed else w.suppressed ++ [p] }

/-- A tick of a writer with nothing to do changes nothing. -/
def tick (w : Writer) : Writer :=
  let w := w.flush
  let (due, shared) := releaseParked ttl w.shared w.now
  { w with
    shared := sweepChildren ttl shared w.now
    slots := due.foldl admitOne w.slots
    letOut := w.letOut ++ gone w.shared shared }

/-- A task that ended is joined: a resolution is ready, and sixty-four of them are flushed. -/
def join (w : Writer) (i : Nat) : Pending × Task → Option Writer
  | (_, .running) => none
  | (p, .done) =>
      let w := { w with slots := { w.slots with tasks := w.slots.tasks.eraseIdx i }, ready := w.ready ++ [p] }
      some (if BATCH ≤ w.ready.length then w.flush else w)
  | (p, .panicked) =>
      some { w with slots := { w.slots with tasks := w.slots.tasks.eraseIdx i }, panicked := w.panicked ++ [p] }

inductive Act where
  | record (p : Pending)
  /-- The last sender is dropped. -/
  | close
  | receive
  | permit
  /-- The gather of this task ends, or panics. -/
  | gathered (i : Nat)
  | panics (i : Nat)
  | join (i : Nat)
  | tick
  /-- The insert of this batch succeeds, or fails. -/
  | inserted (i : Nat)
  | fails (i : Nat)
  | wait (d : Nat)
  /-- The channel is closed and empty: the loop breaks and flushes. -/
  | break_
  /-- The flushes have ended; the tasks are aborted. -/
  | end_
deriving Repr, DecidableEq, Inhabited

/-- Whether the loop selects. -/
def looping (w : Writer) : Bool := !w.breaking

def gatherEnds (w : Writer) (i : Nat) (task : Task) : Option Writer :=
  match w.slots.tasks[i]? with
  | some (p, .running) =>
      if w.ended then none else some { w with slots := { w.slots with tasks := w.slots.tasks.set i (p, task) } }
  | _ => none

def step (w : Writer) : Act → Option Writer
  | .record p =>
      if p.request ∉ w.recorded.map Pending.request ∧ (w.closed = true → w.ended = true) then some (w.record p) else none
  | .close => some { w with closed := true }
  | .receive =>
      match w.queue with
      | [] => none
      | p :: rest => if w.looping ∧ w.slots.waiting = [] then some (w.receive ttl p rest) else none
  | .permit =>
      match w.slots.waiting with
      | [] => none
      | p :: rest =>
          if w.looping ∧ free w.slots then
            some { w with slots := spawnWork { w.slots with waiting := rest } p }
          else none
  | .gathered i => w.gatherEnds i .done
  | .panics i => w.gatherEnds i .panicked
  | .join i => if w.looping then w.slots.tasks[i]?.bind (w.join i) else none
  | .tick => if w.looping then some (w.tick ttl) else none
  | .inserted i => w.flushes[i]?.map fun batch =>
      { w with flushes := w.flushes.eraseIdx i, inserted := w.inserted ++ [batch] }
  | .fails i => w.flushes[i]?.map fun batch =>
      { w with flushes := w.flushes.eraseIdx i, failed := w.failed ++ [batch] }
  | .wait d => some { w with now := w.now + d }
  | .break_ =>
      if w.looping ∧ w.closed ∧ w.queue = [] ∧ w.slots.waiting = [] then some { w.flush with breaking := true } else none
  | .end_ =>
      if w.breaking ∧ w.ended = false ∧ w.flushes = [] then
        some { w with
          ended := true
          slots := ⟨[], []⟩
          shared := { w.shared with recent := fun _ => [], parked := [] }
          abandoned := w.abandoned ++ (w.slots.tasks.map Prod.fst ++ w.shared.parked.map fun e => e.2.1) }
      else none

end Clock

/-! ### Whose children are expected -/

/-- What is expected was listed by an index of that image that waits, or was let out. -/
structure Owned (shared : Shared) (letOut : List (Nat × Pending × Nat)) : Prop where
  sorted : shared.parked.Pairwise fun e f => e.1 < f.1
  numbered : ∀ f ∈ shared.parked ++ letOut, f.1 < shared.seq
  bounded : ∀ key, ∀ e ∈ shared.recent key, e.1 < shared.seq
  known : ∀ key, ∀ e ∈ shared.recent key, ∃ f ∈ shared.parked ++ letOut, f.1 = e.1
  listed : ∀ key, ∀ e ∈ shared.recent key, ∀ f ∈ shared.parked ++ letOut, f.1 = e.1 →
    f.2.1.image = (key.1, key.2.1) ∧ key.2.2 ∈ f.2.1.kids

section Kept

variable {shared shared' : Shared} {letOut : List (Nat × Pending × Nat)} {ttl now : Nat} {p : Pending}

theorem Owned.shrink (owned : Owned shared letOut) (same : shared'.seq = shared.seq)
    (fewer : shared'.parked.Sublist shared.parked) (less : ∀ key, shared'.recent key ⊆ shared.recent key) :
    Owned shared' (letOut ++ gone shared shared') := by
  have back : ∀ f ∈ shared'.parked ++ (letOut ++ gone shared shared'), f ∈ shared.parked ++ letOut := by
    intro f mem
    simp only [gone, List.mem_append, List.mem_filter] at mem ⊢
    rcases mem with inside | earlier | ⟨inside, -⟩
    · exact .inl (fewer.subset inside)
    · exact .inr earlier
    · exact .inl inside
  refine ⟨owned.sorted.sublist fewer, ?_, ?_, ?_, ?_⟩
  · intro f mem
    rw [same]
    exact owned.numbered f (back f mem)
  · intro key e mem
    rw [same]
    exact owned.bounded key e (less key mem)
  · intro key e mem
    obtain ⟨f, inside, number⟩ := owned.known key e (less key mem)
    by_cases still : shared'.isParked f.1 = true
    · obtain ⟨g, parked, alike⟩ := isParked_iff.mp still
      exact ⟨g, List.mem_append_left _ parked, alike.trans number⟩
    · refine ⟨f, List.mem_append_right _ ?_, number⟩
      rcases List.mem_append.mp inside with parked | earlier
      · exact List.mem_append_right _ (List.mem_filter.mpr ⟨parked, by simpa using still⟩)
      · exact List.mem_append_left _ earlier
  · intro key e mem f inside
    exact owned.listed key e (less key mem) f (back f inside)

theorem Owned.park (owned : Owned shared letOut) : Owned (park shared p p.kids now) letOut where
  sorted := by
    refine List.pairwise_append.mpr ⟨owned.sorted, List.pairwise_singleton _ _, fun e mem f last => ?_⟩
    rw [List.mem_singleton.mp last]
    exact owned.numbered e (List.mem_append_left _ mem)
  numbered f mem := by
    rcases List.mem_append.mp mem with parked | earlier
    · rcases List.mem_append.mp parked with before | last
      · exact Nat.lt_succ_of_lt (owned.numbered f (List.mem_append_left _ before))
      · rw [List.mem_singleton.mp last]
        exact Nat.lt_succ_self _
    · exact Nat.lt_succ_of_lt (owned.numbered f (List.mem_append_right _ earlier))
  bounded key e mem := by
    rcases mem_park_recent.mp mem with earlier | ⟨rfl, -⟩
    · exact Nat.lt_succ_of_lt (owned.bounded key e earlier)
    · exact Nat.lt_succ_self _
  known key e mem := by
    rcases mem_park_recent.mp mem with earlier | ⟨rfl, -⟩
    · obtain ⟨f, inside, number⟩ := owned.known key e earlier
      refine ⟨f, ?_, number⟩
      rcases List.mem_append.mp inside with parked | out
      · exact List.mem_append_left _ (List.mem_append_left _ parked)
      · exact List.mem_append_right _ out
    · exact ⟨(shared.seq, p, now), List.mem_append_left _ (List.mem_append_right _ List.mem_cons_self), rfl⟩
  listed key e mem f inside same := by
    have cases_ : f ∈ shared.parked ++ letOut ∨ f = (shared.seq, p, now) := by
      rcases List.mem_append.mp inside with parked | out
      · rcases List.mem_append.mp parked with before | last
        · exact .inl (List.mem_append_left _ before)
        · exact .inr (List.mem_singleton.mp last)
      · exact .inl (List.mem_append_right _ out)
    rcases mem_park_recent.mp mem with earlier | ⟨rfl, c, listed, rfl⟩ <;> rcases cases_ with before | rfl
    · exact owned.listed key e earlier f before same
    · exact absurd same (Nat.ne_of_gt (owned.bounded key e earlier))
    · exact absurd same (Nat.ne_of_lt (owned.numbered f before))
    · exact ⟨rfl, listed⟩

theorem gone_of_subset (every : ∀ e ∈ shared.parked, e ∈ shared'.parked) : gone shared shared' = [] := by
  refine List.filter_eq_nil_iff.mpr fun e mem => ?_
  rw [isParked_iff.mpr ⟨e, every e mem, rfl⟩]
  exact Bool.false_ne_true

theorem setQueue_subset {key : ChildKey} {queue : List (Nat × Nat)} (part : queue ⊆ shared.recent key) (k : ChildKey) :
    (shared.setQueue key queue).recent k ⊆ shared.recent k := by
  rw [setQueue_recent]
  by_cases same : k = key
  · subst same
    rw [Function.update_self]
    exact part
  · rw [Function.update_of_ne same]
    exact List.Subset.refl _

theorem left_subset {key : ChildKey} {front back : List (Nat × Nat)} {entry : Nat × Nat}
    (expected : shared.waiting ttl key now = front ++ entry :: back) : front ++ back ⊆ shared.recent key := by
  intro e mem
  have inside : e ∈ shared.waiting ttl key now := by
    rw [expected]
    rcases List.mem_append.mp mem with early | late
    · exact List.mem_append_left _ early
    · exact List.mem_append_right _ (List.mem_cons_of_mem _ late)
  exact List.mem_of_mem_filter inside

theorem kids_eq {body : Body} {served : Option Body} {parsed : Option Document} {json : Document}
    (source : p.source = .oci body served parsed) (reads : body.document = some json) : p.kids = childrenOf json := by
  simp [Pending.kids, Pending.document, source, reads]

theorem Owned.classify (owned : Owned shared letOut) (ttl now : Nat) (p : Pending) :
    Owned (classify ttl shared p now).2 (letOut ++ gone shared (classify ttl shared p now).2) := by
  have cases_ := classify_cases ttl shared p now
  generalize (Oci.classify ttl shared p now).1 = answer, (Oci.classify ttl shared p now).2 = after at cases_ ⊢
  cases cases_ with
  | through => exact owned.shrink rfl (List.Sublist.refl _) fun _ => List.Subset.refl _
  | parked source reads _ =>
      rw [← kids_eq source reads, gone_of_subset fun e mem => List.mem_append_left _ mem, List.append_nil]
      exact owned.park
  | alone => exact owned.shrink rfl (List.Sublist.refl _) (setQueue_subset (List.nil_subset _))
  | released _ _ _ _ expected _ _ =>
      refine owned.shrink rfl List.filter_sublist fun key => ?_
      have less := setQueue_subset (left_subset expected) key
      rw [supersede_recent]
      split
      · exact fun e mem => less (List.mem_of_mem_filter mem)
      · exact less
  | suppressed _ _ _ _ expected _ =>
      exact owned.shrink rfl (List.Sublist.refl _) (setQueue_subset (left_subset expected))

/-- An event that is neither answered nor parked is a listed child of an index that was let out. -/
theorem Owned.sibling (owned : Owned shared letOut)
    (lost : kept (Oci.classify ttl shared p now).1 (Oci.classify ttl shared p now).2 p = false) :
    ∃ f ∈ letOut ++ gone shared (Oci.classify ttl shared p now).2, p.image = f.2.1.image ∧
      ∃ hex, p.digest = some hex ∧ hex ∈ f.2.1.kids := by
  have cases_ := classify_cases ttl shared p now
  generalize (Oci.classify ttl shared p now).1 = answer, (Oci.classify ttl shared p now).2 = after at cases_ lost ⊢
  cases cases_ with
  | through => simp [kept] at lost
  | parked source reads _ => simp [kept, Oci.park] at lost
  | alone => simp [kept] at lost
  | @released body _ _ json hex front back entry index source _ _ digest expected _ found =>
      have inside : entry ∈ shared.recent (p.member, p.name, hex) := by
        have mem : entry ∈ shared.waiting ttl (p.member, p.name, hex) now := by simp [expected]
        exact List.mem_of_mem_filter mem
      have indexIn := List.mem_of_find?_eq_some found
      have number : index.1 = entry.1 := by simpa using List.find?_some found
      obtain ⟨image, lists⟩ := owned.listed _ entry inside index (List.mem_append_left _ indexIn) number
      refine ⟨index, List.mem_append_right _ (List.mem_filter.mpr ⟨indexIn, ?_⟩), image.symm, hex,
        by rw [Pending.digest, source]; exact digest, lists⟩
      simp [Shared.isParked, supersede, number]
  | @suppressed body _ _ json hex entry front back source _ _ digest expected unparked =>
      have waits : entry ∈ shared.waiting ttl (p.member, p.name, hex) now := by simp [expected]
      have inside := List.mem_of_mem_filter waits
      obtain ⟨f, known, number⟩ := owned.known _ entry inside
      obtain ⟨image, lists⟩ := owned.listed _ entry inside f known number
      rcases List.mem_append.mp known with parked | out
      · have absent := unparked entry waits
        rw [isParked_iff.mpr ⟨f, parked, number⟩] at absent
        cases absent
      · exact ⟨f, List.mem_append_left _ out, image.symm, hex, by rw [Pending.digest, source]; exact digest, lists⟩

end Kept

/-! ### Each event is in one place -/

section Places

def count (request : Nat) (events : List Pending) : Nat := events.countP fun p => p.request == request

variable {request : Nat} {shared : Shared} {slots : Slots} {ttl now : Nat} {p : Pending}

@[simp] theorem count_nil : count request [] = 0 := rfl

@[simp] theorem count_append (events more : List Pending) :
    count request (events ++ more) = count request events + count request more := List.countP_append

@[simp] theorem count_cons (event : Pending) (events : List Pending) :
    count request (event :: events) = count request events + if event.request == request then 1 else 0 :=
  List.countP_cons

variable (request)

theorem count_perm {events more : List Pending} (perm : events.Perm more) :
    count request events = count request more := perm.countP_eq _

theorem count_singleton_of_eq {event other : Pending} (same : event.request = other.request) :
    count request [event] = count request [other] := by
  rw [count_cons, count_cons, same]

def parkedEvents (shared : Shared) : List Pending := shared.parked.map fun e => e.2.1

/-- What waits for a permit, or has one. -/
def held (slots : Slots) : List Pending := slots.waiting ++ slots.tasks.map Prod.fst

theorem count_admitOne (slots : Slots) (p : Pending) : count request (held (admitOne slots p)) = count request (held slots) + count request [p] := by
  rw [admitOne]
  split
  · simp [held, spawnWork, Nat.add_assoc]
  · simp only [held, count_append]
    omega

theorem count_foldl_admitOne (events : List Pending) (slots : Slots) :
    count request (held (events.foldl admitOne slots)) = count request (held slots) + count request events := by
  induction events generalizing slots with
  | nil => rfl
  | cons p events ih =>
      have one := count_admitOne request slots p
      rw [List.foldl_cons, ih, one, count_cons, count_cons, count_nil]
      omega

/-- A classification answers or parks its event, or lets the index out in its place. -/
theorem count_classify (ttl now : Nat) (sorted : shared.parked.Pairwise fun e f => e.1 < f.1)
    (apart : ∀ e ∈ shared.parked, e.2.1.request ≠ p.request) :
    count request (Oci.classify ttl shared p now).1.toList + count request (parkedEvents (Oci.classify ttl shared p now).2) +
        (if kept (Oci.classify ttl shared p now).1 (Oci.classify ttl shared p now).2 p then 0 else count request [p]) =
      count request [p] + count request (parkedEvents shared) := by
  have cases_ := classify_cases ttl shared p now
  generalize (Oci.classify ttl shared p now).1 = answer, (Oci.classify ttl shared p now).2 = after at cases_ ⊢
  cases cases_ with
  | through => simp [kept]
  | @parked _ _ _ json =>
      have here : kept none (Oci.park shared p (childrenOf json) now) p = true := by simp [kept, Oci.park]
      rw [here, if_pos rfl, parkedEvents, Oci.park, List.map_append, count_append, Option.toList_none, count_nil,
        Nat.zero_add, Nat.add_zero, Nat.add_comm]
      rfl
  | @alone _ _ _ json =>
      have here : ∀ after, kept (some (attach p none json)) after p = true := fun after => by simp [kept]
      have same := count_singleton_of_eq request (attach_request p none json)
      rw [here, if_pos rfl, Option.toList_some, same]
      rfl
  | @released body _ _ json _ front back entry index _ _ _ _ _ _ found =>
      have indexIn := List.mem_of_find?_eq_some found
      have number : index.1 = entry.1 := by simpa using List.find?_some found
      have left := count_perm request ((parked_perm sorted indexIn).map fun e => e.2.1)
      have same := count_singleton_of_eq request (attach_request index.2.1 (some body) json)
      generalize parked : (supersede _ _ _ _ : Shared) = after
      have rest : after.parked = shared.parked.filter fun f => f.1 != index.1 := by
        rw [← parked, number]
        rfl
      have lost : kept (some (attach index.2.1 (some body) json)) after p = false := by
        rw [kept, rest, Option.toList_some, List.singleton_append, List.any_cons, attach_request, List.any_map]
        simp only [Bool.or_eq_false_iff, beq_eq_false_iff_ne, List.any_eq_false]
        refine ⟨apart index indexIn, fun e mem => ?_⟩
        simpa using apart e (List.mem_of_mem_filter mem)
      rw [lost, if_neg Bool.false_ne_true, Option.toList_some, parkedEvents, rest, parkedEvents, same, left]
      simp only [List.map_cons, count_cons, count_nil]
      omega
  | @suppressed _ _ _ _ hex _ front back =>
      have lost : kept none (shared.setQueue (p.member, p.name, hex) (front ++ back)) p = false := by
        simp only [kept, Option.toList_none, List.nil_append, List.any_map, List.any_eq_false]
        intro e mem
        simpa using apart e mem
      rw [lost, if_neg Bool.false_ne_true, Option.toList_none, count_nil]
      simp only [parkedEvents, Shared.setQueue]
      omega

theorem count_suppressed (stays : Bool) (events : List Pending) (p : Pending) :
    count request (if stays then events else events ++ [p]) =
      count request events + if stays then 0 else count request [p] := by
  cases stays
  · exact count_append _ _
  · rfl

theorem count_releaseParked (ttl now : Nat) (shared : Shared) :
    count request (releaseParked ttl shared now).1 +
    count request (parkedEvents (releaseParked ttl shared now).2) = count request (parkedEvents shared) := by
  rw [releaseParked]
  simp only [parkedEvents, count, List.countP_map, List.countP_filter]
  have split := List.countP_eq_countP_filter_add shared.parked ((fun q : Pending => q.request == request) ∘ fun e => e.2.1)
    fun e => alive ttl now e.2.2
  simp only [List.countP_filter] at split
  rw [split, Nat.add_comm]

end Places

/-- Where events end. -/
def ends (w : Writer) : List Pending :=
  w.inserted.flatten ++ (w.failed.flatten ++ (w.suppressed ++ (w.refused ++ (w.panicked ++ w.abandoned))))

/-- How often a request is met, wherever it is. -/
def placed (w : Writer) (request : Nat) : Nat :=
  count request w.queue + count request (held w.slots) + count request w.ready + count request w.flushes.flatten +
    count request (parkedEvents w.shared) + count request w.ends

structure Inv (w : Writer) : Prop where
  conserved : ∀ request, w.placed request = count request w.recorded
  distinct : (w.recorded.map Pending.request).Nodup
  counted : w.dropped = w.refused.length
  owned : Owned w.shared w.letOut
  siblings : ∀ q ∈ w.suppressed, ∃ f ∈ w.letOut, q.image = f.2.1.image ∧ ∃ hex, q.digest = some hex ∧ hex ∈ f.2.1.kids
  broken : w.breaking = true → w.closed = true ∧ w.queue = [] ∧ w.slots.waiting = [] ∧ w.ready = []
  over_ : w.ended = true → w.breaking = true ∧ w.slots.tasks = [] ∧ w.flushes = [] ∧ w.shared.parked = []

section Kept

variable {ttl : Nat} {w : Writer}

theorem start_inv : Inv start where
  conserved _ := rfl
  distinct := .nil
  counted := rfl
  owned := ⟨.nil, fun _ mem => absurd mem List.not_mem_nil, fun _ _ mem => absurd mem List.not_mem_nil,
    fun _ _ mem => absurd mem List.not_mem_nil, fun _ _ mem => absurd mem List.not_mem_nil⟩
  siblings _ mem := absurd mem List.not_mem_nil
  broken breaking := nomatch breaking
  over_ ended := nomatch ended

theorem Inv.looping (inv : Inv w) (loops : w.looping = true) : w.breaking = false ∧ w.ended = false := by
  have running : w.breaking = false := by simpa [Writer.looping] using loops
  refine ⟨running, Bool.eq_false_iff.mpr fun ended => ?_⟩
  rw [(inv.over_ ended).1] at running
  cases running

theorem Inv.apart (inv : Inv w) {p : Pending} (queued : p ∈ w.queue) :
    ∀ e ∈ w.shared.parked, e.2.1.request ≠ p.request := by
  intro e mem same
  have all := inv.conserved p.request
  have once : count p.request w.recorded ≤ 1 := by
    have atMost := List.nodup_iff_count_le_one.mp inv.distinct p.request
    rwa [List.count_eq_countP, List.countP_map] at atMost
  have here : 0 < count p.request w.queue := List.countP_pos_iff.mpr ⟨p, queued, beq_self_eq_true _⟩
  have there : 0 < count p.request (parkedEvents w.shared) :=
    List.countP_pos_iff.mpr ⟨e.2.1, List.mem_map_of_mem mem, by simpa using same⟩
  rw [placed] at all
  omega

theorem flush_inv (inv : Inv w) : Inv w.flush := by
  rw [flush]
  split
  · exact inv
  · rename_i ready
    have loops : w.breaking = false := Bool.eq_false_iff.mpr fun breaking => ready (inv.broken breaking).2.2.2
    have going : w.ended = false := Bool.eq_false_iff.mpr fun ended => by
      rw [(inv.over_ ended).1] at loops
      cases loops
    refine { inv with conserved := fun request => ?_, broken := fun breaking => ?_, over_ := fun ended => ?_ }
    · rw [← inv.conserved request, placed, placed]
      simp only [List.flatten_append, List.flatten_singleton, count_append, count_nil, ends]
      omega
    · rw [loops] at breaking
      cases breaking
    · rw [going] at ended
      cases ended

theorem record_inv {p : Pending} (inv : Inv w) (fresh : p.request ∉ w.recorded.map Pending.request)
    (sender : w.closed = true → w.ended = true) : Inv (w.record p) := by
  have distinct : ((w.recorded ++ [p]).map Pending.request).Nodup := by
    rw [List.map_append]
    exact inv.distinct.append (List.nodup_singleton _) (by simpa using fresh)
  have refused : Inv ({ w with recorded := w.recorded ++ [p] }.drop p) :=
    { inv with
      conserved := by
        intro request
        have all := inv.conserved request
        simp only [placed, ends, drop, count_append] at all ⊢
        omega
      distinct := distinct
      counted := by simp [drop, inv.counted] }
  rw [record]
  dsimp only
  split
  · exact refused
  · rename_i going
    split
    · exact refused
    · exact
        { inv with
          conserved := by
            intro request
            have all := inv.conserved request
            simp only [placed, ends, count_append] at all ⊢
            omega
          distinct := distinct
          broken := fun breaking => absurd (sender (inv.broken breaking).1) going
          over_ := fun ended => absurd ended going }

theorem receive_inv {p : Pending} {rest : List Pending} (inv : Inv w) (queue : w.queue = p :: rest)
    (loops : w.looping = true) : Inv (w.receive ttl p rest) := by
  obtain ⟨running, going⟩ := inv.looping loops
  have apart := inv.apart (p := p) (by rw [queue]; exact List.mem_cons_self)
  have owned := inv.owned.classify ttl w.now p
  rw [receive]
  refine
    { inv with
      conserved := fun request => ?_
      owned := owned
      siblings := fun q mem => ?_
      broken := fun breaking => ?_
      over_ := fun ended => ?_ }
  · have all := inv.conserved request
    have moved := count_classify request ttl w.now inv.owned.sorted apart
    have slots := count_foldl_admitOne request (classify ttl w.shared p w.now).1.toList w.slots
    have suppressed := count_suppressed request
      (kept (classify ttl w.shared p w.now).1 (classify ttl w.shared p w.now).2 p) w.suppressed p
    simp only [placed, ends, count_append, queue, count_cons, count_nil, suppressed] at all moved slots ⊢
    omega
  · have earlier : ∀ q ∈ w.suppressed, ∃ f ∈ w.letOut ++ gone w.shared (classify ttl w.shared p w.now).2,
        q.image = f.2.1.image ∧ ∃ hex, q.digest = some hex ∧ hex ∈ f.2.1.kids := by
      intro q mem
      obtain ⟨f, out, rest⟩ := inv.siblings q mem
      exact ⟨f, List.mem_append_left _ out, rest⟩
    have mem : q ∈ if kept (classify ttl w.shared p w.now).1 (classify ttl w.shared p w.now).2 p then w.suppressed
      else w.suppressed ++ [p] := mem
    split at mem
    · exact earlier q mem
    · rename_i lost
      rcases List.mem_append.mp mem with before | last
      · exact earlier q before
      · rw [List.mem_singleton.mp last]
        exact inv.owned.sibling (Bool.eq_false_iff.mpr lost)
  · rw [running] at breaking
    cases breaking
  · rw [going] at ended
    cases ended

theorem tick_inv (inv : Inv w) (loops : w.looping = true) : Inv (w.tick ttl) := by
  have flushed := flush_inv inv
  have same : w.flush.breaking = w.breaking ∧ w.flush.ended = w.ended := by
    rw [flush]
    split <;> exact ⟨rfl, rfl⟩
  obtain ⟨running, going⟩ := inv.looping loops
  rw [← same.1] at running
  rw [← same.2] at going
  rw [tick]
  generalize w.flush = w at flushed running going
  refine
    { flushed with
      conserved := fun request => ?_
      owned := ?_
      siblings := fun q mem => ?_
      broken := fun breaking => ?_
      over_ := fun ended => ?_ }
  · have all := flushed.conserved request
    have due := count_releaseParked request ttl w.now w.shared
    have slots := count_foldl_admitOne request (releaseParked ttl w.shared w.now).1 w.slots
    simp only [placed, ends, count_append] at all slots ⊢
    have swept : parkedEvents (sweepChildren ttl (releaseParked ttl w.shared w.now).2 w.now) =
      parkedEvents (releaseParked ttl w.shared w.now).2 := rfl
    rw [swept]
    omega
  · have less : ∀ key, ((w.shared.recent key).filter fun entry => alive ttl w.now entry.2) ⊆ w.shared.recent key :=
      fun _ => List.filter_subset_self _
    exact flushed.owned.shrink rfl List.filter_sublist less
  · obtain ⟨f, out, rest⟩ := flushed.siblings q mem
    exact ⟨f, List.mem_append_left _ out, rest⟩
  · rw [running] at breaking
    cases breaking
  · rw [going] at ended
    cases ended

theorem held_erase {i : Nat} {p : Pending} {task : Task} (at_ : w.slots.tasks[i]? = some (p, task)) (request : Nat) :
    count request (held { w.slots with tasks := w.slots.tasks.eraseIdx i }) + count request [p] =
      count request (held w.slots) := by
  obtain ⟨inside, entry⟩ := List.getElem?_eq_some_iff.mp at_
  have whole := count_perm request ((List.getElem_cons_eraseIdx_perm inside).map Prod.fst)
  rw [entry, List.map_cons] at whole
  simp only [held, count_append, ← whole, count_cons, count_nil]
  omega

theorem join_inv {i : Nat} {entry : Pending × Task} {w' : Writer} (inv : Inv w) (loops : w.looping = true)
    (at_ : w.slots.tasks[i]? = some entry) (taken : w.join i entry = some w') : Inv w' := by
  obtain ⟨p, task⟩ := entry
  obtain ⟨running, going⟩ := inv.looping loops
  have moved := held_erase at_
  cases task with
  | running => cases taken
  | done =>
      have ready : Inv { w with
          slots := { w.slots with tasks := w.slots.tasks.eraseIdx i }, ready := w.ready ++ [p] } :=
        { inv with
          conserved := by
            intro request
            have all := inv.conserved request
            have moved := moved request
            simp only [placed, ends, count_append] at all moved ⊢
            omega
          broken := fun breaking => by
            rw [running] at breaking
            cases breaking
          over_ := fun ended => by
            rw [going] at ended
            cases ended }
      rw [join] at taken
      cases taken
      split
      · exact flush_inv ready
      · exact ready
  | panicked =>
      cases taken
      exact
        { inv with
          conserved := by
            intro request
            have all := inv.conserved request
            have moved := moved request
            simp only [placed, ends, count_append] at all moved ⊢
            omega
          over_ := fun ended => by
            rw [going] at ended
            cases ended }

theorem flushes_erase {i : Nat} {batch : List Pending} (at_ : w.flushes[i]? = some batch) (request : Nat) :
    count request (w.flushes.eraseIdx i).flatten + count request batch = count request w.flushes.flatten := by
  obtain ⟨inside, entry⟩ := List.getElem?_eq_some_iff.mp at_
  have whole := count_perm request (List.getElem_cons_eraseIdx_perm inside).flatten
  rw [entry, List.flatten_cons, count_append] at whole
  omega

theorem gatherEnds_inv {i : Nat} {task : Task} {w' : Writer} (inv : Inv w) (taken : w.gatherEnds i task = some w') :
    Inv w' := by
  rw [gatherEnds] at taken
  split at taken
  case h_2 => cases taken
  case h_1 p at_ =>
    split at taken
    case isTrue => cases taken
    case isFalse going =>
      cases taken
      have events : (w.slots.tasks.set i (p, task)).map Prod.fst = w.slots.tasks.map Prod.fst := by
        have same : (w.slots.tasks.map Prod.fst)[i]? = some p := by
          rw [List.getElem?_map, at_]
          rfl
        obtain ⟨inside, entry⟩ := List.getElem?_eq_some_iff.mp same
        rw [List.map_set, ← entry, List.set_getElem_self]
      refine { inv with conserved := fun request => ?_, over_ := fun ended => absurd ended going }
      rw [← inv.conserved request]
      simp only [placed, held, ends, events]

theorem step_inv {act : Act} {w' : Writer} (inv : Inv w) (taken : step ttl w act = some w') : Inv w' := by
  cases act with
  | record p =>
      rw [step] at taken
      split at taken
      case isFalse => cases taken
      case isTrue new =>
        cases taken
        exact record_inv inv new.1 new.2
  | close =>
      cases taken
      exact { inv with broken := fun breaking => ⟨rfl, (inv.broken breaking).2⟩ }
  | receive =>
      rw [step] at taken
      split at taken
      case h_1 => cases taken
      case h_2 p rest queue =>
        split at taken
        case isFalse => cases taken
        case isTrue selects =>
          cases taken
          exact receive_inv inv queue selects.1
  | permit =>
      rw [step] at taken
      split at taken
      case h_1 => cases taken
      case h_2 p rest waiting =>
        split at taken
        case isFalse => cases taken
        case isTrue selects =>
          obtain ⟨running, going⟩ := inv.looping selects.1
          cases taken
          exact
            { inv with
              conserved := by
                intro request
                have all := inv.conserved request
                simp only [placed, held, spawnWork, ends, count_append, waiting, List.map_append, count_cons,
                  List.map_cons, List.map_nil, count_nil] at all ⊢
                omega
              broken := fun breaking => by
                rw [running] at breaking
                cases breaking
              over_ := fun ended => by
                rw [going] at ended
                cases ended }
  | gathered i => exact gatherEnds_inv inv taken
  | panics i => exact gatherEnds_inv inv taken
  | join i =>
      rw [step] at taken
      split at taken
      case isFalse => cases taken
      case isTrue loops =>
        obtain ⟨entry, at_, taken⟩ := Option.bind_eq_some_iff.mp taken
        exact join_inv inv loops at_ taken
  | tick =>
      rw [step] at taken
      split at taken
      case isFalse => cases taken
      case isTrue loops =>
        cases taken
        exact tick_inv inv loops
  | inserted i =>
      obtain ⟨batch, at_, rfl⟩ := Option.map_eq_some_iff.mp taken
      exact
        { inv with
          conserved := by
            intro request
            have all := inv.conserved request
            have moved := flushes_erase at_ request
            simp only [placed, ends, count_append, List.flatten_append, List.flatten_singleton] at all ⊢
            omega
          over_ := fun ended => by
            rw [(inv.over_ ended).2.2.1] at at_
            cases at_ }
  | fails i =>
      obtain ⟨batch, at_, rfl⟩ := Option.map_eq_some_iff.mp taken
      exact
        { inv with
          conserved := by
            intro request
            have all := inv.conserved request
            have moved := flushes_erase at_ request
            simp only [placed, ends, count_append, List.flatten_append, List.flatten_singleton] at all ⊢
            omega
          over_ := fun ended => by
            rw [(inv.over_ ended).2.2.1] at at_
            cases at_ }
  | wait d =>
      cases taken
      exact { inv with }
  | break_ =>
      rw [step] at taken
      split at taken
      case isFalse => cases taken
      case isTrue done =>
        obtain ⟨loops, closed, queue, waiting⟩ := done
        have flushed := flush_inv inv
        cases taken
        refine { flushed with broken := fun _ => ?_, over_ := fun ended => ?_ }
        · rw [flush]
          split
          · exact ⟨closed, queue, waiting, ‹_›⟩
          · exact ⟨closed, queue, waiting, rfl⟩
        · exact ⟨rfl, (flushed.over_ ended).2⟩
  | end_ =>
      rw [step] at taken
      split at taken
      case isFalse => cases taken
      case isTrue done =>
        obtain ⟨breaking, going, flushes⟩ := done
        obtain ⟨-, queue, waiting, ready⟩ := inv.broken breaking
        cases taken
        refine
          { inv with
            conserved := fun request => ?_
            owned := ?_
            over_ := fun _ => ⟨breaking, rfl, flushes, rfl⟩
            broken := fun _ => ⟨(inv.broken breaking).1, queue, rfl, ready⟩ }
        · have all := inv.conserved request
          simp only [placed, held, ends, parkedEvents, count_append, waiting, List.map_nil, count_nil] at all ⊢
          omega
        · exact
            { sorted := .nil
              numbered := fun f out => inv.owned.numbered f (List.mem_append_right _ out)
              bounded := fun _ _ mem => absurd mem List.not_mem_nil
              known := fun _ _ mem => absurd mem List.not_mem_nil
              listed := fun _ _ mem => absurd mem List.not_mem_nil }

end Kept

/-! ### Every event is accounted for -/

/-- Once the writer has ended, each event was inserted, was in a batch that failed, suppressed or refused, or it was lost:
its gather panicked, or the channel closed while it was gathered or parked. -/
theorem writer_accounts_for_every_event {ttl : Nat} {acts : List Act} {w : Writer}
    (run : Run (step ttl) Any start acts w) (ended : w.ended = true) :
    (w.ends.map Pending.request).Perm (w.recorded.map Pending.request) ∧
      (w.recorded.map Pending.request).Nodup ∧ w.dropped = w.refused.length ∧
      ∀ q ∈ w.suppressed, ∃ f ∈ w.letOut, q.image = f.2.1.image ∧ ∃ hex, q.digest = some hex ∧ hex ∈ f.2.1.kids := by
  have inv : Inv w := run.invariant Inv start_inv fun _ _ _ inv taken _ => step_inv inv taken
  refine ⟨List.perm_iff_count.mpr fun request => ?_, inv.distinct, inv.counted, inv.siblings⟩
  have all := inv.conserved request
  obtain ⟨breaking, tasks, flushes, parked⟩ := inv.over_ ended
  obtain ⟨-, queue, waiting, ready⟩ := inv.broken breaking
  rw [List.count_eq_countP, List.count_eq_countP, List.countP_map, List.countP_map]
  change count request w.ends = count request w.recorded
  simp only [placed, held, parkedEvents, queue, waiting, tasks, ready, flushes, parked, List.map_nil, List.append_nil,
    List.flatten_nil, count_nil, Nat.zero_add] at all
  exact all

/-- A tarball that was served. -/
def aTarball (request : Nat) : Pending where
  request := request
  member := 1
  format := .npm
  name := "left-pad".toList
  source := .other

/-- A pull and a tarball are recorded, and inserted in one batch. -/
def inserting : List Act :=
  [.record ⟨0, 1, .oci, "nginx".toList, .oci ⟨none, some ⟨none, some [⟨none, some "amd".toList⟩], false⟩⟩ none none⟩,
    .record ⟨1, 1, .oci, "nginx".toList, .oci ⟨some "amd".toList, some ⟨none, none, true⟩⟩ none none⟩,
    .record (aTarball 2), .receive, .receive, .receive, .gathered 1, .gathered 0, .join 1, .join 0, .tick, .inserted 0,
    .close, .break_, .end_]

/-- A tarball is recorded, and its batch cannot be inserted. -/
def failing : List Act :=
  [.record (aTarball 0), .receive, .gathered 0, .join 0, .tick, .fails 0, .close, .break_, .end_]

theorem writer_inserts_a_pull :
    ∃ w, Run (step 60) Any start inserting w ∧ w.ended = true ∧
      w.inserted.map (fun batch => batch.map Pending.request) = [[2, 0]] ∧
      (w.ends.map Pending.request).Perm (w.recorded.map Pending.request) := by
  obtain ⟨w, run, tested⟩ := Run.of_test (step 60) Any start inserting
    (fun w => w.ended && w.inserted.map (fun batch => batch.map Pending.request) = [[2, 0]]) (by decide)
  simp only [Bool.and_eq_true, decide_eq_true_eq] at tested
  exact ⟨w, run, tested.1, tested.2, (writer_accounts_for_every_event run tested.1).1⟩

/-- The event is in no inserted batch, it was not suppressed and nothing was counted. -/
theorem failed_insert_is_not_counted :
    ∃ w, Run (step 60) Any start failing w ∧ w.ended = true ∧ w.recorded.map Pending.request = [0] ∧
      w.inserted = [] ∧ w.suppressed = [] ∧ w.dropped = 0 := by
  obtain ⟨w, run, tested⟩ := Run.of_test (step 60) Any start failing
    (fun w => w.ended && w.recorded.map Pending.request = [0] && w.inserted.isEmpty && w.suppressed.isEmpty &&
      w.dropped = 0) (by decide)
  simp only [Bool.and_eq_true, decide_eq_true_eq, List.isEmpty_iff] at tested
  obtain ⟨⟨⟨⟨ended, recorded⟩, inserted⟩, suppressed⟩, dropped⟩ := tested
  exact ⟨w, run, ended, recorded, inserted, suppressed, dropped⟩

end Writer

end OpenCargo.Policy.Oci
