/-
Module: OpenCargo.Proxy.Singleflight
Purpose: The lock of each key that a download is done under (`proxy/singleflight.rs`), step by step: the look-up in the
  map, the wait for the mutex and its end, and the parts of a guard's drop: the clean-up of the map, the release of
  the mutex, the reference that is given back.
Trusted boundary: the mutex of the map, under which a look-up and a clean-up are one step each; that a mutex is held
  by one at a time
Main exports: step, Sound, removed_by_holder, one_flight_per_key
-/
import OpenCargo.Domain
import OpenCargo.Lib.Entries
import OpenCargo.Lib.Run

namespace OpenCargo.Proxy.Singleflight

open OpenCargo.Lib

/-! ### The steps -/

/-- Where a task is. A guard is dropped in three steps: its own `drop`, then its permit, then the reference in the
permit. -/
inductive Phase where
  /-- It has looked its key up, and waits for the mutex. -/
  | waiting (key : Text) (lock : Nat)
  /-- It has the guard. -/
  | holding (key : Text) (lock : Nat)
  /-- The guard is being dropped: the map is cleaned up, the permit still there. -/
  | cleaned (lock : Nat)
  /-- The mutex is free again, the reference to it still there. -/
  | unlocked (lock : Nat)
  | gone
deriving Repr, DecidableEq, Inhabited

/-- The map, by the numbers of the mutexes in it; of each mutex, how many references there are to it, and whether it
is locked; and the tasks. Numbers from `next` on are of no mutex yet. -/
structure State where
  locks : Entries Text Nat
  next : Nat
  strongCount : Nat → Nat
  locked : Nat → Bool
  tasks : List Phase

def start : State := ⟨⟨[], List.nodup_nil⟩, 0, fun _ => 0, fun _ => false, []⟩

inductive Act where
  /-- A new task looks its key up. -/
  | acquire (key : Text)
  /-- A task that waits gets the mutex. -/
  | lock (task : Nat)
  /-- A task waits no longer: its deadline has passed, or it is cancelled. -/
  | giveUp (task : Nat)
  /-- `Drop for Guard`. -/
  | cleanUp (task : Nat)
  | unlock (task : Nat)
  | release (task : Nat)
deriving Repr, DecidableEq, Inhabited

namespace State

def move (s : State) (task : Nat) (phase : Phase) : State := { s with tasks := s.tasks.set task phase }

/-- `Arc::clone`. -/
def retain (s : State) (lock : Nat) : State :=
  { s with strongCount := Function.update s.strongCount lock (s.strongCount lock + 1) }

/-- A reference is dropped. -/
def forget (s : State) (lock : Nat) : State :=
  { s with strongCount := Function.update s.strongCount lock (s.strongCount lock - 1) }

def setLocked (s : State) (lock : Nat) (locked : Bool) : State :=
  { s with locked := Function.update s.locked lock locked }

/-- `entry(key).or_default()`. -/
def entry (s : State) (key : Text) : Nat × State :=
  match s.locks.get key with
  | some lock => (lock, s)
  | none =>
      (s.next, { s with
        locks := s.locks.set key s.next
        next := s.next + 1
        strongCount := Function.update s.strongCount s.next 1 })

/-- The map and our own permit hold one reference each; any third holder is a waiter. -/
def cleanUp (s : State) (key : Text) : State :=
  match s.locks.get key with
  | some lock =>
      if s.strongCount lock ≤ 2 then State.forget { s with locks := s.locks.erase key } lock else s
  | none => s

end State

def step (s : State) : Act → Option State
  | .acquire key =>
      let (lock, s) := s.entry key
      some { s.retain lock with tasks := s.tasks ++ [.waiting key lock] }
  | .lock task =>
      match s.tasks[task]? with
      | some (.waiting key lock) =>
          if s.locked lock then none else some ((s.setLocked lock true).move task (.holding key lock))
      | _ => none
  | .giveUp task =>
      match s.tasks[task]? with
      | some (.waiting _ lock) => some ((s.forget lock).move task .gone)
      | _ => none
  | .cleanUp task =>
      match s.tasks[task]? with
      | some (.holding key lock) => some ((s.cleanUp key).move task (.cleaned lock))
      | _ => none
  | .unlock task =>
      match s.tasks[task]? with
      | some (.cleaned lock) => some ((s.setLocked lock false).move task (.unlocked lock))
      | _ => none
  | .release task =>
      match s.tasks[task]? with
      | some (.unlocked lock) => some ((s.forget lock).move task .gone)
      | _ => none

/-! ### What is counted -/

namespace Phase

/-- The mutex a task has a reference to. -/
def reference : Phase → Option Nat
  | waiting _ lock | holding _ lock | cleaned lock | unlocked lock => some lock
  | gone => none

/-- The mutex a task has locked. -/
def permit : Phase → Option Nat
  | holding _ lock | cleaned lock => some lock
  | waiting _ _ | unlocked _ | gone => none

/-- The key of a live guard or of a waiter, and its mutex. -/
def flight : Phase → Option (Text × Nat)
  | waiting key lock | holding key lock => some (key, lock)
  | cleaned _ | unlocked _ | gone => none

theorem reference_of_flight {phase : Phase} {key : Text} {lock : Nat} (flies : phase.flight = some (key, lock)) :
    phase.reference = some lock := by
  cases phase <;> simp_all [flight, reference]

theorem reference_of_permit {phase : Phase} {lock : Nat} (holds : phase.permit = some lock) :
    phase.reference = some lock := by
  cases phase <;> simp_all [permit, reference]

end Phase

/-- How many keys of the map have this mutex. -/
def entriesOf (locks : Entries Text Nat) (lock : Nat) : Nat := locks.toList.countP fun e => e.2 == lock

def references (tasks : List Phase) (lock : Nat) : Nat := tasks.countP fun phase => phase.reference == some lock

def permits (tasks : List Phase) (lock : Nat) : Nat := tasks.countP fun phase => phase.permit == some lock

theorem countP_move {p : Phase → Bool} {tasks : List Phase} {i : Nat} {phase : Phase} (own : tasks[i]? = some phase)
    (phase' : Phase) :
    (tasks.set i phase').countP p + (if p phase then 1 else 0) = tasks.countP p + if p phase' then 1 else 0 := by
  obtain ⟨inside, same⟩ := List.getElem?_eq_some_iff.mp own
  have counted : p phase = true → 0 < tasks.countP p := fun held =>
    List.countP_pos_iff.mpr ⟨phase, List.mem_of_getElem? own, held⟩
  rw [List.countP_set inside, same]
  split
  · have := counted ‹_›
    omega
  · omega

theorem entriesOf_erase {locks : Entries Text Nat} {key : Text} {lock : Nat} (held : locks.get key = some lock)
    (other : Nat) : entriesOf locks other = entriesOf (locks.erase key) other + if lock = other then 1 else 0 := by
  rw [entriesOf, (Entries.perm_cons_erase held).countP_eq, List.countP_cons, entriesOf]
  simp

theorem entriesOf_set {locks : Entries Text Nat} {key : Text} (absent : locks.get key = none) (lock other : Nat) :
    entriesOf (locks.set key lock) other = entriesOf locks other + if lock = other then 1 else 0 := by
  rw [entriesOf, Entries.perm_cons_set.countP_eq, List.countP_cons, (Entries.erase_reordered absent).countP_eq,
    entriesOf]
  simp

theorem entriesOf_pos {locks : Entries Text Nat} {key : Text} {lock : Nat} (held : locks.get key = some lock) :
    0 < entriesOf locks lock :=
  List.countP_pos_iff.mpr ⟨(key, lock), Entries.get_eq_some_iff.mp held, by simp⟩

/-! ### The invariant -/

/-- The counts are those of the references there are, a mutex is locked by one task where it is locked, every flight
is on the mutex the map holds for its key, and numbers to come are of nothing. -/
structure Sound (s : State) : Prop where
  counts : ∀ lock, s.strongCount lock = entriesOf s.locks lock + references s.tasks lock
  permits : ∀ lock, permits s.tasks lock = if s.locked lock then 1 else 0
  shares : ∀ phase ∈ s.tasks, ∀ key lock, phase.flight = some (key, lock) → s.locks.get key = some lock
  fresh : ∀ lock, s.next ≤ lock → s.strongCount lock = 0 ∧ s.locked lock = false

/-- What each step does. -/
inductive Did (s : State) : Act → State → Prop where
  | acquired (key : Text) :
      Did s (.acquire key)
        { (s.entry key).2.retain (s.entry key).1 with
          tasks := (s.entry key).2.tasks ++ [.waiting key (s.entry key).1] }
  | locked {task : Nat} {key : Text} {lock : Nat} (own : s.tasks[task]? = some (.waiting key lock))
      (free : s.locked lock = false) : Did s (.lock task) ((s.setLocked lock true).move task (.holding key lock))
  | gaveUp {task : Nat} {key : Text} {lock : Nat} (own : s.tasks[task]? = some (.waiting key lock)) :
      Did s (.giveUp task) ((s.forget lock).move task .gone)
  | cleanedUp {task : Nat} {key : Text} {lock : Nat} (own : s.tasks[task]? = some (.holding key lock)) :
      Did s (.cleanUp task) ((s.cleanUp key).move task (.cleaned lock))
  | unlocked {task lock : Nat} (own : s.tasks[task]? = some (.cleaned lock)) :
      Did s (.unlock task) ((s.setLocked lock false).move task (.unlocked lock))
  | released {task lock : Nat} (own : s.tasks[task]? = some (.unlocked lock)) :
      Did s (.release task) ((s.forget lock).move task .gone)

theorem did_of_step {s s' : State} {a : Act} (taken : step s a = some s') : Did s a s' := by
  cases a with
  | acquire key =>
      obtain rfl := Option.some.inj taken
      exact .acquired key
  | lock task =>
      simp only [step] at taken
      split at taken
      · split at taken
        · cases taken
        · obtain rfl := Option.some.inj taken
          exact .locked ‹_› (Bool.eq_false_iff.mpr ‹_›)
      · cases taken
  | giveUp task =>
      simp only [step] at taken
      split at taken
      · obtain rfl := Option.some.inj taken
        exact .gaveUp ‹_›
      · cases taken
  | cleanUp task =>
      simp only [step] at taken
      split at taken
      · obtain rfl := Option.some.inj taken
        exact .cleanedUp ‹_›
      · cases taken
  | unlock task =>
      simp only [step] at taken
      split at taken
      · obtain rfl := Option.some.inj taken
        exact .unlocked ‹_›
      · cases taken
  | release task =>
      simp only [step] at taken
      split at taken
      · obtain rfl := Option.some.inj taken
        exact .released ‹_›
      · cases taken

section Invariant

variable {s s' : State} {task lock : Nat} {key : Text} {phase phase' : Phase}

theorem Sound.start : Sound start := ⟨fun _ => rfl, fun _ => rfl, by simp [Singleflight.start], fun _ _ => ⟨rfl, rfl⟩⟩

theorem mem_move (mem : phase ∈ s.tasks.set task phase') :
    (∃ i, i ≠ task ∧ s.tasks[i]? = some phase) ∨ phase = phase' := by
  obtain ⟨i, found⟩ := List.getElem?_of_mem mem
  rw [List.getElem?_set] at found
  split at found
  · split at found
    · exact .inr (Option.some.inj found).symm
    · cases found
  · exact .inl ⟨i, fun same => ‹task ≠ i› same.symm, found⟩

theorem unique_of_countP {p : Phase → Bool} {i j : Nat} (few : s.tasks.countP p ≤ 1) (one : s.tasks[i]? = some phase)
    (counted : p phase = true) (other : s.tasks[j]? = some phase') (counted' : p phase' = true)
    (quiet : p .gone = false) : i = j := by
  by_contra apart
  have moved := countP_move (p := p) one .gone
  rw [if_pos counted, quiet] at moved
  have there : phase' ∈ s.tasks.set i .gone := by
    refine List.mem_of_getElem? (i := j) ?_
    rw [List.getElem?_set_ne apart]
    exact other
  have some_ : 0 < (s.tasks.set i .gone).countP p := List.countP_pos_iff.mpr ⟨phase', there, counted'⟩
  simp only [Bool.false_eq_true, if_false] at moved
  omega

namespace Sound

theorem references_pos (own : s.tasks[task]? = some phase) (refers : phase.reference = some lock) :
    0 < references s.tasks lock :=
  List.countP_pos_iff.mpr ⟨phase, List.mem_of_getElem? own, by simp [refers]⟩

theorem used (sound : Sound s) (own : s.tasks[task]? = some phase) (refers : phase.reference = some lock) :
    0 < s.strongCount lock ∧ lock < s.next := by
  have some_ := references_pos own refers
  have counted := sound.counts lock
  refine ⟨by omega, ?_⟩
  by_contra beyond
  have none_ := (sound.fresh lock (Nat.le_of_not_lt beyond)).1
  omega

theorem alone (sound : Sound s) (held : s.locks.get key = some lock) (few : s.strongCount lock ≤ 2)
    (own : s.tasks[task]? = some phase) (refers : phase.reference = some lock) {i : Nat} {other : Phase}
    (there : s.tasks[i]? = some other) (refers' : other.reference = some lock) : i = task := by
  have counted := sound.counts lock
  have one := entriesOf_pos held
  have single : references s.tasks lock ≤ 1 := by omega
  exact unique_of_countP (p := fun phase => phase.reference == some lock) single there (by simp [refers']) own
    (by simp [refers]) rfl

theorem entry (sound : Sound s) (key : Text) :
    Sound (s.entry key).2 ∧ (s.entry key).2.locks.get key = some (s.entry key).1 ∧
      (s.entry key).1 < (s.entry key).2.next := by
  rw [State.entry]
  cases held : s.locks.get key with
  | some lock =>
      refine ⟨sound, held, ?_⟩
      by_contra beyond
      have none_ := (sound.fresh lock (Nat.le_of_not_lt beyond)).1
      rw [sound.counts] at none_
      have one := entriesOf_pos held
      omega
  | none =>
      have unused := (sound.fresh s.next (Nat.le_refl _)).1
      refine ⟨⟨fun lock => ?_, sound.permits, fun phase mem key' lock flies => ?_, fun lock beyond => ?_⟩, ?_,
        Nat.lt_succ_self _⟩
      · have before := sound.counts lock
        change Function.update s.strongCount s.next 1 lock = entriesOf (s.locks.set key s.next) lock +
          references s.tasks lock
        rw [entriesOf_set held, Function.update_apply]
        by_cases own : lock = s.next
        · subst own
          rw [if_pos rfl, if_pos rfl]
          omega
        · rw [if_neg own, if_neg (Ne.symm own)]
          omega
      · have there := sound.shares phase mem key' lock flies
        change (s.locks.set key s.next).get key' = some lock
        rw [Entries.get_set, if_neg]
        · exact there
        · rintro rfl
          rw [held] at there
          cases there
      · have before := sound.fresh lock (Nat.le_of_succ_le beyond)
        refine ⟨?_, before.2⟩
        change Function.update s.strongCount s.next 1 lock = 0
        rw [Function.update_of_ne (Nat.ne_of_gt beyond)]
        exact before.1
      · change (s.locks.set key s.next).get key = some s.next
        rw [Entries.get_set, if_pos rfl]

theorem moved (sound : Sound s) {t : State} (own : s.tasks[task]? = some phase) (tasks : t.tasks = s.tasks)
    (phase' : Phase)
    (counts : ∀ lock, t.strongCount lock + entriesOf s.locks lock + (if phase.reference = some lock then 1 else 0) =
      s.strongCount lock + entriesOf t.locks lock + if phase'.reference = some lock then 1 else 0)
    (locked : ∀ lock, (if t.locked lock then 1 else 0) + (if phase.permit = some lock then 1 else 0) =
      (if s.locked lock then 1 else 0) + if phase'.permit = some lock then 1 else 0)
    (shares : ∀ phase ∈ s.tasks.set task phase', ∀ key lock, phase.flight = some (key, lock) →
      t.locks.get key = some lock)
    (fresh : ∀ lock, t.next ≤ lock → t.strongCount lock = 0 ∧ t.locked lock = false) :
    Sound (t.move task phase') := by
  refine ⟨fun lock => ?_, fun lock => ?_, fun other mem => ?_, fresh⟩
  · have moved := countP_move (p := fun phase => phase.reference == some lock) own phase'
    have before := sound.counts lock
    have change_ := counts lock
    change t.strongCount lock = entriesOf t.locks lock + references (t.tasks.set task phase') lock
    rw [references] at before
    rw [tasks, references]
    simp only [beq_iff_eq] at moved
    omega
  · have moved := countP_move (p := fun phase => phase.permit == some lock) own phase'
    have before := sound.permits lock
    have change_ := locked lock
    change Singleflight.permits (t.tasks.set task phase') lock = if t.locked lock then 1 else 0
    rw [Singleflight.permits] at before
    rw [tasks, Singleflight.permits]
    simp only [beq_iff_eq] at moved
    omega
  · rw [State.move, tasks] at mem
    exact shares other mem

theorem switched (sound : Sound s) (own : s.tasks[task]? = some phase) {locked : Bool}
    (refers : phase.reference = some lock) (refers' : phase'.reference = some lock)
    (permit : phase.permit = if locked then none else some lock)
    (permit' : phase'.permit = if locked then some lock else none) (was : s.locked lock = !locked)
    (flies : ∀ key lock, phase'.flight = some (key, lock) → phase.flight = some (key, lock)) :
    Sound ((s.setLocked lock locked).move task phase') := by
  refine sound.moved (t := s.setLocked lock locked) own rfl phase' (fun other => ?_) (fun other => ?_)
    (fun other mem key' lock' flies' => ?_) fun other beyond => ?_
  · rw [refers, refers']
    rfl
  · change (if Function.update s.locked lock locked other then 1 else 0) + _ = _
    rw [permit, permit', Function.update_apply]
    by_cases same : other = lock
    · subst same
      cases locked <;> simp [was]
    · cases locked <;> simp [same, Ne.symm same]
  · rcases mem_move mem with ⟨i, -, there⟩ | rfl
    · exact sound.shares other (List.mem_of_getElem? there) key' lock' flies'
    · exact sound.shares phase (List.mem_of_getElem? own) key' lock' (flies key' lock' flies')
  · obtain ⟨none_, free⟩ := sound.fresh other beyond
    refine ⟨none_, ?_⟩
    change Function.update s.locked lock locked other = false
    rw [Function.update_of_ne, free]
    rintro rfl
    exact absurd (sound.used own refers).2 (Nat.not_lt.mpr beyond)

theorem forgotten (sound : Sound s) (own : s.tasks[task]? = some phase) (refers : phase.reference = some lock)
    (free : phase.permit = none) : Sound ((s.forget lock).move task .gone) := by
  have some_ := (sound.used own refers).1
  refine sound.moved (t := s.forget lock) own rfl .gone (fun other => ?_) (fun other => ?_)
    (fun other mem key' lock' flies' => ?_) fun other beyond => ?_
  · change Function.update s.strongCount lock (s.strongCount lock - 1) other + _ + _ = _ + _ + _
    rw [refers, Function.update_apply]
    by_cases same : other = lock
    · subst same
      simp only [if_true, Phase.reference, reduceCtorEq, if_false, State.forget]
      omega
    · simp [same, Ne.symm same, Phase.reference, State.forget]
  · rw [free]
    rfl
  · rcases mem_move mem with ⟨i, -, there⟩ | rfl
    · exact sound.shares other (List.mem_of_getElem? there) key' lock' flies'
    · cases flies'
  · obtain ⟨none_, free_⟩ := sound.fresh other beyond
    refine ⟨?_, free_⟩
    change Function.update s.strongCount lock (s.strongCount lock - 1) other = 0
    rw [Function.update_of_ne, none_]
    rintro rfl
    omega

theorem acquire (sound : Sound s) (key : Text) :
    Sound { (s.entry key).2.retain (s.entry key).1 with
      tasks := (s.entry key).2.tasks ++ [.waiting key (s.entry key).1] } := by
  obtain ⟨before, held, inside⟩ := sound.entry key
  generalize s.entry key = found at before held inside
  obtain ⟨lock, u⟩ := found
  dsimp only at before held inside ⊢
  refine ⟨fun other => ?_, fun other => ?_, fun phase mem key' lock' flies => ?_, fun other beyond => ?_⟩
  · have counted := before.counts other
    change Function.update u.strongCount lock (u.strongCount lock + 1) other = entriesOf u.locks other +
      (u.tasks ++ [Phase.waiting key lock]).countP _
    rw [references] at counted
    rw [List.countP_append, Function.update_apply, ← Nat.add_assoc, ← counted, List.countP_singleton]
    by_cases same : other = lock
    · subst same
      simp [Phase.reference]
    · simp [Phase.reference, same, Ne.symm same]
  · change (u.tasks ++ [Phase.waiting key lock]).countP _ = _
    rw [List.countP_append]
    exact before.permits other
  · rcases List.mem_append.mp mem with old | new
    · exact before.shares phase old key' lock' flies
    · cases List.mem_singleton.mp new
      cases flies
      exact held
  · obtain ⟨none_, free⟩ := before.fresh other beyond
    refine ⟨?_, free⟩
    change Function.update u.strongCount lock (u.strongCount lock + 1) other = 0
    rw [Function.update_of_ne (Nat.ne_of_gt (Nat.lt_of_lt_of_le inside beyond)), none_]

/-- The holder of a key cleans up under the mutex the map holds for it, which nobody else refers to if it is removed. -/
theorem cleanUp (sound : Sound s) (own : s.tasks[task]? = some (.holding key lock)) :
    Sound ((s.cleanUp key).move task (.cleaned lock)) := by
  have held : s.locks.get key = some lock := sound.shares _ (List.mem_of_getElem? own) key lock rfl
  rw [State.cleanUp, held]
  dsimp only
  split
  · rename_i few
    have some_ := (sound.used own rfl).1
    refine sound.moved (t := State.forget { s with locks := s.locks.erase key } lock) own rfl (.cleaned lock)
      (fun other => ?_) (fun other => rfl) (fun other mem key' lock' flies => ?_) fun other beyond => ?_
    · have entries := entriesOf_erase held other
      change Function.update s.strongCount lock (s.strongCount lock - 1) other + _ + _ =
        _ + entriesOf (s.locks.erase key) other + _
      rw [entries, Function.update_apply]
      by_cases same : other = lock
      · subst same
        simp only [if_true, Phase.reference]
        omega
      · simp [same, Ne.symm same, Phase.reference]
    · rcases mem_move mem with ⟨i, apart, there⟩ | rfl
      · have shared := sound.shares other (List.mem_of_getElem? there) key' lock' flies
        change (s.locks.erase key).get key' = some lock'
        rw [Entries.get_erase, if_neg, shared]
        rintro rfl
        cases held.symm.trans shared
        exact apart (sound.alone held few own rfl there (Phase.reference_of_flight flies))
      · cases flies
    · obtain ⟨none_, free⟩ := sound.fresh other beyond
      refine ⟨?_, free⟩
      change Function.update s.strongCount lock (s.strongCount lock - 1) other = 0
      rw [Function.update_of_ne, none_]
      rintro rfl
      omega
  · refine sound.moved (t := s) own rfl (.cleaned lock) (fun other => rfl) (fun other => rfl)
      (fun other mem key' lock' flies => ?_) sound.fresh
    rcases mem_move mem with ⟨i, -, there⟩ | rfl
    · exact sound.shares other (List.mem_of_getElem? there) key' lock' flies
    · cases flies

theorem step (sound : Sound s) {act : Act} (taken : step s act = some s') : Sound s' := by
  cases did_of_step taken with
  | acquired key => exact sound.acquire key
  | locked own free =>
      exact sound.switched own rfl rfl rfl rfl free fun _ _ flies => flies
  | gaveUp own => exact sound.forgotten own rfl rfl
  | cleanedUp own => exact sound.cleanUp own
  | @unlocked task lock own =>
      refine sound.switched own rfl rfl rfl rfl ?_ fun _ _ flies => by cases flies
      by_contra free
      have none_ := sound.permits lock
      rw [if_neg (by simpa using free)] at none_
      have some_ : 0 < Singleflight.permits s.tasks lock :=
        List.countP_pos_iff.mpr ⟨_, List.mem_of_getElem? own, by simp [Phase.permit]⟩
      omega
  | released own => exact sound.forgotten own rfl rfl

end Sound

/-- A step that takes a key's mutex out of the map, or puts another there, is the clean-up of its one holder. -/
theorem removed_by_holder (sound : Sound s) {act : Act} (taken : step s act = some s')
    (held : s.locks.get key = some lock) (lost : s'.locks.get key ≠ some lock) :
    ∃ task, act = .cleanUp task ∧ s.tasks[task]? = some (.holding key lock) ∧
      ∀ i other, s.tasks[i]? = some other → other.reference = some lock → i = task := by
  cases did_of_step taken with
  | acquired key' =>
      refine absurd ?_ lost
      change (s.entry key').2.locks.get key = some lock
      rw [State.entry]
      cases found : s.locks.get key' with
      | some _ => exact held
      | none =>
          change (s.locks.set key' s.next).get key = some lock
          rw [Entries.get_set, if_neg, held]
          rintro rfl
          rw [held] at found
          cases found
  | locked | gaveUp | unlocked | released => exact absurd held lost
  | @cleanedUp task key' lock' own =>
      have shared : s.locks.get key' = some lock' := sound.shares _ (List.mem_of_getElem? own) key' lock' rfl
      change (s.cleanUp key').locks.get key ≠ some lock at lost
      rw [State.cleanUp, shared] at lost
      dsimp only at lost
      split at lost
      · rename_i few
        change (s.locks.erase key').get key ≠ some lock at lost
        rw [Entries.get_erase] at lost
        split at lost
        · rename_i same
          subst same
          cases held.symm.trans shared
          exact ⟨task, rfl, own, fun i other there refers => sound.alone held few own rfl there refers⟩
        · exact absurd held lost
      · exact absurd held lost

/-- In every state that is reached, every guard and every waiter of a key is on the mutex the map holds for it; two
guards of one key are one; and a key's mutex leaves the map only when its holder cleans up and nobody else refers to
it. A guard that has cleaned up is no guard any more: what is left of its drop is to free its mutex. -/
theorem one_flight_per_key {acts : List Act} (run : Run Singleflight.step Any Singleflight.start acts s) :
    (∀ phase ∈ s.tasks, ∀ key lock, phase.flight = some (key, lock) → s.locks.get key = some lock) ∧
      (∀ (i j : Nat) key lock lock', s.tasks[i]? = some (Phase.holding key lock) →
        s.tasks[j]? = some (Phase.holding key lock') → i = j) ∧
      ∀ act s', step s act = some s' → ∀ key lock, s.locks.get key = some lock → s'.locks.get key ≠ some lock →
        ∃ task, act = .cleanUp task ∧ s.tasks[task]? = some (.holding key lock) ∧
          ∀ i other, s.tasks[i]? = some other → other.reference = some lock → i = task := by
  have sound : Sound s := run.invariant Sound .start fun _ _ _ sound taken _ => sound.step taken
  refine ⟨sound.shares, fun i j key lock lock' one other => ?_, fun act s' taken key lock held lost =>
    removed_by_holder sound taken held lost⟩
  have shared := sound.shares _ (List.mem_of_getElem? one) key lock rfl
  have shared' := sound.shares _ (List.mem_of_getElem? other) key lock' rfl
  cases shared.symm.trans shared'
  have single : Singleflight.permits s.tasks lock ≤ 1 := by
    rw [sound.permits]
    split <;> decide
  exact unique_of_countP (p := fun phase => phase.permit == some lock) single one (by simp [Phase.permit]) other
    (by simp [Phase.permit]) rfl

end Invariant

/-- Two tasks want one file: the second waits, the first cleans up under it, and the second goes on. -/
def leaderAndFollower : List Act :=
  [.acquire "a".toList, .lock 0, .acquire "a".toList, .cleanUp 0, .unlock 0, .lock 1, .release 0]

theorem follower_is_on_the_mutex_of_the_map :
    ∃ s, Run step Any start leaderAndFollower s ∧ s.locks.get "a".toList = some 0 := by
  obtain ⟨s, run, tested⟩ := Run.of_test step Any start leaderAndFollower
    (fun s => s.tasks == [.gone, .holding "a".toList 0]) (by decide)
  refine ⟨s, run, (one_flight_per_key run).1 (.holding "a".toList 0) ?_ _ _ rfl⟩
  rw [eq_of_beq tested]
  exact List.mem_cons_of_mem _ List.mem_cons_self

end OpenCargo.Proxy.Singleflight
