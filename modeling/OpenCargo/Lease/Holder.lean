/-
Module: OpenCargo.Lease.Holder
Purpose: How many instances' handles report the lease as held, and how many cleanup runs are in progress,
  along every interleaving of the instances' steps in which no holder's renewals are late: one at most, as
  long as no instance is granted the lease while another that gave it up still goes on.
Trusted boundary: as Lease.Store
Main exports: Sound, Sound.step, one_holder_of_handed, both_run_after_release
-/
import OpenCargo.Lease.Store

namespace OpenCargo.Lease

open OpenCargo.Lib

variable {ω : Type} {staleAfter : Nat} {s t : System ω} {i j : ω} {act : Act ω}

/-! ### What is asked of a step -/

/-- Instance `i` has its guard, and its handle reports the lease as held. -/
def System.Holds (s : System ω) (i : ω) : Prop :=
  (s.instances i).phase = .guarding ∧ (s.instances i).held = true

instance [DecidableEq ω] : Decidable (s.Holds i) := inferInstanceAs (Decidable (_ ∧ _))

/-- No live holder's last renewal is as old as the bound. -/
def Prompt (staleAfter : Nat) (s : System ω) : Prop :=
  ∀ i, s.Holds i → s.now < (s.instances i).reached + staleAfter

variable [DecidableEq ω] in
/-- The instance whose handle a step has report the lease as held. -/
def Act.granted (staleAfter : Nat) (s : System ω) : Act ω → Option ω
  | .attempt i .served _ => if free s.row i s.now staleAfter then some i else none
  | .renewal i .served =>
      if (s.instances i).held = false ∧ free s.row i s.now staleAfter then some i else none
  | _ => none

variable [DecidableEq ω] in
/-- Where an instance is granted the lease, none that gave its guard up still has a handle that reports it
as held: its process has ended. -/
def Handed (staleAfter : Nat) (s : System ω) (act : Act ω) : Prop :=
  ∀ i ∈ act.granted staleAfter s, ∀ j, j ≠ i →
    (s.instances j).phase = .givenUp → (s.instances j).held = false

/-! ### The invariant -/

/-- The row is the instance's, and says no less than when it was last written. -/
def Owns (row : Option (LeaseRow ω)) (i : ω) (reached : Instant) : Prop :=
  ∃ held, row = some held ∧ held.owner = i ∧ bindTs reached ≤ held.renewedAt

structure Sound (s : System ω) : Prop where
  owns : ∀ i, s.Holds i → Owns s.row i (s.instances i).reached
  live : ∀ i, (s.instances i).held = true →
    (s.instances i).phase = .guarding ∨ (s.instances i).phase = .givenUp
  one : ∀ i j, (s.instances i).held = true → (s.instances j).held = true → i = j
  runs : ∀ i, (s.instances i).running = true → (s.instances i).held = true

theorem sound_begin {now : Instant} {row : Option (LeaseRow ω)} {versions : ω → Text} :
    Sound (begin_ now row versions) where
  owns _ holds := nomatch holds.2
  live _ held := nomatch held
  one _ _ held := nomatch held
  runs _ running := nomatch running

theorem Sound.alone (sound : Sound s) (held : (s.instances i).held = true) (other : j ≠ i) :
    (s.instances j).held = false := by
  by_contra also
  exact other (sound.one j i (by simpa using also) held)

variable [DecidableEq ω]

theorem Sound.set (sound : Sound s) {row : Option (LeaseRow ω)} {self : Instance ω}
    (kept : ∀ j, j ≠ i → s.Holds j → Owns row j (s.instances j).reached)
    (own : self.phase = .guarding → self.held = true → Owns row i self.reached)
    (live : self.held = true → self.phase = .guarding ∨ self.phase = .givenUp)
    (alone : self.held = true → ∀ j, j ≠ i → (s.instances j).held = false)
    (runs : self.running = true → self.held = true) :
    Sound ({ s with row }.set i self) := by
  have here : ({ s with row }.set i self).instances i = self := System.set_self
  have there : ∀ j, j ≠ i → ({ s with row }.set i self).instances j = s.instances j :=
    fun j other => System.set_ne other
  constructor
  · intro j holds
    by_cases same : j = i
    · subst same
      rw [System.Holds, here] at holds
      rw [here]
      exact own holds.1 holds.2
    · rw [System.Holds, there j same] at holds
      rw [there j same]
      exact kept j same holds
  · intro j held
    by_cases same : j = i
    · subst same
      rw [here] at held ⊢
      exact live held
    · rw [there j same] at held ⊢
      exact sound.live j held
  · intro j k held held'
    by_cases same : j = i
    · subst same
      by_contra other
      rw [here] at held
      rw [there k (Ne.symm other), alone held k (Ne.symm other)] at held'
      cases held'
    · rw [there j same] at held
      by_cases same' : k = i
      · subst same'
        rw [here] at held'
        rw [alone held' j same] at held
        cases held
      · rw [there k same'] at held'
        exact sound.one j k held held'
  · intro j running
    by_cases same : j = i
    · subst same
      rw [here] at running ⊢
      exact runs running
    · rw [there j same] at running ⊢
      exact sound.runs j running

/-- A step of instance `i` that leaves the row alone, and its flag, or clears it. -/
theorem Sound.set_self (sound : Sound s) {self : Instance ω}
    (own : self.phase = .guarding → self.held = true → Owns s.row i self.reached)
    (live : self.held = true → self.phase = .guarding ∨ self.phase = .givenUp)
    (less : self.held = true → (s.instances i).held = true)
    (runs : self.running = true → self.held = true) : Sound (s.set i self) :=
  sound.set (fun j _ holds => sound.owns j holds) own live
    (fun held _ other => sound.alone (less held) other) runs

/-! ### The statements -/

theorem Sound.not_holds_of_free (sound : Sound s) (prompt : Prompt staleAfter s)
    (taken : free s.row i s.now staleAfter = true) (other : j ≠ i) : ¬s.Holds j := by
  intro holds
  obtain ⟨held, there, owner, stamped⟩ := sound.owns j holds
  have early := prompt j holds
  rw [there, free, Bool.or_eq_true_iff, decide_eq_true_iff, decide_eq_true_iff] at taken
  rcases taken with mine | stale
  · exact other (owner ▸ mine)
  · have later : bindTs (s.now - staleAfter) ≤ bindTs (s.instances j).reached := Int.ediv_le_ediv (by decide) (by omega)
    omega

theorem acquire_of_free {row : Option (LeaseRow ω)} {version : Text} {now : Instant}
    (taken : free row i now staleAfter = true) :
    acquire row i version now staleAfter =
      (.taken ⟨i, version, bindTs now, bindTs now⟩, some ⟨i, version, bindTs now, bindTs now⟩) := if_pos taken

theorem acquire_of_not_free {row : Option (LeaseRow ω)} {version : Text} {now : Instant}
    (refused : free row i now staleAfter = false) : acquire row i version now staleAfter = (.heldBy row, row) :=
  if_neg (by rw [refused]; exact nofun)

theorem owns_renew {row : Option (LeaseRow ω)} {reached : Instant} (now : Instant) (owns : Owns row i reached) :
    (renew row i now).1 = true ∧ Owns (renew row i now).2 i now := by
  obtain ⟨held, rfl, owner, _⟩ := owns
  rw [renew, if_pos owner]
  exact ⟨rfl, _, rfl, owner, Int.le_refl _⟩

theorem owns_release {row : Option (LeaseRow ω)} {reached : Instant} (owns : Owns row j reached) (other : j ≠ i) :
    Owns (release row i) j reached := by
  obtain ⟨held, rfl, owner, stamped⟩ := owns
  refine ⟨held, ?_, owner, stamped⟩
  rw [release, Option.filter_some, if_pos (by simpa [owner] using other)]

/-! ### The steps -/

/-- An attempt that writes the row, of an instance no other holds the lease beside. -/
theorem Sound.taken (sound : Sound s) (prompt : Prompt staleAfter s)
    (wrote : free s.row i s.now staleAfter = true) {self : Instance ω}
    (live : self.held = true → self.phase = .guarding)
    (alone : self.held = true → ∀ j, j ≠ i → (s.instances j).held = false)
    (reached : self.reached = s.now)
    (runs : self.running = true → self.held = true) :
    Sound ({ s with row := (acquire s.row i (s.instances i).version s.now staleAfter).2 }.set i self) := by
  rw [acquire_of_free wrote]
  refine sound.set (fun j other holds => absurd holds (sound.not_holds_of_free prompt wrote other)) ?_
    (fun held => .inl (live held)) alone runs
  rintro - -
  exact ⟨_, rfl, rfl, by rw [reached]⟩

/-- Of the others that report the lease as held, none holds it and none has given it up. -/
theorem Sound.alone_of_handed (sound : Sound s) (prompt : Prompt staleAfter s)
    (wrote : free s.row i s.now staleAfter = true)
    (handed : ∀ j, j ≠ i → (s.instances j).phase = .givenUp → (s.instances j).held = false) (other : j ≠ i) :
    (s.instances j).held = false := by
  by_contra also
  have held : (s.instances j).held = true := by simpa using also
  rcases sound.live j held with guarding | given
  · exact sound.not_holds_of_free prompt wrote other ⟨guarding, held⟩
  · rw [handed j other given] at held
    cases held

theorem Sound.attempt (sound : Sound s) (prompt : Prompt staleAfter s) {fate : Fate} {last : Bool}
    (handed : Handed staleAfter s (.attempt i fate last)) (waiting : (s.instances i).phase = .waiting) :
    Sound (s.attempt staleAfter i fate last) := by
  have unheld : (s.instances i).held = false := by
    by_contra also
    rcases sound.live i (by simpa using also) with guarding | given
    · rw [waiting] at guarding
      cases guarding
    · rw [waiting] at given
      cases given
  have idle : (s.instances i).running = false := by
    by_contra also
    rw [sound.runs i (by simpa using also)] at unheld
    cases unheld
  have refused : ∀ phase, Sound (s.set i { s.instances i with phase }) := by
    intro phase
    refine sound.set_self (fun _ held => ?_) (fun held => ?_) (fun held => held) (fun running => ?_)
    · rw [unheld] at held; cases held
    · rw [unheld] at held; cases held
    · rw [idle] at running; cases running
  unfold System.attempt
  dsimp only
  cases wrote : free s.row i s.now staleAfter with
  | true =>
      cases fate with
      | refused => exact refused _
      | lost =>
          refine sound.taken prompt wrote (fun held => ?_) (fun held => ?_) rfl fun running => ?_
          · rw [unheld] at held; cases held
          · rw [unheld] at held; cases held
          · rw [idle] at running; cases running
      | served =>
          have alone : ∀ j, j ≠ i → (s.instances j).held = false := fun j other =>
            sound.alone_of_handed prompt wrote (handed i (by simp [Act.granted, wrote])) other
          have taken : Sound ({ s with row := (acquire s.row i (s.instances i).version s.now staleAfter).2 }.set i
              { s.instances i with phase := .guarding, held := true, reached := s.now }) :=
            sound.taken prompt wrote (fun _ => rfl) (fun _ => alone) rfl fun _ => rfl
          rw [acquire_of_free wrote] at taken ⊢
          exact taken
  | false =>
      rw [acquire_of_not_free wrote]
      cases fate with
      | refused => exact refused _
      | lost => exact refused _
      | served => exact refused _

theorem Sound.renewal (sound : Sound s) (prompt : Prompt staleAfter s) {fate : Fate}
    (handed : Handed staleAfter s (.renewal i fate)) (guarding : (s.instances i).phase = .guarding) :
    Sound (s.renewal staleAfter i fate) := by
  unfold System.renewal
  dsimp only
  by_cases held : (s.instances i).held = true
  · rw [if_pos held]
    obtain ⟨mine, owned⟩ := owns_renew s.now (sound.owns i ⟨guarding, held⟩)
    have renewed : ∀ self : Instance ω, self.phase = .guarding → self.held = true → self.reached = s.now →
        Sound ({ s with row := (renew s.row i s.now).2 }.set i self) := by
      intro self guards flag stamped
      refine sound.set (fun j other holds => ?_) (fun _ _ => stamped ▸ owned) (fun _ => .inl guards)
        (fun _ _ other => sound.alone held other) fun _ => flag
      exact absurd (sound.one j i holds.2 held) other
    rw [mine]
    cases fate with
    | refused => exact sound
    | lost => exact renewed _ guarding held rfl
    | served => exact renewed _ guarding rfl rfl
  · rw [if_neg held]
    have idle : (s.instances i).running ≠ true := fun running => held (sound.runs i running)
    cases wrote : free s.row i s.now staleAfter with
    | true =>
        cases fate with
        | refused => exact sound
        | lost =>
            exact sound.taken prompt wrote (fun flag => absurd flag held) (fun flag => absurd flag held) rfl
              fun running => absurd running idle
        | served =>
            have alone : ∀ j, j ≠ i → (s.instances j).held = false := fun j other =>
              sound.alone_of_handed prompt wrote (handed i (by simp [Act.granted, wrote, held])) other
            exact sound.taken prompt wrote (fun _ => guarding) (fun _ => alone) rfl fun _ => rfl
    | false =>
        rw [acquire_of_not_free wrote]
        cases fate with
        | refused => exact sound
        | lost =>
            exact sound.set_self (fun _ flag => absurd flag held) (fun flag => absurd flag held)
              (fun flag => flag) fun running => absurd running idle
        | served =>
            exact sound.set_self (fun _ flag => nomatch flag) (fun flag => nomatch flag)
              (fun flag => nomatch flag) fun running => absurd running idle

theorem Sound.giveBack (sound : Sound s) {fate : Fate} : Sound (s.giveBack i fate) := by
  refine sound.set (fun j other holds => ?_) (fun given => nomatch given) (fun _ => .inr rfl)
    (fun held _ other => sound.alone held other) (sound.runs i)
  split
  · exact sound.owns j holds
  · exact owns_release (sound.owns j holds) other

theorem Sound.step (sound : Sound s) (prompt : Prompt staleAfter s) (handed : Handed staleAfter s act)
    (taken : step staleAfter s act = some t) : Sound t := by
  cases act with
  | pass time =>
      cases taken
      exact ⟨sound.owns, sound.live, sound.one, sound.runs⟩
  | attempt i fate last =>
      rw [Lease.step, Option.ite_none_right_eq_some] at taken
      obtain ⟨waiting, same⟩ := taken
      cases same
      exact sound.attempt prompt handed waiting
  | renewal i fate =>
      rw [Lease.step, Option.ite_none_right_eq_some] at taken
      obtain ⟨guarding, same⟩ := taken
      cases same
      exact sound.renewal prompt handed guarding
  | release i fate =>
      rw [Lease.step, Option.ite_none_right_eq_some] at taken
      obtain ⟨_, same⟩ := taken
      cases same
      exact sound.giveBack
  | drop i =>
      rw [Lease.step, Option.ite_none_right_eq_some] at taken
      obtain ⟨_, same⟩ := taken
      cases same
      exact sound.set_self (fun given => nomatch given) (fun _ => .inr rfl) (fun held => held) (sound.runs i)
  | exit i =>
      cases taken
      exact sound.set_self (fun given => nomatch given) (fun held => nomatch held) (fun held => nomatch held)
        fun running => nomatch running
  | beginRun i =>
      rw [Lease.step, Option.ite_none_right_eq_some] at taken
      obtain ⟨held, same⟩ := taken
      cases same
      exact sound.set_self (fun guarding held => sound.owns i ⟨guarding, held⟩) (sound.live i) (fun held => held)
        fun _ => held
  | endRun i =>
      cases taken
      exact sound.set_self (fun guarding held => sound.owns i ⟨guarding, held⟩) (sound.live i) (fun held => held)
        fun running => nomatch running

/-! ### Runs -/

section Runs

/-- One instance at most reports the lease as held, and one at most runs what only a holder may. -/
def System.OneHolder (s : System ω) : Prop :=
  (∀ i j, (s.instances i).held = true → (s.instances j).held = true → i = j) ∧
    ∀ i j, (s.instances i).running = true → (s.instances j).running = true → i = j

/-- Where no holder's renewals are late, and the lease is granted only once the process of an instance that
gave it up has ended, one instance at most holds it and runs what its holder may. -/
theorem one_holder_of_handed (staleAfter : Nat) (now : Instant) (row : Option (LeaseRow ω)) (versions : ω → Text)
    (acts : List (Act ω)) (s : System ω)
    (run : Run (step staleAfter) (fun u act _ => Prompt staleAfter u ∧ Handed staleAfter u act)
      (begin_ now row versions) acts s) : s.OneHolder := by
  have sound : Sound s := run.invariant Sound sound_begin fun u act v sound taken met =>
    sound.step met.1 met.2 taken
  exact ⟨sound.one, fun i j one two => sound.one i j (sound.runs i one) (sound.runs j two)⟩

end Runs

/-! ### The orderly hand-over -/

section Example

/-- The default of `lease_stale_after`, thirty seconds. -/
def stale : Nat := 30000000000

/-- The lease is given back and taken by a successor, and the process that gave it back goes on to a cleanup
run before it ends. -/
def handOver : List (Act Bool) :=
  [.attempt true .served false, .pass 1000000000, .release true .served, .attempt false .served false,
    .beginRun true, .beginRun false]

/-- The process has ended before its successor takes the lease. -/
def ended : List (Act Bool) :=
  [.attempt true .served false, .pass 1000000000, .release true .served, .exit true,
    .attempt false .served false, .beginRun false]

def vacant : System Bool := begin_ 0 none fun _ => []

instance (u : System Bool) : Decidable (Prompt staleAfter u) :=
  inferInstanceAs (Decidable (∀ i, u.Holds i → u.now < (u.instances i).reached + staleAfter))

instance (u : System Bool) (act : Act Bool) : Decidable (Handed staleAfter u act) :=
  inferInstanceAs (Decidable (∀ i, i ∈ act.granted staleAfter u → ∀ j, j ≠ i →
    (u.instances j).phase = .givenUp → (u.instances j).held = false))

theorem both_run_after_release :
    ∃ u, Run (step stale) (fun u _ _ => Prompt stale u) vacant handOver u ∧ ¬u.OneHolder := by
  obtain ⟨u, run, both⟩ := Run.of_test (step stale) (fun u _ _ => Prompt stale u) vacant handOver
    (fun u => (u.instances true).running && (u.instances false).running) (by decide +kernel)
  obtain ⟨one, two⟩ := Bool.and_eq_true_iff.mp both
  exact ⟨u, run, fun holder => nomatch holder.2 true false one two⟩

theorem one_holder_of_ended :
    ∃ u, Run (step stale) (fun u act _ => Prompt stale u ∧ Handed stale u act)
      vacant ended u ∧ (u.instances false).running = true ∧ u.OneHolder := by
  obtain ⟨u, run, runs⟩ := Run.of_test (step stale)
    (fun u act _ => Prompt stale u ∧ Handed stale u act) vacant ended
    (fun u => (u.instances false).running) (by decide +kernel)
  exact ⟨u, run, runs, one_holder_of_handed _ _ _ _ _ u run⟩

end Example

end OpenCargo.Lease
