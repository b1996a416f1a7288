/-
Module: OpenCargo.S3.Landed
Purpose: Whether a write, or a copy, that says it is done has stored what it was to store, whatever its
  requests meet. A last request that fails or is not answered is decided by the size of what is there,
  which is also the size of what was there before, if that was as long.
Trusted boundary: as S3.Backend
Main exports: Copies, writing_leads, copyChecked_leads, cutToSize_writing
-/
import OpenCargo.S3.Writer

namespace OpenCargo.S3

open OpenCargo.Lib (Script)

/-! ### Patterns -/

/-- How each request goes, which may depend on all that was asked before it. -/
abbrev Pattern := List Op → Op → Luck

def meet (w : World) (op : Op) (pattern : Pattern) : Option (op.Answer × World) :=
  perform w op (pattern w.asked op)

/-- The world a request comes to. -/
def World.after (w : World) (op : Op) (luck : Luck) : World :=
  luck.landing.foldl World.land { w with asked := op :: w.asked }

/-- The late requests keep what is so of the objects. -/
def LateKeeps (P : Objects Bytes → Prop) (w : World) : Prop :=
  ∀ op ∈ w.late, ∀ objects, P objects → P (op.effect objects)

/-- What is so of the objects, and stays so when late requests are carried out. -/
structure Holds (P : Objects Bytes → Prop) (w : World) : Prop where
  now : P w.objects
  late : LateKeeps P w

section Perform

variable {P P' : Objects Bytes → Prop} {w w' : World} {op : Op} {luck : Luck} {answer : op.Answer}

theorem LateKeeps.land {i : Nat} (late : LateKeeps P w) : LateKeeps P (w.land i) := by
  rw [World.land]
  cases w.late[i]? with
  | none => exact late
  | some op => exact fun other mem => late other (List.mem_of_mem_eraseIdx mem)

theorem Holds.land {i : Nat} (holds : Holds P w) : Holds P (w.land i) := by
  refine ⟨?_, holds.late.land⟩
  rw [World.land]
  cases found : w.late[i]? with
  | none => exact holds.now
  | some op => exact holds.late op (List.mem_of_getElem? found) _ holds.now

theorem LateKeeps.after (late : LateKeeps P w) : LateKeeps P (w.after op luck) := by
  have every : ∀ (landing : List Nat) (w : World), LateKeeps P w → LateKeeps P (landing.foldl World.land w) := by
    intro landing
    induction landing with
    | nil => exact fun _ late => late
    | cons i landing ih => exact fun w late => ih _ late.land
  exact every _ _ late

theorem Holds.after (holds : Holds P w) : Holds P (w.after op luck) := by
  have every : ∀ (landing : List Nat) (w : World), Holds P w → Holds P (landing.foldl World.land w) := by
    intro landing
    induction landing with
    | nil => exact fun _ holds => holds
    | cons i landing ih => exact fun w holds => ih _ holds.land
  exact every _ _ ⟨holds.now, holds.late⟩

theorem asked_land {i : Nat} : (w.land i).asked = w.asked := by
  rw [World.land]
  cases w.late[i]? <;> rfl

theorem asked_after : (w.after op luck).asked = op :: w.asked := by
  have every : ∀ (landing : List Nat) (w : World), (landing.foldl World.land w).asked = w.asked := by
    intro landing
    induction landing with
    | nil => exact fun _ => rfl
    | cons i landing ih => exact fun w => (ih _).trans asked_land
  exact every _ _

/-- A request is carried out and answered, or it fails, and was carried out, was not, or is late. -/
theorem perform_cases (performed : perform w op luck = some (answer, w')) :
    w' = (w.after op luck).carryOut op ∧ answer = (w.after op luck).answer op ∨
      (∃ fails fault, op.failing = some fails ∧ answer = fails fault) ∧
        (w' = w.after op luck ∨ w' = (w.after op luck).carryOut op ∨
          w' = { w.after op luck with late := op :: (w.after op luck).late }) := by
  rw [perform] at performed
  split at performed
  · rename_i fault fails fate failing
    cases performed
    exact .inr ⟨⟨_, _, failing, rfl⟩, .inl rfl⟩
  · rename_i fault fails fate failing
    cases performed
    exact .inr ⟨⟨_, _, failing, rfl⟩, .inr (.inl rfl)⟩
  · rename_i fails fate failing
    cases performed
    exact .inr ⟨⟨_, _, failing, rfl⟩, .inr (.inr rfl)⟩
  · cases performed
    exact .inl ⟨rfl, rfl⟩

theorem LateKeeps.perform (late : LateKeeps P w) (keeps : ∀ objects, P objects → P (op.effect objects))
    (performed : perform w op luck = some (answer, w')) : LateKeeps P w' := by
  have before : LateKeeps P (w.after op luck) := late.after
  rcases perform_cases performed with ⟨rfl, _⟩ | ⟨_, rfl | rfl | rfl⟩
  · exact before
  · exact before
  · exact before
  · intro other mem
    rcases List.mem_cons.mp mem with rfl | old
    · exact keeps
    · exact before other old

theorem Holds.perform (holds : Holds P w) (keeps : ∀ objects, P objects → P (op.effect objects))
    (performed : perform w op luck = some (answer, w')) : Holds P w' := by
  refine ⟨?_, holds.late.perform keeps performed⟩
  have before : P (w.after op luck).objects := holds.after.now
  rcases perform_cases performed with ⟨rfl, _⟩ | ⟨_, rfl | rfl | rfl⟩
  · exact keeps _ before
  · exact before
  · exact keeps _ before
  · exact before

theorem perform_isSome (w : World) (op : Op) (luck : Luck) : ∃ done, perform w op luck = some done := by
  rw [S3.perform]
  split
  all_goals exact ⟨_, rfl⟩

theorem asked_perform (performed : perform w op luck = some (answer, w')) : w'.asked = op :: w.asked := by
  rcases perform_cases performed with ⟨rfl, _⟩ | ⟨_, rfl | rfl | rfl⟩
  all_goals exact asked_after

end Perform

/-! ### What a request's answer tells -/

section Answers

variable {P P' : Objects Bytes → Prop} {w w' : World} {luck : Luck} {key : Text}

theorem size_of_head {size : Nat}
    (performed : perform w (.head key) luck = some ((.ok size : Except Fault Nat), w')) :
    w'.size key = some size := by
  rcases perform_cases performed with ⟨rfl, told⟩ | ⟨⟨fails, fault, failing, told⟩, _⟩
  · change Except.ok size = Option.elim _ (Except.error Fault.notFound) Except.ok at told
    change (w.after (.head key) luck).size key = some size
    cases there : (w.after (.head key) luck).size key with
    | none => rw [there] at told; cases told
    | some n => rw [there] at told; cases told; rfl
  · cases failing
    cases told

variable (P') in
theorem done_of_ok {op : Op} {answer : op.Answer} (holds : Holds P w)
    (leads : ∀ objects, P objects → P' (op.effect objects))
    (succeeds : ∀ fails fault, op.failing = some fails → answer ≠ fails fault)
    (performed : perform w op luck = some (answer, w')) : P' w'.objects := by
  rcases perform_cases performed with ⟨rfl, _⟩ | ⟨⟨fails, fault, failing, told⟩, _⟩
  · exact leads _ holds.after.now
  · exact absurd told (succeeds fails fault failing)

end Answers

/-! ### The last request, and its decision -/

section Decision

variable {P P' : Objects Bytes → Prop} {pattern : Pattern} {key : Text} {written : Nat}

theorem statPath_leads {I : World → Prop}
    (keeps : ∀ w luck answer w', I w → perform w (.head key) luck = some (answer, w') → I w') :
    (statPath key).Leads meet pattern I
      fun found w => I w ∧ ∀ size, found = .ok (some size) → w.size key = some size := by
  have ask : (Script.ask (Op.head key) : Does (Except Fault Nat)).Leads meet pattern I
      (fun answer w => I w ∧ ∀ size, answer = .ok size → w.size key = some size) := by
    refine Script.Leads.ask fun w answer w' pre performed => ⟨keeps _ _ _ _ pre performed, ?_⟩
    intro size told
    subst told
    exact size_of_head performed
  refine ask.bind fun answer => ?_
  match answer with
  | .ok size =>
      refine Script.Leads.pure fun w post => ⟨post.1, fun n told => ?_⟩
      cases told
      exact post.2 _ rfl
  | .error .notFound => exact Script.Leads.pure fun w post => ⟨post.1, fun n told => nomatch told⟩
  | .error .failed => exact Script.Leads.pure fun w post => ⟨post.1, fun n told => nomatch told⟩
  | .error .elapsed => exact Script.Leads.pure fun w post => ⟨post.1, fun n told => nomatch told⟩

theorem stat_keeps (w : World) (luck : Luck) (answer : Except Fault Nat) (w' : World)
    (pre : Holds P w ∧ LateKeeps P' w)
    (performed : perform w (.head key) luck = some (answer, w')) : Holds P w' ∧ LateKeeps P' w' :=
  ⟨pre.1.perform (by exact fun _ same => same) performed, pre.2.perform (by exact fun _ same => same) performed⟩

/-- Where what is there is told from what is to be there by its size, the decision is right. -/
theorem decide_leads {landed : Except Fault Unit}
    (told : ∀ objects, P objects → (objects.get key).map List.length = some written → P' objects) :
    (decide key written landed).Leads meet pattern
      (fun w => Holds P w ∧ LateKeeps P' w ∧ (landed = .ok () → P' w.objects))
      (fun decided w => decided = .ok () → Holds P' w) := by
  cases landed with
  | ok _ => exact Script.Leads.pure fun w pre _ => ⟨pre.2.2 rfl, pre.2.1⟩
  | error fault =>
      refine Script.Leads.bind ((statPath_leads stat_keeps).weaken (fun w pre => ⟨pre.1, pre.2.1⟩)
        fun _ _ post => post) fun found => ?_
      match found with
      | .error e => exact Script.Leads.pure fun w post ok => nomatch ok
      | .ok none => exact Script.Leads.pure fun w post ok => nomatch ok
      | .ok (some size) =>
          refine Script.Leads.pure fun w post ok => ?_
          have same : size = written := by
            by_contra other
            rw [if_neg other] at ok
            cases ok
          exact ⟨told _ post.1.1.now (same ▸ post.2 size rfl), post.1.2⟩

theorem leads_ask {op : Op} (same : ∀ objects, op.effect objects = objects) :
    (Script.ask op).Leads meet pattern (Holds P) fun _ => Holds P :=
  Script.Leads.ask fun _ _ _ pre performed => pre.perform (fun _ holds => (same _).symm ▸ holds) performed

end Decision

/-! ### A writer's run -/

/-- Something else as long as the content is at the key. -/
def Mistakable (objects : Objects Bytes) (key : Text) (content : Bytes) : Prop :=
  ∃ old, objects.get key = some old ∧ old ≠ content ∧ old.length = content.length

/-- Every upload that is completed is cut to size, up to its last part. -/
def CutToSize (partSize : Nat) (w : World) : Prop :=
  ∀ key upload parts, .completeMultipart key upload parts ∈ w.asked →
    ∀ part ∈ parts.dropLast, part.length = partSize

/-- However its requests go, a write that says it is done has stored what it was given. -/
def Stores (partSize : Nat) (goesOn : Bool) (key : Text) (uses : List Use) (start : World) : Prop :=
  ∀ pattern n after, (writing partSize goesOn key uses).alone meet pattern start = some (.ok n, after) →
    after.objects.get key = some (Use.content uses) ∧ n = (Use.content uses).length

/-- However its requests go, a copy that says it is done has stored what its source holds. -/
def Copies (budget : Nat) (source target : Text) (start : World) : Prop :=
  ∀ pattern after, (copyChecked budget source target).alone meet pattern start = some (.ok (), after) →
    ∃ body, start.objects.get source = some body ∧ after.objects.get target = some body

section Commit

variable {pattern : Pattern} {partSize : Nat} {w : Writer} {key : Text} {content : Bytes}
  {objects : Objects Bytes} {α : Type}

/-- Nothing is late that would change an object, and the objects are as they were. -/
def Calm (objects : Objects Bytes) (now : World) : Prop :=
  now.objects = objects ∧ ∀ op ∈ now.late, ∀ objects, op.effect objects = objects

theorem Calm.holds {now : World} {P : Objects Bytes → Prop} (calm : Calm objects now) (so : P objects) :
    Holds P now := by
  refine ⟨?_, fun op mem objects holds => ?_⟩
  · rw [calm.1]
    exact so
  · rw [calm.2 op mem]
    exact holds

theorem Calm.lateKeeps {now : World} {P : Objects Bytes → Prop} (calm : Calm objects now) : LateKeeps P now := by
  intro op mem objects holds
  rw [calm.2 op mem]
  exact holds

theorem effect_uploads {op : Op} (uploads : op.uploads) : op.effect objects = objects := by
  cases op with
  | put k body => exact uploads.elim
  | completeMultipart k upload parts => exact uploads.elim
  | copy source target found => exact uploads.elim
  | delete keys => exact uploads.elim
  | _ => rfl

theorem Calm.land {now : World} {i : Nat} (calm : Calm objects now) : Calm objects (now.land i) := by
  rw [World.land]
  cases found : now.late[i]? with
  | none => exact calm
  | some op =>
      refine ⟨?_, fun other mem => calm.2 other (List.mem_of_mem_eraseIdx mem)⟩
      exact (calm.2 op (List.mem_of_getElem? found) _).trans calm.1

theorem Calm.perform {now next : World} {op : Op} {luck : Luck} {answer : op.Answer} (calm : Calm objects now)
    (same : ∀ objects, op.effect objects = objects)
    (performed : perform now op luck = some (answer, next)) : Calm objects next := by
  have every : ∀ (landing : List Nat) (now : World), Calm objects now →
      Calm objects (landing.foldl World.land now) := by
    intro landing
    induction landing with
    | nil => exact fun _ calm => calm
    | cons i landing ih => exact fun now calm => ih _ calm.land
  have before : Calm objects (now.after op luck) := every _ _ calm
  rcases perform_cases performed with ⟨rfl, _⟩ | ⟨_, rfl | rfl | rfl⟩
  · exact ⟨(same _).trans before.1, before.2⟩
  · exact before
  · exact ⟨(same _).trans before.1, before.2⟩
  · refine ⟨before.1, fun other mem => ?_⟩
    rcases List.mem_cons.mp mem with rfl | old
    · exact same
    · exact before.2 other old

/-- What a script that only asks about uploads ends with, and that no object changes. -/
theorem leads_of_ends {m : Does α} {Q : α → Prop} (ends : m.Ends Op.uploads Op.Answered Q) :
    m.Leads meet pattern (Calm objects) fun a now => Q a ∧ Calm objects now :=
  Script.Leads.of_ends ends fun now _ _ next calm uploads performed =>
    ⟨⟨now, _, next, performed⟩, calm.perform (fun _ => effect_uploads uploads) performed⟩

variable (key content) in
/-- The last request of a write, whose effect is that the content is at the key, and what follows it. -/
theorem last_leads {op : Op} {m : op.Answer → Does α} {Q : α → World → Prop}
    (writes : ∀ objects, op.effect objects = objects.put key content)
    (rest : ∀ answer, (m answer).Leads meet pattern
      (fun now => Holds (fun after => after.get key = some content ∨ after.get key = objects.get key) now ∧
        LateKeeps (fun after => after.get key = some content) now ∧
        ((∀ fails fault, op.failing = some fails → answer ≠ fails fault) →
          now.objects.get key = some content)) Q) :
    (Script.ask op >>= m).Leads meet pattern (Calm objects) Q := by
  refine Script.Leads.bind (Script.Leads.ask fun now answer next calm performed => ?_) rest
  have written : ∀ objects : Objects Bytes, (op.effect objects).get key = some content := by
    intro objects
    rw [writes, Objects.get_put_self]
  have holds : Holds (fun after => after.get key = some content ∨ after.get key = objects.get key) now :=
    calm.holds (.inr rfl)
  have late : LateKeeps (fun after => after.get key = some content) now := calm.lateKeeps
  refine ⟨holds.perform (fun objects _ => .inl (written objects)) performed,
    late.perform (fun objects _ => written objects) performed, fun succeeds => ?_⟩
  exact done_of_ok (fun after => after.get key = some content) holds (fun objects _ => written objects)
    succeeds performed

theorem told_of_clear (clear : ¬Mistakable objects key content) (after : Objects Bytes)
    (either : after.get key = some content ∨ after.get key = objects.get key)
    (sized : (after.get key).map List.length = some content.length) : after.get key = some content := by
  rcases either with done | before
  · exact done
  · obtain ⟨old, there, long⟩ := Option.map_eq_some_iff.mp sized
    by_contra other
    refine clear ⟨old, before ▸ there, fun same => ?_, long⟩
    rw [same] at there
    exact other there

theorem commit_leads (cut : w.Cut partSize key) (whole : w.Whole content)
    (clear : ¬Mistakable objects key content) :
    (w.commit).Leads meet pattern (Calm objects) fun result now =>
      ∀ n, result = .ok n → now.objects.get key = some content ∧ n = content.length := by
  -- what is told of the decision, and the accesses after it
  have decided : ∀ k, k = key → ∀ landed : Except Fault Unit, (decide k w.written landed).Leads meet pattern
      (fun now => Holds (fun after => after.get key = some content ∨ after.get key = objects.get key) now ∧
        LateKeeps (fun after => after.get key = some content) now ∧
        (landed = .ok () → now.objects.get key = some content))
      (fun decided now => decided = .ok () → Holds (fun after => after.get key = some content) now) := by
    rintro _ rfl landed
    refine decide_leads fun after either sized => told_of_clear clear after either ?_
    rw [sized, whole.counted]
  have succeeds : ∀ landed : Except Fault Unit, landed = .ok () → ∀ fails fault,
      (some .error : Option (Fault → Except Fault Unit)) = some fails → landed ≠ fails fault := by
    rintro _ rfl fails fault same
    cases same
    exact fun contradiction => by cases contradiction
  have accessed : ∀ op : Op, (∀ objects, op.effect objects = objects) →
      (Script.ask op).Leads meet pattern (Holds fun after => after.get key = some content)
        fun _ => Holds fun after => after.get key = some content := fun _ same => leads_ask same
  have answered : (return .ok w.written : Does (Except StorageError Nat)).Leads meet pattern
      (Holds fun after => after.get key = some content) fun result now =>
        ∀ n, result = .ok n → now.objects.get key = some content ∧ n = content.length := by
    refine Script.Leads.pure fun now holds n ok => ?_
    cases ok
    exact ⟨holds.now, whole.counted⟩
  rw [Writer.commit]
  cases opened : w.upload with
  | none =>
      have buffered : w.buf = content := by simpa [Writer.parts, opened] using whole.whole
      refine last_leads key content (fun objects => ?_) fun landed => ?_
      · rw [Op.effect, cut.named, buffered]
      · refine Script.Leads.bind ((decided _ cut.named landed).weaken (fun now pre =>
          ⟨pre.1, pre.2.1, fun ok => pre.2.2 (succeeds landed ok)⟩) fun _ _ post => post) fun done => ?_
        cases done with
        | error e => exact Script.Leads.pure fun _ _ n ok => absurd ok (by simp)
        | ok _ =>
            refine Script.Leads.bind ((accessed (.remember w.key w.written) fun _ => rfl).weaken
              (fun _ post => post rfl) fun _ _ post => post) fun _ => answered
  | some up =>
      refine Script.Leads.bind (leads_of_ends (putRest_ends cut opened)) fun left => ?_
      obtain ⟨result, w'⟩ := left
      refine Script.Leads.assuming fun leaves => ?_
      cases result with
      | error e => exact Script.Leads.pure fun _ _ n ok => absurd ok (by simp)
      | ok _ =>
          have assembled : w.Assembled partSize up w' := leaves
          have named : w'.key = key := assembled.named.trans cut.named
          refine last_leads key content (fun objects => ?_) fun landed => ?_
          · rw [Op.effect, named, assembled.whole content whole]
          · rw [assembled.counted]
            refine Script.Leads.bind ((decided _ named landed).weaken (fun now pre =>
              ⟨pre.1, pre.2.1, fun ok => pre.2.2 (succeeds landed ok)⟩) fun _ _ post => post) fun done => ?_
            cases done with
            | error e => exact Script.Leads.pure fun _ _ n ok => absurd ok (by simp)
            | ok _ =>
                refine Script.Leads.bind ((accessed (.closed _) fun _ => rfl).weaken
                  (fun _ post => post rfl) fun _ _ post => post) fun _ => ?_
                exact Script.Leads.bind (accessed (.remember w'.key w.written) fun _ => rfl) fun _ => answered

/-- A write whose owner stops at an error, or has no part to lose, that nothing can be mistaken for. -/
theorem writing_leads {goesOn : Bool} {uses : List Use}
    (clear : ¬Mistakable objects key (Use.content uses))
    (goes : goesOn = true → drains partSize false 0 uses = false) :
    (writing partSize goesOn key uses).Leads meet pattern (Calm objects) fun result now =>
      ∀ n, result = .ok n → now.objects.get key = some (Use.content uses) ∧ n = (Use.content uses).length := by
  have ends : ((Writer.new key).uses partSize goesOn uses).Ends Op.uploads Op.Answered fun left =>
      left.1 = .ok () → left.2.Cut partSize key ∧ left.2.Whole (Use.content uses) := by
    cases goesOn with
    | false =>
        have all : ((Writer.new key).uses partSize false uses).Ends Op.uploads Op.Answered _ :=
          uses_ends Writer.new_cut
        refine Script.Ends.weaken all (fun _ _ answered => answered) ?_
        intro left leaves ok
        obtain ⟨result, w⟩ := left
        obtain rfl : result = .ok () := ok
        have grown : Grown partSize key (Use.content uses) (Writer.new key) w := leaves
        exact ⟨grown.1, grown.2 [] Writer.new_whole⟩
    | true =>
        have fresh : (Writer.new key).Buffered key [] false :=
          ⟨rfl, rfl, rfl, rfl, fun some_ => absurd rfl some_⟩
        refine Script.Ends.weaken (uses_buffered fresh (goes rfl)) (fun _ _ answered => answered) ?_
        intro left leaves _
        obtain ⟨_, opened, buffered⟩ := leaves
        exact ⟨buffered.cut, buffered.whole⟩
  refine Script.Leads.bind (leads_of_ends ends) fun left => Script.Leads.assuming fun kept => ?_
  obtain ⟨result, w⟩ := left
  cases result with
  | error e => exact Script.Leads.pure fun _ _ n ok => nomatch ok
  | ok _ => exact commit_leads (kept rfl).1 (kept rfl).2 clear

end Commit

/-! ### The parts of an upload -/

/-- A completion names parts that are cut to size, up to the last. -/
def Op.Sized (partSize : Nat) (op : Op) : Prop :=
  ∀ key upload parts, op = .completeMultipart key upload parts → ∀ part ∈ parts.dropLast, part.length = partSize

section Sized

variable {partSize : Nat} {key : Text} {w : Writer}

theorem sized_of_uploads {op : Op} (uploads : op.uploads) : op.Sized partSize := by
  rintro key upload parts rfl
  exact uploads.elim

theorem sized_statPath {α : Type} {f : Except StorageError (Option Nat) → Does α}
    (rest : ∀ found, (f found).Ends (Op.Sized partSize) Op.Answered fun _ => True) :
    (statPath key >>= f).Ends (Op.Sized partSize) Op.Answered fun _ => True := by
  refine Script.Ends.bind (Q := fun _ => True) ⟨by exact nofun, fun (answer : Except Fault Nat) _ => ?_⟩
    fun found _ => rest found
  match answer with
  | .ok size => exact .pure trivial
  | .error .notFound => exact .pure trivial
  | .error .failed => exact .pure trivial
  | .error .elapsed => exact .pure trivial

theorem sized_decide {written : Nat} {landed : Except Fault Unit} :
    (decide key written landed).Ends (Op.Sized partSize) Op.Answered fun _ => True := by
  cases landed with
  | ok _ => exact .pure trivial
  | error fault =>
      refine sized_statPath fun found => ?_
      match found with
      | .error e => exact .pure trivial
      | .ok (some size) => exact .pure trivial
      | .ok none => exact .pure trivial

theorem sized_commit (cut : w.Cut partSize key) :
    (w.commit).Ends (Op.Sized partSize) Op.Answered fun _ => True := by
  have remember : ∀ k n, (do
      let _ ← (Script.ask (Op.remember k n) : Does Unit)
      return .ok n : Does (Except StorageError Nat)).Ends (Op.Sized partSize) Op.Answered fun _ => True :=
    fun k n => ⟨by exact nofun, fun _ _ => .pure trivial⟩
  rw [Writer.commit]
  cases opened : w.upload with
  | none =>
      refine ⟨by exact nofun, fun (landed : Except Fault Unit) _ => ?_⟩
      refine Script.Ends.bind (m := decide w.key w.written landed) sized_decide fun done _ => ?_
      cases done with
      | error e => exact .pure trivial
      | ok _ => exact remember _ _
  | some up =>
      refine Leaves.bind ((putRest_ends cut opened).asking fun op => sized_of_uploads)
        (fun _ _ _ => .pure trivial) fun w' assembled => ?_
      refine ⟨?_, fun (landed : Except Fault Unit) _ => ?_⟩
      · rintro k upload parts same
        cases same
        exact assembled.sized
      · refine Script.Ends.bind (m := decide w'.key w'.written landed) sized_decide fun done _ => ?_
        cases done with
        | error e => exact .pure trivial
        | ok _ => exact ⟨by exact nofun, fun _ _ => remember _ _⟩

/-- Whatever its requests meet, a writer completes an upload of parts that are cut to size. -/
theorem cutToSize_writing {goesOn : Bool} {uses : List Use} {pattern : Pattern} {start after : World}
    {result : Except StorageError Nat} (nothing : start.asked = [])
    (ran : (writing partSize goesOn key uses).alone meet pattern start = some (result, after)) :
    CutToSize partSize after := by
  have ends : (writing partSize goesOn key uses).Ends (Op.Sized partSize) Op.Answered fun _ => True := by
    refine Script.Ends.bind ((uses_cut Writer.new_cut).asking fun op => sized_of_uploads) fun left kept => ?_
    obtain ⟨result, w⟩ := left
    cases result with
    | error e => exact .pure trivial
    | ok _ => exact sized_commit kept
  refine (ends.alone (I := CutToSize partSize) (fun now op answer next inv sized performed => ?_) ?_ ran).2
  · refine ⟨⟨now, _, next, performed⟩, fun k upload parts mem => ?_⟩
    rw [asked_perform performed] at mem
    rcases List.mem_cons.mp mem with new | old
    · exact sized k upload parts new.symm
    · exact inv k upload parts old
  · intro k upload parts mem
    rw [nothing] at mem
    cases mem

end Sized

/-! ### A copy -/

section Copy

variable {pattern : Pattern} {objects : Objects Bytes} {source target : Text} {body : Bytes}

theorem source_of_copied {after : Objects Bytes} {found : Nat} (held : after.get source = some body) :
    ((Op.copy source target found).effect after).get source = some body ∧
      ((Op.copy source target found).effect after).get target = some body := by
  rw [Op.effect, held]
  refine ⟨?_, Objects.get_put_self⟩
  by_cases same : source = target
  · rw [same]
    exact Objects.get_put_self
  · change (after.put target body).get source = some body
    rw [Objects.get_put_ne same, held]

theorem copyCheck_leads {P : Objects Bytes → Prop} (P' : Objects Bytes → Prop) {found : Nat}
    (told : ∀ objects, P objects → (objects.get target).map List.length = some found → P' objects) :
    (copyCheck target found).Leads meet pattern (fun now => Holds P now ∧ LateKeeps P' now)
      fun result now => result = .ok () → Holds P' now := by
  refine Script.Leads.bind (statPath_leads stat_keeps) fun answer => ?_
  match answer with
  | .error e => exact Script.Leads.pure fun w post ok => nomatch ok
  | .ok none => exact Script.Leads.pure fun w post ok => nomatch ok
  | .ok (some size) =>
      dsimp only
      split
      case isTrue same =>
        have remembered : (Script.ask (Op.remember target size) : Does Unit).Leads meet pattern
            (Holds P') fun _ => Holds P' := leads_ask fun _ => rfl
        refine Script.Leads.bind (remembered.weaken (fun now post => ?_) fun _ _ post => post) fun _ => ?_
        · exact ⟨told _ post.1.1.now (same ▸ post.2 size rfl), post.1.2⟩
        · exact Script.Leads.pure fun now holds _ => holds
      case isFalse => exact Script.Leads.pure fun w post ok => nomatch ok

theorem copyFound_leads (held : objects.get source = some body) (clear : ¬Mistakable objects target body) :
    (copyFound source target body.length).Leads meet pattern (Calm objects) fun result now =>
      result = .ok () → now.objects.get target = some body := by
  have check : (copyCheck target body.length).Leads meet pattern
      (fun now => Holds (fun after => after.get source = some body ∧
          (after.get target = some body ∨ after.get target = objects.get target)) now ∧
        LateKeeps (fun after => after.get source = some body ∧ after.get target = some body) now)
      fun result now => result = .ok () → now.objects.get target = some body := by
    refine (copyCheck_leads (fun after => after.get source = some body ∧ after.get target = some body)
      fun after pre sized => ?_).weaken (fun _ pre => pre) fun _ _ post ok => (post ok).now.2
    exact ⟨pre.1, told_of_clear clear after pre.2 sized⟩
  have ask : (Script.ask (Op.copy source target body.length) : Does (Except Fault Unit)).Leads meet pattern
      (Calm objects) fun _ now => Holds (fun after => after.get source = some body ∧
          (after.get target = some body ∨ after.get target = objects.get target)) now ∧
        LateKeeps (fun after => after.get source = some body ∧ after.get target = some body) now := by
    refine Script.Leads.ask fun now answer next calm performed => ⟨?_, ?_⟩
    · refine Holds.perform (calm.holds ⟨held, .inr rfl⟩) (fun after pre => ?_) performed
      exact ⟨(source_of_copied pre.1).1, .inl (source_of_copied pre.1).2⟩
    · exact LateKeeps.perform calm.lateKeeps (fun after pre => source_of_copied pre.1) performed
  refine ask.bind fun answer => ?_
  match answer with
  | .ok () => exact check
  | .error fault =>
      dsimp only
      split
      · exact check
      · exact Script.Leads.pure fun _ _ ok => nomatch ok

theorem copyChecked_leads {budget : Nat}
    (clear : ∀ body, objects.get source = some body → ¬Mistakable objects target body) :
    (copyChecked budget source target).Leads meet pattern (Calm objects) fun result now =>
      result = .ok () → ∃ body, objects.get source = some body ∧ now.objects.get target = some body := by
  rw [copyChecked]
  cases path budget source with
  | error e => exact Script.Leads.pure fun _ _ ok => nomatch ok
  | ok _ =>
      cases path budget target with
      | error e => exact Script.Leads.pure fun _ _ ok => nomatch ok
      | ok _ =>
          have stat : (statPath source).Leads meet pattern (Calm objects) fun found now =>
              Calm objects now ∧ ∀ size, found = .ok (some size) → now.size source = some size :=
            statPath_leads fun now luck answer next calm performed => calm.perform (fun _ => rfl) performed
          refine stat.bind fun found => ?_
          match found with
          | .error e => exact Script.Leads.pure fun _ _ ok => nomatch ok
          | .ok none => exact Script.Leads.pure fun _ _ ok => nomatch ok
          | .ok (some size) =>
              intro now result final pre ran ok
              have sized := pre.2 size rfl
              rw [World.size, pre.1.1, Option.map_eq_some_iff] at sized
              obtain ⟨body, held, rfl⟩ := sized
              exact ⟨body, held, copyFound_leads held (clear body held) now result final pre.1 ran ok⟩

end Copy

end OpenCargo.S3
