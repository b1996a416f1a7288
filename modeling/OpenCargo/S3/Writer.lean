/-
Module: OpenCargo.S3.Writer
Purpose: What a writer does with the bytes it is given before its `commit`: as long as its calls are
  answered without an error, what it has put into parts and what it still holds are together what it
  was given; and each part is cut to size whatever they are answered.
Trusted boundary: as S3.Backend
Main exports: Writer.Cut, Writer.Whole, uses_ends, drains
-/
import OpenCargo.S3.Backend

namespace OpenCargo.S3

open OpenCargo.Lib (Script)

/-! ### Answers -/

/-- An answer that a request may get, however it goes. -/
def Op.Answered (op : Op) (answer : op.Answer) : Prop :=
  ∃ w luck w', perform w op luck = some (answer, w')

/-- An answer that a request may get when it is served. -/
def Op.Served (op : Op) (answer : op.Answer) : Prop :=
  ∃ w w', perform w op .good = some (answer, w')

theorem Op.Served.answered {op : Op} {answer : op.Answer} (served : op.Served answer) :
    op.Answered answer := by
  obtain ⟨w, w', performed⟩ := served
  exact ⟨w, .good, w', performed⟩

theorem Op.Served.eq_answer {op : Op} {answer : op.Answer} (served : op.Served answer) :
    ∃ w : World, answer = w.answer op := by
  obtain ⟨w, w', performed⟩ := served
  cases performed
  exact ⟨_, rfl⟩

theorem answered_putPart {key : Text} {upload index : Nat} {body part : Bytes}
    (answered : Op.Answered (.putPart key upload index body) (.ok part : Except Fault PartId)) :
    part = body := by
  obtain ⟨w, ⟨landing, fate⟩, w', performed⟩ := answered
  cases fate with
  | served =>
      cases performed
      rfl
  | refused fault => cases performed
  | lost fault => cases performed
  | late => cases performed

/-- The requests about an upload that is not completed by them. -/
def Op.uploads : Op → Prop
  | .createMultipart _ => True
  | .putPart .. => True
  | .abortMultipart .. => True
  | .opened _ => True
  | .closed _ => True
  | _ => False

/-! ### A writer's bytes -/

namespace Writer

def parts (w : Writer) : List PartId := w.upload.elim [] Upload.parts

/-- Every part is cut to size. -/
structure Cut (partSize : Nat) (key : Text) (w : Writer) : Prop where
  named : w.key = key
  sized : ∀ part ∈ w.parts, part.length = partSize

/-- The parts and the buffer are what was written. -/
structure Whole (content : Bytes) (w : Writer) : Prop where
  whole : w.parts.flatten ++ w.buf = content
  counted : w.written = content.length

theorem new_cut {partSize : Nat} {key : Text} : (new key).Cut partSize key := ⟨rfl, fun _ mem => nomatch mem⟩

theorem new_whole {key : Text} : (new key).Whole [] := ⟨rfl, rfl⟩

end Writer

section Ends

variable {partSize : Nat} {key : Text} {w : Writer} {content : Bytes}

/-- What a call may leave: an error, or what it was to leave. -/
def Leaves (failed done : Writer → Prop) (left : Except StorageError Unit × Writer) : Prop :=
  match left with
  | (.ok (), w) => done w
  | (.error _, w) => failed w

section Rules

variable {failed done failed' done' : Writer → Prop} {α : Type} {R : α → Prop} {P : Op → Prop}
  {valid : (op : Op) → op.Answer → Prop} {m : Does (Except StorageError Unit × Writer)}
  {f : Except StorageError Unit × Writer → Does α}

theorem Leaves.bind (first : m.Ends P valid (Leaves failed done))
    (refused : ∀ e w, failed w → (f (.error e, w)).Ends P valid R)
    (rest : ∀ w, done w → (f (.ok (), w)).Ends P valid R) : (m >>= f).Ends P valid R := by
  refine first.bind fun left leaves => ?_
  obtain ⟨result, w⟩ := left
  cases result with
  | error e => exact refused e w leaves
  | ok _ => exact rest w leaves

theorem Leaves.weaken (first : m.Ends P valid (Leaves failed done)) (refused : ∀ w, failed w → failed' w)
    (rest : ∀ w, done w → done' w) : m.Ends P valid (Leaves failed' done') := by
  refine Script.Ends.weaken first (fun _ _ ok => ok) fun left leaves => ?_
  obtain ⟨result, w⟩ := left
  cases result with
  | error e => exact refused w leaves
  | ok _ => exact rest w leaves

theorem Leaves.served (ends : m.Ends P Op.Answered (Leaves failed done))
    (ok : m.Ends P Op.Served (·.1 = .ok ())) :
    m.Ends P Op.Served fun left => left.1 = .ok () ∧ done left.2 := by
  have fewer : m.Ends P Op.Served (Leaves failed done) :=
    ends.weaken (fun _ _ => Op.Served.answered) fun _ leaves => leaves
  refine (ok.and fewer).weaken (fun _ _ served => served) fun left both => ?_
  obtain ⟨result, w⟩ := left
  obtain ⟨rfl, leaves⟩ := both
  exact ⟨rfl, leaves⟩

end Rules

theorem openUpload_ends :
    (w.openUpload).Ends Op.uploads Op.Answered
      (Leaves (· = w) fun w' => ∃ id, w' = { w with upload := some ⟨id, []⟩ }) := by
  refine Script.Ends.ask_bind trivial fun (answer : Except Fault Nat) _ => ?_
  cases answer with
  | error fault => exact .pure rfl
  | ok id =>
      refine Script.Ends.ask_bind trivial fun (recorded : Except Fault Unit) _ => ?_
      cases recorded with
      | ok _ => exact .pure ⟨id, rfl⟩
      | error fault => exact Script.Ends.ask_bind trivial fun _ _ => .pure rfl

theorem putPart_ends {up : Upload} {data : Bytes} :
    (w.putPart up data).Ends Op.uploads Op.Answered
      (Leaves (· = w) (· = { w with upload := some { up with parts := up.parts ++ [data] } })) := by
  refine Script.Ends.ask_bind trivial fun (answer : Except Fault PartId) answered => ?_
  cases answer with
  | error fault => exact .pure rfl
  | ok part =>
      rw [answered_putPart answered]
      exact .pure rfl

/-- After a call the parts are cut to size and, if it did not fail, the writer holds `more` besides. -/
def Grown (partSize : Nat) (key : Text) (more : Bytes) (w w' : Writer) : Prop :=
  w'.Cut partSize key ∧ ∀ content, w.Whole content → w'.Whole (content ++ more)

theorem Writer.Cut.same (cut : w.Cut partSize key) : Grown partSize key [] w w :=
  ⟨cut, fun content whole => by rwa [List.append_nil]⟩

theorem Grown.trans {w' w'' : Writer} {more then_ : Bytes} (first : Grown partSize key more w w')
    (second : Grown partSize key then_ w' w'') : Grown partSize key (more ++ then_) w w'' := by
  refine ⟨second.1, fun content whole => ?_⟩
  rw [← List.append_assoc]
  exact second.2 _ (first.2 _ whole)

theorem Writer.Cut.part {up : Upload} (cut : w.Cut partSize key) (opened : w.upload = some up)
    (full : ¬w.buf.length < partSize) :
    Grown partSize key [] w
      { w with
        buf := w.buf.drop partSize
        upload := some { up with parts := up.parts ++ [w.buf.take partSize] } } := by
  have parts : w.parts = up.parts := by rw [Writer.parts, opened, Option.elim]
  refine ⟨⟨cut.named, fun part mem => ?_⟩, fun content whole => ⟨?_, ?_⟩⟩
  · rcases List.mem_append.mp mem with old | new
    · exact cut.sized part (parts ▸ old)
    · rw [List.mem_singleton.mp new, List.length_take]
      omega
  · change (up.parts ++ [w.buf.take partSize]).flatten ++ w.buf.drop partSize = _
    rw [List.append_nil, ← whole.whole, parts]
    simp
  · rw [List.append_nil]
    exact whole.counted

theorem drain_ends {fuel : Nat} (cut : w.Cut partSize key) :
    (w.drain partSize fuel).Ends Op.uploads Op.Answered
      (Leaves (Writer.Cut partSize key) (Grown partSize key [] w)) := by
  induction fuel generalizing w with
  | zero => exact .pure cut.same
  | succ fuel ih =>
      rw [Writer.drain]
      cases opened : w.upload with
      | none => exact .pure cut.same
      | some up =>
          dsimp only
          split
          case isTrue => exact .pure cut.same
          case isFalse full =>
            refine Leaves.bind putPart_ends (fun e w' left => ?_) fun w' left => ?_
            · cases left
              refine .pure ⟨cut.named, fun part mem => cut.sized part ?_⟩
              rwa [Writer.parts, opened]
            · cases left
              have grown := cut.part opened full
              exact Leaves.weaken (ih grown.1) (fun _ left => left) fun _ => grown.trans

theorem Writer.Cut.opened {id : Nat} (cut : w.Cut partSize key) (closed : w.upload = none) :
    Grown partSize key [] w { w with upload := some ⟨id, []⟩ } := by
  have parts : w.parts = [] := by rw [Writer.parts, closed, Option.elim]
  refine ⟨⟨cut.named, fun part mem => nomatch mem⟩, fun content whole => ⟨?_, ?_⟩⟩
  · rw [List.append_nil, ← whole.whole, parts]
    rfl
  · rw [List.append_nil]
    exact whole.counted

theorem Writer.Cut.buffered {chunk : Bytes} (cut : w.Cut partSize key) :
    Grown partSize key chunk w { w with written := w.written + chunk.length, buf := w.buf ++ chunk } := by
  refine ⟨⟨cut.named, cut.sized⟩, fun content whole => ⟨?_, ?_⟩⟩
  · change w.parts.flatten ++ (w.buf ++ chunk) = _
    rw [← List.append_assoc, whole.whole]
  · change w.written + chunk.length = _
    rw [whole.counted, List.length_append]

theorem openFor_ends {bytes : Nat} (cut : w.Cut partSize key) :
    (w.openFor partSize bytes).Ends Op.uploads Op.Answered
      (Leaves (Writer.Cut partSize key) (Grown partSize key [] w)) := by
  rw [Writer.openFor]
  split
  case isTrue needed =>
    refine Leaves.weaken openUpload_ends (fun w' left => left ▸ cut) fun w' left => ?_
    obtain ⟨id, rfl⟩ := left
    exact cut.opened needed.1
  case isFalse => exact .pure cut.same

theorem use_ends {use : Use} (cut : w.Cut partSize key) :
    (use.run partSize w).Ends Op.uploads Op.Answered
      (Leaves (Writer.Cut partSize key) (Grown partSize key (Use.content [use]) w)) := by
  cases use with
  | reserve next => exact openFor_ends cut
  | write chunk =>
      have grown : Grown partSize key (Use.content [.write chunk]) w
          { w with written := w.written + chunk.length, buf := w.buf ++ chunk } := by
        rw [Use.content, Use.content, List.append_nil]
        exact cut.buffered
      rw [Use.run, Writer.write]
      refine Leaves.bind (openFor_ends grown.1) (fun e w' left => .pure left) fun w' left => ?_
      refine Leaves.weaken (drain_ends left.1) (fun _ left => left) fun w'' drained => ?_
      have all := (grown.trans left).trans drained
      rwa [List.append_nil, List.append_nil] at all

theorem content_cons {use : Use} {uses : List Use} :
    Use.content (use :: uses) = Use.content [use] ++ Use.content uses := by
  cases use with
  | reserve next => rfl
  | write chunk => simp [Use.content]

theorem uses_ends {uses : List Use} (cut : w.Cut partSize key) :
    (w.uses partSize false uses).Ends Op.uploads Op.Answered
      (Leaves (Writer.Cut partSize key) (Grown partSize key (Use.content uses) w)) := by
  induction uses generalizing w with
  | nil => exact .pure cut.same
  | cons use uses ih =>
      rw [Writer.uses]
      refine Leaves.bind (use_ends cut) (fun e w' left => .pure left) fun w' left => ?_
      rw [content_cons]
      exact Leaves.weaken (ih left.1) (fun _ left => left) fun _ => left.trans

/-- Whatever the calls are answered, and whether or not the owner goes on, the parts are cut to size. -/
theorem uses_cut {goesOn : Bool} {uses : List Use} (cut : w.Cut partSize key) :
    (w.uses partSize goesOn uses).Ends Op.uploads Op.Answered (·.2.Cut partSize key) := by
  induction uses generalizing w with
  | nil => exact .pure cut
  | cons use uses ih =>
      rw [Writer.uses]
      refine Leaves.bind (use_ends cut) (fun e w' left => ?_) fun w' left => ih left.1
      dsimp only
      split
      · exact ih left
      · exact .pure left

/-- What is ready to be completed: an upload with all that was written, cut to size up to its last part. -/
structure Writer.Assembled (partSize : Nat) (w : Writer) (up : Upload) (w' : Writer) : Prop where
  named : w'.key = w.key
  counted : w'.written = w.written
  whole : ∀ content, w.Whole content → (w'.upload.getD up).parts.flatten = content
  sized : ∀ part ∈ (w'.upload.getD up).parts.dropLast, part.length = partSize

theorem putRest_ends {up : Upload} (cut : w.Cut partSize key) (opened : w.upload = some up) :
    (w.putRest up).Ends Op.uploads Op.Answered
      (Leaves (fun _ => True) (w.Assembled partSize up)) := by
  have parts : w.parts = up.parts := by rw [Writer.parts, opened, Option.elim]
  rw [Writer.putRest]
  split
  case isTrue =>
    refine Leaves.weaken putPart_ends (fun _ _ => trivial) fun w' left => ?_
    subst left
    refine ⟨rfl, rfl, fun content whole => ?_, fun part mem => ?_⟩
    · rw [← whole.whole, parts]
      simp
    · rw [Option.getD_some, List.dropLast_concat] at mem
      exact cut.sized part (parts ▸ mem)
  case isFalse no =>
    obtain ⟨emptied, _⟩ := not_or.mp no
    refine .pure ⟨rfl, rfl, fun content whole => ?_, fun part mem => ?_⟩
    · rw [opened, Option.getD_some, ← parts, ← whole.whole, not_not.mp emptied, List.append_nil]
    · rw [opened, Option.getD_some, ← parts] at mem
      exact cut.sized part (List.mem_of_mem_dropLast mem)

end Ends

/-! ### A writer that is served -/

section Served

variable {partSize : Nat} {w : Writer}

theorem openUpload_served : (w.openUpload).Ends Op.uploads Op.Served (·.1 = .ok ()) := by
  refine Script.Ends.ask_bind trivial fun (answer : Except Fault Nat) served => ?_
  obtain ⟨now, rfl⟩ := served.eq_answer
  refine Script.Ends.ask_bind trivial fun (recorded : Except Fault Unit) served => ?_
  obtain ⟨now, rfl⟩ := served.eq_answer
  exact .pure rfl

theorem putPart_served {up : Upload} {data : Bytes} :
    (w.putPart up data).Ends Op.uploads Op.Served (·.1 = .ok ()) := by
  refine Script.Ends.ask_bind trivial fun (answer : Except Fault PartId) served => ?_
  obtain ⟨now, rfl⟩ := served.eq_answer
  exact .pure rfl

theorem drain_served {fuel : Nat} : (w.drain partSize fuel).Ends Op.uploads Op.Served (·.1 = .ok ()) := by
  induction fuel generalizing w with
  | zero => exact .pure rfl
  | succ fuel ih =>
      rw [Writer.drain]
      cases w.upload with
      | none => exact .pure rfl
      | some up =>
          dsimp only
          split
          case isTrue => exact .pure rfl
          case isFalse =>
            refine putPart_served.bind fun left done => ?_
            obtain ⟨result, w'⟩ := left
            obtain rfl : result = .ok () := done
            exact ih

theorem openFor_served {bytes : Nat} :
    (w.openFor partSize bytes).Ends Op.uploads Op.Served (·.1 = .ok ()) := by
  rw [Writer.openFor]
  split
  · exact openUpload_served
  · exact .pure rfl

theorem putRest_served {up : Upload} : (w.putRest up).Ends Op.uploads Op.Served (·.1 = .ok ()) := by
  rw [Writer.putRest]
  split
  · exact putPart_served
  · exact .pure rfl

theorem use_served {use : Use} : (use.run partSize w).Ends Op.uploads Op.Served (·.1 = .ok ()) := by
  cases use with
  | reserve next => exact openFor_served
  | write chunk =>
      rw [Use.run, Writer.write]
      refine openFor_served.bind fun left done => ?_
      obtain ⟨result, w'⟩ := left
      obtain rfl : result = .ok () := done
      exact drain_served

/-- What the calls leave that are served, whether or not the owner would go on after an error. -/
theorem uses_served {key : Text} {goesOn : Bool} {uses : List Use} (cut : w.Cut partSize key) :
    (w.uses partSize goesOn uses).Ends Op.uploads Op.Served fun left =>
      left.1 = .ok () ∧ Grown partSize key (Use.content uses) w left.2 := by
  induction uses generalizing w with
  | nil => exact .pure ⟨rfl, cut.same⟩
  | cons use uses ih =>
      rw [Writer.uses]
      refine (Leaves.served (use_ends cut) use_served).bind fun left both => ?_
      obtain ⟨result, w'⟩ := left
      obtain ⟨rfl, left⟩ : result = .ok () ∧ Grown partSize key (Use.content [use]) w w' := both
      rw [content_cons]
      exact (ih left.1).weaken (fun _ _ served => served) fun _ post => ⟨post.1, left.trans post.2⟩

end Served

/-! ### An owner that goes on after an error -/

/-- A `write` among the calls has a part to put: an upload is open by then, and the buffer is as long as a
part. -/
def drains (partSize : Nat) : Bool → Nat → List Use → Bool
  | _, _, [] => false
  | opened, buffered, .reserve next :: uses =>
      drains partSize (opened || partSize < buffered + next) buffered uses
  | opened, buffered, .write chunk :: uses =>
      let opened := opened || partSize < buffered + chunk.length
      opened && partSize ≤ buffered + chunk.length ||
        drains partSize opened (buffered + chunk.length) uses

/-- Everything that was written is in the buffer, and an upload that is open was to be. -/
structure Writer.Buffered (key : Text) (content : Bytes) (opened : Bool) (w : Writer) : Prop where
  named : w.key = key
  buf : w.buf = content
  counted : w.written = content.length
  empty : w.parts = []
  known : w.upload ≠ none → opened = true

section GoesOn

variable {partSize : Nat} {key : Text} {w : Writer} {content : Bytes} {opened : Bool}

theorem Writer.Buffered.cut (buffered : w.Buffered key content opened) : w.Cut partSize key :=
  ⟨buffered.named, fun part mem => by rw [buffered.empty] at mem; cases mem⟩

theorem Writer.Buffered.whole (buffered : w.Buffered key content opened) : w.Whole content :=
  ⟨by rw [buffered.empty, buffered.buf]; rfl, buffered.counted⟩

theorem openFor_buffered {bytes : Nat} (buffered : w.Buffered key content opened) :
    (w.openFor partSize bytes).Ends Op.uploads Op.Answered
      fun left => left.2.Buffered key content (opened || partSize < bytes) := by
  have same : w.Buffered key content (opened || partSize < bytes) :=
    ⟨buffered.named, buffered.buf, buffered.counted, buffered.empty, fun some_ => by
      rw [buffered.known some_, Bool.true_or]⟩
  rw [Writer.openFor]
  split
  case isTrue needed =>
    refine openUpload_ends.weaken (fun _ _ answered => answered) fun left leaves => ?_
    obtain ⟨result, w'⟩ := left
    cases result with
    | error e =>
        cases leaves
        exact same
    | ok _ =>
        obtain ⟨id, rfl⟩ := leaves
        exact ⟨buffered.named, buffered.buf, buffered.counted, rfl, fun _ => by simp [needed.2]⟩
  case isFalse => exact .pure same

theorem drain_idle {fuel : Nat} (short : w.upload ≠ none → w.buf.length < partSize) :
    w.drain partSize fuel = pure (.ok (), w) := by
  cases fuel with
  | zero => rfl
  | succ fuel =>
      rw [Writer.drain]
      cases there : w.upload with
      | none => rfl
      | some up =>
          dsimp only
          rw [if_pos (short (by rw [there]; exact nofun))]

theorem uses_buffered {uses : List Use} (buffered : w.Buffered key content opened)
    (undrained : drains partSize opened content.length uses = false) :
    (w.uses partSize true uses).Ends Op.uploads Op.Answered
      fun left => left.1 = .ok () ∧ ∃ opened, left.2.Buffered key (content ++ Use.content uses) opened := by
  induction uses generalizing w content opened with
  | nil =>
      refine .pure ⟨rfl, opened, ?_⟩
      rw [Use.content, List.append_nil]
      exact buffered
  | cons use uses ih =>
      -- whatever the call answers, the owner goes on with what it left
      have goes : ∀ (content : Bytes) (opened : Bool), drains partSize opened content.length uses = false →
          (use.run partSize w).Ends Op.uploads Op.Answered (fun left => left.2.Buffered key content opened) →
          (w.uses partSize true (use :: uses)).Ends Op.uploads Op.Answered fun left =>
            left.1 = .ok () ∧ ∃ opened, left.2.Buffered key (content ++ Use.content uses) opened := by
        intro content opened undrained one
        rw [Writer.uses]
        refine one.bind fun left kept => ?_
        obtain ⟨result, w'⟩ := left
        cases result with
        | error e => exact ih kept undrained
        | ok _ => exact ih kept undrained
      cases use with
      | reserve next =>
          obtain rfl := buffered.buf
          exact goes w.buf _ undrained (openFor_buffered buffered)
      | write chunk =>
          rw [drains, Bool.or_eq_false_iff, ← List.length_append] at undrained
          have all := goes (content ++ chunk) _ undrained.2 ?_
          · rw [Use.content, ← List.append_assoc]
            exact all
          have grown : Writer.Buffered key (content ++ chunk) opened
              { w with written := w.written + chunk.length, buf := w.buf ++ chunk } :=
            ⟨buffered.named, by rw [buffered.buf], by rw [buffered.counted, List.length_append],
              buffered.empty, buffered.known⟩
          rw [Use.run, Writer.write]
          refine (openFor_buffered grown).bind fun left kept => ?_
          obtain ⟨result, w'⟩ := left
          dsimp only at kept
          rw [buffered.buf] at kept
          cases result with
          | error e => exact .pure kept
          | ok _ =>
              have idle : w'.drain partSize w'.buf.length = pure (.ok (), w') := by
                refine drain_idle fun some_ => ?_
                have first := undrained.1
                rw [kept.known some_, Bool.true_and, decide_eq_false_iff_not] at first
                rw [kept.buf]
                omega
              dsimp only
              rw [idle]
              exact .pure kept

end GoesOn

end OpenCargo.S3
