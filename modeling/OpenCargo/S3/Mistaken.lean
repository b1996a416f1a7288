/-
Module: OpenCargo.S3.Mistaken
Purpose: The patterns under which a write, or a copy, says it is done and is not: a last request that is
  refused where something else as long is at the key; and, where the owner of a writer goes on after an
  error, a part that is refused before the last.
Trusted boundary: as S3.Backend
Main exports: stores_iff, copies_iff, stored_iff_not_mistakable, refused_put_taken_for_written
-/
import OpenCargo.S3.Landed

namespace OpenCargo.S3

open OpenCargo.Lib (Script)

theorem ends_of_meet {α : Type} (pattern : Pattern) (m : Does α) (start : World) :
    ∃ done, m.alone meet pattern start = some done :=
  Script.alone_isSome (fun now op => (perform_isSome now op (pattern now.asked op) :
    ∃ done, meet now op pattern = some done)) start

/-! ### The last request is refused -/

/-- Every request is served but the last of a write or a copy. -/
def refusing : Pattern := fun _ op =>
  match op with
  | .put .. => ⟨[], .refused .failed⟩
  | .completeMultipart .. => ⟨[], .refused .failed⟩
  | .copy .. => ⟨[], .refused .failed⟩
  | _ => .good

section Refusing

variable {objects : Objects Bytes} {key : Text} {w : Writer} {old content : Bytes} {α : Type}

variable (objects) in
theorem refusing_of_ends {m : Does α} {Q : α → Prop} (ends : m.Ends Op.uploads Op.Served Q) :
    m.Leads meet refusing (fun now => now.objects = objects) fun a now => Q a ∧ now.objects = objects := by
  refine Script.Leads.of_ends ends fun now op answer next same uploads performed => ?_
  have good : meet now op refusing = perform now op .good := by
    cases op with
    | put k body => exact uploads.elim
    | completeMultipart k upload parts => exact uploads.elim
    | copy source target found => exact uploads.elim
    | _ => rfl
  rw [good] at performed
  refine ⟨⟨now, next, performed⟩, ?_⟩
  cases performed
  exact (effect_uploads uploads).trans same

theorem refusing_statPath :
    (statPath key).Leads meet refusing (fun now => now.objects = objects)
      fun found now => found = .ok ((objects.get key).map List.length) ∧ now.objects = objects := by
  have ask : (Script.ask (Op.head key) : Does (Except Fault Nat)).Leads meet refusing
      (fun now => now.objects = objects) fun answer now =>
        answer = ((objects.get key).map List.length).elim (.error .notFound) .ok ∧ now.objects = objects := by
    refine Script.Leads.ask fun now answer next same performed => ?_
    subst same
    cases performed
    exact ⟨rfl, rfl⟩
  refine ask.bind fun answer => Script.Leads.assuming fun told => ?_
  subst told
  cases (objects.get key).map List.length with
  | none => exact Script.Leads.pure fun now same => ⟨rfl, same⟩
  | some size => exact Script.Leads.pure fun now same => ⟨rfl, same⟩

theorem refusing_decide {landed : Except Fault Unit} (there : objects.get key = some old) :
    (decide key old.length landed).Leads meet refusing (fun now => now.objects = objects)
      fun decided now => decided = .ok () ∧ now.objects = objects := by
  cases landed with
  | ok _ => exact Script.Leads.pure fun now same => ⟨rfl, same⟩
  | error fault =>
      refine Script.Leads.bind refusing_statPath fun found => Script.Leads.assuming fun told => ?_
      subst told
      rw [there]
      exact Script.Leads.pure fun now same => ⟨if_pos rfl, same⟩

theorem refusing_commit {partSize : Nat} (cut : w.Cut partSize key) (counted : w.written = old.length)
    (there : objects.get key = some old) :
    (w.commit).Leads meet refusing (fun now => now.objects = objects)
      fun result now => result = .ok w.written ∧ now.objects = objects := by
  have remember : ∀ k n, (do
      let _ ← (Script.ask (Op.remember k n) : Does Unit)
      return .ok n : Does (Except StorageError Nat)).Leads meet refusing (fun now => now.objects = objects)
        fun result now => result = .ok n ∧ now.objects = objects := by
    intro k n
    refine Script.Leads.bind (Script.Leads.ask (Q := fun _ now => now.objects = objects)
      fun now answer next same performed => ?_) fun _ => Script.Leads.pure fun now same => ⟨rfl, same⟩
    cases performed
    exact same
  rw [Writer.commit]
  cases opened : w.upload with
  | none =>
      refine Script.Leads.bind (Script.Leads.ask (Q := fun _ now => now.objects = objects)
        fun now answer next same performed => ?_) fun (landed : Except Fault Unit) => ?_
      · cases performed
        exact same
      · rw [cut.named, counted]
        refine Script.Leads.bind (refusing_decide there) fun done => Script.Leads.assuming fun ok => ?_
        subst ok
        exact remember _ _
  | some up =>
      have rest := refusing_of_ends objects (Leaves.served (putRest_ends cut opened) putRest_served)
      refine rest.bind fun left => ?_
      obtain ⟨result, w'⟩ := left
      refine Script.Leads.assuming fun both => ?_
      obtain ⟨rfl, assembled⟩ : result = .ok () ∧ w.Assembled partSize up w' := both
      refine Script.Leads.bind (Script.Leads.ask (Q := fun _ now => now.objects = objects)
        fun now answer next same performed => ?_) fun (landed : Except Fault Unit) => ?_
      · cases performed
        exact same
      · rw [assembled.named, cut.named, assembled.counted, counted]
        refine Script.Leads.bind (refusing_decide there) fun done => Script.Leads.assuming fun ok => ?_
        subst ok
        refine Script.Leads.bind (Script.Leads.ask (Q := fun _ now => now.objects = objects)
          fun now answer next same performed => ?_) fun _ => remember _ _
        cases performed
        exact same

theorem not_stores_of_mistakable {partSize : Nat} {goesOn : Bool} {uses : List Use} {start : World}
    (mistaken : Mistakable start.objects key (Use.content uses)) : ¬Stores partSize goesOn key uses start := by
  intro stores
  obtain ⟨old, there, other, long⟩ := mistaken
  have leads : (writing partSize goesOn key uses).Leads meet refusing (fun now => now.objects = start.objects)
      fun result now => result = .ok old.length ∧ now.objects = start.objects := by
    refine (refusing_of_ends _ (uses_served Writer.new_cut)).bind fun left => ?_
    obtain ⟨result, w⟩ := left
    refine Script.Leads.assuming fun both => ?_
    obtain ⟨rfl, grown⟩ : result = .ok () ∧ Grown partSize key (Use.content uses) (Writer.new key) w := both
    have counted : w.written = old.length := (grown.2 [] Writer.new_whole).counted.trans long.symm
    exact (refusing_commit grown.1 counted there).weaken (fun _ same => same) fun _ _ post => counted ▸ post
  obtain ⟨⟨result, after⟩, ran⟩ := ends_of_meet refusing (writing partSize goesOn key uses) start
  obtain ⟨rfl, same⟩ := leads start result after rfl ran
  obtain ⟨stored, _⟩ := stores refusing _ after ran
  rw [same, there] at stored
  exact other (Option.some.inj stored)

theorem not_copies_of_mistakable {budget : Nat} {source target : Text} {start : World} {body : Bytes}
    (sound : path budget source = .ok ()) (fits : path budget target = .ok ())
    (held : start.objects.get source = some body) (mistaken : Mistakable start.objects target body) :
    ¬Copies budget source target start := by
  intro copies
  obtain ⟨old, there, other, long⟩ := mistaken
  have check : (copyCheck target old.length).Leads meet refusing (fun now => now.objects = start.objects)
      fun result now => result = .ok () ∧ now.objects = start.objects := by
    refine Script.Leads.bind refusing_statPath fun found => Script.Leads.assuming fun told => ?_
    subst told
    rw [there, Option.map_some]
    dsimp only
    rw [if_pos rfl]
    refine Script.Leads.bind (Script.Leads.ask (Q := fun _ now => now.objects = start.objects)
      fun now answer next same performed => ?_) fun _ => Script.Leads.pure fun now same => ⟨rfl, same⟩
    cases performed
    exact same
  have leads : (copyChecked budget source target).Leads meet refusing (fun now => now.objects = start.objects)
      fun result now => result = .ok () ∧ now.objects = start.objects := by
    rw [copyChecked, sound, fits]
    refine Script.Leads.bind refusing_statPath fun found => Script.Leads.assuming fun told => ?_
    subst told
    rw [held, Option.map_some, ← long]
    have ask : (Script.ask (Op.copy source target old.length) : Does (Except Fault Unit)).Leads meet refusing
        (fun now => now.objects = start.objects) fun answer now =>
          answer = .error .failed ∧ now.objects = start.objects := by
      refine Script.Leads.ask fun now answer next same performed => ?_
      cases performed
      exact ⟨rfl, same⟩
    refine ask.bind fun answer => Script.Leads.assuming fun refused => ?_
    subst refused
    exact check
  obtain ⟨⟨result, after⟩, ran⟩ := ends_of_meet refusing (copyChecked budget source target) start
  obtain ⟨rfl, same⟩ := leads start result after rfl ran
  obtain ⟨stored, source_, target_⟩ := copies refusing after ran
  rw [held] at source_
  rw [same, there, ← Option.some.inj source_] at target_
  exact other (Option.some.inj target_)

end Refusing

/-! ### A part is refused, and the owner goes on -/

/-- A request that puts a part. -/
def Op.puts : Op → Bool
  | .putPart .. => true
  | _ => false

/-- The first part is refused, and every other request is served. -/
def losing : Pattern := fun asked op =>
  match op with
  | .putPart .. => if asked.any Op.puts then .good else ⟨[], .refused .failed⟩
  | _ => .good

/-- No part was put, all that was written is in the buffer, and an upload that was to be open is. -/
structure Ready (key : Text) (content : Bytes) (opened : Bool) (w : Writer) (now : World) : Prop where
  buffered : w.Buffered key content opened
  open_ : opened = true → w.upload ≠ none
  none_ : now.asked.any Op.puts = false

/-- A part is missing of what was written. -/
structure Lost (partSize : Nat) (key : Text) (content : Bytes) (w : Writer) (now : World) : Prop where
  named : w.key = key
  counted : w.written = content.length
  open_ : w.upload ≠ none
  short : w.parts.flatten.length + w.buf.length + partSize = content.length
  some_ : now.asked.any Op.puts = true

section Losing

variable {partSize : Nat} {key : Text} {content : Bytes} {opened : Bool} {w : Writer} {up : Upload} {data : Bytes}

theorem losing_putPart :
    (w.putPart up data).Leads meet losing (fun now => now.asked.any Op.puts = true)
      fun left now => left = (.ok (), { w with upload := some { up with parts := up.parts ++ [data] } }) ∧
        now.asked.any Op.puts = true := by
  have ask : (Script.ask (Op.putPart w.key up.id up.parts.length data) : Does (Except Fault PartId)).Leads meet
      losing (fun now => now.asked.any Op.puts = true) fun answer now =>
        answer = .ok data ∧ now.asked.any Op.puts = true := by
    refine Script.Leads.ask fun now answer next some_ performed => ?_
    rw [meet, losing] at performed
    rw [if_pos some_] at performed
    cases performed
    exact ⟨rfl, rfl⟩
  refine ask.bind fun answer => Script.Leads.assuming fun told => ?_
  subst told
  exact Script.Leads.pure fun now some_ => ⟨rfl, some_⟩

theorem losing_first :
    (w.putPart up data).Leads meet losing (fun now => now.asked.any Op.puts = false)
      fun left now => left = (.error .unavailable, w) ∧ now.asked.any Op.puts = true := by
  have ask : (Script.ask (Op.putPart w.key up.id up.parts.length data) : Does (Except Fault PartId)).Leads meet
      losing (fun now => now.asked.any Op.puts = false) fun answer now =>
        answer = .error .failed ∧ now.asked.any Op.puts = true := by
    refine Script.Leads.ask fun now answer next none_ performed => ?_
    rw [meet, losing] at performed
    rw [if_neg (by rw [none_]; exact nofun)] at performed
    cases performed
    exact ⟨rfl, rfl⟩
  refine ask.bind fun answer => Script.Leads.assuming fun told => ?_
  subst told
  exact Script.Leads.pure fun now some_ => ⟨rfl, some_⟩

theorem losing_openFor {bytes : Nat} :
    (w.openFor partSize bytes).Leads meet losing (Ready key content opened w)
      fun left now => left.1 = .ok () ∧ Ready key content (opened || partSize < bytes) left.2 now := by
  rw [Writer.openFor]
  split
  case isTrue needed =>
    have create : (Script.ask (Op.createMultipart w.key) : Does (Except Fault Nat)).Leads meet losing
        (Ready key content opened w) fun answer now => (∃ id, answer = .ok id) ∧ Ready key content opened w now := by
      refine Script.Leads.ask fun now answer next ready performed => ?_
      cases performed
      exact ⟨⟨_, rfl⟩, ready.buffered, ready.open_, ready.none_⟩
    have record : ∀ id, (Script.ask (Op.opened id) : Does (Except Fault Unit)).Leads meet losing
        (Ready key content opened w) fun answer now => answer = .ok () ∧ Ready key content opened w now := by
      intro id
      refine Script.Leads.ask fun now answer next ready performed => ?_
      cases performed
      exact ⟨rfl, ready.buffered, ready.open_, ready.none_⟩
    refine create.bind fun answer => Script.Leads.assuming ?_
    rintro ⟨id, rfl⟩
    refine (record id).bind fun answer => Script.Leads.assuming ?_
    rintro rfl
    refine Script.Leads.pure fun now ready => ⟨rfl, ?_, fun _ => Option.some_ne_none _, ready.none_⟩
    have before := ready.buffered
    exact ⟨before.named, before.buf, before.counted, rfl, fun _ => by simp [needed.2]⟩
  case isFalse unneeded =>
    refine Script.Leads.pure fun now ready => ⟨rfl, ?_, fun open_ => ?_, ready.none_⟩
    · have before := ready.buffered
      refine ⟨before.named, before.buf, before.counted, before.empty, fun some_ => ?_⟩
      rw [before.known some_, Bool.true_or]
    · intro closed
      have more : partSize < bytes := by
        cases opened with
        | true => exact absurd closed (ready.open_ rfl)
        | false => simpa using open_
      exact unneeded ⟨closed, more⟩

theorem Lost.openFor {bytes : Nat} (open_ : w.upload ≠ none) : w.openFor partSize bytes = pure (.ok (), w) := by
  rw [Writer.openFor, if_neg fun needed => open_ needed.1]

theorem losing_drain_lost {fuel : Nat} :
    (w.drain partSize fuel).Leads meet losing (Lost partSize key content w)
      fun left now => left.1 = .ok () ∧ Lost partSize key content left.2 now := by
  induction fuel generalizing w with
  | zero => exact Script.Leads.pure fun now lost => ⟨rfl, lost⟩
  | succ fuel ih =>
      rw [Writer.drain]
      cases there : w.upload with
      | none => exact Script.Leads.pure fun now lost => ⟨rfl, lost⟩
      | some up =>
          dsimp only
          split
          case isTrue => exact Script.Leads.pure fun now lost => ⟨rfl, lost⟩
          case isFalse full =>
            have put : (Writer.putPart { w with buf := w.buf.drop partSize } up (w.buf.take partSize)).Leads meet
                losing (Lost partSize key content w) fun left now => left.1 = .ok () ∧
                  Lost partSize key content left.2 now := by
              intro now left next lost ran
              obtain ⟨rfl, some_⟩ := losing_putPart now left next lost.some_ ran
              refine ⟨rfl, lost.named, lost.counted, Option.some_ne_none _, ?_, some_⟩
              have short := lost.short
              have parts : w.parts = up.parts := by rw [Writer.parts, there, Option.elim]
              rw [parts] at short
              change (up.parts ++ [w.buf.take partSize]).flatten.length + (w.buf.drop partSize).length + partSize = _
              rw [List.flatten_append, List.length_append, List.flatten_singleton, List.length_take,
                List.length_drop]
              omega
            rw [there] at put
            refine put.bind fun left => Script.Leads.assuming fun ok => ?_
            obtain ⟨result, w'⟩ := left
            obtain rfl : result = .ok () := ok
            exact ih

theorem losing_drain_first {fuel : Nat} (open_ : w.upload ≠ none) (full : partSize ≤ w.buf.length) :
    (w.drain partSize (fuel + 1)).Leads meet losing (Ready key content opened w)
      fun left now => (∃ e, left.1 = .error e) ∧ Lost partSize key content left.2 now := by
  obtain ⟨up, there⟩ := Option.ne_none_iff_exists'.mp open_
  rw [Writer.drain, there]
  dsimp only
  rw [if_neg (Nat.not_lt.mpr full)]
  have put : (Writer.putPart { w with buf := w.buf.drop partSize } up (w.buf.take partSize)).Leads meet
      losing (Ready key content opened w) fun left now => left.1 = .error .unavailable ∧
        Lost partSize key content left.2 now := by
    intro now left next ready ran
    obtain ⟨rfl, some_⟩ := losing_first now left next ready.none_ ran
    have before := ready.buffered
    refine ⟨rfl, before.named, before.counted, open_, ?_, some_⟩
    change w.parts.flatten.length + (w.buf.drop partSize).length + partSize = _
    rw [before.empty, List.length_drop, ← before.buf, List.flatten_nil, List.length_nil]
    omega
  rw [there] at put
  refine put.bind fun left => Script.Leads.assuming fun failed => ?_
  obtain ⟨result, w'⟩ := left
  obtain rfl : result = .error .unavailable := failed
  exact Script.Leads.pure fun now lost => ⟨⟨_, rfl⟩, lost⟩

theorem losing_use_lost {use : Use} :
    (use.run partSize w).Leads meet losing (Lost partSize key content w)
      fun left now => Lost partSize key (content ++ Use.content [use]) left.2 now := by
  intro now left next lost ran
  cases use with
  | reserve bytes =>
      rw [Use.run, Writer.reserve, Lost.openFor lost.open_] at ran
      cases ran
      rwa [Use.content, Use.content, List.append_nil]
  | write chunk =>
      have grown : Lost partSize key (content ++ chunk)
          { w with written := w.written + chunk.length, buf := w.buf ++ chunk } now := by
        refine ⟨lost.named, ?_, lost.open_, ?_, lost.some_⟩
        · rw [lost.counted, List.length_append]
        · have short := lost.short
          change w.parts.flatten.length + (w.buf ++ chunk).length + partSize = _
          rw [List.length_append, List.length_append]
          omega
      rw [Use.run, Writer.write, Lost.openFor grown.open_] at ran
      rw [Use.content, Use.content, List.append_nil]
      exact (losing_drain_lost now left next grown ran).2

theorem losing_uses_lost {uses : List Use} :
    (w.uses partSize true uses).Leads meet losing (Lost partSize key content w)
      fun left now => left.1 = .ok () ∧ Lost partSize key (content ++ Use.content uses) left.2 now := by
  induction uses generalizing w content with
  | nil =>
      refine Script.Leads.pure fun now lost => ⟨rfl, ?_⟩
      rwa [Use.content, List.append_nil]
  | cons use uses ih =>
      rw [Writer.uses]
      have all : content ++ Use.content (use :: uses) = content ++ Use.content [use] ++ Use.content uses := by
        rw [content_cons, List.append_assoc]
      rw [all]
      refine losing_use_lost.bind fun left => ?_
      obtain ⟨result, w'⟩ := left
      cases result with
      | error e => exact ih
      | ok _ => exact ih

theorem losing_filled (positive : 0 < partSize) :
    (do match ← w.openFor partSize w.buf.length with
        | (.error e, w) => return (.error e, w)
        | (.ok (), w) => w.drain partSize w.buf.length :
          Does (Except StorageError Unit × Writer)).Leads meet losing (Ready key content opened w) fun left now =>
      if ((opened || partSize < content.length) && partSize ≤ content.length) = true then
        Lost partSize key content left.2 now
      else Ready key content (opened || partSize < content.length) left.2 now := by
  intro now left next ready
  have bytes : w.buf.length = content.length := by rw [ready.buffered.buf]
  revert now left next
  rw [bytes]
  refine Script.Leads.bind losing_openFor fun left => Script.Leads.assuming fun ok => ?_
  obtain ⟨result, w'⟩ := left
  obtain rfl : result = .ok () := ok
  intro now left next ready
  have filled : w'.buf.length = content.length := by rw [ready.buffered.buf]
  revert now left next
  dsimp only
  split
  case isTrue puts =>
    have ⟨open_, full⟩ := Bool.and_eq_true_iff.mp puts
    have long := of_decide_eq_true full
    intro now left next ready ran
    obtain ⟨fuel, fuels⟩ : ∃ fuel, w'.buf.length = fuel + 1 := ⟨w'.buf.length - 1, by omega⟩
    rw [fuels] at ran
    exact (losing_drain_first (ready.open_ open_) (by omega) now left next ready ran).2
  case isFalse short =>
    intro now left next ready ran
    rw [drain_idle] at ran
    · cases ran
      exact ready
    · intro open_
      rw [ready.buffered.known open_, Bool.true_and, decide_eq_true_iff] at short
      omega

theorem losing_write (positive : 0 < partSize) {chunk : Bytes} :
    (Use.run partSize w (.write chunk)).Leads meet losing (Ready key content opened w) fun left now =>
      if ((opened || partSize < (content ++ chunk).length) && partSize ≤ (content ++ chunk).length) = true then
        Lost partSize key (content ++ chunk) left.2 now
      else Ready key (content ++ chunk) (opened || partSize < (content ++ chunk).length) left.2 now := by
  intro now left next ready ran
  have before := ready.buffered
  have grown : Ready key (content ++ chunk) opened
      { w with written := w.written + chunk.length, buf := w.buf ++ chunk } now :=
    ⟨⟨before.named, by rw [before.buf], by rw [before.counted, List.length_append], before.empty, before.known⟩,
      ready.open_, ready.none_⟩
  exact losing_filled positive now left next grown ran

theorem losing_uses (positive : 0 < partSize) {uses : List Use}
    (drained : drains partSize opened content.length uses = true) :
    (w.uses partSize true uses).Leads meet losing (Ready key content opened w)
      fun left now => left.1 = .ok () ∧ Lost partSize key (content ++ Use.content uses) left.2 now := by
  induction uses generalizing w content opened with
  | nil => cases drained
  | cons use uses ih =>
      rw [Writer.uses]
      cases use with
      | reserve bytes =>
          refine Script.Leads.bind (Q := fun left now =>
            Ready key content (opened || partSize < content.length + bytes) left.2 now) ?_ fun left => ?_
          · intro now left next ready ran
            rw [Use.run, Writer.reserve, ready.buffered.buf] at ran
            exact (losing_openFor now left next ready ran).2
          · obtain ⟨result, w'⟩ := left
            cases result with
            | error e => exact ih drained
            | ok _ => exact ih drained
      | write chunk =>
          rw [drains, ← List.length_append] at drained
          rw [Use.content, ← List.append_assoc]
          refine (losing_write positive).bind fun left => ?_
          obtain ⟨result, w'⟩ := left
          by_cases puts : ((opened || partSize < (content ++ chunk).length) &&
              partSize ≤ (content ++ chunk).length) = true
          · simp only [if_pos puts]
            cases result with
            | error e => exact losing_uses_lost
            | ok _ => exact losing_uses_lost
          · simp only [if_neg puts]
            have later := (Bool.or_eq_true_iff.mp drained).resolve_left puts
            cases result with
            | error e => exact ih later
            | ok _ => exact ih later

theorem losing_putRest (there : w.upload = some up) :
    (w.putRest up).Leads meet losing (Lost partSize key content w) fun left _ =>
      (left.1 = .ok () ∧ left.2.key = key ∧ left.2.written = content.length ∧
        (left.2.upload.getD up).parts.flatten.length + partSize = content.length) ∧ True := by
  intro now left next lost
  have parts : w.parts = up.parts := by rw [Writer.parts, there, Option.elim]
  have short := lost.short
  rw [parts] at short
  rw [Writer.putRest]
  split
  case isTrue =>
    intro ran
    obtain ⟨rfl, _⟩ := losing_putPart now left next lost.some_ ran
    refine ⟨⟨rfl, lost.named, lost.counted, ?_⟩, trivial⟩
    rw [Option.getD_some, List.flatten_append, List.length_append, List.flatten_singleton]
    omega
  case isFalse no =>
    intro ran
    cases ran
    obtain ⟨emptied, _⟩ := not_or.mp no
    refine ⟨⟨rfl, lost.named, lost.counted, ?_⟩, trivial⟩
    rw [not_not.mp emptied, List.length_nil] at short
    rw [there, Option.getD_some]
    omega

theorem losing_commit (positive : 0 < partSize) (open_ : w.upload ≠ none) :
    (w.commit).Leads meet losing (Lost partSize key content w) fun result now =>
      result = .ok content.length ∧ now.objects.get key ≠ some content := by
  obtain ⟨up, there⟩ := Option.ne_none_iff_exists'.mp open_
  rw [Writer.commit, there]
  refine (losing_putRest there).bind fun left => Script.Leads.assuming fun post => ?_
  obtain ⟨result, w'⟩ := left
  obtain ⟨rfl, named, counted, short⟩ : result = .ok () ∧ w'.key = key ∧ w'.written = content.length ∧
    (w'.upload.getD up).parts.flatten.length + partSize = content.length := post
  have complete : (Script.ask (Op.completeMultipart w'.key (w'.upload.getD up).id (w'.upload.getD up).parts) :
      Does (Except Fault Unit)).Leads meet losing (fun _ => True) fun answer now =>
        answer = .ok () ∧ now.objects.get key ≠ some content := by
    refine Script.Leads.ask fun now answer next _ performed => ?_
    cases performed
    refine ⟨rfl, fun same => ?_⟩
    change (Objects.put _ w'.key _).get key = some content at same
    rw [named, Objects.get_put_self] at same
    rw [← Option.some.inj same] at short
    omega
  have access : ∀ op : Op, (∀ objects, op.effect objects = objects) → (∀ now, meet now op losing = perform now op .good) →
      (Script.ask op).Leads meet losing (fun now => now.objects.get key ≠ some content)
        fun _ now => now.objects.get key ≠ some content := by
    intro op same good
    refine Script.Leads.ask fun now answer next pre performed => ?_
    rw [good] at performed
    cases performed
    change (op.effect now.objects).get key ≠ _
    rwa [same]
  refine complete.bind fun answer => Script.Leads.assuming fun told => ?_
  subst told
  refine Script.Leads.bind (Q := fun decided now => decided = .ok () ∧ now.objects.get key ≠ some content)
    (Script.Leads.pure fun now other => ⟨rfl, other⟩) fun decided => Script.Leads.assuming fun ok => ?_
  subst ok
  refine Script.Leads.bind (access (.closed _) (fun _ => rfl) fun _ => rfl) fun _ => ?_
  refine Script.Leads.bind (access (.remember _ _) (fun _ => rfl) fun _ => rfl) fun _ => ?_
  exact Script.Leads.pure fun now other => ⟨by rw [counted], other⟩

theorem not_stores_of_drains (positive : 0 < partSize) {uses : List Use} {start : World} (nothing : start.asked = [])
    (drained : drains partSize false 0 uses = true) : ¬Stores partSize true key uses start := by
  intro stores
  have fresh : Ready key [] false (Writer.new key) start :=
    ⟨⟨rfl, rfl, rfl, rfl, fun some_ => absurd rfl some_⟩, nofun, by rw [nothing]; rfl⟩
  have leads : (writing partSize true key uses).Leads meet losing (Ready key [] false (Writer.new key))
      fun result now => result = .ok (Use.content uses).length ∧
        now.objects.get key ≠ some (Use.content uses) := by
    refine (losing_uses positive drained).bind fun left => Script.Leads.assuming fun ok => ?_
    obtain ⟨result, w⟩ := left
    obtain rfl : result = .ok () := ok
    intro now result after lost ran
    exact losing_commit positive lost.open_ now result after lost ran
  obtain ⟨⟨result, after⟩, ran⟩ := ends_of_meet losing (writing partSize true key uses) start
  obtain ⟨rfl, other⟩ := leads start result after fresh ran
  exact other (stores losing _ after ran).1

end Losing

/-! ### When what is said to be done is done -/

section Iff

variable {objects : Objects Bytes} {cache : Option ExistsCache}

theorem calm_holding : Calm objects (.holding objects cache) := ⟨rfl, fun _ mem => nomatch mem⟩

theorem stores_iff (settings : Settings) (goesOn : Bool) (key : Text) (uses : List Use) :
    Stores settings.partSize goesOn key uses (.holding objects cache) ↔
      ¬Mistakable objects key (Use.content uses) ∧
        (goesOn = true → drains settings.partSize false 0 uses = false) := by
  constructor
  · refine fun stores => ⟨fun mistaken => not_stores_of_mistakable mistaken stores, ?_⟩
    rintro rfl
    cases drained : drains settings.partSize false 0 uses with
    | false => rfl
    | true => exact absurd stores (not_stores_of_drains settings.positive rfl drained)
  · intro ⟨clear, goes⟩ pattern n after ran
    exact writing_leads clear goes _ _ _ calm_holding ran n rfl

theorem copies_iff (budget : Nat) (source target : Text) :
    Copies budget source target (.holding objects cache) ↔
      (path budget source = .ok () → path budget target = .ok () →
        ∀ body, objects.get source = some body → ¬Mistakable objects target body) := by
  constructor
  · exact fun copies sound fits body held mistaken => not_copies_of_mistakable sound fits held mistaken copies
  · intro clear pattern after ran
    rw [copyChecked] at ran
    cases sound : path budget source with
    | error e =>
        rw [sound] at ran
        cases ran
    | ok _ =>
        cases fits : path budget target with
        | error e =>
            rw [sound, fits] at ran
            cases ran
        | ok _ =>
            rw [← copyChecked] at ran
            exact copyChecked_leads (clear sound fits) _ _ _ calm_holding ran rfl

/-- A write that says it is done has stored its content, however its requests go, exactly where nothing else
as long is at the key, and its owner does not go on after an error over a part that is lost; a copy has copied
its source exactly where nothing else as long is at its target. The parts of an upload are cut to size in
every run. -/
theorem stored_iff_not_mistakable (settings : Settings) (objects : Objects Bytes) (cache : Option ExistsCache)
    (goesOn : Bool) (key : Text) (uses : List Use) (source target : Text) :
    (∀ pattern result after,
      (writing settings.partSize goesOn key uses).alone meet pattern (.holding objects cache) =
        some (result, after) → CutToSize settings.partSize after) ∧
    (Stores settings.partSize goesOn key uses (.holding objects cache) ↔
      ¬Mistakable objects key (Use.content uses) ∧
        (goesOn = true → drains settings.partSize false 0 uses = false)) ∧
    (Copies settings.keyBudget source target (.holding objects cache) ↔
      (path settings.keyBudget source = .ok () → path settings.keyBudget target = .ok () →
        ∀ body, objects.get source = some body → ¬Mistakable objects target body)) :=
  ⟨fun _ _ _ ran => cutToSize_writing rfl ran, stores_iff settings goesOn key uses,
    copies_iff settings.keyBudget source target⟩

/-- An object is written again with another body of the same length, and its `PUT` is refused: what was there
before is taken for what was written. -/
theorem refused_put_taken_for_written :
    ((writing 5242880 false ['a'] [.write [2]]).alone meet refusing
        (.holding [(['a'], [1])] none)).map (fun done => (done.1.toOption, done.2.objects.get ['a'])) =
      some (some 1, some [1]) := by
  rfl

end Iff

end OpenCargo.S3
