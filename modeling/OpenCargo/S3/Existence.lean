/-
Module: OpenCargo.S3.Existence
Purpose: Whether the existence cache names what exists, as any number of calls of one process go on side
  by side. A call that changes an object goes on to remember its new size or to forget it; what it
  remembers, though, is what it was told some steps ago.
Trusted boundary: as S3.Backend; no other process writes under the prefix
Main exports: Settles, Tidy, Inv, cache_right_of_timely
-/
import OpenCargo.S3.Writer

namespace OpenCargo.S3

open OpenCargo.Lib (Script Pool Run Any)

/-! ### Calls, side by side -/

abbrev Calls := Pool Request World Op Op.Answer Outcome

abbrev Act := Pool.Act Request Luck

def step (settings : Settings) : Calls → Act → Option Calls := Pool.step perform (program settings)

/-- A process begins, over what is in the store, with nothing remembered. -/
def begin_ (objects : Objects Bytes) (entries : Nat) : Calls :=
  ⟨.holding objects (if 0 < entries then some (.new entries) else none), []⟩

/-- Every request succeeds. -/
def Served : Act → Prop
  | .start _ => True
  | .answer _ luck => luck = .good

instance : (act : Act) → Decidable (Served act)
  | .start _ => .isTrue trivial
  | .answer _ luck => inferInstanceAs (Decidable (luck = .good))

/-- A script that has nothing left to ask. -/
def ended {α : Type} : Does α → Bool
  | .done _ => true
  | .call .. => false

def Idle (u : Calls) : Prop := ∀ call ∈ u.calls, ended call.2 = true

/-- What is remembered exists, with the size that is remembered. -/
def Right (w : World) : Prop := ∀ key size, w.recalled key = some size → w.size key = some size

/-- The queue of the cache is the one of its map. -/
def Queued (w : World) : Prop := ∀ cache, w.cache = some cache → cache.Ordered

def Request.moves : Request → Bool
  | .relocate .. => true
  | _ => false

/-- The step comes in time: what is remembered is the size the object has now; of what is deleted nothing
is remembered, unless the call is still to forget it; and a source that is copied over a remembered
target has the size it was found with. -/
def Op.Timely (moves : Bool) (w : World) : Op → Prop
  | .remember key size => w.size key = some size
  | .delete keys => moves = true ∨ ∀ key ∈ keys, w.recalled key = none
  | .copy source target found =>
      w.recalled target = none ∨ w.size source = none ∨ w.size source = some found
  | _ => True

instance (moves : Bool) (w : World) : (op : Op) → Decidable (op.Timely moves w)
  | .remember key size => inferInstanceAs (Decidable (w.size key = some size))
  | .delete keys => inferInstanceAs (Decidable (moves = true ∨ ∀ key ∈ keys, w.recalled key = none))
  | .copy source target found =>
      inferInstanceAs (Decidable (w.recalled target = none ∨ w.size source = none ∨ w.size source = some found))
  | .head _ => .isTrue trivial
  | .put .. => .isTrue trivial
  | .createMultipart _ => .isTrue trivial
  | .putPart .. => .isTrue trivial
  | .completeMultipart .. => .isTrue trivial
  | .abortMultipart .. => .isTrue trivial
  | .opened _ => .isTrue trivial
  | .closed _ => .isTrue trivial
  | .cached _ => .isTrue trivial
  | .forget _ => .isTrue trivial

/-- What a call waits for. -/
def waiting (u : Calls) (i : Nat) : Option (Request × Op) :=
  match u.calls[i]? with
  | some (request, .call op _) => some (request, op)
  | _ => none

def Timely (u : Calls) : Act → Prop
  | .start _ => True
  | .answer i _ => ∀ asked ∈ waiting u i, asked.2.Timely asked.1.moves u.state

instance (u : Calls) : (act : Act) → Decidable (Timely u act)
  | .start _ => .isTrue trivial
  | .answer i _ => inferInstanceAs (Decidable (∀ asked ∈ waiting u i, asked.2.Timely asked.1.moves u.state))

/-! ### What a call goes on to do -/

/-- The call goes on to make what is remembered of the key right. -/
def Settles {α : Type} (w : World) (key : Text) : Does α → Prop
  | .call (.remember k size) _ => k = key ∧ w.size key = some size
  | .call (.forget k) _ => k = key
  | .call (.head k) next => k = key ∧ ∃ size, w.size key = some size ∧ Settles w key (next (.ok size : Except Fault Nat))
  | .call (.closed _) next => Settles w key (next (.ok () : Except Fault Unit))
  | _ => False

/-- An operation that changes an object is followed by what settles it. -/
def Op.Follows {α : Type} (moves : Bool) : (op : Op) → (op.Answer → Does α) → Prop
  | .put key body, next =>
      ∀ w : World, w.size key = some body.length → Settles w key (next (.ok () : Except Fault Unit))
  | .completeMultipart key _ parts, next =>
      ∀ w : World, w.size key = some parts.flatten.length → Settles w key (next (.ok () : Except Fault Unit))
  | .copy _ target found, next =>
      ∀ w : World, w.size target = some found → Settles w target (next (.ok () : Except Fault Unit))
  | .delete keys, next =>
      moves = true → ∀ w : World, ∀ key ∈ keys, Settles w key (next (.ok () : Except Fault Unit))
  | _, _ => True

/-- Each operation of the script, where it is served, is followed by what settles it. -/
def Tidy {α : Type} (moves : Bool) : Does α → Prop
  | .done _ => True
  | .call op next => op.Follows moves next ∧ ∀ answer, op.Served answer → Tidy moves (next answer)

section Tidy

variable {α β : Type} {moves : Bool} {w w' : World} {key : Text} {m : Does α} {f : α → Does β}

theorem Settles.bind (settles : Settles w key m) : Settles w key (m >>= f) := by
  rw [Script.bind_eq]
  induction m with
  | done a => exact False.elim settles
  | call op next ih =>
      cases op with
      | remember k size => exact settles
      | forget k => exact settles
      | head k =>
          obtain ⟨same, size, held, rest⟩ := settles
          exact ⟨same, size, held, ih _ rest⟩
      | closed upload => exact ih _ settles
      | _ => exact settles

theorem Settles.congr (settles : Settles w key m) (same : w'.size key = w.size key) : Settles w' key m := by
  induction m with
  | done a => exact settles
  | call op next ih =>
      cases op with
      | remember k size => exact ⟨settles.1, same.trans settles.2⟩
      | forget k => exact settles
      | head k =>
          obtain ⟨own, size, held, rest⟩ := settles
          exact ⟨own, size, same.trans held, ih _ rest⟩
      | closed upload => exact ih _ settles
      | _ => exact settles

theorem Tidy.pure {a : α} : Tidy moves (Pure.pure a : Does α) := trivial

theorem Tidy.bind (first : Tidy moves m) (rest : ∀ a, Tidy moves (f a)) : Tidy moves (m >>= f) := by
  rw [Script.bind_eq]
  induction m with
  | done a => exact rest a
  | call op next ih =>
      refine ⟨?_, fun answer served => ih answer (first.2 answer served)⟩
      have follows := first.1
      cases op with
      | put k body => exact fun w size => (follows w size).bind
      | completeMultipart k upload parts => exact fun w size => (follows w size).bind
      | copy source target found => exact fun w size => (follows w size).bind
      | delete keys => exact fun relocates w k mem => (follows relocates w k mem).bind
      | _ => trivial

theorem Tidy.of_ends {Q : α → Prop} (ends : m.Ends Op.uploads Op.Served Q)
    (rest : ∀ a, Q a → Tidy moves (f a)) : Tidy moves (m >>= f) := by
  rw [Script.bind_eq]
  induction m with
  | done a => exact rest a ends
  | call op next ih =>
      refine ⟨?_, fun answer served => ih answer (ends.2 answer served)⟩
      have uploads := ends.1
      cases op with
      | createMultipart k => trivial
      | putPart k upload index body => trivial
      | abortMultipart k upload => trivial
      | opened upload => trivial
      | closed upload => trivial
      | _ => exact uploads.elim

end Tidy

/-! ### The operations are tidy -/

section Programs

variable {moves : Bool} {w : Writer} {content : Bytes} {key : Text}

theorem tidy_statPath {α : Type} {f : Except StorageError (Option Nat) → Does α}
    (rest : ∀ found, Tidy moves (f found)) : Tidy moves (statPath key >>= f) := by
  refine Tidy.bind ⟨trivial, fun (answer : Except Fault Nat) _ => ?_⟩ rest
  match answer with
  | .ok size => exact .pure
  | .error .notFound => exact .pure
  | .error .failed => exact .pure
  | .error .elapsed => exact .pure

theorem tidy_decide {written : Nat} {landed : Except Fault Unit} : Tidy moves (decide key written landed) := by
  cases landed with
  | ok _ => exact .pure
  | error fault =>
      refine tidy_statPath fun found => ?_
      match found with
      | .error e => exact .pure
      | .ok (some size) => exact .pure
      | .ok none => exact .pure

theorem tidy_commit {partSize : Nat} (cut : w.Cut partSize key) (whole : w.Whole content) :
    Tidy moves w.commit := by
  rw [Writer.commit]
  cases opened : w.upload with
  | none =>
      have buffered : w.buf = content := by simpa [Writer.parts, opened] using whole.whole
      refine ⟨fun _ size => ⟨rfl, ?_⟩, fun landed _ => ?_⟩
      · rw [size, buffered, whole.counted]
      · refine Tidy.bind (m := decide w.key w.written landed) tidy_decide fun decided => ?_
        cases decided with
        | error e => exact .pure
        | ok _ => exact ⟨trivial, fun _ _ => .pure⟩
  | some up =>
      refine Tidy.of_ends (Leaves.served (putRest_ends cut opened) putRest_served) fun left both => ?_
      obtain ⟨result, w'⟩ := left
      obtain ⟨rfl, assembled⟩ : result = .ok () ∧ w.Assembled partSize up w' := both
      refine ⟨fun _ size => ⟨rfl, ?_⟩, fun landed _ => ?_⟩
      · rw [size, assembled.whole _ whole, assembled.counted, whole.counted]
      · refine Tidy.bind (m := decide w'.key w'.written landed) tidy_decide fun decided => ?_
        cases decided with
        | error e => exact .pure
        | ok _ => exact ⟨trivial, fun _ _ => ⟨trivial, fun _ _ => .pure⟩⟩

theorem tidy_writing {partSize : Nat} {goesOn : Bool} {uses : List Use} :
    Tidy moves (writing partSize goesOn key uses) := by
  refine Tidy.of_ends (uses_served Writer.new_cut) fun left both => ?_
  obtain ⟨result, w⟩ := left
  obtain ⟨rfl, grown⟩ : result = .ok () ∧ Grown partSize key (Use.content uses) (Writer.new key) w := both
  exact tidy_commit grown.1 (grown.2 [] Writer.new_whole)

theorem tidy_copyCheck {target : Text} {found : Nat} : Tidy moves (copyCheck target found) := by
  refine tidy_statPath fun answer => ?_
  match answer with
  | .error e => exact .pure
  | .ok none => exact .pure
  | .ok (some size) =>
      dsimp only
      split
      · exact ⟨trivial, fun _ _ => .pure⟩
      · exact .pure

/-- Where the target of a copy is as long as its source was, the check remembers it. -/
theorem settles_copyCheck {now : World} {target : Text} {found : Nat} (held : now.size target = some found) :
    Settles now target (copyCheck target found) := by
  refine ⟨rfl, found, held, ?_⟩
  change Settles now target (if found = found then _ else _)
  rw [if_pos rfl]
  exact ⟨rfl, held⟩

theorem tidy_copyFound {source target : Text} {found : Nat} : Tidy moves (copyFound source target found) := by
  refine ⟨fun now held => settles_copyCheck held, fun (answer : Except Fault Unit) _ => ?_⟩
  cases answer with
  | ok _ => exact tidy_copyCheck
  | error fault =>
      change Tidy moves (if fault.toError = .unavailable then copyCheck target found else _)
      split
      · exact tidy_copyCheck
      · exact .pure

theorem tidy_copyChecked {budget : Nat} {source target : Text} :
    Tidy moves (copyChecked budget source target) := by
  rw [copyChecked]
  cases path budget source with
  | error e => exact .pure
  | ok _ =>
      cases path budget target with
      | error e => exact .pure
      | ok _ =>
          refine tidy_statPath fun answer => ?_
          match answer with
          | .error e => exact .pure
          | .ok none => exact .pure
          | .ok (some found) => exact tidy_copyFound

theorem tidy_relocate {budget : Nat} {source target : Text} : Tidy true (relocate budget source target) := by
  refine Tidy.bind tidy_copyChecked fun copied => ?_
  match copied with
  | .ok () =>
      refine ⟨fun _ now k mem => List.mem_singleton.mp mem ▸ rfl, fun _ _ => ?_⟩
      exact ⟨trivial, fun _ _ => .pure⟩
  | .error .notFound =>
      dsimp only
      cases path budget target with
      | error e => exact .pure
      | ok _ =>
          refine tidy_statPath fun answer => ?_
          match answer with
          | .error e => exact .pure
          | .ok none => exact .pure
          | .ok (some _) => exact .pure
  | .error .unavailable => exact .pure
  | .error (.invalidPath why) => exact .pure

theorem tidy_head {budget : Nat} : Tidy moves (head budget key) := by
  rw [head]
  cases path budget key with
  | error e => exact .pure
  | ok _ =>
      refine ⟨trivial, fun (answer : Option Nat) _ => ?_⟩
      cases answer with
      | some size => exact .pure
      | none =>
          refine tidy_statPath fun found => ?_
          match found with
          | .error e => exact .pure
          | .ok none => exact .pure
          | .ok (some size) => exact ⟨trivial, fun _ _ => .pure⟩

theorem tidy_delete {budget : Nat} : Tidy false (delete budget key) := by
  rw [delete]
  cases path budget key with
  | error e => exact .pure
  | ok _ => exact ⟨trivial, fun _ _ => ⟨fun absurd_ => (nomatch absurd_), fun _ _ => .pure⟩⟩

theorem tidy_deleteBatch {budget : Nat} {keys : List Text} : Tidy false (deleteBatch budget keys) := by
  have forgets : ∀ keys : List Text, Tidy false (forgetAll keys) := by
    intro keys
    induction keys with
    | nil => exact .pure
    | cons key keys ih => exact ⟨trivial, fun _ _ => ih⟩
  have deletes : ∀ chunks : List (List Text), Tidy false (deleteChunks chunks) := by
    intro chunks
    induction chunks with
    | nil => exact .pure
    | cons chunk chunks ih =>
        refine ⟨fun absurd_ => absurd absurd_ Bool.false_ne_true, fun answer _ => ?_⟩
        dsimp only [Script.bind]
        cases deleted answer with
        | ok _ => exact ih
        | error e => exact .pure
  rw [deleteBatch]
  cases keys.mapM (path budget) with
  | error e => exact .pure
  | ok _ => exact Tidy.bind (forgets keys) fun _ => deletes _

theorem tidy_program {settings : Settings} (request : Request) :
    Tidy request.moves (program settings request) := by
  cases request with
  | head key => exact tidy_head
  | write key goesOn uses =>
      rw [program]
      cases path settings.keyBudget key with
      | error e => exact .pure
      | ok _ => exact Tidy.bind tidy_writing fun _ => .pure
  | copy source target => exact Tidy.bind tidy_copyChecked fun _ => .pure
  | relocate source target => exact Tidy.bind tidy_relocate fun _ => .pure
  | delete key => exact Tidy.bind tidy_delete fun _ => .pure
  | deleteBatch keys => exact Tidy.bind tidy_deleteBatch fun _ => .pure

end Programs

/-! ### The invariant -/

/-- Every call is tidy, and what is remembered wrongly is about to be settled. -/
structure Inv (u : Calls) : Prop where
  tidy : ∀ call ∈ u.calls, Tidy call.1.moves call.2
  settled : ∀ key size, u.state.recalled key = some size →
    u.state.size key = some size ∨ ∃ call ∈ u.calls, Settles u.state key call.2

section Step

variable {settings : Settings} {u v : Calls} {w : World} {key : Text}

theorem perform_good (w : World) (op : Op) :
    perform w op .good = some (World.answer { w with asked := op :: w.asked } op,
      World.carryOut { w with asked := op :: w.asked } op) := rfl

theorem recalled_eq_some {size : Nat} :
    w.recalled key = some size ↔ ∃ cache, w.cache = some cache ∧ cache.get key = some size :=
  Option.bind_eq_some_iff

theorem recalled_of_carryOut {op : Op} {size : Nat} (leaves : ∀ cache, op.onCache cache = cache)
    (held : (w.carryOut op).recalled key = some size) : w.recalled key = some size := by
  obtain ⟨cache, there, got⟩ := recalled_eq_some.mp held
  obtain ⟨before, was, same⟩ := Option.map_eq_some_iff.mp there
  rw [leaves] at same
  exact recalled_eq_some.mpr ⟨before, was, same ▸ got⟩

/-- What is so after the operation `op` of a call, of a key that is remembered: that is right, or the
call goes on to settle it, or the key is as it was and the call still settles it if it did. -/
def After (w : World) (op : Op) (next : op.Answer → Does Outcome) (key : Text) (size : Nat) : Prop :=
  (w.carryOut op).size key = some size ∨
    Settles (w.carryOut op) key (next (w.answer op)) ∨
    w.recalled key = some size ∧ (w.carryOut op).size key = w.size key ∧
      (Settles w key (.call op next) → Settles (w.carryOut op) key (next (w.answer op)))

theorem After.write {op : Op} {next : op.Answer → Does Outcome} {size : Nat} {target : Text} {body : Bytes}
    (leaves : ∀ cache, op.onCache cache = cache) (held : (w.carryOut op).recalled key = some size)
    (written : op.effect w.objects = w.objects.put target body)
    (settles : (w.carryOut op).size target = some body.length →
      Settles (w.carryOut op) target (next (w.answer op)))
    (plain : ¬Settles w key (.call op next)) : After w op next key size := by
  have sized : ∀ k, (w.carryOut op).size k = ((w.objects.put target body).get k).map List.length :=
    fun k => by rw [← written]; rfl
  by_cases same : key = target
  · subst same
    refine .inr (.inl (settles ?_))
    rw [sized, Objects.get_put_self, Option.map_some]
  · refine .inr (.inr ⟨recalled_of_carryOut leaves held, ?_, fun settles => absurd settles plain⟩)
    rw [sized, Objects.get_put_ne same]
    rfl

theorem After.copy {moves : Bool} {source target : Text} {found size : Nat}
    {next : Except Fault Unit → Does Outcome}
    (follows : (Op.copy source target found).Follows moves next)
    (timely : (Op.copy source target found).Timely moves w)
    (held : (w.carryOut (.copy source target found)).recalled key = some size) :
    After w (.copy source target found) next key size := by
  have before : w.recalled key = some size := recalled_of_carryOut (fun _ => rfl) held
  cases there : w.objects.get source with
  | none =>
      have same : (Op.copy source target found).effect w.objects = w.objects := by rw [Op.effect, there]
      refine .inr (.inr ⟨before, ?_, False.elim⟩)
      change (((Op.copy source target found).effect w.objects).get key).map List.length = _
      rw [same]
      rfl
  | some body =>
      have sized : w.size source = some body.length := by rw [World.size, there, Option.map_some]
      have done : w.answer (.copy source target found) = (.ok () : Except Fault Unit) := by
        rw [World.answer, there]
        rfl
      by_cases here : key = target
      · subst here
        rcases timely with clear | gone | known
        · rw [clear] at before
          cases before
        · rw [sized] at gone
          cases gone
        · obtain rfl : body.length = found := Option.some.inj (sized.symm.trans known)
          have written : (Op.copy source key body.length).effect w.objects = w.objects.put key body := by
            rw [Op.effect, there]
          refine After.write (fun _ => rfl) held written (fun now => ?_) id
          rw [done]
          exact follows _ now
      · refine .inr (.inr ⟨before, ?_, False.elim⟩)
        change (((Op.copy source target found).effect w.objects).get key).map List.length = _
        rw [Op.effect, there]
        dsimp only
        rw [Objects.get_put_ne here]
        rfl

theorem After.delete {moves : Bool} {keys : List Text} {size : Nat} {next : Except Fault Unit → Does Outcome}
    (follows : (Op.delete keys).Follows moves next) (timely : (Op.delete keys).Timely moves w)
    (held : (w.carryOut (.delete keys)).recalled key = some size) : After w (.delete keys) next key size := by
  have before : w.recalled key = some size := recalled_of_carryOut (fun _ => rfl) held
  by_cases mem : key ∈ keys
  · rcases timely with forgets | clear
    · exact .inr (.inl (follows forgets _ key mem))
    · rw [clear key mem] at before
      cases before
  · refine .inr (.inr ⟨before, ?_, False.elim⟩)
    change ((w.objects.deleteBatch keys).get key).map List.length = _
    rw [Objects.get_deleteBatch mem]
    rfl

theorem after_step {moves : Bool} {op : Op} {next : op.Answer → Does Outcome} {size : Nat}
    (follows : op.Follows moves next) (timely : op.Timely moves w)
    (held : (w.carryOut op).recalled key = some size) : After w op next key size := by
  cases op with
  | remember k n =>
      obtain ⟨cache, there, got⟩ := recalled_eq_some.mp held
      obtain ⟨before, was, rfl⟩ := Option.map_eq_some_iff.mp there
      rcases ExistsCache.get_of_fill got with ⟨rfl, rfl⟩ | ⟨apart, old⟩
      · exact .inl timely
      · refine .inr (.inr ⟨recalled_eq_some.mpr ⟨before, was, old⟩, rfl, fun settles => ?_⟩)
        exact absurd settles.1.symm apart
  | forget k =>
      obtain ⟨cache, there, got⟩ := recalled_eq_some.mp held
      obtain ⟨before, was, rfl⟩ := Option.map_eq_some_iff.mp there
      obtain ⟨apart, old⟩ := ExistsCache.get_of_forget got
      refine .inr (.inr ⟨recalled_eq_some.mpr ⟨before, was, old⟩, rfl, fun settles => ?_⟩)
      exact absurd (Eq.symm settles) apart
  | put k body => exact After.write (fun _ => rfl) held rfl (follows _) id
  | completeMultipart k upload parts => exact After.write (fun _ => rfl) held rfl (follows _) id
  | copy source target found => exact After.copy follows timely held
  | delete keys => exact After.delete follows timely held
  | head k =>
      refine .inr (.inr ⟨recalled_of_carryOut (fun _ => rfl) held, rfl, fun settles => ?_⟩)
      obtain ⟨rfl, n, there, rest⟩ := settles
      have told : w.answer (.head k) = (.ok n : Except Fault Nat) := by
        rw [World.answer, there]
        rfl
      rw [told]
      exact rest.congr rfl
  | closed upload =>
      refine .inr (.inr ⟨recalled_of_carryOut (fun _ => rfl) held, rfl, fun settles => ?_⟩)
      exact Settles.congr (m := next (.ok ())) settles rfl
  | _ => exact .inr (.inr ⟨recalled_of_carryOut (fun _ => rfl) held, rfl, False.elim⟩)

/-- What the others settle they still settle, and what this call settled it does or has done. -/
theorem Inv.answer {op : Op} {next : op.Answer → Does Outcome} {request : Request} {i : Nat}
    (inv : Inv u) (found : u.calls[i]? = some (request, .call op next))
    (timely : op.Timely request.moves u.state) (now : World)
    (served : now = { u.state with asked := op :: u.state.asked }) :
    Inv { state := now.carryOut op, calls := u.calls.set i (request, next (now.answer op)) } := by
  have inTime : op.Timely request.moves now := by
    subst served
    cases op <;> exact timely
  have sized : ∀ key, now.size key = u.state.size key := by
    subst served
    exact fun _ => rfl
  have recalled : ∀ key, now.recalled key = u.state.recalled key := by
    subst served
    exact fun _ => rfl
  have tidy := inv.tidy _ (List.mem_of_getElem? found)
  have placed : ∀ {call}, (u.calls.set i call)[i]? = some call := by
    intro call
    obtain ⟨bound, _⟩ := List.getElem?_eq_some_iff.mp found
    rw [List.getElem?_set_self bound]
  refine ⟨fun call mem => ?_, fun key size held => ?_⟩
  · rcases List.mem_or_eq_of_mem_set mem with old | rfl
    · exact inv.tidy call old
    · subst served
      exact tidy.2 _ ⟨u.state, _, perform_good _ _⟩
  · rcases after_step tidy.1 inTime held with right | settles | ⟨before, same, still⟩
    · exact .inl right
    · exact .inr ⟨_, List.mem_of_getElem? placed, settles⟩
    · rw [sized] at same
      rcases inv.settled key size (recalled key ▸ before) with right | ⟨call, mem, settles⟩
      · exact .inl (same.trans right)
      · obtain ⟨j, there⟩ := List.mem_iff_getElem?.mp mem
        by_cases own : j = i
        · subst own
          obtain rfl : (request, .call op next) = call := Option.some.inj (found.symm.trans there)
          exact .inr ⟨_, List.mem_of_getElem? placed, still (settles.congr (sized key))⟩
        · refine .inr ⟨call, List.mem_of_getElem? (i := j) ?_, settles.congr same⟩
          rw [List.getElem?_set_ne (Ne.symm own), there]

theorem Inv.step {act : Act} (inv : Inv u) (taken : step settings u act = some v) (served : Served act)
    (timely : Timely u act) : Inv v := by
  cases act with
  | start request =>
      cases taken
      refine ⟨fun call mem => ?_, fun key size held => ?_⟩
      · rcases List.mem_append.mp mem with old | new
        · exact inv.tidy call old
        · cases List.mem_singleton.mp new
          exact tidy_program request
      · refine (inv.settled key size held).imp id fun ⟨call, mem, settles⟩ => ?_
        exact ⟨call, List.mem_append_left _ mem, settles⟩
  | answer i luck =>
      obtain rfl : luck = .good := served
      cases found : u.calls[i]? with
      | none => simp [S3.step, Pool.step, found] at taken
      | some call =>
          obtain ⟨request, m⟩ := call
          cases m with
          | done a => simp [S3.step, Pool.step, found] at taken
          | call op next =>
              simp only [S3.step, Pool.step, found, perform_good, Option.map_some, Option.some.injEq] at taken
              subst taken
              refine inv.answer found (timely (request, op) ?_) _ rfl
              rw [Option.mem_def, waiting, found]

/-! ### The queue -/

theorem cache_land {i : Nat} : (w.land i).cache = w.cache := by
  rw [World.land]
  cases w.late[i]? with
  | none => rfl
  | some op => rfl

theorem cache_landing {landing : List Nat} : (landing.foldl World.land w).cache = w.cache := by
  induction landing generalizing w with
  | nil => rfl
  | cons i landing ih => exact ih.trans cache_land

theorem Queued.carryOut {op : Op} (queued : Queued w) : Queued (w.carryOut op) := by
  intro cache there
  obtain ⟨before, was, rfl⟩ := Option.map_eq_some_iff.mp there
  have ordered := queued before was
  cases op with
  | remember k size => exact ordered.fill
  | forget k => exact ordered.forget
  | _ => exact ordered

theorem Queued.perform {w' : World} {op : Op} {luck : Luck} {answer : op.Answer} (queued : Queued w)
    (performed : perform w op luck = some (answer, w')) : Queued w' := by
  have now : Queued (luck.landing.foldl World.land { w with asked := op :: w.asked }) := by
    intro cache there
    rw [cache_landing] at there
    exact queued cache there
  rw [S3.perform] at performed
  split at performed
  · cases performed
    exact now
  · cases performed
    exact now.carryOut
  · cases performed
    exact now
  · cases performed
    exact now.carryOut

theorem Queued.step {act : Act} (queued : Queued u.state) (taken : step settings u act = some v) :
    Queued v.state := by
  cases act with
  | start request =>
      cases taken
      exact queued
  | answer i luck =>
      cases found : u.calls[i]? with
      | none => simp [S3.step, Pool.step, found] at taken
      | some call =>
          obtain ⟨request, m⟩ := call
          cases m with
          | done a => simp [S3.step, Pool.step, found] at taken
          | call op next =>
              simp only [S3.step, Pool.step, found, Option.map_eq_some_iff] at taken
              obtain ⟨⟨answer, w'⟩, performed, rfl⟩ := taken
              exact queued.perform performed

end Step

/-! ### Every run -/

section Runs

variable {settings : Settings} {objects : Objects Bytes} {entries : Nat} {acts : List Act} {u : Calls}

theorem queued_of_run (run : Run (step settings) Any (begin_ objects entries) acts u) : Queued u.state := by
  refine run.invariant (fun u => Queued u.state) ?_ fun _ _ _ queued taken _ => queued.step taken
  intro cache there
  change (if 0 < entries then some (.new entries) else none) = some cache at there
  split at there
  · cases there
    exact .new entries
  · cases there

theorem inv_of_run
    (run : Run (step settings) (fun u act _ => Served act ∧ Timely u act) (begin_ objects entries) acts u) :
    Inv u := by
  refine run.invariant Inv ⟨fun call mem => absurd mem List.not_mem_nil, fun key size held => ?_⟩
    fun _ _ _ inv taken met => inv.step taken met.1 met.2
  obtain ⟨cache, there, got⟩ := recalled_eq_some.mp held
  change (if 0 < entries then some (.new entries) else none) = some cache at there
  split at there
  · cases there
    cases got
  · cases there

end Runs

/-- The queue of the cache is the one of its map after any run; and where every request succeeds and each
step comes in time, the cache names what exists whenever no call is in progress. -/
theorem cache_right_of_timely (settings : Settings) (objects : Objects Bytes) (entries : Nat)
    (acts : List Act) (u : Calls) :
    (Run (step settings) Any (begin_ objects entries) acts u → Queued u.state) ∧
      (Run (step settings) (fun u act _ => Served act ∧ Timely u act) (begin_ objects entries) acts u →
        Idle u → Right u.state) := by
  refine ⟨queued_of_run, fun run idle key size held => ?_⟩
  rcases (inv_of_run run).settled key size held with right | ⟨call, mem, settles⟩
  · exact right
  · have left := idle call mem
    cases waits : call.2 with
    | done a =>
        rw [waits] at settles
        cases settles
    | call op next =>
        rw [waits] at left
        cases left

/-! ### A deletion between an answer and its remembering -/

section Example

/-- The smallest parts the settings allow. -/
def smallest : Settings := ⟨5 * 1024 * 1024, by decide, 1024⟩

def blob : Text := "blob".toList

/-- A `head` is told that the object exists; before it remembers so, the object is deleted. -/
def overtaken : List Act :=
  [.start (.head blob), .answer 0 .good, .answer 0 .good, .start (.delete blob), .answer 1 .good,
    .answer 1 .good, .answer 0 .good]

/-- The `head` remembers before the deletion begins. -/
def apart : List Act :=
  [.start (.head blob), .answer 0 .good, .answer 0 .good, .answer 0 .good, .start (.delete blob),
    .answer 1 .good, .answer 1 .good]

theorem deleted_and_remembered :
    ∃ u, Run (step smallest) (fun _ act _ => Served act) (begin_ [(blob, [1, 2, 3])] 10) overtaken u ∧
      Idle u ∧ ¬Right u.state := by
  obtain ⟨u, run, passed⟩ := Run.of_test (step smallest) (fun _ act _ => Served act)
    (begin_ [(blob, [1, 2, 3])] 10) overtaken
    (fun u => (u.calls.all fun call => ended call.2) && u.state.recalled blob == some 3 &&
      u.state.size blob == none) (by decide +kernel)
  simp only [Bool.and_eq_true, List.all_eq_true, beq_iff_eq] at passed
  obtain ⟨⟨idle, held⟩, gone⟩ := passed
  refine ⟨u, run, fun call mem => idle call mem, fun right => ?_⟩
  rw [right blob 3 held] at gone
  cases gone

theorem cache_right_of_apart :
    ∃ u, Run (step smallest) (fun u act _ => Served act ∧ Timely u act) (begin_ [(blob, [1, 2, 3])] 10) apart u ∧
      Idle u ∧ Queued u.state ∧ Right u.state := by
  obtain ⟨u, run, passed⟩ := Run.of_test (step smallest) (fun u act _ => Served act ∧ Timely u act)
    (begin_ [(blob, [1, 2, 3])] 10) apart (fun u => u.calls.all fun call => ended call.2)
    (by decide +kernel)
  have idle : Idle u := List.all_eq_true.mp passed
  have any : Run (step smallest) Any (begin_ [(blob, [1, 2, 3])] 10) apart u :=
    run.strengthen (fun _ => True) trivial fun _ _ _ _ _ _ => ⟨trivial, trivial⟩
  have right := cache_right_of_timely smallest [(blob, [1, 2, 3])] 10 apart u
  exact ⟨u, run, idle, right.1 any, right.2 run idle⟩

end Example

end OpenCargo.S3
