/-
Module: OpenCargo.Policy.Pulls
Purpose: Any number of clients pulling images by their indexes (`policy/facts/oci.rs`): where each child is
  listed by the first index of its image that waits, each pull is let out once, as its index, with a child it lists.
Trusted boundary: none
Main exports: step, Calm, Inv, calm_pulls_are_let_out_once
-/
import OpenCargo.Policy.Children
import OpenCargo.Lib.Run

namespace OpenCargo.Policy.Oci

open OpenCargo.Lib

/-! ### The clients -/

/-- An index that was received, and when. -/
structure Pull where
  index : Pending
  at_ : Nat
deriving Repr, DecidableEq, Inhabited

/-- `arrived` is every pull, in the order of their indexes, and `open_` those whose child has not come yet;
`out` is what was let out; `handled` is history: every child, when it came, and what it was answered. -/
structure World where
  shared : Shared
  now : Nat
  arrived : List Pull
  open_ : List Pull
  out : List Pending
  handled : List (Pending × Nat × Option Pending)
  seen : List Nat

def start : World := ⟨.new, 0, [], [], [], [], []⟩

inductive Act where
  /-- A client's index. -/
  | index (p : Pending)
  /-- The child of the open pull at this place. -/
  | child (i : Nat) (q : Pending)
  | tick
  /-- Time passes, but not past an open pull: its child comes within `child_ttl`. -/
  | wait (d : Nat)
deriving Repr, DecidableEq, Inhabited

section Step

variable (ttl : Nat)

def indexStep (w : World) (p : Pending) : Option World :=
  if 0 < ttl ∧ p.format = .oci ∧ p.kids ≠ [] ∧ p.request ∉ w.seen then
    let (answer, shared) := classify ttl w.shared p w.now
    some { w with
      shared := shared
      arrived := w.arrived ++ [⟨p, w.now⟩]
      open_ := w.open_ ++ [⟨p, w.now⟩]
      out := w.out ++ answer.toList
      seen := p.request :: w.seen }
  else none

/-- A child is asked of the same member under the same name, and its index lists it. -/
def childStep (w : World) (i : Nat) (pull : Pull) (q : Pending) : Option World :=
  if q.format = .oci ∧ q.image = pull.index.image ∧ (q.digest.any fun hex => pull.index.kids.contains hex) ∧
      q.request ∉ w.seen then
    let (answer, shared) := classify ttl w.shared q w.now
    some { w with
      shared := shared
      open_ := w.open_.eraseIdx i
      out := w.out ++ answer.toList
      handled := (q, w.now, answer) :: w.handled
      seen := q.request :: w.seen }
  else none

def step (w : World) : Act → Option World
  | .index p => indexStep ttl w p
  | .child i q => w.open_[i]?.bind fun pull => childStep ttl w i pull q
  | .tick =>
      let (due, shared) := releaseParked ttl w.shared w.now
      some { w with shared := sweepChildren ttl shared w.now, out := w.out ++ due }
  | .wait d =>
      if ∀ pull ∈ w.open_, w.now + d < pull.at_ + ttl then some { w with now := w.now + d } else none

end Step

/-- A child is a manifest that can be read, and the first of the indexes of its image that wait lists it. -/
def Calm (w : World) (act : Act) (_ : World) : Prop :=
  match act with
  | .child _ q => q.document ≠ none ∧ q.kids = [] ∧
      ∀ e ∈ w.shared.parked, e.2.1.image = q.image →
        (∀ f ∈ w.shared.parked, f.2.1.image = q.image → e.1 ≤ f.1) → ∀ hex, q.digest = some hex → hex ∈ e.2.1.kids
  | _ => True

/-! ### The oldest of the latest -/

/-- Of as many elements of a list as it ends with, one stands at or before each of the last. -/
theorem exists_before {α : Type} {r : α → α → Prop} {all early last some_ : List α} (whole : all = early ++ last)
    (ordered : all.Pairwise r) (part : some_.Sublist all) (many : last.length = some_.length) {x : α} (mem : x ∈ last) :
    ∃ y ∈ some_, y = x ∨ r y x := by
  rw [whole] at ordered part
  obtain ⟨first, rest, rfl, inEarly, inLast⟩ := List.sublist_append_iff.mp part
  cases first with
  | nil =>
      have same := inLast.eq_of_length (by simpa using many.symm)
      exact ⟨x, by simpa [same] using mem, .inl rfl⟩
  | cons y first =>
      have inside : y ∈ early := inEarly.subset List.mem_cons_self
      exact ⟨y, by simp, .inr ((List.pairwise_append.mp ordered).2.2 y inside x mem)⟩

/-! ### The invariant -/

/-- A parked index, as the pull it is of. -/
def toPull (entry : Nat × Pending × Nat) : Pull := ⟨entry.2.1, entry.2.2⟩

/-- What is parked of an image. -/
def parkedOf (w : World) (image : Int × Text) : List (Nat × Pending × Nat) :=
  w.shared.parked.filter fun entry => entry.2.1.image = image

def arrivedOf (w : World) (image : Int × Text) : List Pull := w.arrived.filter fun pull => pull.index.image = image

def openOf (w : World) (image : Int × Text) : List Pull := w.open_.filter fun pull => pull.index.image = image

/-- Of each image as many indexes are parked as pulls are open, the latest that arrived; and each of their children
is expected. -/
structure Inv (ttl : Nat) (w : World) : Prop where
  sorted : w.shared.parked.Pairwise fun e f => e.1 < f.1
  numbered : ∀ e ∈ w.shared.parked, e.1 < w.shared.seq
  bounded : ∀ key, ∀ e ∈ w.shared.recent key, e.1 < w.shared.seq
  queued : ∀ key, (w.shared.recent key).Pairwise fun e f => e.1 ≤ f.1
  expected : ∀ e ∈ w.shared.parked, ∀ c ∈ e.2.1.kids, (e.1, e.2.2) ∈ w.shared.recent (e.2.1.member, e.2.1.name, c)
  owned : ∀ key, ∀ e ∈ w.shared.recent key, ∀ f ∈ w.shared.parked, f.1 = e.1 →
    f.2.1.image = (key.1, key.2.1) ∧ key.2.2 ∈ f.2.1.kids
  timely : ∀ pull ∈ w.open_, w.now < pull.at_ + ttl
  stamped : ∀ pull ∈ w.arrived, pull.at_ ≤ w.now
  ordered : w.arrived.Pairwise fun a b => a.at_ ≤ b.at_
  opened : w.open_.Sublist w.arrived
  latest : ∀ image, ∃ early, arrivedOf w image = early ++ (parkedOf w image).map toPull
  count : ∀ image, (parkedOf w image).length = (openOf w image).length
  once : (w.out.map Pending.request ++ w.shared.parked.map fun e => e.2.1.request).Perm
    (w.arrived.map fun pull => pull.index.request)
  carried : ∀ o ∈ w.out, ∃ pull ∈ w.arrived, ∃ body json hex, o = attach pull.index (some body) json ∧
    body.digest = some hex ∧ hex ∈ pull.index.kids
  seen : ∀ pull ∈ w.arrived, pull.index.request ∈ w.seen
  distinct : (w.arrived.map fun pull => pull.index.request).Nodup
  handled : ∀ q t answer, (q, t, answer) ∈ w.handled → ∃ pull ∈ w.arrived, ∃ hex, q.image = pull.index.image ∧
    q.digest = some hex ∧ hex ∈ pull.index.kids ∧ pull.at_ ≤ t ∧ t < pull.at_ + ttl

section Kept

variable {ttl : Nat} {w : World}

theorem Inv.alive (inv : Inv ttl w) {e : Nat × Pending × Nat} (mem : e ∈ w.shared.parked) :
    alive ttl w.now e.2.2 = true := by
  obtain ⟨early, whole⟩ := inv.latest e.2.1.image
  have part : (openOf w e.2.1.image).Sublist (arrivedOf w e.2.1.image) := inv.opened.filter _
  have ordered : (arrivedOf w e.2.1.image).Pairwise fun a b => a.at_ ≤ b.at_ := inv.ordered.filter _
  have inside : toPull e ∈ (parkedOf w e.2.1.image).map toPull :=
    List.mem_map_of_mem (List.mem_filter.mpr ⟨mem, by simp⟩)
  obtain ⟨pull, listed, before⟩ := exists_before whole ordered part
    (by rw [List.length_map]; exact inv.count _) inside
  have isOpen := (List.mem_filter.mp listed).1
  have timely := inv.timely pull isOpen
  have come := inv.stamped pull (inv.opened.subset isOpen)
  have stamp : pull.at_ ≤ e.2.2 := before.elim (fun same => by rw [same]; rfl) id
  rw [Oci.alive, decide_eq_true_eq]
  omega

theorem start_inv : Inv ttl start where
  sorted := .nil
  numbered _ mem := absurd mem List.not_mem_nil
  bounded _ _ mem := absurd mem List.not_mem_nil
  queued _ := .nil
  expected _ mem := absurd mem List.not_mem_nil
  owned _ _ mem := absurd mem List.not_mem_nil
  timely _ mem := absurd mem List.not_mem_nil
  stamped _ mem := absurd mem List.not_mem_nil
  ordered := .nil
  opened := .slnil
  latest _ := ⟨[], rfl⟩
  count _ := rfl
  once := .nil
  carried _ mem := absurd mem List.not_mem_nil
  seen _ mem := absurd mem List.not_mem_nil
  distinct := .nil
  handled _ _ _ mem := absurd mem List.not_mem_nil

theorem wait_inv {d : Nat} (inv : Inv ttl w) (promised : ∀ pull ∈ w.open_, w.now + d < pull.at_ + ttl) :
    Inv ttl { w with now := w.now + d } :=
  { inv with
    timely := promised
    stamped := fun pull mem => Nat.le_add_right_of_le (inv.stamped pull mem) }

theorem tick_inv (inv : Inv ttl w) : Inv ttl
    { w with
      shared := sweepChildren ttl (releaseParked ttl w.shared w.now).2 w.now
      out := w.out ++ (releaseParked ttl w.shared w.now).1 } := by
  have all : ∀ e ∈ w.shared.parked, Oci.alive ttl w.now e.2.2 = true := fun e mem => inv.alive mem
  have kept : (w.shared.parked.filter fun e => Oci.alive ttl w.now e.2.2) = w.shared.parked :=
    List.filter_eq_self.mpr all
  have none_ : (w.shared.parked.filter fun e => !Oci.alive ttl w.now e.2.2) = [] :=
    List.filter_eq_nil_iff.mpr fun e mem => by simp [all e mem]
  have less : ∀ key, ((w.shared.recent key).filter fun e => Oci.alive ttl w.now e.2).Sublist (w.shared.recent key) :=
    fun key => List.filter_sublist
  rw [releaseParked, none_, kept, List.map_nil, List.append_nil]
  exact
    { inv with
      bounded := fun key e mem => inv.bounded key e ((less key).subset mem)
      queued := fun key => (inv.queued key).sublist (less key)
      expected := fun e mem c listed => List.mem_filter.mpr ⟨inv.expected e mem c listed, all e mem⟩
      owned := fun key e mem => inv.owned key e ((less key).subset mem) }

theorem classify_index {shared : Shared} {p : Pending} {now : Nat} (oci : p.format = .oci) (lists : p.kids ≠ []) :
    classify ttl shared p now = (none, park shared p p.kids now) := by
  rw [classify, if_pos oci, ociClassify]
  cases source : p.source with
  | other => simp [Pending.kids, Pending.document, source] at lists
  | oci body served parsed =>
      dsimp only
      cases reads : body.document with
      | none => simp [Pending.kids, Pending.document, source, reads] at lists
      | some json =>
          have kids : p.kids = childrenOf json := by simp [Pending.kids, Pending.document, source, reads]
          dsimp only
          rw [← kids, if_pos (by simpa using lists)]

theorem index_inv {p : Pending} (inv : Inv ttl w) (clock : 0 < ttl) (fresh : p.request ∉ w.seen) : Inv ttl
    { w with
      shared := park w.shared p p.kids w.now
      arrived := w.arrived ++ [⟨p, w.now⟩]
      open_ := w.open_ ++ [⟨p, w.now⟩]
      seen := p.request :: w.seen } where
  sorted := by
    refine List.pairwise_append.mpr ⟨inv.sorted, List.pairwise_singleton _ _, fun e mem f last => ?_⟩
    rw [List.mem_singleton.mp last]
    exact inv.numbered e mem
  numbered e mem := by
    rcases List.mem_append.mp mem with earlier | last
    · exact Nat.lt_succ_of_lt (inv.numbered e earlier)
    · rw [List.mem_singleton.mp last]
      exact Nat.lt_succ_self _
  bounded key e mem := by
    rcases mem_park_recent.mp mem with earlier | ⟨rfl, -⟩
    · exact Nat.lt_succ_of_lt (inv.bounded key e earlier)
    · exact Nat.lt_succ_self _
  queued key := by
    rw [park_recent]
    refine List.pairwise_append.mpr ⟨inv.queued key, List.pairwise_replicate.mpr (.inr (Nat.le_refl _)), ?_⟩
    intro e mem f last
    rw [List.eq_of_mem_replicate last]
    exact Nat.le_of_lt (inv.bounded key e mem)
  expected e mem c listed := by
    rcases List.mem_append.mp mem with earlier | last
    · exact mem_park_recent.mpr (.inl (inv.expected e earlier c listed))
    · cases List.mem_singleton.mp last
      exact mem_park_recent.mpr (.inr ⟨rfl, c, listed, rfl⟩)
  owned key e mem f parked same := by
    rcases mem_park_recent.mp mem with earlier | ⟨rfl, c, listed, rfl⟩
    · rcases List.mem_append.mp parked with before | last
      · exact inv.owned key e earlier f before same
      · have less := inv.bounded key e earlier
        rw [List.mem_singleton.mp last] at same
        exact absurd same (Nat.ne_of_gt less)
    · rcases List.mem_append.mp parked with before | last
      · exact absurd same (Nat.ne_of_lt (inv.numbered f before))
      · rw [List.mem_singleton.mp last]
        exact ⟨rfl, listed⟩
  timely pull mem := by
    rcases List.mem_append.mp mem with earlier | last
    · exact inv.timely pull earlier
    · rw [List.mem_singleton.mp last]
      exact Nat.lt_add_of_pos_right clock
  stamped pull mem := by
    rcases List.mem_append.mp mem with earlier | last
    · exact inv.stamped pull earlier
    · rw [List.mem_singleton.mp last]
  ordered := by
    refine List.pairwise_append.mpr ⟨inv.ordered, List.pairwise_singleton _ _, fun a mem b last => ?_⟩
    rw [List.mem_singleton.mp last]
    exact inv.stamped a mem
  opened := inv.opened.append (List.Sublist.refl _)
  latest image := by
    obtain ⟨early, whole⟩ := inv.latest image
    rw [arrivedOf] at whole
    refine ⟨early, ?_⟩
    rw [arrivedOf, parkedOf, park, List.filter_append, List.filter_append, whole, parkedOf, List.map_append,
      List.append_assoc]
    by_cases same : p.image = image <;> simp [same, toPull]
  count image := by
    have before := inv.count image
    rw [parkedOf, openOf] at before
    rw [parkedOf, openOf, park, List.filter_append, List.filter_append, List.length_append, List.length_append, before]
    by_cases same : p.image = image <;> simp [same]
  once := by
    have more := inv.once.append_right [p.request]
    rw [park, List.map_append, List.map_append, ← List.append_assoc]
    exact more
  carried o mem := by
    obtain ⟨pull, arrived, rest⟩ := inv.carried o mem
    exact ⟨pull, List.mem_append_left _ arrived, rest⟩
  seen pull mem := by
    rcases List.mem_append.mp mem with earlier | last
    · exact List.mem_cons_of_mem _ (inv.seen pull earlier)
    · rw [List.mem_singleton.mp last]
      exact List.mem_cons_self
  distinct := by
    rw [List.map_append]
    refine inv.distinct.append (List.nodup_singleton _) ?_
    intro request mem last
    obtain ⟨pull, arrived, rfl⟩ := List.mem_map.mp mem
    rw [List.map_singleton, List.mem_singleton] at last
    exact fresh (last ▸ inv.seen pull arrived)
  handled q t answer mem := by
    obtain ⟨pull, arrived, rest⟩ := inv.handled q t answer mem
    exact ⟨pull, List.mem_append_left _ arrived, rest⟩

theorem Inv.first_parked (inv : Inv ttl w) {image : Int × Text} {e : Nat × Pending × Nat}
    {rest : List (Nat × Pending × Nat)} (parked : parkedOf w image = e :: rest) :
    (e ∈ w.shared.parked ∧ e.2.1.image = image) ∧ (∀ f ∈ rest, e.1 < f.1) ∧
      ∀ f ∈ w.shared.parked, f.2.1.image = image → e.1 ≤ f.1 := by
  have sorted : (parkedOf w image).Pairwise fun e f => e.1 < f.1 := inv.sorted.filter _
  have mem : e ∈ parkedOf w image := parked ▸ List.mem_cons_self
  rw [parked] at sorted
  have before := (List.pairwise_cons.mp sorted).1
  refine ⟨⟨List.mem_of_mem_filter mem, by simpa using (List.mem_filter.mp mem).2⟩, before, fun f inside same => ?_⟩
  have memF : f ∈ parkedOf w image := List.mem_filter.mpr ⟨inside, by simpa using same⟩
  rw [parked] at memF
  rcases List.mem_cons.mp memF with rfl | later
  · exact Nat.le_refl _
  · exact Nat.le_of_lt (before f later)

/-- The index `e` is let out, and `queue` is left of what the child was expected by. -/
def Shared.letOut (shared : Shared) (key : ChildKey) (queue : List (Nat × Nat)) (e : Nat × Pending × Nat) : Shared :=
  supersede { shared.setQueue key queue with parked := shared.parked.filter fun f => f.1 != e.1 }
    e.2.1.member e.2.1.name e.1

section LetOut

variable {shared : Shared} {key : ChildKey} {queue : List (Nat × Nat)} {e : Nat × Pending × Nat}

theorem letOut_recent (k : ChildKey) : (shared.letOut key queue e).recent k =
    if k.1 = e.2.1.member ∧ k.2.1 = e.2.1.name then
      (Function.update shared.recent key queue k).filter fun x => e.1 ≤ x.1
    else Function.update shared.recent key queue k := rfl

theorem letOut_sublist (part : queue.Sublist (shared.recent key)) (k : ChildKey) :
    ((shared.letOut key queue e).recent k).Sublist (shared.recent k) := by
  have updated : (Function.update shared.recent key queue k).Sublist (shared.recent k) := by
    by_cases same : k = key
    · rw [same, Function.update_self]
      exact part
    · rw [Function.update_of_ne same]
  rw [letOut_recent]
  split
  · exact List.filter_sublist.trans updated
  · exact updated

theorem mem_letOut {k : ChildKey} {x : Nat × Nat} (mem : x ∈ shared.recent k) (later : e.1 < x.1)
    (kept : k = key → x ∈ queue) : x ∈ (shared.letOut key queue e).recent k := by
  have updated : x ∈ Function.update shared.recent key queue k := by
    by_cases same : k = key
    · rw [same, Function.update_self]
      exact kept same
    · rwa [Function.update_of_ne same]
  rw [letOut_recent]
  split
  · exact List.mem_filter.mpr ⟨updated, by simpa using Nat.le_of_lt later⟩
  · exact updated

end LetOut

theorem classify_child (inv : Inv ttl w) {q : Pending} {json : Document} {hex : Text}
    {e : Nat × Pending × Nat} {rest : List (Nat × Pending × Nat)} (oci : q.format = .oci)
    (reads : q.document = some json) (leaf : q.kids = []) (digest : q.digest = some hex)
    (parked : parkedOf w q.image = e :: rest) (listed : hex ∈ e.2.1.kids) :
    ∃ body, body.digest = some hex ∧ ∃ queue, queue.Sublist (w.shared.recent (q.member, q.name, hex)) ∧
      (∀ x ∈ w.shared.recent (q.member, q.name, hex), e.1 < x.1 → Oci.alive ttl w.now x.2 = true → x ∈ queue) ∧
      classify ttl w.shared q w.now =
        (some (attach e.2.1 (some body) json), w.shared.letOut (q.member, q.name, hex) queue e) := by
  obtain ⟨⟨inside, image⟩, -, least⟩ := inv.first_parked parked
  obtain ⟨member, name⟩ := Prod.mk.inj image
  have due := inv.expected e inside hex listed
  rw [member, name] at due
  have waits : (e.1, e.2.2) ∈ w.shared.waiting ttl (q.member, q.name, hex) w.now :=
    List.mem_filter.mpr ⟨due, inv.alive inside⟩
  have isParked : w.shared.isParked e.1 = true := isParked_iff.mpr ⟨e, inside, rfl⟩
  have cases_ := classify_cases ttl w.shared q w.now
  generalize classify ttl w.shared q w.now = result at cases_
  obtain ⟨answer, shared⟩ := result
  cases cases_ with
  | through plain =>
      cases source : q.source with
      | other => simp [Pending.document, source] at reads
      | oci body served parsed =>
          rw [Pending.document, source] at reads
          have undated := (plain body served parsed json oci source reads).2
          simp [Pending.digest, source, undated] at digest
  | parked source reads' index => simp [Pending.kids, Pending.document, source, reads', index] at leaf
  | alone source _ _ digest' unexpected =>
      have same : some hex = some _ := digest.symm.trans (by rw [Pending.digest, source]; exact digest')
      cases same
      rw [unexpected] at waits
      cases waits
  | suppressed source _ _ digest' _ unparked =>
      have same : some hex = some _ := digest.symm.trans (by rw [Pending.digest, source]; exact digest')
      cases same
      rw [unparked _ waits] at isParked
      cases isParked
  | @released body _ _ json' _ front back entry index source reads' _ digest' expected first found =>
      have same : some hex = some _ := digest.symm.trans (by rw [Pending.digest, source]; exact digest')
      cases same
      have same : some json = some json' := reads.symm.trans (by rw [Pending.document, source]; exact reads')
      cases same
      have queued : (w.shared.waiting ttl (q.member, q.name, hex) w.now).Pairwise fun e f => e.1 ≤ f.1 :=
        (inv.queued _).filter _
      have indexIn := List.mem_of_find?_eq_some found
      have number : index.1 = entry.1 := by simpa using List.find?_some found
      have entryIn : entry ∈ w.shared.recent (q.member, q.name, hex) := by
        have mem : entry ∈ w.shared.waiting ttl (q.member, q.name, hex) w.now := by simp [expected]
        exact List.mem_of_mem_filter mem
      have owner := (inv.owned _ entry entryIn index indexIn number).1
      -- the entry of the first index stands no earlier than the one that was spent
      have before : entry.1 ≤ e.1 := by
        rw [expected] at waits queued
        rcases List.mem_append.mp waits with early | late
        · rw [first _ early] at isParked
          cases isParked
        · rcases List.mem_cons.mp late with same | later
          · rw [← same]
          · exact (List.pairwise_cons.mp (List.pairwise_append.mp queued).2.1).1 _ later
      have same : index = e := parked_inj inv.sorted indexIn inside (Nat.le_antisymm (by omega) (by
        have := least index indexIn owner
        omega))
      subst same
      refine ⟨body, digest', front ++ back, ?_, ?_, ?_⟩
      · have part : (front ++ back).Sublist (front ++ entry :: back) :=
          (List.Sublist.refl _).append (List.sublist_cons_self _ _)
        exact (expected ▸ part).trans List.filter_sublist
      · intro x mem later live
        have mem : x ∈ w.shared.waiting ttl (q.member, q.name, hex) w.now := List.mem_filter.mpr ⟨mem, live⟩
        rw [expected] at mem
        rcases List.mem_append.mp mem with early | late
        · exact List.mem_append_left _ early
        · rcases List.mem_cons.mp late with rfl | behind
          · omega
          · exact List.mem_append_right _ behind
      · rw [Shared.letOut, number]
        rfl

theorem Inv.parked_without (inv : Inv ttl w) {image : Int × Text} {e : Nat × Pending × Nat}
    {rest : List (Nat × Pending × Nat)} (parked : parkedOf w image = e :: rest) (other : Int × Text) :
    ((w.shared.parked.filter fun f => f.1 != e.1).filter fun f => f.2.1.image = other) =
      if image = other then rest else parkedOf w other := by
  obtain ⟨⟨inside, own⟩, later, -⟩ := inv.first_parked parked
  rw [List.filter_comm]
  change (parkedOf w other).filter _ = _
  by_cases same : image = other
  · subst same
    rw [if_pos rfl, parked, List.filter_cons_of_neg (by simp)]
    refine List.filter_eq_self.mpr fun f mem => ?_
    simpa using Nat.ne_of_gt (later f mem)
  · rw [if_neg same]
    refine List.filter_eq_self.mpr fun f mem => ?_
    have theirs : f.2.1.image = other := by simpa using (List.mem_filter.mp mem).2
    have apart : f.1 ≠ e.1 := by
      intro number
      have alike := parked_inj inv.sorted (List.mem_of_mem_filter mem) inside number
      exact same (own.symm.trans ((congrArg (·.2.1.image) alike).symm.trans theirs))
    simpa using apart

theorem openOf_erase {i : Nat} {pull : Pull} (at_ : w.open_[i]? = some pull) (image : Int × Text) :
    ((w.open_.eraseIdx i).filter fun pull => pull.index.image = image).length +
      (if pull.index.image = image then 1 else 0) = (openOf w image).length := by
  obtain ⟨inside, rfl⟩ := List.getElem?_eq_some_iff.mp at_
  have whole := ((List.getElem_cons_eraseIdx_perm inside).filter fun pull => pull.index.image = image).length_eq
  rw [openOf, ← whole]
  by_cases same : w.open_[i].index.image = image
  · rw [List.filter_cons_of_pos (by simpa using same), if_pos same, List.length_cons]
  · rw [List.filter_cons_of_neg (by simpa using same), if_neg same, Nat.add_zero]

theorem child_inv {i : Nat} {pull : Pull} {q : Pending} {body : Body} {json : Document} {hex : Text}
    {queue : List (Nat × Nat)} {e : Nat × Pending × Nat} {rest : List (Nat × Pending × Nat)} (inv : Inv ttl w)
    (at_ : w.open_[i]? = some pull) (image : q.image = pull.index.image) (digest : q.digest = some hex)
    (own : hex ∈ pull.index.kids) (parked : parkedOf w q.image = e :: rest) (listed : hex ∈ e.2.1.kids)
    (dated : body.digest = some hex) (part : queue.Sublist (w.shared.recent (q.member, q.name, hex)))
    (left : ∀ x ∈ w.shared.recent (q.member, q.name, hex), e.1 < x.1 → Oci.alive ttl w.now x.2 = true → x ∈ queue)
    (answer : Option Pending) : Inv ttl
    { w with
      shared := w.shared.letOut (q.member, q.name, hex) queue e
      open_ := w.open_.eraseIdx i
      out := w.out ++ [attach e.2.1 (some body) json]
      handled := (q, w.now, answer) :: w.handled
      seen := q.request :: w.seen } := by
  obtain ⟨⟨inside, ownImage⟩, -, least⟩ := inv.first_parked parked
  have mine : pull ∈ w.open_ := List.mem_of_getElem? at_
  have arrived : pull ∈ w.arrived := inv.opened.subset mine
  have fewer : (w.shared.letOut (q.member, q.name, hex) queue e).parked.Sublist w.shared.parked := List.filter_sublist
  have less := letOut_sublist (e := e) part
  have whole : ∀ other, ∃ early, arrivedOf w other = early ++
      (if q.image = other then rest else parkedOf w other).map toPull := by
    intro other
    obtain ⟨early, whole⟩ := inv.latest other
    by_cases same : q.image = other
    · rw [← same, parked] at whole
      rw [if_pos same, ← same]
      exact ⟨early ++ [toPull e], by rw [whole, List.map_cons, List.append_assoc]; rfl⟩
    · rw [if_neg same]
      exact ⟨early, whole⟩
  obtain ⟨before, ends⟩ := inv.latest q.image
  have first : toPull e ∈ w.arrived := by
    have mem : toPull e ∈ arrivedOf w q.image := by rw [ends, parked]; simp
    exact List.mem_of_mem_filter mem
  exact
    { sorted := inv.sorted.sublist fewer
      numbered := fun f mem => inv.numbered f (fewer.subset mem)
      bounded := fun key x mem => inv.bounded key x ((less key).subset mem)
      queued := fun key => (inv.queued key).sublist (less key)
      expected := by
        intro f mem c lists
        obtain ⟨memF, apart⟩ := List.mem_filter.mp mem
        have expected := inv.expected f memF c lists
        by_cases theirs : f.2.1.image = q.image
        · have later : e.1 < f.1 := Nat.lt_of_le_of_ne (least f memF theirs) (Ne.symm (by simpa using apart))
          exact mem_letOut expected later fun same => left _ (same ▸ expected) later (inv.alive memF)
        · have foreign : ¬(f.2.1.member = e.2.1.member ∧ f.2.1.name = e.2.1.name) := fun same =>
            theirs ((Prod.ext same.1 same.2 : f.2.1.image = e.2.1.image).trans ownImage)
          have apart : (f.2.1.member, f.2.1.name, c) ≠ (q.member, q.name, hex) := by
            intro same
            obtain ⟨member, same⟩ := Prod.mk.inj same
            exact theirs (Prod.ext member (Prod.mk.inj same).1)
          rw [letOut_recent, if_neg foreign, Function.update_of_ne apart]
          exact expected
      owned := fun key x mem f inF => inv.owned key x ((less key).subset mem) f (fewer.subset inF)
      timely := fun pull mem => inv.timely pull ((List.eraseIdx_sublist _ _).subset mem)
      stamped := inv.stamped
      ordered := inv.ordered
      opened := (List.eraseIdx_sublist _ _).trans inv.opened
      latest := by
        intro other
        rw [parkedOf]
        change ∃ early, arrivedOf w other = early ++
          ((w.shared.parked.filter fun f => f.1 != e.1).filter fun f => f.2.1.image = other).map toPull
        rw [inv.parked_without parked]
        exact whole other
      count := by
        intro other
        have before := inv.count other
        have erased := openOf_erase at_ other
        change ((w.shared.parked.filter fun f => f.1 != e.1).filter fun f => f.2.1.image = other).length =
          ((w.open_.eraseIdx i).filter fun pull => pull.index.image = other).length
        rw [inv.parked_without parked]
        rw [← image] at erased
        by_cases same : q.image = other
        · rw [← same, parked, List.length_cons] at before
          rw [if_pos same] at erased ⊢
          rw [← same] at erased ⊢
          omega
        · rw [if_neg same] at erased ⊢
          omega
      once := by
        have taken := ((parked_perm inv.sorted inside).map fun f => f.2.1.request).append_left (w.out.map Pending.request)
        rw [List.map_append, List.append_assoc, List.map_singleton, attach_request]
        exact taken.symm.trans inv.once
      carried := by
        intro o mem
        rcases List.mem_append.mp mem with earlier | last
        · exact inv.carried o earlier
        · rw [List.mem_singleton.mp last]
          exact ⟨toPull e, first, body, json, hex, rfl, dated, listed⟩
      seen := fun pull mem => List.mem_cons_of_mem _ (inv.seen pull mem)
      distinct := inv.distinct
      handled := by
        intro q' t answer' mem
        rcases List.mem_cons.mp mem with same | earlier
        · cases same
          exact ⟨pull, arrived, hex, image, digest, own, inv.stamped pull arrived, inv.timely pull mine⟩
        · exact inv.handled q' t answer' earlier }

theorem step_inv {w' : World} {act : Act} (inv : Inv ttl w) (taken : step ttl w act = some w') (calm : Calm w act w') :
    Inv ttl w' := by
  cases act with
  | index p =>
      rw [step, indexStep] at taken
      split at taken
      case isFalse => cases taken
      case isTrue pulls =>
        obtain ⟨clock, oci, lists, fresh⟩ := pulls
        rw [classify_index oci lists] at taken
        cases taken
        rw [Option.toList_none, List.append_nil]
        exact index_inv inv clock fresh
  | child i q =>
      obtain ⟨pull, at_, taken⟩ := Option.bind_eq_some_iff.mp taken
      rw [childStep] at taken
      split at taken
      case isFalse => cases taken
      case isTrue asked =>
        obtain ⟨oci, image, digested, fresh⟩ := asked
        obtain ⟨hex, digest, own⟩ := (Option.any_eq_true _ _).mp digested
        obtain ⟨readable, leaf, calm⟩ := calm
        obtain ⟨json, reads⟩ := Option.ne_none_iff_exists'.mp readable
        have waits : parkedOf w q.image ≠ [] := by
          have mine : pull ∈ openOf w q.image :=
            List.mem_filter.mpr ⟨List.mem_of_getElem? at_, by simpa using image.symm⟩
          rw [← List.length_pos_iff, inv.count, List.length_pos_iff]
          exact List.ne_nil_of_mem mine
        obtain ⟨e, rest, parked⟩ := List.exists_cons_of_ne_nil waits
        obtain ⟨⟨inside, theirs⟩, -, least⟩ := inv.first_parked parked
        have listed := calm e inside theirs least hex digest
        obtain ⟨body, dated, queue, part, left, classified⟩ := classify_child inv oci reads leaf digest parked listed
        rw [classified] at taken
        cases taken
        exact child_inv inv at_ image digest (by simpa using own) parked listed dated part left _
  | tick =>
      cases taken
      exact tick_inv inv
  | wait d =>
      rw [step] at taken
      split at taken
      case isFalse => cases taken
      case isTrue promised =>
        cases taken
        exact wait_inv inv promised

theorem Inv.length_parked (inv : Inv ttl w) : w.shared.parked.length = w.open_.length := by
  have images : (w.shared.parked.map fun e => e.2.1.image).Perm (w.open_.map fun pull => pull.index.image) := by
    refine List.perm_iff_count.mpr fun image => ?_
    rw [List.count_eq_countP, List.count_eq_countP, List.countP_map, List.countP_map, List.countP_eq_length_filter,
      List.countP_eq_length_filter]
    simpa [parkedOf, openOf, Function.comp_def, beq_eq_decide] using inv.count image
  simpa using images.length_eq

end Kept

/-! ### Pulls are let out once -/

theorem calm_pulls_are_let_out_once {ttl : Nat} {acts : List Act} {w : World}
    (run : Run (step ttl) Calm start acts w) :
    (w.arrived.map fun pull => pull.index.request).Nodup ∧ (w.out.map Pending.request).Nodup ∧
      w.out.length + w.open_.length = w.arrived.length ∧
      (w.open_ = [] → (w.out.map Pending.request).Perm (w.arrived.map fun pull => pull.index.request)) ∧
      (∀ o ∈ w.out, ∃ pull ∈ w.arrived, ∃ body json hex, o = attach pull.index (some body) json ∧
        body.digest = some hex ∧ hex ∈ pull.index.kids) ∧
      ∀ q t, (q, t, none) ∈ w.handled → ∃ pull ∈ w.arrived, ∃ hex, q.image = pull.index.image ∧
        q.digest = some hex ∧ hex ∈ pull.index.kids ∧ pull.at_ ≤ t ∧ t < pull.at_ + ttl := by
  have inv : Inv ttl w := run.invariant (Inv ttl) start_inv fun _ _ _ inv taken calm => step_inv inv taken calm
  have many := inv.length_parked
  refine ⟨inv.distinct, ?_, ?_, ?_, inv.carried, fun q t => inv.handled q t none⟩
  · exact (inv.once.nodup_iff.mpr inv.distinct).of_append_left
  · have whole := inv.once.length_eq
    simp only [List.length_append, List.length_map] at whole
    omega
  · intro closed
    rw [closed, List.length_nil, List.length_eq_zero_iff] at many
    have whole := inv.once
    rwa [many, List.map_nil, List.append_nil] at whole

/-! ### Runs -/

/-- An index and a manifest, by what they list and what they are. -/
def anIndex (request : Nat) (name tag : Text) (children : List Text) : Pending where
  request := request
  member := 1
  format := .oci
  name := name
  source := .oci ⟨some tag, some ⟨none, some (children.map fun c => ⟨none, some c⟩), false⟩⟩ none none

def aManifest (request : Nat) (name hex : Text) : Pending where
  request := request
  member := 1
  format := .oci
  name := name
  source := .oci ⟨some hex, some ⟨none, none, true⟩⟩ none none

instance (w : World) (act : Act) (w' : World) : Decidable (Calm w act w') :=
  match act with
  | .child _ q =>
      decidable_of_iff (q.document ≠ none ∧ q.kids = [] ∧
        ∀ e ∈ w.shared.parked, e.2.1.image = q.image →
          (∀ f ∈ w.shared.parked, f.2.1.image = q.image → e.1 ≤ f.1) →
            (q.digest.all fun hex => e.2.1.kids.contains hex) = true)
        (by simp only [Calm, Option.all_eq_true, List.contains_iff_mem])
  | .index _ => .isTrue trivial
  | .tick => .isTrue trivial
  | .wait _ => .isTrue trivial

/-- Two clients pull one tag on a platform each, and their requests cross. -/
def crossingPulls : List Act :=
  [.index (anIndex 0 "nginx".toList "l".toList ["amd".toList, "arm".toList]),
    .index (anIndex 1 "nginx".toList "l".toList ["amd".toList, "arm".toList]), .wait 5, .tick,
    .child 1 (aManifest 2 "nginx".toList "arm".toList), .child 0 (aManifest 3 "nginx".toList "amd".toList)]

/-- Two clients pull two tags of one image, whose indexes list different children. -/
def crossingTags : List Act :=
  [.index (anIndex 0 "nginx".toList "a".toList ["old".toList]),
    .index (anIndex 1 "nginx".toList "b".toList ["new".toList]), .wait 5,
    .child 1 (aManifest 2 "nginx".toList "new".toList), .child 0 (aManifest 3 "nginx".toList "old".toList),
    .wait 60, .tick]

theorem crossing_pulls_are_let_out_once :
    ∃ w, Run (step 60) Calm start crossingPulls w ∧ w.open_ = [] ∧ (w.out.map Pending.request).Perm (w.arrived.map fun pull => pull.index.request) := by
  obtain ⟨w, run, closed⟩ := Run.of_test (step 60) Calm start crossingPulls (fun w => w.open_.isEmpty) (by decide)
  have closed : w.open_ = [] := by simpa using closed
  exact ⟨w, run, closed, (calm_pulls_are_let_out_once run).2.2.2.1 closed⟩

/-- The child of the second lets out its index and ends the first pull, so the child of the first is recorded on its
own, and the index of the first waits for the tick, which lets it out without a child. -/
theorem crossing_tags_are_let_out_twice :
    ∃ w, Run (step 60) Any start crossingTags w ∧
      w.open_ = [] ∧ w.out.map Pending.request = [1, 3, 0] ∧
      ¬(w.out.map Pending.request).Perm (w.arrived.map fun pull => pull.index.request) ∧
      ∃ o ∈ w.out, o.request = 0 ∧ o.source = (anIndex 0 "nginx".toList "a".toList ["old".toList]).source := by
  obtain ⟨w, run, tested⟩ := Run.of_test (step 60) Any start crossingTags (fun w => w.open_.isEmpty &&
    w.out.map Pending.request = [1, 3, 0] && w.arrived.map (fun pull => pull.index.request) = [0, 1] &&
    w.out.any fun o => o.request = 0 && o.source = (anIndex 0 "nginx".toList "a".toList ["old".toList]).source)
    (by decide)
  simp only [Bool.and_eq_true, List.isEmpty_iff, decide_eq_true_eq, List.any_eq_true] at tested
  obtain ⟨⟨⟨closed, out⟩, arrived⟩, waited⟩ := tested
  refine ⟨w, run, closed, out, ?_, waited⟩
  rw [out, arrived]
  decide

end OpenCargo.Policy.Oci
