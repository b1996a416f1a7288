/-
Module: OpenCargo.Nuget.Current
Purpose: Whether a document of hosted members is the one of the rows at some moment of its request. It is as long
  as no member's rows change between two reads of one round over the members, and what is stored was collected
  while the members had the stamps it is stored under.
Trusted boundary: as Nuget.Documents
Main exports: Inv, Inv.step, Current, current_of_steady
-/
import OpenCargo.Nuget.Documents

namespace OpenCargo.Nuget

open OpenCargo.Lib

variable {site : Site} {s s' : State} {t u : Tables} {key : DocKey}

/-! ### A round over the members at one moment -/

def AllHosted (site : Site) (key : DocKey) : Prop := ∀ member ∈ key.view, site.hosted member = true

instance : Decidable (AllHosted site key) := inferInstanceAs (Decidable (∀ _ ∈ _, _ = _))

/-- The stamps of some members. -/
def stampsOf (t : Tables) (id : Text) (members : List Int) : List Text :=
  members.map fun member => hostedStamp t member id

/-- What some members know of an id. -/
def collected (site : Site) (t : Tables) (id : Text) (members : List Int) : List (List Entry) :=
  members.filterMap fun member => hostedEntries site.decode t member id

/-- The document of the rows as they stand. -/
def rendering (site : Site) (t : Tables) (key : DocKey) : Except ResolveError Bytes :=
  compose site key (collected site t key.id key.view) none

/-- One state of the rows before the other, either way. -/
def Comparable (t u : Tables) : Prop := Sound t ∧ Sound u ∧ (Later t u ∨ Later u t)

theorem collected_of_stamps (both : Comparable t u) {id : Text} {members : List Int}
    (same : stampsOf t id members = stampsOf u id members) :
    collected site t id members = collected site u id members := by
  obtain ⟨one, two, order⟩ := both
  refine List.filterMap_congr fun member mem => ?_
  have stamps := List.map_inj_left.mp same member mem
  rcases order with later | later
  · exact hostedEntries_of_stamp site.decode one later stamps
  · exact (hostedEntries_of_stamp site.decode two later stamps.symm).symm

theorem rendering_of_stamps (both : Comparable t u)
    (same : stampsOf t key.id key.view = stampsOf u key.id key.view) :
    rendering site t key = rendering site u key := by
  rw [rendering, rendering, collected_of_stamps both same]

/-! ### Steps at which nothing comes between -/

/-- A request has read some of its members in a round and not yet the others. -/
def Request.Between (r : Request) : Prop :=
  match r.phase with
  | .stamping left _ => left ≠ [] ∧ left ≠ r.key.view
  | .collecting _ _ left _ _ => left ≠ [] ∧ left ≠ r.key.view
  | _ => False

/-- No member's rows change between two reads of one round over the members; and where the last member is read by
a computation whose document is to be stored, the members have the stamps it is to be stored under. -/
def Steady (site : Site) (s : State) : Act → Prop
  | .change c => ∀ r ∈ s.requests, AllHosted site r.key → r.Between →
      stampsOf (s.tables.change c) r.key.id r.key.view = stampsOf s.tables r.key.id r.key.view
  | .next i fails _ => ∀ r ∈ s.requests[i]?, AllHosted site r.key → fails = false →
      match r.phase with
      | .collecting sources (some _) [_] _ _ =>
          (∃ body, rendering site s.tables r.key = .ok body) →
            sources.stamps = stampsOf s.tables r.key.id r.key.view
      | _ => True
  | _ => True

/-! ### What holds throughout -/

/-- How far a request is. What a whole round read is of one moment; what a round has read so far is of now. -/
def Reads (site : Site) (s : State) (r : Request) : Prop :=
  match r.phase with
  | .stamping left sources => ∃ done, r.key.view = done ++ left ∧ sources.upstream = false ∧
      if left = [] then ∃ t ∈ r.moments, sources.stamps = stampsOf t r.key.id r.key.view
      else sources.stamps = stampsOf s.tables r.key.id done
  | .asking sources _ => ∃ t ∈ r.moments, sources.stamps = stampsOf t r.key.id r.key.view
  | .collecting sources slot left hits degraded => ∃ done, r.key.view = done ++ left ∧ degraded = none ∧
      if left = [] then ∃ t ∈ r.moments, hits = collected site t r.key.id r.key.view ∧
        (slot ≠ none → (∃ body, rendering site t r.key = .ok body) →
          sources.stamps = stampsOf t r.key.id r.key.view)
      else hits = collected site s.tables r.key.id done
  | .ended => True

/-- The slot a request has. -/
def Phase.slot? : Phase → Option Nat
  | .asking _ c => some c
  | .collecting _ slot _ _ _ => slot
  | _ => none

/-- A document is stored under the stamps of a moment it is the document of. -/
def Vouched (site : Site) (s : State) (cell : Slot) : Prop :=
  ∀ stored ∈ cell.stored, ∃ t ∈ s.past, stored.sources.stamps = stampsOf t cell.key.id cell.key.view ∧
    rendering site t cell.key = .ok stored.value

/-- A document that was served is that of a moment of its request. -/
def Current (site : Site) (s : State) : Prop :=
  ∀ a ∈ s.served, AllHosted site a.key → ∃ t ∈ a.moments, rendering site t a.key = .ok a.body

structure Inv (site : Site) (s : State) : Prop where
  now : s.tables ∈ s.past
  sound : ∀ t ∈ s.past, Sound t ∧ Later t s.tables
  order : ∀ t ∈ s.past, ∀ u ∈ s.past, Comparable t u
  during : ∀ r ∈ s.requests, s.tables ∈ r.moments ∧ ∀ t ∈ r.moments, t ∈ s.past
  slots : ∀ key c, s.memo.slots.get key = some c → ∃ cell, s.memo.cells[c]? = some cell ∧ cell.key = key
  named : ∀ r ∈ s.requests, ∀ c ∈ r.phase.slot?, ∃ cell, s.memo.cells[c]? = some cell ∧ cell.key = r.key
  vouched : ∀ cell ∈ s.memo.cells, AllHosted site cell.key → Vouched site s cell
  reads : ∀ r ∈ s.requests, AllHosted site r.key → Reads site s r
  current : Current site s

theorem inv_begin (now : Int) : Inv site (begin_ now) where
  now := List.mem_singleton_self _
  sound t mem := by
    rw [List.mem_singleton.mp mem]
    exact ⟨sound_empty, .refl _⟩
  order t one u two := by
    rw [List.mem_singleton.mp one, List.mem_singleton.mp two]
    exact ⟨sound_empty, sound_empty, .inl (.refl _)⟩
  during := nofun
  slots := nofun
  named := nofun
  vouched := nofun
  reads := nofun
  current := nofun

/-! ### The memo's operations -/

section Memos

variable {m m' : Memo} {c : Nat} {cell : Slot}

/-- The table leads to slots of its own keys. -/
def Keyed (m : Memo) : Prop :=
  ∀ key c, m.slots.get key = some c → ∃ cell, m.cells[c]? = some cell ∧ cell.key = key

/-- One memo after another: the slots there were are there, for the keys they were made for; and what is stored
in a slot was stored in it, or meets `P`. -/
structure Onward (P : Slot → Prop) (m m' : Memo) : Prop where
  keyed : Keyed m → Keyed m'
  retains : ∀ (c : Nat) (cell : Slot), m.cells[c]? = some cell →
    ∃ cell', m'.cells[c]? = some cell' ∧ cell'.key = cell.key
  stored : ∀ cell' ∈ m'.cells, P cell' ∨ ∃ cell ∈ m.cells, cell'.key = cell.key ∧ cell'.stored = cell.stored

variable {P : Slot → Prop}

theorem Onward.refl (m : Memo) : Onward P m m :=
  ⟨id, fun _ cell there => ⟨cell, there, rfl⟩, fun cell mem => .inr ⟨cell, mem, rfl, rfl⟩⟩

theorem Onward.forgets {m'' : Memo} (onward : Onward P m m') (cells : m''.cells = m'.cells)
    (fewer : ∀ key c, m''.slots.get key = some c → m'.slots.get key = some c) : Onward P m m'' where
  keyed keyed key c found := by
    rw [cells]
    exact onward.keyed keyed key c (fewer key c found)
  retains := cells ▸ onward.retains
  stored := cells ▸ onward.stored

theorem onward_slot (m : Memo) (key : DocKey) : Onward (fun cell => cell.stored = none) m (m.slot key).2 := by
  rw [Memo.slot]
  split
  · exact .refl m
  · have extends_ : ∀ (c : Nat) (cell : Slot), m.cells[c]? = some cell → (m.cells ++ [⟨key, none, none⟩])[c]? = some cell := by
      intro c cell there
      rw [List.getElem?_append_left (List.getElem?_eq_some_iff.mp there).1, there]
    refine ⟨fun keyed other c found => ?_, fun c cell there => ⟨cell, extends_ c cell there, rfl⟩, fun cell mem => ?_⟩
    · dsimp only at found
      rw [Entries.get_set] at found
      split at found
      · rename_i same
        cases found
        exact ⟨⟨key, none, none⟩, List.getElem?_concat_length, same.symm⟩
      · obtain ⟨cell, there, named⟩ := keyed other c found
        exact ⟨cell, extends_ c cell there, named⟩
    · rcases List.mem_append.mp mem with old | new
      · exact .inr ⟨cell, old, rfl, rfl⟩
      · rw [List.mem_singleton.mp new]
        exact .inl rfl

theorem slot_named (keyed : Keyed m) (key : DocKey) :
    ∃ cell, (m.slot key).2.cells[(m.slot key).1]? = some cell ∧ cell.key = key := by
  rw [Memo.slot]
  split
  · exact keyed key _ ‹_›
  · exact ⟨⟨key, none, none⟩, List.getElem?_concat_length, rfl⟩

theorem onward_modify (m : Memo) (c : Nat) {f : Slot → Slot} (keeps : ∀ cell, (f cell).key = cell.key)
    (meets : ∀ cell, m.cells[c]? = some cell → P (f cell) ∨ (f cell).stored = cell.stored) :
    Onward P m { m with cells := m.cells.modify c f } := by
  have changed : ∀ (j : Nat) (cell : Slot), m.cells[j]? = some cell →
      (m.cells.modify c f)[j]? = some (if c = j then f cell else cell) := by
    intro j cell there
    rw [List.getElem?_modify, there]
    rfl
  have retains : ∀ (j : Nat) (cell : Slot), m.cells[j]? = some cell →
      ∃ cell', (m.cells.modify c f)[j]? = some cell' ∧ cell'.key = cell.key := by
    intro j cell there
    refine ⟨_, changed j cell there, ?_⟩
    split
    · exact keeps cell
    · rfl
  refine ⟨fun keyed key j found => ?_, retains, fun cell' mem => ?_⟩
  · obtain ⟨cell, there, named⟩ := keyed key j found
    obtain ⟨cell', there', same⟩ := retains j cell there
    exact ⟨cell', there', same.trans named⟩
  · obtain ⟨j, there'⟩ := List.mem_iff_getElem?.mp mem
    have within : j < m.cells.length := by
      simpa using (List.getElem?_eq_some_iff.mp there').1
    have there := List.getElem?_eq_getElem within
    have same := Option.some.inj (there'.symm.trans (changed j _ there))
    split at same
    · rename_i own
      subst own
      rw [same]
      rcases meets _ there with new | old
      · exact .inl new
      · exact .inr ⟨_, List.getElem_mem within, keeps _, old⟩
    · exact .inr ⟨_, List.getElem_mem within, by rw [same], by rw [same]⟩

theorem onward_hold (m : Memo) (c : Nat) (owner : Option Nat) : Onward P m (m.hold c owner) :=
  onward_modify m c (fun _ => rfl) fun _ _ => .inr rfl

theorem onward_put {stored : Option Stored} (owner : Option Nat)
    (meets : ∀ cell, m.cells[c]? = some cell → P { cell with stored, owner }) :
    Onward P m (m.put c stored owner) :=
  onward_modify m c (fun _ => rfl) fun cell there => .inl (meets cell there)

theorem onward_forget (onward : Onward P m m') (key : DocKey) (c : Nat) : Onward P m (m'.forget key c) := by
  refine onward.forgets rfl fun other d found => ?_
  rw [Memo.forget] at found
  dsimp only at found
  split at found
  · exact (Entries.get_eraseAll.mp found).2
  · exact found

theorem evict_keeps (budget : Nat) (key : DocKey) (n : Nat) (m : Memo) :
    (Memo.evict budget key n m).cells = m.cells ∧
      ∀ other c, (Memo.evict budget key n m).slots.get other = some c → m.slots.get other = some c := by
  induction n generalizing m with
  | zero => exact ⟨rfl, fun _ _ found => found⟩
  | succ n ih =>
      rw [Memo.evict]
      split
      · exact ⟨rfl, fun _ _ found => found⟩
      · split
        · exact ⟨rfl, fun _ _ found => found⟩
        · obtain ⟨cells, slots⟩ := ih _
          exact ⟨cells, fun other c found => (Entries.get_eraseAll.mp (slots other c found)).2⟩

theorem onward_keep (onward : Onward P m m') (budget : Nat) (key : DocKey) (weight : Nat) :
    Onward P m (m'.keep budget key weight) :=
  onward.forgets (evict_keeps budget key _ _).1 (evict_keeps budget key _ _).2

end Memos

/-! ### Every step -/

section Steps

variable {i : Nat} {r : Request} {phase : Phase} {memo : Memo} {served : List Served} {c : Change} {act : Act}

theorem Inv.turn (inv : Inv site s) (there : s.requests[i]? = some r)
    (onward : Onward (fun cell => AllHosted site cell.key → Vouched site s cell) s.memo memo)
    (named : ∀ c ∈ phase.slot?, ∃ cell, memo.cells[c]? = some cell ∧ cell.key = r.key)
    (reads : AllHosted site r.key → Reads site s { r with phase })
    (current : Current site { s with served }) :
    Inv site { s with memo, served, requests := s.requests.set i { r with phase } } where
  now := inv.now
  sound := inv.sound
  order := inv.order
  during other mem := by
    rcases List.mem_or_eq_of_mem_set mem with old | rfl
    · exact inv.during other old
    · exact inv.during r (List.mem_of_getElem? there)
  slots := onward.keyed inv.slots
  named other mem c has := by
    rcases List.mem_or_eq_of_mem_set mem with old | rfl
    · obtain ⟨cell, held, key⟩ := inv.named other old c has
      obtain ⟨cell', held', key'⟩ := onward.retains c cell held
      exact ⟨cell', held', key'.trans key⟩
    · exact named c has
  vouched cell mem hosted := by
    rcases onward.stored cell mem with new | ⟨old, was, key, stored⟩
    · exact new hosted
    · rw [Vouched, key, stored]
      exact inv.vouched old was (key ▸ hosted)
  reads other mem hosted := by
    rcases List.mem_or_eq_of_mem_set mem with old | rfl
    · exact inv.reads other old hosted
    · exact reads hosted
  current := current

theorem Reads.change (comparable : Comparable (s.tables.change c) s.tables) (reads : Reads site s r)
    (steady : r.Between → stampsOf (s.tables.change c) r.key.id r.key.view = stampsOf s.tables r.key.id r.key.view) :
    Reads site (s.change c) { r with moments := s.tables.change c :: r.moments } := by
  -- of the members that were read so far the stamps stay, or there are none
  have stamps : ∀ done left, r.key.view = done ++ left → left ≠ [] → (left ≠ r.key.view → r.Between) →
      stampsOf (s.tables.change c) r.key.id done = stampsOf s.tables r.key.id done := by
    intro done left split more between
    by_cases whole : left = r.key.view
    · have none_ : done = [] := List.append_left_eq_self.mp (split.symm.trans whole.symm)
      rw [none_, stampsOf, stampsOf, List.map_nil, List.map_nil]
    · have all := steady (between whole)
      rw [stampsOf, stampsOf, split, List.map_append, List.map_append] at all
      exact (List.append_inj all (by simp)).1
  rw [Reads] at reads ⊢
  dsimp only
  cases phase : r.phase with
  | stamping left sources =>
      rw [phase] at reads
      obtain ⟨done, split, up, reads⟩ := reads
      refine ⟨done, split, up, ?_⟩
      split at reads
      · obtain ⟨t, mem, same⟩ := reads
        rw [if_pos ‹_›]
        exact ⟨t, List.mem_cons_of_mem _ mem, same⟩
      · rename_i more
        rw [if_neg more, reads]
        refine (stamps done left split more fun part => ?_).symm
        rw [Request.Between, phase]
        exact ⟨more, part⟩
  | asking sources slot =>
      rw [phase] at reads
      obtain ⟨t, mem, same⟩ := reads
      exact ⟨t, List.mem_cons_of_mem _ mem, same⟩
  | collecting sources slot left hits degraded =>
      rw [phase] at reads
      obtain ⟨done, split, clean, reads⟩ := reads
      refine ⟨done, split, clean, ?_⟩
      split at reads
      · obtain ⟨t, mem, same⟩ := reads
        rw [if_pos ‹_›]
        exact ⟨t, List.mem_cons_of_mem _ mem, same⟩
      · rename_i more
        rw [if_neg more, reads]
        refine (collected_of_stamps comparable (stamps done left split more fun part => ?_)).symm
        rw [Request.Between, phase]
        exact ⟨more, part⟩
  | ended => trivial

theorem Inv.change (inv : Inv site s) (steady : Steady site s (.change c)) : Inv site (s.change c) := by
  obtain ⟨sound, later⟩ := change_spec (inv.sound s.tables inv.now).1 c
  have after : ∀ t ∈ s.past, Comparable (s.tables.change c) t := fun t mem =>
    ⟨sound, (inv.sound t mem).1, .inr ((inv.sound t mem).2.trans later)⟩
  have flip : ∀ {t u : Tables}, Comparable t u → Comparable u t := fun both => ⟨both.2.1, both.1, both.2.2.symm⟩
  refine ⟨List.mem_cons_self, fun t mem => ?_, fun t one u two => ?_, fun r mem => ?_, inv.slots, fun r mem c has => ?_,
    fun cell mem hosted stored held => ?_, fun r mem hosted => ?_, inv.current⟩
  · rcases List.mem_cons.mp mem with rfl | old
    · exact ⟨sound, .refl _⟩
    · exact ⟨(inv.sound t old).1, (inv.sound t old).2.trans later⟩
  · rcases List.mem_cons.mp one with rfl | one
    · rcases List.mem_cons.mp two with rfl | two
      · exact ⟨sound, sound, .inl (.refl _)⟩
      · exact after u two
    · rcases List.mem_cons.mp two with rfl | two
      · exact flip (after t one)
      · exact inv.order t one u two
  · obtain ⟨old, was, rfl⟩ := List.mem_map.mp mem
    refine ⟨List.mem_cons_self, fun t mem => ?_⟩
    rcases List.mem_cons.mp mem with rfl | before
    · exact List.mem_cons_self
    · exact List.mem_cons_of_mem _ ((inv.during old was).2 t before)
  · obtain ⟨old, was, rfl⟩ := List.mem_map.mp mem
    exact inv.named old was c has
  · obtain ⟨t, mem', same⟩ := inv.vouched cell mem hosted stored held
    exact ⟨t, List.mem_cons_of_mem _ mem', same⟩
  · obtain ⟨old, was, rfl⟩ := List.mem_map.mp mem
    exact (inv.reads old was hosted).change (after _ inv.now) (steady old was hosted)

theorem Inv.serve (inv : Inv site s) {body : Bytes}
    (own : AllHosted site r.key → ∃ t ∈ r.moments, rendering site t r.key = .ok body) :
    Current site (s.serve r body) := by
  intro a mem hosted
  rcases List.mem_cons.mp mem with rfl | old
  · exact own hosted
  · exact inv.current a old hosted

theorem onward_mono {P Q : Slot → Prop} {m m' : Memo} (onward : Onward P m m') (less : ∀ cell, P cell → Q cell) :
    Onward Q m m' :=
  ⟨onward.keyed, onward.retains, fun cell mem => (onward.stored cell mem).imp_left (less cell)⟩

theorem vouched_none {cell : Slot} (empty : cell.stored = none) : Vouched site s cell := by
  intro stored held
  rw [empty] at held
  cases held

theorem onward_drop (c : Nat) (key : DocKey) :
    Onward (fun cell => AllHosted site cell.key → Vouched site s cell) s.memo ((s.memo.put c none none).forget key c) :=
  onward_forget (onward_put none fun _ _ _ => vouched_none rfl) key c

theorem Inv.finish (inv : Inv site s) (there : s.requests[i]? = some r) {sources : Sources} {slot : Option Nat}
    {hits : List (List Entry)} {degraded : Option Text}
    (at_ : r.phase = .collecting sources slot [] hits degraded) :
    Inv site { s.finish site r sources slot hits degraded with
      requests := s.requests.set i { r with phase := .ended } } := by
  have mem := List.mem_of_getElem? there
  have named := inv.named r mem
  rw [at_] at named
  have round : AllHosted site r.key → degraded = none ∧ ∃ t ∈ r.moments,
      rendering site t r.key = compose site r.key hits none ∧
      (slot ≠ none → (∃ body, rendering site t r.key = .ok body) →
        sources.stamps = stampsOf t r.key.id r.key.view) := by
    intro hosted
    have reads := inv.reads r mem hosted
    rw [Reads, at_] at reads
    obtain ⟨done, -, clean, reads⟩ := reads
    rw [if_pos rfl] at reads
    obtain ⟨t, during, rfl, stamps⟩ := reads
    exact ⟨clean, t, during, rfl, stamps⟩
  unfold State.finish
  cases composed : compose site r.key hits degraded with
  | error e =>
      cases slot with
      | none => exact inv.turn there (.refl _) nofun (fun _ => trivial) inv.current
      | some c => exact inv.turn there (onward_drop c r.key) nofun (fun _ => trivial) inv.current
  | ok body =>
      have current : Current site (s.serve r body) := by
        refine inv.serve fun hosted => ?_
        obtain ⟨clean, t, during, same, -⟩ := round hosted
        rw [clean] at composed
        exact ⟨t, during, same.trans composed⟩
      cases slot with
      | none => exact inv.turn there (.refl _) nofun (fun _ => trivial) current
      | some c =>
          cases degraded with
          | some why => exact inv.turn there (onward_drop c r.key) nofun (fun _ => trivial) current
          | none =>
              refine inv.turn there (onward_keep (onward_put none fun cell held => ?_) _ _ _) nofun
                (fun _ => trivial) current
              obtain ⟨cell', held', key⟩ := named c rfl
              obtain rfl := Option.some.inj (held.symm.trans held')
              intro hosted stored new
              cases new
              rw [key] at hosted ⊢
              obtain ⟨-, t, during, same, stamps⟩ := round hosted
              have made := same.trans composed
              exact ⟨t, (inv.during r mem).2 t during, stamps nofun ⟨body, made⟩, made⟩

theorem collected_concat (t : Tables) (id : Text) (done : List Int) (member : Int) :
    collected site t id (done ++ [member]) =
      collected site t id done ++ (hostedEntries site.decode t member id).toList := by
  rw [collected, List.filterMap_append, List.filterMap_cons]
  cases hostedEntries site.decode t member id <;> rfl

/-- What is served from a slot is the document of the moment the stamps were read. -/
theorem Inv.hit (inv : Inv site s) (there : s.requests[i]? = some r) {sources : Sources} {slot : Nat} {cell : Slot}
    {stored : Stored} (at_ : r.phase = .asking sources slot) (held : s.memo.cells[slot]? = some cell)
    (found : stored ∈ cell.stored) (young : fresh site stored sources s.now = true) :
    Current site (s.serve r stored.value) := by
  have mem := List.mem_of_getElem? there
  refine inv.serve fun hosted => ?_
  have named := inv.named r mem
  have reads := inv.reads r mem hosted
  rw [at_] at named
  rw [Reads, at_] at reads
  obtain ⟨cell', held', key⟩ := named slot rfl
  obtain rfl := Option.some.inj (held.symm.trans held')
  obtain ⟨t, during, stamps⟩ := reads
  obtain ⟨u, before, stamps', made⟩ := inv.vouched cell (List.mem_of_getElem? held) (key ▸ hosted) stored found
  rw [key] at stamps' made
  rw [fresh, Bool.and_eq_true, decide_eq_true_iff] at young
  rw [young.1, stamps] at stamps'
  have comparable := inv.order t ((inv.during r mem).2 t during) u before
  exact ⟨t, during, (rendering_of_stamps comparable stamps').trans made⟩

theorem Inv.next {fails : Bool} {answer : Answer} (inv : Inv site s) (there : s.requests[i]? = some r)
    (steady : Steady site s (.next i fails answer)) (taken : advance site s i r fails answer = some (phase, s')) :
    Inv site { s' with requests := s'.requests.set i { r with phase } } := by
  have mem := List.mem_of_getElem? there
  have named := inv.named r mem
  have reads := inv.reads r mem
  have now := (inv.during r mem).1
  rw [advance] at taken
  cases at_ : r.phase with
  | stamping left sources =>
      rw [at_] at taken
      rw [Reads, at_] at reads
      cases left with
      | nil =>
          cases taken
          refine inv.turn there (onward_mono (onward_slot s.memo r.key) fun _ empty _ => vouched_none empty) ?_ ?_
            inv.current
          · intro c has
            cases has
            exact slot_named inv.slots r.key
          · intro hosted
            obtain ⟨_, -, -, reads⟩ := reads hosted
            rwa [if_pos rfl] at reads
      | cons member left =>
          dsimp only at taken
          split at taken
          · split at taken
            · cases taken
              exact inv.turn there (.refl _) nofun (fun _ => trivial) inv.current
            · cases taken
              refine inv.turn there (.refl _) nofun (fun hosted => ?_) inv.current
              obtain ⟨done, split_, up, reads⟩ := reads hosted
              rw [if_neg (List.cons_ne_nil _ _)] at reads
              have more : r.key.view = (done ++ [member]) ++ left := by rw [split_, List.append_assoc]; rfl
              have stamps : sources.stamps ++ [hostedStamp s.tables member r.key.id] =
                  stampsOf s.tables r.key.id (done ++ [member]) := by
                rw [reads, stampsOf, stampsOf, List.map_append]
                rfl
              refine ⟨done ++ [member], more, up, ?_⟩
              split
              · rename_i whole
                rw [whole, List.append_nil] at more
                exact ⟨s.tables, now, by rw [more]; exact stamps⟩
              · exact stamps
          · rename_i other
            cases taken
            refine inv.turn there (.refl _) nofun (fun hosted => ?_) inv.current
            obtain ⟨done, split_, -⟩ := reads hosted
            exact absurd (hosted member (by rw [split_]; simp)) other
  | asking sources slot =>
      rw [at_] at taken
      rw [Reads, at_] at reads
      dsimp only at taken
      split at taken
      · cases taken
      · rename_i cell held
        split at taken
        · cases taken
        · split at taken
          · rename_i stored found
            cases taken
            obtain ⟨kept, young⟩ := Option.filter_eq_some_iff.mp found
            exact inv.turn there (.refl _) nofun (fun _ => trivial) (inv.hit there at_ held kept young)
          · cases taken
            refine inv.turn there (onward_hold _ _ _) ?_ ?_ inv.current
            · intro c has
              cases has
              rw [at_] at named
              obtain ⟨cell', held', key⟩ := named slot rfl
              obtain ⟨cell'', held'', key'⟩ := (onward_hold (P := fun _ => True) s.memo slot (some i)).retains slot cell' held'
              exact ⟨cell'', held'', key'.trans key⟩
            · intro hosted
              refine ⟨[], rfl, rfl, ?_⟩
              obtain ⟨t, during, stamps⟩ := reads hosted
              split
              · rename_i none_
                exact ⟨t, during, by rw [none_]; rfl, fun _ _ => stamps⟩
              · rfl
  | collecting sources slot left hits degraded =>
      rw [at_] at taken
      cases left with
      | nil =>
          cases taken
          have requests : (s.finish site r sources slot hits degraded).requests = s.requests := by
            unfold State.finish
            cases compose site r.key hits degraded <;> cases slot <;> cases degraded <;> rfl
          rw [requests]
          exact inv.finish there at_
      | cons member left =>
          rw [Reads, at_] at reads
          have keeps : ∀ c ∈ slot, ∃ cell, s.memo.cells[c]? = some cell ∧ cell.key = r.key := by
            rw [at_] at named
            exact named
          dsimp only at taken
          split at taken
          · split at taken
            · cases taken
              cases slot with
              | none => exact inv.turn there (.refl _) nofun (fun _ => trivial) inv.current
              | some c => exact inv.turn there (onward_drop c r.key) nofun (fun _ => trivial) inv.current
            · rename_i lasts
              -- one more member's entries, or none
              have more : AllHosted site r.key → Reads site s { r with
                  phase := .collecting sources slot left
                    (hits ++ (hostedEntries site.decode s.tables member r.key.id).toList) degraded } := by
                intro hosted
                obtain ⟨done, split_, clean, reads⟩ := reads hosted
                rw [if_neg (List.cons_ne_nil _ _)] at reads
                have split' : r.key.view = (done ++ [member]) ++ left := by rw [split_, List.append_assoc]; rfl
                have entries : hits ++ (hostedEntries site.decode s.tables member r.key.id).toList =
                    collected site s.tables r.key.id (done ++ [member]) := by
                  rw [reads, collected_concat]
                refine ⟨done ++ [member], split', clean, ?_⟩
                split
                · rename_i whole
                  rw [whole, List.append_nil] at split'
                  refine ⟨s.tables, now, by rw [split']; exact entries, fun holds made => ?_⟩
                  have last := steady r there hosted (by simpa using lasts)
                  rw [at_, whole] at last
                  cases slot with
                  | none => exact absurd rfl holds
                  | some c => exact last made
                · exact entries
              split at taken
              · rename_i entries found
                cases taken
                rw [found] at more
                exact inv.turn there (.refl _) keeps more inv.current
              · rename_i found
                cases taken
                rw [found, Option.toList_none, List.append_nil] at more
                exact inv.turn there (.refl _) keeps more inv.current
          · rename_i other
            have upstream : ∀ hits' degraded', AllHosted site r.key →
                Reads site s { r with phase := .collecting sources slot left hits' degraded' } := by
              intro _ _ hosted
              obtain ⟨done, split_, -⟩ := reads hosted
              exact absurd (hosted member (by rw [split_]; simp)) other
            split at taken <;> cases taken <;>
              exact inv.turn there (.refl _) keeps (upstream _ _) inv.current
  | ended =>
      rw [at_] at taken
      cases taken

theorem Inv.step (inv : Inv site s) (steady : Steady site s act) (taken : step site s act = some s') :
    Inv site s' := by
  cases act with
  | change c =>
      cases taken
      exact inv.change steady
  | clock now =>
      cases taken
      exact ⟨inv.now, inv.sound, inv.order, inv.during, inv.slots, inv.named, inv.vouched, inv.reads, inv.current⟩
  | start key =>
      cases taken
      refine ⟨inv.now, inv.sound, inv.order, fun r mem => ?_, inv.slots, fun r mem => ?_, inv.vouched,
        fun r mem => ?_, inv.current⟩
      · rcases List.mem_append.mp mem with old | new
        · exact inv.during r old
        · rw [List.mem_singleton.mp new]
          exact ⟨List.mem_singleton_self _, fun t own => List.mem_singleton.mp own ▸ inv.now⟩
      · rcases List.mem_append.mp mem with old | new
        · exact inv.named r old
        · rw [List.mem_singleton.mp new]
          exact nofun
      · rcases List.mem_append.mp mem with old | new
        · exact inv.reads r old
        · rw [List.mem_singleton.mp new]
          refine fun _ => ⟨[], rfl, rfl, ?_⟩
          split
          · rename_i none_
            exact ⟨s.tables, List.mem_singleton_self _, by rw [none_]; rfl⟩
          · rfl
  | next i fails answer =>
      obtain ⟨r, there, rest⟩ := Option.bind_eq_some_iff.mp taken
      obtain ⟨⟨phase, u⟩, advanced, made⟩ := Option.bind_eq_some_iff.mp rest
      cases made
      exact inv.next there steady advanced
  | giveUp i =>
      obtain ⟨r, there, rest⟩ := Option.bind_eq_some_iff.mp taken
      split at rest
      · cases rest
        refine inv.turn there (.refl _) nofun (fun _ => ⟨[], rfl, rfl, ?_⟩) inv.current
        split
        · rename_i none_
          exact ⟨s.tables, (inv.during r (List.mem_of_getElem? there)).1, by rw [none_]; rfl, fun holds => absurd rfl holds⟩
        · rfl
      · cases rest
  | cancel i =>
      obtain ⟨r, there, made⟩ := Option.bind_eq_some_iff.mp taken
      cases made
      split
      · rename_i slot _ _ _ _
        cases slot with
        | none => exact inv.turn there (.refl _) nofun (fun _ => trivial) inv.current
        | some c => exact inv.turn there (onward_hold _ _ _) nofun (fun _ => trivial) inv.current
      · exact inv.turn there (.refl _) nofun (fun _ => trivial) inv.current

end Steps

/-! ### Every run -/

/-- As long as no member's rows change between two reads of one round, and what is stored was collected under the
stamps that were read, every document that is served is that of a moment of its request. -/
theorem current_of_steady (site : Site) (now : Int) (acts : List Act) (s : State)
    (run : Run (step site) (fun u act _ => Steady site u act) (begin_ now) acts s) : Current site s := by
  refine (run.invariant (Inv site) (inv_begin now) ?_).current
  intro _ _ _ inv taken steady
  exact inv.step steady taken

/-! ### A version is unlisted and listed again -/

section Example

/-- One hosted repository; a document says of each version whether it is listed. -/
def plainSite : Site where
  hosted _ := true
  decode _ := none
  render _ entries := .ok (entries.map fun e => if e.listed then 1 else 0)
  budget := 64 * 1024 * 1024
  maxAge := 60000000000

def flatKey : DocKey := ⟨1, "feed".toList, "acme".toList, [1], "flat".toList, 0⟩

def release (version : Text) : Act := .change (.publish 1 "acme".toList none version [] 0)

/-- The steps of a request that is not served from the memo: stamp, slot, lock, entries, end. -/
def steps (i n : Nat) : List Act := List.replicate n (.next i false .notFound)

/-- A version is unlisted after a request has read the stamp, and listed again once that request has stored its
document. -/
def relisted : List Act :=
  [release "1.0.0".toList, .start flatKey] ++ steps 0 1 ++ [.change (.setYanked 1 true)] ++ steps 0 4 ++
    [.change (.setYanked 1 false), .start flatKey] ++ steps 1 3

/-- The same, each change before or after a request. -/
def apart : List Act :=
  [release "1.0.0".toList, .start flatKey] ++ steps 0 5 ++ [.change (.setYanked 1 true), .start flatKey] ++ steps 1 5 ++
    [.start flatKey] ++ steps 2 3

theorem isOk_iff {made : Except ResolveError Bytes} : made.toOption.isSome = true ↔ ∃ body, made = .ok body := by
  cases made with
  | ok body => exact ⟨fun _ => ⟨body, rfl⟩, fun _ => rfl⟩
  | error e => exact ⟨nofun, fun ⟨_, same⟩ => nomatch same⟩

instance (made : Except ResolveError Bytes) : Decidable (∃ body, made = .ok body) := decidable_of_iff _ isOk_iff

instance (r : Request) : Decidable r.Between :=
  match at_ : r.phase with
  | .stamping .. => decidable_of_iff (_ ∧ _) (by rw [Request.Between, at_])
  | .collecting .. => decidable_of_iff (_ ∧ _) (by rw [Request.Between, at_])
  | .asking .. => .isFalse (by simp [Request.Between, at_])
  | .ended => .isFalse (by simp [Request.Between, at_])

instance (site : Site) (s : State) (r : Request) : Decidable (match r.phase with
    | .collecting sources (some _) [_] _ _ =>
        (∃ body, rendering site s.tables r.key = .ok body) →
          sources.stamps = stampsOf s.tables r.key.id r.key.view
    | _ => True) := by
  split <;> infer_instance

instance (site : Site) (s : State) (act : Act) : Decidable (Steady site s act) :=
  match act with
  | .change c => inferInstanceAs (Decidable (∀ r ∈ s.requests, AllHosted site r.key → r.Between →
      stampsOf (s.tables.change c) r.key.id r.key.view = stampsOf s.tables r.key.id r.key.view))
  | .next i fails _ => inferInstanceAs (Decidable (∀ r ∈ s.requests[i]?, AllHosted site r.key → fails = false → _))
  | .clock _ => inferInstanceAs (Decidable True)
  | .start _ => inferInstanceAs (Decidable True)
  | .giveUp _ => inferInstanceAs (Decidable True)
  | .cancel _ => inferInstanceAs (Decidable True)

theorem current_of_apart : ∃ s,
    Run (step plainSite) (fun u act _ => Steady plainSite u act) (begin_ 0) apart s ∧ Current plainSite s := by
  obtain ⟨s, run, -⟩ := Run.of_test (step plainSite) (fun u act _ => Steady plainSite u act) (begin_ 0) apart
    (fun s => s.served.map Served.body == [[0], [0], [1]]) (by decide +kernel)
  exact ⟨s, run, current_of_steady plainSite 0 apart s run⟩

/-- The document of the unlisted version is served while the version is listed, throughout the request. -/
theorem unlisted_document_served : ¬∀ acts s, Run (step plainSite) Any (begin_ 0) acts s → Current plainSite s := by
  intro current
  obtain ⟨s, run, stale⟩ := Run.of_test (step plainSite) Any (begin_ 0) relisted
    (fun s => s.served.any fun a => decide (AllHosted plainSite a.key) &&
      a.moments.all fun t => decide ((rendering plainSite t a.key).toOption ≠ some a.body)) (by decide +kernel)
  obtain ⟨a, mem, both⟩ := List.any_eq_true.mp stale
  obtain ⟨hosted, never⟩ := Bool.and_eq_true_iff.mp both
  obtain ⟨t, during, made⟩ := current relisted s run a mem (of_decide_eq_true hosted)
  have other := of_decide_eq_true (List.all_eq_true.mp never t during)
  rw [made] at other
  exact other rfl

end Example

end OpenCargo.Nuget
