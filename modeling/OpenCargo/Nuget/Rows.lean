/-
Module: OpenCargo.Nuget.Rows
Purpose: The rows of hosted NuGet packages as the package store keeps them (`adapters/sqlite/packages.rs`): how
  releases, unlistings, relistings and deletions change them, the stamp of a package's versions, and what a
  member knows of one id (`registry/nuget/leaves.rs`). A stamp names rows as they were written: the ids are
  never used again, and of a row only the flag changes.
Trusted boundary: `AUTOINCREMENT`; that a package and the rows read after it are read as one, a package being
  never deleted
Main exports: hostedStamp, hostedEntries, Sound, hostedEntries_of_stamp
-/
import OpenCargo.Nuget.Model

namespace OpenCargo.Nuget

open OpenCargo.Lib (splitOnce splitOnce_append mem_intercalate_iff)

/-- `packages` and `versions`, both in the order of their ids, and the next id of each. -/
structure Tables where
  packages : List Package
  versions : List Version
  nextPackage : Nat
  nextVersion : Nat
deriving Repr, DecidableEq, Inhabited

/-- What is done to the rows of hosted packages. -/
inductive Change where
  | publish (repository : Int) (name : Text) (description : Option Text) (version metadata : Text)
      (now : Instant)
  | setYanked (version : Nat) (yanked : Bool)
  | delete (version : Nat)
deriving Repr, DecidableEq

namespace Tables

def empty : Tables := ⟨[], [], 1, 1⟩

/-- A package by its exact name. -/
def package (t : Tables) (repository : Int) (name : Text) : Option Package :=
  t.packages.find? fun p => p.repository == repository && p.name == name

def versionsOf (t : Tables) (package : Nat) : List Version := t.versions.filter fun v => v.package == package

/-- The package row a release lands on, created when it is not there yet. -/
def upsertPackage (t : Tables) (repository : Int) (name : Text) (description : Option Text) : Package × Tables :=
  match t.package repository name with
  | some package => (package, t)
  | none =>
      let package := ⟨t.nextPackage, repository, name, description⟩
      (package, { t with packages := t.packages ++ [package], nextPackage := t.nextPackage + 1 })

/-- `write_release`: a version the package has is refused, and nothing written. -/
def writeRelease (t : Tables) (repository : Int) (name : Text) (description : Option Text)
    (version metadata : Text) (now : Instant) : Tables :=
  let (package, u) := t.upsertPackage repository name description
  if (u.versionsOf package.id).any fun v => v.version == version then t
  else
    { u with
      versions := u.versions ++ [⟨u.nextVersion, package.id, version, metadata, readTs (bindTs now), false⟩]
      nextVersion := u.nextVersion + 1 }

def setYanked (t : Tables) (version : Nat) (yanked : Bool) : Tables :=
  { t with versions := t.versions.map fun v => if v.id = version then { v with yanked } else v }

def deleteVersion (t : Tables) (version : Nat) : Tables :=
  { t with versions := t.versions.filter fun v => v.id ≠ version }

def change (t : Tables) : Change → Tables
  | .publish repository name description version metadata now =>
      t.writeRelease repository name description version metadata now
  | .setYanked version yanked => t.setYanked version yanked
  | .delete version => t.deleteVersion version

end Tables

/-! ### What is read of them -/

/-- `id || ':' || yanked`. -/
def stampOf (v : Version) : Text := Nat.toDigits 10 v.id ++ ':' :: [if v.yanked then '1' else '0']

/-- `group_concat`, of the rows in the order of their ids. -/
def stamp (versions : List Version) : Text := [','].intercalate (versions.map stampOf)

/-- `-` when the member has no such package. -/
def hostedStamp (t : Tables) (member : Int) (id : Text) : Text :=
  match t.package member id with
  | some package => stamp (t.versionsOf package.id)
  | none => ['-']

def hostedEntries (decode : Text → Option HostedFacts) (t : Tables) (member : Int) (id : Text) :
    Option (List Entry) :=
  match t.package member id with
  | none => none
  | some package =>
      let versions := t.versionsOf package.id
      if versions.isEmpty then none else some (sort (versions.map (Entry.fromHosted decode package)))

/-! ### Stamps tell rows apart -/

theorem stampOf_injective {v w : Version} (same : stampOf v = stampOf w) : v.id = w.id ∧ v.yanked = w.yanked := by
  have cut : ∀ x : Version, splitOnce ':' (stampOf x) =
      some (Nat.toDigits 10 x.id, [if x.yanked then '1' else '0']) := by
    refine fun x => splitOnce_append fun mem => ?_
    exact absurd (Nat.isDigit_of_mem_toDigits (by decide) (by decide) mem) (by decide)
  have parts := (cut v).symm.trans ((congrArg (splitOnce ':') same).trans (cut w))
  obtain ⟨ids, flags⟩ := Prod.mk.inj (Option.some.inj parts)
  refine ⟨?_, ?_⟩
  · rw [← Nat.ofDigitChars_ten_toDigits (n := v.id), ids, Nat.ofDigitChars_ten_toDigits]
  · cases one : v.yanked <;> cases two : w.yanked <;> simp [one, two] at flags ⊢

theorem comma_notMem_stampOf (v : Version) : ',' ∉ stampOf v := by
  intro mem
  rcases List.mem_append.mp mem with digit | flag
  · exact absurd (Nat.isDigit_of_mem_toDigits (by decide) (by decide) digit) (by decide)
  · cases yanked : v.yanked <;> simp [yanked] at flag

theorem dash_notMem_stamp {vs : List Version} : '-' ∉ stamp vs := by
  intro mem
  obtain ⟨part, there, dash⟩ := (mem_intercalate_iff (by decide)).mp mem
  obtain ⟨v, -, rfl⟩ := List.mem_map.mp there
  rcases List.mem_append.mp dash with digit | flag
  · exact absurd (Nat.isDigit_of_mem_toDigits (by decide) (by decide) digit) (by decide)
  · cases yanked : v.yanked <;> simp [yanked] at flag

theorem eq_of_map_eq {α β : Type} {f : α → β} {xs ys : List α}
    (apart : ∀ x ∈ xs, ∀ y ∈ ys, f x = f y → x = y) (same : xs.map f = ys.map f) : xs = ys := by
  have long : xs.length = ys.length := by simpa using congrArg List.length same
  refine List.ext_getElem long fun i one two => ?_
  refine apart _ (List.getElem_mem one) _ (List.getElem_mem two) ?_
  have at_ := congrArg (fun zs => zs[i]?) same
  simpa [one, two] using at_

theorem stamp_injective {vs ws : List Version} (same : stamp vs = stamp ws) :
    vs.map (fun v => (v.id, v.yanked)) = ws.map fun v => (v.id, v.yanked) := by
  have parts : vs.map stampOf = ws.map stampOf := by
    have clear : ∀ xs : List Version, ∀ part ∈ xs.map stampOf, ',' ∉ part := by
      intro xs part mem
      obtain ⟨v, -, rfl⟩ := List.mem_map.mp mem
      exact comma_notMem_stampOf v
    have nonempty : ∀ xs : List Version, xs ≠ [] → stamp xs ≠ [] := by
      intro xs some_ empty
      have split := List.splitOn_intercalate ',' (clear xs) (by simpa using some_)
      rw [← stamp, empty] at split
      obtain ⟨x, rest, rfl⟩ := List.exists_cons_of_ne_nil some_
      rw [List.map_cons] at split
      have first := (List.cons.inj split).1
      simp [stampOf] at first
    by_cases one : vs = []
    · subst one
      by_cases two : ws = []
      · rw [two]
      · exact absurd same.symm (nonempty ws two)
    · by_cases two : ws = []
      · subst two
        exact absurd same (nonempty vs one)
      · have left := List.splitOn_intercalate ',' (clear vs) (by simpa using one)
        have right := List.splitOn_intercalate ',' (clear ws) (by simpa using two)
        rw [← left, ← right]
        exact congrArg (List.splitOn ',') same
  clear same
  induction vs generalizing ws with
  | nil =>
      cases ws with
      | nil => rfl
      | cons w ws => cases parts
  | cons v vs ih =>
      cases ws with
      | nil => cases parts
      | cons w ws =>
          obtain ⟨head, tail⟩ := List.cons.inj parts
          obtain ⟨ids, flags⟩ := stampOf_injective head
          rw [List.map_cons, List.map_cons, ih tail, ids, flags]

/-! ### Tables over time -/

/-- No two rows share an id, and none has one that is still to come. -/
structure Sound (t : Tables) : Prop where
  once : (t.versions.map Version.id).Nodup
  below : ∀ v ∈ t.versions, v.id < t.nextVersion

/-- One state of the rows after another: the packages are still there, and every version is one that was there,
but for its flag, or has a new id. -/
structure Later (t u : Tables) : Prop where
  packages : t.packages <+: u.packages
  rows : ∀ w ∈ u.versions, (∃ v ∈ t.versions, w = { v with yanked := w.yanked }) ∨ t.nextVersion ≤ w.id
  next : t.nextVersion ≤ u.nextVersion

section Time

variable {t u : Tables}

theorem Later.refl (t : Tables) : Later t t := ⟨List.prefix_refl _, fun w mem => .inl ⟨w, mem, rfl⟩, Nat.le_refl _⟩

theorem Later.trans {v : Tables} (one : Later t u) (two : Later u v) : Later t v where
  packages := one.packages.trans two.packages
  rows w mem := by
    rcases two.rows w mem with ⟨x, there, same⟩ | new
    · rcases one.rows x there with ⟨y, here, same'⟩ | new
      · exact .inl ⟨y, here, by rw [same, same']⟩
      · rw [same]
        exact .inr new
    · exact .inr (Nat.le_trans one.next new)
  next := Nat.le_trans one.next two.next

theorem sound_empty : Sound .empty := ⟨.nil, nofun⟩

theorem upsertPackage_spec (t : Tables) (repository : Int) (name : Text) (description : Option Text) :
    let (_, u) := t.upsertPackage repository name description
    t.packages <+: u.packages ∧ u.versions = t.versions ∧ u.nextVersion = t.nextVersion := by
  rw [Tables.upsertPackage]
  split
  · rename_i found
    split at found <;> cases found
    · exact ⟨List.prefix_refl _, rfl, rfl⟩
    · exact ⟨List.prefix_append _ _, rfl, rfl⟩

theorem change_spec (sound : Sound t) (c : Change) : Sound (t.change c) ∧ Later t (t.change c) := by
  cases c with
  | publish repository name description version metadata now =>
      rw [Tables.change, Tables.writeRelease]
      have upsert := upsertPackage_spec t repository name description
      generalize t.upsertPackage repository name description = upserted at upsert ⊢
      obtain ⟨package, u⟩ := upserted
      obtain ⟨packages, rows, next⟩ := upsert
      dsimp only
      split
      · exact ⟨sound, .refl t⟩
      · rw [rows, next]
        refine ⟨⟨?_, ?_⟩, ⟨packages, ?_, Nat.le_succ _⟩⟩
        · rw [List.map_append, List.map_singleton, List.nodup_append]
          refine ⟨sound.once, List.nodup_singleton _, fun a one b two => ?_⟩
          obtain ⟨v, mem, rfl⟩ := List.mem_map.mp one
          rw [List.mem_singleton.mp two]
          exact Nat.ne_of_lt (sound.below v mem)
        · intro v mem
          rcases List.mem_append.mp mem with old | new
          · exact Nat.lt_succ_of_lt (sound.below v old)
          · rw [List.mem_singleton.mp new]
            exact Nat.lt_succ_self _
        · intro v mem
          rcases List.mem_append.mp mem with old | new
          · exact .inl ⟨v, old, rfl⟩
          · rw [List.mem_singleton.mp new]
            exact .inr (Nat.le_refl _)
  | setYanked version yanked =>
      have known : ∀ w ∈ (t.setYanked version yanked).versions,
          ∃ v ∈ t.versions, w = { v with yanked := w.yanked } := by
        intro w mem
        obtain ⟨v, there, rfl⟩ := List.mem_map.mp mem
        refine ⟨v, there, ?_⟩
        split <;> rfl
      refine ⟨⟨?_, fun w mem => ?_⟩, ⟨List.prefix_refl _, fun w mem => .inl (known w mem), Nat.le_refl _⟩⟩
      · have ids : (t.setYanked version yanked).versions.map Version.id = t.versions.map Version.id := by
          rw [Tables.setYanked, List.map_map]
          refine List.map_congr_left fun v _ => ?_
          rw [Function.comp_apply]
          split <;> rfl
        exact ids ▸ sound.once
      · obtain ⟨v, there, same⟩ := known w mem
        rw [same]
        exact sound.below v there
  | delete version =>
      refine ⟨⟨sound.once.sublist (List.filter_sublist.map _), fun v mem => ?_⟩, ⟨List.prefix_refl _, ?_, ?_⟩⟩
      · exact sound.below v (List.mem_of_mem_filter mem)
      · exact fun w mem => .inl ⟨w, List.mem_of_mem_filter mem, rfl⟩
      · exact Nat.le_refl _

theorem Later.package (later : Later t u) {repository : Int} {name : Text} {package : Package}
    (found : t.package repository name = some package) : u.package repository name = some package := by
  obtain ⟨more, same⟩ := later.packages
  rw [Tables.package, ← same, List.find?_append]
  exact Option.or_eq_some_iff.mpr (.inl found)

theorem Later.row (later : Later t u) (sound : Sound t) {v w : Version} (here : v ∈ t.versions)
    (there : w ∈ u.versions) (same : (v.id, v.yanked) = (w.id, w.yanked)) : v = w := by
  obtain ⟨ids, flags⟩ := Prod.mk.inj same
  rcases later.rows w there with ⟨x, mem, made⟩ | new
  · have own : x = v := by
      refine List.inj_on_of_nodup_map sound.once mem here ?_
      rw [ids, made]
    rw [made, own, ← flags]
  · exact absurd (sound.below v here) (by omega)

theorem hostedEntries_of_stamp (decode : Text → Option HostedFacts) (sound : Sound t) (later : Later t u)
    {member : Int} {id : Text} (same : hostedStamp t member id = hostedStamp u member id) :
    hostedEntries decode t member id = hostedEntries decode u member id := by
  rw [hostedStamp, hostedStamp] at same
  rw [hostedEntries, hostedEntries]
  cases found : t.package member id with
  | none =>
      rw [found] at same
      cases after : u.package member id with
      | none => rfl
      | some package =>
          rw [after] at same
          dsimp only at same
          have dash : '-' ∈ stamp (u.versionsOf package.id) := same ▸ List.mem_singleton_self _
          exact absurd dash dash_notMem_stamp
  | some package =>
      rw [found, later.package found] at same
      rw [later.package found]
      have rows : t.versionsOf package.id = u.versionsOf package.id := by
        refine eq_of_map_eq (fun v here w there => ?_) (stamp_injective same)
        exact later.row sound (List.mem_of_mem_filter here) (List.mem_of_mem_filter there)
      dsimp only
      rw [rows]

end Time

end OpenCargo.Nuget
