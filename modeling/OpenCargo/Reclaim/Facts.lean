/-
Module: OpenCargo.Reclaim.Facts
Purpose: One lemma for each transaction of the reclamation tables and each of the columns the safety
  argument reads: the pins that are left, the keys that are queued, the prefixes that are live.
Trusted boundary: none
Main exports: OutOfUse, OutOfUse.apart, Tables.pinEach_eq, Tables.place_cases
-/
import OpenCargo.Reclaim.Prefix

namespace OpenCargo.Reclaim

open OpenCargo.Lib

/-! ### Keys no row can come to reference -/

/-- No row references the key and no pin stands for it: a commit can only fail to reference it. -/
structure Gone (rows : List Ref) (pins : List Pin) (key : Text) : Prop where
  unreferenced : ¬ Referenced rows key
  unpinned : ∀ pin ∈ pins, pin.physicalKey ≠ key

theorem Gone.mono {rows rows' : List Ref} {pins pins' : List Pin} {key : Text}
    (gone : Gone rows pins key) (refs : Referenced rows' key → Referenced rows key)
    (fewer : ∀ pin ∈ pins', pin ∈ pins) : Gone rows' pins' key where
  unreferenced := fun hit => gone.unreferenced (refs hit)
  unpinned := fun pin mem => gone.unpinned pin (fewer pin mem)

theorem referenced_of_subset {rows rows' : List Ref} {key : Text}
    (fewer : ∀ row ∈ rows', row ∈ rows) (hit : Referenced rows' key) : Referenced rows key := by
  obtain ⟨row, mem, how⟩ := hit
  exact ⟨row, fewer row mem, how⟩

theorem referenced_of_key {rows : List Ref} {row : Ref} (mem : row ∈ rows) :
    Referenced rows row.key := ⟨row, mem, .inl rfl⟩

/-! ### Prefixes out of use -/

/-- A prefix no incarnation's keys mix with: a name-keyed one. -/
def Foreign (key : Text) : Prop :=
  ∀ incarnation, ¬ Covers key (Layout.incarnationPrefix incarnation) ∧
    ¬ Covers (Layout.incarnationPrefix incarnation) key

/-- A row of `storage_prefixes` as `insert` writes it: an incarnation's own prefix, or a name-keyed
one. -/
def Formed (row : StoragePrefix) : Prop :=
  ('/' ∉ row.incarnation ∧ row.key = Layout.incarnationPrefix row.incarnation) ∨ Foreign row.key

/-- A prefix under which no placement is given a key again. -/
def OutOfUse (tables : Tables) (incarnations : List Text) (key : Text) : Prop :=
  Foreign key ∨ ∃ incarnation ∈ incarnations, '/' ∉ incarnation ∧
    key = Layout.incarnationPrefix incarnation ∧ tables.isLivePrefix key = false

theorem Layout.incarnationPrefix_inj {i j : Text}
    (same : Layout.incarnationPrefix i = Layout.incarnationPrefix j) : i = j :=
  List.append_cancel_left same

theorem Layout.incarnationPrefix_covers {i j : Text} (flat : '/' ∉ j)
    (covers : Covers (Layout.incarnationPrefix i) (Layout.incarnationPrefix j)) : i = j := by
  rcases covers with same | within
  · exact (Layout.incarnationPrefix_inj same).symm
  · obtain ⟨rest, split⟩ := within_iff.mp within
    rw [Layout.incarnationPrefix, Layout.incarnationPrefix, List.append_assoc] at split
    have tail := List.append_cancel_left split
    exact absurd (by simp [tail]) flat

theorem not_foreign_incarnationPrefix (incarnation : Text) :
    ¬ Foreign (Layout.incarnationPrefix incarnation) :=
  fun foreign => (foreign incarnation).1 (Under.refl _)

theorem not_within_of_apart {root own key : Text} (apart : ¬ Covers root own ∧ ¬ Covers own root)
    (within : Within '/' key own) : ¬ Covers root key := by
  intro covers
  rcases Under.comparable covers within.under with below | above
  · exact apart.2 below
  · exact apart.1 above

theorem OutOfUse.apart {tables : Tables} {incarnations : List Text} {root j key : Text}
    (out : OutOfUse tables incarnations root)
    (live : tables.isLivePrefix (Layout.incarnationPrefix j) = true) (flat : '/' ∉ j)
    (within : Within '/' key (Layout.incarnationPrefix j)) : ¬ Covers root key := by
  rcases out with foreign | ⟨i, _, plain, rfl, dead⟩
  · exact not_within_of_apart (foreign j) within
  · have differ : i ≠ j := by
      rintro rfl
      rw [dead] at live
      cases live
    refine not_within_of_apart ⟨?_, ?_⟩ within
    · exact fun covers => differ (Layout.incarnationPrefix_covers flat covers)
    · exact fun covers => differ (Layout.incarnationPrefix_covers plain covers).symm

theorem isLivePrefix_iff {tables : Tables} {key : Text} :
    tables.isLivePrefix key = true ↔
      ∃ row ∈ tables.prefixes, row.key = key ∧ row.incarnation ∉ tables.retired := by
  simp [Tables.isLivePrefix, List.any_eq_true]

theorem isRetiredPrefix_iff {tables : Tables} {key : Text} :
    tables.isRetiredPrefix key = true ↔
      ∃ row ∈ tables.prefixes, row.key = key ∧ row.incarnation ∈ tables.retired := by
  simp [Tables.isRetiredPrefix, List.any_eq_true]

/-- Where every row is formed, the row of an incarnation's own prefix is that incarnation's. -/
theorem Formed.incarnation {row : StoragePrefix} {i : Text} (formed : Formed row)
    (own : row.key = Layout.incarnationPrefix i) : row.incarnation = i ∧ '/' ∉ i := by
  rcases formed with ⟨flat, key⟩ | foreign
  · have same := Layout.incarnationPrefix_inj (key.symm.trans own)
    exact ⟨same, same ▸ flat⟩
  · rw [own] at foreign
    exact absurd foreign (not_foreign_incarnationPrefix i)

theorem outOfUse_of_retired {tables : Tables} {incarnations : List Text} {key : Text}
    (formed : ∀ row ∈ tables.prefixes, Formed row ∧ row.incarnation ∈ incarnations)
    (retired : tables.isRetiredPrefix key = true) : OutOfUse tables incarnations key := by
  obtain ⟨row, mem, rfl, gone⟩ := isRetiredPrefix_iff.mp retired
  obtain ⟨shape, used⟩ := formed row mem
  rcases shape with ⟨flat, own⟩ | foreign
  · refine .inr ⟨row.incarnation, used, flat, own, ?_⟩
    rw [Bool.eq_false_iff]
    intro live
    obtain ⟨other, found, same, running⟩ := isLivePrefix_iff.mp live
    have whose := ((formed other found).1.incarnation (same.trans own)).1
    rw [whose] at running
    exact running gone
  · exact .inl foreign

/-- A prefix stays out of use as long as no incarnation used before comes back to life. -/
theorem OutOfUse.mono {tables after : Tables} {incarnations used : List Text} {key : Text}
    (out : OutOfUse tables incarnations key) (more : ∀ i ∈ incarnations, i ∈ used)
    (dead : ∀ i ∈ incarnations, '/' ∉ i →
      after.isLivePrefix (Layout.incarnationPrefix i) = true →
        tables.isLivePrefix (Layout.incarnationPrefix i) = true) : OutOfUse after used key := by
  rcases out with foreign | ⟨i, mem, flat, rfl, before⟩
  · exact .inl foreign
  · refine .inr ⟨i, more i mem, flat, rfl, ?_⟩
    rw [Bool.eq_false_iff]
    intro live
    rw [dead i mem flat live] at before
    cases before

theorem foreign_of_take {key : Text} (long : 2 ≤ key.length) (other : key.take 2 ≠ "r/".toList) :
    Foreign key := by
  have clash : ∀ x y : Text, key ++ x ≠ "r/".toList ++ y := by
    intro x y same
    apply other
    have starts := congrArg (List.take 2) same
    rw [List.take_append_of_le_length long] at starts
    simpa using starts
  intro incarnation
  refine ⟨?_, ?_⟩
  · rintro (same | within)
    · exact clash [] incarnation ((List.append_nil key).trans same.symm)
    · obtain ⟨tail, split⟩ := within_iff.mp within
      exact clash _ _ split.symm
  · rintro (same | within)
    · exact clash [] incarnation ((List.append_nil key).trans same)
    · obtain ⟨tail, split⟩ := within_iff.mp within
      rw [Layout.incarnationPrefix, List.append_assoc] at split
      exact clash [] _ (by simpa using split)

theorem foreign_append {head rest : Text} (long : 2 ≤ head.length)
    (other : head.take 2 ≠ "r/".toList) : Foreign (head ++ rest) := by
  apply foreign_of_take
  · rw [List.length_append]
    omega
  · rw [List.take_append_of_le_length long]
    exact other

theorem foreign_nameKeyed {format : Format} {name key : Text}
    (mem : key ∈ Layout.nameKeyedPrefixes format name) : Foreign key := by
  rcases List.mem_cons.mp mem with rfl | rest
  · apply foreign_append
    · cases format <;> decide
    · cases format <;> decide
  · rw [List.mem_singleton.mp rest]
    exact foreign_append (by decide) (by decide)

/-! ### The pins a transaction leaves -/

namespace Tables

theorem enqueueKey_fixed (tables : Tables) (now : Instant) (key : Text) :
    ∃ candidates, tables.enqueueKey now key = { tables with candidates := candidates } ∧
      ∀ row ∈ candidates, row ∈ tables.candidates ∨ row.key = key := by
  unfold enqueueKey
  split
  · exact ⟨tables.candidates, rfl, fun row mem => .inl mem⟩
  · refine ⟨_, rfl, ?_⟩
    intro row mem
    rcases List.mem_append.mp mem with old | new
    · exact .inl old
    · rw [List.mem_singleton.mp new]
      exact .inr rfl

theorem enqueueKeys_fixed (tables : Tables) (keys : List Text) (now : Instant) :
    ∃ candidates, tables.enqueueKeys keys now = { tables with candidates := candidates } ∧
      ∀ row ∈ candidates, row ∈ tables.candidates ∨ row.key ∈ keys := by
  induction keys generalizing tables with
  | nil => exact ⟨tables.candidates, rfl, fun row mem => .inl mem⟩
  | cons key keys ih =>
      obtain ⟨first, one, firstOnly⟩ := tables.enqueueKey_fixed now key
      obtain ⟨rest, all, restOnly⟩ := ih { tables with candidates := first }
      refine ⟨rest, ?_, ?_⟩
      · rw [enqueueKeys, List.foldl_cons, one]
        exact all
      · intro row mem
        rcases restOnly row mem with old | new
        · rcases firstOnly row old with older | same
          · exact .inl older
          · exact .inr (List.mem_cons.mpr (.inl same))
        · exact .inr (List.mem_cons_of_mem _ new)

theorem enqueuePrefix_fixed (tables : Tables) (key : Text) (now : Instant) :
    ∃ candidates, tables.enqueuePrefix key now = { tables with candidates := candidates } ∧
      ∀ row ∈ candidates, (∃ old ∈ tables.candidates, old.key = row.key) ∨ row.key = key := by
  unfold enqueuePrefix
  split
  · refine ⟨_, rfl, ?_⟩
    intro row mem
    obtain ⟨old, found, rfl⟩ := List.mem_map.mp mem
    left
    refine ⟨old, found, ?_⟩
    split <;> rfl
  · refine ⟨_, rfl, ?_⟩
    intro row mem
    rcases List.mem_append.mp mem with old | new
    · exact .inl ⟨row, old, rfl⟩
    · rw [List.mem_singleton.mp new]
      exact .inr rfl

@[simp] theorem enqueueKeys_pins (tables : Tables) (keys : List Text) (now : Instant) :
    (tables.enqueueKeys keys now).pins = tables.pins := by
  obtain ⟨_, queued, _⟩ := tables.enqueueKeys_fixed keys now
  rw [queued]

@[simp] theorem enqueuePrefix_pins (tables : Tables) (key : Text) (now : Instant) :
    (tables.enqueuePrefix key now).pins = tables.pins := by
  obtain ⟨_, queued, _⟩ := tables.enqueuePrefix_fixed key now
  rw [queued]

/-- What a placement is given: a key that a row references, or the one that was minted; the generation
stays in the last segment of the logical key either way. -/
theorem place_cases {tables : Tables} {refs : List Ref} {epoch logical nonce : Text}
    (flat : '/' ∉ Layout.generation epoch nonce) :
    ∃ gen, '/' ∉ gen ∧ tables.place refs epoch logical nonce = Layout.physicalKey logical gen ∧
      (Referenced refs (tables.place refs epoch logical nonce) ∨
        tables.place refs epoch logical nonce =
          Layout.physicalKey logical (Layout.generation epoch nonce)) := by
  unfold place reusable
  simp only
  cases found : refs.find? _ with
  | none => exact ⟨Layout.generation epoch nonce, flat, rfl, .inr rfl⟩
  | some ref =>
      have test := List.find?_some found
      simp only [Bool.and_eq_true, Bool.not_eq_true', beq_iff_eq, List.contains_eq_mem,
        decide_eq_false_iff_not] at test
      obtain ⟨⟨⟨⟨_, stem⟩, flatTail⟩, _⟩, _⟩ := test
      refine ⟨ref.key.drop (Layout.physicalKey logical []).length, flatTail, ?_, .inl ?_⟩
      · change ref.key = _
        conv_lhs => rw [← List.take_append_drop (Layout.physicalKey logical []).length ref.key]
        rw [stem]
        simp [Layout.physicalKey]
      · exact referenced_of_key (List.mem_of_find?_eq_some found)

theorem generation_flat {gen : Text} (flat : '/' ∉ gen) : '/' ∉ '~' :: gen := by
  rw [List.mem_cons, not_or]
  exact ⟨by decide, flat⟩

/-- The pin and the token `pin_all` makes of one draw. -/
def pinOf (tables : Tables) (refs : List Ref) (epoch repoPrefix : Text) (until_ : Instant)
    (draw : Draw) : Pin :=
  ⟨draw.token, tables.place refs epoch draw.logical draw.nonce, repoPrefix, bindTs until_⟩

def tokenOf (tables : Tables) (refs : List Ref) (epoch : Text) (draw : Draw) : PinToken :=
  ⟨draw.token, draw.logical, tables.place refs epoch draw.logical draw.nonce⟩

theorem pinEach_eq (refs : List Ref) (epoch repoPrefix : Text) (until_ : Instant) (tables : Tables)
    (draws : List Draw) :
    pinEach refs epoch repoPrefix until_ tables draws =
      (draws.map (tables.tokenOf refs epoch),
        { tables with
          pins := tables.pins ++ draws.map (tables.pinOf refs epoch repoPrefix until_) }) := by
  induction draws generalizing tables with
  | nil => simp [pinEach]
  | cons draw draws ih =>
      simp only [pinEach, pinOne, ih, List.map_cons, tokenOf, Prod.mk.injEq, List.append_assoc,
        List.singleton_append]
      exact ⟨rfl, rfl⟩

theorem spendPins_ok {tables after : Tables} {tokens : List PinToken}
    (spent : tables.spendPins tokens = .ok after) :
    (∀ token ∈ tokens, ∃ pin ∈ tables.pins, pin.token = token.token ∧
      pin.physicalKey = token.physicalKey) ∧
    ∃ pins, after = { tables with pins := pins } ∧ ∀ pin ∈ pins, pin ∈ tables.pins := by
  unfold spendPins at spent
  simp only at spent
  split at spent
  case isTrue none =>
    cases spent
    refine ⟨?_, _, rfl, fun pin mem => (List.mem_filter.mp mem).1⟩
    intro token mem
    simp only [List.isEmpty_iff, List.map_eq_nil_iff, List.filter_eq_nil_iff, Bool.not_eq_true',
      Bool.not_eq_false] at none
    have live := none token mem
    simpa [pinned, List.any_eq_true] using live
  case isFalse => cases spent

theorem spendPins_error {tables : Tables} {tokens : List PinToken} {revoked : List Text}
    (lost : tables.spendPins tokens = .error revoked) :
    ∀ key ∈ revoked, ∃ token ∈ tokens, tables.pinned token = false ∧ token.physicalKey = key := by
  unfold spendPins at lost
  simp only at lost
  split at lost
  case isTrue => cases lost
  case isFalse =>
    cases lost
    intro key mem
    obtain ⟨token, found, rfl⟩ := List.mem_map.mp mem
    obtain ⟨given, gone⟩ := List.mem_filter.mp found
    exact ⟨token, given, by simpa using gone, rfl⟩

theorem spendPins_keeps {tables after : Tables} {tokens : List PinToken} {pin : Pin}
    (spent : tables.spendPins tokens = .ok after) (mem : pin ∈ tables.pins)
    (apart : ∀ token ∈ tokens, token.token ≠ pin.token) : pin ∈ after.pins := by
  unfold spendPins at spent
  simp only at spent
  split at spent
  case isTrue =>
    cases spent
    refine List.mem_filter.mpr ⟨mem, ?_⟩
    rw [Bool.not_eq_true', List.any_eq_false]
    intro token given both
    simp only [Bool.and_eq_true, beq_iff_eq] at both
    exact apart token given both.1.symm
  case isFalse => cases spent

theorem foldl_revokeUnder (roots : List Text) (tables : Tables) :
    ∃ pins, roots.foldl revokeUnder tables = { tables with pins := pins } ∧
      ∀ pin ∈ pins, pin ∈ tables.pins := by
  induction roots generalizing tables with
  | nil => exact ⟨tables.pins, rfl, fun pin mem => mem⟩
  | cons root roots ih =>
      obtain ⟨pins, all, fewer⟩ := ih (tables.revokeUnder root)
      refine ⟨pins, ?_, ?_⟩
      · rw [List.foldl_cons, all]
        rfl
      · intro pin mem
        exact (mem_revokeUnder.mp (fewer pin mem)).1

theorem foldl_enqueuePrefix (roots : List Text) (now : Instant) (tables : Tables) :
    ∃ candidates, roots.foldl (fun t key => t.enqueuePrefix key now) tables =
        { tables with candidates := candidates } ∧
      ∀ row ∈ candidates, (∃ old ∈ tables.candidates, old.key = row.key) ∨ row.key ∈ roots := by
  induction roots generalizing tables with
  | nil => exact ⟨tables.candidates, rfl, fun row mem => .inl ⟨row, mem, rfl⟩⟩
  | cons root roots ih =>
      obtain ⟨first, one, firstOnly⟩ := tables.enqueuePrefix_fixed root now
      obtain ⟨rest, all, restOnly⟩ := ih { tables with candidates := first }
      refine ⟨rest, ?_, ?_⟩
      · rw [List.foldl_cons, one]
        exact all
      · intro row mem
        rcases restOnly row mem with ⟨old, found, same⟩ | new
        · rcases firstOnly old found with ⟨older, kept, equal⟩ | fresh
          · exact .inl ⟨older, kept, equal.trans same⟩
          · exact .inr (List.mem_cons.mpr (.inl (same.symm.trans fresh)))
        · exact .inr (List.mem_cons_of_mem _ new)

/-- A retirement revokes pins, queues prefixes of its incarnation and marks it: nothing else. -/
theorem retire_fixed (tables : Tables) (incarnation : Text) (group : Bool) (now : Instant) :
    ∃ pins candidates retired,
      tables.retire incarnation group now =
        { tables with pins := pins, candidates := candidates, retired := retired } ∧
      (∀ pin ∈ pins, pin ∈ tables.pins) ∧
      (∀ row ∈ candidates, (∃ old ∈ tables.candidates, old.key = row.key) ∨
        row.key ∈ tables.prefixes.map StoragePrefix.key) ∧
      ∀ i ∈ tables.retired, i ∈ retired := by
  unfold retire
  simp only
  generalize marked_eq : (if tables.retired.contains incarnation then tables
    else { tables with retired := tables.retired ++ [incarnation] }) = marked
  have shape : ∃ retired, marked = { tables with retired := retired } ∧
      ∀ i ∈ tables.retired, i ∈ retired := by
    subst marked_eq
    split
    · exact ⟨tables.retired, rfl, fun i mem => mem⟩
    · exact ⟨_, rfl, fun i mem => List.mem_append_left _ mem⟩
  obtain ⟨retired, rfl, more⟩ := shape
  generalize own_eq : (tables.prefixes.filter fun row => row.incarnation == incarnation).map
    StoragePrefix.key = own
  have ours : ∀ key ∈ own, key ∈ tables.prefixes.map StoragePrefix.key := by
    subst own_eq
    intro key mem
    obtain ⟨row, found, rfl⟩ := List.mem_map.mp mem
    exact List.mem_map_of_mem (List.mem_filter.mp found).1
  obtain ⟨pins, revoked, fewer⟩ := foldl_revokeUnder own { tables with retired := retired }
  rw [revoked]
  split
  · refine ⟨pins, tables.candidates, retired, rfl, fewer, ?_, more⟩
    exact fun row mem => .inl ⟨row, mem, rfl⟩
  · obtain ⟨candidates, queued, only⟩ := foldl_enqueuePrefix own now
      { tables with retired := retired, pins := pins }
    refine ⟨pins, candidates, retired, ?_, fewer, ?_, more⟩
    · rw [queued]
    · intro row mem
      rcases only row mem with old | new
      · exact .inl old
      · exact .inr (ours _ new)

theorem mem_candidates_of_due {tables : Tables} {grace : Duration} {now : Instant} {limit : Nat}
    {candidate : Candidate} (mem : candidate ∈ tables.due grace now limit) :
    ∃ row ∈ tables.candidates, row.key = candidate.key := by
  unfold due at mem
  obtain ⟨row, found, rfl⟩ := List.mem_map.mp mem
  have sorted := (List.perm_insertionSort _ _).mem_iff.mp (List.mem_of_mem_take found)
  exact ⟨row, (List.mem_filter.mp sorted).1, rfl⟩

/-- A transaction of a reclaimer: no pin and no candidate is new, and no prefix moves. -/
structure Shrinks (before after : Tables) : Prop where
  pins : ∀ pin ∈ after.pins, pin ∈ before.pins
  candidates : ∀ row ∈ after.candidates, row ∈ before.candidates
  prefixes : after.prefixes = before.prefixes
  retired : after.retired = before.retired

theorem Shrinks.refl (tables : Tables) : Shrinks tables tables :=
  ⟨fun _ mem => mem, fun _ mem => mem, rfl, rfl⟩

theorem dropCandidate_shrinks (tables : Tables) (key : Text) :
    Shrinks tables (tables.dropCandidate key) :=
  ⟨fun _ mem => mem, fun _ mem => (List.mem_filter.mp mem).1, rfl, rfl⟩

theorem setClaim_fixed (tables : Tables) (key token : Text) (until_ : Instant) :
    ∃ claims, tables.setClaim key token until_ = { tables with claims := claims } := by
  unfold setClaim
  split
  · exact ⟨_, rfl⟩
  · exact ⟨_, rfl⟩

theorem revoke_shrinks (tables : Tables) (key : Text) (isPrefix : Bool) :
    Shrinks tables (tables.revoke key isPrefix) := by
  refine ⟨fun _ mem => (mem_revoke mem).1, ?_, ?_, ?_⟩
  · unfold revoke
    split <;> exact fun _ mem => mem
  · unfold revoke
    split <;> rfl
  · unfold revoke
    split <;> rfl

theorem claimOne_shrinks (tables : Tables) (refs : List Ref) (key : Text) (grace : Duration)
    (now until_ : Instant) (token : Text) :
    Shrinks tables (tables.claimOne refs key grace now until_ token).2 := by
  unfold claimOne
  split
  · exact .refl tables
  case h_2 row _ =>
    simp only
    split
    · exact tables.dropCandidate_shrinks key
    · split
      · exact .refl tables
      · split
        · exact .refl tables
        · split
          · exact tables.dropCandidate_shrinks key
          · split
            · exact .refl tables
            · obtain ⟨claims, claimed⟩ :=
                (tables.revoke key row.isPrefix).setClaim_fixed key token until_
              rw [claimed]
              have revoked := tables.revoke_shrinks key row.isPrefix
              exact ⟨revoked.pins, revoked.candidates, revoked.prefixes, revoked.retired⟩

theorem shrinks_of_claim {tables after : Tables} {refs : List Ref} {key : Text} {grace : Duration}
    {now until_ : Instant} {token : Text} {answer : Claim}
    (claim : tables.claimOne refs key grace now until_ token = (answer, after)) :
    Shrinks tables after := by
  have shrinks := tables.claimOne_shrinks refs key grace now until_ token
  rw [claim] at shrinks
  exact shrinks

theorem release_shrinks (tables : Tables) (token : Text) :
    Shrinks tables (tables.release token) := by
  unfold release
  split
  · exact .refl tables
  · exact ⟨fun _ mem => mem, fun _ mem => (List.mem_filter.mp mem).1, rfl, rfl⟩

@[simp] theorem release_pins (tables : Tables) (token : Text) :
    (tables.release token).pins = tables.pins := by
  unfold release
  split <;> rfl

@[simp] theorem renew_pins (tables : Tables) (token : Text) (until_ : Instant) :
    (tables.renew token until_).2.pins = tables.pins := by
  unfold renew
  split <;> rfl

theorem renew_shrinks (tables : Tables) (token : Text) (until_ : Instant) :
    Shrinks tables (tables.renew token until_).2 := by
  unfold renew
  split
  · exact ⟨fun _ mem => mem, fun _ mem => mem, rfl, rfl⟩
  · exact .refl tables

theorem forgetClaimed_shrinks (tables : Tables) (key : Text) :
    Shrinks tables (tables.forgetClaimed key) :=
  ⟨fun _ mem => mem, fun _ mem => mem, rfl, rfl⟩

theorem prunePins_shrinks (tables : Tables) (grace : Duration) (now : Instant) (limit : Nat) :
    Shrinks tables (tables.prunePins grace now limit) :=
  ⟨fun _ mem => (List.mem_filter.mp mem).1, fun _ mem => mem, rfl, rfl⟩

/-- Forgetting a retired prefix brings no prefix back to life: a retirement outlives every prefix of
its incarnation. -/
theorem forgetRetired_fixed (tables : Tables) (key : Text) :
    ∃ prefixes retired,
      tables.forgetRetired key = { tables with prefixes := prefixes, retired := retired } ∧
      (∀ row ∈ prefixes, row ∈ tables.prefixes) ∧
      ∀ i, (tables.forgetRetired key).isLivePrefix (Layout.incarnationPrefix i) = true →
        tables.isLivePrefix (Layout.incarnationPrefix i) = true := by
  unfold forgetRetired
  split
  case h_1 => exact ⟨_, _, rfl, fun _ mem => mem, fun _ live => live⟩
  case h_2 dropped found =>
    refine ⟨_, _, rfl, fun _ mem => (List.mem_filter.mp mem).1, ?_⟩
    intro i live
    obtain ⟨row, mem, own, running⟩ := isLivePrefix_iff.mp live
    have old := (List.mem_filter.mp mem).1
    refine isLivePrefix_iff.mpr ⟨row, old, own, fun gone => running ?_⟩
    -- a row of the incarnation is left, so its retirement is left too
    simp only
    split
    case isTrue => exact gone
    case isFalse noneLeft =>
      refine List.mem_filter.mpr ⟨gone, ?_⟩
      rw [bne_iff_ne]
      intro same
      apply noneLeft
      rw [List.any_eq_true]
      exact ⟨row, mem, by simp [same]⟩

end Tables

end OpenCargo.Reclaim
