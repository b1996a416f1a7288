/-
Module: OpenCargo.Reclaim.Prefix
Purpose: What a claim that answers `Claimed` has found, for a key and for a prefix, and that what is
  deleted under a claimed prefix is what the claim has checked, unless the prefix is empty.
Trusted boundary: none
Main exports: Referenced, claimOne_claimed, ClaimCoversList, claim_covers_list_iff_nonempty
-/
import OpenCargo.Reclaim.Store
import OpenCargo.Storage

namespace OpenCargo.Reclaim

open OpenCargo.Lib

/-! ### What a claim has found -/

/-- A row references the key: it records it, or it protects a key the key lies under. -/
def Referenced (refs : List Ref) (key : Text) : Prop :=
  ∃ ref ∈ refs, ref.key = key ∨ (ref.protects = true ∧ Within '/' key ref.key)

instance (refs : List Ref) (key : Text) : Decidable (Referenced refs key) := by
  unfold Referenced
  infer_instance

/-- What a claim is of: one key, or everything under one. -/
def ClaimCovers (root : Text) (isPrefix : Bool) (key : Text) : Prop :=
  if isPrefix then Covers root key else key = root

theorem referencesKey_iff {refs : List Ref} {key : Text} {isPrefix : Bool} :
    referencesKey refs key isPrefix = true ↔
      ∃ ref ∈ refs, ref.key = key ∨ (isPrefix = true ∧ Within '/' ref.key key) ∨
        (ref.protects = true ∧ Within '/' key ref.key) := by
  simp only [referencesKey, List.any_eq_true, Bool.or_eq_true, Bool.and_eq_true, beq_iff_eq,
    Layout.sqlWithin_iff, or_assoc]

/-- Nothing that is referenced is covered by a key `REFERENCES_KEY` answers no for. -/
theorem not_referenced_of_covered {refs : List Ref} {root key : Text} {isPrefix : Bool}
    (unreferenced : referencesKey refs root isPrefix = false)
    (covered : ClaimCovers root isPrefix key) : ¬ Referenced refs key := by
  rintro ⟨ref, mem, hit⟩
  have none : ¬ ∃ ref ∈ refs, ref.key = root ∨ (isPrefix = true ∧ Within '/' ref.key root) ∨
      (ref.protects = true ∧ Within '/' root ref.key) := by
    rw [← referencesKey_iff, unreferenced]
    exact Bool.false_ne_true
  unfold ClaimCovers at covered
  split at covered
  case isTrue wide =>
    rcases hit with rfl | ⟨protects, within⟩
    · rcases covered with same | inside
      · exact none ⟨ref, mem, .inl same⟩
      · exact none ⟨ref, mem, .inr (.inl ⟨wide, inside⟩)⟩
    · -- a protecting row and the claim both lie above the key, so one lies above the other
      rcases Under.comparable within.under covered with below | above
      · rcases below with same | inside
        · exact none ⟨ref, mem, .inl same⟩
        · exact none ⟨ref, mem, .inr (.inl ⟨wide, inside⟩)⟩
      · rcases above with same | inside
        · exact none ⟨ref, mem, .inl same.symm⟩
        · exact none ⟨ref, mem, .inr (.inr ⟨protects, inside⟩)⟩
  case isFalse =>
    subst covered
    rcases hit with same | protected_
    · exact none ⟨ref, mem, .inl same⟩
    · exact none ⟨ref, mem, .inr (.inr protected_)⟩

namespace Tables

theorem mem_revokeUnder {tables : Tables} {root : Text} {pin : Pin} :
    pin ∈ (tables.revokeUnder root).pins ↔
      pin ∈ tables.pins ∧ pin.repoPrefix ≠ root ∧ ¬ Covers root pin.physicalKey := by
  simp only [revokeUnder, List.mem_filter, Bool.not_eq_true', Bool.or_eq_false_iff, beq_eq_false_iff_ne,
    Covers, Under, not_or, ← Layout.sqlWithin_iff, Bool.not_eq_true, and_assoc]

theorem mem_revoke {tables : Tables} {root : Text} {isPrefix : Bool} {pin : Pin}
    (mem : pin ∈ (tables.revoke root isPrefix).pins) :
    pin ∈ tables.pins ∧ ¬ ClaimCovers root isPrefix pin.physicalKey := by
  unfold revoke at mem
  unfold ClaimCovers
  split at mem
  case isTrue wide =>
    obtain ⟨before, _, uncovered⟩ := mem_revokeUnder.mp mem
    rw [if_pos wide]
    exact ⟨before, uncovered⟩
  case isFalse narrow =>
    simp only [List.mem_filter, bne_iff_ne] at mem
    rw [if_neg narrow]
    exact mem

@[simp] theorem setClaim_pins (tables : Tables) (key token : Text) (until_ : Instant) :
    (tables.setClaim key token until_).pins = tables.pins := by
  unfold setClaim
  split <;> rfl

/-- What a claim that answers `Claimed` has found: the queued row, nothing it covers referenced, and no
pin under it that has not run out, unless the prefix is a retired incarnation's. -/
structure Claimable (tables : Tables) (refs : List Ref) (key : Text) (grace : Duration) (now : Instant)
    (row : CandidateRow) : Prop where
  found : tables.candidates.find? (fun row => row.key == key) = some row
  unreferenced : referencesKey refs key row.isPrefix = false
  unpinned : tables.isRetiredPrefix key = true ∨ tables.protectedBy key row.isPrefix grace now = false

theorem claimOne_claimed {tables after : Tables} {refs : List Ref} {key : Text} {grace : Duration}
    {now until_ : Instant} {drawn token : Text}
    (claim : tables.claimOne refs key grace now until_ drawn = (.claimed token, after)) :
    ∃ row, tables.Claimable refs key grace now row ∧
      after = (tables.revoke key row.isPrefix).setClaim key drawn until_ ∧ token = drawn := by
  unfold claimOne at claim
  split at claim
  case h_1 => cases claim
  case h_2 row found =>
    simp only at claim
    split at claim
    case isTrue => cases claim
    case isFalse =>
      split at claim
      case isTrue => cases claim
      case isFalse =>
        split at claim
        case isTrue => cases claim
        case isFalse =>
          split at claim
          case isTrue => cases claim
          case isFalse unreferenced =>
            split at claim
            case isTrue => cases claim
            case isFalse unpinned =>
              cases claim
              refine ⟨row, ⟨found, by simpa using unreferenced, ?_⟩, rfl, rfl⟩
              cases retired : tables.isRetiredPrefix key with
              | true => exact .inl rfl
              | false =>
                  right
                  simpa [retired] using unpinned

end Tables

/-! ### What is deleted under a claimed prefix -/

/-- For one prefix: the three tests of lying under it agree on every key, and whenever claiming it as a
prefix answers `Claimed`, no key the store lists under it is referenced, pinned or outside the
claim. -/
def ClaimCoversList (root : Text) : Prop :=
  (∀ key, (key == root || Layout.sqlWithin key root) = Layout.under key root ∧
    Layout.under key root = Keys.under key root) ∧
  ∀ (tables after : Tables) (refs : List Ref) (grace : Duration) (now until_ : Instant)
    (drawn token : Text) (β : Type) (objects : Objects β) (budget : Nat) (listed : List Text),
    (∃ row, tables.candidates.find? (fun row => row.key == root) = some row ∧
      row.isPrefix = true) →
    tables.claimOne refs root grace now until_ drawn = (.claimed token, after) →
    objects.list budget root = .ok listed →
    ∀ key ∈ listed, ¬ Referenced refs key ∧ (∀ pin ∈ after.pins, pin.physicalKey ≠ key) ∧
      ClaimCovers root true key

theorem sql_agrees (key root : Text) :
    (key == root || Layout.sqlWithin key root) = Layout.under key root := by
  rw [Bool.eq_iff_iff, Layout.under_iff, Bool.or_eq_true, beq_iff_eq, Layout.sqlWithin_iff]
  exact Iff.rfl

theorem keys_agree_of_nonempty {key root : Text} (nonempty : root ≠ []) :
    Layout.under key root = Keys.under key root := by
  rw [Bool.eq_iff_iff, Layout.under_iff, Keys.under_iff]
  simp [nonempty]

/-- A claimed prefix covers exactly what is deleted under it, unless it is the empty one: the store
lists everything under that, and the claim has checked nothing. -/
theorem claim_covers_list_iff_nonempty (root : Text) : ClaimCoversList root ↔ root ≠ [] := by
  constructor
  · rintro ⟨agree, _⟩ rfl
    have both := (agree ['k']).2
    exact absurd both (by decide)
  · intro nonempty
    refine ⟨fun key => ⟨sql_agrees key root, keys_agree_of_nonempty nonempty⟩, ?_⟩
    intro tables after refs grace now until_ drawn token β objects budget listed wide claim list key
      mem
    obtain ⟨row, ⟨found, unreferenced, _⟩, left, _⟩ := Tables.claimOne_claimed claim
    have isPrefix : row.isPrefix = true := by
      obtain ⟨other, same, flag⟩ := wide
      rw [found] at same
      cases same
      exact flag
    have covered : ClaimCovers root true key := by
      have under := (Objects.mem_list list mem).2
      rw [← keys_agree_of_nonempty nonempty, Layout.under_iff] at under
      exact under
    rw [isPrefix] at unreferenced left
    refine ⟨not_referenced_of_covered unreferenced covered, ?_, covered⟩
    intro pin pinned same
    rw [left, Tables.setClaim_pins] at pinned
    apply (Tables.mem_revoke pinned).2
    rw [same]
    exact covered

/-- `storage reclaim --prefix ''` on a store that holds one published artifact. -/
def emptyClaim : Claim × Tables :=
  Tables.claimOne ⟨[], [⟨[], true, 0⟩], [], [], [], []⟩ [⟨"r/i/p/f~e-n".toList, false⟩] [] 0
    2000000000 3000000000 "t".toList

/-- The claim answers `Claimed`, and the store lists the artifact a row records. -/
theorem empty_prefix_claim_lists_referenced :
    emptyClaim.1 = .claimed "t".toList ∧
      Objects.list [("r/i/p/f~e-n".toList, ())] 1024 [] = .ok ["r/i/p/f~e-n".toList] ∧
      Referenced [⟨"r/i/p/f~e-n".toList, false⟩] "r/i/p/f~e-n".toList ∧
      ¬ ClaimCoversList [] := by
  have claimed : emptyClaim = (.claimed "t".toList, emptyClaim.2) := by decide
  have listed : Objects.list [("r/i/p/f~e-n".toList, ())] 1024 [] =
      .ok ["r/i/p/f~e-n".toList] := by decide +kernel
  have referenced : Referenced [⟨"r/i/p/f~e-n".toList, false⟩] "r/i/p/f~e-n".toList :=
    ⟨_, List.mem_singleton.mpr rfl, .inl rfl⟩
  refine ⟨by decide, listed, referenced, ?_⟩
  rintro ⟨_, covers⟩
  have fate := covers _ _ _ _ _ _ _ _ _ _ _ _ ⟨_, rfl, rfl⟩ claimed listed _
    (List.mem_singleton.mpr rfl)
  exact fate.1 referenced

end OpenCargo.Reclaim
