/-
Module: OpenCargo.Reclaim.Queue
Purpose: What one step can make of the queue and of the claims. A row that queues a key is only dropped
  by a claim that finds it referenced and by the release of a claim on it; a retirement queues what it
  revokes; and a claim revokes only what its row queues.
Trusted boundary: none
Main exports: queue_fate, revoked_by_claim, revoked_by_retire, Matched.step
-/
import OpenCargo.Reclaim.Fate

namespace OpenCargo.Reclaim

open OpenCargo.Lib

variable {β : Type}

/-- A row of the queue covers the key. -/
def Queued (tables : Tables) (key : Text) : Prop :=
  ∃ row ∈ tables.candidates, ClaimCovers row.key row.isPrefix key

instance (root : Text) (isPrefix : Bool) (key : Text) : Decidable (ClaimCovers root isPrefix key) := by
  unfold ClaimCovers
  infer_instance

instance (tables : Tables) (key : Text) : Decidable (Queued tables key) := by
  unfold Queued
  infer_instance

theorem claimCovers_self (key : Text) (isPrefix : Bool) : ClaimCovers key isPrefix key := by
  unfold ClaimCovers
  split
  · exact Under.refl key
  · rfl

theorem ClaimCovers.covers {root key : Text} {isPrefix : Bool} (covers : ClaimCovers root isPrefix key) :
    Covers root key := by
  unfold ClaimCovers at covers
  split at covers
  · exact covers
  · rw [covers]
    exact Under.refl root

theorem referenced_of_referencesKey {refs : List Ref} {key : Text}
    (hit : referencesKey refs key false = true) : Referenced refs key := by
  obtain ⟨ref, mem, same | ⟨wide, _⟩ | protected_⟩ := referencesKey_iff.mp hit
  · exact ⟨ref, mem, .inl same⟩
  · cases wide
  · exact ⟨ref, mem, .inr protected_⟩

/-! ### Rows that come and stay -/

theorem Queued.mono {before after : Tables} {key : Text} (queued : Queued before key)
    (kept : ∀ row ∈ before.candidates, row ∈ after.candidates) : Queued after key := by
  obtain ⟨row, mem, covers⟩ := queued
  exact ⟨row, kept row mem, covers⟩

theorem mem_enqueueKey {tables : Tables} {now : Instant} {key : Text} {row : CandidateRow}
    (mem : row ∈ tables.candidates) : row ∈ (tables.enqueueKey now key).candidates := by
  unfold Tables.enqueueKey
  split
  · exact mem
  · exact List.mem_append_left _ mem

theorem queued_enqueueKey (tables : Tables) (now : Instant) (key : Text) :
    ∃ row ∈ (tables.enqueueKey now key).candidates, row.key = key := by
  unfold Tables.enqueueKey
  split
  case isTrue found =>
    obtain ⟨row, mem, same⟩ := List.any_eq_true.mp found
    exact ⟨row, mem, by simpa using same⟩
  case isFalse => exact ⟨_, List.mem_append_right _ (List.mem_singleton.mpr rfl), rfl⟩

theorem mem_enqueueKeys {tables : Tables} {keys : List Text} {now : Instant} {row : CandidateRow}
    (mem : row ∈ tables.candidates) : row ∈ (tables.enqueueKeys keys now).candidates := by
  induction keys generalizing tables with
  | nil => exact mem
  | cons key keys ih => exact ih (mem_enqueueKey mem)

theorem queued_enqueueKeys {tables : Tables} {keys : List Text} {now : Instant} {key : Text}
    (mem : key ∈ keys) : ∃ row ∈ (tables.enqueueKeys keys now).candidates, row.key = key := by
  induction keys generalizing tables with
  | nil => cases mem
  | cons first keys ih =>
      rcases List.mem_cons.mp mem with rfl | later
      · obtain ⟨row, found, same⟩ := queued_enqueueKey tables now key
        refine ⟨row, ?_, same⟩
        change row ∈ ((tables.enqueueKey now key).enqueueKeys keys now).candidates
        exact mem_enqueueKeys found
      · exact ih later

theorem queued_of_key {tables : Tables} {key : Text}
    (found : ∃ row ∈ tables.candidates, row.key = key) : Queued tables key := by
  obtain ⟨row, mem, rfl⟩ := found
  exact ⟨row, mem, claimCovers_self _ _⟩

theorem Queued.enqueuePrefix {tables : Tables} {root key : Text} {now : Instant}
    (queued : Queued tables key) : Queued (tables.enqueuePrefix root now) key := by
  obtain ⟨row, mem, covers⟩ := queued
  unfold Tables.enqueuePrefix
  split
  · refine ⟨_, List.mem_map_of_mem mem, ?_⟩
    split
    · rw [ClaimCovers, if_pos rfl]
      exact covers.covers
    · exact covers
  · exact ⟨row, List.mem_append_left _ mem, covers⟩

theorem queued_enqueuePrefix {tables : Tables} {root key : Text} {now : Instant}
    (covers : Covers root key) : Queued (tables.enqueuePrefix root now) key := by
  unfold Tables.enqueuePrefix
  split
  case isTrue found =>
    obtain ⟨row, mem, same⟩ := List.any_eq_true.mp found
    refine ⟨_, List.mem_map_of_mem mem, ?_⟩
    rw [if_pos same, ClaimCovers, if_pos rfl]
    simp only [beq_iff_eq] at same
    rw [same]
    exact covers
  case isFalse =>
    refine ⟨_, List.mem_append_right _ (List.mem_singleton.mpr rfl), ?_⟩
    rw [ClaimCovers, if_pos rfl]
    exact covers

theorem Queued.foldPrefix {roots : List Text} {tables : Tables} {key : Text} {now : Instant}
    (queued : Queued tables key) :
    Queued (roots.foldl (fun t root => t.enqueuePrefix root now) tables) key := by
  induction roots generalizing tables with
  | nil => exact queued
  | cons root roots ih => exact ih queued.enqueuePrefix

theorem queued_foldPrefix {roots : List Text} {tables : Tables} {root key : Text} {now : Instant}
    (mem : root ∈ roots) (covers : Covers root key) :
    Queued (roots.foldl (fun t root => t.enqueuePrefix root now) tables) key := by
  induction roots generalizing tables with
  | nil => cases mem
  | cons first roots ih =>
      rcases List.mem_cons.mp mem with rfl | later
      · rw [List.foldl_cons]
        exact Queued.foldPrefix (queued_enqueuePrefix covers)
      · exact ih later

/-! ### Retirements -/

theorem mem_foldl_revokeUnder {roots : List Text} {tables : Tables} {pin : Pin} :
    pin ∈ (roots.foldl Tables.revokeUnder tables).pins ↔ pin ∈ tables.pins ∧
      ∀ root ∈ roots, pin.repoPrefix ≠ root ∧ ¬ Covers root pin.physicalKey := by
  induction roots generalizing tables with
  | nil => simp
  | cons root roots ih =>
      rw [List.foldl_cons, ih, Tables.mem_revokeUnder]
      simp only [List.mem_cons, forall_eq_or_imp]
      tauto

/-- The prefixes of an incarnation. -/
def Tables.ownPrefixes (tables : Tables) (incarnation : Text) : List Text :=
  (tables.prefixes.filter fun row => row.incarnation == incarnation).map StoragePrefix.key

theorem mem_retire {tables : Tables} {incarnation : Text} {group : Bool} {now : Instant} {pin : Pin} :
    pin ∈ (tables.retire incarnation group now).pins ↔ pin ∈ tables.pins ∧
      ∀ root ∈ tables.ownPrefixes incarnation,
        pin.repoPrefix ≠ root ∧ ¬ Covers root pin.physicalKey := by
  have marked : ∀ t : Tables, (if t.retired.contains incarnation then t
      else { t with retired := t.retired ++ [incarnation] }).pins = t.pins := by
    intro t
    split <;> rfl
  have queued : ∀ (roots : List Text) (t : Tables),
      (roots.foldl (fun t key => t.enqueuePrefix key now) t).pins = t.pins := by
    intro roots t
    obtain ⟨_, same, _⟩ := Tables.foldl_enqueuePrefix roots now t
    rw [same]
  unfold Tables.retire Tables.ownPrefixes
  simp only
  split
  · rw [mem_foldl_revokeUnder, marked]
  · rw [queued, mem_foldl_revokeUnder, marked]

theorem queued_retire {tables : Tables} {incarnation root key : Text} {now : Instant}
    (mem : root ∈ tables.ownPrefixes incarnation) (covers : Covers root key) :
    Queued (tables.retire incarnation false now) key := by
  unfold Tables.retire
  simp only [Bool.false_eq_true, if_false]
  exact queued_foldPrefix mem covers

theorem Queued.retire {tables : Tables} {incarnation key : Text} {group : Bool} {now : Instant}
    (queued : Queued tables key) : Queued (tables.retire incarnation group now) key := by
  have revoked : ∀ (roots : List Text) (t : Tables),
      (roots.foldl Tables.revokeUnder t).candidates = t.candidates := by
    intro roots t
    obtain ⟨_, same, _⟩ := Tables.foldl_revokeUnder roots t
    rw [same]
  have marked : ∀ t : Tables, (if t.retired.contains incarnation then t
      else { t with retired := t.retired ++ [incarnation] }).candidates = t.candidates := by
    intro t
    split <;> rfl
  have stays : Queued ((tables.ownPrefixes incarnation).foldl Tables.revokeUnder
      (if tables.retired.contains incarnation then tables
        else { tables with retired := tables.retired ++ [incarnation] })) key := by
    apply Queued.mono queued
    rw [revoked, marked]
    exact fun row mem => mem
  unfold Tables.retire
  simp only
  split
  · exact stays
  · exact stays.foldPrefix

/-! ### Claims -/

/-- What a claim that is not answered `Claimed` does: nothing, or it drops a row that is referenced. -/
theorem claimOne_unclaimed {tables after : Tables} {refs : List Ref} {key : Text} {grace : Duration}
    {now until_ : Instant} {token : Text} {answer : Claim} (other : ∀ token, answer ≠ .claimed token)
    (claim : tables.claimOne refs key grace now until_ token = (answer, after)) :
    after = tables ∨ (answer = .referenced ∧ after = tables.dropCandidate key ∧
      ∃ row ∈ tables.candidates, row.key = key ∧
        (row.isPrefix = true ∨ referencesKey refs key false = true)) := by
  unfold Tables.claimOne at claim
  split at claim
  case h_1 =>
    cases claim
    exact .inl rfl
  case h_2 row found =>
    have mem := List.mem_of_find?_eq_some found
    have same : row.key = key := by simpa using List.find?_some found
    simp only at claim
    split at claim
    case isTrue live =>
      cases claim
      simp only [Bool.and_eq_true] at live
      exact .inr ⟨rfl, rfl, row, mem, same, .inl live.1.1⟩
    case isFalse =>
      split at claim
      case isTrue =>
        cases claim
        exact .inl rfl
      case isFalse =>
        split at claim
        case isTrue =>
          cases claim
          exact .inl rfl
        case isFalse =>
          split at claim
          case isTrue referenced =>
            cases claim
            refine .inr ⟨rfl, rfl, row, mem, same, ?_⟩
            cases wide : row.isPrefix with
            | true => exact .inl rfl
            | false =>
                rw [wide] at referenced
                exact .inr referenced
          case isFalse =>
            split at claim
            case isTrue =>
              cases claim
              exact .inl rfl
            case isFalse =>
              cases claim
              exact absurd rfl (other token)

@[simp] theorem Tables.setClaim_candidates (tables : Tables) (key token : Text) (until_ : Instant) :
    (tables.setClaim key token until_).candidates = tables.candidates := by
  unfold Tables.setClaim
  split <;> rfl

@[simp] theorem Tables.revoke_candidates (tables : Tables) (key : Text) (isPrefix : Bool) :
    (tables.revoke key isPrefix).candidates = tables.candidates := by
  unfold Tables.revoke
  split <;> rfl

/-- A claim revokes only what its row queues: a pin that is there no more, on a key of its own
repository, is one whose key is gone and stays queued. -/
theorem revoked_by_claim {tables after : Tables} {refs : List Ref} {root : Text} {grace : Duration}
    {now until_ : Instant} {drawn token : Text} {pin : Pin}
    (claim : tables.claimOne refs root grace now until_ drawn = (.claimed token, after))
    (mem : pin ∈ tables.pins) (home : Covers pin.repoPrefix pin.physicalKey)
    (lost : pin ∉ after.pins) :
    Gone refs after.pins pin.physicalKey ∧ Queued after pin.physicalKey := by
  obtain ⟨row, claimable, rfl, _⟩ := Tables.claimOne_claimed claim
  have covered : ClaimCovers root row.isPrefix pin.physicalKey := by
    by_contra uncovered
    apply lost
    rw [Tables.setClaim_pins]
    unfold Tables.revoke
    unfold ClaimCovers at uncovered
    split
    case isTrue wide =>
      rw [if_pos wide] at uncovered
      refine Tables.mem_revokeUnder.mpr ⟨mem, ?_, uncovered⟩
      rintro rfl
      exact uncovered home
    case isFalse narrow =>
      rw [if_neg narrow] at uncovered
      exact List.mem_filter.mpr ⟨mem, by simpa using uncovered⟩
  refine ⟨⟨not_referenced_of_covered claimable.unreferenced covered, ?_⟩, ?_⟩
  · intro other there same
    rw [Tables.setClaim_pins] at there
    apply (Tables.mem_revoke there).2
    rw [same]
    exact covered
  · refine ⟨row, ?_, ?_⟩
    · rw [Tables.setClaim_candidates, Tables.revoke_candidates]
      exact List.mem_of_find?_eq_some claimable.found
    · have same : row.key = root := by simpa using List.find?_some claimable.found
      rw [same]
      exact covered

/-- A retirement queues what it revokes, and where nothing under its prefixes is referenced any more,
what it revokes is gone. -/
theorem revoked_by_retire {tables : Tables} {refs : List Ref} {incarnation : Text} {now : Instant}
    {pin : Pin} (mem : pin ∈ tables.pins) (home : Covers pin.repoPrefix pin.physicalKey)
    (empty : ∀ root ∈ tables.ownPrefixes incarnation, referencesKey refs root true = false)
    (lost : pin ∉ (tables.retire incarnation false now).pins) :
    Gone refs (tables.retire incarnation false now).pins pin.physicalKey ∧
      Queued (tables.retire incarnation false now) pin.physicalKey := by
  have revoked : ∃ root ∈ tables.ownPrefixes incarnation, Covers root pin.physicalKey := by
    by_contra none
    apply lost
    refine mem_retire.mpr ⟨mem, fun root own => ⟨?_, ?_⟩⟩
    · rintro rfl
      exact none ⟨_, own, home⟩
    · exact fun covers => none ⟨root, own, covers⟩
  obtain ⟨root, own, covers⟩ := revoked
  refine ⟨⟨?_, ?_⟩, queued_retire own covers⟩
  · apply not_referenced_of_covered (empty root own)
    rw [ClaimCovers, if_pos rfl]
    exact covers
  · intro other there same
    apply ((mem_retire.mp there).2 root own).2
    rw [same]
    exact covers

/-! ### What becomes of a queued key -/

/-- How a step can drop the row that queues a key: a claim finds a row of that key referenced, or a
reclaimer whose work is done releases it. -/
inductive Dropped (state : State β) (key : Text) : Act β → Prop where
  | referenced {id : Nat} {candidate : Candidate} {grace : Duration} {now until_ : Instant}
      {token : Text} (row found : CandidateRow) :
      (state.tables.claimOne state.rows candidate.key grace now until_ token).1 = .referenced →
      row ∈ state.tables.candidates → row.key = candidate.key →
      ClaimCovers row.key row.isPrefix key →
      found ∈ state.tables.candidates → found.key = candidate.key →
      (found.isPrefix = true ∨ referencesKey state.rows candidate.key false = true) →
      Dropped state key (.claim id candidate grace now until_ token)
  | released {id : Nat} (h : Holder) (claim : ClaimRow) (row : CandidateRow) :
      state.holder id = some h →
      (h.isPrefix = false ∧ h.stage = .deleted ∨ h.isPrefix = true ∧ h.stage = .forgotten) →
      claim ∈ state.tables.claims → claim.token = h.token →
      row ∈ state.tables.candidates → row.key = claim.key →
      ClaimCovers row.key row.isPrefix key → Dropped state key (.release id)

theorem queued_drop {tables : Tables} {root key : Text} {row : CandidateRow}
    (mem : row ∈ tables.candidates) (covers : ClaimCovers row.key row.isPrefix key) :
    Queued (tables.dropCandidate root) key ∨ row.key = root := by
  by_cases same : row.key = root
  · exact .inr same
  · exact .inl ⟨row, List.mem_filter.mpr ⟨mem, by simpa using same⟩, covers⟩

theorem queued_release {tables : Tables} {token key : Text} {row : CandidateRow}
    (mem : row ∈ tables.candidates) (covers : ClaimCovers row.key row.isPrefix key) :
    Queued (tables.release token) key ∨
      ∃ claim ∈ tables.claims, claim.token = token ∧ row.key = claim.key := by
  unfold Tables.release
  split
  case h_1 => exact .inl ⟨row, mem, covers⟩
  case h_2 claim found =>
    by_cases same : row.key = claim.key
    · exact .inr ⟨claim, List.mem_of_find?_eq_some found, by simpa using List.find?_some found, same⟩
    · exact .inl ⟨row, List.mem_filter.mpr ⟨mem, by simpa using same⟩, covers⟩

/-- What becomes of a queued key that lies in an incarnation: it stays queued, or it is dropped in one
of the two ways. -/
theorem queue_fate {state after : State β} {act : Act β} {key incarnation : Text}
    (effect : Effect state act after) (queued : Queued state.tables key)
    (within : Within '/' key (Layout.incarnationPrefix incarnation)) :
    Queued after.tables key ∨ Dropped state key act := by
  obtain ⟨row, mem, covers⟩ := queued
  have stays : Queued state.tables key := ⟨row, mem, covers⟩
  cases effect with
  | created =>
      refine .inl ⟨row, List.mem_filter.mpr ⟨mem, ?_⟩, covers⟩
      simp only [Bool.not_eq_true', Bool.and_eq_false_iff, List.contains_eq_mem,
        decide_eq_false_iff_not]
      right
      intro legacy
      exact not_within_of_apart (foreign_nameKeyed legacy incarnation) within covers.covers
  | retired => exact .inl stays.retire
  | committed _ spent =>
      left
      obtain ⟨_, _, rfl, _⟩ := Tables.spendPins_ok spent
      exact ⟨row, mem_enqueueKeys mem, covers⟩
  | enqueued => exact .inl ⟨row, mem_enqueueKeys mem, covers⟩
  | enqueuedPrefix => exact .inl stays.enqueuePrefix
  | claimed claim =>
      left
      obtain ⟨_, _, rfl, _⟩ := Tables.claimOne_claimed claim
      refine ⟨row, ?_, covers⟩
      rw [Tables.setClaim_candidates, Tables.revoke_candidates]
      exact mem
  | unclaimed other claim =>
      rcases claimOne_unclaimed other claim with rfl | ⟨rfl, rfl, found, there, same, why⟩
      · exact .inl stays
      · rcases queued_drop mem covers with kept | here
        · exact .inl kept
        · right
          exact .referenced row found (by rw [claim]) mem here covers there same why
  | moved id h whose found moves =>
      have release : Queued (state.tables.release h.token) key ∨
          ∃ claim ∈ state.tables.claims, claim.token = h.token ∧ row.key = claim.key :=
        queued_release mem covers
      cases moves with
      | released narrow at_ =>
          cases whose
          rcases release with kept | ⟨claim, there, token, same⟩
          · exact .inl kept
          · exact .inr (.released h claim row found (.inl ⟨narrow, at_⟩) there token mem same covers)
      | finished wide at_ =>
          cases whose
          rcases release with kept | ⟨claim, there, token, same⟩
          · exact .inl kept
          · exact .inr (.released h claim row found (.inr ⟨wide, at_⟩) there token mem same covers)
      | renewed =>
          left
          refine ⟨row, ?_, covers⟩
          unfold Tables.renew
          split
          all_goals exact mem
      | forgotten =>
          left
          obtain ⟨_, _, tables, _⟩ := state.tables.forgetRetired_fixed h.key
          refine ⟨row, ?_, covers⟩
          simp only [State.setStage, tables]
          exact mem
      | _ => exact .inl stays
  | _ => exact .inl stays

/-! ### Claims and who holds them -/

/-- A claim that carries a reclaimer's token is the one it was answered. -/
def Matched (state : State β) : Prop :=
  ∀ h ∈ state.holders, ∀ claim ∈ state.tables.claims, claim.token = h.token → claim.key = h.key

theorem Matched.of_subset {before after : State β} (matched : Matched before)
    (holders : ∀ h ∈ after.holders, ∃ old ∈ before.holders, old.key = h.key ∧ old.token = h.token)
    (claims : ∀ claim ∈ after.tables.claims, ∃ old ∈ before.tables.claims,
      old.key = claim.key ∧ old.token = claim.token) : Matched after := by
  intro h mem claim there token
  obtain ⟨holder, held, key, own⟩ := holders h mem
  obtain ⟨old, found, same, mark⟩ := claims claim there
  rw [← same, ← key]
  exact matched holder held old found (mark.trans (token.trans own.symm))

theorem Matched.of_claims {before after : State β} (matched : Matched before)
    (holders : after.holders = before.holders)
    (claims : ∀ claim ∈ after.tables.claims, claim ∈ before.tables.claims) : Matched after := by
  intro h mem claim there token
  exact matched h (holders ▸ mem) claim (claims claim there) token

@[simp] theorem Tables.enqueueKeys_claims (tables : Tables) (keys : List Text) (now : Instant) :
    (tables.enqueueKeys keys now).claims = tables.claims := by
  obtain ⟨_, queued, _⟩ := tables.enqueueKeys_fixed keys now
  rw [queued]

@[simp] theorem Tables.enqueuePrefix_claims (tables : Tables) (key : Text) (now : Instant) :
    (tables.enqueuePrefix key now).claims = tables.claims := by
  obtain ⟨_, queued, _⟩ := tables.enqueuePrefix_fixed key now
  rw [queued]

@[simp] theorem Tables.retire_claims (tables : Tables) (incarnation : Text) (group : Bool)
    (now : Instant) : (tables.retire incarnation group now).claims = tables.claims := by
  obtain ⟨_, _, _, retired, _⟩ := tables.retire_fixed incarnation group now
  rw [retired]

@[simp] theorem Tables.revoke_claims (tables : Tables) (key : Text) (isPrefix : Bool) :
    (tables.revoke key isPrefix).claims = tables.claims := by
  unfold Tables.revoke
  split <;> rfl

theorem mem_setClaim {tables : Tables} {key token : Text} {until_ : Instant} {claim : ClaimRow}
    (mem : claim ∈ (tables.setClaim key token until_).claims) :
    (claim.key = key ∧ claim.token = token) ∨ claim ∈ tables.claims := by
  unfold Tables.setClaim at mem
  split at mem
  · obtain ⟨old, found, rfl⟩ := List.mem_map.mp mem
    split
    case isTrue same => exact .inl ⟨by simpa using same, rfl⟩
    case isFalse => exact .inr found
  · rcases List.mem_append.mp mem with old | new
    · exact .inr old
    · rw [List.mem_singleton.mp new]
      exact .inl ⟨rfl, rfl⟩

/-- The reclaimers after one of them has moved are those there were, at another stage. -/
theorem Move.holders {state after : State β} {act : Act β} {h : Holder} (moves : Move state h act after)
    {other : Holder} (mem : other ∈ after.holders) :
    ∃ old ∈ state.holders, old.key = other.key ∧ old.token = other.token := by
  have staged : ∀ (s : State β) stage, s.holders = state.holders →
      other ∈ (s.setStage h stage).holders →
      ∃ old ∈ state.holders, old.key = other.key ∧ old.token = other.token := by
    intro s stage same mem
    obtain ⟨old, found, rfl⟩ := List.mem_map.mp mem
    refine ⟨old, same ▸ found, ?_⟩
    split
    case isTrue here =>
      subst here
      exact ⟨rfl, rfl⟩
    case isFalse => exact ⟨rfl, rfl⟩
  have dismissed : ∀ s : State β, s.holders = state.holders → other ∈ (s.dismiss h).holders →
      ∃ old ∈ state.holders, old.key = other.key ∧ old.token = other.token :=
    fun s same mem => ⟨other, same ▸ (List.mem_filter.mp mem).1, rfl, rfl⟩
  cases moves with
  | finished => exact dismissed _ (by rfl) mem
  | kept => exact dismissed _ (by rfl) mem
  | settled => exact dismissed _ (by rfl) mem
  | refused => exact dismissed _ (by rfl) mem
  | superseded => exact dismissed _ (by rfl) mem
  | _ => exact staged _ _ (by rfl) mem

theorem Move.claims {state after : State β} {act : Act β} {h : Holder} (moves : Move state h act after)
    {claim : ClaimRow} (mem : claim ∈ after.tables.claims) :
    ∃ old ∈ state.tables.claims, old.key = claim.key ∧ old.token = claim.token := by
  have released : claim ∈ (state.tables.release h.token).claims → claim ∈ state.tables.claims := by
    intro mem
    unfold Tables.release at mem
    split at mem
    · exact mem
    · exact (List.mem_filter.mp mem).1
  cases moves with
  | released => exact ⟨claim, released mem, rfl, rfl⟩
  | finished => exact ⟨claim, released mem, rfl, rfl⟩
  | renewed =>
      simp only [State.setStage, Tables.renew] at mem
      split at mem
      · obtain ⟨old, found, rfl⟩ := List.mem_map.mp mem
        refine ⟨old, found, ?_⟩
        split <;> exact ⟨rfl, rfl⟩
      · exact ⟨claim, mem, rfl, rfl⟩
  | forgotten =>
      obtain ⟨_, _, tables, _⟩ := state.tables.forgetRetired_fixed h.key
      simp only [State.setStage, tables] at mem
      exact ⟨claim, mem, rfl, rfl⟩
  | _ => exact ⟨claim, mem, rfl, rfl⟩

theorem Matched.step {state after : State β} {act : Act β} (matched : Matched state)
    (effect : Effect state act after)
    (fresh : ∀ id candidate grace now until_ token, act = .claim id candidate grace now until_ token →
      (∀ claim ∈ state.tables.claims, claim.token ≠ token) ∧
        ∀ h ∈ state.holders, h.token ≠ token) : Matched after := by
  cases effect with
  | created => exact matched.of_claims rfl fun claim mem => (List.mem_filter.mp mem).1
  | retired => exact matched.of_claims rfl fun claim mem => by simpa using mem
  | committed _ spent =>
      obtain ⟨_, _, rfl, _⟩ := Tables.spendPins_ok spent
      exact matched.of_claims rfl fun claim mem => by simpa using mem
  | enqueued => exact matched.of_claims rfl fun claim mem => by simpa using mem
  | enqueuedPrefix => exact matched.of_claims rfl fun claim mem => by simpa using mem
  | claimed claim =>
      obtain ⟨unclaimed, unheld⟩ := fresh _ _ _ _ _ _ rfl
      obtain ⟨_, _, rfl, _⟩ := Tables.claimOne_claimed claim
      intro h mem row there token
      rcases List.mem_cons.mp mem with rfl | old
      · rcases mem_setClaim there with ⟨here, _⟩ | before
        · exact here
        · rw [Tables.revoke_claims] at before
          exact absurd token (unclaimed row before)
      · rcases mem_setClaim there with ⟨_, new⟩ | before
        · exact absurd (token.symm.trans new) (unheld h old)
        · rw [Tables.revoke_claims] at before
          exact matched h old row before token
  | unclaimed other claim =>
      rcases claimOne_unclaimed other claim with rfl | ⟨_, rfl, _⟩
      all_goals exact matched.of_claims rfl fun claim mem => mem
  | moved id h _ found moves =>
      exact matched.of_subset (fun h mem => moves.holders mem) fun claim mem => moves.claims mem
  | _ => exact matched.of_claims rfl fun claim mem => mem

end OpenCargo.Reclaim
