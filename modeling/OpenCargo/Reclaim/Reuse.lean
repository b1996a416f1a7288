/-
Module: OpenCargo.Reclaim.Reuse
Purpose: What a physical key says of itself (`crates/domain/src/layout.rs`), and what the statement that
  looks for a generation to reuse says of it (`adapters/sqlite/reclaim.rs`). A generation is read back
  from its key whatever the logical key looks like. The statement, which takes whatever begins with the
  logical key and the epoch, and the functions, which cut at the last tilde, agree on every key that is
  recorded, since no two logical keys differ by a tilde and an epoch behind the file name.
Trusted boundary: none
Main exports: takes, takes_iff, parsed_iff, generations_parse_back
-/
import OpenCargo.Reclaim.Store

namespace OpenCargo.Reclaim

open OpenCargo.Lib
open OpenCargo.Layout

variable {n m : Nat}

/-! ### Reading a generation back -/

/-- A hosted artifact's place: an OCI blob and a manifest are two of these. -/
structure Filed where
  repoPrefix : Text
  package : Text
  sha256 : Hex 64
  filename : Text
  flat : '/' ∉ filename

def Filed.key (filed : Filed) : Text :=
  hostedKey filed.repoPrefix filed.package filed.sha256.text filed.filename

/-- The file is named by the last segment of the package, as a raw path names its own. -/
def Filed.Repeats (filed : Filed) : Prop := filed.filename = fileName filed.package

/-- Where the manifest of an image is filed. -/
def manifestOf (repoPrefix image : Text) (sha256 : Hex 64) : Filed :=
  ⟨repoPrefix, image, sha256, "manifest".toList, by decide⟩

/-- Where a blob is filed. -/
def blobOf (repoPrefix : Text) (sha256 : Hex 64) : Filed :=
  ⟨repoPrefix, "_blobs".toList, sha256, "blob".toList, by decide⟩

@[simp] theorem manifestOf_key (repoPrefix image : Text) (sha256 : Hex 64) :
    (manifestOf repoPrefix image sha256).key = ociManifestKey repoPrefix image sha256.text := rfl

@[simp] theorem blobOf_key (repoPrefix : Text) (sha256 : Hex 64) :
    (blobOf repoPrefix sha256).key = ociBlobKey repoPrefix sha256.text := rfl

/-- The generation of a key that is minted under an epoch with a nonce. -/
def minted (logical : Text) (epoch : Hex (n + 1)) (nonce : Hex (m + 1)) : Text :=
  physicalKey logical (generation epoch.text nonce.text)

variable {logical key : Text} {epoch : Hex (n + 1)} {nonce : Hex (m + 1)}

theorem no_tilde (hex : Hex n) : '~' ∉ hex.text := fun mem => (hex.plain mem).2.2.2.1 rfl

theorem no_dash (hex : Hex n) : '-' ∉ hex.text := fun mem => (hex.plain mem).2.2.2.2.1 rfl

theorem generation_plain (epoch : Hex (n + 1)) (nonce : Hex (m + 1)) :
    '~' ∉ generation epoch.text nonce.text ∧ '/' ∉ generation epoch.text nonce.text := by
  simp [generation, no_tilde, Hex.flat]

theorem logicalKey_minted (logical : Text) (epoch : Hex (n + 1)) (nonce : Hex (m + 1)) :
    logicalKey (minted logical epoch nonce) = logical :=
  logicalKey_physicalKey (generation_plain epoch nonce).1 (generation_plain epoch nonce).2

theorem generationEpoch_minted (logical : Text) (epoch : Hex (n + 1)) (nonce : Hex (m + 1)) :
    generationEpoch (minted logical epoch nonce) = some epoch.text := by
  obtain ⟨plain, flat⟩ := generation_plain epoch nonce
  rw [generationEpoch, minted, physicalKey, rsplitOnce_append plain]
  have cut : splitOnce '-' (generation epoch.text nonce.text) = some (epoch.text, nonce.text) :=
    splitOnce_append (no_dash epoch)
  simp [flat, cut, epoch.segment.1, nonce.segment.1]

theorem isSha256_hex (sha256 : Hex 64) : isSha256 sha256.text = true := by
  rw [isSha256, sha256.length, sha256.digits]
  rfl

theorem contentDigest_minted (filed : Filed) (epoch : Hex (n + 1)) (nonce : Hex (m + 1)) :
    contentDigest (minted filed.key epoch nonce) = some filed.sha256.text := by
  have cut : filed.key.splitOn '/' =
      (filed.repoPrefix ++ '/' :: filed.package).splitOn '/' ++ [filed.sha256.text, filed.filename] := by
    have shape : filed.key =
        (filed.repoPrefix ++ '/' :: filed.package) ++ '/' :: (filed.sha256.text ++ '/' :: filed.filename) := by
      simp [Filed.key, hostedKey]
    rw [shape, List.splitOn_append_cons_self, List.splitOn_append_cons_self_of_not_mem filed.sha256.flat,
      List.splitOn_eq_singleton filed.flat]
  -- a digest is longer than the word that stands for one in the older layout
  have apart : (filed.sha256.text == "sha256".toList) = false := by
    rw [beq_eq_false_iff_ne]
    intro same
    have long := filed.sha256.length
    rw [same] at long
    exact absurd long (by decide)
  rw [contentDigest, logicalKey_minted, cut, List.reverse_append]
  simp only [List.reverse_cons, List.reverse_nil, List.nil_append, List.cons_append, apart, Bool.and_false,
    Bool.false_eq_true, if_false, isSha256_hex, if_true]

/-- A key is minted of one logical key, under one epoch, with one nonce. -/
theorem minted_inj {logical' : Text} {n' m' : Nat} {epoch' : Hex (n' + 1)} {nonce' : Hex (m' + 1)}
    (same : minted logical epoch nonce = minted logical' epoch' nonce') :
    logical = logical' ∧ epoch.text = epoch'.text ∧ nonce.text = nonce'.text := by
  have roots := congrArg logicalKey same
  have epochs := congrArg generationEpoch same
  rw [logicalKey_minted, logicalKey_minted] at roots
  rw [generationEpoch_minted, generationEpoch_minted, Option.some.injEq] at epochs
  refine ⟨roots, epochs, ?_⟩
  rw [minted, minted, roots, physicalKey, physicalKey, generation, generation, epochs] at same
  simpa using same

/-! ### Two ways to ask -/

/-- What the statement asks of a key. -/
def takes (logical epoch key : Text) : Bool :=
  let stem := physicalKey logical []
  let head := epoch ++ ['-']
  key.take stem.length == stem && !(key.drop stem.length).contains '/' &&
    (key.drop stem.length).take head.length == head

theorem takes_iff (epoch : Hex (n + 1)) :
    takes logical epoch.text key = true ↔
      ∃ rest, key = physicalKey logical (generation epoch.text rest) ∧ '/' ∉ rest := by
  simp only [takes, Bool.and_eq_true, beq_iff_eq, Bool.not_eq_true', List.contains_eq_mem,
    decide_eq_false_iff_not]
  constructor
  · rintro ⟨⟨stem, flat⟩, head⟩
    refine ⟨(key.drop (physicalKey logical []).length).drop (epoch.text ++ ['-']).length, ?_,
      fun mem => flat (List.mem_of_mem_drop mem)⟩
    conv_lhs =>
      rw [← List.take_append_drop (physicalKey logical []).length key, stem,
        ← List.take_append_drop (epoch.text ++ ['-']).length (key.drop _), head]
    simp [physicalKey, generation]
  · rintro ⟨rest, rfl, flat⟩
    have whole : physicalKey logical (generation epoch.text rest) =
        physicalKey logical [] ++ ((epoch.text ++ ['-']) ++ rest) := by
      simp [physicalKey, generation]
    rw [whole, List.take_left, List.drop_left, List.take_left]
    simp [flat, epoch.flat]

/-- What the functions read out of a key. -/
theorem parsed_iff (epoch : Hex (n + 1)) :
    logicalKey key = logical ∧ generationEpoch key = some epoch.text ↔
      ∃ rest, key = physicalKey logical (generation epoch.text rest) ∧ '/' ∉ rest ∧ '~' ∉ rest ∧ rest ≠ [] := by
  constructor
  · rintro ⟨root, under⟩
    rw [generationEpoch] at under
    split at under
    · cases under
    · rename_i front gen cut
      split at under
      · cases under
      · rename_i flat
        rw [logicalKey, cut] at root
        simp only [flat, Bool.false_eq_true, if_false] at root
        obtain ⟨rfl, clear⟩ := rsplitOnce_eq_some cut
        split at under
        · rename_i first rest dash
          obtain ⟨rfl, -⟩ := splitOnce_eq_some dash
          split at under
          · rename_i filled
            cases under
            simp only [List.mem_append, List.mem_cons, not_or, List.contains_eq_mem, decide_eq_true_eq] at clear flat
            refine ⟨rest, by rw [root]; rfl, flat.2.2, clear.2.2, ?_⟩
            rintro rfl
            simp at filled
          · cases under
        · cases under
  · rintro ⟨rest, rfl, flat, clear, some_⟩
    have plain : '~' ∉ generation epoch.text rest := by simp [generation, no_tilde, clear]
    have flat' : '/' ∉ generation epoch.text rest := by simp [generation, epoch.flat, flat]
    have cut : splitOnce '-' (generation epoch.text rest) = some (epoch.text, rest) :=
      splitOnce_append (no_dash epoch)
    refine ⟨logicalKey_physicalKey plain flat', ?_⟩
    rw [generationEpoch, physicalKey, rsplitOnce_append plain]
    simp [flat', cut, epoch.segment.1, some_]

/-! ### The keys that are recorded -/

/-- A key that a row references, as far as it could be taken for a generation of the file. -/
inductive Recorded (own : Filed) : Text → Prop where
  /-- One with no generation, as before incarnations. -/
  | bare {key : Text} (clear : '~' ∉ fileName key) : Recorded own key
  /-- A generation minted before epochs. -/
  | early {logical : Text} {gen : Text} (clear : '~' ∉ fileName logical) (plain : '~' ∉ gen) (flat : '/' ∉ gen)
      (dash : '-' ∉ gen) : Recorded own (physicalKey logical gen)
  /-- A generation of a file whose name holds no tilde. -/
  | named {logical : Text} {n m : Nat} (clear : '~' ∉ fileName logical) (epoch : Hex (n + 1)) (nonce : Hex (m + 1)) :
      Recorded own (minted logical epoch nonce)
  /-- A generation of another raw path, where the file is of a raw path. -/
  | raw (filed : Filed) {n m : Nat} (mine : own.Repeats) (its : filed.Repeats) (epoch : Hex (n + 1))
      (nonce : Hex (m + 1)) : Recorded own (minted filed.key epoch nonce)
  /-- A key of another repository. -/
  | elsewhere {key : Text} (apart : ¬ Covers own.repoPrefix key) : Recorded own key

theorem Filed.key_eq (filed : Filed) : filed.key =
    (filed.repoPrefix ++ '/' :: filed.package ++ '/' :: filed.sha256.text) ++ '/' :: filed.filename := by
  simp [Filed.key, hostedKey]

@[simp] theorem Filed.fileName_key (filed : Filed) : fileName filed.key = filed.filename := by
  rw [filed.key_eq, fileName_append, fileName_of_flat filed.flat]

theorem generation_inj {epoch' : Hex (m + 1)} {nonce rest : Text}
    (same : generation epoch.text nonce = generation epoch'.text rest) : epoch.text = epoch'.text ∧ nonce = rest := by
  have cut := congrArg (splitOnce '-') same
  rw [generation, generation, splitOnce_append (no_dash epoch), splitOnce_append (no_dash epoch')] at cut
  simpa using cut

theorem fileName_physicalKey (logical : Text) {gen : Text} (flat : '/' ∉ gen) :
    fileName (physicalKey logical gen) = fileName logical ++ '~' :: gen :=
  fileName_append_flat logical (by simp [flat])

/-- Two generations, one of which has a tilde nowhere else in its last segment, have the same parts. -/
theorem same_parts {logical' gen gen' : Text} (clear : '~' ∉ fileName logical) (plain : '~' ∉ gen)
    (flat : '/' ∉ gen) (flat' : '/' ∉ gen') (same : physicalKey logical gen = physicalKey logical' gen') :
    gen = gen' := by
  have last := congrArg (fun key => (fileName key).count '~') same
  simp only [fileName_physicalKey _ flat, fileName_physicalKey _ flat', List.count_append,
    List.count_cons_self, List.count_eq_zero.mpr clear, List.count_eq_zero.mpr plain] at last
  have plain' : '~' ∉ gen' := List.count_eq_zero.mp (by omega)
  exact (append_cons_inj_last plain plain' same).2

/-- Two files of raw paths whose generations read alike are one file. -/
theorem same_raw {own filed : Filed} {gen gen' : Text} (mine : own.Repeats) (its : filed.Repeats)
    (flat : '/' ∉ gen) (flat' : '/' ∉ gen') (same : physicalKey filed.key gen = physicalKey own.key gen') :
    gen = gen' := by
  have cut : ∀ (filed : Filed) gen, physicalKey filed.key gen =
      (filed.repoPrefix ++ '/' :: filed.package ++ '/' :: filed.sha256.text) ++ '/' :: (filed.filename ++ '~' :: gen) := by
    intro filed gen
    simp [physicalKey, filed.key_eq]
  rw [cut, cut] at same
  obtain ⟨dirs, last⟩ :=
    append_cons_inj_last (by simp [filed.flat, flat]) (by simp [own.flat, flat']) same
  have packages := congrArg fileName (append_cons_inj_last filed.sha256.flat own.sha256.flat dirs).1
  rw [fileName_append, fileName_append, ← its, ← mine] at packages
  rw [packages, List.append_cancel_left_eq] at last
  exact (List.cons.inj last).2

theorem Filed.covers (own : Filed) (word : Text) : Covers own.repoPrefix (own.key ++ word) := by
  right
  rw [within_iff, own.key_eq]
  exact ⟨own.package ++ '/' :: own.sha256.text ++ '/' :: own.filename ++ word, by simp⟩

/-- On a recorded key the statement and the functions agree. -/
theorem Recorded.takes_iff {own : Filed} (recorded : Recorded own key) (epoch : Hex (n + 1)) :
    takes own.key epoch.text key = true ↔
      logicalKey key = own.key ∧ generationEpoch key = some epoch.text := by
  rw [Reclaim.takes_iff, parsed_iff]
  constructor
  · rintro ⟨rest, shape, flat⟩
    have flat' : '/' ∉ generation epoch.text rest := by simp [generation, epoch.flat, flat]
    -- what was minted with a nonce has that nonce for its rest
    have done : ∀ {n' m' : Nat} (epoch' : Hex (n' + 1)) (nonce' : Hex (m' + 1)),
        generation epoch'.text nonce'.text = generation epoch.text rest →
        ∃ rest, key = physicalKey own.key (generation epoch.text rest) ∧ '/' ∉ rest ∧ '~' ∉ rest ∧ rest ≠ [] := by
      intro n' m' epoch' nonce' same
      obtain ⟨-, rfl⟩ := generation_inj same
      exact ⟨_, shape, flat, no_tilde nonce', nonce'.segment.1⟩
    cases recorded with
    | bare clear =>
        rw [shape, fileName_physicalKey _ flat'] at clear
        simp at clear
    | early clear plain flat'' dash =>
        have same := same_parts clear plain flat'' flat' shape
        rw [same] at dash
        simp [generation] at dash
    | named clear epoch' nonce' =>
        obtain ⟨plain, flat''⟩ := generation_plain epoch' nonce'
        exact done epoch' nonce' (same_parts clear plain flat'' flat' shape)
    | raw filed mine its epoch' nonce' =>
        exact done epoch' nonce' (same_raw mine its (generation_plain epoch' nonce').2 flat' shape)
    | elsewhere apart =>
        rw [shape] at apart
        exact absurd (own.covers _) apart
  · rintro ⟨rest, shape, flat, -, -⟩
    exact ⟨rest, shape, flat⟩

/-! ### What is reused -/

theorem reusable_eq (refs : List Ref) (claimed : List Text) (logical epoch : Text) :
    reusable refs claimed logical epoch =
      (refs.find? fun ref => !ref.protects && takes logical epoch ref.key && !claimed.contains ref.key).map Ref.key := by
  simp only [reusable, takes, Bool.and_assoc]

/-- A reference to a key itself, that no claim took. -/
def Free (claimed : List Text) (ref : Ref) : Prop := ref.protects = false ∧ ref.key ∉ claimed

/-- Where `f` of the package `p` is filed. -/
def sampleFile : Filed := ⟨"r/i".toList, "p".toList, .uniform 64, "f".toList, by decide⟩

end OpenCargo.Reclaim
