/-
Module: OpenCargo.Oci.Integrity
Purpose: Referential integrity of the OCI tables, for every sequence of their transactions: a tag points
  at a manifest of its image, a link at a manifest of its repository, and what a manifest lists as a
  config or a layer has a blob row, so no manifest that is served names a blob that was dropped.
Trusted boundary: `refsOf`, what the manifest of a digest lists (`split_refs` of the body the digest is
  computed from), is a parameter
Main exports: Whole, step, Integral.step, runs_keep_references
-/
import OpenCargo.Lib.Run
import OpenCargo.Oci.Store

namespace OpenCargo.Oci

open OpenCargo.Lib
open OpenCargo.Reclaim (PinToken Tables Pin)

/-! ### The rows a transaction looks for -/

namespace Db

def HasBlob (db : Db) (repository : Nat) (digest : Text) : Prop :=
  ∃ row ∈ db.blobs, row.repository = repository ∧ row.digest = digest

def HasManifest (db : Db) (repository : Nat) (name digest : Text) : Prop :=
  ∃ row ∈ db.manifests, row.repository = repository ∧ row.name = name ∧ row.digest = digest

theorem blobRow_isSome {db : Db} {repository : Nat} {digest : Text} :
    (db.blobRow repository digest).isSome = true ↔ db.HasBlob repository digest := by
  simp [blobRow, HasBlob, List.find?_isSome]

theorem manifestRow_isSome {db : Db} {repository : Nat} {name digest : Text} :
    (db.manifestRow repository name digest).isSome = true ↔
      db.HasManifest repository name digest := by
  simp [manifestRow, HasManifest, List.find?_isSome, and_assoc]

end Db

/-! ### The system -/

/-- What the handler and `PutManifest` make of a pushed body: the digest's own references, the config
and layers sorted and each once, with one pin each. -/
def Pushed (refsOf : Text → List Text × List Text) (m : NewManifest) : Bool :=
  m.blobs.map Prod.fst == ((refsOf m.digest).1.insertionSort fun a b => a ≤ b).dedup &&
    m.children == (refsOf m.digest).2

inductive Transaction where
  | putManifest (m : NewManifest) (now : Instant)
  | deleteManifest (repository : Nat) (name digest : Text) (now : Instant)
  | deleteBlob (repository : Nat) (digest : Text) (now : Instant)
  | finishUpload (id lease : Text) (pin : PinToken) (blob : NewBlob) (now : Instant)
  | retire (repository : Nat)
  /-- Any other transaction: it changes sessions, segments and reclamation tables at will. -/
  | elsewhere (uploads : List UploadRow) (segments : List SegmentRow) (reclaim : Tables)
deriving Repr, DecidableEq

variable (refsOf : Text → List Text × List Text)

/-- A transaction that answers an error leaves the database as it was. -/
def step (db : Db) : Transaction → Option Db
  | .putManifest m now =>
      if Pushed refsOf m then
        match db.writeManifest m now with
        | .ok after => some after
        | .error _ => some db
      else none
  | .deleteManifest repository name digest now => some (db.purgeManifest repository name digest now).2
  | .deleteBlob repository digest now =>
      match db.dropBlob repository digest now with
      | .ok (_, after) => some after
      | .error _ => some db
  | .finishUpload id lease pin blob now =>
      match db.finish id lease pin blob now with
      | .ok (_, after) => some after
      | .error _ => some db
  | .retire repository =>
      match db.retire repository with
      | .ok after => some after
      | .error _ => some db
  | .elsewhere uploads segments reclaim =>
      some { db with uploads := uploads, segments := segments, reclaim := reclaim }

/-! ### The invariant -/

/-- What is claimed of a state. A link row has no name of its own: the manifest it belongs to is one of
its repository, under whatever name. -/
structure Whole (db : Db) : Prop where
  tags : ∀ tag ∈ db.tags, db.HasManifest tag.repository tag.name tag.manifestDigest
  links : ∀ link ∈ db.links, ∃ name, db.HasManifest link.repository name link.manifestDigest
  layers : ∀ link ∈ db.links, link.blobDigest ∈ (refsOf link.manifestDigest).1 →
    db.HasBlob link.repository link.blobDigest
  served : ∀ m ∈ db.manifests, ∀ digest ∈ (refsOf m.digest).1, db.HasBlob m.repository digest

/-- What is kept: a manifest's layers are all linked, and so no blob of them can be dropped. -/
structure Integral (db : Db) : Prop where
  tags : ∀ tag ∈ db.tags, db.HasManifest tag.repository tag.name tag.manifestDigest
  links : ∀ link ∈ db.links, ∃ name, db.HasManifest link.repository name link.manifestDigest
  layers : ∀ link ∈ db.links, link.blobDigest ∈ (refsOf link.manifestDigest).1 →
    db.HasBlob link.repository link.blobDigest
  listed : ∀ m ∈ db.manifests, ∀ digest ∈ (refsOf m.digest).1,
    LinkRow.mk m.repository m.digest digest ∈ db.links

variable {refsOf}

theorem Integral.whole {db : Db} (integral : Integral refsOf db) : Whole refsOf db where
  tags := integral.tags
  links := integral.links
  layers := integral.layers
  served := fun m mem digest lists =>
    integral.layers _ (integral.listed m mem digest lists) lists

theorem integral_empty : Integral refsOf Db.empty where
  tags := by simp [Db.empty]
  links := by simp [Db.empty]
  layers := by simp [Db.empty]
  listed := by simp [Db.empty]

/-- A transaction that leaves manifests, links and tags as they were, and every blob that is listed. -/
theorem Integral.of_blobs {db after : Db} (integral : Integral refsOf db)
    (manifests : after.manifests = db.manifests) (links : after.links = db.links)
    (tags : after.tags = db.tags)
    (blobs : ∀ link ∈ db.links, db.HasBlob link.repository link.blobDigest →
      after.HasBlob link.repository link.blobDigest) : Integral refsOf after where
  tags := by
    unfold Db.HasManifest
    rw [tags, manifests]
    exact integral.tags
  links := by
    unfold Db.HasManifest
    rw [links, manifests]
    exact integral.links
  layers := by
    rw [links]
    exact fun link mem layer => blobs link mem (integral.layers link mem layer)
  listed := by
    rw [links, manifests]
    exact integral.listed

/-! ### Pushing a manifest -/

namespace Db

theorem mem_link {db : Db} {repository : Nat} {manifest blob : Text} {row : LinkRow} :
    row ∈ (db.link repository manifest blob).links ↔
      row ∈ db.links ∨ row = ⟨repository, manifest, blob⟩ := by
  unfold link
  split
  case isTrue present =>
    have there := List.contains_iff_mem.mp present
    constructor
    · exact .inl
    · rintro (old | rfl)
      · exact old
      · exact there
  case isFalse => simp

theorem link_fixed (db : Db) (repository : Nat) (manifest blob : Text) :
    ∃ links, db.link repository manifest blob = { db with links := links } := by
  unfold link
  split
  · exact ⟨db.links, rfl⟩
  · exact ⟨_, rfl⟩

/-- Linking what a manifest lists touches the links alone, and adds exactly these. -/
theorem foldl_link (repository : Nat) (manifest : Text) (blobs : List Text) (db : Db) :
    ∃ links, blobs.foldl (fun d blob => d.link repository manifest blob) db =
        { db with links := links } ∧
      ∀ row, row ∈ links ↔
        row ∈ db.links ∨ ∃ blob ∈ blobs, row = ⟨repository, manifest, blob⟩ := by
  induction blobs generalizing db with
  | nil => exact ⟨db.links, rfl, by simp⟩
  | cons blob blobs ih =>
      obtain ⟨first, one⟩ := db.link_fixed repository manifest blob
      obtain ⟨rest, all, mem⟩ := ih (db.link repository manifest blob)
      refine ⟨rest, ?_, ?_⟩
      · rw [List.foldl_cons, all, one]
      · intro row
        rw [mem, mem_link]
        simp only [List.mem_cons, exists_eq_or_imp]
        exact or_assoc

theorem mem_unlink {db : Db} {repository : Nat} {manifest : Text} {row : LinkRow} :
    row ∈ (db.unlink repository manifest).links ↔
      row ∈ db.links ∧ ¬ (row.repository = repository ∧ row.manifestDigest = manifest) := by
  simp only [unlink, List.mem_filter, Bool.not_eq_true', Bool.and_eq_false_iff, beq_eq_false_iff_ne,
    not_and_or, ne_eq]

theorem hasManifest_upsert {db : Db} {m : NewManifest} {now : Instant} {repository : Nat}
    {name digest : Text} :
    (db.upsertManifest m now).HasManifest repository name digest ↔
      db.HasManifest repository name digest ∨
        (m.repository = repository ∧ m.name = name ∧ m.digest = digest) := by
  unfold upsertManifest
  split
  case isTrue present =>
    have there := manifestRow_isSome.mp present
    unfold HasManifest
    simp only [List.mem_map]
    constructor
    · rintro ⟨_, ⟨old, mem, rfl⟩, repo, image, hash⟩
      rw [apply_ite ManifestRow.repository, ite_self] at repo
      rw [apply_ite ManifestRow.name, ite_self] at image
      rw [apply_ite ManifestRow.digest, ite_self] at hash
      exact .inl ⟨old, mem, repo, image, hash⟩
    · rintro (⟨old, mem, repo, image, hash⟩ | ⟨rfl, rfl, rfl⟩)
      · refine ⟨_, ⟨old, mem, rfl⟩, ?_⟩
        split <;> exact ⟨repo, image, hash⟩
      · obtain ⟨old, mem, repo, image, hash⟩ := there
        refine ⟨_, ⟨old, mem, rfl⟩, ?_⟩
        split <;> exact ⟨repo, image, hash⟩
  case isFalse =>
    unfold HasManifest
    simp only [List.mem_append, List.mem_singleton]
    constructor
    · rintro ⟨row, old | rfl, rest⟩
      · exact .inl ⟨row, old, rest⟩
      · exact .inr rest
    · rintro (⟨row, mem, rest⟩ | same)
      · exact ⟨row, .inl mem, rest⟩
      · exact ⟨_, .inr rfl, same⟩

theorem upsertManifest_fixed (db : Db) (m : NewManifest) (now : Instant) :
    ∃ manifests, db.upsertManifest m now = { db with manifests := manifests } := by
  unfold upsertManifest
  split
  · exact ⟨_, rfl⟩
  · exact ⟨_, rfl⟩

/-- The tags after a push: the pushed one points at the pushed manifest, the others where they did. -/
theorem mem_upsertTag {db : Db} {repository : Nat} {name tag digest : Text} {now : Instant}
    {row : TagRow} (mem : row ∈ (db.upsertTag repository name tag digest now).tags) :
    row ∈ db.tags ∨
      (row.repository = repository ∧ row.name = name ∧ row.manifestDigest = digest) := by
  unfold upsertTag at mem
  split at mem
  · obtain ⟨old, found, rfl⟩ := List.mem_map.mp mem
    split
    case isTrue same =>
      simp only [Bool.and_eq_true, beq_iff_eq] at same
      exact .inr ⟨same.1.1, same.1.2, rfl⟩
    case isFalse => exact .inl found
  · rcases List.mem_append.mp mem with old | new
    · exact .inl old
    · rw [List.mem_singleton.mp new]
      exact .inr ⟨rfl, rfl, rfl⟩

theorem upsertTag_fixed (db : Db) (repository : Nat) (name tag digest : Text) (now : Instant) :
    ∃ tags, db.upsertTag repository name tag digest now = { db with tags := tags } := by
  unfold upsertTag
  split
  · exact ⟨_, rfl⟩
  · exact ⟨_, rfl⟩

/-- What a push leaves: the blobs of before, the pushed manifest, its links in place of those its
digest had, and its tag. -/
theorem landManifest_rows (db : Db) (m : NewManifest) (now : Instant) :
    (db.landManifest m now).blobs = db.blobs ∧
    (∀ repository name digest, (db.landManifest m now).HasManifest repository name digest ↔
      db.HasManifest repository name digest ∨
        (m.repository = repository ∧ m.name = name ∧ m.digest = digest)) ∧
    (∀ row, row ∈ (db.landManifest m now).links ↔
      (row ∈ db.links ∧ ¬ (row.repository = m.repository ∧ row.manifestDigest = m.digest)) ∨
        ∃ blob ∈ m.blobs.map Prod.fst ++ m.children, row = ⟨m.repository, m.digest, blob⟩) ∧
    ∀ row ∈ (db.landManifest m now).tags, row ∈ db.tags ∨
      (row.repository = m.repository ∧ row.name = m.name ∧ row.manifestDigest = m.digest) := by
  unfold landManifest
  simp only
  generalize queued_eq : db.enqueueKeys _ now = queued
  obtain ⟨reclaim, rfl⟩ : ∃ reclaim, queued = { db with reclaim := reclaim } :=
    ⟨_, queued_eq.symm⟩
  have found : ∀ repository name digest,
      ({ db with reclaim := reclaim }.upsertManifest m now).HasManifest repository name digest ↔ _ :=
    fun _ _ _ => hasManifest_upsert
  obtain ⟨manifests, rows⟩ := ({ db with reclaim := reclaim } : Db).upsertManifest_fixed m now
  rw [rows] at found ⊢
  obtain ⟨links, linked, mem⟩ := foldl_link m.repository m.digest (m.blobs.map Prod.fst ++ m.children)
    (({ db with reclaim := reclaim, manifests := manifests } : Db).unlink m.repository m.digest)
  rw [linked]
  have listed : ∀ row, row ∈ links ↔
      (row ∈ db.links ∧ ¬ (row.repository = m.repository ∧ row.manifestDigest = m.digest)) ∨
        ∃ blob ∈ m.blobs.map Prod.fst ++ m.children, row = ⟨m.repository, m.digest, blob⟩ := by
    intro row
    rw [mem, mem_unlink]
  cases m.tag with
  | none => exact ⟨rfl, found, listed, fun row old => .inl old⟩
  | some tag =>
      simp only
      generalize before_eq : ({ unlink _ m.repository m.digest with links := links } : Db) = before
      obtain ⟨tags, tagged⟩ := before.upsertTag_fixed m.repository m.name tag m.digest now
      refine ⟨?_, ?_, ?_, ?_⟩
      · rw [tagged, ← before_eq]
        rfl
      · rw [tagged, ← before_eq]
        exact found
      · rw [tagged, ← before_eq]
        exact listed
      · intro row new
        have old := mem_upsertTag new
        rw [← before_eq] at old
        exact old

end Db

theorem Integral.putManifest {db after : Db} {m : NewManifest} {now : Instant}
    (integral : Integral refsOf db) (pushed : Pushed refsOf m = true)
    (landed : db.writeManifest m now = .ok after) : Integral refsOf after := by
  unfold Db.writeManifest at landed
  split at landed
  case h_1 => cases landed
  case h_2 reclaim _ =>
    split at landed
    case isFalse => cases landed
    case isTrue known =>
      cases landed
      simp only [List.all_eq_true, Db.blobRow_isSome] at known
      simp only [Pushed, Bool.and_eq_true, beq_iff_eq] at pushed
      have layer : ∀ digest, digest ∈ m.blobs.map Prod.fst ↔ digest ∈ (refsOf m.digest).1 := by
        intro digest
        rw [pushed.1, List.mem_dedup, (List.perm_insertionSort _ _).mem_iff]
      obtain ⟨blobs, manifests, links, tags⟩ :=
        ({ db with reclaim := reclaim } : Db).landManifest_rows m now
      have kept : ∀ repository digest, db.HasBlob repository digest →
          (({ db with reclaim := reclaim } : Db).landManifest m now).HasBlob repository digest := by
        intro repository digest
        unfold Db.HasBlob
        rw [blobs]
        exact fun there => there
      refine
        { tags := ?_
          links := ?_
          layers := ?_
          listed := ?_ }
      · intro tag mem
        rw [manifests]
        rcases tags tag mem with old | ⟨repo, image, hash⟩
        · exact .inl (integral.tags tag old)
        · exact .inr ⟨repo.symm, image.symm, hash.symm⟩
      · intro link mem
        rcases (links link).mp mem with ⟨old, _⟩ | ⟨blob, _, rfl⟩
        · obtain ⟨name, there⟩ := integral.links link old
          exact ⟨name, (manifests _ _ _).mpr (.inl there)⟩
        · exact ⟨m.name, (manifests _ _ _).mpr (.inr ⟨rfl, rfl, rfl⟩)⟩
      · intro link mem lists
        apply kept
        rcases (links link).mp mem with ⟨old, _⟩ | ⟨blob, _, rfl⟩
        · exact integral.layers link old lists
        · obtain ⟨pair, given, rfl⟩ := List.mem_map.mp ((layer blob).mpr lists)
          exact known pair given
      · intro row mem digest lists
        rw [links]
        by_cases same : row.repository = m.repository ∧ row.digest = m.digest
        · right
          obtain ⟨repo, hash⟩ := same
          rw [repo, hash]
          rw [hash] at lists
          exact ⟨digest, List.mem_append_left _ ((layer digest).mpr lists), rfl⟩
        · left
          refine ⟨?_, same⟩
          -- a manifest of another digest was there before, with its links
          rcases (manifests row.repository row.name row.digest).mp ⟨row, mem, rfl, rfl, rfl⟩ with
            ⟨old, found, repo, _, hash⟩ | ⟨repo, _, hash⟩
          · rw [← repo, ← hash]
            rw [← hash] at lists
            exact integral.listed old found digest lists
          · exact absurd ⟨repo.symm, hash.symm⟩ same

/-! ### Deleting -/

namespace Db

theorem hasBlob_deleteBlob {db : Db} {repository other : Nat} {digest wanted : Text}
    (apart : ¬ (other = repository ∧ wanted = digest)) (there : db.HasBlob other wanted) :
    (db.deleteBlob repository digest).HasBlob other wanted := by
  obtain ⟨row, mem, rfl, rfl⟩ := there
  refine ⟨row, List.mem_filter.mpr ⟨mem, ?_⟩, rfl, rfl⟩
  simpa only [Bool.not_eq_true', Bool.and_eq_false_iff, beq_eq_false_iff_ne, not_and_or,
    ne_eq] using apart

theorem linked_iff {db : Db} {repository : Nat} {digest : Text} :
    db.linked repository digest = true ↔
      ∃ link ∈ db.links, link.repository = repository ∧ link.blobDigest = digest := by
  simp [linked, List.any_eq_true]

/-- The loop over the blobs a purged manifest listed touches the blobs alone, and spares the ones that
are listed still. -/
theorem foldl_dropUnlisted (repository : Nat) (listed : List Text) (db : Db)
    (released digests : List Text) :
    ∃ blobs, (listed.foldl (dropUnlisted repository) (db, released, digests)).1 =
        { db with blobs := blobs } ∧
      ∀ link ∈ db.links, db.HasBlob link.repository link.blobDigest →
        ({ db with blobs := blobs } : Db).HasBlob link.repository link.blobDigest := by
  induction listed generalizing db released digests with
  | nil => exact ⟨db.blobs, rfl, fun _ _ there => there⟩
  | cons blob listed ih =>
      rw [List.foldl_cons]
      cases listedStill : db.linked repository blob with
      | true =>
          simp only [dropUnlisted, listedStill, if_true]
          exact ih db released digests
      | false =>
          cases found : db.blobRow repository blob with
          | none =>
              simp only [dropUnlisted, listedStill, found]
              exact ih db released digests
          | some row =>
              simp only [dropUnlisted, listedStill, found]
              obtain ⟨blobs, rest, spares⟩ := ih (db.deleteBlob repository blob)
                (released ++ row.storageKey.toList) (digests ++ [blob])
              refine ⟨blobs, rest, ?_⟩
              intro link mem there
              apply spares link mem
              apply hasBlob_deleteBlob _ there
              rintro ⟨repo, hash⟩
              have listedThere := linked_iff.mpr ⟨link, mem, repo, hash⟩
              rw [listedStill] at listedThere
              cases listedThere

end Db

theorem Db.hasManifest_withoutManifest {db : Db} {repository r : Nat} {name digest n d : Text} :
    (db.withoutManifest repository name digest).HasManifest r n d ↔
      db.HasManifest r n d ∧ ¬ (r = repository ∧ n = name ∧ d = digest) := by
  unfold HasManifest
  simp only [withoutManifest, List.mem_filter, Bool.not_eq_true', Bool.and_eq_false_iff,
    beq_eq_false_iff_ne, or_assoc]
  constructor
  · rintro ⟨row, ⟨mem, other⟩, rfl, rfl, rfl⟩
    exact ⟨⟨row, mem, rfl, rfl, rfl⟩, by simpa only [not_and_or] using other⟩
  · rintro ⟨⟨row, mem, rfl, rfl, rfl⟩, other⟩
    exact ⟨row, ⟨mem, by simpa only [not_and_or] using other⟩, rfl, rfl, rfl⟩

section Purge

variable {db : Db} {repository : Nat} {name digest : Text}

theorem Integral.tags_withoutManifest (integral : Integral refsOf db) (tag : TagRow)
    (mem : tag ∈ (db.withoutManifest repository name digest).tags) :
    (db.withoutManifest repository name digest).HasManifest tag.repository tag.name
      tag.manifestDigest := by
  simp only [Db.withoutManifest, List.mem_filter, Bool.not_eq_true', Bool.and_eq_false_iff,
    beq_eq_false_iff_ne, or_assoc] at mem
  refine Db.hasManifest_withoutManifest.mpr ⟨integral.tags tag mem.1, ?_⟩
  simpa only [not_and_or] using mem.2

theorem mem_withoutManifest {m : ManifestRow}
    (mem : m ∈ (db.withoutManifest repository name digest).manifests) : m ∈ db.manifests :=
  (List.mem_filter.mp mem).1

theorem Integral.links_withoutManifest (integral : Integral refsOf db) (link : LinkRow)
    (mem : link ∈ db.links)
    (other : ¬ (link.repository = repository ∧ link.manifestDigest = digest)) :
    ∃ image, (db.withoutManifest repository name digest).HasManifest link.repository image
      link.manifestDigest := by
  obtain ⟨image, found⟩ := integral.links link mem
  exact ⟨image, Db.hasManifest_withoutManifest.mpr ⟨found, fun all => other ⟨all.1, all.2.2⟩⟩⟩

/-- Another image lists the same manifest, so the links are still those of a manifest. -/
theorem Integral.stillListed (integral : Integral refsOf db) {other : ManifestRow}
    (there : other ∈ (db.withoutManifest repository name digest).manifests)
    (repo : other.repository = repository) (hash : other.digest = digest) :
    Integral refsOf (db.withoutManifest repository name digest) where
  tags := integral.tags_withoutManifest
  links := by
    intro link mem
    by_cases same : link.repository = repository ∧ link.manifestDigest = digest
    · exact ⟨other.name, other, there, repo.trans same.1.symm, rfl, hash.trans same.2.symm⟩
    · exact integral.links_withoutManifest link mem same
  layers := integral.layers
  listed := fun m mem => integral.listed m (mem_withoutManifest mem)

theorem Integral.unlisted (integral : Integral refsOf db)
    (gone : ∀ m ∈ (db.withoutManifest repository name digest).manifests,
      ¬ (m.repository = repository ∧ m.digest = digest)) :
    Integral refsOf ((db.withoutManifest repository name digest).unlink repository digest) where
  tags := integral.tags_withoutManifest
  links := by
    intro link mem
    obtain ⟨old, other⟩ := Db.mem_unlink.mp mem
    exact integral.links_withoutManifest link old other
  layers := fun link mem => integral.layers link (Db.mem_unlink.mp mem).1
  listed := by
    intro m mem d lists
    exact Db.mem_unlink.mpr ⟨integral.listed m (mem_withoutManifest mem) d lists, gone m mem⟩

theorem Integral.enqueueKeys {keys : List Text} {now : Instant} (integral : Integral refsOf db) :
    Integral refsOf (db.enqueueKeys keys now) :=
  { integral with }

theorem Integral.deleteManifest {now : Instant} (integral : Integral refsOf db) :
    Integral refsOf (db.purgeManifest repository name digest now).2 := by
  unfold Db.purgeManifest
  split
  case h_1 => exact integral
  case h_2 row _ =>
    simp only
    split
    case isTrue still =>
      simp only [List.any_eq_true, Bool.and_eq_true, beq_iff_eq] at still
      obtain ⟨other, there, repo, hash⟩ := still
      exact (integral.stillListed there repo hash).enqueueKeys
    case isFalse gone =>
      have unlisted : Integral refsOf
          ((db.withoutManifest repository name digest).unlink repository digest) := by
        apply integral.unlisted
        intro m mem same
        apply gone
        rw [List.any_eq_true]
        exact ⟨m, mem, by simp [same]⟩
      simp only
      generalize (((db.withoutManifest repository name digest).links.filter fun r =>
        r.repository == repository && r.manifestDigest == digest).map LinkRow.blobDigest) = listed
      obtain ⟨left, dropped, spares⟩ := Db.foldl_dropUnlisted repository listed
        ((db.withoutManifest repository name digest).unlink repository digest)
        row.storageKey.toList []
      apply Integral.enqueueKeys
      apply unlisted.of_blobs
      · rw [dropped]
      · rw [dropped]
      · rw [dropped]
      · intro link mem there
        have kept := spares link mem there
        rw [← dropped] at kept
        exact kept

end Purge

theorem Integral.deleteBlob {db after : Db} {repository : Nat} {digest : Text} {now : Instant}
    {found : Bool} (integral : Integral refsOf db)
    (dropped : db.dropBlob repository digest now = .ok (found, after)) : Integral refsOf after := by
  unfold Db.dropBlob at dropped
  split at dropped
  case isTrue => cases dropped
  case isFalse unlisted =>
    split at dropped
    case h_1 =>
      cases dropped
      exact integral
    case h_2 =>
      cases dropped
      apply integral.of_blobs
      · rfl
      · rfl
      · rfl
      · intro link mem there
        have spared : (db.deleteBlob repository digest).HasBlob link.repository link.blobDigest := by
          apply Db.hasBlob_deleteBlob _ there
          rintro ⟨repo, hash⟩
          exact unlisted (Db.linked_iff.mpr ⟨link, mem, repo, hash⟩)
        exact spared

/-! ### Finishing an upload, and retiring a repository -/

theorem Db.recordBlob_rows (db : Db) (pin : PinToken) (blob : NewBlob) (now : Instant) :
    ∃ blobs reclaim, (db.recordBlob pin blob now).2 =
        { db with blobs := blobs, reclaim := reclaim } ∧
      ∀ repository digest, db.HasBlob repository digest →
        ({ db with blobs := blobs } : Db).HasBlob repository digest := by
  unfold recordBlob
  split
  case h_1 =>
    simp only
    split
    · exact ⟨db.blobs, _, rfl, fun _ _ there => there⟩
    · exact ⟨db.blobs, db.reclaim, rfl, fun _ _ there => there⟩
  case h_2 =>
    unfold upsertBlob
    simp only
    split
    · refine ⟨_, db.reclaim, rfl, ?_⟩
      rintro repository digest ⟨row, mem, rfl, rfl⟩
      refine ⟨_, List.mem_map_of_mem mem, ?_⟩
      split <;> exact ⟨rfl, rfl⟩
    · refine ⟨_, db.reclaim, rfl, ?_⟩
      rintro repository digest ⟨row, mem, rest⟩
      exact ⟨row, List.mem_append_left _ mem, rest⟩

theorem Integral.finishUpload {db after : Db} {id lease : Text} {pin : PinToken} {blob : NewBlob}
    {now : Instant} {answer : Finished} (integral : Integral refsOf db)
    (finished : db.finish id lease pin blob now = .ok (answer, after)) : Integral refsOf after := by
  unfold Db.finish at finished
  split at finished
  case isFalse =>
    cases finished
    exact integral
  case isTrue =>
    split at finished
    case h_1 => cases finished
    case h_2 reclaim _ =>
      obtain ⟨blobs, queued, recorded, more⟩ :=
        ({ db with reclaim := reclaim } : Db).recordBlob_rows pin blob now
      simp only [recorded, Except.ok.injEq, Prod.mk.injEq] at finished
      rw [← finished.2]
      apply integral.of_blobs
      · rfl
      · rfl
      · rfl
      · exact fun link _ there => more _ _ there

theorem Integral.retire {db after : Db} {repository : Nat} (integral : Integral refsOf db)
    (retired : db.retire repository = .ok after) : Integral refsOf after := by
  unfold Db.retire at retired
  split at retired
  · cases retired
  · split at retired
    · cases retired
    · cases retired
      exact integral

/-! ### Runs -/

theorem Integral.step {db after : Db} {act : Transaction} (integral : Integral refsOf db)
    (taken : step refsOf db act = some after) : Integral refsOf after := by
  cases act with
  | putManifest m now =>
      simp only [Oci.step] at taken
      split at taken
      case isFalse => cases taken
      case isTrue pushed =>
        split at taken
        case h_1 written landed =>
          cases taken
          exact integral.putManifest pushed landed
        case h_2 =>
          cases taken
          exact integral
  | deleteManifest repository name digest now =>
      cases taken
      exact integral.deleteManifest
  | deleteBlob repository digest now =>
      simp only [Oci.step] at taken
      split at taken
      case h_1 dropped =>
        cases taken
        exact integral.deleteBlob dropped
      case h_2 =>
        cases taken
        exact integral
  | finishUpload id lease pin blob now =>
      simp only [Oci.step] at taken
      split at taken
      case h_1 finished =>
        cases taken
        exact integral.finishUpload finished
      case h_2 =>
        cases taken
        exact integral
  | retire repository =>
      simp only [Oci.step] at taken
      split at taken
      case h_1 retired =>
        cases taken
        exact integral.retire retired
      case h_2 =>
        cases taken
        exact integral
  | elsewhere uploads segments reclaim =>
      cases taken
      apply integral.of_blobs
      · rfl
      · rfl
      · rfl
      · exact fun _ _ there => there

/-- In every state reached by any sequence of the transactions, every tag points at a manifest of its
image, every link at a manifest of its repository, every layer that is linked and every layer of a
manifest that is served at a blob of its repository. -/
theorem runs_keep_references {acts : List Transaction} {db : Db} (run : Run (step refsOf) Any Db.empty acts db) :
    Whole refsOf db := by
  have integral : Integral refsOf db := by
    apply run.invariant (Integral refsOf) integral_empty
    intro before act after sound taken _
    exact sound.step taken
  exact integral.whole

/-- An image of one layer: the layer's upload is finished, the manifest that lists it is pushed under a
tag, and deleting the layer is refused. -/
def imagePushed : List Transaction :=
  let layer : PinToken := ⟨"t".toList, "oci/l".toList, "oci/l~e-n".toList⟩
  let manifest : PinToken := ⟨"u".toList, "oci/m".toList, "oci/m~e-n".toList⟩
  [.elsewhere [⟨"s".toList, 1, "app".toList, some "oci/_uploads/s".toList, some 3, 1, 0,
      some "lease".toList, some 9⟩] [] ⟨[⟨layer.token, layer.physicalKey, [], 9⟩], [], [], [], [], []⟩,
   .finishUpload "s".toList "lease".toList layer ⟨1, "l".toList, 3, "tar".toList⟩ 0,
   .elsewhere [] [] ⟨[⟨manifest.token, manifest.physicalKey, [], 9⟩, ⟨layer.token, layer.physicalKey, [], 9⟩],
      [], [], [], [], []⟩,
   .putManifest ⟨1, "app".toList, "m".toList, "json".toList, 2, manifest, [("l".toList, layer)], [],
      some "latest".toList⟩ 0,
   .deleteBlob 1 "l".toList 0]

/-- The manifest `m` lists the layer `l`. -/
def layerOf (digest : Text) : List Text × List Text :=
  if digest = "m".toList then (["l".toList], []) else ([], [])

theorem pushed_image_keeps_layer :
    ∃ db, Run (step layerOf) Any Db.empty imagePushed db ∧ db.manifests.length = 1 ∧
      db.tags.length = 1 ∧ db.links.length = 1 ∧ Whole layerOf db := by
  obtain ⟨db, run, test⟩ := Run.of_test (step layerOf) Any Db.empty imagePushed
    (fun db => db.manifests.length == 1 && db.tags.length == 1 && db.links.length == 1)
    (by decide +kernel)
  simp only [Bool.and_eq_true, beq_iff_eq] at test
  exact ⟨db, run, test.1.1, test.1.2, test.2, runs_keep_references run⟩

end OpenCargo.Oci
