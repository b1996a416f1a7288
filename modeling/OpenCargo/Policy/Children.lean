/-
Module: OpenCargo.Policy.Children
Purpose: How the policy writer tells OCI pulls apart (`policy/facts/oci.rs`): an index is parked under its children,
  a manifest that one of them names lets it out or is suppressed, and what waits too long is let out by a tick.
Trusted boundary: of a body that can be read and parsed only the fields that are looked at
Main exports: sweepChildren, classify, park_recent, classify_cases
-/
import OpenCargo.Domain

namespace OpenCargo.Policy.Oci

/-! ### Bodies -/

/-- An entry of `manifests`: the texts at `annotations["vnd.docker.reference.type"]` and at `digest`. -/
structure Descriptor where
  reference : Option Text
  digest : Option Text
deriving Repr, DecidableEq, Inhabited

/-- The text at `mediaType`, the list at `manifests`, and whether there is a `config`. -/
structure Document where
  mediaType : Option Text
  manifests : Option (List Descriptor)
  config : Bool
deriving Repr, DecidableEq, Inhabited

def indexTypes : List Text :=
  ["application/vnd.oci.image.index.v1+json", "application/vnd.docker.distribution.manifest.list.v2+json"].map
    String.toList

def attestation : Text := "attestation-manifest".toList

def isIndex (json : Document) : Bool :=
  match json.mediaType with
  | some mediaType => indexTypes.contains mediaType
  | none => json.manifests.isSome && !json.config

/-- `trim_start_matches("sha256:")`, in as many turns at most. -/
def bare : Nat → Text → Text
  | 0, digest => digest
  | turns + 1, digest =>
      if "sha256:".toList.isPrefixOf digest then bare turns (digest.drop "sha256:".length) else digest

/-- The child digests of an index body, bare hex, attestations skipped. -/
def childrenOf (json : Document) : List Text :=
  if isIndex json then
    (((json.manifests.getD []).filter fun m => m.reference ≠ some attestation).filterMap Descriptor.digest).map
      fun digest => bare digest.length digest
  else []

/-- A cached body: its digest in bare hex, and what its bytes parse as, where they can be read and do. -/
structure Body where
  digest : Option Text
  document : Option Document
deriving Repr, DecidableEq, Inhabited

/-! ### Events -/

inductive Source where
  | oci (body : Body) (served : Option Body) (parsed : Option Document)
  | other
deriving Repr, DecidableEq, Inhabited

/-- One served artifact on its way to the writer. `request` stands for the fields nothing here reads. -/
structure Pending where
  request : Nat
  member : Int
  format : Format
  name : Text
  source : Source
deriving Repr, DecidableEq, Inhabited

def Pending.document (p : Pending) : Option Document :=
  match p.source with
  | .oci body _ _ => body.document
  | .other => none

def Pending.digest (p : Pending) : Option Text :=
  match p.source with
  | .oci body _ _ => body.digest
  | .other => none

/-- The children that the body lists. -/
def Pending.kids (p : Pending) : List Text := (p.document.map childrenOf).getD []

def Pending.image (p : Pending) : Int × Text := (p.member, p.name)

/-- Member, image and child digest. -/
abbrev ChildKey := Int × Text × Text

/-- What the writer keeps of OCI events. A key without a queue has an empty one; `parked` is in no order. -/
structure Shared where
  seq : Nat
  recent : ChildKey → List (Nat × Nat)
  parked : List (Nat × Pending × Nat)

def Shared.new : Shared := ⟨0, fun _ => [], []⟩

def Shared.isParked (shared : Shared) (seq : Nat) : Bool := shared.parked.any fun entry => entry.1 == seq

def attach (p : Pending) (child : Option Body) (json : Document) : Pending :=
  match p.source with
  | .oci body _ _ => { p with source := .oci body child (some json) }
  | .other => p

/-- The index waits, and each of its children is expected. -/
def park (shared : Shared) (p : Pending) (children : List Text) (now : Nat) : Shared where
  seq := shared.seq + 1
  recent := children.foldl (fun recent child =>
    Function.update recent (p.member, p.name, child) (recent (p.member, p.name, child) ++ [(shared.seq, now)]))
    shared.recent
  parked := shared.parked ++ [(shared.seq, p, now)]

section Clock

variable (ttl : Nat)

/-- `elapsed() < ttl`, where a clock behind the stamp has elapsed nothing. -/
def alive (now : Nat) (stamp : Nat) : Bool := now - stamp < ttl

/-- The first entry whose index is still parked is spent; when none is, the oldest is. -/
def popRecent (shared : Shared) (key : ChildKey) (now : Nat) : Option Nat × Shared :=
  let queue := (shared.recent key).filter fun entry => alive ttl now entry.2
  let pick := (queue.findIdx? fun entry => shared.isParked entry.1).getD 0
  (queue[pick]?.map Prod.fst, { shared with recent := Function.update shared.recent key (queue.eraseIdx pick) })

/-- A release ends every older pull of the same image. -/
def supersede (shared : Shared) (member : Int) (name : Text) (seq : Nat) : Shared :=
  { shared with
    recent := fun key =>
      if key.1 = member ∧ key.2.1 = name then (shared.recent key).filter fun entry => seq ≤ entry.1
      else shared.recent key }

def release (shared : Shared) (seq : Nat) (served : Body) (json : Document) : Option Pending × Shared :=
  match shared.parked.find? fun entry => entry.1 == seq with
  | none => (none, shared)
  | some (_, index, _) =>
      let shared := { shared with parked := shared.parked.filter fun entry => entry.1 != seq }
      (some (attach index (some served) json), supersede shared index.member index.name seq)

/-- Indexes parked past `child_ttl`, released with no served child. -/
def releaseParked (shared : Shared) (now : Nat) : List Pending × Shared :=
  ((shared.parked.filter fun entry => !alive ttl now entry.2.2).map fun entry => entry.2.1,
    { shared with parked := shared.parked.filter fun entry => alive ttl now entry.2.2 })

def sweepChildren (shared : Shared) (now : Nat) : Shared :=
  { shared with recent := fun key => (shared.recent key).filter fun entry => alive ttl now entry.2 }

/-- `oci_classify`. -/
def ociClassify (shared : Shared) (p : Pending) (now : Nat) : Option Pending × Shared :=
  match p.source with
  | .other => (some p, shared)
  | .oci body _ _ =>
      match body.document with
      | none => (some p, shared)
      | some json =>
          if !(childrenOf json).isEmpty then (none, park shared p (childrenOf json) now)
          else
            match body.digest with
            | none => (some p, shared)
            | some hex =>
                match popRecent ttl shared (p.member, p.name, hex) now with
                | (none, shared) => (some (attach p none json), shared)
                | (some seq, shared) => release shared seq body json

/-- `classify`: an OCI event is classified inline. -/
def classify (shared : Shared) (p : Pending) (now : Nat) : Option Pending × Shared :=
  if p.format = .oci then ociClassify ttl shared p now else (some p, shared)

end Clock

/-! ### What each of them does -/

@[simp] theorem attach_request (p : Pending) (child : Option Body) (json : Document) :
    (attach p child json).request = p.request := by
  rw [attach]
  split <;> rfl

theorem park_recent (shared : Shared) (p : Pending) (children : List Text) (now : Nat) (key : ChildKey) :
    (park shared p children now).recent key = shared.recent key ++
      List.replicate (children.countP fun child => (p.member, p.name, child) = key) (shared.seq, now) := by
  rw [park]
  generalize shared.recent = recent
  induction children generalizing recent with
  | nil => simp
  | cons child rest ih =>
      rw [List.foldl_cons, ih]
      by_cases same : (p.member, p.name, child) = key
      · subst same
        rw [Function.update_self, List.countP_cons_of_pos (by simp), List.append_assoc]
        rfl
      · rw [Function.update_of_ne (Ne.symm same), List.countP_cons_of_neg (by simpa using same)]

theorem mem_park_recent {shared : Shared} {p : Pending} {children : List Text} {now : Nat} {key : ChildKey}
    {entry : Nat × Nat} : entry ∈ (park shared p children now).recent key ↔
      entry ∈ shared.recent key ∨ entry = (shared.seq, now) ∧ ∃ child ∈ children, (p.member, p.name, child) = key := by
  rw [park_recent, List.mem_append, List.mem_replicate, ← Nat.pos_iff_ne_zero, List.countP_pos_iff]
  simp [and_comm]

theorem isParked_iff {shared : Shared} {seq : Nat} :
    shared.isParked seq = true ↔ ∃ entry ∈ shared.parked, entry.1 = seq := by
  simp [Shared.isParked]

section Numbers

variable {parked : List (Nat × Pending × Nat)} {e f : Nat × Pending × Nat}

theorem parked_inj (sorted : parked.Pairwise fun e f => e.1 < f.1) (memE : e ∈ parked) (memF : f ∈ parked)
    (same : e.1 = f.1) : e = f :=
  List.inj_on_of_nodup_map ((List.pairwise_map.mpr sorted).imp Nat.ne_of_lt) memE memF same

theorem parked_perm (sorted : parked.Pairwise fun e f => e.1 < f.1) (inside : e ∈ parked) :
    parked.Perm (e :: parked.filter fun f => f.1 != e.1) := by
  have nodup : parked.Nodup := sorted.imp fun {a b} less same => by
    rw [same] at less
    exact Nat.lt_irrefl _ less
  have without : parked.erase e = parked.filter fun f => f.1 != e.1 := by
    rw [nodup.erase_eq_filter]
    refine List.filter_congr fun f mem => ?_
    have alike : f = e ↔ f.1 = e.1 := ⟨congrArg Prod.fst, parked_inj sorted mem inside⟩
    rw [Bool.eq_iff_iff, bne_iff_ne, bne_iff_ne, Ne, Ne, alike]
  rw [← without]
  exact List.perm_cons_erase inside

end Numbers

/-- What is expected of a child and has not run out. -/
def Shared.waiting (shared : Shared) (ttl : Nat) (key : ChildKey) (now : Nat) : List (Nat × Nat) :=
  (shared.recent key).filter fun entry => alive ttl now entry.2

def Shared.setQueue (shared : Shared) (key : ChildKey) (queue : List (Nat × Nat)) : Shared :=
  { shared with recent := Function.update shared.recent key queue }

theorem setQueue_recent (shared : Shared) (key : ChildKey) (queue : List (Nat × Nat)) (k : ChildKey) :
    (shared.setQueue key queue).recent k = Function.update shared.recent key queue k := rfl

theorem supersede_recent (shared : Shared) (member : Int) (name : Text) (seq : Nat) (k : ChildKey) :
    (supersede shared member name seq).recent k =
      if k.1 = member ∧ k.2.1 = name then (shared.recent k).filter fun entry => seq ≤ entry.1
      else shared.recent k := rfl

theorem popRecent_empty {ttl now : Nat} {shared : Shared} {key : ChildKey} (empty : shared.waiting ttl key now = []) :
    popRecent ttl shared key now = (none, shared.setQueue key []) := by
  rw [Shared.waiting] at empty
  rw [popRecent, empty]
  rfl

/-- The first entry whose index is parked is taken out of its queue, or the oldest. -/
theorem popRecent_nonempty {ttl now : Nat} {shared : Shared} {key : ChildKey}
    (some_ : shared.waiting ttl key now ≠ []) : ∃ front entry back,
      shared.waiting ttl key now = front ++ entry :: back ∧
      popRecent ttl shared key now = (some entry.1, shared.setQueue key (front ++ back)) ∧
      (∀ e ∈ front, shared.isParked e.1 = false) ∧
      (shared.isParked entry.1 = false → ∀ e ∈ shared.waiting ttl key now, shared.isParked e.1 = false) := by
  have popped : popRecent ttl shared key now =
      ((shared.waiting ttl key now)[((shared.waiting ttl key now).findIdx? fun e => shared.isParked e.1).getD 0]?.map
        Prod.fst, shared.setQueue key ((shared.waiting ttl key now).eraseIdx
          (((shared.waiting ttl key now).findIdx? fun e => shared.isParked e.1).getD 0))) := rfl
  rw [popped]
  generalize shared.waiting ttl key now = queue at some_
  cases found : queue.findIdx? fun e => shared.isParked e.1 with
  | none =>
      obtain ⟨entry, back, rfl⟩ := List.exists_cons_of_ne_nil some_
      have unparked := List.findIdx?_eq_none_iff.mp found
      exact ⟨[], entry, back, rfl, rfl, fun e mem => absurd mem List.not_mem_nil, fun _ => unparked⟩
  | some i =>
      obtain ⟨inside, parked, before⟩ := List.findIdx?_eq_some_iff_getElem.mp found
      refine ⟨queue.take i, queue[i], queue.drop (i + 1), ?_, ?_, ?_, ?_⟩
      · rw [← List.drop_eq_getElem_cons inside, List.take_append_drop]
      · rw [Option.getD_some, List.getElem?_eq_getElem inside, List.eraseIdx_eq_take_drop_succ]
        rfl
      · intro e mem
        obtain ⟨j, less, rfl⟩ := List.mem_take_iff_getElem.mp mem
        have unparked := before j (by omega)
        simpa using unparked
      · intro unparked
        rw [parked] at unparked
        cases unparked

/-- What becomes of an event, and of what is kept. -/
inductive Classified (ttl : Nat) (shared : Shared) (p : Pending) (now : Nat) : Option Pending → Shared → Prop where
  /-- It is no event that can be told apart. -/
  | through
      (plain : ∀ body served parsed json, p.format = .oci → p.source = .oci body served parsed →
        body.document = some json → childrenOf json = [] ∧ body.digest = none) :
      Classified ttl shared p now (some p) shared
  | parked {body : Body} {served : Option Body} {parsed : Option Document} {json : Document}
      (source : p.source = .oci body served parsed) (reads : body.document = some json)
      (index : childrenOf json ≠ []) :
      Classified ttl shared p now none (park shared p (childrenOf json) now)
  /-- Nobody expects it. -/
  | alone {body : Body} {served : Option Body} {parsed : Option Document} {json : Document} {hex : Text}
      (source : p.source = .oci body served parsed) (reads : body.document = some json)
      (leaf : childrenOf json = []) (digest : body.digest = some hex)
      (unexpected : shared.waiting ttl (p.member, p.name, hex) now = []) :
      Classified ttl shared p now (some (attach p none json)) (shared.setQueue (p.member, p.name, hex) [])
  | released {body : Body} {served : Option Body} {parsed : Option Document} {json : Document} {hex : Text}
      {front back : List (Nat × Nat)} {entry : Nat × Nat} {index : Nat × Pending × Nat}
      (source : p.source = .oci body served parsed) (reads : body.document = some json)
      (leaf : childrenOf json = []) (digest : body.digest = some hex)
      (expected : shared.waiting ttl (p.member, p.name, hex) now = front ++ entry :: back)
      (first : ∀ e ∈ front, shared.isParked e.1 = false)
      (found : (shared.parked.find? fun e => e.1 == entry.1) = some index) :
      Classified ttl shared p now (some (attach index.2.1 (some body) json))
        (supersede { shared.setQueue (p.member, p.name, hex) (front ++ back) with
          parked := shared.parked.filter fun e => e.1 != entry.1 } index.2.1.member index.2.1.name entry.1)
  | suppressed {body : Body} {served : Option Body} {parsed : Option Document} {json : Document} {hex : Text}
      {entry : Nat × Nat} {front back : List (Nat × Nat)}
      (source : p.source = .oci body served parsed) (reads : body.document = some json)
      (leaf : childrenOf json = []) (digest : body.digest = some hex)
      (expected : shared.waiting ttl (p.member, p.name, hex) now = front ++ entry :: back)
      (unparked : ∀ e ∈ shared.waiting ttl (p.member, p.name, hex) now, shared.isParked e.1 = false) :
      Classified ttl shared p now none (shared.setQueue (p.member, p.name, hex) (front ++ back))

theorem classify_cases (ttl : Nat) (shared : Shared) (p : Pending) (now : Nat) :
    Classified ttl shared p now (classify ttl shared p now).1 (classify ttl shared p now).2 := by
  rw [classify]
  split
  · rename_i oci
    rw [ociClassify]
    cases source : p.source with
    | other =>
        refine .through fun body served parsed json _ same => ?_
        rw [source] at same
        cases same
    | oci body served parsed =>
        dsimp only
        cases reads : body.document with
        | none =>
            refine .through fun other _ _ json _ same read => ?_
            cases source.symm.trans same
            rw [reads] at read
            cases read
        | some json =>
            dsimp only
            by_cases leaf : childrenOf json = []
            · rw [leaf, List.isEmpty_nil, Bool.not_true, if_neg Bool.false_ne_true]
              cases digest : body.digest with
              | none =>
                  refine .through fun other _ _ json' _ same read => ?_
                  cases source.symm.trans same
                  cases reads.symm.trans read
                  exact ⟨leaf, digest⟩
              | some hex =>
                  dsimp only
                  by_cases empty : shared.waiting ttl (p.member, p.name, hex) now = []
                  · rw [popRecent_empty empty]
                    exact .alone source reads leaf digest empty
                  · obtain ⟨front, entry, back, queue, popped, first, others⟩ := popRecent_nonempty empty
                    rw [popped]
                    dsimp only
                    rw [release]
                    cases found : (shared.setQueue (p.member, p.name, hex) (front ++ back)).parked.find? fun e =>
                        e.1 == entry.1 with
                    | none =>
                        refine .suppressed source reads leaf digest queue (others ?_)
                        rw [Bool.eq_false_iff]
                        intro parked
                        obtain ⟨e, mem, same⟩ := isParked_iff.mp parked
                        have absent := List.find?_eq_none.mp found e mem
                        rw [same] at absent
                        exact absent (beq_self_eq_true _)
                    | some index => exact .released source reads leaf digest queue first found
            · rw [if_pos (by simpa using leaf)]
              exact .parked source reads leaf
  · rename_i other
    exact .through fun body served parsed json same => absurd same other

end OpenCargo.Policy.Oci
