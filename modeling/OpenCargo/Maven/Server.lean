/-
Module: OpenCargo.Maven.Server
Purpose: The server's side of a deposit (`registry/maven/http.rs`, `api/maven.rs`): a path is parsed, a
  main POM passes the publish gate before it is stored, a client's `maven-metadata.xml` is kept for its
  hints; and the server as a system, its calls in any order.
Trusted boundary: the hash functions and the XML parser are parameters; the verdict of the gate is part
  of a request. Who may write where is decided before.
Main exports: Server.step, Standing, Took, Standing.step
-/
import OpenCargo.Lib.Fallible
import OpenCargo.Maven.Carried
import OpenCargo.Maven.Path

namespace OpenCargo.Maven

open OpenCargo.Lib

abbrev Bytes := List UInt8

/-! ### The counters of a change -/

def scopeArtifact (ga : Text) : Text := ga

def scopeSnapshot (ga version : Text) : Text := ga ++ '@' :: version

def scopeGroup (group : Text) : Text := "group:".toList ++ group

/-- The counters a change to a unit of `gav` moves. -/
def scopesOf (gav : Gav) : List Text :=
  scopeArtifact gav.ga ::
    if gav.isSnapshot then [scopeSnapshot gav.ga gav.version] else []

/-- The same, from a `groupId:artifactId` and a version. -/
def scopesOfUnit (ga version : Text) : List Text :=
  let (group, artifact) := (splitOnce ga ':').getD (ga, [])
  scopesOf ⟨group, artifact, version⟩

/-! ### What a request carries -/

/-- A plugin a client declares for a group: its goal prefix, its artifact, its name. -/
structure Plugin where
  lead : Text
  artifact : Text
  name : Text
deriving Repr, DecidableEq, Inhabited

/-- What is read of a client's document. -/
structure Parsed where
  release : Option Text
  latest : Option Text
  plugins : List Plugin
deriving Repr, DecidableEq, Inhabited

/-- What the handlers are given from outside: `digests_of`, and `metadata::parse` or why it fails. -/
structure Env where
  digestsOf : Bytes → Digests
  parse : Bytes → Except Text Parsed

/-- A row of `maven_client_metadata`. -/
structure ClientMetadata where
  repository : Int
  dir : Text
  digests : Digests
  release : Option Text
  latest : Option Text
  plugins : List Plugin
deriving Repr, DecidableEq, Inhabited

/-- `PRIMARY KEY (repository_id, dir)`. -/
def ClientMetadata.slot (doc : ClientMetadata) : Int × Text := (doc.repository, doc.dir)

def unitOf (repository : Int) (file : ArtifactFile) : UnitKey :=
  ⟨repository, file.gav.ga, file.gav.version, file.build⟩

def targetOf (repository : Int) (file : ArtifactFile) (principal : Text) : Target where
  unit := unitOf repository file
  filename := file.filename
  principal := principal
  scopes := scopesOf file.gav

/-- `char::is_whitespace`. -/
def isWhitespace (c : Char) : Bool :=
  let n := c.toNat
  (9 ≤ n && n ≤ 13) || n = 0x20 || n = 0x85 || n = 0xA0 || n = 0x1680 || (0x2000 ≤ n && n ≤ 0x200A) ||
    n = 0x2028 || n = 0x2029 || n = 0x202F || n = 0x205F || n = 0x3000

/-- Hex digits in a digest of this algorithm. -/
def SumAlgorithm.hexLen : SumAlgorithm → Nat
  | .sha1 => 40
  | .md5 => 32
  | .sha256 => 64
  | .sha512 => 128

def isHexDigit (c : Char) : Bool :=
  c.isDigit || ('a' ≤ c && c ≤ 'f') || ('A' ≤ c && c ≤ 'F')

def maxSumBytes : Nat := 4 * 1024

def maxMetadataBytes : Nat := 1024 * 1024

/-- `to_bytes`: a body beyond the limit is not read. -/
def limited (limit : Nat) (body : Bytes) : Except OpenCargo.AppError PUnit :=
  if body.length ≤ limit then .ok ()
  else .error (.badRequest "failed to read body: length limit exceeded".toList)

/-- The hex digest a checksum file carries, first token only. -/
def sumOf (body : Bytes) (algorithm : SumAlgorithm) : Except OpenCargo.AppError Text := do
  limited maxSumBytes body
  match String.fromUTF8? ⟨body.toArray⟩ with
  | none => .error (.badRequest "checksum is not text".toList)
  | some text =>
      let token := (text.toList.dropWhile isWhitespace).takeWhile fun c => !isWhitespace c
      let value := token.map Char.toLower
      if value.length = algorithm.hexLen ∧ value.all isHexDigit then
        .ok value
      else
        .error (.badRequest ("invalid ".toList ++ algorithm.asStr ++ " checksum".toList))

/-- The client's document, and the counters it moves: its snapshot's, its artifact's, or its group's for
a plugin list. -/
def clientDocument (env : Env) (repository : Int) (dir : List Text) (body : Bytes) :
    Except OpenCargo.AppError (ClientMetadata × List Text) :=
  match env.parse body with
  | .error why => .error (.badRequest ("invalid maven-metadata.xml: ".toList ++ why))
  | .ok parsed =>
      let scopes :=
        if !parsed.plugins.isEmpty then
          [scopeGroup (dotted dir)]
        else
          match MetadataLevel.of dir with
          | some (.snapshot gav) => scopesOf gav
          | some (.artifact group artifact) => [scopeArtifact (group ++ ':' :: artifact)]
          | none => [scopeGroup (dotted dir)]
      .ok
        ({ repository := repository
           dir := ['/'].intercalate dir
           digests := env.digestsOf body
           release := parsed.release
           latest := parsed.latest
           plugins := parsed.plugins }, scopes)

/-! ### The server -/

/-- A call in flight: its request, and the body its deposit streams. -/
structure Served where
  request : Request
  body : Bytes
deriving Repr, DecidableEq, Inhabited

/-- The units and their calls, what clients sent of metadata, and, as history that decides nothing, what
the publish gate let through. -/
structure Server where
  pool : Pool Served Tables Op Op.Answer Answer
  clients : List ClientMetadata
  passed : List (Gav × Bytes)

namespace Server

def init : Server := ⟨⟨⟨[], [], [], []⟩, []⟩, [], []⟩

abbrev tables (server : Server) : Tables := server.pool.state

def unit (server : Server) (key : UnitKey) : Option Unit := server.tables.unit key

/-- A call begins. -/
def begin_ (server : Server) (window : Int) (served : Served) : Server :=
  { server with
    pool :=
      { server.pool with
        calls := server.pool.calls ++ [(served, program window served.request)] } }

/-- `client_metadata` of the store. -/
def client (server : Server) (repository : Int) (dir : Text) : Option ClientMetadata :=
  server.clients.find? fun doc => doc.slot == (repository, dir)

/-- `record_client_metadata`: the document and its counters, in one transaction. -/
def record (server : Server) (doc : ClientMetadata) (scopes : List Text) (now : Instant) : Server :=
  { server with
    pool := { server.pool with state := server.tables.bump doc.repository scopes now }
    clients := upsert ClientMetadata.slot (fun _ => doc) doc server.clients }

/-- A checksum of the client's document, checked against it. -/
def clientMetadataSum (server : Server) (repository : Int) (dir : Text) (algorithm : SumAlgorithm)
    (value : Text) : Except DepositError Deposited :=
  match server.client repository dir with
  | some doc => if doc.digests.get algorithm = value then .ok .unchanged else .error (.mismatch algorithm)
  | none =>
      .error (.badRequest "no maven-metadata.xml was deposited in this directory".toList)

end Server

/-- A request of a client, or of the operator, or the answer an operation of a call gets. -/
inductive ServerAct where
  /-- PUT; `gate` is what the publish gate would answer. -/
  | put (repository : Int) (path principal : Text) (body : Bytes)
      (gate : Except OpenCargo.AppError PUnit) (now : Instant)
  /-- The reconciler takes up a unit that the store lists. -/
  | reconcile (key : UnitKey) (now : Instant)
  /-- An administrator names a unit by its coordinates. -/
  | decide (repository : Int) (group artifact version build : Text) (decision : Decision)
      (now : Instant)
  | answer (i : Nat) (luck : Luck)

namespace Server

variable (env : Env) (window : Int)

/-- A file: a main POM is read whole and gated, anything else is streamed. -/
def putFile (server : Server) (repository : Int) (file : ArtifactFile) (principal : Text)
    (body : Bytes) (gate : Except OpenCargo.AppError PUnit) (now : Instant) :
    Except OpenCargo.AppError Server :=
  let served : Served := ⟨.file (targetOf repository file principal) now, body⟩
  if file.isPom then do
    limited maxMetadataBytes body
    gate
    .ok ({ server with passed := server.passed ++ [(file.gav, body)] }.begin_ window served)
  else
    .ok (server.begin_ window served)

/-- PUT: a file, a checksum, or a `maven-metadata.xml`. -/
def put (server : Server) (repository : Int) (path principal : Text) (body : Bytes)
    (gate : Except OpenCargo.AppError PUnit) (now : Instant) : Except OpenCargo.AppError Server := do
  let parsed ← MavenPath.parse path
  match parsed.target, parsed.sum with
  | .file file, none => server.putFile window repository file principal body gate now
  | .file file, some algorithm => do
      let value ← sumOf body algorithm
      .ok (server.begin_ window
        ⟨.sum (targetOf repository file principal) algorithm value now, body⟩)
  | .metadata dir, none => do
      limited maxMetadataBytes body
      let (doc, scopes) ← clientDocument env repository dir body
      .ok (server.record doc scopes now)
  | .metadata dir, some algorithm => do
      let value ← sumOf body algorithm
      -- whatever it answers, nothing is written
      let _ := server.clientMetadataSum repository (['/'].intercalate dir) algorithm value
      .ok server

/-- What a call streams is its body: that, and no other, is what is received. -/
def streams (server : Server) (i : Nat) : Luck → Bool
  | .received (.ok (size, digests)) =>
      (server.pool.calls[i]?.map Prod.fst).all fun served =>
        size = served.body.length ∧ digests = env.digestsOf served.body
  | _ => true

def step (server : Server) : ServerAct → Option Server
  | .put repository path principal body gate now =>
      match server.put env window repository path principal body gate now with
      | .ok next => some next
      | .error _ => some server
  | .reconcile key now =>
      if (server.unit key).isSome then
        some (server.begin_ window ⟨.promote key (scopesOfUnit key.ga key.version) now, []⟩)
      else
        none
  | .decide repository group artifact version build decision now =>
      let ga := group ++ ':' :: artifact
      some (server.begin_ window
        ⟨.decide ⟨repository, ga, version, build⟩ decision (scopesOfUnit ga version) now, []⟩)
  | .answer i luck =>
      if server.streams env i luck then
        (server.pool.step perform (fun served => program window served.request)
          (.answer i luck)).map fun pool => { server with pool := pool }
      else
        none

end Server

/-! ### What a request names -/

theorem splitOnce_of_mem {text : Text} {sep : Char} (mem : sep ∈ text) :
    ∃ first rest, splitOnce text sep = some (first, rest) ∧ first ++ sep :: rest = text := by
  have whole := List.takeWhile_append_dropWhile (p := fun c => c != sep) (l := text)
  cases dropped : text.dropWhile fun c => c != sep with
  | nil =>
      have all : ∀ c ∈ text, c ≠ sep := by simpa using dropped
      exact absurd rfl (all sep mem)
  | cons c rest =>
      have same : c = sep := by
        have head := List.head?_dropWhile_not (fun c => c != sep) text
        rw [dropped] at head
        simpa using head
      subst same
      refine ⟨text.takeWhile fun d => d != c, rest, ?_, dropped ▸ whole⟩
      rw [splitOnce, List.span_eq_takeWhile_dropWhile, dropped]

/-- A request names a unit of some `groupId:artifactId`, and the counters its units are shown under. -/
structure Request.Scoped (r : Request) : Prop where
  named : ':' ∈ r.key.ga
  artifact : scopeArtifact r.key.ga ∈ r.scopes
  snapshot : isSnapshot r.key.version = true → scopeSnapshot r.key.ga r.key.version ∈ r.scopes

theorem scopesOf_spec (gav : Gav) :
    scopeArtifact gav.ga ∈ scopesOf gav ∧
      (isSnapshot gav.version = true → scopeSnapshot gav.ga gav.version ∈ scopesOf gav) := by
  refine ⟨List.mem_cons_self, fun snap => ?_⟩
  have snap : gav.isSnapshot = true := snap
  simp [scopesOf, snap]

theorem scopesOfUnit_spec {ga version : Text} (named : ':' ∈ ga) :
    scopeArtifact ga ∈ scopesOfUnit ga version ∧
      (isSnapshot version = true → scopeSnapshot ga version ∈ scopesOfUnit ga version) := by
  obtain ⟨group, artifact, split, rfl⟩ := splitOnce_of_mem named
  rw [scopesOfUnit, split]
  exact scopesOf_spec ⟨group, artifact, version⟩

theorem targetOf_scoped {repository : Int} {file : ArtifactFile} {principal : Text}
    {r : Request} (key : r.key = unitOf repository file)
    (scopes : r.scopes = (targetOf repository file principal).scopes) : r.Scoped := by
  have known := scopesOf_spec file.gav
  refine ⟨?_, ?_, ?_⟩
  · rw [key]
    simp [unitOf, Gav.ga]
  · rw [key, scopes]
    exact known.1
  · rw [key, scopes]
    exact known.2

/-! ### What holds of a server, and what a step of it does -/

/-- The digests a call's deposit may store. -/
def Served.Good (env : Env) (served : Served) (digests : Digests) : Prop :=
  digests = env.digestsOf served.body

structure Standing (env : Env) (window : Int) (server : Server) : Prop where
  kept : Pool.Kept perform pact (fun served => Does window served.request) server.pool
  asked : Pool.Asked (fun served => Carries (served.Good env) served.request)
    (fun served => Yields (served.Good env)) server.pool
  requests : ∀ call ∈ server.pool.calls, call.1.request.Scoped
  named : ∀ key unit, server.unit key = some unit → ':' ∈ key.ga

/-- What a step of the server does. -/
inductive Took (env : Env) (window : Int) (u : Server) (act : ServerAct) (v : Server) : Prop where
  | refused (same : v = u)
  /-- A file's deposit begins; a main POM has passed the gate. -/
  | deposit {repository : Int} {path principal : Text} {body : Bytes}
      {gate : Except OpenCargo.AppError PUnit} {now : Instant} {file : ArtifactFile}
      {passed : List (Gav × Bytes)} (came : act = .put repository path principal body gate now)
      (parsed : MavenPath.parse path = .ok ⟨.file file, none⟩) (grown : u.passed ⊆ passed)
      (gated : file.isPom = true → (file.gav, body) ∈ passed)
      (begun : v = { u with passed := passed }.begin_ window
        ⟨.file (targetOf repository file principal) now, body⟩)
  /-- Another call begins. -/
  | began {served : Served} (other : ∀ target now, served.request ≠ .file target now)
      (begun : v = u.begin_ window served)
  /-- A client's document is kept. -/
  | recorded {repository : Int} {path principal : Text} {body : Bytes}
      {gate : Except OpenCargo.AppError PUnit} {now : Instant} {dir : List Text}
      {doc : ClientMetadata} {scopes : List Text}
      (came : act = .put repository path principal body gate now)
      (parsed : MavenPath.parse path = .ok ⟨.metadata dir, none⟩)
      (read : clientDocument env repository dir body = .ok (doc, scopes))
      (recorded : v = u.record doc scopes now)
  /-- An operation of a call is carried out. -/
  | moved {i : Nat} {luck : Luck} {served : Served} {m : Call Answer}
      (came : act = .answer i luck) (call : u.pool.calls[i]? = some (served, m))
      (does : Does window served.request u.tables v.tables)
      (moves : Moves (served.Good env) served.request u.tables v.tables)
      (requests : ∀ call ∈ v.pool.calls, ∃ m, (call.1, m) ∈ u.pool.calls)
      (clients : v.clients = u.clients) (passed : v.passed = u.passed)

section Steps

variable {env : Env} {window : Int} {u v : Server} {act : ServerAct}

theorem Standing.init : Standing env window Server.init where
  kept :=
    { inv :=
        { ids := .nil
          keys := .nil
          slots := .nil
          files := fun _ mem => by cases mem
          declarations := fun _ mem => by cases mem }
      calls := fun _ mem => by cases mem }
  asked := fun _ mem => by cases mem
  requests := fun _ mem => by cases mem
  named := fun _ _ found => by cases found

theorem Standing.begin_ {served : Served} {passed : List (Gav × Bytes)}
    (standing : Standing env window u) (names : served.request.Scoped) :
    Standing env window ({ u with passed := passed }.begin_ window served) where
  kept := by
    have started : u.pool.step perform (fun served => program window served.request)
        (.start served : Pool.Act Served Luck) = some (u.begin_ window served).pool := rfl
    exact (standing.kept.step (fun r => does_within r.request)
      (fun r => program_meets r.request) started).1
  asked := by
    have started : u.pool.step perform (fun served => program window served.request)
        (.start served : Pool.Act Served Luck) = some (u.begin_ window served).pool := rfl
    exact standing.asked.start (program_asks window _ served.request) started
  requests call mem := by
    rcases List.mem_append.mp mem with old | new
    · exact standing.requests call old
    · cases List.mem_singleton.mp new
      exact names
  named := standing.named

theorem Standing.record {doc : ClientMetadata} {scopes : List Text} {now : Instant}
    (standing : Standing env window u) : Standing env window (u.record doc scopes now) where
  kept := standing.kept.relied ⟨standing.kept.inv.bump, fun _ => .inl rfl⟩
  asked := standing.asked
  requests := standing.requests
  named := standing.named

theorem Moves.named {good : Digests → Prop} {r : Request} {s t : Tables}
    (moves : Moves good r s t) (names : ':' ∈ r.key.ga)
    (named : ∀ key unit, s.unit key = some unit → ':' ∈ key.ga) :
    ∀ key unit, t.unit key = some unit → ':' ∈ key.ga := by
  have step : (∀ key, key ≠ r.key → t.held key = s.held key) →
      ∀ key unit, t.unit key = some unit → ':' ∈ key.ga := by
    intro others key unit found
    by_cases own : key = r.key
    · exact own ▸ names
    · rw [unit_eq_held, others key own, ← unit_eq_held] at found
      exact named key unit found
  cases moves with
  | same kept => exact kept ▸ named
  | changed _ others _ _ _ => exact step others
  | emptied others _ _ _ => exact step others

theorem Standing.put {repository : Int} {path principal : Text} {body : Bytes}
    {gate : Except OpenCargo.AppError PUnit} {now : Instant} (standing : Standing env window u)
    (done : u.put env window repository path principal body gate now = .ok v) :
    Standing env window v ∧
      Took env window u (.put repository path principal body gate now) v := by
  obtain ⟨⟨target, sum⟩, parsed, rest⟩ := bind_eq_ok.mp done
  cases target with
  | file file =>
      cases sum with
      | none =>
          have names : (Request.file (targetOf repository file principal) now).Scoped :=
            targetOf_scoped rfl rfl
          replace rest : u.putFile window repository file principal body gate now = .ok v := rest
          rw [Server.putFile] at rest
          split at rest
          · obtain ⟨_, -, rest⟩ := bind_eq_ok.mp rest
            obtain ⟨_, -, rest⟩ := bind_eq_ok.mp rest
            cases rest
            exact ⟨standing.begin_ names, .deposit rfl parsed (List.subset_append_left ..)
              (fun _ => List.mem_append_right _ (List.mem_singleton_self _)) rfl⟩
          · rename_i plain
            cases rest
            exact ⟨standing.begin_ names, .deposit rfl parsed (fun _ mem => mem)
              (fun pom => absurd pom plain) rfl⟩
      | some algorithm =>
          obtain ⟨value, -, rest⟩ := bind_eq_ok.mp rest
          cases rest
          exact ⟨standing.begin_ (targetOf_scoped rfl rfl), .began (by simp) rfl⟩
  | metadata dir =>
      cases sum with
      | none =>
          obtain ⟨_, -, rest⟩ := bind_eq_ok.mp rest
          obtain ⟨⟨doc, scopes⟩, read, rest⟩ := bind_eq_ok.mp rest
          cases rest
          exact ⟨standing.record, .recorded rfl parsed read rfl⟩
      | some algorithm =>
          obtain ⟨value, -, rest⟩ := bind_eq_ok.mp rest
          cases rest
          exact ⟨standing, .refused rfl⟩

theorem streams_valid {i : Nat} {luck : Luck} {served : Served} {op : Op} {s t : Tables}
    {answer : op.Answer} {next : op.Answer → Call Answer}
    (streams : u.streams env i luck = true)
    (call : u.pool.calls[i]? = some (served, .call op next))
    (performed : perform s op luck = some (answer, t)) : Yields (served.Good env) op answer := by
  cases op with
  | receive =>
      cases luck <;> cases performed
      intro size digests received
      subst received
      simp only [Server.streams, call, Option.map_some, Option.all_some, decide_eq_true_eq] at streams
      exact streams.2
  | _ => trivial

theorem Standing.step (standing : Standing env window u)
    (taken : u.step env window act = some v) :
    Standing env window v ∧ Took env window u act v := by
  cases act with
  | put repository path principal body gate now =>
      simp only [Server.step] at taken
      split at taken
      · rename_i next done
        cases taken
        exact standing.put done
      · cases taken
        exact ⟨standing, .refused rfl⟩
  | reconcile key now =>
      simp only [Server.step] at taken
      split at taken
      · rename_i held
        cases taken
        obtain ⟨unit, found⟩ := Option.isSome_iff_exists.mp held
        have named := standing.named key unit found
        have known : scopeArtifact key.ga ∈ scopesOfUnit key.ga key.version ∧ _ :=
          scopesOfUnit_spec named
        exact ⟨standing.begin_ ⟨named, known.1, known.2⟩, .began (by simp) rfl⟩
      · cases taken
  | decide repository group artifact version build decision now =>
      cases taken
      have named : ':' ∈ group ++ ':' :: artifact := by simp
      have known : scopeArtifact (group ++ ':' :: artifact) ∈
          scopesOfUnit (group ++ ':' :: artifact) version ∧ _ := scopesOfUnit_spec named
      exact ⟨standing.begin_ ⟨named, known.1, known.2⟩, .began (by simp) rfl⟩
  | answer i luck =>
      simp only [Server.step] at taken
      split at taken
      · rename_i streams
        obtain ⟨pool, stepped, rfl⟩ := Option.map_eq_some_iff.mp taken
        obtain ⟨kept, did⟩ := standing.kept.step (fun r => does_within r.request)
          (fun r => program_meets r.request) stepped
        obtain ⟨asked, served, op, next, answer, call, carries, performed⟩ :=
          standing.asked.answer (fun r o next answer t => streams_valid streams) stepped
        obtain ⟨served', m, call', does⟩ := did
        cases call.symm.trans call'
        have moves := moves_of_performed standing.kept.inv carries performed
        have mem := List.mem_of_getElem? call
        have requests := Pool.requests_answer stepped
        refine ⟨⟨kept, asked, ?_, ?_⟩, .moved rfl call does moves requests rfl rfl⟩
        · intro other inside
          obtain ⟨m, before⟩ := requests other inside
          exact standing.requests (other.1, m) before
        · exact moves.named (standing.requests _ mem).named standing.named
      · cases taken

end Steps

end OpenCargo.Maven
