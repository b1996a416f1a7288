/-
Module: OpenCargo.Repository
Purpose: A repository as its row holds it, the kinds and formats its columns spell
  (`crates/domain/src/repository.rs`, `crates/domain/src/kinds.rs`), and the reads of the repository
  store that resolving a name makes (`ports/repositories.rs`).
Trusted boundary: none
Main exports: Repository.kind, Repository.fmt, RepositoryStore, ResolveError
-/
import OpenCargo.Domain

namespace OpenCargo

/-- How an error reads: its `Display`. -/
def DomainError.toText : DomainError → Text
  | notFound kind id => kind ++ " '".toList ++ id ++ "' not found".toList
  | conflict kind id => kind ++ " '".toList ++ id ++ "' already exists".toList
  | forbidden action => "not allowed to ".toList ++ action
  | invalidName message => message
  | corruptColumn repo column value =>
      "repository '".toList ++ repo ++ "' has a corrupt ".toList ++ column ++ " column: '".toList ++
        value ++ "'".toList

inductive RepoKind where
  | hosted
  | proxy
  | group
deriving Repr, DecidableEq, Inhabited

namespace RepoKind

def all : List RepoKind := [.hosted, .proxy, .group]

def asStr : RepoKind → Text
  | hosted => "hosted".toList
  | proxy => "proxy".toList
  | group => "group".toList

def parse (s : Text) : Except DomainError RepoKind :=
  match all.find? fun kind => kind.asStr == s with
  | some kind => .ok kind
  | none => .error (.invalidName ("invalid repository type: ".toList ++ s))

end RepoKind

namespace Format

def all : List Format := [.npm, .cargo, .oci, .go, .pypi, .maven, .nuget, .mcp, .raw]

def parse (s : Text) : Except DomainError Format :=
  match all.find? fun format => format.asStr == s with
  | some format => .ok format
  | none => .error (.invalidName ("invalid repository format: ".toList ++ s))

end Format

/-- Who may read a repository. -/
inductive Visibility where
  | public_
  | private_
deriving Repr, DecidableEq, Inhabited

/-- The structured half of a repository's `config` document. -/
structure RepoConfig where
  members : List Text
deriving Repr, DecidableEq, Inhabited

/-- A row of `repositories`: its kind and its format are the texts of their columns. -/
structure Repository where
  id : Int
  name : Text
  repoType : Text
  format : Text
  visibility : Visibility
  config : Option RepoConfig
deriving Repr, DecidableEq, Inhabited

namespace Repository

def corruptColumn (repo : Repository) (column value : Text) : DomainError :=
  .corruptColumn repo.name column value

def kind (repo : Repository) : Except DomainError RepoKind :=
  (RepoKind.parse repo.repoType).mapError fun _ =>
    repo.corruptColumn "repo_type".toList repo.repoType

def fmt (repo : Repository) : Except DomainError Format :=
  (Format.parse repo.format).mapError fun _ => repo.corruptColumn "format".toList repo.format

/-- A repository with no config, or an unreadable one, has no members. -/
def members (repo : Repository) : List Text :=
  (repo.config.map RepoConfig.members).getD []

end Repository

/-- The reads of the repository store that resolving a name makes, at one state of the store. -/
structure RepositoryStore where
  byName : Text → Except StoreError (Option Repository)
  incarnation : Int → Except StoreError (Option Text)

/-- How resolving a name refuses. -/
inductive ResolveError where
  | notFound (why : Text)
  | upstream (why : Text)
  | domain (err : DomainError)
  | store (err : StoreError)
  | storage
  | internal (why : Text)
deriving Repr, DecidableEq, Inhabited

/-- `?` on a domain call inside the resolver. -/
def liftDomain {α : Type} : Except DomainError α → Except ResolveError α :=
  Except.mapError .domain

/-- `?` on a store call inside the resolver. -/
def liftStore {α : Type} : Except StoreError α → Except ResolveError α :=
  Except.mapError .store

@[simp] theorem liftDomain_ok {α : Type} (a : α) : liftDomain (.ok a) = .ok a := rfl

@[simp] theorem liftStore_ok {α : Type} (a : α) : liftStore (.ok a) = .ok a := rfl

end OpenCargo
