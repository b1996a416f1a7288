/-
Module: OpenCargo.Domain
Purpose: The vocabulary the stores and the use cases share: texts, instants as a statement binds them,
  formats, and how the domain, a store and a use case refuse.
Trusted boundary: none
Main exports: Format, DomainError, StoreError, AppError
-/
import Mathlib

namespace OpenCargo

/-- A Rust `str`, or a SQLite `TEXT`, as its characters: `length` and `substr` count characters, and
`strip_prefix` cuts on character boundaries. -/
abbrev Text := List Char

-- named here, so that a membership test among texts carries the same instance in every module
instance : LawfulBEq Text := inferInstance

/-- A `DateTime<Utc>`, in nanoseconds. -/
abbrev Instant := Int

/-- A `std::time::Duration`, in nanoseconds. -/
abbrev Duration := Nat

/-- `bind_ts`: the adapter's stored spelling of an instant has second precision, and two stored
instants compare as their seconds. -/
def bindTs (at_ : Instant) : Int := at_ / 1000000000

/-- `read_ts`: a stored instant has second precision. -/
def readTs (stored : Int) : Instant := stored * 1000000000

/-- `Format`, in the order of `Format::ALL`. -/
inductive Format where
  | npm
  | cargo
  | oci
  | go
  | pypi
  | maven
  | nuget
  | mcp
  | raw
deriving Repr, DecidableEq, Inhabited

def Format.asStr : Format → Text
  | .npm => "npm".toList
  | .cargo => "cargo".toList
  | .oci => "oci".toList
  | .go => "go".toList
  | .pypi => "pypi".toList
  | .maven => "maven".toList
  | .nuget => "nuget".toList
  | .mcp => "mcp".toList
  | .raw => "raw".toList

/-- `DomainError`. -/
inductive DomainError where
  | notFound (kind id : Text)
  | conflict (kind id : Text)
  | forbidden (action : Text)
  | invalidName (message : Text)
  | corruptColumn (repo column value : Text)
deriving Repr, DecidableEq, Inhabited

/-- `StoreError`. `superseded` names the physical keys whose pin is gone. -/
inductive StoreError where
  | notFound
  | conflict
  | superseded (revoked : List Text)
  | unavailable
  | other
deriving Repr, DecidableEq, Inhabited

/-- `AppError`, as far as the use cases answer it; what a domain call or a store refused with is
kept as it was. -/
inductive AppError where
  | notFound (message : Text)
  | conflict (message : Text)
  | badRequest (message : Text)
  | forbidden (message : Text)
  | domain (error : DomainError)
  | store (error : StoreError)
deriving Repr, DecidableEq, Inhabited

end OpenCargo
