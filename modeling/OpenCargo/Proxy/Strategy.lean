/-
Module: OpenCargo.Proxy.Strategy
Purpose: What a format tells the proxy engine of an artifact (`proxy/strategy.rs`), and the vocabulary it
  answers in (`crates/domain/src/proxy.rs`): keys, lifetimes, digests, redirects and what an upstream's
  status means.
Trusted boundary: an upstream's URL is in its parts; the private-range guard is asked of the outside
Main exports: CachePolicy, Classified, ExpectedDigest, Strategy
-/
import OpenCargo.Storage

namespace OpenCargo.Proxy

structure Url where
  scheme : Text
  host : Option Text
  port : Option Nat
  path : Text
  query : Option Text
deriving Repr, DecidableEq, Inhabited

/-- `Url::port_or_known_default`. -/
def Url.portOrKnownDefault (url : Url) : Option Nat :=
  url.port.or
    (if url.scheme = "https".toList then some 443 else if url.scheme = "http".toList then some 80 else none)

def Url.spelled (url : Url) : Text :=
  url.scheme ++ "://".toList ++ url.host.getD [] ++
    (url.port.elim [] fun port => ':' :: (toString port).toList) ++ url.path ++
    (url.query.elim [] fun query => '?' :: query)

inductive UpstreamAuth where
  | basic (username password : Text)
  | bearer (token : Text)
deriving Repr, DecidableEq, Inhabited

structure Upstream where
  base : Url
  auth : Option UpstreamAuth
  tokenRealms : List Url
  dlAllowPrivate : Bool
deriving Repr, DecidableEq, Inhabited

/-- How a pass ends without an answer. -/
inductive Fault where
  | badGateway (why : Text)
  | notFound (message : Text)
  | internal (message : Text)
  | store (error : StoreError)
  | storage (error : StorageError)
deriving Repr, DecidableEq, Inhabited

structure CacheKey where
  kind : Text
  key : Text
deriving Repr, DecidableEq, Inhabited

inductive Ttl where
  | default_
  | secs (n : Nat)
deriving Repr, DecidableEq, Inhabited

inductive CachePolicy where
  | immutable
  | ttl (ttl : Ttl)
deriving Repr, DecidableEq, Inhabited

/-- `Buffered` bounds the whole transfer. -/
inductive Transfer where
  | buffered
  | streamed
deriving Repr, DecidableEq, Inhabited

/-- `Miss` is an authoritative "does not exist"; `Refused` is asked again next time. -/
inductive Classified where
  | miss
  | refused
  | fail
deriving Repr, DecidableEq, Inhabited

/-- Who chose the host of an upstream URL. -/
inductive UrlSource where
  | admin
  | content (allowPrivate : Bool)
deriving Repr, DecidableEq, Inhabited

inductive RedirectRule where
  | unrestricted
  | sameOrigin
deriving Repr, DecidableEq, Inhabited

inductive DigestAlgorithm where
  | sha1
  | sha256
  | sha512
deriving Repr, DecidableEq, Inhabited

inductive DigestSource where
  | known
  | header
deriving Repr, DecidableEq, Inhabited

structure ExpectedDigest where
  algorithm : DigestAlgorithm
  value : Text
  source : DigestSource
deriving Repr, DecidableEq, Inhabited

/-- `to_ascii_lowercase`. -/
def lower (text : Text) : Text := text.map Char.toLower

abbrev Headers := List (Text × Text)

/-- The digest of no body but one. -/
def lowest : Text := List.replicate 64 '0'

def highest : Text := List.replicate 64 'f'

/-- Per-format upstream behaviour; every hook is a pure function of the artifact. -/
structure Strategy (A : Type) where
  upstreamUrl : Upstream → A → Except Fault Url
  urlSource : Upstream → A → UrlSource
  cacheKey : A → CacheKey
  cachePolicy : A → CachePolicy
  storeKey : A → Text → CacheKey
  expectedDigests : A → Headers → List ExpectedDigest
  sendCredentials : A → Bool
  finalUrlMustMatch : A → RedirectRule
  transfer : A → Transfer
  maxBytes : A → Nat
  requestHeaders : A → Headers
  bearerScope : A → Option Text
  classifyStatus : A → Nat → Classified
  /-- The store key depends on the whole digest, or not at all. -/
  uniform : ∀ a, storeKey a lowest = storeKey a highest → ∀ digest, storeKey a digest = storeKey a lowest
  /-- Quarantines live under a kind no strategy uses. -/
  ordinary : ∀ a, (cacheKey a).kind ≠ "quarantine".toList
  /-- No format reads a status by the artifact that was asked for. -/
  alike : ∀ a b status, classifyStatus a status = classifyStatus b status

end OpenCargo.Proxy
