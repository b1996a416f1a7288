/-
Module: OpenCargo.Proxy.Guard
Purpose: The addresses the proxy must never reach (`proxy/mod.rs`): what is asked of a URL that an upstream's
  content chose, and of each hop of a chain of redirects.
Trusted boundary: the resolver's answers at each moment
Main exports: guardedUrl, redirectPolicy, followed, Reserved
-/
import OpenCargo.Lib.Address
import OpenCargo.Proxy.Strategy

namespace OpenCargo.Proxy.Guard

open OpenCargo.Lib (IpAddr Ipv4Addr Ipv6Addr readIpAddr segments_of_mapped)

/-- `is_blocked_ip`. -/
def isBlockedIp : IpAddr → Bool
  | .v4 v4 => v4.isPrivate || v4.isLoopback || v4.isLinkLocal || v4.isUnspecified || v4.isBroadcast
  | .v6 v6 =>
      v6.isLoopback || v6.isUnspecified || v6.s0 &&& 0xfe00 = 0xfc00 || v6.s0 &&& 0xffc0 = 0xfe80

/-- `trim_matches(['[', ']'])`. -/
def trimBrackets (host : Text) : Text :=
  let bracket := fun c : Char => c = '[' ∨ c = ']'
  ((host.dropWhile bracket).reverse.dropWhile bracket).reverse

def ipLiteral (url : Url) : Option IpAddr :=
  url.host.bind fun host => readIpAddr (trimBrackets host)

def hostPort (url : Url) : Except Fault (Text × Nat) :=
  match url.host with
  | none => .error (.badGateway (url.spelled ++ " has no host".toList))
  | some host => .ok (host, url.portOrKnownDefault.getD 443)

def firstBlocked (addrs : List IpAddr) : Option IpAddr := addrs.find? isBlockedIp

def sameEndpoint (a b : Url) : Bool :=
  a.host = b.host && a.portOrKnownDefault = b.portOrKnownDefault

def pointsAtPrivate (url : Url) (ip : IpAddr) : Fault :=
  .badGateway (url.spelled ++ " points at a private address (".toList ++ ip.spelled ++ ")".toList)

/-- What a name and a port resolve to at one moment, or why they do not. -/
abbrev Resolver := Text → Nat → Except Text (List IpAddr)

section

variable (resolve : Resolver)

def refuseBlockedHost (url : Url) : Except Fault Unit :=
  let admitted addrs := match firstBlocked addrs with
    | some ip => .error (pointsAtPrivate url ip)
    | none => .ok ()
  match ipLiteral url with
  | some ip => admitted [ip]
  | none =>
      match hostPort url with
      | .error e => .error e
      | .ok (host, port) =>
          match resolve host port with
          | .error e => .error (.badGateway (url.spelled ++ " does not resolve: ".toList ++ e))
          | .ok addrs => admitted addrs

/-- `guarded_url`. -/
def guardedUrl {A : Type} (s : Strategy A) (up : Upstream) (a : A) : Except Fault Url := do
  let url ← s.upstreamUrl up a
  if s.urlSource up a = .content false then
    refuseBlockedHost resolve url
  pure url

/-- `blocked_hop`: a name that does not resolve is not blocked. -/
def blockedHop (url : Url) : Option IpAddr :=
  match ipLiteral url with
  | some ip => firstBlocked [ip]
  | none =>
      match hostPort url with
      | .error _ => none
      | .ok (host, port) => (resolve host port).toOption.bind firstBlocked

inductive RedirectAnswer where
  | follow
  | stop
  | error (why : Text)
deriving Repr, DecidableEq, Inhabited

/-- `redirect_policy`: what is answered to a hop to `url` after `previous`. -/
def redirectPolicy (previous : List Url) (url : Url) : RedirectAnswer :=
  if 5 ≤ previous.length then .error "too many redirects".toList
  else if previous.head?.any fun origin => sameEndpoint origin url then .follow
  else match blockedHop resolve url with
    | some _ => .stop
    | none => .follow

end

/-- The hops a request follows of those it is sent on, each asked of the resolver at its own moment. -/
def followed (previous : List Url) : List (Resolver × Url) → List (Resolver × Url)
  | [] => []
  | (resolve, url) :: rest =>
      match redirectPolicy resolve previous url with
      | .follow => (resolve, url) :: followed (previous ++ [url]) rest
      | _ => []

section Reserved

/-- The IPv4 blocks a proxy has no business in. -/
inductive ReservedV4 : Ipv4Addr → Prop
  | loopback (b c d : UInt8) : ReservedV4 ⟨127, b, c, d⟩
  | ten (b c d : UInt8) : ReservedV4 ⟨10, b, c, d⟩
  | sixteen (b c d : UInt8) : 16 ≤ b → b ≤ 31 → ReservedV4 ⟨172, b, c, d⟩
  | home (c d : UInt8) : ReservedV4 ⟨192, 168, c, d⟩
  | linkLocal (c d : UInt8) : ReservedV4 ⟨169, 254, c, d⟩
  | unspecified : ReservedV4 ⟨0, 0, 0, 0⟩
  | broadcast : ReservedV4 ⟨255, 255, 255, 255⟩

/-- The IPv6 blocks, and what carries a reserved IPv4 address. -/
inductive ReservedV6 : Ipv6Addr → Prop
  | loopback : ReservedV6 ⟨0, 0, 0, 0, 0, 0, 0, 1⟩
  | unspecified : ReservedV6 ⟨0, 0, 0, 0, 0, 0, 0, 0⟩
  | uniqueLocal {ip : Ipv6Addr} : ip.s0.toNat / 2 ^ 9 = 0xfc00 / 2 ^ 9 → ReservedV6 ip
  | linkLocal {ip : Ipv6Addr} : ip.s0.toNat / 2 ^ 6 = 0xfe80 / 2 ^ 6 → ReservedV6 ip
  | mapped {ip : Ipv6Addr} {v4 : Ipv4Addr} : ip.toIpv4Mapped = some v4 → ReservedV4 v4 → ReservedV6 ip

/-- An address is loopback, private, link-local, unspecified or broadcast, or carries one that is. -/
def Reserved : IpAddr → Prop
  | .v4 v4 => ReservedV4 v4
  | .v6 v6 => ReservedV6 v6

/-- An IPv6 address that carries a blocked IPv4 address. -/
def mapsBlocked : IpAddr → Bool
  | .v4 _ => false
  | .v6 v6 => v6.toIpv4Mapped.any fun v4 => isBlockedIp (.v4 v4)

variable {ip : IpAddr}

theorem blocked_v4_iff (v4 : Ipv4Addr) : isBlockedIp (.v4 v4) = true ↔ ReservedV4 v4 := by
  obtain ⟨a, b, c, d⟩ := v4
  simp only [isBlockedIp, Ipv4Addr.isPrivate, Ipv4Addr.isLoopback, Ipv4Addr.isLinkLocal,
    Ipv4Addr.isUnspecified, Ipv4Addr.isBroadcast, Bool.or_eq_true, Bool.and_eq_true, decide_eq_true_eq,
    Ipv4Addr.mk.injEq]
  constructor
  · rintro ((((((rfl | ⟨⟨rfl, low⟩, high⟩) | ⟨rfl, rfl⟩) | rfl) | ⟨rfl, rfl⟩) | ⟨rfl, rfl, rfl, rfl⟩) |
      ⟨rfl, rfl, rfl, rfl⟩)
    · exact .ten b c d
    · exact .sixteen b c d low high
    · exact .home c d
    · exact .loopback b c d
    · exact .linkLocal c d
    · exact .unspecified
    · exact .broadcast
  · rintro (_ | _ | _ | _ | _ | _ | _) <;> simp [*]

theorem masked_uniqueLocal (x : UInt16) : x &&& 0xfe00 = 0xfc00 ↔ x.toNat / 2 ^ 9 = 0xfc00 / 2 ^ 9 := by
  rw [← UInt16.toNat_inj, UInt16.toNat_and]
  exact Lib.masked_eq_iff (k := 9) (w := 7) (v := 126) x.toNat_lt

theorem masked_linkLocal (x : UInt16) : x &&& 0xffc0 = 0xfe80 ↔ x.toNat / 2 ^ 6 = 0xfe80 / 2 ^ 6 := by
  rw [← UInt16.toNat_inj, UInt16.toNat_and]
  exact Lib.masked_eq_iff (k := 6) (w := 10) (v := 1018) x.toNat_lt

/-- The blocks are those of the predicate, except through an address that carries another. -/
theorem reserved_iff : Reserved ip ↔ isBlockedIp ip = true ∨ mapsBlocked ip = true := by
  cases ip with
  | v4 v4 => simp [Reserved, blocked_v4_iff, mapsBlocked]
  | v6 v6 =>
      simp only [Reserved, isBlockedIp, mapsBlocked, Ipv6Addr.isLoopback, Ipv6Addr.isUnspecified,
        Bool.or_eq_true, decide_eq_true_eq, masked_uniqueLocal, masked_linkLocal, Option.any_eq_true]
      constructor
      · rintro (_ | _ | high | high | ⟨mapped, reserved⟩)
        · exact .inl (.inl (.inl (.inl rfl)))
        · exact .inl (.inl (.inl (.inr rfl)))
        · exact .inl (.inl (.inr high))
        · exact .inl (.inr high)
        · exact .inr ⟨_, mapped, by simpa [isBlockedIp] using (blocked_v4_iff _).2 reserved⟩
      · rintro ((((rfl | rfl) | high) | high) | ⟨v4, mapped, reserved⟩)
        · exact .loopback
        · exact .unspecified
        · exact .uniqueLocal high
        · exact .linkLocal high
        · exact .mapped mapped ((blocked_v4_iff _).1 (by simpa [isBlockedIp] using reserved))

end Reserved

section Hosts

variable (resolve : Resolver) (url : Url)

/-- The addresses a URL's host is at one moment: its literal, or what its name resolves to. -/
def addresses : List IpAddr :=
  match ipLiteral url with
  | some ip => [ip]
  | none =>
      match hostPort url with
      | .error _ => []
      | .ok (host, port) => (resolve host port).toOption.getD []

/-- A blocked address is among them, but only carried by another. -/
def slips (addrs : List IpAddr) : Bool := addrs.any mapsBlocked && !addrs.any isBlockedIp

variable {resolve url}

theorem firstBlocked_eq_none {addrs : List IpAddr} :
    firstBlocked addrs = none ↔ addrs.any isBlockedIp = false := by
  simp [firstBlocked]

theorem found_iff {addrs : List IpAddr} :
    ((∃ ip ∈ addrs, Reserved ip) → firstBlocked addrs ≠ none) ↔ slips addrs = false := by
  simp only [reserved_iff, ne_eq, firstBlocked_eq_none, slips, ← Bool.not_eq_true, Bool.and_eq_true,
    Bool.not_eq_true', not_and, List.any_eq_true]
  constructor
  · rintro found ⟨ip, mem, maps⟩
    exact found ⟨ip, mem, .inr maps⟩
  · rintro none_ ⟨ip, mem, blocked | maps⟩
    · exact not_not_intro ⟨ip, mem, blocked⟩
    · exact none_ ⟨ip, mem, maps⟩

theorem blockedHop_eq : blockedHop resolve url = firstBlocked (addresses resolve url) := by
  rw [blockedHop, addresses]
  cases ipLiteral url with
  | some ip => rfl
  | none =>
      rcases hostPort url with e | ⟨host, port⟩
      · rfl
      · show (resolve host port).toOption.bind firstBlocked = firstBlocked ((resolve host port).toOption.getD [])
        cases resolve host port <;> rfl

/-- A host that is at an address is refused for the first that is blocked, or not at all. -/
theorem refuseBlockedHost_eq (somewhere : addresses resolve url ≠ []) :
    refuseBlockedHost resolve url =
      match firstBlocked (addresses resolve url) with
      | some ip => .error (pointsAtPrivate url ip)
      | none => .ok () := by
  revert somewhere
  rw [addresses, refuseBlockedHost]
  cases ipLiteral url with
  | some ip => exact fun _ => rfl
  | none =>
      rcases hostPort url with e | ⟨host, port⟩
      · exact fun somewhere => absurd rfl somewhere
      · dsimp only
        cases resolve host port with
        | error e => exact fun somewhere => absurd rfl somewhere
        | ok addrs => exact fun _ => rfl

theorem refused_iff (somewhere : addresses resolve url ≠ []) :
    (∃ e, refuseBlockedHost resolve url = .error e) ↔ firstBlocked (addresses resolve url) ≠ none := by
  rw [refuseBlockedHost_eq somewhere]
  cases firstBlocked (addresses resolve url) <;> simp

/-- Off the endpoint the chain started at, a hop is followed if no address is found blocked. -/
theorem redirectPolicy_off {previous : List Url}
    (off : (previous.head?.any fun origin => sameEndpoint origin url) = false) :
    redirectPolicy resolve previous url = .follow ↔
      previous.length < 5 ∧ firstBlocked (addresses resolve url) = none := by
  rw [redirectPolicy, blockedHop_eq, off]
  by_cases many : 5 ≤ previous.length
  · simp [many]
  · cases firstBlocked (addresses resolve url) <;> simp [many, Nat.lt_of_not_le many]

variable (resolve url)

/-- A reserved address is neither asked nor followed to: not as the URL of an artifact that its upstream's
content chose, not as a hop off the endpoint that a chain of redirects started at. -/
structure KeptOut : Prop where
  refused : ∃ e, refuseBlockedHost resolve url = .error e
  unasked : ∀ {A : Type} (s : Strategy A) (up : Upstream) (a : A), s.upstreamUrl up a = .ok url →
    s.urlSource up a = .content false → ∃ e, guardedUrl resolve s up a = .error e
  unfollowed : ∀ previous : List Url, (previous.head?.any fun origin => sameEndpoint origin url) = false →
    redirectPolicy resolve previous url ≠ .follow

variable {resolve url}

theorem keptOut_of_found (found : firstBlocked (addresses resolve url) ≠ none) : KeptOut resolve url := by
  have somewhere : addresses resolve url ≠ [] := fun nowhere => found (by rw [nowhere]; rfl)
  have refused := (refused_iff somewhere).2 found
  refine ⟨refused, fun s up a chosen content => ?_, fun previous off followed => ?_⟩
  · obtain ⟨e, refused⟩ := refused
    exact ⟨e, by simp [guardedUrl, chosen, content, refused, bind, Except.bind]⟩
  · exact found ((redirectPolicy_off off).1 followed).2

theorem judged_of_followed {hop : Resolver × Url} {previous : List Url} {hops : List (Resolver × Url)} :
    hop ∈ followed previous hops →
      hop ∈ hops ∧ ∃ between, redirectPolicy hop.1 (previous ++ between) hop.2 = .follow := by
  induction hops generalizing previous with
  | nil => simp [followed]
  | cons first rest ih =>
      obtain ⟨resolve, url⟩ := first
      rw [followed]
      cases answer : redirectPolicy resolve previous url with
      | stop => simp
      | error why => simp
      | follow =>
          intro mem
          obtain rfl | later := List.mem_cons.1 mem
          · exact ⟨List.mem_cons_self, [], by rw [List.append_nil]; exact answer⟩
          · obtain ⟨mem, between, judged⟩ := ih later
            exact ⟨List.mem_cons_of_mem _ mem, url :: between, by simpa using judged⟩

/-- Reserved addresses are kept out exactly where none of them slips through: no address is an IPv6 address that
carries a blocked IPv4 address, or another of the host's addresses is blocked itself. Chains of redirects whose
hops are such reach no reserved address off the endpoint they started at. -/
theorem reserved_kept_out_iff (resolve : Resolver) (url start : Url) (hops : List (Resolver × Url)) :
    (((∃ ip ∈ addresses resolve url, Reserved ip) → KeptOut resolve url) ↔
      slips (addresses resolve url) = false) ∧
    ((∀ hop ∈ hops, slips (addresses hop.1 hop.2) = false) →
      ∀ hop ∈ followed [start] hops, sameEndpoint start hop.2 = false →
        ∀ ip ∈ addresses hop.1 hop.2, ¬Reserved ip) := by
  constructor
  · rw [← found_iff]
    refine ⟨fun kept reserved => ?_, fun found reserved => keptOut_of_found (found reserved)⟩
    have somewhere : addresses resolve url ≠ [] := by
      obtain ⟨ip, mem, -⟩ := reserved
      exact List.ne_nil_of_mem mem
    exact (refused_iff somewhere).1 (kept reserved).refused
  · intro sound hop mem off ip at_ reserved
    obtain ⟨asked, between, judged⟩ := judged_of_followed mem
    have found := found_iff.2 (sound hop asked) ⟨ip, at_, reserved⟩
    exact found ((redirectPolicy_off (by simpa using off)).1 judged).2

/-- `http://[::ffff:7f00:1]/`, the loopback address carried by an IPv6 address. -/
def carriedLoopback : Url := ⟨"http".toList, some "[::ffff:7f00:1]".toList, none, "/".toList, none⟩

/-- It is asked and followed to. -/
theorem carried_loopback_is_reached :
    ¬∀ resolve url, (∃ ip ∈ addresses resolve url, Reserved ip) → KeptOut resolve url := by
  intro kept
  have literal : ipLiteral carriedLoopback = some (.v6 (.ofMapped ⟨127, 0, 0, 1⟩)) := by decide +kernel
  have at_ (resolve : Resolver) : addresses resolve carriedLoopback = [.v6 (.ofMapped ⟨127, 0, 0, 1⟩)] := by
    rw [addresses, literal]
  obtain ⟨e, refused⟩ := (kept (fun _ _ => .ok []) carriedLoopback ⟨.v6 _, by rw [at_]; exact List.mem_singleton.2 rfl,
    ReservedV6.mapped (Lib.toIpv4Mapped_ofMapped _) (.loopback 0 0 1)⟩).refused
  rw [refuseBlockedHost, literal] at refused
  cases refused

end Hosts

end OpenCargo.Proxy.Guard
