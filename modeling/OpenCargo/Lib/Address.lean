/-
Module: OpenCargo.Lib.Address
Purpose: Internet addresses: the two families and their reserved blocks, the IPv4 address an IPv6 address may
  carry, and the texts that are read and printed for either.
Trusted boundary: none
Main exports: IpAddr.spelled, and_block, masked_eq_iff, segments_of_mapped
-/
import Mathlib

namespace OpenCargo.Lib

/-- `Ipv4Addr`, by its octets. -/
structure Ipv4Addr where
  a : UInt8
  b : UInt8
  c : UInt8
  d : UInt8
deriving Repr, DecidableEq, Inhabited

/-- `Ipv6Addr`, by its segments. -/
structure Ipv6Addr where
  s0 : UInt16
  s1 : UInt16
  s2 : UInt16
  s3 : UInt16
  s4 : UInt16
  s5 : UInt16
  s6 : UInt16
  s7 : UInt16
deriving Repr, DecidableEq, Inhabited

inductive IpAddr where
  | v4 (addr : Ipv4Addr)
  | v6 (addr : Ipv6Addr)
deriving Repr, DecidableEq, Inhabited

namespace Ipv4Addr

variable (ip : Ipv4Addr)

/-- `is_private`: 10/8, 172.16/12 and 192.168/16. -/
def isPrivate : Bool :=
  ip.a = 10 || ip.a = 172 && 16 ≤ ip.b && ip.b ≤ 31 || ip.a = 192 && ip.b = 168

/-- `is_loopback`: 127/8. -/
def isLoopback : Bool := ip.a = 127

/-- `is_link_local`: 169.254/16. -/
def isLinkLocal : Bool := ip.a = 169 && ip.b = 254

/-- `is_unspecified`. -/
def isUnspecified : Bool := ip = ⟨0, 0, 0, 0⟩

/-- `is_broadcast`. -/
def isBroadcast : Bool := ip = ⟨255, 255, 255, 255⟩

def decimal (n : Nat) : List Char := (toString n).toList

def spelled : List Char :=
  decimal ip.a.toNat ++ '.' :: decimal ip.b.toNat ++ '.' :: decimal ip.c.toNat ++ '.' :: decimal ip.d.toNat

end Ipv4Addr

namespace Ipv6Addr

variable (ip : Ipv6Addr)

def segments : List UInt16 := [ip.s0, ip.s1, ip.s2, ip.s3, ip.s4, ip.s5, ip.s6, ip.s7]

def ofSegments : List UInt16 → Option Ipv6Addr
  | [s0, s1, s2, s3, s4, s5, s6, s7] => some ⟨s0, s1, s2, s3, s4, s5, s6, s7⟩
  | _ => none

@[simp] theorem ofSegments_segments : ofSegments ip.segments = some ip := rfl

def isLoopback : Bool := ip = ⟨0, 0, 0, 0, 0, 0, 0, 1⟩

def isUnspecified : Bool := ip = ⟨0, 0, 0, 0, 0, 0, 0, 0⟩

/-- `to_ipv4_mapped`: the address `::ffff:0:0/96` carries. -/
def toIpv4Mapped : Option Ipv4Addr :=
  if ip.s0 = 0 ∧ ip.s1 = 0 ∧ ip.s2 = 0 ∧ ip.s3 = 0 ∧ ip.s4 = 0 ∧ ip.s5 = 0xffff then
    some ⟨(ip.s6 >>> 8).toUInt8, ip.s6.toUInt8, (ip.s7 >>> 8).toUInt8, ip.s7.toUInt8⟩
  else none

/-- `to_ipv6_mapped`, its inverse. -/
def ofMapped (v4 : Ipv4Addr) : Ipv6Addr :=
  ⟨0, 0, 0, 0, 0, 0xffff, v4.a.toUInt16 <<< 8 ||| v4.b.toUInt16, v4.c.toUInt16 <<< 8 ||| v4.d.toUInt16⟩

def hexadecimal (n : UInt16) : List Char := Nat.toDigits 16 n.toNat

def colons (segments : List UInt16) : List Char := [':'].intercalate (segments.map hexadecimal)

/-- The first of the longest runs of zeros: where it starts and how long it is. -/
def zeros (segments : List UInt16) : Nat × Nat :=
  (segments.zipIdx.foldl
    (fun (longest, current) (segment, i) =>
      if segment = 0 then
        let run := (if current.2 = 0 then i else current.1, current.2 + 1)
        (if longest.2 < run.2 then run else longest, run)
      else (longest, (0, 0)))
    ((0, 0), (0, 0))).1

def spelled : List Char :=
  match ip.toIpv4Mapped with
  | some v4 => "::ffff:".toList ++ v4.spelled
  | none =>
      let run := zeros ip.segments
      if 1 < run.2 then
        colons (ip.segments.take run.1) ++ "::".toList ++ colons (ip.segments.drop (run.1 + run.2))
      else colons ip.segments

end Ipv6Addr

def IpAddr.spelled : IpAddr → List Char
  | .v4 addr => addr.spelled
  | .v6 addr => addr.spelled

section Reading

/-- `char::to_digit`. -/
def digitOf (radix : Nat) (c : Char) : Option Nat :=
  let value :=
    if c.isDigit then some (c.toNat - '0'.toNat)
    else if 'a' ≤ c ∧ c ≤ 'z' then some (c.toNat - 'a'.toNat + 10)
    else if 'A' ≤ c ∧ c ≤ 'Z' then some (c.toNat - 'A'.toNat + 10)
    else none
  value.filter (· < radix)

/-- `read_number`: the digits there are, at most `most` of them, and what follows. -/
def readNumber (radix most : Nat) (zeroPrefix : Bool) (text : List Char) : Option (Nat × List Char) :=
  let digits := text.takeWhile fun c => (digitOf radix c).isSome
  if most < digits.length ∨ digits = [] then none
  else if ¬zeroPrefix ∧ digits.head? = some '0' ∧ 1 < digits.length then none
  else some (digits.foldl (fun value c => value * radix + (digitOf radix c).getD 0) 0, text.drop digits.length)

/-- `read_separator`: all but the first are after one. -/
def readSeparated {α : Type} (separator : Char) (first : Bool) (inner : List Char → Option (α × List Char))
    (text : List Char) : Option (α × List Char) :=
  if first then inner text
  else match text with
    | c :: rest => if c = separator then inner rest else none
    | [] => none

/-- An octet: no octal spelling, none above 255. -/
def readOctet (text : List Char) : Option (UInt8 × List Char) :=
  (readNumber 10 3 false text).bind fun (n, rest) => if n < 256 then some (UInt8.ofNat n, rest) else none

def readIpv4 (text : List Char) : Option (Ipv4Addr × List Char) := do
  let (a, text) ← readSeparated '.' true readOctet text
  let (b, text) ← readSeparated '.' false readOctet text
  let (c, text) ← readSeparated '.' false readOctet text
  let (d, text) ← readSeparated '.' false readOctet text
  pure (⟨a, b, c, d⟩, text)

def readSegment (text : List Char) : Option (UInt16 × List Char) :=
  (readNumber 16 4 true text).map fun (n, rest) => (UInt16.ofNat n, rest)

/-- `read_groups`: at most `left` segments, the last two of which may be spelled as an IPv4 address. -/
def readGroups : Nat → Bool → List Char → List UInt16 × Bool × List Char
  | 0, _, text => ([], false, text)
  | left + 1, first, text =>
      match if 1 ≤ left then readSeparated ':' first readIpv4 text else none with
      | some (v4, rest) =>
          ([v4.a.toUInt16 <<< 8 ||| v4.b.toUInt16, v4.c.toUInt16 <<< 8 ||| v4.d.toUInt16], true, rest)
      | none =>
          match readSeparated ':' first readSegment text with
          | some (segment, rest) =>
              let (segments, v4, rest) := readGroups left false rest
              (segment :: segments, v4, rest)
          | none => ([], false, text)

/-- `read_ipv6_addr`: eight segments, or `::` for the zeros that make them eight. -/
def readIpv6 (text : List Char) : Option (Ipv6Addr × List Char) :=
  match readGroups 8 true text with
  | (head, v4, rest) =>
      if head.length = 8 then (Ipv6Addr.ofSegments head).map fun ip => (ip, rest)
      else if v4 then none
      else match rest with
        | ':' :: ':' :: rest =>
            match readGroups (7 - head.length) true rest with
            | (tail, _, rest) =>
                let zeros := List.replicate (8 - head.length - tail.length) 0
                (Ipv6Addr.ofSegments (head ++ zeros ++ tail)).map fun ip => (ip, rest)
        | _ => none

/-- `str::parse::<IpAddr>`. -/
def readIpAddr (text : List Char) : Option IpAddr :=
  ((readIpv4 text).map fun (ip, rest) => (IpAddr.v4 ip, rest)).or
      ((readIpv6 text).map fun (ip, rest) => (IpAddr.v6 ip, rest))
    |>.bind fun (ip, rest) => if rest = [] then some ip else none

example : readIpAddr "::ffff:10.0.0.1".toList = some (.v6 (.ofMapped ⟨10, 0, 0, 1⟩)) := by decide +kernel

end Reading

section Blocks

/-- What a mask keeps is a number's block. -/
theorem and_block (x k w : Nat) : x &&& ((2 ^ w - 1) <<< k) = (x / 2 ^ k % 2 ^ w) <<< k := by
  refine Nat.eq_of_testBit_eq fun i => ?_
  rw [Nat.testBit_and, Nat.testBit_shiftLeft, Nat.testBit_shiftLeft, Nat.testBit_two_pow_sub_one,
    Nat.testBit_mod_two_pow, Nat.testBit_div_two_pow]
  by_cases above : k ≤ i
  · rw [Nat.sub_add_cancel above]
    simp [above, Bool.and_comm]
  · simp [above]

theorem masked_eq_iff {x k w v : Nat} (small : x < 2 ^ (k + w)) :
    x &&& ((2 ^ w - 1) <<< k) = v <<< k ↔ x / 2 ^ k = v := by
  have low : x / 2 ^ k < 2 ^ w := by
    rw [Nat.div_lt_iff_lt_mul (Nat.two_pow_pos k), ← Nat.pow_add, Nat.add_comm]
    exact small
  rw [and_block, Nat.mod_eq_of_lt low, Nat.shiftLeft_eq, Nat.shiftLeft_eq]
  exact ⟨Nat.eq_of_mul_eq_mul_right (Nat.two_pow_pos k), congrArg (· * 2 ^ k)⟩

end Blocks

/-- An address that carries another starts with five zeros and ones. -/
theorem segments_of_mapped {ip : Ipv6Addr} {v4 : Ipv4Addr} (mapped : ip.toIpv4Mapped = some v4) :
    ip.s0 = 0 ∧ ip.s5 = 0xffff := by
  rw [Ipv6Addr.toIpv4Mapped] at mapped
  split at mapped
  · rename_i leading
    exact ⟨leading.1, leading.2.2.2.2.2⟩
  · cases mapped

/-- Two octets are put in a segment and taken out of it. -/
theorem byteHalves (a b : UInt8) :
    ((a.toUInt16 <<< 8 ||| b.toUInt16) >>> 8).toUInt8 = a ∧ (a.toUInt16 <<< 8 ||| b.toUInt16).toUInt8 = b := by
  have low := b.toNat_lt
  have high := a.toNat_lt
  have whole : (a.toUInt16 <<< 8 ||| b.toUInt16).toNat = a.toNat * 2 ^ 8 + b.toNat := by
    have fits : a.toNat * 2 ^ 8 % 2 ^ 16 = a.toNat * 2 ^ 8 := Nat.mod_eq_of_lt (by omega)
    rw [UInt16.toNat_or, UInt16.toNat_shiftLeft, UInt8.toNat_toUInt16, UInt8.toNat_toUInt16, Nat.shiftLeft_eq]
    simp only [UInt16.reduceToNat, Nat.reduceMod]
    rw [fits, ← Nat.shiftLeft_eq, ← Nat.shiftLeft_add_eq_or_of_lt low, Nat.shiftLeft_eq]
  constructor <;> rw [← UInt8.toNat_inj, UInt16.toNat_toUInt8]
  · rw [UInt16.toNat_shiftRight, whole, Nat.shiftRight_eq_div_pow]
    simp only [UInt16.reduceToNat, Nat.reduceMod]
    omega
  · rw [whole]
    omega

@[simp] theorem toIpv4Mapped_ofMapped (v4 : Ipv4Addr) : (Ipv6Addr.ofMapped v4).toIpv4Mapped = some v4 := by
  rw [Ipv6Addr.toIpv4Mapped, if_pos ⟨rfl, rfl, rfl, rfl, rfl, rfl⟩]
  simp only [Ipv6Addr.ofMapped, byteHalves]

end OpenCargo.Lib
