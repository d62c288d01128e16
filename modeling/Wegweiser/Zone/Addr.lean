/-
Addresses and networks, as `net/netip` has them.

An address is its bits; only an IPv6 address can carry a scope zone.
-/
import Wegweiser.Zone.Name

namespace Wegweiser

open List

inductive Addr where
  | v4 (bits : BitVec 32)
  | v6 (bits : BitVec 128) (scope : Octets)
deriving DecidableEq

/-- `netip.Prefix`, valid ones only; the zero prefix is `none` where it can
occur. -/
inductive Prefix where
  | v4 (addr : BitVec 32) (len : Nat)
  | v6 (addr : BitVec 128) (len : Nat)
deriving DecidableEq

namespace Addr

def is4 : Addr → Bool
  | v4 _ => true
  | v6 _ _ => false

/-- `Addr.Unmap`: an IPv4-mapped IPv6 address becomes the IPv4 address. -/
def unmap : Addr → Addr
  | v4 bits => v4 bits
  | v6 bits scope =>
    if bits.toNat / 2 ^ 32 = 0xffff then v4 (BitVec.ofNat 32 bits.toNat)
    else v6 bits scope

def column (addr : Addr) : Addr :=
  match addr.unmap with
  | v4 bits => v4 bits
  | v6 bits _ => v6 bits []

def octets : Addr → List Nat
  | v4 bits => (range 4).map fun i => bits.toNat / 2 ^ (8 * (3 - i)) % 256
  | v6 bits _ => (range 16).map fun i => bits.toNat / 2 ^ (8 * (15 - i)) % 256

end Addr

namespace Prefix

def bits : Prefix → Nat
  | v4 _ len => len
  | v6 _ len => len

def addr : Prefix → Addr
  | v4 a _ => .v4 a
  | v6 a _ => .v6 a []

def masked : Prefix → Prefix
  | v4 a len => v4 (BitVec.ofNat 32 (a.toNat / 2 ^ (32 - len) * 2 ^ (32 - len))) len
  | v6 a len => v6 (BitVec.ofNat 128 (a.toNat / 2 ^ (128 - len) * 2 ^ (128 - len))) len

/-- `Prefix.Contains`: never across families, and never an address with a scope
zone. -/
def contains : Prefix → Addr → Bool
  | v4 a len, .v4 b => decide (a.toNat / 2 ^ (32 - len) = b.toNat / 2 ^ (32 - len))
  | v6 a len, .v6 b scope =>
    scope.isEmpty && decide (a.toNat / 2 ^ (128 - len) = b.toNat / 2 ^ (128 - len))
  | _, _ => false

end Prefix

/-- One field of dotted decimal: one to three digits, no leading zero, at most
255. -/
def parseOctet (field : Octets) : Option Nat :=
  if field.isEmpty || !field.all isDigit then none
  else if 1 < field.length && field.head? == some 48 then none
  else parseUint 8 field

def parseIPv4Fields (s : Octets) : Option (List Nat) :=
  match splitOctets 46 s with
  | [a, b, c, d] => do
      let a ← parseOctet a
      let b ← parseOctet b
      let c ← parseOctet c
      let d ← parseOctet d
      some [a, b, c, d]
  | _ => none

def hexDigit (c : UInt8) : Option Nat :=
  if isDigit c then some (c.toNat - 48)
  else if decide (97 ≤ c) && decide (c ≤ 102) then some (c.toNat - 87)
  else if decide (65 ≤ c) && decide (c ≤ 70) then some (c.toNat - 55)
  else none

def parseGroup (digits : Octets) : Option (List Nat) :=
  if digits.isEmpty || 4 < digits.length then none
  else
    let v := digits.foldl (fun n c => n * 16 + (hexDigit c).getD 0) 0
    some [v / 256, v % 256]

/-- The field loop of `netip.parseIPv6`.  `done` are the octets read so far and
`gap` where the `::` stood; the result is both at the end of the text. -/
def parseIPv6Fields : Nat → List Nat → Option Nat → Octets →
    Option (List Nat × Option Nat)
  | 0, _, _, _ => none
  | fuel + 1, done, gap, s =>
    if 16 ≤ done.length then none
    else
      let digits := s.takeWhile fun c => (hexDigit c).isSome
      let rest := s.drop digits.length
      match parseGroup digits with
      | none => none
      | some group =>
        match rest with
        | [] => some (done ++ group, gap)
        | c :: rest₁ =>
          if c = 46 then
            -- the last four octets may be written as an IPv4 address
            if (gap.isNone && done.length != 12) || 16 < done.length + 4 then none
            else (parseIPv4Fields s).map fun tail => (done ++ tail, gap)
          else if c = 58 then
            match rest₁ with
            | [] => none
            | d :: rest₂ =>
              if d = 58 then
                if gap.isSome then none
                else if rest₂.isEmpty then
                  some (done ++ group, some (done.length + 2))
                else
                  parseIPv6Fields fuel (done ++ group)
                    (some (done.length + 2)) rest₂
              else parseIPv6Fields fuel (done ++ group) gap rest₁
          else none

/-- The `::` is widened to the zeros that are missing. -/
def widen (done : List Nat) (gap : Option Nat) : Option (List Nat) :=
  if done.length < 16 then
    gap.map fun at_ => done.take at_ ++ replicate (16 - done.length) 0 ++ done.drop at_
  else if gap.isSome then none
  else some done

def ofOctets (octets : List Nat) : Nat :=
  octets.foldl (fun n o => n * 256 + o) 0

def parseIPv6 (text : Octets) : Option Addr := do
  let s := text.takeWhile (· ≠ 37)
  let scope := text.drop (s.length + 1)
  if s.length < text.length && scope.isEmpty then none
  let octets ←
    match s with
    | 58 :: 58 :: [] => some (replicate 16 0)
    | 58 :: 58 :: rest => do
        let (done, gap) ← parseIPv6Fields 9 [] (some 0) rest
        widen done gap
    | _ => do
        let (done, gap) ← parseIPv6Fields 9 [] none s
        widen done gap
  some (.v6 (BitVec.ofNat 128 (ofOctets octets)) scope)

/-- `netip.ParseAddr`: the first separator decides the family. -/
def parseAddr (s : Octets) : Option Addr :=
  match s.find? fun c => c == 46 || c == 58 || c == 37 with
  | some 46 => (parseIPv4Fields s).map fun o => .v4 (BitVec.ofNat 32 (ofOctets o))
  | some 58 => parseIPv6 s
  | _ => none

end Wegweiser
