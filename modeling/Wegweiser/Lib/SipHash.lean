/-
SipHash-c-d as it is specified.

The octets of a message are filled up with zeros and its length modulo 256 to whole 64-bit words,
the least significant octet first.  Each word goes in with `c` rounds, and `d` rounds end it.
-/
import Wegweiser.Lib.Endian

namespace SipHash

/-- The four words of the state. -/
structure State where
  v0 : BitVec 64
  v1 : BitVec 64
  v2 : BitVec 64
  v3 : BitVec 64

def round (s : State) : State :=
  let (v0, v2) := (s.v0 + s.v1, s.v2 + s.v3)
  let (v1, v3) := (s.v1.rotateLeft 13 ^^^ v0, s.v3.rotateLeft 16 ^^^ v2)
  let v0 := v0.rotateLeft 32
  let (v2, v0) := (v2 + v1, v0 + v3)
  let (v1, v3) := (v1.rotateLeft 17 ^^^ v2, v3.rotateLeft 21 ^^^ v0)
  ⟨v0, v1, v2.rotateLeft 32, v3⟩

def start (k0 k1 : BitVec 64) : State :=
  ⟨k0 ^^^ 0x736f6d6570736575, k1 ^^^ 0x646f72616e646f6d, k0 ^^^ 0x6c7967656e657261,
    k1 ^^^ 0x7465646279746573⟩

def compress (c : Nat) (s : State) (m : BitVec 64) : State :=
  let s := round^[c] { s with v3 := s.v3 ^^^ m }
  { s with v0 := s.v0 ^^^ m }

def finish (d : Nat) (s : State) : BitVec 64 :=
  let s := round^[d] { s with v2 := s.v2 ^^^ 0xff }
  s.v0 ^^^ s.v1 ^^^ s.v2 ^^^ s.v3

def padding (length : Nat) : List UInt8 :=
  List.replicate (7 - length % 8) 0 ++ [UInt8.ofNat length]

def word (l : List UInt8) (i : Nat) : BitVec 64 :=
  BitVec.ofNat 64 (Endian.ofLittle ((l.drop (8 * i)).take 8))

def words (msg : List UInt8) : List (BitVec 64) :=
  (List.range (msg.length / 8 + 1)).map (word (msg ++ padding msg.length))

def hash (c d : Nat) (k0 k1 : BitVec 64) (msg : List UInt8) : BitVec 64 :=
  finish d ((words msg).foldl (compress c) (start k0 k1))

end SipHash
