/-
Numbers as octets of a fixed width, in either order.
-/
import Mathlib.Data.List.Basic
import Mathlib.Tactic.Common
import Mathlib.Tactic.Ring

namespace Endian

open List

/-- The `w` lowest octets of a number, the least significant first. -/
def little : Nat → Nat → List UInt8
  | 0, _ => []
  | w + 1, n => UInt8.ofNat n :: little w (n / 256)

def ofLittle : List UInt8 → Nat
  | [] => 0
  | b :: rest => b.toNat + 256 * ofLittle rest

/-- The `w` lowest octets of a number, the most significant first. -/
def big (w n : Nat) : List UInt8 := (little w n).reverse

def ofBig (l : List UInt8) : Nat := ofLittle l.reverse

@[simp] theorem length_little (w n : Nat) : (little w n).length = w := by
  induction w generalizing n with
  | zero => rfl
  | succ w ih => rw [little, length_cons, ih]

@[simp] theorem length_big (w n : Nat) : (big w n).length = w := by
  rw [big, length_reverse, length_little]

theorem ofLittle_little (w n : Nat) : ofLittle (little w n) = n % 256 ^ w := by
  induction w generalizing n with
  | zero => rw [little, ofLittle, Nat.pow_zero, Nat.mod_one]
  | succ w ih =>
    have hpow : 256 ^ (w + 1) = 256 * 256 ^ w := Nat.pow_succ'
    rw [little, ofLittle, ih, UInt8.toNat_ofNat', hpow, Nat.mod_mul]

theorem ofBig_big (w n : Nat) : ofBig (big w n) = n % 256 ^ w := by
  rw [ofBig, big, reverse_reverse, ofLittle_little]

theorem ofLittle_lt (l : List UInt8) : ofLittle l < 256 ^ l.length := by
  induction l with
  | nil => exact Nat.one_pos
  | cons b rest ih =>
    have hb : b.toNat < 256 := b.toNat_lt
    rw [ofLittle, length_cons, Nat.pow_succ']
    omega

theorem ofLittle_append (l l' : List UInt8) :
    ofLittle (l ++ l') = ofLittle l + 256 ^ l.length * ofLittle l' := by
  induction l with
  | nil => simp [ofLittle]
  | cons b rest ih =>
    rw [cons_append, ofLittle, ofLittle, ih, length_cons, Nat.pow_succ']
    ring

theorem ofLittle_zeros (n : Nat) : ofLittle (replicate n 0) = 0 := by
  induction n with
  | zero => rfl
  | succ n ih => rw [replicate_succ, ofLittle, ih, UInt8.toNat_zero]

theorem little_ofLittle (l : List UInt8) : little l.length (ofLittle l) = l := by
  induction l with
  | nil => rfl
  | cons b rest ih =>
    have hb : b.toNat < 256 := b.toNat_lt
    have hhead : UInt8.ofNat (b.toNat + 256 * ofLittle rest) = b := by
      apply UInt8.toNat.inj
      rw [UInt8.toNat_ofNat']
      omega
    have htail : (b.toNat + 256 * ofLittle rest) / 256 = ofLittle rest := by omega
    rw [length_cons, ofLittle, little, hhead, htail, ih]

theorem ofLittle_inj {l l' : List UInt8} (hlen : l.length = l'.length)
    (h : ofLittle l = ofLittle l') : l = l' := by
  rw [← little_ofLittle l, hlen, h, little_ofLittle]

theorem little_inj {w n m : Nat} (hn : n < 256 ^ w) (hm : m < 256 ^ w) :
    little w n = little w m ↔ n = m := by
  constructor
  · intro h
    have hmod := congrArg ofLittle h
    rwa [ofLittle_little, ofLittle_little, Nat.mod_eq_of_lt hn, Nat.mod_eq_of_lt hm] at hmod
  · intro h
    rw [h]

theorem big_inj {w n m : Nat} (hn : n < 256 ^ w) (hm : m < 256 ^ w) :
    big w n = big w m ↔ n = m := by
  rw [big, big, reverse_inj, little_inj hn hm]

end Endian
