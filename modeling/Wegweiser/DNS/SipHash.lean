/-
The hash of a server cookie is SipHash-2-4.
-/
import Wegweiser.Lib.SipHash
import Wegweiser.DNS.Cookie

namespace Wegweiser.DNS

open List Endian

def SipState.spec (s : SipState) : SipHash.State := ⟨s.v0, s.v1, s.v2, s.v3⟩

theorem sipBlock_spec (s : SipState) (m : BitVec 64) :
    (sipBlock s m).spec = SipHash.compress 2 s.spec m := rfl

theorem leWord_cons (b : UInt8) (l : Octets) :
    leWord (b :: l) = BitVec.ofNat 64 b.toNat ||| leWord l <<< 8 := by
  have hb : b.toNat < 2 ^ 8 := b.toNat_lt
  apply BitVec.eq_of_toNat_eq
  have hshift : (ofLittle l % 2 ^ 64) <<< 8 % 2 ^ 64 = 2 ^ 8 * (ofLittle l % 2 ^ 56) := by
    rw [Nat.shiftLeft_eq]
    omega
  rw [leWord, leWord, ofLittle, BitVec.toNat_or, BitVec.toNat_shiftLeft, BitVec.toNat_ofNat,
    BitVec.toNat_ofNat, BitVec.toNat_ofNat, hshift, Nat.or_comm,
    Nat.mod_eq_of_lt (hb.trans (by decide)), ← Nat.two_pow_add_eq_or_of_lt hb]
  omega

/-- The octets of the last block come in one by one. -/
theorem foldl_octets (l : Octets) (k : Nat) (last : BitVec 64) :
    (l.zipIdx k).foldl (fun last b => last ||| BitVec.ofNat 64 b.1.toNat <<< (8 * b.2)) last =
      last ||| leWord l <<< (8 * k) := by
  induction l generalizing k last with
  | nil => simp [leWord, ofLittle]
  | cons b l ih =>
    rw [zipIdx_cons, foldl_cons, ih, leWord_cons, BitVec.shiftLeft_or_distrib,
      ← BitVec.shiftLeft_add, BitVec.or_assoc, Nat.mul_succ, Nat.add_comm 8]

/-- The last block is the last word. -/
theorem last_word {rest : Octets} {length : Nat} (h : rest.length = length % 8) :
    BitVec.ofNat 64 length <<< 56 ||| leWord rest = leWord (rest ++ SipHash.padding length) := by
  have hlt : ofLittle rest < 2 ^ 56 := by
    refine (ofLittle_lt rest).trans_le ?_
    rw [show 2 ^ 56 = 256 ^ 7 by decide]
    exact Nat.pow_le_pow_right (by decide) (by omega)
  have hlength : rest.length + (7 - length % 8) = 7 := by omega
  have hpadded : ofLittle (rest ++ SipHash.padding length) =
      2 ^ 56 * (length % 256) + ofLittle rest := by
    rw [SipHash.padding, ← append_assoc, ofLittle_append, ofLittle_append,
      ofLittle_zeros, length_append, length_replicate, hlength, ofLittle,
      ofLittle, UInt8.toNat_ofNat']
    omega
  have hshift : (length % 2 ^ 64) <<< 56 % 2 ^ 64 = 2 ^ 56 * (length % 256) := by
    rw [Nat.shiftLeft_eq]
    omega
  apply BitVec.eq_of_toNat_eq
  rw [leWord, leWord, BitVec.toNat_or, BitVec.toNat_shiftLeft, BitVec.toNat_ofNat,
    BitVec.toNat_ofNat, BitVec.toNat_ofNat, hshift, hpadded,
    Nat.mod_eq_of_lt (hlt.trans (by decide)), ← Nat.two_pow_add_eq_or_of_lt hlt]
  omega

/-- The blocks are all the words but the last, whatever stands behind the message. -/
theorem sipBlocks_spec (s : SipState) (msg more : Octets) :
    (sipBlocks s msg).1.spec = ((range (msg.length / 8)).map
        (SipHash.word (msg ++ more))).foldl (SipHash.compress 2) s.spec ∧
      (sipBlocks s msg).2 = msg.drop (8 * (msg.length / 8)) := by
  fun_induction sipBlocks s msg with
  | case1 s a b c d e f g h rest ih =>
    have hlength : (a :: b :: c :: d :: e :: f :: g :: h :: rest).length / 8 = rest.length / 8 + 1 := by
      simp only [length_cons]
      omega
    have hshift : SipHash.word (a :: b :: c :: d :: e :: f :: g :: h :: rest ++ more) ∘ Nat.succ =
        SipHash.word (rest ++ more) := by
      funext i
      rw [Function.comp_apply, SipHash.word, Nat.mul_succ, Nat.add_comm, ← drop_drop]
      rfl
    rw [hlength, range_succ_eq_map, map_cons, map_map, hshift, foldl_cons,
      Nat.mul_succ, Nat.add_comm, ← drop_drop]
    exact ih
  | case2 s rest hshort =>
    have hlt : rest.length < 8 := by
      match rest, hshort with
      | [], _ | [_], _ | [_, _], _ | [_, _, _], _ | [_, _, _, _], _ | [_, _, _, _, _], _
      | [_, _, _, _, _, _], _ | [_, _, _, _, _, _, _], _ => simp
      | a :: b :: c :: d :: e :: f :: g :: h :: rest, hshort => cases hshort a b c d e f g h rest rfl
    rw [Nat.div_eq_of_lt hlt]
    exact ⟨rfl, rfl⟩

/-- For every key and every message, the hash is the one the specification defines. -/
theorem sipHash24_eq_spec (k0 k1 : BitVec 64) (msg : Octets) :
    sipHash24 k0 k1 msg = SipHash.hash 2 4 k0 k1 msg := by
  obtain ⟨hblocks, hrest⟩ := sipBlocks_spec
    ⟨k0 ^^^ 0x736f6d6570736575, k1 ^^^ 0x646f72616e646f6d, k0 ^^^ 0x6c7967656e657261,
      k1 ^^^ 0x7465646279746573⟩ msg (SipHash.padding msg.length)
  have hlast : SipHash.word (msg ++ SipHash.padding msg.length) (msg.length / 8) =
      BitVec.ofNat 64 msg.length <<< 56 ||| leWord (msg.drop (8 * (msg.length / 8))) := by
    have hlength : (msg.drop (8 * (msg.length / 8))).length = msg.length % 8 := by
      rw [length_drop]
      omega
    rw [last_word hlength, SipHash.word, leWord, drop_append_of_le_length (by omega),
      take_of_length_le]
    rw [length_append, hlength, SipHash.padding, length_append, length_replicate,
      length_singleton]
    omega
  rw [SipHash.hash, SipHash.words, range_succ, map_append, foldl_append,
    map_singleton, foldl_cons, foldl_nil, hlast]
  change SipHash.finish 4 (sipBlock (sipBlocks _ msg).1 (foldl _ _
    (zipIdx (sipBlocks _ msg).2))).spec = _
  rw [sipBlock_spec, hblocks, hrest, foldl_octets, Nat.mul_zero, BitVec.shiftLeft_zero]
  rfl

end Wegweiser.DNS
