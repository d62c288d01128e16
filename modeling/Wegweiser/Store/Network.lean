/-
Ranges of addresses: the network of a prefix is one range of the column the addresses of records
are kept in.
-/
import Mathlib.Tactic.IntervalCases
import Mathlib.Tactic.Ring
import Wegweiser.Lib.Sorted
import Wegweiser.Zone.Addr

namespace Wegweiser

open List Nat

/-- An octet of the last address of a network: what the prefix does not cover is set. -/
def lastOctet (bits i c : Nat) : Nat :=
  if bits ≤ 8 * i then 255
  else if bits < 8 * i + 8 then c ||| (2 ^ (8 * i + 8 - bits) - 1)
  else c

def prefixBounds (p : Prefix) : List Nat × List Nat :=
  let lo := p.masked.addr.octets
  (lo, lo.mapIdx (lastOctet p.bits))

/-- `addr IS NOT NULL AND length(addr) = ? AND addr BETWEEN ? AND ?` -/
def addrBetween (bounds : List Nat × List Nat) : Option (List Nat) → Bool
  | none => false
  | some addr =>
    addr.length == bounds.1.length && decide (bounds.1 ≤ addr) && decide (addr ≤ bounds.2)

/-- The `n` lowest octets of a number, the most significant first. -/
def bigOctets (n v : Nat) : List Nat :=
  (range n).map fun i => v / 2 ^ (8 * (n - 1 - i)) % 256

theorem bigOctets_succ (n v : Nat) :
    bigOctets (n + 1) v = v / 2 ^ (8 * n) % 256 :: bigOctets n v := by
  rw [bigOctets, range_succ_eq_map, map_cons, map_map, bigOctets]
  congr 1
  refine map_congr_left fun i _ => ?_
  rw [Function.comp_apply, show n + 1 - 1 - (i + 1) = n - 1 - i by omega]

theorem digits_le_iff {a b r s m : Nat} (hr : r < m) (hs : s < m) :
    r + m * a ≤ s + m * b ↔ a < b ∨ a = b ∧ r ≤ s := by
  rcases lt_trichotomy a b with hlt | rfl | hgt
  · have hmul : m * (a + 1) ≤ m * b := mul_le_mul_left m hlt
    rw [mul_succ] at hmul
    exact ⟨fun _ => .inl hlt, fun _ => by omega⟩
  · simp
  · have hmul : m * (b + 1) ≤ m * a := mul_le_mul_left m hgt
    rw [mul_succ] at hmul
    constructor
    · intro hle
      omega
    · rintro (hlt | ⟨rfl, -⟩) <;> omega

theorem bigOctets_le_iff (n v w : Nat) :
    bigOctets n v ≤ bigOctets n w ↔ v % 2 ^ (8 * n) ≤ w % 2 ^ (8 * n) := by
  induction n with
  | zero => simp [bigOctets, mod_one]
  | succ n ih =>
    have hpow : 2 ^ (8 * (n + 1)) = 2 ^ (8 * n) * 256 := by rw [Nat.mul_succ, Nat.pow_add]
    have hpos : 0 < 2 ^ (8 * n) := Nat.two_pow_pos _
    rw [bigOctets_succ, bigOctets_succ, Rows.cons_le_cons_iff, ih, hpow, mod_mul, mod_mul,
      digits_le_iff (mod_lt _ hpos) (mod_lt _ hpos)]

theorem lastOctet_eq {n i d h len q : Nat} (hd : 8 * i + 8 + d = 8 * n) (hh : h = 8 * n - len) :
    lastOctet len i (q * 2 ^ h / 2 ^ d % 256) = (q * 2 ^ h + (2 ^ h - 1)) / 2 ^ d % 256 := by
  have hpos (k : Nat) : 0 < 2 ^ k := Nat.two_pow_pos k
  -- shifted by less than `h`, the last number of the block is the last of a smaller one
  have hshift (k : Nat) (hk : h = d + k) :
      (q * 2 ^ h + (2 ^ h - 1)) / 2 ^ d = q * 2 ^ k + (2 ^ k - 1) := by
    have hsplit : q * 2 ^ h + (2 ^ h - 1) = 2 ^ d - 1 + 2 ^ d * (q * 2 ^ k + (2 ^ k - 1)) := by
      have hmul : 2 ^ h = 2 ^ d * 2 ^ k := by rw [hk, pow_add]
      have hone : 2 ^ d * (2 ^ k - 1) + 2 ^ d = 2 ^ d * 2 ^ k := by
        rw [← Nat.mul_succ, Nat.succ_eq_add_one, Nat.sub_add_cancel (hpos k)]
      have hd1 := hpos d
      rw [hmul, mul_add, show q * (2 ^ d * 2 ^ k) = 2 ^ d * (q * 2 ^ k) by ring]
      omega
    rw [hsplit, add_mul_div_left _ _ (hpos d), div_eq_of_lt (by have := hpos d; omega),
      zero_add]
  rw [lastOctet]
  split
  · rename_i hcovered
    obtain ⟨e, he⟩ : ∃ e, h = d + (8 + e) := ⟨h - d - 8, by omega⟩
    have he1 := hpos e
    rw [hshift _ he, pow_add]
    rw [show q * (2 ^ 8 * 2 ^ e) = 256 * (q * 2 ^ e) by ring]
    omega
  · split
    · obtain ⟨k, hk⟩ : ∃ k, h = d + k := ⟨h - d, by omega⟩
      have hk8 : k < 8 := by omega
      have hlow : q * 2 ^ h / 2 ^ d = 2 ^ k * q := by
        rw [hk, pow_add, show q * (2 ^ d * 2 ^ k) = 2 ^ d * (2 ^ k * q) by ring,
          Nat.mul_div_cancel_left _ (hpos d)]
      have hmod : 2 ^ k * q % 256 = 2 ^ k * (q % 2 ^ (8 - k)) := by
        rw [show 256 = 2 ^ k * 2 ^ (8 - k) by rw [← Nat.pow_add, Nat.add_sub_cancel' hk8.le],
          mul_mod_mul_left]
      rw [hshift k hk, hlow, hmod, show 8 * i + 8 - len = k by omega,
        ← two_pow_add_eq_or_of_lt (by have := hpos k; omega)]
      interval_cases k <;> omega
    · obtain ⟨e, he⟩ : ∃ e, d = h + e := ⟨d - h, by omega⟩
      have hblock : (q * 2 ^ h + (2 ^ h - 1)) / 2 ^ h = q := by
        rw [add_comm, add_mul_div_right _ _ (hpos h),
          div_eq_of_lt (by have := hpos h; omega), zero_add]
      rw [he, Nat.pow_add, ← Nat.div_div_eq_div_mul, ← Nat.div_div_eq_div_mul, hblock,
        Nat.mul_div_cancel _ (hpos h)]

theorem mapIdx_bigOctets (n len q : Nat) :
    (bigOctets n (q * 2 ^ (8 * n - len))).mapIdx (lastOctet len) =
      bigOctets n (q * 2 ^ (8 * n - len) + (2 ^ (8 * n - len) - 1)) := by
  refine ext_getElem (by simp [bigOctets]) fun i hi _ => ?_
  have hin : i < n := by simpa [bigOctets] using hi
  simp only [getElem_mapIdx, bigOctets, getElem_map, getElem_range]
  exact lastOctet_eq (by omega) rfl

theorem between_block {n len a b : Nat} (ha : a < 2 ^ (8 * n)) (hb : b < 2 ^ (8 * n)) :
    (bigOctets n (a / 2 ^ (8 * n - len) * 2 ^ (8 * n - len)) ≤ bigOctets n b ∧
        bigOctets n b ≤ (bigOctets n (a / 2 ^ (8 * n - len) * 2 ^ (8 * n - len))).mapIdx
          (lastOctet len)) ↔
      a / 2 ^ (8 * n - len) = b / 2 ^ (8 * n - len) := by
  have hpos : 0 < 2 ^ (8 * n - len) := Nat.two_pow_pos _
  have hlast : a / 2 ^ (8 * n - len) * 2 ^ (8 * n - len) + (2 ^ (8 * n - len) - 1) < 2 ^ (8 * n) := by
    have hpow : 2 ^ (8 * n) = 2 ^ (8 * n - (8 * n - len)) * 2 ^ (8 * n - len) := by
      rw [← Nat.pow_add, Nat.sub_add_cancel (Nat.sub_le _ _)]
    have hblock : a / 2 ^ (8 * n - len) + 1 ≤ 2 ^ (8 * n - (8 * n - len)) :=
      Nat.div_lt_of_lt_mul (by rwa [Nat.mul_comm, ← hpow])
    have hmul := Nat.mul_le_mul_right (2 ^ (8 * n - len)) hblock
    rw [← hpow, Nat.add_mul] at hmul
    omega
  rw [mapIdx_bigOctets, bigOctets_le_iff, bigOctets_le_iff, Nat.mod_eq_of_lt hb,
    Nat.mod_eq_of_lt hlast, Nat.mod_eq_of_lt (by omega), eq_comm, Nat.div_eq_iff hpos,
    Nat.add_sub_assoc hpos]

theorem masked_lt {w len a : Nat} (ha : a < 2 ^ w) : a / 2 ^ (w - len) * 2 ^ (w - len) < 2 ^ w :=
  (div_mul_le_self _ _).trans_lt ha

theorem addrBetween_prefixBounds (p : Prefix) (addr : Addr) :
    addrBetween (prefixBounds p) (some addr.column.octets) = p.contains addr.column := by
  have hcolumn : (∃ b, addr.column = .v4 b) ∨ ∃ b, addr.column = .v6 b [] := by
    rw [Addr.column]
    cases addr.unmap with
    | v4 b => exact .inl ⟨b, rfl⟩
    | v6 b scope => exact .inr ⟨b, rfl⟩
  have hv4 (b : BitVec 32) : (Addr.v4 b).octets = bigOctets 4 b.toNat := rfl
  have hv6 (b : BitVec 128) (scope : Octets) : (Addr.v6 b scope).octets = bigOctets 16 b.toNat := rfl
  -- one family: the lengths agree, and the range is the block
  have hrange {n len a b : Nat} (ha : a < 2 ^ (8 * n)) (hb : b < 2 ^ (8 * n)) :
      addrBetween (bigOctets n (a / 2 ^ (8 * n - len) * 2 ^ (8 * n - len)),
          (bigOctets n (a / 2 ^ (8 * n - len) * 2 ^ (8 * n - len))).mapIdx (lastOctet len))
        (some (bigOctets n b)) =
          decide (a / 2 ^ (8 * n - len) = b / 2 ^ (8 * n - len)) := by
    have hlength (v : Nat) : (bigOctets n v).length = n := by simp [bigOctets]
    rw [Bool.eq_iff_iff, decide_eq_true_iff, ← between_block ha hb, addrBetween, hlength, hlength,
      beq_self_eq_true, Bool.true_and, Bool.and_eq_true, decide_eq_true_iff, decide_eq_true_iff]
  cases p with
  | v4 a len =>
    have hlow : (BitVec.ofNat 32 (a.toNat / 2 ^ (32 - len) * 2 ^ (32 - len))).toNat =
        a.toNat / 2 ^ (32 - len) * 2 ^ (32 - len) := by
      rw [BitVec.toNat_ofNat, mod_eq_of_lt (masked_lt a.isLt)]
    rcases hcolumn with ⟨b, hb⟩ | ⟨b, hb⟩
    · rw [hb, hv4]
      simp only [prefixBounds, Prefix.masked, Prefix.addr, hv4, hlow, Prefix.bits]
      exact @hrange 4 len a.toNat b.toNat a.isLt b.isLt
    · rw [hb]
      rfl
  | v6 a len =>
    have hlow : (BitVec.ofNat 128 (a.toNat / 2 ^ (128 - len) * 2 ^ (128 - len))).toNat =
        a.toNat / 2 ^ (128 - len) * 2 ^ (128 - len) := by
      rw [BitVec.toNat_ofNat, mod_eq_of_lt (masked_lt a.isLt)]
    rcases hcolumn with ⟨b, hb⟩ | ⟨b, hb⟩
    · rw [hb]
      rfl
    · rw [hb, hv6]
      simp only [prefixBounds, Prefix.masked, Prefix.addr, hv6, hlow, Prefix.bits]
      exact @hrange 16 len a.toNat b.toNat a.isLt b.isLt

/-- For every prefix and every address: what the column holds of the address lies in the range of
the prefix exactly if the address, unmapped and without a scope zone, is of the family of the prefix
and the prefix contains it. -/
theorem addrBetween_iff (p : Prefix) (addr : Addr) :
    addrBetween (prefixBounds p) (some addr.column.octets) = true ↔
      addr.column.is4 = p.addr.is4 ∧ p.contains addr.column = true := by
  rw [addrBetween_prefixBounds]
  refine ⟨fun h => ⟨?_, h⟩, fun h => h.2⟩
  cases p <;> cases haddr : addr.column
  all_goals first | rfl | simp [haddr, Prefix.contains] at h

/-- A prefix contains no mapped address of the other family, and the range holds it. -/
theorem addrBetween_mapped :
    addrBetween (prefixBounds (.v4 0x0a000000 8))
        (some (Addr.v6 0xffff0a000001 []).column.octets) = true ∧
      (Prefix.v4 0x0a000000 8).contains (.v6 0xffff0a000001 []) = false := by
  decide

end Wegweiser
