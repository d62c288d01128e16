/-
Ranges of sort keys: everything at or below a name is one range of the column.
-/
import Wegweiser.Zone.Order

namespace Wegweiser

open List

/-- The loop of `upperBound`, from the last octet of the key. -/
def bumpLast : Octets → Option Octets
  | [] => none
  | c :: rest => if c ≠ 255 then some ((c + 1) :: rest) else bumpLast rest

/-- `upperBound`: the least string above all those that begin with the key, if there is one. -/
def upperBound (key : Octets) : Option Octets := (bumpLast key.reverse).map reverse

/-- `sort_key < ?`, where there is a bound. -/
def belowBound (high : Option Octets) (s : Octets) : Bool :=
  match high with
  | none => true
  | some high => compareOctets s high == .lt

def inBranch (low s : Octets) : Bool := compareOctets low s != .gt && belowBound (upperBound low) s

theorem bumpLast_append (front : Octets) (c : UInt8) :
    bumpLast (front ++ [c]) =
      match bumpLast front with
      | some front => some (front ++ [c])
      | none => if c ≠ 255 then some [c + 1] else none := by
  induction front with
  | nil => rfl
  | cons d front ih =>
    rw [cons_append, bumpLast, bumpLast]
    split
    · rfl
    · exact ih

theorem upperBound_cons (c : UInt8) (key : Octets) :
    upperBound (c :: key) =
      match upperBound key with
      | some high => some (c :: high)
      | none => if c ≠ 255 then some [c + 1] else none := by
  rw [upperBound, upperBound, reverse_cons, bumpLast_append]
  cases bumpLast key.reverse with
  | none =>
    dsimp only [Option.map_none]
    split <;> rfl
  | some high => simp

theorem compareOctets_cons (c d : UInt8) (a b : Octets) :
    compareOctets (c :: a) (d :: b) =
      if c < d then .lt else if d < c then .gt else compareOctets a b := rfl

theorem toNat_succ {c : UInt8} (hc : c ≠ 255) : (c + 1).toNat = c.toNat + 1 := by
  have hlt := c.toNat_lt
  have hne : c.toNat ≠ 255 := fun h => hc (UInt8.toNat_inj.mp h)
  have hone : (1 : UInt8).toNat = 1 := rfl
  rw [UInt8.toNat_add, hone]
  omega

theorem not_below_bound {c d : UInt8} (hcd : c < d) (low s : Octets) :
    ∃ high, upperBound (c :: low) = some high ∧ compareOctets (d :: s) high ≠ .lt := by
  have hne : c ≠ 255 := by
    rintro rfl
    have := UInt8.lt_iff_toNat_lt.mp hcd
    have := d.toNat_lt
    simp only [UInt8.reduceToNat] at *
    omega
  rw [upperBound_cons]
  cases upperBound low with
  | some high =>
    refine ⟨_, rfl, ?_⟩
    rw [compareOctets_cons, if_neg (Std.not_lt.mpr (Std.le_of_lt hcd)), if_pos hcd]
    decide
  | none =>
    refine ⟨_, if_pos hne, ?_⟩
    have hnot : ¬ d < c + 1 := by
      rw [UInt8.lt_iff_toNat_lt, toNat_succ hne]
      have := UInt8.lt_iff_toNat_lt.mp hcd
      omega
    rw [compareOctets_cons, if_neg hnot]
    split
    · decide
    · cases s <;> simp [compareOctets]

theorem belowBound_cons (c : UInt8) (low s : Octets) :
    belowBound (upperBound (c :: low)) (c :: s) = belowBound (upperBound low) s := by
  rw [upperBound_cons]
  cases upperBound low with
  | some high => simp [belowBound, compareOctets_cons]
  | none =>
    by_cases hc : c = 255
    · simp [hc, belowBound]
    · have hlt : c < c + 1 := by
        rw [UInt8.lt_iff_toNat_lt, toNat_succ hc]
        omega
      simp [hc, belowBound, compareOctets_cons, hlt]

theorem inBranch_iff (low s : Octets) : inBranch low s = true ↔ low <+: s := by
  induction low generalizing s with
  | nil => cases s <;> simp [inBranch, belowBound, compareOctets, upperBound, bumpLast]
  | cons c low ih =>
    cases s with
    | nil => simp [inBranch, compareOctets]
    | cons d s =>
      rw [cons_prefix_cons, ← ih s]
      rcases Std.lt_trichotomy c d with hlt | rfl | hgt
      · -- above the range
        obtain ⟨high, hhigh, hnot⟩ := not_below_bound hlt low s
        simp [inBranch, belowBound, hhigh, hnot, Std.ne_of_lt hlt]
      · simp [inBranch, belowBound_cons, compareOctets_cons]
      · -- below the range
        simp [inBranch, compareOctets_cons, hgt, Std.le_of_lt hgt, (Std.ne_of_lt hgt).symm]

/-- Names are compared in the canonical order, which is total; their sort keys are in the same
order, octet by octet; and the branch below a name is what begins with its key, which is the range
from the key to its upper bound. -/
theorem sort_keys_carry_the_order :
    (∀ a b : Name, (a.compare b = .lt ↔ a.Precedes b) ∧ (a.compare b = .eq ↔ a = b) ∧
      (a.compare b = .gt ↔ b.Precedes a)) ∧
      (∀ a b c : Name, a.Precedes b → b.Precedes c → a.Precedes c) ∧
      (∀ a b : Name, compareOctets a.sortKeyOctets b.sortKeyOctets = a.compare b) ∧
      ∀ p a : Name, (p.sortKeyOctets <+: a.sortKeyOctets ↔ a.isSubDomainOf p = true) ∧
        (inBranch p.sortKeyOctets a.sortKeyOctets = true ↔ a.isSubDomainOf p = true) := by
  refine ⟨fun a b => ⟨a.compare_eq_lt b, a.compare_eq_eq b, ?_⟩, fun _ _ _ => Name.Precedes.trans,
    Name.compare_sortKeyOctets, fun p a => ⟨a.sortKeyOctets_begins p, ?_⟩⟩
  · rw [← Name.compare_eq_lt, a.compare_swap b]
    cases b.compare a <;> decide
  · rw [inBranch_iff, a.sortKeyOctets_begins p]

end Wegweiser
