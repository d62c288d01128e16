/-
The canonical order of names, and the sort key that carries it into a database column.

RFC 4034 §6.1 orders names by their labels from the rightmost, each label an octet string in
which the absence of an octet comes before any octet.
-/
import Wegweiser.Lib.FlatKey
import Wegweiser.Zone.Valid

namespace Wegweiser

theorem compareOctets_eq (a b : Octets) : compareOctets a b = compare a b := by
  induction a generalizing b with
  | nil => cases b <;> rfl
  | cons c a ih =>
    cases b with
    | nil => rfl
    | cons d b =>
      rw [compareOctets, List.compare_cons_cons, ih]
      cases h : compare c d with
      | lt => simp [Std.compare_eq_lt.mp h]
      | eq =>
        obtain rfl := Std.LawfulEqOrd.eq_of_compare h
        simp
      | gt =>
        have hlt := Std.compare_eq_gt.mp h
        simp [hlt, Std.le_of_lt hlt]

namespace Name

theorem compareLabels_eq (a b : List Octets) : compareLabels a b = Ord.compare a b := by
  induction a generalizing b with
  | nil => cases b <;> rfl
  | cons l a ih =>
    cases b with
    | nil => rfl
    | cons m b =>
      rw [compareLabels, List.compare_cons_cons, compareOctets_eq, ih]
      cases Ord.compare l m <;> rfl

theorem compare_eq (n m : Name) :
    n.compare m = Ord.compare n.labels.reverse m.labels.reverse := compareLabels_eq _ _

/-- The order of RFC 4034 §6.1, in its own words: from the rightmost label, up to the first that
differs, where the label that is missing or the lesser octet string comes first. -/
def Precedes (n m : Name) : Prop :=
  FlatKey.Precedes (FlatKey.Precedes fun c d : UInt8 => c < d) n.labels.reverse m.labels.reverse

theorem compare_eq_lt (n m : Name) : n.compare m = .lt ↔ n.Precedes m := by
  rw [compare_eq]
  exact FlatKey.compare_eq_lt (FlatKey.compare_eq_lt FlatKey.compare_octets_eq_lt) _ _

theorem compare_eq_eq (n m : Name) : n.compare m = .eq ↔ n = m := by
  rw [compare_eq, Std.LawfulEqOrd.compare_eq_iff_eq, List.reverse_inj]
  exact ⟨ext_labels, congrArg labels⟩

theorem compare_swap (n m : Name) : n.compare m = (m.compare n).swap := by
  rw [compare_eq, compare_eq]
  exact Std.OrientedOrd.eq_swap

theorem Precedes.trans {n m k : Name} (hnm : n.Precedes m) (hmk : m.Precedes k) : n.Precedes k := by
  rw [← compare_eq_lt, compare_eq] at hnm hmk ⊢
  exact Std.TransCmp.lt_trans hnm hmk

/-- `Name.SortKey`, in octets: the labels from the rightmost, each with an end that sorts before
any content. -/
def sortKeyOctets (n : Name) : Octets :=
  n.labels.reverse.flatMap fun label =>
    (label.flatMap fun c => if c = 0 then [c, 255] else [c]) ++ [0, 0]

theorem sortKeyOctets_eq (n : Name) : n.sortKeyOctets = FlatKey.flatten n.labels.reverse := by
  have hescape : (fun c : UInt8 => if c = 0 then [c, 255] else [c]) = FlatKey.escape := by
    funext c
    rw [FlatKey.escape]
    split
    · rename_i hc
      rw [hc]
    · rfl
  rw [sortKeyOctets, FlatKey.flatten, hescape]

theorem compare_sortKeyOctets (n m : Name) :
    compareOctets n.sortKeyOctets m.sortKeyOctets = n.compare m := by
  rw [compareOctets_eq, sortKeyOctets_eq, sortKeyOctets_eq, FlatKey.compare_flatten, compare_eq]

theorem sortKeyOctets_begins (n p : Name) :
    p.sortKeyOctets <+: n.sortKeyOctets ↔ n.isSubDomainOf p = true := by
  rw [sortKeyOctets_eq, sortKeyOctets_eq, FlatKey.flatten_begins, List.reverse_prefix,
    isSubDomainOf_iff]

end Name

end Wegweiser
