/-
Rows listed in the order of a key.

The listing of a table depends on the rows in it alone where no two of them have the
same key, and not on the order they were put in.
-/
import Mathlib.Data.List.Lex
import Mathlib.Data.List.Sort

namespace Rows

open List

universe u v

variable {α : Type u} {κ : Type v} [LinearOrder κ] {key : α → κ} {l l' : List α}

theorem cons_le_cons_iff (a b : κ) (l m : List κ) : a :: l ≤ b :: m ↔ a < b ∨ a = b ∧ l ≤ m := by
  rw [← not_lt, ← not_lt, cons_lt_cons_iff]
  grind

def sortOn (key : α → κ) (l : List α) : List α :=
  l.insertionSort fun a b => key a ≤ key b

theorem sortOn_perm (key : α → κ) (l : List α) : (sortOn key l).Perm l :=
  perm_insertionSort _ l

theorem mem_sortOn {a : α} : a ∈ sortOn key l ↔ a ∈ l :=
  (sortOn_perm key l).mem_iff

theorem sortOn_pairwise (key : α → κ) (l : List α) :
    (sortOn key l).Pairwise fun a b => key a ≤ key b := by
  have : Std.Total fun a b : α => key a ≤ key b := ⟨fun a b => le_total (key a) (key b)⟩
  have : IsTrans α fun a b => key a ≤ key b := ⟨fun _ _ _ => le_trans⟩
  exact pairwise_insertionSort _ l

theorem sortOn_sortOn (key : α → κ) (l : List α) : sortOn key (sortOn key l) = sortOn key l :=
  (sortOn_pairwise key l).insertionSort_eq

theorem map_sortOn {β : Type u} (key : α → κ) (key' : β → κ) (f : α → β)
    (h : ∀ a, key' (f a) = key a) (l : List α) : (sortOn key l).map f = sortOn key' (l.map f) := by
  refine map_insertionSort _ _ f l fun a _ b _ => ?_
  rw [h, h]

theorem sortOn_eq_of_perm (hinj : ∀ a ∈ l, ∀ b ∈ l, key a = key b → a = b) (h : l.Perm l') :
    sortOn key l = sortOn key l' := by
  refine Perm.eq_of_pairwise ?_ (sortOn_pairwise key l) (sortOn_pairwise key l') ?_
  · intro a b ha hb hab hba
    exact hinj a (mem_sortOn.mp ha) b (h.mem_iff.mpr (mem_sortOn.mp hb)) (le_antisymm hab hba)
  · exact (sortOn_perm key l).trans (h.trans (sortOn_perm key l').symm)

theorem filter_sortOn (hinj : ∀ a ∈ l, ∀ b ∈ l, key a = key b → a = b) (p : α → Bool) :
    (sortOn key l).filter p = sortOn key (l.filter p) := by
  refine Perm.eq_of_pairwise ?_ ((sortOn_pairwise key l).filter p)
    (sortOn_pairwise key (l.filter p)) ?_
  · intro a b ha hb hab hba
    exact hinj a (mem_sortOn.mp (mem_of_mem_filter ha)) b
      (mem_of_mem_filter (mem_sortOn.mp hb)) (le_antisymm hab hba)
  · exact ((sortOn_perm key l).filter p).trans (sortOn_perm key (l.filter p)).symm

theorem filter_after {front back : List α} {a : α} (hnodup : (l.map key).Nodup)
    (hl : sortOn key l = front ++ a :: back) :
    (sortOn key l).filter (fun b => decide (key a < key b)) = back := by
  have hpairs := sortOn_pairwise key l
  have hkeys : ((sortOn key l).map key).Nodup := ((sortOn_perm key l).map key).nodup_iff.mpr hnodup
  rw [hl] at hpairs hkeys ⊢
  rw [map_append, map_cons, nodup_append] at hkeys
  rw [pairwise_append, pairwise_cons] at hpairs
  obtain ⟨-, ⟨hback, -⟩, hfront⟩ := hpairs
  have hnone : front.filter (fun b => decide (key a < key b)) = [] := by
    refine filter_eq_nil_iff.mpr fun b hb => ?_
    rw [decide_eq_true_eq, not_lt]
    exact hfront b hb a mem_cons_self
  have hall : back.filter (fun b => decide (key a < key b)) = back := by
    refine filter_eq_self.mpr fun b hb => decide_eq_true ?_
    refine lt_of_le_of_ne (hback b hb) fun heq => ?_
    exact (nodup_cons.mp hkeys.2.1).1 (heq ▸ mem_map_of_mem hb)
  rw [filter_append, filter_cons_of_neg (by simp), hnone, hall, nil_append]

theorem sortOn_filter_eq_iff (p q : α → Bool) :
    sortOn key (l.filter p) = sortOn key (l.filter q) ↔ ∀ a ∈ l, p a = q a := by
  constructor
  · intro h a ha
    have hmem : a ∈ sortOn key (l.filter p) ↔ a ∈ sortOn key (l.filter q) := by rw [h]
    rw [mem_sortOn, mem_sortOn, mem_filter, mem_filter] at hmem
    exact Bool.eq_iff_iff.mpr ⟨fun hp => (hmem.mp ⟨ha, hp⟩).2, fun hq => (hmem.mpr ⟨ha, hq⟩).2⟩
  · intro h
    rw [filter_congr h]

end Rows
