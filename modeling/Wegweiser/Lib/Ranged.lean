/-
Finite maps, ranged over in an order that nobody has promised.

A loop over a map visits each of its keys once.
-/
import Mathlib.Data.List.AList
import Mathlib.Data.List.Dedup
import Mathlib.Data.List.Perm.Lattice

namespace Ranged

open List

universe u v w

abbrev FinMap (κ : Type u) (ν : Type v) := AList fun _ : κ => ν

variable {κ : Type u} {ν : Type v} [DecidableEq κ] {order : List κ} {m : FinMap κ ν} {k : κ}

def visits (order : List κ) (m : FinMap κ ν) : List κ :=
  order.dedup.filter (· ∈ m) ++ m.keys.filter (· ∉ order)

theorem nodup_visits : (visits order m).Nodup := by
  refine Nodup.append ((nodup_dedup order).filter _) (m.keys_nodup.filter _) ?_
  intro k hfirst hlast
  have hnamed := mem_dedup.mp (mem_filter.mp hfirst).1
  exact absurd hnamed (by simpa using (mem_filter.mp hlast).2)

theorem foldl_visits {σ : Type w} {step : σ → κ → σ} {P : List κ → σ → Prop}
    (hstep : ∀ k rest s, k ∉ rest → P (k :: rest) s → P rest (step s k)) {s : σ}
    (h : P (visits order m) s) : P [] ((visits order m).foldl step s) := by
  have hnodup : (visits order m).Nodup := nodup_visits
  generalize visits order m = l at h hnodup
  induction l generalizing s with
  | nil => exact h
  | cons k rest ih =>
    obtain ⟨hk, hrest⟩ := nodup_cons.mp hnodup
    exact ih (hstep k rest s hk h) hrest

theorem lookup_eq_some_mem {v : ν} (h : m.lookup k = some v) : k ∈ m :=
  AList.lookup_isSome.mp (by rw [h]; rfl)

theorem lookup_insert_eq (a : κ) (v : ν) :
    (m.insert a v).lookup k = if k = a then some v else m.lookup k := by
  split_ifs with h
  · rw [h, AList.lookup_insert]
  · exact AList.lookup_insert_ne h

theorem lookup_erase_eq (a : κ) : (m.erase a).lookup k = if k = a then none else m.lookup k := by
  split_ifs with h
  · rw [h, AList.lookup_erase]
  · exact AList.lookup_erase_ne h

end Ranged
