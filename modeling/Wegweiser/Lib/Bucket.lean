/-
Buckets kept as a deadline.

A bucket is full once its deadline is past.
-/
import Mathlib.Algebra.Order.Ring.Int
import Mathlib.Data.List.Count
import Mathlib.Tactic.Linarith
import Mathlib.Tactic.Ring

namespace Bucket

open List

/-- How many of some times are no earlier than `x`. -/
def since (x : Int) (times : List Int) : Nat := times.countP fun t => decide (x ≤ t)

/-- How many lie in the interval of length `span` from `x` on. -/
def within (x span : Int) (times : List Int) : Nat :=
  times.countP fun t => decide (x ≤ t ∧ t ≤ x + span)

theorem within_le_since (x span : Int) (times : List Int) : within x span times ≤ since x times := by
  refine countP_mono_left fun t _ ht => ?_
  rw [decide_eq_true_eq] at ht ⊢
  exact ht.1

theorem since_eq_zero {x last : Int} {times : List Int} (htimes : ∀ t ∈ times, t ≤ last)
    (hx : last < x) : since x times = 0 := by
  rw [since, countP_eq_zero]
  intro t ht
  have := htimes t ht
  rw [decide_eq_true_eq]
  omega

theorem since_cons_le (x t : Int) (times : List Int) : since x (t :: times) ≤ since x times + 1 := by
  rw [since, countP_cons]
  split
  · exact Nat.le_refl _
  · exact Nat.le_succ _

variable {refill full now : Int} {spent : List Int}

def Covers (refill full now : Int) (spent : List Int) : Prop :=
  ∀ x ≤ now, x + refill * since x spent ≤ max full now

theorem covers_nil (refill full now : Int) : Covers refill full now [] := by
  intro x hx
  simp [since, hx]

theorem Covers.wait (h : Covers refill full now spent) (hspent : ∀ t ∈ spent, t ≤ now) {later : Int}
    (hlater : now ≤ later) : Covers refill full later spent := by
  intro x hx
  by_cases hnow : x ≤ now
  · exact (h x hnow).trans (max_le_max le_rfl hlater)
  · rw [since_eq_zero hspent (by omega)]
    simp [hx]

theorem Covers.past (h : Covers refill full now spent) (hfull : full ≤ now) {other : Int} :
    Covers refill other now spent := by
  intro x hx
  have hcovered := h x hx
  rw [max_eq_right hfull] at hcovered
  exact hcovered.trans (le_max_right _ _)

theorem Covers.spend (h : Covers refill full now spent) (hrefill : 0 ≤ refill) {t : Int} :
    Covers refill (max full now + refill) now (t :: spent) := by
  intro x hx
  have hcons : (since x (t :: spent) : Int) ≤ since x spent + 1 := by
    exact_mod_cast since_cons_le x t spent
  calc x + refill * since x (t :: spent)
      ≤ x + refill * (since x spent + 1) := by
        linarith [mul_le_mul_of_nonneg_left hcons hrefill]
    _ = x + refill * since x spent + refill := by ring
    _ ≤ max full now + refill := by linarith [h x hx]
    _ ≤ max (max full now + refill) now := le_max_left _ _

def Spaced (burst refill : Int) (times : List Int) : Prop :=
  ∀ x span, 0 ≤ span → (within x span times : Int) ≤ burst + 1 + span / refill

theorem spaced_nil {burst refill : Int} (hburst : 0 ≤ burst) (hrefill : 0 ≤ refill) :
    Spaced burst refill [] := by
  intro x span hspan
  have := Int.ediv_nonneg hspan hrefill
  simp only [within, countP_nil]
  omega

theorem Spaced.cons {burst asked t : Int} (h : Spaced burst refill spent) (hburst : 0 ≤ burst)
    (hrefill : 0 < refill) (hspent : ∀ s ∈ spent, s ≤ asked)
    (hlevel : ∀ x ≤ asked, x + refill * since x spent ≤ asked + burst * refill) (ht : asked ≤ t) :
    Spaced burst refill (t :: spent) := by
  intro x span hspan
  have hquot := Int.ediv_nonneg hspan hrefill.le
  by_cases hin : x ≤ t ∧ t ≤ x + span
  · have hcount : (within x span (t :: spent) : Int) = within x span spent + 1 := by
      rw [within, countP_cons_of_pos (by simpa using hin)]
      rfl
    have hle : (within x span spent : Int) ≤ since x spent := by
      exact_mod_cast within_le_since x span spent
    rw [hcount]
    by_cases hx : x ≤ asked
    · -- what was spent since `x` fits between it and the time the last one was let through
      have hfit : (since x spent : Int) ≤ (span + burst * refill) / refill := by
        rw [Int.le_ediv_iff_mul_le hrefill]
        have := hlevel x hx
        linarith [hin.2, mul_comm refill (since x spent : Int)]
      rw [Int.add_mul_ediv_right _ _ hrefill.ne'] at hfit
      omega
    · rw [since_eq_zero hspent (by omega)] at hle
      omega
  · have hcount : within x span (t :: spent) = within x span spent := by
      rw [within, countP_cons_of_neg (by simpa using hin)]
      rfl
    rw [hcount]
    exact h x span hspan

end Bucket
