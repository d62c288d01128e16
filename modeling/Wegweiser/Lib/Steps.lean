/-
Runs of a system that takes one move after another, and conditions on their moves.
-/
import Mathlib.Tactic.Common

namespace Steps

universe u v

variable {σ : Type u} {μ : Type v} {step : σ → μ → σ} {C D : σ → μ → Prop} {P : σ → Prop} {s : σ}
  {m : μ} {moves before after : List μ}

def Along (step : σ → μ → σ) (C : σ → μ → Prop) : σ → List μ → Prop
  | _, [] => True
  | s, m :: moves => C s m ∧ Along step C (step s m) moves

instance Along.decidable [∀ s m, Decidable (C s m)] (s : σ) (moves : List μ) :
    Decidable (Along step C s moves) :=
  match moves with
  | [] => .isTrue trivial
  | m :: moves =>
    have := Along.decidable (step s m) moves
    inferInstanceAs (Decidable (C s m ∧ Along step C (step s m) moves))

theorem along_append : Along step C s (before ++ after) ↔
    Along step C s before ∧ Along step C (before.foldl step s) after := by
  induction before generalizing s with
  | nil => simp [Along]
  | cons m before ih => simp [Along, ih, and_assoc]

theorem Along.invariant (hstep : ∀ s m, C s m → P s → P (step s m))
    (h : Along step C s moves) (hs : P s) : P (moves.foldl step s) := by
  induction moves generalizing s with
  | nil => exact hs
  | cons m moves ih => exact ih h.2 (hstep s m h.1 hs)

theorem Along.and (h : Along step C s moves) (h' : Along step D s moves) :
    Along step (fun s m => C s m ∧ D s m) s moves := by
  induction moves generalizing s with
  | nil => trivial
  | cons m moves ih => exact ⟨⟨h.1, h'.1⟩, ih h.2 h'.2⟩

theorem Along.of_forall {Q : μ → Prop} (h : ∀ m ∈ moves, Q m) : Along step (fun _ m => Q m) s moves := by
  induction moves generalizing s with
  | nil => trivial
  | cons m moves ih =>
    exact ⟨h m List.mem_cons_self, ih fun m' hm' => h m' (List.mem_cons_of_mem m hm')⟩

end Steps
