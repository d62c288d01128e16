/-
Lists of rows that agree on what a view of them shows.

Two tables agree when the view `f` maps them to the same list.
-/
import Wegweiser.Lib.Links

namespace Rows

open List Links

universe u v w

variable {α : Type u} {β : Type v} {f : α → β} {l l' : List α}

/-- The two lists show the same through `f`. -/
def Agree (f : α → β) (l l' : List α) : Prop :=
  l.map f = l'.map f

namespace Agree

theorem exists_iff (h : Agree f l l') (P : β → Prop) : (∃ a ∈ l, P (f a)) ↔ ∃ a ∈ l', P (f a) := by
  have hview : ∀ m : List α, (∃ a ∈ m, P (f a)) ↔ ∃ b ∈ m.map f, P b := by
    intro m
    simp
  rw [hview l, hview l', h]

theorem forall_iff (h : Agree f l l') (P : β → Prop) : (∀ a ∈ l, P (f a)) ↔ ∀ a ∈ l', P (f a) := by
  have hview : ∀ m : List α, (∀ a ∈ m, P (f a)) ↔ ∀ b ∈ m.map f, P b := by
    intro m
    simp
  rw [hview l, hview l', h]

theorem filter (h : Agree f l l') {p : α → Bool} (q : β → Bool)
    (hp : ∀ a, p a = q (f a)) : Agree f (l.filter p) (l'.filter p) := by
  have hview : ∀ m : List α, (m.filter p).map f = (m.map f).filter q := by
    intro m
    rw [filter_map]
    exact congrArg (fun r => (m.filter r).map f) (funext hp)
  rw [Agree, hview l, hview l', h]

theorem find?_eq (h : Agree f l l') {p : α → Bool} (q : β → Bool)
    (hp : ∀ a, p a = q (f a)) : (l.find? p).map f = (l'.find? p).map f := by
  have hview : ∀ m : List α, (m.find? p).map f = (m.map f).find? q := by
    intro m
    rw [find?_map]
    exact congrArg (fun r => (m.find? r).map f) (funext hp)
  rw [hview l, hview l', h]

theorem append {m m' : List α} (h : Agree f l l') (hm : Agree f m m') :
    Agree f (l ++ m) (l' ++ m') := by
  simp only [Agree, map_append] at h hm ⊢
  rw [h, hm]

theorem map {g g' : α → α} (h : Agree f l l') (k : β → β) (hg : ∀ a, f (g a) = k (f a))
    (hg' : ∀ a, f (g' a) = k (f a)) : Agree f (l.map g) (l'.map g') := by
  have hl : (l.map g).map f = (l.map f).map k := by simp [hg]
  have hl' : (l'.map g').map f = (l'.map f).map k := by simp [hg']
  rw [Agree, hl, hl', h]

theorem map_eq {γ : Type w} (h : Agree f l l') {g : α → γ} (k : β → γ)
    (hg : ∀ a, g a = k (f a)) : l.map g = l'.map g := by
  have hview : ∀ m : List α, m.map g = (m.map f).map k := by
    intro m
    simp [hg]
  rw [hview l, hview l', h]

section Prune

variable {κ : Type w} [DecidableEq κ] {key : α → κ} {parent : α → Option κ}

theorem hanging_eq (h : Agree f l l') (key' : β → κ) (parent' : β → Option κ)
    (hkey : ∀ a, key a = key' (f a)) (hparent : ∀ a, parent a = parent' (f a)) (gone : List κ) :
    hanging key parent l gone = hanging key parent l' gone := by
  refine (h.filter (fun b => (parent' b).elim false fun k =>
    gone.contains k && !gone.contains (key' b)) ?_).map_eq key' hkey
  intro a
  cases hp : parent' (f a) <;> simp [hkey a, hparent a, hp]

theorem saturate_eq (h : Agree f l l') (key' : β → κ) (parent' : β → Option κ)
    (hkey : ∀ a, key a = key' (f a)) (hparent : ∀ a, parent a = parent' (f a))
    (fuel : Nat) (gone : List κ) :
    saturate key parent l fuel gone = saturate key parent l' fuel gone := by
  induction fuel generalizing gone with
  | zero => rfl
  | succ fuel ih =>
    simp only [saturate, h.hanging_eq key' parent' hkey hparent, ih]

theorem length_eq (h : Agree f l l') : l.length = l'.length := by
  have hlen := congrArg length h
  simpa using hlen

theorem prune (h : Agree f l l') (key' : β → κ) (parent' : β → Option κ)
    (hkey : ∀ a, key a = key' (f a)) (hparent : ∀ a, parent a = parent' (f a)) (roots : List κ) :
    Agree f (prune key parent l roots) (prune key parent l' roots) := by
  have hdown : downward key parent l roots = downward key parent l' roots := by
    rw [downward, downward, h.length_eq, h.saturate_eq key' parent' hkey hparent]
  rw [Links.prune, Links.prune, hdown]
  refine h.filter (fun b => !(downward key parent l' roots).contains (key' b)) ?_
  intro a
  rw [hkey a]

end Prune

end Agree

end Rows
