/-
Computations that stop at the first error.

Rules for taking an accepted computation apart: what a successful bind, check or
loop must have gone through, and the invariant rule for a loop.
-/
import Mathlib.Algebra.Ring.Int.Defs
import Mathlib.Algebra.Ring.Nat
import Mathlib.Data.List.Basic
import Mathlib.Tactic.Common

namespace Checked

open List

universe u v w x

variable {ε : Type u} {α β σ : Type v}

/-- Stop with `e` unless the check passes. -/
def ensure (check : Bool) (e : ε) : Except ε PUnit :=
  if check then .ok ⟨⟩ else .error e

@[simp]
theorem ensure_eq_ok {check : Bool} {e : ε} {x : PUnit} :
    ensure check e = .ok x ↔ check = true := by
  cases check <;> simp [ensure]

@[simp]
theorem bind_eq_ok {x : Except ε α} {f : α → Except ε β} {b : β} :
    (x >>= f) = .ok b ↔ ∃ a, x = .ok a ∧ f a = .ok b := by
  cases x with
  | error e => simp [bind, Except.bind]
  | ok a => simp [bind, Except.bind]

@[simp]
theorem map_eq_ok {x : Except ε α} {f : α → β} {b : β} :
    x.map f = .ok b ↔ ∃ a, x = .ok a ∧ f a = b := by
  cases x with
  | error e => simp [Except.map]
  | ok a => simp [Except.map]

@[simp]
theorem pure_eq_ok {a b : α} : (pure a : Except ε α) = .ok b ↔ a = b := by
  simp [pure, Except.pure]

theorem check_eq_ok {x : Except ε PUnit} {y : Except ε β} {b : β} :
    (x >>= fun _ => y) = .ok b ↔ x = .ok ⟨⟩ ∧ y = .ok b := by
  simp only [bind_eq_ok]
  exact ⟨fun ⟨_, h⟩ => h, fun h => ⟨_, h⟩⟩

theorem return_eq_ok {a b : α} : (pure a : Except ε α) = .ok b ↔ b = a := by
  rw [pure_eq_ok, eq_comm]

theorem forM_eq_ok {f : α → Except ε PUnit} {l : List α} {x : PUnit} :
    l.forM f = .ok x ↔ ∀ a ∈ l, f a = .ok ⟨⟩ := by
  induction l with
  | nil => simp
  | cons head tail ih =>
    have hcons : (head :: tail).forM f = f head >>= fun _ => tail.forM f := rfl
    simp only [hcons, bind_eq_ok, ih, mem_cons, forall_eq_or_imp]
    exact ⟨fun ⟨_, hhead, htail⟩ => ⟨hhead, htail⟩, fun ⟨hhead, htail⟩ => ⟨_, hhead, htail⟩⟩

theorem mem_of_mapM_eq_ok {f : α → Except ε β} {l : List α} {m : List β} (h : l.mapM f = .ok m)
    {b : β} (hb : b ∈ m) : ∃ a ∈ l, f a = .ok b := by
  induction l generalizing m with
  | nil =>
    cases h
    cases hb
  | cons head tail ih =>
    simp only [mapM_cons, bind_eq_ok, pure_eq_ok] at h
    obtain ⟨first, hfirst, rest, hrest, rfl⟩ := h
    rcases mem_cons.mp hb with rfl | hb
    · exact ⟨head, mem_cons_self, hfirst⟩
    · obtain ⟨a, ha, hfa⟩ := ih hrest hb
      exact ⟨a, mem_cons_of_mem head ha, hfa⟩

theorem exists_of_mapM_eq_ok {f : α → Except ε β} {l : List α} {m : List β} (h : l.mapM f = .ok m)
    {a : α} (ha : a ∈ l) : ∃ b ∈ m, f a = .ok b := by
  induction l generalizing m with
  | nil => cases ha
  | cons head tail ih =>
    simp only [mapM_cons, bind_eq_ok, pure_eq_ok] at h
    obtain ⟨first, hfirst, rest, hrest, rfl⟩ := h
    rcases mem_cons.mp ha with rfl | ha
    · exact ⟨first, mem_cons_self, hfirst⟩
    · obtain ⟨b, hb, hfb⟩ := ih hrest ha
      exact ⟨b, mem_cons_of_mem first hb, hfb⟩

theorem mapM_eq_ok_of_check {f : α → Except ε α} {P : α → Prop}
    (hf : ∀ {a b}, f a = .ok b ↔ b = a ∧ P b) {l m : List α} :
    l.mapM f = .ok m ↔ m = l ∧ ∀ a ∈ m, P a := by
  induction l generalizing m with
  | nil =>
    have hnil : (([] : List α).mapM f = .ok m) ↔ [] = m :=
      ⟨fun h => Except.ok.inj h, fun h => congrArg Except.ok h⟩
    rw [hnil]
    constructor
    · rintro rfl
      exact ⟨rfl, fun a ha => nomatch ha⟩
    · rintro ⟨rfl, -⟩
      rfl
  | cons a l ih =>
    simp only [mapM_cons, bind_eq_ok, pure_eq_ok, hf, ih]
    constructor
    · rintro ⟨a, ⟨rfl, ha⟩, l, ⟨rfl, hl⟩, rfl⟩
      exact ⟨rfl, forall_mem_cons.mpr ⟨ha, hl⟩⟩
    · rintro ⟨rfl, h⟩
      rw [forall_mem_cons] at h
      exact ⟨a, ⟨rfl, h.1⟩, l, ⟨rfl, h.2⟩, rfl⟩

def accepted (x : Except ε α) : Prop :=
  ∃ a, x = .ok a

theorem accepted_bind {x : Except ε α} {f : α → Except ε β} :
    accepted (x >>= f) ↔ ∃ a, x = .ok a ∧ accepted (f a) := by
  simp only [accepted, bind_eq_ok]
  exact ⟨fun ⟨b, a, ha, hb⟩ => ⟨a, ha, b, hb⟩, fun ⟨a, ha, b, hb⟩ => ⟨b, a, ha, hb⟩⟩

theorem accepted_of_isOk {x : Except ε α} (h : x.isOk = true) : accepted x := by
  cases x with
  | error e => cases h
  | ok a => exact ⟨a, rfl⟩

theorem toOption_eq_some {x : Except ε α} {a : α} : x.toOption = some a ↔ x = .ok a := by
  cases x with
  | error e => simp [Except.toOption]
  | ok b => simp [Except.toOption]

theorem ok_of_any {x : Except ε α} {p : α → Bool} (h : x.toOption.any p = true) :
    ∃ a, x = .ok a ∧ p a = true := by
  cases x with
  | error e => cases h
  | ok a => exact ⟨a, rfl, h⟩

section Loop

variable {α : Type x} {step : σ → α → Except ε σ}

@[simp]
theorem foldlM_nil_eq_ok {s t : σ} : ([] : List α).foldlM step s = .ok t ↔ s = t := by
  simp [foldlM]

@[simp]
theorem foldlM_cons_eq_ok {a : α} {l : List α} {s t : σ} :
    (a :: l).foldlM step s = .ok t ↔
      ∃ mid, step s a = .ok mid ∧ l.foldlM step mid = .ok t := by
  simp [foldlM_cons]

theorem foldlM_append_eq_ok {l l' : List α} {s t : σ} :
    (l ++ l').foldlM step s = .ok t ↔
      ∃ mid, l.foldlM step s = .ok mid ∧ l'.foldlM step mid = .ok t := by
  simp [foldlM_append]

theorem foldlM_flatMap {β : Type w} {f : β → List α} {round : σ → β → Except ε σ}
    (h : ∀ s b, (f b).foldlM step s = round s b) (l : List β) (s : σ) :
    (l.flatMap f).foldlM step s = l.foldlM round s := by
  induction l generalizing s with
  | nil => rfl
  | cons head tail ih =>
    rw [flatMap_cons, foldlM_append, h, foldlM_cons]
    exact congrArg _ (funext ih)

theorem foldlM_invariant (Inv : σ → Prop) {l : List α} {s t : σ}
    (hstep : ∀ a ∈ l, ∀ x y, Inv x → step x a = .ok y → Inv y)
    (hrun : l.foldlM step s = .ok t) (hinv : Inv s) : Inv t := by
  induction l generalizing s with
  | nil =>
    rw [foldlM_nil_eq_ok] at hrun
    exact hrun ▸ hinv
  | cons head tail ih =>
    rw [foldlM_cons_eq_ok] at hrun
    obtain ⟨mid, hhead, htail⟩ := hrun
    have hmid : Inv mid := hstep head mem_cons_self s mid hinv hhead
    exact ih (fun a ha => hstep a (mem_cons_of_mem head ha)) htail hmid

theorem foldlM_relation (R : σ → σ → Prop) (hrefl : ∀ x, R x x)
    (htrans : ∀ x y z, R x y → R y z → R x z) {l : List α} {s t : σ}
    (hstep : ∀ a ∈ l, ∀ x y, step x a = .ok y → R x y)
    (hrun : l.foldlM step s = .ok t) : R s t := by
  refine foldlM_invariant (R s) ?_ hrun (hrefl s)
  intro a ha x y hx hxy
  exact htrans s x y hx (hstep a ha x y hxy)

theorem foldlM_preserves {β : Type w} (view : σ → β) {l : List α} {s t : σ}
    (hstep : ∀ a ∈ l, ∀ x y, step x a = .ok y → view y = view x)
    (hrun : l.foldlM step s = .ok t) : view t = view s :=
  foldlM_relation (fun x y => view y = view x) (fun _ => rfl)
    (fun _ _ _ hxy hyz => hyz.trans hxy) hstep hrun

theorem foldlM_simulation {τ : Type v} (step' : τ → α → Except ε τ) (R : σ → τ → Prop)
    {l : List α} {s s' : σ} {t : τ} (hstep : ∀ a ∈ l, ∀ x y x', R x y → step x a = .ok x' →
      ∃ y', step' y a = .ok y' ∧ R x' y')
    (hrun : l.foldlM step s = .ok s') (hR : R s t) : ∃ t', l.foldlM step' t = .ok t' ∧ R s' t' := by
  induction l generalizing s t with
  | nil =>
    rw [foldlM_nil_eq_ok] at hrun
    exact ⟨t, by simp, hrun ▸ hR⟩
  | cons head tail ih =>
    rw [foldlM_cons_eq_ok] at hrun
    obtain ⟨mid, hhead, htail⟩ := hrun
    obtain ⟨mid', hhead', hmid⟩ := hstep head mem_cons_self s t mid hR hhead
    obtain ⟨t', htail', ht'⟩ :=
      ih (fun a ha => hstep a (mem_cons_of_mem head ha)) htail hmid
    exact ⟨t', foldlM_cons_eq_ok.mpr ⟨mid', hhead', htail'⟩, ht'⟩

end Loop

end Checked
