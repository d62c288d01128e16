/-
A copy kept in step with its source by notes.

The source holds under each name at most one owner with a content.
-/
import Mathlib.Data.List.Induction
import Mathlib.Tactic.Common

namespace Copies

open List

universe u v w

variable {κ : Type u} {ν : Type v} {β : Type w} [DecidableEq ν]

def lastOn (n : ν) (notes : List (κ × ν)) : Option κ :=
  (notes.reverse.find? fun e => e.2 = n).map Prod.fst

theorem lastOn_append {n : ν} {notes : List (κ × ν)} {e : κ × ν} :
    lastOn n (notes ++ [e]) = if e.2 = n then some e.1 else lastOn n notes := by
  rw [lastOn, reverse_append, reverse_singleton, singleton_append, find?_cons]
  by_cases hn : e.2 = n
  · simp [hn]
  · simp [hn, lastOn]

theorem lastOn_append_notes {n : ν} (handled notes : List (κ × ν)) :
    lastOn n (handled ++ notes) = (lastOn n notes).or (lastOn n handled) := by
  rw [lastOn, lastOn, lastOn, reverse_append, find?_append]
  cases notes.reverse.find? fun e => decide (e.2 = n) <;> rfl

theorem lastOn_eq_none {n : ν} {notes : List (κ × ν)} :
    lastOn n notes = none ↔ ∀ e ∈ notes, e.2 ≠ n := by
  rw [lastOn, Option.map_eq_none_iff, find?_eq_none]
  simp

variable [DecidableEq κ]

/-- What a source holds: the owner of a name, and its content where it shows any. -/
abbrev View (κ : Type u) (ν : Type v) (β : Type w) := ν → Option (κ × Option β)

def shown (view : View κ ν β) (n : ν) : Option β := (view n).bind Prod.snd

def shownBy (view : View κ ν β) (k : κ) (n : ν) : Option β :=
  (view n).bind fun owned => if owned.1 = k then owned.2 else none

def put (view : View κ ν β) (copy : ν → Option β) (note : κ × ν) : ν → Option β :=
  fun n => if n = note.2 then shownBy view note.1 n else copy n

structure State (κ : Type u) (ν : Type v) (β : Type w) where
  view : View κ ν β
  copy : ν → Option β
  waiting : List (List (κ × ν))
  handled : List (κ × ν)

/-- The source changes, or the notes of one change are handled. -/
inductive Step : State κ ν β → State κ ν β → Prop
  | change {σ : State κ ν β} (view : View κ ν β) (notes : List (κ × ν))
      (htold : ∀ n, (∀ e ∈ notes, e.2 ≠ n) → view n = σ.view n) :
      Step σ { σ with view := view, waiting := σ.waiting ++ [notes] }
  | handle {σ : State κ ν β} {front back : List (List (κ × ν))} {notes : List (κ × ν)}
      (hwaiting : σ.waiting = front ++ notes :: back) :
      Step σ { σ with
        copy := notes.foldl (put σ.view) σ.copy
        waiting := front ++ back
        handled := σ.handled ++ notes }

/-- What the copy holds under a name nothing is waiting on: what the owner that was noted last
shows there. -/
def Settled (σ : State κ ν β) (n : ν) : Prop :=
  σ.copy n =
    match lastOn n σ.handled with
    | none => shown σ.view n
    | some k => shownBy σ.view k n

def Tracked (σ : State κ ν β) : Prop :=
  ∀ n, (∀ notes ∈ σ.waiting, ∀ e ∈ notes, e.2 ≠ n) → Settled σ n

theorem foldl_put {view : View κ ν β} {copy : ν → Option β} {n : ν} (notes : List (κ × ν)) :
    notes.foldl (put view) copy n =
      match lastOn n notes with
      | none => copy n
      | some k => shownBy view k n := by
  induction notes using reverseRecOn with
  | nil => rfl
  | append_singleton notes e ih =>
    rw [foldl_append, foldl_cons, foldl_nil, put, lastOn_append]
    by_cases hn : e.2 = n
    · rw [if_pos hn.symm, if_pos hn]
    · rw [if_neg (Ne.symm hn), if_neg hn, ih]

theorem Tracked.step {σ τ : State κ ν β} (h : Tracked σ) (hstep : Step σ τ) : Tracked τ := by
  intro n hn
  cases hstep with
  | change view notes htold =>
    have hsame : view n = σ.view n := htold n (hn notes (by simp))
    have hsettled := h n fun l hl => hn l (mem_append_left _ hl)
    simp only [Settled, shown, shownBy] at hsettled ⊢
    rw [hsame]
    exact hsettled
  | @handle front back notes hwaiting =>
    rw [Settled]
    dsimp only
    rw [foldl_put, lastOn_append_notes]
    cases hlast : lastOn n notes with
    | some k => rfl
    | none =>
      dsimp only [Option.none_or]
      refine h n fun l hl => ?_
      rw [hwaiting, mem_append, mem_cons] at hl
      rcases hl with hl | rfl | hl
      · exact hn l (mem_append_left _ hl)
      · exact lastOn_eq_none.mp hlast
      · exact hn l (mem_append_right _ hl)

theorem Tracked.copy_eq_iff {σ : State κ ν β} (h : Tracked σ) (hwaiting : σ.waiting = []) (n : ν) :
    σ.copy n = shown σ.view n ↔
      ∀ k c, σ.view n = some (k, some c) → ∀ j, lastOn n σ.handled = some j → j = k := by
  have hsettled : Settled σ n := h n fun l hl => by rw [hwaiting] at hl; cases hl
  rw [Settled] at hsettled
  rw [hsettled]
  cases hlast : lastOn n σ.handled with
  | none => simp
  | some j =>
    dsimp only [shownBy, shown]
    cases hview : σ.view n with
    | none => simp
    | some owned =>
      obtain ⟨k, content⟩ := owned
      cases content with
      | none => simp
      | some c =>
        by_cases hk : k = j
        · simp [hk]
        · simp [hk, Ne.symm hk]

end Copies
