/-
Ledgers: rows that each have a key, and the entries that take one version of them
to the next.

An entry removes a row that is there or adds one whose key is free.
-/
import Mathlib.Data.Finset.SDiff
import Mathlib.Data.Finset.Union
import Mathlib.Data.Set.Function

namespace Ledger

open List

universe u v

/-- A row that goes, or a row that comes. -/
inductive Entry (ρ : Type u) where
  | del (row : ρ)
  | add (row : ρ)
deriving DecidableEq

def Entry.row {ρ : Type u} : Entry ρ → ρ
  | del row => row
  | add row => row

variable {ρ : Type u} {κ : Type v} [DecidableEq ρ]

def replay (before : Finset ρ) : List (Entry ρ) → Finset ρ
  | [] => before
  | .del row :: rest => replay (before.erase row) rest
  | .add row :: rest => replay (insert row before) rest

def Fits (key : ρ → κ) (before : Finset ρ) : List (Entry ρ) → Prop
  | [] => True
  | .del row :: rest => row ∈ before ∧ Fits key (before.erase row) rest
  | .add row :: rest => (∀ r ∈ before, key r ≠ key row) ∧ Fits key (insert row before) rest

instance decidableFits [DecidableEq κ] (key : ρ → κ) (before : Finset ρ) :
    (log : List (Entry ρ)) → Decidable (Fits key before log)
  | [] => inferInstanceAs (Decidable True)
  | .del row :: rest =>
    have := decidableFits key (before.erase row) rest
    inferInstanceAs (Decidable (row ∈ before ∧ Fits key (before.erase row) rest))
  | .add row :: rest =>
    have := decidableFits key (insert row before) rest
    inferInstanceAs
      (Decidable ((∀ r ∈ before, key r ≠ key row) ∧ Fits key (insert row before) rest))

section Replay

variable {before : Finset ρ} {log log' : List (Entry ρ)}

@[simp] theorem replay_nil : replay before [] = before := rfl

@[simp]
theorem replay_del {row : ρ} : replay before (.del row :: log) = replay (before.erase row) log :=
  rfl

@[simp]
theorem replay_add {row : ρ} : replay before (.add row :: log) = replay (insert row before) log :=
  rfl

theorem replay_append : replay before (log ++ log') = replay (replay before log) log' := by
  induction log generalizing before with
  | nil => rfl
  | cons head tail ih =>
    cases head with
    | del row => exact ih
    | add row => exact ih

end Replay

section Keyed

variable {key : ρ → κ} {before : Finset ρ} {log log' : List (Entry ρ)} {row : ρ}

theorem fits_append :
    Fits key before (log ++ log') ↔ Fits key before log ∧ Fits key (replay before log) log' := by
  induction log generalizing before with
  | nil => simp [Fits]
  | cons head tail ih =>
    cases head with
    | del row => simp only [cons_append, Fits, ih, replay_del, and_assoc]
    | add row => simp only [cons_append, Fits, ih, replay_add, and_assoc]

theorem keyed_erase (hkeyed : Set.InjOn key before) : Set.InjOn key (before.erase row) :=
  hkeyed.mono (Finset.coe_subset.mpr (Finset.erase_subset row before))

theorem keyed_insert (hkeyed : Set.InjOn key before) (hfree : ∀ r ∈ before, key r ≠ key row) :
    Set.InjOn key ↑(insert row before) := by
  intro a ha b hb hab
  rw [Finset.mem_coe, Finset.mem_insert] at ha hb
  rcases ha with rfl | ha
  · rcases hb with rfl | hb
    · rfl
    · exact absurd hab.symm (hfree b hb)
  · rcases hb with rfl | hb
    · exact absurd hab (hfree a ha)
    · exact hkeyed ha hb hab

theorem mem_replay_of_no_entry (hnone : ∀ e ∈ log, key e.row ≠ key row) :
    row ∈ replay before log ↔ row ∈ before := by
  induction log generalizing before with
  | nil => rfl
  | cons head tail ih =>
    have htail {rows : Finset ρ} : row ∈ replay rows tail ↔ row ∈ rows :=
      ih fun e he => hnone e (mem_cons_of_mem head he)
    have hne : row ≠ head.row := fun h => hnone head mem_cons_self (by rw [h])
    cases head with
    | del r => rw [replay_del, htail, Finset.mem_erase, and_iff_right (show row ≠ r from hne)]
    | add r => rw [replay_add, htail, Finset.mem_insert, or_iff_right (show row ≠ r from hne)]

variable [DecidableEq κ]

def first (key : ρ → κ) (k : κ) (log : List (Entry ρ)) : Option (Entry ρ) :=
  log.find? fun e => key e.row == k

theorem mem_of_first_del {gone : ρ} (hkeyed : Set.InjOn key before) (hfits : Fits key before log)
    (hfirst : first key (key row) log = some (.del gone)) : row ∈ before ↔ row = gone := by
  induction log generalizing before with
  | nil => cases hfirst
  | cons head tail ih =>
    rw [first, find?_cons] at hfirst
    split at hfirst
    · next hkey =>
      cases hfirst
      have hgone : key gone = key row := by simpa [Entry.row] using hkey
      constructor
      · intro hrow
        exact hkeyed hrow hfits.1 hgone.symm
      · intro heq
        rw [heq]
        exact hfits.1
    · next hkey =>
      have hne : row ≠ head.row := by
        intro h
        simp [h] at hkey
      cases head with
      | del r =>
        have htail := ih (keyed_erase hkeyed) hfits.2 hfirst
        rwa [Finset.mem_erase, and_iff_right (show row ≠ r from hne)] at htail
      | add r =>
        have htail := ih (keyed_insert hkeyed hfits.1) hfits.2 hfirst
        rwa [Finset.mem_insert, or_iff_right (show row ≠ r from hne)] at htail

theorem not_mem_of_first_add {come : ρ} (hfits : Fits key before log)
    (hfirst : first key (key row) log = some (.add come)) : row ∉ before := by
  induction log generalizing before with
  | nil => cases hfirst
  | cons head tail ih =>
    rw [first, find?_cons] at hfirst
    split at hfirst
    · next hkey =>
      cases hfirst
      have hcome : key come = key row := by simpa [Entry.row] using hkey
      intro hrow
      exact hfits.1 row hrow hcome.symm
    · next hkey =>
      have hne : row ≠ head.row := by
        intro h
        simp [h] at hkey
      intro hrow
      cases head with
      | del r => exact ih hfits.2 hfirst (Finset.mem_erase.mpr ⟨hne, hrow⟩)
      | add r => exact ih hfits.2 hfirst (Finset.mem_insert_of_mem hrow)

end Keyed

end Ledger
