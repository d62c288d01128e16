/-
Lists with some of their places marked: what stands at the marked places, what stands at the
others, and the marked ones filled anew.
-/
import Mathlib.Tactic.Common

namespace Marked

open List

universe u v

variable {α : Type u} {β : Type v} {marks : List Bool} {l new : List α} {a : α}

def pick : List Bool → List α → List α
  | true :: marks, a :: l => a :: pick marks l
  | false :: marks, _ :: l => pick marks l
  | _, _ => []

def rest : List Bool → List α → List α
  | true :: marks, _ :: l => rest marks l
  | false :: marks, a :: l => a :: rest marks l
  | _, _ => []

def put : List Bool → List α → List α → List α
  | true :: marks, _ :: l, b :: new => b :: put marks l new
  | false :: marks, a :: l, new => a :: put marks l new
  | _, _, _ => []

theorem mem_iff (h : l.length = marks.length) : a ∈ l ↔ a ∈ pick marks l ∨ a ∈ rest marks l := by
  induction marks generalizing l with
  | nil =>
    obtain rfl := eq_nil_of_length_eq_zero h
    simp [pick, rest]
  | cons m marks ih =>
    obtain ⟨b, l, rfl⟩ := exists_cons_of_length_eq_add_one h
    have hrest := ih (Nat.succ.inj h)
    cases m
    · simp only [pick, rest, mem_cons, hrest]
      tauto
    · simp only [pick, rest, mem_cons, hrest]
      tauto

theorem pick_map (f : α → β) (marks : List Bool) (l : List α) :
    pick marks (l.map f) = (pick marks l).map f := by
  induction marks generalizing l with
  | nil => rfl
  | cons m marks ih => cases l <;> cases m <;> simp [pick, ih]

theorem rest_map (f : α → β) (marks : List Bool) (l : List α) :
    rest marks (l.map f) = (rest marks l).map f := by
  induction marks generalizing l with
  | nil => rfl
  | cons m marks ih => cases l <;> cases m <;> simp [rest, ih]

theorem put_map (f : α → β) (marks : List Bool) (l new : List α) :
    put marks (l.map f) (new.map f) = (put marks l new).map f := by
  induction marks generalizing l new with
  | nil => rfl
  | cons m marks ih => cases l <;> cases m <;> cases new <;> simp [put, ← ih]

theorem put_pick (h : l.length = marks.length) : put marks l (pick marks l) = l := by
  induction marks generalizing l with
  | nil => exact (eq_nil_of_length_eq_zero h).symm
  | cons m marks ih =>
    obtain ⟨b, l, rfl⟩ := exists_cons_of_length_eq_add_one h
    cases m <;> simp [put, pick, ih (Nat.succ.inj h)]

theorem length_put (h : l.length = marks.length) (hnew : new.length = (pick marks l).length) :
    (put marks l new).length = marks.length := by
  induction marks generalizing l new with
  | nil => rfl
  | cons m marks ih =>
    obtain ⟨b, l, rfl⟩ := exists_cons_of_length_eq_add_one h
    cases m with
    | false => simp [put, ih (Nat.succ.inj h) hnew]
    | true =>
      obtain ⟨c, new, rfl⟩ := exists_cons_of_length_eq_add_one hnew
      simp [put, ih (Nat.succ.inj h) (Nat.succ.inj hnew)]

theorem pick_put (h : l.length = marks.length) (hnew : new.length = (pick marks l).length) :
    pick marks (put marks l new) = new := by
  induction marks generalizing l new with
  | nil => exact (eq_nil_of_length_eq_zero hnew).symm
  | cons m marks ih =>
    obtain ⟨b, l, rfl⟩ := exists_cons_of_length_eq_add_one h
    cases m with
    | false => exact ih (Nat.succ.inj h) hnew
    | true =>
      obtain ⟨c, new, rfl⟩ := exists_cons_of_length_eq_add_one hnew
      simp [put, pick, ih (Nat.succ.inj h) (Nat.succ.inj hnew)]

theorem rest_put (h : l.length = marks.length) (hnew : new.length = (pick marks l).length) :
    rest marks (put marks l new) = rest marks l := by
  induction marks generalizing l new with
  | nil => rfl
  | cons m marks ih =>
    obtain ⟨b, l, rfl⟩ := exists_cons_of_length_eq_add_one h
    cases m with
    | false => simp [put, rest, ih (Nat.succ.inj h) hnew]
    | true =>
      obtain ⟨c, new, rfl⟩ := exists_cons_of_length_eq_add_one hnew
      simp [put, rest, ih (Nat.succ.inj h) (Nat.succ.inj hnew)]

theorem put_congr {l' : List α} (h : l.length = marks.length) (h' : l'.length = marks.length)
    (hrest : rest marks l = rest marks l') (new : List α) : put marks l new = put marks l' new := by
  induction marks generalizing l l' new with
  | nil => rfl
  | cons m marks ih =>
    obtain ⟨b, l, rfl⟩ := exists_cons_of_length_eq_add_one h
    obtain ⟨b', l', rfl⟩ := exists_cons_of_length_eq_add_one h'
    cases m with
    | false =>
      obtain ⟨rfl, htail⟩ := cons.inj hrest
      simp [put, ih (Nat.succ.inj h) (Nat.succ.inj h') htail]
    | true =>
      cases new with
      | nil => rfl
      | cons c new => simp [put, ih (Nat.succ.inj h) (Nat.succ.inj h') hrest]

end Marked
