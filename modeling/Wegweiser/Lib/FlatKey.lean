/-
Keys made of several strings, flattened into one.

Each string is ended by two zero octets, and a zero inside it is escaped.
-/
import Mathlib.Data.List.Basic
import Mathlib.Tactic.Common

namespace FlatKey

open List

universe u

section Order

variable {α : Type u}

/-- Two sequences share a beginning; there the first one ends, or its next element is the lesser. -/
def Precedes (lt : α → α → Prop) (xs ys : List α) : Prop :=
  ∃ shared, (xs = shared ∧ ∃ y rest, ys = shared ++ y :: rest) ∨
    ∃ x y xs' ys', xs = shared ++ x :: xs' ∧ ys = shared ++ y :: ys' ∧ lt x y

theorem precedes_nil_cons (lt : α → α → Prop) (y : α) (ys : List α) : Precedes lt [] (y :: ys) :=
  ⟨[], .inl ⟨rfl, y, ys, rfl⟩⟩

theorem not_precedes_nil (lt : α → α → Prop) (xs : List α) : ¬ Precedes lt xs [] := by
  rintro ⟨shared, ⟨-, y, rest, h⟩ | ⟨x, y, xs', ys', -, h, -⟩⟩
  · simp at h
  · simp at h

theorem precedes_cons {lt : α → α → Prop} {x y : α} {xs ys : List α} :
    Precedes lt (x :: xs) (y :: ys) ↔ lt x y ∨ x = y ∧ Precedes lt xs ys := by
  constructor
  · rintro ⟨shared, ⟨hxs, z, rest, hys⟩ | ⟨a, b, xs', ys', hxs, hys, hlt⟩⟩
    · subst hxs
      obtain ⟨rfl, rfl⟩ := cons.inj hys
      exact .inr ⟨rfl, xs, .inl ⟨rfl, z, rest, rfl⟩⟩
    · cases shared with
      | nil =>
        obtain ⟨rfl, -⟩ := cons.inj hxs
        obtain ⟨rfl, -⟩ := cons.inj hys
        exact .inl hlt
      | cons s shared =>
        obtain ⟨rfl, rfl⟩ := cons.inj hxs
        obtain ⟨rfl, rfl⟩ := cons.inj hys
        exact .inr ⟨rfl, shared, .inr ⟨a, b, xs', ys', rfl, rfl, hlt⟩⟩
  · rintro (hlt | ⟨rfl, shared, ⟨rfl, z, rest, rfl⟩ | ⟨a, b, xs', ys', rfl, rfl, hlt⟩⟩)
    · exact ⟨[], .inr ⟨x, y, xs, ys, rfl, rfl, hlt⟩⟩
    · exact ⟨x :: xs, .inl ⟨rfl, z, rest, rfl⟩⟩
    · exact ⟨x :: shared, .inr ⟨a, b, xs', ys', rfl, rfl, hlt⟩⟩

theorem compare_eq_lt [Ord α] [Std.LawfulEqOrd α] {lt : α → α → Prop}
    (hlt : ∀ x y, compare x y = .lt ↔ lt x y) (xs ys : List α) :
    compare xs ys = .lt ↔ Precedes lt xs ys := by
  induction xs generalizing ys with
  | nil =>
    cases ys with
    | nil => simp [not_precedes_nil]
    | cons y ys => simp [precedes_nil_cons]
  | cons x xs ih =>
    cases ys with
    | nil => simp [not_precedes_nil]
    | cons y ys =>
      rw [List.compare_cons_cons, Ordering.then_eq_lt, precedes_cons, hlt, ih,
        Std.LawfulEqOrd.compare_eq_iff_eq]

end Order

abbrev Octets := List UInt8

def escape (c : UInt8) : Octets := if c = 0 then [0, 255] else [c]

def flatten (key : List Octets) : Octets := key.flatMap fun s => s.flatMap escape ++ [0, 0]

theorem flatten_cons (s : Octets) (key : List Octets) :
    flatten (s :: key) = s.flatMap escape ++ 0 :: 0 :: flatten key := by
  rw [flatten, flatMap_cons, append_assoc]
  rfl

theorem compare_octets_eq_lt (c d : UInt8) : compare c d = .lt ↔ c < d := Std.compare_eq_lt

theorem compare_zero {c : UInt8} (hc : c ≠ 0) : compare 0 c = .lt := by
  rw [compare_octets_eq_lt, UInt8.lt_iff_toNat_lt]
  have : c.toNat ≠ 0 := fun h => hc (UInt8.toNat_inj.mp h)
  exact Nat.pos_of_ne_zero this

theorem compare_end (c : UInt8) (rest more : Octets) :
    compare (0 :: 0 :: rest) (escape c ++ more) = .lt := by
  rw [escape]
  split
  · rfl
  · rename_i hc
    rw [List.singleton_append, List.compare_cons_cons, compare_zero hc]
    rfl

theorem compare_escape {c d : UInt8} (hcd : c ≠ d) (rest more : Octets) :
    compare (escape c ++ rest) (escape d ++ more) = compare c d := by
  have hne : compare c d ≠ .eq := fun h => hcd (Std.LawfulEqOrd.eq_of_compare h)
  have hheads : ∀ xs ys : Octets, compare (c :: xs) (d :: ys) = compare c d := by
    intro xs ys
    rw [List.compare_cons_cons]
    cases h : compare c d with
    | lt | gt => rfl
    | eq => exact absurd h hne
  rw [escape, escape]
  split <;> split <;> rename_i hc hd
  · exact absurd (hc.trans hd.symm) hcd
  · subst hc
    exact hheads _ _
  · subst hd
    exact hheads _ _
  · exact hheads _ _

theorem compare_append (shared xs ys : Octets) :
    compare (shared ++ xs) (shared ++ ys) = compare xs ys := by
  induction shared with
  | nil => rfl
  | cons c shared ih =>
    rw [List.cons_append, List.cons_append, List.compare_cons_cons, Std.ReflOrd.compare_self, ih]
    rfl

theorem compare_escaped (s t rest more : Octets) :
    compare (s.flatMap escape ++ 0 :: 0 :: rest) (t.flatMap escape ++ 0 :: 0 :: more) =
      (compare s t).then (compare rest more) := by
  induction s generalizing t with
  | nil =>
    cases t with
    | nil => exact compare_append [0, 0] rest more
    | cons d t =>
      rw [flatMap_nil, nil_append, flatMap_cons, append_assoc, compare_end]
      rfl
  | cons c s ih =>
    cases t with
    | nil =>
      rw [flatMap_nil, nil_append, flatMap_cons, append_assoc,
        Std.OrientedOrd.eq_swap (a := escape c ++ _), compare_end]
      rfl
    | cons d t =>
      rw [flatMap_cons, flatMap_cons, append_assoc, append_assoc,
        List.compare_cons_cons]
      by_cases hcd : c = d
      · subst hcd
        rw [compare_append, ih, Std.ReflOrd.compare_self]
        rfl
      · rw [compare_escape hcd]
        cases h : compare c d with
        | lt | gt => rfl
        | eq => exact absurd (Std.LawfulEqOrd.eq_of_compare h) hcd

theorem compare_flatten (a b : List Octets) : compare (flatten a) (flatten b) = compare a b := by
  induction a generalizing b with
  | nil =>
    cases b with
    | nil => rfl
    | cons t b =>
      rw [flatten_cons]
      cases t with
      | nil => rfl
      | cons d t =>
        rw [flatMap_cons, escape]
        split <;> rfl
  | cons s a ih =>
    cases b with
    | nil =>
      rw [flatten_cons]
      cases s with
      | nil => rfl
      | cons c s =>
        rw [flatMap_cons, escape]
        split <;> rfl
    | cons t b => rw [flatten_cons, flatten_cons, compare_escaped, ih, List.compare_cons_cons]

theorem escaped_begins (s t rest more : Octets) :
    s.flatMap escape ++ 0 :: 0 :: rest <+: t.flatMap escape ++ 0 :: 0 :: more ↔
      s = t ∧ rest <+: more := by
  induction s generalizing t with
  | nil =>
    cases t with
    | nil => simp
    | cons d t =>
      rw [flatMap_cons, escape]
      split
      · simp
      · rename_i hd
        simp [Ne.symm hd]
  | cons c s ih =>
    cases t with
    | nil =>
      rw [flatMap_cons, escape]
      split <;> simp_all
    | cons d t =>
      rw [flatMap_cons, flatMap_cons, append_assoc, append_assoc]
      by_cases hcd : c = d
      · subst hcd
        rw [prefix_append_right_inj, ih]
        simp
      · have hescape : ∀ xs ys : Octets, ¬ escape c ++ xs <+: escape d ++ ys := by
          intro xs ys
          rw [escape, escape]
          split <;> split <;> simp_all [eq_comm]
        simp [hescape, hcd]

theorem flatten_begins (a b : List Octets) : flatten a <+: flatten b ↔ a <+: b := by
  induction a generalizing b with
  | nil => simp [flatten]
  | cons s a ih =>
    cases b with
    | nil => simp [flatten]
    | cons t b => rw [flatten_cons, flatten_cons, escaped_begins, ih, cons_prefix_cons]

end FlatKey
