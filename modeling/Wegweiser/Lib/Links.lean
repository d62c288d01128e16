/-
Rows that name a parent row, and what goes when a row goes.

A table is a list of rows, each with a key and at most one parent key.
-/
import Mathlib.Algebra.Ring.Int.Defs
import Mathlib.Algebra.Ring.Nat
import Mathlib.Data.List.Nodup
import Mathlib.Tactic.Common

namespace Links

open List

universe u v

variable {α : Type u} {κ : Type v}
variable (key : α → κ) (parent : α → Option κ)

theorem forall_mem_concat {l : List α} {a : α} {P : α → Prop} (hl : ∀ x ∈ l, P x) (ha : P a) :
    ∀ x ∈ l ++ [a], P x :=
  forall_mem_append.mpr ⟨hl, forall_mem_singleton.mpr ha⟩

theorem nodup_concat {key : α → κ} {l : List α} {a : α} (hl : (l.map key).Nodup)
    (ha : ∀ x ∈ l, key x ≠ key a) : ((l ++ [a]).map key).Nodup := by
  rw [map_append, nodup_append]
  refine ⟨hl, nodup_singleton _, fun j hj k hk => ?_⟩
  obtain ⟨x, hx, rfl⟩ := mem_map.mp hj
  rw [mem_singleton.mp hk]
  exact ha x hx

/-- A key in `roots`, or the key of a row whose parent is below `roots`. -/
inductive Below (rows : List α) (roots : κ → Prop) : κ → Prop
  | root {k : κ} (hroot : roots k) : Below rows roots k
  | link {a : α} {k : κ} (hrow : a ∈ rows) (hparent : parent a = some k)
      (hk : Below rows roots k) : Below rows roots (key a)

variable {key parent}

theorem Below.mono {rows : List α} {roots roots' : κ → Prop}
    (himp : ∀ k, roots k → Below key parent rows roots' k) {k : κ}
    (hk : Below key parent rows roots k) : Below key parent rows roots' k := by
  induction hk with
  | root hroot => exact himp _ hroot
  | link hrow hparent _ ih => exact .link hrow hparent ih

theorem Below.of_subset {rows rows' : List α} {roots : κ → Prop}
    (hsub : ∀ a ∈ rows, a ∈ rows') {k : κ} (hk : Below key parent rows roots k) :
    Below key parent rows' roots k := by
  induction hk with
  | root hroot => exact .root hroot
  | link hrow hparent _ ih => exact .link (hsub _ hrow) hparent ih

theorem Below.exists_root {rows : List α} {roots : κ → Prop} {k : κ}
    (hk : Below key parent rows roots k) : ∃ j, roots j := by
  induction hk with
  | root hroot => exact ⟨_, hroot⟩
  | link _ _ _ ih => exact ih

theorem below_row {rows : List α} {roots : κ → Prop} {k : κ} (hk : Below key parent rows roots k) :
    roots k ∨ ∃ a ∈ rows, key a = k ∧ ∃ p, parent a = some p ∧
      Below key parent rows roots p := by
  cases hk with
  | root hroot => exact .inl hroot
  | link hrow hparent hp => exact .inr ⟨_, hrow, rfl, _, hparent, hp⟩

def Hangs (key : α → κ) (parent : α → Option κ) (rows : List α) (roots : κ → Prop) (a : α) : Prop :=
  ∃ p, parent a = some p ∧ Below key parent rows roots p

theorem below_cons {rows derived : List α} {next : κ} {queue : List κ}
    (hderived : ∀ a, a ∈ derived ↔ a ∈ rows ∧ parent a = some next) {k : κ}
    (hk : Below key parent rows (· ∈ next :: queue) k) :
    k = next ∨ Below key parent rows (· ∈ queue ++ derived.map key) k := by
  induction hk with
  | root hroot =>
    rcases mem_cons.mp hroot with rfl | hroot
    · exact .inl rfl
    · exact .inr (.root (mem_append_left _ hroot))
  | @link a p hrow hparent _ ih =>
    rcases ih with rfl | ih
    · have hmem := (hderived a).mpr ⟨hrow, hparent⟩
      exact .inr (.root (mem_append_right _ (mem_map_of_mem hmem)))
    · exact .inr (.link hrow hparent ih)

theorem hangs_cons {rows derived : List α} {next : κ} {queue : List κ}
    (hderived : ∀ a, a ∈ derived ↔ a ∈ rows ∧ parent a = some next) {a : α} (ha : a ∈ rows) :
    Hangs key parent rows (· ∈ next :: queue) a ↔
      a ∈ derived ∨ Hangs key parent rows (· ∈ queue ++ derived.map key) a := by
  constructor
  · intro h
    obtain ⟨p, hparent, hbelow⟩ := h
    rcases below_cons hderived hbelow with rfl | hbelow
    · exact .inl ((hderived a).mpr ⟨ha, hparent⟩)
    · exact .inr ⟨p, hparent, hbelow⟩
  · intro h
    rcases h with h | ⟨p, hparent, hbelow⟩
    · exact ⟨next, ((hderived a).mp h).2, .root mem_cons_self⟩
    · refine ⟨p, hparent, hbelow.mono fun j hj => ?_⟩
      rcases mem_append.mp hj with hj | hj
      · exact .root (mem_cons_of_mem _ hj)
      · obtain ⟨b, hb, rfl⟩ := mem_map.mp hj
        obtain ⟨hrow, hlink⟩ := (hderived b).mp hb
        exact .link hrow hlink (.root mem_cons_self)

/-- The rows met in walking down from a queue of keys, `children` listing those directly under a key;
`none` where the walk is longer than the fuel. -/
def walk (key : α → κ) (children : κ → List α) : Nat → List κ → Option (List α)
  | _, [] => some []
  | 0, _ :: _ => none
  | fuel + 1, next :: queue =>
    (walk key children fuel (queue ++ (children next).map key)).map (children next ++ ·)

theorem mem_walk {rows out : List α} {children : κ → List α} {fuel : Nat} {queue : List κ}
    (hchildren : ∀ k a, a ∈ children k ↔ a ∈ rows ∧ parent a = some k)
    (hwalk : walk key children fuel queue = some out) {a : α} :
    a ∈ out ↔ a ∈ rows ∧ Hangs key parent rows (· ∈ queue) a := by
  induction fuel, queue using walk.induct key children generalizing out with
  | case1 fuel =>
    obtain rfl := Option.some.inj (hwalk.symm.trans (by rw [walk]))
    refine ⟨fun h => absurd h not_mem_nil, fun h => ?_⟩
    obtain ⟨-, p, -, hbelow⟩ := h
    obtain ⟨k, hk⟩ := hbelow.exists_root
    cases hk
  | case2 next queue => cases hwalk
  | case3 fuel next queue ih =>
    obtain ⟨rest, hrest, rfl⟩ := Option.map_eq_some_iff.mp hwalk
    rw [mem_append, ih hrest]
    constructor
    · intro h
      rcases h with h | ⟨ha, h⟩
      · have ha := ((hchildren next a).mp h).1
        exact ⟨ha, (hangs_cons (hchildren next) ha).mpr (.inl h)⟩
      · exact ⟨ha, (hangs_cons (hchildren next) ha).mpr (.inr h)⟩
    · intro h
      exact ((hangs_cons (hchildren next) h.1).mp h.2).imp_right fun hangs => ⟨h.1, hangs⟩

section Decidable

variable [DecidableEq κ]
variable (key parent)

/-- The keys of the rows that hang directly off `gone` without being in it. -/
def hanging (rows : List α) (gone : List κ) : List κ :=
  (rows.filter fun a =>
    match parent a with
    | some k => gone.contains k && !gone.contains (key a)
    | none => false).map key

def saturate (rows : List α) : Nat → List κ → List κ
  | 0, gone => gone
  | fuel + 1, gone =>
    if (hanging key parent rows gone).isEmpty then gone
    else saturate rows fuel (gone ++ hanging key parent rows gone)

/-- All keys at or below `roots`. -/
def downward (rows : List α) (roots : List κ) : List κ :=
  saturate key parent rows rows.length roots

variable {key parent}

theorem mem_hanging {rows : List α} {gone : List κ} {k : κ} :
    k ∈ hanging key parent rows gone ↔
      ∃ a ∈ rows, key a = k ∧ k ∉ gone ∧ ∃ p ∈ gone, parent a = some p := by
  simp only [hanging, mem_map, mem_filter]
  constructor
  · rintro ⟨a, ⟨hrow, hkeep⟩, rfl⟩
    split at hkeep
    · next p hparent =>
      simp only [Bool.and_eq_true, contains_iff_mem, Bool.not_eq_true',
        ← Bool.not_eq_true] at hkeep
      exact ⟨a, hrow, rfl, hkeep.2, p, hkeep.1, hparent⟩
    · cases hkeep
  · rintro ⟨a, hrow, rfl, hnot, p, hp, hparent⟩
    refine ⟨a, ⟨hrow, ?_⟩, rfl⟩
    simp only [hparent, Bool.and_eq_true, contains_iff_mem, Bool.not_eq_true',
      ← Bool.not_eq_true]
    exact ⟨hp, hnot⟩

theorem below_subset_of_hanging_nil {rows : List α} {gone : List κ}
    (hnil : hanging key parent rows gone = []) {k : κ}
    (hk : Below key parent rows (· ∈ gone) k) : k ∈ gone := by
  induction hk with
  | root hroot => exact hroot
  | @link a p hrow hparent _ ih =>
    by_contra hnot
    have hmem : key a ∈ hanging key parent rows gone :=
      mem_hanging.mpr ⟨a, hrow, rfl, hnot, p, ih, hparent⟩
    simp [hnil] at hmem

theorem saturate_below {rows : List α} {fuel : Nat} {gone : List κ} {k : κ}
    (hk : k ∈ saturate key parent rows fuel gone) : Below key parent rows (· ∈ gone) k := by
  induction fuel generalizing gone with
  | zero => exact .root hk
  | succ fuel ih =>
    rw [saturate] at hk
    split at hk
    · exact .root hk
    · refine Below.mono ?_ (ih hk)
      intro j hj
      rcases mem_append.mp hj with hj | hj
      · exact .root hj
      · obtain ⟨a, hrow, rfl, -, p, hp, hparent⟩ := mem_hanging.mp hj
        exact .link hrow hparent (.root hp)

theorem subset_saturate {rows : List α} {fuel : Nat} {gone : List κ} :
    ∀ k ∈ gone, k ∈ saturate key parent rows fuel gone := by
  induction fuel generalizing gone with
  | zero => exact fun k hk => hk
  | succ fuel ih =>
    intro k hk
    rw [saturate]
    split
    · exact hk
    · exact ih k (mem_append_left _ hk)

/-- The rows a list of keys has not reached yet; every unsaturated round makes
this list shorter, which is why the number of rows is fuel enough. -/
def unreached (key : α → κ) (rows : List α) (gone : List κ) : List α :=
  rows.filter fun a => !gone.contains (key a)

theorem unreached_length_lt {rows : List α} {gone : List κ}
    (hne : hanging key parent rows gone ≠ []) :
    (unreached key rows (gone ++ hanging key parent rows gone)).length <
      (unreached key rows gone).length := by
  obtain ⟨k, hk⟩ := exists_mem_of_ne_nil _ hne
  obtain ⟨a, hrow, rfl, hnot, -⟩ := mem_hanging.mp hk
  have hsub : unreached key rows (gone ++ hanging key parent rows gone) =
      (unreached key rows gone).filter
        fun a => !(hanging key parent rows gone).contains (key a) := by
    simp only [unreached, filter_filter]
    refine filter_congr fun b _ => ?_
    simp [Bool.and_comm]
  rw [hsub]
  refine length_filter_lt_length_iff_exists.mpr ⟨a, ?_, ?_⟩
  · simp [unreached, hrow, hnot]
  · simp [hk]

theorem hanging_saturate_nil {rows : List α} {fuel : Nat} {gone : List κ}
    (hfuel : (unreached key rows gone).length ≤ fuel) :
    hanging key parent rows (saturate key parent rows fuel gone) = [] := by
  induction fuel generalizing gone with
  | zero =>
    rw [saturate]
    by_contra hne
    have hlt := unreached_length_lt hne
    omega
  | succ fuel ih =>
    rw [saturate]
    split
    · next hempty => exact isEmpty_iff.mp hempty
    · next hempty =>
      have hne : hanging key parent rows gone ≠ [] := by
        simpa [List.isEmpty_iff] using hempty
      have hlt := unreached_length_lt hne
      exact ih (by omega)

theorem mem_downward {rows : List α} {roots : List κ} {k : κ} :
    k ∈ downward key parent rows roots ↔ Below key parent rows (· ∈ roots) k := by
  constructor
  · exact saturate_below
  · intro hk
    have hfuel : (unreached key rows roots).length ≤ rows.length :=
      length_filter_le _ _
    refine below_subset_of_hanging_nil (hanging_saturate_nil hfuel) ?_
    exact Below.mono (fun j hj => .root (subset_saturate j hj)) hk

def prune (key : α → κ) (parent : α → Option κ) (rows : List α) (roots : List κ) : List α :=
  rows.filter fun a => !(downward key parent rows roots).contains (key a)

theorem mem_prune {rows : List α} {roots : List κ} {a : α} :
    a ∈ prune key parent rows roots ↔
      a ∈ rows ∧ ¬ Below key parent rows (· ∈ roots) (key a) := by
  simp [prune, mem_downward]

theorem prune_sublist {rows : List α} {roots : List κ} :
    (prune key parent rows roots).Sublist rows :=
  filter_sublist

theorem below_append {rows : List α} {first second : List κ} {k : κ}
    (hk : Below key parent rows (· ∈ first ++ second) k) :
    Below key parent rows (· ∈ first) k ∨
      Below key parent (prune key parent rows first) (· ∈ second) k := by
  induction hk with
  | root hroot =>
    rcases mem_append.mp hroot with hroot | hroot
    · exact .inl (.root hroot)
    · exact .inr (.root hroot)
  | @link b p hb hparent _ ih =>
    by_cases hgone : Below key parent rows (· ∈ first) (key b)
    · exact .inl hgone
    · rcases ih with ih | ih
      · exact .inl (.link hb hparent ih)
      · exact .inr (.link (mem_prune.mpr ⟨hb, hgone⟩) hparent ih)

theorem mem_prune_prune {rows : List α} {first second : List κ} {a : α} :
    a ∈ prune key parent (prune key parent rows first) second ↔
      a ∈ prune key parent rows (first ++ second) := by
  simp only [mem_prune]
  constructor
  · rintro ⟨⟨hrow, hfirst⟩, hsecond⟩
    refine ⟨hrow, fun hboth => ?_⟩
    rcases below_append hboth with hsplit | hsplit
    · exact hfirst hsplit
    · exact hsecond hsplit
  · rintro ⟨hrow, hboth⟩
    refine ⟨⟨hrow, fun hfirst => hboth ?_⟩, fun hsecond => hboth ?_⟩
    · exact hfirst.mono fun k hk => .root (mem_append_left _ hk)
    · have hrows : Below key parent rows (· ∈ second) (key a) :=
        hsecond.of_subset fun b hb => (mem_prune.mp hb).1
      exact hrows.mono fun k hk => .root (mem_append_right _ hk)

theorem mem_prune_prune_of_subset {rows : List α} {first second rest : List κ}
    (hsub : ∀ k ∈ rest, k ∈ second)
    (hrest : ∀ k ∈ second, k ∈ rest ∨ Below key parent rows (· ∈ first) k) {a : α} :
    a ∈ prune key parent (prune key parent rows first) rest ↔
      a ∈ prune key parent rows (first ++ second) := by
  have hbelow : ∀ k, Below key parent (prune key parent rows first) (· ∈ second) k →
      Below key parent rows (· ∈ first) k ∨
        Below key parent (prune key parent rows first) (· ∈ rest) k := by
    intro k hk
    induction hk with
    | root hroot =>
      rcases hrest _ hroot with hroot | hgone
      · exact .inr (.root hroot)
      · exact .inl hgone
    | link hb hparent _ ih =>
      rcases ih with ih | ih
      · exact .inl (.link (mem_prune.mp hb).1 hparent ih)
      · exact .inr (.link hb hparent ih)
  rw [← mem_prune_prune]
  constructor
  · intro ha
    obtain ⟨hrow, hkept⟩ := mem_prune.mp ha
    refine mem_prune.mpr ⟨hrow, fun hk => ?_⟩
    rcases hbelow _ hk with hgone | hk
    · exact (mem_prune.mp hrow).2 hgone
    · exact hkept hk
  · intro ha
    obtain ⟨hrow, hkept⟩ := mem_prune.mp ha
    exact mem_prune.mpr ⟨hrow, fun hk => hkept (hk.mono fun k hk => .root (hsub k hk))⟩

end Decidable

end Links
