/-
Tables kept by two clocks.

The rows of two tables stand in pairs when each row of either has a partner in the other, whatever
the order they are in.
-/
import Wegweiser.Lib.Links

namespace Rows

open List Links

universe u v

variable {α : Type u} {κ : Type v}

def Covers (P : α → α → Prop) (l l' : List α) : Prop := ∀ a ∈ l, ∃ b ∈ l', P a b

/-- Every row of either list has a partner in the other. -/
structure Paired (P : α → α → Prop) (l l' : List α) : Prop where
  left : Covers P l l'
  right : Covers (flip P) l' l

section

variable {P Q : α → α → Prop} {l l' : List α} {a b : α}

namespace Covers

theorem exists_of (h : Covers P l l') {p : α → Prop} (hp : ∀ a b, P a b → p a → p b)
    (hex : ∃ a ∈ l, p a) : ∃ b ∈ l', p b := by
  obtain ⟨a, ha, hpa⟩ := hex
  obtain ⟨b, hb, hab⟩ := h a ha
  exact ⟨b, hb, hp a b hab hpa⟩

theorem map (h : Covers P l l') {f g : α → α}
    (hmap : ∀ a ∈ l, ∀ b ∈ l', P a b → Q (f a) (g b)) : Covers Q (l.map f) (l'.map g) := by
  intro x hx
  obtain ⟨a, ha, rfl⟩ := mem_map.mp hx
  obtain ⟨b, hb, hab⟩ := h a ha
  exact ⟨g b, mem_map_of_mem hb, hmap a ha b hb hab⟩

theorem append (h : Covers P l l') (hab : P a b) : Covers P (l ++ [a]) (l' ++ [b]) := by
  intro x hx
  rcases mem_append.mp hx with hx | hx
  · obtain ⟨y, hy, hxy⟩ := h x hx
    exact ⟨y, mem_append_left _ hy, hxy⟩
  · rw [mem_singleton.mp hx]
    exact ⟨b, mem_append_right _ (mem_singleton_self b), hab⟩

theorem filter (h : Covers P l l') {p q : α → Bool} (hpq : ∀ a ∈ l, ∀ b, P a b → p a = q b) :
    Covers P (l.filter p) (l'.filter q) := by
  intro a ha
  obtain ⟨hmem, hpa⟩ := mem_filter.mp ha
  obtain ⟨b, hb, hab⟩ := h a hmem
  exact ⟨b, mem_filter.mpr ⟨hb, (hpq a hmem b hab).symm.trans hpa⟩, hab⟩

theorem below {key : α → κ} {parent : α → Option κ} (h : Covers P l l')
    (hkey : ∀ a b, P a b → key a = key b) (hparent : ∀ a b, P a b → parent a = parent b)
    {roots : κ → Prop} {k : κ} (hk : Below key parent l roots k) :
    Below key parent l' roots k := by
  induction hk with
  | root hroot => exact .root hroot
  | @link a p ha hp _ ih =>
    obtain ⟨b, hb, hab⟩ := h a ha
    rw [hkey a b hab]
    exact .link hb ((hparent a b hab).symm.trans hp) ih

end Covers

namespace Paired

theorem exists_iff (h : Paired P l l') {p : α → Prop} (hp : ∀ a b, P a b → (p a ↔ p b)) :
    (∃ a ∈ l, p a) ↔ ∃ b ∈ l', p b :=
  ⟨h.left.exists_of fun a b hab => (hp a b hab).mp,
    h.right.exists_of fun b a hab => (hp a b hab).mpr⟩

theorem forall_iff (h : Paired P l l') {p : α → Prop} (hp : ∀ a b, P a b → (p a ↔ p b)) :
    (∀ a ∈ l, p a) ↔ ∀ b ∈ l', p b := by
  have hnone := not_congr (h.exists_iff fun a b hab => not_congr (hp a b hab))
  simpa only [not_exists, not_and, not_not] using hnone

theorem map (h : Paired P l l') {f g : α → α}
    (hmap : ∀ a ∈ l, ∀ b ∈ l', P a b → Q (f a) (g b)) : Paired Q (l.map f) (l'.map g) :=
  ⟨h.left.map hmap, h.right.map fun b hb a ha => hmap a ha b hb⟩

theorem mono (h : Paired P l l') (himp : ∀ a ∈ l, ∀ b ∈ l', P a b → Q a b) : Paired Q l l' := by
  have hmapped := h.map himp (f := fun a => a) (g := fun b => b)
  rwa [map_id', map_id'] at hmapped

theorem append (h : Paired P l l') (hab : P a b) : Paired P (l ++ [a]) (l' ++ [b]) :=
  ⟨h.left.append hab, h.right.append hab⟩

theorem filter (h : Paired P l l') {p : α → Bool} (hp : ∀ a b, P a b → p a = p b) :
    Paired P (l.filter p) (l'.filter p) :=
  ⟨h.left.filter fun a _ b => hp a b, h.right.filter fun b _ a hab => (hp a b hab).symm⟩

/-- What goes with everything below it goes in pairs. -/
theorem prune [DecidableEq κ] {key : α → κ} {parent : α → Option κ} (h : Paired P l l')
    (hkey : ∀ a b, P a b → key a = key b) (hparent : ∀ a b, P a b → parent a = parent b)
    {roots roots' : List κ} (hroots : ∀ k, k ∈ roots ↔ k ∈ roots') :
    Paired P (prune key parent l roots) (prune key parent l' roots') := by
  have hsame : (fun k => k ∈ roots) = fun k => k ∈ roots' := funext fun k => propext (hroots k)
  constructor
  · intro a ha
    obtain ⟨hmem, hkept⟩ := mem_prune.mp ha
    obtain ⟨b, hb, hab⟩ := h.left a hmem
    refine ⟨b, mem_prune.mpr ⟨hb, fun hbelow => hkept ?_⟩, hab⟩
    rw [hsame, hkey a b hab]
    exact h.right.below (fun b a hab => (hkey a b hab).symm)
      (fun b a hab => (hparent a b hab).symm) hbelow
  · intro b hb
    obtain ⟨hmem, hkept⟩ := mem_prune.mp hb
    obtain ⟨a, ha, hab⟩ := h.right b hmem
    refine ⟨a, mem_prune.mpr ⟨ha, fun hbelow => hkept ?_⟩, hab⟩
    rw [← hsame, ← hkey a b hab]
    exact h.left.below hkey hparent hbelow

end Paired

end

/-- How the rows of a table are told apart, what they carry beside their times, the time a
clock leaves in them, and what is looked at when tables are compared. -/
structure Clocked (α : Type u) (κ : Type v) where
  key : α → κ
  bare : α → α
  time : α → Nat
  shown : α → α
  key_bare : ∀ a, key (bare a) = key a
  key_shown : ∀ a, key (shown a) = key a
  time_shown : ∀ a, time (shown a) = time a

/-- Partners under two clocks, `S` being the keys of the rows a clock has written to. -/
structure Clocked.Twins (T : Clocked α κ) (now now' : Nat) (S : κ → Prop) (a b : α) : Prop where
  bare : T.bare a = T.bare b
  stamped : S (T.key a) → T.time a = now ∧ T.time b = now'
  same : ¬ S (T.key a) ∨ now = now' → T.shown a = T.shown b

namespace Clocked

variable {T : Clocked α κ} {now now' : Nat} {S S' : κ → Prop} {a b : α} {l l' : List α}

theorem Twins.key (h : T.Twins now now' S a b) : T.key a = T.key b := by
  rw [← T.key_bare a, h.bare, T.key_bare]

theorem Twins.refl (hnone : ¬ S (T.key a)) : T.Twins now now' S a a :=
  ⟨rfl, fun hS => absurd hS hnone, fun _ => rfl⟩

theorem Twins.congr (h : T.Twins now now' S a b) (hS : S' (T.key a) ↔ S (T.key a)) :
    T.Twins now now' S' a b :=
  ⟨h.bare, fun hS' => h.stamped (hS.mp hS'),
    fun hor => h.same (hor.imp_left fun hnot hkey => hnot (hS.mpr hkey))⟩

theorem Twins.of_stamped (hbare : T.bare a = T.bare b) (hS : S (T.key a)) (ha : T.time a = now)
    (hb : T.time b = now') (hsame : now = now' → T.shown a = T.shown b) : T.Twins now now' S a b :=
  ⟨hbare, fun _ => ⟨ha, hb⟩, fun hor => hsame (hor.resolve_left fun hnot => hnot hS)⟩

theorem shown_iff (h : Paired (T.Twins now now' S) l l') (hkeys : (l'.map T.key).Nodup) :
    (∀ x, x ∈ l.map T.shown ↔ x ∈ l'.map T.shown) ↔ now = now' ∨ ∀ a ∈ l, ¬ S (T.key a) := by
  constructor
  · intro hshown
    by_cases hnow : now = now'
    · exact .inl hnow
    · refine .inr fun a ha hS => hnow ?_
      obtain ⟨b, hb, hab⟩ := h.left a ha
      obtain ⟨c, hc, hca⟩ := mem_map.mp ((hshown _).mp (mem_map_of_mem ha))
      have hkey : T.key c = T.key b := by
        rw [← T.key_shown c, hca, T.key_shown, hab.key]
      have htime : T.time c = T.time a := by rw [← T.time_shown c, hca, T.time_shown]
      rw [inj_on_of_nodup_map hkeys hc hb hkey] at htime
      obtain ⟨hta, htb⟩ := hab.stamped hS
      exact hta.symm.trans (htime.symm.trans htb)
  · intro hcond
    have hsame : ∀ a ∈ l, ∀ b, T.Twins now now' S a b → T.shown a = T.shown b := by
      intro a ha b hab
      rcases hcond with hnow | hnone
      · exact hab.same (.inr hnow)
      · exact hab.same (.inl (hnone a ha))
    intro x
    constructor
    · intro hx
      obtain ⟨a, ha, rfl⟩ := mem_map.mp hx
      obtain ⟨b, hb, hab⟩ := h.left a ha
      rw [hsame a ha b hab]
      exact mem_map_of_mem hb
    · intro hx
      obtain ⟨b, hb, rfl⟩ := mem_map.mp hx
      obtain ⟨a, ha, hab⟩ := h.right b hb
      rw [← hsame a ha b hab]
      exact mem_map_of_mem ha

end Clocked

end Rows
