/-
Rows whose links form a forest.
-/
import Mathlib.Data.Fintype.Card
import Mathlib.Data.Set.Finite.List
import Wegweiser.Lib.Links

namespace Links

open List

universe u v

variable {α : Type u} {κ : Type v} {key : α → κ} {parent : α → Option κ}

def Forest (key : α → κ) (parent : α → Option κ) (rows : List α) : Prop :=
  ∀ a ∈ rows, ¬ Hangs key parent rows (· = key a) a

theorem Forest.of_subset {rows rows' : List α} (h : Forest key parent rows')
    (hsub : ∀ a ∈ rows, a ∈ rows') : Forest key parent rows := by
  intro a ha hhangs
  obtain ⟨p, hparent, hbelow⟩ := hhangs
  exact h a (hsub a ha) ⟨p, hparent, hbelow.of_subset hsub⟩

theorem forest_of_rank {rows : List α} (rank : κ → Nat)
    (h : ∀ a ∈ rows, ∀ k, parent a = some k → rank k < rank (key a)) : Forest key parent rows := by
  intro a ha hhangs
  obtain ⟨p, hparent, hbelow⟩ := hhangs
  have hle (k : κ) (hk : Below key parent rows (· = key a) k) : rank (key a) ≤ rank k := by
    induction hk with
    | root hroot => rw [hroot]
    | link hrow hlink _ ih => exact ih.trans (h _ hrow _ hlink).le
  exact absurd (h a ha p hparent) (hle p hbelow).not_gt

theorem Hangs.trans {rows : List α} {a b c : α} (hb : b ∈ rows)
    (hab : Hangs key parent rows (· = key b) a) (hbc : Hangs key parent rows (· = key c) b) :
    Hangs key parent rows (· = key c) a := by
  obtain ⟨p, hparent, hbelow⟩ := hab
  obtain ⟨q, hq, hbelow'⟩ := hbc
  refine ⟨p, hparent, hbelow.mono fun k hk => ?_⟩
  rw [hk]
  exact .link hb hq hbelow'

/-- A forest has a row that hangs off none of its rows, and one that none of them hangs off. -/
theorem Forest.exists_ends {rows : List α} (h : Forest key parent rows) (hne : rows ≠ []) :
    (∃ a ∈ rows, ∀ b ∈ rows, parent a ≠ some (key b)) ∧
      ∃ a ∈ rows, ∀ b ∈ rows, parent b ≠ some (key a) := by
  let below (a b : {a // a ∈ rows}) : Prop := Hangs key parent rows (· = key b.1) a.1
  have hfinite : Finite {a // a ∈ rows} := finite_toSet rows
  have htrans : IsTrans _ below := ⟨fun a b c hab hbc => hab.trans b.2 hbc⟩
  have hirrefl : Std.Irrefl below := ⟨fun a => h a.1 a.2⟩
  have hlink {a b : α} (hab : parent a = some (key b)) : Hangs key parent rows (· = key b) a :=
    ⟨key b, hab, .root rfl⟩
  obtain ⟨first, hfirst⟩ := exists_mem_of_ne_nil rows hne
  constructor
  · obtain ⟨a, -, hmin⟩ := (Finite.wellFounded_of_trans_of_irrefl (Function.swap below)).has_min
      Set.univ ⟨⟨first, hfirst⟩, trivial⟩
    exact ⟨a.1, a.2, fun b hb hab => hmin ⟨b, hb⟩ trivial (hlink hab)⟩
  · obtain ⟨a, -, hmin⟩ := (Finite.wellFounded_of_trans_of_irrefl below).has_min
      Set.univ ⟨⟨first, hfirst⟩, trivial⟩
    exact ⟨a.1, a.2, fun b hb hab => hmin ⟨b, hb⟩ trivial (hlink hab)⟩

/-- A walk from `root` that is done with the keys `done`: no key comes up twice, and each is the root
or that of a row under a key the walk is done with. -/
structure Walking (key : α → κ) (parent : α → Option κ) (rows : List α) (root : κ)
    (done queue : List κ) : Prop where
  nodup : (done ++ queue).Nodup
  linked : ∀ k ∈ done ++ queue, k = root ∨ ∃ a ∈ rows, key a = k ∧ ∃ p ∈ done, parent a = some p
  below : ∀ k ∈ done ++ queue, Below key parent rows (· = root) k

section Walk

variable {rows : List α} {children : κ → List α} {root next : κ} {done queue : List κ} {a : α}
  (hkeys : (rows.map key).Nodup) (hforest : Forest key parent rows)
  (hchildren : ∀ k a, a ∈ children k ↔ a ∈ rows ∧ parent a = some k)

include hkeys hforest hchildren

theorem Walking.fresh (h : Walking key parent rows root done (next :: queue))
    (ha : a ∈ children next) : key a ∉ done ++ next :: queue := by
  intro hmem
  obtain ⟨hrow, hparent⟩ := (hchildren next a).mp ha
  have hnext : next ∈ done ++ next :: queue := by simp
  rcases h.linked _ hmem with heq | ⟨b, hb, hkey, p, hp, hlink⟩
  · exact hforest a hrow ⟨next, hparent, heq ▸ h.below next hnext⟩
  · -- the row under a key that is done with is `a` itself, and `next` is not done with
    obtain rfl := inj_on_of_nodup_map hkeys hb hrow hkey
    obtain rfl := Option.some.inj (hlink.symm.trans hparent)
    exact (nodup_append.mp h.nodup).2.2 p hp p mem_cons_self rfl

theorem Walking.step (h : Walking key parent rows root done (next :: queue))
    (hnodup : ((children next).map key).Nodup) :
    Walking key parent rows root (done ++ [next]) (queue ++ (children next).map key) := by
  have hlist : done ++ [next] ++ (queue ++ (children next).map key) =
      (done ++ next :: queue) ++ (children next).map key := by simp
  have hnext : next ∈ done ++ next :: queue := by simp
  refine ⟨?_, ?_, ?_⟩ <;> rw [hlist]
  · refine nodup_append.mpr ⟨h.nodup, hnodup, fun k hk j hj heq => ?_⟩
    obtain ⟨a, ha, rfl⟩ := mem_map.mp hj
    exact h.fresh hkeys hforest hchildren ha (heq ▸ hk)
  · intro k hk
    rcases mem_append.mp hk with hk | hk
    · refine (h.linked k hk).imp_right fun hrow => ?_
      obtain ⟨a, ha, hkey, p, hp, hlink⟩ := hrow
      exact ⟨a, ha, hkey, p, mem_append_left _ hp, hlink⟩
    · obtain ⟨a, ha, rfl⟩ := mem_map.mp hk
      obtain ⟨hrow, hlink⟩ := (hchildren next a).mp ha
      exact .inr ⟨a, hrow, rfl, next, by simp, hlink⟩
  · intro k hk
    rcases mem_append.mp hk with hk | hk
    · exact h.below k hk
    · obtain ⟨a, ha, rfl⟩ := mem_map.mp hk
      obtain ⟨hrow, hlink⟩ := (hchildren next a).mp ha
      exact .link hrow hlink (h.below next hnext)

theorem Walking.exists_walk (hnodup : ∀ k, ((children k).map key).Nodup) {fuel : Nat}
    (h : Walking key parent rows root done queue) (hfuel : rows.length + 1 ≤ fuel + done.length) :
    ∃ out, walk key children fuel queue = some out ∧ (out.map key).Nodup ∧
      ∀ a ∈ out, key a ∉ done ++ queue := by
  induction fuel generalizing done queue with
  | zero =>
    cases queue with
    | nil => exact ⟨[], rfl, .nil, by simp⟩
    | cons next queue =>
      have hsub : done ++ next :: queue ⊆ root :: rows.map key := by
        intro k hk
        rcases h.linked k hk with rfl | ⟨a, ha, rfl, -⟩
        · exact mem_cons_self
        · exact mem_cons_of_mem _ (mem_map_of_mem ha)
      have hlength := (h.nodup.subperm hsub).length_le
      simp only [length_append, length_cons, length_map] at hlength
      omega
  | succ fuel ih =>
    cases queue with
    | nil => exact ⟨[], rfl, .nil, by simp⟩
    | cons next queue =>
      obtain ⟨out, hwalk, hout, hfresh⟩ := ih (h.step hkeys hforest hchildren (hnodup next))
        (by rw [length_append, length_singleton]; omega)
      refine ⟨children next ++ out, by rw [walk, hwalk]; rfl, ?_, fun a ha hmem => ?_⟩
      · rw [map_append]
        refine nodup_append.mpr ⟨hnodup next, hout, fun k hk j hj heq => ?_⟩
        obtain ⟨a, ha, rfl⟩ := mem_map.mp hj
        exact hfresh a ha (by simp [← heq, hk])
      · rcases mem_append.mp ha with ha | ha
        · exact h.fresh hkeys hforest hchildren ha hmem
        · refine hfresh a ha ?_
          rw [append_cons] at hmem
          rw [← append_assoc]
          exact mem_append_left _ hmem

/-- In a forest the walk from a key meets every row below it, each once. -/
theorem Forest.exists_walk (hnodup : ∀ k, ((children k).map key).Nodup) (root : κ) :
    ∃ out, walk key children (rows.length + 1) [root] = some out ∧ out.Nodup ∧
      ∀ a, a ∈ out ↔ a ∈ rows ∧ Hangs key parent rows (· = root) a := by
  have hstart : Walking key parent rows root [] [root] :=
    ⟨by simp, fun k hk => .inl (by simpa using hk), fun k hk => .root (by simpa using hk)⟩
  obtain ⟨out, hwalk, hout, -⟩ :=
    hstart.exists_walk hkeys hforest hchildren hnodup (Nat.le_add_right _ _)
  refine ⟨out, hwalk, hout.of_map _, fun a => ?_⟩
  rw [mem_walk hchildren hwalk]
  simp only [mem_singleton]

end Walk

end Links
