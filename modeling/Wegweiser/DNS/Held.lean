/-
Snapshots that come from one another.

Replacing or dropping a zone gives the snapshot a build from the zones held afterwards would
give, counts included.
-/
import Mathlib.Data.List.Forall2
import Wegweiser.DNS.Publish

namespace Wegweiser

open Checked List

namespace DNS

section Counts

variable {R : Type}

def Snapshot.of (trees : List (ZoneTree R)) : Snapshot R where
  zones := trees
  records := (trees.map ZoneTree.count).sum
  depth := (trees.map fun t => t.name.labelCount).foldl max 0

variable {trees : List (ZoneTree R)}

theorem Snapshot.of_add {t : ZoneTree R} (hnew : ∀ o ∈ trees, o.name ≠ t.name) :
    (Snapshot.of trees).add t = Snapshot.of (trees ++ [t]) := by
  have hkept : (trees.filter fun o => o.name != t.name) = trees :=
    filter_eq_self.mpr fun o ho => bne_iff_ne.mpr (hnew o ho)
  simp [Snapshot.add, Snapshot.of, hkept]

theorem Snapshot.foldl_add {more : List (ZoneTree R)}
    (hnames : ((trees ++ more).map ZoneTree.name).Nodup) :
    more.foldl Snapshot.add (Snapshot.of trees) = Snapshot.of (trees ++ more) := by
  induction more generalizing trees with
  | nil => rw [append_nil, foldl_nil]
  | cons t rest ih =>
    have hsplit : trees ++ t :: rest = trees ++ [t] ++ rest := by simp
    rw [hsplit] at hnames ⊢
    have hnew : ∀ o ∈ trees, o.name ≠ t.name := by
      intro o ho
      rw [map_append, map_append] at hnames
      have hfront := (nodup_append.mp hnames).1
      exact (nodup_append.mp hfront).2.2 _ (mem_map_of_mem ho) _ (by simp)
    rw [foldl_cons, Snapshot.of_add hnew]
    exact ih hnames

theorem Snapshot.clone_of {name : Name} {t : Option (ZoneTree R)}
    (hnames : (trees.map ZoneTree.name).Nodup) (ht : ∀ o ∈ t, o.name = name) :
    (Snapshot.of trees).clone name t =
      Snapshot.of ((trees.filter fun o => o.name != name) ++ t.toList) := by
  have hblank : (Snapshot.blank : Snapshot R) = Snapshot.of [] := rfl
  rw [Snapshot.clone, hblank, Snapshot.foldl_add, nil_append]
  · rfl
  · rw [nil_append, map_append, nodup_append]
    refine ⟨hnames.sublist (filter_sublist.map _), ?_, ?_⟩
    · cases t with
      | none => exact nodup_nil
      | some t => exact nodup_singleton _
    · intro a ha b hb
      obtain ⟨o, ho, rfl⟩ := mem_map.mp ha
      obtain ⟨o', ho', rfl⟩ := mem_map.mp hb
      rw [ht o' (Option.mem_toList.mp ho')]
      simpa using (mem_filter.mp ho).2

theorem Snapshot.of_perm {trees' : List (ZoneTree R)} (h : trees.Perm trees') :
    (Snapshot.of trees).records = (Snapshot.of trees').records ∧
      (Snapshot.of trees).depth = (Snapshot.of trees').depth := by
  exact ⟨(h.map _).sum_nat, (h.map _).foldl_eq _⟩

end Counts

section Held

variable (lib : RRLibrary)

abbrev Read := Zone × List Record

/-- A step from one snapshot to the next. -/
inductive Change where
  | withZone (z : Zone) (records : List Record)
  | withoutZone (name : Name)

/-- `Snapshot.WithZone` or `Snapshot.WithoutZone` -/
def Snapshot.change (s : Snapshot lib.RR) : Change → Except Err (Snapshot lib.RR)
  | .withZone z records => DNS.withZone lib (fun _ => records) s z
  | .withoutZone name => .ok (s.withoutZone name)

def holding (held : List Read) : Change → List Read
  | .withZone z records =>
    (held.filter fun p => p.1.name != z.name) ++ if z.disabled then [] else [(z, records)]
  | .withoutZone name => held.filter fun p => p.1.name != name

/-- What a build holds of the zones it is given: the enabled ones, the last of a name. -/
def buildHolds (records : ZoneID → List Record) (zones : List Zone) : List Read :=
  (zones.filter fun z => !z.disabled).foldl
    (fun held z => holding held (.withZone z (records z.id))) []

variable {lib} {held : List Read} {s s' : Snapshot lib.RR}

/-- A snapshot is the one of some zones, as they were read. -/
structure Holds (held : List Read) (s : Snapshot lib.RR) : Prop where
  names : (held.map fun p => p.1.name).Nodup
  enabled : ∀ p ∈ held, p.1.disabled = false
  trees : ∃ trees, Forall₂ (fun p t => buildZone lib p.1 p.2 = .ok t) held trees ∧
    s = Snapshot.of trees

variable {trees : List (ZoneTree lib.RR)} {records : ZoneID → List Record} {zones : List Zone}

theorem names_of_trees (h : Forall₂ (fun p t => buildZone lib p.1 p.2 = .ok t) held trees) :
    trees.map ZoneTree.name = held.map fun p => p.1.name := by
  induction h with
  | nil => rfl
  | cons hbuild _ ih => rw [map_cons, map_cons, ih, name_of_buildZone hbuild]

theorem filter_trees (name : Name)
    (h : Forall₂ (fun p t => buildZone lib p.1 p.2 = .ok t) held trees) :
    Forall₂ (fun p t => buildZone lib p.1 p.2 = .ok t)
      (held.filter fun p => p.1.name != name) (trees.filter fun t => t.name != name) := by
  refine rel_filter ?_ h
  intro p t hbuild
  dsimp only
  rw [name_of_buildZone hbuild]

theorem Holds.without (h : Holds held s) (name : Name) :
    Holds (held.filter fun p => p.1.name != name) (s.withoutZone name) := by
  obtain ⟨trees, htrees, rfl⟩ := h.trees
  refine ⟨h.names.sublist (filter_sublist.map _),
    fun p hp => h.enabled p (mem_filter.mp hp).1, _, filter_trees name htrees, ?_⟩
  have hnames : (trees.map ZoneTree.name).Nodup := names_of_trees htrees ▸ h.names
  rw [Snapshot.withoutZone]
  split
  · next hnone =>
    have hkept : (trees.filter fun t => t.name != name) = trees := by
      rw [filter_eq_self]
      intro t ht
      rw [Option.isNone_iff_eq_none, Snapshot.zoneAt, find?_eq_none] at hnone
      have hne := hnone t ht
      rw [beq_iff_eq] at hne
      exact bne_iff_ne.mpr hne
    rw [hkept]
  · rw [Snapshot.clone_of hnames (by simp)]
    simp

theorem Holds.change (h : Holds held s) {c : Change} (hok : s.change lib c = .ok s') :
    Holds (holding held c) s' := by
  cases c with
  | withoutZone name =>
    cases hok
    exact h.without name
  | withZone z records =>
    rw [Snapshot.change, withZone] at hok
    split at hok
    · next hdisabled =>
      cases hok
      rw [holding, if_pos hdisabled, append_nil]
      exact h.without z.name
    · next hdisabled =>
      simp only [bind_eq_ok, pure_eq_ok] at hok
      obtain ⟨t, hbuild, rfl⟩ := hok
      obtain ⟨trees, htrees, rfl⟩ := h.trees
      have hnames : (trees.map ZoneTree.name).Nodup := names_of_trees htrees ▸ h.names
      rw [holding, if_neg hdisabled, Snapshot.clone_of hnames]
      · constructor
        · refine Links.nodup_concat (h.names.sublist (filter_sublist.map _)) fun o ho => ?_
          simpa using (mem_filter.mp ho).2
        · exact Links.forall_mem_concat (fun p hp => h.enabled p (mem_filter.mp hp).1)
            (Bool.not_eq_true _ ▸ hdisabled)
        · refine ⟨_, ?_, rfl⟩
          exact rel_append (filter_trees z.name htrees) (.cons hbuild .nil)
      · intro o ho
        cases ho
        exact name_of_buildZone hbuild

theorem Holds.changes {changes : List Change} (h : Holds held s)
    (hok : changes.foldlM (Snapshot.change lib) s = .ok s') :
    Holds (changes.foldl holding held) s' := by
  induction changes generalizing held s with
  | nil =>
    cases hok
    exact h
  | cons c rest ih =>
    obtain ⟨mid, hone, hrest⟩ := foldlM_cons_eq_ok.mp hok
    exact ih (h.change hone) hrest

theorem build_from {more : List (ZoneTree lib.RR)}
    (hzones : Forall₂ (fun z t => buildZone lib z (records z.id) = .ok t) zones more)
    (hnames : ((trees ++ more).map ZoneTree.name).Nodup)
    (henabled : ∀ z ∈ zones, z.disabled = false) :
    zones.foldlM (buildOne lib records) (Snapshot.of trees) = .ok (Snapshot.of (trees ++ more)) := by
  induction hzones generalizing trees with
  | nil =>
    rw [append_nil]
    rfl
  | @cons z t zones more hbuild hrest ih =>
    have hsplit : trees ++ t :: more = trees ++ [t] ++ more := by simp
    rw [hsplit] at hnames ⊢
    have hnew : ∀ o ∈ trees, o.name ≠ t.name := by
      intro o ho
      rw [map_append, map_append] at hnames
      have hfront := (nodup_append.mp hnames).1
      exact (nodup_append.mp hfront).2.2 _ (mem_map_of_mem ho) _ (by simp)
    have hone : buildOne lib records (Snapshot.of trees) z = .ok (Snapshot.of (trees ++ [t])) := by
      rw [buildOne, henabled z mem_cons_self, if_neg Bool.false_ne_true, hbuild,
        ← Snapshot.of_add hnew]
      rfl
    rw [foldlM_cons_eq_ok]
    exact ⟨_, hone, ih hnames fun z hz => henabled z (mem_cons_of_mem _ hz)⟩

/-- Two snapshots with the same zones, in any order, and the same counts. -/
structure Snapshot.Same (s s' : Snapshot lib.RR) : Prop where
  zones : s.zones.Perm s'.zones
  zoneAt : ∀ n, s.zoneAt n = s'.zoneAt n
  records : s.records = s'.records
  depth : s.depth = s'.depth

theorem Holds.rebuilt (h : Holds held s)
    (hrecords : ∀ p ∈ held, records p.1.id = p.2) (hzones : zones.Perm (held.map Prod.fst)) :
    ∃ fresh, build lib records zones = .ok fresh ∧ s.Same fresh := by
  obtain ⟨trees, htrees, rfl⟩ := h.trees
  have hread : Forall₂ (fun z t => buildZone lib z (records z.id) = .ok t)
      (held.map Prod.fst) trees := by
    rw [forall₂_map_left_iff]
    have hboth := (forall₂_and_left _ _).mpr ⟨hrecords, htrees⟩
    exact hboth.imp fun p t hp => hp.1 ▸ hp.2
  obtain ⟨trees', htrees', hperm⟩ := perm_comp_forall₂ hzones hread
  have hnames : (trees.map ZoneTree.name).Nodup := names_of_trees htrees ▸ h.names
  have hnames' : (trees'.map ZoneTree.name).Nodup := (hperm.map _).nodup_iff.mpr hnames
  refine ⟨Snapshot.of trees', build_from htrees' hnames' fun z hz => ?_, hperm.symm, fun n => ?_,
    (Snapshot.of_perm hperm.symm).1, (Snapshot.of_perm hperm.symm).2⟩
  · obtain ⟨p, hp, rfl⟩ := mem_map.mp (hzones.mem_iff.mp hz)
    exact h.enabled p hp
  · rw [Snapshot.zoneAt, Snapshot.zoneAt]
    refine find_of_perm hperm.symm fun a ha b hb han hbn => ?_
    rw [beq_iff_eq] at han hbn
    exact inj_on_of_nodup_map hnames' ha hb (han.trans hbn.symm)

theorem Snapshot.Same.zoneFor (h : s.Same s') (n : Name) : s.zoneFor n = s'.zoneFor n := by
  rw [Snapshot.zoneFor, Snapshot.zoneFor, h.depth, funext h.zoneAt]

theorem Snapshot.Same.follow (h : s.Same s') (q : Question) (left : Nat) (t : ZoneTree lib.RR)
    (n : Name) (a : Answer lib.RR) : s.follow lib q left t n a = s'.follow lib q left t n a := by
  induction left generalizing t n a with
  | zero => rw [Snapshot.follow.eq_def, Snapshot.follow.eq_def]
  | succ left ih =>
    rw [Snapshot.follow.eq_def, Snapshot.follow.eq_def]
    simp only [h.zoneFor, ih]

theorem Snapshot.Same.resolve (h : s.Same s') (q : Question) :
    s.resolve lib q = s'.resolve lib q := by
  simp only [Snapshot.resolve, h.zoneFor, h.follow]

theorem holding_new {z : Zone} {records : List Record} (hnew : ∀ p ∈ held, p.1.name ≠ z.name)
    (henabled : z.disabled = false) :
    holding held (.withZone z records) = held ++ [(z, records)] := by
  have hkept : (held.filter fun p => p.1.name != z.name) = held :=
    filter_eq_self.mpr fun p hp => bne_iff_ne.mpr (hnew p hp)
  rw [holding, hkept, henabled, if_neg Bool.false_ne_true]

theorem Holds.buildFrom (h : Holds held s) (hnames : ((held.map fun p => p.1.name) ++
      (zones.filter fun z => !z.disabled).map Zone.name).Nodup)
    (hok : zones.foldlM (buildOne lib records) s = .ok s') :
    Holds ((zones.filter fun z => !z.disabled).foldl
      (fun held z => holding held (.withZone z (records z.id))) held) s' := by
  induction zones generalizing held s with
  | nil =>
    cases hok
    exact h
  | cons z rest ih =>
    obtain ⟨mid, hone, hrest⟩ := foldlM_cons_eq_ok.mp hok
    rw [buildOne] at hone
    split at hone
    · next hdisabled =>
      cases hone
      rw [filter_cons_of_neg (by simp [hdisabled])] at hnames ⊢
      exact ih h hnames hrest
    · next hdisabled =>
      simp only [bind_eq_ok, pure_eq_ok] at hone
      obtain ⟨t, hbuild, rfl⟩ := hone
      rw [Bool.not_eq_true] at hdisabled
      rw [filter_cons_of_pos (by simp [hdisabled])] at hnames ⊢
      rw [map_cons] at hnames
      have hnew : ∀ p ∈ held, p.1.name ≠ z.name := fun p hp =>
        (nodup_append.mp hnames).2.2 _ (mem_map_of_mem hp) _ mem_cons_self
      rw [foldl_cons, holding_new hnew hdisabled]
      have hsplit : (held ++ [(z, records z.id)]).map (fun p => p.1.name) ++
          (rest.filter fun z => !z.disabled).map Zone.name =
            (held.map fun p => p.1.name) ++
              z.name :: (rest.filter fun z => !z.disabled).map Zone.name := by simp
      rw [← hsplit] at hnames
      refine ih ⟨(nodup_append.mp hnames).1, ?_, ?_⟩ hnames hrest
      · exact Links.forall_mem_concat h.enabled hdisabled
      · obtain ⟨trees, htrees, rfl⟩ := h.trees
        refine ⟨_, rel_append htrees (.cons hbuild .nil), Snapshot.of_add fun o ho => ?_⟩
        obtain ⟨p, hp, hname⟩ := mem_map.mp (names_of_trees htrees ▸ mem_map_of_mem ho)
        rw [name_of_buildZone hbuild, ← hname]
        exact hnew p hp

end Held

end DNS

end Wegweiser
