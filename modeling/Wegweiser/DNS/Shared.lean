/-
Snapshots in memory.

A snapshot is a map of its own with references to trees, which the next snapshot takes over.
-/
import Wegweiser.DNS.Held

namespace Wegweiser

open Checked List Sample

namespace DNS

/-- A snapshot as it lies in memory: its map holds references to trees. -/
structure Cell where
  zones : List (Name × Nat)
  records : Nat
  depth : Nat

def Cell.add (c : Cell) (name : Name) (tree count : Nat) : Cell where
  zones := (c.zones.filter fun e => e.1 != name) ++ [(name, tree)]
  records := c.records + count
  depth := max c.depth name.labelCount

/-- The trees and the snapshots that were made so far. -/
structure Memory (R : Type) where
  trees : List (ZoneTree R)
  cells : List Cell

namespace Memory

variable {R : Type} (m : Memory R)

def read (ref : Nat) : Option (Snapshot R) := do
  let c ← m.cells[ref]?
  let trees ← c.zones.mapM fun e => m.trees[e.2]?
  some ⟨trees, c.records, c.depth⟩

def newTree (t : ZoneTree R) : Memory R × Nat :=
  ({ m with trees := m.trees ++ [t] }, m.trees.length)

def newSnapshot : Memory R × Nat :=
  ({ m with cells := m.cells ++ [⟨[], 0, 0⟩] }, m.cells.length)

def zones (ref : Nat) : List (Name × Nat) := ((m.cells[ref]?).map Cell.zones).getD []

/-- `Snapshot.add`: the snapshot at `ref` is written. -/
def add (ref : Nat) (name : Name) (tree : Nat) : Memory R :=
  { m with
    cells := m.cells.modify ref fun c =>
      c.add name tree (((m.trees[tree]?).map ZoneTree.count).getD 0) }

def clone (ref : Nat) (name : Name) (tree : Option Nat) : Memory R × Nat :=
  let entries := ((m.zones ref).filter fun e => e.1 != name) ++ (tree.map fun t => (name, t)).toList
  let (fresh, next) := m.newSnapshot
  (entries.foldl (fun m e => m.add next e.1 e.2) fresh, next)

def withoutZone (ref : Nat) (name : Name) : Memory R × Nat :=
  if ((m.zones ref).find? fun e => e.1 == name).isNone then (m, ref) else m.clone ref name none

end Memory

open Memory

section Operations

variable (lib : RRLibrary)

/-- `Snapshot.WithZone` or `Snapshot.WithoutZone` -/
def Memory.change (at_ : Memory lib.RR × Nat) : Change → Except Err (Memory lib.RR × Nat)
  | .withZone z records =>
    if z.disabled then .ok (at_.1.withoutZone at_.2 z.name)
    else do
      let t ← buildZone lib z records
      let (m, tree) := at_.1.newTree t
      pure (m.clone at_.2 z.name (some tree))
  | .withoutZone name => .ok (at_.1.withoutZone at_.2 name)

/-- `Build`, one zone. -/
def Memory.buildOne (records : ZoneID → List Record) (at_ : Memory lib.RR × Nat) (z : Zone) :
    Except Err (Memory lib.RR × Nat) :=
  if z.disabled then .ok at_
  else do
    let t ← buildZone lib z (records z.id)
    let (m, tree) := at_.1.newTree t
    pure (m.add at_.2 z.name tree, at_.2)

def Memory.build (records : ZoneID → List Record) (m : Memory lib.RR) (zones : List Zone) :
    Except Err (Memory lib.RR × Nat) :=
  zones.foldlM (buildOne lib records) m.newSnapshot

end Operations

section Shows

variable {R : Type} {m m' m'' : Memory R} {ref : Nat} {s : Snapshot R}

def Entered (made : List (ZoneTree R)) (e : Name × Nat) (t : ZoneTree R) : Prop :=
  e.1 = t.name ∧ made[e.2]? = some t

def Shows (m : Memory R) (ref : Nat) (s : Snapshot R) : Prop :=
  ∃ c, m.cells[ref]? = some c ∧ Forall₂ (Entered m.trees) c.zones s.zones ∧
    c.records = s.records ∧ c.depth = s.depth

variable {entries : List (Name × Nat)} {trees made : List (ZoneTree R)} {t : ZoneTree R}
  {name : Name}

theorem mapM_of_entered (h : Forall₂ (Entered m.trees) entries trees) :
    entries.mapM (fun e => m.trees[e.2]?) = some trees := by
  induction h with
  | nil => rfl
  | cons hentry _ ih =>
    rw [mapM_cons, hentry.2, ih]
    rfl

theorem Shows.read (h : Shows m ref s) : m.read ref = some s := by
  obtain ⟨c, hc, hzones, hrecords, hdepth⟩ := h
  rw [Memory.read, hc]
  simp [mapM_of_entered hzones, hrecords, hdepth]

/-- Nothing that was there is written. -/
structure Grows (m m' : Memory R) : Prop where
  trees : m.trees <+: m'.trees
  cells : m.cells <+: m'.cells

theorem Grows.refl (m : Memory R) : Grows m m := ⟨prefix_refl _, prefix_refl _⟩

theorem Grows.trans (h : Grows m m') (h' : Grows m' m'') : Grows m m'' :=
  ⟨h.trees.trans h'.trees, h.cells.trans h'.cells⟩

theorem getElem_of_begins {α : Type} {l l' : List α} (h : l <+: l') {i : Nat} {a : α}
    (ha : l[i]? = some a) : l'[i]? = some a := by
  obtain ⟨more, rfl⟩ := h
  rw [List.getElem?_append_left (List.getElem?_eq_some_iff.mp ha).1, ha]

theorem Entered.grows {made' : List (ZoneTree R)} {e : Name × Nat}
    (h : Entered made e t) (hgrows : made <+: made') : Entered made' e t :=
  ⟨h.1, getElem_of_begins hgrows h.2⟩

theorem Shows.grows (h : Shows m ref s) (hgrows : Grows m m') : Shows m' ref s := by
  obtain ⟨c, hc, hzones, hcounts⟩ := h
  exact ⟨c, getElem_of_begins hgrows.cells hc, hzones.imp fun _ _ he => he.grows hgrows.trees,
    hcounts⟩

theorem Memory.newTree_grows (t : ZoneTree R) : Grows m (m.newTree t).1 :=
  ⟨prefix_append _ _, prefix_refl _⟩

theorem Memory.newSnapshot_grows : Grows m m.newSnapshot.1 :=
  ⟨prefix_refl _, prefix_append _ _⟩

theorem Memory.newSnapshot_shows : Shows m.newSnapshot.1 m.newSnapshot.2 Snapshot.blank :=
  ⟨⟨[], 0, 0⟩, by simp [newSnapshot], .nil, rfl, rfl⟩

theorem Shows.add (h : Shows m ref s) {tree : Nat}
    (ht : Entered m.trees (name, tree) t) : Shows (m.add ref name tree) ref (s.add t) := by
  obtain ⟨c, hc, hzones, hrecords, hdepth⟩ := h
  obtain ⟨rfl, htree⟩ := ht
  dsimp only at htree
  refine ⟨c.add t.name tree t.count, ?_, ?_, ?_, ?_⟩
  · simp [add, hc, htree]
  · refine rel_append ?_ (.cons ⟨rfl, htree⟩ .nil)
    refine rel_filter ?_ hzones
    intro e o he
    dsimp only
    rw [he.1]
  · rw [Snapshot.add, Cell.add, hrecords]
  · rw [Snapshot.add, Cell.add, hdepth]

theorem Grows.add (h : Grows m m') (hnew : m.cells.length ≤ ref) (name : Name) (tree : Nat) :
    Grows m (m'.add ref name tree) := by
  refine ⟨h.trees, ?_⟩
  rw [Memory.add, prefix_iff_getElem?]
  intro i hi
  have hne : ref ≠ i := by omega
  rw [← getElem_of_begins h.cells (getElem?_eq_getElem hi)]
  simp [hne]

theorem Shows.foldl_add (hentries : Forall₂ (Entered made) entries trees) (h : Shows m' ref s)
    (hmade : m'.trees = made) (hgrows : Grows m m') (hnew : m.cells.length ≤ ref) :
    Grows m (entries.foldl (fun m e => m.add ref e.1 e.2) m') ∧
      Shows (entries.foldl (fun m e => m.add ref e.1 e.2) m') ref (trees.foldl Snapshot.add s) := by
  induction hentries generalizing m' s with
  | nil => exact ⟨hgrows, h⟩
  | @cons e t entries trees hentry hrest ih =>
    rw [← hmade] at hentry
    exact ih (h.add hentry) hmade (hgrows.add hnew e.1 e.2)

theorem Shows.zones (h : Shows m ref s) : Forall₂ (Entered m.trees) (m.zones ref) s.zones := by
  obtain ⟨c, hc, hzones, -⟩ := h
  rw [Memory.zones, hc]
  exact hzones

theorem Shows.clone (h : Shows m ref s) {tree : Option Nat}
    {t : Option (ZoneTree R)} (ht : Option.Rel (fun i t => Entered m.trees (name, i) t) tree t) :
    Grows m (m.clone ref name tree).1 ∧
      Shows (m.clone ref name tree).1 (m.clone ref name tree).2 (s.clone name t) := by
  have hkept : Forall₂ (Entered m.trees) ((m.zones ref).filter fun e => e.1 != name)
      (s.zones.filter fun o => o.name != name) := by
    refine rel_filter ?_ h.zones
    intro e o he
    dsimp only
    rw [he.1]
  have hput : Forall₂ (Entered m.trees) (tree.map fun i => (name, i)).toList t.toList := by
    cases ht with
    | none => exact .nil
    | some hentry => exact .cons hentry .nil
  have hentries : Forall₂ (Entered m.trees)
      (((m.zones ref).filter fun e => e.1 != name) ++ (tree.map fun i => (name, i)).toList)
      ((s.zones.filter fun o => o.name != name) ++ t.toList) :=
    rel_append hkept hput
  exact newSnapshot_shows.foldl_add hentries rfl newSnapshot_grows (Nat.le_refl _)

theorem Shows.withoutZone (h : Shows m ref s) (name : Name) :
    Grows m (m.withoutZone ref name).1 ∧
      Shows (m.withoutZone ref name).1 (m.withoutZone ref name).2 (s.withoutZone name) := by
  have hfind : ((m.zones ref).find? fun e => e.1 == name).isNone = (s.zoneAt name).isNone := by
    rw [Snapshot.zoneAt]
    have hzones := h.zones
    generalize m.zones ref = entries at hzones ⊢
    generalize s.zones = trees at hzones ⊢
    induction hzones with
    | nil => rfl
    | @cons e t _ _ hentry _ ih =>
      rw [find?_cons, find?_cons, hentry.1]
      cases t.name == name with
      | true => rfl
      | false => exact ih
  rw [Memory.withoutZone, Snapshot.withoutZone, hfind]
  split
  · exact ⟨Grows.refl m, h⟩
  · exact h.clone .none

end Shows

section Runs

variable {lib : RRLibrary} {at_ at_' : Memory lib.RR × Nat} {s : Snapshot lib.RR}

theorem Memory.newTree_entered (m : Memory lib.RR) {z : Zone} {records : List Record}
    {t : ZoneTree lib.RR} (hbuild : buildZone lib z records = .ok t) :
    Entered (m.newTree t).1.trees (z.name, (m.newTree t).2) t :=
  ⟨(name_of_buildZone hbuild).symm, by simp [newTree]⟩

theorem Shows.change (h : Shows at_.1 at_.2 s) {c : Change}
    (hok : change lib at_ c = .ok at_') :
    ∃ s', s.change lib c = .ok s' ∧ Grows at_.1 at_'.1 ∧ Shows at_'.1 at_'.2 s' := by
  cases c with
  | withoutZone name =>
    cases hok
    exact ⟨_, rfl, h.withoutZone name⟩
  | withZone z records =>
    rw [Memory.change] at hok
    rw [Snapshot.change, DNS.withZone]
    split at hok
    · next hdisabled =>
      cases hok
      rw [if_pos hdisabled]
      exact ⟨_, rfl, h.withoutZone z.name⟩
    · next hdisabled =>
      simp only [bind_eq_ok, pure_eq_ok] at hok
      obtain ⟨t, hbuild, rfl⟩ := hok
      rw [if_neg hdisabled, hbuild]
      have hgrows := at_.1.newTree_grows t
      have hclone := (h.grows hgrows).clone (.some (at_.1.newTree_entered hbuild))
      exact ⟨_, rfl, hgrows.trans hclone.1, hclone.2⟩

theorem Shows.changes {changes : List Change} (h : Shows at_.1 at_.2 s)
    (hok : changes.foldlM (Memory.change lib) at_ = .ok at_') :
    ∃ s', changes.foldlM (Snapshot.change lib) s = .ok s' ∧ Grows at_.1 at_'.1 ∧
      Shows at_'.1 at_'.2 s' := by
  induction changes generalizing at_ s with
  | nil =>
    cases hok
    exact ⟨s, rfl, Grows.refl _, h⟩
  | cons c rest ih =>
    obtain ⟨mid, hone, hrest⟩ := foldlM_cons_eq_ok.mp hok
    obtain ⟨s₁, hchange, hgrows, hmid⟩ := h.change hone
    obtain ⟨s₂, hchanges, hgrows', hlast⟩ := ih hmid hrest
    exact ⟨s₂, foldlM_cons_eq_ok.mpr ⟨s₁, hchange, hchanges⟩, hgrows.trans hgrows', hlast⟩

theorem Shows.buildFrom {records : ZoneID → List Record} {zones : List Zone}
    (h : Shows at_.1 at_.2 s) (hok : zones.foldlM (Memory.buildOne lib records) at_ = .ok at_') :
    ∃ s', zones.foldlM (buildOne lib records) s = .ok s' ∧ Shows at_'.1 at_'.2 s' := by
  induction zones generalizing at_ s with
  | nil =>
    cases hok
    exact ⟨s, rfl, h⟩
  | cons z rest ih =>
    obtain ⟨mid, hone, hrest⟩ := foldlM_cons_eq_ok.mp hok
    have hmid : ∃ s₁, buildOne lib records s z = .ok s₁ ∧ Shows mid.1 mid.2 s₁ := by
      rw [Memory.buildOne] at hone
      rw [buildOne]
      split at hone
      · next hdisabled =>
        cases hone
        rw [if_pos hdisabled]
        exact ⟨s, rfl, h⟩
      · next hdisabled =>
        simp only [bind_eq_ok, pure_eq_ok] at hone
        obtain ⟨t, hbuild, rfl⟩ := hone
        rw [if_neg hdisabled, hbuild]
        exact ⟨_, rfl, (h.grows (at_.1.newTree_grows t)).add (at_.1.newTree_entered hbuild)⟩
    obtain ⟨s₁, hbuilt, hshows⟩ := hmid
    obtain ⟨s₂, hbuilds, hlast⟩ := ih hshows hrest
    exact ⟨s₂, foldlM_cons_eq_ok.mpr ⟨s₁, hbuilt, hbuilds⟩, hlast⟩

end Runs

section Rebuilt

variable (lib : RRLibrary) (memory : Memory lib.RR) (records : ZoneID → List Record)
  (zones : List Zone) (earlier later : List Change) (start mid last : Memory lib.RR × Nat)

/-- However one snapshot comes from another, it is the one a build makes of the zones held, and
a snapshot that was there before shows what it did. -/
theorem snapshot_rebuilt (hnames : ((zones.filter fun z => !z.disabled).map Zone.name).Nodup)
    (hbuild : Memory.build lib records memory zones = .ok start)
    (hearlier : earlier.foldlM (Memory.change lib) start = .ok mid)
    (hlater : later.foldlM (Memory.change lib) mid = .ok last) :
    (∃ s, last.1.read last.2 = some s ∧
      ∀ (source : ZoneID → List Record) (listed : List Zone),
        (∀ p ∈ (earlier ++ later).foldl holding (buildHolds records zones), source p.1.id = p.2) →
        listed.Perm (((earlier ++ later).foldl holding (buildHolds records zones)).map Prod.fst) →
        ∃ fresh, build lib source listed = .ok fresh ∧ s.zones.Perm fresh.zones ∧
          (∀ apex, s.zoneAt apex = fresh.zoneAt apex) ∧ s.records = fresh.records ∧
          s.depth = fresh.depth ∧ ∀ q, s.resolve lib q = fresh.resolve lib q) ∧
      ∃ before, mid.1.read mid.2 = some before ∧ last.1.read mid.2 = some before := by
  obtain ⟨s₀, hbuilt, hstart⟩ := Memory.newSnapshot_shows.buildFrom hbuild
  obtain ⟨s₁, hchanges₁, -, hmid⟩ := hstart.changes hearlier
  obtain ⟨s₂, hchanges₂, hgrows, hlast⟩ := hmid.changes hlater
  have hblank : Holds [] (Snapshot.blank : Snapshot lib.RR) :=
    ⟨nodup_nil, fun _ hp => absurd hp not_mem_nil, [], .nil, rfl⟩
  have hholds : Holds ((earlier ++ later).foldl holding (buildHolds records zones)) s₂ := by
    rw [foldl_append]
    exact ((hblank.buildFrom hnames hbuilt).changes hchanges₁).changes hchanges₂
  refine ⟨⟨s₂, hlast.read, fun source listed hsource hlisted => ?_⟩, s₁, hmid.read,
    (hmid.grows hgrows).read⟩
  obtain ⟨fresh, hfresh, hsame⟩ := hholds.rebuilt hsource hlisted
  exact ⟨fresh, hfresh, hsame.zones, hsame.zoneAt, hsame.records, hsame.depth, hsame.resolve⟩

end Rebuilt

end DNS

namespace Sample

def apexRecords (labels : List String) (_ : ZoneID) : List Record :=
  [record 1 1 labels typeNS "ns."]

def addition : DNS.Change := .withZone (zone 2 ["b", "ex"]) (apexRecords ["b", "ex"] (.ulid 2))

def removal : DNS.Change := .withoutZone (name ["ex"])

end Sample

namespace DNS

/-- A zone is added below another, which is then dropped. -/
theorem snapshot_rebuilt_dropped :
    ∃ start mid last s fresh,
      Memory.build RRLibrary.plain (Sample.apexRecords ["ex"]) ⟨[], []⟩ [Sample.zone 1 ["ex"]] =
        .ok start ∧
      [addition].foldlM (Memory.change RRLibrary.plain) start = .ok mid ∧
      [removal].foldlM (Memory.change RRLibrary.plain) mid = .ok last ∧
      last.1.read last.2 = some s ∧
      build RRLibrary.plain (Sample.apexRecords ["b", "ex"]) [Sample.zone 2 ["b", "ex"]] =
        .ok fresh ∧
      s.records = fresh.records ∧
      ∀ q, s.resolve RRLibrary.plain q = fresh.resolve RRLibrary.plain q := by
  obtain ⟨start, hstart, hsteps⟩ := ok_of_any
    (show (Memory.build RRLibrary.plain (Sample.apexRecords ["ex"]) ⟨[], []⟩
      [Sample.zone 1 ["ex"]]).toOption.any (fun start =>
        ([addition].foldlM (Memory.change RRLibrary.plain) start).toOption.any fun mid =>
          ([removal].foldlM (Memory.change RRLibrary.plain) mid).isOk) = true by decide +kernel)
  obtain ⟨mid, hmid, hlast⟩ := ok_of_any hsteps
  obtain ⟨last, hlast⟩ := accepted_of_isOk hlast
  obtain ⟨⟨s, hs, hsame⟩, -⟩ := snapshot_rebuilt RRLibrary.plain ⟨[], []⟩
    (Sample.apexRecords ["ex"]) [Sample.zone 1 ["ex"]] [Sample.addition] [Sample.removal] start mid
    last (by decide +kernel) hstart hmid hlast
  obtain ⟨fresh, hfresh, -, -, hrecords, -, hresolve⟩ := hsame (Sample.apexRecords ["b", "ex"])
    [Sample.zone 2 ["b", "ex"]] (by decide +kernel) (by decide +kernel)
  exact ⟨start, mid, last, s, fresh, hstart, hmid, hlast, hs, hfresh, hrecords, hresolve⟩

/-- Of two zones with one name a build keeps the second and counts both. -/
theorem build_counts_twice :
    ∃ start s fresh,
      Memory.build RRLibrary.plain (Sample.apexRecords ["ex"]) ⟨[], []⟩
        [Sample.zone 1 ["ex"], Sample.zone 2 ["ex"]] = .ok start ∧
      start.1.read start.2 = some s ∧
      (buildHolds (Sample.apexRecords ["ex"])
        [Sample.zone 1 ["ex"], Sample.zone 2 ["ex"]]).map Prod.fst = [Sample.zone 2 ["ex"]] ∧
      build RRLibrary.plain (Sample.apexRecords ["ex"]) [Sample.zone 2 ["ex"]] = .ok fresh ∧
      s.records = 4 ∧ fresh.records = 2 := by
  obtain ⟨start, hstart, hfour⟩ := ok_of_any
    (show (Memory.build RRLibrary.plain (Sample.apexRecords ["ex"]) ⟨[], []⟩
      [Sample.zone 1 ["ex"], Sample.zone 2 ["ex"]]).toOption.any (fun start =>
        (start.1.read start.2).any fun s => s.records == 4) = true by decide +kernel)
  obtain ⟨s, hs, hfour⟩ := (Option.any_eq_true ..).mp hfour
  obtain ⟨fresh, hfresh, htwo⟩ := ok_of_any
    (show (build RRLibrary.plain (Sample.apexRecords ["ex"])
      [Sample.zone 2 ["ex"]]).toOption.any (fun s => s.records == 2) = true by decide +kernel)
  exact ⟨start, s, fresh, hstart, hs, by decide +kernel, hfresh, eq_of_beq hfour, eq_of_beq htwo⟩

end DNS

end Wegweiser
