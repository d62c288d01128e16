/-
The publisher: the snapshot in force is kept in step with the store.

Each batch that is written leaves a note of the zones it touched.
-/
import Wegweiser.Apply.Announced
import Wegweiser.DNS.Canonical
import Wegweiser.Lib.Copies

namespace Wegweiser

open Checked Rows List Sample Option

/-- `Reader.IterZoneRecords` -/
def Store.zoneRecords (s : Store) (id : ZoneID) : List Record :=
  sortOn Record.listKey (s.records.filter fun r => r.zoneID == id)

namespace DNS

variable (lib : RRLibrary)

def rebuild (s : Store) : Except Err (Snapshot lib.RR) :=
  build lib s.zoneRecords (sortOn Zone.listKey s.zones)

/-- `publish.withZone` -/
def publishZone (s : Store) (snap : Snapshot lib.RR) (z : AppliedZone) :
    Except Err (Snapshot lib.RR) :=
  match s.zoneByID z.id with
  | .error _ => .ok (snap.withoutZone z.name)
  | .ok held => withZone lib s.zoneRecords snap held

/-- A store, the snapshot in force, the notes nobody has handled yet, and those that were
handled in their order. -/
structure Publishing where
  store : Store
  snapshot : Snapshot lib.RR
  waiting : List Applied
  handled : List AppliedZone

/-- A batch is applied, or the publisher is told of one that was. -/
inductive Event where
  | commit (now index : Nat) (b : Batch)
  | handle (i : Nat)

variable {lib}

/-- `Applier.ApplyBatchAt`, and `Publisher.Applied` where nothing it reads fails. -/
def Publishing.step (σ : Publishing lib) : Event → Except Err (Publishing lib)
  | .commit now index b => do
      let s ← b.applyAt now index σ.store
      pure { σ with
        store := s
        waiting := if b.wrote index σ.store then σ.waiting ++ [b.touched] else σ.waiting }
  | .handle i =>
    match σ.waiting[i]? with
    | none => .error (.failed "no such note")
    | some note => do
        let snap ← note.zones.foldlM (publishZone lib σ.store) σ.snapshot
        pure { σ with
          snapshot := snap
          waiting := σ.waiting.eraseIdx i
          handled := σ.handled ++ note.zones }

def Publishing.loaded (s : Store) (snap : Snapshot lib.RR) : Publishing lib := ⟨s, snap, [], []⟩

section Snapshots

variable {R : Type} {s : Snapshot R}

def Snapshot.Keyed (s : Snapshot R) : Prop := (s.zones.map ZoneTree.name).Nodup

theorem Snapshot.Keyed.add (h : s.Keyed) (t : ZoneTree R) : (s.add t).Keyed := by
  refine Links.nodup_concat (h.sublist (filter_sublist.map _)) fun o ho => ?_
  simpa using (mem_filter.mp ho).2

theorem Snapshot.Keyed.foldl_add (h : s.Keyed) (l : List (ZoneTree R)) :
    (l.foldl Snapshot.add s).Keyed := by
  induction l generalizing s with
  | nil => exact h
  | cons t rest ih => exact ih (h.add t)

theorem Snapshot.keyed_blank : (Snapshot.blank : Snapshot R).Keyed := nodup_nil

variable {n name : Name}

theorem Snapshot.zoneAt_foldl_add (l : List (ZoneTree R)) :
    (l.foldl add s).zoneAt n = (l.reverse.find? fun t => t.name == n).or (s.zoneAt n) := by
  induction l generalizing s with
  | nil => rfl
  | cons t rest ih =>
    rw [foldl_cons, ih, zoneAt_add, reverse_cons, find?_append]
    cases hrest : rest.reverse.find? fun t => t.name == n with
    | some o => rfl
    | none =>
      by_cases hname : t.name = n
      · simp [hname]
      · simp [hname]

theorem Snapshot.Keyed.zoneAt_clone (h : s.Keyed) {t : Option (ZoneTree R)}
    (ht : ∀ o ∈ t, o.name = name) :
    (s.clone name t).zoneAt n = if n = name then t else s.zoneAt n := by
  have hfilter : ∀ m, ((s.zones.filter fun o => o.name != name).find? fun o => o.name == m) =
      if m = name then none else s.zoneAt m := by
    intro m
    rw [find?_filter]
    by_cases hm : m = name
    · rw [if_pos hm, find?_eq_none]
      intro o _
      simp [hm]
    · rw [if_neg hm, Snapshot.zoneAt]
      refine congrArg (fun p => s.zones.find? p) (funext fun o => ?_)
      by_cases ho : o.name = m
      · simp [ho, hm]
      · simp [ho]
  have hone : ∀ a ∈ (s.zones.filter fun o => o.name != name) ++ t.toList,
      ∀ b ∈ (s.zones.filter fun o => o.name != name) ++ t.toList,
        (a.name == n) = true → (b.name == n) = true → a = b := by
    have hkeyed : (((s.zones.filter fun o => o.name != name) ++ t.toList).map
        ZoneTree.name).Nodup := by
      rw [map_append, nodup_append]
      refine ⟨h.sublist ((filter_sublist).map _), ?_, ?_⟩
      · cases t with
        | none => exact nodup_nil
        | some t => exact nodup_singleton _
      · intro a ha b hb
        obtain ⟨o, ho, rfl⟩ := mem_map.mp ha
        obtain ⟨o', ho', rfl⟩ := mem_map.mp hb
        rw [ht o' (mem_toList.mp ho')]
        simpa using (mem_filter.mp ho).2
    intro a ha b hb han hbn
    rw [beq_iff_eq] at han hbn
    exact inj_on_of_nodup_map hkeyed ha hb (han.trans hbn.symm)
  have hblank : (Snapshot.blank : Snapshot R).zoneAt n = none := rfl
  rw [clone, zoneAt_foldl_add, find_of_perm (reverse_perm _) hone, find?_append, hfilter, hblank,
    or_none]
  by_cases hn : n = name
  · rw [if_pos hn, if_pos hn, none_or]
    cases t with
    | none => rfl
    | some t => simp [ht t rfl, hn]
  · rw [if_neg hn, if_neg hn]
    have hnone : (t.toList.find? fun o => o.name == n) = none := by
      rw [find?_eq_none]
      intro o ho
      simpa [ht o (mem_toList.mp ho)] using Ne.symm hn
    rw [hnone, or_none]

theorem Snapshot.keyed_clone (s : Snapshot R) (name : Name) (t : Option (ZoneTree R)) :
    (s.clone name t).Keyed :=
  Keyed.foldl_add keyed_blank _

theorem Snapshot.Keyed.zoneAt_withoutZone (h : s.Keyed) :
    (s.withoutZone name).zoneAt n = if n = name then none else s.zoneAt n := by
  rw [withoutZone]
  split
  · next hnone =>
    by_cases hn : n = name
    · rw [if_pos hn, hn]
      exact isNone_iff_eq_none.mp hnone
    · rw [if_neg hn]
  · exact h.zoneAt_clone (by simp)

theorem Snapshot.Keyed.withoutZone (h : s.Keyed) (name : Name) : (s.withoutZone name).Keyed := by
  rw [Snapshot.withoutZone]
  split
  · exact h
  · exact s.keyed_clone name none

end Snapshots

section View

variable {lib : RRLibrary}

def treeOf (lib : RRLibrary) (s : Store) (z : Zone) : Option (ZoneTree lib.RR) :=
  if z.disabled then none else (buildZone lib z (s.zoneRecords z.id)).toOption

def viewOf (lib : RRLibrary) (s : Store) : Copies.View ZoneID Name (ZoneTree lib.RR) :=
  fun n => (s.zoneByName n).map fun z => (z.id, treeOf lib s z)

variable {s : Store} {snap snap' : Snapshot lib.RR}

variable {z : Zone} {records : ZoneID → List Record}

theorem zoneByName_eq_some (h : s.Sound) {n : Name} :
    s.zoneByName n = some z ↔ z ∈ s.zones ∧ z.name = n := by
  constructor
  · intro hz
    exact Store.mem_of_zoneByName hz
  · intro hz
    have hsome : (s.zoneByName n).isSome := by
      rw [Store.zoneByName, find?_isSome]
      exact ⟨z, hz.1, by simp [hz.2]⟩
    obtain ⟨z', hz'⟩ := isSome_iff_exists.mp hsome
    obtain ⟨hmem, hname⟩ := Store.mem_of_zoneByName hz'
    rw [hz', inj_on_of_nodup_map h.zone_names hmem hz.1 (hname.trans hz.2.symm)]

theorem name_of_buildZone {records : List Record} {t : ZoneTree lib.RR}
    (h : buildZone lib z records = .ok t) : t.name = z.name := by
  obtain ⟨c, -, hapex, hbuilt⟩ := buildZone_eq_ok h
  exact hbuilt.name.trans hapex

theorem buildFrom_zoneAt (done rest : List Zone)
    (hkeyed : snap.Keyed) (hnames : ((done ++ rest).map Zone.name).Nodup)
    (hdone : ∀ n, snap.zoneAt n = (done.find? fun z => z.name == n).bind fun z =>
      if z.disabled then none else (buildZone lib z (records z.id)).toOption)
    (hok : rest.foldlM (buildOne lib records) snap = .ok snap') :
    snap'.Keyed ∧ ∀ n, snap'.zoneAt n = ((done ++ rest).find? fun z => z.name == n).bind fun z =>
      if z.disabled then none else (buildZone lib z (records z.id)).toOption := by
  induction rest generalizing done snap with
  | nil =>
    cases hok
    rw [append_nil]
    exact ⟨hkeyed, hdone⟩
  | cons z rest ih =>
    obtain ⟨mid, hone, hrest⟩ := foldlM_cons_eq_ok.mp hok
    have happend : done ++ z :: rest = done ++ [z] ++ rest := by simp
    rw [happend] at hnames ⊢
    -- no zone before it has its name
    have hfirst : (done.find? fun o => o.name == z.name) = none := by
      rw [find?_eq_none]
      intro o ho
      rw [map_append, map_append, nodup_append] at hnames
      have hne := (nodup_append.mp hnames.1).2.2 o.name (mem_map_of_mem ho) z.name
        (by simp)
      simpa using hne
    have hfind : ∀ n, ((done ++ [z]).find? fun o => o.name == n) =
        if z.name = n then some z else done.find? fun o => o.name == n := by
      intro n
      rw [find?_append]
      by_cases hn : z.name = n
      · rw [if_pos hn, ← hn, hfirst, none_or, find?_cons_of_pos (by simp)]
      · rw [if_neg hn, find?_cons_of_neg (by simpa using hn), find?_nil, or_none]
    rw [buildOne] at hone
    split at hone
    · next hdisabled =>
      cases hone
      refine ih _ hkeyed hnames (fun n => ?_) hrest
      rw [hfind, hdone]
      by_cases hn : z.name = n
      · rw [if_pos hn, ← hn, hfirst, bind_some, if_pos hdisabled]
        rfl
      · rw [if_neg hn]
    · next hdisabled =>
      simp only [bind_eq_ok, pure_eq_ok] at hone
      obtain ⟨t, hbuild, rfl⟩ := hone
      refine ih _ (hkeyed.add t) hnames (fun n => ?_) hrest
      rw [hfind, Snapshot.zoneAt_add, name_of_buildZone hbuild, hdone]
      by_cases hn : z.name = n
      · rw [if_pos hn, if_pos hn, bind_some, if_neg hdisabled, hbuild]
        rfl
      · rw [if_neg hn, if_neg hn]

theorem buildZone_of_build {zones : List Zone}
    (hok : zones.foldlM (buildOne lib records) snap = .ok snap') (hz : z ∈ zones)
    (henabled : z.disabled = false) : ∃ t, buildZone lib z (records z.id) = .ok t := by
  obtain ⟨front, back, rfl⟩ := append_of_mem hz
  obtain ⟨s₁, -, hrest⟩ := foldlM_append_eq_ok.mp hok
  obtain ⟨s₂, hone, -⟩ := foldlM_cons_eq_ok.mp hrest
  rw [buildOne, henabled, if_neg Bool.false_ne_true] at hone
  simp only [bind_eq_ok] at hone
  obtain ⟨t, ht, -⟩ := hone
  exact ⟨t, ht⟩

theorem rebuild_zoneAt (h : s.Sound) (hok : rebuild lib s = .ok snap) :
    snap.Keyed ∧ ∀ n, snap.zoneAt n = Copies.shown (viewOf lib s) n := by
  have hperm := sortOn_perm Zone.listKey s.zones
  have hnames : ((sortOn Zone.listKey s.zones).map Zone.name).Nodup :=
    (hperm.map Zone.name).nodup_iff.mpr h.zone_names
  obtain ⟨hkeyed, hzones⟩ := buildFrom_zoneAt [] (sortOn Zone.listKey s.zones)
    Snapshot.keyed_blank hnames (fun n => rfl) hok
  refine ⟨hkeyed, fun n => ?_⟩
  have hfind : ((sortOn Zone.listKey s.zones).find? fun z => z.name == n) = s.zoneByName n := by
    refine find_of_perm hperm fun a ha b hb han hbn => ?_
    rw [beq_iff_eq] at han hbn
    exact inj_on_of_nodup_map h.zone_names ha hb (han.trans hbn.symm)
  rw [hzones, nil_append, hfind, Copies.shown, viewOf]
  cases s.zoneByName n with
  | none => rfl
  | some z => rfl

end View

section Step

variable {lib : RRLibrary} {nameOf : ZoneID → Name} {s s' : Store} {snap snap' : Snapshot lib.RR}

theorem zoneRecords_congr (h : s.Sound) (h' : s'.Sound) {id : ZoneID}
    (hsame : ∀ r, r.zoneID = id → (r ∈ s'.records ↔ r ∈ s.records)) :
    s'.zoneRecords id = s.zoneRecords id := by
  have hnodup : ∀ {u : Store}, u.Sound →
      ((u.records.filter fun r => r.zoneID == id).map Record.id).Nodup :=
    fun hu => hu.record_ids.sublist ((filter_sublist).map _)
  refine Store.sortOn_eq_of_mem (hnodup h') (hnodup h) ?_ ?_
  · intro a b hab
    simp only [Record.listKey, cons.injEq] at hab
    exact Ident.sortKey_inj hab.2.2.2.1
  · intro r
    rw [mem_filter, mem_filter]
    constructor
    · intro hr
      exact ⟨(hsame r (by simpa using hr.2)).mp hr.1, hr.2⟩
    · intro hr
      exact ⟨(hsame r (by simpa using hr.2)).mpr hr.1, hr.2⟩

theorem viewOf_of_tells {notes : List AppliedZone} (htells : Tells nameOf notes s s') (h : s.Sound)
    (h' : s'.Sound) (hnames : ∀ z ∈ s.zones, z.name = nameOf z.id) {n : Name}
    (hn : ∀ e ∈ notes, e.name ≠ n) : viewOf lib s' n = viewOf lib s n := by
  have huntold : ∀ z : Zone, z.name = nameOf z.id → z.name = n → ∀ e ∈ notes, e.id ≠ z.id := by
    intro z hz hzn e he hid
    refine hn e he ?_
    rw [htells.noted e he, hid, ← hz, hzn]
  have hzone : s'.zoneByName n = s.zoneByName n := by
    refine ext fun z => ?_
    rw [zoneByName_eq_some h', zoneByName_eq_some h]
    constructor
    · intro hz
      exact ⟨(htells.zones z (huntold z (htells.names z hz.1) hz.2)).mp hz.1, hz.2⟩
    · intro hz
      exact ⟨(htells.zones z (huntold z (hnames z hz.1) hz.2)).mpr hz.1, hz.2⟩
  rw [viewOf, viewOf, hzone]
  cases hz : s.zoneByName n with
  | none => rfl
  | some z =>
    obtain ⟨hmem, hname⟩ := (zoneByName_eq_some h).mp hz
    have hrecords : s'.zoneRecords z.id = s.zoneRecords z.id :=
      zoneRecords_congr h h' fun r hr =>
        htells.records r (hr ▸ huntold z (hnames z hmem) hname)
    rw [map_some, map_some, treeOf, treeOf, hrecords]

theorem publishZone_zoneAt (h : s.Sound) (hnames : ∀ z ∈ s.zones, z.name = nameOf z.id)
    (hkeyed : snap.Keyed) {e : AppliedZone} (he : e.name = nameOf e.id)
    (hok : publishZone lib s snap e = .ok snap') :
    snap'.Keyed ∧ snap'.zoneAt = Copies.put (viewOf lib s) snap.zoneAt e.note := by
  have hput : ∀ n, Copies.put (viewOf lib s) snap.zoneAt e.note n =
      if n = e.name then Copies.shownBy (viewOf lib s) e.id n else snap.zoneAt n := fun n => rfl
  rw [publishZone] at hok
  cases hzone : s.zoneByID e.id with
  | error err =>
    rw [hzone] at hok
    cases hok
    refine ⟨hkeyed.withoutZone e.name, funext fun n => ?_⟩
    rw [hkeyed.zoneAt_withoutZone, hput]
    by_cases hn : n = e.name
    · rw [if_pos hn, if_pos hn]
      -- nobody has the identifier any more
      dsimp only [Copies.shownBy, viewOf]
      cases hz : s.zoneByName n with
      | none => rfl
      | some z =>
        have hne : z.id ≠ e.id := by
          intro hid
          have hfound := h.zoneByID_eq_ok.mpr
            ⟨((zoneByName_eq_some h).mp hz).1, hid⟩
          rw [hzone] at hfound
          cases hfound
        simp [hne]
    · rw [if_neg hn, if_neg hn]
  | ok z =>
    rw [hzone] at hok
    obtain ⟨hmem, hid⟩ := h.zoneByID_eq_ok.mp hzone
    have hname : z.name = e.name := by rw [hnames z hmem, hid, he]
    have hview : viewOf lib s e.name = some (z.id, treeOf lib s z) := by
      rw [viewOf, (zoneByName_eq_some h).mpr ⟨hmem, hname⟩]
      rfl
    have hshown : Copies.shownBy (viewOf lib s) e.id e.name = treeOf lib s z := by
      dsimp only [Copies.shownBy]
      rw [hview, bind_some, if_pos hid]
    have hheld : ∀ n, Copies.put (viewOf lib s) snap.zoneAt e.note n =
        if n = e.name then treeOf lib s z else snap.zoneAt n := by
      intro n
      rw [hput]
      by_cases hn : n = e.name
      · rw [if_pos hn, if_pos hn, hn, hshown]
      · rw [if_neg hn, if_neg hn]
    dsimp only [withZone] at hok
    split at hok
    · next hdisabled =>
      cases hok
      refine ⟨hkeyed.withoutZone z.name, funext fun n => ?_⟩
      rw [hkeyed.zoneAt_withoutZone, hheld, treeOf, if_pos hdisabled, hname]
    · next hdisabled =>
      simp only [bind_eq_ok, pure_eq_ok] at hok
      obtain ⟨t, hbuild, rfl⟩ := hok
      refine ⟨snap.keyed_clone z.name (some t), funext fun n => ?_⟩
      have htree : ∀ o ∈ some t, o.name = z.name := by
        intro o ho
        cases ho
        exact name_of_buildZone hbuild
      rw [hkeyed.zoneAt_clone htree, hheld, treeOf, if_neg hdisabled, hbuild, hname]
      rfl

end Step

section Run

variable {lib : RRLibrary} (nameOf : ZoneID → Name)

def Event.Told (σ : Publishing lib) : Event → Prop
  | .commit _ index b => b.wrote index σ.store = true → b.Announces nameOf σ.store
  | .handle _ => True

def AllTold : Publishing lib → List Event → Prop
  | _, [] => True
  | σ, e :: rest => e.Told nameOf σ ∧ ∀ τ, σ.step e = .ok τ → AllTold τ rest

def Publishing.copies (σ : Publishing lib) : Copies.State ZoneID Name (ZoneTree lib.RR) where
  view := viewOf lib σ.store
  copy := σ.snapshot.zoneAt
  waiting := σ.waiting.map fun a => a.zones.map AppliedZone.note
  handled := σ.handled.map AppliedZone.note

/-- What the steps of a run keep beside that. -/
structure Publishing.Kept (σ : Publishing lib) : Prop where
  sound : σ.store.Sound
  names : ∀ z ∈ σ.store.zones, z.name = nameOf z.id
  keyed : σ.snapshot.Keyed
  waiting : ∀ a ∈ σ.waiting, ∀ e ∈ a.zones, e.name = nameOf e.id

variable {nameOf} {σ τ : Publishing lib}

theorem publishZones_zoneAt {s : Store} (h : s.Sound) (hnames : ∀ z ∈ s.zones, z.name = nameOf z.id)
    {notes : List AppliedZone} (hnotes : ∀ e ∈ notes, e.name = nameOf e.id)
    {snap snap' : Snapshot lib.RR} (hkeyed : snap.Keyed)
    (hok : notes.foldlM (publishZone lib s) snap = .ok snap') :
    snap'.Keyed ∧
      snap'.zoneAt = (notes.map AppliedZone.note).foldl (Copies.put (viewOf lib s)) snap.zoneAt := by
  induction notes generalizing snap with
  | nil =>
    cases hok
    exact ⟨hkeyed, rfl⟩
  | cons e rest ih =>
    obtain ⟨mid, hone, hrest⟩ := foldlM_cons_eq_ok.mp hok
    obtain ⟨hmid, hzones⟩ := publishZone_zoneAt h hnames hkeyed (hnotes e mem_cons_self) hone
    rw [map_cons, foldl_cons, ← hzones]
    exact ih (fun e he => hnotes e (mem_cons_of_mem _ he)) hmid hrest

theorem Publishing.Kept.step (h : σ.Kept nameOf) {e : Event} (htold : e.Told nameOf σ)
    (hok : σ.step e = .ok τ) :
    τ.Kept nameOf ∧ (τ.copies = σ.copies ∨ Copies.Step σ.copies τ.copies) := by
  cases e with
  | commit now index b =>
    simp only [Publishing.step, bind_eq_ok, pure_eq_ok] at hok
    obtain ⟨s', happly, rfl⟩ := hok
    obtain ⟨mid, i, rfl, hwritten⟩ := Batch.applyAt_wrote happly
    cases hwrote : b.wrote index σ.store with
    | false =>
      rw [hwrote, if_neg Bool.false_ne_true] at hwritten
      subst hwritten
      refine ⟨⟨?_, h.names, h.keyed, h.waiting⟩, .inl rfl⟩
      exact h.sound.of_tables rfl rfl rfl
    | true =>
      rw [hwrote, if_pos rfl] at hwritten
      have htells := (htold hwrote).tells h.sound h.names hwritten
      have hsound : mid.Sound := Batch.write_sound h.sound hwritten
      have hsound' : Store.Sound { mid with appliedIndex := i } :=
        hsound.of_tables rfl rfl rfl
      refine ⟨⟨hsound', htells.names, h.keyed, ?_⟩, .inr ?_⟩
      · exact Links.forall_mem_concat h.waiting htells.noted
      · have hview : ∀ n, (∀ e ∈ b.touched.zones.map AppliedZone.note, e.2 ≠ n) →
            viewOf lib { mid with appliedIndex := i } n = viewOf lib σ.store n := by
          intro n hn
          exact viewOf_of_tells htells h.sound hsound h.names fun e he =>
            hn e.note (mem_map_of_mem he)
        have hstep := Copies.Step.change (σ := σ.copies) _ _ hview
        simpa [Publishing.copies] using hstep
  | handle i =>
    rw [Publishing.step] at hok
    cases hnote : σ.waiting[i]? with
    | none =>
      rw [hnote] at hok
      cases hok
    | some note =>
      rw [hnote] at hok
      simp only [bind_eq_ok, pure_eq_ok] at hok
      obtain ⟨snap, hsnap, rfl⟩ := hok
      obtain ⟨hi, hget⟩ := List.getElem?_eq_some_iff.mp hnote
      have hsplit : σ.waiting = σ.waiting.take i ++ note :: σ.waiting.drop (i + 1) := by
        rw [← hget, cons_getElem_drop_succ, take_append_drop]
      have herase : σ.waiting.eraseIdx i = σ.waiting.take i ++ σ.waiting.drop (i + 1) :=
        eraseIdx_eq_take_drop_succ ..
      have hnotes : ∀ e ∈ note.zones, e.name = nameOf e.id :=
        h.waiting note (mem_of_getElem? hnote)
      obtain ⟨hkeyed, hzones⟩ := publishZones_zoneAt h.sound h.names hnotes h.keyed hsnap
      refine ⟨⟨h.sound, h.names, hkeyed, ?_⟩, .inr ?_⟩
      · intro a ha
        exact h.waiting a (mem_of_mem_eraseIdx ha)
      · have hwaiting : σ.copies.waiting =
            (σ.waiting.take i).map (fun a => a.zones.map AppliedZone.note) ++
              note.zones.map AppliedZone.note ::
                (σ.waiting.drop (i + 1)).map fun a => a.zones.map AppliedZone.note := by
          rw [Publishing.copies]
          dsimp only
          conv_lhs => rw [hsplit]
          rw [map_append, map_cons]
        have hstep := Copies.Step.handle hwaiting
        simpa [Publishing.copies, hzones, herase, map_append] using hstep

theorem Publishing.Kept.run {events : List Event} (h : σ.Kept nameOf)
    (htracked : Copies.Tracked σ.copies) (htold : AllTold nameOf σ events)
    (hrun : events.foldlM Publishing.step σ = .ok τ) : τ.Kept nameOf ∧ Copies.Tracked τ.copies := by
  induction events generalizing σ with
  | nil =>
    cases hrun
    exact ⟨h, htracked⟩
  | cons e rest ih =>
    obtain ⟨mid, hone, hrest⟩ := foldlM_cons_eq_ok.mp hrun
    obtain ⟨hmid, hstep⟩ := h.step htold.1 hone
    refine ih hmid ?_ (htold.2 mid hone) hrest
    rcases hstep with heq | hstep
    · rw [heq]
      exact htracked
    · exact htracked.step hstep

end Run

end DNS

namespace Sample

def planned (base : Nat) (s : Store) (op : Operation) : Batch :=
  (((envAt base).planOp s op).toOption.map Prod.fst).getD Batch.blank

def deletion : Batch := planned 100 forwardStore (.deleteZone (.ulid 1) info)

def afterDeletion : Store := (deletion.applyAt 1 0 forwardStore).toOption.getD forwardStore

def recreation : Batch :=
  planned 200 afterDeletion (.createZone (zone 2 ["ex"]) [record 0 2 ["ex"] typeNS "ns."] info)

def opensHere (b : Batch) : ZoneOp → Bool
  | .create z | .update z => z.name == name ["ex"] && decide (b.CommitsTo z.id)
  | .delete zid => decide (b.CommitsTo zid)

theorem announces_here {b : Batch} {s : Store} (hnamed : ∀ c ∈ b.commits, c.zoneName = name ["ex"])
    (hzones : ∀ op ∈ b.zones, opensHere b op = true)
    (hinserts : ∀ r ∈ b.set.inserts, b.CommitsTo r.zoneID)
    (hupdates : ∀ u ∈ b.set.updates, b.CommitsTo u.after.zoneID)
    (hrecords : ∀ r ∈ s.records, b.CommitsTo r.zoneID) :
    b.Announces (fun _ => name ["ex"]) s where
  named := hnamed
  opened z hz := by
    rcases hz with hz | hz
    · simpa [opensHere] using hzones _ hz
    · simpa [opensHere] using hzones _ hz
  closed zid hzid := by simpa [opensHere] using hzones _ hzid
  inserts := hinserts
  updates u hu := ⟨hupdates u hu, fun o ho _ => hrecords o ho⟩
  removed o ho _ := hrecords o ho

theorem deletion_announces : deletion.Announces (fun _ => name ["ex"]) forwardStore :=
  announces_here (by decide +kernel) (by decide +kernel) (by decide +kernel) (by decide +kernel)
    (by decide +kernel)

theorem recreation_announces : recreation.Announces (fun _ => name ["ex"]) afterDeletion :=
  announces_here (by decide +kernel) (by decide +kernel) (by decide +kernel) (by decide +kernel)
    (by decide +kernel)

def exchange (i : Nat) : List DNS.Event :=
  [.commit 1 0 deletion, .commit 1 0 recreation, .handle i, .handle 0]

end Sample

namespace DNS

section Converges

variable (lib : RRLibrary) (nameOf : ZoneID → Name) (start : Store) (snap fresh : Snapshot lib.RR)
  (events : List Event) (σ : Publishing lib)

/-- Once every note was handled, the snapshot in force shows what a rebuild does just where the
zone that was handled last under a name is the one that has the name. -/
theorem publish_converges_iff (hsound : start.Sound)
    (hnames : ∀ z ∈ start.zones, z.name = nameOf z.id) (hload : rebuild lib start = .ok snap)
    (htold : AllTold nameOf (Publishing.loaded start snap) events)
    (hrun : events.foldlM Publishing.step (Publishing.loaded start snap) = .ok σ)
    (hdone : σ.waiting = []) (hfresh : rebuild lib σ.store = .ok fresh) :
    (∀ apex, σ.snapshot.zoneAt apex = fresh.zoneAt apex) ↔
      ∀ z ∈ σ.store.zones, z.disabled = false →
        ∀ e, (σ.handled.reverse.find? fun e => e.name == z.name) = some e → e.id = z.id := by
  obtain ⟨hkeyed, hzones⟩ := rebuild_zoneAt hsound hload
  have hkept : (Publishing.loaded start snap).Kept nameOf :=
    ⟨hsound, hnames, hkeyed, fun a ha => by cases ha⟩
  have htracked : Copies.Tracked (Publishing.loaded start snap).copies := by
    intro n _
    exact hzones n
  obtain ⟨hend, htracked⟩ := hkept.run htracked htold hrun
  obtain ⟨-, hfreshAt⟩ := rebuild_zoneAt hend.sound hfresh
  have hwaiting : σ.copies.waiting = [] := by
    rw [Publishing.copies, hdone]
    rfl
  have hlast : ∀ n, Copies.lastOn n σ.copies.handled =
      (σ.handled.reverse.find? fun e => e.name == n).map AppliedZone.id := by
    intro n
    rw [Copies.lastOn, Publishing.copies]
    dsimp only
    rw [← map_reverse, find?_map, Option.map_map]
    rfl
  have hcopy : ∀ n, σ.snapshot.zoneAt n = fresh.zoneAt n ↔
      ∀ k c, viewOf lib σ.store n = some (k, some c) → ∀ j,
        Copies.lastOn n σ.copies.handled = some j → j = k := by
    intro n
    rw [hfreshAt n]
    exact htracked.copy_eq_iff hwaiting n
  constructor
  · intro hall z hz henabled e he
    -- an enabled zone shows its tree
    obtain ⟨t, ht⟩ : ∃ t, treeOf lib σ.store z = some t := by
      obtain ⟨t, ht⟩ := buildZone_of_build hfresh (mem_sortOn.mpr hz) henabled
      rw [treeOf, henabled, if_neg Bool.false_ne_true, ht]
      exact ⟨t, rfl⟩
    have hview : viewOf lib σ.store z.name = some (z.id, some t) := by
      rw [viewOf, (zoneByName_eq_some hend.sound).mpr ⟨hz, rfl⟩, map_some, ht]
    refine (hcopy z.name).mp (hall z.name) z.id t hview e.id ?_
    rw [hlast, he]
    rfl
  · intro hcond n
    rw [hcopy]
    intro k c hview j hj
    obtain ⟨z, hz, hpair⟩ := map_eq_some_iff.mp hview
    obtain ⟨hmem, rfl⟩ := (zoneByName_eq_some hend.sound).mp hz
    obtain ⟨rfl, htree⟩ := Prod.mk.inj hpair
    rw [hlast] at hj
    obtain ⟨e, he, rfl⟩ := map_eq_some_iff.mp hj
    refine hcond z hmem ?_ e he
    cases hdisabled : z.disabled with
    | false => rfl
    | true =>
      rw [treeOf, hdisabled] at htree
      cases htree

end Converges

/-- The notes of a zone that went and of one that took its name, handled in their order. -/
theorem publish_converges_exchange :
    ∃ snap fresh σ, rebuild RRLibrary.plain forwardStore = .ok snap ∧
      (exchange 0).foldlM Publishing.step (Publishing.loaded forwardStore snap) =
        .ok σ ∧
      rebuild RRLibrary.plain σ.store = .ok fresh ∧
      (fresh.zoneAt (Sample.name ["ex"])).isSome ∧
      ∀ apex, σ.snapshot.zoneAt apex = fresh.zoneAt apex := by
  obtain ⟨snap, hload, hall⟩ := ok_of_any
    (show (rebuild RRLibrary.plain forwardStore).toOption.any (fun snap =>
      ((exchange 0).foldlM Publishing.step
        (Publishing.loaded forwardStore snap)).toOption.any fun σ =>
          σ.waiting.isEmpty &&
            decide (∀ z ∈ σ.store.zones, ∀ e ∈ σ.handled.reverse.find? fun e => e.name == z.name,
              e.id = z.id) &&
            (rebuild RRLibrary.plain σ.store).toOption.any fun fresh =>
              (fresh.zoneAt (Sample.name ["ex"])).isSome) = true by decide +kernel)
  obtain ⟨σ, hrun, hends⟩ := ok_of_any hall
  simp only [Bool.and_eq_true, List.isEmpty_iff, decide_eq_true_eq] at hends
  obtain ⟨⟨hdone, hlast⟩, hshown⟩ := hends
  obtain ⟨fresh, hfresh, hheld⟩ := ok_of_any hshown
  refine ⟨snap, fresh, σ, hload, hrun, hfresh, hheld, ?_⟩
  refine (publish_converges_iff RRLibrary.plain (fun _ => Sample.name ["ex"]) Sample.forwardStore
    snap fresh (exchange 0) σ (by constructor <;> decide +kernel) (by decide +kernel) hload
    ⟨fun _ => deletion_announces, fun τ hτ => ?_⟩ hrun hdone hfresh).mpr
    fun z hz _ e he => hlast z hz e he
  simp only [Publishing.step, bind_eq_ok, pure_eq_ok] at hτ
  obtain ⟨s, happly, rfl⟩ := hτ
  have hs : s = afterDeletion := by
    rw [afterDeletion]
    rw [show forwardStore = (Publishing.loaded forwardStore snap).store from rfl,
      happly]
    rfl
  exact ⟨fun _ => hs ▸ recreation_announces, fun _ _ => ⟨trivial, fun _ _ =>
    ⟨trivial, fun _ _ => trivial⟩⟩⟩

/-- In the other order the note of the zone that went takes away the one that is there. -/
theorem publish_drops_recreated :
    ∃ snap fresh σ, rebuild RRLibrary.plain forwardStore = .ok snap ∧
      (exchange 1).foldlM Publishing.step (Publishing.loaded forwardStore snap) =
        .ok σ ∧
      σ.waiting = [] ∧ rebuild RRLibrary.plain σ.store = .ok fresh ∧
      (σ.snapshot.zoneAt (Sample.name ["ex"])).isNone ∧
      (fresh.zoneAt (Sample.name ["ex"])).isSome := by
  obtain ⟨snap, hload, hall⟩ := ok_of_any
    (show (rebuild RRLibrary.plain forwardStore).toOption.any (fun snap =>
      ((exchange 1).foldlM Publishing.step
        (Publishing.loaded forwardStore snap)).toOption.any fun σ =>
          σ.waiting.isEmpty && (σ.snapshot.zoneAt (Sample.name ["ex"])).isNone &&
            (rebuild RRLibrary.plain σ.store).toOption.any fun fresh =>
              (fresh.zoneAt (Sample.name ["ex"])).isSome) = true by decide +kernel)
  obtain ⟨σ, hrun, hends⟩ := ok_of_any hall
  simp only [Bool.and_eq_true, List.isEmpty_iff] at hends
  obtain ⟨fresh, hfresh, hheld⟩ := ok_of_any hends.2
  exact ⟨snap, fresh, σ, hload, hrun, hends.1.1, hfresh, hends.1.2, hheld⟩

end DNS

end Wegweiser
