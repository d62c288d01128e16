/-
What a batch tells of.

A batch that is written is announced with the zones it has commits for.
-/
import Wegweiser.Apply.Clocks

namespace Wegweiser

open Checked List Store

structure AppliedZone where
  id : ZoneID
  name : Name
deriving DecidableEq

def AppliedZone.note (e : AppliedZone) : ZoneID × Name := (e.id, e.name)

structure Applied where
  zones : List AppliedZone
  keys : Bool
  settings : List String
deriving DecidableEq

namespace Batch

def touchedZones : List ZoneID → List Commit → List AppliedZone
  | _, [] => []
  | seen, c :: rest =>
    if seen.contains c.zoneID then touchedZones seen rest
    else ⟨c.zoneID, c.zoneName⟩ :: touchedZones (c.zoneID :: seen) rest

def touched (b : Batch) : Applied where
  zones := touchedZones [] b.commits
  keys := !b.keys.isEmpty
  settings := b.settings.map SettingChange.key

/-- Whether `ApplyBatchAt` writes the batch, which is when it is told of. -/
def wrote (index : Nat) (b : Batch) (s : Store) : Bool :=
  !b.empty && !(index != 0 && decide (index ≤ s.appliedIndex)) &&
    !((b.applied s).toOption.getD false)

theorem applyAt_wrote {b : Batch} {now index : Nat} {s t : Store}
    (hok : b.applyAt now index s = .ok t) :
    ∃ mid i, t = { mid with appliedIndex := i } ∧
      if b.wrote index s then b.write now s = .ok mid else mid = s := by
  rw [applyAt] at hok
  split at hok
  · next hempty =>
    cases hok
    rw [Bool.and_eq_true] at hempty
    exact ⟨s, s.appliedIndex, rfl, by simp [wrote, hempty.1]⟩
  · split at hok
    · next hseen =>
      cases hok
      exact ⟨s, s.appliedIndex, rfl, by simp [wrote, hseen]⟩
    · next hnew =>
      simp only [bind_eq_ok] at hok
      obtain ⟨mid, honce, hindex⟩ := hok
      have hwritten : if b.wrote index s then b.write now s = .ok mid else mid = s := by
        rw [writeOnce] at honce
        split at honce
        · next hempty =>
          cases honce
          simp [wrote, hempty]
        · next hempty =>
          simp only [bind_eq_ok] at honce
          obtain ⟨done, hdone, hwrite⟩ := honce
          cases done with
          | true =>
            cases hwrite
            simp [wrote, hdone, Except.toOption]
          | false =>
            have hwrote : b.wrote index s = true := by
              rw [Bool.not_eq_true] at hempty hnew
              simp [wrote, hempty, hnew, hdone, Except.toOption]
            rw [if_pos hwrote]
            exact hwrite
      split at hindex
      · cases hindex
        exact ⟨t, t.appliedIndex, rfl, hwritten⟩
      · obtain ⟨-, -, rfl⟩ := setAppliedIndex_eq_ok.mp hindex
        exact ⟨mid, index, rfl, hwritten⟩

end Batch

/-- A note tells of every zone a change made a difference to, under the name that goes with its
identifier for good. -/
structure Tells (nameOf : ZoneID → Name) (notes : List AppliedZone) (s s' : Store) : Prop where
  names : ∀ z ∈ s'.zones, z.name = nameOf z.id
  noted : ∀ e ∈ notes, e.name = nameOf e.id
  zones : ∀ z, (∀ e ∈ notes, e.id ≠ z.id) → (z ∈ s'.zones ↔ z ∈ s.zones)
  records : ∀ r, (∀ e ∈ notes, e.id ≠ r.zoneID) → (r ∈ s'.records ↔ r ∈ s.records)

namespace Batch

def CommitsTo (b : Batch) (zid : ZoneID) : Prop := ∃ c ∈ b.commits, c.zoneID = zid

instance (b : Batch) (zid : ZoneID) : Decidable (b.CommitsTo zid) :=
  inferInstanceAs (Decidable (∃ c ∈ b.commits, c.zoneID = zid))

/-- Everything a batch makes a difference to lies in a zone it has a commit for. -/
structure Announces (nameOf : ZoneID → Name) (b : Batch) (s : Store) : Prop where
  named : ∀ c ∈ b.commits, c.zoneName = nameOf c.zoneID
  opened : ∀ z, .create z ∈ b.zones ∨ .update z ∈ b.zones → z.name = nameOf z.id ∧ b.CommitsTo z.id
  closed : ∀ zid, .delete zid ∈ b.zones → b.CommitsTo zid
  inserts : ∀ r ∈ b.set.inserts, b.CommitsTo r.zoneID
  updates : ∀ u ∈ b.set.updates, b.CommitsTo u.after.zoneID ∧
    ∀ o ∈ s.records, o.id = u.after.id → b.CommitsTo o.zoneID
  /-- What the schema takes away with a row or with a zone. -/
  removed : ∀ o ∈ s.records,
    Links.Below Record.id Record.source s.records (· ∈ b.set.gone) o.id ∨ b.Swept s o.id →
      b.CommitsTo o.zoneID

variable {seen : List ZoneID} {commits : List Commit} {c : Commit} {zid : ZoneID} {u x y : Store}
  {op : ZoneOp}

theorem mem_touchedZones {e : AppliedZone}
    (he : e ∈ touchedZones seen commits) : ∃ c ∈ commits, e = ⟨c.zoneID, c.zoneName⟩ := by
  induction commits generalizing seen with
  | nil => cases he
  | cons c rest ih =>
    rw [touchedZones] at he
    split at he
    · obtain ⟨c', hc', heq⟩ := ih he
      exact ⟨c', mem_cons_of_mem c hc', heq⟩
    · rcases mem_cons.mp he with rfl | he
      · exact ⟨c, mem_cons_self, rfl⟩
      · obtain ⟨c', hc', heq⟩ := ih he
        exact ⟨c', mem_cons_of_mem c hc', heq⟩

theorem exists_touched (hc : c ∈ commits) :
    c.zoneID ∈ seen ∨ ∃ e ∈ touchedZones seen commits, e.id = c.zoneID := by
  induction commits generalizing seen with
  | nil => cases hc
  | cons head rest ih =>
    rw [touchedZones]
    split
    · next hseen =>
      rcases mem_cons.mp hc with rfl | hc
      · exact .inl (contains_iff_mem.mp hseen)
      · exact ih hc
    · rcases mem_cons.mp hc with rfl | hc
      · exact .inr ⟨_, mem_cons_self, rfl⟩
      · rcases @ih (head.zoneID :: seen) hc with hmem | ⟨e, he, hid⟩
        · rcases mem_cons.mp hmem with hid | hmem
          · exact .inr ⟨_, mem_cons_self, hid.symm⟩
          · exact .inl hmem
        · exact .inr ⟨e, mem_cons_of_mem _ he, hid⟩

variable {nameOf : ZoneID → Name} {b : Batch} {s t : Store} {now : Nat}

theorem commitsTo_iff : b.CommitsTo zid ↔ ∃ e ∈ b.touched.zones, e.id = zid := by
  constructor
  · intro h
    obtain ⟨c, hc, rfl⟩ := h
    exact (exists_touched hc).resolve_left not_mem_nil
  · intro h
    obtain ⟨e, he, rfl⟩ := h
    obtain ⟨c, hc, rfl⟩ := mem_touchedZones he
    exact ⟨c, hc, rfl⟩

/-- Zones under the names that go with their identifiers, and those that are not committed to
as they were. -/
structure KeepsRest (nameOf : ZoneID → Name) (b : Batch) (s t : Store) : Prop where
  names : ∀ z ∈ t.zones, z.name = nameOf z.id
  zones : ∀ z, ¬ b.CommitsTo z.id → (z ∈ t.zones ↔ z ∈ s.zones)

theorem KeepsRest.of_zones (h : KeepsRest nameOf b s t) (hzones : u.zones = t.zones) :
    KeepsRest nameOf b s u := by
  constructor
  · rw [hzones]
    exact h.names
  · rw [hzones]
    exact h.zones

theorem KeepsRest.of_map (h : KeepsRest nameOf b s t) {f : Zone → Zone}
    (hzones : u.zones = t.zones.map f) (hother : ∀ o, o.id ≠ zid → f o = o)
    (hid : ∀ o, (f o).id = o.id) (hname : ∀ o ∈ t.zones, (f o).name = nameOf o.id)
    (hzid : b.CommitsTo zid) : KeepsRest nameOf b s u := by
  constructor
  · intro z hz
    rw [hzones] at hz
    obtain ⟨o, ho, rfl⟩ := mem_map.mp hz
    rw [hid]
    exact hname o ho
  · intro z hz
    rw [← h.zones z hz, hzones, mem_map]
    have hne : z.id ≠ zid := fun heq => hz (heq ▸ hzid)
    constructor
    · intro hmem
      obtain ⟨o, ho, heq⟩ := hmem
      have hoid : o.id = z.id := by rw [← heq, hid]
      rw [hother o (hoid ▸ hne)] at heq
      exact heq ▸ ho
    · intro hmem
      exact ⟨z, hmem, hother z hne⟩

theorem KeepsRest.opening (h : KeepsRest nameOf b s x) (ha : b.Announces nameOf s)
    (hop : op ∈ b.zones) (hok : openZone now x op = .ok y) : KeepsRest nameOf b s y := by
  cases op with
  | delete zid =>
    cases hok
    exact h
  | create z =>
    obtain ⟨hname, hcommits⟩ := ha.opened z (.inl hop)
    obtain ⟨-, -, -, rfl⟩ := createZone_eq_ok.mp hok
    constructor
    · exact Links.forall_mem_concat h.names hname
    · intro o ho
      rw [← h.zones o ho, mem_append, mem_singleton]
      refine or_iff_left fun heq => ho ?_
      rw [heq]
      exact hcommits
  | update z =>
    obtain ⟨hname, hcommits⟩ := ha.opened z (.inr hop)
    obtain ⟨-, -, -, rfl⟩ := updateZone_eq_ok.mp hok
    refine h.of_map rfl (fun o ho => if_neg ho) (fun o => ?_) (fun o ho => ?_) hcommits
    · rw [updatedZone]
      split
      · next hid => exact hid.symm
      · rfl
    · rw [updatedZone]
      split
      · next hid => exact hname.trans (congrArg nameOf hid.symm)
      · exact h.names o ho

theorem KeepsRest.closing (h : KeepsRest nameOf b s x) (ha : b.Announces nameOf s)
    (hop : op ∈ b.zones) (hok : closeZone x op = .ok y) : KeepsRest nameOf b s y := by
  cases op with
  | create z | update z =>
    cases hok
    exact h
  | delete zid =>
    obtain ⟨-, rfl⟩ := deleteZone_eq_ok.mp hok
    constructor
    · intro o ho
      exact h.names o (mem_filter.mp ho).1
    · intro o ho
      rw [← h.zones o ho, mem_filter]
      refine and_iff_left ?_
      rw [bne_iff_ne]
      exact fun heq => ho (heq ▸ ha.closed zid hop)

theorem KeepsRest.step (h : KeepsRest nameOf b s x) (hc : c ∈ b.commits)
    (hok : b.stepSerial now x c = .ok y) : KeepsRest nameOf b s y := by
  rw [stepSerial] at hok
  split at hok
  · cases hok
  · simp only [bind_eq_ok] at hok
    obtain ⟨z, hz, hsoa⟩ := hok
    have hmem : z ∈ x.zones ∧ z.id = c.zoneID := by
      have hfound := zoneByID_eq_ok.mp hz
      exact ⟨mem_of_find?_eq_some hfound, by simpa using find?_some hfound⟩
    have hcommits : b.CommitsTo z.id := ⟨c, hc, hmem.2.symm⟩
    rw [writeSOA] at hsoa
    split at hsoa
    · obtain ⟨-, rfl⟩ := setZoneSerial_eq_ok.mp hsoa
      refine h.of_map rfl (fun o ho => if_neg ho) (fun o => ?_) (fun o ho => ?_) hcommits
      · rw [steppedZone]
        split <;> rfl
      · rw [steppedZone]
        split
        · exact h.names o ho
        · exact h.names o ho
    · simp only [bind_eq_ok] at hsoa
      obtain ⟨-, -, hupdate⟩ := hsoa
      obtain ⟨-, -, -, rfl⟩ := updateZone_eq_ok.mp hupdate
      refine h.of_map rfl (fun o ho => if_neg ho) (fun o => ?_) (fun o ho => ?_) hcommits
      · rw [updatedZone]
        split
        · next hid => exact hid.symm
        · rfl
      · rw [updatedZone]
        split
        · next hid => exact (h.names z hmem.1).trans (congrArg nameOf hid.symm)
        · exact h.names o ho
  · cases hok
    exact h

theorem Announces.keepsRest (ha : b.Announces nameOf s) (hnames : ∀ z ∈ s.zones, z.name = nameOf z.id)
    (hok : b.write now s = .ok t) : KeepsRest nameOf b s t := by
  obtain ⟨s₀, s₁, s₂, s₃, hzones, -, -, h₁, h₂, h₃, h₄⟩ := write_stages hok
  have i₀ : KeepsRest nameOf b s s₀ := .of_zones ⟨hnames, fun _ _ => Iff.rfl⟩ hzones
  have i₁ := foldlM_invariant (KeepsRest nameOf b s)
    (fun op hop x y hx hxy => hx.opening ha hop hxy) h₁ i₀
  have e₂ : s₂.zones = s₁.zones := (congrArg Store.zones (changeSet_write_frame h₂) :)
  have i₂ := i₁.of_zones e₂
  have i₃ := foldlM_invariant (KeepsRest nameOf b s) (fun c hc x y hx hxy => ?_) h₃ i₂
  · exact foldlM_invariant (KeepsRest nameOf b s)
      (fun op hop x y hx hxy => hx.closing ha hop hxy) h₄ i₃
  · simp only [writeCommit, bind_eq_ok] at hxy
    obtain ⟨mid, hstep, happend⟩ := hxy
    obtain ⟨-, -, -, rfl⟩ := appendCommit_eq_ok.mp happend
    exact (hx.step hc hstep).of_zones rfl

theorem Announces.mem_records (ha : b.Announces nameOf s) (h : s.Sound)
    (hok : b.write now s = .ok t) {r : Record} (hr : ¬ b.CommitsTo r.zoneID) :
    r ∈ t.records ↔ r ∈ s.records := by
  obtain ⟨mid, hmid, hrw, hclose⟩ := write_closing h hok
  rw [mem_closeZones hclose, mem_without]
  constructor
  · intro hkept
    rcases (hrw.rows r).mp hkept.1 with ⟨o, ho, rfl⟩ | ⟨i, hi, rfl⟩
    · rcases rewrittenRow_cases b.set.updates o with ⟨heq, -⟩ | ⟨u, hu, -, created, heq⟩
      · rw [heq]
        exact (mem_without.mp ho).1
      · exfalso
        rw [heq] at hr
        exact hr (ha.updates u hu).1
    · exact absurd (ha.inserts i hi) hr
  · intro hmem
    have hgone : r ∈ s.without b.set.gone :=
      mem_without.mpr ⟨hmem, fun hbelow => hr (ha.removed r hmem (.inl hbelow))⟩
    have hsame : rewrittenRow now b.set.updates r = r := by
      rcases rewrittenRow_cases b.set.updates r with ⟨heq, -⟩ | ⟨u, hu, hid, -⟩
      · exact heq
      · exact absurd ((ha.updates u hu).2 r hmem hid.symm) hr
    have hthere : r ∈ mid.records := (hrw.rows r).mpr (.inl ⟨r, hgone, hsame.symm⟩)
    refine ⟨hthere, fun hbelow => hr (ha.removed r hmem (.inr ?_))⟩
    exact (swept_iff hrw h hmid hthere).mpr hbelow

theorem Announces.tells (ha : b.Announces nameOf s) (h : s.Sound)
    (hnames : ∀ z ∈ s.zones, z.name = nameOf z.id) (hok : b.write now s = .ok t) :
    Tells nameOf b.touched.zones s t := by
  have hkeeps := ha.keepsRest hnames hok
  have huntold : ∀ zid, (∀ e ∈ b.touched.zones, e.id ≠ zid) → ¬ b.CommitsTo zid := by
    intro zid hall hcommits
    obtain ⟨e, he, hid⟩ := commitsTo_iff.mp hcommits
    exact hall e he hid
  constructor
  · exact hkeeps.names
  · intro e he
    obtain ⟨c, hc, rfl⟩ := mem_touchedZones he
    exact ha.named c hc
  · intro z hz
    exact hkeeps.zones z (huntold z.id hz)
  · intro r hr
    exact ha.mem_records h hok (huntold r.zoneID hr)

end Batch

end Wegweiser
