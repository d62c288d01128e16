/-
What carrying a batch out leaves in the tables.

The rows of a written change set are the rows that neither go nor hang off one
that goes, each as its last update leaves it, and the inserted rows.
-/
import Mathlib.Data.List.Induction
import Mathlib.Data.List.Perm.Basic
import Wegweiser.Apply.Frame
import Wegweiser.Store.Sound

namespace Wegweiser

open Checked List Store

section Order

variable {dependentsFirst : Bool} {round l : List Record}

theorem orderRound_perm (waiting : RecordID → Int) :
    ((orderRound dependentsFirst round l waiting).1 ++
      (orderRound dependentsFirst round l waiting).2.1).Perm l := by
  induction l generalizing waiting with
  | nil => exact Perm.refl _
  | cons head tail ih =>
    rw [orderRound]
    split
    · exact perm_middle.trans ((ih waiting).cons head)
    · exact (ih _).cons head

theorem orderRounds_perm (fuel : Nat) (waiting : RecordID → Int) :
    (orderRounds dependentsFirst fuel l waiting).Perm l := by
  induction fuel generalizing l waiting with
  | zero => exact Perm.refl _
  | succ fuel ih =>
    rw [orderRounds]
    split
    · next hempty =>
      rw [isEmpty_iff.mp hempty]
    · dsimp only
      split
      · exact orderRound_perm waiting
      · exact (Perm.append_left _ (ih _)).trans (orderRound_perm waiting)

theorem ordered_perm : (ordered dependentsFirst l).Perm l :=
  orderRounds_perm _ _

end Order

variable {s t : Store} {now : Nat} {cs : ChangeSet} {r : Record}

def insertedRow (now : Nat) (r : Record) : Record :=
  { r with createdAt := now, updatedAt := now }

/-- The row a list of updates leaves where it found `o`. -/
def rewrittenRow (now : Nat) (updates : List RecordUpdate) (o : Record) : Record :=
  updates.foldl (fun o u => updatedRow now u.after o) o

variable {updates : List RecordUpdate} {o : Record} {l : List Record} {z : Zone} {ch : Changes}
  {c : Commit}

@[simp]
theorem rewrittenRow_id : (rewrittenRow now updates o).id = o.id := by
  induction updates generalizing o with
  | nil => rfl
  | cons head tail ih =>
    rw [rewrittenRow, foldl_cons]
    exact ih.trans Sound.updatedRow_id

theorem rewrittenRow_cases (updates : List RecordUpdate) (o : Record) :
    (rewrittenRow now updates o = o ∧ ∀ u ∈ updates, u.after.id ≠ o.id) ∨
      ∃ u ∈ updates, u.after.id = o.id ∧
        ∃ created, rewrittenRow now updates o =
          { u.after with createdAt := created, updatedAt := now } := by
  induction updates using reverseRecOn with
  | nil => exact .inl ⟨rfl, fun _ hu => absurd hu not_mem_nil⟩
  | append_singleton front last ih =>
    have hstep : rewrittenRow now (front ++ [last]) o =
        updatedRow now last.after (rewrittenRow now front o) := by
      simp [rewrittenRow]
    by_cases hid : o.id = last.after.id
    · refine .inr ⟨last, by simp, hid.symm, (rewrittenRow now front o).createdAt, ?_⟩
      rw [hstep, updatedRow, if_pos (rewrittenRow_id.trans hid)]
    · have hkeep : rewrittenRow now (front ++ [last]) o = rewrittenRow now front o := by
        rw [hstep, updatedRow, if_neg fun h => hid (rewrittenRow_id.symm.trans h)]
      rcases ih with ⟨hsame, hnone⟩ | ⟨u, hu, huid, created, hrow⟩
      · exact .inl ⟨hkeep.trans hsame, Links.forall_mem_concat hnone fun h => hid h.symm⟩
      · exact .inr ⟨u, mem_append_left _ hu, huid, created, hkeep.trans hrow⟩

theorem rewrittenRow_of_mem {u : RecordUpdate} (hu : u ∈ updates)
    (honly : ∀ v ∈ updates, v.after.id = u.after.id → v = u) (hid : u.after.id = o.id) :
    ∃ created, rewrittenRow now updates o =
      { u.after with createdAt := created, updatedAt := now } := by
  rcases rewrittenRow_cases updates o with ⟨-, hnone⟩ | ⟨v, hv, hvid, hrow⟩
  · exact absurd hid (hnone u hu)
  · rw [honly v hv (hvid.trans hid.symm)] at hrow
    exact hrow

theorem deletes_eq_ok (hrun : l.foldlM (fun s d => s.deleteRecord d.id) s = .ok t) :
    (∀ r, r ∈ t.records ↔ r ∈ s.without (l.map Record.id)) ∧
      (∀ d ∈ l, ∃ o ∈ s.records, o.id = d.id) ∧ (l.map Record.id).Nodup := by
  induction l generalizing s with
  | nil =>
    cases hrun
    refine ⟨fun r => ?_, fun _ hd => absurd hd not_mem_nil, nodup_nil⟩
    rw [mem_without]
    constructor
    · intro hr
      refine ⟨hr, fun hbelow => ?_⟩
      obtain ⟨k, hk⟩ := hbelow.exists_root
      cases hk
    · exact And.left
  | cons head tail ih =>
    obtain ⟨mid, hhead, htail⟩ := foldlM_cons_eq_ok.mp hrun
    obtain ⟨hex, rfl⟩ := deleteRecord_eq_ok.mp hhead
    obtain ⟨hrows, hdeletes, hdistinct⟩ := ih htail
    refine ⟨fun r => (hrows r).trans Links.mem_prune_prune, fun d hd => ?_, ?_⟩
    · rcases mem_cons.mp hd with rfl | hd
      · exact hex
      · obtain ⟨o, ho, hid⟩ := hdeletes d hd
        exact ⟨o, (mem_without.mp ho).1, hid⟩
    · -- A row that is gone cannot be deleted again.
      refine nodup_cons.mpr ⟨fun hagain => ?_, hdistinct⟩
      obtain ⟨d, hd, hsame⟩ := mem_map.mp hagain
      obtain ⟨o, ho, hid⟩ := hdeletes d hd
      refine (mem_without.mp ho).2 (.root ?_)
      rw [hid, hsame]
      exact mem_singleton_self _

theorem updates_eq_ok {l : List RecordUpdate}
    (hrun : l.foldlM (fun s u => s.updateRecord now u.after) s = .ok t) :
    t.records = s.records.map (rewrittenRow now l) ∧
      ∀ u ∈ l, u.after.check = .ok () ∧ ∃ o ∈ s.records, o.id = u.after.id := by
  induction l generalizing s with
  | nil =>
    cases hrun
    exact ⟨(map_id _).symm, fun _ hu => absurd hu not_mem_nil⟩
  | cons head tail ih =>
    obtain ⟨mid, hhead, htail⟩ := foldlM_cons_eq_ok.mp hrun
    obtain ⟨hcheck, hex, -, rfl⟩ := updateRecord_eq_ok.mp hhead
    obtain ⟨hrows, hupdates⟩ := ih htail
    refine ⟨?_, fun u hu => ?_⟩
    · rw [hrows, map_map]
      rfl
    · rcases mem_cons.mp hu with rfl | hu
      · exact ⟨hcheck, hex⟩
      · obtain ⟨hcheck', o, ho, hid⟩ := hupdates u hu
        obtain ⟨p, hp, rfl⟩ := mem_map.mp ho
        exact ⟨hcheck', p, hp, Sound.updatedRow_id.symm.trans hid⟩

theorem inserts_eq_ok (hrun : l.foldlM (fun s r => s.insertRecord now r) s = .ok t) :
    t.records = s.records ++ l.map (insertedRow now) ∧
      ∀ i ∈ l, i.check = .ok () ∧ ∀ o ∈ s.records, o.id ≠ i.id := by
  induction l generalizing s with
  | nil =>
    cases hrun
    exact ⟨(append_nil _).symm, fun _ hi => absurd hi not_mem_nil⟩
  | cons head tail ih =>
    obtain ⟨mid, hhead, htail⟩ := foldlM_cons_eq_ok.mp hrun
    obtain ⟨hcheck, hadm, rfl⟩ := insertRecord_eq_ok.mp hhead
    obtain ⟨hrows, hinserts⟩ := ih htail
    refine ⟨?_, fun i hi => ?_⟩
    · rw [hrows, append_assoc]
      rfl
    · rcases mem_cons.mp hi with rfl | hi
      · exact ⟨hcheck, hadm.id_new⟩
      · obtain ⟨hcheck', hnew⟩ := hinserts i hi
        exact ⟨hcheck', fun o ho => hnew o (mem_append_left _ ho)⟩

namespace ChangeSet

def gone (cs : ChangeSet) : List RecordID := cs.deletes.map Record.id

/-- What a written change set leaves in the records, and what it found there. -/
structure Rewrites (now : Nat) (cs : ChangeSet) (s t : Store) : Prop where
  rows : ∀ r, r ∈ t.records ↔
    (∃ o ∈ s.without cs.gone, r = rewrittenRow now cs.updates o) ∨
      ∃ i ∈ cs.inserts, r = insertedRow now i
  deletes : ∀ d ∈ cs.deletes, ∃ o ∈ s.records, o.id = d.id
  updates : ∀ u ∈ cs.updates, u.after.check = .ok () ∧
    ∃ o ∈ s.without cs.gone, o.id = u.after.id
  inserts : ∀ i ∈ cs.inserts, i.check = .ok ()
  /-- Nothing goes twice. -/
  distinct : cs.gone.Nodup
  /-- What comes in has an identifier of its own. -/
  fresh : ∀ i ∈ cs.inserts, ∀ o ∈ s.without cs.gone, o.id ≠ i.id

theorem write_rewrites (hok : cs.write now s = .ok t) : cs.Rewrites now s t := by
  simp only [write, bind_eq_ok] at hok
  obtain ⟨s₁, hdel, s₂, hupd, hins⟩ := hok
  obtain ⟨hkept, hdeletes, hdistinct⟩ := deletes_eq_ok hdel
  obtain ⟨hrewritten, hupdates⟩ := updates_eq_ok hupd
  obtain ⟨hadded, hinserts⟩ := inserts_eq_ok hins
  -- the order of the deletions does not matter for what is left
  have hgone (r : Record) : r ∈ s₁.records ↔ r ∈ s.without cs.gone := by
    rw [hkept, mem_without, mem_without]
    have hroots : (fun k => k ∈ (ordered true cs.deletes).map Record.id) =
        fun k => k ∈ cs.gone := by
      funext k
      exact propext ((ordered_perm.map Record.id).mem_iff)
    rw [hroots]
  constructor
  case rows =>
    intro r
    rw [hadded, hrewritten, mem_append, mem_map, mem_map]
    constructor
    · intro hr
      rcases hr with ⟨o, ho, rfl⟩ | ⟨i, hi, rfl⟩
      · exact .inl ⟨o, (hgone o).mp ho, rfl⟩
      · exact .inr ⟨i, ordered_perm.mem_iff.mp hi, rfl⟩
    · intro hr
      rcases hr with ⟨o, ho, rfl⟩ | ⟨i, hi, rfl⟩
      · exact .inl ⟨o, (hgone o).mpr ho, rfl⟩
      · exact .inr ⟨i, ordered_perm.mem_iff.mpr hi, rfl⟩
  case deletes => exact fun d hd => hdeletes d (ordered_perm.mem_iff.mpr hd)
  case updates =>
    intro u hu
    obtain ⟨hcheck, o, ho, hid⟩ := hupdates u hu
    exact ⟨hcheck, o, (hgone o).mp ho, hid⟩
  case inserts => exact fun i hi => (hinserts i (ordered_perm.mem_iff.mpr hi)).1
  case distinct => exact (ordered_perm.map Record.id).nodup_iff.mp hdistinct
  case fresh =>
    intro i hi o ho
    have hnew := (hinserts i (ordered_perm.mem_iff.mpr hi)).2 (rewrittenRow now cs.updates o) ?_
    · rwa [rewrittenRow_id] at hnew
    · rw [hrewritten]
      exact mem_map_of_mem ((hgone o).mpr ho)

theorem write_sound (h : s.Sound) (hok : cs.write now s = .ok t) : t.Sound := by
  simp only [write, bind_eq_ok] at hok
  obtain ⟨s₁, hdel, s₂, hupd, hins⟩ := hok
  have h₁ := foldlM_invariant Sound (fun d _ x y hx hxy => hx.deleteRecord hxy) hdel h
  have h₂ := foldlM_invariant Sound (fun u _ x y hx hxy => hx.updateRecord hxy) hupd h₁
  exact foldlM_invariant Sound (fun r _ x y hx hxy => hx.insertRecord hxy) hins h₂

theorem Rewrites.of_records {s' t' : Store} (h : cs.Rewrites now s t)
    (hs : s'.records = s.records) (ht : t'.records = t.records) : cs.Rewrites now s' t' := by
  have hwithout : s'.without cs.gone = s.without cs.gone := by
    rw [without, without, hs]
  constructor
  · intro r
    rw [ht, hwithout]
    exact h.rows r
  · rw [hs]
    exact h.deletes
  · rw [hwithout]
    exact h.updates
  · exact h.inserts
  · exact h.distinct
  · rw [hwithout]
    exact h.fresh

end ChangeSet

namespace Store

theorem Sound.of_tables (h : s.Sound) (hzones : t.zones = s.zones)
    (hrecords : t.records = s.records) (hcommits : t.commits = s.commits) : t.Sound := by
  constructor
  · rw [hzones]
    exact h.zone_ids
  · rw [hzones]
    exact h.zone_names
  · rw [hzones]
    exact h.zones
  · rw [hrecords]
    exact h.record_ids
  · rw [hrecords]
    exact h.record_contents
  · rw [hrecords]
    exact h.records
  · rw [hrecords, hzones]
    exact h.record_zones
  · rw [hrecords]
    exact h.record_sources
  · rw [hcommits]
    exact h.commit_ids
  · rw [hcommits]
    exact h.commit_serials

def CarriesZones (s t : Store) : Prop :=
  ∀ o ∈ s.zones, ∃ z ∈ t.zones, z.id = o.id ∧ z.name = o.name

theorem CarriesZones.of_eq (h : t.zones = s.zones) : s.CarriesZones t := by
  intro o ho
  exact ⟨o, h ▸ ho, rfl, rfl⟩

theorem CarriesZones.trans {u : Store} (hst : s.CarriesZones t) (htu : t.CarriesZones u) :
    s.CarriesZones u := by
  intro o ho
  obtain ⟨z, hz, hid, hname⟩ := hst o ho
  obtain ⟨z', hz', hid', hname'⟩ := htu z hz
  exact ⟨z', hz', hid'.trans hid, hname'.trans hname⟩

theorem CarriesZones.of_map {f : Zone → Zone} (hzones : t.zones = s.zones.map f)
    (hf : ∀ o ∈ s.zones, (f o).id = o.id ∧ (f o).name = o.name) : s.CarriesZones t := by
  intro o ho
  exact ⟨f o, by rw [hzones]; exact mem_map_of_mem ho, hf o ho⟩

theorem CarriesZones.updateZone {z : Zone} (hname : ∀ o ∈ s.zones, o.id = z.id → o.name = z.name)
    (hok : s.updateZone now z = .ok t) : s.CarriesZones t := by
  obtain ⟨-, -, -, rfl⟩ := updateZone_eq_ok.mp hok
  refine .of_map rfl fun o ho => ⟨Sound.updatedZone_id, ?_⟩
  rw [updatedZone]
  split
  · next hid => exact (hname o ho hid).symm
  · rfl

end Store

theorem writeSOA_sound (h : s.Sound) (hok : writeSOA now s z ch c = .ok t) : t.Sound := by
  rw [writeSOA] at hok
  split at hok
  · exact h.setZoneSerial hok
  · obtain ⟨_, -, hupdate⟩ := bind_eq_ok.mp hok
    exact h.updateZone hupdate

theorem writeSOA_carriesZones (h : s.Sound)
    (hz : z ∈ s.zones) (hok : writeSOA now s z ch c = .ok t) : s.CarriesZones t := by
  rw [writeSOA] at hok
  split at hok
  · obtain ⟨-, rfl⟩ := setZoneSerial_eq_ok.mp hok
    exact .of_map rfl fun o _ => ⟨Sound.steppedZone_id, Sound.steppedZone_name⟩
  · obtain ⟨_, -, hupdate⟩ := bind_eq_ok.mp hok
    refine .updateZone (fun o ho hid => ?_) hupdate
    rw [h.zone_ext ho hz hid]

namespace Batch

variable {b : Batch}

variable {op : ZoneOp} {c : Commit} {l : List ZoneOp} {zid : ZoneID} {z : Zone}

theorem openZone_sound (h : s.Sound) (hok : openZone now s op = .ok t) : t.Sound := by
  cases op with
  | create z => exact h.createZone hok
  | update z => exact h.updateZone hok
  | delete id =>
    cases hok
    exact h

theorem closeZone_sound (h : s.Sound) (hok : closeZone s op = .ok t) : t.Sound := by
  cases op with
  | create z | update z =>
    cases hok
    exact h
  | delete id => exact h.deleteZone hok

theorem writeCommit_sound (h : s.Sound) (hok : b.writeCommit now s c = .ok t) : t.Sound := by
  obtain ⟨mid, hstep, happ⟩ := writeCommit_eq_ok.mp hok
  refine Sound.appendCommit ?_ happ
  rcases stepSerial_eq_ok.mp hstep with ⟨e, z, -, -, -, hsoa⟩ | ⟨-, rfl⟩
  · exact writeSOA_sound h hsoa
  · exact h

theorem write_stages (hok : b.write now s = .ok t) :
    ∃ s₀ s₁ s₂ s₃, s₀.zones = s.zones ∧ s₀.records = s.records ∧ s₀.commits = s.commits ∧
      b.zones.foldlM (openZone now) s₀ = .ok s₁ ∧ b.set.write now s₁ = .ok s₂ ∧
      b.commits.foldlM (writeCommit now b) s₂ = .ok s₃ ∧
      b.zones.foldlM closeZone s₃ = .ok t := by
  obtain ⟨a₁, a₂, s₀, s₁, s₂, s₃, h₁, h₂, h₃, h₄, h₅, h₆, h₇⟩ := write_eq_ok.mp hok
  have f₁ := writeSetting_frame h₁
  have f₂ := writeKeys_frame h₂
  have f₃ := writeTokens_frame h₃
  refine ⟨s₀, s₁, s₂, s₃, ?_, ?_, ?_, h₄, h₅, h₆, h₇⟩
  · exact ((congrArg Store.zones f₃ :).trans (congrArg Store.zones f₂ :)).trans
      (congrArg Store.zones f₁ :)
  · exact ((congrArg records f₃ :).trans (congrArg records f₂ :)).trans
      (congrArg records f₁ :)
  · exact ((congrArg Store.commits f₃ :).trans (congrArg Store.commits f₂ :)).trans
      (congrArg Store.commits f₁ :)

/-- The stages, with what holds between them. -/
theorem write_staged (h : s.Sound) (hok : b.write now s = .ok t) :
    ∃ s₀ s₁ s₂ s₃, s₀.zones = s.zones ∧ s₀.records = s.records ∧
      b.zones.foldlM (openZone now) s₀ = .ok s₁ ∧
      b.set.write now s₁ = .ok s₂ ∧ s₂.zones = s₁.zones ∧ s₂.Sound ∧
      b.commits.foldlM (writeCommit now b) s₂ = .ok s₃ ∧ s₃.Sound ∧
      b.zones.foldlM closeZone s₃ = .ok t := by
  obtain ⟨s₀, s₁, s₂, s₃, hzones, hrecords, hcommits, h₁, h₂, h₃, h₄⟩ := write_stages hok
  have i₁ := foldlM_invariant Sound (fun op _ x y hx hxy => openZone_sound hx hxy) h₁
    (h.of_tables hzones hrecords hcommits)
  have i₂ := ChangeSet.write_sound i₁ h₂
  have i₃ := foldlM_invariant Sound (fun c _ x y hx hxy => writeCommit_sound hx hxy) h₃ i₂
  exact ⟨s₀, s₁, s₂, s₃, hzones, hrecords, h₁, h₂,
    (congrArg Store.zones (changeSet_write_frame h₂) :), i₂, h₃, i₃, h₄⟩

theorem write_sound (h : s.Sound) (hok : b.write now s = .ok t) : t.Sound := by
  obtain ⟨_, _, _, _, -, -, -, -, -, -, -, i₃, h₄⟩ := write_staged h hok
  exact foldlM_invariant Sound (fun op _ x y hx hxy => closeZone_sound hx hxy) h₄ i₃

theorem closeZones_of_no_delete (hnone : ∀ id, ZoneOp.delete id ∉ l)
    (hrun : l.foldlM closeZone s = .ok t) : t = s := by
  refine foldlM_preserves (fun x : Store => x) ?_ hrun
  intro op hop x y hxy
  cases op with
  | create z | update z =>
    cases hxy
    rfl
  | delete id => exact absurd hop (hnone id)

theorem write_rewrites (hnone : ∀ id, ZoneOp.delete id ∉ b.zones)
    (hok : b.write now s = .ok t) : b.set.Rewrites now s t := by
  obtain ⟨s₀, s₁, s₂, s₃, -, hrecords, -, h₁, h₂, h₃, h₄⟩ := write_stages hok
  have e₁ : s₁.records = s₀.records := (congrArg records (openZones_frame h₁) :)
  have e₃ : s₃.records = s₂.records := (congrArg records (writeCommits_frame h₃) :)
  have e₄ := closeZones_of_no_delete hnone h₄
  exact (ChangeSet.write_rewrites h₂).of_records (e₁.trans hrecords).symm (by rw [e₄, e₃])

theorem write_closing (h : s.Sound) (hok : b.write now s = .ok t) :
    ∃ mid : Store, mid.Sound ∧ b.set.Rewrites now s mid ∧
      b.zones.foldlM closeZone mid = .ok t := by
  obtain ⟨s₀, s₁, s₂, s₃, -, hrecords, h₁, h₂, -, -, h₃, i₃, h₄⟩ := write_staged h hok
  have e₁ : s₁.records = s₀.records := (congrArg records (openZones_frame h₁) :)
  have e₃ : s₃.records = s₂.records := (congrArg records (writeCommits_frame h₃) :)
  exact ⟨s₃, i₃, (ChangeSet.write_rewrites h₂).of_records (e₁.trans hrecords).symm e₃, h₄⟩

theorem write_rewrites_delete (hzones : b.zones = [.delete zid]) (h : s.Sound)
    (hok : b.write now s = .ok t) :
    ∃ mid : Store, mid.Sound ∧ b.set.Rewrites now s mid ∧
      t.records = mid.without ((mid.records.filter fun r => r.zoneID == zid).map Record.id) := by
  obtain ⟨mid, hmid, hrw, hclose⟩ := write_closing h hok
  refine ⟨mid, hmid, hrw, ?_⟩
  rw [hzones] at hclose
  obtain ⟨u, hdelete, hnil⟩ := foldlM_cons_eq_ok.mp hclose
  cases hnil
  obtain ⟨-, rfl⟩ := deleteZone_eq_ok.mp hdelete
  rfl

theorem write_delete_zones (hzones : b.zones = [.delete zid])
    (hok : b.write now s = .ok t) (hz : z ∈ t.zones) : z.id ≠ zid := by
  obtain ⟨s₀, s₁, s₂, s₃, -, -, -, -, -, -, h₄⟩ := write_stages hok
  rw [hzones] at h₄
  obtain ⟨u, hclose, hnil⟩ := foldlM_cons_eq_ok.mp h₄
  cases hnil
  obtain ⟨-, rfl⟩ := deleteZone_eq_ok.mp hclose
  simpa using (mem_filter.mp hz).2

theorem writeCommit_carriesZones (h : s.Sound)
    (hok : b.writeCommit now s c = .ok t) : s.CarriesZones t := by
  obtain ⟨mid, hstep, happ⟩ := writeCommit_eq_ok.mp hok
  obtain ⟨-, -, -, rfl⟩ := appendCommit_eq_ok.mp happ
  have hmid : s.CarriesZones mid := by
    rcases stepSerial_eq_ok.mp hstep with ⟨e, z, -, -, hz, hsoa⟩ | ⟨-, rfl⟩
    · exact writeSOA_carriesZones h (h.zoneByID_eq_ok.mp hz).1 hsoa
    · exact .of_eq rfl
  exact hmid.trans (.of_eq rfl)

theorem writeCommits_carriesZones {l : List Commit} (h : s.Sound)
    (hrun : l.foldlM (b.writeCommit now) s = .ok t) : s.CarriesZones t := by
  induction l generalizing s with
  | nil =>
    cases hrun
    exact .of_eq rfl
  | cons head tail ih =>
    obtain ⟨mid, hhead, htail⟩ := foldlM_cons_eq_ok.mp hrun
    exact (writeCommit_carriesZones h hhead).trans (ih (writeCommit_sound h hhead) htail)

theorem openZone_carriesZones
    (hname : ∀ z, op = .update z → ∀ o ∈ s.zones, o.id = z.id → o.name = z.name)
    (hok : openZone now s op = .ok t) : s.CarriesZones t := by
  cases op with
  | create z =>
    obtain ⟨-, -, -, rfl⟩ := createZone_eq_ok.mp hok
    exact fun o ho => ⟨o, mem_append_left _ ho, rfl, rfl⟩
  | update z => exact .updateZone (hname z rfl) hok
  | delete id =>
    cases hok
    exact .of_eq rfl

theorem closeZones_zones (hrun : l.foldlM closeZone s = .ok t) : ∀ z ∈ t.zones, z ∈ s.zones := by
  refine foldlM_relation (fun x y : Store => ∀ z ∈ y.zones, z ∈ x.zones) (fun _ _ => id)
    (fun _ _ _ huv hvw z hz => huv z (hvw z hz)) ?_ hrun
  intro op _ x y hxy z hz
  cases op with
  | create o | update o =>
    cases hxy
    exact hz
  | delete id =>
    obtain ⟨-, rfl⟩ := deleteZone_eq_ok.mp hxy
    exact (mem_filter.mp hz).1

theorem write_zone_name (h : s.Sound) (hone : b.zones.length ≤ 1)
    (hname : ∀ z, ZoneOp.update z ∈ b.zones → ∀ o ∈ s.zones, o.id = z.id → o.name = z.name)
    (hok : b.write now s = .ok t) {o : Zone} (ho : o ∈ s.zones) (hz : z ∈ t.zones)
    (hid : o.id = z.id) : o.name = z.name := by
  obtain ⟨s₀, s₁, s₂, s₃, hzones, -, h₁, -, e₂, i₂, h₃, i₃, h₄⟩ := write_staged h hok
  have c₁ : s₀.CarriesZones s₁ := by
    cases hops : b.zones with
    | nil =>
      rw [hops] at h₁
      cases h₁
      exact .of_eq rfl
    | cons op rest =>
      have hrest : rest = [] := by
        rw [hops, length_cons] at hone
        exact length_eq_zero_iff.mp (by omega)
      rw [hops, hrest] at h₁
      obtain ⟨u, hopen, hnil⟩ := foldlM_cons_eq_ok.mp h₁
      cases hnil
      refine openZone_carriesZones (fun z hz => ?_) hopen
      rw [hzones]
      exact hname z (by rw [hops, hz]; exact mem_cons_self)
  have hcarried := (c₁.trans (.of_eq e₂)).trans (writeCommits_carriesZones i₂ h₃)
  obtain ⟨z', hz', hid', hname'⟩ := hcarried o (by rw [hzones]; exact ho)
  rw [← hname', i₃.zone_ext hz' (closeZones_zones h₄ z hz) (hid'.trans hid)]

theorem mem_updated {x : Zone} (hx : x ∈ s.zones.map (updatedZone now z)) :
    x ∈ s.zones ∨ x.id = z.id ∧ x.name = z.name := by
  obtain ⟨o, ho, rfl⟩ := mem_map.mp hx
  rw [updatedZone]
  split
  · exact .inr ⟨rfl, rfl⟩
  · exact .inl ho

theorem write_zone_from (h : s.Sound) (hok : b.write now s = .ok t) (hz : z ∈ t.zones) :
    ∃ o, (o ∈ s.zones ∨ .create o ∈ b.zones ∨ .update o ∈ b.zones) ∧ o.id = z.id ∧
      o.name = z.name := by
  let From (x : Store) : Prop := ∀ z ∈ x.zones,
    ∃ o, (o ∈ s.zones ∨ .create o ∈ b.zones ∨ .update o ∈ b.zones) ∧ o.id = z.id ∧ o.name = z.name
  obtain ⟨s₀, s₁, s₂, s₃, hzones, -, h₁, -, e₂, i₂, h₃, -, h₄⟩ := write_staged h hok
  have hfrom₀ : From s₀ := fun z hz => ⟨z, .inl (hzones ▸ hz), rfl, rfl⟩
  have hopen : ∀ op ∈ b.zones, ∀ x y : Store, From x → openZone now x op = .ok y → From y := by
    intro op hop x y hx hxy z hz
    cases op with
    | create new =>
      obtain ⟨-, -, -, rfl⟩ := createZone_eq_ok.mp hxy
      refine Links.forall_mem_concat hx ?_ z hz
      exact ⟨new, .inr (.inl hop), rfl, rfl⟩
    | update new =>
      obtain ⟨-, -, -, rfl⟩ := updateZone_eq_ok.mp hxy
      rcases mem_updated hz with hz | ⟨hid, hname⟩
      · exact hx z hz
      · exact ⟨new, .inr (.inr hop), hid.symm, hname.symm⟩
    | delete id =>
      cases hxy
      exact hx z hz
  have hcommit : ∀ c ∈ b.commits, ∀ x y : Store, x.Sound ∧ From x →
      b.writeCommit now x c = .ok y → y.Sound ∧ From y := by
    intro c _ x y hx hxy
    refine ⟨writeCommit_sound hx.1 hxy, fun z hz => ?_⟩
    obtain ⟨mid, hstep, happ⟩ := writeCommit_eq_ok.mp hxy
    obtain ⟨-, -, -, rfl⟩ := appendCommit_eq_ok.mp happ
    rcases stepSerial_eq_ok.mp hstep with ⟨e, old, -, -, hold, hsoa⟩ | ⟨-, rfl⟩
    · rw [writeSOA] at hsoa
      split at hsoa
      · obtain ⟨-, rfl⟩ := setZoneSerial_eq_ok.mp hsoa
        obtain ⟨o, ho, rfl⟩ := mem_map.mp hz
        rw [Sound.steppedZone_id, Sound.steppedZone_name]
        exact hx.2 o ho
      · simp only [bind_eq_ok] at hsoa
        obtain ⟨_, -, hupdate⟩ := hsoa
        obtain ⟨-, -, -, rfl⟩ := updateZone_eq_ok.mp hupdate
        rcases mem_updated hz with hz | ⟨hid, hname⟩
        · exact hx.2 z hz
        · rw [hid, hname]
          exact hx.2 old (hx.1.zoneByID_eq_ok.mp hold).1
    · exact hx.2 z hz
  have hfrom₁ := foldlM_invariant From hopen h₁ hfrom₀
  have hfrom₃ := foldlM_invariant (fun x => x.Sound ∧ From x) hcommit h₃
    ⟨i₂, fun z hz => hfrom₁ z (e₂ ▸ hz)⟩
  exact hfrom₃.2 z (closeZones_zones h₄ z hz)

end Batch

/-- What of a zone only an operation on the zone itself changes: all but the start of
authority and the times. -/
def Zone.fixed (z : Zone) :
    ZoneID × Name × Kind × Option Prefix × TTL × Option Bool × Bool × String :=
  (z.id, z.name, z.kind, z.netPrefix, z.defaultTTL, z.autoReverse, z.disabled, z.comment)

namespace Batch

variable {b : Batch}

variable {c : Commit}

theorem writeSOA_fixed {z : Zone} {ch : Changes} (h : s.Sound) (hz : z ∈ s.zones)
    (hok : writeSOA now s z ch c = .ok t) : t.zones.map Zone.fixed = s.zones.map Zone.fixed := by
  rw [writeSOA] at hok
  split at hok
  · obtain ⟨-, rfl⟩ := setZoneSerial_eq_ok.mp hok
    rw [map_map]
    refine map_congr_left fun o _ => ?_
    rw [Function.comp_apply, steppedZone]
    split <;> rfl
  · obtain ⟨_, -, hupdate⟩ := bind_eq_ok.mp hok
    obtain ⟨-, -, -, rfl⟩ := updateZone_eq_ok.mp hupdate
    rw [map_map]
    refine map_congr_left fun o ho => ?_
    rw [Function.comp_apply, updatedZone]
    split
    · next hid =>
      rw [h.zone_ext ho hz hid]
      rfl
    · rfl

theorem writeCommit_fixed (h : s.Sound) (hok : b.writeCommit now s c = .ok t) :
    t.zones.map Zone.fixed = s.zones.map Zone.fixed := by
  obtain ⟨mid, hstep, happ⟩ := writeCommit_eq_ok.mp hok
  obtain ⟨-, -, -, rfl⟩ := appendCommit_eq_ok.mp happ
  rcases stepSerial_eq_ok.mp hstep with ⟨e, z, -, -, hz, hsoa⟩ | ⟨-, rfl⟩
  · have hfixed := writeSOA_fixed h (h.zoneByID_eq_ok.mp hz).1 hsoa
    exact hfixed
  · rfl

theorem write_fixed (h : s.Sound) (hzones : b.zones = []) (hok : b.write now s = .ok t) :
    t.zones.map Zone.fixed = s.zones.map Zone.fixed := by
  obtain ⟨s₀, s₁, s₂, s₃, hz, -, h₁, -, e₂, i₂, h₃, -, h₄⟩ := write_staged h hok
  rw [hzones] at h₁ h₄
  cases h₁
  cases h₄
  have hrun := foldlM_invariant
    (fun x : Store => x.Sound ∧ x.zones.map Zone.fixed = s₂.zones.map Zone.fixed)
    (fun c _ x y hx hxy => ⟨writeCommit_sound hx.1 hxy, (writeCommit_fixed hx.1 hxy).trans hx.2⟩)
    h₃ ⟨i₂, rfl⟩
  rw [hrun.2, e₂, hz]

end Batch

end Wegweiser
