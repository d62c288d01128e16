/-
Databases the schema and the checks in front of it allow.

Every statement keeps a sound store sound, so a store that was filled through the
write path alone is sound.
-/
import Wegweiser.Store.Spec

namespace Wegweiser

open Checked List Links

namespace Store

/-- The constraints of the schema, and the checks every stored row has passed. -/
structure Sound (s : Store) : Prop where
  zone_ids : (s.zones.map Zone.id).Nodup
  zone_names : (s.zones.map Zone.name).Nodup
  zones : ∀ z ∈ s.zones, z.check = .ok ()
  record_ids : (s.records.map Record.id).Nodup
  record_contents : (s.records.map Record.unique).Nodup
  records : ∀ r ∈ s.records, r.check = .ok ()
  record_zones : ∀ r ∈ s.records, ∃ z ∈ s.zones, z.id = r.zoneID
  record_sources : ∀ r ∈ s.records, r.managedBy ≠ .empty → ∃ o ∈ s.records, o.id = r.managedBy
  commit_ids : (s.commits.map Commit.id).Nodup
  commit_serials : (s.commits.map fun c => (c.zoneID, c.serialTo)).Nodup

namespace Sound

variable {s t : Store} {now : Nat}

theorem empty : Sound ⟨[], [], [], [], [], [], 0⟩ := by
  constructor <;> simp

variable {a b r : Record} {id : ZoneID} {z o : Zone} {serial : Serial}

theorem record_ext (h : s.Sound) (ha : a ∈ s.records) (hb : b ∈ s.records)
    (hid : a.id = b.id) : a = b :=
  inj_on_of_nodup_map h.record_ids ha hb hid

theorem content_ext (h : s.Sound) (ha : a ∈ s.records) (hb : b ∈ s.records)
    (hcontent : a.unique = b.unique) : a = b :=
  inj_on_of_nodup_map h.record_contents ha hb hcontent

theorem zone_ext (h : s.Sound) {a b : Zone} (ha : a ∈ s.zones) (hb : b ∈ s.zones)
    (hid : a.id = b.id) : a = b :=
  inj_on_of_nodup_map h.zone_ids ha hb hid

theorem zone_name_ext (h : s.Sound) {a b : Zone} (ha : a ∈ s.zones) (hb : b ∈ s.zones)
    (hname : a.name = b.name) : a = b :=
  inj_on_of_nodup_map h.zone_names ha hb hname

theorem recordByID_eq_ok (h : s.Sound) {id : RecordID} :
    s.recordByID id = .ok r ↔ r ∈ s.records ∧ r.id = id := by
  rw [Store.recordByID_eq_ok]
  constructor
  · intro hfind
    exact ⟨mem_of_find?_eq_some hfind, by simpa using find?_some hfind⟩
  · intro hr
    rcases hr with ⟨hmem, rfl⟩
    cases hfind : s.records.find? fun o => o.id == r.id with
    | none => exact absurd (find?_eq_none.mp hfind r hmem) (by simp)
    | some o =>
      have hid : o.id = r.id := by simpa using find?_some hfind
      rw [h.record_ext (mem_of_find?_eq_some hfind) hmem hid]

theorem zoneByID_eq_ok (h : s.Sound) : s.zoneByID id = .ok z ↔ z ∈ s.zones ∧ z.id = id := by
  rw [Store.zoneByID_eq_ok]
  constructor
  · intro hfind
    exact ⟨mem_of_find?_eq_some hfind, by simpa using find?_some hfind⟩
  · intro hz
    rcases hz with ⟨hmem, rfl⟩
    cases hfind : s.zones.find? fun o => o.id == z.id with
    | none => exact absurd (find?_eq_none.mp hfind z hmem) (by simp)
    | some o =>
      have hid : o.id = z.id := by simpa using find?_some hfind
      rw [h.zone_ext (mem_of_find?_eq_some hfind) hmem hid]

theorem source_of_kept (h : s.Sound) {gone : List RecordID}
    (hr : r ∈ s.without gone) (hmanaged : r.managedBy ≠ .empty) :
    ∃ o ∈ s.without gone, o.id = r.managedBy := by
  rw [mem_without] at hr
  obtain ⟨o, ho, hid⟩ := h.record_sources r hr.1 hmanaged
  refine ⟨o, mem_without.mpr ⟨ho, ?_⟩, hid⟩
  intro hbelow
  have hsource : r.source = some o.id := by rw [Record.source, if_neg hmanaged, hid]
  exact hr.2 (.link hr.1 hsource hbelow)

theorem insertRecord (h : s.Sound) (hok : s.insertRecord now r = .ok t) : t.Sound := by
  obtain ⟨hcheck, hadm, rfl⟩ := insertRecord_eq_ok.mp hok
  constructor
  case record_ids => exact nodup_concat h.record_ids hadm.id_new
  case record_contents => exact nodup_concat h.record_contents hadm.unique_new
  case records => exact forall_mem_concat h.records hcheck
  case record_zones => exact forall_mem_concat h.record_zones hadm.zone
  case record_sources =>
    intro o ho hmanaged
    rcases mem_append.mp ho with ho | ho
    · obtain ⟨p, hp, hid⟩ := h.record_sources o ho hmanaged
      exact ⟨p, mem_append_left _ hp, hid⟩
    · rw [mem_singleton.mp ho] at hmanaged ⊢
      rcases hadm.source with hnone | hself | ⟨p, hp, hid⟩
      · exact absurd hnone hmanaged
      · exact ⟨_, mem_append_right _ (mem_singleton_self _), hself⟩
      · exact ⟨p, mem_append_left _ hp, hid⟩
  all_goals first
    | exact h.zone_ids | exact h.zone_names | exact h.zones | exact h.commit_ids
    | exact h.commit_serials

@[simp]
theorem updatedRow_id {o : Record} : (updatedRow now r o).id = o.id := by
  rw [updatedRow]
  split
  · next hid => exact hid.symm
  · rfl

theorem updateRecord (h : s.Sound) (hok : s.updateRecord now r = .ok t) : t.Sound := by
  obtain ⟨hcheck, hex, hadm, rfl⟩ := updateRecord_eq_ok.mp hok
  have hother {o : Record} (ho : o ∈ s.records) (hid : o.id ≠ r.id) :
      o ∈ s.records.filter fun o => o.id != r.id :=
    mem_filter.mpr ⟨ho, by simpa using hid⟩
  constructor
  case record_ids => simpa [Function.comp_def] using h.record_ids
  case record_contents =>
    have hids := pairwise_map.mp h.record_ids
    have hcontents := pairwise_map.mp h.record_contents
    rw [map_map]
    refine pairwise_map.mpr (Pairwise.imp_of_mem ?_ (hids.and hcontents))
    intro a b ha hb hne heq
    simp only [Function.comp_apply, updatedRow] at heq
    -- only one of the two can be the row that changes
    by_cases hra : a.id = r.id
    · have hrb : b.id ≠ r.id := fun hrb => hne.1 (hra.trans hrb.symm)
      rw [if_pos hra, if_neg hrb] at heq
      exact hadm.unique_new b (hother hb hrb) heq.symm
    · by_cases hrb : b.id = r.id
      · rw [if_neg hra, if_pos hrb] at heq
        exact hadm.unique_new a (hother ha hra) heq
      · rw [if_neg hra, if_neg hrb] at heq
        exact hne.2 heq
  case records =>
    intro o ho
    obtain ⟨p, hp, rfl⟩ := mem_map.mp ho
    rw [updatedRow]
    split
    · exact hcheck
    · exact h.records p hp
  case record_zones =>
    intro o ho
    obtain ⟨p, hp, rfl⟩ := mem_map.mp ho
    rw [updatedRow]
    split
    · exact hadm.zone
    · exact h.record_zones p hp
  case record_sources =>
    have hkeep {k : RecordID} (hk : ∃ o ∈ s.records, o.id = k) :
        ∃ o ∈ s.records.map (updatedRow now r), o.id = k := by
      obtain ⟨p, hp, hid⟩ := hk
      exact ⟨_, mem_map_of_mem hp, updatedRow_id.trans hid⟩
    intro o ho hmanaged
    obtain ⟨p, hp, rfl⟩ := mem_map.mp ho
    by_cases hpr : p.id = r.id
    · simp only [updatedRow, if_pos hpr] at hmanaged ⊢
      rcases hadm.source with hnone | hself | ⟨q, hq, hid⟩
      · exact absurd hnone hmanaged
      · exact hkeep ⟨p, hp, hpr.trans hself⟩
      · exact hkeep ⟨q, (mem_filter.mp hq).1, hid⟩
    · simp only [updatedRow, if_neg hpr] at hmanaged ⊢
      exact hkeep (h.record_sources p hp hmanaged)
  all_goals first
    | exact h.zone_ids | exact h.zone_names | exact h.zones | exact h.commit_ids
    | exact h.commit_serials

theorem without (h : s.Sound) (gone : List RecordID) :
    { s with records := s.without gone }.Sound := by
  have hsub : (s.without gone).Sublist s.records := prune_sublist
  constructor
  case record_ids => exact h.record_ids.sublist (hsub.map _)
  case record_contents => exact h.record_contents.sublist (hsub.map _)
  case records => exact fun o ho => h.records o (hsub.mem ho)
  case record_zones => exact fun o ho => h.record_zones o (hsub.mem ho)
  case record_sources => exact fun o ho hmanaged => h.source_of_kept ho hmanaged
  all_goals first
    | exact h.zone_ids | exact h.zone_names | exact h.zones | exact h.commit_ids
    | exact h.commit_serials

theorem deleteRecord (h : s.Sound) {id : RecordID} (hok : s.deleteRecord id = .ok t) : t.Sound := by
  obtain ⟨-, rfl⟩ := deleteRecord_eq_ok.mp hok
  exact h.without [id]

theorem createZone (h : s.Sound) (hok : s.createZone now z = .ok t) : t.Sound := by
  obtain ⟨hcheck, hid, hname, rfl⟩ := createZone_eq_ok.mp hok
  constructor
  case zone_ids => exact nodup_concat h.zone_ids hid
  case zone_names => exact nodup_concat h.zone_names hname
  case zones => exact forall_mem_concat h.zones hcheck
  case record_zones =>
    intro r hr
    obtain ⟨o, ho, hzone⟩ := h.record_zones r hr
    exact ⟨o, mem_append_left _ ho, hzone⟩
  all_goals first
    | exact h.record_ids | exact h.record_contents | exact h.records | exact h.record_sources
    | exact h.commit_ids | exact h.commit_serials

theorem mapZones (h : s.Sound) {f : Zone → Zone} (hid : ∀ o, (f o).id = o.id)
    (hcheck : ∀ o ∈ s.zones, (f o).check = .ok ())
    (hname : ∀ a ∈ s.zones, ∀ b ∈ s.zones, a.id ≠ b.id → (f a).name ≠ (f b).name) :
    { s with zones := s.zones.map f }.Sound := by
  constructor
  case zone_ids => simpa [Function.comp_def, hid] using h.zone_ids
  case zone_names =>
    have hids := pairwise_map.mp h.zone_ids
    rw [map_map]
    exact pairwise_map.mpr (hids.imp_of_mem fun ha hb hne => hname _ ha _ hb hne)
  case zones =>
    intro z hz
    obtain ⟨o, ho, rfl⟩ := mem_map.mp hz
    exact hcheck o ho
  case record_zones =>
    intro r hr
    obtain ⟨o, ho, hzone⟩ := h.record_zones r hr
    exact ⟨f o, mem_map_of_mem ho, (hid o).trans hzone⟩
  all_goals first
    | exact h.record_ids | exact h.record_contents | exact h.records | exact h.record_sources
    | exact h.commit_ids | exact h.commit_serials

@[simp]
theorem updatedZone_id : (updatedZone now z o).id = o.id := by
  rw [updatedZone]
  split
  · next hid => exact hid.symm
  · rfl

@[simp]
theorem steppedZone_id : (steppedZone now id serial o).id = o.id := by
  rw [steppedZone]
  split <;> rfl

theorem steppedZone_name : (steppedZone now id serial o).name = o.name := by
  rw [steppedZone]
  split <;> rfl

theorem updateZone (h : s.Sound) (hok : s.updateZone now z = .ok t) : t.Sound := by
  obtain ⟨hcheck, -, hname, rfl⟩ := updateZone_eq_ok.mp hok
  refine h.mapZones (fun o => updatedZone_id) ?_ ?_
  · intro o ho
    rw [updatedZone]
    split
    · exact hcheck
    · exact h.zones o ho
  · intro a ha b hb hne
    by_cases hza : a.id = z.id
    · have hzb : b.id ≠ z.id := fun hzb => hne (hza.trans hzb.symm)
      rw [updatedZone, if_pos hza, updatedZone, if_neg hzb]
      exact (hname b hb hzb).symm
    · by_cases hzb : b.id = z.id
      · rw [updatedZone, if_neg hza, updatedZone, if_pos hzb]
        exact hname a ha hza
      · rw [updatedZone, if_neg hza, updatedZone, if_neg hzb]
        exact fun heq => hne (congrArg Zone.id (h.zone_name_ext ha hb heq))

theorem setZoneSerial (h : s.Sound) (hok : s.setZoneSerial now id serial = .ok t) : t.Sound := by
  obtain ⟨-, rfl⟩ := setZoneSerial_eq_ok.mp hok
  refine h.mapZones (fun o => steppedZone_id) ?_ ?_
  · intro o ho
    rw [steppedZone]
    split
    · exact h.zones o ho
    · exact h.zones o ho
  · intro a ha b hb hne heq
    rw [steppedZone_name, steppedZone_name] at heq
    exact hne (congrArg Zone.id (h.zone_name_ext ha hb heq))

theorem deleteZone (h : s.Sound) (hok : s.deleteZone id = .ok t) : t.Sound := by
  obtain ⟨-, rfl⟩ := deleteZone_eq_ok.mp hok
  have hrest := h.without ((s.records.filter fun r => r.zoneID == id).map Record.id)
  have hsub : (s.zones.filter fun o => o.id != id).Sublist s.zones := filter_sublist
  constructor
  case zone_ids => exact h.zone_ids.sublist (hsub.map _)
  case zone_names => exact h.zone_names.sublist (hsub.map _)
  case zones => exact fun o ho => h.zones o (hsub.mem ho)
  case record_zones =>
    intro r hr
    obtain ⟨o, ho, hzone⟩ := hrest.record_zones r hr
    refine ⟨o, mem_filter.mpr ⟨ho, ?_⟩, hzone⟩
    -- a row of the zone itself is among those that go
    have hkept := mem_without.mp hr
    have hne : r.zoneID ≠ id := by
      intro heq
      refine hkept.2 (.root (mem_map.mpr ⟨r, mem_filter.mpr ⟨hkept.1, ?_⟩, rfl⟩))
      simpa using heq
    simpa [hzone] using hne
  all_goals first
    | exact hrest.record_ids | exact hrest.record_contents | exact hrest.records
    | exact hrest.record_sources | exact h.commit_ids | exact h.commit_serials

theorem appendCommit (h : s.Sound) {c : Commit} (hok : s.appendCommit now c = .ok t) : t.Sound := by
  obtain ⟨-, hid, hserial, rfl⟩ := appendCommit_eq_ok.mp hok
  constructor
  case commit_ids =>
    refine nodup_concat h.commit_ids fun o ho => ?_
    rw [stampedCommit_id]
    exact hid o ho
  case commit_serials =>
    refine nodup_concat h.commit_serials fun o ho heq => ?_
    rw [stampedCommit_zoneID, stampedCommit_serialTo] at heq
    exact hserial o ho (congrArg Prod.fst heq) (congrArg Prod.snd heq)
  all_goals first
    | exact h.zone_ids | exact h.zone_names | exact h.zones | exact h.record_ids
    | exact h.record_contents | exact h.records | exact h.record_zones | exact h.record_sources

end Sound

end Store

end Wegweiser
