/-
The journal of a zone as one chain of serials, whatever plans are in flight.

A plan is true for one serial of each zone it commits to.
-/
import Wegweiser.Apply.Provenance
import Wegweiser.Apply.Rows

namespace Wegweiser

open Checked List Store Batch

def Store.journalOf (s : Store) (zid : ZoneID) : List Commit :=
  s.commits.filter fun c => c.zoneID == zid

variable {s : Store} {c : Commit}

theorem Store.mem_journalOf {zid : ZoneID} :
    c ∈ s.journalOf zid ↔ c ∈ s.commits ∧ c.zoneID = zid := by
  simp [journalOf]

theorem Store.Sound.journalOf_serials (h : s.Sound) (zid : ZoneID) :
    ((s.journalOf zid).map Commit.serialTo).Nodup := by
  have hnodup : ((s.journalOf zid).map fun c => (c.zoneID, c.serialTo)).Nodup :=
    h.commit_serials.sublist (filter_sublist.map _)
  refine Nodup.map_on (fun c hc d hd hserial => ?_) (Nodup.of_map _ hnodup)
  refine inj_on_of_nodup_map hnodup hc hd ?_
  rw [(mem_journalOf.mp hc).2, (mem_journalOf.mp hd).2, hserial]

/-- One chain: the first commit sets the starting serial, each later one goes from its
predecessor's end to the successor of that, and the last ends at the given serial. -/
structure Chained (commits : List Commit) (serial : Serial) : Prop where
  opens : ∃ first ∈ commits.head?, first.kind = .zoneCreate ∧ first.serialFrom = ⟨0⟩
  steps : commits.IsChain fun a b => b.serialFrom = a.serialTo ∧ b.serialTo = a.serialTo.next
  ends : ∃ last ∈ commits.getLast?, last.serialTo = serial

/-- A commit that sets the serial its zone starts at. -/
structure Commit.Opens (z : Zone) (c : Commit) : Prop where
  zoneID : c.zoneID = z.id
  kind : c.kind = .zoneCreate
  serialFrom : c.serialFrom = ⟨0⟩
  serialTo : c.serialTo = z.soa.serial

namespace Chained

variable {commits : List Commit} {serial : Serial} {c : Commit} {now : Nat}

theorem opened {z : Zone} (h : c.Opens z) : Chained [stampedCommit now c] z.soa.serial := by
  refine ⟨⟨_, rfl, ?_, ?_⟩, isChain_singleton _, ⟨stampedCommit now c, rfl, ?_⟩⟩
  · rw [stampedCommit_kind, h.kind]
  · rw [stampedCommit_serialFrom, h.serialFrom]
  · rw [stampedCommit_serialTo, h.serialTo]

theorem append (h : Chained commits serial) (hfrom : c.serialFrom = serial)
    (hto : c.serialTo = serial.next) :
    Chained (commits ++ [stampedCommit now c]) c.serialTo := by
  obtain ⟨first, hfirst, hopens⟩ := h.opens
  obtain ⟨last, hlast, hend⟩ := h.ends
  refine ⟨⟨first, ?_, hopens⟩, ?_, ⟨_, getLast?_concat, stampedCommit_serialTo⟩⟩
  · rw [head?_append, Option.mem_def.mp hfirst]
    rfl
  · refine h.steps.append (isChain_singleton _) ?_
    intro a ha b hb
    have hsame : a = last := Option.mem_unique ha hlast
    cases hb
    rw [stampedCommit_serialFrom, stampedCommit_serialTo, hsame, hend]
    exact ⟨hfrom, hto⟩

theorem exists_mem (h : Chained commits serial) : ∃ c, c ∈ commits := by
  obtain ⟨first, hfirst, -⟩ := h.opens
  exact ⟨first, mem_of_mem_head? hfirst⟩

end Chained

/-- A commit that goes one serial on. Either its zone, where it is still there, has the
serial the commit goes from, or a commit to the serial it goes to is written already. -/
structure Commit.Continues (s : Store) (c : Commit) : Prop where
  next : c.serialTo = c.serialFrom.next
  journaled : ∃ o ∈ s.commits, o.zoneID = c.zoneID
  current : (∀ z ∈ s.zones, z.id = c.zoneID → z.soa.serial = c.serialFrom) ∨
    ∃ o ∈ s.commits, o.zoneID = c.zoneID ∧ o.serialTo = c.serialTo

/-- What a batch does to the serials of the zones, at a store it may be applied to. -/
structure Batch.Steps (s : Store) (b : Batch) : Prop where
  once : (b.commits.map Commit.zoneID).Nodup
  zones : b.zones.length ≤ 1
  created : ∀ z, .create z ∈ b.zones →
    (∀ o ∈ s.commits, o.zoneID ≠ z.id) ∧ ∃ c ∈ b.commits, c.Opens z
  updated : ∀ z, .update z ∈ b.zones → ∃ c ∈ b.commits, c.zoneID = z.id ∧
    c.serialTo = z.soa.serial
  commits : ∀ c ∈ b.commits, (∃ z, .create z ∈ b.zones ∧ c.Opens z) ∨ c.Continues s

namespace Batch

variable {b : Batch} {now : Nat} {s t : Store} {o : Zone} {zid : ZoneID}

theorem write_journalOf (hok : b.write now s = .ok t) :
    t.journalOf zid = s.journalOf zid ++
      (b.commits.filter fun c => c.zoneID == zid).map (stampedCommit now) := by
  rw [journalOf, (write_commits hok).1, filter_append, filter_map]
  simp [journalOf, Function.comp_def]

theorem write_serials (h : s.Sound) (hok : b.write now s = .ok t) {c o : Commit}
    (hc : c ∈ b.commits) (ho : o ∈ s.commits) (hzone : o.zoneID = c.zoneID) :
    o.serialTo ≠ c.serialTo := by
  intro hserial
  have hnodup := (write_sound h hok).commit_serials
  rw [(write_commits hok).1, map_append, nodup_append] at hnodup
  refine hnodup.2.2 _ (mem_map_of_mem ho) (c.zoneID, c.serialTo) ?_ ?_
  · rw [map_map, mem_map]
    exact ⟨c, hc, by simp⟩
  · rw [hzone, hserial]

theorem filter_cases (hb : b.Steps s) (zid : ZoneID) :
    b.commits.filter (fun c => c.zoneID == zid) = [] ∨
      ∃ c ∈ b.commits, c.zoneID = zid ∧ b.commits.filter (fun c => c.zoneID == zid) = [c] := by
  by_cases hex : ∃ c ∈ b.commits, c.zoneID = zid
  · obtain ⟨c, hc, rfl⟩ := hex
    exact .inr ⟨c, hc, rfl, filter_eq_singleton hb.once hc⟩
  · refine .inl (filter_eq_nil_iff.mpr fun c hc hzone => hex ⟨c, hc, by simpa using hzone⟩)

theorem zones_eq_singleton (hlen : b.zones.length ≤ 1) {op : ZoneOp} (hop : op ∈ b.zones) :
    b.zones = [op] := by
  cases hops : b.zones with
  | nil =>
    rw [hops] at hop
    cases hop
  | cons head tail =>
    rw [hops, length_cons] at hlen
    have htail : tail = [] := eq_nil_of_length_eq_zero (by omega)
    rw [hops, htail, mem_singleton] at hop
    rw [htail, hop]

theorem openZones_zone (hlen : b.zones.length ≤ 1)
    (hrun : b.zones.foldlM (openZone now) s = .ok t) (ho : o ∈ s.zones) :
    ∃ o' ∈ t.zones, o'.id = o.id ∧ (∀ z, .update z ∈ b.zones → z.id = o.id → o'.soa = z.soa) ∧
      (b.zoneOp o.id = none → o'.soa = o.soa) ∧ ∀ z, .create z ∈ b.zones → z.id ≠ o.id := by
  by_cases hnil : b.zones = []
  · rw [hnil] at hrun ⊢
    cases hrun
    exact ⟨o, ho, rfl, by simp, fun _ => rfl, by simp⟩
  · obtain ⟨op, hmem⟩ := exists_mem_of_ne_nil _ hnil
    have hops := zones_eq_singleton hlen hmem
    have hop : openZone now s op = .ok t := by
      rw [hops] at hrun
      obtain ⟨u, hop, hnil⟩ := foldlM_cons_eq_ok.mp hrun
      cases hnil
      exact hop
    rw [zoneOp, hops]
    cases op with
    | create z =>
      obtain ⟨-, hids, -, rfl⟩ := createZone_eq_ok.mp hop
      refine ⟨o, mem_append_left _ ho, rfl, by simp, fun _ => rfl, ?_⟩
      intro z' hz'
      cases mem_singleton.mp hz'
      exact fun hid => hids o ho hid.symm
    | update z =>
      obtain ⟨-, -, -, rfl⟩ := updateZone_eq_ok.mp hop
      refine ⟨_, mem_map_of_mem ho, Sound.updatedZone_id, ?_, ?_, by simp⟩
      · intro z' hz' hid
        cases mem_singleton.mp hz'
        rw [updatedZone, if_pos hid.symm]
      · intro hnone
        have hne : z.id ≠ o.id := by simpa [ZoneOp.zoneID] using hnone
        rw [updatedZone, if_neg fun hid => hne hid.symm]
    | delete id =>
      cases hop
      exact ⟨o, ho, rfl, by simp, fun _ => rfl, by simp⟩

variable {z : Zone}

theorem write_advances (h : s.Sound) (hb : b.Steps s) (hok : b.write now s = .ok t)
    (ho : o ∈ s.zones) (hz : z ∈ t.zones) (hid : o.id = z.id) :
    (b.commits.filter fun c => c.zoneID == o.id) = [] ∧ z.soa.serial = o.soa.serial ∨
      ∃ c, (b.commits.filter fun c => c.zoneID == o.id) = [c] ∧ c.serialFrom = o.soa.serial ∧
        c.serialTo = o.soa.serial.next ∧ z.soa.serial = c.serialTo := by
  obtain ⟨s₀, s₁, s₂, s₃, hzones, -, h₁, -, e₂, i₂, h₃, i₃, h₄⟩ := write_staged h hok
  obtain ⟨o₁, ho₁, hid₁, hupdated, hsame, hcreated⟩ := openZones_zone hb.zones h₁ (hzones ▸ ho)
  obtain ⟨o₃, ho₃, hid₃, hsoa⟩ := writeCommits_zone i₂ h₃ (e₂ ▸ ho₁)
  have hz₃ : o₃ = z := i₃.zone_ext ho₃ (closeZones_zones h₄ z hz) ((hid₃.trans hid₁).trans hid)
  rw [hz₃, hid₁] at hsoa
  -- A commit of the batch to this zone goes from the serial the zone has.
  have hcontinues {c : Commit} (hc : c ∈ b.commits) (hzone : c.zoneID = o.id) :
      c.serialFrom = o.soa.serial ∧ c.serialTo = o.soa.serial.next := by
    rcases hb.commits c hc with ⟨z', hz', hopens⟩ | hcontinues
    · exact absurd (hopens.zoneID.symm.trans hzone) (hcreated z' hz')
    · rcases hcontinues.current with hcurrent | ⟨old, hold, hzid, hto⟩
      · have hserial := hcurrent o ho hzone.symm
        rw [hserial, ← hcontinues.next]
        exact ⟨rfl, rfl⟩
      · exact absurd hto (write_serials h hok hc hold hzid)
  cases hop : b.zoneOp o.id with
  | none =>
    rw [if_pos hop, hsame hop] at hsoa
    rcases filter_cases hb o.id with hnil | ⟨c, hc, hzone, hone⟩
    · rw [hnil] at hsoa
      exact .inl ⟨hnil, by rw [hsoa]; rfl⟩
    · rw [hone] at hsoa
      refine .inr ⟨c, hone, (hcontinues hc hzone).1, (hcontinues hc hzone).2, ?_⟩
      rw [hsoa, foldl_cons, foldl_nil, soaAfter]
      split <;> rfl
  | some op =>
    rw [if_neg (by simp [hop])] at hsoa
    have hmem : op ∈ b.zones := mem_of_find?_eq_some hop
    have hzid : op.zoneID = o.id := by simpa using find?_some hop
    cases op with
    | create z' => exact absurd hzid (hcreated z' hmem)
    | update z' =>
      obtain ⟨c, hc, hzone, hto⟩ := hb.updated z' hmem
      have hone := filter_eq_singleton hb.once hc
      have hhere : c.zoneID = o.id := hzone.trans hzid
      rw [hhere] at hone
      refine .inr ⟨c, hone, (hcontinues hc hhere).1, (hcontinues hc hhere).2, ?_⟩
      rw [hsoa, hupdated z' hmem hzid, hto]
    | delete id =>
      have hzones := zones_eq_singleton hb.zones hmem
      exact absurd (hid.symm.trans hzid.symm) (write_delete_zones hzones hok hz)

theorem write_opens (h : s.Sound) (hb : b.Steps s) (hok : b.write now s = .ok t) {z' : Zone}
    (hcreate : .create z' ∈ b.zones) (hz : z ∈ t.zones) (hid : z'.id = z.id) :
    z.soa.serial = z'.soa.serial ∧ s.journalOf z.id = [] ∧ ∃ c,
      (b.commits.filter fun c => c.zoneID == z.id) = [c] ∧ c.Opens z' := by
  obtain ⟨s₀, s₁, s₂, s₃, -, -, h₁, -, e₂, i₂, h₃, i₃, h₄⟩ := write_staged h hok
  have hops := zones_eq_singleton hb.zones hcreate
  have hopen : ∃ o ∈ s₁.zones, o.id = z'.id ∧ o.soa = z'.soa := by
    rw [hops] at h₁
    obtain ⟨u, hop, hnil⟩ := foldlM_cons_eq_ok.mp h₁
    cases hnil
    obtain ⟨-, -, -, rfl⟩ := createZone_eq_ok.mp hop
    exact ⟨_, mem_append_right _ (mem_singleton.mpr rfl), rfl, rfl⟩
  obtain ⟨o, ho, hoid, hosoa⟩ := hopen
  obtain ⟨o₃, ho₃, hid₃, hsoa⟩ := writeCommits_zone i₂ h₃ (e₂ ▸ ho)
  have hz₃ : o₃ = z := i₃.zone_ext ho₃ (closeZones_zones h₄ z hz) ((hid₃.trans hoid).trans hid)
  rw [if_neg (by simp [zoneOp, hops, hoid, ZoneOp.zoneID]), hz₃, hosoa] at hsoa
  obtain ⟨hnew, c, hc, hopens⟩ := hb.created z' hcreate
  refine ⟨by rw [hsoa], ?_, c, ?_, hopens⟩
  · refine filter_eq_nil_iff.mpr fun old hold hzone => hnew old hold ?_
    rw [hid]
    simpa using hzone
  · rw [← hid, ← hopens.zoneID]
    exact filter_eq_singleton hb.once hc

end Batch

/-- The commits of every zone are one chain up to the serial stored with the zone. -/
def Store.Chained (s : Store) : Prop :=
  ∀ z ∈ s.zones, Wegweiser.Chained (s.journalOf z.id) z.soa.serial

namespace Batch

variable {b b' : Batch} {now : Nat} {s t : Store}

theorem write_zone_origin (h : s.Sound) (hb : b.Steps s) (hok : b.write now s = .ok t) {z : Zone}
    (hz : z ∈ t.zones) :
    (∃ o ∈ s.zones, o.id = z.id) ∨ ∃ z', .create z' ∈ b.zones ∧ z'.id = z.id := by
  obtain ⟨o, hfrom, hid, -⟩ := write_zone_from h hok hz
  rcases hfrom with ho | hcreate | hupdate
  · exact .inl ⟨o, ho, hid⟩
  · exact .inr ⟨o, hcreate, hid⟩
  · obtain ⟨s₀, s₁, -, -, hzones, -, -, h₁, -⟩ := write_stages hok
    rw [zones_eq_singleton hb.zones hupdate] at h₁
    obtain ⟨u, hop, -⟩ := foldlM_cons_eq_ok.mp h₁
    obtain ⟨-, ⟨old, hold, holdid⟩, -⟩ := updateZone_eq_ok.mp hop
    exact .inl ⟨old, hzones ▸ hold, holdid.trans hid⟩

theorem write_chained (h : s.Sound) (hchain : s.Chained) (hb : b.Steps s)
    (hok : b.write now s = .ok t) : t.Chained := by
  intro z hz
  rw [write_journalOf hok]
  rcases write_zone_origin h hb hok hz with ⟨o, ho, hid⟩ | ⟨z', hcreate, hid⟩
  · have hbefore := hchain o ho
    rcases write_advances h hb hok ho hz hid with ⟨hnil, hserial⟩ | ⟨c, hone, hfrom, hto, hserial⟩
    · rw [← hid, hnil, map_nil, append_nil, hserial]
      exact hbefore
    · rw [← hid, hone, map_singleton, hserial]
      exact hbefore.append hfrom hto
  · obtain ⟨hserial, hnone, c, hone, hopens⟩ := write_opens h hb hok hcreate hz hid
    rw [hnone, hone, nil_append, map_singleton, hserial]
    exact .opened hopens

theorem write_continues (h : s.Sound) (hb : b.Steps s) (hok : b.write now s = .ok t) {c : Commit}
    (hc : c.Continues s) : c.Continues t := by
  have hcommits := (write_commits hok).1
  have hkept {o : Commit} (ho : o ∈ s.commits) : o ∈ t.commits := by
    rw [hcommits]
    exact mem_append_left _ ho
  obtain ⟨old, hold, holdzone⟩ := hc.journaled
  refine ⟨hc.next, ⟨old, hkept hold, holdzone⟩, ?_⟩
  rcases hc.current with hcurrent | ⟨o, ho, hwritten⟩
  · by_cases hmoved : ∃ z ∈ t.zones, z.id = c.zoneID ∧ z.soa.serial ≠ c.serialFrom
    · obtain ⟨z, hz, hid, hserial⟩ := hmoved
      right
      rcases write_zone_origin h hb hok hz with ⟨o, ho, hoid⟩ | ⟨z', hcreate, hzid⟩
      · have hfrom := hcurrent o ho (hoid.trans hid)
        rcases write_advances h hb hok ho hz hoid with ⟨-, hsame⟩ | ⟨d, hone, -, hto, -⟩
        · exact absurd (hsame.trans hfrom) hserial
        · have hd : d ∈ b.commits.filter fun c => c.zoneID == o.id := by
            rw [hone]
            exact mem_singleton.mpr rfl
          obtain ⟨hd, hdzone⟩ := mem_filter.mp hd
          refine ⟨stampedCommit now d, ?_, ?_, ?_⟩
          · rw [hcommits]
            exact mem_append_right _ (mem_map_of_mem hd)
          · rw [stampedCommit_zoneID, ← hid, ← hoid]
            simpa using hdzone
          · rw [stampedCommit_serialTo, hto, hfrom, hc.next]
      · exact absurd (holdzone.trans (hid.symm.trans hzid.symm)) ((hb.created z' hcreate).1 old hold)
    · left
      intro z hz hid
      by_contra hserial
      exact hmoved ⟨z, hz, hid, hserial⟩
  · exact .inr ⟨o, hkept ho, hwritten⟩

def creates (b : Batch) : List ZoneID :=
  b.zones.filterMap fun
    | .create z => some z.id
    | _ => none

theorem mem_creates {zid : ZoneID} : zid ∈ b.creates ↔ ∃ z, .create z ∈ b.zones ∧ z.id = zid := by
  rw [creates, mem_filterMap]
  constructor
  · rintro ⟨op, hop, hid⟩
    cases op with
    | create z => exact ⟨z, hop, by simpa using hid⟩
    | update z => cases hid
    | delete id => cases hid
  · rintro ⟨z, hz, rfl⟩
    exact ⟨_, hz, rfl⟩

theorem write_journal_zones (hb : b.Steps s) (hok : b.write now s = .ok t) {o : Commit}
    (ho : o ∈ t.commits) : (∃ old ∈ s.commits, old.zoneID = o.zoneID) ∨ o.zoneID ∈ b.creates := by
  rw [(write_commits hok).1] at ho
  rcases mem_append.mp ho with ho | ho
  · exact .inl ⟨o, ho, rfl⟩
  · obtain ⟨c, hc, rfl⟩ := mem_map.mp ho
    rw [stampedCommit_zoneID]
    rcases hb.commits c hc with ⟨z, hz, hopens⟩ | hcontinues
    · exact .inr (mem_creates.mpr ⟨z, hz, hopens.zoneID.symm⟩)
    · exact .inl hcontinues.journaled

theorem write_steps (h : s.Sound) (hb : b.Steps s) (hok : b.write now s = .ok t)
    (hb' : b'.Steps s) (hother : b.creates.Disjoint b'.creates) : b'.Steps t := by
  refine ⟨hb'.once, hb'.zones, fun z hz => ⟨?_, (hb'.created z hz).2⟩, hb'.updated, ?_⟩
  · intro o ho hzone
    rcases write_journal_zones hb hok ho with ⟨old, hold, hsame⟩ | hcreated
    · exact (hb'.created z hz).1 old hold (hsame.trans hzone)
    · exact hother hcreated (mem_creates.mpr ⟨z, hz, hzone.symm⟩)
  · intro c hc
    exact (hb'.commits c hc).imp id (write_continues h hb hok)

end Batch

/-- A commit that goes one serial on from a zone as it stands. -/
structure Commit.Extends (z : Zone) (c : Commit) : Prop where
  zoneID : c.zoneID = z.id
  serialFrom : c.serialFrom = z.soa.serial
  serialTo : c.serialTo = z.soa.serial.next

theorem Commit.Extends.continues {z : Zone} (hext : c.Extends z)
    (h : s.Sound) (hchain : s.Chained) (hz : z ∈ s.zones) : c.Continues s := by
  refine ⟨by rw [hext.serialTo, hext.serialFrom], ?_, .inl fun o ho hid => ?_⟩
  · obtain ⟨o, ho⟩ := (hchain z hz).exists_mem
    obtain ⟨ho, hzone⟩ := mem_journalOf.mp ho
    exact ⟨o, ho, hzone.trans hext.zoneID.symm⟩
  · rw [h.zone_ext ho hz (hid.trans hext.zoneID), hext.serialFrom]

namespace Batch

variable {b : Batch} {now : Nat} {s : Store}

theorem steps_of_planned (h : s.Sound) (hchain : s.Chained) (hlen : b.zones.length ≤ 1)
    (hcreated : ∀ z, .create z ∈ b.zones →
      (∀ o ∈ s.commits, o.zoneID ≠ z.id) ∧ ∃ c ∈ b.commits, c.Opens z)
    (hupdated : ∀ z, .update z ∈ b.zones → ∃ c ∈ b.commits, c.zoneID = z.id ∧
      c.serialTo = z.soa.serial)
    (hcommits : ∀ c ∈ b.commits, (∃ z, .create z ∈ b.zones ∧ c.Opens z) ∨
      ∃ z ∈ s.zones, c.Extends z)
    (hplanned : b.planned now s = .ok ()) : b.Steps s := by
  refine ⟨?_, hlen, hcreated, hupdated, fun c hc => (hcommits c hc).imp id ?_⟩
  · obtain ⟨t, hwrite, -⟩ := bind_eq_ok.mp hplanned
    have hnodup := (write_sound h hwrite).commit_serials
    rw [(write_commits hwrite).1, map_append, nodup_append, map_map] at hnodup
    have hpairs : (b.commits.map fun c => (c.zoneID, c.serialTo)).Nodup := by
      simpa [Function.comp_def] using hnodup.2.1
    refine Nodup.map_on (fun c hc d hd hzone => ?_) (Nodup.of_map _ hpairs)
    refine inj_on_of_nodup_map hpairs hc hd ?_
    -- The zone of a commit says where it ends.
    have hapart {z o : Zone} (hz : .create z ∈ b.zones) (ho : o ∈ s.zones) : z.id ≠ o.id := by
      intro hid
      obtain ⟨old, hold⟩ := (hchain o ho).exists_mem
      obtain ⟨hold, hzone⟩ := mem_journalOf.mp hold
      exact (hcreated z hz).1 old hold (hzone.trans hid.symm)
    rcases hcommits c hc with ⟨z, hz, hopens⟩ | ⟨z, hz, hext⟩
    · rcases hcommits d hd with ⟨z', hz', hopens'⟩ | ⟨z', hz', hext'⟩
      · have hops := zones_eq_singleton hlen hz
        rw [hops, mem_singleton] at hz'
        cases hz'
        rw [hzone, hopens.serialTo, hopens'.serialTo]
      · exact absurd (hopens.zoneID.symm.trans (hzone.trans hext'.zoneID)) (hapart hz hz')
    · rcases hcommits d hd with ⟨z', hz', hopens'⟩ | ⟨z', hz', hext'⟩
      · exact absurd (hopens'.zoneID.symm.trans (hzone.symm.trans hext.zoneID)) (hapart hz' hz)
      · have hsame := h.zone_ext hz hz' (hext.zoneID.symm.trans (hzone.trans hext'.zoneID))
        rw [hzone, hext.serialTo, hext'.serialTo, hsame]
  · rintro ⟨z, hz, hext⟩
    exact hext.continues h hchain hz

theorem Steps.aside (hcommits : b.commits = []) (hzones : b.zones = []) : b.Steps s := by
  constructor <;> simp [hcommits, hzones]

theorem Steps.blank : blank.Steps s := .aside rfl rfl

end Batch

namespace Env

variable {env : Env} {s : Store} {op : Operation} {b : Batch} {res : Result} {w : Work}
  {primary : Zone} {kind : CommitKind} {revertsTo : Option Serial} {info : Meta}
  {followed : Bool} {commits : List Commit} {minted : Nat} {Z : Zone → Prop}

theorem planCommits_cases (hfiled : w.cs.Filed Z)
    (hrun : env.planCommits w primary kind revertsTo info followed = .ok (commits, minted))
    {c : Commit} (hc : c ∈ commits) :
    ∃ z, Z z ∧ (kind = .zoneCreate ∧ z.id = primary.id ∧ c.Opens z ∨
      (z.id ≠ primary.id ∨ kind ≠ .zoneCreate) ∧ c.Extends z) := by
  obtain ⟨e, he, n, hplan⟩ := exists_of_forall₂ (planCommits_forall₂ hrun).flip hc
  have hz := hfiled.zones e (mem_filter.mp he).1
  have hzone := planCommit_zoneID hplan
  refine ⟨e.zone, hz, ?_⟩
  by_cases hnot : e.zone.id ≠ primary.id ∨ kind ≠ .zoneCreate
  · obtain ⟨hfrom, hto⟩ := planCommit_serials hnot hplan
    exact .inr ⟨hnot, hzone, hfrom, hto⟩
  · have hown : e.zone.id = primary.id := by
      by_contra hne
      exact hnot (.inl hne)
    have hkind : kind = .zoneCreate := by
      by_contra hne
      exact hnot (.inr hne)
    subst hkind
    obtain ⟨hfrom, hto, hopens⟩ := planCommit_opens hown hplan
    exact .inl ⟨rfl, hown, hzone, hopens, hfrom, hto⟩

theorem steps_of_commitUnlessEmpty (h : s.Sound) (hchain : s.Chained)
    (hfiled : w.cs.Filed (· ∈ s.zones)) (hkind : kind ≠ .zoneCreate)
    (hok : env.commitUnlessEmpty s w primary kind revertsTo info = .ok (b, res)) : b.Steps s := by
  rcases commitUnlessEmpty_eq_ok.mp hok with ⟨-, hout⟩ | ⟨-, commits, minted, hrun, hplanned, hout⟩
  · cases hout
    exact .blank
  · cases hout
    refine Batch.steps_of_planned h hchain (by simp [Batch.blank]) (by simp [Batch.blank])
      (by simp [Batch.blank]) (fun c hc => ?_) hplanned
    obtain ⟨z, hz, ⟨hcreate, -⟩ | ⟨-, hext⟩⟩ := planCommits_cases hfiled hrun hc
    · exact absurd hcreate hkind
    · exact .inr ⟨z, hz, hext⟩

variable {z : Zone} {records : List Record} {policy : Option Policy} {n : Nat} {zid : ZoneID}

theorem exists_opens (hrecords : records ≠ []) (hzone : ∀ r ∈ records, r.zoneID = z.id)
    (hexpand : env.expandReverse s ⟨⟨[⟨z, records.foldl Changes.insert Changes.blank⟩], policy⟩,
      Result.blank, n⟩ z = .ok w) (hfiled : w.cs.Filed Z) (hZ :
    ∀ z', Z z' → z'.id = z.id → z' = z)
    (hrun : env.planCommits w z .zoneCreate revertsTo info followed = .ok (commits, minted)) :
    ∃ c ∈ commits, c.Opens z := by
  obtain ⟨r, hr⟩ := List.exists_mem_of_ne_nil records hrecords
  have hasks := RecordOp.inserts_asks records Changes.blank
  have hinsert : r ∈ w.cs.inserts := by
    refine (expandReverse_grows hexpand).inserts_mono r (mem_inserts_singleton.mpr ?_)
    rw [hasks.inserts]
    exact List.mem_append_right _ hr
  obtain ⟨e, he, hmem⟩ := ChangeSet.mem_inserts.mp hinsert
  have hid : e.zone.id = z.id := ((hfiled.under e he).inserts r hmem).symm.trans (hzone r hr)
  rcases planCommits_of_zone hfiled hrun z.id with ⟨hempty, -⟩ | ⟨-, e', -, -, c, -, -, hone⟩
  · rw [← hid, ← hfiled.changes_eq he] at hempty
    simp only [Changes.empty, Bool.and_eq_true, List.isEmpty_iff] at hempty
    rw [hempty.2] at hmem
    cases hmem
  · have hc : c ∈ commits.filter fun c => c.zoneID == z.id := by
      rw [hone]
      exact List.mem_singleton.mpr rfl
    obtain ⟨hc, hczone⟩ := List.mem_filter.mp hc
    refine ⟨c, hc, ?_⟩
    obtain ⟨z', hz', ⟨-, hown, hopens⟩ | ⟨hnot, hext⟩⟩ := planCommits_cases hfiled hrun hc
    · rwa [hZ z' hz' hown] at hopens
    · have hsame : z'.id = z.id := hext.zoneID.symm.trans (by simpa using hczone)
      rcases hnot with hne | hkind
      · exact absurd hsame hne
      · exact absurd rfl hkind

theorem steps_of_expanded {ch : Changes}
    (h : s.Sound) (hchain : s.Chained) (hz : z ∈ s.zones) (horigin : Origin env s op z ch policy)
    (hexpand : env.expandReverse s ⟨⟨[⟨z, ch⟩], policy⟩, Result.blank, n⟩ z = .ok w)
    (hkind : kind ≠ .zoneCreate)
    (hok : env.commitUnlessEmpty s w primary kind revertsTo info = .ok (b, res)) : b.Steps s := by
  have hfiled := expandReverse_filed (fun _ hz => hz) (.singleton hz (horigin.under h)) hexpand
  exact steps_of_commitUnlessEmpty h hchain hfiled hkind hok

theorem steps_of_createZone (h : s.Sound)
    (hchain : s.Chained) (hnew : ∀ o ∈ s.commits, o.zoneID ≠ (env.newZone z).1.id)
    (hplan : env.planCreateZone s z records info = .ok (b, res)) : b.Steps s := by
  obtain ⟨-, -, hvalid, w, commits, minted, hexpand, hrun, hplanned, hout⟩ :=
    planCreateZone_eq_ok.mp hplan
  cases hout
  have horigin : Origin env s (.createZone z records info) _ _ none :=
    .create (RecordOp.inserts_asks _ _) hvalid
  have hfiled : w.cs.Filed fun z' => z' ∈ s.zones ∨ z' = (env.newZone z).1 :=
    expandReverse_filed (fun _ => .inl) (.singleton (.inr rfl) (horigin.under h)) hexpand
  have hfresh {o : Zone} (ho : o ∈ s.zones) : o.id ≠ (env.newZone z).1.id := by
    obtain ⟨old, hold⟩ := (hchain o ho).exists_mem
    obtain ⟨hold, hzone⟩ := mem_journalOf.mp hold
    exact hzone ▸ hnew old hold
  have hrecords : (env.mintIDs (env.newZone z).1.id records (env.newZone z).2).1 ≠ [] := by
    obtain ⟨r, hr, -⟩ := (validateZone_eq_ok.mp hvalid).apex
    exact ne_nil_of_mem hr
  refine steps_of_planned h hchain (by simp) ?_ (by simp) ?_ hplanned
  · intro z' hz'
    cases mem_singleton.mp hz'
    refine ⟨hnew, exists_opens hrecords ?_ hexpand hfiled ?_ hrun⟩
    · intro r hr
      obtain ⟨r', -, id, rfl⟩ := mem_mintIDs hr
      rfl
    · rintro o (ho | rfl) hid
      · exact absurd hid (hfresh ho)
      · rfl
  · intro c hc
    obtain ⟨o, ho, hcase⟩ := planCommits_cases hfiled hrun hc
    rcases ho with ho | rfl
    · rcases hcase with ⟨-, hown, -⟩ | ⟨-, hext⟩
      · exact absurd hown (hfresh ho)
      · exact .inr ⟨o, ho, hext⟩
    · rcases hcase with ⟨-, -, hopens⟩ | ⟨hne | hkind, -⟩
      · exact .inl ⟨_, mem_singleton.mpr rfl, hopens⟩
      · exact absurd rfl hne
      · exact absurd rfl hkind

theorem steps_of_updateZone (h : s.Sound) (hchain : s.Chained)
    (hplan : env.planUpdateZone s z info = .ok (b, res)) : b.Steps s := by
  obtain ⟨-, before, hbefore, -, ⟨-, hout⟩ | ⟨-, events, -, hplanned, hout⟩⟩ :=
    planUpdateZone_eq_ok.mp hplan
  · cases hout
    exact .blank
  · cases hout
    obtain ⟨hmem, hid⟩ := h.zoneByID_eq_ok.mp hbefore
    refine steps_of_planned h hchain (by simp) (by simp) ?_ ?_ hplanned
    · intro z' hz'
      cases mem_singleton.mp hz'
      exact ⟨_, mem_singleton.mpr rfl, rfl, rfl⟩
    · intro c hc
      rw [mem_singleton.mp hc]
      exact .inr ⟨before, hmem, hid.symm, rfl, rfl⟩

theorem steps_of_deleteZone (h : s.Sound) (hchain : s.Chained)
    (hplan : env.planDeleteZone s zid info = .ok (b, res)) : b.Steps s := by
  obtain ⟨z, w, commits, minted, hz, hremovals, hrun, hplanned, hout⟩ :=
    planDeleteZone_eq_ok.mp hplan
  cases hout
  obtain ⟨hmem, -⟩ := h.zoneByID_eq_ok.mp hz
  have hfiled : w.cs.Filed (· ∈ s.zones) := queueRemovals_filed (fun _ hz => hz) .blank hremovals
  refine steps_of_planned h hchain (by simp) (by simp) (by simp) ?_ hplanned
  intro c hc
  rcases mem_cons.mp hc with rfl | hc
  · exact .inr ⟨z, hmem, rfl, rfl, rfl⟩
  · obtain ⟨o, ho, ⟨hkind, -⟩ | ⟨-, hext⟩⟩ := planCommits_cases hfiled hrun hc
    · cases hkind
    · exact .inr ⟨o, ho, hext⟩

def newZoneID (env : Env) : Operation → Option ZoneID
  | .createZone z _ _ => some (env.newZone z).1.id
  | _ => none

theorem planOp_steps (h : s.Sound) (hchain : s.Chained)
    (hnew : ∀ zid ∈ env.newZoneID op, ∀ o ∈ s.commits, o.zoneID ≠ zid)
    (hplan : env.planOp s op = .ok (b, res)) : b.Steps s := by
  cases op with
  | command cmd =>
    obtain ⟨hvalid, z, ch, w, hz, -, hresolve, hexpand, hcommit⟩ := planCommand_eq_ok.mp hplan
    obtain ⟨hallowed, hasks⟩ := RecordOp.resolves_ask hresolve
    refine steps_of_expanded h hchain (h.zoneByID_eq_ok.mp hz).1
      (.command hz rfl hallowed hasks) hexpand ?_ hcommit
    intro hkind
    simp only [Command.validate, bind_eq_ok, ensure_eq_ok] at hvalid
    obtain ⟨-, -, -, -, -, hedit, -⟩ := hvalid
    simp [hkind] at hedit
  | createZone z records info => exact steps_of_createZone h hchain (hnew _ rfl) hplan
  | updateZone z info => exact steps_of_updateZone h hchain hplan
  | deleteZone zid info => exact steps_of_deleteZone h hchain hplan
  | rollback zid target info =>
    obtain ⟨z, hz, ⟨-, hout⟩ | ⟨-, -, -, since, undone, w, hsince, hundo, hexpand, hcommit⟩⟩ :=
      planRollback_eq_ok.mp hplan
    · cases hout
      exact .blank
    · obtain ⟨soa, ch, inserts, hcs, hres, hsoa, hasks, hrestored⟩ := undo_asks hundo
      obtain ⟨cs, res', minted⟩ := undone
      cases hcs
      cases hres
      have horigin : Origin env s (.rollback zid target info) z ch none :=
        .rollback hz hsince hsoa hasks hrestored
      exact steps_of_expanded h hchain (h.zoneByID_eq_ok.mp hz).1 horigin hexpand (by decide)
        hcommit
  | reconcile zid info =>
    obtain ⟨z, w, hz, hreconcile, hcommit⟩ := planReconcile_eq_ok.mp hplan
    have hfiled := reconcileInto_filed (fun _ hz => hz) (.blank (Z := (· ∈ s.zones))) hreconcile
    exact steps_of_commitUnlessEmpty h hchain hfiled (by decide) hcommit
  | settings _ | createKey _ _ _ | revokeKey _ | createToken _ | revokeToken _ _ =>
    obtain ⟨-, hzones, hcommits⟩ := planOp_beside rfl hplan
    exact .aside hcommits hzones

theorem commitUnlessEmpty_zones
    (hok : env.commitUnlessEmpty s w primary kind revertsTo info = .ok (b, res)) :
    b.zones = [] := by
  rcases commitUnlessEmpty_eq_ok.mp hok with ⟨-, hout⟩ | ⟨-, commits, minted, -, -, hout⟩
  · cases hout
    rfl
  · cases hout
    rfl

theorem planOp_creates (hplan : env.planOp s op = .ok (b, res))
    (hzid : zid ∈ b.creates) : zid ∈ env.newZoneID op := by
  obtain ⟨z, hz, rfl⟩ := mem_creates.mp hzid
  have hnone (hzones : b.zones = []) : z.id ∈ env.newZoneID op := by
    rw [hzones] at hz
    cases hz
  cases op with
  | command cmd =>
    obtain ⟨-, z, ch, w, -, -, -, -, hcommit⟩ := planCommand_eq_ok.mp hplan
    exact hnone (commitUnlessEmpty_zones hcommit)
  | createZone z' records info =>
    obtain ⟨-, -, -, w, commits, minted, -, -, -, hout⟩ := planCreateZone_eq_ok.mp hplan
    cases hout
    cases mem_singleton.mp hz
    rfl
  | updateZone z' info =>
    obtain ⟨-, before, -, -, ⟨-, hout⟩ | ⟨-, events, -, -, hout⟩⟩ :=
      planUpdateZone_eq_ok.mp hplan
    · cases hout
      exact hnone rfl
    · cases hout
      cases mem_singleton.mp hz
  | deleteZone zid info =>
    obtain ⟨z', w, commits, minted, -, -, -, -, hout⟩ := planDeleteZone_eq_ok.mp hplan
    cases hout
    cases mem_singleton.mp hz
  | rollback zid target info =>
    obtain ⟨z', -, ⟨-, hout⟩ | ⟨-, -, -, since, undone, w, -, -, -, hcommit⟩⟩ :=
      planRollback_eq_ok.mp hplan
    · cases hout
      exact hnone rfl
    · exact hnone (commitUnlessEmpty_zones hcommit)
  | reconcile zid info =>
    obtain ⟨z', w, -, -, hcommit⟩ := planReconcile_eq_ok.mp hplan
    exact hnone (commitUnlessEmpty_zones hcommit)
  | settings _ | createKey _ _ _ | revokeKey _ | createToken _ | revokeToken _ _ =>
    exact hnone (planOp_beside rfl hplan).2.1

end Env

end Wegweiser
