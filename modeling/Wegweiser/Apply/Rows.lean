/-
What a zone holds, as the rows of its records, and what a commit says about it: the
rows its events take away and the rows they bring.
-/
import Wegweiser.Lib.Ledger
import Wegweiser.Apply.Filed
import Wegweiser.Apply.Performed

namespace Wegweiser

open Checked Ledger List Store

/-- A record as a zone has it, whoever wrote it and whether it is served or not. -/
structure Row where
  name : Name
  cls : Class
  type : RRType
  ttl : TTL
  rdata : RData
deriving DecidableEq

def Row.key (ρ : Row) : RdataKey := ⟨ρ.name, ρ.cls, ρ.type, ρ.rdata⟩

def Record.row (r : Record) : Row := ⟨r.name, r.cls, r.type, r.ttl, r.rdata⟩

def Event.row (e : Event) : Row := ⟨e.name, e.cls, e.type, e.ttl, e.rdata⟩

@[simp] theorem Event.row_key (e : Event) : e.row.key = e.rdataKey := rfl

def Store.rows (s : Store) (zid : ZoneID) : Finset Row :=
  ((s.records.filter fun r => r.zoneID == zid).map Record.row).toFinset

theorem Store.mem_rows {s : Store} {zid : ZoneID} {ρ : Row} :
    ρ ∈ s.rows zid ↔ ∃ r ∈ s.records, r.zoneID = zid ∧ r.row = ρ := by
  simp [rows, and_assoc]

theorem Store.Sound.rows_keyed {s : Store} (h : s.Sound) (zid : ZoneID) :
    Set.InjOn Row.key (s.rows zid) := by
  intro a ha b hb hkey
  obtain ⟨x, hx, hxz, rfl⟩ := mem_rows.mp ha
  obtain ⟨y, hy, hyz, rfl⟩ := mem_rows.mp hb
  have hunique : x.unique = y.unique := by
    simp only [Record.row, Row.key, RdataKey.mk.injEq] at hkey
    simp only [Record.unique, hxz, hyz, hkey]
  rw [h.content_ext hx hy hunique]

def Event.entry (e : Event) : Entry Row :=
  match e.op with
  | .del => .del e.row
  | .add => .add e.row

@[simp] theorem Event.entry_row (e : Event) : e.entry.row = e.row := by
  rw [Event.entry]
  cases e.op <;> rfl

def entriesOf (events : List Event) : List (Entry Row) :=
  (events.filter fun e => e.type != typeSOA).map Event.entry

def Commit.entries (c : Commit) : List (Entry Row) := entriesOf c.events

@[simp]
theorem entriesOf_append {events events' : List Event} :
    entriesOf (events ++ events') = entriesOf events ++ entriesOf events' := by
  simp [entriesOf]

theorem exists_of_forall₂ {α β : Type} {R : α → β → Prop} {l : List α} {l' : List β}
    (hall : Forall₂ R l l') {a : α} (ha : a ∈ l) : ∃ b ∈ l', R a b := by
  induction hall with
  | nil => cases ha
  | @cons x y _ _ hhead _ ih =>
    rcases mem_cons.mp ha with rfl | ha
    · exact ⟨y, mem_cons_self, hhead⟩
    · obtain ⟨b, hb, hR⟩ := ih ha
      exact ⟨b, mem_cons_of_mem y hb, hR⟩

theorem filter_eq_singleton {α β : Type} [DecidableEq β] {f : α → β} {l : List α} {a : α}
    (hnodup : (l.map f).Nodup) (ha : a ∈ l) : l.filter (fun x => f x == f a) = [a] := by
  induction l with
  | nil => cases ha
  | cons head tail ih =>
    rw [map_cons, nodup_cons] at hnodup
    rcases mem_cons.mp ha with rfl | ha
    · rw [filter_cons_of_pos (by simp), filter_eq_nil_iff.mpr]
      intro x hx hfx
      exact hnodup.1 (mem_map.mpr ⟨x, hx, by simpa using hfx⟩)
    · rw [filter_cons_of_neg, ih hnodup.2 ha]
      intro hfx
      have heq : f head = f a := by simpa using hfx
      exact hnodup.1 (mem_map.mpr ⟨a, ha, heq.symm⟩)

namespace Env

variable {env : Env} {primary : Zone} {kind : CommitKind} {revertsTo : Option Serial}
  {info : Meta} {followed : Bool} {e : ZoneChanges} {id : CommitID} {c : Commit}

theorem planCommit_zoneID (hok : env.planCommit primary kind revertsTo info followed e id = .ok c) :
    c.zoneID = e.zone.id := by
  rw [planCommit] at hok
  dsimp only at hok
  split at hok
  · obtain ⟨soa, -, hc⟩ := bind_eq_ok.mp hok
    cases hc
    rfl
  · rw [foldSOA] at hok
    split at hok
    · cases hok
      rfl
    · simp only [bind_eq_ok, pure_eq_ok] at hok
      obtain ⟨was, -, now, -, rfl⟩ := hok
      rfl

theorem planCommit_serials (hnot : e.zone.id ≠ primary.id ∨ kind ≠ .zoneCreate)
    (hok : env.planCommit primary kind revertsTo info followed e id = .ok c) :
    c.serialFrom = e.zone.soa.serial ∧ c.serialTo = e.zone.soa.serial.next := by
  rw [planCommit] at hok
  dsimp only at hok
  rw [if_neg (by simpa [imp_iff_not_or] using hnot), foldSOA] at hok
  split at hok
  · cases hok
    exact ⟨rfl, rfl⟩
  · simp only [bind_eq_ok, pure_eq_ok] at hok
    obtain ⟨was, -, now, -, rfl⟩ := hok
    exact ⟨rfl, rfl⟩

theorem planCommit_opens (hown : e.zone.id = primary.id)
    (hok : env.planCommit primary .zoneCreate revertsTo info followed e id = .ok c) :
    c.serialFrom = ⟨0⟩ ∧ c.serialTo = e.zone.soa.serial ∧ c.kind = .zoneCreate := by
  rw [planCommit] at hok
  dsimp only at hok
  rw [if_pos (by simp [hown])] at hok
  obtain ⟨soa, -, hc⟩ := bind_eq_ok.mp hok
  cases hc
  exact ⟨rfl, rfl, by simp [hown]⟩

variable {w : Work} {commits : List Commit} {minted : Nat} {Z : Zone → Prop}

theorem planCommits_zoneIDs
    (hrun : env.planCommits w primary kind revertsTo info followed = .ok (commits, minted)) :
    commits.map Commit.zoneID =
      (w.cs.entries.filter fun e => !e.changes.empty).map fun e => e.zone.id := by
  have hall : Forall₂ (fun e c => e.zone.id = Commit.zoneID c)
      (w.cs.entries.filter fun e => !e.changes.empty) commits := by
    refine (planCommits_forall₂ hrun).imp fun e c h => ?_
    obtain ⟨n, hc⟩ := h
    exact (planCommit_zoneID hc).symm
  rw [← forall₂_map_right_iff, ← forall₂_map_left_iff, forall₂_eq_eq_eq] at hall
  exact hall.symm

theorem planCommits_of_zone (hfiled : w.cs.Filed Z)
    (hrun : env.planCommits w primary kind revertsTo info followed = .ok (commits, minted))
    (zid : ZoneID) :
    (w.cs.pending zid).empty = true ∧ commits.filter (fun c => c.zoneID == zid) = [] ∨
      (w.cs.pending zid).empty = false ∧ ∃ e ∈ w.cs.entries, e.zone.id = zid ∧
        ∃ c n, env.planCommit primary kind revertsTo info followed e (env.mint n) = .ok c ∧
          commits.filter (fun c => c.zoneID == zid) = [c] := by
  have hids := planCommits_zoneIDs hrun
  have hall := planCommits_forall₂ hrun
  by_cases hex : ∃ e ∈ w.cs.entries, e.zone.id = zid ∧ e.changes.empty = false
  · obtain ⟨e, he, rfl, hne⟩ := hex
    refine .inr ⟨by rw [← hfiled.changes_eq he]; exact hne, e, he, rfl, ?_⟩
    have hmem : e ∈ w.cs.entries.filter fun e => !e.changes.empty :=
      mem_filter.mpr ⟨he, by simp [hne]⟩
    obtain ⟨c, hc, n, hplan⟩ := exists_of_forall₂ hall hmem
    refine ⟨c, n, hplan, ?_⟩
    have hnodup : (commits.map Commit.zoneID).Nodup := by
      rw [hids]
      exact hfiled.once.sublist (filter_sublist.map _)
    rw [← planCommit_zoneID hplan]
    exact filter_eq_singleton hnodup hc
  · refine .inl ⟨?_, ?_⟩
    · rw [ChangeSet.pending]
      cases hentry : w.cs.entry zid with
      | none => rfl
      | some e =>
        obtain ⟨he, hid⟩ := ChangeSet.entry_eq_some hentry
        by_contra hne
        exact hex ⟨e, he, hid, by simpa using hne⟩
    · rw [filter_eq_nil_iff]
      intro c hc hzone
      have hmem : c.zoneID ∈ commits.map Commit.zoneID := mem_map_of_mem hc
      rw [hids] at hmem
      obtain ⟨e, he, hid⟩ := mem_map.mp hmem
      obtain ⟨he, hne⟩ := mem_filter.mp he
      exact hex ⟨e, he, hid.trans (by simpa using hzone), by simpa using hne⟩

end Env

def soaAfter (ch : Changes) (c : Commit) (soa : SOA) : SOA :=
  match ch.soa with
  | none => { soa with serial := c.serialTo }
  | some change => restoredSOA change c

namespace Batch

variable {b : Batch} {now : Nat} {s t : Store} {o : Zone}

theorem writeCommit_zone {c : Commit} (h : s.Sound) (hok : b.writeCommit now s c = .ok t)
    (ho : o ∈ s.zones) :
    ∃ o' ∈ t.zones, o'.id = o.id ∧
      o'.soa = if c.zoneID = o.id ∧ b.zoneOp o.id = none then soaAfter (b.set.pending o.id) c o.soa
        else o.soa := by
  obtain ⟨mid, hstep, happ⟩ := writeCommit_eq_ok.mp hok
  obtain ⟨-, -, -, rfl⟩ := appendCommit_eq_ok.mp happ
  rcases stepSerial_eq_ok.mp hstep with ⟨e, z, hentry, hop, hz, hsoa⟩ | ⟨⟨op, hop⟩, rfl⟩
  · obtain ⟨hzmem, hzid⟩ := h.zoneByID_eq_ok.mp hz
    have hpending : b.set.pending c.zoneID = e.changes := by
      rw [ChangeSet.pending, hentry]
      rfl
    rw [writeSOA] at hsoa
    split at hsoa
    · next hnone =>
      obtain ⟨-, rfl⟩ := setZoneSerial_eq_ok.mp hsoa
      refine ⟨_, mem_map_of_mem ho, Sound.steppedZone_id, ?_⟩
      by_cases hid : c.zoneID = o.id
      · rw [if_pos ⟨hid, hid ▸ hop⟩, ← hid, hpending, soaAfter, hnone, steppedZone,
          if_pos (hid.symm.trans hzid.symm)]
      · rw [if_neg fun hboth => hid hboth.1, steppedZone,
          if_neg fun heq => hid (hzid.symm.trans heq.symm)]
    · next change hchange =>
      obtain ⟨_, -, hupdate⟩ := bind_eq_ok.mp hsoa
      obtain ⟨-, -, -, rfl⟩ := updateZone_eq_ok.mp hupdate
      refine ⟨_, mem_map_of_mem ho, Sound.updatedZone_id, ?_⟩
      by_cases hid : c.zoneID = o.id
      · rw [if_pos ⟨hid, hid ▸ hop⟩, ← hid, hpending, soaAfter, hchange, updatedZone,
          if_pos (hid.symm.trans hzid.symm)]
      · rw [if_neg fun hboth => hid hboth.1, updatedZone,
          if_neg fun heq => hid (hzid.symm.trans heq.symm)]
  · refine ⟨o, ho, rfl, (if_neg fun hboth => ?_).symm⟩
    rw [hboth.1, hboth.2] at hop
    cases hop

theorem writeCommits_zone {l : List Commit} (h : s.Sound)
    (hrun : l.foldlM (b.writeCommit now) s = .ok t) (ho : o ∈ s.zones) :
    ∃ o' ∈ t.zones, o'.id = o.id ∧
      o'.soa = if b.zoneOp o.id = none then (l.filter fun c => c.zoneID == o.id).foldl
        (fun soa c => soaAfter (b.set.pending o.id) c soa) o.soa else o.soa := by
  induction l generalizing s o with
  | nil =>
    cases hrun
    exact ⟨o, ho, rfl, by simp⟩
  | cons head tail ih =>
    obtain ⟨mid, hhead, htail⟩ := foldlM_cons_eq_ok.mp hrun
    obtain ⟨o₁, ho₁, hid₁, hsoa₁⟩ := writeCommit_zone h hhead ho
    obtain ⟨o₂, ho₂, hid₂, hsoa₂⟩ := ih (writeCommit_sound h hhead) htail ho₁
    refine ⟨o₂, ho₂, hid₂.trans hid₁, ?_⟩
    rw [hsoa₂, hsoa₁, hid₁, filter_cons]
    by_cases hop : b.zoneOp o.id = none
    · by_cases hid : head.zoneID = o.id
      · simp [hid, hop]
      · simp [hid, hop]
    · simp [hop]

theorem write_zone (h : s.Sound) (hzones : b.zones = []) (hok : b.write now s = .ok t)
    (ho : o ∈ s.zones) :
    ∃ o' ∈ t.zones, o'.id = o.id ∧
      o'.soa = (b.commits.filter fun c => c.zoneID == o.id).foldl
        (fun soa c => soaAfter (b.set.pending o.id) c soa) o.soa := by
  obtain ⟨s₀, s₁, s₂, s₃, hz, -, h₁, -, e₂, i₂, h₃, -, h₄⟩ := write_staged h hok
  rw [hzones] at h₁ h₄
  cases h₁
  cases h₄
  obtain ⟨o', ho', hid, hsoa⟩ := writeCommits_zone i₂ h₃ (by rw [e₂, hz]; exact ho)
  rw [if_pos (by rw [zoneOp, hzones]; rfl)] at hsoa
  exact ⟨o', ho', hid, hsoa⟩

end Batch

end Wegweiser
