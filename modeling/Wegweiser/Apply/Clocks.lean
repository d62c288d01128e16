/-
One batch, two members, two clocks.

The tables stamp the rows they write with the clock of the node they are on.
-/
import Wegweiser.Apply.Reached
import Wegweiser.Apply.Replay
import Wegweiser.Store.Twins

namespace Wegweiser

open Checked Rows List Sample Store

def Statement.stamps : Statement → Option (Table × Ident)
  | createTSIGKey k => Twins.mark .keys k.id k.createdAt
  | createToken k => Twins.mark .tokens k.id k.createdAt
  | createZone z => some (.zones, z.id)
  | updateZone z => some (.zones, z.id)
  | updateRecord r => some (.records, r.id)
  | insertRecord r => some (.records, r.id)
  | setZoneSerial id _ => some (.zones, id)
  | setSOA id _ => some (.zones, id)
  | appendCommit c => Twins.mark .commits c.id c.createdAt
  | putSetting _ _ | revokeTSIGKey _ _ | revokeToken _ _ | deleteRecord _ | deleteZone _
  | refuse _ => none

def Marks.after (S : Marks) (l : List Statement) : Marks :=
  l.foldl (fun S st => S.add st.stamps) S

theorem Marks.mem_after {S : Marks} {l : List Statement} {k : Table} {id : Ident} :
    S.after l k id ↔ S k id ∨ ∃ st ∈ l, st.stamps = some (k, id) := by
  induction l generalizing S with
  | nil => simp [after]
  | cons head tail ih =>
    have hstep : S.after (head :: tail) = (S.add head.stamps).after tail := rfl
    rw [hstep, ih, add, exists_mem_cons_iff, or_assoc]

namespace Store

variable {s t s' : Store} {now now' : Nat} {S : Marks}

namespace Twins

theorem unstamped {P : Store → Prop} (h : ∃ t', P t' ∧ Twins now now' S s' t') :
    ∃ t', P t' ∧ Twins now now' (S.add none) s' t' := by
  rwa [S.add_none]

theorem exec (h : Twins now now' S s t) (ht : t.Sound) {st : Statement}
    (hok : Statement.exec now s st = .ok s') :
    ∃ t', Statement.exec now' t st = .ok t' ∧ Twins now now' (S.add st.stamps) s' t' := by
  cases st with
  | putSetting key value => exact unstamped (h.putSetting hok)
  | createTSIGKey k => exact h.createTSIGKey hok
  | revokeTSIGKey id at_ => exact unstamped (h.revokeTSIGKey hok)
  | createToken k => exact h.createToken hok
  | revokeToken id at_ => exact unstamped (h.revokeToken hok)
  | createZone z => exact h.createZone hok
  | updateZone z => exact h.updateZone rfl hok
  | deleteRecord id => exact unstamped (h.deleteRecord hok)
  | updateRecord r => exact h.updateRecord hok
  | insertRecord r => exact h.insertRecord hok
  | setZoneSerial id serial => exact h.setZoneSerial hok
  | setSOA id soa =>
    refine Statement.execSOA_follow (fun z hz => h.zoneByID ht hz) (fun z z' hid hz hok => ?_) hok
    exact hid ▸ h.updateZone hz hok
  | appendCommit c => exact h.appendCommit hok
  | deleteZone id => exact unstamped (h.deleteZone hok)
  | refuse e => cases hok

theorem execAll (h : Twins now now' S s t) (ht : t.Schema) {l : List Statement}
    (hok : l.foldlM (Statement.exec now) s = .ok s') :
    ∃ t', l.foldlM (Statement.exec now') t = .ok t' ∧ Twins now now' (S.after l) s' t' := by
  induction l generalizing S s t with
  | nil =>
    cases hok
    exact ⟨t, rfl, h⟩
  | cons head tail ih =>
    obtain ⟨mid, hhead, htail⟩ := foldlM_cons_eq_ok.mp hok
    obtain ⟨mid', hhead', hmid⟩ := h.exec ht.toSound hhead
    obtain ⟨t', htail', hend⟩ := ih hmid (ht.exec hhead') htail
    exact ⟨t', foldlM_cons_eq_ok.mpr ⟨mid', hhead', htail'⟩, hend⟩

theorem of_sameRows (h : s.SameRows t) (now now' : Nat) : Twins now now' .none s t := by
  have hpairs : ∀ {α : Type} (T : Clocked α Ident) (k : Table) {l l' : List α},
      (∀ a, a ∈ l ↔ a ∈ l') → Paired (T.Twins now now' (Marks.none k)) l l' := by
    intro α T k l l' hmem
    exact ⟨fun a ha => ⟨a, (hmem a).mp ha, .refl fun hnone => hnone⟩,
      fun a ha => ⟨a, (hmem a).mpr ha, .refl fun hnone => hnone⟩⟩
  have htoken : ∀ a b : Token, a.unused = b.unused →
      Token.clocked.Twins now now' (Marks.none .tokens) a b := by
    intro a b hab
    refine ⟨?_, fun hnone => hnone.elim, fun _ => hab⟩
    exact (congrArg (fun k : Token => { k with createdAt := 0 }) hab :)
  refine ⟨fun k => ?_, ⟨fun a ha => ⟨a, (h.settings a).mp ha, rfl⟩,
    fun a ha => ⟨a, (h.settings a).mpr ha, rfl⟩⟩⟩
  cases k with
  | zones => exact hpairs _ _ h.zones
  | records => exact hpairs _ _ h.records
  | commits => exact ⟨hpairs _ _ h.commits, fun _ hnone => hnone.elim⟩
  | keys => exact ⟨hpairs _ _ h.keys, fun _ hnone => hnone.elim⟩
  | tokens =>
    refine ⟨⟨fun a ha => ?_, fun b hb => ?_⟩, fun _ hnone => hnone.elim⟩
    · obtain ⟨b, hb, hba⟩ := mem_map.mp ((h.tokens _).mp (mem_map_of_mem ha))
      exact ⟨b, hb, htoken a b hba.symm⟩
    · obtain ⟨a, ha, hab⟩ := mem_map.mp ((h.tokens _).mpr (mem_map_of_mem hb))
      exact ⟨a, ha, htoken a b hab⟩

end Twins

/-- None of the rows the clock was written to is left. -/
structure Unmarked (S : Marks) (s : Store) : Prop where
  zones : ∀ z ∈ s.zones, ¬ S .zones z.id
  records : ∀ r ∈ s.records, ¬ S .records r.id
  commits : ∀ c ∈ s.commits, ¬ S .commits c.id
  keys : ∀ k ∈ s.keys, ¬ S .keys k.id
  tokens : ∀ k ∈ s.tokens, ¬ S .tokens k.id

theorem Twins.listing_iff (h : Twins now now' S s t) (hs : s.Schema) (ht : t.Schema) :
    s.listing = t.listing ↔ now = now' ∨ s.Unmarked S := by
  have hzones := Clocked.shown_iff h.zones ht.zone_ids
  have hrecords := Clocked.shown_iff h.records ht.record_ids
  have hcommits := Clocked.shown_iff (h.tables .commits).1 ht.commit_ids
  have hkeys := Clocked.shown_iff (h.tables .keys).1 ht.key_ids
  have htokens := Clocked.shown_iff (h.tables .tokens).1 ht.token_ids
  simp only [Zone.clocked, Record.clocked, Commit.clocked, TSIGKey.clocked, map_id'] at *
  rw [listing_eq_iff hs ht]
  constructor
  · intro hsame
    by_cases hnow : now = now'
    · exact .inl hnow
    · exact .inr ⟨(hzones.mp hsame.zones).resolve_left hnow,
        (hrecords.mp hsame.records).resolve_left hnow,
        (hcommits.mp hsame.commits).resolve_left hnow, (hkeys.mp hsame.keys).resolve_left hnow,
        (htokens.mp hsame.tokens).resolve_left hnow⟩
  · intro hcond
    exact {
      settings := fun kv => by
        constructor
        · intro hkv
          obtain ⟨_, hmem, rfl⟩ := h.settings.left kv hkv
          exact hmem
        · intro hkv
          obtain ⟨_, hmem, rfl⟩ := h.settings.right kv hkv
          exact hmem
      tokens := htokens.mpr (hcond.imp_right Unmarked.tokens)
      keys := hkeys.mpr (hcond.imp_right Unmarked.keys)
      zones := hzones.mpr (hcond.imp_right Unmarked.zones)
      records := hrecords.mpr (hcond.imp_right Unmarked.records)
      commits := hcommits.mpr (hcond.imp_right Unmarked.commits) }

end Store

namespace Batch

/-- The row of a record as a batch leaves it before it deletes zones, but for its times. -/
def row (b : Batch) (s : Store) (id : RecordID) : Option Record :=
  match b.set.inserts.find? (fun r => r.id == id) with
  | some r => some r
  | none =>
    match b.set.updates.reverse.find? (fun u => u.after.id == id) with
    | some u => some u.after
    | none => s.records.find? fun r => r.id == id

/-- The records that go with the zones a batch deletes: those in one of them, and what is
generated from such a record wherever it is. -/
inductive Swept (b : Batch) (s : Store) : RecordID → Prop
  | zone {id : RecordID} {r : Record} (hrow : b.row s id = some r)
      (hdelete : ZoneOp.delete r.zoneID ∈ b.zones) : Swept b s id
  | source {id src : RecordID} {r : Record} (hrow : b.row s id = some r)
      (hsource : r.source = some src) (hswept : Swept b s src) : Swept b s id

/-- Nothing a clock is written to outlives the batch: the zones it creates, updates or commits
to are deleted by it, the records it writes go with them, and what stays comes with its time. -/
structure Unstamped (b : Batch) (s : Store) : Prop where
  opened : ∀ z, .create z ∈ b.zones ∨ .update z ∈ b.zones → .delete z.id ∈ b.zones
  committed : ∀ c ∈ b.commits, .delete c.zoneID ∈ b.zones
  inserts : ∀ r ∈ b.set.inserts, b.Swept s r.id
  updates : ∀ u ∈ b.set.updates, b.Swept s u.after.id
  commits : ∀ c ∈ b.commits, c.createdAt ≠ 0
  keys : ∀ k, .create k ∈ b.keys → k.createdAt ≠ 0
  tokens : ∀ k, .create k ∈ b.tokens → k.createdAt ≠ 0

variable {b : Batch} {now : Nat} {s t mid : Store}

theorem rewrittenRow_erase (updates : List RecordUpdate) (o : Record) :
    (rewrittenRow now updates o).erase =
      (match updates.reverse.find? (fun u => u.after.id == o.id) with
        | some u => u.after.erase
        | none => o.erase) := by
  induction updates using reverseRecOn with
  | nil => rfl
  | append_singleton front last ih =>
    have hstep : rewrittenRow now (front ++ [last]) o =
        updatedRow now last.after (rewrittenRow now front o) := by
      simp [rewrittenRow]
    rw [hstep, reverse_append, reverse_singleton, singleton_append,
      find?_cons]
    by_cases hid : last.after.id = o.id
    · rw [updatedRow, if_pos (rewrittenRow_id.trans hid.symm), beq_iff_eq.mpr hid]
      rfl
    · rw [updatedRow, if_neg fun heq => hid (heq.symm.trans rewrittenRow_id),
        beq_eq_false_iff_ne.mpr hid]
      exact ih

variable {m r : Record} {l : List ZoneOp}

theorem row_of_mem (hrw : b.set.Rewrites now s mid) (hs : s.Sound) (hmid : mid.Sound)
    (hm : m ∈ mid.records) : ∃ r, b.row s m.id = some r ∧ r.erase = m.erase := by
  rcases (hrw.rows m).mp hm with ⟨o, ho, rfl⟩ | ⟨i, hi, rfl⟩
  · have hnone : b.set.inserts.find? (fun r => r.id == o.id) = none := by
      refine find?_eq_none.mpr fun i hi hid => ?_
      exact hrw.fresh i hi o ho (beq_iff_eq.mp hid).symm
    have hfind : s.records.find? (fun r => r.id == o.id) = some o :=
      recordByID_eq_ok.mp (hs.recordByID_eq_ok.mpr ⟨(mem_without.mp ho).1, rfl⟩)
    rw [rewrittenRow_id, row, hnone, rewrittenRow_erase]
    cases b.set.updates.reverse.find? fun u => u.after.id == o.id with
    | some u => exact ⟨_, rfl, rfl⟩
    | none => exact ⟨o, hfind, rfl⟩
  · rw [row]
    cases hfind : b.set.inserts.find? fun r => r.id == (insertedRow now i).id with
    | none => exact absurd (find?_eq_none.mp hfind i hi) (by simp [insertedRow])
    | some r =>
      have hid : r.id = i.id := by simpa [insertedRow] using find?_some hfind
      have hr : insertedRow now r ∈ mid.records :=
        (hrw.rows _).mpr (.inr ⟨r, mem_of_find?_eq_some hfind, rfl⟩)
      refine ⟨r, rfl, ?_⟩
      exact (congrArg Record.erase (hmid.record_ext hr hm hid) :)

def doomed (l : List ZoneOp) (records : List Record) : List RecordID :=
  (records.filter fun r => l.contains (.delete r.zoneID)).map Record.id

theorem mem_doomed {records : List Record} {id : RecordID} :
    id ∈ doomed l records ↔ ∃ r ∈ records, ZoneOp.delete r.zoneID ∈ l ∧ r.id = id := by
  simp [doomed, and_assoc]

theorem mem_without_doomed {zid : ZoneID} {zones : List Zone} {rest : List ZoneOp} :
    r ∈ ({ s with
      zones
      records := s.without ((s.records.filter fun r => r.zoneID == zid).map Record.id) } :
        Store).without (doomed rest (s.without
          ((s.records.filter fun r => r.zoneID == zid).map Record.id))) ↔
      r ∈ s.without (doomed (.delete zid :: rest) s.records) := by
  have hsub : ∀ id ∈ doomed rest (s.without
      ((s.records.filter fun r => r.zoneID == zid).map Record.id)), id ∈ doomed rest s.records := by
    intro id hid
    obtain ⟨o, ho, hdelete, hkey⟩ := mem_doomed.mp hid
    exact mem_doomed.mpr ⟨o, (mem_without.mp ho).1, hdelete, hkey⟩
  have hrest : ∀ id ∈ doomed rest s.records, id ∈ doomed rest (s.without
      ((s.records.filter fun r => r.zoneID == zid).map Record.id)) ∨
      Links.Below Record.id Record.source s.records
        (· ∈ (s.records.filter fun r => r.zoneID == zid).map Record.id) id := by
    intro id hid
    obtain ⟨o, ho, hdelete, rfl⟩ := mem_doomed.mp hid
    by_cases hgone : Links.Below Record.id Record.source s.records
        (· ∈ (s.records.filter fun r => r.zoneID == zid).map Record.id) o.id
    · exact .inr hgone
    · exact .inl (mem_doomed.mpr ⟨o, mem_without.mpr ⟨ho, hgone⟩, hdelete, rfl⟩)
  have hroots : (fun id => id ∈ (s.records.filter fun r => r.zoneID == zid).map Record.id ++
      doomed rest s.records) = fun id => id ∈ doomed (.delete zid :: rest) s.records := by
    funext id
    rw [mem_append, mem_doomed, mem_doomed, mem_map]
    simp only [mem_filter, beq_iff_eq, mem_cons, ZoneOp.delete.injEq]
    refine propext ⟨?_, ?_⟩
    · intro h
      rcases h with ⟨o, ⟨ho, hzone⟩, hid⟩ | ⟨o, ho, hdelete, hid⟩
      · exact ⟨o, ho, .inl hzone, hid⟩
      · exact ⟨o, ho, .inr hdelete, hid⟩
    · intro h
      rcases h with ⟨o, ho, hzone | hdelete, hid⟩
      · exact .inl ⟨o, ⟨ho, hzone⟩, hid⟩
      · exact .inr ⟨o, ho, hdelete, hid⟩
  refine (Links.mem_prune_prune_of_subset hsub hrest).trans ?_
  rw [Links.mem_prune, mem_without, hroots]

theorem mem_closeZones (hrun : l.foldlM closeZone s = .ok t) :
    r ∈ t.records ↔ r ∈ s.without (doomed l s.records) := by
  induction l generalizing s with
  | nil =>
    cases hrun
    rw [mem_without]
    refine ⟨fun hr => ⟨hr, fun hbelow => ?_⟩, And.left⟩
    obtain ⟨_, hroot⟩ := hbelow.exists_root
    obtain ⟨_, -, hnil, -⟩ := mem_doomed.mp hroot
    cases hnil
  | cons op rest ih =>
    obtain ⟨mid, hop, hrest⟩ := foldlM_cons_eq_ok.mp hrun
    cases op with
    | create z | update z =>
      cases hop
      rw [ih hrest, doomed, doomed]
      simp
    | delete zid =>
      obtain ⟨-, rfl⟩ := deleteZone_eq_ok.mp hop
      rw [ih hrest]
      exact mem_without_doomed

theorem swept_iff (hrw : b.set.Rewrites now s mid) (hs : s.Sound) (hmid : mid.Sound)
    (hm : m ∈ mid.records) :
    b.Swept s m.id ↔
      Links.Below Record.id Record.source mid.records (· ∈ doomed b.zones mid.records) m.id := by
  constructor
  · have hbelow : ∀ id, b.Swept s id → ∀ m ∈ mid.records, m.id = id →
        Links.Below Record.id Record.source mid.records (· ∈ doomed b.zones mid.records) id := by
      intro id hswept
      induction hswept with
      | @zone id r hrow hdelete =>
        intro m hm hid
        obtain ⟨r', hrow', herase⟩ := row_of_mem hrw hs hmid hm
        rw [hid, hrow] at hrow'
        cases hrow'
        have hzone : r.zoneID = m.zoneID := (congrArg Record.zoneID herase :)
        exact .root (mem_doomed.mpr ⟨m, hm, hzone ▸ hdelete, hid⟩)
      | @source id src r hrow hsource _ ih =>
        intro m hm hid
        obtain ⟨r', hrow', herase⟩ := row_of_mem hrw hs hmid hm
        rw [hid, hrow] at hrow'
        cases hrow'
        have hsrc : m.source = some src := by
          rw [← hsource]
          exact (congrArg Record.source herase.symm :)
        have hmanaged : m.managedBy ≠ .empty ∧ m.managedBy = src := by
          rw [Record.source] at hsrc
          split at hsrc
          · cases hsrc
          · next hne => exact ⟨hne, Option.some.inj hsrc⟩
        obtain ⟨o, ho, hoid⟩ := hmid.record_sources m hm hmanaged.1
        rw [← hid]
        exact .link hm hsrc (ih o ho (hoid.trans hmanaged.2))
    exact fun hswept => hbelow m.id hswept m hm rfl
  · intro hbelow
    clear hm
    generalize m.id = id at hbelow ⊢
    induction hbelow with
    | root hroot =>
      obtain ⟨o, ho, hdelete, rfl⟩ := mem_doomed.mp hroot
      obtain ⟨r, hrow, herase⟩ := row_of_mem hrw hs hmid ho
      have hzone : r.zoneID = o.zoneID := (congrArg Record.zoneID herase :)
      exact .zone hrow (hzone ▸ hdelete)
    | link ha hparent _ ih =>
      obtain ⟨r, hrow, herase⟩ := row_of_mem hrw hs hmid ha
      have hsource : r.source = _ := (congrArg Record.source herase :)
      exact .source hrow (hsource.trans hparent) ih

section Stamped

variable {st : Statement} {id : Ident}

variable {k : Table}

theorem mark_eq_some {k' : Table} {id' : Ident} {createdAt : Nat} :
    Twins.mark k id createdAt = some (k', id') ↔ createdAt = 0 ∧ k = k' ∧ id = id' := by
  rw [Twins.mark]
  split
  · simp_all
  · simp_all

theorem stamps_zone (hst : b.Runs st) (hstamps : st.stamps = some (.zones, id)) :
    (∃ z, (.create z ∈ b.zones ∨ .update z ∈ b.zones) ∧ z.id = id) ∨
      ∃ c ∈ b.commits, c.zoneID = id := by
  cases hst with
  | setting | revokeKey | revokeToken | delete | update | insert | refuse | deleteZone =>
    cases hstamps
  | createKey | createToken | commit => simp [Statement.stamps, mark_eq_some] at hstamps
  | createZone hz =>
    cases hstamps
    exact .inl ⟨_, .inl hz, rfl⟩
  | updateZone hz =>
    cases hstamps
    exact .inl ⟨_, .inr hz, rfl⟩
  | serial hc | soa hc =>
    cases hstamps
    exact .inr ⟨_, hc, rfl⟩

theorem stamps_other (hst : b.Runs st) (hstamps : st.stamps = some (k, id)) (hk : k ≠ .zones) :
    (k = .records ∧ ((∃ r ∈ b.set.inserts, r.id = id) ∨ ∃ u ∈ b.set.updates, u.after.id = id)) ∨
      (k = .commits ∧ ∃ c ∈ b.commits, c.createdAt = 0 ∧ c.id = id) ∨
      (k = .keys ∧ ∃ x, .create x ∈ b.keys ∧ x.createdAt = 0 ∧ x.id = id) ∨
      k = .tokens ∧ ∃ x, .create x ∈ b.tokens ∧ x.createdAt = 0 ∧ x.id = id := by
  cases hst with
  | setting | revokeKey | revokeToken | delete | refuse | deleteZone => cases hstamps
  | createZone | updateZone | serial | soa =>
    cases hstamps
    exact absurd rfl hk
  | update hu =>
    cases hstamps
    exact .inl ⟨rfl, .inr ⟨_, hu, rfl⟩⟩
  | insert hr =>
    cases hstamps
    exact .inl ⟨rfl, .inl ⟨_, hr, rfl⟩⟩
  | commit hc =>
    obtain ⟨hzero, rfl, rfl⟩ := mark_eq_some.mp hstamps
    exact .inr (.inl ⟨rfl, _, hc, hzero, rfl⟩)
  | createKey hx =>
    obtain ⟨hzero, rfl, rfl⟩ := mark_eq_some.mp hstamps
    exact .inr (.inr (.inl ⟨rfl, _, hx, hzero, rfl⟩))
  | createToken hx =>
    obtain ⟨hzero, rfl, rfl⟩ := mark_eq_some.mp hstamps
    exact .inr (.inr (.inr ⟨rfl, _, hx, hzero, rfl⟩))

end Stamped

section Present

variable {st : Statement} {id : ZoneID}

theorem exists_mem_mapped {f : Zone → Zone} (hf : ∀ o, (f o).id = o.id) {l : List Zone} :
    (∃ o ∈ l, o.id = id) ↔ ∃ o ∈ l.map f, o.id = id := by
  simp [hf]

theorem mem_updateZone {z : Zone} (hok : s.updateZone now z = .ok t) :
    (∃ o ∈ s.zones, o.id = id) ↔ ∃ o ∈ t.zones, o.id = id := by
  obtain ⟨-, -, -, rfl⟩ := updateZone_eq_ok.mp hok
  exact exists_mem_mapped fun _ => Sound.updatedZone_id

theorem execSOA_zone {soa : SOA} {x : ZoneID} (hok : Statement.execSOA now s x soa = .ok t) :
    (∃ o ∈ s.zones, o.id = x) ∧ ((∃ o ∈ s.zones, o.id = id) ↔ ∃ o ∈ t.zones, o.id = id) := by
  obtain ⟨z, hz, hrest⟩ := bind_eq_ok.mp hok
  obtain ⟨_, -, hupdate⟩ := bind_eq_ok.mp hrest
  rw [zoneByID_eq_ok] at hz
  exact ⟨⟨z, mem_of_find?_eq_some hz, by simpa using find?_some hz⟩,
    mem_updateZone hupdate⟩

theorem exec_keeps_zone (hok : Statement.exec now s st = .ok t) (hst : st ≠ .deleteZone id)
    (hex : ∃ o ∈ s.zones, o.id = id) : ∃ o ∈ t.zones, o.id = id := by
  cases st with
  | createZone z =>
    obtain ⟨-, -, -, rfl⟩ := createZone_eq_ok.mp hok
    obtain ⟨o, ho, hid⟩ := hex
    exact ⟨o, mem_append_left _ ho, hid⟩
  | updateZone z => exact (mem_updateZone hok).mp hex
  | setZoneSerial x serial =>
    obtain ⟨-, rfl⟩ := setZoneSerial_eq_ok.mp hok
    exact (exists_mem_mapped fun _ => Sound.steppedZone_id).mp hex
  | setSOA x soa => exact (execSOA_zone hok).2.mp hex
  | deleteZone x =>
    obtain ⟨-, rfl⟩ := deleteZone_eq_ok.mp hok
    obtain ⟨o, ho, hid⟩ := hex
    refine ⟨o, mem_filter.mpr ⟨ho, bne_iff_ne.mpr fun hx => hst ?_⟩, hid⟩
    rw [← hx, hid]
  | refuse e => cases hok
  | putSetting | createTSIGKey | revokeTSIGKey | createToken | revokeToken | deleteRecord
  | updateRecord | insertRecord | appendCommit =>
    -- the other statements leave the table of the zones alone
    simp only [Statement.exec, putSetting_eq_ok, createTSIGKey_eq_ok,
      revokeTSIGKey_eq_ok, createToken_eq_ok, revokeToken_eq_ok,
      deleteRecord_eq_ok, updateRecord_eq_ok, insertRecord_eq_ok,
      appendCommit_eq_ok] at hok
    simpa only [hok] using hex

theorem exec_stamps_zone (hok : Statement.exec now s st = .ok t)
    (hstamps : st.stamps = some (.zones, id)) : ∃ o ∈ t.zones, o.id = id := by
  cases st with
  | putSetting | revokeTSIGKey | revokeToken | deleteRecord | updateRecord | insertRecord
  | deleteZone | refuse => cases hstamps
  | createTSIGKey | createToken | appendCommit => simp [Statement.stamps, mark_eq_some] at hstamps
  | createZone z =>
    cases hstamps
    obtain ⟨-, -, -, rfl⟩ := createZone_eq_ok.mp hok
    exact ⟨_, mem_append_right _ (mem_singleton_self _), rfl⟩
  | updateZone z =>
    cases hstamps
    obtain ⟨-, hex, -⟩ := updateZone_eq_ok.mp hok
    exact (mem_updateZone hok).mp hex
  | setZoneSerial x serial =>
    cases hstamps
    obtain ⟨hex, rfl⟩ := setZoneSerial_eq_ok.mp hok
    exact (exists_mem_mapped fun _ => Sound.steppedZone_id).mp hex
  | setSOA x soa =>
    cases hstamps
    obtain ⟨hex, hkept⟩ := execSOA_zone hok
    exact hkept.mp hex

theorem write_keeps_zone (hok : b.write now s = .ok t) (hst : b.Runs st)
    (hstamps : st.stamps = some (.zones, id)) (hdelete : .delete id ∉ b.zones) :
    ∃ o ∈ t.zones, o.id = id := by
  obtain ⟨front, back, u, v, hsplit, hexec, hback⟩ := write_runs hok hst
  refine foldlM_invariant (fun x : Store => ∃ o ∈ x.zones, o.id = id) ?_ hback
    (exec_stamps_zone hexec hstamps)
  intro st' hst' x y hx hxy
  refine exec_keeps_zone hxy (fun heq => hdelete ?_) hx
  have hmem : st' ∈ b.statements := by
    rw [hsplit]
    exact mem_append_right _ (mem_cons_of_mem _ hst')
  rw [heq, mem_statements] at hmem
  cases hmem with
  | deleteZone hz => exact hz

end Present

theorem closeZones_gone {id : ZoneID} (hrun : l.foldlM closeZone s = .ok t)
    (hdelete : .delete id ∈ l) : ∀ z ∈ t.zones, z.id ≠ id := by
  obtain ⟨front, back, rfl⟩ := append_of_mem hdelete
  obtain ⟨u, -, hrest⟩ := foldlM_append_eq_ok.mp hrun
  obtain ⟨v, hclose, hback⟩ := foldlM_cons_eq_ok.mp hrest
  obtain ⟨-, rfl⟩ := deleteZone_eq_ok.mp hclose
  intro z hz
  exact bne_iff_ne.mp (mem_filter.mp (closeZones_zones hback z hz)).2

theorem stamps_commit (hok : b.write now s = .ok t) {c : Commit} (hc : c ∈ b.commits) :
    (∃ st, b.Runs st ∧ st.stamps = some (.zones, c.zoneID)) ∨ .delete c.zoneID ∈ b.zones := by
  cases hop : b.zoneOp c.zoneID with
  | some op =>
    have hmem : op ∈ b.zones := mem_of_find?_eq_some hop
    have hid : op.zoneID = c.zoneID := by simpa using find?_some hop
    rw [← hid]
    cases op with
    | create z => exact .inl ⟨_, .createZone hmem, rfl⟩
    | update z => exact .inl ⟨_, .updateZone hmem, rfl⟩
    | delete zid => exact .inr hmem
  | none =>
    cases he : b.set.entry c.zoneID with
    | none =>
      -- a batch that commits to a zone without changing it is refused
      obtain ⟨_, _, _, _, -, hexec, -⟩ := write_runs hok (.refuse hc (by rw [stepping, he, hop]))
      cases hexec
    | some e =>
      cases hsoa : e.changes.soa with
      | none => exact .inl ⟨_, .serial hc (by simp only [stepping, he, hop, hsoa]), rfl⟩
      | some change =>
        have hset : b.stepping c = [.setSOA c.zoneID (restoredSOA change c)] := by
          simp only [stepping, he, hop, hsoa]
        exact .inl ⟨_, .soa hc hset, rfl⟩

theorem mem_marks {k : Table} {id : Ident} : Marks.none.after b.statements k id ↔
    ∃ st, b.Runs st ∧ st.stamps = some (k, id) := by
  rw [Marks.mem_after]
  simp only [Marks.none, false_or, mem_statements]

theorem swept_iff_gone (h : s.Sound) (hok : b.write now s = .ok t) :
    ∃ mid : Store, b.set.Rewrites now s mid ∧ b.zones.foldlM closeZone mid = .ok t ∧
      ∀ m ∈ mid.records, b.Swept s m.id ↔ m ∉ t.records := by
  obtain ⟨mid, hmid, hrw, hclose⟩ := write_closing h hok
  refine ⟨mid, hrw, hclose, fun m hm => ?_⟩
  rw [swept_iff hrw h hmid hm, mem_closeZones hclose, mem_without]
  simp [hm]

section Unmarked

variable (h : s.Sound) (hok : b.write now s = .ok t)
include h hok

theorem unstamped_of_unmarked (htwins : Twins now now (Marks.none.after b.statements) t t)
    (hun : t.Unmarked (Marks.none.after b.statements)) : b.Unstamped s := by
  obtain ⟨mid, hrw, -, hgone⟩ := swept_iff_gone h hok
  -- what a statement stamps is there afterwards, with its mark, unless the batch deletes it
  have hdeleted {st : Statement} {id : ZoneID} (hst : b.Runs st)
      (hstamps : st.stamps = some (.zones, id)) : .delete id ∈ b.zones := by
    by_contra hno
    obtain ⟨o, ho, hid⟩ := write_keeps_zone hok hst hstamps hno
    exact hun.zones o ho (mem_marks.mpr ⟨st, hst, hid ▸ hstamps⟩)
  have hswept {st : Statement} {m : Record} (hm : m ∈ mid.records) (hst : b.Runs st)
      (hstamps : st.stamps = some (.records, m.id)) : b.Swept s m.id :=
    (hgone m hm).mpr fun ht => hun.records m ht (mem_marks.mpr ⟨st, hst, hstamps⟩)
  refine ⟨fun z hz => ?_, fun c hc => ?_, fun r hr => ?_, fun u hu => ?_, fun c hc hzero => ?_,
    fun k hk hzero => ?_, fun k hk hzero => ?_⟩
  · rcases hz with hz | hz
    · exact hdeleted (.createZone hz) rfl
    · exact hdeleted (.updateZone hz) rfl
  · rcases stamps_commit hok hc with ⟨st, hst, hstamps⟩ | hdelete
    · exact hdeleted hst hstamps
    · exact hdelete
  · have hm : insertedRow now r ∈ mid.records := (hrw.rows _).mpr (.inr ⟨r, hr, rfl⟩)
    exact hswept (m := insertedRow now r) hm (.insert hr) rfl
  · obtain ⟨-, o, ho, hid⟩ := hrw.updates u hu
    have hsame : (rewrittenRow now b.set.updates o).id = u.after.id := rewrittenRow_id.trans hid
    rw [← hsame]
    exact hswept ((hrw.rows _).mpr (.inl ⟨o, ho, rfl⟩)) (.update hu) (hsame ▸ rfl)
  -- a commit, a key and a token stay whatever else the batch does
  · have hmark := mem_marks.mpr ⟨_, .commit hc, mark_eq_some.mpr ⟨hzero, rfl, rfl⟩⟩
    obtain ⟨o, ho, hid⟩ := (htwins.tables .commits).2 _ hmark
    exact hun.commits o ho (hid ▸ hmark)
  · have hmark := mem_marks.mpr ⟨_, .createKey hk, mark_eq_some.mpr ⟨hzero, rfl, rfl⟩⟩
    obtain ⟨o, ho, hid⟩ := (htwins.tables .keys).2 _ hmark
    exact hun.keys o ho (hid ▸ hmark)
  · have hmark := mem_marks.mpr ⟨_, .createToken hk, mark_eq_some.mpr ⟨hzero, rfl, rfl⟩⟩
    obtain ⟨o, ho, hid⟩ := (htwins.tables .tokens).2 _ hmark
    exact hun.tokens o ho (hid ▸ hmark)

theorem unmarked_of_unstamped (hcond : b.Unstamped s) :
    t.Unmarked (Marks.none.after b.statements) := by
  obtain ⟨mid, -, hclose, hgone⟩ := swept_iff_gone h hok
  have hother {k : Table} (hk : k ≠ .zones) {id : Ident}
      (hmark : Marks.none.after b.statements k id) : k = .records ∧ b.Swept s id := by
    obtain ⟨st, hst, hstamps⟩ := mem_marks.mp hmark
    rcases stamps_other hst hstamps hk with ⟨rfl, hrecord⟩ | ⟨-, c, hc, hzero, -⟩ |
      ⟨-, x, hx, hzero, -⟩ | ⟨-, x, hx, hzero, -⟩
    · rcases hrecord with ⟨r, hr, rfl⟩ | ⟨u, hu, rfl⟩
      · exact ⟨rfl, hcond.inserts r hr⟩
      · exact ⟨rfl, hcond.updates u hu⟩
    · exact absurd hzero (hcond.commits c hc)
    · exact absurd hzero (hcond.keys x hx)
    · exact absurd hzero (hcond.tokens x hx)
  constructor
  · intro z hz hmark
    obtain ⟨st, hst, hstamps⟩ := mem_marks.mp hmark
    rcases stamps_zone hst hstamps with ⟨o, ho, hid⟩ | ⟨c, hc, hid⟩
    · exact closeZones_gone hclose (hcond.opened o ho) z hz hid.symm
    · exact closeZones_gone hclose (hcond.committed c hc) z hz hid.symm
  · intro r hr hmark
    have hm : r ∈ mid.records := (mem_without.mp ((mem_closeZones hclose).mp hr)).1
    exact (hgone r hm).mp (hother (by decide) hmark).2 hr
  · intro c hc hmark
    exact absurd (hother (by decide) hmark).1 (by decide)
  · intro k hk hmark
    exact absurd (hother (by decide) hmark).1 (by decide)
  · intro k hk hmark
    exact absurd (hother (by decide) hmark).1 (by decide)

theorem unmarked_iff (htwins : Twins now now (Marks.none.after b.statements) t t) :
    t.Unmarked (Marks.none.after b.statements) ↔ b.Unstamped s :=
  ⟨unstamped_of_unmarked h hok htwins, unmarked_of_unstamped h hok⟩

end Unmarked

def Skipped (b : Batch) (s : Store) : Prop := b.empty = true ∨ b.applied s = .ok true

theorem applied_of_sameRows (h : s.SameRows t) : b.applied s = b.applied t := by
  have hsome : ∀ id : CommitID, (s.commitByID id).isSome = (t.commitByID id).isSome := by
    intro id
    rw [Bool.eq_iff_iff]
    simp [commitByID, h.commits]
  simp only [applied, hsome]

section Members

variable (now' : Nat) {s' t' : Store}

theorem write_listing (hs : s.Schema) (ht : t.Schema) (hsame : s.SameRows t)
    (hok : b.write now s = .ok s') :
    ∃ t', b.write now' t = .ok t' ∧
      (s'.listing = t'.listing ↔ now = now' ∨ b.Unstamped s) := by
  have hs' : s'.Schema := write_invariant Schema (fun _ _ _ _ hx hxy => hx.exec hxy) hok hs
  have hself := Twins.of_sameRows (sameRows_of_listing_eq rfl : s.SameRows s) now now
  have hstatements := hok
  rw [write_eq_statements] at hstatements
  obtain ⟨u, hu, hself⟩ := hself.execAll hs hstatements
  rw [hstatements] at hu
  cases hu
  obtain ⟨t', ht', htwins⟩ := (Twins.of_sameRows hsame now now').execAll ht hstatements
  rw [← write_eq_statements] at ht'
  have hschema : t'.Schema :=
    write_invariant Schema (fun _ _ _ _ hx hxy => hx.exec hxy) ht' ht
  refine ⟨t', ht', ?_⟩
  rw [htwins.listing_iff hs' hschema, unmarked_iff hs.toSound hok hself]

theorem writeOnce_listing (hs : s.Schema) (ht : t.Schema) (hsame : s.SameRows t)
    (hok : b.writeOnce now s = .ok s') :
    ∃ t', b.writeOnce now' t = .ok t' ∧
      (s'.listing = t'.listing ↔ now = now' ∨ b.Skipped s ∨ b.Unstamped s) := by
  have hlisting : s.listing = t.listing := (listing_eq_iff hs ht).mpr hsame
  rw [writeOnce] at hok ⊢
  by_cases hempty : b.empty = true
  · rw [if_pos hempty] at hok ⊢
    cases hok
    exact ⟨t, rfl, iff_of_true hlisting (.inr (.inl (.inl hempty)))⟩
  · rw [if_neg hempty] at hok ⊢
    obtain ⟨done, hdone, hrest⟩ := bind_eq_ok.mp hok
    have hdone' := hdone
    rw [applied_of_sameRows hsame] at hdone'
    cases done with
    | true =>
      cases hrest
      exact ⟨t, bind_eq_ok.mpr ⟨true, hdone', rfl⟩,
        iff_of_true hlisting (.inr (.inl (.inr hdone)))⟩
    | false =>
      obtain ⟨t', hwrite, hiff⟩ := write_listing now' hs ht hsame hrest
      refine ⟨t', bind_eq_ok.mpr ⟨false, hdone', hwrite⟩, ?_⟩
      have hnot : ¬ b.Skipped s := by
        intro hskipped
        rcases hskipped with hskipped | hskipped
        · exact hempty hskipped
        · rw [hdone] at hskipped
          cases hskipped
      rw [hiff, or_iff_right hnot]

def Due (index : Nat) (s : Store) : Prop := index = 0 ∨ s.appliedIndex < index

theorem applyAt_listing {index : Nat} (hs : s.Schema) (ht : t.Schema) (hsame : s.SameRows t)
    (hdue : Due index s) (hdue' : Due index t) (hok : b.applyAt now index s = .ok s') :
    ∃ t', b.applyAt now' index t = .ok t' ∧
      (s'.listing = t'.listing ↔ now = now' ∨ b.Skipped s ∨ b.Unstamped s) := by
  have hahead : ∀ u : Store, Due index u →
      (index != 0 && decide (index ≤ u.appliedIndex)) = false := by
    intro u hu
    rcases hu with rfl | hu
    · rfl
    · have hnot : ¬ index ≤ u.appliedIndex := by omega
      simp [hnot]
  rw [applyAt, hahead s hdue] at hok
  rw [applyAt, hahead t hdue']
  by_cases hnothing : (b.empty && index == 0) = true
  · rw [if_pos hnothing] at hok ⊢
    cases hok
    have hempty : b.empty = true := (Bool.and_eq_true_iff.mp hnothing).1
    exact ⟨t, rfl, iff_of_true ((listing_eq_iff hs ht).mpr hsame) (.inr (.inl (.inl hempty)))⟩
  · rw [if_neg hnothing, if_neg Bool.false_ne_true] at hok ⊢
    obtain ⟨mid, hmid, hrest⟩ := bind_eq_ok.mp hok
    obtain ⟨mid', hmid', hiff⟩ := writeOnce_listing now' hs ht hsame hmid
    by_cases hzero : index = 0
    · rw [if_pos hzero] at hrest
      cases hrest
      exact ⟨mid', bind_eq_ok.mpr ⟨mid', hmid', if_pos hzero⟩, hiff⟩
    · rw [if_neg hzero] at hrest
      obtain ⟨hne, hfits, rfl⟩ := setAppliedIndex_eq_ok.mp hrest
      refine ⟨{ mid' with appliedIndex := index }, bind_eq_ok.mpr ⟨mid', hmid', ?_⟩, hiff⟩
      rw [if_neg hzero]
      exact setAppliedIndex_eq_ok.mpr ⟨hne, hfits, rfl⟩

end Members

/-- Two members that stream the same out carry a batch out at a position that is new to both,
each by its own clock.  Both accept it or neither does, and they stream the same out afterwards
just when the clocks read the same, the batch was carried out before, or nothing that is
stamped outlives it. -/
theorem members_agree_iff {now now' index : Nat} {s t : Store} (b : Batch) (hs : s.Schema)
    (ht : t.Schema) (hsame : s.listing = t.listing) (hdue : Due index s) (hdue' : Due index t) :
    (accepted (b.applyAt now index s) ↔ accepted (b.applyAt now' index t)) ∧
      ∀ s' t', b.applyAt now index s = .ok s' → b.applyAt now' index t = .ok t' →
        (s'.listing = t'.listing ↔ now = now' ∨ b.Skipped s ∨ b.Unstamped s) := by
  have hrows := sameRows_of_listing_eq hsame
  have hrows' := sameRows_of_listing_eq hsame.symm
  refine ⟨⟨fun hok => ?_, fun hok => ?_⟩, fun s' t' hok hok' => ?_⟩
  · obtain ⟨s', hok⟩ := hok
    obtain ⟨t', hok', -⟩ := applyAt_listing now' hs ht hrows hdue hdue' hok
    exact ⟨t', hok'⟩
  · obtain ⟨t', hok⟩ := hok
    obtain ⟨s', hok', -⟩ := applyAt_listing now ht hs hrows' hdue' hdue hok
    exact ⟨s', hok'⟩
  · obtain ⟨u, hu, hiff⟩ := applyAt_listing now' hs ht hrows hdue hdue' hok
    rw [hok'] at hu
    cases hu
    exact hiff

/-- A zone that is deleted on two members whose clocks differ. -/
theorem members_agree_deletion :
    ∃ s b res, performAll Store.blank (steps (reverseRun.take 1)) = .ok s ∧
      (envAt 5000).planOp s (.deleteZone (.ulid 1) info) = .ok (b, res) ∧
      accepted (b.applyAt 1 1 s) ∧ accepted (b.applyAt 2 1 s) ∧
      ∀ s' t', b.applyAt 1 1 s = .ok s' → b.applyAt 2 1 s = .ok t' → s'.listing = t'.listing := by
  obtain ⟨s, hrun, hs⟩ := ok_of_any
    (show (performAll Store.blank (steps (reverseRun.take 1))).toOption.any (fun s =>
      decide (s.appliedIndex = 0) &&
        ((envAt 5000).planOp s (.deleteZone (.ulid 1) info)).toOption.any fun out =>
          (out.1.applyAt 1 1 s).isOk && decide (out.1.zones = [.delete (.ulid 1)] ∧
            out.1.set.inserts = [] ∧ out.1.set.updates = [] ∧ out.1.keys = [] ∧
            out.1.tokens = [] ∧ ∀ c ∈ out.1.commits, c.zoneID = .ulid 1 ∧ c.createdAt ≠ 0)) = true by
        decide +kernel)
  obtain ⟨hindex, hplan⟩ := Bool.and_eq_true_iff.mp hs
  obtain ⟨⟨b, res⟩, hplan, hb⟩ := ok_of_any hplan
  obtain ⟨hok, hshape⟩ := Bool.and_eq_true_iff.mp hb
  obtain ⟨hzones, hinserts, hupdates, hkeys, htokens, hcommits⟩ := of_decide_eq_true hshape
  dsimp only at hok hzones hinserts hupdates hkeys htokens hcommits
  have hreached : s.Reached := performAll_reached (by decide) hrun
  have hdue : Due 1 s := .inr (by rw [of_decide_eq_true hindex]; decide)
  have hschema := hreached.schema.1
  have hunstamped : b.Unstamped s :=
    { opened := by simp [hzones]
      committed := fun c hc => by simp [hzones, (hcommits c hc).1]
      inserts := by simp [hinserts]
      updates := by simp [hupdates]
      commits := fun c hc => (hcommits c hc).2
      keys := by simp [hkeys]
      tokens := by simp [htokens] }
  have hagree := @members_agree_iff 1 2 1 s s b hschema hschema rfl hdue hdue
  have haccepted := accepted_of_isOk hok
  exact ⟨s, b, res, hrun, hplan, haccepted, hagree.1.mp haccepted, fun s' t' hs' ht' =>
    (hagree.2 s' t' hs' ht').mpr (.inr (.inr hunstamped))⟩

/-- A zone that is created on two members whose clocks differ. -/
theorem members_differ_creation :
    ∃ b res s' t', (envAt 1000).planOp Store.blank
        (.createZone (Sample.zone 1 ["ex"]) [Sample.record 11 1 ["ex"] typeNS "ns."] Sample.info) =
          .ok (b, res) ∧
      b.applyAt 1 1 Store.blank = .ok s' ∧ b.applyAt 2 1 Store.blank = .ok t' ∧
      s'.listing ≠ t'.listing := by
  obtain ⟨⟨b, res⟩, hplan, hb⟩ := ok_of_any
    (show ((Sample.envAt 1000).planOp Store.blank (.createZone (Sample.zone 1 ["ex"])
        [Sample.record 11 1 ["ex"] typeNS "ns."] Sample.info)).toOption.any (fun out =>
      (out.1.applyAt 1 1 Store.blank).toOption.any fun s' =>
        (out.1.applyAt 2 1 Store.blank).toOption.any fun t' =>
          decide (s'.listing ≠ t'.listing)) = true by decide +kernel)
  obtain ⟨s', hs', hs⟩ := ok_of_any hb
  obtain ⟨t', ht', hne⟩ := ok_of_any hs
  exact ⟨b, res, s', t', hplan, hs', ht', of_decide_eq_true hne⟩

end Batch

end Wegweiser
