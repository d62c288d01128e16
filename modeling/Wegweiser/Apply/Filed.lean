/-
Where a change set keeps what it holds: every zone has one entry, and every record
queued in it belongs to the zone it is queued under.
-/
import Wegweiser.Apply.Growth

namespace Wegweiser

open Checked List

/-- Changes to records of one zone, whose owners are the names touched. -/
structure Changes.Under (zid : ZoneID) (c : Changes) : Prop where
  deletes : ∀ r ∈ c.deletes, r.zoneID = zid
  updates : ∀ u ∈ c.updates, u.before.zoneID = zid ∧ u.after.zoneID = zid
  inserts : ∀ r ∈ c.inserts, r.zoneID = zid
  marked : c.Marked

namespace Changes.Under

variable {zid : ZoneID} {c : Changes} {r : Record}

theorem blank : Changes.blank.Under zid := by
  refine ⟨?_, ?_, ?_, .blank⟩ <;> simp [Changes.blank]

theorem remove (h : c.Under zid) (hr : r.zoneID = zid) : (c.remove r).Under zid := by
  constructor
  · intro x hx
    rw [remove_deletes, mem_append, mem_singleton] at hx
    rcases hx with hx | rfl
    · exact h.deletes x hx
    · exact hr
  · rw [remove_updates]
    exact h.updates
  · rw [remove_inserts]
    exact h.inserts
  · exact h.marked.remove

theorem insert (h : c.Under zid) (hr : r.zoneID = zid) : (c.insert r).Under zid := by
  constructor
  · rw [insert_deletes]
    exact h.deletes
  · rw [insert_updates]
    exact h.updates
  · intro x hx
    rw [insert_inserts, mem_append, mem_singleton] at hx
    rcases hx with hx | rfl
    · exact h.inserts x hx
    · exact hr
  · exact h.marked.insert

end Changes.Under

/-- A change set whose entries are about different zones, all among the zones `Z`,
each with changes to records of its own zone. -/
structure ChangeSet.Filed (Z : Zone → Prop) (cs : ChangeSet) : Prop where
  once : (cs.entries.map fun e => e.zone.id).Nodup
  zones : ∀ e ∈ cs.entries, Z e.zone
  under : ∀ e ∈ cs.entries, e.changes.Under e.zone.id

namespace ChangeSet

variable {Z : Zone → Prop} {cs : ChangeSet} {z : Zone} {f : Changes → Changes} {zid : ZoneID}

theorem mem_modifyEntry_cases {entries : List ZoneChanges} {e : ZoneChanges}
    (he : e ∈ modifyEntry zid f entries) :
    e ∈ entries ∨ ∃ o ∈ entries, o.zone.id = zid ∧ e = { o with changes := f o.changes } := by
  induction entries with
  | nil => cases he
  | cons head tail ih =>
    rw [modifyEntry] at he
    split at he
    · next hid =>
      rcases mem_cons.mp he with rfl | he
      · exact .inr ⟨head, mem_cons_self, hid, rfl⟩
      · exact .inl (mem_cons_of_mem head he)
    · rcases mem_cons.mp he with rfl | he
      · exact .inl mem_cons_self
      · rcases ih he with he | ⟨o, ho, heq⟩
        · exact .inl (mem_cons_of_mem head he)
        · exact .inr ⟨o, mem_cons_of_mem head ho, heq⟩

theorem Filed.blank : ChangeSet.blank.Filed Z := by
  constructor <;> simp [ChangeSet.blank]

theorem Filed.singleton {ch : Changes} {policy : Option Policy} (hz : Z z)
    (hch : ch.Under z.id) : (⟨[⟨z, ch⟩], policy⟩ : ChangeSet).Filed Z := by
  constructor
  · simp
  · intro e he
    rw [mem_singleton.mp he]
    exact hz
  · intro e he
    rw [mem_singleton.mp he]
    exact hch

theorem Filed.inZone (h : cs.Filed Z) (hz : Z z)
    (hf : ∀ c : Changes, c.Under z.id → (f c).Under z.id) : (cs.inZone z f).Filed Z := by
  rw [ChangeSet.inZone]
  cases hentry : cs.entry z.id with
  | some found =>
    have hids : (modifyEntry z.id f cs.entries).map (fun e => e.zone.id) =
        cs.entries.map fun e => e.zone.id := by
      have := congrArg (map Zone.id) (@modifyEntry_zones f z.id cs.entries)
      rwa [map_map, map_map] at this
    constructor
    · exact hids ▸ h.once
    · intro e he
      rcases mem_modifyEntry_cases he with he | ⟨o, ho, -, rfl⟩
      · exact h.zones e he
      · exact h.zones o ho
    · intro e he
      rcases mem_modifyEntry_cases he with he | ⟨o, ho, hid, rfl⟩
      · exact h.under e he
      · have hunder := h.under o ho
        rw [hid] at hunder
        exact hid ▸ hf _ hunder
  | none =>
    have hnew : ∀ e ∈ cs.entries, e.zone.id ≠ z.id := by
      simpa [entry, find?_eq_none] using hentry
    exact ⟨Links.nodup_concat h.once hnew, Links.forall_mem_concat h.zones hz,
      Links.forall_mem_concat h.under (hf _ .blank)⟩

theorem Filed.pending (h : cs.Filed Z) : (cs.pending zid).Under zid := by
  rw [ChangeSet.pending]
  cases hentry : cs.entry zid with
  | none => exact .blank
  | some e =>
    obtain ⟨he, rfl⟩ := entry_eq_some hentry
    exact h.under e he

theorem Filed.changes_eq (h : cs.Filed Z) {e : ZoneChanges} (he : e ∈ cs.entries) :
    e.changes = cs.pending e.zone.id := by
  cases hentry : cs.entry e.zone.id with
  | none => exact absurd (find?_eq_none.mp hentry e he) (by simp)
  | some o =>
    obtain ⟨ho, hid⟩ := entry_eq_some hentry
    have heq : o = e := inj_on_of_nodup_map h.once ho he hid
    rw [ChangeSet.pending, hentry, heq]
    rfl

end ChangeSet

namespace Env

variable {Z : Zone → Prop} {env : Env} {s : Store} {w w' : Work} {r d source : Record}
  {z rev : Zone} {addr : Addr} {owner : Name}

section Keeps

variable (hZ : ∀ z ∈ s.zones, Z z)

include hZ

theorem queueRemoval_filed (h : w.cs.Filed Z) (hok : queueRemoval s w d = .ok w') :
    w'.cs.Filed Z := by
  obtain ⟨z, hz, rfl⟩ := queueRemoval_eq_ok.mp hok
  obtain ⟨hid, hwhere⟩ := zoneOf_eq_ok hz
  refine h.inZone ?_ fun c hc => hc.remove hid.symm
  rcases hwhere with ⟨e, he, rfl⟩ | hz
  · exact h.zones e he
  · exact hZ z hz

theorem queueRemovals_filed {l : List Record} (h : w.cs.Filed Z)
    (hok : l.foldlM (queueRemoval s) w = .ok w') : w'.cs.Filed Z :=
  foldlM_invariant (fun w => w.cs.Filed Z) (fun _ _ _ _ hx hxy => queueRemoval_filed hZ hx hxy)
    hok h

theorem retireQueue_filed {fuel : Nat} {queue : List RecordID} (h : w.cs.Filed Z)
    (hok : retireQueue s fuel queue w = .ok w') : w'.cs.Filed Z := by
  induction fuel generalizing queue w with
  | zero =>
    cases queue with
    | nil =>
      cases hok
      exact h
    | cons next queue => cases hok
  | succ fuel ih =>
    cases queue with
    | nil =>
      cases hok
      exact h
    | cons next queue =>
      obtain ⟨mid, hmid, hrest⟩ := bind_eq_ok.mp hok
      exact ih (queueRemovals_filed hZ h hmid) hrest

theorem retireGenerated_filed (h : w.cs.Filed Z) (hok : retireGenerated s w r = .ok w') :
    w'.cs.Filed Z := by
  rw [retireGenerated] at hok
  split at hok
  · exact retireQueue_filed hZ h hok
  · cases hok
    exact h

theorem retire_filed (h : w.cs.Filed Z) (hok : retire s w r = .ok w') : w'.cs.Filed Z := by
  obtain ⟨mid, hmid, hrest⟩ := bind_eq_ok.mp hok
  exact retireQueue_filed hZ (queueRemoval_filed hZ h hmid) hrest

theorem queueEntry_filed (h : w.cs.Filed Z) (hrev : rev ∈ s.zones)
    (hok : env.queueEntry s w rev source addr owner = .ok w') : w'.cs.Filed Z := by
  obtain ⟨data, plain, -, -, hdelegated⟩ := queueEntry_eq_ok hok
  have hmid : (env.entered w rev source owner data).2.cs.Filed Z :=
    h.inZone (hZ rev hrev) fun c hc => hc.insert rfl
  cases hdelegated with
  | inside | elsewhere | present | conflict => exact hmid
  | queued _ hparent _ _ =>
    obtain ⟨name, -, hname⟩ := Option.bind_eq_some_iff.mp hparent
    have hmem := Store.mem_of_zoneByName hname
    exact hmid.inZone (hZ _ hmem.1) fun c hc => hc.insert rfl

omit hZ in
theorem zoneID_of_heldAt (h : w.cs.Filed Z) (hr : r ∈ heldAt s w.cs rev owner) :
    r.zoneID = rev.id := by
  rw [heldAt, reverseRRset, mem_append] at hr
  rcases hr with hr | hr
  · exact (Store.mem_rrset.mp (mem_filter.mp hr).1).2.1
  · have hunder : (w.cs.pending rev.id).Under rev.id := h.pending
    rw [Changes.arriving, mem_append] at hr
    rcases hr with hr | hr
    · exact hunder.inserts r (mem_filter.mp hr).1
    · obtain ⟨u, hu, rfl⟩ := mem_map.mp hr
      exact (hunder.updates u (mem_filter.mp hu).1).2

theorem displaced_filed (h : w.cs.Filed Z) (hrev : rev ∈ s.zones) {held : List Record}
    (hheld : ∀ r ∈ held, r.zoneID = rev.id) : (displaced w rev held).cs.Filed Z := by
  rw [displaced]
  have hfold (l : List Record) (hl : ∀ r ∈ l, r.zoneID = rev.id) (w : Work) (h : w.cs.Filed Z) :
      (l.foldl (fun w r => w.inZone rev (·.remove r)) w).cs.Filed Z := by
    induction l generalizing w with
    | nil => exact h
    | cons head tail ih =>
      refine ih (fun r hr => hl r (mem_cons_of_mem head hr)) _ ?_
      exact h.inZone (hZ rev hrev) fun c hc => hc.remove (hl head mem_cons_self)
  exact hfold _ (fun r hr => hheld r (mem_filter.mp hr).1) w h

theorem generate_filed (h : w.cs.Filed Z) (hok : env.generate s w source = .ok w') :
    w'.cs.Filed Z := by
  cases generate_eq_ok hok with
  | skipped | present | missing | kept => exact h
  | free hspot _ hentry | beside hspot _ _ hentry =>
    exact queueEntry_filed hZ h (Store.mem_of_reverseZoneFor hspot.zone) hentry
  | replaced hspot hheld _ _ _ hentry =>
    have hrev := Store.mem_of_reverseZoneFor hspot.zone
    refine queueEntry_filed hZ ?_ hrev hentry
    exact displaced_filed hZ h hrev fun r hr => zoneID_of_heldAt h (hheld ▸ hr)

theorem expandReverse_filed (h : w.cs.Filed Z) (hok : env.expandReverse s w z = .ok w') :
    w'.cs.Filed Z := by
  by_cases hon : env.autoReverse z = true
  · simp only [expandReverse, hon, Bool.not_true, Bool.false_eq_true, if_false, bind_eq_ok] at hok
    obtain ⟨w₁, h₁, w₂, h₂, w₃, h₃, w₄, h₄, h₅⟩ := hok
    let Inv (w : Work) : Prop := w.cs.Filed Z
    have i₁ := foldlM_invariant Inv (fun _ _ _ _ hx => retireGenerated_filed hZ hx) h₁ h
    have i₂ := foldlM_invariant Inv (fun _ _ _ _ hx => retireGenerated_filed hZ hx) h₂ i₁
    have i₃ := foldlM_invariant Inv (fun _ _ _ _ hx => generate_filed hZ hx) h₃ i₂
    have i₄ := foldlM_invariant Inv (fun _ _ _ _ hx => generate_filed hZ hx) h₄ i₃
    exact foldlM_invariant Inv (fun _ _ _ _ hx => generate_filed hZ hx) h₅ i₄
  · rw [expandReverse_off (Bool.eq_false_iff.mpr hon) hok]
    exact h

theorem supersede_filed (h : w.cs.Filed Z) (hok : supersede s w r = .ok w') : w'.cs.Filed Z := by
  rw [supersede] at hok
  split at hok
  · cases hok
    exact h
  · obtain ⟨owner, -, hrun⟩ := bind_eq_ok.mp hok
    exact foldlM_invariant (fun w => w.cs.Filed Z) (fun _ _ _ _ hx => retire_filed hZ hx) hrun h

theorem reconcileInto_filed (h : w.cs.Filed Z) (hok : env.reconcileInto s w z = .ok w') :
    w'.cs.Filed Z := by
  rw [reconcileInto] at hok
  split at hok
  · cases hok
    exact h
  · refine foldlM_invariant (fun w => w.cs.Filed Z) (fun r _ x y hx hxy => ?_) hok h
    obtain ⟨src, -, hrest⟩ := bind_eq_ok.mp hxy
    split at hrest
    · cases hrest
      exact hx
    · obtain ⟨mid, hsupersede, hgenerate⟩ := bind_eq_ok.mp hrest
      exact generate_filed hZ (supersede_filed hZ hx hsupersede) hgenerate

end Keeps

end Env

end Wegweiser
