/-
What a change set holds: the removals, updates and additions queued in it, zone
by zone and all together, and how queueing one more changes them.
-/
import Wegweiser.Apply.Reverse

namespace Wegweiser

open List

namespace Changes

variable {c : Changes} {r x : Record} {n : Name}

@[simp] theorem touch_deletes : (c.touch n).deletes = c.deletes := by
  rw [touch]; split <;> rfl

@[simp] theorem touch_updates : (c.touch n).updates = c.updates := by
  rw [touch]; split <;> rfl

@[simp] theorem touch_inserts : (c.touch n).inserts = c.inserts := by
  rw [touch]; split <;> rfl

@[simp] theorem touch_claims : (c.touch n).claims = c.claims := by
  rw [touch]; split <;> rfl

@[simp] theorem touch_soa : (c.touch n).soa = c.soa := by
  rw [touch]; split <;> rfl

@[simp] theorem remove_deletes : (c.remove r).deletes = c.deletes ++ [r] := by simp [remove]

@[simp] theorem remove_updates : (c.remove r).updates = c.updates := by simp [remove]

@[simp] theorem remove_inserts : (c.remove r).inserts = c.inserts := by simp [remove]

@[simp] theorem remove_claims : (c.remove r).claims = c.claims := by simp [remove]

@[simp] theorem remove_soa : (c.remove r).soa = c.soa := by simp [remove]

@[simp] theorem insert_deletes : (c.insert r).deletes = c.deletes := by simp [insert]

@[simp] theorem insert_updates : (c.insert r).updates = c.updates := by simp [insert]

@[simp] theorem insert_inserts : (c.insert r).inserts = c.inserts ++ [r] := by simp [insert]

@[simp] theorem insert_claims : (c.insert r).claims = c.claims := by simp [insert]

@[simp] theorem insert_soa : (c.insert r).soa = c.soa := by simp [insert]

variable {after : Record} {m : Name}

@[simp] theorem update_deletes : (c.update r after).deletes = c.deletes := by
  simp [update]

@[simp] theorem update_updates : (c.update r after).updates = c.updates ++ [⟨r, after⟩] := by
  simp [update]

@[simp] theorem update_inserts : (c.update r after).inserts = c.inserts := by
  simp [update]

@[simp] theorem update_claims : (c.update r after).claims = c.claims := by
  simp [update]

@[simp] theorem update_soa : (c.update r after).soa = c.soa := by simp [update]

@[simp] theorem mem_touch : m ∈ (c.touch n).touched ↔ m ∈ c.touched ∨ m = n := by
  rw [touch]
  split
  · next hn =>
    have hn : n ∈ c.touched := by simpa using hn
    exact ⟨.inl, fun h => h.elim id fun heq => heq ▸ hn⟩
  · simp

@[simp] theorem mem_remove_touched : m ∈ (c.remove r).touched ↔ m ∈ c.touched ∨ m = r.name := by
  simp [remove]

@[simp] theorem mem_insert_touched : m ∈ (c.insert r).touched ↔ m ∈ c.touched ∨ m = r.name := by
  simp [insert]

@[simp] theorem mem_update_touched :
    m ∈ (c.update r after).touched ↔ (m ∈ c.touched ∨ m = r.name) ∨ m = after.name := by
  simp [update]

end Changes

/-- The owners of records that are removed, rewritten (before and after) and added. -/
def ownersOf (removes : List Record) (rewrites : List RecordUpdate) (adds : List Record) :
    List Name :=
  removes.map Record.name ++ rewrites.flatMap (fun u => [u.before.name, u.after.name]) ++
    adds.map Record.name

/-- The touched names are the owners of what is queued. -/
def Changes.Marked (c : Changes) : Prop :=
  ∀ n, n ∈ c.touched ↔ n ∈ ownersOf c.deletes c.updates c.inserts

namespace Changes.Marked

variable {c : Changes} {r : Record}

theorem blank : Changes.blank.Marked := by
  simp [Changes.Marked, Changes.blank, ownersOf]

theorem remove (h : c.Marked) : (c.remove r).Marked := by
  intro n
  simp only [mem_remove_touched, h n, ownersOf, remove_deletes, remove_updates, remove_inserts,
    map_append, map_cons, map_nil, mem_append, mem_singleton]
  tauto

theorem insert (h : c.Marked) : (c.insert r).Marked := by
  intro n
  simp only [mem_insert_touched, h n, ownersOf, insert_deletes, insert_updates, insert_inserts,
    map_append, map_cons, map_nil, mem_append, mem_singleton]
  tauto

end Changes.Marked

namespace ChangeSet

universe u

variable {cs : ChangeSet} {z : Zone} {f : Changes → Changes} {zid : ZoneID}

theorem modifyEntry_zones (entries : List ZoneChanges) :
    (modifyEntry zid f entries).map ZoneChanges.zone = entries.map ZoneChanges.zone := by
  induction entries with
  | nil => rfl
  | cons head tail ih =>
    rw [modifyEntry]
    split
    · rfl
    · simp [ih]

@[simp]
theorem inZone_policy : (cs.inZone z f).policy = cs.policy := by
  rw [inZone]
  split <;> rfl

theorem entry_eq_some {e : ZoneChanges} (hentry : cs.entry zid = some e) :
    e ∈ cs.entries ∧ e.zone.id = zid :=
  ⟨mem_of_find?_eq_some hentry, by simpa using find?_some hentry⟩

theorem find?_modifyEntry (entries : List ZoneChanges) (k : ZoneID) :
    (modifyEntry zid f entries).find? (fun e => e.zone.id == k) =
      (entries.find? fun e => e.zone.id == k).map fun e =>
        if k = zid then { e with changes := f e.changes } else e := by
  induction entries with
  | nil => rfl
  | cons head tail ih =>
    rw [modifyEntry]
    by_cases hid : head.zone.id = zid
    · by_cases hk : head.zone.id = k
      · simp [hid, ← hk]
      · have hne : k ≠ zid := fun h => hk (hid.trans h.symm)
        simp [hid, hne, hne.symm]
    · by_cases hk : head.zone.id = k
      · have hne : k ≠ zid := fun h => hid (hk.trans h)
        simp [hk, hne]
      · simp [hid, hk, ih]

theorem inZone_pending (k : ZoneID) :
    (cs.inZone z f).pending k = if k = z.id then f (cs.pending k) else cs.pending k := by
  rw [pending, inZone]
  cases hentry : cs.entry z.id with
  | some e =>
    simp only [entry, find?_modifyEntry]
    by_cases hk : k = z.id
    · subst hk
      rw [entry] at hentry
      simp [hentry, pending, entry]
    · cases hfind : cs.entries.find? fun e => e.zone.id == k <;>
        simp [hk, pending, entry, hfind]
  | none =>
    simp only [entry, find?_append]
    by_cases hk : k = z.id
    · subst hk
      rw [entry] at hentry
      simp [hentry, pending, entry]
    · cases hfind : cs.entries.find? fun e => e.zone.id == k <;>
        simp [hk, Ne.symm hk, pending, entry, hfind]

theorem mem_modifyEntry {α : Type u} (pick : Changes → List α) (P : α → Prop)
    (hf : ∀ c x, x ∈ pick (f c) ↔ x ∈ pick c ∨ P x) {entries : List ZoneChanges}
    (hex : ∃ e ∈ entries, e.zone.id = zid) {x : α} :
    (∃ e ∈ modifyEntry zid f entries, x ∈ pick e.changes) ↔
      (∃ e ∈ entries, x ∈ pick e.changes) ∨ P x := by
  induction entries with
  | nil => simp at hex
  | cons head tail ih =>
    rw [modifyEntry]
    by_cases hid : head.zone.id = zid
    · simp only [if_pos hid, mem_cons, exists_eq_or_imp, hf]
      exact or_right_comm
    · have htail : ∃ e ∈ tail, e.zone.id = zid := by
        obtain ⟨e, he, heid⟩ := hex
        rcases mem_cons.mp he with rfl | he
        · exact absurd heid hid
        · exact ⟨e, he, heid⟩
      simp only [if_neg hid, mem_cons, exists_eq_or_imp, ih htail]
      exact or_assoc.symm

theorem mem_inZone {α : Type u} (pick : Changes → List α) (P : α → Prop)
    (hblank : pick Changes.blank = []) (hf : ∀ c x, x ∈ pick (f c) ↔ x ∈ pick c ∨ P x) {x : α} :
    (∃ e ∈ (cs.inZone z f).entries, x ∈ pick e.changes) ↔
      (∃ e ∈ cs.entries, x ∈ pick e.changes) ∨ P x := by
  rw [inZone]
  cases hentry : cs.entry z.id with
  | some e => exact mem_modifyEntry pick P hf ⟨e, entry_eq_some hentry⟩
  | none =>
    simp only [mem_append, mem_singleton]
    constructor
    · intro h
      obtain ⟨e, he | rfl, hx⟩ := h
      · exact .inl ⟨e, he, hx⟩
      · rcases (hf _ _).mp hx with hx | hx
        · simp [hblank] at hx
        · exact .inr hx
    · intro h
      rcases h with ⟨e, he, hx⟩ | hx
      · exact ⟨e, .inl he, hx⟩
      · exact ⟨_, .inr rfl, (hf _ _).mpr (.inr hx)⟩

variable {x : Record}

theorem mem_deletes : x ∈ cs.deletes ↔ ∃ e ∈ cs.entries, x ∈ e.changes.deletes := by
  simp [deletes, gather]

theorem mem_inserts : x ∈ cs.inserts ↔ ∃ e ∈ cs.entries, x ∈ e.changes.inserts := by
  simp [inserts, gather]

theorem mem_of_pending {α : Type u} (pick : Changes → List α) (hblank : pick Changes.blank = [])
    {x : α} (hx : x ∈ pick (cs.pending zid)) :
    ∃ e ∈ cs.entries, e.zone.id = zid ∧ x ∈ pick e.changes := by
  cases hentry : cs.entry zid with
  | none => simp [pending, hentry, hblank] at hx
  | some e =>
    have hmem := entry_eq_some hentry
    exact ⟨e, hmem.1, hmem.2, by simpa [pending, hentry] using hx⟩

theorem mem_inserts_of_pending (hx : x ∈ (cs.pending zid).inserts) : x ∈ cs.inserts := by
  obtain ⟨e, he, -, hx⟩ := mem_of_pending Changes.inserts rfl hx
  exact mem_inserts.mpr ⟨e, he, hx⟩

theorem mem_updates {x : RecordUpdate} :
    x ∈ cs.updates ↔ ∃ e ∈ cs.entries, x ∈ e.changes.updates := by
  simp [updates]

theorem modifyEntry_updates (hf : ∀ c, (f c).updates = c.updates) (entries : List ZoneChanges) :
    (modifyEntry zid f entries).flatMap (fun e => e.changes.updates) =
      entries.flatMap fun e => e.changes.updates := by
  induction entries with
  | nil => rfl
  | cons head tail ih =>
    rw [modifyEntry]
    split
    · simp [hf]
    · simp [ih]

theorem inZone_updates (hf : ∀ c, (f c).updates = c.updates) :
    (cs.inZone z f).updates = cs.updates := by
  rw [inZone]
  cases cs.entry z.id with
  | some e => exact modifyEntry_updates hf cs.entries
  | none =>
    have hblank : (f Changes.blank).updates = [] := hf _
    simp [updates, hblank]

section Queue

variable {d x : Record}

@[simp]
theorem mem_deletes_remove : x ∈ (cs.inZone z (·.remove d)).deletes ↔ x ∈ cs.deletes ∨ x = d := by
  simp only [mem_deletes]
  exact mem_inZone Changes.deletes (· = d) rfl (by simp)

@[simp]
theorem mem_inserts_remove : x ∈ (cs.inZone z (·.remove d)).inserts ↔ x ∈ cs.inserts := by
  simp only [mem_inserts]
  simpa using mem_inZone Changes.inserts (fun _ => False) rfl (by simp)

@[simp]
theorem updates_remove : (cs.inZone z (·.remove d)).updates = cs.updates :=
  inZone_updates (by simp)

@[simp]
theorem mem_deletes_insert : x ∈ (cs.inZone z (·.insert d)).deletes ↔ x ∈ cs.deletes := by
  simp only [mem_deletes]
  simpa using mem_inZone Changes.deletes (fun _ => False) rfl (by simp)

@[simp]
theorem mem_inserts_insert : x ∈ (cs.inZone z (·.insert d)).inserts ↔ x ∈ cs.inserts ∨ x = d := by
  simp only [mem_inserts]
  exact mem_inZone Changes.inserts (· = d) rfl (by simp)

@[simp]
theorem updates_insert : (cs.inZone z (·.insert d)).updates = cs.updates :=
  inZone_updates (by simp)

end Queue

end ChangeSet

end Wegweiser
