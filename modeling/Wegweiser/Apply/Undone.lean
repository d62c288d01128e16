/-
What a rollback asks for: the range of history it takes back, read record by
record, as removals, updates and additions in one zone.
-/
import Wegweiser.Apply.Asked

namespace Wegweiser

open Checked List

def Store.standing (s : Store) (zid : ZoneID) (k : RdataKey) : Option Record :=
  (s.ownerRecords zid k.name).find? fun r => r.rdataKey == k

def Store.Missing (s : Store) (zid : ZoneID) (kv : RdataKey × Event) : Prop :=
  s.standing zid kv.1 = none ∧ kv.2.op = .del

def undoRemoves (s : Store) (zid : ZoneID) (kv : RdataKey × Event) : List Record :=
  match kv.2.op with
  | .add => (s.standing zid kv.1).toList.filter fun cur => !cur.isManaged
  | .del => []

def undoUpdates (s : Store) (zid : ZoneID) (kv : RdataKey × Event) : List RecordUpdate :=
  match kv.2.op with
  | .add => []
  | .del =>
    ((s.standing zid kv.1).toList.filter fun cur =>
      !cur.isManaged && cur.ttl != kv.2.ttl).map fun cur => ⟨cur, { cur with ttl := kv.2.ttl }⟩

/-- A record put back for one key. -/
structure Restores (env : Env) (zid : ZoneID) (kv : RdataKey × Event) (i : Record) : Prop where
  restored : ∃ r n, newRecord env.lib zid kv.1.name kv.1.cls kv.1.type kv.2.ttl
    kv.1.rdata.text = .ok r ∧ i = { r with id := env.mint n }

/-- The records a rollback puts back for the keys of a range. -/
structure Restored (env : Env) (s : Store) (zid : ZoneID) (keys : List (RdataKey × Event))
    (inserts : List Record) : Prop where
  sound : ∀ i ∈ inserts, ∃ kv ∈ keys, s.Missing zid kv ∧ Restores env zid kv i
  complete : ∀ kv ∈ keys, s.Missing zid kv → ∃ i ∈ inserts, Restores env zid kv i

def UndoneSOA (z : Zone) (soa : Option SOAChange) : Option Event → Prop
  | none => soa = none
  | some e => ∃ was, parseSOAData e.rdata.text = .ok was ∧
      soa = if sameSOA z.soa { was with ttl := e.ttl, serial := z.soa.serial } then none
        else some ⟨z.soa, { was with ttl := e.ttl, serial := z.soa.serial }⟩

namespace ChangeSet

variable {z : Zone} {ch : Changes} {policy : Option Policy}

theorem inZone_singleton (f : Changes → Changes) :
    (⟨[⟨z, ch⟩], policy⟩ : ChangeSet).inZone z f = ⟨[⟨z, f ch⟩], policy⟩ := by
  simp [inZone, entry, modifyEntry]

@[simp]
theorem pending_singleton : (⟨[⟨z, ch⟩], policy⟩ : ChangeSet).pending z.id = ch := by
  simp [pending, entry]

end ChangeSet

namespace Env

variable {env : Env} {s : Store} {z : Zone} {w w' : Work} {ch : Changes}

theorem undoSOA_eq_ok {e : Option Event} (hw : w.cs = ⟨[⟨z, ch⟩], none⟩) (hsoa : ch.soa = none)
    (hok : undoSOA w z e = .ok w') :
    ∃ soa, UndoneSOA z soa e ∧ w'.cs = ⟨[⟨z, { ch with soa }⟩], none⟩ ∧ w'.res = w.res := by
  cases e with
  | none =>
    cases hok
    refine ⟨none, rfl, ?_, rfl⟩
    rw [hw, ← hsoa]
  | some e =>
    obtain ⟨was, hwas, hrest⟩ := bind_eq_ok.mp hok
    rw [pure_eq_ok] at hrest
    subst hrest
    refine ⟨_, ⟨was, hwas, rfl⟩, ?_⟩
    split
    · exact ⟨by rw [hw, ← hsoa], rfl⟩
    · exact ⟨by rw [Work.inZone, hw, ChangeSet.inZone_singleton], rfl⟩

variable {kv : RdataKey × Event} {events : List Event}

theorem undoOne_asks (hw : w.cs = ⟨[⟨z, ch⟩], none⟩) (hok : env.undoOne s z w kv = .ok w') :
    ∃ ch' inserts, w'.cs = ⟨[⟨z, ch'⟩], none⟩ ∧ w'.res = w.res ∧
      ch.Asks ch' (undoRemoves s z.id kv) (undoUpdates s z.id kv) inserts [] ∧
      Restored env s z.id [kv] inserts := by
  obtain ⟨k, e⟩ := kv
  have hnone {inserts : List Record} (hnot : ¬s.Missing z.id (k, e)) (hins : inserts = []) :
      Restored env s z.id [(k, e)] inserts := by
    subst hins
    refine ⟨fun _ hi => absurd hi not_mem_nil, fun kv hkv hmissing => ?_⟩
    rw [mem_singleton.mp hkv] at hmissing
    exact absurd hmissing hnot
  rw [undoOne] at hok
  dsimp only at hok
  rw [show ((s.ownerRecords z.id k.name).find? fun r => r.rdataKey == k) = s.standing z.id k from rfl]
    at hok
  cases hstanding : s.standing z.id k with
  | none =>
    rw [hstanding] at hok
    cases hop : e.op with
    | add =>
      rw [hop] at hok
      cases hok
      refine ⟨ch, [], hw, rfl, ?_, hnone (by simp [Store.Missing, hop]) rfl⟩
      constructor <;> simp [undoRemoves, undoUpdates, hop, hstanding, ownersOf]
    | del =>
      rw [hop] at hok
      obtain ⟨r, hr, hrest⟩ := bind_eq_ok.mp hok
      cases hrest
      refine ⟨ch.insert { r with id := env.mint w.minted }, [{ r with id := env.mint w.minted }],
        ?_, rfl, ?_, ?_⟩
      · rw [Work.inZone, hw, ChangeSet.inZone_singleton]
      · constructor <;> simp [undoRemoves, undoUpdates, hop, hstanding, ownersOf]
      · have hrestores : Restores env z.id (k, e) { r with id := env.mint w.minted } :=
          ⟨r, w.minted, hr, rfl⟩
        constructor
        · intro i hi
          rw [mem_singleton.mp hi]
          exact ⟨(k, e), mem_singleton_self _, ⟨hstanding, hop⟩, hrestores⟩
        · intro kv hkv _
          rw [mem_singleton.mp hkv]
          exact ⟨_, mem_singleton_self _, hrestores⟩
  | some cur =>
    have hnot : ¬s.Missing z.id (k, e) := by simp [Store.Missing, hstanding]
    rw [hstanding] at hok
    dsimp only at hok
    by_cases hmanaged : cur.isManaged = true
    · rw [if_pos hmanaged] at hok
      cases hok
      refine ⟨ch, [], hw, rfl, ?_, hnone hnot rfl⟩
      cases hop : e.op <;>
        constructor <;> simp [undoRemoves, undoUpdates, hop, hstanding, hmanaged, ownersOf]
    · rw [if_neg hmanaged] at hok
      cases hop : e.op with
      | add =>
        rw [hop] at hok
        cases hok
        refine ⟨ch.remove cur, [], by rw [Work.inZone, hw, ChangeSet.inZone_singleton], rfl, ?_,
          hnone hnot rfl⟩
        constructor <;> simp [undoRemoves, undoUpdates, hop, hstanding, hmanaged, ownersOf]
      | del =>
        rw [hop] at hok
        dsimp only at hok
        by_cases httl : cur.ttl = e.ttl
        · rw [if_pos httl] at hok
          cases hok
          refine ⟨ch, [], hw, rfl, ?_, hnone hnot rfl⟩
          constructor <;> simp [undoRemoves, undoUpdates, hop, hstanding, httl, ownersOf]
        · rw [if_neg httl] at hok
          cases hok
          refine ⟨ch.update cur { cur with ttl := e.ttl }, [],
            by rw [Work.inZone, hw, ChangeSet.inZone_singleton], rfl, ?_, hnone hnot rfl⟩
          constructor <;> simp [undoRemoves, undoUpdates, hop, hstanding, hmanaged, httl, ownersOf]

theorem undoOnes_ask {keys : List (RdataKey × Event)} (hw : w.cs = ⟨[⟨z, ch⟩], none⟩)
    (hok : keys.foldlM (env.undoOne s z) w = .ok w') :
    ∃ ch' inserts, w'.cs = ⟨[⟨z, ch'⟩], none⟩ ∧ w'.res = w.res ∧
      ch.Asks ch' (keys.flatMap (undoRemoves s z.id)) (keys.flatMap (undoUpdates s z.id))
        inserts [] ∧
      Restored env s z.id keys inserts := by
  induction keys generalizing w ch with
  | nil =>
    cases hok
    exact ⟨ch, [], hw, rfl, Changes.Asks.refl, fun _ hi => absurd hi not_mem_nil,
      fun _ hkv => absurd hkv not_mem_nil⟩
  | cons head tail ih =>
    obtain ⟨mid, hhead, htail⟩ := foldlM_cons_eq_ok.mp hok
    obtain ⟨ch₁, inserts₁, hcs₁, hres₁, hasks₁, hrest₁⟩ := undoOne_asks hw hhead
    obtain ⟨ch₂, inserts₂, hcs₂, hres₂, hasks₂, hrest₂⟩ := ih hcs₁ htail
    refine ⟨ch₂, inserts₁ ++ inserts₂, hcs₂, hres₂.trans hres₁, hasks₁.trans hasks₂, ?_, ?_⟩
    · intro i hi
      rcases mem_append.mp hi with hi | hi
      · obtain ⟨kv, hkv, hrest⟩ := hrest₁.sound i hi
        rw [mem_singleton.mp hkv] at hrest
        exact ⟨head, mem_cons_self, hrest⟩
      · obtain ⟨kv, hkv, hrest⟩ := hrest₂.sound i hi
        exact ⟨kv, mem_cons_of_mem _ hkv, hrest⟩
    · intro kv hkv hmissing
      rcases mem_cons.mp hkv with rfl | hkv
      · obtain ⟨i, hi, hrest⟩ := hrest₁.complete kv (mem_singleton_self _) hmissing
        exact ⟨i, mem_append_left _ hi, hrest⟩
      · obtain ⟨i, hi, hrest⟩ := hrest₂.complete kv hkv hmissing
        exact ⟨i, mem_append_right _ hi, hrest⟩

def undoKeys (env : Env) (events : List Event) : List (RdataKey × Event) :=
  env.mapOrder (firstEvents events)

theorem mem_undoKeys : kv ∈ env.undoKeys events ↔ kv ∈ firstEvents events :=
  (env.mapOrder_perm _).mem_iff

theorem undo_asks (hok : env.undo s z events (Work.blank.inZone z id) = .ok w') :
    ∃ soa ch inserts, w'.cs = ⟨[⟨z, ch⟩], none⟩ ∧ w'.res = Result.blank ∧
      UndoneSOA z soa (firstSOA events) ∧ ({ Changes.blank with soa } : Changes).Asks ch
        ((env.undoKeys events).flatMap (undoRemoves s z.id))
        ((env.undoKeys events).flatMap (undoUpdates s z.id)) inserts [] ∧
      Restored env s z.id (env.undoKeys events) inserts := by
  obtain ⟨mid, hsoa, hkeys⟩ := bind_eq_ok.mp hok
  obtain ⟨soa, hundone, hmid, hres⟩ :=
    undoSOA_eq_ok (show (Work.blank.inZone z id).cs = ⟨[⟨z, Changes.blank⟩], none⟩ from rfl) rfl
      hsoa
  obtain ⟨ch, inserts, hcs, hres', hasks, hrestored⟩ := undoOnes_ask hmid hkeys
  exact ⟨soa, ch, inserts, hcs, hres'.trans hres, hundone, hasks, hrestored⟩

end Env

section Members

variable {s : Store} {zid : ZoneID} {kv : RdataKey × Event} {r : Record}

theorem Store.standing_eq_some {k : RdataKey} (h : s.standing zid k = some r) :
    r ∈ s.records ∧ r.zoneID = zid ∧ r.rdataKey = k := by
  have hmem := Store.mem_ownerRecords.mp (mem_of_find?_eq_some h)
  exact ⟨hmem.1, hmem.2.1, by simpa using find?_some h⟩

theorem mem_undoRemoves :
    r ∈ undoRemoves s zid kv ↔
      kv.2.op = .add ∧ s.standing zid kv.1 = some r ∧ r.isManaged = false := by
  rw [undoRemoves]
  cases hop : kv.2.op with
  | add => simp [Option.mem_toList]
  | del => simp

theorem mem_undoUpdates {u : RecordUpdate} :
    u ∈ undoUpdates s zid kv ↔
      kv.2.op = .del ∧ s.standing zid kv.1 = some u.before ∧ u.before.isManaged = false ∧
        u.before.ttl ≠ kv.2.ttl ∧ u.after = { u.before with ttl := kv.2.ttl } := by
  rw [undoUpdates]
  cases hop : kv.2.op with
  | add => simp
  | del =>
    simp only [mem_map, mem_filter, Option.mem_toList,
      Bool.and_eq_true, Bool.not_eq_true', bne_iff_ne, true_and]
    constructor
    · intro h
      obtain ⟨cur, ⟨hcur, hmanaged, httl⟩, rfl⟩ := h
      exact ⟨hcur, hmanaged, httl, rfl⟩
    · intro h
      obtain ⟨hcur, hmanaged, httl, hafter⟩ := h
      refine ⟨u.before, ⟨hcur, hmanaged, httl⟩, ?_⟩
      rw [← hafter]

end Members

end Wegweiser
