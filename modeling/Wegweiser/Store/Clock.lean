/-
The store's clock decides nothing.

Two stores are alike when they differ only in the times their rows carry and in the log position
they have recorded.
-/
import Wegweiser.Lib.Agree
import Wegweiser.Store.Spec

namespace Wegweiser

open Checked Record

def Record.erase (r : Record) : Record := { r with createdAt := 0, updatedAt := 0 }

def Zone.erase (z : Zone) : Zone := { z with createdAt := 0, updatedAt := 0 }

def Commit.erase (c : Commit) : Commit := { c with createdAt := 0 }

def TSIGKey.erase (k : TSIGKey) : TSIGKey := { k with createdAt := 0 }

def Token.erase (t : Token) : Token := { t with createdAt := 0, lastUsedAt := none }

namespace Store

/-- The same rows in the same order, up to the times they carry. -/
structure Alike (s t : Store) : Prop where
  zones : Rows.Agree Zone.erase s.zones t.zones
  records : Rows.Agree erase s.records t.records
  commits : Rows.Agree Commit.erase s.commits t.commits
  settings : s.settings = t.settings
  keys : Rows.Agree TSIGKey.erase s.keys t.keys
  tokens : Rows.Agree Token.erase s.tokens t.tokens

namespace Alike

variable {s t u s' : Store} {now : Nat}

theorem refl (s : Store) : Alike s s := ⟨rfl, rfl, rfl, rfl, rfl, rfl⟩

theorem symm (h : Alike s t) : Alike t s :=
  ⟨h.zones.symm, h.records.symm, h.commits.symm, h.settings.symm, h.keys.symm, h.tokens.symm⟩

theorem trans (h : Alike s t) (h' : Alike t u) : Alike s u :=
  ⟨h.zones.trans h'.zones, h.records.trans h'.records, h.commits.trans h'.commits,
    h.settings.trans h'.settings, h.keys.trans h'.keys, h.tokens.trans h'.tokens⟩

variable {r : Record} {id : ZoneID} {z : Zone} {at_ : Nat}

theorem admitted (h : Alike s t) {others others' : List Record}
    (ho : Rows.Agree erase others others') (hadm : s.Admitted others r) :
    t.Admitted others' r where
  id_new := (ho.forall_iff fun o => o.id ≠ r.id).mp hadm.id_new
  unique_new := (ho.forall_iff fun o => o.unique ≠ r.unique).mp hadm.unique_new
  zone := (h.zones.exists_iff fun z => z.id = r.zoneID).mp hadm.zone
  source := hadm.source.imp_right
    (Or.imp_right (ho.exists_iff fun o => o.id = r.managedBy).mp)

theorem without (h : Alike s t) (gone : List RecordID) :
    Rows.Agree erase (s.without gone) (t.without gone) :=
  h.records.prune Record.id Record.source (fun _ => rfl) (fun _ => rfl) gone

theorem insertRecord (h : Alike s t) (now' : Nat) (hok : s.insertRecord now r = .ok s') :
    ∃ t', t.insertRecord now' r = .ok t' ∧ Alike s' t' := by
  obtain ⟨hcheck, hadm, rfl⟩ := insertRecord_eq_ok.mp hok
  refine ⟨_, insertRecord_eq_ok.mpr ⟨hcheck, h.admitted h.records hadm, rfl⟩, ?_⟩
  exact { h with records := h.records.append rfl }

theorem updateRecord (h : Alike s t) (now' : Nat) (hok : s.updateRecord now r = .ok s') :
    ∃ t', t.updateRecord now' r = .ok t' ∧ Alike s' t' := by
  obtain ⟨hcheck, hex, hadm, rfl⟩ := updateRecord_eq_ok.mp hok
  have hothers := h.records.filter (p := fun o => o.id != r.id) (fun o => o.id != r.id)
    fun _ => rfl
  have hex' := (h.records.exists_iff fun o => o.id = r.id).mp hex
  refine ⟨_, updateRecord_eq_ok.mpr ⟨hcheck, hex', h.admitted hothers hadm, rfl⟩, ?_⟩
  refine { h with records := ?_ }
  refine h.records.map (fun o => if o.id = r.id then r.erase else o) ?_ ?_ <;>
  · intro o
    by_cases hid : o.id = r.id <;> simp [updatedRow, erase, hid]

theorem deleteRecord (h : Alike s t) {id : RecordID} (hok : s.deleteRecord id = .ok s') :
    ∃ t', t.deleteRecord id = .ok t' ∧ Alike s' t' := by
  obtain ⟨hex, rfl⟩ := deleteRecord_eq_ok.mp hok
  have hex' := (h.records.exists_iff fun o => o.id = id).mp hex
  exact ⟨_, deleteRecord_eq_ok.mpr ⟨hex', rfl⟩, { h with records := h.without [id] }⟩

theorem createZone (h : Alike s t) (now' : Nat) (hok : s.createZone now z = .ok s') :
    ∃ t', t.createZone now' z = .ok t' ∧ Alike s' t' := by
  obtain ⟨hcheck, hid, hname, rfl⟩ := createZone_eq_ok.mp hok
  have hid' := (h.zones.forall_iff fun o => o.id ≠ z.id).mp hid
  have hname' := (h.zones.forall_iff fun o => o.name ≠ z.name).mp hname
  refine ⟨_, createZone_eq_ok.mpr ⟨hcheck, hid', hname', rfl⟩, ?_⟩
  exact { h with zones := h.zones.append rfl }

theorem updateZone (h : Alike s t) (now' : Nat) {z' : Zone} (hz : z.erase = z'.erase)
    (hok : s.updateZone now z = .ok s') : ∃ t', t.updateZone now' z' = .ok t' ∧ Alike s' t' := by
  obtain ⟨hcheck, hex, hname, rfl⟩ := updateZone_eq_ok.mp hok
  have hid : z.erase.id = z'.erase.id := congrArg Zone.id hz
  have hzname : z.erase.name = z'.erase.name := congrArg Zone.name hz
  have hcheck' : z.erase.check = z'.erase.check := congrArg Zone.check hz
  change z.id = z'.id at hid
  change z.name = z'.name at hzname
  change z.check = z'.check at hcheck'
  rw [hid] at hex hname
  rw [hzname] at hname
  have hex' := (h.zones.exists_iff fun o => o.id = z'.id).mp hex
  have hname' := (h.zones.forall_iff fun o => o.id ≠ z'.id → o.name ≠ z'.name).mp hname
  have hrows : Rows.Agree Zone.erase (s.zones.map (updatedZone now z))
      (t.zones.map (updatedZone now' z')) := by
    refine h.zones.map (fun o => if o.id = z'.id then z'.erase else o) ?_ ?_
    · intro o
      change (updatedZone now z o).erase = if o.id = z'.id then z'.erase else o.erase
      by_cases ho : o.id = z'.id
      · rw [updatedZone, if_pos (ho.trans hid.symm), if_pos ho, ← hz]
        rfl
      · rw [updatedZone, if_neg (fun hz' => ho (hz'.trans hid)), if_neg ho]
    · intro o
      by_cases ho : o.id = z'.id <;> simp [updatedZone, Zone.erase, ho]
  exact ⟨_, updateZone_eq_ok.mpr ⟨hcheck' ▸ hcheck, hex', hname', rfl⟩,
    { h with zones := hrows }⟩

theorem setZoneSerial (h : Alike s t) (now' : Nat) {serial : Serial}
    (hok : s.setZoneSerial now id serial = .ok s') :
    ∃ t', t.setZoneSerial now' id serial = .ok t' ∧ Alike s' t' := by
  obtain ⟨hex, rfl⟩ := setZoneSerial_eq_ok.mp hok
  have hex' := (h.zones.exists_iff fun o => o.id = id).mp hex
  have hrows : Rows.Agree Zone.erase (s.zones.map (steppedZone now id serial))
      (t.zones.map (steppedZone now' id serial)) := by
    refine h.zones.map
      (fun o => if o.id = id then { o with soa := { o.soa with serial } } else o) ?_ ?_ <;>
    · intro o
      by_cases ho : o.id = id <;> simp [steppedZone, Zone.erase, ho]
  exact ⟨_, setZoneSerial_eq_ok.mpr ⟨hex', rfl⟩, { h with zones := hrows }⟩

theorem deleteZone (h : Alike s t) (hok : s.deleteZone id = .ok s') :
    ∃ t', t.deleteZone id = .ok t' ∧ Alike s' t' := by
  obtain ⟨hex, rfl⟩ := deleteZone_eq_ok.mp hok
  have hex' := (h.zones.exists_iff fun o => o.id = id).mp hex
  have hgone : (s.records.filter fun r => r.zoneID == id).map Record.id =
      (t.records.filter fun r => r.zoneID == id).map Record.id :=
    (h.records.filter (fun r => r.zoneID == id) fun _ => rfl).map_eq Record.id fun _ => rfl
  refine ⟨_, deleteZone_eq_ok.mpr ⟨hex', rfl⟩, ?_⟩
  rw [hgone]
  exact { h with
    zones := h.zones.filter (fun o => o.id != id) fun _ => rfl
    records := h.without _ }

theorem appendCommit (h : Alike s t) (now' : Nat) {c : Commit} (hok : s.appendCommit now c = .ok s') :
    ∃ t', t.appendCommit now' c = .ok t' ∧ Alike s' t' := by
  obtain ⟨hvalid, hid, hserial, rfl⟩ := appendCommit_eq_ok.mp hok
  have hid' := (h.commits.forall_iff fun o => o.id ≠ c.id).mp hid
  have hserial' := (h.commits.forall_iff fun o =>
    o.zoneID = c.zoneID → o.serialTo ≠ c.serialTo).mp hserial
  refine ⟨_, appendCommit_eq_ok.mpr ⟨hvalid, hid', hserial', rfl⟩, ?_⟩
  refine { h with commits := h.commits.append ?_ }
  by_cases hzero : c.createdAt = 0 <;> simp [Rows.Agree, stampedCommit, Commit.erase, hzero]

theorem putSetting (h : Alike s t) {key : String} {value : Octets}
    (hok : s.putSetting key value = .ok s') :
    ∃ t', t.putSetting key value = .ok t' ∧ Alike s' t' := by
  obtain ⟨hkey, hvalid, rfl⟩ := putSetting_eq_ok.mp hok
  refine ⟨_, putSetting_eq_ok.mpr ⟨hkey, hvalid, rfl⟩, ?_⟩
  exact { h with settings := by rw [h.settings] }

theorem createTSIGKey (h : Alike s t) (now' : Nat) {k : TSIGKey} (hok : s.createTSIGKey now k = .ok s') :
    ∃ t', t.createTSIGKey now' k = .ok t' ∧ Alike s' t' := by
  obtain ⟨hfits, rfl⟩ := createTSIGKey_eq_ok.mp hok
  have hfits' : t.KeyFits k :=
    { hfits with
      id_new := (h.keys.forall_iff fun o => o.id ≠ k.id).mp hfits.id_new
      name_free := (h.keys.forall_iff fun o => o.name = k.name → o.revokedAt ≠ none).mp
        hfits.name_free }
  exact ⟨_, createTSIGKey_eq_ok.mpr ⟨hfits', rfl⟩, { h with keys := h.keys.append rfl }⟩

theorem revokeTSIGKey (h : Alike s t) {id : TSIGKeyID} (hok : s.revokeTSIGKey id at_ = .ok s') :
    ∃ t', t.revokeTSIGKey id at_ = .ok t' ∧ Alike s' t' := by
  obtain ⟨hex, rfl⟩ := revokeTSIGKey_eq_ok.mp hok
  have hex' := (h.keys.exists_iff fun o => o.id = id).mp hex
  refine ⟨_, revokeTSIGKey_eq_ok.mpr ⟨hex', rfl⟩, { h with keys := ?_ }⟩
  refine h.keys.map (fun o =>
    if o.id = id ∧ o.revokedAt = none then { o with secret := [], revokedAt := some at_ }
    else o) ?_ ?_ <;>
  · intro o
    by_cases ho : o.id = id ∧ o.revokedAt = none <;> simp [TSIGKey.erase, ho]

theorem createToken (h : Alike s t) (now' : Nat) {k : Token} (hok : s.createToken now k = .ok s') :
    ∃ t', t.createToken now' k = .ok t' ∧ Alike s' t' := by
  obtain ⟨hfits, rfl⟩ := createToken_eq_ok.mp hok
  have hfits' : t.TokenFits k :=
    { hfits with
      id_new := (h.tokens.forall_iff fun o => o.id ≠ k.id).mp hfits.id_new
      hash_new := (h.tokens.forall_iff fun o => o.hash ≠ k.hash).mp hfits.hash_new }
  exact ⟨_, createToken_eq_ok.mpr ⟨hfits', rfl⟩, { h with tokens := h.tokens.append rfl }⟩

theorem revokeToken (h : Alike s t) {id : TokenID} (hok : s.revokeToken id at_ = .ok s') :
    ∃ t', t.revokeToken id at_ = .ok t' ∧ Alike s' t' := by
  obtain ⟨hex, rfl⟩ := revokeToken_eq_ok.mp hok
  have hex' := (h.tokens.exists_iff fun o => o.id = id).mp hex
  refine ⟨_, revokeToken_eq_ok.mpr ⟨hex', rfl⟩, { h with tokens := ?_ }⟩
  refine h.tokens.map (fun o =>
    if o.id = id ∧ o.revokedAt = none then { o with revokedAt := some at_ } else o) ?_ ?_ <;>
  · intro o
    by_cases ho : o.id = id ∧ o.revokedAt = none <;> simp [Token.erase, ho]

theorem zoneByID (h : Alike s t) (hok : s.zoneByID id = .ok z) :
    ∃ z', t.zoneByID id = .ok z' ∧ z.erase = z'.erase := by
  have hfind := h.zones.find?_eq (p := fun o => o.id == id) (fun o => o.id == id) fun _ => rfl
  rw [zoneByID_eq_ok] at hok
  rw [hok] at hfind
  obtain ⟨z', hz', heq⟩ := Option.map_eq_some_iff.mp hfind.symm
  exact ⟨z', zoneByID_eq_ok.mpr hz', heq.symm⟩

end Alike

end Store

end Wegweiser
