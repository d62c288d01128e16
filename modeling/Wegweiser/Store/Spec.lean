/-
What each statement of the store needs and does: one inversion lemma for each.
-/
import Wegweiser.Store

namespace Wegweiser

open Checked List

namespace Store

variable {s t : Store} {now : Nat}

/-- What `admits` asks, as propositions. -/
@[mk_iff]
structure Admitted (s : Store) (others : List Record) (r : Record) : Prop where
  id_new : ∀ o ∈ others, o.id ≠ r.id
  unique_new : ∀ o ∈ others, o.unique ≠ r.unique
  zone : ∃ z ∈ s.zones, z.id = r.zoneID
  source : r.managedBy = .empty ∨ r.id = r.managedBy ∨ ∃ o ∈ others, o.id = r.managedBy

variable {r x : Record} {id : RecordID} {z : Zone} {c : Commit} {at_ : Nat} {zid : ZoneID}
  {name : Name}

theorem admits_eq_ok {others : List Record} {u : Unit} :
    s.admits others r = .ok u ↔ s.Admitted others r := by
  simp only [admits, check_eq_ok, ensure_eq_ok, Bool.not_eq_true', any_eq_false,
    any_eq_true, beq_iff_eq, Bool.or_eq_true, mem_cons, exists_eq_or_imp]
  rw [admitted_iff]

theorem insertRecord_eq_ok :
    s.insertRecord now r = .ok t ↔
      r.check = .ok () ∧ s.Admitted s.records r ∧
        t = { s with records := s.records ++ [{ r with createdAt := now, updatedAt := now }] } := by
  simp only [insertRecord, check_eq_ok, return_eq_ok, admits_eq_ok]

/-- The row `UpdateRecord` leaves where it found `o`. -/
def updatedRow (now : Nat) (r o : Record) : Record :=
  if o.id = r.id then { r with createdAt := o.createdAt, updatedAt := now } else o

theorem updateRecord_eq_ok :
    s.updateRecord now r = .ok t ↔
      r.check = .ok () ∧ (∃ o ∈ s.records, o.id = r.id) ∧
        s.Admitted (s.records.filter fun o => o.id != r.id) r ∧
        t = { s with records := s.records.map (updatedRow now r) } := by
  simp only [updateRecord, check_eq_ok, return_eq_ok, admits_eq_ok, ensure_eq_ok, any_eq_true,
    beq_iff_eq]
  exact .rfl

theorem deleteRecord_eq_ok :
    s.deleteRecord id = .ok t ↔
      (∃ o ∈ s.records, o.id = id) ∧ t = { s with records := s.without [id] } := by
  simp only [deleteRecord, check_eq_ok, return_eq_ok, ensure_eq_ok, any_eq_true, beq_iff_eq]

theorem createZone_eq_ok :
    s.createZone now z = .ok t ↔
      z.check = .ok () ∧ (∀ o ∈ s.zones, o.id ≠ z.id) ∧ (∀ o ∈ s.zones, o.name ≠ z.name) ∧
        t = { s with zones := s.zones ++ [{ z with createdAt := now, updatedAt := now }] } := by
  simp only [createZone, check_eq_ok, return_eq_ok, ensure_eq_ok, Bool.not_eq_true',
    any_eq_false, beq_iff_eq]

/-- The row `UpdateZone` leaves where it found `o`. -/
def updatedZone (now : Nat) (z o : Zone) : Zone :=
  if o.id = z.id then { z with createdAt := o.createdAt, updatedAt := now } else o

theorem updateZone_eq_ok :
    s.updateZone now z = .ok t ↔
      z.check = .ok () ∧ (∃ o ∈ s.zones, o.id = z.id) ∧
        (∀ o ∈ s.zones, o.id ≠ z.id → o.name ≠ z.name) ∧
        t = { s with zones := s.zones.map (updatedZone now z) } := by
  simp only [updateZone, check_eq_ok, return_eq_ok, ensure_eq_ok, Bool.not_eq_true',
    any_eq_false, any_eq_true, beq_iff_eq, Bool.and_eq_true, bne_iff_ne, ne_eq, not_and]
  exact .rfl

/-- The row `SetZoneSerial` leaves where it found `o`. -/
def steppedZone (now : Nat) (id : ZoneID) (serial : Serial) (o : Zone) : Zone :=
  if o.id = id then { o with soa := { o.soa with serial }, updatedAt := now } else o

theorem setZoneSerial_eq_ok {id : ZoneID} {serial : Serial} :
    s.setZoneSerial now id serial = .ok t ↔
      (∃ o ∈ s.zones, o.id = id) ∧
        t = { s with zones := s.zones.map (steppedZone now id serial) } := by
  simp only [setZoneSerial, check_eq_ok, return_eq_ok, ensure_eq_ok, any_eq_true, beq_iff_eq]
  exact .rfl

theorem deleteZone_eq_ok {id : ZoneID} :
    s.deleteZone id = .ok t ↔
      (∃ o ∈ s.zones, o.id = id) ∧
        t = { s with
          zones := s.zones.filter fun o => o.id != id
          records := s.without ((s.records.filter fun r => r.zoneID == id).map Record.id) } := by
  simp only [deleteZone, check_eq_ok, return_eq_ok, ensure_eq_ok, any_eq_true, beq_iff_eq]

/-- The row `AppendCommit` writes. -/
def stampedCommit (now : Nat) (c : Commit) : Commit :=
  if c.createdAt = 0 then { c with createdAt := now } else c

@[simp]
theorem stampedCommit_id : (stampedCommit now c).id = c.id := by
  rw [stampedCommit]
  split <;> rfl

@[simp]
theorem stampedCommit_zoneID : (stampedCommit now c).zoneID = c.zoneID := by
  rw [stampedCommit]
  split <;> rfl

@[simp]
theorem stampedCommit_kind : (stampedCommit now c).kind = c.kind := by
  rw [stampedCommit]
  split <;> rfl

@[simp]
theorem stampedCommit_serialFrom : (stampedCommit now c).serialFrom = c.serialFrom := by
  rw [stampedCommit]
  split <;> rfl

@[simp]
theorem stampedCommit_serialTo : (stampedCommit now c).serialTo = c.serialTo := by
  rw [stampedCommit]
  split <;> rfl

theorem appendCommit_eq_ok :
    s.appendCommit now c = .ok t ↔
      c.validate = .ok () ∧ (∀ o ∈ s.commits, o.id ≠ c.id) ∧
        (∀ o ∈ s.commits, o.zoneID = c.zoneID → o.serialTo ≠ c.serialTo) ∧
        t = { s with commits := s.commits ++ [stampedCommit now c] } := by
  simp only [appendCommit, check_eq_ok, return_eq_ok, ensure_eq_ok, Bool.not_eq_true',
    any_eq_false, beq_iff_eq, Bool.and_eq_true, not_and]
  exact .rfl

theorem putSetting_eq_ok {key : String} {value : Octets} :
    s.putSetting key value = .ok t ↔
      key ≠ "" ∧ Json.valid value = true ∧
        t = { s with settings := (key, value) :: s.settings.filter fun kv => kv.1 != key } := by
  simp only [putSetting, check_eq_ok, return_eq_ok, ensure_eq_ok, bne_iff_ne]

/-- What a new transfer key needs. -/
@[mk_iff]
structure KeyFits (s : Store) (k : TSIGKey) : Prop where
  id_valid : k.id.valid = true
  algorithm : k.algorithm.valid = true
  secret : k.secret ≠ []
  id_new : ∀ o ∈ s.keys, o.id ≠ k.id
  name_free : ∀ o ∈ s.keys, o.name = k.name → o.revokedAt ≠ none

theorem createTSIGKey_eq_ok {k : TSIGKey} :
    s.createTSIGKey now k = .ok t ↔
      s.KeyFits k ∧
        t = { s with keys := s.keys ++ [{ k with
          createdAt := if k.createdAt = 0 then now else k.createdAt, revokedAt := none }] } := by
  simp only [createTSIGKey, check_eq_ok, return_eq_ok, ensure_eq_ok, Bool.not_eq_true',
    any_eq_false, beq_iff_eq, Bool.and_eq_true, Option.isNone_iff_eq_none, not_and,
    isEmpty_eq_false_iff, keyFits_iff, and_assoc]

theorem revokeTSIGKey_eq_ok {id : TSIGKeyID} :
    s.revokeTSIGKey id at_ = .ok t ↔ (∃ o ∈ s.keys, o.id = id) ∧
        t = { s with keys := s.keys.map fun o =>
          if o.id = id ∧ o.revokedAt = none then { o with secret := [], revokedAt := some at_ }
          else o } := by
  simp only [revokeTSIGKey, check_eq_ok, return_eq_ok, ensure_eq_ok, any_eq_true, beq_iff_eq]

/-- What a new token needs. -/
@[mk_iff]
structure TokenFits (s : Store) (k : Token) : Prop where
  id_valid : k.id.valid = true
  hash_size : k.hash.length = sha256Size
  id_new : ∀ o ∈ s.tokens, o.id ≠ k.id
  hash_new : ∀ o ∈ s.tokens, o.hash ≠ k.hash

theorem createToken_eq_ok {k : Token} :
    s.createToken now k = .ok t ↔
      s.TokenFits k ∧
        t = { s with tokens := s.tokens ++
          [{ k with createdAt := if k.createdAt = 0 then now else k.createdAt }] } := by
  simp only [createToken, check_eq_ok, return_eq_ok, ensure_eq_ok, Bool.not_eq_true',
    any_eq_false, beq_iff_eq, tokenFits_iff, and_assoc]

theorem revokeToken_eq_ok {id : TokenID} :
    s.revokeToken id at_ = .ok t ↔ (∃ o ∈ s.tokens, o.id = id) ∧
        t = { s with tokens := s.tokens.map fun o =>
          if o.id = id ∧ o.revokedAt = none then { o with revokedAt := some at_ } else o } := by
  simp only [revokeToken, check_eq_ok, return_eq_ok, ensure_eq_ok, any_eq_true, beq_iff_eq]

theorem setAppliedIndex_eq_ok {index : Nat} :
    s.setAppliedIndex index = .ok t ↔
      index ≠ 0 ∧ index ≤ 2 ^ 63 - 1 ∧ t = { s with appliedIndex := index } := by
  simp only [setAppliedIndex, check_eq_ok, return_eq_ok, ensure_eq_ok, bne_iff_ne,
    decide_eq_true_eq]

theorem zoneByID_eq_ok {id : ZoneID} :
    s.zoneByID id = .ok z ↔ s.zones.find? (fun o => o.id == id) = some z := by
  rw [zoneByID]
  cases s.zones.find? fun o => o.id == id <;> simp

theorem recordByID_eq_ok :
    s.recordByID id = .ok r ↔ s.records.find? (fun o => o.id == id) = some r := by
  rw [recordByID]
  cases s.records.find? fun o => o.id == id <;> simp

theorem mem_without {gone : List RecordID} :
    r ∈ s.without gone ↔
      r ∈ s.records ∧ ¬ Links.Below Record.id Record.source s.records (· ∈ gone) r.id :=
  Links.mem_prune

theorem mem_listRecords {p : Record → Bool} : r ∈ s.listRecords p ↔ r ∈ s.records ∧ p r = true := by
  rw [listRecords, (perm_insertionSort _ _).mem_iff, mem_filter]

theorem mem_managedBy : x ∈ s.managedBy id ↔ x ∈ s.records ∧ x.source = some id := by
  rw [managedBy, mem_listRecords, beq_iff_eq]

theorem mem_ownerRecords :
    x ∈ s.ownerRecords zid name ↔ x ∈ s.records ∧ x.zoneID = zid ∧ x.name = name := by
  rw [ownerRecords, mem_listRecords, Bool.and_eq_true, beq_iff_eq, beq_iff_eq]

theorem mem_rrset {key : RRsetKey} :
    x ∈ s.rrset zid key ↔ x ∈ s.records ∧ x.zoneID = zid ∧ x.key = key := by
  rw [rrset, mem_filter, mem_ownerRecords, beq_iff_eq]
  constructor
  · intro h
    exact ⟨h.1.1, h.1.2.1, h.2⟩
  · intro h
    exact ⟨⟨h.1, h.2.1, congrArg RRsetKey.name h.2.2⟩, h.2.2⟩

theorem mem_of_reverseZoneFor {addr : Addr} (h : s.reverseZoneFor addr = some z) : z ∈ s.zones := by
  have hfold (l : List Zone) (best : Option Zone) (hbest : ∀ b ∈ best, b ∈ s.zones)
      (hl : ∀ o ∈ l, o ∈ s.zones) : ∀ b ∈ l.foldl longerPrefix best, b ∈ s.zones := by
    induction l generalizing best with
    | nil => exact hbest
    | cons head tail ih =>
      refine ih _ (fun b hb => ?_) fun o ho => hl o (mem_cons_of_mem _ ho)
      cases best with
      | none =>
        cases hb
        exact hl head mem_cons_self
      | some old =>
        rw [longerPrefix] at hb
        split at hb
        · cases hb
          exact hl head mem_cons_self
        · exact hbest b hb
  exact hfold _ none (by simp) (fun o ho => (mem_filter.mp ho).1) z h

theorem mem_of_zoneByName (h : s.zoneByName name = some z) : z ∈ s.zones ∧ z.name = name :=
  ⟨mem_of_find?_eq_some h, by simpa using find?_some h⟩

end Store

end Wegweiser
