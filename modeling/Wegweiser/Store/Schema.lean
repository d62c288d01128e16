/-
Every table of a database the schema and the checks in front of it allow.

A sound store is one whose zones, records and journal are in order.
-/
import Wegweiser.Store.Replicated
import Wegweiser.Store.Sound

namespace Wegweiser

open Checked List Links

namespace Store

def liveNames (s : Store) : List Name :=
  (s.keys.filter fun k => k.revokedAt.isNone).map TSIGKey.name

/-- The constraints of the schema on every table, and the checks every row has passed. -/
structure Schema (s : Store) : Prop extends Sound s where
  commits : ∀ c ∈ s.commits, c.validate = .ok ()
  setting_keys : s.KeysSettings
  settings : ∀ kv ∈ s.settings, kv.1 ≠ "" ∧ Json.valid kv.2 = true
  key_ids : (s.keys.map TSIGKey.id).Nodup
  key_names : s.liveNames.Nodup
  keys : ∀ k ∈ s.keys, k.id.valid = true ∧ k.revokedAt.isNone = !k.secret.isEmpty
  token_ids : (s.tokens.map Token.id).Nodup
  token_hashes : (s.tokens.map Token.hash).Nodup
  tokens : ∀ t ∈ s.tokens, t.id.valid = true ∧ t.hash.length = sha256Size

/-- Every row says when it was created. -/
structure Timed (s : Store) : Prop where
  zones : ∀ z ∈ s.zones, z.createdAt ≠ 0
  records : ∀ r ∈ s.records, r.createdAt ≠ 0
  commits : ∀ c ∈ s.commits, c.createdAt ≠ 0
  keys : ∀ k ∈ s.keys, k.createdAt ≠ 0
  tokens : ∀ t ∈ s.tokens, t.createdAt ≠ 0

namespace Schema

variable {s t : Store} {now : Nat}

theorem blank : Schema ⟨[], [], [], [], [], [], 0⟩ where
  __ := Sound.empty
  commits := by simp
  setting_keys := nodup_nil
  settings := by simp
  key_ids := nodup_nil
  key_names := nodup_nil
  keys := by simp
  token_ids := nodup_nil
  token_hashes := nodup_nil
  tokens := by simp

theorem of_sound (h : s.Schema) (hsound : t.Sound) (hcommits : t.commits = s.commits)
    (hsettings : t.settings = s.settings) (hkeys : t.keys = s.keys)
    (htokens : t.tokens = s.tokens) : t.Schema where
  __ := hsound
  commits := hcommits ▸ h.commits
  setting_keys := by rw [KeysSettings, hsettings]; exact h.setting_keys
  settings := hsettings ▸ h.settings
  key_ids := hkeys ▸ h.key_ids
  key_names := by rw [liveNames, hkeys]; exact h.key_names
  keys := hkeys ▸ h.keys
  token_ids := htokens ▸ h.token_ids
  token_hashes := htokens ▸ h.token_hashes
  tokens := htokens ▸ h.tokens

theorem appendCommit (h : s.Schema) {c : Commit} (hok : s.appendCommit now c = .ok t) :
    t.Schema := by
  have hsound := h.toSound.appendCommit hok
  obtain ⟨hvalid, -, -, rfl⟩ := appendCommit_eq_ok.mp hok
  refine { h with toSound := hsound, commits := forall_mem_concat h.commits ?_ }
  rw [stampedCommit]
  split
  · exact hvalid
  · exact hvalid

theorem putSetting (h : s.Schema) {key : String} {value : Octets}
    (hok : s.putSetting key value = .ok t) : t.Schema := by
  obtain ⟨hkey, hvalid, rfl⟩ := putSetting_eq_ok.mp hok
  refine { h with setting_keys := ?_, settings := fun kv hkv => ?_ }
  · rw [KeysSettings, map_cons, nodup_cons]
    refine ⟨fun hmem => ?_, h.setting_keys.sublist (filter_sublist.map Prod.fst)⟩
    obtain ⟨kv, hkv, hsame⟩ := mem_map.mp hmem
    have hne := (mem_filter.mp hkv).2
    rw [bne_iff_ne] at hne
    exact hne hsame
  · rcases mem_cons.mp hkv with rfl | hkv
    · exact ⟨hkey, hvalid⟩
    · exact h.settings kv (mem_of_mem_filter hkv)

theorem createTSIGKey (h : s.Schema) {k : TSIGKey} (hok : s.createTSIGKey now k = .ok t) :
    t.Schema := by
  obtain ⟨hfits, rfl⟩ := createTSIGKey_eq_ok.mp hok
  refine { h with
    key_ids := nodup_concat h.key_ids hfits.id_new
    key_names := ?_
    keys := forall_mem_concat h.keys ?_ }
  · rw [liveNames, filter_append]
    refine nodup_concat h.key_names fun o ho heq => ?_
    obtain ⟨hmem, hlive⟩ := mem_filter.mp ho
    exact hfits.name_free o hmem heq (Option.isNone_iff_eq_none.mp hlive)
  · have hsecret : k.secret.isEmpty = false := by simpa using hfits.secret
    exact ⟨hfits.id_valid, by simp [hsecret]⟩

theorem mapKeys (h : s.Schema) {f : TSIGKey → TSIGKey} (hid : ∀ o, (f o).id = o.id)
    (hname : ∀ o, (f o).name = o.name)
    (hlive : ∀ o, (f o).revokedAt.isNone = true → o.revokedAt.isNone = true)
    (hkeys : ∀ o ∈ s.keys, (f o).revokedAt.isNone = !(f o).secret.isEmpty) :
    { s with keys := s.keys.map f }.Schema where
  __ := h
  key_ids := by simpa [Function.comp_def, hid] using h.key_ids
  key_names := by
    have hsub : (s.keys.filter fun o => (f o).revokedAt.isNone).Sublist
        (s.keys.filter fun o => o.revokedAt.isNone) :=
      monotone_filter_right _ fun o ho => hlive o ho
    refine h.key_names.sublist ?_
    simpa [liveNames, filter_map, Function.comp_def, hname] using hsub.map TSIGKey.name
  keys k hk := by
    obtain ⟨o, ho, rfl⟩ := mem_map.mp hk
    rw [hid]
    exact ⟨(h.keys o ho).1, hkeys o ho⟩

variable {at_ : Nat}

theorem revokeTSIGKey (h : s.Schema) {id : TSIGKeyID}
    (hok : s.revokeTSIGKey id at_ = .ok t) : t.Schema := by
  obtain ⟨-, rfl⟩ := revokeTSIGKey_eq_ok.mp hok
  refine h.mapKeys (fun o => ?_) (fun o => ?_) (fun o ho => ?_) fun o ho => ?_
  · split <;> rfl
  · split <;> rfl
  · split at ho
    · cases ho
    · exact ho
  · split
    · rfl
    · exact (h.keys o ho).2

theorem createToken (h : s.Schema) {k : Token} (hok : s.createToken now k = .ok t) : t.Schema := by
  obtain ⟨hfits, rfl⟩ := createToken_eq_ok.mp hok
  exact { h with
    token_ids := nodup_concat h.token_ids hfits.id_new
    token_hashes := nodup_concat h.token_hashes hfits.hash_new
    tokens := forall_mem_concat h.tokens ⟨hfits.id_valid, hfits.hash_size⟩ }

theorem mapTokens (h : s.Schema) {f : Token → Token} (hid : ∀ o, (f o).id = o.id)
    (hhash : ∀ o, (f o).hash = o.hash) : { s with tokens := s.tokens.map f }.Schema where
  __ := h
  token_ids := by simpa [Function.comp_def, hid] using h.token_ids
  token_hashes := by simpa [Function.comp_def, hhash] using h.token_hashes
  tokens k hk := by
    obtain ⟨o, ho, rfl⟩ := mem_map.mp hk
    rw [hid, hhash]
    exact h.tokens o ho

theorem revokeToken (h : s.Schema) {id : TokenID} (hok : s.revokeToken id at_ = .ok t) :
    t.Schema := by
  obtain ⟨-, rfl⟩ := revokeToken_eq_ok.mp hok
  refine h.mapTokens (fun o => ?_) fun o => ?_
  · split <;> rfl
  · split <;> rfl

end Schema

namespace Timed

variable {s t : Store} {now : Nat}

theorem blank : Timed ⟨[], [], [], [], [], [], 0⟩ := by
  constructor <;> simp

variable {r : Record} {id : ZoneID} {z : Zone} {at_ : Nat}

theorem insertRecord (h : s.Timed) (hnow : now ≠ 0) (hok : s.insertRecord now r = .ok t) :
    t.Timed := by
  obtain ⟨-, -, rfl⟩ := insertRecord_eq_ok.mp hok
  exact { h with records := forall_mem_concat h.records hnow }

theorem updateRecord (h : s.Timed) (hok : s.updateRecord now r = .ok t) : t.Timed := by
  obtain ⟨-, -, -, rfl⟩ := updateRecord_eq_ok.mp hok
  refine { h with records := fun p hp => ?_ }
  obtain ⟨o, ho, rfl⟩ := mem_map.mp hp
  rw [updatedRow]
  split
  · exact h.records o ho
  · exact h.records o ho

theorem deleteRecord (h : s.Timed) {id : RecordID} (hok : s.deleteRecord id = .ok t) : t.Timed := by
  obtain ⟨-, rfl⟩ := deleteRecord_eq_ok.mp hok
  exact { h with records := fun o ho => h.records o (mem_without.mp ho).1 }

theorem createZone (h : s.Timed) (hnow : now ≠ 0) (hok : s.createZone now z = .ok t) : t.Timed := by
  obtain ⟨-, -, -, rfl⟩ := createZone_eq_ok.mp hok
  exact { h with zones := forall_mem_concat h.zones hnow }

theorem updateZone (h : s.Timed) (hok : s.updateZone now z = .ok t) : t.Timed := by
  obtain ⟨-, -, -, rfl⟩ := updateZone_eq_ok.mp hok
  refine { h with zones := fun p hp => ?_ }
  obtain ⟨o, ho, rfl⟩ := mem_map.mp hp
  rw [updatedZone]
  split
  · exact h.zones o ho
  · exact h.zones o ho

theorem setZoneSerial (h : s.Timed) {serial : Serial}
    (hok : s.setZoneSerial now id serial = .ok t) : t.Timed := by
  obtain ⟨-, rfl⟩ := setZoneSerial_eq_ok.mp hok
  refine { h with zones := fun p hp => ?_ }
  obtain ⟨o, ho, rfl⟩ := mem_map.mp hp
  rw [steppedZone]
  split
  · exact h.zones o ho
  · exact h.zones o ho

theorem deleteZone (h : s.Timed) (hok : s.deleteZone id = .ok t) : t.Timed := by
  obtain ⟨-, rfl⟩ := deleteZone_eq_ok.mp hok
  exact { h with
    zones := fun o ho => h.zones o (mem_of_mem_filter ho)
    records := fun o ho => h.records o (mem_without.mp ho).1 }

theorem appendCommit (h : s.Timed) (hnow : now ≠ 0) {c : Commit}
    (hok : s.appendCommit now c = .ok t) : t.Timed := by
  obtain ⟨-, -, -, rfl⟩ := appendCommit_eq_ok.mp hok
  refine { h with commits := forall_mem_concat h.commits ?_ }
  rw [stampedCommit]
  split
  · exact hnow
  · assumption

theorem putSetting (h : s.Timed) {key : String} {value : Octets}
    (hok : s.putSetting key value = .ok t) : t.Timed := by
  obtain ⟨-, -, rfl⟩ := putSetting_eq_ok.mp hok
  exact { h with }

theorem given (hnow : now ≠ 0) (at_ : Nat) : (if at_ = 0 then now else at_) ≠ 0 := by
  split
  · exact hnow
  · assumption

theorem createTSIGKey (h : s.Timed) (hnow : now ≠ 0) {k : TSIGKey}
    (hok : s.createTSIGKey now k = .ok t) : t.Timed := by
  obtain ⟨-, rfl⟩ := createTSIGKey_eq_ok.mp hok
  exact { h with keys := forall_mem_concat h.keys (given hnow k.createdAt) }

theorem revokeTSIGKey (h : s.Timed) {id : TSIGKeyID}
    (hok : s.revokeTSIGKey id at_ = .ok t) : t.Timed := by
  obtain ⟨-, rfl⟩ := revokeTSIGKey_eq_ok.mp hok
  refine { h with keys := fun p hp => ?_ }
  obtain ⟨o, ho, rfl⟩ := mem_map.mp hp
  split
  · exact h.keys o ho
  · exact h.keys o ho

theorem createToken (h : s.Timed) (hnow : now ≠ 0) {k : Token}
    (hok : s.createToken now k = .ok t) : t.Timed := by
  obtain ⟨-, rfl⟩ := createToken_eq_ok.mp hok
  exact { h with tokens := forall_mem_concat h.tokens (given hnow k.createdAt) }

theorem mapTokens (h : s.Timed) {f : Token → Token} (hcreated : ∀ o, (f o).createdAt = o.createdAt) :
    { s with tokens := s.tokens.map f }.Timed := by
  refine { h with tokens := fun p hp => ?_ }
  obtain ⟨o, ho, rfl⟩ := mem_map.mp hp
  rw [hcreated]
  exact h.tokens o ho

theorem revokeToken (h : s.Timed) {id : TokenID} (hok : s.revokeToken id at_ = .ok t) :
    t.Timed := by
  obtain ⟨-, rfl⟩ := revokeToken_eq_ok.mp hok
  refine h.mapTokens fun o => ?_
  split <;> rfl

end Timed

end Store

end Wegweiser
