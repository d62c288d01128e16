/-
What a cluster replicates of a store: streaming it out, and putting it back in place of
what another store holds.

The rows are streamed in the order the tables hold them.
-/
import Wegweiser.Store.Clock

namespace Wegweiser

open Checked List

inductive Replicated where
  | setting (key : String) (value : Octets)
  | token (t : Token)
  | key (k : TSIGKey)
  | zone (z : Zone)
  | record (r : Record)
  | commit (c : Commit)
deriving DecidableEq

namespace Store

/-- `Reader.ExportReplicated`. When a token was last used travels nowhere. -/
def exportReplicated (s : Store) : List Replicated :=
  s.settings.reverse.map (fun kv => .setting kv.1 kv.2) ++
    s.tokens.map (fun t => .token { t with lastUsedAt := none }) ++
    s.keys.map .key ++ s.zones.map .zone ++ s.records.map .record ++ s.commits.map .commit

/-- `restore.zone` -/
def restoreZone (s : Store) (z : Zone) : Except Err Store := do
  z.check
  ensure (z.createdAt != 0) (.invalid "the zone arrived without the time it was created")
  ensure (!s.zones.any fun o => o.id == z.id || o.name == z.name)
    (.conflict "the snapshot holds the zone twice")
  pure { s with zones := s.zones ++ [z] }

/-- `restore.record`; what the record points at is looked for once everything is in. -/
def restoreRecord (s : Store) (r : Record) : Except Err Store := do
  r.check
  ensure (r.createdAt != 0) (.invalid "the record arrived without the time it was created")
  ensure (!s.records.any fun o => o.id == r.id || o.unique == r.unique)
    (.conflict "the snapshot holds the record twice")
  pure { s with records := s.records ++ [r] }

/-- `restore.key`, revoked or not. -/
def restoreKey (s : Store) (k : TSIGKey) : Except Err Store := do
  ensure (k.createdAt != 0) (.invalid "the key arrived without the time it was created")
  ensure (k.id.valid && (k.revokedAt.isNone == !k.secret.isEmpty)) (.failed "the key's columns")
  ensure (!s.keys.any fun o => o.id == k.id ||
      (o.name == k.name && o.revokedAt.isNone && k.revokedAt.isNone))
    (.conflict "the snapshot holds the key twice")
  pure { s with keys := s.keys ++ [k] }

/-- `restore.write` -/
def restoreItem (now : Nat) (s : Store) : Replicated → Except Err Store
  | .setting key value => s.putSetting key value
  | .token t => s.createToken now t
  | .key k => s.restoreKey k
  | .zone z => s.restoreZone z
  | .record r => s.restoreRecord r
  | .commit c => s.appendCommit now c

def referenced (s : Store) : Bool :=
  s.records.all fun r =>
    s.zones.any (fun z => z.id == r.zoneID) &&
      (r.managedBy == .empty || s.records.any fun o => o.id == r.managedBy)

def replaceReplicated (now index : Nat) (items : List Replicated) (s : Store) :
    Except Err Store := do
  ensure (index != 0) (.failed "zero is no position in a log, and a restore arrives from one")
  let t ← items.foldlM (restoreItem now) ⟨[], [], [], [], [], [], s.appliedIndex⟩
  let t ← t.setAppliedIndex index
  ensure t.referenced (.failed "the foreign keys")
  pure t

def KeysSettings (s : Store) : Prop :=
  (s.settings.map Prod.fst).Nodup

instance (s : Store) : Decidable s.KeysSettings :=
  inferInstanceAs (Decidable (s.settings.map Prod.fst).Nodup)

section Restored

variable {s t : Store} {now : Nat}

theorem restoreSettings_eq {l : List (String × Octets)} (hkeys : (l.map Prod.fst).Nodup)
    (hnew : ∀ kv ∈ l, kv.1 ∉ s.settings.map Prod.fst)
    (hrun : (l.map fun kv => Replicated.setting kv.1 kv.2).foldlM (restoreItem now) s = .ok t) :
    t = { s with settings := l.reverse ++ s.settings } := by
  induction l generalizing s with
  | nil =>
    cases hrun
    rfl
  | cons head tail ih =>
    obtain ⟨mid, hhead, htail⟩ := foldlM_cons_eq_ok.mp hrun
    obtain ⟨-, -, rfl⟩ := putSetting_eq_ok.mp hhead
    rw [map_cons, nodup_cons] at hkeys
    have hkept : (s.settings.filter fun kv => kv.1 != head.1) = s.settings := by
      refine filter_eq_self.mpr fun kv hkv => bne_iff_ne.mpr fun hsame => ?_
      exact hnew head mem_cons_self (mem_map.mpr ⟨kv, hkv, hsame⟩)
    rw [hkept] at htail
    rw [ih hkeys.2 ?_ htail]
    · simp
    · intro kv hkv hmem
      rcases mem_cons.mp hmem with hsame | hmem
      · exact hkeys.1 (mem_map.mpr ⟨kv, hkv, hsame⟩)
      · exact hnew kv (mem_cons_of_mem head hkv) hmem

theorem restoreRows_eq {α β : Type} {f : α → β} {item : α → Replicated}
    (put : Store → List α → Store) (hnil : ∀ s, put s [] = s)
    (happend : ∀ s l l', put (put s l) l' = put s (l ++ l'))
    (hstep : ∀ s t a, restoreItem now s (item a) = .ok t → ∃ a', f a' = f a ∧ t = put s [a'])
    {l : List α} (hrun : (l.map item).foldlM (restoreItem now) s = .ok t) :
    ∃ l', Rows.Agree f l' l ∧ t = put s l' := by
  induction l generalizing s with
  | nil =>
    cases hrun
    exact ⟨[], rfl, (hnil _).symm⟩
  | cons head tail ih =>
    obtain ⟨mid, hhead, htail⟩ := foldlM_cons_eq_ok.mp hrun
    obtain ⟨a, ha, rfl⟩ := hstep s mid head hhead
    obtain ⟨l', hagree, rfl⟩ := ih htail
    refine ⟨a :: l', ?_, happend s [a] l'⟩
    rw [Rows.Agree, map_cons, map_cons, ha, hagree]

theorem restoreTokens_eq {l : List Token}
    (hrun : (l.map fun t => Replicated.token { t with lastUsedAt := none }).foldlM
      (restoreItem now) s = .ok t) :
    ∃ l', Rows.Agree Token.erase l' l ∧ t = { s with tokens := s.tokens ++ l' } := by
  refine restoreRows_eq (fun s l => { s with tokens := s.tokens ++ l }) (by simp) (by simp)
    (fun s t a hok => ?_) hrun
  obtain ⟨-, rfl⟩ := createToken_eq_ok.mp hok
  exact ⟨{ a with
    lastUsedAt := none, createdAt := if a.createdAt = 0 then now else a.createdAt }, rfl, rfl⟩

theorem restoreKeys_eq {l : List TSIGKey}
    (hrun : (l.map Replicated.key).foldlM (restoreItem now) s = .ok t) :
    ∃ l', Rows.Agree TSIGKey.erase l' l ∧ t = { s with keys := s.keys ++ l' } := by
  refine restoreRows_eq (fun s l => { s with keys := s.keys ++ l }) (by simp) (by simp)
    (fun s t a hok => ?_) hrun
  simp only [restoreItem, restoreKey, bind_eq_ok, pure_eq_ok] at hok
  obtain ⟨-, -, -, -, -, -, rfl⟩ := hok
  exact ⟨a, rfl, rfl⟩

theorem restoreZones_eq {l : List Zone}
    (hrun : (l.map Replicated.zone).foldlM (restoreItem now) s = .ok t) :
    ∃ l', Rows.Agree Zone.erase l' l ∧ t = { s with zones := s.zones ++ l' } := by
  refine restoreRows_eq (fun s l => { s with zones := s.zones ++ l }) (by simp) (by simp)
    (fun s t a hok => ?_) hrun
  simp only [restoreItem, restoreZone, bind_eq_ok, pure_eq_ok] at hok
  obtain ⟨-, -, -, -, -, -, rfl⟩ := hok
  exact ⟨a, rfl, rfl⟩

theorem restoreRecords_eq {l : List Record}
    (hrun : (l.map Replicated.record).foldlM (restoreItem now) s = .ok t) :
    ∃ l', Rows.Agree Record.erase l' l ∧ t = { s with records := s.records ++ l' } := by
  refine restoreRows_eq (fun s l => { s with records := s.records ++ l }) (by simp) (by simp)
    (fun s t a hok => ?_) hrun
  simp only [restoreItem, restoreRecord, bind_eq_ok, pure_eq_ok] at hok
  obtain ⟨-, -, -, -, -, -, rfl⟩ := hok
  exact ⟨a, rfl, rfl⟩

theorem restoreCommits_eq {l : List Commit}
    (hrun : (l.map Replicated.commit).foldlM (restoreItem now) s = .ok t) :
    ∃ l', Rows.Agree Commit.erase l' l ∧ t = { s with commits := s.commits ++ l' } := by
  refine restoreRows_eq (fun s l => { s with commits := s.commits ++ l }) (by simp) (by simp)
    (fun s t a hok => ?_) hrun
  obtain ⟨-, -, -, rfl⟩ := appendCommit_eq_ok.mp hok
  refine ⟨stampedCommit now a, ?_, rfl⟩
  rw [stampedCommit]
  split <;> rfl

theorem replaceReplicated_alike {index : Nat} {u : Store} (hkeys : u.KeysSettings)
    (hok : s.replaceReplicated now index u.exportReplicated = .ok t) :
    Alike u t ∧ t.appliedIndex = index := by
  simp only [replaceReplicated, bind_eq_ok, pure_eq_ok] at hok
  obtain ⟨-, -, rows, hrows, mid, hindex, -, -, rfl⟩ := hok
  obtain ⟨-, -, rfl⟩ := setAppliedIndex_eq_ok.mp hindex
  simp only [exportReplicated, foldlM_append_eq_ok] at hrows
  obtain ⟨s₅, ⟨s₄, ⟨s₃, ⟨s₂, ⟨s₁, h₁, h₂⟩, h₃⟩, h₄⟩, h₅⟩, h₆⟩ := hrows
  have e₁ := restoreSettings_eq (by rw [map_reverse]; exact nodup_reverse.mpr hkeys)
    (by simp) h₁
  obtain ⟨tokens, htokens, e₂⟩ := restoreTokens_eq h₂
  obtain ⟨keys, hkeys, e₃⟩ := restoreKeys_eq h₃
  obtain ⟨zones, hzones, e₄⟩ := restoreZones_eq h₄
  obtain ⟨records, hrecords, e₅⟩ := restoreRecords_eq h₅
  obtain ⟨commits, hcommits, e₆⟩ := restoreCommits_eq h₆
  subst e₁ e₂ e₃ e₄ e₅ e₆
  refine ⟨⟨?_, ?_, ?_, ?_, ?_, ?_⟩, rfl⟩
  · exact hzones.symm
  · exact hrecords.symm
  · exact hcommits.symm
  · simp
  · exact hkeys.symm
  · exact htokens.symm

end Restored

end Store

end Wegweiser
