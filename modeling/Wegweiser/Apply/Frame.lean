/-
What each stage of carrying a batch out leaves alone.

Every lemma compares two stores with the tables a stage may change taken away;
that any other table is the same is then one projection.
-/
import Wegweiser.Apply.Batch
import Wegweiser.Store.Spec

namespace Wegweiser

open Checked Store

variable {s t : Store} {now : Nat} {b : Batch}

theorem writeSetting_frame {l : List SettingChange}
    (hrun : l.foldlM (fun s c => s.putSetting c.key c.value) s = .ok t) :
    { t with settings := [] } = { s with settings := [] } := by
  refine foldlM_preserves (fun x : Store => { x with settings := [] }) ?_ hrun
  intro c _ x y hxy
  obtain ⟨-, -, rfl⟩ := putSetting_eq_ok.mp hxy
  rfl

theorem writeKeys_frame {l : List KeyOp} (hrun : l.foldlM (Batch.writeKey now) s = .ok t) :
    { t with keys := [] } = { s with keys := [] } := by
  refine foldlM_preserves (fun x : Store => { x with keys := [] }) ?_ hrun
  intro op _ x y hxy
  cases op with
  | create k =>
    obtain ⟨-, rfl⟩ := createTSIGKey_eq_ok.mp hxy
    rfl
  | revoke id at_ =>
    obtain ⟨-, rfl⟩ := revokeTSIGKey_eq_ok.mp hxy
    rfl

theorem writeTokens_frame {l : List TokenOp} (hrun : l.foldlM (Batch.writeToken now) s = .ok t) :
    { t with tokens := [] } = { s with tokens := [] } := by
  refine foldlM_preserves (fun x : Store => { x with tokens := [] }) ?_ hrun
  intro op _ x y hxy
  cases op with
  | create k =>
    obtain ⟨-, rfl⟩ := createToken_eq_ok.mp hxy
    rfl
  | revoke id at_ =>
    obtain ⟨-, rfl⟩ := revokeToken_eq_ok.mp hxy
    rfl

theorem openZones_frame {l : List ZoneOp} (hrun : l.foldlM (Batch.openZone now) s = .ok t) :
    { t with zones := [] } = { s with zones := [] } := by
  refine foldlM_preserves (fun x : Store => { x with zones := [] }) ?_ hrun
  intro op _ x y hxy
  cases op with
  | create z =>
    obtain ⟨-, -, -, rfl⟩ := createZone_eq_ok.mp hxy
    rfl
  | update z =>
    obtain ⟨-, -, -, rfl⟩ := updateZone_eq_ok.mp hxy
    rfl
  | delete id =>
    cases hxy
    rfl

theorem changeSet_write_frame {cs : ChangeSet} (hrun : cs.write now s = .ok t) :
    { t with records := [] } = { s with records := [] } := by
  simp only [ChangeSet.write, bind_eq_ok] at hrun
  obtain ⟨s₁, hdel, s₂, hupd, hins⟩ := hrun
  have h₁ : ({ s₁ with records := [] } : Store) = { s with records := [] } := by
    refine foldlM_preserves (fun x : Store => { x with records := [] }) ?_ hdel
    intro d _ x y hxy
    obtain ⟨-, rfl⟩ := deleteRecord_eq_ok.mp hxy
    rfl
  have h₂ : ({ s₂ with records := [] } : Store) = { s₁ with records := [] } := by
    refine foldlM_preserves (fun x : Store => { x with records := [] }) ?_ hupd
    intro u _ x y hxy
    obtain ⟨-, -, -, rfl⟩ := updateRecord_eq_ok.mp hxy
    rfl
  have h₃ : ({ t with records := [] } : Store) = { s₂ with records := [] } := by
    refine foldlM_preserves (fun x : Store => { x with records := [] }) ?_ hins
    intro r _ x y hxy
    obtain ⟨-, -, rfl⟩ := insertRecord_eq_ok.mp hxy
    rfl
  exact h₃.trans (h₂.trans h₁)

theorem writeSOA_frame {z : Zone} {ch : Changes} {c : Commit}
    (hok : writeSOA now s z ch c = .ok t) : { t with zones := [] } = { s with zones := [] } := by
  rw [writeSOA] at hok
  split at hok
  · obtain ⟨-, rfl⟩ := setZoneSerial_eq_ok.mp hok
    rfl
  · obtain ⟨_, -, hupdate⟩ := bind_eq_ok.mp hok
    obtain ⟨-, -, -, rfl⟩ := updateZone_eq_ok.mp hupdate
    rfl

namespace Batch

variable {c : Commit} {l : List Commit}

theorem stepSerial_eq_ok :
    b.stepSerial now s c = .ok t ↔
      (∃ e z, b.set.entry c.zoneID = some e ∧ b.zoneOp c.zoneID = none ∧
          s.zoneByID c.zoneID = .ok z ∧ writeSOA now s z e.changes c = .ok t) ∨
        (∃ op, b.zoneOp c.zoneID = some op) ∧ t = s := by
  rw [stepSerial]
  constructor
  · intro hok
    split at hok
    · cases hok
    · next e he hop =>
      obtain ⟨z, hz, hsoa⟩ := bind_eq_ok.mp hok
      exact .inl ⟨e, z, he, hop, hz, hsoa⟩
    · next op hop =>
      cases hok
      exact .inr ⟨⟨op, hop⟩, rfl⟩
  · rintro (⟨e, z, he, hop, hz, hsoa⟩ | ⟨⟨op, hop⟩, rfl⟩)
    · simp only [he, hop, bind_eq_ok]
      exact ⟨z, hz, hsoa⟩
    · simp only [hop]

theorem stepSerial_frame (hok : b.stepSerial now s c = .ok t) :
    { t with zones := [] } = { s with zones := [] } := by
  rcases stepSerial_eq_ok.mp hok with ⟨e, z, -, -, -, hsoa⟩ | ⟨-, rfl⟩
  · exact writeSOA_frame hsoa
  · rfl

theorem writeCommit_eq_ok :
    b.writeCommit now s c = .ok t ↔
      ∃ mid, b.stepSerial now s c = .ok mid ∧ mid.appendCommit now c = .ok t := by
  rw [writeCommit, bind_eq_ok]

theorem writeCommit_frame (hok : b.writeCommit now s c = .ok t) :
    { t with zones := [], commits := [] } = { s with zones := [], commits := [] } := by
  obtain ⟨mid, hstep, happ⟩ := writeCommit_eq_ok.mp hok
  obtain ⟨-, -, -, rfl⟩ := appendCommit_eq_ok.mp happ
  exact congrArg (fun x : Store => { x with commits := [] }) (stepSerial_frame hstep)

theorem writeCommit_commits (hok : b.writeCommit now s c = .ok t) :
    (∀ o ∈ s.commits, o.id ≠ c.id) ∧
      (∀ o ∈ s.commits, o.zoneID = c.zoneID → o.serialTo ≠ c.serialTo) ∧
      t.commits = s.commits ++ [stampedCommit now c] := by
  obtain ⟨mid, hstep, happ⟩ := writeCommit_eq_ok.mp hok
  obtain ⟨-, hid, hserial, rfl⟩ := appendCommit_eq_ok.mp happ
  have hsame : mid.commits = s.commits := (congrArg Store.commits (stepSerial_frame hstep) :)
  rw [hsame] at hid hserial
  exact ⟨hid, hserial, by rw [hsame]⟩

theorem writeCommits_frame (hrun : l.foldlM (b.writeCommit now) s = .ok t) :
    { t with zones := [], commits := [] } = { s with zones := [], commits := [] } :=
  foldlM_preserves (fun x : Store => { x with zones := [], commits := [] })
    (fun _ _ _ _ hxy => writeCommit_frame hxy) hrun

theorem writeCommits_commits (hrun : l.foldlM (b.writeCommit now) s = .ok t) :
    t.commits = s.commits ++ l.map (stampedCommit now) ∧
      ∀ c ∈ l, ∀ o ∈ s.commits, o.id ≠ c.id := by
  induction l generalizing s with
  | nil =>
    rw [foldlM_nil_eq_ok] at hrun
    subst hrun
    simp
  | cons head tail ih =>
    rw [foldlM_cons_eq_ok] at hrun
    obtain ⟨mid, hhead, htail⟩ := hrun
    obtain ⟨hid, -, hmid⟩ := writeCommit_commits hhead
    obtain ⟨hcommits, hnew⟩ := ih htail
    rw [hmid] at hcommits hnew
    refine ⟨by simp [hcommits], ?_⟩
    intro c hc o ho
    rcases List.mem_cons.mp hc with rfl | hc
    · exact hid o ho
    · exact hnew c hc o (List.mem_append_left _ ho)

theorem closeZones_frame {l : List ZoneOp} (hrun : l.foldlM closeZone s = .ok t) :
    { t with zones := [], records := [] } = { s with zones := [], records := [] } := by
  refine foldlM_preserves (fun x : Store => { x with zones := [], records := [] }) ?_ hrun
  intro op _ x y hxy
  cases op with
  | create z | update z =>
    cases hxy
    rfl
  | delete id =>
    obtain ⟨-, rfl⟩ := deleteZone_eq_ok.mp hxy
    rfl

theorem write_eq_ok :
    b.write now s = .ok t ↔
      ∃ s₁ s₂ s₃ s₄ s₅ s₆,
        b.settings.foldlM (fun s c => s.putSetting c.key c.value) s = .ok s₁ ∧
        b.keys.foldlM (writeKey now) s₁ = .ok s₂ ∧
        b.tokens.foldlM (writeToken now) s₂ = .ok s₃ ∧
        b.zones.foldlM (openZone now) s₃ = .ok s₄ ∧
        b.set.write now s₄ = .ok s₅ ∧
        b.commits.foldlM (writeCommit now b) s₅ = .ok s₆ ∧
        b.zones.foldlM closeZone s₆ = .ok t := by
  simp only [write, bind_eq_ok, exists_and_left]

theorem write_commits (hok : b.write now s = .ok t) :
    t.commits = s.commits ++ b.commits.map (stampedCommit now) ∧
      ∀ c ∈ b.commits, ∀ o ∈ s.commits, o.id ≠ c.id := by
  obtain ⟨s₁, s₂, s₃, s₄, s₅, s₆, h₁, h₂, h₃, h₄, h₅, h₆, h₇⟩ := write_eq_ok.mp hok
  have e₁ : s₁.commits = s.commits := (congrArg Store.commits (writeSetting_frame h₁) :)
  have e₂ : s₂.commits = s₁.commits := (congrArg Store.commits (writeKeys_frame h₂) :)
  have e₃ : s₃.commits = s₂.commits := (congrArg Store.commits (writeTokens_frame h₃) :)
  have e₄ : s₄.commits = s₃.commits := (congrArg Store.commits (openZones_frame h₄) :)
  have e₅ : s₅.commits = s₄.commits := (congrArg Store.commits (changeSet_write_frame h₅) :)
  have e₇ : t.commits = s₆.commits := (congrArg Store.commits (closeZones_frame h₇) :)
  obtain ⟨hcommits, hnew⟩ := writeCommits_commits h₆
  rw [e₅, e₄, e₃, e₂, e₁] at hcommits hnew
  exact ⟨e₇.trans hcommits, hnew⟩

end Batch

end Wegweiser
