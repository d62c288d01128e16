/-
Carrying a planned batch out again.

A batch is planned by writing it once and throwing the writes away.
-/
import Wegweiser.Apply.Planned
import Wegweiser.Apply.Statements
import Wegweiser.Store.Clock

namespace Wegweiser

open Checked List Store Batch

variable {s t s' : Store} {now : Nat} {b : Batch}

theorem Statement.execSOA_follow {R : Store → Store → Prop} {now' : Nat} {id : ZoneID} {soa : SOA}
    (hzone : ∀ z, s.zoneByID id = .ok z → ∃ z', t.zoneByID id = .ok z' ∧ z.erase = z'.erase)
    (hwrite : ∀ z z' : Zone, z.id = id → z.erase = z'.erase → s.updateZone now z = .ok s' →
      ∃ t', t.updateZone now' z' = .ok t' ∧ R s' t')
    (hok : execSOA now s id soa = .ok s') : ∃ t', execSOA now' t id soa = .ok t' ∧ R s' t' := by
  obtain ⟨z, hz, hrest⟩ := bind_eq_ok.mp hok
  obtain ⟨u, hvalid, hupdate⟩ := bind_eq_ok.mp hrest
  obtain ⟨z', hz', heq⟩ := hzone z hz
  have hid : z.id = id := by
    rw [zoneByID_eq_ok] at hz
    simpa using find?_some hz
  have hnext : ({ z with soa } : Zone).erase = ({ z' with soa } : Zone).erase :=
    (congrArg (fun o : Zone => { o with soa }) heq :)
  have hvalid' : ({ z' with soa } : Zone).validate = .ok u := by
    rw [← hvalid]
    exact (congrArg Zone.validate hnext.symm :)
  obtain ⟨t', hok', hR⟩ := hwrite { z with soa } { z' with soa } hid hnext hupdate
  exact ⟨t', bind_eq_ok.mpr ⟨z', hz', bind_eq_ok.mpr ⟨u, hvalid', hok'⟩⟩, hR⟩

theorem Store.Alike.exec (h : Store.Alike s t) (now' : Nat) {st : Statement}
    (hok : Statement.exec now s st = .ok s') :
    ∃ t', Statement.exec now' t st = .ok t' ∧ Alike s' t' := by
  cases st with
  | putSetting key value => exact h.putSetting hok
  | createTSIGKey k => exact h.createTSIGKey now' hok
  | revokeTSIGKey id at_ => exact h.revokeTSIGKey hok
  | createToken k => exact h.createToken now' hok
  | revokeToken id at_ => exact h.revokeToken hok
  | createZone z => exact h.createZone now' hok
  | updateZone z => exact h.updateZone now' rfl hok
  | deleteRecord id => exact h.deleteRecord hok
  | updateRecord r => exact h.updateRecord now' hok
  | insertRecord r => exact h.insertRecord now' hok
  | setZoneSerial id serial => exact h.setZoneSerial now' hok
  | setSOA id soa =>
    exact Statement.execSOA_follow (fun z hz => h.zoneByID hz)
      (fun z z' _ hz hok => h.updateZone now' hz hok) hok
  | appendCommit c => exact h.appendCommit now' hok
  | deleteZone id => exact h.deleteZone hok
  | refuse e => cases hok

namespace Batch

theorem write_alike (h : Alike s t) (now' : Nat) (hok : b.write now s = .ok s') :
    ∃ t', b.write now' t = .ok t' ∧ Alike s' t' := by
  rw [write_eq_statements] at hok ⊢
  exact foldlM_simulation _ Alike (fun st _ x y x' hxy hx => hxy.exec now' hx) hok h

theorem applied_eq_false (hnew : ∀ c ∈ b.commits, ∀ o ∈ s.commits, o.id ≠ c.id) :
    b.applied s = .ok false := by
  have hnone : (b.commits.filter fun c => (s.commitByID c.id).isSome) = [] := by
    rw [filter_eq_nil_iff]
    intro c hc
    simpa [commitByID] using hnew c hc
  simp [applied, hnone, ensure, bind, Except.bind, pure, Except.pure]

theorem writeOnce_accepted (hok : b.write now s = .ok t) : accepted (b.writeOnce now s) := by
  rw [writeOnce]
  split
  · exact ⟨s, rfl⟩
  · have hnew := (write_commits hok).2
    exact ⟨t, bind_eq_ok.mpr ⟨false, applied_eq_false hnew, hok⟩⟩

theorem apply_of_planned (hplanned : b.planned now s = .ok ()) (hcommits : b.commits ≠ [])
    (hok : b.apply now s = .ok t) : b.write now s = .ok t := by
  have hempty : b.empty = false := by
    simp [empty, isEmpty_eq_false_iff.mpr hcommits]
  obtain ⟨u, hwrite, -⟩ := bind_eq_ok.mp hplanned
  have hnew := applied_eq_false (write_commits hwrite).2
  simpa [apply, applyAt, writeOnce, hempty, hnew, bind_eq_ok] using hok

theorem writeOnce_eq_write (hempty : b.empty = false) (hcommits : b.commits = []) :
    b.writeOnce now s = b.write now s := by
  have happlied : b.applied s = .ok false := applied_eq_false (by simp [hcommits])
  rw [writeOnce, hempty, happlied]
  rfl

theorem applied_alike (h : Alike s t) : b.applied s = b.applied t := by
  have hsome (id : CommitID) : (s.commitByID id).isSome = (t.commitByID id).isSome := by
    have hfind := h.commits.find?_eq (p := fun o => o.id == id) (fun o => o.id == id) fun _ => rfl
    simpa [commitByID] using congrArg Option.isSome hfind
  simp only [applied, hsome]

theorem writeOnce_alike (h : Alike s t) (now' : Nat) (hok : b.writeOnce now s = .ok s') :
    ∃ t', b.writeOnce now' t = .ok t' ∧ Alike s' t' := by
  rw [writeOnce] at hok ⊢
  by_cases hempty : b.empty = true
  · rw [if_pos hempty] at hok ⊢
    cases hok
    exact ⟨t, rfl, h⟩
  · rw [if_neg hempty] at hok ⊢
    obtain ⟨done, hdone, hrest⟩ := bind_eq_ok.mp hok
    rw [applied_alike h] at hdone
    cases done with
    | true =>
      cases hrest
      exact ⟨t, bind_eq_ok.mpr ⟨true, hdone, rfl⟩, h⟩
    | false =>
      obtain ⟨t', ht', halike⟩ := write_alike h now' hrest
      exact ⟨t', bind_eq_ok.mpr ⟨false, hdone, ht'⟩, halike⟩

theorem applyAt_eq_ok {index : Nat} (hindex : s.appliedIndex < index) :
    b.applyAt now index s = .ok t ↔
      index ≤ 2 ^ 63 - 1 ∧ ∃ mid, b.writeOnce now s = .ok mid ∧
        t = { mid with appliedIndex := index } := by
  have hpos : index ≠ 0 := by omega
  have hahead : ¬ index ≤ s.appliedIndex := by omega
  simp only [applyAt, beq_eq_false_iff_ne.mpr hpos, Bool.and_false, Bool.false_eq_true, if_false,
    hahead, decide_false, hpos, bind_eq_ok, setAppliedIndex_eq_ok]
  constructor
  · rintro ⟨mid, hwrite, -, hle, rfl⟩
    exact ⟨hle, mid, hwrite, rfl⟩
  · rintro ⟨hle, mid, hwrite, rfl⟩
    exact ⟨mid, hwrite, hpos, hle, rfl⟩

theorem applyAt_alike (h : Alike s t) (now' : Nat) {index : Nat}
    (hs : s.appliedIndex < index) (ht : t.appliedIndex < index)
    (hok : b.applyAt now index s = .ok s') :
    ∃ t', b.applyAt now' index t = .ok t' ∧ Alike s' t' := by
  obtain ⟨hle, mid, hmid, rfl⟩ := (applyAt_eq_ok hs).mp hok
  obtain ⟨mid', hmid', halike⟩ := writeOnce_alike h now' hmid
  exact ⟨_, (applyAt_eq_ok ht).mpr ⟨hle, mid', hmid', rfl⟩,
    ⟨halike.zones, halike.records, halike.commits, halike.settings, halike.keys, halike.tokens⟩⟩

theorem applyAt_accepted {index : Nat} (hindex : s.appliedIndex < index) :
    accepted (b.applyAt now index s) ↔
      accepted (b.writeOnce now s) ∧ index ≤ 2 ^ 63 - 1 := by
  constructor
  · rintro ⟨t, ht⟩
    obtain ⟨hle, mid, hmid, -⟩ := (applyAt_eq_ok hindex).mp ht
    exact ⟨⟨mid, hmid⟩, hle⟩
  · rintro ⟨⟨mid, hmid⟩, hle⟩
    exact ⟨_, (applyAt_eq_ok hindex).mpr ⟨hle, mid, hmid, rfl⟩⟩

theorem planned_eq_ok {u : Unit} :
    b.planned now s = .ok u ↔ ∃ t, b.write now s = .ok t ∧ b.validate t = .ok () := by
  simp only [planned, bind_eq_ok]

theorem write_blank : blank.write now s = .ok s :=
  rfl

end Batch

def Operation.onZones : Operation → Bool
  | .command _ | .createZone .. | .updateZone .. | .deleteZone .. | .rollback .. | .reconcile .. =>
    true
  | _ => false

namespace Env

variable {env : Env} {op : Operation} {res : Result}

theorem commitUnlessEmpty_writes {w : Work} {primary : Zone} {kind : CommitKind}
    {revertsTo : Option Serial} {info : Meta} {out : Batch × Result}
    (hplan : env.commitUnlessEmpty s w primary kind revertsTo info = .ok out) :
    accepted (out.1.write env.now s) := by
  rcases commitUnlessEmpty_eq_ok.mp hplan with ⟨-, rfl⟩ | ⟨-, _, _, -, hplanned, rfl⟩
  · exact ⟨s, write_blank⟩
  · obtain ⟨t, hwrite, -⟩ := planned_eq_ok.mp hplanned
    exact ⟨t, hwrite⟩

theorem planOp_writes (hplan : env.planOp s op = .ok (b, res)) (hop : op.onZones = true) :
    accepted (b.write env.now s) := by
  have hfinish {b' : Batch} (h : b'.planned env.now s = .ok ()) :
      accepted (b'.write env.now s) :=
    let ⟨t, hwrite, _⟩ := planned_eq_ok.mp h
    ⟨t, hwrite⟩
  cases op with
  | command cmd =>
    obtain ⟨-, z, ch, w, -, -, -, -, hout⟩ := planCommand_eq_ok.mp hplan
    exact commitUnlessEmpty_writes hout
  | createZone z records info =>
    obtain ⟨-, -, -, w, commits, minted, -, -, hplanned, hout⟩ :=
      planCreateZone_eq_ok.mp hplan
    cases hout
    exact hfinish hplanned
  | updateZone z info =>
    obtain ⟨-, before, -, -, ⟨-, hout⟩ | ⟨-, events, -, hplanned, hout⟩⟩ :=
      planUpdateZone_eq_ok.mp hplan
    · cases hout
      exact ⟨s, write_blank⟩
    · cases hout
      exact hfinish hplanned
  | deleteZone zid info =>
    obtain ⟨z, w, commits, minted, -, -, -, hplanned, hout⟩ := planDeleteZone_eq_ok.mp hplan
    cases hout
    exact hfinish hplanned
  | rollback zid target info =>
    obtain ⟨z, -, ⟨-, hout⟩ | ⟨-, -, -, since, undone, w, -, -, -, hout⟩⟩ :=
      planRollback_eq_ok.mp hplan
    · cases hout
      exact ⟨s, write_blank⟩
    · exact commitUnlessEmpty_writes hout
  | reconcile zid info =>
    obtain ⟨z, w, -, -, hout⟩ := planReconcile_eq_ok.mp hplan
    exact commitUnlessEmpty_writes hout
  | settings _ | createKey _ _ _ | revokeKey _ | createToken _ | revokeToken _ _ => cases hop

theorem planSettings_writes {changes : List SettingChange}
    (hplan : planSettings changes = .ok (b, res)) : accepted (b.write now s) := by
  simp only [planSettings, bind_eq_ok, pure_eq_ok, forM_eq_ok, ensure_eq_ok, bne_iff_ne,
    Prod.mk.injEq] at hplan
  obtain ⟨_, hvalid, rfl, -⟩ := hplan
  have hrun : accepted (changes.foldlM (fun s c => s.putSetting c.key c.value) s) := by
    induction changes generalizing s with
    | nil => exact ⟨s, rfl⟩
    | cons head tail ih =>
      obtain ⟨⟨⟩, hkey, hjson⟩ := hvalid head (by simp)
      obtain ⟨t, ht⟩ := ih (fun c hc => hvalid c (mem_cons_of_mem _ hc))
      exact ⟨t, foldlM_cons_eq_ok.mpr
        ⟨_, putSetting_eq_ok.mpr ⟨hkey, hjson, rfl⟩, ht⟩⟩
  obtain ⟨t, ht⟩ := hrun
  refine ⟨t, write_eq_ok.mpr ⟨t, t, t, t, t, t, ht, rfl, rfl, rfl, rfl, rfl, rfl⟩⟩

/-- What the store will ask of a key or a token that its planner does not look at. -/
def Carriable (env : Env) (s : Store) : Operation → Prop
  | .createKey name _ _ =>
    ∀ k ∈ s.keys, k.id ≠ env.mint 0 ∧ (k.name = name → k.revokedAt ≠ none)
  | .revokeKey id => ∃ k ∈ s.keys, k.id = id
  | .createToken t => s.TokenFits t
  | .revokeToken id _ => ∃ t ∈ s.tokens, t.id = id
  | _ => True

theorem key_batch_accepted {kop : KeyOp} :
    accepted (({ Batch.blank with keys := [kop] } : Batch).writeOnce now s) ↔
      accepted (writeKey now s kop) := by
  rw [writeOnce_eq_write rfl rfl]
  constructor
  · rintro ⟨t, ht⟩
    obtain ⟨s₁, s₂, -, -, -, -, h₁, h₂, -⟩ := write_eq_ok.mp ht
    obtain ⟨mid, hmid, -⟩ := foldlM_cons_eq_ok.mp h₂
    cases h₁
    exact ⟨mid, hmid⟩
  · rintro ⟨t, ht⟩
    have hone : [kop].foldlM (writeKey now) s = .ok t :=
      foldlM_cons_eq_ok.mpr ⟨t, ht, rfl⟩
    exact ⟨t, write_eq_ok.mpr ⟨s, t, t, t, t, t, rfl, hone, rfl, rfl, rfl, rfl, rfl⟩⟩

theorem token_batch_accepted {top : TokenOp} :
    accepted (({ Batch.blank with tokens := [top] } : Batch).writeOnce now s) ↔
      accepted (writeToken now s top) := by
  rw [writeOnce_eq_write rfl rfl]
  constructor
  · rintro ⟨t, ht⟩
    obtain ⟨s₁, s₂, s₃, -, -, -, h₁, h₂, h₃, -⟩ := write_eq_ok.mp ht
    obtain ⟨mid, hmid, -⟩ := foldlM_cons_eq_ok.mp h₃
    cases h₁
    cases h₂
    exact ⟨mid, hmid⟩
  · rintro ⟨t, ht⟩
    have hone : [top].foldlM (writeToken now) s = .ok t :=
      foldlM_cons_eq_ok.mpr ⟨t, ht, rfl⟩
    exact ⟨t, write_eq_ok.mpr ⟨s, s, t, t, t, t, rfl, rfl, hone, rfl, rfl, rfl, rfl⟩⟩

theorem planCreateKey_carriable {name : Name} {algorithm : TSIGAlgorithm} {secret : Octets}
    (hplan : env.planCreateKey name algorithm secret = .ok (b, res)) :
    accepted (b.writeOnce now s) ↔ env.Carriable s (.createKey name algorithm secret) := by
  simp only [planCreateKey, bind_eq_ok, pure_eq_ok, ensure_eq_ok, Prod.mk.injEq] at hplan
  obtain ⟨-, halg, -, hsecret, rfl, -⟩ := hplan
  have hne : secret ≠ [] := by simpa using hsecret
  rw [key_batch_accepted]
  constructor
  · rintro ⟨t, ht⟩ k hk
    have hfits := (createTSIGKey_eq_ok.mp ht).1
    exact ⟨hfits.id_new k hk, hfits.name_free k hk⟩
  · intro hfree
    refine ⟨_, createTSIGKey_eq_ok.mpr ⟨?_, rfl⟩⟩
    exact ⟨env.mint_valid 0, halg, hne, fun k hk => (hfree k hk).1, fun k hk => (hfree k hk).2⟩

theorem planRevokeKey_carriable {id : TSIGKeyID} (hplan : env.planRevokeKey id = .ok (b, res)) :
    accepted (b.writeOnce now s) ↔ env.Carriable s (.revokeKey id) := by
  simp only [planRevokeKey, bind_eq_ok, pure_eq_ok, Prod.mk.injEq] at hplan
  obtain ⟨_, -, rfl, -⟩ := hplan
  rw [key_batch_accepted]
  constructor
  · rintro ⟨t, ht⟩
    exact (revokeTSIGKey_eq_ok.mp ht).1
  · intro hex
    exact ⟨_, revokeTSIGKey_eq_ok.mpr ⟨hex, rfl⟩⟩

theorem planCreateToken_carriable {k : Token} (hplan : env.planCreateToken k = .ok (b, res)) :
    accepted (b.writeOnce now s) ↔ env.Carriable s (.createToken k) := by
  cases hplan
  rw [token_batch_accepted]
  -- the time a token is stamped with is no part of what the store checks
  have hstamp : s.TokenFits (if k.createdAt = 0 then { k with createdAt := env.now } else k) ↔
      s.TokenFits k := by
    split
    · exact ⟨fun h => ⟨h.1, h.2, h.3, h.4⟩, fun h => ⟨h.1, h.2, h.3, h.4⟩⟩
    · rfl
  constructor
  · rintro ⟨t, ht⟩
    exact hstamp.mp (createToken_eq_ok.mp ht).1
  · intro hfits
    exact ⟨_, createToken_eq_ok.mpr ⟨hstamp.mpr hfits, rfl⟩⟩

theorem planRevokeToken_carriable {id : TokenID} {guard : List Token → Except Err Unit}
    (hplan : env.planRevokeToken s id guard = .ok (b, res)) :
    accepted (b.writeOnce now s) ↔ env.Carriable s (.revokeToken id guard) := by
  simp only [planRevokeToken, bind_eq_ok, pure_eq_ok, Prod.mk.injEq] at hplan
  obtain ⟨_, -, _, -, rfl, -⟩ := hplan
  rw [token_batch_accepted]
  constructor
  · rintro ⟨t, ht⟩
    exact (revokeToken_eq_ok.mp ht).1
  · intro hex
    exact ⟨_, revokeToken_eq_ok.mpr ⟨hex, rfl⟩⟩

theorem planOp_writeOnce_accepted (now : Nat) (hplan : env.planOp s op = .ok (b, res)) :
    accepted (b.writeOnce now s) ↔ env.Carriable s op := by
  have hzones (hop : op.onZones = true) : accepted (b.writeOnce now s) := by
    obtain ⟨t, ht⟩ := planOp_writes hplan hop
    obtain ⟨t', ht', -⟩ := write_alike (Alike.refl s) now ht
    exact writeOnce_accepted ht'
  cases op with
  | command _ | createZone _ _ _ | updateZone _ _ | deleteZone _ _ | rollback _ _ _
  | reconcile _ _ => exact iff_of_true (hzones rfl) trivial
  | settings changes =>
    obtain ⟨t, ht⟩ := planSettings_writes hplan
    exact iff_of_true (writeOnce_accepted ht) trivial
  | createKey name algorithm secret => exact planCreateKey_carriable hplan
  | revokeKey id => exact planRevokeKey_carriable hplan
  | createToken k => exact planCreateToken_carriable hplan
  | revokeToken id guard => exact planRevokeToken_carriable hplan

/-- A planned batch can be applied to the store it was planned on, at a log index
past the recorded one and by whatever clock, exactly where the store takes the
keys and tokens it carries and the column holds the index. -/
theorem planOp_applyAt_iff {index : Nat} (now : Nat)
    (hplan : env.planOp s op = .ok (b, res)) (hindex : s.appliedIndex < index) :
    (∃ t, b.applyAt now index s = .ok t) ↔ env.Carriable s op ∧ index ≤ 2 ^ 63 - 1 :=
  (applyAt_accepted hindex).trans
    (and_congr_left' (planOp_writeOnce_accepted now hplan))

/-- A zone with its name server, and an address planned into it. -/
theorem planOp_applyAt_address :
    ∃ b res, Sample.env.planOp Sample.forwardStore (Sample.edit 1 [.add Sample.address]) =
        .ok (b, res) ∧
      Sample.forwardStore.appliedIndex < 7 ∧
      ∃ t, b.applyAt 9 7 Sample.forwardStore = .ok t := by
  obtain ⟨⟨b, res⟩, hplan⟩ :
      accepted (Sample.env.planOp Sample.forwardStore (Sample.edit 1 [.add Sample.address])) :=
    accepted_of_isOk (by decide +kernel)
  exact ⟨b, res, hplan, by decide,
    (planOp_applyAt_iff 9 hplan (by decide)).mpr ⟨trivial, by decide⟩⟩

/-- A key is planned for a name that still signs, and refused where it is applied. -/
theorem planOp_applyAt_key_taken :
    ∃ s name b res, Sample.env.planOp s (.createKey name .hmacSHA256 [1]) = .ok (b, res) ∧
      s.appliedIndex < 1 ∧
      b.applyAt 1 1 s =
        .error (.conflict "a key with that name already signs on this server") := by
  refine ⟨{ Sample.store [] [] with
    keys := [⟨.ulid 1, Sample.name ["k"], .hmacSHA256, [1], 1, none⟩] }, Sample.name ["k"], _, _,
    rfl, ?_, ?_⟩
  · decide
  · decide +kernel

end Env

end Wegweiser
