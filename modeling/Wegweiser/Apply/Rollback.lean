/-
Rollbacks: what an accepted one puts back.

A rollback reads the journal, and the journal does not say which records were generated.
-/
import Wegweiser.Apply.Provenance
import Wegweiser.Apply.Replay

namespace Wegweiser

open Checked List Sample

namespace Batch

variable {b : Batch} {now : Nat} {s t : Store}

theorem apply_of_writable (hcan : accepted (b.write now s)) (hok : b.apply now s = .ok t) :
    b.empty = true ∧ t = s ∨ b.write now s = .ok t := by
  obtain ⟨u, hu⟩ := hcan
  rw [apply, applyAt] at hok
  by_cases hempty : b.empty = true
  · rw [hempty] at hok
    cases hok
    exact .inl ⟨hempty, rfl⟩
  · have hfalse := Bool.eq_false_iff.mpr hempty
    simp only [hfalse, Bool.false_and, Bool.false_eq_true, if_false] at hok
    obtain ⟨mid, hmid, hrest⟩ := bind_eq_ok.mp hok
    cases hrest
    rw [writeOnce, if_neg hempty] at hmid
    obtain ⟨done, hdone, hwrite⟩ := bind_eq_ok.mp hmid
    rw [applied_eq_false (write_commits hu).2] at hdone
    cases hdone
    exact .inr hwrite

end Batch

namespace Env

variable {env : Env} {s t : Store} {zid : ZoneID} {target : Serial} {info : Meta} {res : Result}

theorem commitUnlessEmpty_applied {w : Work} {primary : Zone} {kind : CommitKind}
    {revertsTo : Option Serial} {b : Batch}
    (hcommit : env.commitUnlessEmpty s w primary kind revertsTo info = .ok (b, res))
    (happly : b.apply env.now s = .ok t) :
    w.cs.empty = true ∧ t = s ∨
      w.cs.empty = false ∧ Wrote env s t w primary kind revertsTo info none [] b := by
  rcases commitUnlessEmpty_eq_ok.mp hcommit with
    ⟨hempty, hout⟩ | ⟨hempty, commits, minted, hrun, hplanned, hout⟩
  · cases hout
    cases happly
    exact .inl ⟨hempty, rfl⟩
  · cases hout
    refine .inr ⟨hempty, ?_⟩
    obtain ⟨u, hu, -⟩ := Batch.planned_eq_ok.mp hplanned
    rcases Batch.apply_of_writable ⟨u, hu⟩ happly with ⟨hnone, -⟩ | hwrite
    · -- something happens in some zone, so there is a commit
      have hall := planCommits_forall₂ hrun
      have hcommits : commits = [] := by
        simp only [Batch.empty, Bool.and_eq_true] at hnone
        simpa using hnone.1.1.1
      rw [hcommits, forall₂_nil_right_iff, filter_eq_nil_iff] at hall
      rw [ChangeSet.empty, all_eq_false] at hempty
      obtain ⟨e, he, hne⟩ := hempty
      exact absurd (by simpa using hne) (hall e he)
    · exact ⟨rfl, rfl, ⟨_, commits, minted, hrun, rfl⟩, hwrite,
        Batch.valid_of_planned hplanned hwrite⟩

/-- An accepted rollback, from the range it reads to what it writes. -/
structure RolledBack (env : Env) (s t : Store) (zid : ZoneID) (target : Serial) (info : Meta)
    (z : Zone) (since : List Commit) (ch : Changes) (w : Work) : Prop where
  zone : s.zoneByID zid = .ok z
  range : commitsBetween s zid target z.soa.serial = .ok since
  origin : Origin env s (.rollback zid target info) z ch none
  asks : ∃ soa inserts, UndoneSOA z soa (firstSOA (since.flatMap Commit.events)) ∧
    ({ Changes.blank with soa } : Changes).Asks ch
      ((env.undoKeys (since.flatMap Commit.events)).flatMap (undoRemoves s z.id))
      ((env.undoKeys (since.flatMap Commit.events)).flatMap (undoUpdates s z.id)) inserts [] ∧
    Restored env s z.id (env.undoKeys (since.flatMap Commit.events)) inserts
  expand : ∃ minted,
    env.expandReverse s ⟨⟨[⟨z, ch⟩], none⟩, Result.blank, minted⟩ z = .ok w
  wrote : w.cs.empty = true ∧ t = s ∨ w.cs.empty = false ∧
    ∃ b, Wrote env s t w z .rollback (some target) info none [] b

theorem chainBack_self {ends : List Commit} {from_ : Serial} {fuel : Nat} :
    chainBack ends from_ fuel from_ = some [] := by
  rw [chainBack.eq_def]
  exact if_pos rfl

theorem commitsBetween_self {serial : Serial} : commitsBetween s zid serial serial = .ok [] := by
  rw [commitsBetween, chainBack_self]
  rfl

theorem perform_rollback (hok : env.perform s (.rollback zid target info) = .ok (t, res)) :
    (∃ z, s.zoneByID zid = .ok z ∧ target = z.soa.serial ∧ t = s) ∨
      ∃ z since ch w, target ≠ z.soa.serial ∧
        RolledBack env s t zid target info z since ch w := by
  simp only [perform, bind_eq_ok, pure_eq_ok, Prod.exists, Prod.mk.injEq] at hok
  obtain ⟨b, _, hplan, u, happly, rfl, rfl⟩ := hok
  obtain ⟨z, hz, ⟨htarget, hout⟩ | ⟨htarget, -, -, since, undone, w, hsince, hundo, hexpand, hcommit⟩⟩ :=
    planRollback_eq_ok.mp hplan
  · cases hout
    cases happly
    exact .inl ⟨z, hz, htarget, rfl⟩
  · obtain ⟨soa, ch, inserts, hcs, hres, hsoa, hasks, hrestored⟩ := undo_asks hundo
    obtain ⟨cs, res', minted⟩ := undone
    cases hcs
    cases hres
    refine .inr ⟨z, since, ch, w, htarget, hz, hsince, .rollback hz hsince hsoa hasks hrestored,
      ⟨soa, inserts, hsoa, hasks, hrestored⟩, ⟨minted, hexpand⟩, ?_⟩
    rcases commitUnlessEmpty_applied hcommit happly with hsame | ⟨hempty, hwrote⟩
    · exact .inl hsame
    · exact .inr ⟨hempty, b, hwrote⟩

/-- The records of a zone that its history since a serial removed and that are not
there now, as their data reads. -/
def returning (env : Env) (s : Store) (zid : ZoneID) (target : Serial) : List RdataKey :=
  match s.zoneByID zid with
  | .error _ => []
  | .ok z =>
    match commitsBetween s zid target z.soa.serial with
    | .error _ => []
    | .ok since =>
      (firstEvents (since.flatMap Commit.events)).filterMap fun kv =>
        if s.standing zid kv.1 = none ∧ kv.2.op = .del then
          (env.lib.parseRData kv.1.type kv.1.cls kv.1.rdata.text).toOption.map fun data =>
            { kv.1 with rdata := data }
        else none

theorem mem_returning {z : Zone} {since : List Commit} (hz : s.zoneByID zid = .ok z)
    (hsince : commitsBetween s zid target z.soa.serial = .ok since) {k : RdataKey} :
    k ∈ env.returning s zid target ↔
      ∃ kv ∈ firstEvents (since.flatMap Commit.events), s.Missing zid kv ∧ ∃ data,
        env.lib.parseRData kv.1.type kv.1.cls kv.1.rdata.text = .ok data ∧
          k = { kv.1 with rdata := data } := by
  simp only [returning, hz, hsince, mem_filterMap]
  refine exists_congr fun kv => and_congr_right fun _ => ?_
  by_cases hmissing : s.standing zid kv.1 = none ∧ kv.2.op = .del
  · rw [if_pos hmissing]
    cases env.lib.parseRData kv.1.type kv.1.cls kv.1.rdata.text with
    | error e => simp [Except.toOption]
    | ok data => simp [Except.toOption, Store.Missing, hmissing, eq_comm]
  · rw [if_neg hmissing]
    simp [Store.Missing, hmissing]

end Env

theorem Restores.rdataKey {env : Env} {zid : ZoneID} {kv : RdataKey × Event} {i : Record}
    (h : Restores env zid kv i) :
    i.isManaged = false ∧ i.zoneID = zid ∧ (∃ n, i.id = env.mint n) ∧ ∃ data,
      env.lib.parseRData kv.1.type kv.1.cls kv.1.rdata.text = .ok data ∧
        i.rdataKey = { kv.1 with rdata := data } := by
  obtain ⟨r, n, hr, rfl⟩ := h.restored
  obtain ⟨data, hdata, rfl, -⟩ := newRecord_eq_ok.mp hr
  exact ⟨rfl, rfl, ⟨n, rfl⟩, data, hdata, rfl⟩

def Store.GeneratedAt (s : Store) (zid : ZoneID) (k : RdataKey) : Prop :=
  ∃ g ∈ s.records, g.zoneID = zid ∧ g.isManaged = true ∧ g.rdataKey = k

/-- A record that is in `t` and was not in `s`. -/
def Store.Inserts (s t : Store) (r : Record) : Prop :=
  r ∈ t.records ∧ ∀ o ∈ s.records, o.id ≠ r.id

instance {s t : Store} {r : Record} : Decidable (s.Inserts t r) :=
  inferInstanceAs (Decidable (_ ∧ _))

instance {s : Store} {zid : ZoneID} {k : RdataKey} : Decidable (s.GeneratedAt zid k) :=
  inferInstanceAs (Decidable (∃ g ∈ s.records, _))

namespace Env

variable {env : Env} {s t : Store} {zid : ZoneID} {target : Serial} {info : Meta} {res : Result}

namespace RolledBack

variable {z : Zone} {since : List Commit} {ch : Changes} {w : Work}

theorem rewrites (hback : RolledBack env s t zid target info z since ch w) :
    w.cs.Rewrites env.now s t := by
  rcases hback.wrote with ⟨hempty, rfl⟩ | ⟨-, b, hwrote⟩
  · exact .of_empty hempty
  · exact hwrote.rewrites (by simp)

theorem zone_id (h : s.Sound) (hback : RolledBack env s t zid target info z since ch w) :
    z.id = zid := (h.zoneByID_eq_ok.mp hback.zone).2

theorem inserts (h : s.Sound) (hback : RolledBack env s t zid target info z since ch w)
    {i : Record} (hi : i ∈ w.cs.inserts) (hauthored : i.isManaged = false) :
    ∃ kv ∈ firstEvents (since.flatMap Commit.events),
      s.Missing zid kv ∧ Restores env zid kv i := by
  obtain ⟨soa, inserts, -, hasks, hrestored⟩ := hback.asks
  obtain ⟨minted, hexpand⟩ := hback.expand
  have hnone := (Record.managedKind_of_check (hback.rewrites.inserts i hi)).mp hauthored
  rcases (expandReverse_grows hexpand).inserts i hi with hasked | ⟨source, addr, rev, hgen⟩ |
    ⟨ptr, source, addr, rev, -, -, hgen⟩
  · have hmem : i ∈ inserts := by
      have := mem_inserts_singleton.mp hasked
      rwa [hasks.inserts] at this
    obtain ⟨kv, hkv, hrest⟩ := hrestored.sound i hmem
    rw [hback.zone_id h] at hrest
    exact ⟨kv, mem_undoKeys.mp hkv, hrest⟩
  · obtain ⟨data, n, -, hi'⟩ := hgen.ptr
    rw [hi'] at hnone
    cases hnone
  · obtain ⟨parent, data, n, -, -, hi'⟩ := hgen.cname
    rw [hi'] at hnone
    cases hnone

theorem inserts_of_missing (h : s.Sound)
    (hback : RolledBack env s t zid target info z since ch w) {kv : RdataKey × Event}
    (hkv : kv ∈ firstEvents (since.flatMap Commit.events)) (hmissing : s.Missing zid kv) :
    ∃ i ∈ w.cs.inserts, Restores env zid kv i := by
  obtain ⟨soa, inserts, -, hasks, hrestored⟩ := hback.asks
  obtain ⟨minted, hexpand⟩ := hback.expand
  rw [hback.zone_id h] at hrestored
  obtain ⟨i, hi, hrest⟩ := hrestored.complete kv (mem_undoKeys.mpr hkv) hmissing
  refine ⟨i, (expandReverse_grows hexpand).inserts_mono i (mem_inserts_singleton.mpr ?_), hrest⟩
  rw [hasks.inserts]
  exact mem_append_right _ hi

end RolledBack

theorem rollback_inserts_iff (h : s.Sound) (hfresh : env.Fresh s)
    (hok : env.perform s (.rollback zid target info) = .ok (t, res)) {k : RdataKey} :
    (∃ r, s.Inserts t r ∧ r.zoneID = zid ∧ r.isManaged = false ∧ r.rdataKey = k) ↔
      k ∈ env.returning s zid target := by
  rcases perform_rollback hok with ⟨z, hz, htarget, rfl⟩ | ⟨z, since, ch, w, -, hback⟩
  · -- nothing to take back
    have hnone : env.returning t zid target = [] := by
      simp [returning, hz, htarget, commitsBetween_self, firstEvents]
    rw [hnone]
    constructor
    · intro hr
      obtain ⟨r, ⟨hmem, hnew⟩, -⟩ := hr
      exact absurd rfl (hnew r hmem)
    · intro hk
      cases hk
  · rw [mem_returning hback.zone hback.range]
    constructor
    · intro hr
      obtain ⟨r, ⟨hmem, hnew⟩, -, hauthored, rfl⟩ := hr
      rcases (hback.rewrites.rows r).mp hmem with ⟨o, ho, rfl⟩ | ⟨i, hi, rfl⟩
      · exact absurd rewrittenRow_id.symm (hnew o (Store.mem_without.mp ho).1)
      · obtain ⟨kv, hkv, hmissing, hrestores⟩ := hback.inserts h hi hauthored
        obtain ⟨-, -, -, data, hdata, hkey⟩ := hrestores.rdataKey
        exact ⟨kv, hkv, hmissing, data, hdata, hkey⟩
    · intro hk
      obtain ⟨kv, hkv, hmissing, data, hdata, rfl⟩ := hk
      obtain ⟨i, hi, hrestores⟩ := hback.inserts_of_missing h hkv hmissing
      obtain ⟨hauthored, hzone, ⟨n, hid⟩, data', hdata', hkey⟩ := hrestores.rdataKey
      rw [hdata] at hdata'
      cases hdata'
      refine ⟨insertedRow env.now i, ⟨(hback.rewrites.rows _).mpr (.inr ⟨i, hi, rfl⟩),
        fun o ho => ?_⟩, hzone, hauthored, hkey⟩
      change o.id ≠ i.id
      rw [hid]
      exact hfresh n o ho

end Env

namespace Sample

def addressRun : List (Nat × Operation) :=
  [(1000, .createZone (zone 1 ["ex"]) [record 11 1 ["ex"] typeNS "ns."] info),
    (2000, .createZone (zone 2 ["2", "0", "192", "in-addr", "arpa"])
      [record 12 2 ["2", "0", "192", "in-addr", "arpa"] typeNS "ns."] info),
    (3000, edit 1 [.add (record 13 1 ["a", "ex"] typeA "192.0.2.10")])]

def addressGoes : List (Nat × Operation) :=
  [(4000, edit 1 [.delete (.ulid 13)])]

def takeBack (zoneID : Nat) (serial : UInt32) : Operation :=
  .rollback (.ulid zoneID) ⟨serial⟩ info

def takenBack (zoneID : Nat) (serial : UInt32) : Except Err (Store × Store × Store) := do
  let was ← performAll Store.blank (steps addressRun)
  let s ← performAll was (steps addressGoes)
  let (t, _) ← (envAt 5000).perform s (takeBack zoneID serial)
  pure (was, s, t)

theorem takenBack_eq_ok {zoneID : Nat} {serial : UInt32} {was s t : Store} :
    takenBack zoneID serial = .ok (was, s, t) ↔
      performAll Store.blank (steps addressRun) = .ok was ∧
        performAll was (steps addressGoes) = .ok s ∧
          ∃ res, (envAt 5000).perform s (takeBack zoneID serial) = .ok (t, res) := by
  simp only [takenBack, bind_eq_ok]
  constructor
  · rintro ⟨_, hwas, _, hs, ⟨_, res⟩, ht, hout⟩
    cases hout
    exact ⟨hwas, hs, res, ht⟩
  · rintro ⟨hwas, hs, res, ht⟩
    exact ⟨was, hwas, s, hs, (t, res), ht, rfl⟩

end Sample

/-- An accepted rollback, at the end of any history, puts nothing into the zone by hand
that was generated in the state `was`, exactly when nothing that was generated there
is among the records its range removed and that are missing now. -/
theorem rollback_restores_no_generated_iff {history : List (Env × Operation)} {env : Env}
    {s t : Store} {zid : ZoneID} {target : Serial} {info : Meta} {res : Result} (was : Store)
    (hrun : performAll Store.blank history = .ok s) (hfresh : env.Fresh s)
    (hok : env.perform s (.rollback zid target info) = .ok (t, res)) :
    (∀ r, s.Inserts t r → r.zoneID = zid → r.isManaged = false →
        ¬was.GeneratedAt zid r.rdataKey) ↔
      ∀ k ∈ env.returning s zid target, ¬was.GeneratedAt zid k := by
  have hinserts {k : RdataKey} := Env.rollback_inserts_iff (k := k) (performAll_sound hrun) hfresh hok
  constructor
  · intro hnone k hk
    obtain ⟨r, hr, hzone, hauthored, rfl⟩ := hinserts.mpr hk
    exact hnone r hr hzone hauthored
  · intro hnone r hr hzone hauthored
    exact hnone _ (hinserts.mp ⟨r, hr, hzone, hauthored, rfl⟩)

/-- Taking the zone of the address back puts the address there again, and its entry is
generated anew. -/
theorem rollback_restores_no_generated_forward :
    ∃ was s t, takenBack 1 2 = .ok (was, s, t) ∧
      (∃ r ∈ t.records, s.Inserts t r ∧ r.isManaged = true) ∧
      ∀ r, s.Inserts t r → r.zoneID = .ulid 1 → r.isManaged = false →
        ¬was.GeneratedAt (.ulid 1) r.rdataKey := by
  obtain ⟨⟨was, s, t⟩, hstages, hmeets⟩ := ok_of_any
    (show (takenBack 1 2).toOption.any (fun (was, s, t) => older 5000 s &&
      decide (∃ r ∈ t.records, s.Inserts t r ∧ r.isManaged = true) &&
      decide (∀ k ∈ (envAt 5000).returning s (.ulid 1) ⟨2⟩,
        ¬was.GeneratedAt (.ulid 1) k)) = true by decide +kernel)
  simp only [Bool.and_eq_true, decide_eq_true_eq] at hmeets
  obtain ⟨⟨holder, hmanaged⟩, hnone⟩ := hmeets
  obtain ⟨hwas, hs, res, ht⟩ := takenBack_eq_ok.mp hstages
  have hrun := performAll_append.mpr ⟨was, hwas, hs⟩
  have hfresh := fresh_of_older (by decide) holder
  exact ⟨was, s, t, hstages, hmanaged,
    (rollback_restores_no_generated_iff was hrun hfresh ht).mpr hnone⟩

/-- Taking the reverse zone back to where the entry of the address stood puts the entry
there by hand, with the address gone. -/
theorem rollback_restores_generated_ptr_by_hand :
    ∃ was s t res, performAll Store.blank (steps addressRun) = .ok was ∧
      (∃ z ∈ was.zones, z.id = .ulid 2 ∧ z.soa.serial = ⟨2⟩) ∧
      performAll was (steps addressGoes) = .ok s ∧
      (envAt 5000).Fresh s ∧
      (envAt 5000).perform s (takeBack 2 2) = .ok (t, res) ∧
      ∃ r, s.Inserts t r ∧ r.zoneID = .ulid 2 ∧ r.isManaged = false ∧
        was.GeneratedAt (.ulid 2) r.rdataKey := by
  obtain ⟨⟨was, s, t⟩, hstages, hmeets⟩ := ok_of_any
    (show (takenBack 2 2).toOption.any (fun (was, s, t) => older 5000 s &&
      decide (∃ z ∈ was.zones, z.id = .ulid 2 ∧ z.soa.serial = ⟨2⟩) &&
      decide (∃ r ∈ t.records, s.Inserts t r ∧ r.zoneID = .ulid 2 ∧ r.isManaged = false ∧
        was.GeneratedAt (.ulid 2) r.rdataKey)) = true by decide +kernel)
  simp only [Bool.and_eq_true, decide_eq_true_eq] at hmeets
  obtain ⟨⟨holder, hserial⟩, r, -, hr⟩ := hmeets
  obtain ⟨hwas, hs, res, ht⟩ := takenBack_eq_ok.mp hstages
  exact ⟨was, s, t, res, hwas, hserial, hs, fresh_of_older (by decide) holder, ht, r, hr⟩

end Wegweiser
