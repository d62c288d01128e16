/-
The frame of a command: a record somebody wrote stays as it is unless an operation
names it.

Neither what the automation retires, displaces and supersedes nor what the database
takes with a deleted row is ever a record without a source.
-/
import Wegweiser.Apply.Rollback

namespace Wegweiser

open Checked List Sample

def RecordOp.Names (zid : ZoneID) (r : Record) : RecordOp → Prop
  | .add x => x.id = r.id
  | .update id _ | .delete id | .makeCanonical id | .detach id => id = r.id
  | .replaceRRset key records => r.zoneID = zid ∧ r.key = key ∨ ∃ x ∈ records, x.id = r.id

def Operation.Leaves (r : Record) : Operation → Prop
  | .command cmd => ∀ op ∈ cmd.ops, ¬op.Names cmd.zoneID r
  | .reconcile _ _ => True
  | _ => False

namespace RecordOp

variable {s : Store} {z : Zone} {op : RecordOp} {r : Record}

theorem names_of_touches (h : s.Sound) (hr : r ∈ s.records) {zid : ZoneID}
    (htouches : r.id ∈ op.touches s zid) : op.Names zid r := by
  cases op with
  | add _ => simp [touches] at htouches
  | update id _ | delete id | makeCanonical id | detach id =>
    exact (mem_singleton.mp htouches).symm
  | replaceRRset key wanted =>
    obtain ⟨o, ho, hid⟩ := mem_map.mp htouches
    obtain ⟨hmem, hzone, hkey⟩ := Store.mem_rrset.mp ho
    rw [h.record_ext hmem hr hid] at hzone hkey
    exact .inl ⟨hzone, hkey⟩

theorem names_of_adds {i : Record} (hi : i ∈ op.adds s z) (hid : i.id = r.id) :
    op.Names z.id r := by
  cases op with
  | add x =>
    rw [adds, mem_singleton] at hi
    rw [hi] at hid
    exact hid
  | replaceRRset key wanted => exact .inr ⟨i, (mem_filter.mp hi).1, hid⟩
  | update id _ | delete id | makeCanonical id | detach id => simp [adds] at hi

end RecordOp

namespace Env

variable {env : Env} {s t : Store} {op : Operation} {res : Result} {r : Record}

theorem mintID_id (env : Env) (zid : ZoneID) (x : Record) (n : Nat) :
    (env.mintID zid x n).1.id = x.id ∨ ∃ m, (env.mintID zid x n).1.id = env.mint m := by
  rw [mintID]
  split
  · exact .inr ⟨n, rfl⟩
  · exact .inl rfl

theorem mem_mintIDs_id {zid : ZoneID} {records : List Record} {n : Nat} {x : Record}
    (hx : x ∈ (env.mintIDs zid records n).1) :
    (∃ o ∈ records, x.id = o.id) ∨ ∃ m, x.id = env.mint m := by
  induction records generalizing n with
  | nil => simp [mintIDs] at hx
  | cons head tail ih =>
    rw [mintIDs] at hx
    rcases mem_cons.mp hx with rfl | hx
    · exact (mintID_id env zid head n).imp_left fun hid => ⟨head, mem_cons_self, hid⟩
    · refine (ih hx).imp_left fun h => ?_
      obtain ⟨o, ho, hid⟩ := h
      exact ⟨o, mem_cons_of_mem head ho, hid⟩

theorem names_of_normalizeOp (hfresh : env.Fresh s) (hr : r ∈ s.records) {zid : ZoneID}
    {o : RecordOp} {n : Nat} (h : (env.normalizeOp zid o n).1.Names zid r) : o.Names zid r := by
  have hminted {m : Nat} {k : RecordID} (hk : k = env.mint m) (heq : k = r.id) : False :=
    hfresh m r hr (heq.symm.trans hk)
  cases o with
  | add x =>
    rcases mintID_id env zid x n with hid | ⟨m, hid⟩
    · exact hid.symm.trans h
    · exact (hminted hid h).elim
  | replaceRRset key records =>
    rcases h with hset | ⟨x, hx, hxid⟩
    · exact .inl hset
    · rcases mem_mintIDs_id hx with ⟨o, ho, hid⟩ | ⟨m, hid⟩
      · exact .inr ⟨o, ho, hid.symm.trans hxid⟩
      · exact (hminted hid hxid).elim
  | update id _ | delete id | makeCanonical id | detach id => exact h

theorem kept_of_rewrites (h : s.Sound) {cs : ChangeSet} {now : Nat}
    (hrw : cs.Rewrites now s t) (hr : r ∈ s.records) (hauthored : r.isManaged = false)
    (hdeletes : ∀ d ∈ cs.deletes, d.id ≠ r.id) (hupdates : ∀ u ∈ cs.updates, u.after.id ≠ r.id) :
    r ∈ t.records := by
  refine (hrw.rows r).mpr (.inl ⟨r, authored_kept h hr hauthored hdeletes, ?_⟩)
  rcases rewrittenRow_cases cs.updates r with ⟨hsame, -⟩ | ⟨u, hu, hid, -⟩
  · exact hsame.symm
  · exact absurd hid (hupdates u hu)

theorem command_leaves (h : s.Sound) (hfresh : env.Fresh s) {cmd : Command} {z : Zone}
    {ch : Changes} {policy : Option Policy} {minted : Nat} {w : Work} (hr : r ∈ s.records)
    (hauthored : r.isManaged = false) (hleaves : (Operation.command cmd).Leaves r)
    (horigin : Origin env s (.command cmd) z ch policy)
    (hexpand : env.expandReverse s ⟨⟨[⟨z, ch⟩], policy⟩, Result.blank, minted⟩ z = .ok w)
    (hrw : w.cs.Rewrites env.now s t) : r ∈ t.records := by
  cases horigin with
  | @command _ _ _ ops hz hops hallowed hasks =>
    have hzid : z.id = cmd.zoneID := (h.zoneByID_eq_ok.mp hz).2
    have hnot {o : RecordOp} (ho : o ∈ ops) : ¬o.Names z.id r := by
      rw [hops] at ho
      obtain ⟨o', ho', m, rfl⟩ := mem_normalize ho
      rw [hzid]
      exact fun hnames => hleaves o' ho' (names_of_normalizeOp hfresh hr hnames)
    have hrewrites {u : RecordUpdate} (hu : u ∈ ch.updates) :
        u.after.isManaged = false ∧ u.after.id ≠ r.id := by
      rw [hasks.updates] at hu
      obtain ⟨o, ho, hu⟩ := mem_flatMap.mp hu
      have hfiled : o.Filed z.id := by
        rw [hzid]
        exact (normalize_ops hops ho).1
      obtain ⟨⟨hmem, -, hid, -, hkind⟩, htouches⟩ :=
        RecordOp.rewrites_fromStore h (hallowed o ho) hfiled hu
      refine ⟨authored_of_rewrite hkind, fun hsame => hnot ho ?_⟩
      rw [h.record_ext hmem hr (hid.symm.trans hsame)] at htouches
      exact RecordOp.names_of_touches h hr htouches
    have hgrows := expandReverse_grows hexpand
    refine kept_of_rewrites h hrw hr hauthored ?_ ?_
    · intro d hd hid
      rcases taken_of_deletes hfresh hgrows
          (fun u hu => (hrewrites (mem_updates_singleton.mp hu)).1) hrw.deletes hd with
        hasked | ⟨hmanaged, hstored | hcame⟩
      · rw [mem_deletes_singleton, hasks.deletes] at hasked
        obtain ⟨o, ho, hd⟩ := mem_flatMap.mp hasked
        obtain ⟨-, -, -, htouches⟩ := RecordOp.removes_fromStore h (hallowed o ho) hd
        rw [hid] at htouches
        exact hnot ho (RecordOp.names_of_touches h hr htouches)
      · rw [h.record_ext hstored hr hid, hauthored] at hmanaged
        cases hmanaged
      · rw [mem_inserts_singleton, hasks.inserts] at hcame
        obtain ⟨o, ho, hi⟩ := mem_flatMap.mp hcame
        exact hnot ho (RecordOp.names_of_adds hi hid)
    · intro u hu
      rw [hgrows.updates, mem_updates_singleton] at hu
      exact (hrewrites hu).2

theorem reconcile_leaves (h : s.Sound) (hfresh : env.Fresh s) {z : Zone} {w : Work}
    (hr : r ∈ s.records) (hauthored : r.isManaged = false)
    (hreconcile : env.reconcileInto s Work.blank z = .ok w)
    (hrw : w.cs.Rewrites env.now s t) : r ∈ t.records := by
  have hgrows := reconcileInto_grows hreconcile
  refine kept_of_rewrites h hrw hr hauthored ?_ ?_
  · intro d hd hid
    rcases taken_of_deletes hfresh hgrows (fun u hu => absurd hu not_mem_nil)
        hrw.deletes hd with hasked | ⟨hmanaged, hstored | hcame⟩
    · cases hasked
    · rw [h.record_ext hstored hr hid, hauthored] at hmanaged
      cases hmanaged
    · cases hcame
  · intro u hu
    rw [hgrows.updates] at hu
    cases hu

end Env

/-- Whatever the conflict policy, an accepted record command or reconciliation leaves an
authored record that it does not name, in any zone, exactly as it was. -/
theorem authored_records_untouched {env : Env} {s t : Store} {op : Operation} {res : Result}
    {r : Record} (h : s.Sound) (hfresh : env.Fresh s) (hleaves : op.Leaves r)
    (hok : env.perform s op = .ok (t, res)) (hr : r ∈ s.records)
    (hauthored : r.isManaged = false) : r ∈ t.records := by
  cases Env.perform_outcome hok with
  | unchanged hsame =>
    rw [hsame]
    exact hr
  | aside hsame =>
    rw [hsame.2.1]
    exact hr
  | @expanded _ z ch policy minted w kind revertsTo info zones b horigin hexpand hzones hwrote =>
    cases horigin with
    | command hz hops hallowed hasks =>
      exact Env.command_leaves h hfresh hr hauthored hleaves (.command hz hops hallowed hasks)
        hexpand (hwrote.rewrites (Env.Outcome.not_delete hzones))
    | rollback => exact hleaves.elim
    | create => exact hleaves.elim
  | reconciled hz hreconcile hwrote =>
    exact Env.reconcile_leaves h hfresh hr hauthored hreconcile (hwrote.rewrites (by simp))
  | updated => exact hleaves.elim
  | deleted => exact hleaves.elim

/-- The address goes, its entry with it, and every other record somebody wrote stays. -/
theorem authored_records_untouched_address :
    ∃ s t res, performAll Store.blank (steps addressRun) = .ok s ∧
      (envAt 4000).perform s (edit 1 [.delete (.ulid 13)]) = .ok (t, res) ∧
      (∃ r ∈ s.records, r.isManaged = true ∧ r ∉ t.records) ∧
      ∀ r ∈ s.records, r.isManaged = false → r.id ≠ .ulid 13 → r ∈ t.records := by
  obtain ⟨s, hrun, hmeets⟩ := ok_of_any
    (show (performAll Store.blank (steps addressRun)).toOption.any
      (fun s => older 4000 s &&
        ((envAt 4000).perform s (edit 1 [.delete (.ulid 13)])).toOption.any
          fun p => decide (∃ r ∈ s.records, r.isManaged = true ∧ r ∉ p.1.records)) = true by
      decide +kernel)
  obtain ⟨holder, hgoes⟩ := Bool.and_eq_true_iff.mp hmeets
  obtain ⟨⟨t, res⟩, hok, hgone⟩ := ok_of_any hgoes
  refine ⟨s, t, res, hrun, hok, of_decide_eq_true hgone, fun r hr hauthored hne => ?_⟩
  refine authored_records_untouched (performAll_sound hrun)
    (fresh_of_older (by decide) holder) ?_ hok hr hauthored
  intro op hop
  rw [mem_singleton.mp hop]
  exact fun hnames => hne hnames.symm

end Wegweiser
