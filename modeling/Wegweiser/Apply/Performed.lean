/-
What an accepted operation has done: nothing, a write beside the zones, or one
batch that carries out what was asked for and what the automation added to it.
-/
import Wegweiser.Apply.Growth
import Wegweiser.Apply.Planned
import Wegweiser.Apply.Undone
import Wegweiser.Apply.Written

namespace Wegweiser

open Checked List Batch

namespace Batch

variable {b : Batch} {now : Nat} {s t : Store}

theorem apply_eq_ok (hok : b.apply now s = .ok t) : t = s ∨ b.write now s = .ok t := by
  rw [apply, applyAt] at hok
  split at hok
  · cases hok
    exact .inl rfl
  · obtain ⟨mid, hmid, hrest⟩ := bind_eq_ok.mp hok
    cases hrest
    rw [writeOnce] at hmid
    split at hmid
    · cases hmid
      exact .inl rfl
    · obtain ⟨done, -, hdone⟩ := bind_eq_ok.mp hmid
      split at hdone
      · cases hdone
        exact .inl rfl
      · exact .inr hdone

theorem valid_of_planned (hplanned : b.planned now s = .ok ()) (hwrite : b.write now s = .ok t) :
    b.validate t = .ok () := by
  obtain ⟨u, hu, hvalid⟩ := bind_eq_ok.mp hplanned
  rw [hwrite] at hu
  cases hu
  exact hvalid

theorem write_aside (hzones : b.zones = []) (hset : b.set = ChangeSet.blank)
    (hcommits : b.commits = []) (hok : b.write now s = .ok t) :
    t.zones = s.zones ∧ t.records = s.records ∧ t.commits = s.commits := by
  obtain ⟨s₀, s₁, s₂, s₃, hz, hr, hc, h₁, h₂, h₃, h₄⟩ := write_stages hok
  rw [hzones] at h₁ h₄
  rw [hset] at h₂
  rw [hcommits] at h₃
  cases h₁
  cases h₂
  cases h₃
  cases h₄
  exact ⟨hz, hr, hc⟩

end Batch

variable {cs : ChangeSet} {s t : Store} {rest steps : List (Env × Operation)}
  {C : Store → Env → Operation → Prop}

theorem ChangeSet.of_empty (h : cs.empty = true) :
    cs.deletes = [] ∧ cs.updates = [] ∧ cs.inserts = [] := by
  have hall (e : ZoneChanges) (he : e ∈ cs.entries) :
      e.changes.deletes = [] ∧ e.changes.updates = [] ∧ e.changes.inserts = [] := by
    have hempty := List.all_eq_true.mp h e he
    simp only [Changes.empty, Bool.and_eq_true, List.isEmpty_iff] at hempty
    exact ⟨hempty.1.1.2, hempty.1.2, hempty.2⟩
  refine ⟨List.eq_nil_iff_forall_not_mem.mpr fun x hx => ?_,
    List.eq_nil_iff_forall_not_mem.mpr fun x hx => ?_,
    List.eq_nil_iff_forall_not_mem.mpr fun x hx => ?_⟩
  · obtain ⟨e, he, hx⟩ := ChangeSet.mem_deletes.mp hx
    rw [(hall e he).1] at hx
    exact List.not_mem_nil hx
  · obtain ⟨e, he, hx⟩ := ChangeSet.mem_updates.mp hx
    rw [(hall e he).2.1] at hx
    exact List.not_mem_nil hx
  · obtain ⟨e, he, hx⟩ := ChangeSet.mem_inserts.mp hx
    rw [(hall e he).2.2] at hx
    exact List.not_mem_nil hx

theorem ChangeSet.Rewrites.of_empty {now : Nat} (h : cs.empty = true) : cs.Rewrites now s s := by
  obtain ⟨hdeletes, hupdates, hinserts⟩ := ChangeSet.of_empty h
  have hkept (r : Record) : r ∈ s.without cs.gone ↔ r ∈ s.records := by
    rw [Store.mem_without, ChangeSet.gone, hdeletes]
    refine and_iff_left fun hbelow => ?_
    obtain ⟨k, hk⟩ := hbelow.exists_root
    cases hk
  constructor
  · intro r
    rw [hupdates, hinserts]
    simp only [hkept, rewrittenRow, foldl_nil, exists_eq_right', not_mem_nil, false_and,
      exists_false, or_false]
  · intro d hd
    rw [hdeletes] at hd
    cases hd
  · intro u hu
    rw [hupdates] at hu
    cases hu
  · intro i hi
    rw [hinserts] at hi
    cases hi
  · rw [ChangeSet.gone, hdeletes]
    exact nodup_nil
  · intro i hi
    rw [hinserts] at hi
    cases hi

/-- The operations on what the store holds beside its zones. -/
def Operation.beside : Operation → Bool
  | .settings _ | .createKey _ _ _ | .revokeKey _ | .createToken _ | .revokeToken _ _ => true
  | _ => false

namespace Env

variable {env : Env} {s t : Store} {op : Operation} {res : Result}

/-- What was asked for in one zone before the automation answered. -/
inductive Origin (env : Env) (s : Store) :
    Operation → Zone → Changes → Option Policy → Prop
  | command {cmd : Command} {z : Zone} {ch : Changes} {ops : List RecordOp}
      (hz : s.zoneByID cmd.zoneID = .ok z) (hops : ops = (env.normalize cmd.zoneID cmd.ops 0).1)
      (hallowed : ∀ op ∈ ops, op.Allowed s z)
      (hasks : Changes.blank.Asks ch (ops.flatMap (RecordOp.removes s z))
        (ops.flatMap (RecordOp.rewrites s z)) (ops.flatMap (RecordOp.adds s z))
        (ops.flatMap (RecordOp.claims s))) :
      Origin env s (.command cmd) z ch
        (if ops.any RecordOp.overrides then some Policy.lastWins else none)
  | rollback {zid : ZoneID} {target : Serial} {info : Meta} {z : Zone} {ch : Changes}
      {since : List Commit} {soa : Option SOAChange} {inserts : List Record}
      (hz : s.zoneByID zid = .ok z)
      (hsince : commitsBetween s zid target z.soa.serial = .ok since)
      (hsoa : UndoneSOA z soa (firstSOA (since.flatMap Commit.events)))
      (hasks : ({ Changes.blank with soa } : Changes).Asks ch
        ((env.undoKeys (since.flatMap Commit.events)).flatMap (undoRemoves s z.id))
        ((env.undoKeys (since.flatMap Commit.events)).flatMap (undoUpdates s z.id)) inserts [])
      (hrestored : Restored env s z.id (env.undoKeys (since.flatMap Commit.events)) inserts) :
      Origin env s (.rollback zid target info) z ch none
  | create {z : Zone} {records : List Record} {info : Meta} {ch : Changes}
      (hasks : Changes.blank.Asks ch [] []
        (env.mintIDs (env.newZone z).1.id records (env.newZone z).2).1 [])
      (hvalid : validateZone (env.newZone z).1
        (env.mintIDs (env.newZone z).1.id records (env.newZone z).2).1 = .ok ()) :
      Origin env s (.createZone z records info) (env.newZone z).1 ch none

variable {z primary : Zone} {w : Work} {kind : CommitKind} {revertsTo : Option Serial} {info : Meta}
  {b : Batch} {zid : ZoneID}

theorem Origin.marked {ch : Changes} {policy : Option Policy}
    (horigin : Origin env s op z ch policy) : ch.Marked := by
  cases horigin with
  | command _ _ _ hasks => exact hasks.marked rfl rfl rfl rfl
  | rollback _ _ _ hasks _ => exact hasks.marked rfl rfl rfl rfl
  | create hasks _ => exact hasks.marked rfl rfl rfl rfl

/-- A batch that was written and had been checked: its change set, the commits of its
zones, and the zone operation it carries. -/
structure Wrote (env : Env) (s t : Store) (w : Work) (primary : Zone) (kind : CommitKind)
    (revertsTo : Option Serial) (info : Meta) (extra : Option Commit) (zones : List ZoneOp)
    (b : Batch) : Prop where
  set : b.set = w.cs
  zones : b.zones = zones
  commits : ∃ followed commits minted,
    env.planCommits w primary kind revertsTo info followed = .ok (commits, minted) ∧
      b.commits = extra.toList ++ commits
  write : b.write env.now s = .ok t
  valid : b.validate t = .ok ()

/-- What an accepted operation can have done. -/
inductive Outcome (env : Env) (s t : Store) : Operation → Prop
  | unchanged {op : Operation} (h : t = s) : Outcome env s t op
  | aside {op : Operation}
      (h : t.zones = s.zones ∧ t.records = s.records ∧ t.commits = s.commits) :
      Outcome env s t op
  | expanded {op : Operation} {z : Zone} {ch : Changes} {policy : Option Policy} {minted : Nat}
      {w : Work} {kind : CommitKind} {revertsTo : Option Serial} {info : Meta}
      {zones : List ZoneOp} {b : Batch} (horigin : Origin env s op z ch policy)
      (hexpand : env.expandReverse s ⟨⟨[⟨z, ch⟩], policy⟩, Result.blank, minted⟩ z = .ok w)
      (hzones : zones = [] ∨ zones = [.create z])
      (hwrote : Wrote env s t w z kind revertsTo info none zones b) : Outcome env s t op
  | reconciled {zid : ZoneID} {info : Meta} {z : Zone} {w : Work} {b : Batch}
      (hz : s.zoneByID zid = .ok z) (hreconcile : env.reconcileInto s Work.blank z = .ok w)
      (hwrote : Wrote env s t w z .edit none info none [] b) :
      Outcome env s t (.reconcile zid info)
  | updated {z before : Zone} {info : Meta} {events : List Event} {b : Batch}
      (hbefore : s.zoneByID z.id = .ok before) (hname : before.name = z.name)
      (hevents : env.updateEvents before (nextZone before z) = .ok events)
      (hset : b.set = ChangeSet.blank)
      (hcommits : b.commits = [env.updateCommit before (nextZone before z) info events])
      (hzones : b.zones = [.update (nextZone before z)]) (hwrite : b.write env.now s = .ok t) :
      Outcome env s t (.updateZone z info)
  | deleted {zid : ZoneID} {info : Meta} {z : Zone} {w : Work} {id : CommitID} {b : Batch}
      (hz : s.zoneByID zid = .ok z)
      (hremovals : (s.managedByZone zid).foldlM (queueRemoval s) Work.blank = .ok w)
      (hwrote : Wrote env s t w z .edit none info (some (env.deleteCommit z info id))
        [.delete zid] b) :
      Outcome env s t (.deleteZone zid info)

theorem perform_eq_ok (hok : env.perform s op = .ok (t, res)) :
    ∃ b, env.planOp s op = .ok (b, res) ∧ (t = s ∨ b.write env.now s = .ok t) := by
  simp only [perform, bind_eq_ok, pure_eq_ok, Prod.exists, Prod.mk.injEq] at hok
  obtain ⟨b, _, hplan, u, happly, rfl, rfl⟩ := hok
  exact ⟨b, hplan, apply_eq_ok happly⟩

theorem wrote_of_commitUnlessEmpty
    (hcommit : env.commitUnlessEmpty s w primary kind revertsTo info = .ok (b, res))
    (hwrite : b.write env.now s = .ok t) :
    t = s ∨ Wrote env s t w primary kind revertsTo info none [] b := by
  rcases commitUnlessEmpty_eq_ok.mp hcommit with
    ⟨-, hout⟩ | ⟨-, commits, minted, hrun, hplanned, hout⟩
  · cases hout
    cases hwrite
    exact .inl rfl
  · cases hout
    exact .inr ⟨rfl, rfl, ⟨_, commits, minted, hrun, rfl⟩, hwrite, valid_of_planned hplanned hwrite⟩

theorem outcome_of_command {cmd : Command}
    (hplan : env.planCommand s cmd = .ok (b, res)) (hwrite : b.write env.now s = .ok t) :
    Outcome env s t (.command cmd) := by
  obtain ⟨-, z, ch, w, hz, -, hresolve, hexpand, hcommit⟩ := planCommand_eq_ok.mp hplan
  rcases wrote_of_commitUnlessEmpty hcommit hwrite with hsame | hwrote
  · exact .unchanged hsame
  · obtain ⟨hallowed, hasks⟩ := RecordOp.resolves_ask hresolve
    exact .expanded (.command hz rfl hallowed hasks) hexpand (.inl rfl) hwrote

theorem outcome_of_rollback {target : Serial}
    (hplan : env.planRollback s zid target info = .ok (b, res))
    (hwrite : b.write env.now s = .ok t) : Outcome env s t (.rollback zid target info) := by
  obtain ⟨z, hz, ⟨-, hout⟩ | ⟨-, -, -, since, undone, w, hsince, hundo, hexpand, hcommit⟩⟩ :=
    planRollback_eq_ok.mp hplan
  · cases hout
    cases hwrite
    exact .unchanged rfl
  · rcases wrote_of_commitUnlessEmpty hcommit hwrite with hsame | hwrote
    · exact .unchanged hsame
    · obtain ⟨soa, ch, inserts, hcs, hres, hsoa, hasks, hrestored⟩ := undo_asks hundo
      obtain ⟨cs, res', minted⟩ := undone
      cases hcs
      cases hres
      exact .expanded (.rollback hz hsince hsoa hasks hrestored) hexpand (.inl rfl) hwrote

theorem outcome_of_createZone {records : List Record}
    (hplan : env.planCreateZone s z records info = .ok (b, res))
    (hwrite : b.write env.now s = .ok t) : Outcome env s t (.createZone z records info) := by
  obtain ⟨-, -, hvalid, w, commits, minted, hexpand, hrun, hplanned, hout⟩ :=
    planCreateZone_eq_ok.mp hplan
  cases hout
  exact .expanded (.create (RecordOp.inserts_asks _ _) hvalid) hexpand (.inr rfl)
    ⟨rfl, rfl, ⟨true, commits, minted, hrun, rfl⟩, hwrite, valid_of_planned hplanned hwrite⟩

theorem outcome_of_updateZone
    (hplan : env.planUpdateZone s z info = .ok (b, res)) (hwrite : b.write env.now s = .ok t) :
    Outcome env s t (.updateZone z info) := by
  obtain ⟨-, before, hbefore, hname, ⟨-, hout⟩ | ⟨-, events, hevents, -, hout⟩⟩ :=
    planUpdateZone_eq_ok.mp hplan
  · cases hout
    cases hwrite
    exact .unchanged rfl
  · cases hout
    exact .updated hbefore hname hevents rfl rfl rfl hwrite

theorem outcome_of_deleteZone
    (hplan : env.planDeleteZone s zid info = .ok (b, res)) (hwrite : b.write env.now s = .ok t) :
    Outcome env s t (.deleteZone zid info) := by
  obtain ⟨z, w, commits, minted, hz, hremovals, hrun, hplanned, hout⟩ :=
    planDeleteZone_eq_ok.mp hplan
  cases hout
  exact .deleted hz hremovals
    ⟨rfl, rfl, ⟨true, commits, minted, hrun, rfl⟩, hwrite, valid_of_planned hplanned hwrite⟩

theorem planOp_beside (hop : op.beside = true) (hplan : env.planOp s op = .ok (b, res)) :
    b.set = ChangeSet.blank ∧ b.zones = [] ∧ b.commits = [] := by
  cases op with
  | settings changes =>
    simp only [planOp, planSettings, bind_eq_ok, pure_eq_ok, Prod.mk.injEq] at hplan
    obtain ⟨-, -, rfl, -⟩ := hplan
    exact ⟨rfl, rfl, rfl⟩
  | createKey name algorithm secret =>
    simp only [planOp, planCreateKey, bind_eq_ok, pure_eq_ok, Prod.mk.injEq] at hplan
    obtain ⟨-, -, -, -, rfl, -⟩ := hplan
    exact ⟨rfl, rfl, rfl⟩
  | revokeKey id =>
    simp only [planOp, planRevokeKey, bind_eq_ok, pure_eq_ok, Prod.mk.injEq] at hplan
    obtain ⟨-, -, rfl, -⟩ := hplan
    exact ⟨rfl, rfl, rfl⟩
  | createToken k =>
    cases hplan
    exact ⟨rfl, rfl, rfl⟩
  | revokeToken id guard =>
    simp only [planOp, planRevokeToken, bind_eq_ok, pure_eq_ok, Prod.mk.injEq] at hplan
    obtain ⟨-, -, -, -, rfl, -⟩ := hplan
    exact ⟨rfl, rfl, rfl⟩
  | _ => cases hop

theorem perform_outcome (hok : env.perform s op = .ok (t, res)) : Outcome env s t op := by
  obtain ⟨b, hplan, hsame | hwrite⟩ := perform_eq_ok hok
  · exact .unchanged hsame
  · cases op with
    | command cmd => exact outcome_of_command hplan hwrite
    | createZone z records info => exact outcome_of_createZone hplan hwrite
    | updateZone z info => exact outcome_of_updateZone hplan hwrite
    | deleteZone zid info => exact outcome_of_deleteZone hplan hwrite
    | rollback zid target info => exact outcome_of_rollback hplan hwrite
    | reconcile zid info =>
      obtain ⟨z, w, hz, hreconcile, hcommit⟩ := planReconcile_eq_ok.mp hplan
      rcases wrote_of_commitUnlessEmpty hcommit hwrite with hsame | hwrote
      · exact .unchanged hsame
      · exact .reconciled hz hreconcile hwrote
    | settings _ | createKey _ _ _ | revokeKey _ | createToken _ | revokeToken _ _ =>
      obtain ⟨hset, hzones, hcommits⟩ := planOp_beside rfl hplan
      exact .aside (write_aside hzones hset hcommits hwrite)

theorem Wrote.rewrites {extra : Option Commit} {zones : List ZoneOp}
    (hwrote : Wrote env s t w primary kind revertsTo info extra zones b)
    (hnone : ∀ id, ZoneOp.delete id ∉ zones) : w.cs.Rewrites env.now s t := by
  rw [← hwrote.set]
  exact write_rewrites (by rw [hwrote.zones]; exact hnone) hwrote.write

theorem Outcome.sound (h : s.Sound) (hout : Outcome env s t op) : t.Sound := by
  cases hout with
  | unchanged hsame => rwa [hsame]
  | aside htables => exact h.of_tables htables.1 htables.2.1 htables.2.2
  | expanded _ _ _ hwrote => exact write_sound h hwrote.write
  | reconciled _ _ hwrote => exact write_sound h hwrote.write
  | updated _ _ _ _ _ _ hwrite => exact write_sound h hwrite
  | deleted _ _ hwrote => exact write_sound h hwrote.write

end Env

def Store.KeepsNames (s t : Store) : Prop :=
  ∀ o ∈ s.zones, ∀ z ∈ t.zones, o.id = z.id → o.name = z.name

theorem Store.Sound.keepsNames_of_eq (h : s.Sound) (hzones : t.zones = s.zones) :
    s.KeepsNames t := by
  intro o ho z hz hid
  rw [hzones] at hz
  rw [h.zone_ext ho hz hid]

namespace Env

variable {env : Env} {s t : Store} {op : Operation} {res : Result}

theorem Wrote.keepsNames {w : Work} {primary : Zone} {kind : CommitKind}
    {revertsTo : Option Serial} {info : Meta} {extra : Option Commit} {zones : List ZoneOp}
    {b : Batch} (h : s.Sound) (hwrote : Wrote env s t w primary kind revertsTo info extra zones b)
    (hone : zones.length ≤ 1) (hnone : ∀ z, ZoneOp.update z ∉ zones) : s.KeepsNames t := by
  intro o ho z hz hid
  refine write_zone_name h (by rwa [hwrote.zones]) ?_ hwrote.write ho hz hid
  intro z hz
  rw [hwrote.zones] at hz
  exact absurd hz (hnone z)

theorem Outcome.keepsNames (h : s.Sound) (hout : Outcome env s t op) : s.KeepsNames t := by
  cases hout with
  | unchanged hsame => exact h.keepsNames_of_eq (by rw [hsame])
  | aside htables => exact h.keepsNames_of_eq htables.1
  | expanded _ _ hzones hwrote =>
    rcases hzones with rfl | rfl
    · exact hwrote.keepsNames h (by simp) (by simp)
    · exact hwrote.keepsNames h (by simp) (by simp)
  | reconciled _ _ hwrote => exact hwrote.keepsNames h (by simp) (by simp)
  | @updated z before info events b hbefore hname _ _ _ hzones hwrite =>
    intro o ho z' hz' hid
    refine write_zone_name h (by simp [hzones]) ?_ hwrite ho hz' hid
    intro u hu o ho hid
    rw [hzones, mem_singleton] at hu
    cases hu
    obtain ⟨hmem, hbid⟩ := h.zoneByID_eq_ok.mp hbefore
    rw [h.zone_ext ho hmem (hid.trans hbid.symm)]
    exact hname
  | deleted _ _ hwrote => exact hwrote.keepsNames h (by simp) (by simp)

end Env

def Store.blank : Store := ⟨[], [], [], [], [], [], 0⟩

def performAll (s : Store) (steps : List (Env × Operation)) : Except Err Store :=
  steps.foldlM (fun s step => (step.1.perform s step.2).map Prod.fst) s

theorem performAll_append {first : List (Env × Operation)} :
    performAll s (first ++ rest) = .ok t ↔
      ∃ mid, performAll s first = .ok mid ∧ performAll mid rest = .ok t := by
  rw [performAll, foldlM_append, bind_eq_ok]
  rfl

def Along (C : Store → Env → Operation → Prop) : Store → List (Env × Operation) → Prop
  | _, [] => True
  | s, (env, op) :: rest =>
    C s env op ∧ ∀ t res, env.perform s op = .ok (t, res) → Along C t rest

def Env.after (env : Env) (s : Store) (op : Operation) : Store :=
  match env.perform s op with
  | .ok (t, _) => t
  | .error _ => s

theorem Along.cons {env : Env} {op : Operation} (hhere : C s env op)
    (hrest : Along C (env.after s op) rest) : Along C s ((env, op) :: rest) := by
  refine ⟨hhere, fun t res hok => ?_⟩
  rw [Env.after, hok] at hrest
  exact hrest

theorem performAll_invariant (Inv : Store → Prop)
    (hstep : ∀ {s env op t res}, C s env op → env.perform s op = .ok (t, res) → Inv s → Inv t)
    (hcond : Along C s steps) (hrun : performAll s steps = .ok t) (hstart : Inv s) : Inv t := by
  induction steps generalizing s with
  | nil =>
    cases hrun
    exact hstart
  | cons head tail ih =>
    rw [performAll, foldlM_cons_eq_ok] at hrun
    obtain ⟨mid, hhead, htail⟩ := hrun
    obtain ⟨⟨_, res⟩, hperform, rfl⟩ := map_eq_ok.mp hhead
    exact ih (hcond.2 _ res hperform) htail (hstep hcond.1 hperform hstart)

theorem Along.imp {C' : Store → Env → Operation → Prop}
    (himp : ∀ {s env op}, C s env op → C' s env op) (h : Along C s steps) : Along C' s steps := by
  induction steps generalizing s with
  | nil => exact trivial
  | cons head tail ih => exact ⟨himp h.1, fun t res hok => ih (h.2 t res hok)⟩

theorem along_of_forall (h : ∀ s env op, C s env op) : Along C s steps := by
  induction steps generalizing s with
  | nil => exact trivial
  | cons head tail ih => exact ⟨h s head.1 head.2, fun _ _ _ => ih⟩

theorem performAll_sound (hrun : performAll Store.blank steps = .ok t) : t.Sound :=
  performAll_invariant Store.Sound (fun _ hok hs => (Env.perform_outcome hok).sound hs)
    (along_of_forall fun _ _ _ => trivial) hrun Store.Sound.empty

end Wegweiser
