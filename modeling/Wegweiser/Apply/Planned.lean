/-
What a planner that returns a batch has been through: one inversion lemma for
each of them, down to the change set, the commits and the writes that were tried.
-/
import Wegweiser.Apply.Operation

namespace Wegweiser

open Checked List Batch

namespace Env

variable {env : Env} {s : Store} {w : Work} {primary z : Zone} {kind : CommitKind}
  {revertsTo : Option Serial} {info : Meta} {followed : Bool} {res : Result} {b : Batch}
  {out : Batch × Result}

theorem finish_eq_ok :
    env.finish s res b = .ok out ↔
      b.planned env.now s = .ok () ∧
        out = (b, { res with commits := res.commits ++ b.commits }) := by
  simp only [finish, check_eq_ok, return_eq_ok]

/-- The commits `Applier.plan` makes of the entries of a change set, and how many
identifiers are minted after them. -/
abbrev planCommits (env : Env) (w : Work) (primary : Zone) (kind : CommitKind)
    (revertsTo : Option Serial) (info : Meta) (followed : Bool) : Except Err (List Commit × Nat) :=
  w.cs.entries.foldlM (env.planZone primary kind revertsTo info followed) ([], w.minted)

variable {minted : Nat} {done out' : List Commit × Nat} {commits : List Commit} {zid : ZoneID}

theorem plan_eq_ok :
    env.plan w primary kind revertsTo info followed = .ok (b, minted) ↔
      ∃ commits, env.planCommits w primary kind revertsTo info followed = .ok (commits, minted) ∧
        b = { blank with set := w.cs, commits } := by
  simp only [plan, bind_eq_ok, pure_eq_ok, Prod.mk.injEq, Prod.exists]
  constructor
  · rintro ⟨commits, n, hrun, rfl, rfl⟩
    exact ⟨commits, hrun, rfl⟩
  · rintro ⟨commits, hrun, rfl⟩
    exact ⟨commits, minted, hrun, rfl, rfl⟩

theorem planZone_eq_ok {e : ZoneChanges} :
    env.planZone primary kind revertsTo info followed done e = .ok out' ↔
      e.changes.empty = true ∧ out' = done ∨
        e.changes.empty = false ∧ ∃ c,
          env.planCommit primary kind revertsTo info followed e (env.mint done.2) = .ok c ∧
            out' = (done.1 ++ [c], done.2 + 1) := by
  rw [planZone]
  cases e.changes.empty with
  | true => simp [eq_comm]
  | false =>
    simp only [Bool.false_eq_true, if_false, false_and, false_or, true_and, bind_eq_ok,
      pure_eq_ok]
    exact exists_congr fun c => and_congr_right fun _ => eq_comm

theorem planZones_forall₂ {entries : List ZoneChanges}
    (hrun : entries.foldlM (env.planZone primary kind revertsTo info followed) done = .ok out') :
    ∃ new, out'.1 = done.1 ++ new ∧
      Forall₂ (fun e c => ∃ n,
          env.planCommit primary kind revertsTo info followed e (env.mint n) = .ok c)
        (entries.filter fun e => !e.changes.empty) new := by
  induction entries generalizing done with
  | nil =>
    cases hrun
    exact ⟨[], by simp, .nil⟩
  | cons head tail ih =>
    obtain ⟨mid, hhead, htail⟩ := foldlM_cons_eq_ok.mp hrun
    obtain ⟨new, hnew, hall⟩ := ih htail
    rcases planZone_eq_ok.mp hhead with ⟨hempty, rfl⟩ | ⟨hempty, c, hc, rfl⟩
    · refine ⟨new, hnew, ?_⟩
      rw [filter_cons_of_neg (by simp [hempty])]
      exact hall
    · refine ⟨c :: new, by rw [hnew, append_assoc, singleton_append], ?_⟩
      rw [filter_cons_of_pos (by simp [hempty])]
      exact .cons ⟨_, hc⟩ hall

theorem planCommits_forall₂
    (hrun : env.planCommits w primary kind revertsTo info followed = .ok (commits, minted)) :
    Forall₂ (fun e c => ∃ n,
        env.planCommit primary kind revertsTo info followed e (env.mint n) = .ok c)
      (w.cs.entries.filter fun e => !e.changes.empty) commits := by
  obtain ⟨new, hnew, hall⟩ := planZones_forall₂ hrun
  have hcommits : commits = new := by simpa using hnew
  rwa [hcommits]

theorem planCommits_ne_nil (hempty : w.cs.empty = false)
    (hrun : env.planCommits w primary kind revertsTo info followed = .ok (commits, minted)) :
    commits ≠ [] := by
  intro hnil
  have hall := planCommits_forall₂ hrun
  rw [hnil, forall₂_nil_right_iff, filter_eq_nil_iff] at hall
  have hcs : w.cs.empty = true := all_eq_true.mpr fun e he => by simpa using hall e he
  rw [hempty] at hcs
  cases hcs

theorem commitUnlessEmpty_eq_ok :
    env.commitUnlessEmpty s w primary kind revertsTo info = .ok out ↔
      w.cs.empty = true ∧ out = (blank, w.res) ∨
        w.cs.empty = false ∧ ∃ commits minted,
          env.planCommits w primary kind revertsTo info (!(w.cs.pending primary.id).empty) =
            .ok (commits, minted) ∧
          ({ blank with set := w.cs, commits } : Batch).planned env.now s = .ok () ∧
          out = ({ blank with set := w.cs, commits },
            { w.res with commits := w.res.commits ++ commits }) := by
  rw [commitUnlessEmpty]
  cases w.cs.empty with
  | true => simp [eq_comm]
  | false =>
    simp only [Bool.false_eq_true, if_false, false_and, false_or, true_and, commitAs, bind_eq_ok,
      Prod.exists, plan_eq_ok, finish_eq_ok]
    constructor
    · rintro ⟨b, minted, ⟨commits, hrun, rfl⟩, hplanned, rfl⟩
      exact ⟨commits, minted, hrun, hplanned, rfl⟩
    · rintro ⟨commits, minted, hrun, hplanned, rfl⟩
      exact ⟨_, minted, ⟨commits, hrun, rfl⟩, hplanned, rfl⟩

theorem planCommand_eq_ok {cmd : Command} :
    env.planCommand s cmd = .ok out ↔
      cmd.validate = .ok () ∧ ∃ z ch w,
        s.zoneByID cmd.zoneID = .ok z ∧
        cmd.expectedSerial.all (· == z.soa.serial) = true ∧
        (env.normalize cmd.zoneID cmd.ops 0).1.foldlM (resolve s z) Changes.blank = .ok ch ∧
        env.expandReverse s
          ⟨⟨[⟨z, ch⟩],
            if (env.normalize cmd.zoneID cmd.ops 0).1.any RecordOp.overrides then
              some Policy.lastWins else none⟩,
            Result.blank, (env.normalize cmd.zoneID cmd.ops 0).2⟩ z = .ok w ∧
        env.commitUnlessEmpty s w z cmd.kind none ⟨cmd.source, cmd.actor, cmd.comment⟩ =
          .ok out := by
  simp only [planCommand, resolveAll, bind_eq_ok, pure_eq_ok, ensure_eq_ok]
  constructor
  · rintro ⟨_, hvalid, z, hz, -, hserial, w₀, ⟨ch, hch, rfl⟩, w, hw, hout⟩
    exact ⟨hvalid, z, ch, w, hz, hserial, hch, hw, hout⟩
  · rintro ⟨hvalid, z, ch, w, hz, hserial, hch, hw, hout⟩
    exact ⟨(), hvalid, z, hz, ⟨⟩, hserial, _, ⟨ch, hch, rfl⟩, w, hw, hout⟩

theorem planReconcile_eq_ok :
    env.planReconcile s zid info = .ok out ↔
      ∃ z w, s.zoneByID zid = .ok z ∧ env.reconcileInto s Work.blank z = .ok w ∧
        env.commitUnlessEmpty s w z .edit none info = .ok out := by
  simp only [planReconcile, bind_eq_ok, exists_and_left]

theorem planRollback_eq_ok {target : Serial} :
    env.planRollback s zid target info = .ok out ↔
      ∃ z, s.zoneByID zid = .ok z ∧ (target = z.soa.serial ∧ out = (blank, Result.blank) ∨
          target ≠ z.soa.serial ∧ target.comparable z.soa.serial = true ∧
            target.before z.soa.serial = true ∧ ∃ since undone w,
              commitsBetween s zid target z.soa.serial = .ok since ∧
              env.undo s z (since.flatMap Commit.events) (Work.blank.inZone z id) = .ok undone ∧
              env.expandReverse s undone z = .ok w ∧
              env.commitUnlessEmpty s w z .rollback (some target) info = .ok out) := by
  simp only [planRollback, bind_eq_ok]
  refine exists_congr fun z => and_congr_right fun _ => ?_
  by_cases htarget : target = z.soa.serial
  · simp only [htarget, if_true, true_and, ne_eq, not_true_eq_false, false_and, or_false,
      Except.ok.injEq]
    exact eq_comm
  · simp only [htarget, if_false, false_and, false_or, not_false_eq_true, true_and, bind_eq_ok,
      ensure_eq_ok, Bool.and_eq_true, ne_eq]
    constructor
    · rintro ⟨-, ⟨hcomp, hbefore⟩, since, hsince, undone, hundo, w, hw, hout⟩
      exact ⟨hcomp, hbefore, since, undone, w, hsince, hundo, hw, hout⟩
    · rintro ⟨hcomp, hbefore, since, undone, w, hsince, hundo, hw, hout⟩
      exact ⟨⟨⟩, ⟨hcomp, hbefore⟩, since, hsince, undone, hundo, w, hw, hout⟩

/-- The zone a creation writes: a zone without an identifier gets the first one
minted. -/
def newZone (env : Env) (z : Zone) : Zone × Nat :=
  if z.id = .empty then ({ z with id := env.mint 0 }, 1) else (z, 0)

theorem planCreateZone_eq_ok {records : List Record} :
    env.planCreateZone s z records info = .ok out ↔
      z.validate = .ok () ∧ z.soa.serial.v ≠ 0 ∧
        validateZone (env.newZone z).1
          (env.mintIDs (env.newZone z).1.id records (env.newZone z).2).1 = .ok () ∧
        ∃ w commits minted,
          env.expandReverse s
            { Work.blank.inZone (env.newZone z).1 (fun ch =>
                (env.mintIDs (env.newZone z).1.id records (env.newZone z).2).1.foldl
                  Changes.insert ch) with
              minted := (env.mintIDs (env.newZone z).1.id records (env.newZone z).2).2 }
            (env.newZone z).1 = .ok w ∧
          env.planCommits w (env.newZone z).1 .zoneCreate none info true =
            .ok (commits, minted) ∧
          ({ blank with
              set := w.cs, commits, zones := [.create (env.newZone z).1] } : Batch).planned
            env.now s = .ok () ∧
          out = ({ blank with
              set := w.cs, commits, zones := [.create (env.newZone z).1] },
            { w.res with commits := w.res.commits ++ commits }) := by
  simp only [planCreateZone, bind_eq_ok, ensure_eq_ok, bne_iff_ne, Prod.exists, plan_eq_ok,
    finish_eq_ok]
  constructor
  · rintro ⟨_, hvalid, -, hserial, _, hzone, w, hw, b, minted, ⟨commits, hrun, rfl⟩, hplanned,
      rfl⟩
    exact ⟨hvalid, hserial, hzone, w, commits, minted, hw, hrun, hplanned, rfl⟩
  · rintro ⟨hvalid, hserial, hzone, w, commits, minted, hw, hrun, hplanned, rfl⟩
    exact ⟨(), hvalid, ⟨⟩, hserial, (), hzone, w, hw, _, minted, ⟨commits, hrun, rfl⟩, hplanned,
      rfl⟩

def nextZone (before z : Zone) : Zone :=
  { z with soa := { z.soa with serial := before.soa.serial.next } }

theorem planUpdateZone_eq_ok :
    env.planUpdateZone s z info = .ok out ↔
      z.validate = .ok () ∧ ∃ before, s.zoneByID z.id = .ok before ∧ before.name = z.name ∧
        (sameZoneSettings before (nextZone before z) = true ∧
            out = (blank, Result.blank) ∨
          sameZoneSettings before (nextZone before z) = false ∧ ∃ events,
            env.updateEvents before (nextZone before z) = .ok events ∧
            ({ blank with
                commits := [env.updateCommit before (nextZone before z) info events],
                zones := [.update (nextZone before z)] } : Batch).planned env.now s = .ok () ∧
            out = ({ blank with
                commits := [env.updateCommit before (nextZone before z) info events],
                zones := [.update (nextZone before z)] },
              { Result.blank with
                commits := [env.updateCommit before (nextZone before z) info events] })) := by
  simp only [planUpdateZone, bind_eq_ok, ensure_eq_ok, beq_iff_eq]
  constructor
  · rintro ⟨_, hvalid, before, hbefore, -, hname, hout⟩
    refine ⟨hvalid, before, hbefore, hname, ?_⟩
    split at hout
    · next hsame =>
      cases hout
      exact .inl ⟨hsame, rfl⟩
    · next hsame =>
      obtain ⟨events, hevents, hfinish⟩ := bind_eq_ok.mp hout
      obtain ⟨hplanned, rfl⟩ := finish_eq_ok.mp hfinish
      exact .inr ⟨Bool.eq_false_iff.mpr hsame, events, hevents, hplanned, rfl⟩
  · rintro ⟨hvalid, before, hbefore, hname, hout⟩
    refine ⟨(), hvalid, before, hbefore, ⟨⟩, hname, ?_⟩
    rcases hout with ⟨hsame, rfl⟩ | ⟨hsame, events, hevents, hplanned, rfl⟩
    · exact if_pos hsame
    · refine (if_neg (Bool.eq_false_iff.mp hsame)).trans ?_
      exact bind_eq_ok.mpr ⟨events, hevents, finish_eq_ok.mpr ⟨hplanned, rfl⟩⟩

theorem planDeleteZone_eq_ok :
    env.planDeleteZone s zid info = .ok out ↔
      ∃ z w commits minted, s.zoneByID zid = .ok z ∧
        (s.managedByZone zid).foldlM (queueRemoval s) Work.blank = .ok w ∧
        env.planCommits w z .edit none info true = .ok (commits, minted) ∧ ({ blank with
            set := w.cs, commits := env.deleteCommit z info (env.mint minted) :: commits,
            zones := [.delete zid] } : Batch).planned env.now s = .ok () ∧
        out = ({ blank with
            set := w.cs, commits := env.deleteCommit z info (env.mint minted) :: commits,
            zones := [.delete zid] },
          { Result.blank with
            commits := env.deleteCommit z info (env.mint minted) :: commits }) := by
  simp only [planDeleteZone, bind_eq_ok, Prod.exists, plan_eq_ok, finish_eq_ok]
  constructor
  · rintro ⟨z, hz, w, hw, b, minted, ⟨commits, hrun, rfl⟩, hplanned, rfl⟩
    exact ⟨z, w, commits, minted, hz, hw, hrun, hplanned, rfl⟩
  · rintro ⟨z, w, commits, minted, hz, hw, hrun, hplanned, rfl⟩
    exact ⟨z, hz, w, hw, _, minted, ⟨commits, hrun, rfl⟩, hplanned, rfl⟩

end Env

end Wegweiser
