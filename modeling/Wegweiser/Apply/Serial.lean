/-
Calls side by side, compared with the same calls one at a time.

A batch is applied to a store that may have moved on since it was planned. The lock of a
zone keeps that zone as the plan found it, and nothing keeps the others.
-/
import Mathlib.Data.Fintype.Basic
import Mathlib.Data.List.Permutation
import Wegweiser.Apply.Calls

namespace Wegweiser

open Checked List Sample Option Function Store

/-- One planned batch: what is asked for, what its plan finds around it, and the clock of
its write. -/
structure Task where
  op : Operation
  env : Env
  clock : Nat

namespace Task

/-- A plan and its write, with nothing in between. -/
def perform (task : Task) (s : Store) : Except Err Store := do
  let (b, _) ← task.env.planOp s task.op
  b.apply task.clock s

def performAll (s : Store) (tasks : List Task) : Except Err Store :=
  tasks.foldlM (fun s task => task.perform s) s

theorem performAll_concat {s mid t : Store} {tasks : List Task} {task : Task}
    (hrun : performAll s tasks = .ok mid) (hlast : task.perform mid = .ok t) :
    performAll s (tasks ++ [task]) = .ok t := by
  refine foldlM_append_eq_ok.mpr ⟨mid, hrun, ?_⟩
  rw [foldlM_cons_eq_ok]
  exact ⟨t, hlast, rfl⟩

end Task

/-- The two batches a call can have. The fill is a commit of its own, and its failure fails
the call but takes nothing back. -/
inductive Part where
  | own
  | fill
deriving DecidableEq

namespace Call

/-- The zone whose lock a call takes, for its fill as well. -/
def key (c : Call) : Option ZoneID := c.op.locks c.env

/-- What a part of a call does. -/
def task (c : Call) : Part → Option Task
  | .own => some ⟨c.op, c.env, c.clock⟩
  | .fill =>
    match c.op with
    | .createZone z _ info =>
      some ⟨.reconcile (c.env.newZone z).1.id info.filling, c.fillEnv, c.fillClock⟩
    | .updateZone z info => some ⟨.reconcile z.id info.filling, c.fillEnv, c.fillClock⟩
    | _ => none

theorem task_own (c : Call) : c.task .own = some ⟨c.op, c.env, c.clock⟩ := rfl

/-- What a call that is written has left to do: to fill the zone whose lock it had. -/
structure Fills (c : Call) (zid : ZoneID) (info : Meta) : Prop where
  key : c.key = some zid
  task : c.task .fill = some ⟨.reconcile zid info, c.fillEnv, c.fillClock⟩
  after : ∃ was, c.after was ≠ .succeeded

theorem after_cases (c : Call) (was : Bool) :
    c.after was = .succeeded ∨ ∃ zid info, c.after was = .written zid info ∧ c.Fills zid info := by
  cases hop : c.op with
  | createZone z records info =>
    by_cases hkind : z.kind = .reverse
    · have hafter : c.after was = .written (c.env.newZone z).1.id info.filling := by
        rw [Call.after, hop]
        exact if_pos hkind
      exact .inr ⟨_, _, hafter, by rw [key, hop]; rfl, by rw [Call.task, hop],
        was, fun hdone => by cases hafter.symm.trans hdone⟩
    · exact .inl (by rw [Call.after, hop]; exact if_neg hkind)
  | updateZone z info =>
    by_cases hon : (!was && c.env.autoReverse z) = true
    · have hafter : c.after was = .written z.id info.filling := by
        rw [Call.after, hop]
        exact if_pos hon
      exact .inr ⟨_, _, hafter, by rw [key, hop]; rfl, by rw [Call.task, hop],
        was, fun hdone => by cases hafter.symm.trans hdone⟩
    · exact .inl (by rw [Call.after, hop]; exact if_neg hon)
  | _ => exact .inl (by rw [Call.after, hop])

end Call

/-- The batch that a call is about to apply. -/
def Phase.ready : Phase → Option (Part × Batch)
  | .planned _ b => some (.own, b)
  | .filling _ b => some (.fill, b)
  | _ => none

def tasks {ι : Type} (calls : ι → Call) (parts : List (ι × Part)) : List Task :=
  parts.filterMap fun (i, part) => (calls i).task part

/-- Where a call is, with the parts of it that are done. -/
def Phase.Past (c : Call) (done : Part → Prop) : Phase → Prop
  | .waiting | .read _ | .planned _ _ => ¬ done .own ∧ ¬ done .fill
  | .written zid info => done .own ∧ ¬ done .fill ∧ c.Fills zid info
  | .filling zid _ => done .own ∧ ¬ done .fill ∧ ∃ info, c.Fills zid info
  | .succeeded => done .own ∧ ((done .fill ∧ ∃ was, c.after was ≠ .succeeded) ∨
      ¬ done .fill ∧ ∃ was, c.after was = .succeeded)
  | .failed => ¬ done .fill ∧ (done .own → ∃ was, c.after was ≠ .succeeded)

theorem Call.after_past {c : Call} {was : Bool} {done : Part → Prop} (hown : done .own)
    (hfill : ¬ done .fill) : (c.after was).Past c done := by
  rcases c.after_cases was with hdone | ⟨zid, info, hwritten, hfills⟩
  · rw [hdone]
    exact ⟨hown, .inr ⟨hfill, was, hdone⟩⟩
  · rw [hwritten]
    exact ⟨hown, hfill, hfills⟩

namespace Node

variable {ι : Type} [DecidableEq ι] {calls : ι → Call} {n m : Node ι} {i : ι} {s t : Store}
  {past : List (ι × Part)} {p : Phase}

/-- No call has begun. -/
def resting (s : Store) : Node ι := ⟨s, fun _ => .waiting, []⟩

/-- Whenever the store changes, no call on another zone is between its plan and its write. -/
def Undisturbed (calls : ι → Call) : Node ι → List ι → Prop
  | _, [] => True
  | n, i :: rest =>
    ((step calls n i).store = n.store ∨
      ∀ j, (n.phase j).ready ≠ none → (calls j).key = (calls i).key) ∧
    Undisturbed calls (step calls n i) rest

theorem undisturbed_of_oneZone {schedule : List ι} (hzone : ∀ i j, (calls i).key = (calls j).key) :
    Undisturbed calls n schedule := by
  induction schedule generalizing n with
  | nil => trivial
  | cons head tail ih => exact ⟨.inr fun j _ => hzone j head, ih⟩

/-- A batch that is ready is what planning it now would give, and the lock of its zone is
held. -/
def Holds (calls : ι → Call) (n : Node ι) (i : ι) (r : Part × Batch) : Prop :=
  (∀ key, (calls i).key = some key → key ∈ n.locked) ∧
    ∃ task res, (calls i).task r.1 = some task ∧ task.env.planOp n.store task.op = .ok (r.2, res)

/-- The store is what the parts carried out so far give one at a time. -/
structure Kept (calls : ι → Call) (s : Store) (n : Node ι) (past : List (ι × Part)) : Prop where
  serial : Task.performAll s (tasks calls past) = .ok n.store
  nodup : past.Nodup
  phases : ∀ i, (n.phase i).Past (calls i) fun part => (i, part) ∈ past
  ready : ∀ i r, (n.phase i).ready = some r → n.Holds calls i r
  apart : ∀ i j, i ≠ j → (n.phase i).ready ≠ none → (n.phase j).ready ≠ none →
    (calls i).key ≠ (calls j).key

omit [DecidableEq ι] in
theorem Kept.start : Kept calls s (resting s) [] where
  serial := rfl
  nodup := nodup_nil
  phases _ := ⟨not_mem_nil, not_mem_nil⟩
  ready _ _ hready := nomatch hready
  apart _ _ _ hready := absurd rfl hready

/-- One call moves on, and the plans of the others still hold. -/
theorem Kept.move {past' : List (ι × Part)} (h : Kept calls s n past)
    (hserial : Task.performAll s (tasks calls past') = .ok m.store) (hnodup : past'.Nodup)
    (hpast : ∀ j part, j ≠ i → ((j, part) ∈ past' ↔ (j, part) ∈ past))
    (hphase : m.phase = update n.phase i p)
    (hp : p.Past (calls i) fun part => (i, part) ∈ past')
    (hown : ∀ r, p.ready = some r → m.Holds calls i r)
    (hothers : ∀ j r, j ≠ i → (n.phase j).ready = some r → n.Holds calls j r → m.Holds calls j r)
    (hapart : p.ready ≠ none → ∀ j, j ≠ i → (n.phase j).ready ≠ none →
      (calls i).key ≠ (calls j).key) : Kept calls s m past' := by
  refine ⟨hserial, hnodup, fun j => ?_, fun j r hr => ?_, fun j k hjk hj hk => ?_⟩
  · rw [hphase]
    by_cases hj : j = i
    · subst hj
      rwa [update_self]
    · rw [update_of_ne hj]
      have hsame : (fun part => (j, part) ∈ past') = fun part => (j, part) ∈ past :=
        funext fun part => propext (hpast j part hj)
      rw [hsame]
      exact h.phases j
  · rw [hphase] at hr
    by_cases hj : j = i
    · subst hj
      rw [update_self] at hr
      exact hown r hr
    · rw [update_of_ne hj] at hr
      exact hothers j r hj hr (h.ready j r hr)
  · rw [hphase] at hj hk
    by_cases hji : j = i
    · subst hji
      rw [update_self] at hj
      rw [update_of_ne (Ne.symm hjk)] at hk
      exact hapart hj k (Ne.symm hjk) hk
    · rw [update_of_ne hji] at hj
      by_cases hki : k = i
      · subst hki
        rw [update_self] at hk
        exact (hapart hk j hji hj).symm
      · rw [update_of_ne hki] at hk
        exact h.apart j k hjk hj hk

theorem Kept.turn (h : Kept calls s n past) (hready : p.ready = none)
    (hp : p.Past (calls i) fun part => (i, part) ∈ past) : Kept calls s (n.enter i p) past := by
  refine h.move (m := n.enter i p) h.serial h.nodup (fun _ _ _ => .rfl) rfl hp (fun r hr => ?_)
    (fun _ _ _ _ hholds => hholds) (fun hsome => absurd hready hsome)
  rw [hready] at hr
  cases hr

/-- A plan is made where the lock of its zone is free, so no other call has one there. -/
theorem Kept.plan {key : ZoneID} {part : Part} {task : Task} {next : Batch → Phase}
    (h : Kept calls s n past) (hkey : (calls i).key = some key)
    (htask : (calls i).task part = some task) (hready : ∀ b, (next b).ready = some (part, b))
    (hnext : ∀ b, (next b).Past (calls i) fun part => (i, part) ∈ past)
    (hfailed : Phase.failed.Past (calls i) fun part => (i, part) ∈ past) :
    Kept calls s (n.plan i (some key) (task.env.planOp n.store task.op) next) past := by
  rw [Node.plan.eq_def]
  split
  · exact h
  · next hfree =>
    split
    · next b res hplan =>
      refine h.move h.serial h.nodup (fun _ _ _ => .rfl) rfl (hnext b) (fun r hr => ?_)
        (fun j r _ _ hholds => ⟨fun k hk => mem_append_right _ (hholds.1 k hk), hholds.2⟩)
        fun _ j hj hother hsame => ?_
      · rw [hready] at hr
        cases hr
        refine ⟨fun k hk => ?_, task, res, htask, hplan⟩
        rw [hkey] at hk
        cases hk
        exact mem_append_left _ (mem_singleton_self key)
      · obtain ⟨r, hr⟩ := ne_none_iff_exists'.mp hother
        have hlocked := (h.ready j r hr).1 key (hsame ▸ hkey)
        simp [hlocked] at hfree
    · exact h.turn rfl hfailed

theorem Kept.write {key : ZoneID} {part : Part} {b : Batch} {task : Task} {now : Nat}
    {next : Phase} (h : Kept calls s n past) (hkey : (calls i).key = some key)
    (htask : (calls i).task part = some task) (hnow : task.clock = now)
    (hready : (n.phase i).ready = some (part, b)) (hnew : (i, part) ∉ past)
    (hquiet : (n.write i (some key) b now next).store = n.store ∨
      ∀ j, (n.phase j).ready ≠ none → (calls j).key = (calls i).key)
    (hnone : next.ready = none)
    (hnext : next.Past (calls i) fun q => (i, q) ∈ past ++ [(i, part)])
    (hfailed : Phase.failed.Past (calls i) fun part => (i, part) ∈ past) :
    ∃ past', Kept calls s (n.write i (some key) b now next) past' := by
  have hbusy : (n.phase i).ready ≠ none := ne_none_iff_exists'.mpr ⟨_, hready⟩
  -- the other locks stay where they are
  have hlocked (j : ι) (r : Part × Batch) (hj : j ≠ i) (hr : (n.phase j).ready = some r)
      (k : ZoneID) (hk : (calls j).key = some k) (hmem : k ∈ n.locked) :
      k ∈ n.locked.diff [key] := by
    refine mem_diff_of_mem hmem fun hown => ?_
    refine h.apart j i hj (ne_none_iff_exists'.mpr ⟨r, hr⟩) hbusy ?_
    rw [hk, hkey, mem_singleton.mp hown]
  subst hnow
  rw [Node.write.eq_def] at hquiet ⊢
  cases happly : b.apply task.clock n.store with
  | error e =>
    exact ⟨past, h.move h.serial h.nodup (fun _ _ _ => .rfl) rfl hfailed nofun
      (fun j r hj hr hholds => ⟨fun k hk => hlocked j r hj hr k hk (hholds.1 k hk), hholds.2⟩)
      fun hsome => absurd rfl hsome⟩
  | ok t =>
    simp only [happly] at hquiet
    obtain ⟨-, task', res, htask', hplan⟩ := h.ready i _ hready
    cases htask.symm.trans htask'
    refine ⟨past ++ [(i, part)], h.move ?_ ?_ (fun j q hj => by simp [hj]) rfl hnext
      (fun r hr => ?_) (fun j r hj hr hholds => ?_) fun hsome => absurd hnone hsome⟩
    · rw [tasks, filterMap_append]
      have hlast : [(i, part)].filterMap (fun (i, part) => (calls i).task part) = [task] := by
        simp [htask]
      rw [hlast]
      exact Task.performAll_concat h.serial (bind_eq_ok.mpr ⟨_, hplan, happly⟩)
    · rw [← concat_eq_append]
      exact h.nodup.concat hnew
    · rw [hnone] at hr
      cases hr
    · refine ⟨fun k hk => hlocked j r hj hr k hk (hholds.1 k hk), ?_⟩
      have hother : (n.phase j).ready ≠ none := ne_none_iff_exists'.mpr ⟨r, hr⟩
      rcases hquiet with hsame | hzone
      · rw [hsame]
        exact hholds.2
      · exact absurd (hzone j hother) (h.apart j i hj hother hbusy)

theorem Kept.step (h : Kept calls s n past) (hkey : (calls i).key ≠ none)
    (hquiet : (step calls n i).store = n.store ∨
      ∀ j, (n.phase j).ready ≠ none → (calls j).key = (calls i).key) :
    ∃ past', Kept calls s (step calls n i) past' := by
  obtain ⟨key, hkey⟩ := ne_none_iff_exists'.mp hkey
  have hpast := h.phases i
  have hlocks : (calls i).op.locks (calls i).env = some key := hkey
  rw [Node.step, hlocks] at hquiet ⊢
  cases hphase : n.phase i with
  | waiting =>
    rw [hphase] at hpast
    dsimp only
    cases (calls i).begin n.store with
    | ok was => exact ⟨past, h.turn rfl hpast⟩
    | error e => exact ⟨past, h.turn rfl ⟨hpast.2, fun hown => absurd hown hpast.1⟩⟩
  | read was =>
    rw [hphase] at hpast
    exact ⟨past, h.plan hkey (calls i).task_own (fun _ => rfl) (fun _ => hpast)
      ⟨hpast.2, fun hown => absurd hown hpast.1⟩⟩
  | planned was b =>
    rw [hphase] at hpast
    simp only [hphase] at hquiet
    dsimp only
    refine h.write hkey (calls i).task_own rfl (by rw [hphase]; rfl) hpast.1 hquiet ?_ ?_
      ⟨hpast.2, fun hown => absurd hown hpast.1⟩
    · rcases (calls i).after_cases was with hdone | ⟨zid, info, hwritten, -⟩
      · rw [hdone]
        rfl
      · rw [hwritten]
        rfl
    · refine Call.after_past (mem_append_right _ (mem_singleton_self _)) fun hfill => ?_
      rcases mem_append.mp hfill with hfill | hfill
      · exact hpast.2 hfill
      · cases mem_singleton.mp hfill
  | written zid info =>
    rw [hphase] at hpast
    obtain ⟨hown, hfill, hfills⟩ := hpast
    exact ⟨past, h.plan hfills.key hfills.task (fun _ => rfl) (fun _ => ⟨hown, hfill, info, hfills⟩)
      ⟨hfill, fun _ => hfills.after⟩⟩
  | filling zid b =>
    rw [hphase] at hpast
    obtain ⟨hown, hfill, info, hfills⟩ := hpast
    simp only [hphase] at hquiet
    dsimp only
    exact h.write hfills.key hfills.task rfl (by rw [hphase]; rfl) hfill hquiet rfl
      ⟨mem_append_left _ hown, .inl ⟨mem_append_right _ (mem_singleton_self _), hfills.after⟩⟩
      ⟨hfill, fun _ => hfills.after⟩
  | succeeded => exact ⟨past, h⟩
  | failed => exact ⟨past, h⟩

theorem Kept.run {schedule : List ι} (h : Kept calls s n past) (hkeys : ∀ i, (calls i).key ≠ none)
    (hquiet : Undisturbed calls n schedule) : ∃ past', Kept calls s (run calls n schedule) past' := by
  induction schedule generalizing n past with
  | nil => exact ⟨past, h⟩
  | cons head tail ih =>
    obtain ⟨past', hnext⟩ := h.step (hkeys head) hquiet.1
    exact ih hnext hquiet.2

omit [DecidableEq ι] in
/-- A call that never has a fill to do is in the order once it has succeeded, and only then. -/
theorem Kept.plain (h : Kept calls s n past) (hplain : ∀ was, (calls i).after was = .succeeded) :
    ((i, Part.own) ∈ past ↔ n.phase i = .succeeded) ∧ (i, Part.fill) ∉ past := by
  have hpast := h.phases i
  have hnever : ¬ ∃ was, (calls i).after was ≠ .succeeded := fun ⟨was, hafter⟩ => hafter (hplain was)
  cases hphase : n.phase i with
  | waiting | read | planned =>
    rw [hphase] at hpast
    exact ⟨iff_of_false hpast.1 nofun, hpast.2⟩
  | written zid info =>
    rw [hphase] at hpast
    exact absurd hpast.2.2.after hnever
  | filling zid b =>
    rw [hphase] at hpast
    obtain ⟨-, -, info, hfills⟩ := hpast
    exact absurd hfills.after hnever
  | succeeded =>
    rw [hphase] at hpast
    obtain ⟨hown, ⟨-, hafter⟩ | ⟨hfill, -⟩⟩ := hpast
    · exact absurd hafter hnever
    · exact ⟨iff_of_true hown rfl, hfill⟩
  | failed =>
    rw [hphase] at hpast
    exact ⟨iff_of_false (fun hown => hnever (hpast.2 hown)) nofun, hpast.1⟩

end Node

namespace Node

variable {ι : Type} [DecidableEq ι] [Fintype ι]

instance Undisturbed.decidable (calls : ι → Call) :
    ∀ (n : Node ι) (schedule : List ι), Decidable (Undisturbed calls n schedule)
  | _, [] => isTrue trivial
  | n, i :: rest =>
    have : Decidable (Undisturbed calls (step calls n i) rest) := decidable calls _ rest
    inferInstanceAs (Decidable (_ ∧ _))

/-- Each call from its first transaction to its last before the next one begins. A call has
five of them at most. -/
def oneAtATime (order : List ι) : List ι := order.flatMap (replicate 5)

end Node

namespace Sample

inductive Caller where
  | forward
  | reverse
  | first
  | second
deriving DecidableEq

instance : Fintype Caller where
  elems := {.forward, .reverse, .first, .second}
  complete caller := by cases caller <;> decide

/-- A forward and a reverse zone are created, and two addresses are added to the first. -/
def contended : Caller → Call
  | .forward => call 1000 (newZone 1 ["ex"])
  | .reverse => call 3000 (newZone 3 ["2", "0", "192", "in-addr", "arpa"])
  | .first => call 4000 (edit 1 [.add (record 21 1 ["a", "ex"] typeA "192.0.2.10")])
  | .second => call 6000 (edit 1 [.add (record 23 1 ["b", "ex"] typeA "192.0.2.11")])

def contendedRun : List Caller :=
  replicate 3 .forward ++ replicate 4 .reverse ++
    [.first, .reverse, .second, .first, .second, .first, .second, .second]

def lateRun : List Caller :=
  replicate 3 .forward ++ replicate 2 .first ++ replicate 5 .reverse ++ [.first]

end Sample

namespace Node

end Node

end Wegweiser
