/-
The calls of the applier on a node of its own, running side by side.

A call is a few transactions.
-/
import Mathlib.Data.Fin.VecNotation
import Mathlib.Logic.Function.Basic
import Wegweiser.Apply.Chain

namespace Wegweiser

open Checked Sample Function

/-- A call, with what its plans find around them and the clock of its writes. -/
structure Call where
  op : Operation
  env : Env
  clock : Nat
  fillEnv : Env
  fillClock : Nat

/-- Where a call is between two of its transactions. -/
inductive Phase where
  | waiting
  | read (was : Bool)
  | planned (was : Bool) (b : Batch)
  | written (zid : ZoneID) (info : Meta)
  | filling (zid : ZoneID) (b : Batch)
  | succeeded
  | failed
deriving DecidableEq

def Operation.locks (env : Env) : Operation → Option ZoneID
  | .command cmd => some cmd.zoneID
  | .createZone z _ _ => some (env.newZone z).1.id
  | .updateZone z _ => some z.id
  | .deleteZone zid _ | .rollback zid _ _ | .reconcile zid _ => some zid
  | .settings _ | .createKey _ _ _ | .revokeKey _ | .createToken _ | .revokeToken _ _ => none

def Env.autoReverseWas (env : Env) (s : Store) (zid : ZoneID) : Except Err Bool :=
  (s.zoneByID zid).map env.autoReverse

/-- The `Meta` of a fill. -/
def Meta.filling (info : Meta) : Meta :=
  { info with comment := "fill in the reverse entries this zone's records imply" }

namespace Call

variable (c : Call)

/-- What a call reads before it takes its lock: `UpdateZone` asks whether the automation
is on. -/
def begin (s : Store) : Except Err Bool :=
  match c.op with
  | .updateZone z _ => do
      z.validate
      c.env.autoReverseWas s z.id
  | _ => .ok true

/-- Where a call is once it is written: a reverse zone that was created is filled, and so
is a zone whose automation was off and is on now. -/
def after (was : Bool) : Phase :=
  match c.op with
  | .createZone z _ info =>
    if z.kind = .reverse then .written (c.env.newZone z).1.id info.filling else .succeeded
  | .updateZone z info =>
    if !was && c.env.autoReverse z then .written z.id info.filling else .succeeded
  | _ => .succeeded

end Call

/-- A node of its own: the store, where each call is, and the locks that are held. -/
structure Node (ι : Type) where
  store : Store
  phase : ι → Phase
  locked : List ZoneID

namespace Node

variable {ι : Type} [DecidableEq ι]

def start : Node ι := ⟨Store.blank, fun _ => .waiting, []⟩

def enter (n : Node ι) (i : ι) (p : Phase) : Node ι :=
  { n with phase := update n.phase i p }

def plan (n : Node ι) (i : ι) (key : Option ZoneID) (out : Except Err (Batch × Result))
    (next : Batch → Phase) : Node ι :=
  if key.any n.locked.contains then n
  else
    match out with
    | .ok (b, _) => { n.enter i (next b) with locked := key.toList ++ n.locked }
    | .error _ => n.enter i .failed

def write (n : Node ι) (i : ι) (key : Option ZoneID) (b : Batch) (now : Nat) (next : Phase) :
    Node ι :=
  match b.apply now n.store with
  | .ok s => { n.enter i next with store := s, locked := n.locked.diff key.toList }
  | .error _ => { n.enter i .failed with locked := n.locked.diff key.toList }

def step (calls : ι → Call) (n : Node ι) (i : ι) : Node ι :=
  let c := calls i
  let key := c.op.locks c.env
  match n.phase i with
  | .waiting =>
    match c.begin n.store with
    | .ok was => n.enter i (.read was)
    | .error _ => n.enter i .failed
  | .read was => n.plan i key (c.env.planOp n.store c.op) (.planned was)
  | .planned was b => n.write i key b c.clock (c.after was)
  | .written zid info =>
    n.plan i (some zid) (c.fillEnv.planReconcile n.store zid info) (.filling zid)
  | .filling zid b => n.write i (some zid) b c.fillClock .succeeded
  | .succeeded | .failed => n

def run (calls : ι → Call) (n : Node ι) (schedule : List ι) : Node ι :=
  schedule.foldl (step calls) n

end Node

def Phase.batch : Phase → Option Batch
  | .planned _ b | .filling _ b => some b
  | _ => none

def Phase.unwritten : Phase → Bool
  | .waiting | .read _ | .planned _ _ => true
  | _ => false

/-- A batch a call has planned for its next phase: what the call was made for, or what fills
its zone. -/
def Call.Plans (c : Call) (s : Store) (p : Phase) (b : Batch) : Prop :=
  ∃ res, if p.unwritten then c.env.planOp s c.op = .ok (b, res)
    else ∃ zid info, c.fillEnv.planOp s (.reconcile zid info) = .ok (b, res)

namespace Node

variable {ι : Type} [DecidableEq ι] {calls : ι → Call} {n m : Node ι} {i : ι}

/-- What the next transaction of a call can do. -/
inductive Moves (calls : ι → Call) (n : Node ι) (i : ι) (m : Node ι) : Prop
  | stays (h : m = n)
  | turns (p : Phase) (hstore : m.store = n.store) (hphase : m.phase = update n.phase i p)
      (hbatch : p.batch = none) (hunwritten : p.unwritten = true → (n.phase i).unwritten = true)
  | plans (p : Phase) (b : Batch) (hstore : m.store = n.store)
      (hphase : m.phase = update n.phase i p) (hbatch : p.batch = some b)
      (hplan : (calls i).Plans n.store p b)
      (hunwritten : p.unwritten = true → (n.phase i).unwritten = true)
  | writes (p : Phase) (b : Batch) (now : Nat) (hready : (n.phase i).batch = some b)
      (hwrite : b.apply now n.store = .ok m.store)
      (hphase : m.phase = update n.phase i p) (hbatch : p.batch = none)
      (hunwritten : p.unwritten = false)

variable {key : Option ZoneID}

theorem moves_of_write {b : Batch} {now : Nat} {next : Phase}
    (hready : (n.phase i).batch = some b) (hbatch : next.batch = none)
    (hunwritten : next.unwritten = false) : Moves calls n i (n.write i key b now next) := by
  rw [write]
  cases happly : b.apply now n.store with
  | ok t => exact .writes next b now hready happly rfl hbatch hunwritten
  | error e => exact .turns .failed rfl rfl rfl (by simp [Phase.unwritten])

theorem moves_of_plan {out : Except Err (Batch × Result)}
    {next : Batch → Phase} (hbatch : ∀ b, (next b).batch = some b)
    (hplan : ∀ b res, out = .ok (b, res) → (calls i).Plans n.store (next b) b)
    (hunwritten : ∀ b, (next b).unwritten = true → (n.phase i).unwritten = true) :
    Moves calls n i (n.plan i key out next) := by
  rw [plan.eq_def]
  split
  · exact .stays rfl
  · split
    · next b res => exact .plans (next b) b rfl rfl (hbatch b) (hplan b res rfl) (hunwritten b)
    · exact .turns .failed rfl rfl rfl (by simp [Phase.unwritten])

theorem after_done (c : Call) (was : Bool) :
    (c.after was).batch = none ∧ (c.after was).unwritten = false := by
  rw [Call.after]
  split
  · split <;> exact ⟨rfl, rfl⟩
  · split <;> exact ⟨rfl, rfl⟩
  · exact ⟨rfl, rfl⟩

theorem step_moves : Moves calls n i (step calls n i) := by
  rw [step]
  cases hphase : n.phase i with
  | waiting =>
    dsimp only
    cases (calls i).begin n.store with
    | ok was => exact .turns _ rfl rfl rfl fun _ => by rw [hphase]; rfl
    | error e => exact .turns _ rfl rfl rfl (by simp [Phase.unwritten])
  | read was =>
    refine moves_of_plan (fun _ => rfl) (fun b res hplan => ⟨res, hplan⟩) fun _ _ => ?_
    rw [hphase]
    rfl
  | planned was b =>
    obtain ⟨hbatch, hunwritten⟩ := after_done (calls i) was
    exact moves_of_write (by rw [hphase]; rfl) hbatch hunwritten
  | written zid info =>
    exact moves_of_plan (fun _ => rfl) (fun b res hplan => ⟨res, zid, info, hplan⟩)
      (by simp [Phase.unwritten])
  | filling zid b => exact moves_of_write (by rw [hphase]; rfl) rfl rfl
  | succeeded => exact .stays rfl
  | failed => exact .stays rfl

end Node

def Call.newZoneID (c : Call) : Option ZoneID := c.env.newZoneID c.op

namespace Node

variable {ι : Type} {calls : ι → Call} {n m : Node ι} {i : ι}

/-- The journals are chains, and every batch in flight fits them or is refused. -/
structure InOrder (calls : ι → Call) (n : Node ι) : Prop where
  sound : n.store.Sound
  chained : n.store.Chained
  steps : ∀ i b, (n.phase i).batch = some b → b.Steps n.store
  creates : ∀ i b, (n.phase i).batch = some b → ∀ zid ∈ b.creates, zid ∈ (calls i).newZoneID
  unused : ∀ i, (n.phase i).unwritten = true → ∀ zid ∈ (calls i).newZoneID,
    ∀ o ∈ n.store.commits, o.zoneID ≠ zid

theorem InOrder.start : InOrder calls start := by
  refine ⟨Store.Sound.empty, ?_, ?_, ?_, ?_⟩
  · intro z hz
    cases hz
  · intro i b hbatch
    cases hbatch
  · intro i b hbatch
    cases hbatch
  · intro i _ zid _ o ho
    cases ho

variable {p : Phase} {b : Batch}

theorem InOrder.planned (h : InOrder calls n) (hplan : (calls i).Plans n.store p b)
    (hunwritten : p.unwritten = true → (n.phase i).unwritten = true) :
    b.Steps n.store ∧ ∀ zid ∈ b.creates, zid ∈ (calls i).newZoneID := by
  obtain ⟨res, hplan⟩ := hplan
  split at hplan
  · next hp =>
    have hnew := h.unused i (hunwritten hp)
    exact ⟨Env.planOp_steps h.sound h.chained hnew hplan, fun zid => Env.planOp_creates hplan⟩
  · obtain ⟨zid, info, hplan⟩ := hplan
    refine ⟨Env.planOp_steps h.sound h.chained (fun _ hnone => by cases hnone) hplan, ?_⟩
    intro zid hzid
    cases Env.planOp_creates hplan hzid

variable [DecidableEq ι]

theorem InOrder.enter (h : InOrder calls n) (hstore : m.store = n.store)
    (hphase : m.phase = update n.phase i p) (hbatch : ∀ b, p.batch = some b →
      b.Steps n.store ∧ ∀ zid ∈ b.creates, zid ∈ (calls i).newZoneID)
    (hunwritten : p.unwritten = true → (n.phase i).unwritten = true) : InOrder calls m := by
  refine ⟨hstore ▸ h.sound, hstore ▸ h.chained, ?_, ?_, ?_⟩
  · intro j b
    rw [hstore, hphase]
    by_cases hj : j = i
    · subst hj
      rw [update_self]
      exact fun hb => (hbatch b hb).1
    · rw [update_of_ne hj]
      exact h.steps j b
  · intro j b
    rw [hphase]
    by_cases hj : j = i
    · subst hj
      rw [update_self]
      exact fun hb => (hbatch b hb).2
    · rw [update_of_ne hj]
      exact h.creates j b
  · intro j
    rw [hstore, hphase]
    by_cases hj : j = i
    · subst hj
      rw [update_self]
      exact fun hp => h.unused j (hunwritten hp)
    · rw [update_of_ne hj]
      exact h.unused j

theorem InOrder.write (hids : ∀ i j, i ≠ j → ∀ zid ∈ (calls i).newZoneID, zid ∉ (calls j).newZoneID)
    (h : InOrder calls n) {now : Nat}
    (hready : (n.phase i).batch = some b) (hwrite : b.write now n.store = .ok m.store)
    (hphase : m.phase = update n.phase i p) (hbatch : p.batch = none)
    (hunwritten : p.unwritten = false) : InOrder calls m := by
  have hb := h.steps i b hready
  have hcreates := h.creates i b hready
  refine ⟨Batch.write_sound h.sound hwrite, Batch.write_chained h.sound h.chained hb hwrite, ?_, ?_, ?_⟩
  · intro j b' hj
    rw [hphase] at hj
    by_cases hne : j = i
    · rw [hne, update_self, hbatch] at hj
      cases hj
    · rw [update_of_ne hne] at hj
      refine Batch.write_steps h.sound hb hwrite (h.steps j b' hj) ?_
      intro zid hi hj'
      exact hids i j (Ne.symm hne) zid (hcreates zid hi) (h.creates j b' hj zid hj')
  · intro j b' hj
    rw [hphase] at hj
    by_cases hne : j = i
    · rw [hne, update_self, hbatch] at hj
      cases hj
    · rw [update_of_ne hne] at hj
      exact h.creates j b' hj
  · intro j hj zid hzid o ho hzone
    rw [hphase] at hj
    by_cases hne : j = i
    · rw [hne, update_self, hunwritten] at hj
      cases hj
    · rw [update_of_ne hne] at hj
      -- The identifiers of this call are those of no zone written before or just now.
      rcases Batch.write_journal_zones hb hwrite ho with ⟨old, hold, hsame⟩ | hcreated
      · exact h.unused j hj zid hzid old hold (hsame.trans hzone)
      · rw [hzone] at hcreated
        exact hids i j (Ne.symm hne) zid (hcreates zid hcreated) hzid

theorem InOrder.step (hids : ∀ i j, i ≠ j → ∀ zid ∈ (calls i).newZoneID, zid ∉ (calls j).newZoneID)
    (h : InOrder calls n) : InOrder calls (step calls n i) := by
  cases (step_moves : Moves calls n i (Node.step calls n i)) with
  | stays hsame => rwa [hsame]
  | turns p hstore hphase hbatch hunwritten =>
    refine h.enter hstore hphase (fun b hb => ?_) hunwritten
    rw [hbatch] at hb
    cases hb
  | plans p b hstore hphase hbatch hplan hunwritten =>
    refine h.enter hstore hphase (fun b' hb' => ?_) hunwritten
    rw [hbatch] at hb'
    cases hb'
    exact h.planned hplan hunwritten
  | writes p b now hready hwrite hphase hbatch hunwritten =>
    rcases Batch.apply_eq_ok hwrite with hsame | hwrite
    · refine h.enter hsame hphase (fun b' hb' => ?_) (by simp [hunwritten])
      rw [hbatch] at hb'
      cases hb'
    · exact h.write hids hready hwrite hphase hbatch hunwritten

theorem InOrder.run (hids : ∀ i j, i ≠ j → ∀ zid ∈ (calls i).newZoneID, zid ∉ (calls j).newZoneID)
    {schedule : List ι} (h : InOrder calls n) : InOrder calls (run calls n schedule) := by
  induction schedule generalizing n with
  | nil => exact h
  | cons head tail ih => exact ih (h.step hids)

/-- However the transactions of any calls come after one another, every zone being created
under an identifier of its own: the commits of a zone form one chain from the serial it was
created with to the serial it has now, and no two of them end at the same serial. -/
theorem journals_are_chains (calls : ι → Call)
    (hids : ∀ i j, i ≠ j → ∀ zid ∈ (calls i).newZoneID, zid ∉ (calls j).newZoneID)
    (schedule : List ι) (z : Zone) (hz : z ∈ (run calls start schedule).store.zones) :
    Chained ((run calls start schedule).store.journalOf z.id) z.soa.serial ∧
      (((run calls start schedule).store.journalOf z.id).map Commit.serialTo).Nodup := by
  have h : InOrder calls (run calls start schedule) := InOrder.start.run hids
  exact ⟨h.chained z hz, h.sound.journalOf_serials z.id⟩

end Node

namespace Sample

def call (base : Nat) (op : Operation) : Call :=
  ⟨op, envAt base, 1, envAt (base + 500), 1⟩

def newZone (id : Nat) (labels : List String) : Operation :=
  .createZone (zone id labels) [record (10 + id) id labels typeNS "ns."] info

def addresses : Fin 5 → Call :=
  ![call 1000 (newZone 1 ["ex"]), call 2000 (newZone 2 ["ey"]),
    call 3000 (newZone 3 ["2", "0", "192", "in-addr", "arpa"]),
    call 4000 (edit 1 [.add (record 21 1 ["a", "ex"] typeA "192.0.2.10")]),
    call 5000 (edit 2 [.add (record 22 2 ["b", "ey"] typeA "192.0.2.11")])]

def sideBySide : List (Fin 5) := [0, 0, 0, 1, 1, 1, 2, 2, 2, 2, 2, 3, 4, 3, 4, 3, 4]

end Sample

namespace Node

theorem journals_are_chains_addresses :
    (run addresses start sideBySide).phase 4 = .failed ∧
      ∃ z ∈ (run addresses start sideBySide).store.zones, z.kind = .reverse ∧
        ((run addresses start sideBySide).store.journalOf z.id).length = 2 ∧
        Chained ((run addresses start sideBySide).store.journalOf z.id)
          z.soa.serial := by
  have hids : ∀ i j, i ≠ j → ∀ zid ∈ (addresses i).newZoneID,
      zid ∉ (addresses j).newZoneID := by decide +kernel
  have hzone : ((run addresses start sideBySide).store.zones.any fun z =>
      decide (z.kind = .reverse ∧
        ((run addresses start sideBySide).store.journalOf z.id).length = 2)) = true := by
    decide +kernel
  obtain ⟨z, hz, hrest⟩ := List.any_eq_true.mp hzone
  obtain ⟨hkind, hlen⟩ := of_decide_eq_true hrest
  exact ⟨by decide +kernel, z, hz, hkind, hlen,
    (journals_are_chains addresses hids sideBySide z hz).1⟩

end Node

end Wegweiser
