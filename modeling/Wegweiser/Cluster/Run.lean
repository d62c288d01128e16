/-
A cluster: members that hold a log, apply what is committed of it, and take turns
in leading.

Raft itself is not modelled.
-/
import Wegweiser.Apply.Replay

namespace Wegweiser.Cluster

/-- One entry of the log: a batch somebody proposed, a change of the membership, or
an entry Raft writes for itself and never hands over. -/
inductive Entry where
  | command (b : Batch)
  | configuration
  | internal
deriving DecidableEq

namespace Entry

def isCommand : Entry → Bool
  | command _ => true
  | _ => false

/-- `fsm.Apply` and `fsm.StoreConfiguration`, for one committed entry. -/
def applyAt (now index : Nat) (s : Store) : Entry → Except Err Store
  | command b => b.applyAt now index s
  | configuration => Batch.blank.applyAt now index s
  | internal => .ok s

end Entry

/-- The entries after position `at_`, applied in order; `clock` says when. -/
def replay (clock : Nat → Nat) : Nat → List Entry → Store → Except Err Store
  | _, [], s => .ok s
  | at_, e :: rest, s => do
      let s ← e.applyAt (clock (at_ + 1)) (at_ + 1) s
      replay clock (at_ + 1) rest s

/-- How far a write has got on the member that took it.  `term` is the term its
barrier returned in. -/
inductive Stage where
  | settled (term : Nat) (op : Operation)
  | planned (term : Nat) (op : Operation) (b : Batch)
  | proposed (term : Nat) (op : Operation) (position : Nat)

def Stage.term : Stage → Nat
  | settled term _ => term
  | planned term _ _ => term
  | proposed term _ _ => term

/-- One member.  Its writes hold one lock, so there is at most one of them. -/
structure Member where
  store : Store
  log : List Entry
  /-- How many entries of its log the member has been through. -/
  applied : Nat
  stalled : Bool
  write : Option Stage

/-- The members, what is committed, who leads, and how many elections there were. -/
structure State (M : Type) where
  members : M → Member
  committed : List Entry
  leader : Option M
  term : Nat

/-- What can happen next. -/
inductive Action (M : Type) where
  | elect (m : M)
  | stepDown
  | replicate (m : M) (length : Nat)
  | append (e : Entry)
  | commit (length : Nat)
  | apply (m : M) (now : Nat)
  | settle (m : M) (op : Operation)
  | plan (m : M) (env : Env)
  | propose (m : M)
  | finish (m : M) (next : Option Operation)
  | giveUp (m : M)

def fillComment : String := "fill in the reverse entries this zone's records imply"

/-- Whether an operation may end with filling a zone: a reverse zone that was
created, or a zone whose settings changed.  `UpdateZone` only does so when the
automation came on, as far as it could tell before it planned. -/
def fills : Operation → Operation → Bool
  | .createZone z _ info, .reconcile zid info' =>
    z.kind == .reverse && zid == z.id && info' == { info with comment := fillComment }
  | .updateZone z info, .reconcile zid info' =>
    zid == z.id && info' == { info with comment := fillComment }
  | _, _ => false

def nextStage (term : Nat) (op : Operation) : Option Operation → Option (Option Stage)
  | none => some none
  | some next => if fills op next then some (some (.settled term next)) else none

namespace State

variable {M : Type} [DecidableEq M]

def onMember (c : State M) (m : M) (f : Member → Member) : State M :=
  { c with members := Function.update c.members m (f (c.members m)) }

def caughtUp (p : Member) : Bool :=
  (p.log.drop p.applied).all fun e => !e.isCommand

/-- One committed entry on one member; an entry that cannot be applied stalls it. -/
def applyNext (base now : Nat) (p : Member) (e : Entry) : Member :=
  match e.applyAt now (base + p.applied + 1) p.store with
  | .ok store => { p with store, applied := p.applied + 1 }
  | .error _ => { p with stalled := true }

/-- What a planned write leaves on its member: `Applier.Plan` and its siblings. -/
def planWrite (env : Env) (p : Member) : Option Member :=
  match p.write with
  | some (.settled term op) =>
    match env.planOp p.store op with
    | .ok (b, _) => some { p with write := some (.planned term op b) }
    | .error _ => some { p with write := none }
  | _ => none

/-- `Applier.submit` and `Node.Propose`, up to the point where the entry is in the
leader's log. -/
def proposeWrite (leads : Bool) (p : Member) : Option Member :=
  match p.write with
  | some (.planned term op b) =>
    if b.empty then none
    else if leads && !p.stalled then
      some { p with
        log := p.log ++ [.command b], write := some (.proposed term op (p.log.length + 1)) }
    else some { p with write := none }
  | _ => none

/-- `Applier.submit` returns: the batch was empty, or it is applied here. -/
def finishWrite (next : Option Operation) (p : Member) : Option Member :=
  match p.write with
  | some (.planned term op b) =>
    if b.empty then (nextStage term op next).map fun stage => { p with write := stage }
    else none
  | some (.proposed term op position) =>
    if position ≤ p.applied && !p.stalled then
      (nextStage term op next).map fun stage => { p with write := stage }
    else none
  | _ => none

/-- One step of the cluster; `base` is the log position the members' first stores
stand at. -/
def step (base : Nat) (c : State M) : Action M → Option (State M)
  | .elect m =>
    if c.committed.isPrefixOf (c.members m).log && !(c.members m).stalled then
      some { c with leader := some m, term := c.term + 1 }
    else none
  | .stepDown => some { c with leader := none }
  | .replicate m length =>
    match c.leader with
    | some l =>
      if m ≠ l ∧ (c.members m).applied ≤ length then
        some (c.onMember m fun p => { p with log := (c.members l).log.take length })
      else none
    | none => none
  | .append e =>
    match c.leader with
    | some l =>
      if e.isCommand then none
      else some (c.onMember l fun p => { p with log := p.log ++ [e] })
    | none => none
  | .commit length =>
    match c.leader with
    | some l =>
      if c.committed.length ≤ length then
        some { c with committed := (c.members l).log.take length }
      else none
    | none => none
  | .apply m now =>
    match c.committed[(c.members m).applied]? with
    | some e =>
      if (c.committed.take ((c.members m).applied + 1)).isPrefixOf (c.members m).log &&
          !(c.members m).stalled then
        some (c.onMember m fun p => applyNext base now p e)
      else none
    | none => none
  | .settle m op =>
    if c.leader = some m ∧ (c.members m).write.isNone ∧ !(c.members m).stalled ∧
        op.onZones ∧ caughtUp (c.members m) then
      some (c.onMember m fun p => { p with write := some (.settled c.term op) })
    else none
  | .plan m env => (planWrite env (c.members m)).map fun p => c.onMember m fun _ => p
  | .propose m =>
    (proposeWrite (c.leader == some m) (c.members m)).map fun p => c.onMember m fun _ => p
  | .finish m next => (finishWrite next (c.members m)).map fun p => c.onMember m fun _ => p
  | .giveUp m => some (c.onMember m fun p => { p with write := none })

def run (base : Nat) : State M → List (Action M) → Option (State M)
  | c, [] => some c
  | c, a :: rest => (c.step base a).bind fun c => run base c rest

def initial (s₀ : Store) : State M :=
  { members := fun _ => ⟨s₀, [], 0, false, none⟩, committed := [], leader := none, term := 0 }

end State

end Wegweiser.Cluster
