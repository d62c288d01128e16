/-
One member of a cluster over its whole life: what Raft hands to its state machine, the log
snapshots it writes and is sent, crashes, and starts that replay the log over the store on
disk.

Raft is not modelled.
-/
import Wegweiser.Cluster.Run
import Wegweiser.Store.Replicated

namespace Wegweiser.Cluster

open Checked

inductive SnapshotWriter where
  | store
  | witness
deriving DecidableEq

/-- A log snapshot: its header, its content, and the index Raft filed it under. -/
structure LogSnapshot where
  filed : Nat
  index : Nat
  writer : SnapshotWriter
  items : List Replicated
deriving DecidableEq

/-- `fsmSnapshot.Persist`: position and content in one read transaction. The rows are in the
order of the tables, which a restore keeps; the stream sorts them (`Store.listing_perm`). -/
def persist (s : Store) (filed : Nat) : LogSnapshot :=
  ⟨filed, s.appliedIndex, .store, s.exportReplicated⟩

/-- The newest of the log snapshots: the one filed under the highest index, and of those
the latest. -/
def newest : List LogSnapshot → Option LogSnapshot
  | [] => none
  | snap :: rest =>
    match newest rest with
    | none => some snap
    | some other => if snap.filed < other.filed then some other else some snap

/-- A running member: the last index Raft handed over, whether the state machine has
stopped, the index a snapshot being written will be filed under, and a snapshot that was
sent and is not restored yet. -/
structure Process where
  handed : Nat
  stalled : Bool
  taking : Option Nat
  received : Option LogSnapshot
deriving DecidableEq

def Process.from (handed : Nat) : Process := ⟨handed, false, none, none⟩

/-- A member: what it has on disk, and its process while there is one. -/
structure Replica where
  store : Store
  snapshots : List LogSnapshot
  process : Option Process
deriving DecidableEq

/-- What can happen to a member. Where `fails` is set, a transaction fails for a reason
that has nothing to do with its content, on every attempt that is made. -/
inductive Occurrence where
  | deliver (now : Nat) (fails : Bool)
  | redeliver (at_ now : Nat) (fails : Bool)
  | snapshot
  | persist
  | receive (snap : LogSnapshot)
  | restore (now : Nat) (fails : Bool)
  | stop
  | start (now : Nat) (fails : Bool)
deriving DecidableEq

/-- `fsm.Apply` and `fsm.StoreConfiguration` on a member that has not stopped: the store,
and whether it stops now. -/
def carryOut (now index : Nat) (fails : Bool) (s : Store) : Entry → Store × Bool
  | .command b =>
    match b.applyAt now index s with
    | .ok t => if fails then (s, true) else (t, false)
    | .error _ => (s, true)
  | .configuration =>
    match Batch.blank.applyAt now index s with
    | .ok t => if fails then (s, false) else (t, false)
    | .error _ => (s, false)
  | .internal => (s, false)

/-- `fsm.Restore` on a member that has not stopped; `none` where it stops there. -/
def restoreSnapshot (now : Nat) (fails : Bool) (snap : LogSnapshot) (s : Store) : Option Store :=
  match snap.writer with
  | .witness => none
  | .store => if fails then none else (s.replaceReplicated now snap.index snap.items).toOption

namespace Replica

def handOver (r : Replica) (p : Process) (now index : Nat) (fails : Bool) (e : Entry) : Replica :=
  if p.stalled then { r with process := some p }
  else
    let (store, stalled) := carryOut now index fails r.store e
    { r with store, process := some { p with stalled } }

/-- `catchUp` and the start of Raft, over the newest log snapshot. -/
def startFrom (r : Replica) (now : Nat) (fails : Bool) (snap : LogSnapshot) : Replica :=
  if snap.filed ≤ r.store.appliedIndex then { r with process := some (.from snap.filed) }
  else
    match restoreSnapshot now fails snap r.store with
    | some store => { r with store, process := some (.from snap.filed) }
    | none => r

def running (log : List Entry) (r : Replica) (p : Process) : Occurrence → Option Replica
  | .deliver now fails =>
    match p.received, log[p.handed]? with
    | none, some e =>
      some (r.handOver { p with handed := p.handed + 1 } now (p.handed + 1) fails e)
    | _, _ => none
  | .redeliver at_ now fails =>
    match p.received, log[at_]? with
    | none, some e =>
      if at_ < p.handed then some (r.handOver p now (at_ + 1) fails e) else none
    | _, _ => none
  | .snapshot =>
    if p.taking.isSome then none
    else some { r with process := some { p with taking := some p.handed } }
  | .persist =>
    p.taking.map fun k =>
      { r with
        snapshots := Cluster.persist r.store k :: r.snapshots,
        process := some { p with taking := none } }
  | .receive snap =>
    if p.received.isSome || snap.filed < p.handed then none
    else some { r with
      snapshots := snap :: r.snapshots, process := some { p with received := some snap } }
  | .restore now fails =>
    p.received.map fun snap =>
      if p.stalled then { r with process := some { p with received := none } }
      else
        match restoreSnapshot now fails snap r.store with
        | some store =>
          { r with store, process := some { p with handed := snap.filed, received := none } }
        | none => { r with process := some { p with stalled := true, received := none } }
  | .stop => some { r with process := none }
  | .start _ _ => none

/-- One occurrence in the life of a member; `none` where it cannot happen. -/
def step (log : List Entry) (r : Replica) (o : Occurrence) : Option Replica :=
  match r.process with
  | some p => r.running log p o
  | none =>
    match o with
    | .start now fails =>
      match newest r.snapshots with
      | none => some { r with process := some (.from 0) }
      | some snap => some (r.startFrom now fails snap)
    | _ => none

def run (log : List Entry) : Replica → List Occurrence → Option Replica
  | r, [] => some r
  | r, o :: rest => (r.step log o).bind fun r => run log r rest

def initial (s₀ : Store) : Replica := ⟨s₀, [], none⟩

end Replica

def Entry.batch : Entry → Option Batch
  | .command b => some b
  | _ => none

/-- The commands of a log that begins after position `at_`, with their positions. -/
def commandsFrom : Nat → List Entry → List (Nat × Batch)
  | _, [] => []
  | at_, e :: rest => e.batch.toList.map (at_ + 1, ·) ++ commandsFrom (at_ + 1) rest

def commandsUpTo (log : List Entry) (k : Nat) : List (Nat × Batch) :=
  (commandsFrom 0 log).filter fun c => c.1 ≤ k

/-- What the commands of a log up to a position make of a store, each of them carried out
once and in order. -/
def outcome (clock : Nat → Nat) (log : List Entry) (k : Nat) (s₀ : Store) : Except Err Store :=
  (commandsUpTo log k).foldlM (fun s c => c.2.writeOnce (clock c.1) s) s₀

end Wegweiser.Cluster
