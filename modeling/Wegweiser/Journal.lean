/-
The journal: commits, and the difference sequence each of them carries.
-/
import Wegweiser.Zone.Zone

namespace Wegweiser

open Checked (ensure)

/-- `journal.Op` -/
inductive EventOp where
  | del
  | add
deriving DecidableEq

structure Event where
  seq : Nat
  op : EventOp
  name : Name
  cls : Class
  type : RRType
  ttl : TTL
  rdata : RData
deriving DecidableEq

/-- `journal.Kind` -/
inductive CommitKind where
  | zoneCreate
  | zoneUpdate
  | zoneDelete
  | edit
  | imported
  | rollback
deriving DecidableEq

inductive Source where
  | api
  | cli
  | imported
  | system
deriving DecidableEq

structure Commit where
  id : CommitID
  zoneID : ZoneID
  zoneName : Name
  serialFrom : Serial
  serialTo : Serial
  kind : CommitKind
  source : Source
  actor : String
  comment : String
  revertsTo : Option Serial
  events : List Event
  createdAt : Nat
deriving DecidableEq

def Event.validate (e : Event) : Except Err Unit := do
  ensure (storableClass e.cls) (.invalid "class exists only inside a message, not in a zone")
  ensure (storableType e.type) (.invalid "type exists only inside a message, not in a zone")
  ensure (validTTL e.ttl) (.invalid "TTL exceeds the maximum")
  ensure (!e.rdata.text.isEmpty) (.invalid "an event needs the record data")

namespace Commit

def validateSerials (c : Commit) : Except Err Unit := do
  if c.kind = .zoneCreate then do
    ensure (c.serialFrom.v == 0) (.invalid "a zone is created from serial 0")
    ensure (c.serialTo.v != 0) (.invalid "a zone must start at a non-zero serial")
  else
    ensure (c.serialTo == c.serialFrom.next)
      (.invalid "a commit advances the serial by exactly one step")
  ensure ((c.kind == .rollback) == c.revertsTo.isSome)
    (.invalid "a rollback, and nothing else, names the serial it restores")
  match c.revertsTo with
  | none => pure ()
  | some target => do
      ensure (target.comparable c.serialFrom)
        (.invalid "which serial is earlier is undefined")
      ensure (target.before c.serialFrom) (.invalid "a rollback restores an earlier state")

/-- `Commit.validateEvents`, from the event with number `at_` on. -/
def validateEvents (at_ : Nat) (sawAdd : Bool) : List Event → Except Err Unit
  | [] => .ok ()
  | e :: rest => do
      e.validate
      ensure (e.seq == at_) (.invalid "events are numbered from zero without gaps")
      match e.op with
      | .add => validateEvents (at_ + 1) true rest
      | .del => do
          ensure (!sawAdd) (.invalid "every deletion in a commit comes first")
          validateEvents (at_ + 1) sawAdd rest

def validate (c : Commit) : Except Err Unit := do
  ensure c.id.valid (.invalid "a commit needs an identifier")
  ensure c.zoneID.valid (.invalid "a commit belongs to a zone")
  c.validateSerials
  validateEvents 0 false c.events

end Commit

end Wegweiser
