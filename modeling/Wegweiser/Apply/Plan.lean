/-
Planning: how each operation of the applier is resolved against the store into a
batch, and checked by writing it where nothing is kept.
-/
import Wegweiser.Apply.Reverse

namespace Wegweiser

open Batch

open Checked (ensure)

/-- `RecordOp`, one constructor for each `OpAction`. -/
inductive RecordOp where
  | add (r : Record)
  | update (id : RecordID) (r : Record)
  | delete (id : RecordID)
  | replaceRRset (key : RRsetKey) (records : List Record)
  | makeCanonical (id : RecordID)
  | detach (id : RecordID)
deriving DecidableEq

structure Command where
  zoneID : ZoneID
  ops : List RecordOp
  expectedSerial : Option Serial
  kind : CommitKind
  source : Source
  actor : String
  comment : String
deriving DecidableEq

structure Meta where
  source : Source
  actor : String
  comment : String
deriving DecidableEq

def RecordOp.validate : RecordOp → Except Err Unit
  | .add r => r.validate
  | .update id r => do
      ensure (id != .empty) (.invalid "updating a record needs to say which one")
      ensure (r.id == .empty || r.id == id)
        (.invalid "the update names one record but carries another")
      r.validate
  | .delete id => ensure (id != .empty) (.invalid "deleting a record needs to say which one")
  | .detach id => ensure (id != .empty) (.invalid "detaching a record needs to say which one")
  | .makeCanonical id =>
    ensure (id != .empty) (.invalid "making a name canonical needs to say which record it is")
  | .replaceRRset key records => do
      ensure (records.all fun r => r.key == key)
        (.invalid "an RRset holds one name, class and type")
      validateRRset records

def Command.validate (c : Command) : Except Err Unit := do
  ensure (c.zoneID != .empty) (.invalid "a command names the zone it changes")
  ensure (!c.ops.isEmpty) (.invalid "a command with no operations changes nothing")
  ensure (c.kind == .edit || c.kind == .imported || c.kind == .rollback)
    (.invalid "a command is an edit, an import or a rollback")
  c.ops.forM RecordOp.validate

def sameContent (a b : Record) : Bool :=
  a.name == b.name && a.cls == b.cls && a.type == b.type && a.ttl == b.ttl &&
    a.rdata == b.rdata && a.comment == b.comment && a.disabled == b.disabled

def checkOwnedAndAuthored (z : Zone) (r : Record) : Except Err Unit := do
  ensure (r.zoneID == z.id) (.invalid "the record belongs to another zone")
  ensure (!r.isManaged) (.invalid "the record was generated from another record")

/-- `sameSOA`: everything except the serial. -/
def sameSOA (a b : SOA) : Bool :=
  { a with serial := ⟨0⟩ } == { b with serial := ⟨0⟩ }

def sameZoneSettings (a b : Zone) : Bool :=
  a.name == b.name && a.kind == b.kind && a.netPrefix == b.netPrefix && sameSOA a.soa b.soa &&
    a.defaultTTL == b.defaultTTL && a.autoReverse == b.autoReverse &&
    a.disabled == b.disabled && a.comment == b.comment

/-- `chainBack`: the commits from serial `from_` up to a serial, newest first. -/
def chainBack (ends : List Commit) (from_ : Serial) : Nat → Serial → Option (List Commit)
  | fuel, at_ =>
    if at_ = from_ then some []
    else
      match fuel, ends.find? fun c => c.serialTo == at_ with
      | fuel + 1, some c => (chainBack ends from_ fuel c.serialFrom).map (c :: ·)
      | _, _ => none

/-- `commitsBetween`: the commits that took the zone from one serial to another,
oldest first. -/
def commitsBetween (s : Store) (zid : ZoneID) (from_ upTo : Serial) : Except Err (List Commit) :=
  match chainBack (s.zoneCommits zid) from_ (s.zoneCommits zid).length upTo with
  | some chain => .ok chain.reverse
  | none => .error (.notFound "the history does not run between the serials")

/-- The `rdataKey` of an event. -/
def Event.rdataKey (e : Event) : RdataKey := ⟨e.name, e.cls, e.type, e.rdata⟩

/-- The `rdataKey` of a record. -/
def Record.rdataKey (r : Record) : RdataKey := ⟨r.name, r.cls, r.type, r.rdata⟩

/-- The map `at` of `Applier.undo`: the first event of every record in the range. -/
def firstEvents : List Event → List (RdataKey × Event)
  | events =>
    events.foldl (fun at_ e =>
      if e.type = typeSOA || at_.any fun kv => kv.1 == e.rdataKey then at_
      else at_ ++ [(e.rdataKey, e)]) []

/-- The `soaAt` of `Applier.undo`: the first removal of the start of authority. -/
def firstSOA (events : List Event) : Option Event :=
  events.find? fun e => e.type == typeSOA && e.op == .del

namespace Env

variable (env : Env)

def soaEventFor (op : EventOp) (name : Name) (soa : SOA) : Except Err Event := do
  let data ← env.lib.parseRData typeSOA classIN soa.rdata
  pure ⟨0, op, name, classIN, typeSOA, soa.ttl, data⟩

/-- `foldSOA`: the start of authority leads each half of the events. -/
def foldSOA (z : Zone) (ch : Changes) (c : Commit) : Except Err Commit :=
  match ch.soa with
  | none => .ok c
  | some change => do
      let was ← env.soaEventFor .del z.name change.before
      let now ← env.soaEventFor .add z.name (restoredSOA change c)
      let dels := c.events.takeWhile fun e => e.op != .add
      let adds := c.events.dropWhile fun e => e.op != .add
      pure { c with events := renumber (was :: dels ++ now :: adds) }

/-- The commit `Applier.plan` writes for one zone. -/
def planCommit (primary : Zone) (kind : CommitKind) (revertsTo : Option Serial) (info : Meta)
    (followed : Bool) (e : ZoneChanges) (id : CommitID) : Except Err Commit := do
  let z := e.zone
  let own := z.id == primary.id
  let system := !own && followed
  let c : Commit :=
    { id, zoneID := z.id, zoneName := z.name, serialFrom := z.soa.serial,
      serialTo := z.soa.serial.next,
      kind := if system then .edit else kind,
      source := if system then .system else info.source,
      actor := info.actor,
      comment := if system then "reverse entries kept in step with " ++ primary.name.text
        else info.comment,
      revertsTo := if own then revertsTo else none,
      events := e.changes.events, createdAt := env.now }
  if own && kind == .zoneCreate then do
    let soa ← env.soaEventFor .add z.name z.soa
    pure { c with
      serialFrom := ⟨0⟩, serialTo := z.soa.serial, events := renumber (soa :: c.events) }
  else env.foldSOA z e.changes c

/-- One zone of `Applier.plan`: a zone nothing happens in gets no commit. -/
def planZone (primary : Zone) (kind : CommitKind) (revertsTo : Option Serial) (info : Meta)
    (followed : Bool) (done : List Commit × Nat) (e : ZoneChanges) :
    Except Err (List Commit × Nat) :=
  if e.changes.empty then .ok done
  else do
    let c ← env.planCommit primary kind revertsTo info followed e (env.mint done.2)
    pure (done.1 ++ [c], done.2 + 1)

/-- `Applier.plan`: the batch and how many identifiers have been minted. -/
def plan (w : Work) (primary : Zone) (kind : CommitKind) (revertsTo : Option Serial)
    (info : Meta) (followed : Bool) : Except Err (Batch × Nat) := do
  let (commits, minted) ←
    w.cs.entries.foldlM (env.planZone primary kind revertsTo info followed) ([], w.minted)
  pure ({ blank with set := w.cs, commits }, minted)

def finish (s : Store) (res : Result) (b : Batch) : Except Err (Batch × Result) := do
  b.planned env.now s
  pure (b, { res with commits := res.commits ++ b.commits })

def commitAs (s : Store) (w : Work) (primary : Zone) (kind : CommitKind)
    (revertsTo : Option Serial) (info : Meta) : Except Err (Batch × Result) := do
  let followed := !(w.cs.pending primary.id).empty
  let (b, _) ← env.plan w primary kind revertsTo info followed
  env.finish s w.res b

/-- The end of `planIn`, `rollbackIn` and `PlanReconcile`: a change set that amounts
to nothing is the empty batch. -/
def commitUnlessEmpty (s : Store) (w : Work) (primary : Zone) (kind : CommitKind)
    (revertsTo : Option Serial) (info : Meta) : Except Err (Batch × Result) :=
  if w.cs.empty then .ok (blank, w.res)
  else env.commitAs s w primary kind revertsTo info

def mintID (zid : ZoneID) (r : Record) (minted : Nat) : Record × Nat :=
  if r.id = .empty then ({ r with id := env.mint minted, zoneID := zid }, minted + 1)
  else ({ r with zoneID := zid }, minted)

/-- `mintID` over a list of records. -/
def mintIDs (zid : ZoneID) : List Record → Nat → List Record × Nat
  | [], minted => ([], minted)
  | r :: rest, minted =>
    let (r, minted) := env.mintID zid r minted
    let (rest, minted) := mintIDs zid rest minted
    (r :: rest, minted)

/-- `normalize`, one operation. -/
def normalizeOp (zid : ZoneID) (op : RecordOp) (minted : Nat) : RecordOp × Nat :=
  match op with
  | .add r =>
    let (r, minted) := env.mintID zid r minted
    (.add r, minted)
  | .update id r => (.update id { r with id, zoneID := zid }, minted)
  | .replaceRRset key records =>
    let (records, minted) := env.mintIDs zid records minted
    (.replaceRRset key records, minted)
  | op => (op, minted)

def normalize (zid : ZoneID) : List RecordOp → Nat → List RecordOp × Nat
  | [], minted => ([], minted)
  | op :: rest, minted =>
    let (op, minted) := env.normalizeOp zid op minted
    let (rest, minted) := normalize zid rest minted
    (op :: rest, minted)

end Env

/-- `Applier.resolveReplace`, one record of the set as it stands. -/
def replaceExisting (wanted : List Record) (ch : Changes) (before : Record) : Changes :=
  match wanted.find? fun r => r.rdata == before.rdata with
  | none => ch.remove before
  | some after =>
    let next := { after with
      id := before.id, managedBy := before.managedBy, managedKind := before.managedKind,
      createdAt := before.createdAt }
    if sameContent before next then ch else ch.update before next

/-- `Applier.resolveReplace`.  The members of the wanted set have distinct data, so
the map the source builds of them is a lookup. -/
def resolveReplace (s : Store) (z : Zone) (ch : Changes) (key : RRsetKey)
    (wanted : List Record) : Except Err Changes := do
  ensure (z.contains key.name) (.invalid "the name is not inside the zone")
  let existing := s.rrset z.id key
  existing.forM (checkOwnedAndAuthored z)
  let ch := existing.foldl (replaceExisting wanted) ch
  let fresh := wanted.filter fun r => !existing.any fun e => e.rdata == r.rdata
  pure (fresh.foldl Changes.insert ch)

/-- `Applier.resolve`: one authored operation as concrete record changes. -/
def resolve (s : Store) (z : Zone) (ch : Changes) (op : RecordOp) : Except Err Changes :=
  match op with
  | .add r => do
      ensure (z.contains r.name) (.invalid "the name is not inside the zone")
      pure (ch.insert r)
  | .update id r => do
      let before ← s.recordByID id
      checkOwnedAndAuthored z before
      ensure (z.contains r.name) (.invalid "the name is not inside the zone")
      let after := { r with
        managedBy := before.managedBy, managedKind := before.managedKind,
        createdAt := before.createdAt }
      pure (if sameContent before after then ch else ch.update before after)
  | .delete id => do
      let before ← s.recordByID id
      checkOwnedAndAuthored z before
      pure (ch.remove before)
  | .detach id => do
      let before ← s.recordByID id
      ensure (before.zoneID == z.id) (.invalid "the record belongs to another zone")
      pure (if before.isManaged then
          ch.update before { before with managedBy := .empty, managedKind := none }
        else ch)
  | .makeCanonical id => do
      let r ← s.recordByID id
      checkOwnedAndAuthored z r
      ensure r.address.isSome
        (.invalid "only an address record has a reverse entry to claim")
      pure (ch.claim r)
  | .replaceRRset key records => resolveReplace s z ch key records

def RecordOp.overrides : RecordOp → Bool
  | .makeCanonical _ => true
  | _ => false

namespace Env

variable (env : Env)

/-- The change set of `planIn` once the operations are resolved. -/
def resolveAll (s : Store) (z : Zone) (ops : List RecordOp) (minted : Nat) :
    Except Err Work := do
  let ch ← ops.foldlM (resolve s z) Changes.blank
  let policy := if ops.any RecordOp.overrides then some Policy.lastWins else none
  pure { cs := ⟨[⟨z, ch⟩], policy⟩, res := Result.blank, minted }

/-- `Applier.Plan` and `Applier.planIn` -/
def planCommand (s : Store) (cmd : Command) : Except Err (Batch × Result) := do
  cmd.validate
  let (ops, minted) := env.normalize cmd.zoneID cmd.ops 0
  let z ← s.zoneByID cmd.zoneID
  ensure (cmd.expectedSerial.all (· == z.soa.serial))
    (.conflict "the zone has moved on since this change was prepared")
  let w ← resolveAll s z ops minted
  let w ← env.expandReverse s w z
  env.commitUnlessEmpty s w z cmd.kind none ⟨cmd.source, cmd.actor, cmd.comment⟩

def planReconcile (s : Store) (zid : ZoneID) (info : Meta) : Except Err (Batch × Result) := do
  let z ← s.zoneByID zid
  let w ← env.reconcileInto s Work.blank z
  env.commitUnlessEmpty s w z .edit none info

def undoSOA (w : Work) (z : Zone) : Option Event → Except Err Work
  | none => .ok w
  | some e => do
      let was ← parseSOAData e.rdata.text
      let was := { was with ttl := e.ttl, serial := z.soa.serial }
      pure (if sameSOA z.soa was then w
        else w.inZone z fun ch => { ch with soa := some ⟨z.soa, was⟩ })

def undoOne (s : Store) (z : Zone) (w : Work) (kv : RdataKey × Event) : Except Err Work :=
  let (k, e) := kv
  match (s.ownerRecords z.id k.name).find? fun r => r.rdataKey == k with
  | none =>
    match e.op with
    | .add => .ok w
    | .del => do
        let r ← newRecord env.lib z.id k.name k.cls k.type e.ttl k.rdata.text
        let r := { r with id := env.mint w.minted }
        pure { w.inZone z (·.insert r) with minted := w.minted + 1 }
  | some cur =>
    if cur.isManaged then .ok w
    else
      match e.op with
      | .add => .ok (w.inZone z (·.remove cur))
      | .del =>
        if cur.ttl = e.ttl then .ok w
        else .ok (w.inZone z (·.update cur { cur with ttl := e.ttl }))

/-- `Applier.undo`, over the events of the range. -/
def undo (s : Store) (z : Zone) (events : List Event) (w : Work) : Except Err Work := do
  let w ← undoSOA w z (firstSOA events)
  (env.mapOrder (firstEvents events)).foldlM (env.undoOne s z) w

/-- `Applier.PlanRollback` and `Applier.rollbackIn` -/
def planRollback (s : Store) (zid : ZoneID) (target : Serial) (info : Meta) :
    Except Err (Batch × Result) := do
  let z ← s.zoneByID zid
  if target = z.soa.serial then .ok (blank, Result.blank)
  else do
    ensure (target.comparable z.soa.serial && target.before z.soa.serial)
      (.invalid "not a state the zone has moved on from")
    let since ← commitsBetween s zid target z.soa.serial
    let w ← env.undo s z (since.flatMap Commit.events) (Work.blank.inZone z id)
    let w ← env.expandReverse s w z
    env.commitUnlessEmpty s w z .rollback (some target) info

/-- `Applier.PlanCreateZone` and `Applier.createZoneIn`.  A zone without an
identifier gets the first one minted. -/
def planCreateZone (s : Store) (z : Zone) (records : List Record) (info : Meta) :
    Except Err (Batch × Result) := do
  z.validate
  ensure (z.soa.serial.v != 0) (.invalid "a zone starts at a non-zero serial")
  let (z, minted) := if z.id = .empty then ({ z with id := env.mint 0 }, 1) else (z, 0)
  let (records, minted) := env.mintIDs z.id records minted
  validateZone z records
  let w : Work := { Work.blank.inZone z (fun ch => records.foldl Changes.insert ch) with minted }
  let w ← env.expandReverse s w z
  let (b, _) ← env.plan w z .zoneCreate none info true
  env.finish s w.res { b with zones := [.create z] }

/-- The events of `updateZoneIn`: only a change to the start of authority is a
record change. -/
def updateEvents (before z : Zone) : Except Err (List Event) :=
  if sameSOA before.soa z.soa then .ok []
  else do
    let was ← env.soaEventFor .del before.name before.soa
    let now ← env.soaEventFor .add z.name z.soa
    pure (renumber [was, now])

/-- The commit of `updateZoneIn`. -/
def updateCommit (before z : Zone) (info : Meta) (events : List Event) : Commit :=
  { id := env.mint 0, zoneID := z.id, zoneName := z.name, serialFrom := before.soa.serial,
    serialTo := before.soa.serial.next, kind := .zoneUpdate, source := info.source,
    actor := info.actor, comment := info.comment, revertsTo := none, events,
    createdAt := env.now }

/-- `Applier.PlanUpdateZone` and `Applier.updateZoneIn` -/
def planUpdateZone (s : Store) (z : Zone) (info : Meta) : Except Err (Batch × Result) := do
  z.validate
  let before ← s.zoneByID z.id
  ensure (before.name == z.name) (.invalid "a zone cannot be renamed")
  let z := { z with soa := { z.soa with serial := before.soa.serial.next } }
  if sameZoneSettings before z then .ok (blank, Result.blank)
  else do
    let events ← env.updateEvents before z
    env.finish s Result.blank
      { blank with
        commits := [env.updateCommit before z info events], zones := [.update z] }

def deleteCommit (z : Zone) (info : Meta) (id : CommitID) : Commit :=
  { id, zoneID := z.id, zoneName := z.name, serialFrom := z.soa.serial,
    serialTo := z.soa.serial.next, kind := .zoneDelete, source := info.source,
    actor := info.actor, comment := info.comment, revertsTo := none, events := [],
    createdAt := env.now }

/-- `Applier.PlanDeleteZone` and `Applier.deleteZoneIn` -/
def planDeleteZone (s : Store) (zid : ZoneID) (info : Meta) : Except Err (Batch × Result) := do
  let z ← s.zoneByID zid
  let w ← (s.managedByZone zid).foldlM (queueRemoval s) Work.blank
  let (b, minted) ← env.plan w z .edit none info true
  env.finish s Result.blank
    { b with
      commits := env.deleteCommit z info (env.mint minted) :: b.commits, zones := [.delete zid] }

def planCreateKey (name : Name) (algorithm : TSIGAlgorithm) (secret : Octets) :
    Except Err (Batch × Result) := do
  ensure algorithm.valid (.invalid "not an algorithm this server signs with")
  ensure (!secret.isEmpty) (.invalid "a transfer key with no secret signs nothing")
  pure ({ blank with
    keys := [.create ⟨env.mint 0, name, algorithm, secret, env.now, none⟩] }, Result.blank)

def planRevokeKey (id : TSIGKeyID) : Except Err (Batch × Result) := do
  ensure (id != .empty) (.invalid "no key named to revoke")
  pure ({ blank with keys := [.revoke id env.now] }, Result.blank)

def planCreateToken (t : Token) : Except Err (Batch × Result) :=
  let t := if t.createdAt = 0 then { t with createdAt := env.now } else t
  .ok ({ blank with tokens := [.create t] }, Result.blank)

/-- `Applier.PlanRevokeToken`; the guard judges the tokens as they stand. -/
def planRevokeToken (s : Store) (id : TokenID) (guard : List Token → Except Err Unit) :
    Except Err (Batch × Result) := do
  ensure (id != .empty) (.invalid "no token named to revoke")
  guard s.tokens
  pure ({ blank with tokens := [.revoke id env.now] }, Result.blank)

end Env

def planSettings (changes : List SettingChange) : Except Err (Batch × Result) := do
  changes.forM fun c => do
    ensure (c.key != "") (.invalid "a setting change names no setting")
    ensure (Json.valid c.value) (.invalid "the value for the setting is not JSON")
  pure ({ blank with settings := changes }, Result.blank)

end Wegweiser
