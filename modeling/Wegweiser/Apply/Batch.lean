/-
Batches: a command resolved against the zones as they stand, how it is carried
out, and how a log entry is applied.
-/
import Wegweiser.Apply.Changes

namespace Wegweiser

open Checked (ensure)

/-- `ZoneOp`: a change to a zone itself. -/
inductive ZoneOp where
  | create (z : Zone)
  | update (z : Zone)
  | delete (id : ZoneID)
deriving DecidableEq

/-- The `ZoneID` of a zone operation. -/
def ZoneOp.zoneID : ZoneOp → ZoneID
  | create z => z.id
  | update z => z.id
  | delete id => id

structure SettingChange where
  key : String
  value : Octets
deriving DecidableEq

inductive KeyOp where
  | create (k : TSIGKey)
  | revoke (id : TSIGKeyID) (at_ : Nat)
deriving DecidableEq

inductive TokenOp where
  | create (t : Token)
  | revoke (id : TokenID) (at_ : Nat)
deriving DecidableEq

structure Batch where
  set : ChangeSet
  commits : List Commit
  zones : List ZoneOp
  settings : List SettingChange
  keys : List KeyOp
  tokens : List TokenOp
deriving DecidableEq

/-- `changes.soa` as the commit ends with it: `restoredSOA`. -/
def restoredSOA (change : SOAChange) (c : Commit) : SOA :=
  { change.after with serial := c.serialTo }

def writeSOA (now : Nat) (s : Store) (z : Zone) (ch : Changes) (c : Commit) : Except Err Store :=
  match ch.soa with
  | none => s.setZoneSerial now z.id c.serialTo
  | some change => do
      let next := { z with soa := restoredSOA change c }
      next.validate
      s.updateZone now next

/-- `closestDelegation`: the nearest name at or above `name`, below the apex, that
the zone delegates away. -/
def closestDelegation (s : Store) (z : Zone) (name : Name) : Option Name :=
  (name.upwards.takeWhile fun n => !z.isApex n).find? fun n =>
    (s.ownerRecords z.id n).any fun r => r.type == typeNS

/-- `namesUnder`: the owner names strictly below a name, in order, each once. -/
def namesUnder (s : Store) (zid : ZoneID) (name : Name) : List Name :=
  ((s.listRecords fun r => r.zoneID == zid && r.name.isSubDomainOf name && r.name != name).map
    Record.name).dedup

/-- `validateName`: whether the name delegates, and the names checked so far. -/
def validateName (s : Store) (z : Zone) (name : Name) (seen : List Name) :
    Except Err (Bool × List Name) :=
  if seen.contains name then .ok (false, seen)
  else do
    let records := s.ownerRecords z.id name
    validateOwner z name records
    validateUnderDelegation name records (closestDelegation s z name)
    let hasNS := records.any fun r => r.type == typeNS
    if z.isApex name then do
      ensure hasNS (.invalid "this would remove the last NS record at the apex")
      pure (false, name :: seen)
    else pure (hasNS, name :: seen)

/-- One name of `validateTouched`, and everything below it where it delegates. -/
def validateTouchedName (s : Store) (z : Zone) (seen : List Name) (name : Name) :
    Except Err (List Name) := do
  let (delegates, seen) ← validateName s z name seen
  if delegates then
    (namesUnder s z.id name).foldlM (fun seen under => do
      let (_, seen) ← validateName s z under seen
      pure seen) seen
  else pure seen

def nameLe (a b : Name) : Prop := (b.compare a).isLT = false

instance : DecidableRel nameLe := fun a b =>
  inferInstanceAs (Decidable ((b.compare a).isLT = false))

def validateTouched (s : Store) (z : Zone) (touched : List Name) : Except Err Unit := do
  let _ ← (touched.insertionSort nameLe).foldlM (validateTouchedName s z) []
  pure ()

namespace Batch

def blank : Batch := ⟨ChangeSet.blank, [], [], [], [], []⟩

def empty (b : Batch) : Bool :=
  b.commits.isEmpty && b.settings.isEmpty && b.keys.isEmpty && b.tokens.isEmpty

def zoneOp (b : Batch) (zid : ZoneID) : Option ZoneOp :=
  b.zones.find? fun op => op.zoneID == zid

/-- `Batch.applied`: whether the journal already holds the batch. -/
def applied (b : Batch) (s : Store) : Except Err Bool := do
  let seen := (b.commits.filter fun c => (s.commitByID c.id).isSome).length
  ensure (!(decide (0 < seen) && decide (seen < b.commits.length)))
    (.conflict "a batch lands whole or not at all")
  pure (decide (0 < seen))

def openZone (now : Nat) (s : Store) : ZoneOp → Except Err Store
  | .create z => s.createZone now z
  | .update z => s.updateZone now z
  | .delete _ => .ok s

def closeZone (s : Store) : ZoneOp → Except Err Store
  | .delete id => s.deleteZone id
  | _ => .ok s

/-- `Batch.writeKeys`, one operation. -/
def writeKey (now : Nat) (s : Store) : KeyOp → Except Err Store
  | .create k => s.createTSIGKey now k
  | .revoke id at_ => s.revokeTSIGKey id at_

/-- `Batch.writeTokens`, one operation. -/
def writeToken (now : Nat) (s : Store) : TokenOp → Except Err Store
  | .create t => s.createToken now t
  | .revoke id at_ => s.revokeToken id at_

/-- The serial step of a commit, where no zone operation of the batch has made it. -/
def stepSerial (now : Nat) (b : Batch) (s : Store) (c : Commit) : Except Err Store :=
  match b.set.entry c.zoneID, b.zoneOp c.zoneID with
  | none, none => .error (.invalid "the batch commits to a zone without changing it")
  | some e, none => do
      let z ← s.zoneByID c.zoneID
      writeSOA now s z e.changes c
  | _, some _ => .ok s

def writeCommit (now : Nat) (b : Batch) (s : Store) (c : Commit) : Except Err Store := do
  let s ← stepSerial now b s c
  s.appendCommit now c

def write (now : Nat) (b : Batch) (s : Store) : Except Err Store := do
  let s ← b.settings.foldlM (fun s c => s.putSetting c.key c.value) s
  let s ← b.keys.foldlM (writeKey now) s
  let s ← b.tokens.foldlM (writeToken now) s
  let s ← b.zones.foldlM (openZone now) s
  let s ← b.set.write now s
  let s ← b.commits.foldlM (writeCommit now b) s
  b.zones.foldlM closeZone s

def validate (b : Batch) (s : Store) : Except Err Unit :=
  b.commits.forM fun c =>
    match b.set.entry c.zoneID with
    | none => .ok ()
    | some e => do
        let z ← s.zoneByID c.zoneID
        validateTouched s z e.changes.touched

def planned (now : Nat) (b : Batch) (s : Store) : Except Err Unit := do
  let s ← b.write now s
  b.validate s

def writeOnce (now : Nat) (b : Batch) (s : Store) : Except Err Store :=
  if b.empty then .ok s
  else do
    let done ← b.applied s
    if done then pure s else b.write now s

/-- `Applier.ApplyBatchAt` -/
def applyAt (now : Nat) (b : Batch) (index : Nat) (s : Store) : Except Err Store :=
  if b.empty && index == 0 then .ok s
  else if index != 0 && decide (index ≤ s.appliedIndex) then .ok s
  else do
    let s ← b.writeOnce now s
    if index = 0 then pure s else s.setAppliedIndex index

/-- `Applier.ApplyBatch` -/
def apply (now : Nat) (b : Batch) (s : Store) : Except Err Store :=
  b.applyAt now 0 s

end Batch

end Wegweiser
