/-
The database: its tables, the constraints of the schema, and the statements the
write path runs against it.

A table is the list of its rows in the order they were inserted.
-/
import Mathlib.Data.List.Sort
import Wegweiser.Json
import Wegweiser.Journal
import Wegweiser.Lib.Links

namespace Wegweiser

open Checked (ensure)

/-- `TSIGAlgorithm`; the algorithms the server does not offer are numbered. -/
inductive TSIGAlgorithm where
  | hmacSHA256
  | hmacSHA384
  | hmacSHA512
  | other (number : Nat)
deriving DecidableEq

/-- Whether the server signs with it. -/
def TSIGAlgorithm.valid : TSIGAlgorithm → Bool
  | other _ => false
  | _ => true

/-- `store.TSIGKey`; the secret is empty once the key is revoked. -/
structure TSIGKey where
  id : TSIGKeyID
  name : Name
  algorithm : TSIGAlgorithm
  secret : Octets
  createdAt : Nat
  revokedAt : Option Nat
deriving DecidableEq

/-- `store.Token`: the hash of the secret, and `display`, its first characters. -/
structure Token where
  id : TokenID
  name : String
  display : String
  hash : Octets
  scopes : List String
  createdAt : Nat
  lastUsedAt : Option Nat
  expiresAt : Option Nat
  revokedAt : Option Nat
deriving DecidableEq

/-- The tables. -/
structure Store where
  zones : List Zone
  records : List Record
  commits : List Commit
  settings : List (String × Octets)
  keys : List TSIGKey
  tokens : List Token
  appliedIndex : Nat
deriving DecidableEq

namespace Record

/-- The row a record hangs off, by `managed_by`. -/
def source (r : Record) : Option RecordID :=
  if r.managedBy = .empty then none else some r.managedBy

/-- The columns of the unique index over `records`. -/
def unique (r : Record) : ZoneID × Name × Class × RRType × RData :=
  (r.zoneID, r.name, r.cls, r.type, r.rdata)

/-- `ORDER BY sort_key, rrtype, id` -/
def listBefore (a b : Record) : Bool :=
  match a.name.compare b.name with
  | .lt => true
  | .gt => false
  | .eq => decide (a.type < b.type) || (a.type == b.type && a.id.before b.id)

/-- The order of a listing, as `insertionSort` takes one. -/
def listLe (a b : Record) : Prop := b.listBefore a = false

instance : DecidableRel listLe := fun a b =>
  inferInstanceAs (Decidable (b.listBefore a = false))

/-- `checkRecord` -/
def check (r : Record) : Except Err Unit := do
  ensure r.id.valid (.invalid "a record needs an identifier assigned before it is stored")
  ensure r.zoneID.valid (.invalid "a record belongs to a zone")
  r.validate

end Record

/-- `checkZone` -/
def Zone.check (z : Zone) : Except Err Unit := do
  ensure z.id.valid (.invalid "a zone needs an identifier assigned before it is stored")
  z.validate

namespace Store

variable (s : Store)

/-- `Reader.ZoneByID` -/
def zoneByID (id : ZoneID) : Except Err Zone :=
  match s.zones.find? fun z => z.id == id with
  | some z => .ok z
  | none => .error (.notFound "zone with the identifier")

/-- `Reader.ZoneByName` -/
def zoneByName (name : Name) : Option Zone :=
  s.zones.find? fun z => z.name == name

/-- The first of two reverse zones, unless the second one's network is smaller. -/
def longerPrefix (best : Option Zone) (z : Zone) : Option Zone :=
  match best with
  | none => some z
  | some b =>
    if (b.netPrefix.map Prefix.bits).getD 0 < (z.netPrefix.map Prefix.bits).getD 0 then some z
    else some b

/-- `Reader.ReverseZoneFor`: the most specific reverse zone covering an address. -/
def reverseZoneFor (addr : Addr) : Option Zone :=
  (s.zones.filter fun z => z.prefixContains addr.column).foldl longerPrefix none

/-- `Reader.RecordByID` -/
def recordByID (id : RecordID) : Except Err Record :=
  match s.records.find? fun r => r.id == id with
  | some r => .ok r
  | none => .error (.notFound "record with the identifier")

/-- The records a condition selects, in the order of a listing. -/
def listRecords (p : Record → Bool) : List Record :=
  (s.records.filter p).insertionSort Record.listLe

/-- `ownerRecords`: every record at one owner name. -/
def ownerRecords (zid : ZoneID) (name : Name) : List Record :=
  s.listRecords fun r => r.zoneID == zid && r.name == name

/-- The records of one RRset, in the order of a listing. -/
def rrset (zid : ZoneID) (key : RRsetKey) : List Record :=
  (s.ownerRecords zid key.name).filter fun r => r.key == key

/-- `Reader.ManagedBy`: what was generated from a record. -/
def managedBy (id : RecordID) : List Record :=
  s.listRecords fun r => r.source == some id

/-- `Reader.ManagedByZone`: generated from a record of the zone, living elsewhere. -/
def managedByZone (zid : ZoneID) : List Record :=
  s.listRecords fun r =>
    r.zoneID != zid &&
      s.records.any fun src => src.zoneID == zid && r.source == some src.id

/-- `Reader.Setting` -/
def setting (key : String) : Option Octets :=
  (s.settings.find? fun kv => kv.1 == key).map Prod.snd

/-- `Reader.CommitByID` -/
def commitByID (id : CommitID) : Option Commit :=
  s.commits.find? fun c => c.id == id

/-- The commits of one zone.  A listing of them is ordered and paged; what reads
one looks commits up by `serialTo`, which is unique among them. -/
def zoneCommits (zid : ZoneID) : List Commit :=
  s.commits.filter fun c => c.zoneID == zid

/-- The records once some are deleted, with `ON DELETE CASCADE` on `managed_by`. -/
def without (gone : List RecordID) : List Record :=
  Links.prune Record.id Record.source s.records gone

/-- What the schema asks of a record that is to stand beside `others`: its zone
and its source exist, and no other record has its identity or its content. -/
def admits (others : List Record) (r : Record) : Except Err Unit := do
  ensure (!others.any fun o => o.id == r.id) (.conflict "record identifier")
  ensure (!others.any fun o => o.unique == r.unique) (.conflict "already has the record")
  ensure (s.zones.any fun z => z.id == r.zoneID) (.failed "no such zone")
  ensure (r.managedBy == .empty || (r :: others).any fun o => o.id == r.managedBy)
    (.failed "no such source record")

/-- `Tx.InsertRecord` -/
def insertRecord (now : Nat) (r : Record) : Except Err Store := do
  r.check
  s.admits s.records r
  pure { s with records := s.records ++ [{ r with createdAt := now, updatedAt := now }] }

/-- `Tx.UpdateRecord`: the row keeps its place and the time it was created. -/
def updateRecord (now : Nat) (r : Record) : Except Err Store := do
  r.check
  ensure (s.records.any fun o => o.id == r.id) (.notFound "record with the identifier")
  s.admits (s.records.filter fun o => o.id != r.id) r
  pure { s with
    records := s.records.map fun o =>
      if o.id = r.id then { r with createdAt := o.createdAt, updatedAt := now } else o }

/-- `Tx.DeleteRecord`: what was generated from the record goes with it. -/
def deleteRecord (id : RecordID) : Except Err Store := do
  ensure (s.records.any fun o => o.id == id) (.notFound "record with the identifier")
  pure { s with records := s.without [id] }

/-- `Tx.CreateZone` -/
def createZone (now : Nat) (z : Zone) : Except Err Store := do
  z.check
  ensure (!s.zones.any fun o => o.id == z.id) (.conflict "zone identifier")
  ensure (!s.zones.any fun o => o.name == z.name) (.conflict "a zone of that name already exists")
  pure { s with zones := s.zones ++ [{ z with createdAt := now, updatedAt := now }] }

/-- `Tx.UpdateZone`: the time the zone was created stays. -/
def updateZone (now : Nat) (z : Zone) : Except Err Store := do
  z.check
  ensure (s.zones.any fun o => o.id == z.id) (.notFound "zone with the identifier")
  ensure (!s.zones.any fun o => o.id != z.id && o.name == z.name)
    (.conflict "a zone of that name already exists")
  pure { s with
    zones := s.zones.map fun o =>
      if o.id = z.id then { z with createdAt := o.createdAt, updatedAt := now } else o }

/-- `Tx.SetZoneSerial` -/
def setZoneSerial (now : Nat) (id : ZoneID) (serial : Serial) : Except Err Store := do
  ensure (s.zones.any fun o => o.id == id) (.notFound "zone with the identifier")
  pure { s with
    zones := s.zones.map fun o =>
      if o.id = id then { o with soa := { o.soa with serial }, updatedAt := now } else o }

/-- `Tx.DeleteZone`: its records go with it, and what they generated elsewhere. -/
def deleteZone (id : ZoneID) : Except Err Store := do
  ensure (s.zones.any fun o => o.id == id) (.notFound "zone with the identifier")
  pure { s with
    zones := s.zones.filter fun o => o.id != id
    records := s.without ((s.records.filter fun r => r.zoneID == id).map Record.id) }

/-- `Tx.AppendCommit`: a commit without a time gets the clock's. -/
def appendCommit (now : Nat) (c : Commit) : Except Err Store := do
  c.validate
  ensure (!s.commits.any fun o => o.id == c.id) (.conflict "commit identifier")
  ensure (!s.commits.any fun o => o.zoneID == c.zoneID && o.serialTo == c.serialTo)
    (.conflict "the zone already has a commit producing that serial")
  pure { s with
    commits := s.commits ++ [if c.createdAt = 0 then { c with createdAt := now } else c] }

/-- `Tx.PutSetting`: the value is any JSON text. -/
def putSetting (key : String) (value : Octets) : Except Err Store := do
  ensure (key != "") (.failed "a setting needs a key")
  ensure (Json.valid value) (.failed "the value for the setting is not JSON")
  pure { s with settings := (key, value) :: s.settings.filter fun kv => kv.1 != key }

/-- `Tx.CreateTSIGKey`: a name is free again once its key is revoked. -/
def createTSIGKey (now : Nat) (k : TSIGKey) : Except Err Store := do
  ensure k.id.valid (.invalid "a TSIG key needs an identifier assigned before it is stored")
  ensure k.algorithm.valid (.invalid "not an algorithm this server signs with")
  ensure (!k.secret.isEmpty) (.invalid "a TSIG key with no secret signs nothing")
  ensure (!s.keys.any fun o => o.id == k.id) (.conflict "key identifier")
  ensure (!s.keys.any fun o => o.name == k.name && o.revokedAt.isNone)
    (.conflict "a key with that name already signs on this server")
  pure { s with
    keys := s.keys ++
      [{ k with createdAt := if k.createdAt = 0 then now else k.createdAt, revokedAt := none }] }

/-- `Tx.RevokeTSIGKey`: only the first revocation counts, and it takes the secret. -/
def revokeTSIGKey (id : TSIGKeyID) (at_ : Nat) : Except Err Store := do
  ensure (s.keys.any fun o => o.id == id) (.notFound "TSIG key with the identifier")
  pure { s with
    keys := s.keys.map fun o =>
      if o.id = id ∧ o.revokedAt = none then { o with secret := [], revokedAt := some at_ }
      else o }

/-- `sha256.Size` -/
def sha256Size : Nat := 32

/-- `Tx.CreateToken` -/
def createToken (now : Nat) (t : Token) : Except Err Store := do
  ensure t.id.valid (.invalid "a token needs an identifier assigned before it is stored")
  ensure (t.hash.length == sha256Size) (.invalid "a token hash is 32 bytes of SHA-256")
  ensure (!s.tokens.any fun o => o.id == t.id) (.conflict "token identifier")
  ensure (!s.tokens.any fun o => o.hash == t.hash)
    (.conflict "a token with that secret already exists")
  pure { s with
    tokens := s.tokens ++ [{ t with createdAt := if t.createdAt = 0 then now else t.createdAt }] }

/-- `Tx.RevokeToken`: only the first revocation counts. -/
def revokeToken (id : TokenID) (at_ : Nat) : Except Err Store := do
  ensure (s.tokens.any fun o => o.id == id) (.notFound "token with the identifier")
  pure { s with
    tokens := s.tokens.map fun o =>
      if o.id = id ∧ o.revokedAt = none then { o with revokedAt := some at_ } else o }

/-- `Tx.SetAppliedIndex`; the column is a signed one. -/
def setAppliedIndex (index : Nat) : Except Err Store := do
  ensure (index != 0) (.failed "zero is no position in a log")
  ensure (decide (index ≤ 2 ^ 63 - 1)) (.failed "the log index is past what the column holds")
  pure { s with appliedIndex := index }

end Store

end Wegweiser
