/-
Zones and records, and the rules for one owner name.

The reverse namespaces are here too: which network a reverse zone answers for,
and the owner name an address has inside it.
-/
import Wegweiser.Zone.Data

namespace Wegweiser

open Checked (ensure)

/-- `zone.Kind` -/
inductive Kind where
  | forward
  | reverse
deriving DecidableEq

/-- `ManagedKind`: why a record was generated rather than authored. -/
inductive ManagedKind where
  | ptr
  | rfc2317CNAME
deriving DecidableEq

/-- `zone.Zone` -/
structure Zone where
  id : ZoneID
  name : Name
  kind : Kind
  netPrefix : Option Prefix
  soa : SOA
  defaultTTL : TTL
  /-- Nil inherits the server's setting. -/
  autoReverse : Option Bool
  disabled : Bool
  comment : String
  createdAt : Nat
  updatedAt : Nat
deriving DecidableEq

/-- `zone.Record` -/
structure Record where
  id : RecordID
  zoneID : ZoneID
  name : Name
  cls : Class
  type : RRType
  ttl : TTL
  rdata : RData
  /-- The record that caused this one; empty for an authored record. -/
  managedBy : RecordID
  managedKind : Option ManagedKind
  comment : String
  disabled : Bool
  createdAt : Nat
  updatedAt : Nat
deriving DecidableEq

/-- `RRsetKey`: what the records of an RRset have in common. -/
structure RRsetKey where
  name : Name
  cls : Class
  type : RRType
deriving DecidableEq

namespace Record

/-- `Record.Key` -/
def key (r : Record) : RRsetKey := ⟨r.name, r.cls, r.type⟩

/-- `Record.IsManaged`: generated rather than authored. -/
def isManaged (r : Record) : Bool := r.managedBy != .empty

/-- `Record.Address`, of an A or an AAAA record. -/
def address (r : Record) : Option Addr := r.rdata.address r.type

/-- `Record.validateHeader`: all but the data. -/
def validateHeader (r : Record) : Except Err Unit := do
  ensure (storableClass r.cls) (.invalid "class exists only inside a message, not in a zone")
  ensure (storableType r.type) (.invalid "type exists only inside a message, not in a zone")
  ensure (!isDNSSEC r.type) (.invalid "records of this type are maintained by the signer")
  ensure (r.type != typeSOA) (.invalid "the SOA is part of the zone rather than a record")
  ensure (validTTL r.ttl) (.invalid "TTL exceeds the maximum")

/-- `Record.Validate` -/
def validate (r : Record) : Except Err Unit := do
  r.validateHeader
  ensure (!r.rdata.text.isEmpty) (.invalid "a record needs data")
  ensure ((r.managedBy == .empty) == r.managedKind.isNone)
    (.invalid "a generated record needs both a source and a reason")

end Record

/-- `NewRecord`: an authored, enabled record with its data canonicalised. -/
def newRecord (lib : WireLibrary) (zoneID : ZoneID) (name : Name) (cls : Class)
    (type : RRType) (ttl : TTL) (rdata : Octets) : Except Err Record := do
  let r : Record :=
    { id := .empty, zoneID, name, cls, type, ttl, rdata := ⟨[]⟩, managedBy := .empty,
      managedKind := none, comment := "", disabled := false, createdAt := 0, updatedAt := 0 }
  r.validateHeader
  let data ← lib.parseRData type cls rdata
  let r := { r with rdata := data }
  r.validate
  pure r

/-- `in-addr.arpa.` -/
def arpaV4 : Name := ⟨[ascii "in-addr", ascii "arpa"], by decide +kernel, by decide +kernel⟩

/-- `ip6.arpa.` -/
def arpaV6 : Name := ⟨[ascii "ip6", ascii "arpa"], by decide +kernel, by decide +kernel⟩

/-- `IsReverseName` -/
def isReverseName (n : Name) : Bool :=
  n.isSubDomainOf arpaV4 || n.isSubDomainOf arpaV6

/-- One nibble as `hexDigits` writes it. -/
def hexOctet (nibble : Nat) : UInt8 :=
  if nibble < 10 then UInt8.ofNat (48 + nibble) else UInt8.ofNat (87 + nibble)

/-- `ReverseName`: an address under its reverse namespace. -/
def reverseName (addr : Addr) : Except Err Name :=
  match addr with
  | .v4 _ =>
    parseName ((addr.octets.reverse.flatMap fun o => decimal o ++ [46]) ++ arpaV4.string)
  | .v6 _ _ =>
    parseName ((addr.octets.reverse.flatMap fun o =>
      [hexOctet (o % 16), 46, hexOctet (o / 16), 46]) ++ arpaV6.string)

/-- `labelsAbove`: the labels of a name in front of a suffix of it. -/
def labelsAbove (n suffix : Name) : List Octets :=
  n.labels.take (n.labelCount - suffix.labelCount)

/-- `parseClasslessLabel`: the octet value and the full prefix length. -/
def parseClasslessLabel (label : Octets) (index : Nat) : Option (Nat × Nat) :=
  let base := index * 8
  if label.contains 47 then do
    let first := label.takeWhile (· ≠ 47)
    let value ← parseUint 8 first
    let length ← atoi (label.drop (first.length + 1))
    if length ≤ base || base + 8 < length then none else some (value, length)
  else if label.contains 45 then do
    let first := label.takeWhile (· ≠ 45)
    let lo ← parseUint 8 first
    let hi ← parseUint 8 (label.drop (first.length + 1))
    if hi < lo then none
    else
      let size := hi - lo + 1
      -- one aligned block, or the range names no prefix at all
      if size = 2 ^ size.log2 && lo % size == 0 then some (lo, base + 8 - size.log2)
      else none
  else none

/-- The loop of `parseReversePrefixV4`, over the labels from the most
significant one: the octets read so far and the prefix length they give. -/
def reversePrefixV4 (done : List Nat) : List Octets → Option (List Nat × Nat)
  | [] => some (done, done.length * 8)
  | label :: rest =>
    if label.contains 47 || label.contains 45 then
      -- nothing can be delegated below a classless label
      if !rest.isEmpty then none
      else (parseClasslessLabel label done.length).map fun (value, length) =>
        (done ++ [value], length)
    else
      match parseUint 8 label with
      | none => none
      | some v =>
        if 1 < label.length && label.head? == some 48 then none
        else reversePrefixV4 (done ++ [v]) rest

/-- `parseReversePrefixV4`, with classless labels at the front. -/
def parseReversePrefixV4 (n : Name) : Option Prefix :=
  let labels := labelsAbove n arpaV4
  if 4 < labels.length then none
  else (reversePrefixV4 [] labels.reverse).map fun (octets, len) =>
    (Prefix.v4 (BitVec.ofNat 32 (ofOctets (octets ++ List.replicate (4 - octets.length) 0)))
      len).masked

/-- `parseReversePrefixV6`: a label is a nibble. -/
def parseReversePrefixV6 (n : Name) : Option Prefix :=
  let labels := labelsAbove n arpaV6
  if 32 < labels.length then none
  else do
    let nibbles ← labels.reverse.mapM fun label =>
      match label with
      | [c] => hexDigit c
      | _ => none
    let value := (nibbles ++ List.replicate (32 - nibbles.length) 0).foldl
      (fun n d => n * 16 + d) 0
    some (Prefix.v6 (BitVec.ofNat 128 value) (labels.length * 4)).masked

/-- `ParseReversePrefix`: the network that the name of a reverse zone stands for. -/
def parseReversePrefix (n : Name) : Except Err Prefix :=
  let derived :=
    if n.isSubDomainOf arpaV4 then parseReversePrefixV4 n
    else if n.isSubDomainOf arpaV6 then parseReversePrefixV6 n
    else none
  match derived with
  | some p => .ok p
  | none => .error (.invalid "not the name of a reverse zone")

namespace Zone

/-- `Zone.Validate` -/
def validate (z : Zone) : Except Err Unit := do
  ensure (validTTL z.defaultTTL) (.invalid "default TTL exceeds the maximum")
  z.soa.validate
  match z.kind with
  | .forward => do
      ensure z.netPrefix.isNone (.invalid "a forward zone cannot carry a network prefix")
      ensure (!isReverseName z.name)
        (.invalid "the name lies in a reverse namespace but is marked as a forward zone")
  | .reverse => do
      ensure z.netPrefix.isSome (.invalid "a reverse zone needs the network it answers for")
      let derived ← parseReversePrefix z.name
      ensure (some derived == z.netPrefix)
        (.invalid "the name and the network of the zone disagree")

/-- `Zone.Contains` -/
def contains (z : Zone) (n : Name) : Bool := n.isSubDomainOf z.name

/-- `Zone.IsApex` -/
def isApex (z : Zone) (n : Name) : Bool := z.name == n

/-- Whether an address is in the network of a zone. -/
def prefixContains (z : Zone) (addr : Addr) : Bool :=
  match z.netPrefix with
  | some p => p.contains addr
  | none => false

/-- The host part of `ReverseOwner`, put back label by label from the right. -/
def childAll (n : Name) : List Octets → Except Err Name
  | [] => .ok n
  | label :: rest => do
      let below ← n.child label
      childAll below rest

/-- `Zone.ReverseOwner`: in a classless child the host part hangs below the zone's own name. -/
def reverseOwner (z : Zone) (addr : Addr) : Except Err Name := do
  ensure (z.kind == .reverse) (.invalid "not a reverse zone")
  ensure (z.prefixContains addr.unmap) (.invalid "the address is outside the zone's network")
  let plain ← reverseName addr
  if plain.isSubDomainOf z.name then pure plain
  else
    match z.name.parent with
    | none => .error (.invalid "neither an ancestor nor a classless child of one")
    | some parent => do
        ensure (plain.isSubDomainOf parent)
          (.invalid "neither an ancestor nor a classless child of one")
        childAll z.name (labelsAbove plain parent).reverse

end Zone

/-- `ValidateRRset` -/
def validateRRset (records : List Record) : Except Err Unit :=
  match records with
  | [] => .ok ()
  | first :: _ => do
      let _ ← records.foldlM (fun (seen : List Octets) r => do
        r.validate
        ensure (r.key == first.key) (.invalid "record is not part of the RRset")
        ensure (r.ttl == first.ttl) (.invalid "every record in an RRset must share one TTL")
        ensure (!seen.contains r.rdata.text) (.invalid "data appears twice in the RRset")
        pure (r.rdata.text :: seen)) []
      ensure (first.type != typeCNAME || records.length ≤ 1)
        (.invalid "a name can have only one canonical name")

/-- `ValidateOwner`: the records at one name, taken together. -/
def validateOwner (z : Zone) (name : Name) (records : List Record) : Except Err Unit := do
  ensure (z.contains name) (.invalid "the name is not inside the zone")
  ensure (records.all fun r => r.name == name)
    (.invalid "a record of another name was checked among the records of this one")
  let hasCNAME := records.any fun r => r.type == typeCNAME
  let otherTypes := records.any fun r => r.type != typeCNAME
  (records.map Record.key).dedup.forM fun key =>
    validateRRset (records.filter fun r => r.key == key)
  ensure (!(hasCNAME && otherTypes)) (.invalid "a CNAME alongside other records")
  ensure (!(hasCNAME && z.isApex name)) (.invalid "the zone apex cannot be a CNAME")
  -- a PTR outside the network its zone answers for would never be found
  ensure (z.kind != .reverse || records.all fun r =>
      r.type != typePTR ||
        match parseReversePrefix r.name with
        | .ok p => z.prefixContains p.addr
        | .error _ => true)
    (.invalid "the PTR names an address outside the network of the zone")

/-- `ValidateUnderDelegation`: what may stand at a delegation and below it. -/
def validateUnderDelegation (name : Name) (records : List Record)
    (delegation : Option Name) : Except Err Unit :=
  match delegation with
  | none => .ok ()
  | some point =>
    if point = name then
      ensure (records.all fun r => r.type == typeNS)
        (.invalid "only NS records may stand at a delegation")
    else
      ensure (records.all fun r => r.type == typeA || r.type == typeAAAA)
        (.invalid "only glue records may stand below a delegation")

/-- `ValidateZone`: a zone with all of its records. -/
def validateZone (z : Zone) (records : List Record) : Except Err Unit := do
  z.validate
  ensure (records.all fun r => z.contains r.name) (.invalid "the name is not inside the zone")
  let owners := (records.map Record.name).dedup
  let at_ := fun name => records.filter fun r => r.name == name
  owners.forM fun name => validateOwner z name (at_ name)
  ensure ((at_ z.name).any fun r => r.type == typeNS)
    (.invalid "the zone has no NS record at its apex")
  let delegations := (records.filter fun r => r.type == typeNS && !z.isApex r.name).map
    Record.name
  owners.forM fun name =>
    validateUnderDelegation name (at_ name)
      (name.upwards.find? fun n => delegations.contains n)

end Wegweiser
