/-
The values a record and a zone are made of: identifiers, types and classes,
TTLs, serials, record data and start-of-authority parameters.

What the wire library does with one line of presentation format is the only
thing here that is not in the repository; it is the parameter `WireLibrary`.
-/
import Wegweiser.Lib.Checked
import Wegweiser.Zone.Addr

namespace Wegweiser

open Checked (ensure)

/-- An identifier.  Identifiers are texts that are only compared, ordered and
tested for their canonical form, so a text is either empty, the canonical text
of the 128-bit value of a ULID, or one of the other texts, which are numbered. -/
inductive Ident where
  | empty
  | ulid (value : Nat)
  | other (number : Nat)
deriving DecidableEq

namespace Ident

def valid : Ident → Bool
  | ulid value => decide (value < 2 ^ 128)
  | _ => false

def before : Ident → Ident → Bool
  | empty, empty => false
  | empty, _ => true
  | _, empty => false
  | ulid a, ulid b => decide (a < b)
  | ulid _, other _ => true
  | other _, ulid _ => false
  | other a, other b => decide (a < b)

theorem ne_empty_of_valid {id : Ident} (h : id.valid = true) : id ≠ empty := by
  rintro rfl
  simp [valid] at h

end Ident

abbrev ZoneID := Ident
abbrev RecordID := Ident
abbrev CommitID := Ident
abbrev TSIGKeyID := Ident
abbrev TokenID := Ident

/-- `RRType`, by its IANA number. -/
abbrev RRType := UInt16

/-- `Class`, by its IANA number. -/
abbrev Class := UInt16

def typeNone : RRType := 0
def typeA : RRType := 1
def typeNS : RRType := 2
def typeCNAME : RRType := 5
def typeSOA : RRType := 6
def typeNULL : RRType := 10
def typePTR : RRType := 12
def typeAAAA : RRType := 28

def classIN : Class := 1
def classNONE : Class := 254
def classANY : Class := 255

/-- `RRType.IsQueryOnly`: IXFR, AXFR, MAILB, MAILA and ANY. -/
def isQueryOnly (t : RRType) : Bool :=
  [251, 252, 253, 254, 255].contains t

/-- `RRType.IsMeta`: OPT, TKEY and TSIG. -/
def isMeta (t : RRType) : Bool :=
  [41, 249, 250].contains t

/-- `RRType.IsDNSSEC`: DS, RRSIG, NSEC, DNSKEY, NSEC3, NSEC3PARAM and the SIG, KEY
and NXT they replaced. -/
def isDNSSEC (t : RRType) : Bool :=
  [43, 46, 47, 48, 50, 51, 24, 25, 30].contains t

/-- `RRType.Storable` -/
def storableType (t : RRType) : Bool :=
  t != typeNone && t != typeNULL && !isQueryOnly t && !isMeta t

/-- `Class.Storable` -/
def storableClass (c : Class) : Bool :=
  c != 0 && c != classNONE && c != classANY

abbrev TTL := UInt32

def maxTTL : TTL := 2147483647

/-- `TTL.Valid` -/
def validTTL (t : TTL) : Bool :=
  decide (t ≤ maxTTL)

/-- `Serial`, with the arithmetic of RFC 1982. -/
structure Serial where
  v : UInt32
deriving DecidableEq

namespace Serial

def half : UInt32 := 2147483648

def next (s : Serial) : Serial := ⟨s.v + 1⟩

def comparable (s o : Serial) : Bool :=
  decide (o.v - s.v ≠ half)

/-- `Serial.Before`, by way of `Serial.Compare`. -/
def before (s o : Serial) : Bool :=
  if s.v = o.v then false
  else if o.v - s.v < half then true
  else if half < o.v - s.v then false
  else decide (s.v < o.v)

end Serial

/-- `RData`: canonical presentation text; the zero value is the empty text. -/
structure RData where
  text : Octets
deriving DecidableEq

def RData.address (d : RData) (t : RRType) : Option Addr :=
  if t != typeA && t != typeAAAA then none
  else
    match parseAddr d.text with
    | none => none
    | some addr => if (t == typeA) != addr.is4 then none else some addr

/-- The wire library: one line of presentation format read under an origin, the
record printed back, and the fields of the record that hold a domain name. -/
structure WireLibrary where
  RR : Type
  /-- `ZoneParser` on the one record the line describes; no record when the line
  is refused or describes more than one. -/
  parse : RRType → Class → (data : Octets) → (origin : Octets) → Option RR
  /-- `RR.String` -/
  string : RR → Octets
  domainNames : RR → List Octets
  setDomainNames : RR → List Octets → RR

namespace WireLibrary

variable (lib : WireLibrary)

/-- `extractRData`: what `String` prints after the four tab-separated header
fields. -/
def extractRData (rr : lib.RR) : Except Err Octets :=
  match splitOctets 9 (lib.string rr) with
  | _ :: _ :: _ :: _ :: part :: parts =>
    let text := trimSpace ((part :: parts).intersperse [9]).flatten
    if text.isEmpty then .error (.invalid "record data: record has no data") else .ok text
  | _ => .error (.invalid "record data: record has no data")

def parseRDataOnce (t : RRType) (c : Class) (s origin : Octets) : Except Err (lib.RR × Octets) :=
  match lib.parse t c s origin with
  | none => .error (.invalid "record data")
  | some rr => (lib.extractRData rr).map fun text => (rr, text)

def probeOriginA : Octets := ascii "origin-probe-a.invalid."
def probeOriginB : Octets := ascii "origin-probe-b.invalid."

/-- The name fields of a record, each read and written back through `ParseName`. -/
def canonicalNames (names : List Octets) : Except Err (List Octets) :=
  names.mapM fun f => (parseName f).map Name.string

/-- The second half of `ParseRData` for data that holds names: the same text under
the second origin, and every name canonical. -/
def canonicalTextUnder (second : Octets) (t : RRType) (c : Class) (s : Octets) (rr : lib.RR)
    (text : Octets) : Except Err Octets :=
  if (lib.domainNames rr).isEmpty then .ok text
  else do
    let (_, other) ← lib.parseRDataOnce t c s second
    ensure (other == text)
      (.invalid "record data: contains a name that is not fully qualified")
    let names ← canonicalNames (lib.domainNames rr)
    lib.extractRData (lib.setDomainNames rr names)

/-- `ParseRData`, with the two origins it probes with. -/
def parseRDataUnder (first second : Octets) (t : RRType) (c : Class) (s : Octets) :
    Except Err RData := do
  ensure (storableType t) (.invalid "record data: type cannot be stored in a zone")
  ensure (storableClass c) (.invalid "record data: class cannot be stored in a zone")
  ensure (!(trimSpace s).isEmpty) (.invalid "record data: record has no data")
  let (rr, text) ← lib.parseRDataOnce t c s first
  let text ← lib.canonicalTextUnder second t c s rr text
  match lib.parseRDataOnce t c text first with
  | .ok (_, reparsed) =>
    if reparsed = text then .ok ⟨text⟩
    else .error (.invalid "record data: no stable presentation form")
  | .error _ => .error (.invalid "record data: no stable presentation form")

def parseRData (t : RRType) (c : Class) (s : Octets) : Except Err RData :=
  lib.parseRDataUnder probeOriginA probeOriginB t c s

def absolute (origin name : Octets) : Octets :=
  if name.getLast? = some 46 then name else name ++ [46] ++ origin

/-- How many of the fields of a type's data are domain names, for the types whose
data is read field by field here. -/
def nameFields (t : RRType) : Nat :=
  if t = typePTR || t = typeCNAME || t = typeNS then 1 else if t = typeSOA then 2 else 0

/-- A wire library for data that is one domain name, or white-space separated fields
with any domain names in front: addresses, the types with a name for data, the
SOA. -/
def plain : WireLibrary where
  RR := List Octets × List Octets
  parse t _ data origin :=
    let parts := if nameFields t = 1 then [data] else fields data
    if t = typeA && !((parseAddr data).map Addr.is4 == some true) then none
    else if t = typeAAAA && !((parseAddr data).map Addr.is4 == some false) then none
    else some ((parts.take (nameFields t)).map (absolute origin), parts.drop (nameFields t))
  string rr := [9, 9, 9, 9] ++ ((rr.1 ++ rr.2).intersperse [32]).flatten
  domainNames rr := rr.1
  setDomainNames rr names := (names, rr.2)

end WireLibrary

structure SOA where
  ns : Name
  mbox : Name
  serial : Serial
  refresh : TTL
  retry : TTL
  expire : TTL
  minimum : TTL
  ttl : TTL
deriving DecidableEq

namespace SOA

def validate (s : SOA) : Except Err Unit := do
  ensure (!s.ns.isRoot) (.invalid "the SOA primary name server cannot be the root")
  ensure (validTTL s.refresh) (.invalid "SOA refresh exceeds the maximum")
  ensure (validTTL s.retry) (.invalid "SOA retry exceeds the maximum")
  ensure (validTTL s.expire) (.invalid "SOA expire exceeds the maximum")
  ensure (validTTL s.minimum) (.invalid "SOA minimum exceeds the maximum")
  ensure (validTTL s.ttl) (.invalid "SOA TTL exceeds the maximum")
  ensure (s.refresh != 0)
    (.invalid "SOA refresh of zero would leave secondaries never refreshing")
  ensure (s.retry != 0)
    (.invalid "SOA retry of zero would leave a failed transfer never retried")
  ensure (decide (s.refresh + s.retry < s.expire))
    (.invalid "SOA expire must exceed refresh plus retry")

def rdata (s : SOA) : Octets :=
  s.ns.string ++ [32] ++ s.mbox.string ++ [32] ++ decimal s.serial.v.toNat ++
    [s.refresh, s.retry, s.expire, s.minimum].flatMap fun v => 32 :: decimal v.toNat

def parseSerial (s : Octets) : Except Err Serial :=
  match parseUint 32 s with
  | none => .error (.invalid "the SOA serial is not a 32-bit number")
  | some v => .ok ⟨UInt32.ofNat v⟩

def parseCounter (what : String) (s : Octets) : Except Err TTL :=
  match parseUint 32 s with
  | none => .error (.invalid what)
  | some v =>
    if maxTTL < UInt32.ofNat v then .error (.invalid what) else .ok (UInt32.ofNat v)

end SOA

def parseSOAData (s : Octets) : Except Err SOA :=
  match fields s with
  | [ns, mbox, serial, refresh, retry, expire, minimum] => do
      let ns ← parseName ns
      let mbox ← parseName mbox
      let serial ← SOA.parseSerial serial
      let refresh ← SOA.parseCounter "the SOA refresh interval" refresh
      let retry ← SOA.parseCounter "the SOA retry interval" retry
      let expire ← SOA.parseCounter "the SOA expiry" expire
      let minimum ← SOA.parseCounter "the SOA negative-caching TTL" minimum
      .ok ⟨ns, mbox, serial, refresh, retry, expire, minimum, 0⟩
  | _ => .error (.invalid "an SOA carries 7 values (MNAME, RNAME and five counters)")

end Wegweiser
