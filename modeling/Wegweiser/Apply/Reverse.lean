/-
The reverse automation: which reverse entries a change implies, which of them
are put in their way, and what a reconciliation fills in.
-/
import Wegweiser.Apply.Batch

namespace Wegweiser

open Checked (ensure)

/-- `rdataKey`: everything that makes a resource record that record, without its
lifetime. -/
structure RdataKey where
  name : Name
  cls : Class
  type : RRType
  rdata : RData
deriving DecidableEq

/-- What an operation finds around it: the wire library, the options the applier
was built with, the clock, the identifiers `id.New` hands out one after another,
and the order in which a map is ranged over. -/
structure Env where
  lib : WireLibrary
  autoReverseDefault : Bool
  policy : Policy
  now : Nat
  mint : Nat → Ident
  mint_valid : ∀ n, (mint n).valid = true
  mapOrder : List (RdataKey × Event) → List (RdataKey × Event)
  mapOrder_perm : ∀ l, (mapOrder l).Perm l

structure Conflict where
  source : RecordID
  sourceName : Name
  address : Addr
  reverseZone : ZoneID
  reverseName : Name
  existing : Option Name
  generated : Bool
  policy : Policy
deriving DecidableEq

structure MissingZone where
  source : RecordID
  sourceName : Name
  address : Addr
  suggested : Name
  netPrefix : Prefix
deriving DecidableEq

/-- `Result`: what an operation reports. -/
structure Result where
  commits : List Commit
  conflicts : List Conflict
  missingZones : List MissingZone
deriving DecidableEq

def Result.blank : Result := ⟨[], [], []⟩

/-- What planning carries along: the change set, the report, and how many
identifiers have been minted. -/
structure Work where
  cs : ChangeSet
  res : Result
  minted : Nat
deriving DecidableEq

namespace Work

def blank : Work := ⟨ChangeSet.blank, Result.blank, 0⟩

/-- `cs.in(z)` followed by a change. -/
def inZone (w : Work) (z : Zone) (f : Changes → Changes) : Work :=
  { w with cs := w.cs.inZone z f }

def report (w : Work) (c : Conflict) : Work :=
  { w with res := { w.res with conflicts := w.res.conflicts ++ [c] } }

end Work

def policySetting : String := "reverse_policy"

def parsePolicy (text : Octets) : Option Policy :=
  if text = ascii "first-wins" then some .firstWins
  else if text = ascii "last-wins" then some .lastWins
  else if text = ascii "multi" then some .multi
  else if text = ascii "reject" then some .reject
  else none

def storedPolicy (s : Store) : Except Err (Option Policy) :=
  match s.setting policySetting with
  | none => .ok none
  | some raw =>
    match Json.stringValue raw with
    | none => .error (.failed "the stored reverse policy is not readable")
    | some text =>
      match parsePolicy text with
      | none => .error (.invalid "reverse policy in the database")
      | some p => .ok (some p)

/-- `ReverseZoneName`, for the networks the automation suggests: an IPv4 network on
an octet boundary or an IPv6 network on a nibble boundary. -/
def reverseZoneName (p : Prefix) : Except Err Name :=
  match p.masked with
  | .v4 a len =>
    let octets := (Addr.v4 a).octets
    let whole := len / 8
    let classless :=
      if len % 8 ≠ 0 then decimal (octets.getD whole 0) ++ [47] ++ decimal len ++ [46] else []
    parseName (classless ++
      ((octets.take whole).reverse.flatMap fun o => decimal o ++ [46]) ++ arpaV4.string)
  | .v6 a len =>
    if len % 4 ≠ 0 then .error (.invalid "an IPv6 reverse zone must end on a nibble boundary")
    else
      let nibbles := (Addr.v6 a []).octets.flatMap fun o => [o / 16, o % 16]
      parseName (((nibbles.take (len / 4)).reverse.flatMap fun d => [hexOctet d, 46]) ++
        arpaV6.string)

def suggestReverseZone (addr : Addr) : Except Err (Name × Prefix) :=
  let net := match addr.unmap with
    | .v4 bits => (Prefix.v4 bits 24).masked
    | .v6 bits _ => (Prefix.v6 bits 64).masked
  (reverseZoneName net).map fun name => (name, net)

def sameReverse (before after : Record) : Bool :=
  match before.address, after.address with
  | none, none => true
  | some b, some c => b == c && before.name == after.name && before.disabled == after.disabled
  | _, _ => false

namespace Env

variable (env : Env)

def autoReverse (z : Zone) : Bool :=
  z.autoReverse.getD env.autoReverseDefault

def effectivePolicy (s : Store) : Except Err Policy :=
  (storedPolicy s).map fun p => p.getD env.policy

/-- `Applier.zoneOf`: the change set's copy of a zone before the store's. -/
def zoneOf (s : Store) (cs : ChangeSet) (zid : ZoneID) : Except Err Zone :=
  match cs.entry zid with
  | some e => .ok e.zone
  | none => s.zoneByID zid

def queueRemoval (s : Store) (w : Work) (d : Record) : Except Err Work := do
  let z ← zoneOf s w.cs d.zoneID
  pure (w.inZone z (·.remove d))

/-- The loop of `Applier.retireBelow`.  The links run from younger to older rows,
so the number of records bounds the walk. -/
def retireQueue (s : Store) : Nat → List RecordID → Work → Except Err Work
  | _, [], w => .ok w
  | 0, _ :: _, _ => .error (.failed "the provenance links run in a circle")
  | fuel + 1, next :: queue, w => do
      let derived := s.managedBy next
      let w ← derived.foldlM (queueRemoval s) w
      retireQueue s fuel (queue ++ derived.map Record.id) w

def retireBelow (s : Store) (id : RecordID) (w : Work) : Except Err Work :=
  retireQueue s (s.records.length + 1) [id] w

/-- `Applier.retireGenerated`: only these three types can have anything hanging off
them. -/
def retireGenerated (s : Store) (w : Work) (source : Record) : Except Err Work :=
  if source.type = typeA ∨ source.type = typeAAAA ∨ source.type = typePTR then
    retireBelow s source.id w
  else .ok w

def retire (s : Store) (w : Work) (r : Record) : Except Err Work := do
  let w ← queueRemoval s w r
  retireBelow s r.id w

/-- `Applier.reverseRRset`: the reverse entries at a name as the change set will
leave them. -/
def reverseRRset (s : Store) (cs : ChangeSet) (rev : Zone) (key : RRsetKey) : List Record :=
  let pending := cs.pending rev.id
  ((s.rrset rev.id key).filter fun r => !pending.removing r.id) ++ pending.arriving key

def ownerAsWillBe (s : Store) (cs : ChangeSet) (z : Zone) (name : Name) : List Record :=
  let pending := cs.pending z.id
  ((s.ownerRecords z.id name).filter fun r => !pending.removing r.id) ++ pending.arrivingAt name

/-- The generated reverse entry of `Applier.queueGenerated`. -/
def generatedPTR (rev : Zone) (source : Record) (owner : Name) (data : RData)
    (id : RecordID) : Record :=
  { id, zoneID := rev.id, name := owner, cls := classIN, type := typePTR,
    ttl := rev.defaultTTL, rdata := data, managedBy := source.id, managedKind := some .ptr,
    comment := "", disabled := false, createdAt := 0, updatedAt := 0 }

/-- The delegation of `Applier.queueDelegation`. -/
def generatedCNAME (parent : Zone) (ptr : Record) (plain : Name) (data : RData)
    (id : RecordID) : Record :=
  { id, zoneID := parent.id, name := plain, cls := classIN, type := typeCNAME,
    ttl := parent.defaultTTL, rdata := data, managedBy := ptr.id,
    managedKind := some .rfc2317CNAME, comment := "", disabled := false,
    createdAt := 0, updatedAt := 0 }

def queueGenerated (w : Work) (rev : Zone) (source : Record) (owner : Name) :
    Except Err (Record × Work) := do
  let data ← env.lib.parseRData typePTR classIN source.name.string
  let ptr := generatedPTR rev source owner data (env.mint w.minted)
  pure (ptr, { w.inZone rev (·.insert ptr) with minted := w.minted + 1 })

def queueDelegation (s : Store) (w : Work) (child : Zone) (addr : Addr) (target : Name)
    (ptr : Record) : Except Err Work := do
  let plain ← reverseName addr
  if plain.isSubDomainOf child.name then pure w
  else
    match child.name.parent.bind s.zoneByName with
    | none => pure w
    | some parent =>
      let held := ownerAsWillBe s w.cs parent plain
      if held.any fun r => r.type == typeCNAME && r.rdata.text == target.string then pure w
      else
        match held with
        | first :: _ => do
            let policy ← env.effectivePolicy s
            pure (w.report
              { source := ptr.managedBy, sourceName := ptr.name, address := addr,
                reverseZone := parent.id, reverseName := plain, existing := some first.name,
                generated := first.isManaged, policy })
        | [] => do
            let data ← env.lib.parseRData typeCNAME classIN target.string
            let cname := generatedCNAME parent ptr plain data (env.mint w.minted)
            pure { w.inZone parent (·.insert cname) with minted := w.minted + 1 }

def queueEntry (s : Store) (w : Work) (rev : Zone) (source : Record) (addr : Addr)
    (owner : Name) : Except Err Work := do
  let (ptr, w) ← env.queueGenerated w rev source owner
  env.queueDelegation s w rev addr owner ptr

def conflictPolicy (s : Store) (cs : ChangeSet) : Except Err Policy :=
  match cs.policy with
  | some p => .ok p
  | none => env.effectivePolicy s

/-- `Applier.resolveConflict`, for the entries `held :: others`. -/
def resolveConflict (s : Store) (w : Work) (rev : Zone) (source : Record) (addr : Addr)
    (owner : Name) (held : Record) (others : List Record) : Except Err Work := do
  let policy ← env.conflictPolicy s w.cs
  let conflict : Conflict :=
    { source := source.id, sourceName := source.name, address := addr, reverseZone := rev.id,
      reverseName := owner, existing := (parseName held.rdata.text).toOption,
      generated := held.isManaged, policy }
  match policy with
  | .multi => env.queueEntry s w rev source addr owner
  | .reject => .error (.conflict "the address already reverses to another name")
  | .lastWins =>
    if !held.isManaged then pure (w.report conflict)
    else
      let w := ((held :: others).filter Record.isManaged).foldl
        (fun w r => w.inZone rev (·.remove r)) w
      env.queueEntry s (w.report conflict) rev source addr owner
  | .firstWins => pure (w.report conflict)

def generate (s : Store) (w : Work) (source : Record) : Except Err Work :=
  match source.address with
  | none => .ok w
  | some addr =>
    if source.isManaged || source.disabled then .ok w
    else
      match s.reverseZoneFor addr with
      | none => do
          let (suggested, net) ← suggestReverseZone addr
          let hint : MissingZone :=
            { source := source.id, sourceName := source.name, address := addr,
              suggested, netPrefix := net }
          pure { w with res := { w.res with missingZones := w.res.missingZones ++ [hint] } }
      | some rev => do
          let owner ← rev.reverseOwner addr
          match reverseRRset s w.cs rev ⟨owner, classIN, typePTR⟩ with
          | [] => env.queueEntry s w rev source addr owner
          | held :: others =>
            if (held :: others).any fun r => r.rdata.text == source.name.string then pure w
            else env.resolveConflict s w rev source addr owner held others

def expandReverse (s : Store) (w : Work) (src : Zone) : Except Err Work :=
  if !env.autoReverse src then .ok w
  else do
    let pending := w.cs.pending src.id
    let moved := pending.updates.filter fun u => !sameReverse u.before u.after
    let w ← pending.deletes.foldlM (retireGenerated s) w
    let w ← moved.foldlM (fun w u => retireGenerated s w u.before) w
    let w ← moved.foldlM (fun w u => env.generate s w u.after) w
    let w ← (w.cs.pending src.id).inserts.foldlM (env.generate s) w
    pending.claims.foldlM (env.generate s) w

/-- The listing `Applier.reconcileInto` walks. -/
def reconcileSources (s : Store) (z : Zone) : List Record :=
  s.listRecords fun r =>
    (r.type == typeA || r.type == typeAAAA) &&
      match z.kind with
      | .reverse =>
        match r.address with
        | some addr => z.prefixContains addr.column
        | none => false
      | .forward => r.zoneID == z.id

def supersede (s : Store) (w : Work) (r : Record) : Except Err Work :=
  match r.address.bind fun addr => (s.reverseZoneFor addr).map fun rev => (addr, rev) with
  | none => .ok w
  | some (addr, rev) => do
      let owner ← rev.reverseOwner addr
      ((s.managedBy r.id).filter fun d =>
        !(d.zoneID == rev.id && d.type == typePTR && d.name == owner)).foldlM (retire s) w

/-- One record of `Applier.reconcileInto`; the first step is `sourceGenerates`. -/
def reconcileRecord (s : Store) (w : Work) (r : Record) : Except Err Work := do
  let src ← zoneOf s w.cs r.zoneID
  if !env.autoReverse src then pure w
  else do
    let w ← supersede s w r
    env.generate s w r

def reconcileInto (s : Store) (w : Work) (z : Zone) : Except Err Work :=
  if z.kind == .forward && !env.autoReverse z then .ok w
  else (reconcileSources s z).foldlM (env.reconcileRecord s) w

end Env

end Wegweiser
