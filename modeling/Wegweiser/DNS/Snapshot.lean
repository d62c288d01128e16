/-
Snapshots: every zone the server answers from, and the search for a question in them.
-/
import Wegweiser.DNS.Tree

namespace Wegweiser

namespace DNS

variable {R : Type}

/-- `Snapshot`; its zones are told apart by their names. -/
structure Snapshot (R : Type) where
  zones : List (ZoneTree R)
  records : Nat
  depth : Nat
deriving DecidableEq

namespace Snapshot

def blank : Snapshot R := ⟨[], 0, 0⟩

def zoneAt (s : Snapshot R) (name : Name) : Option (ZoneTree R) :=
  s.zones.find? fun t => t.name == name

/-- `Snapshot.add`, as a map is assigned to. -/
def add (s : Snapshot R) (t : ZoneTree R) : Snapshot R where
  zones := (s.zones.filter fun o => o.name != t.name) ++ [t]
  records := s.records + t.count
  depth := max s.depth t.name.labelCount

def clone (s : Snapshot R) (name : Name) (t : Option (ZoneTree R)) : Snapshot R :=
  ((s.zones.filter fun o => o.name != name) ++ t.toList).foldl add blank

def withoutZone (s : Snapshot R) (name : Name) : Snapshot R :=
  if (s.zoneAt name).isNone then s else s.clone name none

/-- `Snapshot.zoneFor`: a name deeper than every apex is cut back first. -/
def zoneFor (s : Snapshot R) (qname : Name) : Option (ZoneTree R) :=
  (qname.upwards.drop (qname.labelCount - s.depth)).findSome? s.zoneAt

end Snapshot

section Build

variable (lib : RRLibrary) (records : ZoneID → List Record)

/-- `Build`, one zone. -/
def buildOne (s : Snapshot lib.RR) (z : Zone) : Except Err (Snapshot lib.RR) :=
  if z.disabled then .ok s
  else do
    let t ← buildZone lib z (records z.id)
    pure (s.add t)

def build (zones : List Zone) : Except Err (Snapshot lib.RR) :=
  zones.foldlM (buildOne lib records) Snapshot.blank

def withZone (s : Snapshot lib.RR) (z : Zone) : Except Err (Snapshot lib.RR) :=
  if z.disabled then .ok (s.withoutZone z.name)
  else do
    let t ← buildZone lib z (records z.id)
    pure (s.clone z.name (some t))

end Build

structure Question where
  name : Name
  cls : Class
  typ : RRType
deriving DecidableEq

/-- The response codes the search gives. -/
inductive Rcode where
  | success
  | serverFailure
  | nameError
  | notImplemented
  | refused
deriving DecidableEq

/-- The extended error codes the search gives. -/
inductive ErrorCode where
  | other
  | notAuthoritative
  | notSupported
deriving DecidableEq

structure Answer (R : Type) where
  rcode : Rcode
  authoritative : Bool
  answer : List R
  authority : List R
  additional : List R
  extended : Option (ErrorCode × String)
deriving DecidableEq

def Answer.reset : Answer R := ⟨.success, false, [], [], [], none⟩

def maxCNAMEChain : Nat := 8

def maxAdditional : Nat := 16

def RRset.under (lib : RRLibrary) (set : RRset lib.RR) (stored owner : Name) : List lib.RR :=
  if stored = owner then set.rrs else set.rrs.map (lib.renamed owner.string)

def Answer.appendAnswer (lib : RRLibrary) (a : Answer lib.RR) (set : RRset lib.RR)
    (stored owner : Name) : Answer lib.RR :=
  { a with answer := a.answer ++ set.under lib stored owner }

def anyRRset (n : Node R) (c : Class) : Option (RRset R) :=
  let sets := n.sets.filter fun set => set.cls == c
  match sets.find? fun set => set.typ == typeCNAME with
  | some set => some set
  | none =>
    sets.foldl (fun best set =>
      match best with
      | none => some set
      | some b => if set.typ < b.typ then some set else some b) none

namespace ZoneTree

variable (t : ZoneTree R)

/-- `zoneTree.addAddresses`, from a target and a type on: it stops at the first set that does
not fit whole. -/
def addAddressesFrom (cls : Class) (glueFor : Option Name) :
    List (Name × RRType) → List R → List R
  | [], done => done
  | (target, typ) :: rest, done =>
    match t.nodeAt target with
    | none => addAddressesFrom cls glueFor rest done
    | some n =>
      if n.delegation.isSome && n.delegation != glueFor then
        addAddressesFrom cls glueFor rest done
      else
        match n.find cls typ with
        | none => addAddressesFrom cls glueFor rest done
        | some addrs =>
          if maxAdditional < done.length + addrs.rrs.length then done
          else addAddressesFrom cls glueFor rest (done ++ addrs.rrs)

def addAddresses (set : RRset R) (glueFor : Option Name) (a : Answer R) : Answer R :=
  if set.typ = typeNS ∨ set.typ = typeMX ∨ set.typ = typeSRV then
    let wanted := set.targets.flatMap fun target => [(target, typeA), (target, typeAAAA)]
    { a with additional := t.addAddressesFrom set.cls glueFor wanted a.additional }
  else a

def nodata (a : Answer R) : Answer R :=
  { a with rcode := .success, authority := a.authority ++ [t.negSOA] }

def nxdomain (a : Answer R) : Answer R :=
  { a with rcode := .nameError, authority := a.authority ++ [t.negSOA] }

def referral (d : Name) (q : Question) (a : Answer R) : Answer R :=
  let a := { a with rcode := .success }
  match (t.nodeAt d).bind fun n => n.find q.cls typeNS with
  | none => a
  | some set => t.addAddresses set (some d) { a with authority := a.authority ++ set.rrs }

end ZoneTree

/-- `zoneTree.answerAt`: the answer, and the target where a CNAME is to be followed. -/
def ZoneTree.answerAt (lib : RRLibrary) (t : ZoneTree lib.RR) (n : Node lib.RR) (owner : Name)
    (q : Question) (a : Answer lib.RR) : Answer lib.RR × Option Name :=
  if q.typ = typeANY then
    match anyRRset n q.cls with
    | none => (t.nodata a, none)
    | some set => (t.addAddresses set none (a.appendAnswer lib set n.name owner), none)
  else
    match n.find q.cls q.typ with
    | some set => (t.addAddresses set none (a.appendAnswer lib set n.name owner), none)
    | none =>
      match n.find q.cls typeCNAME with
      | some set => (a.appendAnswer lib set n.name owner, set.targets.head?)
      | none => (t.nodata a, none)

/-- One round of the loop of `Resolve`: the answer, and where it goes on. -/
def ZoneTree.round (lib : RRLibrary) (t : ZoneTree lib.RR) (chased : Bool) (name : Name)
    (q : Question) (a : Answer lib.RR) : Answer lib.RR × Option Name :=
  let l := t.lookup name
  match l.delegation with
  | some d => (t.referral d q { a with authoritative := chased }, none)
  | none =>
    match l.node with
    | some n => t.answerAt lib n name q a
    | none =>
      match l.closest.bind Node.wild |>.bind t.nodeAt with
      | none => (t.nxdomain a, none)
      | some n => t.answerAt lib n name q a

/-- The loop of `Resolve`, with how many more CNAMEs may be followed. -/
def Snapshot.follow (lib : RRLibrary) (s : Snapshot lib.RR) (q : Question) :
    Nat → ZoneTree lib.RR → Name → Answer lib.RR → Answer lib.RR
  | left, t, name, a =>
    match t.round lib (left != maxCNAMEChain) name q a with
    | (a, none) => a
    | (a, some target) =>
      match left with
      | 0 =>
        { Answer.reset with
          rcode := .serverFailure
          extended := some (.other,
            "the CNAME chain at this name is longer than this server follows") }
      | left + 1 =>
        match s.zoneFor target with
        | none => a
        | some t => follow lib s q left t target a

def Snapshot.resolve (lib : RRLibrary) (s : Snapshot lib.RR) (q : Question) : Answer lib.RR :=
  if isMeta q.typ || (isQueryOnly q.typ && q.typ != typeANY) then
    { Answer.reset with
      rcode := .notImplemented
      extended := some (.notSupported, "this server answers questions about zone data only") }
  else
    match s.zoneFor q.name with
    | none =>
      { Answer.reset with
        rcode := .refused
        extended := some (.notAuthoritative, "no zone on this server covers that name") }
    | some t => s.follow lib q maxCNAMEChain t q.name { Answer.reset with authoritative := true }

end DNS

end Wegweiser
