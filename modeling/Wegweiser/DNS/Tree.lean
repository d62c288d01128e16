/-
Zones in the form the query path reads them.

A zone is a map from owner names to nodes, with a node for every name that carries records and for
every name in between.
-/
import Wegweiser.Zone.Zone

namespace Wegweiser

open Checked (ensure)

def typeMX : RRType := 15
def typeSRV : RRType := 33
def typeANY : RRType := 255

def Name.firstLabel (n : Name) : Option Octets := n.labels.head?

def SOA.negativeTTL (s : SOA) : TTL := if s.ttl < s.minimum then s.ttl else s.minimum

namespace DNS

/-- What the query path uses of the wire library. -/
structure RRLibrary where
  RR : Type
  /-- `TypeToString`, where it has a mnemonic. -/
  typeToString : RRType → Option Octets
  /-- `ClassToString`, where it has a mnemonic. -/
  classToString : Class → Option Octets
  /-- `NewRR`; nothing where the line is refused or holds no record. -/
  newRR : Octets → Option RR
  /-- The name in the data of a CNAME, an NS, an MX or an SRV record. -/
  target : RR → Option Octets
  /-- `Copy`, under another owner name. -/
  renamed : Octets → RR → RR

namespace RRLibrary

variable (lib : RRLibrary)

/-- `RRType.String` -/
def typeText (t : RRType) : Octets :=
  (lib.typeToString t).getD (ascii "TYPE" ++ decimal t.toNat)

/-- `Class.String` -/
def classText (c : Class) : Octets :=
  (lib.classToString c).getD (ascii "CLASS" ++ decimal c.toNat)

/-- `Record.String` -/
def recordText (r : Record) : Octets :=
  r.name.string ++ [9] ++ decimal r.ttl.toNat ++ [9] ++ lib.classText r.cls ++ [9] ++
    lib.typeText r.type ++ [9] ++ r.rdata.text

def recordRR (r : Record) : Except Err lib.RR :=
  match lib.newRR (lib.recordText r) with
  | some rr => .ok rr
  | none => .error (.failed "the record does not parse")

def soaRRFor (name : Name) (ttl : TTL) (soa : SOA) : Except Err lib.RR :=
  match lib.newRR (name.string ++ [9] ++ decimal ttl.toNat ++ ascii "\tIN\tSOA\t" ++ soa.rdata) with
  | some rr => .ok rr
  | none => .error (.failed "the start of authority does not parse")

def soaRR (z : Zone) (ttl : TTL) : Except Err lib.RR := lib.soaRRFor z.name ttl z.soa

def targetName (rr : lib.RR) : Except Err Name :=
  match lib.target rr with
  | some text => parseName text
  | none => .error (.invalid "the record carries no target name")

end RRLibrary

def pointsAtAName (t : RRType) : Bool :=
  t == typeCNAME || t == typeNS || t == typeMX || t == typeSRV

def RRLibrary.followed (lib : RRLibrary) (t : RRType) (rr : lib.RR) : Except Err (Option Name) :=
  if pointsAtAName t then (lib.targetName rr).map some else .ok none

structure RRset (R : Type) where
  cls : Class
  typ : RRType
  rrs : List R
  targets : List Name
deriving DecidableEq

structure Node (R : Type) where
  name : Name
  sets : List (RRset R)
  wild : Option Name
  delegation : Option Name
deriving DecidableEq

/-- `zoneTree`; its nodes are told apart by their names. -/
structure ZoneTree (R : Type) where
  name : Name
  soa : SOA
  negTTL : TTL
  negSOA : R
  nodes : List (Node R)
  depth : Nat
  count : Nat
deriving DecidableEq

variable {R : Type}

def RRset.of (set : RRset R) (c : Class) (t : RRType) : Bool := set.typ == t && set.cls == c

def Node.find (n : Node R) (c : Class) (t : RRType) : Option (RRset R) :=
  n.sets.find? fun set => set.of c t

/-- `node.add`, with the target the record points at where it does. -/
def addTo (c : Class) (t : RRType) (rr : R) (target : Option Name) : List (RRset R) → List (RRset R)
  | [] => [⟨c, t, [rr], target.toList⟩]
  | set :: rest =>
    if set.of c t then
      { set with rrs := set.rrs ++ [rr], targets := set.targets ++ target.toList } :: rest
    else set :: addTo c t rr target rest

namespace ZoneTree

variable (t : ZoneTree R)

def nodeAt (name : Name) : Option (Node R) := t.nodes.find? fun n => n.name == name

/-- `zoneTree.node` on a name and those above it: what is missing is made, up to the apex or
the first name that is there. -/
def makeNodes (t : ZoneTree R) : List Name → ZoneTree R
  | [] => t
  | name :: above =>
    if (t.nodeAt name).isSome then t
    else
      let t' := { t with
        nodes := t.nodes ++ [⟨name, [], none, none⟩]
        depth := max t.depth (name.labelCount - t.name.labelCount) }
      if name = t.name then t' else makeNodes t' above

def node (name : Name) : ZoneTree R := t.makeNodes name.upwards

def add (name : Name) (c : Class) (typ : RRType) (rr : R) (target : Option Name) : ZoneTree R :=
  { t with
    nodes := t.nodes.map fun n =>
      if n.name = name then { n with sets := addTo c typ rr target n.sets } else n
    count := t.count + 1 }

def delegate (name : Name) : ZoneTree R :=
  { t with
    nodes := t.nodes.map fun n => if n.name = name then { n with delegation := some name } else n }

/-- The walk of `link` from a name towards the apex, with the names above it: the first of
them that is delegated. -/
def delegationAbove (apex : Name) (delegations : List Name) (cur : Name) : List Name → Option Name
  | [] => none
  | parent :: above =>
    if cur = apex then none
    else if delegations.contains parent then some parent
    else delegationAbove apex delegations parent above

/-- The `*` child of a name, where the zone has it. -/
def wildOf (name : Name) : Option Name :=
  (t.nodes.find? fun n =>
    n.name.firstLabel == some (ascii "*") && n.name != t.name && n.name.parent == some name).map
      Node.name

def link (delegations : List Name) : ZoneTree R :=
  { t with
    nodes := t.nodes.map fun n =>
      { n with
        wild := t.wildOf n.name
        delegation :=
          match n.delegation with
          | some d => some d
          | none => delegationAbove t.name delegations n.name n.name.upwards.tail } }

end ZoneTree

/-- `buildZone`, one record: the tree and the delegations so far. -/
def buildRecord (lib : RRLibrary) (z : Zone) (state : ZoneTree lib.RR × List Name) (r : Record) :
    Except Err (ZoneTree lib.RR × List Name) :=
  if r.disabled then .ok state
  else if r.type = typeSOA then .ok state
  else do
    ensure (z.contains r.name) (.failed "the record lies outside the zone")
    let rr ← lib.recordRR r
    let target ← lib.followed r.type rr
    let t := (state.1.node r.name).add r.name r.cls r.type rr target
    if r.type = typeNS ∧ z.isApex r.name = false then
      pure (t.delegate r.name, r.name :: state.2)
    else pure (t, state.2)

/-- `buildZone`, given the records the source yields for the zone. -/
def buildZone (lib : RRLibrary) (z : Zone) (records : List Record) :
    Except Err (ZoneTree lib.RR) := do
  let soa ← lib.soaRR z z.soa.ttl
  let negSOA ← lib.soaRR z z.soa.negativeTTL
  let empty : ZoneTree lib.RR := ⟨z.name, z.soa, z.soa.negativeTTL, negSOA, [], 0, 0⟩
  let start := (empty.node z.name).add z.name classIN typeSOA soa none
  let (t, delegations) ← records.foldlM (buildRecord lib z) (start, [])
  pure (t.link delegations)

/-- `lookup`, the result. -/
structure Lookup (R : Type) where
  node : Option (Node R)
  closest : Option (Node R)
  delegation : Option Name

/-- `zoneTree.lookup`: a name deeper than the zone is cut back first, and then the first name
upwards that has a node ends the walk. -/
def ZoneTree.lookup (t : ZoneTree R) (qname : Name) : Lookup R :=
  let limit := t.name.labelCount + t.depth
  match (qname.upwards.drop (qname.labelCount - limit)).findSome? t.nodeAt with
  | none => ⟨none, none, none⟩
  | some n => ⟨if n.name = qname then some n else none, some n, n.delegation⟩

end DNS

end Wegweiser
