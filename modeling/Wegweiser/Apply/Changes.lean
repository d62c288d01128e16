/-
Pending changes: what one command queues for each zone it reaches, the order it
is written in, and the events it leaves in the journal.
-/
import Wegweiser.Store

namespace Wegweiser

open Checked (ensure)

/-- `Policy`: what to do when an address already reverses to another name. -/
inductive Policy where
  | firstWins
  | lastWins
  | multi
  | reject
deriving DecidableEq

structure RecordUpdate where
  before : Record
  after : Record
deriving DecidableEq

structure SOAChange where
  before : SOA
  after : SOA
deriving DecidableEq

/-- `changes`: the record-level work queued for one zone. -/
structure Changes where
  deletes : List Record
  updates : List RecordUpdate
  inserts : List Record
  /-- Records that generate their reverse entry without changing. -/
  claims : List Record
  touched : List Name
  soa : Option SOAChange
deriving DecidableEq

namespace Changes

def blank : Changes := ⟨[], [], [], [], [], none⟩

def touch (c : Changes) (n : Name) : Changes :=
  if c.touched.contains n then c else { c with touched := c.touched ++ [n] }

def remove (c : Changes) (r : Record) : Changes :=
  { c with deletes := c.deletes ++ [r] }.touch r.name

def update (c : Changes) (before after : Record) : Changes :=
  ({ c with updates := c.updates ++ [RecordUpdate.mk before after] }.touch before.name).touch after.name

def insert (c : Changes) (r : Record) : Changes :=
  { c with inserts := c.inserts ++ [r] }.touch r.name

def claim (c : Changes) (r : Record) : Changes :=
  { c with claims := c.claims ++ [r] }

def empty (c : Changes) : Bool :=
  c.soa.isNone && c.deletes.isEmpty && c.updates.isEmpty && c.inserts.isEmpty

def removing (c : Changes) (id : RecordID) : Bool :=
  c.deletes.any fun d => d.id == id

/-- `changes.arriving`: the records the change leaves in an RRset that were not
there before. -/
def arriving (c : Changes) (key : RRsetKey) : List Record :=
  (c.inserts.filter fun r => r.key == key) ++
    (c.updates.filter fun u => u.after.key == key).map RecordUpdate.after

def arrivingAt (c : Changes) (name : Name) : List Record :=
  (c.inserts.filter fun r => r.name == name) ++
    (c.updates.filter fun u => u.after.name == name).map RecordUpdate.after

end Changes

/-- `eventFor`, with the number the event gets. -/
def eventFor (op : EventOp) (r : Record) (seq : Nat) : Event :=
  ⟨seq, op, r.name, r.cls, r.type, r.ttl, r.rdata⟩

def renumber (events : List Event) : List Event :=
  events.mapIdx fun i e => { e with seq := i }

/-- `changes.events`: every removal, then every addition. -/
def Changes.events (c : Changes) : List Event :=
  renumber <|
    c.deletes.map (eventFor .del · 0) ++
    c.updates.map (fun u => eventFor .del u.before 0) ++
    c.updates.map (fun u => eventFor .add u.after 0) ++
    c.inserts.map (eventFor .add · 0)

/-- The work queued for one zone, with the zone as it was when it was first
touched. -/
structure ZoneChanges where
  zone : Zone
  changes : Changes
deriving DecidableEq

/-- `changeSet`.  The maps `zones` and `byZone` and the list `order` of the source
have the same keys, so they are one list of entries in the order of first touch. -/
structure ChangeSet where
  entries : List ZoneChanges
  /-- Overrides the server's policy for this command. -/
  policy : Option Policy
deriving DecidableEq

namespace ChangeSet

def blank : ChangeSet := ⟨[], none⟩

/-- The entry of a zone, `byZone[zid]` and `zones[zid]` in one. -/
def entry (cs : ChangeSet) (zid : ZoneID) : Option ZoneChanges :=
  cs.entries.find? fun e => e.zone.id == zid

/-- `changeSet.pending`: the changes queued for a zone, none where there are none
yet. -/
def pending (cs : ChangeSet) (zid : ZoneID) : Changes :=
  ((cs.entry zid).map ZoneChanges.changes).getD Changes.blank

def modifyEntry (zid : ZoneID) (f : Changes → Changes) : List ZoneChanges → List ZoneChanges
  | [] => []
  | e :: rest =>
    if e.zone.id = zid then { e with changes := f e.changes } :: rest
    else e :: modifyEntry zid f rest

/-- `changeSet.in` followed by a change to what it returns. -/
def inZone (cs : ChangeSet) (z : Zone) (f : Changes → Changes) : ChangeSet :=
  match cs.entry z.id with
  | some _ => { cs with entries := modifyEntry z.id f cs.entries }
  | none => { cs with entries := cs.entries ++ [⟨z, f Changes.blank⟩] }

def empty (cs : ChangeSet) : Bool :=
  cs.entries.all fun e => e.changes.empty

def gather (cs : ChangeSet) (pick : Changes → List Record) : List Record :=
  cs.entries.flatMap fun e => pick e.changes

def deletes (cs : ChangeSet) : List Record := cs.gather Changes.deletes

def updates (cs : ChangeSet) : List RecordUpdate :=
  cs.entries.flatMap fun e => e.changes.updates

def inserts (cs : ChangeSet) : List Record := cs.gather Changes.inserts

end ChangeSet

/-- What a record waits for in `changeSet.ordered`, at the start. -/
def initialWaiting (dependentsFirst : Bool) (all : List Record) (id : RecordID) : Int :=
  (all.filter fun r =>
    r.managedBy != .empty && (all.any fun o => o.id == r.managedBy) &&
      if dependentsFirst then r.managedBy == id else r.id == id).length

/-- What writing `r` releases, among the records of the round. -/
def release (dependentsFirst : Bool) (round : List Record) (r : Record)
    (waiting : RecordID → Int) (id : RecordID) : Int :=
  if dependentsFirst then
    if r.managedBy != .empty && r.managedBy == id then waiting id - 1 else waiting id
  else waiting id - (round.filter fun o => o.managedBy == r.id && o.id == id).length

/-- One round of `changeSet.ordered`: the records written, those held back, and
what is still waited for. -/
def orderRound (dependentsFirst : Bool) (round : List Record) :
    List Record → (RecordID → Int) → List Record × List Record × (RecordID → Int)
  | [], waiting => ([], [], waiting)
  | r :: rest, waiting =>
    if 0 < waiting r.id then
      let (out, held, waiting) := orderRound dependentsFirst round rest waiting
      (out, r :: held, waiting)
    else
      let (out, held, waiting) :=
        orderRound dependentsFirst round rest (release dependentsFirst round r waiting)
      (r :: out, held, waiting)

/-- The rounds of `changeSet.ordered`.  Every round but the last writes a record,
so the number of records is fuel enough. -/
def orderRounds (dependentsFirst : Bool) :
    Nat → List Record → (RecordID → Int) → List Record
  | 0, all, _ => all
  | fuel + 1, all, waiting =>
    if all.isEmpty then []
    else
      let (out, held, waiting) := orderRound dependentsFirst all all waiting
      if held.length = all.length then out ++ held
      else out ++ orderRounds dependentsFirst fuel held waiting

/-- `changeSet.ordered`: removals bottom-up, additions top-down. -/
def ordered (dependentsFirst : Bool) (all : List Record) : List Record :=
  orderRounds dependentsFirst (all.length + 1) all (initialWaiting dependentsFirst all)

def ChangeSet.write (now : Nat) (cs : ChangeSet) (s : Store) : Except Err Store := do
  let s ← (ordered true cs.deletes).foldlM (fun s d => s.deleteRecord d.id) s
  let s ← cs.updates.foldlM (fun s u => s.updateRecord now u.after) s
  (ordered false cs.inserts).foldlM (fun s r => s.insertRecord now r) s

end Wegweiser
