/-
Zones, records and commits listed page by page.

A listing takes a filter and a cursor, turns both into the conditions of one query, and fetches
one row more than the page holds.
-/
import Mathlib.Data.Int.Order.Basic
import Mathlib.Data.Prod.Lex
import Wegweiser.Apply.Wire
import Wegweiser.Json.Stream
import Wegweiser.Lib.Paging
import Wegweiser.Store.Cursor
import Wegweiser.Store.Listing
import Wegweiser.Store.Network

namespace Wegweiser

open Checked (ensure)
open Json Pages Rows List

/-- `store.Cursor`; the empty one is the start of a listing. -/
abbrev Cursor := Octets

/-- `cursor`: the ordering key of the last row of a page, in the listing it came from. -/
structure CursorKey where
  kind : String
  /-- Nil for the listings that are not ordered by name. -/
  sort : Option Octets
  type : RRType
  millis : Int
  id : Ident
deriving DecidableEq

namespace CursorKey

def cursorZones : String := "z"
def cursorRecords : String := "r"
def cursorCommits : String := "c"

/-- The start of a listing: `cursor{}`. -/
def zero : CursorKey := ⟨"", none, 0, 0, .empty⟩

/-- `[]byte` with `omitempty`: what is empty is left out, and what is left out is nil. -/
def sortField : Json.Field (Option Octets) where
  put s := if (s.getD []).isEmpty then some none else (Format.bytes.write (s.getD [])).map some
  get := Json.Field.orZero none fun text => (Format.bytes.read text).map some

/-- An `RRType` in a cursor. -/
def typeNumber : Format RRType := (Format.uint 16).via UInt16.toNat fun n => some (UInt16.ofNat n)

/-- The fields of a cursor under their names in JSON. -/
def fields (sp : Spelling) : Fields (String × Option Octets × RRType × Int × Ident × Unit) :=
  .cons "k" (.always .text "") <| .cons "s" sortField <| .cons "t" (.omitting typeNumber 0) <|
    .cons "m" (.omitting (.int 64) 0) <| .cons "i" (.always (Wire.ident sp) .empty) .nil

/-- A cursor as JSON; a field nobody knows is refused. -/
def format (sp : Spelling) : Format CursorKey :=
  .strict (fields sp) (fun c => (c.kind, c.sort, c.type, c.millis, c.id, ()))
    fun (kind, sort, type, millis, id, ()) => ⟨kind, sort, type, millis, id⟩

/-- `cursor.encode`; the JSON of a cursor is never refused. -/
def encode (c : CursorKey) (sp : Spelling) : Cursor := ((format sp).write c).elim [] Base64.encodeURL

/-- The error of `invalidCursor`. -/
def invalidCursor : Err :=
  .failed ("is not a cursor from this listing; pass back the cursor the previous page " ++
    "returned, or none at all to start over")

/-- `decodeCursor`: a cursor from another listing is refused. -/
def decodeCursor (sp : Spelling) (c : Cursor) (kind : String) : Except Err CursorKey :=
  if c.isEmpty then .ok zero
  else
    match (Base64.decodeURL c).map (Json.decode (format sp)) with
    | some (.value out _) =>
      if out.kind ≠ kind ∨ out.id = .empty then .error invalidCursor else .ok out
    | _ => .error invalidCursor

end CursorKey

/-- `store.Paging` -/
structure Paging where
  cursor : Cursor
  limit : Int

def defaultLimit : Nat := 100
def maxLimit : Nat := 1000

/-- `Paging.EffectiveLimit` -/
def Paging.effectiveLimit (p : Paging) : Nat :=
  if p.limit ≤ 0 then defaultLimit else min p.limit.toNat maxLimit

/-- `store.ZoneFilter` -/
structure ZoneFilter extends Paging where
  kind : Option Kind
  name : Option Name
  search : Octets
  disabled : Option Bool

/-- `store.RecordFilter` -/
structure RecordFilter extends Paging where
  zoneID : ZoneID
  name : Option Name
  under : Option Name
  types : List RRType
  netPrefix : Option Prefix
  search : Octets
  managed : Option Bool

/-- `CommitFilter`; times are nanoseconds from the zero time on, which is no constraint. -/
structure CommitFilter extends Paging where
  zoneID : ZoneID
  kinds : List CommitKind
  sources : List Source
  actor : String
  since : Int
  until_ : Int
  name : Option Name

/-- What the queries rely on beside the schema. -/
structure Driver where
  /-- `strings.ToLower` -/
  toLower : Octets → Octets
  /-- Whether a `[]byte` that is nil is bound as NULL, and as an empty blob where not. -/
  nilIsNull : Bool

/-- What a `[]byte` is bound as. -/
def Driver.blob (d : Driver) : Option Octets → Option Octets
  | some b => some b
  | none => if d.nilIsNull then none else some []

/-- `instr`: where a text begins in another, counted from one, and zero where it does not. -/
def instrFrom (needle : Octets) : Nat → Octets → Nat
  | i, [] => if needle.isEmpty then i else 0
  | i, c :: rest => if needle.isPrefixOf (c :: rest) then i else instrFrom needle (i + 1) rest

/-- `instr(lower(column), ?) > 0`; `lower` folds the letters of US-ASCII. -/
def foundIn (needle column : Octets) : Bool :=
  decide (0 < instrFrom needle 1 (column.map lowerASCII))

/-- A `WHERE` clause: its conditions, all of which hold. -/
abbrev Where (α : Type) := List (α → Bool)

/-- A condition that stands only where the filter asks for it. -/
def given {α : Type} (b : Bool) (cond : α → Bool) : Where α := if b then [cond] else []

/-- A condition on what the filter names, where it names something. -/
def givenSome {α β : Type} (o : Option β) (cond : β → α → Bool) : Where α := o.toList.map cond

/-- `SELECT … WHERE … ORDER BY … LIMIT` -/
def select {α κ : Type} [LinearOrder κ] (rows : List α) (w : Where α) (key : α → κ) (n : Nat) :
    List α :=
  (sortOn key (rows.filter fun r => w.all (· r))).take n

/-- `ORDER BY sort_key, rrtype, id` -/
def Record.order (r : Record) : List (List Nat) := [r.name.sortKey, [r.type.toNat], r.id.sortKey]

/-- `ORDER BY rrtype, id` -/
def Record.orderAtName (r : Record) : List (List Nat) := [[r.type.toNat], r.id.sortKey]

/-- `Time.UnixMilli`, of a time in nanoseconds. -/
def unixMilli (t : Int) : Int := t / 1000000 - 62135596800000

/-- `ORDER BY created_at DESC, id DESC` -/
def Commit.order (c : Commit) : (ℤ ×ₗ List Nat)ᵒᵈ :=
  OrderDual.toDual (toLex (unixMilli c.createdAt, c.id.sortKey))

namespace RecordFilter

/-- The conditions of `recordConditions` behind the name and the branch. -/
def restConditions (d : Driver) (f : RecordFilter) : Where Record :=
  flatten [
    given (!f.types.isEmpty) fun r => f.types.contains r.type,
    givenSome f.netPrefix fun p r =>
      addrBetween (prefixBounds p) (r.address.map fun a => a.column.octets),
    given (!f.search.isEmpty) fun r =>
      foundIn (d.toLower f.search) r.name.string || foundIn (d.toLower f.search) r.rdata.text,
    givenSome f.managed fun managed r =>
      if managed then r.managedBy != .empty else r.managedBy == .empty]

/-- The rows behind a cursor, compared the way they are ordered. -/
def afterCursor (d : Driver) (f : RecordFilter) (after : CursorKey) : Where Record :=
  if after.id = .empty then []
  else if f.name.isNone then
    [fun r =>
      match d.blob after.sort with
      | none => false
      | some sort =>
        decide ([sort.map UInt8.toNat, [after.type.toNat], after.id.sortKey] < r.order)]
  else [fun r => decide ([[after.type.toNat], after.id.sortKey] < r.orderAtName)]

/-- The conditions of `recordConditions` before the branch. -/
def firstConditions (d : Driver) (f : RecordFilter) (after : CursorKey) : Where Record :=
  flatten [
    f.afterCursor d after,
    given (f.zoneID != .empty) fun r => r.zoneID == f.zoneID,
    givenSome f.name fun n r => r.name.string == n.string]

/-- `recordConditions` -/
def conditions (d : Driver) (f : RecordFilter) (after : CursorKey) : Where Record :=
  let w := f.firstConditions d after
  match f.under with
  | none => w ++ f.restConditions d
  | some under =>
    let low := under.sortKeyOctets
    match upperBound low with
    | none => w
    | some high =>
      w ++ [fun r => compareOctets low r.name.sortKeyOctets != .gt &&
        compareOctets r.name.sortKeyOctets high == .lt] ++ f.restConditions d

end RecordFilter

/-- The cursor behind a record. -/
def Record.cursorKey (r : Record) : CursorKey :=
  ⟨CursorKey.cursorRecords, some r.name.sortKeyOctets, r.type, 0, r.id⟩

/-- `ListRecords`; a page is cut from one row more than its limit. -/
def SQLite.listRecords (sp : Spelling) (d : Driver) (s : Store) (f : RecordFilter) :
    Except Err (Page Cursor Record) := do
  let after ← CursorKey.decodeCursor sp f.cursor CursorKey.cursorRecords
  let w := f.conditions d after
  let limit := f.effectiveLimit
  let rows :=
    if f.name.isNone then select s.records w Record.order (limit + 1)
    else select s.records w Record.orderAtName (limit + 1)
  pure (cutPage [] (fun last => last.cursorKey.encode sp) limit rows)

/-- The conditions of `ListZones`. -/
def ZoneFilter.conditions (d : Driver) (f : ZoneFilter) (after : CursorKey) : Where Zone :=
  flatten [
    given (after.id != .empty) fun z =>
      match d.blob after.sort with
      | none => false
      | some sort => decide ([sort.map UInt8.toNat, after.id.sortKey] < z.listKey),
    givenSome f.kind fun kind z => z.kind == kind,
    givenSome f.name fun n z => z.name.string == n.string,
    given (!f.search.isEmpty) fun z => foundIn (d.toLower f.search) z.name.string,
    givenSome f.disabled fun disabled z => z.disabled == disabled]

/-- The cursor behind a zone. -/
def Zone.cursorKey (z : Zone) : CursorKey :=
  ⟨CursorKey.cursorZones, some z.name.sortKeyOctets, 0, 0, z.id⟩

/-- `ListZones` -/
def SQLite.listZones (sp : Spelling) (d : Driver) (s : Store) (f : ZoneFilter) :
    Except Err (Page Cursor Zone) := do
  let after ← CursorKey.decodeCursor sp f.cursor CursorKey.cursorZones
  let limit := f.effectiveLimit
  let rows := select s.zones (f.conditions d after) Zone.listKey (limit + 1)
  pure (cutPage [] (fun last => last.cursorKey.encode sp) limit rows)

/-- The table the names of a commit's events are searched in. -/
def Store.eventNames (s : Store) : List (CommitID × Name) :=
  s.commits.flatMap fun c => c.events.map fun e => (c.id, e.name)

/-- The conditions of `ListCommits`. -/
def CommitFilter.conditions (s : Store) (f : CommitFilter) (after : CursorKey) : Where Commit :=
  flatten [
    given (after.id != .empty) fun c => decide
      (toLex (unixMilli c.createdAt, c.id.sortKey) < toLex (after.millis, after.id.sortKey)),
    given (f.zoneID != .empty) fun c => c.zoneID == f.zoneID,
    given (!f.kinds.isEmpty) fun c => f.kinds.contains c.kind,
    given (!f.sources.isEmpty) fun c => f.sources.contains c.source,
    given (f.actor != "") fun c => c.actor == f.actor,
    given (f.since != 0) fun c => decide (unixMilli f.since ≤ unixMilli c.createdAt),
    given (f.until_ != 0) fun c => decide (unixMilli c.createdAt < unixMilli f.until_),
    givenSome f.name fun n c => s.eventNames.any fun e => e.1 == c.id && e.2.string == n.string]

/-- A time as the column holds it, in milliseconds. -/
def Commit.storedAt (c : Commit) : Nat := c.createdAt / 1000000 * 1000000

/-- `scanCommit`: a commit without its events. -/
def Commit.metadata (c : Commit) : Commit := { c with events := [], createdAt := c.storedAt }

/-- The cursor behind a commit. -/
def Commit.cursorKey (c : Commit) : CursorKey :=
  ⟨CursorKey.cursorCommits, none, 0, unixMilli c.createdAt, c.id⟩

/-- `ListCommits`, the youngest first. -/
def SQLite.listCommits (sp : Spelling) (s : Store) (f : CommitFilter) :
    Except Err (Page Cursor Commit) := do
  let after ← CursorKey.decodeCursor sp f.cursor CursorKey.cursorCommits
  let limit := f.effectiveLimit
  let rows := (select s.commits (f.conditions s after) Commit.order (limit + 1)).map Commit.metadata
  pure (cutPage [] (fun last => last.cursorKey.encode sp) limit rows)

end Wegweiser
