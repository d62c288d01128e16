/-
What the operations of a command leave of a zone without the automation: each of them is
resolved against the store as it was before the first, and what they all ask for is written
at once.
-/
import Mathlib.Data.Finset.Dedup
import Wegweiser.Apply.Provenance
import Wegweiser.Apply.Replay

namespace Wegweiser

open Checked List Store RecordOp

/-- What of a record shows in its zone. -/
structure Content where
  name : Name
  cls : Class
  type : RRType
  ttl : TTL
  rdata : RData
  comment : String
  disabled : Bool
deriving DecidableEq

def Record.content (r : Record) : Content :=
  ⟨r.name, r.cls, r.type, r.ttl, r.rdata, r.comment, r.disabled⟩

variable {a b : Record}

theorem sameContent_iff : sameContent a b = true ↔ a.content = b.content := by
  simp [sameContent, Record.content, and_assoc]

def Store.contents (s : Store) (zid : ZoneID) : Finset Content :=
  ((s.records.filter fun r => r.zoneID == zid).map Record.content).toFinset

theorem Store.mem_contents {s : Store} {zid : ZoneID} {c : Content} :
    c ∈ s.contents zid ↔ ∃ r ∈ s.records, r.zoneID = zid ∧ r.content = c := by
  simp [contents, and_assoc]

theorem Record.erase_ext (hid : a.id = b.id) (hzone : a.zoneID = b.zoneID)
    (hcontent : a.content = b.content) (hby : a.managedBy = b.managedBy)
    (hkind : a.managedKind = b.managedKind) : a.erase = b.erase := by
  cases a
  cases b
  simp only [content, Content.mk.injEq] at hcontent
  simp_all [erase]

namespace RecordOp

def goneBy (s : Store) (z : Zone) (ops : List RecordOp) : List RecordID :=
  (ops.flatMap (removes s z)).map Record.id

def rewrittenBy (s : Store) (z : Zone) (ops : List RecordOp) : List RecordUpdate :=
  ops.flatMap (rewrites s z)

def addedBy (s : Store) (z : Zone) (ops : List RecordOp) : List Record :=
  ops.flatMap (adds s z)

/-- The operation with its records filed in the zone and yet without an identifier, which is
what `normalize` works on. -/
def inZone (zid : ZoneID) : RecordOp → RecordOp
  | .add r => .add { r with id := .empty, zoneID := zid }
  | .update id r => .update id { r with id, zoneID := zid }
  | .replaceRRset key records =>
    .replaceRRset key (records.map fun r => { r with id := .empty, zoneID := zid })
  | op => op

end RecordOp

def Record.nameless (r : Record) : Record := { r with id := .empty }

namespace Env

variable (env : Env) (s : Store) (z : Zone) (zid : ZoneID)

theorem mintIDs_nameless (records : List Record) (n : Nat) :
    (env.mintIDs zid records n).1.map Record.nameless =
      records.map fun r => { r with id := .empty, zoneID := zid } := by
  induction records generalizing n with
  | nil => rfl
  | cons head tail ih =>
    obtain ⟨id, hid⟩ := mintID_fields env zid head n
    rw [mintIDs, map_cons, map_cons, ih, hid]
    rfl

theorem normalizeOp_asks (op : RecordOp) (n : Nat) :
    (env.normalizeOp zid op n).1.removes s z = (op.inZone zid).removes s z ∧
      (env.normalizeOp zid op n).1.rewrites s z = (op.inZone zid).rewrites s z ∧
      ((env.normalizeOp zid op n).1.adds s z).map Record.nameless = (op.inZone zid).adds s z ∧
      ((env.normalizeOp zid op n).1.Allowed s z ↔ (op.inZone zid).Allowed s z) := by
  cases op with
  | add r =>
    obtain ⟨id, hid⟩ := mintID_fields env zid r n
    have hop : (env.normalizeOp zid (.add r) n).1 = .add (env.mintID zid r n).1 := rfl
    rw [hop, hid]
    exact ⟨rfl, rfl, rfl, Iff.rfl⟩
  | replaceRRset key records =>
    have hop : (env.normalizeOp zid (.replaceRRset key records) n).1 =
        .replaceRRset key (env.mintIDs zid records n).1 := rfl
    rw [hop, inZone, ← mintIDs_nameless env zid records n]
    refine ⟨?_, ?_, ?_, Iff.rfl⟩
    · simp only [removes, any_map]
      rfl
    · simp only [rewrites, find?_map, Option.toList_map, flatMap_map]
      rfl
    · simp only [adds, filter_map]
      rfl
  | update id r | delete id | makeCanonical id | detach id => exact ⟨rfl, rfl, rfl, Iff.rfl⟩

theorem normalize_asks (ops : List RecordOp) (n : Nat) :
    goneBy s z (env.normalize zid ops n).1 = goneBy s z (ops.map (inZone zid)) ∧
      rewrittenBy s z (env.normalize zid ops n).1 =
        rewrittenBy s z (ops.map (inZone zid)) ∧
      (addedBy s z (env.normalize zid ops n).1).map Record.nameless =
        addedBy s z (ops.map (inZone zid)) ∧
      ((∀ op ∈ (env.normalize zid ops n).1, op.Allowed s z) →
        ∀ op ∈ ops.map (inZone zid), op.Allowed s z) := by
  induction ops generalizing n with
  | nil => exact ⟨rfl, rfl, rfl, id⟩
  | cons head tail ih =>
    obtain ⟨hremoves, hrewrites, hadds, hallowed⟩ :=
      normalizeOp_asks env s z zid head n
    obtain ⟨hgone, hrewritten, hadded, hall⟩ := ih (env.normalizeOp zid head n).2
    simp only [goneBy, rewrittenBy, addedBy] at *
    rw [normalize]
    simp only [map_cons, flatMap_cons, map_append, hremoves, hgone, hrewrites,
      hrewritten, hadds, hadded, forall_mem_cons, true_and]
    exact fun h => ⟨hallowed.mp h.1, hall h.2⟩

end Env

def leftAs (updates : List RecordUpdate) (o : Record) : Record :=
  (rewrittenRow 0 updates o).erase

theorem erase_rewrittenRow (now : Nat) (updates : List RecordUpdate) (o : Record) :
    (rewrittenRow now updates o).erase = rewrittenRow 0 updates o.erase := by
  induction updates generalizing o with
  | nil => rfl
  | cons head tail ih =>
    have hhead : (updatedRow now head.after o).erase =
        updatedRow 0 head.after o.erase := by
      by_cases hid : o.id = head.after.id
      · simp [updatedRow, Record.erase, hid]
      · simp [updatedRow, Record.erase, hid]
    change (rewrittenRow now tail (updatedRow now head.after o)).erase = _
    rw [ih, hhead]
    rfl

theorem leftAs_append {first second : List RecordUpdate} {o r : Record}
    (hr : r.erase = leftAs first o) : leftAs (first ++ second) o = leftAs second r := by
  rw [leftAs, erase_rewrittenRow] at hr
  rw [leftAs, erase_rewrittenRow, leftAs, erase_rewrittenRow, hr]
  exact foldl_append

namespace RecordOp

/-- The row is the one an operation has added for `i`. -/
structure Added (s : Store) (z : Zone) (ops : List RecordOp) (i r : Record) : Prop where
  zone : r.zoneID = z.id
  content : r.content = i.content
  authored : r.managedBy = .empty
  new : ∀ o ∈ s.without (goneBy s z ops), o.id ≠ r.id

/-- What some operations, each resolved against the store, leave of it. -/
structure Leaves (s : Store) (z : Zone) (ops : List RecordOp) (t : Store) : Prop where
  kept : ∀ o ∈ s.without (goneBy s z ops),
    ∃ r ∈ t.records, r.erase = leftAs (rewrittenBy s z ops) o
  added : ∀ i ∈ addedBy s z ops, ∃ r ∈ t.records, Added s z ops i r
  rows : ∀ r ∈ t.records,
    (∃ o ∈ s.without (goneBy s z ops), r.erase = leftAs (rewrittenBy s z ops) o) ∨
      ∃ i ∈ addedBy s z ops, Added s z ops i r

/-- What is known of operations that were accepted together. -/
structure Together (s : Store) (z : Zone) (ops : List RecordOp) : Prop where
  allowed : ∀ op ∈ ops, op.Allowed s z
  distinct : (goneBy s z ops).Nodup
  updates : ∀ u ∈ rewrittenBy s z ops, ∃ o ∈ s.without (goneBy s z ops), o.id = u.after.id

end RecordOp

theorem Record.erase_content (h : a.erase = b.erase) : a.content = b.content :=
  (congrArg Record.content h :)

namespace Env

variable {env : Env} {s t : Store} {z : Zone}

theorem leaves_of_command (h : s.Sound) {cmd : Command} {res : Result}
    (hz : s.zoneByID cmd.zoneID = .ok z) (hoff : env.autoReverse z = false)
    (hauthored : ∀ op ∈ cmd.ops, op.Authored) (hok : env.perform s (.command cmd) = .ok (t, res)) :
    Together s z (cmd.ops.map (inZone z.id)) ∧
      Leaves s z (cmd.ops.map (inZone z.id)) t ∧
      t.zones.map Zone.fixed = s.zones.map Zone.fixed := by
  have hid : cmd.zoneID = z.id := (h.zoneByID_eq_ok.mp hz).2.symm
  simp only [perform, bind_eq_ok, pure_eq_ok, Prod.exists, Prod.mk.injEq] at hok
  obtain ⟨b, _, hplan, u, happly, rfl, rfl⟩ := hok
  obtain ⟨-, z', ch, w, hz', -, hresolve, hexpand, hcommit⟩ := planCommand_eq_ok.mp hplan
  rw [hz] at hz'
  cases hz'
  rw [expandReverse_off hoff hexpand] at hcommit
  obtain ⟨hallowed, hasks⟩ := resolves_ask hresolve
  rw [hid] at hallowed hasks
  obtain ⟨hgone, hrewritten, hadded, hall⟩ := normalize_asks env s z z.id cmd.ops 0
  -- The change set has the one entry of this zone.
  have hleaves {cs : ChangeSet} (hentries : cs.entries = [⟨z, ch⟩])
      (hrw : cs.Rewrites env.now s u) :
      Together s z (cmd.ops.map (inZone z.id)) ∧
        Leaves s z (cmd.ops.map (inZone z.id)) u := by
    have hg : cs.gone = goneBy s z (cmd.ops.map (inZone z.id)) := by
      rw [← hgone]
      simp [ChangeSet.gone, ChangeSet.deletes, ChangeSet.gather, hentries, hasks.deletes,
        Changes.blank, goneBy]
    have hu : cs.updates = rewrittenBy s z (cmd.ops.map (inZone z.id)) := by
      rw [← hrewritten]
      simp [ChangeSet.updates, hentries, hasks.updates, Changes.blank, rewrittenBy]
    have hi : cs.inserts = addedBy s z (env.normalize z.id cmd.ops 0).1 := by
      simp [ChangeSet.inserts, ChangeSet.gather, hentries, hasks.inserts, Changes.blank,
        addedBy]
    have hrow (i : Record) (hmem : i ∈ cs.inserts) :
        Added s z (cmd.ops.map (inZone z.id)) i.nameless
          (insertedRow env.now i) := by
      rw [hi] at hmem
      obtain ⟨op, hop, hmem'⟩ := mem_flatMap.mp hmem
      obtain ⟨op', hop', m, rfl⟩ := mem_normalize hop
      obtain ⟨hzone, hmanaged⟩ := adds_fromStore (normalizeOp_filed op' m) hmem'
      have hnone : i.managedBy = .empty := by
        simpa [Record.isManaged] using hmanaged (normalizeOp_authored (hauthored op' hop') m)
      refine ⟨hzone, rfl, hnone, ?_⟩
      rw [← hg]
      exact hrw.fresh i (by rw [hi]; exact hmem)
    refine ⟨⟨hall hallowed, by rw [← hg]; exact hrw.distinct, ?_⟩, ⟨?_, ?_, ?_⟩⟩
    · rw [← hg, ← hu]
      exact fun u hu => (hrw.updates u hu).2
    · rw [← hg, ← hu]
      intro o ho
      refine ⟨_, (hrw.rows _).mpr (.inl ⟨o, ho, rfl⟩), ?_⟩
      rw [erase_rewrittenRow, leftAs, erase_rewrittenRow]
    · rw [← hadded]
      intro i' hi'
      obtain ⟨i, hmem, rfl⟩ := mem_map.mp hi'
      rw [← hi] at hmem
      exact ⟨_, (hrw.rows _).mpr (.inr ⟨i, hmem, rfl⟩), hrow i hmem⟩
    · intro r hr
      rcases (hrw.rows r).mp hr with ⟨o, ho, rfl⟩ | ⟨i, hmem, rfl⟩
      · refine .inl ⟨o, by rw [← hg]; exact ho, ?_⟩
        rw [← hu, erase_rewrittenRow, leftAs, erase_rewrittenRow]
      · refine .inr ⟨i.nameless, ?_, hrow i hmem⟩
        rw [← hadded, ← hi]
        exact mem_map_of_mem hmem
  rcases commitUnlessEmpty_eq_ok.mp hcommit with
    ⟨hempty, hout⟩ | ⟨hempty, commits, minted, hrun, hplanned, hout⟩
  · cases hout
    cases happly
    obtain ⟨htogether, hleft⟩ := hleaves rfl (ChangeSet.Rewrites.of_empty hempty)
    exact ⟨htogether, hleft, rfl⟩
  · cases hout
    have hwrite := Batch.apply_of_planned hplanned (planCommits_ne_nil hempty hrun) happly
    obtain ⟨htogether, hleft⟩ :=
      hleaves rfl (Batch.write_rewrites (by simp [Batch.blank]) hwrite)
    exact ⟨htogether, hleft, Batch.write_fixed h rfl hwrite⟩

end Env

namespace RecordOp

def drops (z : Zone) (x : Record) : RecordOp → Prop
  | .delete id => x.id = id
  | .replaceRRset key wanted => x.zoneID = z.id ∧ x.key = key ∧ ∀ w ∈ wanted, w.rdata ≠ x.rdata
  | _ => False

def asks (z : Zone) (x : Record) : RecordOp → Option Record
  | .update id r => if x.id = id then some (edited r x) else none
  | .detach id => if x.id = id then some (detached x) else none
  | .replaceRRset key wanted =>
    if x.zoneID = z.id ∧ x.key = key then
      (wanted.find? fun r => r.rdata == x.rdata).map fun r => replaced r x
    else none
  | _ => none

variable {s t : Store} {z : Zone} {op : RecordOp} {x r a : Record}

theorem mem_named (h : s.Sound) {id : RecordID} : x ∈ named s id ↔ x ∈ s.records ∧ x.id = id := by
  rw [named, Option.mem_toList, ← recordByID_eq_ok, h.recordByID_eq_ok]

theorem mem_removes (h : s.Sound) : x ∈ op.removes s z ↔ x ∈ s.records ∧ op.drops z x := by
  cases op with
  | delete id => exact mem_named h
  | replaceRRset key wanted =>
    simp [removes, drops, mem_rrset, and_assoc]
  | add r | update id r | makeCanonical id | detach id => simp [removes, drops]

theorem asks_id (hfiled : op.Filed z.id) (ha : op.asks z x = some a) : a.id = x.id := by
  cases op with
  | update id r =>
    rw [asks, Option.ite_none_right_eq_some] at ha
    obtain ⟨rfl, ha⟩ := ha
    cases ha
    exact hfiled.1
  | detach id =>
    rw [asks, Option.ite_none_right_eq_some] at ha
    obtain ⟨-, ha⟩ := ha
    cases ha
    rfl
  | replaceRRset key wanted =>
    rw [asks, Option.ite_none_right_eq_some, Option.map_eq_some_iff] at ha
    obtain ⟨-, w, -, rfl⟩ := ha
    rfl
  | add r | delete id | makeCanonical id => cases ha

variable {u : RecordUpdate} {ops first second : List RecordOp}

theorem mem_rewrite_iff (before after : Record) (hid : before.id = after.id)
    (hzone : before.zoneID = after.zoneID) (hby : before.managedBy = after.managedBy)
    (hkind : before.managedKind = after.managedKind) :
    u ∈ rewrite before after ↔ before.erase ≠ after.erase ∧ u = ⟨before, after⟩ := by
  have hsame : sameContent before after = true ↔ before.erase = after.erase := by
    rw [sameContent_iff]
    exact ⟨fun hc => Record.erase_ext hid hzone hc hby hkind, Record.erase_content⟩
  rw [rewrite]
  split
  · next hc => simp [hsame.mp hc]
  · next hc =>
    rw [mem_singleton]
    exact (and_iff_right fun he => hc (hsame.mpr he)).symm

theorem erase_detached (hcheck : x.check = .ok ()) :
    x.erase = (detached x).erase ↔ x.isManaged = false := by
  constructor
  · intro he
    have hby : x.managedBy = .empty := (congrArg Record.managedBy he :)
    simp [Record.isManaged, hby]
  · intro hauthored
    have hkind := (Record.managedKind_of_check hcheck).mp hauthored
    have hby : x.managedBy = .empty := by simpa [Record.isManaged] using hauthored
    exact Record.erase_ext rfl rfl rfl hby hkind

theorem mem_rewrites (h : s.Sound) (hallowed : op.Allowed s z) (hfiled : op.Filed z.id) :
    u ∈ op.rewrites s z ↔
      ∃ x ∈ s.records, ∃ a, op.asks z x = some a ∧ x.erase ≠ a.erase ∧ u = ⟨x, a⟩ := by
  cases op with
  | update id r =>
    obtain ⟨⟨before, hbefore, howned⟩, -⟩ := hallowed
    obtain ⟨hmem, hid⟩ := h.recordByID_eq_ok.mp hbefore
    obtain ⟨hzone, -⟩ := checkOwnedAndAuthored_eq_ok.mp howned
    have hrw := mem_rewrite_iff (u := u) before (edited r before)
      (hid.trans hfiled.1.symm) (hzone.trans hfiled.2.symm) rfl rfl
    rw [rewrites, named_of_recordByID hbefore, flatMap_singleton, hrw]
    constructor
    · intro hu
      exact ⟨before, hmem, _, by rw [asks, if_pos hid], hu⟩
    · rintro ⟨x, hx, a, ha, hu⟩
      rw [asks, Option.ite_none_right_eq_some] at ha
      obtain ⟨hxid, ha⟩ := ha
      cases ha
      rw [← h.record_ext hx hmem (hxid.trans hid.symm)]
      exact hu
  | detach id =>
    simp only [rewrites, mem_map, mem_filter, mem_named h, asks,
      Option.ite_none_right_eq_some, Option.some.injEq]
    constructor
    · rintro ⟨x, ⟨⟨hx, hid⟩, hmanaged⟩, rfl⟩
      refine ⟨x, hx, _, ⟨hid, rfl⟩, fun he => ?_, rfl⟩
      rw [(erase_detached (h.records x hx)).mp he] at hmanaged
      cases hmanaged
    · rintro ⟨x, hx, a, ⟨hid, rfl⟩, hne, rfl⟩
      refine ⟨x, ⟨⟨hx, hid⟩, ?_⟩, rfl⟩
      by_contra hmanaged
      exact hne ((erase_detached (h.records x hx)).mpr (by simpa using hmanaged))
  | replaceRRset key wanted =>
    simp only [rewrites, mem_flatMap, Option.mem_toList, mem_rrset, asks,
      Option.ite_none_right_eq_some, Option.map_eq_some_iff]
    have hrw {x w : Record} (hzone : x.zoneID = z.id)
        (hw : wanted.find? (fun r => r.rdata == x.rdata) = some w) :
        u ∈ rewrite x (replaced w x) ↔ x.erase ≠ (replaced w x).erase ∧ u = ⟨x, replaced w x⟩ :=
      mem_rewrite_iff x (replaced w x) rfl (hzone.trans (hfiled w (mem_of_find?_eq_some hw)).symm) rfl rfl
    constructor
    · rintro ⟨x, ⟨hx, hzone, hkey⟩, w, hw, hu⟩
      obtain ⟨hne, rfl⟩ := (hrw hzone hw).mp hu
      exact ⟨x, hx, _, ⟨⟨hzone, hkey⟩, w, hw, rfl⟩, hne, rfl⟩
    · rintro ⟨x, hx, a, ⟨⟨hzone, hkey⟩, w, hw, rfl⟩, hu⟩
      exact ⟨x, ⟨hx, hzone, hkey⟩, w, hw, (hrw hzone hw).mpr hu⟩
  | add r | delete id | makeCanonical id => simp [rewrites, asks]

theorem leftAs_rewrites (h : s.Sound) (hallowed : op.Allowed s z) (hfiled : op.Filed z.id)
    (hx : x ∈ s.records) : leftAs (op.rewrites s z) x = ((op.asks z x).getD x).erase := by
  rcases @rewrittenRow_cases 0 (op.rewrites s z) x with
    ⟨hsame, hnone⟩ | ⟨u, hu, hid, created, hrow⟩
  · rw [leftAs, hsame]
    cases ha : op.asks z x with
    | none => rfl
    | some a =>
      by_contra hne
      exact hnone ⟨x, a⟩ ((mem_rewrites h hallowed hfiled).mpr ⟨x, hx, a, ha, hne, rfl⟩)
        (asks_id hfiled ha)
  · obtain ⟨o, ho, a, ha, -, rfl⟩ := (mem_rewrites h hallowed hfiled).mp hu
    rw [h.record_ext ho hx ((asks_id hfiled ha).symm.trans hid)] at ha
    rw [leftAs, hrow, ha]
    rfl

theorem mem_goneBy {k : RecordID} :
    k ∈ goneBy s z ops ↔ ∃ op ∈ ops, ∃ x ∈ op.removes s z, x.id = k := by
  simp only [goneBy, mem_map, mem_flatMap]
  constructor
  · intro hk
    obtain ⟨x, ⟨op, hop, hx⟩, hid⟩ := hk
    exact ⟨op, hop, x, hx, hid⟩
  · intro hk
    obtain ⟨op, hop, x, hx, hid⟩ := hk
    exact ⟨x, ⟨op, hop, hx⟩, hid⟩

theorem goneBy_append : goneBy s z (first ++ second) = goneBy s z first ++ goneBy s z second := by
  simp [goneBy]

theorem rewrittenBy_append :
    rewrittenBy s z (first ++ second) = rewrittenBy s z first ++ rewrittenBy s z second := by
  simp [rewrittenBy]

theorem addedBy_append :
    addedBy s z (first ++ second) = addedBy s z first ++ addedBy s z second := by
  simp [addedBy]

theorem removed_of_gone (h : s.Sound) (hx : x ∈ s.records)
    (hauthored : x.isManaged = false) (hgone : x ∉ s.without (goneBy s z ops)) :
    ∃ op ∈ ops, x ∈ op.removes s z := by
  have hbelow : Links.Below Record.id Record.source s.records (· ∈ goneBy s z ops) x.id := by
    by_contra hnot
    exact hgone (mem_without.mpr ⟨hx, hnot⟩)
  have hby : x.managedBy = .empty := by simpa [Record.isManaged] using hauthored
  rcases Links.below_row hbelow with hroot | ⟨o, ho, hid, k, hsource, -⟩
  · obtain ⟨op, hop, y, hy, hid⟩ := mem_goneBy.mp hroot
    rw [h.record_ext ((mem_removes h).mp hy).1 hx hid] at hy
    exact ⟨op, hop, hy⟩
  · rw [h.record_ext ho hx hid, Record.source, if_pos hby] at hsource
    cases hsource

theorem asks_authored (h : s.Sound) (hallowed : op.Allowed s z) (hop : ∀ id, op ≠ .detach id)
    (hx : x ∈ s.records) (ha : op.asks z x = some a) : x.isManaged = false := by
  cases op with
  | update id r =>
    obtain ⟨⟨before, hbefore, howned⟩, -⟩ := hallowed
    obtain ⟨hmem, hid⟩ := h.recordByID_eq_ok.mp hbefore
    rw [asks, Option.ite_none_right_eq_some] at ha
    rw [h.record_ext hx hmem (ha.1.trans hid.symm)]
    exact (checkOwnedAndAuthored_eq_ok.mp howned).2
  | replaceRRset key wanted =>
    rw [asks, Option.ite_none_right_eq_some] at ha
    exact (checkOwnedAndAuthored_eq_ok.mp
      (hallowed.2 x (mem_rrset.mpr ⟨hx, ha.1.1, ha.1.2⟩))).2
  | detach id => exact absurd rfl (hop id)
  | add r | delete id | makeCanonical id => cases ha

end RecordOp

end Wegweiser
