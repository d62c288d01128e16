/-
What is asked for in a zone, set against the store it is asked of: the rows that
go and the rows that change are rows of the zone that somebody wrote, and what
comes in was generated by nothing.
-/
import Mathlib.Data.List.Pairwise
import Wegweiser.Apply.Filed
import Wegweiser.Apply.Performed

namespace Wegweiser

open Checked List RecordOp

/-- Records come in as `NewRecord` makes them: nothing generated them. -/
def RecordOp.Authored : RecordOp → Prop
  | .add r => r.managedBy = .empty
  | .replaceRRset _ records => ∀ r ∈ records, r.managedBy = .empty
  | _ => True

instance : DecidablePred Authored
  | .add r => inferInstanceAs (Decidable (r.managedBy = .empty))
  | .replaceRRset _ records => inferInstanceAs (Decidable (∀ r ∈ records, r.managedBy = .empty))
  | .update _ _ | .delete _ | .makeCanonical _ | .detach _ => .isTrue trivial

def Operation.Authored : Operation → Prop
  | .command cmd => ∀ op ∈ cmd.ops, op.Authored
  | .createZone _ records _ => ∀ r ∈ records, r.managedBy = .empty
  | _ => True

instance : DecidablePred Operation.Authored
  | .command cmd => inferInstanceAs (Decidable (∀ op ∈ cmd.ops, op.Authored))
  | .createZone _ records _ => inferInstanceAs (Decidable (∀ r ∈ records, r.managedBy = .empty))
  | .updateZone .. | .deleteZone .. | .rollback .. | .reconcile .. | .settings .. | .createKey ..
  | .revokeKey .. | .createToken .. | .revokeToken .. => .isTrue trivial

def RecordOp.touches (s : Store) (zid : ZoneID) : RecordOp → List RecordID
  | .add _ => []
  | .update id _ | .delete id | .makeCanonical id | .detach id => [id]
  | .replaceRRset key _ => (s.rrset zid key).map Record.id

def Operation.Apart (s : Store) : Operation → Prop
  | .command cmd =>
    cmd.ops.Pairwise fun a b => ∀ k ∈ a.touches s cmd.zoneID, k ∉ b.touches s cmd.zoneID
  | _ => True

instance {s : Store} : DecidablePred (Operation.Apart s)
  | .command cmd => inferInstanceAs (Decidable (cmd.ops.Pairwise fun a b =>
    ∀ k ∈ a.touches s cmd.zoneID, k ∉ b.touches s cmd.zoneID))
  | .createZone .. | .updateZone .. | .deleteZone .. | .rollback .. | .reconcile .. | .settings ..
  | .createKey .. | .revokeKey .. | .createToken .. | .revokeToken .. => .isTrue trivial

/-- An operation after `normalize`: the records it carries are of the zone, and an
update carries the record it names. -/
def RecordOp.Filed (zid : ZoneID) : RecordOp → Prop
  | .add r => r.zoneID = zid
  | .update id r => r.id = id ∧ r.zoneID = zid
  | .replaceRRset _ records => ∀ r ∈ records, r.zoneID = zid
  | _ => True

namespace Env

variable {env : Env} {zid : ZoneID}

theorem mintID_fields (env : Env) (zid : ZoneID) (r : Record) (n : Nat) :
    ∃ id, (env.mintID zid r n).1 = { r with id, zoneID := zid } := by
  rw [mintID]
  split
  · exact ⟨_, rfl⟩
  · exact ⟨r.id, rfl⟩

theorem mem_mintIDs {records : List Record} {n : Nat} {x : Record}
    (hx : x ∈ (env.mintIDs zid records n).1) :
    ∃ r ∈ records, ∃ id, x = { r with id, zoneID := zid } := by
  induction records generalizing n with
  | nil => simp [mintIDs] at hx
  | cons head tail ih =>
    rw [mintIDs] at hx
    rcases mem_cons.mp hx with rfl | hx
    · exact ⟨head, mem_cons_self, mintID_fields env zid head n⟩
    · obtain ⟨r, hr, hid⟩ := ih hx
      exact ⟨r, mem_cons_of_mem _ hr, hid⟩

theorem normalizeOp_filed (op : RecordOp) (n : Nat) : (env.normalizeOp zid op n).1.Filed zid := by
  cases op with
  | add r =>
    obtain ⟨id, hid⟩ := mintID_fields env zid r n
    change (env.mintID zid r n).1.zoneID = zid
    rw [hid]
  | update id r => exact ⟨rfl, rfl⟩
  | replaceRRset key records =>
    intro x hx
    obtain ⟨r, -, id, rfl⟩ := mem_mintIDs hx
    rfl
  | delete id | makeCanonical id | detach id => exact trivial

theorem normalizeOp_authored {op : RecordOp} (hop : op.Authored) (n : Nat) :
    (env.normalizeOp zid op n).1.Authored := by
  cases op with
  | add r =>
    obtain ⟨id, hid⟩ := mintID_fields env zid r n
    change (env.mintID zid r n).1.managedBy = .empty
    rw [hid]
    exact hop
  | replaceRRset key records =>
    intro x hx
    obtain ⟨r, hr, id, rfl⟩ := mem_mintIDs hx
    exact hop r hr
  | update id r | delete id | makeCanonical id | detach id => exact trivial

theorem normalizeOp_touches {s : Store} (op : RecordOp) (n : Nat) :
    (env.normalizeOp zid op n).1.touches s zid = op.touches s zid := by
  cases op <;> rfl

theorem mem_normalize {ops : List RecordOp} {n : Nat} {x : RecordOp}
    (hx : x ∈ (env.normalize zid ops n).1) : ∃ op ∈ ops, ∃ m, x = (env.normalizeOp zid op m).1 := by
  induction ops generalizing n with
  | nil => simp [normalize] at hx
  | cons head tail ih =>
    rw [normalize] at hx
    rcases mem_cons.mp hx with rfl | hx
    · exact ⟨head, mem_cons_self, n, rfl⟩
    · obtain ⟨op, hop, m, rfl⟩ := ih hx
      exact ⟨op, mem_cons_of_mem _ hop, m, rfl⟩

theorem normalize_touches {s : Store} (ops : List RecordOp) (n : Nat) :
    (env.normalize zid ops n).1.map (touches s zid) = ops.map (touches s zid) := by
  induction ops generalizing n with
  | nil => rfl
  | cons head tail ih =>
    rw [normalize]
    simp only [map_cons, normalizeOp_touches, ih]

end Env

/-- Changes of a zone as somebody asks for them. -/
structure Changes.FromStore (s : Store) (z : Zone) (ch : Changes) : Prop where
  deletes : ∀ d ∈ ch.deletes, d ∈ s.records ∧ d.zoneID = z.id ∧ d.isManaged = false
  updates : ∀ u ∈ ch.updates, u.before ∈ s.records ∧ u.before.zoneID = z.id ∧
    u.after.id = u.before.id ∧ u.after.zoneID = z.id ∧
    (u.before.isManaged = false ∧ u.after.managedBy = u.before.managedBy ∧
        u.after.managedKind = u.before.managedKind ∨
      u.after = detached u.before)
  inserts : ∀ i ∈ ch.inserts, i.zoneID = z.id ∧ i.isManaged = false
  claims : ∀ r ∈ ch.claims, r ∈ s.records ∧ r.zoneID = z.id ∧ r.isManaged = false

/-- No two of the changes meet in one record. -/
structure Changes.Apart (ch : Changes) : Prop where
  updates : ∀ u ∈ Env.moved ch, ∀ v ∈ ch.updates, v.after.id = u.after.id → v = u
  claims : ∀ r ∈ ch.claims, (∀ d ∈ ch.deletes, d.id ≠ r.id) ∧ ∀ u ∈ ch.updates, u.after.id ≠ r.id

namespace RecordOp

variable {s : Store} {z : Zone} {op : RecordOp}

theorem removes_fromStore (h : s.Sound) (hallowed : op.Allowed s z) {d : Record}
    (hd : d ∈ op.removes s z) :
    d ∈ s.records ∧ d.zoneID = z.id ∧ d.isManaged = false ∧ d.id ∈ op.touches s z.id := by
  cases op with
  | delete id =>
    obtain ⟨before, hbefore, howned⟩ := hallowed
    rw [removes, named_of_recordByID hbefore, mem_singleton] at hd
    subst hd
    obtain ⟨hmem, hid⟩ := h.recordByID_eq_ok.mp hbefore
    obtain ⟨hzone, hauthored⟩ := checkOwnedAndAuthored_eq_ok.mp howned
    exact ⟨hmem, hzone, hauthored, by simp [touches, hid]⟩
  | replaceRRset key wanted =>
    have hd' := (mem_filter.mp hd).1
    obtain ⟨hzone, hauthored⟩ := checkOwnedAndAuthored_eq_ok.mp (hallowed.2 d hd')
    exact ⟨(Store.mem_rrset.mp hd').1, hzone, hauthored, mem_map_of_mem hd'⟩
  | add r | update id r | makeCanonical id | detach id => simp [removes] at hd

theorem mem_rewrite {before after : Record} {u : RecordUpdate} (hu : u ∈ rewrite before after) :
    u = ⟨before, after⟩ := by
  rw [rewrite] at hu
  split at hu
  · cases hu
  · exact mem_singleton.mp hu

theorem rewrites_fromStore (h : s.Sound) (hallowed : op.Allowed s z) (hfiled : op.Filed z.id)
    {u : RecordUpdate} (hu : u ∈ op.rewrites s z) :
    (u.before ∈ s.records ∧ u.before.zoneID = z.id ∧ u.after.id = u.before.id ∧
      u.after.zoneID = z.id ∧
      (u.before.isManaged = false ∧ u.after.managedBy = u.before.managedBy ∧
          u.after.managedKind = u.before.managedKind ∨
        u.after = detached u.before)) ∧
      u.before.id ∈ op.touches s z.id := by
  cases op with
  | update id r =>
    obtain ⟨⟨before, hbefore, howned⟩, -⟩ := hallowed
    rw [rewrites, named_of_recordByID hbefore, flatMap_singleton] at hu
    obtain rfl := mem_rewrite hu
    obtain ⟨hmem, hid⟩ := h.recordByID_eq_ok.mp hbefore
    obtain ⟨hzone, hauthored⟩ := checkOwnedAndAuthored_eq_ok.mp howned
    exact ⟨⟨hmem, hzone, hfiled.1.trans hid.symm, hfiled.2, .inl ⟨hauthored, rfl, rfl⟩⟩,
      by simp [touches, hid]⟩
  | detach id =>
    obtain ⟨before, hbefore, hzone⟩ := hallowed
    simp only [rewrites, named_of_recordByID hbefore, mem_map, mem_filter,
      mem_singleton] at hu
    obtain ⟨_, ⟨rfl, -⟩, rfl⟩ := hu
    obtain ⟨hmem, hid⟩ := h.recordByID_eq_ok.mp hbefore
    exact ⟨⟨hmem, hzone, rfl, hzone, .inr rfl⟩, by simp [touches, hid]⟩
  | replaceRRset key wanted =>
    simp only [rewrites, mem_flatMap, Option.mem_toList] at hu
    obtain ⟨before, hbefore, r, hr, hu⟩ := hu
    obtain rfl := mem_rewrite hu
    obtain ⟨hzone, hauthored⟩ := checkOwnedAndAuthored_eq_ok.mp (hallowed.2 before hbefore)
    exact ⟨⟨(Store.mem_rrset.mp hbefore).1, hzone, rfl,
      hfiled r (mem_of_find?_eq_some hr), .inl ⟨hauthored, rfl, rfl⟩⟩,
      mem_map_of_mem hbefore⟩
  | add r | delete id | makeCanonical id => simp [rewrites] at hu

theorem adds_fromStore (hfiled : op.Filed z.id) {i : Record} (hi : i ∈ op.adds s z) :
    i.zoneID = z.id ∧ (op.Authored → i.isManaged = false) := by
  have hnone {r : Record} (hr : r.managedBy = .empty) : r.isManaged = false := by
    simp [Record.isManaged, hr]
  cases op with
  | add r =>
    rw [adds, mem_singleton] at hi
    subst hi
    exact ⟨hfiled, hnone⟩
  | replaceRRset key wanted =>
    have hi' := (mem_filter.mp hi).1
    exact ⟨hfiled i hi', fun hauthored => hnone (hauthored i hi')⟩
  | update id r | delete id | makeCanonical id | detach id => simp [adds] at hi

theorem claims_fromStore (h : s.Sound) (hallowed : op.Allowed s z) {r : Record}
    (hr : r ∈ op.claims s) :
    (r ∈ s.records ∧ r.zoneID = z.id ∧ r.isManaged = false) ∧ r.id ∈ op.touches s z.id ∧
      op.removes s z = [] ∧ op.rewrites s z = [] := by
  cases op with
  | makeCanonical id =>
    obtain ⟨before, hbefore, howned, -⟩ := hallowed
    rw [claims, named_of_recordByID hbefore, mem_singleton] at hr
    subst hr
    obtain ⟨hmem, hid⟩ := h.recordByID_eq_ok.mp hbefore
    obtain ⟨hzone, hauthored⟩ := checkOwnedAndAuthored_eq_ok.mp howned
    exact ⟨⟨hmem, hzone, hauthored⟩, by simp [touches, hid], rfl, rfl⟩
  | add _ | update id _ | delete id | detach id | replaceRRset key wanted => simp [claims] at hr

theorem rewrites_once (h : s.Sound) (hallowed : op.Allowed s z) (hfiled : op.Filed z.id)
    {u v : RecordUpdate} (hu : u ∈ op.rewrites s z) (hv : v ∈ op.rewrites s z)
    (hid : v.before.id = u.before.id) : v = u := by
  have hsame : v.before = u.before :=
    h.record_ext (rewrites_fromStore h hallowed hfiled hv).1.1
      (rewrites_fromStore h hallowed hfiled hu).1.1 hid
  cases op with
  | update id r =>
    obtain ⟨⟨before, hbefore, -⟩, -⟩ := hallowed
    rw [rewrites, named_of_recordByID hbefore, flatMap_singleton] at hu hv
    rw [mem_rewrite hu, mem_rewrite hv]
  | detach id =>
    simp only [rewrites, mem_map] at hu hv
    obtain ⟨a, -, rfl⟩ := hu
    obtain ⟨b, -, rfl⟩ := hv
    cases hsame
    rfl
  | replaceRRset key wanted =>
    simp only [rewrites, mem_flatMap, Option.mem_toList] at hu hv
    obtain ⟨a, -, r, hr, hu⟩ := hu
    obtain ⟨b, -, r', hr', hv⟩ := hv
    obtain rfl := mem_rewrite hu
    obtain rfl := mem_rewrite hv
    cases hsame
    rw [hr] at hr'
    cases hr'
    rfl
  | add r | delete id | makeCanonical id => simp [rewrites] at hu

/-- Operations that touch rows of their own leave a change that is apart. -/
theorem apart_of_ops {ops : List RecordOp} {ch : Changes} (h : s.Sound)
    (hallowed : ∀ op ∈ ops, op.Allowed s z) (hfiled : ∀ op ∈ ops, op.Filed z.id)
    (hpairs : ops.Pairwise fun a b => ∀ k ∈ a.touches s z.id, k ∉ b.touches s z.id)
    (hdeletes : ch.deletes = ops.flatMap (removes s z))
    (hupdates : ch.updates = ops.flatMap (rewrites s z))
    (hclaims : ch.claims = ops.flatMap (claims s)) : ch.Apart := by
  have hsame {a b : RecordOp} (ha : a ∈ ops) (hb : b ∈ ops) {k : RecordID}
      (hka : k ∈ a.touches s z.id) (hkb : k ∈ b.touches s z.id) : a = b := by
    by_contra hne
    have hsymm : Std.Symm fun a b : RecordOp =>
        ∀ k ∈ a.touches s z.id, k ∉ b.touches s z.id :=
      ⟨fun a b hab k hkb hka => hab k hka hkb⟩
    exact hpairs.forall ha hb hne k hka hkb
  have hfrom {u : RecordUpdate} (hu : u ∈ ch.updates) : ∃ a ∈ ops, u ∈ a.rewrites s z ∧
      u.after.id = u.before.id ∧ u.before.id ∈ a.touches s z.id := by
    rw [hupdates] at hu
    obtain ⟨a, ha, hu⟩ := mem_flatMap.mp hu
    obtain ⟨⟨-, -, hid, -⟩, htouched⟩ := rewrites_fromStore h (hallowed a ha) (hfiled a ha) hu
    exact ⟨a, ha, hu, hid, htouched⟩
  constructor
  · intro u hu v hv hid
    obtain ⟨a, ha, hu, hua, hut⟩ := hfrom (mem_filter.mp hu).1
    obtain ⟨b, hb, hv, hvb, hvt⟩ := hfrom hv
    have hids : v.before.id = u.before.id := hvb.symm.trans (hid.trans hua)
    obtain rfl := hsame ha hb hut (hids ▸ hvt)
    exact rewrites_once h (hallowed a ha) (hfiled a ha) hu hv hids
  · intro r hr
    rw [hclaims] at hr
    obtain ⟨a, ha, hr⟩ := mem_flatMap.mp hr
    obtain ⟨-, hrt, hremoves, hrewrites⟩ := claims_fromStore h (hallowed a ha) hr
    constructor
    · intro d hd hid
      rw [hdeletes] at hd
      obtain ⟨b, hb, hd⟩ := mem_flatMap.mp hd
      obtain ⟨-, -, -, hdt⟩ := removes_fromStore h (hallowed b hb) hd
      obtain rfl := hsame ha hb hrt (hid ▸ hdt)
      rw [hremoves] at hd
      cases hd
    · intro u hu hid
      obtain ⟨b, hb, hu, hua, hut⟩ := hfrom hu
      obtain rfl := hsame ha hb hrt ((hua.symm.trans hid) ▸ hut)
      rw [hrewrites] at hu
      cases hu

end RecordOp

theorem newRecord_eq_ok {lib : WireLibrary} {zid : ZoneID} {name : Name} {cls : Class}
    {type : RRType} {ttl : TTL} {text : Octets} {r : Record} :
    newRecord lib zid name cls type ttl text = .ok r ↔
      ∃ data, lib.parseRData type cls text = .ok data ∧
        r = { id := .empty, zoneID := zid, name, cls, type, ttl, rdata := data,
              managedBy := .empty, managedKind := none, comment := "", disabled := false,
              createdAt := 0, updatedAt := 0 } ∧
        r.validate = .ok () := by
  simp only [newRecord, bind_eq_ok, pure_eq_ok]
  constructor
  · intro hok
    obtain ⟨_, -, data, hdata, _, hvalid, rfl⟩ := hok
    exact ⟨data, hdata, rfl, hvalid⟩
  · intro hok
    obtain ⟨data, hdata, rfl, hvalid⟩ := hok
    have hheader := hvalid
    rw [Record.validate, bind_eq_ok] at hheader
    obtain ⟨_, hheader, -⟩ := hheader
    exact ⟨(), hheader, data, hdata, (), hvalid, rfl⟩

namespace Env

variable {env : Env} {s : Store} {op : Operation} {z : Zone} {ch : Changes}
  {policy : Option Policy}

theorem normalize_ops {cmd : Command} {ops : List RecordOp}
    (hops : ops = (env.normalize cmd.zoneID cmd.ops 0).1) {op : RecordOp} (hop : op ∈ ops) :
    op.Filed cmd.zoneID ∧ ((∀ o ∈ cmd.ops, o.Authored) → op.Authored) := by
  rw [hops] at hop
  obtain ⟨o, ho, m, rfl⟩ := mem_normalize hop
  exact ⟨normalizeOp_filed o m, fun hauth => normalizeOp_authored (hauth o ho) m⟩

theorem normalize_filed (h : s.Sound) {cmd : Command} {ops : List RecordOp}
    (hz : s.zoneByID cmd.zoneID = .ok z) (hops : ops = (env.normalize cmd.zoneID cmd.ops 0).1) :
    ∀ o ∈ ops, o.Filed z.id := by
  intro o ho
  rw [(h.zoneByID_eq_ok.mp hz).2]
  exact (normalize_ops hops ho).1

section Asked

variable (h : s.Sound) (horigin : Origin env s op z ch policy)
include h horigin

theorem Origin.deletes_asked :
    ∀ d ∈ ch.deletes, d ∈ s.records ∧ d.zoneID = z.id ∧ d.isManaged = false := by
  intro d hd
  cases horigin with
  | command hz hops hallowed hasks =>
    rw [hasks.deletes] at hd
    obtain ⟨o, ho, hd⟩ := mem_flatMap.mp hd
    obtain ⟨hmem, hzone, hman, -⟩ := removes_fromStore h (hallowed o ho) hd
    exact ⟨hmem, hzone, hman⟩
  | rollback hz hsince hsoa hasks hrestored =>
    rw [hasks.deletes] at hd
    obtain ⟨kv, -, hd⟩ := mem_flatMap.mp hd
    obtain ⟨-, hstanding, hman⟩ := mem_undoRemoves.mp hd
    obtain ⟨hmem, hzone, -⟩ := Store.standing_eq_some hstanding
    exact ⟨hmem, hzone, hman⟩
  | create hasks =>
    rw [hasks.deletes] at hd
    cases hd

theorem Origin.updates_asked :
    ∀ u ∈ ch.updates, u.before ∈ s.records ∧ u.before.zoneID = z.id ∧
      u.after.id = u.before.id ∧ u.after.zoneID = z.id ∧
      (u.before.isManaged = false ∧ u.after.managedBy = u.before.managedBy ∧
          u.after.managedKind = u.before.managedKind ∨
        u.after = detached u.before) := by
  intro u hu
  cases horigin with
  | command hz hops hallowed hasks =>
    rw [hasks.updates] at hu
    obtain ⟨o, ho, hu⟩ := mem_flatMap.mp hu
    exact (rewrites_fromStore h (hallowed o ho) (normalize_filed h hz hops o ho) hu).1
  | rollback hz hsince hsoa hasks hrestored =>
    rw [hasks.updates] at hu
    obtain ⟨kv, -, hu⟩ := mem_flatMap.mp hu
    obtain ⟨-, hstanding, hman, -, hafter⟩ := mem_undoUpdates.mp hu
    obtain ⟨hmem, hzone, -⟩ := Store.standing_eq_some hstanding
    rw [hafter]
    exact ⟨hmem, hzone, rfl, hzone, .inl ⟨hman, rfl, rfl⟩⟩
  | create hasks =>
    rw [hasks.updates] at hu
    cases hu

theorem Origin.inserts_asked :
    ∀ i ∈ ch.inserts, i.zoneID = z.id ∧ (op.Authored → i.isManaged = false) := by
  intro i hi
  cases horigin with
  | command hz hops hallowed hasks =>
    rw [hasks.inserts] at hi
    obtain ⟨o, ho, hi⟩ := mem_flatMap.mp hi
    obtain ⟨hzone, hman⟩ := adds_fromStore (normalize_filed h hz hops o ho) hi
    exact ⟨hzone, fun hauthored => hman ((normalize_ops hops ho).2 hauthored)⟩
  | rollback hz hsince hsoa hasks hrestored =>
    rw [hasks.inserts] at hi
    obtain ⟨kv, -, -, ⟨r, n, hr, rfl⟩⟩ := hrestored.sound i hi
    obtain ⟨data, -, rfl, -⟩ := newRecord_eq_ok.mp hr
    exact ⟨rfl, fun _ => rfl⟩
  | create hasks =>
    rw [hasks.inserts] at hi
    obtain ⟨r, hr, id, rfl⟩ := mem_mintIDs hi
    exact ⟨rfl, fun hauthored => by simp [Record.isManaged, hauthored r hr]⟩

theorem Origin.claims_asked :
    ∀ r ∈ ch.claims, r ∈ s.records ∧ r.zoneID = z.id ∧ r.isManaged = false := by
  intro r hr
  cases horigin with
  | command hz hops hallowed hasks =>
    rw [hasks.claims] at hr
    obtain ⟨o, ho, hr⟩ := mem_flatMap.mp hr
    exact (claims_fromStore h (hallowed o ho) hr).1
  | rollback hz hsince hsoa hasks hrestored =>
    rw [hasks.claims] at hr
    cases hr
  | create hasks =>
    rw [hasks.claims] at hr
    cases hr

end Asked

theorem Origin.fromStore (h : s.Sound) (hauthored : op.Authored)
    (horigin : Origin env s op z ch policy) : ch.FromStore s z :=
  ⟨horigin.deletes_asked h, horigin.updates_asked h,
    fun i hi => (horigin.inserts_asked h i hi).imp_right fun hman => hman hauthored,
    horigin.claims_asked h⟩

theorem Origin.under (h : s.Sound) (horigin : Origin env s op z ch policy) : ch.Under z.id :=
  ⟨fun d hd => (horigin.deletes_asked h d hd).2.1,
    fun u hu => ⟨(horigin.updates_asked h u hu).2.1, (horigin.updates_asked h u hu).2.2.2.1⟩,
    fun i hi => (horigin.inserts_asked h i hi).1, horigin.marked⟩

theorem sameReverse_ttl (r : Record) (ttl : TTL) : sameReverse r { r with ttl } = true := by
  have haddress : ({ r with ttl } : Record).address = r.address := rfl
  rw [sameReverse, haddress]
  cases r.address <;> simp

theorem Origin.apart (h : s.Sound) (hapart : op.Apart s) (horigin : Origin env s op z ch policy) :
    ch.Apart := by
  cases horigin with
  | @command cmd _ _ ops hz hops hallowed hasks =>
    refine apart_of_ops h hallowed (normalize_filed h hz hops) ?_ hasks.deletes hasks.updates
      hasks.claims
    have hasked : (cmd.ops.map (touches s cmd.zoneID)).Pairwise
        fun x y => ∀ k ∈ x, k ∉ y := pairwise_map.mpr hapart
    rw [← normalize_touches cmd.ops 0, ← hops, ← (h.zoneByID_eq_ok.mp hz).2] at hasked
    exact pairwise_map.mp hasked
  | rollback hz hsince hsoa hasks hrestored =>
    constructor
    · intro u hu
      -- a rollback changes lifetimes only, which move nothing
      obtain ⟨hu, hmoved⟩ := mem_filter.mp hu
      rw [hasks.updates] at hu
      obtain ⟨kv, -, hu⟩ := mem_flatMap.mp hu
      obtain ⟨-, -, -, -, hafter⟩ := mem_undoUpdates.mp hu
      rw [hafter, sameReverse_ttl] at hmoved
      exact absurd hmoved (by simp)
    · intro r hr
      rw [hasks.claims] at hr
      cases hr
  | create hasks =>
    constructor
    · intro u hu
      have hu := (mem_filter.mp hu).1
      rw [hasks.updates] at hu
      cases hu
    · intro r hr
      rw [hasks.claims] at hr
      cases hr

end Env

end Wegweiser
