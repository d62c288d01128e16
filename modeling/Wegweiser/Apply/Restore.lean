/-
What a rollback restores.

A history whose commits are faithful takes a zone from one version to the next, and the first
event about a record tells whether the version at its start held it.
-/
import Wegweiser.Apply.Rollback
import Wegweiser.Apply.Rows

namespace Wegweiser

open Checked Ledger List Sample Store Commit ChangeSet

/-- What a zone has at a serial: its rows and its start of authority. -/
structure Version where
  rows : Finset Row
  soa : SOA

def Event.Names (e : Event) (soa : SOA) : Prop :=
  match parseSOAData e.rdata.text with
  | .ok was => sameSOA soa { was with ttl := e.ttl } = true
  | .error _ => True

instance {e : Event} {soa : SOA} : Decidable (e.Names soa) := by
  unfold Event.Names
  split <;> infer_instance

theorem Event.names_iff {e : Event} {soa : SOA} :
    e.Names soa ↔ ∀ was, parseSOAData e.rdata.text = .ok was →
      sameSOA soa { was with ttl := e.ttl } = true := by
  unfold Event.Names
  cases parseSOAData e.rdata.text with
  | error err => simp
  | ok was => simp

/-- A commit whose events turn one version of its zone into the next. -/
structure Commit.Faithful (c : Commit) (v v' : Version) : Prop where
  fits : Fits Row.key v.rows c.entries
  rows : replay v.rows c.entries = v'.rows
  serialFrom : c.serialFrom = v.soa.serial
  serialTo : c.serialTo = v'.soa.serial
  soa : ∀ e ∈ c.events, e.type = typeSOA → e.op = .del → e.Names v.soa
  soa_kept : (∀ e ∈ c.events, e.type = typeSOA → e.op ≠ .del) → sameSOA v.soa v'.soa = true

instance {c : Commit} {v v' : Version} : Decidable (c.Faithful v v') :=
  decidable_of_iff (Fits Row.key v.rows c.entries ∧ replay v.rows c.entries = v'.rows ∧
      c.serialFrom = v.soa.serial ∧ c.serialTo = v'.soa.serial ∧
      (∀ e ∈ c.events, e.type = typeSOA → e.op = .del → e.Names v.soa) ∧
      ((∀ e ∈ c.events, e.type = typeSOA → e.op ≠ .del) → sameSOA v.soa v'.soa = true))
    ⟨fun h => ⟨h.1, h.2.1, h.2.2.1, h.2.2.2.1, h.2.2.2.2.1, h.2.2.2.2.2⟩,
      fun h => ⟨h.fits, h.rows, h.serialFrom, h.serialTo, h.soa, h.soa_kept⟩⟩

/-- The journal leads from the version `was` of a zone to another one by faithful
commits, and the zone has not had the serial of `was` again since. -/
inductive Store.Leads (s : Store) (zid : ZoneID) (was : Version) : List Commit → Version → Prop
  | here : Leads s zid was [] was
  | step {past : List Commit} {v v' : Version} {c : Commit} (hpast : Leads s zid was past v)
      (hmem : c ∈ s.commits) (hzone : c.zoneID = zid) (hfaithful : c.Faithful v v')
      (hnew : v'.soa.serial ≠ was.soa.serial) : Leads s zid was (past ++ [c]) v'

variable {a b : SOA} {s : Store} {zid : ZoneID} {was : Version}

theorem sameSOA_eq :
    sameSOA a b = true ↔ { a with serial := ⟨0⟩ } = ({ b with serial := ⟨0⟩ } : SOA) := by
  rw [sameSOA, beq_iff_eq]

theorem sameSOA_trans {c : SOA} (hab : sameSOA a b = true) (hbc : sameSOA b c = true) :
    sameSOA a c = true :=
  sameSOA_eq.mpr ((sameSOA_eq.mp hab).trans (sameSOA_eq.mp hbc))

theorem sameSOA_symm (hab : sameSOA a b = true) : sameSOA b a = true :=
  sameSOA_eq.mpr (sameSOA_eq.mp hab).symm

theorem sameSOA_serial (serial : Serial) : sameSOA a { a with serial } = true :=
  sameSOA_eq.mpr rfl

section History

variable {s : Store} {zid : ZoneID} {was v : Version} {past : List Commit}

theorem Store.Leads.fits (h : s.Leads zid was past v) :
    Fits Row.key was.rows (past.flatMap entries) ∧
      replay was.rows (past.flatMap entries) = v.rows := by
  induction h with
  | here => exact ⟨trivial, rfl⟩
  | step _ _ _ hfaithful _ ih =>
    rw [flatMap_append, fits_append, replay_append, ih.2, flatMap_singleton]
    exact ⟨⟨ih.1, hfaithful.fits⟩, hfaithful.rows⟩

theorem Store.Leads.eq_of_serial (h : s.Leads zid was past v)
    (hserial : v.soa.serial = was.soa.serial) : v = was := by
  cases h with
  | here => rfl
  | step _ _ _ _ hnew => exact absurd hserial hnew

theorem Store.Leads.soa (h : s.Leads zid was past v) :
    match firstSOA (past.flatMap events) with
    | none => sameSOA was.soa v.soa = true
    | some e => e.Names was.soa := by
  induction h with
  | here => exact sameSOA_serial was.soa.serial
  | @step past v v' c _ _ _ hfaithful _ ih =>
    have hsplit : firstSOA ((past ++ [c]).flatMap events) =
        (firstSOA (past.flatMap events)).or (firstSOA c.events) := by
      rw [flatMap_append, flatMap_singleton, firstSOA, find?_append]
      rfl
    rw [hsplit]
    cases hpast : firstSOA (past.flatMap events) with
    | some e =>
      rw [hpast] at ih
      exact ih
    | none =>
      rw [hpast] at ih
      rw [Option.none_or]
      cases hc : firstSOA c.events with
      | none =>
        refine sameSOA_trans ih (hfaithful.soa_kept fun e he htype hop => ?_)
        exact find?_eq_none.mp hc e he (by simp [htype, hop])
      | some e =>
        have hprops := find?_some hc
        simp only [Bool.and_eq_true, beq_iff_eq] at hprops
        have hnames := hfaithful.soa e (mem_of_find?_eq_some hc) hprops.1 hprops.2
        -- nothing before this commit touched the start of authority
        change e.Names was.soa
        rw [Event.names_iff] at hnames ⊢
        intro found hfound
        exact sameSOA_trans ih (hnames found hfound)

theorem Store.Leads.chainBack (hsound : s.Sound) (h : s.Leads zid was past v) {fuel : Nat}
    {chain : List Commit}
    (hchain : chainBack (s.zoneCommits zid) was.soa.serial fuel v.soa.serial = some chain) :
    chain = past.reverse := by
  induction h generalizing fuel chain with
  | here =>
    rw [Env.chainBack_self] at hchain
    cases hchain
    rfl
  | @step past v v' c _ hmem hzone hfaithful hnew ih =>
    rw [Wegweiser.chainBack.eq_def] at hchain
    dsimp only at hchain
    rw [if_neg hnew] at hchain
    split at hchain
    · next fuel c' hfind =>
      obtain ⟨rest, hrest, rfl⟩ := Option.map_eq_some_iff.mp hchain
      have hserial : c'.serialTo = v'.soa.serial := by simpa using find?_some hfind
      have hmem' := mem_filter.mp (mem_of_find?_eq_some hfind)
      have hzone' : c'.zoneID = zid := by simpa using hmem'.2
      -- one commit of a zone produces a serial
      have heq : c' = c := inj_on_of_nodup_map hsound.commit_serials hmem'.1 hmem (by
        rw [hzone', hzone, hserial, hfaithful.serialTo])
      rw [heq] at hrest ⊢
      rw [hfaithful.serialFrom] at hrest
      rw [ih hrest, reverse_append]
      rfl
    · cases hchain

theorem Store.Leads.commitsBetween (hsound : s.Sound) (h : s.Leads zid was past v)
    {since : List Commit}
    (hsince : commitsBetween s zid was.soa.serial v.soa.serial = .ok since) : since = past := by
  rw [Wegweiser.commitsBetween] at hsince
  split at hsince
  · next chain hchain =>
    cases hsince
    rw [h.chainBack hsound hchain, reverse_reverse]
  · cases hsince

end History

section FirstEvents

variable {events : List Event} {k : RdataKey} {e : Event}

theorem mem_firstEvents :
    (k, e) ∈ firstEvents events ↔
      (events.filter fun e => e.type != typeSOA).find? (fun e => e.rdataKey == k) = some e := by
  have hfold (l : List Event) (acc : List (RdataKey × Event)) :
      (k, e) ∈ l.foldl (fun at_ e =>
          if e.type = typeSOA || at_.any fun kv => kv.1 == e.rdataKey then at_
          else at_ ++ [(e.rdataKey, e)]) acc ↔
        (k, e) ∈ acc ∨ (∀ kv ∈ acc, kv.1 ≠ k) ∧
          (l.filter fun e => e.type != typeSOA).find? (fun e => e.rdataKey == k) = some e := by
    induction l generalizing acc with
    | nil => simp
    | cons head tail ih =>
      rw [foldl_cons, ih]
      by_cases hsoa : head.type = typeSOA
      · simp [hsoa]
      · by_cases hseen : acc.any fun kv => kv.1 == head.rdataKey
        · rw [filter_cons_of_pos (by simpa using hsoa)]
          have hskip : ((∀ kv ∈ acc, kv.1 ≠ k) → head.rdataKey ≠ k) := by
            intro hnone hk
            obtain ⟨kv, hkv, heq⟩ := any_eq_true.mp hseen
            exact hnone kv hkv ((beq_iff_eq.mp heq).trans hk)
          simp only [hseen, Bool.or_true, if_true, find?_cons]
          refine or_congr_right (and_congr_right fun hnone => ?_)
          have hne : (head.rdataKey == k) = false := by simpa using hskip hnone
          rw [hne]
        · rw [filter_cons_of_pos (by simpa using hsoa), find?_cons]
          simp only [hsoa, hseen, decide_false, Bool.or_self, Bool.false_eq_true, if_false,
            mem_append, mem_singleton]
          by_cases hk : head.rdataKey = k
          · have hfree : ∀ kv ∈ acc, kv.1 ≠ k := by
              intro kv hkv heq
              exact hseen (any_eq_true.mpr ⟨kv, hkv, by simp [heq, hk]⟩)
            have hnot : (k, e) ∉ acc := fun hmem => hfree (k, e) hmem rfl
            simp only [hk, beq_self_eq_true, hnot, false_or, Option.some.injEq, Prod.mk.injEq,
              true_and]
            constructor
            · intro h
              rcases h with rfl | ⟨hnone, -⟩
              · exact ⟨hfree, rfl⟩
              · exact absurd rfl (hnone (k, head) (.inr rfl))
            · intro h
              exact .inl h.2.symm
          · have hne : (head.rdataKey == k) = false := by simpa using hk
            have hpair : (k, e) ≠ (head.rdataKey, head) := fun h => hk (congrArg Prod.fst h).symm
            simp only [hne, hpair, or_false]
            refine or_congr_right (and_congr_left fun _ => ?_)
            constructor
            · intro h kv hkv
              exact h kv (.inl hkv)
            · intro h kv hkv
              rcases hkv with hkv | rfl
              · exact h kv hkv
              · exact hk
  rw [firstEvents, hfold]
  simp

theorem first_entriesOf :
    first Row.key k (entriesOf events) =
      ((events.filter fun e => e.type != typeSOA).find? fun e => e.rdataKey == k).map
        Event.entry := by
  rw [first, entriesOf, find?_map]
  congr 1
  simp

theorem entriesOf_flatMap (commits : List Commit) :
    entriesOf (commits.flatMap Commit.events) = commits.flatMap Commit.entries := by
  induction commits with
  | nil => rfl
  | cons head tail ih => rw [flatMap_cons, entriesOf_append, ih, flatMap_cons]; rfl

end FirstEvents

theorem Store.Sound.standing_eq (h : s.Sound) {r : Record}
    (hr : r ∈ s.records) (hzone : r.zoneID = zid) : s.standing zid r.rdataKey = some r := by
  cases hstanding : s.standing zid r.rdataKey with
  | none =>
    refine absurd (find?_eq_none.mp hstanding r ?_) (by simp)
    exact mem_ownerRecords.mpr ⟨hr, hzone, rfl⟩
  | some o =>
    obtain ⟨ho, hozone, hkey⟩ := standing_eq_some hstanding
    simp only [Record.rdataKey, RdataKey.mk.injEq] at hkey
    rw [h.content_ext ho hr (by simp only [Record.unique, hozone, hzone, hkey])]

theorem Env.expandReverse_nothing {env : Env} {z : Zone} {ch : Changes}
    {policy : Option Policy} {res : Result} {minted : Nat} {w : Work} (hdeletes : ch.deletes = [])
    (hupdates : ch.updates = []) (hinserts : ch.inserts = []) (hclaims : ch.claims = [])
    (hok : env.expandReverse s ⟨⟨[⟨z, ch⟩], policy⟩, res, minted⟩ z = .ok w) :
    w.cs = ⟨[⟨z, ch⟩], policy⟩ := by
  simp only [expandReverse, pending_singleton, hdeletes, hupdates, hclaims] at hok
  split at hok
  · cases hok
    rfl
  · simp only [filter_nil, foldlM_nil, pure_bind, pending_singleton, hinserts,
      pure_eq_ok] at hok
    rw [← hok]

namespace Env.RolledBack

variable {env : Env} {s t : Store} {zid : ZoneID} {target : Serial} {info : Meta} {z : Zone}
  {since : List Commit} {ch : Changes} {w : Work}

theorem updates (h : s.Sound) (hback : RolledBack env s t zid target info z since ch w)
    {u : RecordUpdate} :
    u ∈ w.cs.updates ↔ ∃ kv ∈ firstEvents (since.flatMap events),
      u ∈ undoUpdates s zid kv := by
  obtain ⟨soa, inserts, -, hasks, -⟩ := hback.asks
  obtain ⟨minted, hexpand⟩ := hback.expand
  rw [(expandReverse_grows hexpand).updates, mem_updates_singleton, hasks.updates,
    hback.zone_id h]
  simp [mem_undoKeys, Changes.blank]

theorem deletes (h : s.Sound) (hfresh : env.Fresh s)
    (hback : RolledBack env s t zid target info z since ch w) {r : Record} (hr : r ∈ s.records)
    (hauthored : r.isManaged = false) :
    (∃ d ∈ w.cs.deletes, d.id = r.id) ↔
      ∃ kv ∈ firstEvents (since.flatMap events), r ∈ undoRemoves s zid kv := by
  obtain ⟨soa, inserts, -, hasks, -⟩ := hback.asks
  obtain ⟨minted, hexpand⟩ := hback.expand
  have hgrows := expandReverse_grows hexpand
  have hfrom := Origin.fromStore h
    (show (Operation.rollback zid target info).Authored from trivial) hback.origin
  have hdeletes {d : Record} : d ∈ ch.deletes ↔
      ∃ kv ∈ firstEvents (since.flatMap events), d ∈ undoRemoves s zid kv := by
    rw [hasks.deletes, hback.zone_id h]
    simp [mem_undoKeys, Changes.blank]
  constructor
  · intro hd
    obtain ⟨d, hd, hid⟩ := hd
    have hwas := stored_of_deletes hfresh hgrows
      (fun i hi => (hfrom.inserts i (mem_inserts_singleton.mp hi)).2)
      (fun u hu => updates_authored hfrom (mem_updates_singleton.mp hu)) hback.rewrites.deletes hd
    rcases hwas with hasked | ⟨hmanaged, hstored⟩
    · have hmem := mem_deletes_singleton.mp hasked
      rw [← h.record_ext (hfrom.deletes d hmem).1 hr hid]
      exact hdeletes.mp hmem
    · rw [h.record_ext hstored hr hid, hauthored] at hmanaged
      cases hmanaged
  · intro hr
    exact ⟨r, hgrows.deletes_mono r (mem_deletes_singleton.mpr (hdeletes.mpr hr)), rfl⟩

end Env.RolledBack

/-- What the first events of a range say of the version the range starts at, seen
from the store it ends at. -/
structure Version.ToldBy (was : Version) (s : Store) (zid : ZoneID) (events : List Event) :
    Prop where
  untouched : ∀ ρ : Row, (∀ kv ∈ firstEvents events, kv.1 ≠ ρ.key) →
    (ρ ∈ was.rows ↔ ρ ∈ s.rows zid)
  removed : ∀ kv ∈ firstEvents events, kv.2.op = .del →
    ∀ ρ : Row, ρ.key = kv.1 → (ρ ∈ was.rows ↔ ρ = kv.2.row)
  added : ∀ kv ∈ firstEvents events, kv.2.op = .add → ∀ ρ ∈ was.rows, ρ.key ≠ kv.1
  keys : ∀ kv ∈ firstEvents events, kv.2.rdataKey = kv.1
  once : ∀ kv ∈ firstEvents events, ∀ kv' ∈ firstEvents events, kv.1 = kv'.1 → kv = kv'

theorem Version.ToldBy.held {events : List Event}
    (h : was.ToldBy s zid events) {kv : RdataKey × Event} (hkv : kv ∈ firstEvents events)
    (hop : kv.2.op = .del) : kv.2.row ∈ was.rows :=
  (h.removed kv hkv hop kv.2.row (h.keys kv hkv)).mpr rfl

theorem Store.Leads.toldBy {past : List Commit} {soa : SOA} (hkeyed : Set.InjOn Row.key was.rows)
    (h : s.Leads zid was past ⟨s.rows zid, soa⟩) :
    was.ToldBy s zid (past.flatMap events) := by
  obtain ⟨hfits, hrows⟩ := h.fits
  rw [← entriesOf_flatMap] at hfits hrows
  have hfirst {kv : RdataKey × Event} (hkv : kv ∈ firstEvents (past.flatMap events)) :
      first Row.key kv.1 (entriesOf (past.flatMap events)) = some kv.2.entry := by
    rw [first_entriesOf, mem_firstEvents.mp hkv]
    rfl
  constructor
  · intro ρ hnone
    rw [← show _ = s.rows zid from hrows, mem_replay_of_no_entry]
    intro e he hkey
    -- a key some entry is about has a first event
    have hsome : ((entriesOf (past.flatMap events)).find? fun e =>
        Row.key e.row == ρ.key).isSome := find?_isSome.mpr ⟨e, he, by simpa using hkey⟩
    change (first Row.key ρ.key _).isSome = true at hsome
    rw [first_entriesOf, Option.isSome_map, Option.isSome_iff_exists] at hsome
    obtain ⟨ev, hev⟩ := hsome
    exact hnone (ρ.key, ev) (mem_firstEvents.mpr hev) rfl
  · intro kv hkv hop ρ hkey
    have hdel : first Row.key ρ.key (entriesOf (past.flatMap events)) =
        some (.del kv.2.row) := by
      rw [hkey, hfirst hkv, Event.entry, hop]
    exact mem_of_first_del hkeyed hfits hdel
  · intro kv hkv hop ρ hρ hkey
    have hadd : first Row.key ρ.key (entriesOf (past.flatMap events)) =
        some (.add kv.2.row) := by
      rw [hkey, hfirst hkv, Event.entry, hop]
    exact not_mem_of_first_add hfits hadd hρ
  · intro kv hkv
    simpa using find?_some (mem_firstEvents.mp hkv)
  · intro kv hkv kv' hkv' hkey
    have hev := mem_firstEvents.mp hkv
    have hev' := mem_firstEvents.mp hkv'
    rw [← hkey, hev] at hev'
    exact Prod.ext hkey (Option.some.inj hev')

/-- The data of the rows reads back as itself, as what `ParseRData` returns does. -/
def Version.Canonical (lib : WireLibrary) (v : Version) : Prop :=
  ∀ ρ ∈ v.rows, lib.parseRData ρ.type ρ.cls ρ.rdata.text = .ok ρ.rdata

/-- A record of a zone that somebody wrote and that the zone did not hold before. -/
def Store.PutBack (s : Store) (zid : ZoneID) (src : Record) : Prop :=
  src.zoneID = zid ∧ src.isManaged = false ∧ ∀ o ∈ s.records, o.id ≠ src.id

/-- What the automation generates for `src` in the zone: its PTR, where the zone is a reverse
zone, or the delegation to its PTR in a reverse zone right below. -/
def Store.GeneratedFor (s t : Store) (z : Zone) (src r : Record) : Prop :=
  r.type = typePTR ∧ z.kind = .reverse ∧ r.managedBy = src.id ∨
    r.type = typeCNAME ∧ ∃ child ∈ s.zones, child.kind = .reverse ∧
      child.name.parent = some z.name ∧ ∃ ptr ∈ t.records, ptr.type = typePTR ∧
        ptr.zoneID = child.id ∧ ptr.managedBy = src.id ∧ r.managedBy = ptr.id

namespace Env.RolledBack

variable {env : Env} {s t : Store} {zid : ZoneID} {target : Serial} {info : Meta} {z : Zone}
  {since : List Commit} {ch : Changes} {w : Work} {was : Version}

theorem restored_row (htold : was.ToldBy s zid (since.flatMap events))
    (hcanonical : was.Canonical env.lib) {kv : RdataKey × Event}
    (hkv : kv ∈ firstEvents (since.flatMap events)) (hop : kv.2.op = .del) {i : Record}
    (hrest : Restores env zid kv i) : i.zoneID = zid ∧ i.isManaged = false ∧ i.row = kv.2.row := by
  have hkey := htold.keys kv hkv
  obtain ⟨r, n, hr, rfl⟩ := hrest.restored
  obtain ⟨data, hdata, rfl, -⟩ := newRecord_eq_ok.mp hr
  refine ⟨rfl, rfl, ?_⟩
  rw [← hkey] at hdata
  have hsame := hcanonical _ (htold.held hkv hop)
  change env.lib.parseRData kv.2.type kv.2.cls kv.2.rdata.text = .ok kv.2.rdata at hsame
  change env.lib.parseRData kv.2.type kv.2.cls kv.2.rdata.text = .ok data at hdata
  rw [hsame] at hdata
  cases hdata
  rw [← hkey]
  rfl

variable {o : Record}

theorem rewritten_same (h : s.Sound) (hback : RolledBack env s t zid target info z since ch w)
    (ho : o ∈ s.records) :
    (rewrittenRow env.now w.cs.updates o).zoneID = o.zoneID ∧
      (rewrittenRow env.now w.cs.updates o).isManaged = o.isManaged := by
  rcases rewrittenRow_cases w.cs.updates o with ⟨hsame, -⟩ | ⟨u, hu, hid, created, hrow⟩
  · rw [hsame]
    exact ⟨rfl, rfl⟩
  · obtain ⟨kv, -, hu⟩ := (hback.updates h).mp hu
    obtain ⟨-, hbefore, -, -, hafter⟩ := mem_undoUpdates.mp hu
    rw [hafter] at hid
    have heq := h.record_ext (standing_eq_some hbefore).1 ho hid
    rw [hrow, hafter, heq]
    exact ⟨rfl, rfl⟩

theorem kept_row (h : s.Sound) (hfresh : env.Fresh s)
    (hback : RolledBack env s t zid target info z since ch w)
    (htold : was.ToldBy s zid (since.flatMap events)) (ho : o ∈ s.records)
    (hzone : o.zoneID = zid) (hauthored : o.isManaged = false) :
    (o ∈ s.without w.cs.gone ↔ ∀ kv ∈ firstEvents (since.flatMap events),
        kv.1 = o.rdataKey → kv.2.op = .del) ∧
      (∀ kv ∈ firstEvents (since.flatMap events), kv.1 = o.rdataKey → kv.2.op = .del →
        (rewrittenRow env.now w.cs.updates o).row = kv.2.row) ∧
      ((∀ kv ∈ firstEvents (since.flatMap events), kv.1 ≠ o.rdataKey) →
        rewrittenRow env.now w.cs.updates o = o) := by
  have hstanding := h.standing_eq ho hzone
  have hupdate {u : RecordUpdate} (hu : u ∈ w.cs.updates) (hid : u.after.id = o.id) :
      ∃ kv ∈ firstEvents (since.flatMap events), kv.1 = o.rdataKey ∧
        u.after = { o with ttl := kv.2.ttl } := by
    obtain ⟨kv, hkv, hu⟩ := (hback.updates h).mp hu
    obtain ⟨-, hbefore, -, -, hafter⟩ := mem_undoUpdates.mp hu
    obtain ⟨hmem, -, hkey⟩ := standing_eq_some hbefore
    have heq : u.before = o := h.record_ext hmem ho (by rw [← hid, hafter])
    rw [heq] at hkey hafter
    exact ⟨kv, hkv, hkey.symm, hafter⟩
  refine ⟨?_, ?_, ?_⟩
  · constructor
    · intro hkept kv hkv hkey
      cases hop : kv.2.op with
      | del => rfl
      | add =>
        have hgone : o ∈ undoRemoves s zid kv :=
          mem_undoRemoves.mpr ⟨hop, by rw [hkey]; exact hstanding, hauthored⟩
        obtain ⟨d, hd, hid⟩ := (hback.deletes h hfresh ho hauthored).mpr ⟨kv, hkv, hgone⟩
        exact absurd (.root (mem_map.mpr ⟨d, hd, hid⟩)) (mem_without.mp hkept).2
    · intro hdel
      refine authored_kept h ho hauthored fun d hd hid => ?_
      obtain ⟨kv, hkv, hgone⟩ := (hback.deletes h hfresh ho hauthored).mp ⟨d, hd, hid⟩
      obtain ⟨hop, hthere, -⟩ := mem_undoRemoves.mp hgone
      have hkey := (standing_eq_some hthere).2.2
      rw [hdel kv hkv hkey.symm] at hop
      cases hop
  · intro kv hkv hkey hop
    rcases rewrittenRow_cases w.cs.updates o with ⟨hsame, hnone⟩ | ⟨u, hu, hid, created, hrow⟩
    · rw [hsame]
      -- no update, so the lifetime was right already
      have httl : o.ttl = kv.2.ttl := by
        by_contra hne
        have hu : (⟨o, { o with ttl := kv.2.ttl }⟩ : RecordUpdate) ∈ undoUpdates s zid kv :=
          mem_undoUpdates.mpr ⟨hop, by rw [hkey]; exact hstanding, hauthored, hne, rfl⟩
        exact hnone _ ((hback.updates h).mpr ⟨kv, hkv, hu⟩) rfl
      have hrow := (htold.keys kv hkv).trans hkey
      simp only [Event.rdataKey, Record.rdataKey, RdataKey.mk.injEq] at hrow
      simp only [Record.row, Event.row, hrow, httl]
    · obtain ⟨kv', hkv', hkey', hafter⟩ := hupdate hu hid
      obtain rfl := htold.once kv hkv kv' hkv' (hkey.trans hkey'.symm)
      rw [hrow, hafter]
      have hrow := (htold.keys kv hkv).trans hkey
      simp only [Event.rdataKey, Record.rdataKey, RdataKey.mk.injEq] at hrow
      simp only [Record.row, Event.row, hrow]
  · intro hnone
    rcases rewrittenRow_cases w.cs.updates o with ⟨hsame, -⟩ | ⟨u, hu, hid, -⟩
    · exact hsame
    · obtain ⟨kv, hkv, hkey, -⟩ := hupdate hu hid
      exact absurd hkey (hnone kv hkv)

theorem authored_rows (h : s.Sound) (hfresh : env.Fresh s)
    (hback : RolledBack env s t zid target info z since ch w)
    (hauthored : ∀ r ∈ s.records, r.zoneID = zid → r.isManaged = false)
    (htold : was.ToldBy s zid (since.flatMap events))
    (hcanonical : was.Canonical env.lib) {ρ : Row} :
    (∃ r ∈ t.records, r.zoneID = zid ∧ r.isManaged = false ∧ r.row = ρ) ↔ ρ ∈ was.rows := by
  constructor
  · intro hr
    obtain ⟨r, hr, hzone, hman, rfl⟩ := hr
    rcases (hback.rewrites.rows r).mp hr with ⟨o, ho, rfl⟩ | ⟨i, hi, rfl⟩
    · have hmem := (mem_without.mp ho).1
      have hozone : o.zoneID = zid := (hback.rewritten_same h hmem).1.symm.trans hzone
      obtain ⟨hkept, hdel, hnone⟩ :=
        hback.kept_row h hfresh htold hmem hozone (hauthored o hmem hozone)
      by_cases hany : ∃ kv ∈ firstEvents (since.flatMap events), kv.1 = o.rdataKey
      · obtain ⟨kv, hkv, hkey⟩ := hany
        have hop := hkept.mp ho kv hkv hkey
        rw [hdel kv hkv hkey hop]
        exact htold.held hkv hop
      · simp only [not_exists, not_and] at hany
        rw [hnone hany]
        exact (htold.untouched o.row hany).mpr (mem_rows.mpr ⟨o, hmem, hozone, rfl⟩)
    · obtain ⟨kv, hkv, hmissing, hrest⟩ := hback.inserts h hi hman
      have hrow : (insertedRow env.now i).row = kv.2.row :=
        (restored_row htold hcanonical hkv hmissing.2 hrest).2.2
      rw [hrow]
      exact htold.held hkv hmissing.2
  · intro hρ
    by_cases hany : ∃ kv ∈ firstEvents (since.flatMap events), kv.1 = ρ.key
    · obtain ⟨kv, hkv, hkey⟩ := hany
      cases hop : kv.2.op with
      | add => exact absurd hkey.symm (htold.added kv hkv hop ρ hρ)
      | del =>
        obtain rfl := (htold.removed kv hkv hop ρ hkey.symm).mp hρ
        cases hstanding : s.standing zid kv.1 with
        | none =>
          obtain ⟨i, hi, hrest⟩ := hback.inserts_of_missing h hkv ⟨hstanding, hop⟩
          obtain ⟨hzone, hman, hrow⟩ := restored_row htold hcanonical hkv hop hrest
          exact ⟨_, (hback.rewrites.rows _).mpr (.inr ⟨i, hi, rfl⟩), hzone, hman, hrow⟩
        | some o =>
          obtain ⟨ho, hzone, hokey⟩ := standing_eq_some hstanding
          have hman := hauthored o ho hzone
          obtain ⟨hkept, hdel, -⟩ := hback.kept_row h hfresh htold ho hzone hman
          have hstays := hkept.mpr fun kv' hkv' hkey' => by
            rw [htold.once kv' hkv' kv hkv (hkey'.trans hokey)]
            exact hop
          obtain ⟨hzone', hman'⟩ := hback.rewritten_same h ho
          exact ⟨_, (hback.rewrites.rows _).mpr (.inl ⟨o, hstays, rfl⟩), hzone'.trans hzone,
            hman'.trans hman, hdel kv hkv hokey.symm hop⟩
    · simp only [not_exists, not_and] at hany
      obtain ⟨o, ho, hzone, rfl⟩ := mem_rows.mp ((htold.untouched ρ hany).mp hρ)
      obtain ⟨hkept, -, hsame⟩ := hback.kept_row h hfresh htold ho hzone (hauthored o ho hzone)
      have hstays := hkept.mpr fun kv hkv hkey => absurd hkey (hany kv hkv)
      refine ⟨o, (hback.rewrites.rows _).mpr (.inl ⟨o, hstays, (hsame hany).symm⟩), hzone,
        hauthored o ho hzone, rfl⟩

theorem putBack_of_expands (h : s.Sound) (hfresh : env.Fresh s)
    (hback : RolledBack env s t zid target info z since ch w) {x : Record} (hx : Expands ch x) :
    ∃ src ∈ t.records, src.id = x.id ∧ s.PutBack zid src := by
  obtain ⟨minted, hexpand⟩ := hback.expand
  obtain ⟨soa, inserts, -, hasks, -⟩ := hback.asks
  rcases hx with ⟨u, hu, -⟩ | hx | hx
  · -- a lifetime that is put right moves no reverse entry
    obtain ⟨hu, hmoved⟩ := mem_filter.mp hu
    obtain ⟨kv, -, hu⟩ := (hback.updates h).mp
      ((expandReverse_grows hexpand).updates ▸ mem_updates_singleton.mpr hu)
    obtain ⟨-, -, -, -, hafter⟩ := mem_undoUpdates.mp hu
    rw [hafter, sameReverse, show ({ u.before with ttl := kv.2.ttl } : Record).address =
      u.before.address from rfl] at hmoved
    cases haddr : u.before.address <;> simp [haddr] at hmoved
  · have hins := (expandReverse_grows hexpand).inserts_mono x (mem_inserts_singleton.mpr hx)
    obtain ⟨hzone, hman⟩ := (Origin.fromStore h
      (show (Operation.rollback zid target info).Authored from trivial) hback.origin).inserts x hx
    obtain ⟨kv, -, -, hrest⟩ := hback.inserts h hins hman
    obtain ⟨o, n, -, hid⟩ := hrest.restored
    refine ⟨_, (hback.rewrites.rows _).mpr (.inr ⟨x, hins, rfl⟩), rfl,
      hzone.trans (hback.zone_id h), hman, fun o ho hsame => hfresh n o ho (hsame.trans ?_)⟩
    rw [hid]
    rfl
  · rw [hasks.claims] at hx
    cases hx

theorem generated_rows (h : s.Sound) (hfresh : env.Fresh s)
    (hback : RolledBack env s t zid target info z since ch w)
    (hauthored : ∀ r ∈ s.records, r.zoneID = zid → r.isManaged = false) {r : Record}
    (hr : r ∈ t.records) (hzone : r.zoneID = zid) (hman : r.isManaged = true) :
    ∃ src ∈ t.records, s.PutBack zid src ∧ s.GeneratedFor t z src r := by
  obtain ⟨hzmem, hzid⟩ := h.zoneByID_eq_ok.mp hback.zone
  have hfrom := Origin.fromStore h
    (show (Operation.rollback zid target info).Authored from trivial) hback.origin
  obtain ⟨minted, hexpand⟩ := hback.expand
  rcases (hback.rewrites.rows r).mp hr with ⟨o, ho, rfl⟩ | ⟨i, hi, rfl⟩
  · have hmem := (mem_without.mp ho).1
    obtain ⟨hsame, hsame'⟩ := hback.rewritten_same h hmem
    rw [hsame', hauthored o hmem (hsame.symm.trans hzone)] at hman
    cases hman
  · rcases (expandReverse_grows hexpand).inserts i hi with hasked | ⟨source, addr, rev, hgen⟩ |
      ⟨ptr, source, addr, rev, hins, hptr, hgen⟩
    · have hnot := (hfrom.inserts i (mem_inserts_singleton.mp hasked)).2
      rw [show i.isManaged = true from hman] at hnot
      cases hnot
    · obtain ⟨src, hsrc, hsource, hput⟩ := hback.putBack_of_expands h hfresh hgen.given
      have hrev := mem_of_reverseZoneFor hgen.spot.zone
      have hkind := Zone.kind_of_reverseOwner hgen.spot.owner
      obtain ⟨data, n, -, hi'⟩ := hgen.ptr
      have hid : rev.id = zid := by
        rw [← hzone, hi']
        rfl
      rw [h.zone_ext hrev hzmem (hid.trans hzid.symm)] at hkind
      refine ⟨src, hsrc, hput, .inl ⟨hgen.type, hkind, ?_⟩⟩
      rw [hsource, hi']
      rfl
    · obtain ⟨src, hsrc, hsource, hput⟩ := hback.putBack_of_expands h hfresh hptr.given
      obtain ⟨data', n', -, hptr'⟩ := hptr.ptr
      obtain ⟨parent, data, n, hparent, -, hi'⟩ := hgen.cname
      refine ⟨src, hsrc, hput, .inr ⟨hgen.type, rev, mem_of_reverseZoneFor hptr.spot.zone,
        Zone.kind_of_reverseOwner hptr.spot.owner, ?_, _,
        (hback.rewrites.rows _).mpr (.inr ⟨ptr, hins, rfl⟩), hptr.type, ?_, ?_, ?_⟩⟩
      · obtain ⟨name, hname, hfound⟩ := Option.bind_eq_some_iff.mp hparent
        obtain ⟨hpmem, hpname⟩ := mem_of_zoneByName hfound
        have hid : parent.id = zid := by
          rw [← hzone, hi']
          rfl
        rw [h.zone_ext hpmem hzmem (hid.trans hzid.symm)] at hpname
        rw [hname, hpname]
      · rw [hptr']
        rfl
      · rw [hsource, hptr']
        rfl
      · rw [hi']
        rfl

theorem filed (h : s.Sound) (hback : RolledBack env s t zid target info z since ch w) :
    w.cs.Filed (· ∈ s.zones) := by
  obtain ⟨minted, hexpand⟩ := hback.expand
  refine expandReverse_filed (fun _ hz => hz) (.singleton ?_ (hback.origin.under h)) hexpand
  exact (h.zoneByID_eq_ok.mp hback.zone).1

theorem pending_ne (h : s.Sound) (hback : RolledBack env s t zid target info z since ch w)
    (hne : w.cs.empty = false) : (w.cs.pending zid).empty = false := by
  have hzid := hback.zone_id h
  have hfiled := hback.filed h
  have hfrom := Origin.fromStore h
    (show (Operation.rollback zid target info).Authored from trivial) hback.origin
  obtain ⟨soa, inserts, -, hasks, -⟩ := hback.asks
  obtain ⟨minted, hexpand⟩ := hback.expand
  have hgrows := expandReverse_grows hexpand
  rw [Bool.eq_false_iff]
  intro hempty
  simp only [Changes.empty, Bool.and_eq_true, List.isEmpty_iff, Option.isNone_iff_eq_none] at hempty
  obtain ⟨⟨⟨hsoa, hdeletes⟩, hupdates⟩, hinserts⟩ := hempty
  have hpending {e : ZoneChanges} (he : e ∈ w.cs.entries) (hid : e.zone.id = zid) :
      e.changes = w.cs.pending zid := by
    rw [hfiled.changes_eq he, hid]
  have h₁ : ch.deletes = [] := by
    refine List.eq_nil_iff_forall_not_mem.mpr fun d hd => ?_
    obtain ⟨e, he, hmem⟩ := mem_deletes.mp
      (hgrows.deletes_mono d (mem_deletes_singleton.mpr hd))
    have hid := (hfiled.under e he).deletes d hmem
    rw [hpending he (hid.symm.trans ((hfrom.deletes d hd).2.1.trans hzid)), hdeletes] at hmem
    exact List.not_mem_nil hmem
  have h₂ : ch.updates = [] := by
    refine List.eq_nil_iff_forall_not_mem.mpr fun u hu => ?_
    obtain ⟨e, he, hmem⟩ := mem_updates.mp
      (hgrows.updates ▸ mem_updates_singleton.mpr hu)
    have hid := ((hfiled.under e he).updates u hmem).1
    rw [hpending he (hid.symm.trans ((hfrom.updates u hu).2.1.trans hzid)), hupdates] at hmem
    exact List.not_mem_nil hmem
  have h₃ : ch.inserts = [] := by
    refine List.eq_nil_iff_forall_not_mem.mpr fun i hi => ?_
    obtain ⟨e, he, hmem⟩ := mem_inserts.mp
      (hgrows.inserts_mono i (mem_inserts_singleton.mpr hi))
    have hid := (hfiled.under e he).inserts i hmem
    rw [hpending he (hid.symm.trans ((hfrom.inserts i hi).1.trans hzid)), hinserts] at hmem
    exact List.not_mem_nil hmem
  have h₅ : ch.soa = none := by
    have hsame := hgrows.soa zid
    rw [← hzid, pending_singleton, hzid] at hsame
    exact hsame.symm.trans hsoa
  -- nothing was asked for, so the automation had nothing to answer
  rw [expandReverse_nothing h₁ h₂ h₃ hasks.claims hexpand, empty] at hne
  simp [Changes.empty, h₁, h₂, h₃, h₅] at hne

theorem undone_same {past : List Commit} {soa : Option SOAChange} {rows : Finset Row}
    (hleads : s.Leads zid was past ⟨rows, z.soa⟩)
    (hundone : UndoneSOA z soa (firstSOA (past.flatMap events))) :
    sameSOA ((soa.map SOAChange.after).getD z.soa) was.soa = true := by
  have htold := hleads.soa
  cases hfirst : firstSOA (past.flatMap events) with
  | none =>
    rw [hfirst] at htold hundone
    rw [show soa = none from hundone]
    exact sameSOA_symm htold
  | some e =>
    rw [hfirst] at htold hundone
    obtain ⟨found, hfound, hsoa⟩ := hundone
    have hnames := Event.names_iff.mp htold found hfound
    have hafter : sameSOA { found with ttl := e.ttl, serial := z.soa.serial } was.soa = true :=
      sameSOA_symm (sameSOA_trans hnames (sameSOA_serial z.soa.serial))
    split at hsoa
    · next hsame =>
      rw [hsoa]
      exact sameSOA_trans hsame hafter
    · rw [hsoa]
      exact hafter

theorem soa_and_journal (h : s.Sound) (hback : RolledBack env s t zid target info z since ch w)
    (hleads : s.Leads zid was since ⟨s.rows zid, z.soa⟩) :
    ∃ z' ∈ t.zones, z'.id = zid ∧ sameSOA z'.soa was.soa = true ∧
      (t = s ∨ ∃ new c, t.commits = s.commits ++ new ∧
        new.filter (fun c => c.zoneID == zid) = [c] ∧ c.serialFrom = z.soa.serial ∧
          c.serialTo = z.soa.serial.next ∧ z'.soa.serial = c.serialTo) := by
  obtain ⟨hzmem, hzid⟩ := h.zoneByID_eq_ok.mp hback.zone
  obtain ⟨soa, inserts, hundone, hasks, -⟩ := hback.asks
  obtain ⟨minted, hexpand⟩ := hback.expand
  have hsoa : (w.cs.pending zid).soa = soa := by
    have hsame := (expandReverse_grows hexpand).soa z.id
    rw [pending_singleton, hzid] at hsame
    exact hsame.trans hasks.soa
  have hsame := undone_same hleads hundone
  rcases hback.wrote with ⟨hempty, rfl⟩ | ⟨hne, b, hwrote⟩
  · refine ⟨z, hzmem, hzid, ?_, .inl rfl⟩
    have hnone : soa = none := by
      rw [← hsoa, pending]
      cases hentry : w.cs.entry zid with
      | none => rfl
      | some e =>
        have hall := all_eq_true.mp hempty e (entry_eq_some hentry).1
        simp only [Changes.empty, Bool.and_eq_true, Option.isNone_iff_eq_none] at hall
        exact hall.1.1.1
    rw [hnone] at hsame
    exact hsame
  · obtain ⟨followed, commits, n, hrun, hcommits⟩ := hwrote.commits
    rw [Option.toList_none, nil_append] at hcommits
    obtain ⟨z', hz', hid', hsoa'⟩ := Batch.write_zone h hwrote.zones hwrote.write hzmem
    rw [hzid, hcommits, hwrote.set] at hsoa'
    rcases planCommits_of_zone (hback.filed h) hrun zid with ⟨hnone, -⟩ |
      ⟨-, e, he, hezone, c, k, hplan, hone⟩
    · rw [hback.pending_ne h hne] at hnone
      cases hnone
    · have hez : e.zone = z := h.zone_ext ((hback.filed h).zones e he) hzmem (hezone.trans hzid.symm)
      obtain ⟨hfrom, hto⟩ := planCommit_serials (.inr (by decide)) hplan
      rw [hez] at hfrom hto
      rw [hone, foldl_cons, foldl_nil] at hsoa'
      refine ⟨z', hz', hid'.trans hzid, ?_, .inr ⟨b.commits.map (stampedCommit env.now),
        stampedCommit env.now c, (Batch.write_commits hwrote.write).1, ?_, ?_, ?_, ?_⟩⟩
      · rw [hsoa', soaAfter, hsoa]
        cases soa with
        | none => exact sameSOA_trans (sameSOA_symm (sameSOA_serial c.serialTo)) hsame
        | some change => exact sameSOA_trans (sameSOA_symm (sameSOA_serial c.serialTo)) hsame
      · have hcomp : ((fun c : Commit => c.zoneID == zid) ∘ stampedCommit env.now) =
            fun c => c.zoneID == zid := funext fun c => by simp
        rw [hcommits, filter_map, hcomp, hone]
        rfl
      · rw [stampedCommit_serialFrom, hfrom]
      · rw [stampedCommit_serialTo, hto]
      · rw [stampedCommit_serialTo, hsoa', soaAfter]
        split <;> rfl

end Env.RolledBack

/-- A zone taken back to a version: its authored rows and its start of authority are
those of the version, what else it holds was generated for a record that was put back,
and if anything has changed there is one commit more for the zone, one step on, and
nothing of the journal before it is touched. -/
structure Store.RestoredTo (s t : Store) (z : Zone) (was : Version) : Prop where
  rows : ∀ ρ, (∃ r ∈ t.records, r.zoneID = z.id ∧ r.isManaged = false ∧ r.row = ρ) ↔ ρ ∈ was.rows
  generated : ∀ r ∈ t.records, r.zoneID = z.id → r.isManaged = true →
    ∃ src ∈ t.records, s.PutBack z.id src ∧ s.GeneratedFor t z src r
  soa : ∃ z' ∈ t.zones, z'.id = z.id ∧ sameSOA z'.soa was.soa = true ∧
    (t = s ∨ ∃ new c, t.commits = s.commits ++ new ∧
      new.filter (fun c => c.zoneID == z.id) = [c] ∧ c.serialFrom = z.soa.serial ∧
        c.serialTo = z.soa.serial.next ∧ z'.soa.serial = c.serialTo)

namespace Sample

def later (v : Version) (commits : List Commit) : Version :=
  commits.foldl (fun v c => ⟨replay v.rows c.entries, { v.soa with serial := c.serialTo }⟩) v

def follows (s : Store) (zid : ZoneID) (was : Version) : Version → List Commit → Bool
  | _, [] => true
  | v, c :: rest =>
    decide (c ∈ s.commits ∧ c.zoneID = zid ∧ c.Faithful v (later v [c]) ∧
      c.serialTo ≠ was.soa.serial) && follows s zid was (later v [c]) rest

variable {s s₀ : Store} {commits : List Commit}

theorem leads_of_follows {zid : ZoneID} {was v : Version} {past : List Commit}
    (hpast : s.Leads zid was past v) (h : follows s zid was v commits = true) :
    s.Leads zid was (past ++ commits) (later v commits) := by
  induction commits generalizing past v with
  | nil => rwa [append_nil]
  | cons head tail ih =>
    rw [follows, Bool.and_eq_true, decide_eq_true_eq] at h
    obtain ⟨⟨hmem, hzone, hfaithful, hnew⟩, hrest⟩ := h
    have hall := ih (.step hpast hmem hzone hfaithful hnew) hrest
    rwa [append_assoc, singleton_append] at hall

def network (auto : Bool) : Zone :=
  { zone 2 ["2", "0", "192", "in-addr", "arpa"] with autoReverse := some auto }

def inside : List (Nat × Operation) :=
  [(1000, .createZone (network false)
      [record 11 2 ["2", "0", "192", "in-addr", "arpa"] typeNS "ns."] info),
    (2000, edit 2 [.add (record 12 2 ["a", "2", "0", "192", "in-addr", "arpa"] typeA "192.0.2.10")])]

def switched (auto : Bool) : List (Nat × Operation) :=
  [(3000, edit 2 [.delete (.ulid 12)]), (4000, .updateZone (network auto) info)]

def around (auto : Bool) : Except Err (Store × Store) := do
  let s₀ ← performAll blank (steps inside)
  let s ← performAll s₀ (steps (switched auto))
  pure (s₀, s)

theorem around_eq_ok {auto : Bool} :
    around auto = .ok (s₀, s) ↔ performAll blank (steps inside) = .ok s₀ ∧
      performAll s₀ (steps (switched auto)) = .ok s := by
  simp only [around, bind_eq_ok]
  constructor
  · intro h
    obtain ⟨_, h₀, _, h₁, hout⟩ := h
    cases hout
    exact ⟨h₀, h₁⟩
  · intro h
    exact ⟨s₀, h.1, s, h.2, rfl⟩

def goesBack (s₀ s : Store) (z₀ z : Zone) (commits : List Commit) : Prop :=
  z₀ ∈ s₀.zones ∧ z ∈ s.zones ∧ older 5000 s = true ∧
    (⟨s₀.rows z.id, z₀.soa⟩ : Version).Canonical WireLibrary.plain ∧
    (∀ r ∈ s₀.records ++ s.records, r.zoneID = z.id → r.isManaged = false) ∧
    follows s z.id ⟨s₀.rows z.id, z₀.soa⟩ ⟨s₀.rows z.id, z₀.soa⟩ commits = true ∧
    (later ⟨s₀.rows z.id, z₀.soa⟩ commits).rows = s.rows z.id ∧
    (later ⟨s₀.rows z.id, z₀.soa⟩ commits).soa = z.soa

instance {s₀ s : Store} {z₀ z : Zone} {commits : List Commit} :
    Decidable (goesBack s₀ s z₀ z commits) :=
  inferInstanceAs (Decidable (_ ∧ _ ∧ _ ∧ (∀ ρ ∈ s₀.rows z.id, _) ∧ _))

theorem leads_of_goesBack {z₀ z : Zone} (h : goesBack s₀ s z₀ z commits) :
    s.Leads z.id ⟨s₀.rows z.id, z₀.soa⟩ commits ⟨s.rows z.id, z.soa⟩ := by
  obtain ⟨-, -, -, -, -, hfollows, hrows, hsoa⟩ := h
  have hleads := leads_of_follows .here hfollows
  rw [← hrows, ← hsoa]
  exact hleads

end Sample

/-- A rollback of a zone without generated records, over a history of faithful commits,
is refused and changes nothing, or gives the zone the version it goes back to. -/
theorem rollback_restores_version {before later : List (Env × Operation)} {env : Env}
    {s₀ s : Store} {z₀ z : Zone} {past : List Commit} (info : Meta)
    (hbefore : performAll blank before = .ok s₀) (hlater : performAll s₀ later = .ok s)
    (hfresh : env.Fresh s) (hz : z ∈ s.zones)
    (hcanonical : (⟨s₀.rows z.id, z₀.soa⟩ : Version).Canonical env.lib)
    (hauthored : ∀ r ∈ s.records, r.zoneID = z.id → r.isManaged = false)
    (hleads : s.Leads z.id ⟨s₀.rows z.id, z₀.soa⟩ past ⟨s.rows z.id, z.soa⟩) :
    (∃ e, env.perform s (.rollback z.id z₀.soa.serial info) = .error e) ∧
        env.after s (.rollback z.id z₀.soa.serial info) = s ∨
      s.RestoredTo (env.after s (.rollback z.id z₀.soa.serial info)) z
        ⟨s₀.rows z.id, z₀.soa⟩ := by
  have h₀ := performAll_sound hbefore
  have h := performAll_sound (performAll_append.mpr ⟨s₀, hbefore, hlater⟩)
  have hkeyed := h₀.rows_keyed z.id
  have hfound : s.zoneByID z.id = .ok z := h.zoneByID_eq_ok.mpr ⟨hz, rfl⟩
  rw [Env.after]
  cases hok : env.perform s (.rollback z.id z₀.soa.serial info) with
  | error e => exact .inl ⟨⟨e, rfl⟩, rfl⟩
  | ok out =>
    obtain ⟨t, res⟩ := out
    refine .inr ?_
    rcases Env.perform_rollback hok with ⟨z', hz', htarget, rfl⟩ | ⟨z', since, ch, w, -, hback⟩
    · -- the zone still is at the serial, so the way there is empty
      rw [hfound] at hz'
      cases hz'
      have hsame := hleads.eq_of_serial htarget.symm
      rw [Version.mk.injEq] at hsame
      refine ⟨fun ρ => ?_, fun r hr hzone hman => ?_,
        ⟨z, hz, rfl, by rw [hsame.2]; exact sameSOA_serial z₀.soa.serial, .inl rfl⟩⟩
      · rw [← hsame.1, mem_rows]
        constructor
        · intro hr
          obtain ⟨r, hr, hzone, -, hrow⟩ := hr
          exact ⟨r, hr, hzone, hrow⟩
        · intro hr
          obtain ⟨r, hr, hzone, hrow⟩ := hr
          exact ⟨r, hr, hzone, hauthored r hr hzone, hrow⟩
      · rw [hauthored r hr hzone] at hman
        cases hman
    · have hzz := hback.zone
      rw [hfound] at hzz
      cases hzz
      obtain rfl := hleads.commitsBetween h hback.range
      have htold := hleads.toldBy hkeyed
      exact ⟨fun ρ => hback.authored_rows h hfresh hauthored htold hcanonical,
        fun r hr hzone hman => hback.generated_rows h hfresh hauthored hr hzone hman,
        hback.soa_and_journal h hleads⟩

/-- An address that was deleted comes back. -/
theorem rollback_restores_version_address :
    ∃ s₀ s, around false = .ok (s₀, s) ∧ ∃ z₀ ∈ s₀.zones, ∃ z ∈ s.zones,
      (envAt 5000).after s (.rollback z.id z₀.soa.serial info) ≠ s ∧
      ((∃ e, (envAt 5000).perform s (.rollback z.id z₀.soa.serial info) = .error e) ∧
          (envAt 5000).after s (.rollback z.id z₀.soa.serial info) = s ∨
        s.RestoredTo ((envAt 5000).after s (.rollback z.id z₀.soa.serial info)) z
          ⟨s₀.rows z.id, z₀.soa⟩) := by
  obtain ⟨⟨s₀, s⟩, hstages, hmeets⟩ := ok_of_any
    (show (around false).toOption.any (fun (s₀, s) =>
      decide (∃ z₀ ∈ s₀.zones, ∃ z ∈ s.zones, goesBack s₀ s z₀ z (s.commits.drop 2) ∧
        (envAt 5000).after s (.rollback z.id z₀.soa.serial info) ≠ s)) = true by
        decide +kernel)
  obtain ⟨z₀, hz₀, z, hz, hback, hne⟩ := of_decide_eq_true hmeets
  obtain ⟨hbefore, hlater⟩ := around_eq_ok.mp hstages
  obtain ⟨-, -, holder, hcanonical, hauthored, -⟩ := id hback
  have hfresh := fresh_of_older (by decide) holder
  exact ⟨s₀, s, hstages, z₀, hz₀, z, hz, hne, rollback_restores_version info hbefore hlater
    hfresh hz hcanonical (fun r hr => hauthored r (mem_append_right _ hr))
    (leads_of_goesBack hback)⟩

/-- Where the automation has been switched on since, it answers for the address that
comes back, and the zone holds an entry it did not hold before. -/
theorem rollback_adds_generated_ptr :
    ∃ s₀ s t, performAll blank (steps inside) = .ok s₀ ∧
      performAll s₀ (steps (switched true)) = .ok s ∧ (envAt 5000).Fresh s ∧
      ∃ z₀ ∈ s₀.zones, ∃ z ∈ s.zones,
        (⟨s₀.rows z.id, z₀.soa⟩ : Version).Canonical WireLibrary.plain ∧
        (∀ r ∈ s₀.records ++ s.records, r.zoneID = z.id → r.isManaged = false) ∧
        (∃ past, s.Leads z.id ⟨s₀.rows z.id, z₀.soa⟩ past ⟨s.rows z.id, z.soa⟩) ∧
        (∃ res, (envAt 5000).perform s (.rollback z.id z₀.soa.serial info) =
          .ok (t, res)) ∧
        t.rows z.id ≠ s₀.rows z.id := by
  obtain ⟨⟨s₀, s⟩, hstages, hmeets⟩ := ok_of_any
    (show (around true).toOption.any (fun (s₀, s) =>
      decide (∃ z₀ ∈ s₀.zones, ∃ z ∈ s.zones, goesBack s₀ s z₀ z (s.commits.drop 2) ∧
        ((envAt 5000).perform s (.rollback z.id z₀.soa.serial info)).toOption.any
          (fun out => decide (out.1.rows z.id ≠ s₀.rows z.id)) = true)) = true by
        decide +kernel)
  obtain ⟨z₀, hz₀, z, hz, hback, hany⟩ := of_decide_eq_true hmeets
  obtain ⟨hbefore, hlater⟩ := around_eq_ok.mp hstages
  obtain ⟨⟨t, res⟩, hok, hne⟩ := ok_of_any hany
  obtain ⟨-, -, holder, hcanonical, hauthored, -⟩ := id hback
  exact ⟨s₀, s, t, hbefore, hlater, fresh_of_older (by decide) holder, z₀, hz₀, z, hz,
    hcanonical, hauthored, ⟨_, leads_of_goesBack hback⟩, ⟨res, hok⟩, of_decide_eq_true hne⟩

end Wegweiser
