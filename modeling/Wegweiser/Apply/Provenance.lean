/-
Generated records and the records they were generated from.

A generated PTR tells what its source says now, in every state that accepted
operations lead to.
-/
import Wegweiser.Apply.Authored
import Wegweiser.Zone.Text
import Wegweiser.Zone.Valid

namespace Wegweiser

open Checked List Sample Store Record ChangeSet

namespace Zone

variable {a b z : Zone}

theorem check_eq_ok (h : z.check = .ok ()) :
    z.id.valid = true ∧
      (z.kind = .forward ∧ z.netPrefix = none ∧ isReverseName z.name = false ∨
        z.kind = .reverse ∧ isReverseName z.name = true ∧
          ∃ p, parseReversePrefix z.name = .ok p ∧ z.netPrefix = some p) := by
  simp only [check, validate, bind_eq_ok, ensure_eq_ok] at h
  obtain ⟨-, hid, -, -, -, -, h⟩ := h
  refine ⟨hid, ?_⟩
  cases hkind : z.kind with
  | forward =>
    simp only [hkind, bind_eq_ok, ensure_eq_ok] at h
    obtain ⟨-, hnone, hname⟩ := h
    exact .inl ⟨rfl, by simpa using hnone, by simpa using hname⟩
  | reverse =>
    simp only [hkind, bind_eq_ok, ensure_eq_ok] at h
    obtain ⟨-, -, p, hp, hprefix⟩ := h
    exact .inr ⟨rfl, isReverseName_of_parse hp, p, hp, (beq_iff_eq.mp hprefix).symm⟩

theorem reverseOwner_congr (ha : a.check = .ok ()) (hb : b.check = .ok ())
    (hname : a.name = b.name) (addr : Addr) : a.reverseOwner addr = b.reverseOwner addr := by
  have hsame : a.kind = b.kind ∧ a.netPrefix = b.netPrefix := by
    rcases (check_eq_ok ha).2 with ⟨ka, pa, na⟩ | ⟨ka, na, p, hp, pa⟩
    · rcases (check_eq_ok hb).2 with ⟨kb, pb, -⟩ | ⟨-, nb, -⟩
      · exact ⟨ka.trans kb.symm, pa.trans pb.symm⟩
      · rw [hname, nb] at na
        cases na
    · rcases (check_eq_ok hb).2 with ⟨-, -, nb⟩ | ⟨kb, -, q, hq, pb⟩
      · rw [hname, nb] at na
        cases na
      · rw [hname, hq] at hp
        cases hp
        exact ⟨ka.trans kb.symm, pa.trans pb.symm⟩
  simp only [reverseOwner, prefixContains, hsame.1, hsame.2, hname]

end Zone

/-- The entry a generated PTR is, seen from the record it was generated from. -/
structure Store.Reverses (s : Store) (p src : Record) : Prop where
  source : src.id = p.managedBy
  enabled : src.disabled = false
  data : p.rdata.text = src.name.string
  owner : ∃ addr, src.address = some addr ∧
    ∃ z ∈ s.zones, z.id = p.zoneID ∧ z.kind = .reverse ∧ z.reverseOwner addr = .ok p.name

def Store.PTRsFollow (s : Store) : Prop :=
  ∀ p ∈ s.records, p.managedKind = some .ptr → ∃ src ∈ s.records, s.Reverses p src

variable {r : Record} {addr : Addr}

theorem Record.type_of_address (h : r.address = some addr) :
    r.type = typeA ∨ r.type = typeAAAA := by
  by_contra hnot
  rw [not_or] at hnot
  rw [Env.address_eq_none hnot.1 hnot.2] at h
  cases h

theorem Zone.kind_of_reverseOwner {z : Zone} {n : Name}
    (h : z.reverseOwner addr = .ok n) : z.kind = .reverse := by
  simp only [reverseOwner, bind_eq_ok, ensure_eq_ok, beq_iff_eq] at h
  obtain ⟨-, hkind, -⟩ := h
  exact hkind

theorem Record.managedKind_of_check (h : r.check = .ok ()) :
    r.isManaged = false ↔ r.managedKind = none := by
  simp only [check, validate, bind_eq_ok, ensure_eq_ok] at h
  obtain ⟨-, -, -, -, -, -, -, -, hboth⟩ := h
  rw [beq_iff_eq] at hboth
  rw [isManaged, bne_eq_false_iff_eq, ← beq_iff_eq, hboth]
  simp

theorem Record.id_ne_empty (h : r.check = .ok ()) : r.id ≠ .empty := by
  simp only [check, bind_eq_ok, ensure_eq_ok] at h
  obtain ⟨-, hid, -⟩ := h
  exact Ident.ne_empty_of_valid hid

/-- `id.New` hands out nothing the records already use. -/
def Env.Fresh (env : Env) (s : Store) : Prop :=
  ∀ n, ∀ r ∈ s.records, r.id ≠ env.mint n

namespace Env

variable {env : Env} {s t : Store} {G : Record → Prop} {cs : ChangeSet} {z : Zone} {ch : Changes}
  {w : Work}

/-- What the provenance of the records depends on in a change set: rewritten rows
are authored afterwards, what hung off a row that reverses otherwise now goes,
and what comes in is authored or generated for one of the records `G`. -/
structure Settles (env : Env) (s : Store) (G : Record → Prop) (cs : ChangeSet) : Prop where
  updates : ∀ u ∈ cs.updates, u.before ∈ s.records ∧ u.after.id = u.before.id ∧
    u.after.managedKind = none
  retired : ∀ u ∈ cs.updates, sameReverse u.before u.after = false → retirable u.before.type →
    ∀ x ∈ s.records, x.source = some u.before.id → x ∈ cs.deletes
  inserts : ∀ i ∈ cs.inserts, i.managedKind = none ∨
    (∃ source addr rev, NewPTR env s G i source addr rev) ∨
    ∃ ptr source addr rev, ptr ∈ cs.inserts ∧ NewPTR env s G ptr source addr rev ∧
      NewCNAME env s i ptr addr rev

theorem Settles.of_grows (hgrows : Work.Grows env s G Work.blank w) : Settles env s G w.cs where
  updates _ hu := absurd (hgrows.updates ▸ hu) not_mem_nil
  retired _ hu := absurd (hgrows.updates ▸ hu) not_mem_nil
  inserts i hi := (hgrows.inserts i hi).imp_left fun h => absurd h not_mem_nil

section Singleton

variable {policy : Option Policy} {res : Result} {minted : Nat}

theorem mem_updates_singleton {u : RecordUpdate} :
    u ∈ (⟨[⟨z, ch⟩], policy⟩ : ChangeSet).updates ↔ u ∈ ch.updates := by
  simp [updates]

variable {x : Record}

theorem mem_deletes_singleton : x ∈ (⟨[⟨z, ch⟩], policy⟩ : ChangeSet).deletes ↔ x ∈ ch.deletes := by
  simp [deletes, gather]

theorem mem_inserts_singleton : x ∈ (⟨[⟨z, ch⟩], policy⟩ : ChangeSet).inserts ↔ x ∈ ch.inserts := by
  simp [inserts, gather]

theorem expandReverse_singleton (hon : env.autoReverse z = true)
    (hok : env.expandReverse s ⟨⟨[⟨z, ch⟩], policy⟩, res, minted⟩ z = .ok w) :
    Expanded env s ch ⟨⟨[⟨z, ch⟩], policy⟩, res, minted⟩ w := by
  have hexpanded := expandReverse_expanded hon (fun x hx => by
    rw [pending_singleton]
    exact mem_inserts_singleton.mp hx) hok
  rwa [pending_singleton] at hexpanded

theorem expandReverse_grows
    (hok : env.expandReverse s ⟨⟨[⟨z, ch⟩], policy⟩, res, minted⟩ z = .ok w) :
    Work.Grows env s (Expands ch) ⟨⟨[⟨z, ch⟩], policy⟩, res, minted⟩ w := by
  by_cases hon : env.autoReverse z = true
  · exact (expandReverse_singleton hon hok).grows
  · rw [expandReverse_off (Bool.eq_false_iff.mpr hon) hok]
    exact Work.Grows.refl

theorem hangs_of_source {id : RecordID} (h : x.source = some id) : s.Hangs (· = id) x :=
  ⟨id, h, .root rfl⟩

theorem Settles.of_expanded (h : s.Sound) (hfrom : ch.FromStore s z)
    (hexp : Expanded env s ch ⟨⟨[⟨z, ch⟩], policy⟩, res, minted⟩ w)
    (hcheck : ∀ i ∈ w.cs.inserts, i.check = .ok ()) : Settles env s (Expands ch) w.cs := by
  have hupdates {u : RecordUpdate} (hu : u ∈ w.cs.updates) : u ∈ ch.updates :=
    mem_updates_singleton.mp (hexp.grows.updates ▸ hu)
  constructor
  case updates =>
    intro u hu
    obtain ⟨hmem, -, hid, -, hkind⟩ := hfrom.updates u (hupdates hu)
    refine ⟨hmem, hid, ?_⟩
    rcases hkind with ⟨hauthored, -, hkind⟩ | hdetached
    · rw [hkind]
      exact (managedKind_of_check (h.records _ hmem)).mp hauthored
    · rw [hdetached]
      rfl
  case retired =>
    intro u hu hmoved htype x hx hsource
    refine hexp.below_moved u ?_ htype x hx (hangs_of_source hsource)
    exact mem_filter.mpr ⟨hupdates hu, by simp [hmoved]⟩
  case inserts =>
    intro i hi
    refine (hexp.grows.inserts i hi).imp_left fun hasked => ?_
    have hauthored := (hfrom.inserts i (mem_inserts_singleton.mp hasked)).2
    exact (managedKind_of_check (hcheck i hi)).mp hauthored

end Singleton

variable {o : Record}

theorem Settles.row (h : s.Sound) (now : Nat) (hset : Settles env s G cs) (ho : o ∈ s.records) :
    rewrittenRow now cs.updates o = o ∨ ∃ u ∈ cs.updates, u.before = o ∧
      ∃ created, rewrittenRow now cs.updates o =
        { u.after with createdAt := created, updatedAt := now } := by
  rcases rewrittenRow_cases cs.updates o with ⟨hsame, -⟩ | ⟨u, hu, hid, hrow⟩
  · exact .inl hsame
  · obtain ⟨hmem, hafter, -⟩ := hset.updates u hu
    exact .inr ⟨u, hu, h.record_ext hmem ho (hafter.symm.trans hid), hrow⟩

theorem Settles.generated (h : s.Sound) {now : Nat} (hset : Settles env s G cs)
    (hrw : cs.Rewrites now s t) (ho : o ∈ s.without cs.gone)
    (hkind : (rewrittenRow now cs.updates o).managedKind ≠ none) :
    rewrittenRow now cs.updates o = o ∧ ∀ src ∈ s.records, src.id = o.managedBy →
      rewrittenRow now cs.updates src ∈ t.records ∧
        (rewrittenRow now cs.updates src = src ∨ ∃ u ∈ cs.updates, u.before = src ∧
          (∃ created, rewrittenRow now cs.updates src =
            { u.after with createdAt := created, updatedAt := now }) ∧
          (retirable src.type → sameReverse u.before u.after = true)) := by
  have hmem := (mem_without.mp ho).1
  have hsame : rewrittenRow now cs.updates o = o := by
    rcases hset.row h now hmem with hsame | ⟨u, hu, -, created, hrow⟩
    · exact hsame
    · rw [hrow] at hkind
      exact absurd (hset.updates u hu).2.2 hkind
  refine ⟨hsame, fun src hsrc hid => ?_⟩
  have hmanaged : o.managedBy ≠ .empty := by
    rw [← hid]
    exact id_ne_empty (h.records src hsrc)
  obtain ⟨src', hsrc', hid'⟩ := h.source_of_kept ho hmanaged
  obtain rfl := h.record_ext (mem_without.mp hsrc').1 hsrc (hid'.trans hid.symm)
  refine ⟨(hrw.rows _).mpr (.inl ⟨_, hsrc', rfl⟩), ?_⟩
  rcases hset.row h now hsrc with hsame | ⟨u, hu, rfl, hrow⟩
  · exact .inl hsame
  · refine .inr ⟨u, hu, rfl, hrow, fun htype => ?_⟩
    by_contra hmoved
    -- the row would go with what the automation retires
    have hsource : o.source = some u.before.id := by
      rw [source, if_neg hmanaged, hid]
    have hgone := hset.retired u hu (Bool.eq_false_iff.mpr hmoved) htype o hmem hsource
    exact (mem_without.mp ho).2 (.root (mem_map_of_mem hgone))

end Env

namespace Store

variable {s t : Store} {env : Env} {G : Record → Prop} {cs : ChangeSet} {now : Nat}

theorem Sound.reverseOwner_kept (h : s.Sound) (ht : t.Sound) (hnames : s.KeepsNames t)
    {p : Record} (hp : p ∈ t.records) {z : Zone} (hz : z ∈ s.zones) (hid : z.id = p.zoneID)
    {addr : Addr} (howner : z.reverseOwner addr = .ok p.name) :
    ∃ z ∈ t.zones, z.id = p.zoneID ∧ z.kind = .reverse ∧ z.reverseOwner addr = .ok p.name := by
  obtain ⟨z', hz', hid'⟩ := ht.record_zones p hp
  have hname := hnames z hz z' hz' (hid.trans hid'.symm)
  have howner' : z'.reverseOwner addr = .ok p.name := by
    rw [← howner]
    exact (Zone.reverseOwner_congr (h.zones z hz) (ht.zones z' hz') hname addr).symm
  exact ⟨z', hz', hid', Zone.kind_of_reverseOwner howner', howner'⟩

theorem PTRsFollow.of_subset (h : s.Sound) (ht : t.Sound) (hnames : s.KeepsNames t)
    (hsub : ∀ r ∈ t.records, r ∈ s.records) (hinv : s.PTRsFollow) : t.PTRsFollow := by
  intro p hp hkind
  obtain ⟨src, hsrc, hrev⟩ := hinv p (hsub p hp) hkind
  have hmanaged : p.managedBy ≠ .empty := by
    rw [← hrev.source]
    exact id_ne_empty (h.records src hsrc)
  obtain ⟨o, ho, hid⟩ := ht.record_sources p hp hmanaged
  obtain rfl := h.record_ext (hsub o ho) hsrc (hid.trans hrev.source.symm)
  obtain ⟨addr, haddr, z, hz, hzid, -, howner⟩ := hrev.owner
  exact ⟨o, ho, hrev.source, hrev.enabled, hrev.data, addr, haddr,
    h.reverseOwner_kept ht hnames hp hz hzid howner⟩

theorem PTRsFollow.rewrites (h : s.Sound) (ht : t.Sound) (hnames : s.KeepsNames t)
    (hlib : env.lib.ReadsNames) (hset : Env.Settles env s G cs) (hrw : cs.Rewrites now s t)
    (hgiven : ∀ x, G x → x.isManaged = false → ∃ row ∈ t.records, row.id = x.id ∧
      row.name = x.name ∧ row.address = x.address ∧ row.disabled = x.disabled)
    (hinv : s.PTRsFollow) : t.PTRsFollow := by
  intro p hp hkind
  rcases (hrw.rows p).mp hp with ⟨o, ho, hrow⟩ | ⟨i, hi, hrow⟩
  · have hne : (rewrittenRow now cs.updates o).managedKind ≠ none := by
      rw [← hrow, hkind]
      simp
    obtain ⟨hsame, hsources⟩ := hset.generated h hrw ho hne
    obtain rfl : p = o := hrow.trans hsame
    obtain ⟨src, hsrc, hrev⟩ := hinv p (mem_without.mp ho).1 hkind
    obtain ⟨addr, haddr, z, hz, hzid, -, howner⟩ := hrev.owner
    have hplace := h.reverseOwner_kept ht hnames hp hz hzid howner
    obtain ⟨hmem, hsrcrow | ⟨u, hu, rfl, ⟨created, hsrcrow⟩, hmoved⟩⟩ :=
      hsources src hsrc hrev.source
    · rw [hsrcrow] at hmem
      exact ⟨src, hmem, hrev.source, hrev.enabled, hrev.data, addr, haddr, hplace⟩
    · -- the source was rewritten, but not in what its entry depends on
      have htype : Env.retirable u.before.type := by
        rcases type_of_address haddr with htype | htype
        · exact .inl htype
        · exact .inr (.inl htype)
      have hreverse := hmoved htype
      rw [hsrcrow] at hmem
      rw [sameReverse, haddr] at hreverse
      cases hafter : u.after.address with
      | none => simp [hafter] at hreverse
      | some addr' =>
        simp only [hafter, Bool.and_eq_true, beq_iff_eq] at hreverse
        obtain ⟨⟨rfl, hname⟩, hdisabled⟩ := hreverse
        refine ⟨_, hmem, (hset.updates u hu).2.1.trans hrev.source, ?_, ?_, addr, hafter, hplace⟩
        · exact hdisabled.symm.trans hrev.enabled
        · rw [hrev.data, hname]
  · rw [hrow] at hkind
    rcases hset.inserts i hi with hnone | ⟨source, addr, rev, hnew⟩ |
      ⟨ptr, source, addr, rev, -, -, hcname⟩
    · rw [show (insertedRow now i).managedKind = i.managedKind from rfl, hnone] at hkind
      cases hkind
    · obtain ⟨row, hmem, hid, hname, haddress, hdisabled⟩ :=
        hgiven source hnew.given hnew.spot.authored
      obtain ⟨data, n, hdata, hi'⟩ := hnew.ptr
      have hzone := hnew.spot.zone
      have hmanagedBy : p.managedBy = source.id := by rw [hrow, hi']; rfl
      have hrdata : p.rdata = data := by rw [hrow, hi']; rfl
      have hzoneID : rev.id = p.zoneID := by rw [hrow, hi']; rfl
      have hpname : p.name = i.name := by rw [hrow]; rfl
      refine ⟨row, hmem, hid.trans hmanagedBy.symm, hdisabled.trans hnew.spot.enabled, ?_, addr,
        haddress.trans hnew.spot.address, ?_⟩
      · rw [hrdata, hlib.parseRData_text (.inl rfl) hdata, hname]
      · refine h.reverseOwner_kept ht hnames hp (mem_of_reverseZoneFor hzone) hzoneID ?_
        rw [hpname]
        exact hnew.spot.owner
    · obtain ⟨parent, data, n, -, -, hi'⟩ := hcname.cname
      rw [hi'] at hkind
      cases hkind

end Store

namespace Env

variable {env : Env} {s t : Store} {G : Record → Prop} {z : Zone} {ch : Changes} {w w₀ : Work}
  {now : Nat}

variable {d x : Record} {u : RecordUpdate}

theorem taken_of_deletes (hfresh : env.Fresh s) (hgrows : Work.Grows env s G w₀ w)
    (hupdates : ∀ u ∈ w₀.cs.updates, u.after.isManaged = false)
    (hex : ∀ d ∈ w.cs.deletes, ∃ o ∈ s.records, o.id = d.id) (hd : d ∈ w.cs.deletes) :
    d ∈ w₀.cs.deletes ∨ d.isManaged = true ∧ (d ∈ s.records ∨ d ∈ w₀.cs.inserts) := by
  rcases hgrows.deletes d hd with hasked | ⟨hmanaged, hstored | harriving | ⟨u, hu, rfl⟩⟩
  · exact .inl hasked
  · exact .inr ⟨hmanaged, .inl hstored⟩
  · obtain ⟨o, ho, hid⟩ := hex d hd
    rcases hgrows.inserts d harriving with hasked | ⟨source, addr, rev, hnew⟩ |
      ⟨ptr, source, addr, rev, -, -, hnew⟩
    · exact .inr ⟨hmanaged, .inr hasked⟩
    · obtain ⟨data, n, -, hd'⟩ := hnew.ptr
      exact absurd (hid.trans (by rw [hd']; rfl)) (hfresh n o ho)
    · obtain ⟨parent, data, n, -, -, hd'⟩ := hnew.cname
      exact absurd (hid.trans (by rw [hd']; rfl)) (hfresh n o ho)
  · rw [hupdates u (hgrows.updates ▸ hu)] at hmanaged
    cases hmanaged

theorem stored_of_deletes (hfresh : env.Fresh s) (hgrows : Work.Grows env s G w₀ w)
    (hinserts : ∀ i ∈ w₀.cs.inserts, i.isManaged = false)
    (hupdates : ∀ u ∈ w₀.cs.updates, u.after.isManaged = false)
    (hex : ∀ d ∈ w.cs.deletes, ∃ o ∈ s.records, o.id = d.id)
    (hd : d ∈ w.cs.deletes) : d ∈ w₀.cs.deletes ∨ d.isManaged = true ∧ d ∈ s.records := by
  rcases taken_of_deletes hfresh hgrows hupdates hex hd with hasked | ⟨hmanaged, hstored | hcame⟩
  · exact .inl hasked
  · exact .inr ⟨hmanaged, hstored⟩
  · rw [hinserts d hcame] at hmanaged
    cases hmanaged

theorem authored_kept (h : s.Sound) {cs : ChangeSet} {r : Record} (hr : r ∈ s.records)
    (hauthored : r.isManaged = false)
    (hdeletes : ∀ d ∈ cs.deletes, d.id ≠ r.id) : r ∈ s.without cs.gone := by
  refine mem_without.mpr ⟨hr, fun hbelow => ?_⟩
  rcases Links.below_row hbelow with hroot | ⟨o, ho, hid, p, hsource, -⟩
  · obtain ⟨d, hd, hid⟩ := mem_map.mp hroot
    exact hdeletes d hd hid
  · rw [h.record_ext ho hr hid] at hsource
    rw [isManaged_of_source hsource] at hauthored
    cases hauthored

theorem authored_of_rewrite
    (h : u.before.isManaged = false ∧ u.after.managedBy = u.before.managedBy ∧
        u.after.managedKind = u.before.managedKind ∨ u.after = RecordOp.detached u.before) :
    u.after.isManaged = false := by
  rcases h with ⟨hauthored, hkept, -⟩ | hdetached
  · rw [isManaged, hkept]
    exact hauthored
  · rw [hdetached]
    rfl

theorem updates_authored (hfrom : ch.FromStore s z)
    (hu : u ∈ ch.updates) : u.after.isManaged = false :=
  authored_of_rewrite (hfrom.updates u hu).2.2.2.2

theorem Expanded.given {policy : Option Policy} {res : Result} {minted : Nat} (h : s.Sound)
    (hfresh : env.Fresh s) (hfrom : ch.FromStore s z) (hapart : ch.Apart)
    (hexp : Expanded env s ch ⟨⟨[⟨z, ch⟩], policy⟩, res, minted⟩ w)
    (hrw : w.cs.Rewrites now s t) (hx : Expands ch x) :
    ∃ row ∈ t.records, row.id = x.id ∧ row.name = x.name ∧ row.address = x.address ∧
      row.disabled = x.disabled := by
  have hupdates {u : RecordUpdate} : u ∈ w.cs.updates ↔ u ∈ ch.updates :=
    by rw [hexp.grows.updates, mem_updates_singleton]
  rcases hx with ⟨u, hu, rfl⟩ | hx | hx
  · have humem := (mem_filter.mp hu).1
    obtain ⟨-, o, ho, hid⟩ := hrw.updates u (hupdates.mpr humem)
    obtain ⟨created, hrow⟩ := rewrittenRow_of_mem (hupdates.mpr humem)
      (fun v hv hvid => hapart.updates u hu v (hupdates.mp hv) hvid) hid.symm
    refine ⟨_, (hrw.rows _).mpr (.inl ⟨o, ho, rfl⟩), ?_⟩
    rw [hrow]
    exact ⟨rfl, rfl, rfl, rfl⟩
  · have hins := hexp.grows.inserts_mono x (mem_inserts_singleton.mpr hx)
    exact ⟨_, (hrw.rows _).mpr (.inr ⟨x, hins, rfl⟩), rfl, rfl, rfl, rfl⟩
  · obtain ⟨hmem, -, hauthored⟩ := hfrom.claims x hx
    obtain ⟨hdeletes, hnone⟩ := hapart.claims x hx
    have hkept : x ∈ s.without w.cs.gone := by
      refine authored_kept h hmem hauthored fun d hd hid => ?_
      have hstored := stored_of_deletes hfresh hexp.grows
        (fun i hi => (hfrom.inserts i (mem_inserts_singleton.mp hi)).2)
        (fun u hu => updates_authored hfrom (mem_updates_singleton.mp hu)) hrw.deletes hd
      rcases hstored with hasked | ⟨hmanaged, hstored⟩
      · exact hdeletes d (mem_deletes_singleton.mp hasked) hid
      · rw [h.record_ext hstored hmem hid, hauthored] at hmanaged
        cases hmanaged
    have hrow : rewrittenRow now w.cs.updates x = x := by
      rcases rewrittenRow_cases w.cs.updates x with ⟨hsame, -⟩ | ⟨u, hu, hid, -⟩
      · exact hsame
      · exact absurd hid (hnone u (hupdates.mp hu))
    exact ⟨x, (hrw.rows x).mpr (.inl ⟨x, hkept, hrow.symm⟩), rfl, rfl, rfl, rfl⟩

theorem reconciled_kept (h : s.Sound) (hfresh : env.Fresh s)
    (hgrows : Work.Grows env s G Work.blank w) (hrw : w.cs.Rewrites now s t)
    (hmem : x ∈ s.records) (hauthored : x.isManaged = false) : x ∈ t.records := by
  have hkept : x ∈ s.without w.cs.gone := by
    refine authored_kept h hmem hauthored fun d hd hid => ?_
    have hstored := stored_of_deletes hfresh hgrows (fun i hi => absurd hi not_mem_nil)
      (fun u hu => absurd hu not_mem_nil) hrw.deletes hd
    rcases hstored with hasked | ⟨hmanaged, hstored⟩
    · cases hasked
    · rw [h.record_ext hstored hmem hid, hauthored] at hmanaged
      cases hmanaged
  have hrow : rewrittenRow now w.cs.updates x = x := by
    rcases rewrittenRow_cases w.cs.updates x with ⟨hsame, -⟩ | ⟨u, hu, -⟩
    · exact hsame
    · exact absurd (hgrows.updates ▸ hu) not_mem_nil
  exact (hrw.rows x).mpr (.inl ⟨x, hkept, hrow.symm⟩)

end Env

/-- An operation in a state with the automation on in every zone. -/
structure Env.Automated (s : Store) (env : Env) (op : Operation) : Prop where
  names : env.lib.ReadsNames
  fresh : env.Fresh s
  authored : op.Authored
  zones : ∀ z ∈ s.zones, env.autoReverse z = true
  created : ∀ z records info, op = .createZone z records info → env.autoReverse z = true

namespace Env

variable {env : Env} {s t : Store} {op : Operation} {res : Result} {z : Zone} {ch : Changes}
  {policy : Option Policy}

theorem Automated.origin_on (h : s.Sound) (hauto : env.Automated s op)
    (horigin : Origin env s op z ch policy) : env.autoReverse z = true := by
  cases horigin with
  | command hz _ _ _ => exact hauto.zones z (h.zoneByID_eq_ok.mp hz).1
  | rollback hz _ _ _ _ => exact hauto.zones z (h.zoneByID_eq_ok.mp hz).1
  | @create z records info _ hasks =>
    have hon := hauto.created z records info rfl
    rw [newZone]
    split
    · exact hon
    · exact hon

theorem records_of_deleted {zid : ZoneID} {info : Meta} {w : Work} {extra : Option Commit}
    {b : Batch} (h : s.Sound)
    (hremovals : (s.managedByZone zid).foldlM (queueRemoval s) Work.blank = .ok w)
    (hwrote : Wrote env s t w z .edit none info extra [.delete zid] b) :
    ∀ r ∈ t.records, r ∈ s.records := by
  have hretires := queueRemovals_retires hremovals
  obtain ⟨mid, -, hrw, hrecords⟩ := Batch.write_rewrites_delete hwrote.zones h hwrote.write
  rw [hwrote.set] at hrw
  intro r hr
  rw [hrecords] at hr
  rcases (hrw.rows r).mp (Links.prune_sublist.mem hr) with ⟨o, ho, rfl⟩ | ⟨i, hi, -⟩
  · rcases rewrittenRow_cases w.cs.updates o with ⟨hsame, -⟩ | ⟨u, hu, -⟩
    · rw [hsame]
      exact (mem_without.mp ho).1
    · exact absurd (hretires.updates ▸ hu) not_mem_nil
  · exact absurd ((hretires.inserts i).mp hi) not_mem_nil

theorem Outcome.not_delete {zones : List ZoneOp} (hzones : zones = [] ∨ zones = [.create z])
    (id : ZoneID) : ZoneOp.delete id ∉ zones := by
  rcases hzones with rfl | rfl <;> simp

theorem perform_ptrsFollow (h : s.Sound) (hauto : env.Automated s op) (hapart : op.Apart s)
    (hok : env.perform s op = .ok (t, res)) (hinv : s.PTRsFollow) : t.PTRsFollow := by
  have hout := perform_outcome hok
  have ht := hout.sound h
  have hnames := hout.keepsNames h
  cases hout with
  | unchanged hsame => rwa [hsame]
  | aside htables => exact hinv.of_subset h ht hnames fun r hr => htables.2.1 ▸ hr
  | expanded horigin hexpand hzones hwrote =>
    have hfrom := horigin.fromStore h hauto.authored
    have hrw := hwrote.rewrites (Outcome.not_delete hzones)
    have hexp := expandReverse_singleton (hauto.origin_on h horigin) hexpand
    have hset := Settles.of_expanded h hfrom hexp hrw.inserts
    exact hinv.rewrites h ht hnames hauto.names hset hrw fun x hx _ =>
      hexp.given h hauto.fresh hfrom (horigin.apart h hapart) hrw hx
  | reconciled hz hreconcile hwrote =>
    have hgrows := reconcileInto_grows hreconcile
    have hrw := hwrote.rewrites (by simp)
    exact hinv.rewrites h ht hnames hauto.names (Settles.of_grows hgrows) hrw fun x hx hauthored =>
      ⟨x, reconciled_kept h hauto.fresh hgrows hrw (mem_listRecords.mp hx).1 hauthored, rfl,
        rfl, rfl, rfl⟩
  | updated _ _ _ hset _ hzones hwrite =>
    have hrw := Batch.write_rewrites (by simp [hzones]) hwrite
    rw [hset] at hrw
    exact hinv.rewrites h ht hnames hauto.names (Settles.of_grows (Work.Grows.refl (G := fun _ =>
      False))) hrw fun x hx => hx.elim
  | deleted hz hremovals hwrote =>
    exact hinv.of_subset h ht hnames (records_of_deleted h hremovals hwrote)

end Env

namespace Sample

def steps (l : List (Nat × Operation)) : List (Env × Operation) :=
  l.map fun step => (envAt step.1, step.2)

def older (base : Nat) (s : Store) : Bool :=
  s.records.all fun r =>
    match r.id with
    | .ulid v => decide (v < base)
    | _ => true

theorem fresh_of_older {base : Nat} {s : Store} (hbase : base + 100 ≤ 2 ^ 128)
    (h : older base s = true) : (envAt base).Fresh s := by
  intro n r hr hid
  have hlt : base + n % 100 < 2 ^ 128 := by
    have := Nat.mod_lt n (show 0 < 100 by decide)
    omega
  have hr' := all_eq_true.mp h r hr
  rw [hid] at hr'
  simp only [envAt, Nat.mod_eq_of_lt hlt, decide_eq_true_eq] at hr'
  omega

def created : Operation → Option Zone
  | .createZone z _ _ => some z
  | _ => none

section Meets

variable (extra : Store → Env → Operation → Prop) [∀ s env op, Decidable (extra s env op)]

def meets : Store → List (Nat × Operation) → Bool
  | _, [] => true
  | s, (base, op) :: rest =>
    decide (base + 100 ≤ 2 ^ 128) && older base s && decide op.Authored &&
      (s.zones ++ (created op).toList).all (envAt base).autoReverse &&
      decide (extra s (envAt base) op) && meets ((envAt base).after s op) rest

theorem along_of_meets {s : Store} {l : List (Nat × Operation)} (h : meets extra s l = true) :
    Along (fun s env op => env.Automated s op ∧ extra s env op) s (steps l) := by
  induction l generalizing s with
  | nil => exact trivial
  | cons head tail ih =>
    simp only [meets, Bool.and_eq_true, decide_eq_true_eq, all_eq_true] at h
    obtain ⟨⟨⟨⟨⟨hbase, holder⟩, hauthored⟩, hon⟩, hextra⟩, hrest⟩ := h
    refine .cons ⟨⟨WireLibrary.plain_readsNames, fresh_of_older hbase holder, hauthored, ?_, ?_⟩,
      hextra⟩ (ih hrest)
    · exact fun z hz => hon z (mem_append_left _ hz)
    · intro z records info hop
      exact hon z (mem_append_right _ (by simp [hop, created]))

end Meets

def reverseRun : List (Nat × Operation) :=
  [(1000, .createZone (zone 1 ["ex"]) [record 11 1 ["ex"] typeNS "ns."] info),
    (2000, .createZone (zone 2 ["2", "0", "192", "in-addr", "arpa"])
      [record 12 2 ["2", "0", "192", "in-addr", "arpa"] typeNS "ns."] info),
    (3000, .createZone (zone 3 ["0/25", "2", "0", "192", "in-addr", "arpa"])
      [record 13 3 ["0/25", "2", "0", "192", "in-addr", "arpa"] typeNS "ns."] info),
    (4000, edit 1 [.add (record 14 1 ["a", "ex"] typeA "192.0.2.10")])]

end Sample

/-- In every state that accepted operations lead to with the automation on in every
zone, no two operations of a command touching the same record, a generated PTR has
a source that is there, is an enabled address record named as the PTR says, and has
the PTR's owner for its reverse owner in the zone the PTR is in. -/
theorem generated_ptrs_follow_sources {steps : List (Env × Operation)} {t : Store}
    (hcond : Along (fun s env op => env.Automated s op ∧ op.Apart s) blank steps)
    (hrun : performAll blank steps = .ok t) :
    ∀ p ∈ t.records, p.managedKind = some .ptr → ∃ src ∈ t.records,
      src.id = p.managedBy ∧ (src.type = typeA ∨ src.type = typeAAAA) ∧ src.disabled = false ∧
        p.rdata.text = src.name.string ∧ ∃ addr, src.address = some addr ∧
          ∃ z ∈ t.zones, z.id = p.zoneID ∧ z.kind = .reverse ∧ z.reverseOwner addr = .ok p.name := by
  have hinv : t.Sound ∧ t.PTRsFollow := by
    refine performAll_invariant (fun s => s.Sound ∧ s.PTRsFollow) ?_ hcond hrun ?_
    · intro s env op t res hmeets hok hs
      exact ⟨(Env.perform_outcome hok).sound hs.1,
        Env.perform_ptrsFollow hs.1 hmeets.1 hmeets.2 hok hs.2⟩
    · exact ⟨Sound.empty, fun p hp => absurd hp not_mem_nil⟩
  intro p hp hkind
  obtain ⟨src, hsrc, hrev⟩ := hinv.2 p hp hkind
  obtain ⟨addr, haddr, hzone⟩ := hrev.owner
  exact ⟨src, hsrc, hrev.source, type_of_address haddr, hrev.enabled, hrev.data, addr,
    haddr, hzone⟩

/-- An address in a classless child zone, with its entry and the way there. -/
theorem generated_ptrs_follow_sources_classless :
    ∃ t, performAll blank (steps reverseRun) = .ok t ∧
      (∃ p ∈ t.records, p.managedKind = some .ptr) ∧
      ∀ p ∈ t.records, p.managedKind = some .ptr → ∃ src ∈ t.records,
        src.id = p.managedBy ∧ (src.type = typeA ∨ src.type = typeAAAA) ∧ src.disabled = false ∧
          p.rdata.text = src.name.string ∧ ∃ addr, src.address = some addr ∧
            ∃ z ∈ t.zones, z.id = p.zoneID ∧ z.kind = .reverse ∧
              z.reverseOwner addr = .ok p.name := by
  obtain ⟨t, hrun, hptr⟩ := ok_of_any
    (show (performAll blank (steps reverseRun)).toOption.any
      (fun t => decide (∃ p ∈ t.records, p.managedKind = some .ptr)) = true by decide +kernel)
  have hcond := along_of_meets (fun s _ op => op.Apart s)
    (show meets _ blank reverseRun = true by decide +kernel)
  exact ⟨t, hrun, of_decide_eq_true hptr, generated_ptrs_follow_sources hcond hrun⟩

end Wegweiser
