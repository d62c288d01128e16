/-
Every zone is one the check of a whole zone accepts, although no write but a zone's
creation runs it: what a change set touches is checked, and nothing else changes that the
check looks at.
-/
import Wegweiser.Apply.Provenance
import Wegweiser.Apply.Rows
import Wegweiser.Apply.Touched

namespace Wegweiser

open Checked List Sample Store Record Batch

def Record.unstamped (r : Record) : Record := { r with createdAt := 0, updatedAt := 0 }

section Stamps

variable {z : Zone} {a b : Record}

theorem Record.unstamped_fitsIn : a.unstamped.FitsIn z ↔ a.FitsIn z :=
  ⟨fun h => ⟨h.inside, h.valid, h.apex, h.network⟩, fun h => ⟨h.inside, h.valid, h.apex, h.network⟩⟩

theorem Record.unstamped_coexists : a.unstamped.Coexists b.unstamped ↔ a.Coexists b :=
  ⟨fun h => ⟨h.cname, h.single, h.ttl, h.data⟩, fun h => ⟨h.cname, h.single, h.ttl, h.data⟩⟩

theorem ZoneFits.kept {before after : List Record} {touched : List Name} (h : ZoneFits z before)
    (hfrom : ∀ r ∈ after, r.name ∉ touched → ∃ o ∈ before, o.unstamped = r.unstamped)
    (hto : ∀ o ∈ before, o.type = typeNS → o.name ∉ touched →
      ∃ r ∈ after, r.unstamped = o.unstamped)
    (hpairs : after.Pairwise fun a b => a.name = b.name → a.name ∉ touched → a.Coexists b) :
    KeptFits z (Delegated z before) touched after := by
  have hname {a b : Record} (heq : a.unstamped = b.unstamped) : a.name = b.name :=
    (congrArg Record.name heq :)
  have htype {a b : Record} (heq : a.unstamped = b.unstamped) : a.type = b.type :=
    (congrArg type heq :)
  refine ⟨h.zone, fun r hr hkept => ?_, hpairs, fun hkept => ?_, fun r hr hkept p hp => ?_,
    fun n hkept => ?_⟩
  · obtain ⟨o, ho, heq⟩ := hfrom r hr hkept
    exact unstamped_fitsIn.mp (heq ▸ unstamped_fitsIn.mpr (h.alone o ho))
  · obtain ⟨o, ho, hon, hot⟩ := h.apex
    obtain ⟨r, hr, heq⟩ := hto o ho hot (hon ▸ hkept)
    exact ⟨r, hr, (hname heq).trans hon, (htype heq).trans hot⟩
  · obtain ⟨o, ho, heq⟩ := hfrom r hr hkept
    have hstands := h.delegations o ho p ((hname heq).symm ▸ hp)
    rwa [StandsUnder, hname heq, htype heq] at hstands
  · refine and_congr_right fun _ => ?_
    constructor
    · intro hex
      obtain ⟨o, ho, rfl, hot⟩ := hex
      obtain ⟨r, hr, heq⟩ := hto o ho hot hkept
      exact ⟨r, hr, hname heq, (htype heq).trans hot⟩
    · intro hex
      obtain ⟨r, hr, rfl, hrt⟩ := hex
      obtain ⟨o, ho, heq⟩ := hfrom r hr hkept
      exact ⟨o, ho, hname heq, (htype heq).trans hrt⟩

end Stamps

/-- What the changes make of the records of a zone, the times aside: those removed go,
those rewritten read as they are to, those added come. -/
def Changes.Gives (ch : Changes) (before after : List Record) : Prop :=
  ∃ kept : List Record,
    (before.map unstamped).Perm
        ((ch.deletes ++ ch.updates.map RecordUpdate.before ++ kept).map unstamped) ∧
      (after.map unstamped).Perm
        ((kept ++ ch.updates.map RecordUpdate.after ++ ch.inserts).map unstamped)

namespace Changes

variable {ch : Changes} {z : Zone} {before after : List Record}

theorem Marked.mem_owner (h : ch.Marked) :
    (∀ d ∈ ch.deletes, d.name ∈ ch.touched) ∧
      (∀ u ∈ ch.updates, u.before.name ∈ ch.touched ∧ u.after.name ∈ ch.touched) ∧
      ∀ i ∈ ch.inserts, i.name ∈ ch.touched := by
  simp only [h _, ownersOf, mem_append, mem_map, mem_flatMap, mem_cons,
    not_mem_nil, or_false]
  exact ⟨fun d hd => .inl (.inl ⟨d, hd, rfl⟩),
    fun u hu => ⟨.inl (.inr ⟨u, hu, .inl rfl⟩), .inl (.inr ⟨u, hu, .inr rfl⟩)⟩,
    fun i hi => .inr ⟨i, hi, rfl⟩⟩

theorem Gives.kept (hgives : ch.Gives before after) (hmarked : ch.Marked)
    (h : ZoneFits z before) : KeptFits z (Delegated z before) ch.touched after := by
  obtain ⟨kept, hbefore, hafter⟩ := hgives
  obtain ⟨hdeletes, hupdates, hinserts⟩ := hmarked.mem_owner
  have hname {a b : Record} (heq : a.unstamped = b.unstamped) : a.name = b.name :=
    (congrArg Record.name heq :)
  refine h.kept (fun r hr hr' => ?_) (fun o ho _ ho' => ?_) ?_
  · have hmem := hafter.mem_iff.mp (mem_map_of_mem hr)
    obtain ⟨x, hx, heq⟩ := mem_map.mp hmem
    rw [← hname heq] at hr'
    rcases mem_append.mp hx with hx | hx
    · rcases mem_append.mp hx with hx | hx
      · have hback := hbefore.mem_iff.mpr
          (mem_map_of_mem (mem_append_right _ hx))
        obtain ⟨o, ho, heq'⟩ := mem_map.mp hback
        exact ⟨o, ho, heq'.trans heq⟩
      · obtain ⟨u, hu, rfl⟩ := mem_map.mp hx
        exact absurd (hupdates u hu).2 hr'
    · exact absurd (hinserts x hx) hr'
  · have hmem := hbefore.mem_iff.mp (mem_map_of_mem ho)
    obtain ⟨x, hx, heq⟩ := mem_map.mp hmem
    rw [← hname heq] at ho'
    rcases mem_append.mp hx with hx | hx
    · rcases mem_append.mp hx with hx | hx
      · exact absurd (hdeletes x hx) ho'
      · obtain ⟨u, hu, rfl⟩ := mem_map.mp hx
        exact absurd (hupdates u hu).1 ho'
    · have hforth := hafter.mem_iff.mpr
        (mem_map_of_mem (mem_append_left _ (mem_append_left _ hx)))
      obtain ⟨r, hr, heq'⟩ := mem_map.mp hforth
      exact ⟨r, hr, heq'.trans heq⟩
  · let Q (a b : Record) : Prop := a.name = b.name → a.Coexists b
    let P (a b : Record) : Prop := a.name = b.name → a.name ∉ ch.touched → a.Coexists b
    have hQ (a b : Record) (hab : Q a b) : Q b a := fun hn => (hab hn.symm).symm
    have hP (a b : Record) (hab : P a b) : P b a :=
      fun hn hb => (hab hn.symm (hn ▸ hb)).symm
    have hkept : (kept.map unstamped).Pairwise Q := by
      have hall : (before.map unstamped).Pairwise Q :=
        pairwise_map.mpr (h.pairs.imp fun hab hn => unstamped_coexists.mpr (hab hn))
      have hall := hbefore.pairwise hall fun {a b} => hQ a b
      rw [map_append, pairwise_append] at hall
      exact hall.2.1
    have htouched (x : Record)
        (hx : x ∈ (ch.updates.map RecordUpdate.after ++ ch.inserts).map unstamped) :
        x.name ∈ ch.touched := by
      obtain ⟨y, hy, rfl⟩ := mem_map.mp hx
      rcases mem_append.mp hy with hy | hy
      · obtain ⟨u, hu, rfl⟩ := mem_map.mp hy
        exact (hupdates u hu).2
      · exact hinserts y hy
    have hall : (after.map unstamped).Pairwise P := by
      refine hafter.symm.pairwise ?_ fun {a b} => hP a b
      rw [append_assoc, map_append, pairwise_append]
      refine ⟨hkept.imp fun hab hn _ => hab hn, ?_, ?_⟩
      · exact pairwise_of_forall_mem_list fun a ha b _ _ hnot =>
          absurd (htouched a ha) hnot
      · intro a _ b hb hn hnot
        exact absurd (hn ▸ htouched b hb) hnot
    exact (pairwise_map.mp hall).imp fun hab hn hnot =>
      unstamped_coexists.mp (hab hn hnot)

theorem Gives.inside (hgives : ch.Gives before after) (hmarked : ch.Marked)
    (h : ZoneFits z before) (h' : ZoneFits z after) : ∀ n ∈ ch.touched, z.contains n = true := by
  obtain ⟨kept, hbefore, hafter⟩ := hgives
  have hin {l : List Record} (hl : ZoneFits z l) {x : Record}
      (hx : x.unstamped ∈ l.map unstamped) : z.contains x.name = true := by
    obtain ⟨o, ho, heq⟩ := mem_map.mp hx
    have hname : o.name = x.name := (congrArg Record.name heq :)
    rw [← hname]
    exact (hl.alone o ho).inside
  have hold {x : Record} (hx : x ∈ ch.deletes ++ ch.updates.map RecordUpdate.before) :
      z.contains x.name = true :=
    hin h (hbefore.mem_iff.mpr (mem_map_of_mem (mem_append_left _ hx)))
  have hnew {x : Record} (hx : x ∈ ch.updates.map RecordUpdate.after ++ ch.inserts) :
      z.contains x.name = true := by
    refine hin h' (hafter.mem_iff.mpr (mem_map_of_mem ?_))
    rw [append_assoc]
    exact mem_append_right _ hx
  intro n hn
  rw [hmarked n, ownersOf, mem_append, mem_append] at hn
  rcases hn with (hn | hn) | hn
  · obtain ⟨d, hd, rfl⟩ := mem_map.mp hn
    exact hold (mem_append_left _ hd)
  · obtain ⟨u, hu, hn⟩ := mem_flatMap.mp hn
    rcases mem_cons.mp hn with rfl | hn
    · exact hold (mem_append_right _ (mem_map_of_mem hu))
    · rw [mem_singleton.mp hn]
      exact hnew (mem_append_left _ (mem_map_of_mem hu))
  · obtain ⟨i, hi, rfl⟩ := mem_map.mp hn
    exact hnew (mem_append_right _ hi)

theorem Gives.validateTouched_iff {t : Store} (hgives : ch.Gives before (t.recordsOf z.id))
    (hmarked : ch.Marked) (h : validateZone z before = .ok ()) :
    validateTouched t z ch.touched = .ok () ↔ validateZone z (t.recordsOf z.id) = .ok () := by
  rw [validateZone_eq_ok] at h ⊢
  constructor
  · intro hok
    exact (hgives.kept hmarked h).zoneFits hok
  · intro hfits
    exact hfits.validateTouched (hgives.inside hmarked h hfits)

end Changes

variable {z z' : Zone}

theorem Zone.kind_of_name (h : z.validate = .ok ()) (h' : z'.validate = .ok ())
    (hname : z.name = z'.name) : z.kind = z'.kind ∧ z.netPrefix = z'.netPrefix := by
  rcases (Zone.validate_eq_ok.mp h).2.2 with ⟨hk, hn, hr⟩ | ⟨hk, p, hp, hn⟩ <;>
    rcases (Zone.validate_eq_ok.mp h').2.2 with ⟨hk', hn', hr'⟩ | ⟨hk', p', hp', hn'⟩
  · exact ⟨hk.trans hk'.symm, hn.trans hn'.symm⟩
  · rw [hname, isReverseName_of_parse hp'] at hr
    cases hr
  · rw [← hname, isReverseName_of_parse hp] at hr'
    cases hr'
  · rw [← hname, hp] at hp'
    cases hp'
    exact ⟨hk.trans hk'.symm, hn.trans hn'.symm⟩

theorem ZoneFits.of_name {records : List Record} (h : ZoneFits z records)
    (hvalid : z'.validate = .ok ()) (hname : z.name = z'.name) : ZoneFits z' records := by
  obtain ⟨hkind, hprefix⟩ := Zone.kind_of_name h.zone hvalid hname
  have hapex (n : Name) : z.isApex n = z'.isApex n := by rw [Zone.isApex, Zone.isApex, hname]
  have hcontains (n : Name) : z.contains n = z'.contains n := by
    rw [Zone.contains, Zone.contains, hname]
  have hnetwork (a : Addr) : z.prefixContains a = z'.prefixContains a := by
    rw [Zone.prefixContains, Zone.prefixContains, hprefix]
  refine ⟨hvalid, fun r hr => ?_, h.pairs, hname ▸ h.apex, fun r hr p hp => ?_⟩
  · have hr := h.alone r hr
    exact ⟨hcontains r.name ▸ hr.inside, hr.valid, hapex r.name ▸ hr.apex,
      fun hk hptr p hp => hnetwork p.addr ▸ hr.network (hkind.trans hk) hptr p hp⟩
  · refine h.delegations r hr p ((Name.Closest.congr fun q _ => ?_).mpr hp)
    rw [Delegated, Delegated, hapex]

theorem Zone.validate_of_check (h : z.check = .ok ()) : z.validate = .ok () := by
  simp only [Zone.check, bind_eq_ok] at h
  obtain ⟨-, -, hvalid⟩ := h
  exact hvalid

def Store.DelegatesByHand (s : Store) : Prop :=
  ∀ r ∈ s.records, r.isManaged = true → r.type ≠ typeNS

/-- How the rows of the zones change beside the names touched in them: none comes, and
none that delegates goes. -/
structure Store.MovesAt (s t : Store) (touched : ZoneID → List Name) : Prop where
  comes : ∀ r ∈ t.records, r.name ∉ touched r.zoneID → r ∈ s.records
  goes : ∀ o ∈ s.records, o.type = typeNS → (∃ z ∈ t.zones, z.id = o.zoneID) →
    o.name ∉ touched o.zoneID → o ∈ t.records

namespace ChangeSet

variable {Z : Zone → Prop} {cs : ChangeSet} {now : Nat} {s t : Store}

def touchedIn (cs : ChangeSet) (zid : ZoneID) : List Name := (cs.pending zid).touched

theorem Filed.touches (h : cs.Filed Z) :
    (∀ d ∈ cs.deletes, d.name ∈ cs.touchedIn d.zoneID) ∧
      (∀ u ∈ cs.updates, u.before.name ∈ cs.touchedIn u.before.zoneID ∧
        u.after.name ∈ cs.touchedIn u.after.zoneID) ∧
      ∀ i ∈ cs.inserts, i.name ∈ cs.touchedIn i.zoneID := by
  have hentry {e : ZoneChanges} (he : e ∈ cs.entries) :
      cs.touchedIn e.zone.id = e.changes.touched := by
    rw [touchedIn, h.changes_eq he]
  refine ⟨fun d hd => ?_, fun u hu => ?_, fun i hi => ?_⟩
  · obtain ⟨e, he, hd⟩ := mem_deletes.mp hd
    rw [(h.under e he).deletes d hd, hentry he]
    exact (h.under e he).marked.mem_owner.1 d hd
  · obtain ⟨e, he, hu⟩ := mem_updates.mp hu
    obtain ⟨hbefore, hafter⟩ := (h.under e he).updates u hu
    rw [hbefore, hafter, hentry he]
    exact (h.under e he).marked.mem_owner.2.1 u hu
  · obtain ⟨e, he, hi⟩ := mem_inserts.mp hi
    rw [(h.under e he).inserts i hi, hentry he]
    exact (h.under e he).marked.mem_owner.2.2 i hi

theorem Rewrites.keeps (hs : s.Sound) (hhand : s.DelegatesByHand) (hrw : cs.Rewrites now s t)
    (hfiled : cs.Filed Z) (hdeletes : ∀ d ∈ cs.deletes, d ∈ s.records)
    (hupdates : ∀ u ∈ cs.updates, u.before ∈ s.records ∧ u.after.id = u.before.id) {o : Record}
    (ho : o ∈ s.records) (htype : o.type = typeNS) (hname : o.name ∉ cs.touchedIn o.zoneID) :
    o ∈ t.records := by
  obtain ⟨htd, htu, -⟩ := hfiled.touches
  refine (hrw.rows o).mpr (.inl ⟨o, mem_without.mpr ⟨ho, fun hbelow => ?_⟩, ?_⟩)
  · rcases Links.below_row hbelow with hroot | ⟨x, hx, hid, p, hsource, -⟩
    · obtain ⟨d, hd, hid⟩ := mem_map.mp hroot
      rw [← hs.record_ext (hdeletes d hd) ho hid] at hname
      exact hname (htd d hd)
    · rw [hs.record_ext hx ho hid] at hsource
      exact hhand o ho (Env.isManaged_of_source hsource) htype
  · rcases rewrittenRow_cases cs.updates o with ⟨hsame, -⟩ | ⟨u, hu, hid, -⟩
    · exact hsame.symm
    · obtain ⟨hmem, hsame⟩ := hupdates u hu
      rw [← hs.record_ext hmem ho (hsame.symm.trans hid)] at hname
      exact absurd (htu u hu).1 hname

theorem Rewrites.movesAt (hs : s.Sound) (hhand : s.DelegatesByHand) (hrw : cs.Rewrites now s t)
    (hfiled : cs.Filed Z) (hdeletes : ∀ d ∈ cs.deletes, d ∈ s.records)
    (hupdates : ∀ u ∈ cs.updates, u.before ∈ s.records ∧ u.after.id = u.before.id) :
    s.MovesAt t cs.touchedIn := by
  obtain ⟨-, htu, hti⟩ := hfiled.touches
  refine ⟨fun r hr hname => ?_,
    fun o ho htype _ hname => hrw.keeps hs hhand hfiled hdeletes hupdates ho htype hname⟩
  rcases (hrw.rows r).mp hr with ⟨o, ho, rfl⟩ | ⟨i, hi, rfl⟩
  · rcases rewrittenRow_cases cs.updates o with ⟨hsame, -⟩ | ⟨u, hu, -, created, hrow⟩
    · rw [hsame]
      exact (mem_without.mp ho).1
    · rw [hrow] at hname
      exact absurd (htu u hu).2 hname
  · exact absurd (hti i hi) hname

end ChangeSet

/-- Every zone is one `ValidateZone` accepts. -/
def Store.ZonesFit (s : Store) : Prop :=
  ∀ z ∈ s.zones, ZoneFits z (s.recordsOf z.id)

theorem Store.MovesAt.zoneFits {s t : Store} {touched : ZoneID → List Name} {o : Zone}
    (hmoves : s.MovesAt t touched) (ht : t.Sound) (ho : ZoneFits o (s.recordsOf o.id))
    (hz : z ∈ t.zones) (hid : o.id = z.id) (hname : o.name = z.name)
    (hok : validateTouched t z (touched z.id) = .ok ()) : ZoneFits z (t.recordsOf z.id) := by
  have hvalid := Zone.validate_of_check (ht.zones z hz)
  have hbefore := ho.of_name hvalid hname
  rw [hid] at hbefore
  have hcomes {r : Record} (hr : r ∈ t.recordsOf z.id) (hkept : r.name ∉ touched z.id) :
      r ∈ s.recordsOf z.id := by
    obtain ⟨hmem, hzone⟩ := mem_recordsOf.mp hr
    exact mem_recordsOf.mpr ⟨hmoves.comes r hmem (hzone ▸ hkept), hzone⟩
  refine (hbefore.kept (fun r hr hkept => ⟨r, hcomes hr hkept, rfl⟩) ?_ ?_).zoneFits hok
  · intro r hr htype hkept
    obtain ⟨hmem, hzone⟩ := mem_recordsOf.mp hr
    refine ⟨r, mem_recordsOf.mpr ⟨?_, hzone⟩, rfl⟩
    exact hmoves.goes r hmem htype ⟨z, hz, hzone.symm⟩ (hzone ▸ hkept)
  · have hsymm : Std.Symm fun a b : Record => a.name = b.name → a.Coexists b :=
      ⟨fun a b hab hn => (hab hn.symm).symm⟩
    have hnodup : (t.recordsOf z.id).Nodup := (Nodup.of_map _ ht.record_ids).filter _
    refine hnodup.imp_of_mem fun {a b} ha hb hne hn hkept => ?_
    exact hbefore.pairs.forall (hcomes ha hkept) (hcomes hb (hn ▸ hkept)) hne hn

namespace Env

variable {env : Env} {s t : Store} {op : Operation} {res : Result} {w w₀ : Work}
  {G : Record → Prop} {Z : Zone → Prop}

variable {z : Zone} {kind : CommitKind} {revertsTo : Option Serial} {info : Meta}
  {extra : Option Commit} {zones : List ZoneOp} {b : Batch} {now minted : Nat} {ch : Changes}
  {policy : Option Policy}

theorem Wrote.touched {primary : Zone}
    (hwrote : Wrote env s t w primary kind revertsTo info extra zones b) (ht : t.Sound)
    (hfiled : w.cs.Filed Z) (hz : z ∈ t.zones) :
    validateTouched t z (w.cs.touchedIn z.id) = .ok () := by
  obtain ⟨followed, commits, minted, hrun, hcommits⟩ := hwrote.commits
  rcases planCommits_of_zone hfiled hrun z.id with
    ⟨hempty, -⟩ | ⟨-, e, he, hid, c, n, hplan, hc⟩
  · have hnone : w.cs.touchedIn z.id = [] := by
      simp only [Changes.empty, Bool.and_eq_true, List.isEmpty_iff] at hempty
      obtain ⟨⟨⟨-, hdeletes⟩, hupdates⟩, hinserts⟩ := hempty
      refine List.eq_nil_iff_forall_not_mem.mpr fun x hx => ?_
      have hmarked : (w.cs.pending z.id).Marked := hfiled.pending.marked
      have hx := (hmarked x).mp hx
      rw [hdeletes, hupdates, hinserts] at hx
      exact List.not_mem_nil hx
    rw [hnone]
    rfl
  · have hmem : c ∈ b.commits := by
      rw [hcommits]
      have hc' : c ∈ commits.filter fun c => c.zoneID == z.id := hc ▸ List.mem_singleton_self c
      exact List.mem_append_right _ (List.mem_filter.mp hc').1
    have hzid : c.zoneID = z.id := (planCommit_zoneID hplan).trans hid
    have hvalid := forM_eq_ok.mp hwrote.valid c hmem
    rw [hwrote.set, hzid, ht.zoneByID_eq_ok.mpr ⟨hz, rfl⟩] at hvalid
    rw [ChangeSet.touchedIn, ChangeSet.pending]
    cases hentry : w.cs.entry z.id with
    | none => rfl
    | some e' =>
      rw [hentry] at hvalid
      exact hvalid

theorem delegatesByHand_of_grows (hhand : s.DelegatesByHand) (hgrows : Work.Grows env s G w₀ w)
    (hupdates : ∀ u ∈ w₀.cs.updates, u.after.isManaged = false)
    (hinserts : ∀ i ∈ w₀.cs.inserts, i.isManaged = false)
    (hrw : w.cs.Rewrites now s t) : t.DelegatesByHand := by
  intro r hr hmanaged
  rcases (hrw.rows r).mp hr with ⟨o, ho, rfl⟩ | ⟨i, hi, rfl⟩
  · rcases rewrittenRow_cases w.cs.updates o with ⟨hsame, -⟩ | ⟨u, hu, -, created, hrow⟩
    · rw [hsame] at hmanaged ⊢
      exact hhand o (mem_without.mp ho).1 hmanaged
    · rw [hrow] at hmanaged
      rw [hgrows.updates] at hu
      exact absurd ((hupdates u hu).symm.trans hmanaged) Bool.false_ne_true
  · rcases hgrows.inserts i hi with hasked | ⟨source, addr, rev, hnew⟩ |
      ⟨ptr, source, addr, rev, -, -, hnew⟩
    · exact absurd ((hinserts i hasked).symm.trans hmanaged) Bool.false_ne_true
    · change i.type ≠ typeNS
      rw [hnew.type]
      decide
    · change i.type ≠ typeNS
      rw [hnew.type]
      decide

theorem zonesFit_of_moves {touched : ZoneID → List Name} (ht : t.Sound) (hfit : s.ZonesFit)
    (hnames : s.KeepsNames t) (hmoves : s.MovesAt t touched)
    (hold : ∀ z ∈ t.zones, ∃ o ∈ s.zones, o.id = z.id)
    (hok : ∀ z ∈ t.zones, validateTouched t z (touched z.id) = .ok ()) : t.ZonesFit := by
  intro z hz
  obtain ⟨o, ho, hid⟩ := hold z hz
  exact hmoves.zoneFits ht (hfit o ho) hz hid (hnames o ho z hz hid) (hok z hz)

theorem zoneFits_of_new {touched : ZoneID → List Name} (h : s.Sound) (ht : t.Sound)
    (hz : z ∈ t.zones) (hmoves : s.MovesAt t touched) (hnew : ¬∃ o ∈ s.zones, o.id = z.id)
    (hapex : z.name ∈ touched z.id) (hok : validateTouched t z (touched z.id) = .ok ()) :
    ZoneFits z (t.recordsOf z.id) := by
  have hall {r : Record} (hr : r ∈ t.recordsOf z.id) : r.name ∈ touched z.id := by
    obtain ⟨hmem, hzone⟩ := mem_recordsOf.mp hr
    by_contra hkept
    obtain ⟨o, ho, hid⟩ := h.record_zones r (hmoves.comes r hmem (hzone ▸ hkept))
    exact hnew ⟨o, ho, hid.trans hzone⟩
  refine KeptFits.zoneFits (D := Wegweiser.Delegated z (t.recordsOf z.id)) ?_ hok
  refine ⟨Zone.validate_of_check (ht.zones z hz), fun r hr hkept => absurd (hall hr) hkept, ?_,
    fun hkept => absurd hapex hkept, fun r hr hkept => absurd (hall hr) hkept, fun _ _ => Iff.rfl⟩
  exact pairwise_of_forall_mem_list fun a ha _ _ _ hkept => absurd (hall ha) hkept

theorem movesAt_of_deleted {zid : ZoneID} (h : s.Sound) (hhand : s.DelegatesByHand)
    (hremovals : (s.managedByZone zid).foldlM (queueRemoval s) Work.blank = .ok w)
    (hwrote : Wrote env s t w z .edit none info extra [.delete zid] b) (hfiled : w.cs.Filed Z) :
    s.MovesAt t w.cs.touchedIn := by
  have hretires := queueRemovals_retires hremovals
  have hsubset := records_of_deleted h hremovals hwrote
  obtain ⟨mid, hmid, hrw, hrecords⟩ := write_rewrites_delete hwrote.zones h hwrote.write
  rw [hwrote.set] at hrw
  have hdeletes (d : Record) (hd : d ∈ w.cs.deletes) : d ∈ s.records := by
    rcases (hretires.deletes d).mp hd with hd | hd
    · cases hd
    · exact (mem_listRecords.mp hd).1
  refine ⟨fun r hr _ => hsubset r hr, fun o ho htype hzone hname => ?_⟩
  have hstays := hrw.keeps h hhand hfiled hdeletes
    (fun u hu => absurd (hretires.updates ▸ hu) not_mem_nil) ho htype hname
  rw [hrecords]
  refine mem_without.mpr ⟨hstays, fun hbelow => ?_⟩
  rcases Links.below_row hbelow with hroot | ⟨x, hx, hid, p, hsource, -⟩
  · obtain ⟨x, hx, hid⟩ := mem_map.mp hroot
    obtain ⟨hx, hxz⟩ := mem_filter.mp hx
    obtain ⟨z', hz', hzid⟩ := hzone
    refine write_delete_zones hwrote.zones hwrote.write hz' (hzid.trans ?_)
    rw [← hmid.record_ext hx hstays hid]
    exact beq_iff_eq.mp hxz
  · rw [hmid.record_ext hx hstays hid] at hsource
    exact hhand o ho (isManaged_of_source hsource) htype

theorem movesAt_of_grows (h : s.Sound) (hhand : s.DelegatesByHand) (hfresh : env.Fresh s)
    (hgrows : Work.Grows env s G w₀ w) (hrw : w.cs.Rewrites now s t)
    (hfiled : w.cs.Filed Z) (hdeletes : ∀ d ∈ w₀.cs.deletes, d ∈ s.records)
    (hupdates : ∀ u ∈ w₀.cs.updates, u.before ∈ s.records ∧ u.after.id = u.before.id ∧
      u.after.isManaged = false) (hinserts : ∀ i ∈ w₀.cs.inserts, i.isManaged = false) :
    s.MovesAt t w.cs.touchedIn ∧ t.DelegatesByHand := by
  have hauthored := fun u hu => (hupdates u hu).2.2
  refine ⟨hrw.movesAt h hhand hfiled (fun d hd => ?_) fun u hu => ?_,
    delegatesByHand_of_grows hhand hgrows hauthored hinserts hrw⟩
  · rcases stored_of_deletes hfresh hgrows hinserts hauthored hrw.deletes hd with hd | ⟨-, hd⟩
    · exact hdeletes d hd
    · exact hd
  · obtain ⟨hmem, hid, -⟩ := hupdates u (hgrows.updates ▸ hu)
    exact ⟨hmem, hid⟩

theorem Origin.apex_touched {z' : Zone}
    (h : s.Sound) (horigin : Origin env s op z ch policy) (hfrom : ch.FromStore s z)
    (hgrows : Work.Grows env s G ⟨⟨[⟨z, ch⟩], policy⟩, Result.blank, minted⟩ w)
    (hfiled : w.cs.Filed Z) (hid : z.id = z'.id) (hname : z.name = z'.name)
    (hnew : ¬∃ o ∈ s.zones, o.id = z'.id) : z'.name ∈ w.cs.touchedIn z'.id := by
  cases horigin with
  | command hz => exact absurd ⟨_, (h.zoneByID_eq_ok.mp hz).1, hid⟩ hnew
  | rollback hz => exact absurd ⟨_, (h.zoneByID_eq_ok.mp hz).1, hid⟩ hnew
  | create hasks hvalid =>
    obtain ⟨r, hr, hrn, -⟩ := (validateZone_eq_ok.mp hvalid).apex
    have hins : r ∈ ch.inserts := by
      rw [hasks.inserts]
      exact mem_append_right _ hr
    have hmem := hfiled.touches.2.2 r (hgrows.inserts_mono r (mem_inserts_singleton.mpr hins))
    rwa [(hfrom.inserts r hins).1, hrn, hid, hname] at hmem

theorem zonesFit_of_expanded
    (h : s.Sound) (ht : t.Sound) (hnames : s.KeepsNames t) (hfresh : env.Fresh s)
    (hauthored : op.Authored) (hfit : s.ZonesFit) (hhand : s.DelegatesByHand)
    (horigin : Origin env s op z ch policy)
    (hexpand : env.expandReverse s ⟨⟨[⟨z, ch⟩], policy⟩, Result.blank, minted⟩ z = .ok w)
    (hzones : zones = [] ∨ zones = [.create z])
    (hwrote : Wrote env s t w z kind revertsTo info none zones b) :
    t.ZonesFit ∧ t.DelegatesByHand := by
  have hfrom := horigin.fromStore h hauthored
  have hgrows := expandReverse_grows hexpand
  have hfiled : w.cs.Filed fun z' => z' ∈ s.zones ∨ z' = z :=
    expandReverse_filed (fun _ => .inl) (.singleton (.inr rfl) (horigin.under h)) hexpand
  obtain ⟨hmoves, hhand'⟩ := movesAt_of_grows h hhand hfresh hgrows
    (hwrote.rewrites (Outcome.not_delete hzones)) hfiled
    (fun d hd => (hfrom.deletes d (mem_deletes_singleton.mp hd)).1)
    (fun u hu => by
      obtain ⟨hmem, -, hid, -⟩ := hfrom.updates u (mem_updates_singleton.mp hu)
      exact ⟨hmem, hid, updates_authored hfrom (mem_updates_singleton.mp hu)⟩)
    (fun i hi => (hfrom.inserts i (mem_inserts_singleton.mp hi)).2)
  refine ⟨fun z' hz' => ?_, hhand'⟩
  have htouched := hwrote.touched ht hfiled hz'
  by_cases hex : ∃ o ∈ s.zones, o.id = z'.id
  · obtain ⟨o, ho, hid⟩ := hex
    exact hmoves.zoneFits ht (hfit o ho) hz' hid (hnames o ho z' hz' hid) htouched
  · obtain ⟨o, hwhere, hid, hname⟩ := write_zone_from h hwrote.write hz'
    rw [hwrote.zones] at hwhere
    have ho : o = z := by
      rcases hwhere with ho | ho | ho
      · exact absurd ⟨o, ho, hid⟩ hex
      · rcases hzones with rfl | rfl
        · cases ho
        · simpa using ho
      · rcases hzones with rfl | rfl <;> simp at ho
    subst ho
    exact zoneFits_of_new h ht hz' hmoves hex
      (horigin.apex_touched h hfrom hgrows hfiled hid hname hex) htouched

theorem perform_zonesFit (h : s.Sound) (hfresh : env.Fresh s) (hauthored : op.Authored)
    (hok : env.perform s op = .ok (t, res)) (hfit : s.ZonesFit) (hhand : s.DelegatesByHand) :
    t.ZonesFit ∧ t.DelegatesByHand := by
  have hout := perform_outcome hok
  have ht := hout.sound h
  have hnames := hout.keepsNames h
  cases hout with
  | unchanged hsame =>
    rw [hsame]
    exact ⟨hfit, hhand⟩
  | aside htables =>
    constructor
    · intro z hz
      rw [recordsOf, htables.2.1]
      exact hfit z (htables.1 ▸ hz)
    · intro r hr
      exact hhand r (htables.2.1 ▸ hr)
  | expanded horigin hexpand hzones hwrote =>
    exact zonesFit_of_expanded h ht hnames hfresh hauthored hfit hhand horigin hexpand hzones
      hwrote
  | @reconciled zid info z w b hz hreconcile hwrote =>
    have hfiled : w.cs.Filed (· ∈ s.zones) := reconcileInto_filed (fun _ => id) .blank hreconcile
    obtain ⟨hmoves, hhand'⟩ := movesAt_of_grows h hhand hfresh (reconcileInto_grows hreconcile)
      (hwrote.rewrites (by simp)) hfiled (fun d hd => absurd hd not_mem_nil)
      (fun u hu => absurd hu not_mem_nil) fun i hi => absurd hi not_mem_nil
    refine ⟨zonesFit_of_moves ht hfit hnames hmoves (fun z' hz' => ?_)
      fun z' hz' => hwrote.touched ht hfiled hz', hhand'⟩
    obtain ⟨o, hwhere, hid, -⟩ := write_zone_from h hwrote.write hz'
    rw [hwrote.zones] at hwhere
    simp only [not_mem_nil, or_false] at hwhere
    exact ⟨o, hwhere, hid⟩
  | @updated z before info events b hbefore hname _ hset _ hzones hwrite =>
    have hrw := write_rewrites (by simp [hzones]) hwrite
    rw [hset] at hrw
    have hmoves := hrw.movesAt h hhand (.blank (Z := fun _ => True))
      (fun d hd => absurd hd not_mem_nil) fun u hu => absurd hu not_mem_nil
    refine ⟨zonesFit_of_moves ht hfit hnames hmoves (fun z' hz' => ?_) fun _ _ => rfl,
      fun r hr => hhand r (hmoves.comes r hr not_mem_nil)⟩
    obtain ⟨o, hwhere, hid, -⟩ := write_zone_from h hwrite hz'
    rw [hzones] at hwhere
    rcases hwhere with ho | ho | ho
    · exact ⟨o, ho, hid⟩
    · simp at ho
    · obtain ⟨hmem, hbid⟩ := h.zoneByID_eq_ok.mp hbefore
      rw [mem_singleton, ZoneOp.update.injEq] at ho
      exact ⟨before, hmem, hbid.trans (by rw [← hid, ho]; rfl)⟩
  | deleted hz hremovals hwrote =>
    have hfiled := queueRemovals_filed (fun _ => id) ChangeSet.Filed.blank hremovals
    have hmoves := movesAt_of_deleted h hhand hremovals hwrote hfiled
    refine ⟨zonesFit_of_moves ht hfit hnames hmoves (fun z' hz' => ?_)
      fun z' hz' => hwrote.touched ht hfiled hz',
      fun r hr => hhand r (records_of_deleted h hremovals hwrote r hr)⟩
    obtain ⟨o, hwhere, hid, -⟩ := write_zone_from h hwrote.write hz'
    rw [hwrote.zones] at hwhere
    rcases hwhere with ho | ho | ho
    · exact ⟨o, ho, hid⟩
    · simp at ho
    · simp at ho

end Env

/-- Whatever a change set makes of a zone that `ValidateZone` accepts, the check of the
names it touches accepts exactly what `ValidateZone` does; and every zone that accepted
operations lead to is one `ValidateZone` accepts. -/
theorem touched_check_is_whole_check :
    (∀ (z : Zone) (before : List Record) (ch : Changes) (t : Store),
      validateZone z before = .ok () → ch.Marked → ch.Gives before (t.recordsOf z.id) →
        (validateTouched t z ch.touched = .ok () ↔
          validateZone z (t.recordsOf z.id) = .ok ())) ∧
      ∀ (steps : List (Env × Operation)) (t : Store),
        Along (fun s env op => env.Fresh s ∧ op.Authored) blank steps →
          performAll blank steps = .ok t →
            ∀ z ∈ t.zones, validateZone z (t.recordsOf z.id) = .ok () := by
  constructor
  · intro z before ch t hvalid hmarked hgives
    exact hgives.validateTouched_iff hmarked hvalid
  · intro steps t hcond hrun z hz
    have hinv : t.Sound ∧ t.ZonesFit ∧ t.DelegatesByHand := by
      refine performAll_invariant (fun s => s.Sound ∧ s.ZonesFit ∧ s.DelegatesByHand) ?_ hcond hrun
        ⟨Sound.empty, fun z hz => absurd hz not_mem_nil,
          fun r hr => absurd hr not_mem_nil⟩
      intro s env op t res hmeets hok hs
      exact ⟨(Env.perform_outcome hok).sound hs.1,
        Env.perform_zonesFit hs.1 hmeets.1 hmeets.2 hok hs.2.1 hs.2.2⟩
    exact validateZone_eq_ok.mpr (hinv.2.1 z hz)

namespace Sample

def texts : List Record :=
  [record 11 1 ["ex"] typeNS "ns.", record 12 1 ["a", "d", "ex"] 16 "x"]

def above : Record := record 13 1 ["d", "ex"] typeNS "ns."

end Sample

/-- A delegation over text, which both checks refuse, and a run with a classless child,
which leaves zones that the whole check accepts. -/
theorem touched_check_is_whole_check_delegation :
    (validateZone (Sample.zone 1 ["ex"]) Sample.texts = .ok () ∧
      ∃ t : Store, t.records = texts ++ [above] ∧
        validateTouched t (Sample.zone 1 ["ex"]) [Sample.above.name] ≠ .ok () ∧
        validateZone (Sample.zone 1 ["ex"]) (t.recordsOf (.ulid 1)) ≠ .ok ()) ∧
      ∃ t, performAll blank (steps reverseRun) = .ok t ∧ t.zones.length = 3 ∧
        ∀ z ∈ t.zones, validateZone z (t.recordsOf z.id) = .ok () := by
  constructor
  · let t := Sample.store [Sample.zone 1 ["ex"]] (Sample.texts ++ [Sample.above])
    have hvalid : validateZone (Sample.zone 1 ["ex"]) Sample.texts = .ok () := by decide +kernel
    have hgives : (Changes.blank.insert above).Gives texts (t.recordsOf (.ulid 1)) :=
      ⟨texts, by decide +kernel, by decide +kernel⟩
    have hiff := touched_check_is_whole_check.1 (Sample.zone 1 ["ex"]) _ _ t hvalid
      Changes.Marked.blank.insert hgives
    have hrefused : validateTouched t (Sample.zone 1 ["ex"]) [Sample.above.name] ≠ .ok () := by
      decide +kernel
    exact ⟨hvalid, t, rfl, hrefused, fun hok => hrefused (hiff.mpr hok)⟩
  · obtain ⟨t, hrun, hzones⟩ := ok_of_any
      (show (performAll blank (steps reverseRun)).toOption.any
        (fun t => decide (t.zones.length = 3)) = true by decide +kernel)
    have hcond := along_of_meets (fun _ _ _ => True)
      (show meets _ blank reverseRun = true by decide +kernel)
    exact ⟨t, hrun, of_decide_eq_true hzones, touched_check_is_whole_check.2 _ t
      (hcond.imp fun hmeets => ⟨hmeets.1.fresh, hmeets.1.authored⟩) hrun⟩

end Wegweiser
