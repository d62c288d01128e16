/-
Which delegation a name is handed over to.

RFC 1034 section 4.3.2 walks down from the apex and stops at the first delegation it meets.
-/
import Wegweiser.DNS.Canonical

namespace Wegweiser

open Checked List Sample Bool

namespace DNS

/-- The first name on the way down from the apex at which name servers of class IN stand. -/
def topmost (z : Zone) (records : List Record) (n : Name) : Option Name :=
  n.upwards.reverse.find? fun m =>
    records.any fun r => isDelegation z r && (r.cls == classIN && r.name == m)

def serversAt (lib : RRLibrary) (records : List Record) (d : Name) : Except Err (List lib.RR) :=
  (records.filter fun r =>
    isServed r && (r.name == d && (r.cls == classIN && r.type == typeNS))).mapM lib.recordRR

theorem isSubDomainOf_of_find {p : Name → Bool} {n d m : Name} (hfound : n.upwards.find? p = some d)
    (hm : n.isSubDomainOf m = true) (hp : p m = true) : d.isSubDomainOf m = true := by
  generalize hl : n.upwards = l at hfound
  induction l generalizing n with
  | nil => cases hfound
  | cons head rest ih =>
    obtain ⟨rfl, hrest⟩ := cons.inj ((Name.upwards_eq n).symm.trans hl)
    rw [find?_cons] at hfound
    cases hhead : p n with
    | true =>
      rw [hhead] at hfound
      cases hfound
      exact hm
    | false =>
      rw [hhead] at hfound
      rcases Name.isSubDomainOf_cases hm with rfl | ⟨parent, hparent, habove⟩
      · rw [hp] at hhead
        cases hhead
      · rw [hparent] at hrest
        exact ih habove hrest hfound

section Servers

variable {lib : RRLibrary} {z : Zone} {records : List Record} {c : Contents lib.RR} {d : Name}

theorem serversAt_entries {served : List Record} {entries : List (Entry lib.RR)}
    (h : served.mapM (recordEntry lib) = .ok entries) (d : Name) :
    (served.filter fun r => r.name == d && (r.cls == classIN && r.type == typeNS)).mapM
        lib.recordRR =
      .ok ((entries.filter fun e => e.name == d && (e.cls == classIN && e.typ == typeNS)).map
        Entry.rr) := by
  induction served generalizing entries with
  | nil =>
    cases h
    rfl
  | cons r rest ih =>
    simp only [mapM_cons, bind_eq_ok, pure_eq_ok] at h
    obtain ⟨e, he, more, hmore, rfl⟩ := h
    obtain ⟨hname, hcls, htyp, hrr, -⟩ := recordEntry_eq_ok he
    rw [filter_cons, filter_cons, hname, hcls, htyp]
    split
    · rw [mapM_cons, hrr, ih hmore]
      rfl
    · exact ih hmore

theorem serversAt_eq_ok (hok : contents lib z records = .ok c) (d : Name) :
    serversAt lib records d = .ok ((c.standing d classIN typeNS).map Entry.rr) := by
  simp only [contents, bind_eq_ok, pure_eq_ok] at hok
  obtain ⟨soa, -, negSOA, -, entries, hentries, rfl⟩ := hok
  have hsoa : (z.name == d && (classIN == classIN && typeSOA == typeNS)) = false := by
    rw [show (typeSOA == typeNS) = false from rfl, Bool.and_false, Bool.and_false]
  rw [serversAt, Contents.standing, filter_cons, hsoa, if_neg Bool.false_ne_true,
    ← serversAt_entries hentries d, filter_filter]
  refine congrArg (fun p => (records.filter p).mapM lib.recordRR) (funext fun r => ?_)
  exact Bool.and_comm _ _

theorem entry_of_record (hok : contents lib z records = .ok c) {r : Record} (hr : r ∈ records)
    (hserved : isServed r = true) : ∃ e ∈ c.entries, recordEntry lib r = .ok e := by
  simp only [contents, bind_eq_ok, pure_eq_ok] at hok
  obtain ⟨soa, -, negSOA, -, entries, hentries, rfl⟩ := hok
  obtain ⟨e, he, hentry⟩ := exists_of_mapM_eq_ok hentries (mem_filter.mpr ⟨hr, hserved⟩)
  exact ⟨e, mem_cons_of_mem _ he, hentry⟩

theorem delegates_of_delegation (hok : contents lib z records = .ok c) {r : Record}
    (hr : r ∈ records) (hd : isDelegation z r = true) : c.delegates r.name = true := by
  simp only [isDelegation, and_eq_true, beq_iff_eq, bne_iff_ne] at hd
  obtain ⟨e, he, hentry⟩ := entry_of_record hok hr hd.1.1
  obtain ⟨hname, -, htyp, -⟩ := recordEntry_eq_ok hentry
  exact Contents.delegates_iff.mpr
    ⟨apex_contents hok ▸ hd.2, e, he, hname, htyp.trans hd.1.2⟩

end Servers

section Topmost

variable {z : Zone} {records : List Record} {n d : Name}

theorem delegation_of_topmost (h : topmost z records n = some d) :
    n.isSubDomainOf d = true ∧
      ∃ r ∈ records, isDelegation z r = true ∧ r.cls = classIN ∧ r.name = d := by
  have hmem := mem_of_find?_eq_some h
  have hp := find?_some h
  simp only [any_eq_true, and_eq_true, beq_iff_eq] at hp
  exact ⟨Name.mem_upwards.mp (mem_reverse.mp hmem), hp⟩

end Topmost

section Referred

variable (lib : RRLibrary) (owner : lib.RR → Name)
  (howner : ∀ r rr, lib.recordRR r = .ok rr → owner rr = r.name)
  (z : Zone) (records : List Record) (s : Snapshot lib.RR) (q : Question) (d : Name)

theorem resolve_below {lib : RRLibrary} {z : Zone} {records : List Record} {s : Snapshot lib.RR}
    {q : Question} {c : Contents lib.RR} {d : Name} (henabled : z.disabled = false)
    (hbuild : build lib (fun _ => records) [z] = .ok s) (hok : contents lib z records = .ok c)
    (hq : ordinary q.typ = true) (hnearest : c.nearest q.name = some d) :
    (s.resolve lib q).reply =
      ⟨.success, false, [], (c.standing d q.cls typeNS).map Entry.rr⟩ := by
  obtain ⟨held, hheld, hserving⟩ := build_serving (by simp) hbuild
  have hone : held = [c] := by
    rw [served, filter_cons_of_pos (by simp [henabled]), filter_nil, mapM_cons,
      hok] at hheld
    cases hheld
    rfl
  have hbuilt : c.Inside := by
    have hzone := hserving.zone c.apex
    rw [hone, find?_cons_of_pos (by simp)] at hzone
    generalize s.zoneAt c.apex = t at hzone
    cases hzone with
    | some hbuilt => exact hbuilt.inside
  -- the zone is the one above the name
  have hin : q.name.isSubDomainOf c.apex = true := by
    have habove : q.name.isSubDomainOf d = true :=
      Name.mem_upwards.mp (mem_of_find?_eq_some hnearest)
    have hhas := Contents.has_of_delegates hbuilt (find?_some hnearest)
    exact Name.isSubDomainOf_trans habove (Contents.has_iff.mp hhas).1
  have hzone : zoneOf held q.name = some c := by
    rw [zoneOf, hone]
    have hsome : (q.name.upwards.findSome? fun apex => [c].find? fun o => o.apex == apex).isSome := by
      rw [isSome_findSome?, any_eq_true]
      exact ⟨c.apex, Name.mem_upwards.mpr hin, by simp⟩
    obtain ⟨o, ho⟩ := Option.isSome_iff_exists.mp hsome
    have hmem : o ∈ [c] := mem_of_zoneOf ho
    rw [ho, mem_singleton.mp hmem]
  rw [hserving.resolve_reply hq, searchHeld, hzone]
  dsimp only
  rw [chase.eq_def]
  dsimp only
  rw [hnearest]
  rfl

include howner in
/-- A question at or below delegations is referred to the topmost of them just when no name
server stands below that one on the way to the name. -/
theorem referral_topmost_iff (henabled : z.disabled = false)
    (hbuild : build lib (fun _ => records) [z] = .ok s) (hin : q.cls = classIN)
    (hq : ordinary q.typ = true) (htop : topmost z records q.name = some d) :
    ∃ servers, serversAt lib records d = .ok servers ∧
      ((s.resolve lib q).reply = ⟨.success, false, [], servers⟩ ↔
        ∀ r ∈ records, isDelegation z r = true → q.name.isSubDomainOf r.name = true →
          d.isSubDomainOf r.name = true) := by
  obtain ⟨hbelow, top, htopmem, htopdel, htopcls, htopname⟩ := delegation_of_topmost htop
  obtain ⟨held, hheld, -⟩ := build_serving (by simp) hbuild
  obtain ⟨c, hok⟩ : ∃ c, contents lib z records = .ok c := by
    rw [served, filter_cons_of_pos (by simp [henabled])] at hheld
    obtain ⟨c, -, hok⟩ := exists_of_mapM_eq_ok hheld mem_cons_self
    exact ⟨c, hok⟩
  have hdelegates : c.delegates d = true := htopname ▸ delegates_of_delegation hok htopmem htopdel
  -- the nearest delegation is at or below the topmost
  have hsome : (c.nearest q.name).isSome := by
    rw [Contents.nearest, find?_isSome]
    exact ⟨d, Name.mem_upwards.mpr hbelow, hdelegates⟩
  obtain ⟨d', hnearest⟩ := Option.isSome_iff_exists.mp hsome
  have hlow : ∀ m, q.name.isSubDomainOf m = true → c.delegates m = true →
      d'.isSubDomainOf m = true := fun m => isSubDomainOf_of_find hnearest
  refine ⟨_, serversAt_eq_ok hok d, ?_⟩
  rw [resolve_below henabled hbuild hok hq hnearest, hin]
  constructor
  · intro heq r hr hdel hpath
    have hservers : (c.standing d' classIN typeNS).map Entry.rr =
        (c.standing d classIN typeNS).map Entry.rr := (congrArg Reply.authority heq :)
    have hsame : d' = d := by
      simp only [isDelegation, and_eq_true, beq_iff_eq] at htopdel
      obtain ⟨e, he, hentry⟩ := entry_of_record hok htopmem htopdel.1.1
      obtain ⟨hname, hcls, htyp, hrr, -⟩ := recordEntry_eq_ok hentry
      have hstanding : e.rr ∈ (c.standing d classIN typeNS).map Entry.rr := by
        refine mem_map_of_mem (mem_filter.mpr ⟨he, ?_⟩)
        simp [hname, htopname, hcls, htopcls, htyp, htopdel.1.2]
      rw [← hservers] at hstanding
      obtain ⟨e', he', hrr'⟩ := mem_map.mp hstanding
      obtain ⟨hmem', hkind⟩ := mem_filter.mp he'
      simp only [and_eq_true, beq_iff_eq] at hkind
      -- two records in one form have one owner
      rcases mem_contents hok hmem' with ⟨-, -, hsoa⟩ | ⟨r', -, -, hentry'⟩
      · rw [hkind.2.2] at hsoa
        exact absurd hsoa (by decide)
      · obtain ⟨hname', -, -, hrec', -⟩ := recordEntry_eq_ok hentry'
        have howner' := howner r' e'.rr hrec'
        rw [hrr', howner top e.rr hrr, htopname, ← hname', hkind.1] at howner'
        exact howner'.symm
    rw [← hsame]
    exact hlow r.name hpath (delegates_of_delegation hok hr hdel)
  · intro hcond
    obtain ⟨r, hr, hdel, hname⟩ := delegation_of_delegates hok (find?_some hnearest)
    have hpath : q.name.isSubDomainOf r.name = true :=
      hname ▸ Name.mem_upwards.mp (mem_of_find?_eq_some hnearest)
    have hsame : d' = d :=
      Name.isSubDomainOf_antisymm (hlow d hbelow hdelegates) (hname ▸ hcond r hr hdel hpath)
    rw [hsame]

end Referred

end DNS

namespace Sample

def delegating : List Record :=
  [record 1 1 ["ex"] typeNS "ns.", record 2 1 ["sub", "ex"] typeNS "ns."]

def nested : List Record :=
  delegating ++ [record 3 1 ["deep", "sub", "ex"] typeNS "ns."]

end Sample

namespace DNS

theorem referral_topmost_single :
    ∃ s servers, build RRLibrary.plain (fun _ => Sample.delegating) [Sample.zone 1 ["ex"]] = .ok s ∧
      serversAt RRLibrary.plain Sample.delegating (Sample.name ["sub", "ex"]) = .ok servers ∧
      (s.resolve RRLibrary.plain (Sample.question ["a", "sub", "ex"] typeA)).reply =
        ⟨.success, false, [], servers⟩ := by
  obtain ⟨s, hbuild⟩ := accepted_of_isOk (x := build RRLibrary.plain (fun _ => delegating)
    [Sample.zone 1 ["ex"]]) (by decide +kernel)
  obtain ⟨servers, hservers, hiff⟩ := referral_topmost_iff RRLibrary.plain RRLibrary.plainOwner
    RRLibrary.plainOwner_eq (Sample.zone 1 ["ex"]) Sample.delegating s
    (Sample.question ["a", "sub", "ex"] typeA) (Sample.name ["sub", "ex"]) rfl hbuild rfl rfl
    (by decide +kernel)
  exact ⟨s, servers, hbuild, hservers, hiff.mpr (by decide +kernel)⟩

/-- With a delegation below a delegation the response names the servers of the lower one. -/
theorem referral_nested :
    validateZone (Sample.zone 1 ["ex"]) Sample.nested = .ok () ∧
      topmost (Sample.zone 1 ["ex"]) Sample.nested (Sample.name ["a", "deep", "sub", "ex"]) =
        some (Sample.name ["sub", "ex"]) ∧
      ∃ s lower upper,
        build RRLibrary.plain (fun _ => Sample.nested) [Sample.zone 1 ["ex"]] = .ok s ∧
        serversAt RRLibrary.plain Sample.nested (Sample.name ["deep", "sub", "ex"]) = .ok lower ∧
        serversAt RRLibrary.plain Sample.nested (Sample.name ["sub", "ex"]) = .ok upper ∧
        (s.resolve RRLibrary.plain (Sample.question ["a", "deep", "sub", "ex"] typeA)).reply =
          ⟨.success, false, [], lower⟩ ∧ lower ≠ upper := by
  refine ⟨by decide +kernel, by decide +kernel, ?_⟩
  obtain ⟨upper, hupper⟩ := accepted_of_isOk (x := serversAt RRLibrary.plain nested
    (Sample.name ["sub", "ex"])) (by decide +kernel)
  obtain ⟨lower, hlower, hne⟩ := ok_of_any (show (serversAt RRLibrary.plain nested
    (Sample.name ["deep", "sub", "ex"])).toOption.any (fun lower => decide
      (serversAt RRLibrary.plain Sample.nested (Sample.name ["sub", "ex"]) ≠ .ok lower)) = true by
        decide +kernel)
  obtain ⟨s, hbuild, hreply⟩ := ok_of_any (show (build RRLibrary.plain (fun _ => nested)
    [Sample.zone 1 ["ex"]]).toOption.any (fun s => decide
      (serversAt RRLibrary.plain Sample.nested (Sample.name ["deep", "sub", "ex"]) = .ok
          (s.resolve RRLibrary.plain (Sample.question ["a", "deep", "sub", "ex"] typeA)).authority ∧
        (s.resolve RRLibrary.plain (Sample.question ["a", "deep", "sub", "ex"] typeA)).reply =
          ⟨.success, false, [],
            (s.resolve RRLibrary.plain
              (Sample.question ["a", "deep", "sub", "ex"] typeA)).authority⟩)) = true by
        decide +kernel)
  obtain ⟨hsame, hreply⟩ := of_decide_eq_true hreply
  rw [hlower] at hsame
  rw [← Except.ok.inj hsame] at hreply
  refine ⟨s, lower, upper, hbuild, hlower, hupper, hreply, ?_⟩
  rw [hupper] at hne
  exact fun heq => of_decide_eq_true hne (congrArg Except.ok heq.symm)

end DNS

end Wegweiser
