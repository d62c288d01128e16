/-
`Resolve` and the name search of RFC 1034 section 4.3.2 with the wildcards of RFC 4592.

The RFCs search the records of one class, and hand a name over to the first delegation met on the
way down.
-/
import Wegweiser.DNS.Plain
import Wegweiser.DNS.Resolve
import Wegweiser.Apply.Operation

namespace Wegweiser

open Checked List Sample

namespace DNS

variable {R : Type}

def canonical (lib : RRLibrary) (held : List (Contents lib.RR)) (q : Question) : Reply lib.RR :=
  searchHeld lib Contents.cut (held.map fun c => c.inClass q.cls) q

def isDelegation (z : Zone) (r : Record) : Bool :=
  isServed r && r.type == typeNS && r.name != z.name

def Flat (z : Zone) (records : List Record) : Prop :=
  ∀ r ∈ records, ∀ r' ∈ records, isDelegation z r = true → isDelegation z r' = true →
    r.name.isSubDomainOf r'.name = true → r.name = r'.name

instance {z : Zone} {records : List Record} : Decidable (Flat z records) :=
  inferInstanceAs (Decidable (∀ r ∈ records, ∀ r' ∈ records, _ → _ → _ → _))

def OneClass (records : List Record) : Prop :=
  ∀ r ∈ records, isServed r = true → r.cls = classIN

instance {records : List Record} : Decidable (OneClass records) :=
  inferInstanceAs (Decidable (∀ r ∈ records, _ → _))

section Contents

variable {lib : RRLibrary} {z : Zone} {records : List Record} {c : Contents lib.RR}

theorem mem_contents (hok : contents lib z records = .ok c) {e : Entry lib.RR}
    (he : e ∈ c.entries) :
    (e.name = z.name ∧ e.cls = classIN ∧ e.typ = typeSOA) ∨
      ∃ r ∈ records, isServed r = true ∧ recordEntry lib r = .ok e := by
  simp only [contents, bind_eq_ok, pure_eq_ok] at hok
  obtain ⟨soa, -, negSOA, -, entries, hentries, rfl⟩ := hok
  rcases mem_cons.mp he with rfl | he
  · exact .inl ⟨rfl, rfl, rfl⟩
  · obtain ⟨r, hr, hentry⟩ := mem_of_mapM_eq_ok hentries he
    obtain ⟨hmem, hserved⟩ := mem_filter.mp hr
    exact .inr ⟨r, hmem, hserved, hentry⟩

theorem apex_contents (hok : contents lib z records = .ok c) : c.apex = z.name := by
  simp only [contents, bind_eq_ok, pure_eq_ok] at hok
  obtain ⟨soa, -, negSOA, -, entries, -, rfl⟩ := hok
  rfl

theorem delegation_of_delegates (hok : contents lib z records = .ok c) {n : Name}
    (h : c.delegates n = true) : ∃ r ∈ records, isDelegation z r = true ∧ r.name = n := by
  obtain ⟨hne, e, he, rfl, htyp⟩ := Contents.delegates_iff.mp h
  rcases mem_contents hok he with ⟨-, -, hsoa⟩ | ⟨r, hr, hserved, hentry⟩
  · rw [htyp] at hsoa
    exact absurd hsoa (by decide)
  · obtain ⟨hname, -, hrtyp, -⟩ := recordEntry_eq_ok hentry
    rw [apex_contents hok, hname] at hne
    refine ⟨r, hr, ?_, hname.symm⟩
    rw [htyp] at hrtyp
    simp [isDelegation, hserved, ← hrtyp, hne]

theorem OneClass.inClass (h : OneClass records) (hok : contents lib z records = .ok c) :
    c.inClass classIN = c := by
  have hall : (c.entries.filter fun e => e.cls == classIN) = c.entries := by
    rw [filter_eq_self]
    intro e he
    rw [beq_iff_eq]
    rcases mem_contents hok he with ⟨-, hcls, -⟩ | ⟨r, hr, hserved, hentry⟩
    · exact hcls
    · exact (recordEntry_eq_ok hentry).2.1.trans (h r hr hserved)
  rw [Contents.inClass, hall]

theorem find_of_perm {α : Type} {p : α → Bool} {l l' : List α} (hperm : l'.Perm l)
    (hone : ∀ a ∈ l, ∀ b ∈ l, p a = true → p b = true → a = b) : l'.find? p = l.find? p := by
  cases hfound : l.find? p with
  | none =>
    rw [find?_eq_none] at hfound ⊢
    intro a ha
    exact hfound a (hperm.mem_iff.mp ha)
  | some a =>
    have hsome : (l'.find? p).isSome := by
      rw [find?_isSome]
      exact ⟨a, hperm.mem_iff.mpr (mem_of_find?_eq_some hfound), find?_some hfound⟩
    obtain ⟨b, hb⟩ := Option.isSome_iff_exists.mp hsome
    rw [hb, hone b (hperm.mem_iff.mp (mem_of_find?_eq_some hb)) a
      (mem_of_find?_eq_some hfound) (find?_some hb) (find?_some hfound)]

theorem Flat.cut_eq_nearest (h : Flat z records) (hok : contents lib z records = .ok c)
    (n : Name) : c.cut n = c.nearest n := by
  refine find_of_perm (reverse_perm _) fun a ha b hb hda hdb => ?_
  obtain ⟨r, hr, hdr, rfl⟩ := delegation_of_delegates hok hda
  obtain ⟨r', hr', hdr', rfl⟩ := delegation_of_delegates hok hdb
  rcases Name.isSubDomainOf_total (Name.mem_upwards.mp ha) (Name.mem_upwards.mp hb) with hbelow | hbelow
  · exact h r hr r' hr' hdr hdr' hbelow
  · exact (h r' hr' r hr hdr' hdr hbelow).symm

end Contents

section Chase

variable {lib : RRLibrary} {held : List (Contents lib.RR)} {q : Question}

variable {n : Name} {pick pick' : Contents lib.RR → Name → Option Name}

theorem mem_of_zoneOf {c : Contents R} {held : List (Contents R)}
    (h : zoneOf held n = some c) : c ∈ held := by
  obtain ⟨apex, -, hfound⟩ := exists_of_findSome?_eq_some h
  exact mem_of_find?_eq_some hfound

theorem chase_congr (h : ∀ c ∈ held, ∀ n, pick c n = pick' c n) {left : Nat} {chased : Bool}
    {c : Contents lib.RR} (hc : c ∈ held) {gathered : List lib.RR} :
    chase lib pick held q left chased c n gathered =
      chase lib pick' held q left chased c n gathered := by
  induction left generalizing chased c n gathered with
  | zero =>
    rw [chase.eq_def, chase.eq_def]
    dsimp only
    rw [h c hc]
  | succ left ih =>
    rw [chase.eq_def, chase.eq_def]
    dsimp only
    rw [h c hc]
    split
    · rfl
    · split
      · rfl
      · next hzone => exact ih (mem_of_zoneOf hzone)

theorem searchHeld_congr (h : ∀ c ∈ held, ∀ n, pick c n = pick' c n) :
    searchHeld lib pick held q = searchHeld lib pick' held q := by
  rw [searchHeld, searchHeld]
  split
  · rfl
  · next hzone => exact chase_congr h (mem_of_zoneOf hzone)

end Chase

section Agree

variable (lib : RRLibrary) (records : ZoneID → List Record) (zones : List Zone)
  (s : Snapshot lib.RR) (q : Question)

/-- `Resolve` gives what the RFCs give, where no delegation lies below another and one class is
served: the depths, the wildcard pointers and the delegation pointers of the trees leave no
trace in the response.  A chain that is too long is answered with nothing in any section. -/
theorem resolve_canonical (hnames : (zones.map Zone.name).Nodup)
    (hbuild : build lib records zones = .ok s)
    (hflat : ∀ z ∈ zones, z.disabled = false → Flat z (records z.id))
    (hclass : ∀ z ∈ zones, z.disabled = false → OneClass (records z.id))
    (hin : q.cls = classIN) (hq : ordinary q.typ = true) :
    ∃ held, served lib records zones = .ok held ∧
      (s.resolve lib q).reply = canonical lib held q ∧
      ((s.resolve lib q).rcode = .serverFailure → (s.resolve lib q).additional = []) := by
  obtain ⟨held, hheld, hserving⟩ := build_serving hnames hbuild
  have hfrom : ∀ c ∈ held, ∃ z ∈ zones, z.disabled = false ∧
      contents lib z (records z.id) = .ok c := by
    intro c hc
    obtain ⟨z, hz, hok⟩ := mem_of_mapM_eq_ok hheld hc
    obtain ⟨hmem, henabled⟩ := mem_filter.mp hz
    exact ⟨z, hmem, by simpa using henabled, hok⟩
  have hmap : (held.map fun c => c.inClass q.cls) = held := by
    rw [hin]
    conv_rhs => rw [← map_id held]
    refine map_congr_left fun c hc => ?_
    obtain ⟨z, hz, henabled, hok⟩ := hfrom c hc
    exact (hclass z hz henabled).inClass hok
  refine ⟨held, hheld, ?_, Snapshot.resolve_failure⟩
  rw [hserving.resolve_reply hq, canonical, hmap]
  refine searchHeld_congr fun c hc n => ?_
  obtain ⟨z, hz, henabled, hok⟩ := hfrom c hc
  exact ((hflat z hz henabled).cut_eq_nearest hok n).symm

end Agree

end DNS

namespace Sample

open DNS

def question (labels : List String) (typ : RRType) : Question := ⟨name labels, classIN, typ⟩

def servedZones : List Zone := [zone 1 ["ex"], zone 2 ["net"]]

def servedRecords (id : ZoneID) : List Record :=
  if id = .ulid 1 then
    [record 1 1 ["ex"] typeNS "ns.", record 2 1 ["a", "ex"] typeCNAME "b.net.",
      record 3 1 ["*", "ex"] typeA "192.0.2.1", record 4 1 ["sub", "ex"] typeNS "ns.sub.ex."]
  else [record 5 2 ["net"] typeNS "ns.", record 6 2 ["b", "net"] typeA "192.0.2.2"]

def mixedRecords : List Record :=
  [record 1 1 ["ex"] typeNS "ns.", { record 2 1 ["sub", "ex"] typeNS "ns." with cls := 3 }]

end Sample

namespace DNS

theorem resolve_canonical_alias :
    ∃ s held, build RRLibrary.plain servedRecords servedZones = .ok s ∧
      served RRLibrary.plain servedRecords servedZones = .ok held ∧
      (s.resolve RRLibrary.plain (Sample.question ["a", "ex"] typeA)).answer.length = 2 ∧
      (s.resolve RRLibrary.plain (Sample.question ["a", "ex"] typeA)).reply =
        canonical RRLibrary.plain held (Sample.question ["a", "ex"] typeA) := by
  obtain ⟨s, hbuild, htwo⟩ := ok_of_any
    (show (build RRLibrary.plain servedRecords servedZones).toOption.any (fun s =>
      decide ((s.resolve RRLibrary.plain (Sample.question ["a", "ex"] typeA)).answer.length = 2)) =
        true by decide +kernel)
  obtain ⟨held, hheld, heq, -⟩ := resolve_canonical RRLibrary.plain servedRecords
    Sample.servedZones s (Sample.question ["a", "ex"] typeA) (by decide +kernel) hbuild
    (by decide +kernel) (by decide +kernel) rfl rfl
  exact ⟨s, held, hbuild, hheld, of_decide_eq_true htwo, heq⟩

/-- A name server of another class takes a name away from class IN: what should not exist is
referred to nobody. -/
theorem resolve_mixes_classes :
    validateZone (Sample.zone 1 ["ex"]) Sample.mixedRecords = .ok () ∧
      Flat (Sample.zone 1 ["ex"]) Sample.mixedRecords ∧
      ∃ s held, build RRLibrary.plain (fun _ => Sample.mixedRecords) [Sample.zone 1 ["ex"]] = .ok s ∧
        served RRLibrary.plain (fun _ => Sample.mixedRecords) [Sample.zone 1 ["ex"]] = .ok held ∧
        (s.resolve RRLibrary.plain (Sample.question ["sub", "ex"] typeA)).reply =
          ⟨.success, false, [], []⟩ ∧
        (canonical RRLibrary.plain held (Sample.question ["sub", "ex"] typeA)).rcode =
          .nameError := by
  refine ⟨by decide +kernel, by decide +kernel, ?_⟩
  obtain ⟨s, hbuild, hempty⟩ := ok_of_any
    (show (build RRLibrary.plain (fun _ => mixedRecords)
      [Sample.zone 1 ["ex"]]).toOption.any (fun s =>
        decide ((s.resolve RRLibrary.plain (Sample.question ["sub", "ex"] typeA)).reply =
          ⟨.success, false, [], []⟩)) = true by decide +kernel)
  obtain ⟨held, hheld, hname⟩ := ok_of_any
    (show (served RRLibrary.plain (fun _ => mixedRecords)
      [Sample.zone 1 ["ex"]]).toOption.any (fun held =>
        decide ((canonical RRLibrary.plain held (Sample.question ["sub", "ex"] typeA)).rcode =
          .nameError)) = true by decide +kernel)
  exact ⟨s, held, hbuild, hheld, of_decide_eq_true hempty, of_decide_eq_true hname⟩

end DNS

end Wegweiser
