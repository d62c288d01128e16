/-
Record data in canonical form.

The wire library reads a line of presentation format under an origin and prints it back.
-/
import Mathlib.Data.List.DropRight
import Mathlib.Data.List.Forall2
import Wegweiser.Lib.Marked
import Wegweiser.Zone.WireForm

namespace Wegweiser

open Checked Marked List

namespace WireLibrary

variable (lib : WireLibrary)

/-- A field of a record that holds names: whether its tag has it as a domain name, whether it is a
list, and how many names it holds. -/
structure NameField where
  tagged : Bool
  list : Bool
  count : Nat
deriving DecidableEq

/-- `domainNameFields`, of the names of a record those that stand in a field it finds. -/
def found (fields : List NameField) : List Bool :=
  fields.flatMap fun f => replicate f.count (f.tagged && !f.list)

/-- The presentation format of the library: a text read into names, as they are written, and
everything else; and the record and the text made of the two. -/
structure Presentation (lib : WireLibrary) where
  Shape : Type
  type : Shape → RRType × Class
  nameFields : Shape → List NameField
  read : RRType → Class → Octets → Option (Shape × List Octets)
  make : Shape → List Octets → lib.RR
  print : Shape → List Octets → Except Err Octets
  /-- A name that is fully qualified. -/
  qualified : Octets → Bool
  /-- A name that is not, made so with an origin. -/
  complete : (origin name : Octets) → Octets
  /-- A name as it is printed. -/
  normal : Octets → Octets
  /-- A name the library takes. -/
  nameOk : Octets → Bool
  /-- An origin the library takes. -/
  originOk : Octets → Prop

namespace Presentation

variable {lib} (P : lib.Presentation)

/-- Which names of a record of a shape `domainNameFields` finds. -/
def marks (sh : P.Shape) : List Bool := found (P.nameFields sh)

/-- What the library is relied on for: it reads a line as the record it describes, relative names
completed and the others as they are, and prints a record as a line that is read as it again. -/
structure Faithful : Prop where
  probes : P.originOk probeOriginA ∧ P.originOk probeOriginB
  parses : ∀ t c s o, P.originOk o → lib.parse t c s o = (P.read t c s).bind fun r =>
    if (r.2.map (P.complete o)).all P.nameOk then some (P.make r.1 (r.2.map (P.complete o)))
    else none
  typed : ∀ {t c s sh ns}, P.read t c s = some (sh, ns) →
    P.type sh = (t, c) ∧ ns.length = (P.marks sh).length
  finds : ∀ sh ns, ns.length = (P.marks sh).length →
    lib.domainNames (P.make sh ns) = pick (P.marks sh) ns
  sets : ∀ sh ns new, ns.length = (P.marks sh).length →
    lib.setDomainNames (P.make sh ns) new = P.make sh (put (P.marks sh) ns new)
  prints : ∀ sh ns, ns.length = (P.marks sh).length →
    lib.extractRData (P.make sh ns) = P.print sh (ns.map P.normal)
  readsBack : ∀ sh ns text, ns.length = (P.marks sh).length →
    (∀ n ∈ ns, P.qualified n = true ∧ P.nameOk n = true ∧ P.normal n = n) →
    P.print sh ns = .ok text → P.read (P.type sh).1 (P.type sh).2 text = some (sh, ns)
  complete_of_qualified : ∀ o n, P.qualified n = true → P.complete o n = n
  qualified_complete : ∀ o n, P.originOk o → P.qualified (P.complete o n) = true
  /-- A name completed under the one origin is told from the same under the other. -/
  completed : ∀ n, P.qualified n = false →
    P.normal (P.complete probeOriginA n) ≠ P.normal (P.complete probeOriginB n)
  normal_normal : ∀ n, P.normal (P.normal n) = P.normal n
  qualified_normal : ∀ n, P.qualified (P.normal n) = P.qualified n
  nameOk_normal : ∀ n, P.nameOk (P.normal n) = P.nameOk n
  parseName_normal : ∀ n, parseName (P.normal n) = parseName n
  ofName : ∀ n : Name, P.qualified n.string = true ∧ P.nameOk n.string = true ∧
    P.normal n.string = n.string

end Presentation

end WireLibrary

theorem trimSpace_trimSpace (s : Octets) : trimSpace (trimSpace s) = trimSpace s := by
  generalize hfront : s.dropWhile isSpace = front
  generalize hback : front.reverse.dropWhile isSpace = back
  have htrim : trimSpace s = back.reverse := by rw [trimSpace, hfront, hback]
  have hkept : back.reverse.dropWhile isSpace = back.reverse := by
    cases hrev : back.reverse with
    | nil => rfl
    | cons c rest =>
      have hprefix : back.reverse <+: front := by
        have hsuffix := dropWhile_suffix (p := isSpace) (l := front.reverse)
        rw [hback] at hsuffix
        simpa using reverse_prefix.mpr hsuffix
      rw [hrev] at hprefix
      obtain ⟨rest', rfl⟩ := hprefix
      have hhead : isSpace c = false := by
        have hnot := head?_dropWhile_not isSpace s
        rw [hfront] at hnot
        simpa using hnot
      rw [dropWhile_cons_of_neg (by simp [hhead])]
  rw [htrim, trimSpace, hkept, reverse_reverse, ← hback, dropWhile_idempotent]

namespace WireLibrary

variable {lib : WireLibrary}

theorem extractRData_trimmed {rr : lib.RR} {text : Octets} (h : lib.extractRData rr = .ok text) :
    trimSpace text = text ∧ text.isEmpty = false := by
  rw [extractRData] at h
  split at h
  · dsimp only at h
    split at h
    · cases h
    · rename_i hne
      obtain rfl := Except.ok.inj h
      exact ⟨trimSpace_trimSpace _, by simpa using hne⟩
  · cases h

theorem canonicalNames_eq_ok {names new : List Octets} :
    canonicalNames names = .ok new ↔
      ∃ ns : List Name, names.map parseName = ns.map .ok ∧ new = ns.map Name.string := by
  rw [canonicalNames]
  induction names generalizing new with
  | nil =>
    simp only [mapM_nil, pure_eq_ok, map_nil]
    constructor
    · rintro rfl
      exact ⟨[], rfl, rfl⟩
    · rintro ⟨ns, hns, rfl⟩
      rw [map_eq_nil_iff.mp hns.symm, map_nil]
  | cons f names ih =>
    simp only [mapM_cons, bind_eq_ok, map_eq_ok, pure_eq_ok, ih]
    constructor
    · rintro ⟨text, ⟨n, hn, rfl⟩, texts, ⟨ns, hns, rfl⟩, rfl⟩
      exact ⟨n :: ns, by simp [hn, hns], rfl⟩
    · rintro ⟨ns, hns, rfl⟩
      cases ns with
      | nil => cases hns
      | cons n ns =>
        obtain ⟨hn, hns⟩ := cons.inj hns
        exact ⟨n.string, ⟨n, hn, rfl⟩, ns.map Name.string, ⟨ns, hns, rfl⟩, rfl⟩

theorem length_of_parsed {fields : List Octets} {names : List Name}
    (h : fields.map parseName = names.map .ok) :
    (names.map Name.string).length = fields.length := by
  have hlength := congrArg length h
  simp only [length_map] at hlength
  rw [length_map, hlength]

theorem length_canonicalNames {names new : List Octets} (h : canonicalNames names = .ok new) :
    new.length = names.length := by
  obtain ⟨ns, hns, rfl⟩ := canonicalNames_eq_ok.mp h
  exact length_of_parsed hns

namespace Presentation

variable {P : lib.Presentation} {t : RRType} {c : Class} {s text a b : Octets} {d : RData}
  {sh : P.Shape} {ns new : List Octets}

theorem Faithful.print_trimmed (F : P.Faithful) (hlen : ns.length = (P.marks sh).length)
    (hprint : P.print sh (ns.map P.normal) = .ok text) :
    trimSpace text = text ∧ text.isEmpty = false :=
  extractRData_trimmed ((F.prints sh ns hlen).trans hprint)

theorem Faithful.parse_eq_some (F : P.Faithful) (ha : P.originOk a) {rr : lib.RR} :
    lib.parse t c s a = some rr ↔ ∃ sh ns, P.read t c s = some (sh, ns) ∧
      (ns.map (P.complete a)).all P.nameOk = true ∧ P.make sh (ns.map (P.complete a)) = rr := by
  rw [F.parses t c s a ha, Option.bind_eq_some_iff, Prod.exists]
  simp only [Option.ite_none_right_eq_some, Option.some.injEq]

theorem Faithful.map_complete (F : P.Faithful) (h : ∀ n ∈ ns, P.qualified n = true) (o : Octets) :
    ns.map (P.complete o) = ns := by
  refine (map_congr_left fun n hn => ?_).trans (map_id ns)
  exact F.complete_of_qualified o n (h n hn)

theorem Faithful.parseRDataOnce (F : P.Faithful) (ha : P.originOk a)
    (hread : P.read t c s = some (sh, ns)) (hok : ∀ n ∈ ns, P.qualified n = true ∧ P.nameOk n = true)
    (hprint : P.print sh (ns.map P.normal) = .ok text) :
    lib.parseRDataOnce t c s a = .ok (P.make sh ns, text) := by
  have hcomplete := F.map_complete (fun n hn => (hok n hn).1) a
  refine parseRDataOnce_eq_ok.mpr ⟨(F.parse_eq_some ha).mpr ⟨sh, ns, hread, ?_, ?_⟩, ?_⟩
  · rw [hcomplete, all_eq_true]
    exact fun n hn => (hok n hn).2
  · rw [hcomplete]
  · rw [F.prints sh ns (F.typed hread).2, hprint]

theorem Faithful.eq_ok (F : P.Faithful) (ha : P.originOk a) (hb : P.originOk b)
    (h : lib.parseRDataUnder a b t c s = .ok d) :
    (storableType t = true ∧ storableClass c = true ∧ (trimSpace s).isEmpty = false) ∧
    ∃ sh ns new text, P.read t c s = some (sh, ns) ∧
      (ns.map (P.complete a)).all P.nameOk = true ∧
      P.print sh ((ns.map (P.complete a)).map P.normal) = .ok text ∧
      (pick (P.marks sh) ns ≠ [] → (ns.map (P.complete b)).all P.nameOk = true ∧
        P.print sh ((ns.map (P.complete b)).map P.normal) = .ok text) ∧
      canonicalNames (pick (P.marks sh) (ns.map (P.complete a))) = .ok new ∧
      P.print sh ((put (P.marks sh) (ns.map (P.complete a)) new).map P.normal) = .ok d.text := by
  simp only [parseRDataUnder, bind_eq_ok, ensure_eq_ok, Prod.exists] at h
  obtain ⟨⟨⟩, htype, ⟨⟩, hclass, ⟨⟩, hblank, rr, text, honce, final, hfinal, hlast⟩ := h
  obtain ⟨hparse, hextract⟩ := parseRDataOnce_eq_ok.mp honce
  obtain ⟨sh, ns, hread, hok, rfl⟩ := (F.parse_eq_some ha).mp hparse
  have hlen := (F.typed hread).2
  have hlena : (ns.map (P.complete a)).length = (P.marks sh).length := by rw [length_map, hlen]
  rw [F.prints _ _ hlena] at hextract
  have hd : d.text = final := by
    split at hlast
    · split at hlast
      · rw [← Except.ok.inj hlast]
      · cases hlast
    · cases hlast
  refine ⟨⟨htype, hclass, by simpa using hblank⟩, sh, ns, ?_⟩
  rw [canonicalTextUnder, F.finds _ _ hlena, pick_map] at hfinal
  split at hfinal
  · rename_i hnone
    have hpick : pick (P.marks sh) ns = [] := by simpa using hnone
    obtain rfl := Except.ok.inj hfinal
    refine ⟨[], text, hread, hok, hextract, fun hne => absurd hpick hne, ?_, ?_⟩
    · rw [pick_map, hpick]
      rfl
    · have hput := put_pick hlena
      rw [pick_map, hpick, map_nil] at hput
      rw [hput, hd, hextract]
  · simp only [bind_eq_ok, ensure_eq_ok, Prod.exists] at hfinal
    obtain ⟨rr', other, honce', ⟨⟩, hsame, new, hnew, hput⟩ := hfinal
    obtain ⟨hparse', hextract'⟩ := parseRDataOnce_eq_ok.mp honce'
    obtain ⟨sh', ns', hread', hokb, rfl⟩ := (F.parse_eq_some hb).mp hparse'
    obtain ⟨rfl, rfl⟩ := Prod.mk.inj (Option.some.inj (hread.symm.trans hread'))
    rw [F.prints _ _ (by rw [length_map, hlen])] at hextract'
    have hlenput : (put (P.marks sh) (ns.map (P.complete a)) new).length = (P.marks sh).length := by
      refine length_put hlena ?_
      rw [length_canonicalNames hnew, pick_map]
    rw [F.sets _ _ _ hlena, F.prints _ _ hlenput, ← hd] at hput
    refine ⟨new, text, hread, hok, hextract, fun _ => ⟨hokb, ?_⟩, ?_, hput⟩
    · rw [hextract', eq_of_beq hsame]
    · rw [pick_map]
      exact hnew

theorem Faithful.map_normal_normal (F : P.Faithful) (ns : List Octets) :
    (ns.map P.normal).map P.normal = ns.map P.normal := by
  rw [map_map]
  exact map_congr_left fun n _ => F.normal_normal n

theorem Faithful.read_print (F : P.Faithful) (hread : P.read t c s = some (sh, ns))
    {ms : List Octets} (hlen : ms.length = (P.marks sh).length)
    (hok : ∀ m ∈ ms, P.qualified m = true ∧ P.nameOk m = true)
    (hprint : P.print sh (ms.map P.normal) = .ok text) :
    P.read t c text = some (sh, ms.map P.normal) := by
  have hback := F.readsBack sh (ms.map P.normal) text (by rw [length_map, hlen])
    (fun n hn => ?_) hprint
  · rwa [(F.typed hread).1] at hback
  · obtain ⟨m, hm, rfl⟩ := mem_map.mp hn
    rw [F.qualified_normal, F.nameOk_normal, F.normal_normal]
    exact ⟨(hok m hm).1, (hok m hm).2, rfl⟩

theorem Faithful.completed_ok (F : P.Faithful) (ha : P.originOk a)
    (hok : (ns.map (P.complete a)).all P.nameOk = true) :
    ∀ n ∈ ns.map (P.complete a), P.qualified n = true ∧ P.nameOk n = true := by
  intro n hn
  refine ⟨?_, all_eq_true.mp hok n hn⟩
  obtain ⟨m, -, rfl⟩ := mem_map.mp hn
  exact F.qualified_complete a m ha

theorem Faithful.put_ok (F : P.Faithful) (hlen : ns.length = (P.marks sh).length)
    (hok : ∀ n ∈ ns, P.qualified n = true ∧ P.nameOk n = true)
    (hnew : canonicalNames (pick (P.marks sh) ns) = .ok new) :
    ∀ n ∈ put (P.marks sh) ns new, P.qualified n = true ∧ P.nameOk n = true := by
  have hlength := length_canonicalNames hnew
  intro n hn
  rw [mem_iff (length_put hlen hlength), pick_put hlen hlength, rest_put hlen hlength] at hn
  rcases hn with hn | hn
  · obtain ⟨names, -, rfl⟩ := canonicalNames_eq_ok.mp hnew
    obtain ⟨m, -, rfl⟩ := mem_map.mp hn
    exact ⟨(F.ofName m).1, (F.ofName m).2.1⟩
  · exact hok n ((mem_iff hlen).mpr (.inr hn))

theorem Faithful.of_qualified (F : P.Faithful) (ha : P.originOk a) (hb : P.originOk b)
    (hstorable : storableType t = true ∧ storableClass c = true ∧ (trimSpace s).isEmpty = false)
    (hread : P.read t c s = some (sh, ns))
    (hok : ∀ n ∈ ns, P.qualified n = true ∧ P.nameOk n = true) {first : Octets}
    (hfirst : P.print sh (ns.map P.normal) = .ok first)
    (hnew : canonicalNames (pick (P.marks sh) ns) = .ok new)
    (hprint : P.print sh ((put (P.marks sh) ns new).map P.normal) = .ok text) :
    lib.parseRDataUnder a b t c s = .ok ⟨text⟩ := by
  obtain ⟨htype, hclass, hblank⟩ := hstorable
  have hlen := (F.typed hread).2
  have hlenput := length_put hlen (length_canonicalNames hnew)
  have htext : lib.canonicalTextUnder b t c s (P.make sh ns) first = .ok text := by
    rw [canonicalTextUnder, F.finds sh ns hlen]
    split
    · rename_i hnone
      have hpick : pick (P.marks sh) ns = [] := by simpa using hnone
      rw [hpick] at hnew
      obtain rfl : new = [] := eq_nil_of_length_eq_zero (length_canonicalNames hnew)
      have hput := put_pick hlen
      rw [hpick] at hput
      rw [hput, hfirst] at hprint
      exact hprint
    · simp only [bind_eq_ok, ensure_eq_ok, Prod.exists]
      exact ⟨P.make sh ns, first, F.parseRDataOnce hb hread hok hfirst, ⟨⟩, beq_self_eq_true _, new,
        hnew, by rw [F.sets sh ns new hlen, F.prints sh _ hlenput, hprint]⟩
  have hagain : lib.parseRDataOnce t c text a =
      .ok (P.make sh ((put (P.marks sh) ns new).map P.normal), text) := by
    have hall := F.put_ok hlen hok hnew
    refine F.parseRDataOnce ha (F.read_print hread hlenput hall hprint) (fun n hn => ?_) ?_
    · obtain ⟨m, hm, rfl⟩ := mem_map.mp hn
      rw [F.qualified_normal, F.nameOk_normal]
      exact hall m hm
    · rw [F.map_normal_normal, hprint]
  simp only [parseRDataUnder, bind_eq_ok, ensure_eq_ok, Prod.exists]
  refine ⟨⟨⟩, htype, ⟨⟩, hclass, ⟨⟩, by simp [hblank], P.make sh ns, first,
    F.parseRDataOnce ha hread hok hfirst, text, htext, ?_⟩
  rw [hagain]
  simp

/-- The names that `domainNameFields` does not find are fully qualified and in lower case. -/
def Covered (P : lib.Presentation) (sh : P.Shape) (ns : List Octets) : Prop :=
  ∀ n ∈ rest (P.marks sh) ns, P.qualified n = true ∧ (P.normal n).map lowerASCII = P.normal n

theorem Faithful.qualified_of_accepted (F : P.Faithful) (hread : P.read t c s = some (sh, ns))
    (hoka : (ns.map (P.complete probeOriginA)).all P.nameOk = true)
    (hfirst : P.print sh ((ns.map (P.complete probeOriginA)).map P.normal) = .ok text)
    (hsecond : pick (P.marks sh) ns ≠ [] →
      (ns.map (P.complete probeOriginB)).all P.nameOk = true ∧
        P.print sh ((ns.map (P.complete probeOriginB)).map P.normal) = .ok text)
    (hrest : ∀ n ∈ rest (P.marks sh) ns, P.qualified n = true) :
    ∀ n ∈ ns, P.qualified n = true := by
  have hlen := (F.typed hread).2
  intro n hn
  by_cases hpick : pick (P.marks sh) ns = []
  · refine hrest n (((mem_iff hlen).mp hn).resolve_left fun hmem => ?_)
    rw [hpick] at hmem
    cases hmem
  · -- the two texts are one, so each name is printed the same under both origins
    have hreada := F.read_print hread (by rw [length_map, hlen])
      (F.completed_ok F.probes.1 hoka) hfirst
    have hreadb := F.read_print hread (by rw [length_map, hlen])
      (F.completed_ok F.probes.2 (hsecond hpick).1) (hsecond hpick).2
    have hsame := (Prod.mk.inj (Option.some.inj (hreada.symm.trans hreadb))).2
    rw [map_map, map_map, map_inj_left] at hsame
    by_contra hnot
    exact F.completed n (Bool.not_eq_true _ ▸ hnot) (hsame n hn)

end Presentation

end WireLibrary

theorem Name.string_lower (n : Name) : n.string.map lowerASCII = n.string := by
  have hoctet (c : UInt8) : lowerASCII c = c → (writeEscaped c).map lowerASCII = writeEscaped c :=
    forall_octets (P := fun c => lowerASCII c = c → (writeEscaped c).map lowerASCII = writeEscaped c)
      (by decide +kernel) c
  have hlabel (label : Octets) (hlabel : label.all (fun c => lowerASCII c == c) = true) :
      (label.flatMap writeEscaped).map lowerASCII = label.flatMap writeEscaped := by
    rw [map_flatMap]
    exact flatMap_congr fun c hc => hoctet c (by simpa using all_eq_true.mp hlabel c hc)
  rw [Name.string]
  split
  · rfl
  · rw [map_flatMap]
    refine flatMap_congr fun label hmem => ?_
    have hok := all_eq_true.mp n.labelsOk label hmem
    rw [labelOk] at hok
    rw [map_append, hlabel label (by simp_all)]
    rfl

namespace WireLibrary

variable {lib : WireLibrary} {P : lib.Presentation} {t : RRType} {c : Class} {s a b : Octets}
  {d : RData} {sh : P.Shape} {ns : List Octets}

namespace Presentation

theorem Faithful.read_accepted (F : P.Faithful) (ha : P.originOk a) (hb : P.originOk b)
    (h : lib.parseRDataUnder a b t c s = .ok d) (hread : P.read t c s = some (sh, ns)) :
    ∃ names : List Name, P.read t c d.text = some (sh,
      (put (P.marks sh) (ns.map (P.complete a)) (names.map Name.string)).map P.normal) ∧
      (pick (P.marks sh) (ns.map (P.complete a))).map parseName = names.map .ok := by
  obtain ⟨-, sh', ns', new, text, hread', hok, -, -, hnew, hprint⟩ := F.eq_ok ha hb h
  obtain ⟨rfl, rfl⟩ := Prod.mk.inj (Option.some.inj (hread.symm.trans hread'))
  have hlen : (ns.map (P.complete a)).length = (P.marks sh).length := by
    rw [length_map, (F.typed hread).2]
  have hall := F.put_ok hlen (F.completed_ok ha hok) hnew
  have htext := F.read_print hread (length_put hlen (length_canonicalNames hnew)) hall hprint
  obtain ⟨names, hnames, rfl⟩ := canonicalNames_eq_ok.mp hnew
  exact ⟨names, htext, hnames⟩

theorem Faithful.rest_accepted (F : P.Faithful) (hread : P.read t c s = some (sh, ns))
    {names : List Name}
    (hnames : (pick (P.marks sh) (ns.map (P.complete a))).map parseName = names.map .ok) :
    rest (P.marks sh)
        ((put (P.marks sh) (ns.map (P.complete a)) (names.map Name.string)).map P.normal) =
      (rest (P.marks sh) ns).map fun n => P.normal (P.complete a n) := by
  have hlen : (ns.map (P.complete a)).length = (P.marks sh).length := by
    rw [length_map, (F.typed hread).2]
  rw [rest_map, rest_put hlen (length_of_parsed hnames), rest_map, map_map]
  rfl

theorem Faithful.canonical (F : P.Faithful) (hok : lib.parseRData t c s = .ok d)
    (hread : P.read t c s = some (sh, ns)) (hcovered : P.Covered sh ns) :
    ∃ names : List Name, (pick (P.marks sh) ns).map parseName = names.map .ok ∧
      (∀ a b, P.originOk a → P.originOk b → lib.parseRDataUnder a b t c s = .ok d) ∧
      P.read t c d.text =
        some (sh, (put (P.marks sh) ns (names.map Name.string)).map P.normal) ∧
      P.print sh ((put (P.marks sh) ns (names.map Name.string)).map P.normal) = .ok d.text ∧
      ∀ n ∈ ns, P.qualified n = true ∧ P.nameOk n = true := by
  obtain ⟨hstorable, sh', ns', new, text, hread', hokA, hfirst, hsecond, hnew, hprint⟩ :=
    F.eq_ok F.probes.1 F.probes.2 hok
  obtain ⟨rfl, rfl⟩ := Prod.mk.inj (Option.some.inj (hread.symm.trans hread'))
  have hlen := (F.typed hread).2
  have hqualified := F.qualified_of_accepted hread hokA hfirst hsecond
    fun n hn => (hcovered n hn).1
  rw [F.map_complete hqualified] at hokA hfirst hnew hprint
  have hall : ∀ n ∈ ns, P.qualified n = true ∧ P.nameOk n = true :=
    fun n hn => ⟨hqualified n hn, all_eq_true.mp hokA n hn⟩
  have htext := F.read_print hread (length_put hlen (length_canonicalNames hnew))
    (F.put_ok hlen hall hnew) hprint
  obtain ⟨names, hnames, rfl⟩ := canonicalNames_eq_ok.mp hnew
  exact ⟨names, hnames, fun a b ha hb => F.of_qualified ha hb hstorable hread hall hfirst hnew hprint,
    htext, hprint, hall⟩

theorem Faithful.covered_of_canonical (F : P.Faithful) (hread : P.read t c s = some (sh, ns))
    (horigins : ∀ a b, P.originOk a → P.originOk b → lib.parseRDataUnder a b t c s = .ok d)
    {ms : List Octets} (hms : P.read t c d.text = some (sh, ms))
    (hlower : ∀ m ∈ ms, m.map lowerASCII = m) : P.Covered sh ns := by
  intro n hn
  obtain ⟨names, htext, hnames⟩ := F.read_accepted F.probes.1 F.probes.2
    (horigins _ _ F.probes.1 F.probes.2) hread
  obtain ⟨names', htext', hnames'⟩ := F.read_accepted F.probes.2 F.probes.1
    (horigins _ _ F.probes.2 F.probes.1) hread
  have hsame := congrArg (rest (P.marks sh))
    (Prod.mk.inj (Option.some.inj (htext.symm.trans htext'))).2
  rw [F.rest_accepted hread hnames, F.rest_accepted hread hnames', map_inj_left] at hsame
  have hqualified : P.qualified n = true := by
    by_contra hnot
    exact F.completed n (Bool.not_eq_true _ ▸ hnot) (hsame n hn)
  refine ⟨hqualified, ?_⟩
  obtain rfl := (Prod.mk.inj (Option.some.inj (htext.symm.trans hms))).2
  have hmem : P.normal n ∈ rest (P.marks sh) ((put (P.marks sh)
      (ns.map (P.complete probeOriginA)) (names.map Name.string)).map P.normal) := by
    rw [F.rest_accepted hread hnames]
    exact mem_map.mpr ⟨n, hn, by rw [F.complete_of_qualified _ n hqualified]⟩
  exact hlower _ ((mem_iff (F.typed htext).2).mpr (.inr hmem))

theorem Faithful.pick_canonical (F : P.Faithful) (hlen : ns.length = (P.marks sh).length)
    {names : List Name} (hnames : (pick (P.marks sh) ns).map parseName = names.map .ok) :
    pick (P.marks sh) ((put (P.marks sh) ns (names.map Name.string)).map P.normal) =
      names.map Name.string := by
  rw [pick_map, pick_put hlen (length_of_parsed hnames), map_map]
  exact map_congr_left fun n _ => (F.ofName n).2.2

theorem Faithful.parseRData_again (F : P.Faithful) (hok : lib.parseRData t c s = .ok d)
    (hread : P.read t c s = some (sh, ns)) (hcovered : P.Covered sh ns) :
    lib.parseRData t c d.text = .ok d := by
  have hlen := (F.typed hread).2
  obtain ⟨names, hnames, -, htext, hprint, hall⟩ := F.canonical hok hread hcovered
  have hpick := F.pick_canonical hlen hnames
  obtain ⟨⟨htype, hclass, -⟩, -⟩ := F.eq_ok F.probes.1 F.probes.2 hok
  have htrim := F.print_trimmed (length_put hlen (length_of_parsed hnames)) hprint
  have hagain : canonicalNames (pick (P.marks sh)
      ((put (P.marks sh) ns (names.map Name.string)).map P.normal)) =
        .ok (names.map Name.string) := by
    rw [hpick]
    refine canonicalNames_eq_ok.mpr ⟨names, ?_, rfl⟩
    rw [map_map]
    exact map_congr_left fun n _ => n.parseName_string
  refine F.of_qualified F.probes.1 F.probes.2 ⟨htype, hclass, ?_⟩ htext (fun n hn => ?_)
    (by rw [F.map_normal_normal, hprint]) hagain ?_
  · rw [htrim.1, htrim.2]
  · obtain ⟨m, hm, rfl⟩ := mem_map.mp hn
    rw [F.qualified_normal, F.nameOk_normal]
    exact F.put_ok hlen hall (canonicalNames_eq_ok.mpr ⟨names, hnames, rfl⟩) m hm
  · have hput := put_pick (F.typed htext).2
    rw [hpick] at hput
    rw [hput, F.map_normal_normal, hprint]

theorem Faithful.read_lower (F : P.Faithful) (hok : lib.parseRData t c s = .ok d)
    (hread : P.read t c s = some (sh, ns)) (hcovered : P.Covered sh ns) :
    ∃ ms, P.read t c d.text = some (sh, ms) ∧ ∀ m ∈ ms, m.map lowerASCII = m := by
  have hlen := (F.typed hread).2
  obtain ⟨names, hnames, -, htext, -, -⟩ := F.canonical hok hread hcovered
  refine ⟨_, htext, fun m hm => ?_⟩
  rw [mem_iff (F.typed htext).2, F.pick_canonical hlen hnames, rest_map,
    rest_put hlen (length_of_parsed hnames)] at hm
  rcases hm with hm | hm
  · obtain ⟨n, -, rfl⟩ := mem_map.mp hm
    exact n.string_lower
  · obtain ⟨n, hn, rfl⟩ := mem_map.mp hm
    exact (hcovered n hn).2

theorem Faithful.names_of_case (F : P.Faithful) {ns' : List Octets} {names names' : List Name}
    (hfolded : ns.map (fun n => (P.normal n).map lowerASCII) =
      ns'.map fun n => (P.normal n).map lowerASCII)
    (hnames : (pick (P.marks sh) ns).map parseName = names.map .ok)
    (hnames' : (pick (P.marks sh) ns').map parseName = names'.map .ok) : names = names' := by
  have hmap (l : List Octets) :
      l.map parseName = (l.map fun n => (P.normal n).map lowerASCII).map parseName := by
    rw [map_map]
    refine map_congr_left fun n _ => ?_
    rw [Function.comp_apply, parseName_lower, F.parseName_normal]
  have hok : names.map (Except.ok (ε := Err)) = names'.map .ok := by
    rw [← hnames, ← hnames', ← pick_map, ← pick_map, hmap ns, hfolded, ← hmap]
  exact map_injective_iff.mpr (fun _ _ h => Except.ok.inj h) hok

theorem Covered.rest_lower (h : P.Covered sh ns) :
    rest (P.marks sh) (ns.map P.normal) =
      rest (P.marks sh) (ns.map fun n => (P.normal n).map lowerASCII) := by
  rw [rest_map, rest_map]
  exact map_congr_left fun n hn => (h n hn).2.symm

end Presentation

end WireLibrary

end Wegweiser
