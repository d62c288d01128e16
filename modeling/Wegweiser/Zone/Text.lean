/-
Names in presentation format are read back as the names they were, and so is
record data that is one name.
-/
import Wegweiser.Zone.Data

namespace Wegweiser

open Checked List UInt8

variable {n : Nat} {c : UInt8} {rest l : Octets}

theorem toUInt8_of_mem_toDigits {c : Char} (h : c ∈ Nat.toDigits 10 n) :
    c.toUInt8.toNat = c.toNat ∧ 48 ≤ c.toNat := by
  have hdigit := Nat.isDigit_of_mem_toDigits (by decide) (by decide) h
  simp only [Char.isDigit, Bool.and_eq_true, decide_eq_true_eq] at hdigit
  have hlow : 48 ≤ c.toNat := hdigit.1
  have hhigh : c.toNat ≤ 57 := hdigit.2
  refine ⟨?_, hlow⟩
  rw [Char.toUInt8, UInt32.toNat_toUInt8]
  exact Nat.mod_eq_of_lt (by exact Nat.lt_of_le_of_lt hhigh (by decide))

theorem decimal_value (n : Nat) : (decimal n).foldl (fun v c => 10 * v + (c.toNat - 48)) 0 = n := by
  have hfold : ∀ (l : List Char), (∀ c ∈ l, c.toUInt8.toNat = c.toNat) → ∀ v,
      (l.map Char.toUInt8).foldl (fun v c => 10 * v + (c.toNat - 48)) v =
        l.foldl (fun v c => 10 * v + (c.toNat - '0'.toNat)) v := by
    intro l hl
    induction l with
    | nil => simp
    | cons head tail ih =>
      intro v
      rw [map_cons, foldl_cons, foldl_cons, hl head mem_cons_self]
      exact ih (fun c hc => hl c (mem_cons_of_mem head hc)) _
  rw [decimal, hfold _ fun c hc => (toUInt8_of_mem_toDigits hc).1, ← Nat.ofDigitChars_eq_foldl]
  exact Nat.ofDigitChars_ten_toDigits

theorem isDigit_of_mem_decimal (h : c ∈ decimal n) : isDigit c = true := by
  obtain ⟨d, hd, rfl⟩ := mem_map.mp h
  obtain ⟨hsame, hlow⟩ := toUInt8_of_mem_toDigits hd
  have hdigit := Nat.isDigit_of_mem_toDigits (by decide) (by decide) hd
  simp only [Char.isDigit, Bool.and_eq_true, decide_eq_true_eq] at hdigit
  have hhigh : d.toNat ≤ 57 := hdigit.2
  simp only [isDigit, Bool.and_eq_true, decide_eq_true_eq, le_iff_toNat_le, hsame]
  exact ⟨hlow, hhigh⟩

theorem decimal_ne_nil (n : Nat) : decimal n ≠ [] := by
  rw [decimal, Ne, map_eq_nil_iff]
  exact Nat.toDigits_ne_nil

theorem decimal_eq_zero_cons (h : decimal n = 48 :: rest) : rest = [] := by
  induction n using Nat.strongRecOn generalizing rest with
  | ind n ih =>
    rw [decimal, Nat.toDigits_eq_if (by decide)] at h
    split at h
    · simpa using congrArg tail h.symm
    · next hn =>
      -- the digits before the last one would start with a zero as well
      rw [map_append] at h
      cases hfront : decimal (n / 10) with
      | nil => exact absurd hfront (decimal_ne_nil _)
      | cons c front =>
        have hcut := hfront
        rw [decimal] at hcut
        rw [hcut] at h
        obtain ⟨rfl, -⟩ := cons.inj h
        have hvalue := decimal_value (n / 10)
        rw [hfront, ih (n / 10) (by omega) hfront] at hvalue
        simp at hvalue
        omega

theorem parseUint_decimal {bits : Nat} (h : n < 2 ^ bits) :
    parseUint bits (decimal n) = some n := by
  have hdigits : (decimal n).all isDigit = true :=
    all_eq_true.mpr fun c hc => isDigit_of_mem_decimal hc
  have hvalue : (decimal n).foldl (fun v c => v * 10 + (c.toNat - 48)) 0 = n := by
    simpa only [Nat.mul_comm] using decimal_value n
  rw [parseUint, if_neg (by simp [hdigits, decimal_ne_nil]), hvalue]
  exact if_pos h

theorem isDigit_decimals (c : UInt8) :
    isDigit (48 + c / 100) = true ∧ isDigit (48 + (c / 10) % 10) = true ∧
      isDigit (48 + c % 10) = true := by
  have hc := c.toNat_lt
  refine ⟨?_, ?_, ?_⟩ <;> simp [isDigit, le_iff_toNat_le] <;> omega

theorem decimals_value (c : UInt8) :
    ((48 + c / 100).toNat - 48) * 100 + ((48 + (c / 10) % 10).toNat - 48) * 10 +
      ((48 + c % 10).toNat - 48) = c.toNat := by
  have hc := c.toNat_lt
  simp only [UInt8.toNat_add, UInt8.toNat_div, UInt8.toNat_mod, UInt8.reduceToNat]
  omega

theorem isDigit_of_isZonefileSpecial (h : isZonefileSpecial c = true) : isDigit c = false := by
  simp only [isZonefileSpecial, contains_iff_mem, mem_cons, not_mem_nil,
    or_false] at h
  rcases h with rfl | rfl | rfl | rfl | rfl | rfl | rfl | rfl | rfl <;> decide

theorem parseLabels_writeEscaped (hlower : lowerASCII c = c) (label : Octets)
    (done : List Octets) (rest : Octets) :
    parseLabels label done (writeEscaped c ++ rest) = parseLabels (label ++ [c]) done rest := by
  rw [writeEscaped]
  by_cases hspecial : isZonefileSpecial c = true
  · have hdigit := isDigit_of_isZonefileSpecial hspecial
    rw [if_pos hspecial, cons_append, parseLabels.eq_def label]
    simp [hdigit, hlower]
  · rw [if_neg hspecial]
    by_cases hplain : (c < 33 || 126 < c) = true
    · have hlt : ¬255 < c.toNat := by
        have := c.toNat_lt
        omega
      obtain ⟨h₁, h₂, h₃⟩ := isDigit_decimals c
      rw [if_pos hplain, cons_append, parseLabels.eq_def label]
      simp only [cons_append, nil_append, h₁, h₂, h₃, decimals_value, if_neg hlt,
        UInt8.ofNat_toNat, hlower, Bool.not_true, Bool.or_self, Bool.false_eq_true, if_false,
        if_true]
      exact if_neg (by decide)
    · rw [if_neg hplain]
      have hdot : c ≠ 46 := by
        intro h
        exact hspecial (by rw [h]; decide)
      have hslash : c ≠ 92 := by
        intro h
        exact hspecial (by rw [h]; decide)
      rw [cons_append, parseLabels.eq_def label]
      simp [hdot, hslash, hlower]

theorem parseLabels_label (hlower : l.all (fun c => lowerASCII c == c) = true)
    (label : Octets) (done : List Octets) (rest : Octets) :
    parseLabels label done (l.flatMap writeEscaped ++ rest) =
      parseLabels (label ++ l) done rest := by
  induction l generalizing label with
  | nil => simp
  | cons c l ih =>
    simp only [all_cons, Bool.and_eq_true, beq_iff_eq] at hlower
    rw [flatMap_cons, append_assoc, parseLabels_writeEscaped hlower.1, ih hlower.2,
      append_assoc, singleton_append]

theorem parseLabels_labels {labels : List Octets} (hok : labels.all labelOk = true)
    (done : List Octets) :
    parseLabels [] done (labels.flatMap fun label => label.flatMap writeEscaped ++ [46]) =
      .ok (done ++ labels) := by
  induction labels generalizing done with
  | nil => simp [parseLabels]
  | cons l labels ih =>
    simp only [all_cons, Bool.and_eq_true] at hok
    have hlabel := hok.1
    simp only [labelOk, Bool.and_eq_true, decide_eq_true_eq] at hlabel
    have hflush : flushLabel l done = .ok (done ++ [l]) := by
      have hne : l.isEmpty = false := by
        cases l with
        | nil => simp at hlabel
        | cons _ _ => rfl
      have hlen : ¬maxLabelLen < l.length := by omega
      simp [flushLabel, hne, hlen]
    rw [flatMap_cons, append_assoc, parseLabels_label hlabel.2]
    rw [nil_append, cons_append, parseLabels.eq_def]
    simp only [if_true, hflush]
    simpa using ih hok.2 (done ++ [l])

theorem splitOctets_of_not_mem {sep : UInt8} (h : sep ∉ l) : splitOctets sep l = [l] := by
  induction l with
  | nil => rfl
  | cons c l ih =>
    simp only [mem_cons, not_or] at h
    rw [splitOctets, if_neg (Ne.symm h.1), ih h.2]

theorem trimSpace_of_ends {first last : UInt8} {front s : Octets} (hs : s = first :: rest)
    (hs' : s = front ++ [last]) (hfirst : isSpace first = false) (hlast : isSpace last = false) :
    trimSpace s = s := by
  have hleft : s.dropWhile isSpace = s := by simp [hs, hfirst]
  rw [trimSpace, hleft, hs']
  simp [hlast]

theorem writeEscaped_printable {o : UInt8} (ho : o ∈ writeEscaped c) : 32 ≤ o ∧ o < 128 := by
  rw [writeEscaped] at ho
  have hc := c.toNat_lt
  split at ho
  · next hspecial =>
    simp only [isZonefileSpecial, contains_iff_mem, mem_cons, not_mem_nil,
      or_false] at hspecial ho
    rcases ho with rfl | rfl
    · decide
    · rcases hspecial with rfl | rfl | rfl | rfl | rfl | rfl | rfl | rfl | rfl <;> decide
  · split at ho
    · simp only [mem_cons, not_mem_nil, or_false] at ho
      rcases ho with rfl | rfl | rfl | rfl
      · decide
      all_goals
        simp [le_iff_toNat_le, lt_iff_toNat_lt]
        omega
    · next hplain =>
      simp only [Bool.or_eq_true, decide_eq_true_eq, not_or, lt_iff_toNat_lt,
        reduceToNat] at hplain
      simp only [mem_singleton.mp ho, le_iff_toNat_le, lt_iff_toNat_lt,
        reduceToNat]
      omega

theorem writeEscaped_head (c : UInt8) :
    ∃ first rest, writeEscaped c = first :: rest ∧ isSpace first = false := by
  rw [writeEscaped]
  split
  · exact ⟨92, [c], rfl, by decide⟩
  · split
    · exact ⟨92, _, rfl, by decide⟩
    · next hplain =>
      refine ⟨c, [], rfl, ?_⟩
      simp only [Bool.or_eq_true, decide_eq_true_eq, not_or, UInt8.lt_iff_toNat_lt,
        UInt8.reduceToNat] at hplain
      simp only [isSpace, Bool.or_eq_false_iff, beq_eq_false_iff_ne, ne_eq,
        Bool.and_eq_false_iff, decide_eq_false_iff_not, UInt8.le_iff_toNat_le, UInt8.reduceToNat,
        ← UInt8.toNat_inj]
      omega

namespace Name

theorem ofLabels_labels (n : Name) : ofLabels n.labels = .ok n := by
  rw [ofLabels, dif_pos n.labelsOk, dif_pos n.wireOk]

variable {n : Name}

theorem string_of_labels (h : n.labels ≠ []) :
    n.string = n.labels.flatMap fun label => label.flatMap writeEscaped ++ [46] :=
  if_neg (by simpa [isRoot] using h)

theorem string_ends (n : Name) : ∃ front, n.string = front ++ [46] := by
  by_cases hlabels : n.labels = []
  · exact ⟨[], by simp [string, isRoot, hlabels]⟩
  · rw [string_of_labels hlabels, ← dropLast_append_getLast hlabels, flatMap_append,
      flatMap_singleton, ← append_assoc]
    exact ⟨_, rfl⟩

theorem string_starts (n : Name) :
    ∃ first rest, n.string = first :: rest ∧ isSpace first = false := by
  cases hlabels : n.labels with
  | nil => exact ⟨46, [], by simp [string, isRoot, hlabels], by decide⟩
  | cons l labels =>
    have hok := n.labelsOk
    rw [hlabels, all_cons, Bool.and_eq_true] at hok
    rw [string_of_labels (by simp [hlabels]), hlabels, flatMap_cons]
    cases l with
    | nil => simp [labelOk] at hok
    | cons c l =>
      obtain ⟨first, rest, hc, hfirst⟩ := writeEscaped_head c
      rw [flatMap_cons, hc]
      exact ⟨first, _, rfl, hfirst⟩

theorem trimSpace_string (n : Name) : trimSpace n.string = n.string := by
  obtain ⟨front, hfront⟩ := n.string_ends
  obtain ⟨first, rest, hrest, hfirst⟩ := n.string_starts
  exact trimSpace_of_ends hrest hfront hfirst (by decide)

theorem printable_of_mem_string {o : UInt8} (ho : o ∈ n.string) : 32 ≤ o ∧ o < 128 := by
  by_cases hlabels : n.labels = []
  · rw [string, if_pos (by simp [isRoot, hlabels]), mem_singleton] at ho
    rw [ho]
    decide
  · rw [string_of_labels hlabels] at ho
    obtain ⟨l, -, ho⟩ := mem_flatMap.mp ho
    rcases mem_append.mp ho with ho | ho
    · obtain ⟨c, -, ho⟩ := mem_flatMap.mp ho
      exact writeEscaped_printable ho
    · rw [mem_singleton.mp ho]
      decide

theorem parseName_string (n : Name) : parseName n.string = .ok n := by
  by_cases hlabels : n.labels = []
  · have hroot : n = root := ext_labels hlabels
    rw [hroot]
    decide
  · have hne : n.string.isEmpty = false := by
      obtain ⟨first, rest, hrest, -⟩ := n.string_starts
      rw [hrest]
      rfl
    have hdot : n.string ≠ [46] := by
      rw [string_of_labels hlabels]
      cases hl : n.labels with
      | nil => exact absurd hl hlabels
      | cons l labels =>
        have hok := n.labelsOk
        rw [hl, all_cons, Bool.and_eq_true] at hok
        cases l with
        | nil => simp [labelOk] at hok
        | cons c l =>
          -- a label is never written as nothing, so more than the dot is there
          obtain ⟨first, rest, hc, -⟩ := writeEscaped_head c
          simp [hc]
    rw [parseName, hne, if_neg Bool.false_ne_true, if_neg hdot, string_of_labels hlabels,
      parseLabels_labels n.labelsOk]
    exact n.ofLabels_labels

theorem string_injective {m : Name} (h : n.string = m.string) : n = m := by
  have hread := parseName_string n
  rw [h, parseName_string m] at hread
  exact (Except.ok.inj hread).symm

end Name

/-- The types whose data is one domain name, as far as the automation writes them. -/
def isNameType (t : RRType) : Prop := t = typePTR ∨ t = typeCNAME

namespace WireLibrary

/-- What the wire library is relied on for where data is one domain name: it reads
an absolute name as that name, it knows the field the name is in, and it prints
the field behind the four fields of the header. -/
structure ReadsNames (lib : WireLibrary) : Prop where
  reads : ∀ {t : RRType} {c : Class} {n : Name} {origin : Octets} {rr : lib.RR}, isNameType t →
    lib.parse t c n.string origin = some rr →
      ∃ f, lib.domainNames rr = [f] ∧ parseName f = .ok n
  prints : ∀ {t : RRType} {c : Class} {n m : Name} {origin : Octets} {rr : lib.RR},
    isNameType t → lib.parse t c n.string origin = some rr →
      lib.extractRData (lib.setDomainNames rr [m.string]) = .ok m.string

variable {lib : WireLibrary}

variable {t : RRType} {c : Class} {text : Octets} {rr : lib.RR}

theorem parseRDataOnce_eq_ok {s origin : Octets} :
    lib.parseRDataOnce t c s origin = .ok (rr, text) ↔
      lib.parse t c s origin = some rr ∧ lib.extractRData rr = .ok text := by
  rw [parseRDataOnce]
  cases hparse : lib.parse t c s origin with
  | none => simp
  | some rr' =>
    simp only [map_eq_ok, Prod.mk.injEq, Option.some.injEq]
    constructor
    · intro h
      obtain ⟨_, htext, rfl, rfl⟩ := h
      exact ⟨rfl, htext⟩
    · intro h
      obtain ⟨rfl, htext⟩ := h
      exact ⟨text, htext, rfl, rfl⟩

theorem ReadsNames.parseRData_text (hlib : lib.ReadsNames) (ht : isNameType t) {n : Name}
    {data : RData} (hok : lib.parseRData t c n.string = .ok data) : data.text = n.string := by
  simp only [parseRData, parseRDataUnder, bind_eq_ok, Prod.exists] at hok
  obtain ⟨-, -, -, -, -, -, rr, text, honce, canonical, hcanonical, hlast⟩ := hok
  obtain ⟨hparse, -⟩ := parseRDataOnce_eq_ok.mp honce
  obtain ⟨f, hnames, hname⟩ := hlib.reads ht hparse
  have htext : canonical = n.string := by
    simp only [canonicalTextUnder, hnames, isEmpty_cons, Bool.false_eq_true, if_false,
      bind_eq_ok, Prod.exists] at hcanonical
    obtain ⟨-, -, -, -, -, names, hcanon, hextract⟩ := hcanonical
    have hone : names = [n.string] := by
      have hrun : canonicalNames [f] = .ok [n.string] := by
        simp [canonicalNames, hname, Except.map]
      rw [hrun] at hcanon
      exact (Except.ok.inj hcanon).symm
    rw [hone, hlib.prints ht hparse] at hextract
    exact (Except.ok.inj hextract).symm
  split at hlast
  · split at hlast
    · cases hlast
      exact htext
    · cases hlast
  · cases hlast

theorem extractRData_of_string
    (hstring : lib.string rr = [9, 9, 9, 9] ++ text) (htab : (9 : UInt8) ∉ text)
    (htrim : trimSpace text = text) (hne : text ≠ []) : lib.extractRData rr = .ok text := by
  have hsplit : splitOctets 9 (lib.string rr) = [[], [], [], [], text] := by
    simp [hstring, splitOctets, splitOctets_of_not_mem htab]
  rw [extractRData, hsplit]
  simp [htrim, hne]

theorem plain_readsNames : plain.ReadsNames := by
  have hparse {t : RRType} {c : Class} {n : Name} {origin : Octets} {rr : plain.RR}
      (ht : isNameType t) (hok : plain.parse t c n.string origin = some rr) :
      rr = ([n.string], []) := by
    have habs : absolute origin n.string = n.string := by
      obtain ⟨front, hfront⟩ := n.string_ends
      rw [absolute, hfront, if_pos (by simp)]
    have hread : plain.parse t c n.string origin = some ([n.string], []) := by
      rcases ht with rfl | rfl
      · simp [plain, nameFields, typePTR, typeA, typeAAAA, habs]
      · simp [plain, nameFields, typePTR, typeCNAME, typeA, typeAAAA, habs]
    exact Option.some.inj (hok.symm.trans hread)
  constructor
  · intro t c n origin rr ht hok
    rw [hparse ht hok]
    exact ⟨n.string, rfl, n.parseName_string⟩
  · intro t c n m origin rr ht hok
    rw [hparse ht hok]
    refine extractRData_of_string (by simp [plain]) ?_ m.trimSpace_string ?_
    · intro htab
      exact absurd (Name.printable_of_mem_string htab).1 (by decide)
    · obtain ⟨first, rest, hrest, -⟩ := m.string_starts
      simp [hrest]

end WireLibrary

end Wegweiser
