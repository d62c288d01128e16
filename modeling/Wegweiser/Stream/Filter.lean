/-
The names a watcher asks for.

The query path has the name of a question as text, in the case the client sent it in, and the
filter is put as text once.
-/
import Mathlib.Data.List.Induction
import Wegweiser.Zone.WireForm

namespace Wegweiser.Stream

open List

/-- `strings.EqualFold` for texts in US-ASCII. -/
def equalFold (s t : Octets) : Bool := s.map lowerASCII == t.map lowerASCII

/-- `underName`; `at_` is where the suffix would begin. -/
def underName (name suffix : Octets) : Bool :=
  if suffix = [46] then true
  else if name.length < suffix.length then false
  else
    let at_ := name.length - suffix.length
    if !equalFold (name.drop at_) suffix then false
    else if at_ = 0 then true
    else if name[at_ - 1]? ≠ some 46 then false
    else
      let backslashes := ((name.take (at_ - 1)).reverse.takeWhile (· == 92)).length
      backslashes % 2 == 0

/-- A name off the wire, in the case it came in. -/
structure WireName where
  labels : List Octets
  labelsOk : ∀ label ∈ labels, 1 ≤ label.length ∧ label.length ≤ maxLabelLen
  wireOk : wireLen labels ≤ maxNameWireLen

def printLabels (labels : List Octets) : Octets :=
  labels.flatMap fun label => label.flatMap writeEscaped ++ [46]

/-- The presentation form of the wire library: what is special in a zone file has a backslash before
it, and what is not printable is written as a number. -/
def WireName.string (w : WireName) : Octets :=
  if w.labels = [] then [46] else printLabels w.labels

variable {label s t suffix : Octets}

theorem labelOk_lower (h : 1 ≤ label.length ∧ label.length ≤ maxLabelLen) :
    labelOk (label.map lowerASCII) = true := by
  simp [labelOk, h.1, h.2, lowerASCII_lowerASCII]

theorem wireLen_lower (labels : List Octets) :
    wireLen (labels.map (map lowerASCII)) = wireLen labels := by
  induction labels with
  | nil => rfl
  | cons label labels ih => rw [map_cons, wireLen, wireLen, ih, length_map]

def WireName.name (w : WireName) : Name where
  labels := w.labels.map (map lowerASCII)
  labelsOk := by
    rw [all_map, all_eq_true]
    exact fun label hlabel => labelOk_lower (w.labelsOk label hlabel)
  wireOk := by
    rw [wireLen_lower]
    exact w.wireOk

section Escapes

/-- Whether a text ends in a backslash that is not itself escaped, behind one that does or not. -/
def pendingFrom (open_ : Bool) (s : Octets) : Bool :=
  s.foldl (fun open_ c => if c = 92 then !open_ else false) open_

theorem pendingFrom_append (open_ : Bool) (s t : Octets) :
    pendingFrom open_ (s ++ t) = pendingFrom (pendingFrom open_ s) t := foldl_append

theorem pendingFrom_dot (open_ : Bool) (s : Octets) : pendingFrom open_ (s ++ [46]) = false := by
  rw [pendingFrom_append]
  rfl

theorem pending_iff_odd (s : Octets) :
    pendingFrom false s = true ↔ (s.reverse.takeWhile (· == 92)).length % 2 = 1 := by
  induction s using reverseRecOn with
  | nil => decide
  | append_singleton s c ih =>
    rw [pendingFrom_append, reverse_append, reverse_singleton, singleton_append,
      takeWhile_cons]
    by_cases hc : c = 92
    · have hcount : (!pendingFrom false s) = true ↔
          ((s.reverse.takeWhile (· == 92)).length + 1) % 2 = 1 := by
        rw [Bool.not_eq_true', ← Bool.not_eq_true, ih]
        omega
      simpa [pendingFrom, hc] using hcount
    · simp [pendingFrom, hc]

theorem pendingFrom_lower (open_ : Bool) (s : Octets) :
    pendingFrom open_ (s.map lowerASCII) = pendingFrom open_ s := by
  simp only [pendingFrom, foldl_map, lowerASCII_eq_backslash]

theorem pendingFrom_writeEscaped (c : UInt8) : pendingFrom false (writeEscaped c) = false :=
  forall_octets (P := fun c => pendingFrom false (writeEscaped c) = false) (by decide +kernel) c

theorem pendingFrom_escaped (label : Octets) :
    pendingFrom false (label.flatMap writeEscaped) = false := by
  induction label with
  | nil => rfl
  | cons c label ih =>
    rw [flatMap_cons, pendingFrom_append, pendingFrom_writeEscaped, ih]

variable {x y : Octets}

theorem pending_before_dot {c : UInt8} (h : writeEscaped c = x ++ 46 :: y) :
    pendingFrom false x = true := by
  have hall : ∀ c : UInt8, ∀ k : Fin 4, (writeEscaped c)[k.val]? = some 46 →
      pendingFrom false ((writeEscaped c).take k) = true :=
    forall_octets (by decide +kernel)
  have hlen : (writeEscaped c).length ≤ 4 :=
    forall_octets (P := fun c => (writeEscaped c).length ≤ 4) (by decide +kernel) c
  have hx : x.length < 4 := by
    rw [h, length_append, length_cons] at hlen
    omega
  have hdot := hall c ⟨x.length, hx⟩ (by rw [h]; simp)
  simpa [h] using hdot

theorem pending_before_dot_of_label {label : Octets}
    (h : label.flatMap writeEscaped = x ++ 46 :: y) : pendingFrom false x = true := by
  induction label generalizing x with
  | nil => simp at h
  | cons c label ih =>
    rw [flatMap_cons] at h
    have hbehind : ∀ x', label.flatMap writeEscaped = x' ++ 46 :: y →
        pendingFrom false (writeEscaped c ++ x') = true := by
      intro x' hx'
      rw [pendingFrom_append, pendingFrom_writeEscaped]
      exact ih hx'
    rcases append_eq_append_iff.mp h with ⟨x', rfl, hx'⟩ | ⟨z, hz, hy⟩
    · exact hbehind x' hx'
    · cases z with
      | nil =>
        rw [append_nil] at hz
        rw [← append_nil x, ← hz]
        exact hbehind [] hy.symm
      | cons d z =>
        obtain ⟨rfl, -⟩ := cons.inj hy
        exact pending_before_dot hz

end Escapes

section Labels

theorem printLabels_cons (label : Octets) (labels : List Octets) :
    printLabels (label :: labels) = label.flatMap writeEscaped ++ 46 :: printLabels labels := by
  rw [printLabels, flatMap_cons, append_assoc]
  rfl

theorem printLabels_append (l l' : List Octets) :
    printLabels (l ++ l') = printLabels l ++ printLabels l' := flatMap_append

theorem printLabels_lower (labels : List Octets) :
    (printLabels labels).map lowerASCII = printLabels (labels.map (map lowerASCII)) := by
  have hescape (c : UInt8) : (writeEscaped c).map lowerASCII = writeEscaped (lowerASCII c) :=
    forall_octets (P := fun c => (writeEscaped c).map lowerASCII = writeEscaped (lowerASCII c))
      (by decide +kernel) c
  have hlabel (label : Octets) : (label.flatMap writeEscaped).map lowerASCII =
      (label.map lowerASCII).flatMap writeEscaped := by
    rw [map_flatMap, flatMap_map]
    simp only [hescape]
  induction labels with
  | nil => rfl
  | cons label labels ih =>
    rw [map_cons, printLabels_cons, printLabels_cons, map_append, map_cons, ih,
      hlabel]
    rfl

/-- The text up to a boundary between labels: nothing, or up to a dot that is not escaped. -/
def AtBoundary (s : Octets) : Prop := s = [] ∨ ∃ s', s = s' ++ [46] ∧ pendingFrom false s' = false

theorem atBoundary_printLabels (labels : List Octets) : AtBoundary (printLabels labels) := by
  induction labels using reverseRecOn with
  | nil => exact .inl rfl
  | append_singleton labels label ih =>
    refine .inr ⟨printLabels labels ++ label.flatMap writeEscaped, ?_, ?_⟩
    · rw [printLabels_append, printLabels_cons, append_assoc]
      rfl
    · have hclosed : pendingFrom false (printLabels labels) = false := by
        obtain hnil | ⟨s', hs', -⟩ := ih
        · rw [hnil]
          rfl
        · rw [hs', pendingFrom_dot]
      rw [pendingFrom_append, hclosed, pendingFrom_escaped]

theorem printLabels_parts {labels : List Octets} {s t : Octets} (h : printLabels labels = s ++ t)
    (hs : AtBoundary s) : ∃ l l', labels = l ++ l' ∧ s = printLabels l ∧ t = printLabels l' := by
  induction labels generalizing s with
  | nil =>
    obtain ⟨rfl, rfl⟩ := append_eq_nil_iff.mp h.symm
    exact ⟨[], [], rfl, rfl, rfl⟩
  | cons label labels ih =>
    obtain rfl | ⟨s', rfl, hclosed⟩ := hs
    · exact ⟨[], label :: labels, rfl, rfl, h.symm⟩
    · rw [printLabels_cons, append_assoc, singleton_append] at h
      rcases append_eq_append_iff.mp h with ⟨x, rfl, hx⟩ | ⟨z, hz, hy⟩
      · -- the boundary lies behind this label
        cases x with
        | nil =>
          obtain ⟨-, rfl⟩ := cons.inj hx
          exact ⟨[label], labels, rfl, by rw [printLabels_cons, append_nil]; rfl, rfl⟩
        | cons d x =>
          obtain ⟨rfl, htail⟩ := cons.inj hx
          have hx' : printLabels labels = (x ++ [46]) ++ t := by
            rw [htail, append_assoc]
            rfl
          have hboundary : AtBoundary (x ++ [46]) := by
            refine .inr ⟨x, rfl, ?_⟩
            rw [← singleton_append, ← append_assoc, pendingFrom_append,
              pendingFrom_dot] at hclosed
            exact hclosed
          obtain ⟨l, l', rfl, hl, rfl⟩ := ih hx' hboundary
          refine ⟨label :: l, l', rfl, ?_, rfl⟩
          rw [printLabels_cons, ← hl, append_assoc]
          rfl
      · -- a dot inside the label is escaped
        cases z with
        | nil =>
          rw [append_nil] at hz
          obtain ⟨-, rfl⟩ := cons.inj hy
          exact ⟨[label], labels, rfl, by rw [printLabels_cons, hz]; rfl, rfl⟩
        | cons d z =>
          obtain ⟨rfl, -⟩ := cons.inj hy
          rw [pending_before_dot_of_label hz] at hclosed
          cases hclosed

theorem printLabels_injective {l l' : List Octets} (hl : l.all labelOk = true)
    (hl' : l'.all labelOk = true) (h : printLabels l = printLabels l') : l = l' := by
  have hparse := parseLabels_labels hl []
  have hparse' := parseLabels_labels hl' []
  rw [← printLabels, h, printLabels, hparse'] at hparse
  simpa using hparse.symm

end Labels

theorem equalFold_iff : equalFold s t = true ↔ s.map lowerASCII = t.map lowerASCII := by
  rw [equalFold, beq_iff_eq]

theorem atBoundary_append (s : Octets) (c : UInt8) :
    AtBoundary (s ++ [c]) ↔ c = 46 ∧ pendingFrom false s = false := by
  constructor
  · rintro (hnil | ⟨s', hs', hclosed⟩)
    · simp at hnil
    · obtain ⟨rfl, hc⟩ := append_inj' hs' rfl
      exact ⟨(cons.inj hc).1, hclosed⟩
  · rintro ⟨rfl, hclosed⟩
    exact .inr ⟨s, rfl, hclosed⟩

theorem underName_append (hsuffix : suffix ≠ [46]) (ht : t.length = suffix.length) :
    underName (s ++ t) suffix = true ↔ t.map lowerASCII = suffix.map lowerASCII ∧ AtBoundary s := by
  have hat : (s ++ t).length - suffix.length = s.length := by
    rw [length_append]
    omega
  have hle : ¬ (s ++ t).length < suffix.length := by
    rw [length_append]
    omega
  rw [underName, if_neg hsuffix, if_neg hle]
  dsimp only
  rw [hat, drop_left, ← equalFold_iff]
  cases equalFold t suffix with
  | false => simp
  | true =>
    rcases eq_nil_or_concat' s with rfl | ⟨s, c, rfl⟩
    · simp [AtBoundary]
    · have hlen : (s ++ [c]).length - 1 = s.length := by simp
      have hget : (s ++ [c] ++ t)[s.length]? = some c := by simp
      have htake : (s ++ [c] ++ t).take s.length = s := by
        rw [append_assoc, take_left]
      have hodd : pendingFrom false s = false ↔
          (s.reverse.takeWhile (· == 92)).length % 2 = 0 := by
        rw [← Bool.not_eq_true, pending_iff_odd]
        omega
      rw [hlen, hget, htake, atBoundary_append, hodd]
      by_cases hc : c = 46 <;> simp [hc]

theorem underName_iff {name : Octets} (hsuffix : suffix ≠ [46]) :
    underName name suffix = true ↔
      ∃ s t, name = s ++ t ∧ t.map lowerASCII = suffix.map lowerASCII ∧ AtBoundary s := by
  constructor
  · intro h
    have hle : suffix.length ≤ name.length := by
      by_contra hlt
      rw [underName, if_neg hsuffix, if_pos (by omega)] at h
      cases h
    refine ⟨name.take (name.length - suffix.length), name.drop (name.length - suffix.length),
      (take_append_drop _ _).symm, (underName_append hsuffix ?_).mp ?_⟩
    · rw [length_drop]
      omega
    · rwa [take_append_drop]
  · rintro ⟨s, t, rfl, ht, hs⟩
    have hlen := congrArg length ht
    rw [length_map, length_map] at hlen
    exact (underName_append hsuffix hlen).mpr ⟨ht, hs⟩

theorem WireName.parse (w : WireName) : parseName w.string = .ok w.name := by
  have hlower : w.string.map lowerASCII = w.name.string := by
    rw [WireName.string, Name.string, Name.isRoot, WireName.name]
    dsimp only
    rw [isEmpty_map]
    cases hlabels : w.labels with
    | nil => decide
    | cons label labels => exact printLabels_lower (label :: labels)
  rw [← parseName_lower, hlower, w.name.parseName_string]

theorem atBoundary_lower (h : AtBoundary s) : AtBoundary (s.map lowerASCII) := by
  obtain rfl | ⟨s', rfl, hclosed⟩ := h
  · exact .inl rfl
  · refine .inr ⟨s'.map lowerASCII, by rw [map_append]; rfl, ?_⟩
    rw [pendingFrom_lower, hclosed]

theorem underName_printLabels {labels suffix : List Octets}
    (hlabels : (labels.map (map lowerASCII)).all labelOk = true)
    (hsuffix : suffix.all labelOk = true) (hne : printLabels suffix ≠ [46]) :
    underName (printLabels labels) (printLabels suffix) = true ↔
      suffix <:+ labels.map (map lowerASCII) := by
  have hfolded : suffix.map (map lowerASCII) = suffix := by
    conv_rhs => rw [← map_id suffix]
    refine map_congr_left fun label hlabel => ?_
    have hok := all_eq_true.mp hsuffix label hlabel
    simp only [labelOk, Bool.and_eq_true] at hok
    exact map_lowerASCII_of_ok hok.2
  rw [underName_iff hne, printLabels_lower, hfolded]
  constructor
  · rintro ⟨s, t, hname, ht, hs⟩
    have hlower : printLabels (labels.map (map lowerASCII)) = s.map lowerASCII ++
        printLabels suffix := by
      rw [← printLabels_lower, hname, map_append, ht]
    obtain ⟨l, l', hl, -, hl'⟩ := printLabels_parts hlower (atBoundary_lower hs)
    rw [hl, all_append, Bool.and_eq_true] at hlabels
    rw [hl, printLabels_injective hsuffix hlabels.2 hl']
    exact suffix_append l l'
  · rintro ⟨l, hl⟩
    obtain ⟨front, back, rfl, hfront, hback⟩ := map_eq_append_iff.mp hl.symm
    refine ⟨printLabels front, printLabels back, printLabels_append front back, ?_,
      atBoundary_printLabels front⟩
    rw [printLabels_lower, hback]

theorem one_lt_length_printLabels (h : labelOk label = true) (labels : List Octets) :
    1 < (printLabels (label :: labels)).length := by
  have hescape (c : UInt8) : 1 ≤ (writeEscaped c).length :=
    forall_octets (P := fun c => 1 ≤ (writeEscaped c).length) (by decide +kernel) c
  rw [printLabels_cons, length_append, length_cons]
  cases label with
  | nil => simp [labelOk] at h
  | cons c label =>
    rw [flatMap_cons, length_append]
    have := hescape c
    omega

/-- The texts decide what the labels would: the name parsed from the text lies at or below the
name of the filter. -/
theorem underName_labels (w : WireName) (p : Name) :
    ∃ n, parseName w.string = .ok n ∧ n.labels = w.labels.map (map lowerASCII) ∧
      (underName w.string p.string = true ↔ n.isSubDomainOf p = true) := by
  refine ⟨w.name, w.parse, rfl, ?_⟩
  rw [Name.isSubDomainOf, decide_eq_true_iff]
  cases hp : p.labels with
  | nil => simp [Name.string, Name.isRoot, hp, underName]
  | cons label rest =>
    have hlabel : labelOk label = true :=
      all_eq_true.mp p.labelsOk label (by rw [hp]; exact mem_cons_self)
    have hstring : p.string = printLabels (label :: rest) := by
      rw [Name.string_of_labels (by simp [hp]), hp]
      rfl
    have hlong := one_lt_length_printLabels hlabel rest
    have hne : printLabels (label :: rest) ≠ [46] := fun h => by simp [h] at hlong
    rw [hstring, WireName.string]
    split
    · rename_i hw
      have hshort : [(46 : UInt8)].length < (printLabels (label :: rest)).length := hlong
      rw [underName, if_neg hne, if_pos hshort]
      simp [WireName.name, hw]
    · exact underName_printLabels w.name.labelsOk (hp ▸ p.labelsOk) hne

end Wegweiser.Stream
