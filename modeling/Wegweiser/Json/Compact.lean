/-
`json.Compact`, as the encoder runs it over a value that is a text already: white space between
tokens goes, and inside strings the characters that mean something to HTML or JavaScript are
escaped.  What was valid stays valid, to the same depth.
-/
import Wegweiser.Json.Object

namespace Wegweiser.Json

open List

/-- Where in a document an octet is: between strings, in one, or behind a backslash in one. -/
inductive Spot where
  | outside
  | inside
  | escaped
deriving DecidableEq

/-- `appendCompact` from some spot on; `skip` of the next octets were written already. -/
def compactFrom (spot : Spot) (skip : Nat) : Octets → Octets
  | [] => []
  | a :: rest =>
    match skip, spot with
    | k + 1, _ => compactFrom spot k rest
    | 0, .outside =>
      if a == 32 || a == 9 || a == 10 || a == 13 then compactFrom .outside 0 rest
      else if a = 34 then a :: compactFrom .inside 0 rest
      else a :: compactFrom .outside 0 rest
    | 0, .escaped => a :: compactFrom .inside 0 rest
    | 0, .inside =>
      if a = 34 then a :: compactFrom .outside 0 rest
      else if a = 92 then a :: compactFrom .escaped 0 rest
      else if a = 60 || a = 62 || a = 38 then
        [92, 117, 48, 48, hexOf (a.toNat / 16), hexOf (a.toNat % 16)] ++
          compactFrom .inside 0 rest
      else if a = 226 && rest.take 2 == [128, 168] then
        [92, 117, 50, 48, 50, 56] ++ compactFrom .inside 2 rest
      else if a = 226 && rest.take 2 == [128, 169] then
        [92, 117, 50, 48, 50, 57] ++ compactFrom .inside 2 rest
      else a :: compactFrom .inside 0 rest

/-- What `json.Compact` makes of a document. -/
def compact (s : Octets) : Octets := compactFrom .outside 0 s

section Outside

variable {s r rest : Octets} {c : UInt8}

theorem compact_space (h : (c == 32 || c == 9 || c == 10 || c == 13) = true) (rest : Octets) :
    compact (c :: rest) = compact rest := by
  rw [compact, compactFrom]
  simp only [h, ↓reduceIte]
  rfl

theorem compact_cons (h : (c == 32 || c == 9 || c == 10 || c == 13) = false) (hquote : c ≠ 34)
    (rest : Octets) : compact (c :: rest) = c :: compact rest := by
  rw [compact, compactFrom]
  simp only [h, Bool.false_eq_true, ↓reduceIte, hquote]
  rfl

theorem compact_quote (rest : Octets) :
    compact (34 :: rest) = 34 :: compactFrom .inside 0 rest := rfl

theorem compact_skipSpace (s : Octets) : compact (skipSpace s) = compact s := by
  induction s with
  | nil => rfl
  | cons c rest ih =>
    cases hc : (c == 32 || c == 9 || c == 10 || c == 13) with
    | true =>
      rw [compact_space hc, ← ih]
      exact congrArg compact (dropWhile_cons_of_pos (by simpa using hc))
    | false => rw [skipSpace_cons hc]

theorem skipSpace_compact (s : Octets) : skipSpace (compact s) = compact s := by
  induction s with
  | nil => rfl
  | cons c rest ih =>
    cases hc : (c == 32 || c == 9 || c == 10 || c == 13) with
    | true => rw [compact_space hc, ih]
    | false =>
      by_cases hquote : c = 34
      · rw [hquote, compact_quote, skipSpace_cons (by decide)]
      · rw [compact_cons hc hquote, skipSpace_cons hc]

theorem not_space_of_skipSpace (h : skipSpace s = c :: rest) :
    (c == 32 || c == 9 || c == 10 || c == 13) = false := by
  have hhead := head?_dropWhile_not (fun c => c == 32 || c == 9 || c == 10 || c == 13) s
  rw [← skipSpace.eq_def, h] at hhead
  simpa using hhead

theorem compact_of_skipSpace (h : skipSpace s = c :: rest) (hquote : c ≠ 34) :
    compact s = c :: compact rest := by
  rw [← compact_skipSpace, h, compact_cons (not_space_of_skipSpace h) hquote]

theorem compact_head (h : skipSpace s = c :: rest) : ∃ t, compact s = c :: t := by
  by_cases hquote : c = 34
  · rw [← compact_skipSpace, h, hquote, compact_quote]
    exact ⟨_, rfl⟩
  · exact ⟨_, compact_of_skipSpace h hquote⟩

end Outside

section Strings

variable {s rest : Octets} {c : UInt8}

theorem compactFrom_skip (spot : Spot) (k : Nat) (c : UInt8) (rest : Octets) :
    compactFrom spot (k + 1) (c :: rest) = compactFrom spot k rest := by
  rw [compactFrom]

theorem compactFrom_plain (h₁ : c ≠ 34) (h₂ : c ≠ 92) (h₃ : (c = 60 || c = 62 || c = 38) = false)
    (h₄ : c = 226 → rest.take 2 ≠ [128, 168] ∧ rest.take 2 ≠ [128, 169]) :
    compactFrom .inside 0 (c :: rest) = c :: compactFrom .inside 0 rest := by
  rw [compactFrom, if_neg h₁, if_neg h₂, if_neg (by simp [h₃]), if_neg, if_neg]
  · intro h
    simp only [Bool.and_eq_true, decide_eq_true_eq, beq_iff_eq] at h
    exact (h₄ h.1).2 h.2
  · intro h
    simp only [Bool.and_eq_true, decide_eq_true_eq, beq_iff_eq] at h
    exact (h₄ h.1).1 h.2

theorem compactFrom_hexDigit (h : (hexDigit c).isSome = true) (rest : Octets) :
    compactFrom .inside 0 (c :: rest) = c :: compactFrom .inside 0 rest := by
  have hno (d : UInt8) (hd : (hexDigit d).isSome = false) : c ≠ d := by
    rintro rfl
    rw [h] at hd
    cases hd
  exact compactFrom_plain (hno 34 (by decide)) (hno 92 (by decide))
    (by simp [hno 60 (by decide), hno 62 (by decide), hno 38 (by decide)])
    (fun h226 => absurd h226 (hno 226 (by decide)))

theorem compactFrom_escape (e : UInt8) (rest : Octets) :
    compactFrom .inside 0 (92 :: e :: rest) = 92 :: e :: compactFrom .inside 0 rest := by
  rw [compactFrom, if_neg (by decide), if_pos rfl, compactFrom]

theorem compactFrom_inside (h₁ : c ≠ 34) (h₂ : c ≠ 92) (rest : Octets) :
    (∃ h₁ h₂ h₃ h₄ skip, compactFrom .inside 0 (c :: rest) =
        92 :: 117 :: h₁ :: h₂ :: h₃ :: h₄ :: compactFrom .inside skip rest ∧
      ([h₁, h₂, h₃, h₄].all fun h => (hexDigit h).isSome) = true ∧
      ∀ d ∈ rest.take skip, 128 ≤ d) ∨
    (compactFrom .inside 0 (c :: rest) = c :: compactFrom .inside 0 rest ∧
      (c = 60 || c = 62 || c = 38) = false ∧
      (c = 226 → rest.take 2 ≠ [128, 168] ∧ rest.take 2 ≠ [128, 169])) := by
  rw [compactFrom]
  simp only [h₁, h₂, ↓reduceIte]
  split_ifs with hhtml hline hpara
  · have hlow := c.toNat_lt
    refine .inl ⟨48, 48, _, _, 0, rfl, ?_, by simp⟩
    simp only [all_cons, hexDigit_hexOf (show c.toNat / 16 < 16 by omega),
      hexDigit_hexOf (show c.toNat % 16 < 16 by omega)]
    rfl
  · simp only [Bool.and_eq_true, beq_iff_eq] at hline
    refine .inl ⟨50, 48, 50, 56, 2, rfl, by decide, ?_⟩
    rw [hline.2]
    decide +kernel
  · simp only [Bool.and_eq_true, beq_iff_eq] at hpara
    refine .inl ⟨50, 48, 50, 57, 2, rfl, by decide, ?_⟩
    rw [hpara.2]
    decide +kernel
  · simp only [Bool.and_eq_true, decide_eq_true_eq, beq_iff_eq, not_and] at hline hpara
    exact .inr ⟨rfl, by simpa using hhtml, fun hc => ⟨hline hc, hpara hc⟩⟩

theorem readString_compact {done : Octets} {p : Octets × Octets} (h : readString done s = some p) :
    ∀ (skip : Nat) (done' : Octets), (∀ c ∈ s.take skip, 128 ≤ c) →
      ∃ text, readString done' (compactFrom .inside skip s) = some (text, compact p.2) := by
  fun_induction readString done s with
  | case2 done rest =>
    intro skip done' hskip
    cases skip with
    | succ k => exact absurd (hskip 34 (by simp)) (by decide)
    | zero =>
      cases h
      refine ⟨done', ?_⟩
      rw [compactFrom, readString.eq_def]
      rfl
  | case4 done h₁ h₂ h₃ h₄ rest hhex v hne ih =>
    intro skip done' hskip
    cases skip with
    | succ k => exact absurd (hskip 92 (by simp)) (by decide)
    | zero =>
      have hdigits := hhex
      simp only [all_cons, all_nil, Bool.and_true, Bool.and_eq_true] at hdigits
      obtain ⟨d₁, d₂, d₃, d₄⟩ := hdigits
      have htext : compactFrom .inside 0 (92 :: 117 :: h₁ :: h₂ :: h₃ :: h₄ :: rest) =
          92 :: 117 :: h₁ :: h₂ :: h₃ :: h₄ :: compactFrom .inside 0 rest := by
        rw [compactFrom_escape, compactFrom_hexDigit d₁, compactFrom_hexDigit d₂,
          compactFrom_hexDigit d₃, compactFrom_hexDigit d₄]
      obtain ⟨more, hmore⟩ := readString_unicode done' (compactFrom .inside 0 rest) hhex
      rw [htext, hmore]
      exact ih h 0 _ (by simp)
  | case7 done e rest hne o ho hesc ih =>
    intro skip done' hskip
    cases skip with
    | succ k => exact absurd (hskip 92 (by simp)) (by decide)
    | zero =>
      rw [compactFrom_escape, readString_short hne ho]
      exact ih h 0 _ (by simp)
  | case10 done c rest h₁ h₂ h₃ ih =>
    intro skip done' hskip
    cases skip with
    | succ k =>
      rw [compactFrom_skip]
      exact ih h k done' fun d hd => hskip d (mem_cons_of_mem c hd)
    | zero =>
      obtain ⟨e₁, e₂, e₃, e₄, skip, htext, hhex, hskip⟩ | ⟨htext, -⟩ :=
        compactFrom_inside h₁ h₂ rest
      · obtain ⟨more, hmore⟩ := readString_unicode done' (compactFrom .inside skip rest) hhex
        rw [htext, hmore]
        exact ih h skip _ hskip
      · rw [htext, readString_plain h₁ h₂ h₃]
        exact ih h 0 _ (by simp)
  | _ => cases h

end Strings

section Scanned

variable {s r rest : Octets} {c : UInt8} {left depth : Nat} {goal : Goal}

theorem compact_append_bare {word : Octets} (h : ∀ c ∈ word, bare c = true) (rest : Octets) :
    compact (word ++ rest) = word ++ compact rest := by
  induction word with
  | nil => rfl
  | cons c word ih =>
    obtain ⟨hc, hword⟩ := forall_mem_cons.mp h
    simp only [bare, Bool.not_eq_true', Bool.or_eq_false_iff, beq_eq_false_iff_ne] at hc
    rw [cons_append, compact_cons (by simp [hc]) hc.2, ih hword, cons_append]

theorem afterLabel_compact {object : Bool} (h : afterLabel object s = some r) :
    afterLabel object (compact s) = some (compact r) := by
  rcases afterLabel_eq_some.mp h with ⟨hobject, rfl⟩ | ⟨hobject, rest, p, hs, hp, hcolon⟩
  · exact afterLabel_eq_some.mpr (.inl ⟨hobject, rfl⟩)
  · obtain ⟨text, hread⟩ := readString_compact hp 0 [] (by simp)
    refine afterLabel_eq_some.mpr (.inr ⟨hobject, _, _, ?_, hread, ?_⟩)
    · rw [← compact_skipSpace, hs, compact_quote, skipSpace_cons (by decide)]
    · rw [skipSpace_compact, compact_of_skipSpace hcolon (by decide)]

theorem Scanned.compact (h : Scanned left goal s r) (hstop : goal = .value → Delimits (compact r)) :
    Scanned left goal (compact s) (compact r) := by
  have hcons {s rest : Octets} {c : UInt8} (hs : skipSpace s = c :: rest) (hc : c ≠ 34) :
      skipSpace (Json.compact s) = c :: Json.compact rest := by
    rw [skipSpace_compact, compact_of_skipSpace hs hc]
  -- what follows a value among the parts of another stops a number
  have hpart {mid rest : Octets} {c : UInt8} (hmid : skipSpace mid = c :: rest) (hc : c ≠ 34)
      (hdelimits : Delimits [c]) : Delimits (Json.compact mid) := by
    rw [compact_of_skipSpace hmid hc]
    intro d t ht
    exact hdelimits d [] (congrArg (· :: []) (cons.inj ht).1)
  induction h with
  | string hs hp =>
    obtain ⟨text, hread⟩ := readString_compact hp 0 [] (by simp)
    refine .string ?_ hread
    rw [skipSpace_compact, ← compact_skipSpace, hs, compact_quote]
  | @scalar _ _ _ r c hs hc hr =>
    obtain ⟨text, htext, -, hbare, hread⟩ := afterScalar_split hr
    refine .scalar (hcons hs hc.1) hc ?_
    rw [← compact_of_skipSpace hs hc.1, ← compact_skipSpace, hs, htext, compact_append_bare hbare]
    exact hread _ (.inl (hstop rfl))
  | @empty _ object _ _ _ hs hr =>
    exact .empty (hcons hs (ne_quote object).1) (hcons hr (ne_quote object).2.1)
  | @filled _ object _ _ more _ c hs hrest hc _ ih =>
    obtain ⟨t, ht⟩ := compact_head hrest
    have hmore : Json.compact (c :: more) = c :: t := by rw [← hrest, compact_skipSpace, ht]
    exact .filled (hcons hs (ne_quote object).1) (by rw [skipSpace_compact, ht]) hc
      (hmore ▸ ih nofun)
  | @last _ object _ _ _ _ hlabel _ hmid ih =>
    have hclose := closes_closing object
    refine .last (afterLabel_compact hlabel) (ih fun _ => ?_) (hcons hmid (ne_quote object).2.1)
    exact hpart hmid (ne_quote object).2.1 hclose.delimits
  | more hlabel _ hmid _ ih ih' =>
    refine .more (afterLabel_compact hlabel) (ih fun _ => ?_) (hcons hmid (by decide)) (ih' nofun)
    exact hpart hmid (by decide) (delimits_comma [])

/-- Whether a text is one JSON document with `depth` levels of nesting around it. -/
def validAt (depth : Nat) (s : Octets) : Bool :=
  match afterValue (2 * s.length + 2) depth s with
  | some rest => (skipSpace rest).isEmpty
  | none => false

theorem validAt_iff : validAt depth s = true ↔
    ∃ rest, Scanned (maxNestingDepth - depth) .value s rest ∧ skipSpace rest = [] := by
  constructor
  · intro h
    rw [validAt] at h
    split at h
    · next rest hrest => exact ⟨rest, scanned_of_afterValue hrest, isEmpty_iff.mp h⟩
    · cases h
  · rintro ⟨rest, hrest, hspace⟩
    rw [validAt, hrest.afterValue (Nat.le_refl _) (by omega)]
    exact isEmpty_iff.mpr hspace

theorem validAt_mono {depth' : Nat} (h : validAt depth s = true) (hle : depth' ≤ depth) :
    validAt depth' s = true := by
  obtain ⟨rest, hrest, hspace⟩ := validAt_iff.mp h
  exact validAt_iff.mpr ⟨rest, hrest.mono (by omega), hspace⟩

theorem not_scanned_bracket (rest : Octets) : ¬ Scanned left .value (93 :: rest) r := by
  have hspace := skipSpace_cons (c := 93) (by decide) rest
  intro h
  cases h with
  | string hs => exact absurd (cons.inj (hspace.symm.trans hs)).1 (by decide)
  | scalar hs _ hr =>
    rw [← hs, hspace] at hr
    simp [afterScalar, show ascii "true" = 116 :: ascii "rue" by decide,
      show ascii "false" = 102 :: ascii "alse" by decide,
      show ascii "null" = 110 :: ascii "ull" by decide, List.isPrefixOf] at hr
    exact absurd (afterNumber_head hr) (by decide)
  | @empty _ object _ _ _ hs =>
    exact absurd (cons.inj (hspace.symm.trans hs)).1 (by cases object <;> decide)
  | @filled _ object _ _ _ _ _ hs =>
    exact absurd (cons.inj (hspace.symm.trans hs)).1 (by cases object <;> decide)

theorem scans_compact (h : validAt depth s = true) : Scans (depth + 1) (compact s) := by
  obtain ⟨rest, hrest, hspace⟩ := validAt_iff.mp h
  have hnil : compact rest = [] := by rw [← compact_skipSpace, hspace]; rfl
  have hread := hrest.compact fun _ => by rw [hnil]; exact delimits_nil
  rw [hnil] at hread
  refine ⟨?_, _, fun d hd => by omega, fun rest hrest => hread.append rest fun _ => .inr hrest⟩
  cases hcut : compact s with
  | nil =>
    rw [hcut] at hread
    exact absurd hread.length_lt (Nat.lt_irrefl 0)
  | cons c tail =>
    have hspace := skipSpace_compact s
    rw [hcut] at hread hspace
    refine ⟨c, tail, rfl, skipSpace_cons (not_space_of_skipSpace hspace), ?_⟩
    rintro rfl
    exact not_scanned_bracket tail hread

end Scanned

end Wegweiser.Json
