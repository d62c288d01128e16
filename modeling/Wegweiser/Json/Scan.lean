/-
What the scanner reads, as a judgement.

The judgement knows no fuel and leaves the bound on the nesting open.  What it says of a text stays
true with more text behind it, unless the text ends in a number that goes on there.
-/
import Wegweiser.Json

namespace Wegweiser.Json

open List Option

def afterScalar (s : Octets) : Option Octets :=
  if (ascii "true").isPrefixOf s then some (s.drop 4)
  else if (ascii "false").isPrefixOf s then some (s.drop 5)
  else if (ascii "null").isPrefixOf s then some (s.drop 4)
  else afterNumber s

/-- What follows the name of a member and its colon; an element of an array has neither. -/
def afterLabel (object : Bool) (s : Octets) : Option Octets :=
  if object then
    match skipSpace s with
    | [] => none
    | c :: rest =>
      if c = 34 then
        (readString [] rest).bind fun p =>
          match skipSpace p.2 with
          | [] => none
          | c :: rest => if c = 58 then some rest else none
      else none
  else some s

def opening (object : Bool) : UInt8 := if object then 123 else 91

def closing (object : Bool) : UInt8 := if object then 125 else 93

theorem opening_injective {object object' : Bool} (h : opening object = opening object') :
    object = object' := by
  revert object object'
  decide

/-- What the scanner is after: a value, or the parts of one and the octet that closes it. -/
inductive Goal where
  | value
  | parts (object : Bool)

/-- In front of a text stands what the scanner is after, nested no deeper than so many levels, and
this follows. -/
inductive Scanned : Nat → Goal → Octets → Octets → Prop
  | string {left : Nat} {s rest : Octets} {p : Octets × Octets} (hs : skipSpace s = 34 :: rest)
      (hp : readString [] rest = some p) : Scanned left .value s p.2
  | scalar {left : Nat} {s rest r : Octets} {c : UInt8} (hs : skipSpace s = c :: rest)
      (hc : c ≠ 34 ∧ ∀ object, c ≠ opening object) (hr : afterScalar (c :: rest) = some r) :
      Scanned left .value s r
  | empty {left : Nat} {object : Bool} {s rest r : Octets}
      (hs : skipSpace s = opening object :: rest) (hr : skipSpace rest = closing object :: r) :
      Scanned (left + 1) .value s r
  | filled {left : Nat} {object : Bool} {s rest more r : Octets} {c : UInt8}
      (hs : skipSpace s = opening object :: rest) (hrest : skipSpace rest = c :: more)
      (hc : c ≠ closing object) (hparts : Scanned left (.parts object) (c :: more) r) :
      Scanned (left + 1) .value s r
  | last {left : Nat} {object : Bool} {s start mid r : Octets}
      (hlabel : afterLabel object s = some start) (hvalue : Scanned left .value start mid)
      (hmid : skipSpace mid = closing object :: r) : Scanned left (.parts object) s r
  | more {left : Nat} {object : Bool} {s start mid rest r : Octets}
      (hlabel : afterLabel object s = some start) (hvalue : Scanned left .value start mid)
      (hmid : skipSpace mid = 44 :: rest) (hparts : Scanned left (.parts object) rest r) :
      Scanned left (.parts object) s r

section Numbers

def Delimits (t : Octets) : Prop :=
  ∀ c rest, t = c :: rest → isDigit c = false ∧ c ≠ 46 ∧ c ≠ 101 ∧ c ≠ 69

theorem delimits_nil : Delimits [] := fun _ _ h => nomatch h

variable {c : UInt8} {rest r r' : Octets} {f g : Octets → Option Octets}

theorem delimits_cons (hc : isDigit c = false)
    (hmark : c ≠ 46 ∧ c ≠ 101 ∧ c ≠ 69) : Delimits (c :: rest) := by
  intro c' rest' h
  obtain ⟨rfl, -⟩ := cons.inj h
  exact ⟨hc, hmark⟩

def Follows (r r' : Octets) : Prop := Delimits r' ∨ ∃ c x y, r = c :: x ∧ r' = c :: y

theorem Follows.append (h : Follows r r') (text : Octets) : Follows (text ++ r) (text ++ r') := by
  cases text with
  | nil => exact h
  | cons c text => exact .inr ⟨c, _, _, rfl, rfl⟩

theorem follows_append {t : Octets} (h : r ≠ [] ∨ Delimits t) : Follows r (r ++ t) := by
  cases r with
  | nil => exact .inl (by simpa using h)
  | cons c r => exact .inr ⟨c, r, r ++ t, rfl, rfl⟩

theorem Follows.head (h : Follows r r') {P : UInt8 → Prop}
    (hd : ∀ c, isDigit c = false ∧ c ≠ 46 ∧ c ≠ 101 ∧ c ≠ 69 → P c)
    (hr : ∀ c x, r = c :: x → P c) : ∀ c y, r' = c :: y → P c := by
  intro c y hc
  rcases h with h | ⟨d, x, z, hx, hz⟩
  · exact hd c (h c y hc)
  · obtain ⟨rfl, -⟩ := cons.inj (hz.symm.trans hc)
    exact hr d x hx

def bare (c : UInt8) : Bool := !(c == 32 || c == 9 || c == 10 || c == 13 || c == 34)

/-- A reader of a part of a number: what it takes does not depend on what follows, as long as the
number stops there. -/
def Numeral (f : Octets → Option Octets) : Prop :=
  ∀ s r, f s = some r → ∃ text, s = text ++ r ∧ (∀ c ∈ text, bare c = true) ∧
    ∀ r', Follows r r' → f (text ++ r') = some r'

theorem Numeral.bind (hf : Numeral f) (hg : Numeral g) : Numeral fun s => (f s).bind g := by
  intro s r h
  obtain ⟨mid, hmid, hr⟩ := bind_eq_some_iff.mp h
  obtain ⟨front, rfl, hfront, hfirst⟩ := hf s mid hmid
  obtain ⟨back, rfl, hback, hsecond⟩ := hg mid r hr
  refine ⟨front ++ back, (append_assoc ..).symm, fun c hc => ?_, fun r' hr' => ?_⟩
  · exact (mem_append.mp hc).elim (hfront c) (hback c)
  · exact bind_eq_some_iff.mpr
      ⟨back ++ r', by rw [append_assoc, hfirst _ (hr'.append back)], hsecond r' hr'⟩

theorem bare_of_isDigit (h : isDigit c = true) : bare c = true := by
  simp only [isDigit, Bool.and_eq_true, decide_eq_true_eq, UInt8.le_iff_toNat_le] at h
  simp only [bare, Bool.not_eq_true', Bool.or_eq_false_iff, beq_eq_false_iff_ne]
  refine ⟨⟨⟨⟨?_, ?_⟩, ?_⟩, ?_⟩, ?_⟩ <;> rintro rfl <;> exact absurd h.1 (by decide)

theorem digits_append {run : Octets} (hrun : ∀ c ∈ run, isDigit c = true) (hne : run ≠ [])
    (hstop : ∀ c x, r = c :: x → isDigit c = false) : digits (run ++ r) = some r := by
  have hdrop : r.dropWhile isDigit = r := by
    cases r with
    | nil => rfl
    | cons c r => exact dropWhile_cons_of_neg (by simp [hstop c r rfl])
  rw [digits, takeWhile_append_of_pos hrun, dropWhile_append_of_pos hrun, hdrop, if_neg]
  simp [hne]

theorem digits_numeral : Numeral digits := by
  intro s r h
  rw [digits] at h
  split at h
  · cases h
  · next hsome =>
    obtain rfl := some.inj h
    have hrun := all_eq_true.mp (all_takeWhile (l := s) (p := isDigit))
    refine ⟨s.takeWhile isDigit, takeWhile_append_dropWhile.symm,
      fun c hc => bare_of_isDigit (hrun c hc), fun r' hr' => ?_⟩
    refine digits_append hrun (by simpa using hsome) (hr'.head (fun c hc => hc.1) fun c x hx => ?_)
    have hhead := head?_dropWhile_not isDigit s
    rw [hx] at hhead
    simpa using hhead

theorem afterFraction_cons (c : UInt8) (rest : Octets) :
    afterFraction (c :: rest) = if c = 46 then digits rest else some (c :: rest) := by
  rw [afterFraction.eq_def]
  split
  · next heq =>
    obtain ⟨rfl, rfl⟩ := cons.inj heq
    rfl
  · next hne =>
    have hc : c ≠ 46 := fun hc => hne rest (by rw [hc])
    rw [if_neg hc]

def afterSigned (s : Octets) : Option Octets :=
  match s with
  | [] => none
  | c :: rest => if c = 43 || c = 45 then digits rest else digits (c :: rest)

theorem afterExponent_cons (c : UInt8) (rest : Octets) :
    afterExponent (c :: rest) =
      if c = 101 || c = 69 then afterSigned rest else some (c :: rest) := by
  rw [afterExponent.eq_def]
  cases rest <;> rfl

def unsigned (s : Octets) : Octets :=
  match s with
  | [] => []
  | c :: rest => if c = 45 then rest else c :: rest

def afterWhole (s : Octets) : Option Octets :=
  match s with
  | [] => none
  | c :: rest => if c = 48 then some rest else digits (c :: rest)

theorem afterNumber_eq (s : Octets) :
    afterNumber s =
      (afterWhole (unsigned s)).bind fun s => (afterFraction s).bind afterExponent := by
  cases s with
  | nil => rfl
  | cons c rest =>
    rw [unsigned]
    split_ifs with hc
    · subst hc
      cases rest <;> rfl
    · simp [afterNumber.eq_def, hc, afterWhole]

theorem Numeral.optional (marks : UInt8 → Bool) (hnil : f [] = some [])
    (hcons : ∀ c rest, f (c :: rest) = if marks c then g rest else some (c :: rest))
    (hmarks : ∀ c, marks c = true → bare c = true ∧ (c = 46 ∨ c = 101 ∨ c = 69)) (hg : Numeral g) :
    Numeral f := by
  intro s r h
  have hstop {s : Octets} (hs : ∀ c x, s = c :: x → marks c = false) : f s = some s := by
    cases s with
    | nil => exact hnil
    | cons c s => rw [hcons, hs c s rfl, if_neg Bool.false_ne_true]
  have hpast (c : UInt8) (hc : isDigit c = false ∧ c ≠ 46 ∧ c ≠ 101 ∧ c ≠ 69) : marks c = false := by
    refine Bool.eq_false_iff.mpr fun hmark => ?_
    rcases (hmarks c hmark).2 with rfl | rfl | rfl
    · exact hc.2.1 rfl
    · exact hc.2.2.1 rfl
    · exact hc.2.2.2 rfl
  cases s with
  | nil =>
    obtain rfl := some.inj (hnil.symm.trans h)
    exact ⟨[], rfl, by simp, fun r' hr' => hstop (hr'.head hpast fun c x hx => nomatch hx)⟩
  | cons c rest =>
    rw [hcons] at h
    split at h
    · next hmark =>
      obtain ⟨text, rfl, hbare, hread⟩ := hg rest r h
      refine ⟨c :: text, rfl, forall_mem_cons.mpr ⟨(hmarks c hmark).1, hbare⟩,
        fun r' hr' => ?_⟩
      rw [cons_append, hcons, if_pos hmark, hread r' hr']
    · next hmark =>
      obtain rfl := some.inj h
      refine ⟨[], rfl, by simp, fun r' hr' => hstop (hr'.head hpast fun d x hx => ?_)⟩
      rw [← (cons.inj hx).1]
      simpa using hmark

theorem afterFraction_numeral : Numeral afterFraction :=
  .optional (· == 46) rfl (fun c rest => by simp [afterFraction_cons])
    (fun c hc => by simp_all [bare]) digits_numeral

theorem afterExponent_numeral (h : Numeral afterSigned) : Numeral afterExponent :=
  .optional (fun c => c == 101 || c == 69) rfl (fun c rest => by simp [afterExponent_cons])
    (fun c hc => by rcases (by simpa using hc : c = 101 ∨ c = 69) with rfl | rfl <;> decide) h

theorem Numeral.signed {h : Octets → Option Octets} (marks : UInt8 → Bool) (hf : f [] = none)
    (hcons : ∀ c rest, f (c :: rest) = if marks c then g rest else h (c :: rest))
    (hmarks : ∀ c, marks c = true → bare c = true) (hg : Numeral g) (hh : Numeral h)
    (hnil : h [] = none) : Numeral f := by
  intro s r hr
  cases s with
  | nil => simp [hf] at hr
  | cons c rest =>
    rw [hcons] at hr
    split at hr
    · next hmark =>
      obtain ⟨text, rfl, hbare, hread⟩ := hg rest r hr
      refine ⟨c :: text, rfl, forall_mem_cons.mpr ⟨hmarks c hmark, hbare⟩,
        fun r' hr' => ?_⟩
      rw [cons_append, hcons, if_pos hmark, hread r' hr']
    · next hmark =>
      obtain ⟨text, htext, hbare, hread⟩ := hh _ _ hr
      refine ⟨text, htext, hbare, fun r' hr' => ?_⟩
      cases text with
      | nil =>
        have hnone := hread [] (.inl delimits_nil)
        rw [nil_append, hnil] at hnone
        cases hnone
      | cons d text =>
        obtain ⟨rfl, -⟩ := cons.inj htext
        rw [cons_append, hcons, if_neg hmark]
        exact hread r' hr'

theorem afterNumber_numeral : Numeral afterNumber := by
  have hsigned : Numeral afterSigned :=
    .signed (fun c => c == 43 || c == 45) rfl (fun c rest => by simp [afterSigned])
      (fun c hc => by rcases (by simpa using hc : c = 43 ∨ c = 45) with rfl | rfl <;> decide)
      digits_numeral digits_numeral rfl
  have hwhole : Numeral afterWhole :=
    .signed (· == 48) (g := some) rfl (fun c rest => by simp [afterWhole])
      (fun c hc => by simp_all [bare]) (fun s r h => ⟨[], some.inj h, by simp, fun _ _ => rfl⟩)
      digits_numeral rfl
  have hrest := hwhole.bind (afterFraction_numeral.bind (afterExponent_numeral hsigned))
  refine .signed (· == 45) rfl (fun c rest => ?_) (fun c hc => by simp_all [bare])
    hrest hrest rfl
  simp only [afterNumber_eq, unsigned]
  split <;> simp_all

theorem afterScalar_number (hc : c = 45 ∨ isDigit c = true) (rest : Octets) :
    afterScalar (c :: rest) = afterNumber (c :: rest) := by
  have hno (word : String) (d : UInt8) (tail : Octets) (hword : ascii word = d :: tail)
      (hd : d ≠ 45 ∧ isDigit d = false) : (ascii word).isPrefixOf (c :: rest) = false := by
    have hne : d ≠ c := by
      rintro rfl
      rcases hc with hc | hc
      · exact hd.1 hc
      · exact absurd (hc.symm.trans hd.2) (by decide)
    simp [hword, isPrefixOf, hne]
  rw [afterScalar, hno "true" 116 (ascii "rue") (by decide) (by decide),
    hno "false" 102 (ascii "alse") (by decide) (by decide),
    hno "null" 110 (ascii "ull") (by decide) (by decide)]
  rfl

theorem afterNumber_head (h : afterNumber (c :: rest) = some r) : c = 45 ∨ isDigit c = true := by
  rw [afterNumber_eq, unsigned] at h
  obtain ⟨whole, hwhole, -⟩ := bind_eq_some_iff.mp h
  by_cases hsign : c = 45
  · exact .inl hsign
  · rw [if_neg hsign, afterWhole] at hwhole
    split at hwhole
    · next hzero =>
      subst hzero
      exact .inr (by decide)
    · rw [digits] at hwhole
      split at hwhole
      · cases hwhole
      · next hsome =>
        right
        by_contra hc
        simp [hc] at hsome

def words : List Octets := [ascii "true", ascii "false", ascii "null"]

theorem afterScalar_word {word : Octets} (hword : word ∈ words) (rest : Octets) :
    afterScalar (word ++ rest) = some rest := by
  have ht : ascii "true" = [116, 114, 117, 101] := by decide
  have hf : ascii "false" = [102, 97, 108, 115, 101] := by decide
  have hn : ascii "null" = [110, 117, 108, 108] := by decide
  simp only [words, ht, hf, hn, mem_cons, not_mem_nil, or_false] at hword
  obtain rfl | rfl | rfl := hword <;> simp [afterScalar, ht, hf, hn, isPrefixOf]

theorem afterScalar_split {s : Octets} (h : afterScalar s = some r) :
    ∃ text, s = text ++ r ∧ text ≠ [] ∧ (∀ c ∈ text, bare c = true) ∧
      ∀ r', Follows r r' → afterScalar (text ++ r') = some r' := by
  have hword (word : Octets) (hmem : word ∈ words) (hs : word.isPrefixOf s = true)
      (hr : s.drop word.length = r) : ∃ text, s = text ++ r ∧ text ≠ [] ∧
        (∀ c ∈ text, bare c = true) ∧ ∀ r', Follows r r' → afterScalar (text ++ r') = some r' := by
    obtain ⟨t, rfl⟩ := isPrefixOf_iff_prefix.mp hs
    obtain rfl := (drop_left ..).symm.trans hr
    have hwords : ∀ w ∈ words, w ≠ [] ∧ ∀ c ∈ w, bare c = true := by decide +kernel
    exact ⟨word, rfl, (hwords word hmem).1, (hwords word hmem).2,
      fun r' _ => afterScalar_word hmem r'⟩
  have hcases := h
  rw [afterScalar] at hcases
  split_ifs at hcases with ht hf hn
  · exact hword _ (by simp [words]) ht (some.inj hcases)
  · exact hword _ (by simp [words]) hf (some.inj hcases)
  · exact hword _ (by simp [words]) hn (some.inj hcases)
  · obtain ⟨text, rfl, hbare, hread⟩ := afterNumber_numeral s r hcases
    cases text with
    | nil => exact absurd (hread [] (.inl delimits_nil)) (by simp [afterNumber])
    | cons c text =>
      refine ⟨c :: text, rfl, cons_ne_nil c text, hbare, fun r' hr' => ?_⟩
      rw [cons_append, afterScalar_number (afterNumber_head hcases)]
      exact hread r' hr'

end Numbers

section Reading

variable {s r t rest : Octets} {c : UInt8}

theorem skipSpace_length (s : Octets) : (skipSpace s).length ≤ s.length :=
  (dropWhile_suffix _).length_le

theorem skipSpace_append (h : skipSpace s = c :: rest) (t : Octets) :
    skipSpace (s ++ t) = c :: (rest ++ t) := by
  rw [skipSpace] at h ⊢
  rw [dropWhile_append, h]
  rfl

theorem length_of_skipSpace (h : skipSpace s = c :: rest) : rest.length < s.length := by
  have hle := skipSpace_length s
  rw [h, length_cons] at hle
  omega

variable {done : Octets} {p : Octets × Octets} {object : Bool}

theorem readString_length (h : readString done s = some p) : p.2.length < s.length := by
  fun_induction readString done s with
  | case2 done rest =>
    cases h
    exact Nat.lt_succ_self _
  | case4 done h₁ h₂ h₃ h₄ rest hhex v hne ih =>
    have hlt := ih h
    simp only [length_cons]
    omega
  | case7 done e rest hne o ho hesc ih =>
    have hlt := ih h
    simp only [length_cons]
    omega
  | case10 done c rest h₁ h₂ h₃ ih => exact Nat.lt_succ_of_lt (ih h)
  | _ => cases h

theorem readString_append (h : readString done s = some p)
    (t : Octets) : readString done (s ++ t) = some (p.1, p.2 ++ t) := by
  fun_induction readString done s with
  | case2 done rest =>
    cases h
    rw [cons_append, readString.eq_def]
    rfl
  | case4 done h₁ h₂ h₃ h₄ rest hhex v hne ih =>
    have hrest := ih h
    simp only [cons_append]
    rw [readString.eq_def]
    simp only [hhex, hne, ↓reduceIte]
    exact hrest
  | case7 done e rest hne o ho hesc ih =>
    simp only [cons_append]
    rw [readString.eq_def]
    simp only [hne, hesc, ho, ↓reduceIte]
    exact ih h
  | case10 done c rest h₁ h₂ h₃ ih =>
    simp only [cons_append]
    rw [readString.eq_def]
    simp only [h₁, h₂, h₃, ↓reduceIte]
    exact ih h
  | _ => cases h

theorem afterLabel_eq_some : afterLabel object s = some r ↔
    (object = false ∧ s = r) ∨ object = true ∧ ∃ rest p, skipSpace s = 34 :: rest ∧
      readString [] rest = some p ∧ skipSpace p.2 = 58 :: r := by
  cases object with
  | false => simp [afterLabel]
  | true =>
    simp only [afterLabel, ↓reduceIte, Bool.true_eq_false, false_and, true_and, false_or]
    constructor
    · intro h
      split at h
      · cases h
      · next c rest hs =>
        split_ifs at h with hc
        obtain ⟨p, hp, h⟩ := bind_eq_some_iff.mp h
        split at h
        · cases h
        · next d more hd =>
          split_ifs at h with hcolon
          obtain rfl := some.inj h
          exact ⟨rest, p, by rw [hs, hc], hp, by rw [hd, hcolon]⟩
    · rintro ⟨rest, p, hs, hp, hcolon⟩
      simp [hs, hp, hcolon]

theorem afterLabel_length (h : afterLabel object s = some r) : r.length ≤ s.length := by
  rcases afterLabel_eq_some.mp h with ⟨-, rfl⟩ | ⟨-, rest, p, hs, hp, hcolon⟩
  · exact Nat.le_refl _
  · have hs := length_of_skipSpace hs
    have hp := readString_length hp
    have hcolon := length_of_skipSpace hcolon
    omega

theorem afterLabel_append (h : afterLabel object s = some r) (t : Octets) :
    afterLabel object (s ++ t) = some (r ++ t) := by
  rcases afterLabel_eq_some.mp h with ⟨hobject, rfl⟩ | ⟨hobject, rest, p, hs, hp, hcolon⟩
  · exact afterLabel_eq_some.mpr (.inl ⟨hobject, rfl⟩)
  · exact afterLabel_eq_some.mpr (.inr ⟨hobject, _, _, skipSpace_append hs t, readString_append hp t,
      skipSpace_append hcolon t⟩)

end Reading

namespace Scanned

variable {left left' : Nat} {goal : Goal} {s r r' t : Octets}

theorem length_lt (h : Scanned left goal s r) : r.length < s.length := by
  induction h with
  | string hs hp =>
    have hs := length_of_skipSpace hs
    have hp := readString_length hp
    omega
  | @scalar _ s _ _ _ hs _ hr =>
    obtain ⟨text, htext, hne, -⟩ := afterScalar_split hr
    have hle := skipSpace_length s
    have hpos := length_pos_iff.mpr hne
    rw [hs, htext, length_append] at hle
    omega
  | empty hs hr =>
    have hs := length_of_skipSpace hs
    have hr := length_of_skipSpace hr
    omega
  | filled hs hrest _ _ ih =>
    have hs := length_of_skipSpace hs
    have hrest := length_of_skipSpace hrest
    rw [length_cons] at ih
    omega
  | last hlabel _ hmid ih =>
    have hlabel := afterLabel_length hlabel
    have hmid := length_of_skipSpace hmid
    omega
  | more hlabel _ hmid _ ih ih' =>
    have hlabel := afterLabel_length hlabel
    have hmid := length_of_skipSpace hmid
    omega

theorem mono (h : Scanned left goal s r) (hle : left ≤ left') : Scanned left' goal s r := by
  induction h generalizing left' with
  | string hs hp => exact .string hs hp
  | scalar hs hc hr => exact .scalar hs hc hr
  | empty hs hr =>
    obtain ⟨k, rfl⟩ : ∃ k, left' = k + 1 := ⟨left' - 1, by omega⟩
    exact .empty hs hr
  | filled hs hrest hc _ ih =>
    obtain ⟨k, rfl⟩ : ∃ k, left' = k + 1 := ⟨left' - 1, by omega⟩
    exact .filled hs hrest hc (ih (Nat.le_of_succ_le_succ hle))
  | last hlabel _ hmid ih => exact .last hlabel (ih hle) hmid
  | more hlabel _ hmid _ ih ih' => exact .more hlabel (ih hle) hmid (ih' hle)

theorem append (h : Scanned left goal s r) (t : Octets)
    (hstop : goal = .value → r ≠ [] ∨ Delimits t) : Scanned left goal (s ++ t) (r ++ t) := by
  have hmid {mid rest : Octets} {c : UInt8} (h : skipSpace mid = c :: rest) : mid ≠ [] := by
    rintro rfl
    cases h
  induction h with
  | string hs hp => exact .string (skipSpace_append hs t) (readString_append hp t)
  | @scalar _ _ _ r _ hs hc hr =>
    obtain ⟨text, htext, -, -, hread⟩ := afterScalar_split hr
    refine .scalar (skipSpace_append hs t) hc ?_
    rw [← cons_append, htext, append_assoc]
    exact hread _ (follows_append (hstop rfl))
  | empty hs hr => exact .empty (skipSpace_append hs t) (skipSpace_append hr t)
  | filled hs hrest hc _ ih =>
    exact .filled (skipSpace_append hs t) (skipSpace_append hrest t) hc (ih nofun)
  | last hlabel _ hr ih =>
    exact .last (afterLabel_append hlabel t) (ih fun _ => .inl (hmid hr)) (skipSpace_append hr t)
  | more hlabel _ hrest _ ih ih' =>
    exact .more (afterLabel_append hlabel t) (ih fun _ => .inl (hmid hrest))
      (skipSpace_append hrest t) (ih' nofun)

theorem append_of_open (h : Scanned left .value s r) (object : Bool) {rest : Octets}
    (hs : skipSpace s = opening object :: rest) (t : Octets) :
    Scanned left .value (s ++ t) (r ++ t) := by
  cases h with
  | string hs' =>
    have hhead := (cons.inj (hs.symm.trans hs')).1
    cases object <;> exact absurd hhead (by decide)
  | scalar hs' hc => exact absurd (cons.inj (hs'.symm.trans hs)).1 (hc.2 object)
  | empty hs hr => exact .empty (skipSpace_append hs t) (skipSpace_append hr t)
  | filled hs hrest hc hparts =>
    exact .filled (skipSpace_append hs t) (skipSpace_append hrest t) hc (hparts.append t nofun)

theorem ne_quote (object : Bool) : opening object ≠ 34 ∧ closing object ≠ 34 ∧ closing object ≠ 44 := by
  cases object <;> decide

theorem unique (h : Scanned left goal s r) (h' : Scanned left' goal s r') : r = r' := by
  have hhead {c d : UInt8} {s x y : Octets} (hc : skipSpace s = c :: x) (hd : skipSpace s = d :: y) :
      c = d ∧ x = y := cons.inj (hc.symm.trans hd)
  induction h generalizing left' r' with
  | string hs hp =>
    cases h' with
    | string hs' hp' =>
      obtain ⟨-, rfl⟩ := hhead hs hs'
      rw [some.inj (hp.symm.trans hp')]
    | scalar hs' hc' => exact absurd (hhead hs hs').1.symm hc'.1
    | @empty _ object _ _ _ hs' => exact absurd (hhead hs hs').1.symm (ne_quote object).1
    | @filled _ object _ _ _ _ _ hs' => exact absurd (hhead hs hs').1.symm (ne_quote object).1
  | scalar hs hc hr =>
    cases h' with
    | string hs' => exact absurd (hhead hs hs').1 hc.1
    | scalar hs' _ hr' =>
      obtain ⟨rfl, rfl⟩ := hhead hs hs'
      exact some.inj (hr.symm.trans hr')
    | empty hs' => exact absurd (hhead hs hs').1 (hc.2 _)
    | filled hs' => exact absurd (hhead hs hs').1 (hc.2 _)
  | @empty _ object _ _ _ hs hr =>
    cases h' with
    | string hs' => exact absurd (hhead hs hs').1 (ne_quote object).1
    | scalar hs' hc' => exact absurd (hhead hs hs').1.symm (hc'.2 object)
    | @empty _ object' _ _ _ hs' hr' =>
      obtain ⟨hopening, rfl⟩ := hhead hs hs'
      exact (hhead hr hr').2
    | @filled _ object' _ _ _ _ _ hs' hrest' hc' =>
      obtain ⟨hopening, rfl⟩ := hhead hs hs'
      obtain rfl := opening_injective hopening
      exact absurd (hhead hr hrest').1.symm hc'
  | @filled _ object _ _ _ _ _ hs hrest hc _ ih =>
    cases h' with
    | string hs' => exact absurd (hhead hs hs').1 (ne_quote object).1
    | scalar hs' hc' => exact absurd (hhead hs hs').1.symm (hc'.2 object)
    | @empty _ object' _ _ _ hs' hr' =>
      obtain ⟨hopening, rfl⟩ := hhead hs hs'
      obtain rfl := opening_injective hopening
      exact absurd (hhead hrest hr').1 hc
    | @filled _ object' _ _ _ _ _ hs' hrest' _ hparts' =>
      obtain ⟨hopening, rfl⟩ := hhead hs hs'
      obtain rfl := opening_injective hopening
      obtain ⟨rfl, rfl⟩ := hhead hrest hrest'
      exact ih hparts'
  | @last _ object _ _ _ _ hlabel _ hmid ih =>
    cases h' with
    | last hlabel' hvalue' hmid' =>
      obtain rfl := some.inj (hlabel.symm.trans hlabel')
      obtain rfl := ih hvalue'
      exact (hhead hmid hmid').2
    | more hlabel' hvalue' hmid' =>
      obtain rfl := some.inj (hlabel.symm.trans hlabel')
      obtain rfl := ih hvalue'
      exact absurd (hhead hmid hmid').1 (ne_quote object).2.2
  | @more _ object _ _ _ _ _ hlabel _ hmid _ ih ih' =>
    cases h' with
    | last hlabel' hvalue' hmid' =>
      obtain rfl := some.inj (hlabel.symm.trans hlabel')
      obtain rfl := ih hvalue'
      exact absurd (hhead hmid hmid').1.symm (ne_quote object).2.2
    | more hlabel' hvalue' hmid' hparts' =>
      obtain rfl := some.inj (hlabel.symm.trans hlabel')
      obtain rfl := ih hvalue'
      obtain ⟨-, rfl⟩ := hhead hmid hmid'
      exact ih' hparts'

end Scanned

def scan : Goal → Nat → Nat → Octets → Option Octets
  | .value => afterValue
  | .parts true => afterMembers
  | .parts false => afterElements

def afterOpen (object : Bool) (fuel depth : Nat) (s : Octets) : Option Octets :=
  if maxNestingDepth ≤ depth then none
  else
    match skipSpace s with
    | [] => none
    | c :: rest =>
      if c = closing object then some rest
      else scan (.parts object) fuel (depth + 1) (c :: rest)

section Steps

variable {object : Bool} {fuel depth : Nat} {s r : Octets}

theorem scan_nil (goal : Goal) (fuel depth : Nat) : scan goal fuel depth [] = none := by
  cases fuel with
  | zero => rcases goal with _ | _ | _ <;> simp [scan, afterValue, afterMembers, afterElements]
  | succ fuel =>
    have hvalue : ∀ fuel, afterValue fuel depth [] = none := by
      intro fuel
      cases fuel <;> simp [afterValue, skipSpace]
    rcases goal with _ | _ | _
    · exact hvalue _
    · simp [scan, afterElements, hvalue]
    · simp [scan, afterMembers, skipSpace]

theorem scan_value (fuel depth : Nat) (s : Octets) : scan .value (fuel + 1) depth s =
    match skipSpace s with
    | [] => none
    | c :: rest =>
      if c = 34 then (readString [] rest).map Prod.snd
      else if c = 123 then afterOpen true fuel depth rest
      else if c = 91 then afterOpen false fuel depth rest
      else afterScalar (c :: rest) := by
  rw [scan, afterValue]
  cases skipSpace s with
  | nil => rfl
  | cons c rest =>
    dsimp only
    split
    · rfl
    · split
      · rw [afterOpen]
        split
        · rfl
        · cases hrest : skipSpace rest with
          | nil => exact scan_nil (.parts true) fuel (depth + 1)
          | cons d more =>
            by_cases hd : d = 125
            · simp [hd, closing]
            · simp [hd, closing, scan]
      · split
        · rw [afterOpen]
          split
          · rfl
          · cases hrest : skipSpace rest with
            | nil => exact scan_nil (.parts false) fuel (depth + 1)
            | cons d more =>
              by_cases hd : d = 93
              · simp [hd, closing]
              · simp [hd, closing, scan]
        · rfl

theorem scan_parts (object : Bool) (fuel depth : Nat) (s : Octets) :
    scan (.parts object) (fuel + 1) depth s =
      (afterLabel object s).bind fun start => (scan .value fuel depth start).bind fun mid =>
        match skipSpace mid with
        | [] => none
        | c :: rest =>
          if c = 44 then scan (.parts object) fuel depth rest
          else if c = closing object then some rest
          else none := by
  cases object with
  | false =>
    change afterElements (fuel + 1) depth s = _
    rw [afterElements, afterLabel]
    refine congrArg _ (funext fun mid => ?_)
    cases skipSpace mid with
    | nil => rfl
    | cons c rest =>
      split <;> simp_all [closing, scan]
  | true =>
    change afterMembers (fuel + 1) depth s = _
    rw [afterMembers, afterLabel]
    cases skipSpace s with
    | nil => rfl
    | cons c rest =>
      by_cases hc : c = 34
      · simp only [hc, ↓reduceIte, bind_assoc]
        refine congrArg _ (funext fun p => ?_)
        cases skipSpace p.2 with
        | nil => rfl
        | cons d more =>
          by_cases hd : d = 58
          · simp only [hd, ↓reduceIte]
            refine congrArg _ (funext fun mid => ?_)
            cases skipSpace mid with
            | nil => rfl
            | cons c rest => split <;> simp_all [closing, scan]
          · simp [hd]
      · simp [hc]

variable {rest : Octets} {goal : Goal} {left : Nat}

theorem scanned_of_open (object : Bool) (hs : skipSpace s = opening object :: rest)
    (h : afterOpen object fuel depth rest = some r)
    (ih : ∀ {goal depth s r}, scan goal fuel depth s = some r →
      Scanned (maxNestingDepth - depth) goal s r) : Scanned (maxNestingDepth - depth) .value s r := by
  rw [afterOpen] at h
  split at h
  · cases h
  · next hdepth =>
    obtain ⟨k, hk⟩ : ∃ k, maxNestingDepth - depth = k + 1 := ⟨maxNestingDepth - depth - 1, by omega⟩
    rw [hk]
    split at h
    · cases h
    · next c more hrest =>
      split at h
      · next hc =>
        obtain rfl := some.inj h
        exact .empty hs (hc ▸ hrest)
      · next hc =>
        have hparts := ih h
        rw [show maxNestingDepth - (depth + 1) = k by omega] at hparts
        exact .filled hs hrest hc hparts

theorem scanned_of_scan (h : scan goal fuel depth s = some r) :
    Scanned (maxNestingDepth - depth) goal s r := by
  induction fuel generalizing goal depth s r with
  | zero => rcases goal with _ | _ | _ <;> simp [scan, afterValue, afterMembers, afterElements] at h
  | succ fuel ih =>
    cases goal with
    | value =>
      rw [scan_value] at h
      split at h
      · cases h
      · next c rest hs =>
        split_ifs at h with hquote hbrace hbracket
        · obtain ⟨p, hp, rfl⟩ := map_eq_some_iff.mp h
          exact .string (hquote ▸ hs) hp
        · exact scanned_of_open true (by rw [hs, hbrace]; rfl) h ih
        · exact scanned_of_open false (by rw [hs, hbracket]; rfl) h ih
        · exact .scalar hs ⟨hquote, by simp [opening, hbrace, hbracket]⟩ h
    | parts object =>
      rw [scan_parts] at h
      obtain ⟨start, hlabel, h⟩ := bind_eq_some_iff.mp h
      obtain ⟨mid, hmid, h⟩ := bind_eq_some_iff.mp h
      split at h
      · cases h
      · next c rest hc =>
        split_ifs at h with hcomma hclosing
        · exact .more hlabel (ih hmid) (hcomma ▸ hc) (ih h)
        · obtain rfl := some.inj h
          exact .last hlabel (ih hmid) (hclosing ▸ hc)

def Goal.cost : Goal → Nat
  | .value => 0
  | .parts _ => 1

theorem scan_open (fuel depth : Nat) (hs : skipSpace s = opening object :: rest) :
    scan .value (fuel + 1) depth s = afterOpen object fuel depth rest := by
  rw [scan_value, hs]
  cases object <;> rfl

theorem Scanned.scan (h : Scanned left goal s r) (hdepth : left ≤ maxNestingDepth - depth)
    (hfuel : 2 * s.length + goal.cost ≤ fuel + 2 * r.length) : scan goal fuel depth s = some r := by
  induction h generalizing fuel depth with
  | string hs hp =>
    have hs' := length_of_skipSpace hs
    have hp' := readString_length hp
    obtain ⟨fuel, rfl⟩ : ∃ f, fuel = f + 1 := ⟨fuel - 1, by omega⟩
    rw [scan_value, hs]
    simp [hp]
  | scalar hs hc hr =>
    have hlt := Scanned.length_lt (.scalar hs hc hr : Scanned 0 _ _ _)
    obtain ⟨fuel, rfl⟩ : ∃ f, fuel = f + 1 := ⟨fuel - 1, by omega⟩
    have hbrace : _ ≠ (123 : UInt8) := hc.2 true
    have hbracket : _ ≠ (91 : UInt8) := hc.2 false
    rw [scan_value, hs]
    dsimp only
    rw [if_neg hc.1, if_neg hbrace, if_neg hbracket, hr]
  | empty hs hr =>
    have hs' := length_of_skipSpace hs
    have hr' := length_of_skipSpace hr
    obtain ⟨fuel, rfl⟩ : ∃ f, fuel = f + 1 := ⟨fuel - 1, by omega⟩
    rw [scan_open fuel depth hs, afterOpen, if_neg (by omega), hr]
    exact if_pos rfl
  | filled hs hrest hc hparts ih =>
    have hs' := length_of_skipSpace hs
    have hrest' := length_of_skipSpace hrest
    have hlt := hparts.length_lt
    simp only [Goal.cost, length_cons] at hfuel hlt ih
    obtain ⟨fuel, rfl⟩ : ∃ f, fuel = f + 1 := ⟨fuel - 1, by omega⟩
    rw [scan_open fuel depth hs, afterOpen, if_neg (by omega), hrest]
    dsimp only
    rw [if_neg hc]
    exact ih (by omega) (by omega)
  | last hlabel hvalue hmid ih =>
    have hlabel' := afterLabel_length hlabel
    have hmid' := length_of_skipSpace hmid
    have hlt := hvalue.length_lt
    simp only [Goal.cost] at hfuel ih
    obtain ⟨fuel, rfl⟩ : ∃ f, fuel = f + 1 := ⟨fuel - 1, by omega⟩
    rw [scan_parts, hlabel, bind_some, ih hdepth (by omega), bind_some, hmid]
    dsimp only
    rw [if_neg (Scanned.ne_quote _).2.2, if_pos rfl]
  | more hlabel hvalue hmid hparts ih ih' =>
    have hlabel' := afterLabel_length hlabel
    have hmid' := length_of_skipSpace hmid
    have hlt := hvalue.length_lt
    have hlt' := hparts.length_lt
    simp only [Goal.cost] at hfuel ih ih'
    obtain ⟨fuel, rfl⟩ : ∃ f, fuel = f + 1 := ⟨fuel - 1, by omega⟩
    rw [scan_parts, hlabel, bind_some, ih hdepth (by omega), bind_some, hmid]
    exact ih' hdepth (by omega)

theorem scanned_of_afterValue (h : afterValue fuel depth s = some r) :
    Scanned (maxNestingDepth - depth) .value s r :=
  @scanned_of_scan fuel depth s r .value h

theorem Scanned.afterValue (h : Scanned left .value s r)
    (hdepth : left ≤ maxNestingDepth - depth) (hfuel : 2 * s.length ≤ fuel + 2 * r.length) :
    afterValue fuel depth s = some r :=
  h.scan hdepth hfuel

end Steps

end Wegweiser.Json
