/-
JSON strings: how a text is written as one, and how it is read.

A Go string is octets.
-/
import Wegweiser.Json.Scan

namespace Wegweiser.Json

open List Option UInt8

/-- How long the character is that an octet from 128 on leads, and the octets its second one lies
between: the table `first` of `unicode/utf8`. -/
def lead (a : UInt8) : Option (Nat × UInt8 × UInt8) :=
  if 194 ≤ a && a ≤ 223 then some (2, 128, 191)
  else if a = 224 then some (3, 160, 191)
  else if a = 237 then some (3, 128, 159)
  else if 225 ≤ a && a ≤ 239 then some (3, 128, 191)
  else if a = 240 then some (4, 144, 191)
  else if 241 ≤ a && a ≤ 243 then some (4, 128, 191)
  else if a = 244 then some (4, 128, 143)
  else none

def continues (c : UInt8) : Bool := 128 ≤ c && c ≤ 191

/-- How many octets follow the first one of the character at the front of a text, where that one
is from 128 on: `utf8.DecodeRune`. -/
def runeTail (a : UInt8) (rest : Octets) : Option Nat :=
  match lead a with
  | none => none
  | some (n, lo, hi) =>
    match rest.take (n - 1) with
    | [] => none
    | b :: more =>
      if lo ≤ b && b ≤ hi && more.all continues && more.length + 2 == n then some (n - 1)
      else none

/-- `utf8.Valid`; `inside` octets of a character are still to come. -/
def utf8From (inside : Nat) : Octets → Bool
  | [] => true
  | a :: rest =>
    match inside with
    | k + 1 => utf8From k rest
    | 0 =>
      if a < 128 then utf8From 0 rest
      else
        match runeTail a rest with
        | none => false
        | some k => utf8From k rest

def isUTF8 (s : Octets) : Bool := utf8From 0 s

def hexOf (n : Nat) : UInt8 := ofNat (if n < 10 then 48 + n else 87 + n)

/-- One octet below 128 of a string, as `appendString` writes it. -/
def escapeOctet (a : UInt8) : Octets :=
  if a = 34 || a = 92 then [92, a]
  else if a = 8 then [92, 98]
  else if a = 12 then [92, 102]
  else if a = 10 then [92, 110]
  else if a = 13 then [92, 114]
  else if a = 9 then [92, 116]
  else if a < 32 || a = 60 || a = 62 || a = 38 then
    [92, 117, 48, 48, hexOf (a.toNat / 16), hexOf (a.toNat % 16)]
  else [a]

/-- The octets of a string; `copy` of the next ones go out as they are, `skip` not at all. -/
def quoteFrom (copy skip : Nat) : Octets → Octets
  | [] => []
  | a :: rest =>
    match skip, copy with
    | k + 1, _ => quoteFrom 0 k rest
    | 0, k + 1 => a :: quoteFrom k 0 rest
    | 0, 0 =>
      if a < 128 then escapeOctet a ++ quoteFrom 0 0 rest
      else
        match runeTail a rest with
        | none => [92, 117, 102, 102, 102, 100] ++ quoteFrom 0 0 rest
        | some k =>
          -- the line and the paragraph separator
          if a = 226 && rest.take 2 == [128, 168] then
            [92, 117, 50, 48, 50, 56] ++ quoteFrom 0 2 rest
          else if a = 226 && rest.take 2 == [128, 169] then
            [92, 117, 50, 48, 50, 57] ++ quoteFrom 0 2 rest
          else a :: quoteFrom k 0 rest

/-- A string as `json.Marshal` writes it. -/
def quote (s : Octets) : Octets := 34 :: (quoteFrom 0 0 s ++ [34])

/-- `getu4`: the value of four hexadecimal digits. -/
def hex4 (h₁ h₂ h₃ h₄ : UInt8) : Option Nat := do
  let a ← hexDigit h₁
  let b ← hexDigit h₂
  let c ← hexDigit h₃
  let d ← hexDigit h₄
  pure (((a * 16 + b) * 16 + c) * 16 + d)

/-- `utf8.AppendRune` for a value that is a character. -/
def encodeRune (v : Nat) : Octets :=
  if v < 128 then [ofNat v]
  else if v < 2048 then [ofNat (192 + v / 64), ofNat (128 + v % 64)]
  else if v < 65536 then
    [ofNat (224 + v / 4096), ofNat (128 + v / 64 % 64), ofNat (128 + v % 64)]
  else
    [ofNat (240 + v / 262144), ofNat (128 + v / 4096 % 64),
      ofNat (128 + v / 64 % 64), ofNat (128 + v % 64)]

def replacement : Octets := [239, 191, 189]

def isHighSurrogate (v : Nat) : Bool := 0xD800 ≤ v && v < 0xDC00

def isSurrogate (v : Nat) : Bool := 0xD800 ≤ v && v < 0xE000

/-- The second half of a pair of surrogates, where the text goes on with the escape of one. -/
def lowSurrogate (s : Octets) : Option Nat :=
  match s with
  | 92 :: 117 :: h₁ :: h₂ :: h₃ :: h₄ :: _ =>
    (hex4 h₁ h₂ h₃ h₄).filter fun w => isSurrogate w && !isHighSurrogate w
  | _ => none

/-- `unquoteBytes` between the quotes; `copy` of the next octets belong to a character, `skip` of
them were read already. -/
def unquoteFrom (copy skip : Nat) : Octets → Option Octets
  | [] => some []
  | a :: rest =>
    match skip, copy with
    | k + 1, _ => unquoteFrom 0 k rest
    | 0, k + 1 => (unquoteFrom k 0 rest).map (a :: ·)
    | 0, 0 =>
      if a = 92 then
        match rest with
        | [] => none
        | e :: rest₁ =>
          if e = 117 then
            match rest₁ with
            | h₁ :: h₂ :: h₃ :: h₄ :: rest₂ =>
              match hex4 h₁ h₂ h₃ h₄ with
              | none => none
              | some v =>
                if !isSurrogate v then (unquoteFrom 0 0 rest₂).map (encodeRune v ++ ·)
                else
                  match lowSurrogate rest₂, isHighSurrogate v with
                  | some w, true =>
                    (unquoteFrom 0 6 rest₂).map (encodeRune
                      (65536 + (v - 0xD800) * 1024 + (w - 0xDC00)) ++ ·)
                  | _, _ => (unquoteFrom 0 0 rest₂).map (replacement ++ ·)
            | _ => none
          else
            match shortEscape e with
            | some o => (unquoteFrom 0 0 rest₁).map (o :: ·)
            | none => none
      else if a = 34 || a < 32 then none
      else if a < 128 then (unquoteFrom 0 0 rest).map (a :: ·)
      else
        match runeTail a rest with
        | none => (unquoteFrom 0 0 rest).map (replacement ++ ·)
        | some k => (unquoteFrom k 0 rest).map (a :: ·)

def unquote (text : Octets) : Option Octets :=
  match text with
  | [] => none
  | c :: rest =>
    if c = 34 && rest.getLast? == some 34 then unquoteFrom 0 0 rest.dropLast else none

section Runes

variable {a b : UInt8} {rest rest' : Octets} {k : Nat}

theorem lead_eq_some {n : Nat} {lo hi : UInt8} (h : lead a = some (n, lo, hi)) :
    2 ≤ n ∧ 128 ≤ lo := by
  rw [lead] at h
  split_ifs at h <;> cases h <;> decide

theorem runeTail_iff {n : Nat} {lo hi : UInt8} (h : lead a = some (n, lo, hi)) :
    runeTail a rest = some k ↔ k + 1 = n ∧
      ∃ b more, rest.take k = b :: more ∧ lo ≤ b ∧ b ≤ hi ∧ more.all continues = true ∧
        more.length + 1 = k := by
  have hn := (lead_eq_some h).1
  rw [runeTail, h]
  dsimp only
  constructor
  · intro hk
    split at hk
    · cases hk
    · next b more htake =>
      split at hk
      · next hcond =>
        cases hk
        simp only [Bool.and_eq_true, decide_eq_true_eq, beq_iff_eq] at hcond
        refine ⟨by omega, b, more, htake, hcond.1.1.1, hcond.1.1.2, hcond.1.2, by omega⟩
      · cases hk
  · rintro ⟨rfl, b, more, htake, hlo, hhi, hall, hlen⟩
    rw [Nat.add_sub_cancel, htake]
    simp [hlo, hhi, hall]
    omega

theorem lead_of_runeTail (h : runeTail a rest = some k) : ∃ n lo hi, lead a = some (n, lo, hi) := by
  cases hlead : lead a with
  | none => simp [runeTail, hlead] at h
  | some shape => exact ⟨_, _, _, rfl⟩

theorem runeTail_eq_some (h : runeTail a rest = some k) :
    1 ≤ k ∧ k ≤ rest.length ∧ ∀ c ∈ rest.take k, 128 ≤ c := by
  obtain ⟨n, lo, hi, hlead⟩ := lead_of_runeTail h
  obtain ⟨-, b, more, htake, hlo, -, hall, hlen⟩ := (runeTail_iff hlead).mp h
  refine ⟨by omega, ?_, fun c hc => ?_⟩
  · have hcount := congrArg length htake
    rw [length_take, length_cons] at hcount
    omega
  · rw [htake] at hc
    rcases mem_cons.mp hc with rfl | hc
    · exact UInt8.le_trans (lead_eq_some hlead).2 hlo
    · have hcont := all_eq_true.mp hall c hc
      simp only [continues, Bool.and_eq_true, decide_eq_true_eq] at hcont
      exact hcont.1

theorem runeTail_congr (h : runeTail a rest = some k) (htake : rest'.take k = rest.take k) :
    runeTail a rest' = some k := by
  obtain ⟨n, lo, hi, hlead⟩ := lead_of_runeTail h
  rw [runeTail_iff hlead] at h ⊢
  rw [htake]
  exact h

end Runes

theorem hexDigit_hexOf {n : Nat} (h : n < 16) : hexDigit (hexOf n) = some n := by
  have hall : ∀ n : Fin 16, hexDigit (hexOf n) = some n.val := by decide
  exact hall ⟨n, h⟩

theorem escapeOctet_cases (a : UInt8) :
    (escapeOctet a = [a] ∧ a ≠ 34 ∧ a ≠ 92 ∧ ¬a < 32) ∨
      (∃ e, escapeOctet a = [92, e] ∧ e ≠ 117 ∧ shortEscape e = some a) ∨
      escapeOctet a = [92, 117, 48, 48, hexOf (a.toNat / 16), hexOf (a.toNat % 16)] := by
  rw [escapeOctet]
  split_ifs with h₁ h₂ h₃ h₄ h₅ h₆ h₇
  · refine .inr (.inl ⟨a, rfl, ?_⟩)
    rcases (by simpa using h₁ : a = 34 ∨ a = 92) with rfl | rfl <;> decide
  · exact .inr (.inl ⟨98, rfl, by decide, by rw [h₂]; decide⟩)
  · exact .inr (.inl ⟨102, rfl, by decide, by rw [h₃]; decide⟩)
  · exact .inr (.inl ⟨110, rfl, by decide, by rw [h₄]; decide⟩)
  · exact .inr (.inl ⟨114, rfl, by decide, by rw [h₅]; decide⟩)
  · exact .inr (.inl ⟨116, rfl, by decide, by rw [h₆]; decide⟩)
  · exact .inr (.inr rfl)
  · simp only [Bool.or_eq_true, decide_eq_true_eq, not_or] at h₁ h₇
    exact .inl ⟨rfl, h₁.1, h₁.2, h₇.1.1.1⟩

section Strings

variable {a e o : UInt8} {done rest : Octets}

theorem readString_plain (h₁ : a ≠ 34) (h₂ : a ≠ 92) (h₃ : ¬a < 32) :
    readString done (a :: rest) = readString (done ++ [a]) rest := by
  rw [readString.eq_def]
  simp only [h₁, h₂, h₃, ↓reduceIte]

theorem readString_short (he : e ≠ 117) (ho : shortEscape e = some o) :
    readString done (92 :: e :: rest) = readString (done ++ [o]) rest := by
  rw [readString.eq_def]
  simp [he, ho]

theorem readString_unicode {h₁ h₂ h₃ h₄ : UInt8} (done rest : Octets)
    (hhex : [h₁, h₂, h₃, h₄].all (fun h => (hexDigit h).isSome) = true) :
    ∃ more, readString done (92 :: 117 :: h₁ :: h₂ :: h₃ :: h₄ :: rest) =
      readString (done ++ more) rest := by
  refine ⟨unicodeEscape ([h₁, h₂, h₃, h₄].foldl (fun n h => n * 16 + (hexDigit h).getD 0) 0), ?_⟩
  rw [readString.eq_def]
  simp only [hhex, ↓reduceIte]
  rfl

theorem readString_escapeOctet (a : UInt8) (done rest : Octets) :
    ∃ more, readString done (escapeOctet a ++ rest) = readString (done ++ more) rest := by
  rcases escapeOctet_cases a with ⟨heq, h₁, h₂, h₃⟩ | ⟨e, heq, he, ho⟩ | heq
  · exact ⟨[a], by rw [heq]; exact readString_plain h₁ h₂ h₃⟩
  · exact ⟨[a], by rw [heq]; exact readString_short he ho⟩
  · rw [heq]
    refine readString_unicode done rest ?_
    have hlt := a.toNat_lt
    simp [hexDigit_hexOf (show a.toNat / 16 < 16 by omega),
      hexDigit_hexOf (show a.toNat % 16 < 16 by omega)]
    decide

theorem readString_high (ha : 128 ≤ a) :
    readString done (a :: rest) = readString (done ++ [a]) rest := by
  refine readString_plain ?_ ?_ (UInt8.not_lt.mpr (UInt8.le_trans (by decide) ha)) <;>
  · rintro rfl
    exact absurd ha (by decide)

theorem readString_quoteFrom (s rest : Octets) :
    ∀ (copy skip : Nat) (done : Octets), (∀ c ∈ s.take copy, 128 ≤ c) →
      ∃ text, readString done (quoteFrom copy skip s ++ 34 :: rest) = some (text, rest) := by
  induction s with
  | nil =>
    intro copy skip done _
    refine ⟨done, ?_⟩
    rw [quoteFrom, nil_append, readString.eq_def]
    rfl
  | cons a s ih =>
    intro copy skip done hcopy
    have hnone : ∀ c ∈ s.take 0, 128 ≤ c := by simp
    have hunicode {h₁ h₂ h₃ h₄ : UInt8} (k : Nat)
        (hhex : [h₁, h₂, h₃, h₄].all (fun h => (hexDigit h).isSome) = true) :
        ∃ text, readString done ([92, 117, h₁, h₂, h₃, h₄] ++ quoteFrom 0 k s ++ 34 :: rest) =
          some (text, rest) := by
      obtain ⟨more, hmore⟩ := readString_unicode done (quoteFrom 0 k s ++ 34 :: rest) hhex
      rw [append_assoc]
      exact hmore ▸ ih 0 k _ hnone
    rcases skip with _ | k
    rcases copy with _ | k
    rotate_right
    · rw [quoteFrom]
      exact ih 0 k done hnone
    rotate_right
    · rw [take_succ_cons] at hcopy
      rw [quoteFrom, cons_append, readString_high (hcopy a mem_cons_self)]
      exact ih k 0 _ fun c hc => hcopy c (mem_cons_of_mem a hc)
    · rw [quoteFrom]
      split
      · obtain ⟨more, hmore⟩ := readString_escapeOctet a done (quoteFrom 0 0 s ++ 34 :: rest)
        rw [append_assoc, hmore]
        exact ih 0 0 _ hnone
      · next ha =>
        split
        · exact hunicode 0 (by decide)
        · next k hk =>
          split_ifs
          · exact hunicode 2 (by decide)
          · exact hunicode 2 (by decide)
          · rw [cons_append, readString_high (UInt8.not_lt.mp ha)]
            exact ih k 0 _ (runeTail_eq_some hk).2.2

end Strings

theorem readString_quote (s rest : Octets) :
    ∃ text, readString [] (quoteFrom 0 0 s ++ [34] ++ rest) = some (text, rest) := by
  rw [append_assoc]
  exact readString_quoteFrom s rest 0 0 [] (by simp)

section Unquoting

variable {a e o : UInt8} {s rest : Octets}

theorem unquoteFrom_plain (h₁ : a ≠ 34) (h₂ : a ≠ 92) (h₃ : ¬a < 32) (h₄ : a < 128) :
    unquoteFrom 0 0 (a :: rest) = (unquoteFrom 0 0 rest).map (a :: ·) := by
  rw [unquoteFrom.eq_def]
  simp [h₁, h₂, h₃, h₄]

theorem unquoteFrom_short (he : e ≠ 117) (ho : shortEscape e = some o) :
    unquoteFrom 0 0 (92 :: e :: rest) = (unquoteFrom 0 0 rest).map (o :: ·) := by
  rw [unquoteFrom.eq_def]
  simp [he, ho]

theorem unquoteFrom_unicode {h₁ h₂ h₃ h₄ : UInt8} {v : Nat} (hv : hex4 h₁ h₂ h₃ h₄ = some v)
    (hplain : isSurrogate v = false) :
    unquoteFrom 0 0 (92 :: 117 :: h₁ :: h₂ :: h₃ :: h₄ :: rest) =
      (unquoteFrom 0 0 rest).map (encodeRune v ++ ·) := by
  rw [unquoteFrom.eq_def]
  simp [hv, hplain]

theorem unquoteFrom_rune {k : Nat} (ha : ¬a < 128) (hk : runeTail a rest = some k) :
    unquoteFrom 0 0 (a :: rest) = (unquoteFrom k 0 rest).map (a :: ·) := by
  have hhigh := UInt8.not_lt.mp ha
  have h₁ : a ≠ 34 := by
    rintro rfl
    exact absurd hhigh (by decide)
  have h₂ : a ≠ 92 := by
    rintro rfl
    exact absurd hhigh (by decide)
  have h₃ : ¬a < 32 := UInt8.not_lt.mpr (UInt8.le_trans (by decide) hhigh)
  rw [unquoteFrom.eq_def]
  simp [h₁, h₂, h₃, ha, hk]

theorem unquoteFrom_escapeOctet (ha : a < 128) :
    unquoteFrom 0 0 (escapeOctet a ++ rest) = (unquoteFrom 0 0 rest).map (a :: ·) := by
  rcases escapeOctet_cases a with ⟨heq, h₁, h₂, h₃⟩ | ⟨e, heq, he, ho⟩ | heq
  · rw [heq]
    exact unquoteFrom_plain h₁ h₂ h₃ ha
  · rw [heq]
    exact unquoteFrom_short he ho
  · have hlt : a.toNat < 128 := lt_iff_toNat_lt.mp ha
    have hhex : hex4 48 48 (hexOf (a.toNat / 16)) (hexOf (a.toNat % 16)) = some a.toNat := by
      have hzero : hexDigit 48 = some 0 := by decide
      simp only [hex4, hzero, hexDigit_hexOf (show a.toNat / 16 < 16 by omega),
        hexDigit_hexOf (show a.toNat % 16 < 16 by omega), Option.bind_eq_bind, Option.bind_some,
        Option.pure_def, Option.some.injEq]
      omega
    have hplain : isSurrogate a.toNat = false := by
      simp only [isSurrogate, Bool.and_eq_false_iff, decide_eq_false_iff_not]
      omega
    rw [heq]
    refine (unquoteFrom_unicode hhex hplain).trans ?_
    simp [encodeRune, hlt]

theorem take_quoteFrom {k : Nat} (s : Octets) (hk : k ≤ s.length) :
    (quoteFrom k 0 s).take k = s.take k := by
  induction s generalizing k with
  | nil =>
    obtain rfl : k = 0 := by simpa using hk
    rfl
  | cons a s ih =>
    cases k with
    | zero => rfl
    | succ k =>
      rw [quoteFrom, take_succ_cons, take_succ_cons, ih (by simpa using hk)]

theorem unquoteFrom_separator {x d : UInt8} (v : Nat) {k : Nat}
    (hsep : (decide (a = 226) && s.take 2 == [128, x]) = true) (hk : runeTail a s = some k)
    (hhex : hex4 50 48 50 d = some v) (hplain : isSurrogate v = false)
    (hrune : encodeRune v = [226, 128, x])
    (hrest : k = 2 → unquoteFrom 0 0 (quoteFrom 0 2 s) = some (s.drop 2)) :
    unquoteFrom 0 0 ([92, 117, 50, 48, 50, d] ++ quoteFrom 0 2 s) = some (a :: s) := by
  simp only [Bool.and_eq_true, decide_eq_true_eq, beq_iff_eq] at hsep
  obtain ⟨rfl, htake⟩ := hsep
  have hlead : lead 226 = some (3, 128, 191) := by decide
  have htwo := ((runeTail_iff hlead).mp hk).1
  simp only [cons_append, nil_append]
  rw [unquoteFrom_unicode hhex hplain, hrest (by omega), hrune, map_some,
    some.injEq]
  calc [226, 128, x] ++ s.drop 2 = 226 :: (s.take 2 ++ s.drop 2) := by rw [htake]; rfl
    _ = 226 :: s := by rw [take_append_drop]

theorem unquoteFrom_quoteFrom (s : Octets) :
    ∀ copy skip : Nat, copy = 0 ∨ skip = 0 → utf8From (copy + skip) s = true →
      unquoteFrom copy 0 (quoteFrom copy skip s) = some (s.drop skip) := by
  induction s with
  | nil =>
    intro copy skip _ _
    simp [quoteFrom, unquoteFrom]
  | cons a s ih =>
    intro copy skip hstate hutf8
    match skip, copy with
    | k + 1, 0 =>
      rw [quoteFrom, drop_succ_cons]
      refine ih 0 k (.inl rfl) ?_
      rw [Nat.zero_add] at hutf8 ⊢
      rw [utf8From] at hutf8
      exact hutf8
    | 0, k + 1 =>
      rw [utf8From] at hutf8
      rw [quoteFrom, unquoteFrom, ih k 0 (.inr rfl) hutf8]
      rfl
    | 0, 0 =>
      rw [utf8From] at hutf8
      rw [quoteFrom]
      split at hutf8
      · next ha =>
        rw [if_pos ha, unquoteFrom_escapeOctet ha, ih 0 0 (.inl rfl) hutf8]
        rfl
      · next ha =>
        rw [if_neg ha]
        split at hutf8
        · cases hutf8
        · next k hk =>
          have hskip (htwo : k = 2) :
              unquoteFrom 0 0 (quoteFrom 0 2 s) = some (s.drop 2) := by
            subst htwo
            exact ih 0 2 (.inl rfl) hutf8
          split_ifs with h₁ h₂
          · exact unquoteFrom_separator 8232 h₁ hk (by decide) (by decide) (by decide) hskip
          · exact unquoteFrom_separator 8233 h₂ hk (by decide) (by decide) (by decide) hskip
          · have htail := runeTail_congr hk (take_quoteFrom s (runeTail_eq_some hk).2.1)
            rw [unquoteFrom_rune ha htail, ih k 0 (.inr rfl) hutf8]
            rfl

end Unquoting

theorem unquote_quote {s : Octets} (h : isUTF8 s = true) : unquote (quote s) = some s := by
  simp only [quote, unquote, getLast?_concat, beq_self_eq_true, Bool.and_true, decide_true,
    ↓reduceIte, dropLast_concat]
  exact unquoteFrom_quoteFrom s 0 0 (.inl rfl) h

end Wegweiser.Json
