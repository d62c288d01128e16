/-
Texts of characters as the octets Go keeps them in.
-/
import Wegweiser.Json.Text

namespace Wegweiser.Json

open List UInt8

def octetsOf (s : String) : Octets := s.toList.flatMap fun c => encodeRune c.toNat

/-- The characters of octets; `inside` octets of a character with the value `value` so far are
still to come. -/
def runesFrom (inside value : Nat) : Octets → List Char
  | [] => []
  | a :: rest =>
    match inside with
    | k + 1 =>
      let value := value * 64 + (a.toNat - 128)
      if k = 0 then Char.ofNat value :: runesFrom 0 0 rest else runesFrom k value rest
    | 0 =>
      if a < 128 then Char.ofNat a.toNat :: runesFrom 0 0 rest
      else
        match runeTail a rest with
        | none => Char.ofNat 0xFFFD :: runesFrom 0 0 rest
        | some k => runesFrom k (a.toNat % 2 ^ (6 - k)) rest

def textOf (s : Octets) : String := String.ofList (runesFrom 0 0 s)

section Characters

variable {n : Nat} {rest : Octets}

theorem toNat_ofNat_of_lt (h : n < 256) : (ofNat n).toNat = n := by
  rw [toNat_ofNat']
  exact Nat.mod_eq_of_lt h

theorem continues_ofNat (h : n < 64) : continues (ofNat (128 + n)) = true := by
  have hall : ∀ n : Fin 64, continues (ofNat (128 + n)) = true := by decide
  exact hall ⟨n, h⟩

theorem lead_two (h : 2 ≤ n) (h' : n < 32) : lead (ofNat (192 + n)) = some (2, 128, 191) := by
  have hall : ∀ n : Fin 32, 2 ≤ n.val → lead (ofNat (192 + n)) = some (2, 128, 191) := by
    decide
  exact hall ⟨n, h'⟩ h

theorem lead_three (h : n < 16) :
    lead (ofNat (224 + n)) =
      some (3, if n = 0 then 160 else 128, if n = 13 then 159 else 191) := by
  have hall : ∀ n : Fin 16, lead (ofNat (224 + n)) =
      some (3, if n.val = 0 then 160 else 128, if n.val = 13 then 159 else 191) := by
    decide
  exact hall ⟨n, h⟩

theorem lead_four (h : n < 5) :
    lead (ofNat (240 + n)) =
      some (4, if n = 0 then 144 else 128, if n = 4 then 143 else 191) := by
  have hall : ∀ n : Fin 5, lead (ofNat (240 + n)) =
      some (4, if n.val = 0 then 144 else 128, if n.val = 4 then 143 else 191) := by
    decide
  exact hall ⟨n, h⟩

def IsScalar (v : Nat) : Prop := v < 0xD800 ∨ 0xDFFF < v ∧ v < 0x110000

theorem isScalar_toNat (c : Char) : IsScalar c.toNat := c.valid

variable {m v : Nat}

theorem ofNat_le_ofNat (hm : m ≤ n) (hn : n < 256) : ofNat m ≤ ofNat n := by
  rw [le_iff_toNat_le, toNat_ofNat_of_lt hn, toNat_ofNat_of_lt (by omega)]
  exact hm

/-- A character from 128 on is a leading octet and what that one calls for. -/
structure Rune (v : Nat) (a : UInt8) (tail : Octets) : Prop where
  encode : encodeRune v = a :: tail
  high : ¬a < 128
  tail_eq : ∀ rest, runeTail a (tail ++ rest) = some tail.length
  value : ∀ rest, runesFrom tail.length (a.toNat % 2 ^ (6 - tail.length)) (tail ++ rest) =
    Char.ofNat v :: runesFrom 0 0 rest

theorem not_ofNat_lt (hm : 128 ≤ m) (hlt : m < 256) : ¬ofNat m < 128 := by
  rw [lt_iff_toNat_lt, toNat_ofNat_of_lt hlt]
  exact Nat.not_lt.mpr hm

theorem rune_two (h₁ : ¬v < 128) (h₂ : v < 2048) :
    Rune v (ofNat (192 + v / 64)) [ofNat (128 + v % 64)] where
  encode := by simp only [encodeRune, h₁, h₂, ↓reduceIte]
  high := not_ofNat_lt (by omega) (by omega)
  tail_eq rest := by
    rw [runeTail_iff (lead_two (show 2 ≤ v / 64 by omega) (by omega))]
    refine ⟨rfl, _, [], rfl, ?_, ?_, rfl, rfl⟩
    · exact ofNat_le_ofNat (m := 128) (by omega) (by omega)
    · exact ofNat_le_ofNat (n := 191) (by omega) (by omega)
  value rest := by
    have hvalue : (192 + v / 64) % 32 * 64 + ((128 + v % 64) % 256 - 128) = v := by omega
    simp [runesFrom, hvalue]

theorem rune_three (h₁ : ¬v < 128) (h₂ : ¬v < 2048) (h₃ : v < 65536) (hscalar : IsScalar v) :
    Rune v (ofNat (224 + v / 4096))
      [ofNat (128 + v / 64 % 64), ofNat (128 + v % 64)] where
  encode := by simp only [encodeRune, h₁, h₂, h₃, ↓reduceIte]
  high := not_ofNat_lt (by omega) (by omega)
  tail_eq rest := by
    rw [runeTail_iff (lead_three (show v / 4096 < 16 by omega))]
    refine ⟨rfl, _, [_], rfl, ?_, ?_, ?_, rfl⟩
    · split
      · exact ofNat_le_ofNat (m := 160) (by omega) (by omega)
      · exact ofNat_le_ofNat (m := 128) (by omega) (by omega)
    · rw [IsScalar] at hscalar
      split
      · exact ofNat_le_ofNat (n := 159) (by omega) (by omega)
      · exact ofNat_le_ofNat (n := 191) (by omega) (by omega)
    · rw [all_cons, continues_ofNat (show v % 64 < 64 by omega)]
      rfl
  value rest := by
    have hvalue : ((224 + v / 4096) % 16 * 64 + ((128 + v / 64 % 64) % 256 - 128)) * 64 +
        ((128 + v % 64) % 256 - 128) = v := by
      omega
    simp [runesFrom, hvalue]

theorem rune_four (h₁ : ¬v < 128) (h₂ : ¬v < 2048) (h₃ : ¬v < 65536) (hscalar : IsScalar v) :
    Rune v (ofNat (240 + v / 262144))
      [ofNat (128 + v / 4096 % 64), ofNat (128 + v / 64 % 64),
        ofNat (128 + v % 64)] where
  encode := by simp only [encodeRune, h₁, h₂, h₃, ↓reduceIte]
  high := by
    rw [IsScalar] at hscalar
    exact not_ofNat_lt (by omega) (by omega)
  tail_eq rest := by
    rw [IsScalar] at hscalar
    rw [runeTail_iff (lead_four (show v / 262144 < 5 by omega))]
    refine ⟨rfl, _, [_, _], rfl, ?_, ?_, ?_, rfl⟩
    · split
      · exact ofNat_le_ofNat (m := 144) (by omega) (by omega)
      · exact ofNat_le_ofNat (m := 128) (by omega) (by omega)
    · split
      · exact ofNat_le_ofNat (n := 143) (by omega) (by omega)
      · exact ofNat_le_ofNat (n := 191) (by omega) (by omega)
    · rw [all_cons, all_cons, continues_ofNat (show v % 64 < 64 by omega),
        continues_ofNat (show v / 64 % 64 < 64 by omega)]
      rfl
  value rest := by
    rw [IsScalar] at hscalar
    have hvalue : (((240 + v / 262144) % 8 * 64 + ((128 + v / 4096 % 64) % 256 - 128)) * 64 +
        ((128 + v / 64 % 64) % 256 - 128)) * 64 + ((128 + v % 64) % 256 - 128) = v := by
      omega
    simp [runesFrom, hvalue]

theorem exists_rune (hhigh : ¬v < 128) (hscalar : IsScalar v) : ∃ a tail, Rune v a tail := by
  by_cases h₂ : v < 2048
  · exact ⟨_, _, rune_two hhigh h₂⟩
  · by_cases h₃ : v < 65536
    · exact ⟨_, _, rune_three hhigh h₂ h₃ hscalar⟩
    · exact ⟨_, _, rune_four hhigh h₂ h₃ hscalar⟩

theorem utf8From_tail (tail rest : Octets) :
    utf8From tail.length (tail ++ rest) = utf8From 0 rest := by
  induction tail with
  | nil => rfl
  | cons c tail ih => exact ih

theorem encodeRune_append (c : Char) (rest : Octets) :
    utf8From 0 (encodeRune c.toNat ++ rest) = utf8From 0 rest ∧
      runesFrom 0 0 (encodeRune c.toNat ++ rest) = c :: runesFrom 0 0 rest := by
  by_cases hlow : c.toNat < 128
  · have hencode : encodeRune c.toNat = [ofNat c.toNat] := by simp only [encodeRune, hlow, ↓reduceIte]
    have hbyte := toNat_ofNat_of_lt (show c.toNat < 256 by omega)
    have hlt : ofNat c.toNat < 128 := by
      rw [lt_iff_toNat_lt, hbyte]
      exact hlow
    rw [hencode, singleton_append]
    constructor
    · rw [utf8From, if_pos hlt]
    · rw [runesFrom, if_pos hlt, hbyte, Char.ofNat_toNat]
  · obtain ⟨a, tail, hrune⟩ := exists_rune hlow (isScalar_toNat c)
    rw [hrune.encode, cons_append]
    constructor
    · rw [utf8From, if_neg hrune.high, hrune.tail_eq]
      exact utf8From_tail tail rest
    · rw [runesFrom, if_neg hrune.high, hrune.tail_eq]
      dsimp only
      rw [hrune.value, Char.ofNat_toNat]

end Characters

theorem isUTF8_octetsOf (s : String) : isUTF8 (octetsOf s) = true := by
  rw [isUTF8, octetsOf]
  induction s.toList with
  | nil => rfl
  | cons c rest ih =>
    rw [flatMap_cons, (encodeRune_append c _).1]
    exact ih

theorem textOf_octetsOf (s : String) : textOf (octetsOf s) = s := by
  have hlist : ∀ l : List Char, runesFrom 0 0 (l.flatMap fun c => encodeRune c.toNat) = l := by
    intro l
    induction l with
    | nil => rfl
    | cons c rest ih => rw [flatMap_cons, (encodeRune_append c _).2, ih]
  rw [textOf, octetsOf, hlist, String.ofList_toList]

theorem isUTF8_of_low {s : Octets} (h : ∀ c ∈ s, c < 128) : isUTF8 s = true := by
  rw [isUTF8]
  induction s with
  | nil => rfl
  | cons c rest ih =>
    rw [utf8From, if_pos (h c mem_cons_self)]
    exact ih fun o ho => h o (mem_cons_of_mem c ho)

end Wegweiser.Json
