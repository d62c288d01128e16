/-
Octets as text in base 64, three of them in four letters, with padding; and in the alphabet for
URLs, without any.
-/
import Mathlib.Data.List.Basic
import Mathlib.Tactic.Common

namespace Base64

open List Option

def letter (n : Nat) : UInt8 :=
  UInt8.ofNat <|
    if n < 26 then 65 + n else if n < 52 then 71 + n else if n < 62 then n - 4
    else if n = 62 then 43 else 47

def bits (c : UInt8) : Option Nat :=
  if 65 ≤ c && c ≤ 90 then some (c.toNat - 65)
  else if 97 ≤ c && c ≤ 122 then some (c.toNat - 71)
  else if 48 ≤ c && c ≤ 57 then some (c.toNat + 4)
  else if c = 43 then some 62
  else if c = 47 then some 63
  else none

def pad : UInt8 := 61

def encode : List UInt8 → List UInt8
  | [] => []
  | [a] =>
    let v := a.toNat * 16
    [letter (v / 64), letter (v % 64), pad, pad]
  | [a, b] =>
    let v := (a.toNat * 256 + b.toNat) * 4
    [letter (v / 4096), letter (v / 64 % 64), letter (v % 64), pad]
  | a :: b :: c :: rest =>
    let v := (a.toNat * 256 + b.toNat) * 256 + c.toNat
    [letter (v / 262144), letter (v / 4096 % 64), letter (v / 64 % 64), letter (v % 64)] ++
      encode rest

/-- The octets of the letters; what the last letter has too many of is not looked at. -/
def decode : List UInt8 → Option (List UInt8)
  | [] => some []
  | w :: x :: y :: z :: rest => do
      let w ← bits w
      let x ← bits x
      if rest = [] ∧ y = pad ∧ z = pad then pure [UInt8.ofNat ((w * 64 + x) / 16)]
      else
        let y ← bits y
        let v := (w * 64 + x) * 64 + y
        if rest = [] ∧ z = pad then pure [UInt8.ofNat (v / 1024), UInt8.ofNat (v / 4 % 256)]
        else
          let z ← bits z
          let v := v * 64 + z
          let more ← decode rest
          pure (UInt8.ofNat (v / 65536) :: UInt8.ofNat (v / 256 % 256) :: UInt8.ofNat (v % 256) :: more)
  | _ => none

theorem bits_letter {n : Nat} (h : n < 64) : bits (letter n) = some n := by
  have hall : ∀ n : Fin 64, bits (letter n) = some n.val := by decide
  exact hall ⟨n, h⟩

theorem letter_ne_pad {n : Nat} (h : n < 64) : letter n ≠ pad := by
  have hall : ∀ n : Fin 64, letter n ≠ pad := by decide
  exact hall ⟨n, h⟩

theorem ofNat_eq {n : Nat} {a : UInt8} (h : n = a.toNat) : UInt8.ofNat n = a := by
  rw [h, UInt8.ofNat_toNat]

theorem decode_encode : ∀ s : List UInt8, decode (encode s) = some s
  | [] => rfl
  | [a] => by
      have ha := a.toNat_lt
      simp only [encode, decode, bits_letter (show a.toNat * 16 / 64 < 64 by omega),
        bits_letter (show a.toNat * 16 % 64 < 64 by omega), Option.bind_eq_bind, Option.bind_some,
        and_self, ↓reduceIte, Option.pure_def, Option.some.injEq, cons.injEq, and_true]
      exact ofNat_eq (by omega)
  | [a, b] => by
      have ha := a.toNat_lt
      have hb := b.toNat_lt
      have hlast := letter_ne_pad (show (a.toNat * 256 + b.toNat) * 4 % 64 < 64 by omega)
      simp only [encode, decode,
        bits_letter (show (a.toNat * 256 + b.toNat) * 4 / 4096 < 64 by omega),
        bits_letter (show (a.toNat * 256 + b.toNat) * 4 / 64 % 64 < 64 by omega),
        bits_letter (show (a.toNat * 256 + b.toNat) * 4 % 64 < 64 by omega), hlast,
        Option.bind_eq_bind, Option.bind_some, and_false, and_self, ↓reduceIte,
        Option.pure_def, Option.some.injEq, cons.injEq, and_true]
      exact ⟨ofNat_eq (by omega), ofNat_eq (by omega)⟩
  | a :: b :: c :: rest => by
      have ha := a.toNat_lt
      have hb := b.toNat_lt
      have hc := c.toNat_lt
      have hlast := letter_ne_pad
        (show ((a.toNat * 256 + b.toNat) * 256 + c.toNat) % 64 < 64 by omega)
      have hrest := decode_encode rest
      simp only [encode, cons_append, nil_append, decode,
        bits_letter (show ((a.toNat * 256 + b.toNat) * 256 + c.toNat) / 262144 < 64 by omega),
        bits_letter (show ((a.toNat * 256 + b.toNat) * 256 + c.toNat) / 4096 % 64 < 64 by omega),
        bits_letter (show ((a.toNat * 256 + b.toNat) * 256 + c.toNat) / 64 % 64 < 64 by omega),
        bits_letter (show ((a.toNat * 256 + b.toNat) * 256 + c.toNat) % 64 < 64 by omega), hlast,
        hrest, Option.bind_eq_bind, Option.bind_some, and_false, ↓reduceIte, Option.pure_def,
        Option.some.injEq, cons.injEq, and_true]
      exact ⟨ofNat_eq (by omega), ofNat_eq (by omega), ofNat_eq (by omega)⟩

theorem encode_eq : ∀ s : List UInt8, ∃ letters k, encode s = letters ++ replicate k pad ∧
    (∀ c ∈ letters, ∃ n < 64, c = letter n) ∧ (letters.length + k) % 4 = 0 ∧ k < 3
  | [] => ⟨[], 0, rfl, by simp, rfl, by omega⟩
  | [a] => by
      have ha := a.toNat_lt
      refine ⟨[letter (a.toNat * 16 / 64), letter (a.toNat * 16 % 64)], 2, rfl, ?_, by simp, by omega⟩
      simp only [mem_cons, not_mem_nil, or_false]
      rintro c (rfl | rfl)
      · exact ⟨_, by omega, rfl⟩
      · exact ⟨_, by omega, rfl⟩
  | [a, b] => by
      have ha := a.toNat_lt
      have hb := b.toNat_lt
      let v := (a.toNat * 256 + b.toNat) * 4
      refine ⟨[letter (v / 4096), letter (v / 64 % 64), letter (v % 64)], 1, rfl, ?_, by simp,
        by omega⟩
      simp only [mem_cons, not_mem_nil, or_false]
      rintro c (rfl | rfl | rfl)
      · exact ⟨_, by omega, rfl⟩
      · exact ⟨_, by omega, rfl⟩
      · exact ⟨_, by omega, rfl⟩
  | a :: b :: c :: rest => by
      have ha := a.toNat_lt
      have hb := b.toNat_lt
      have hc := c.toNat_lt
      obtain ⟨letters, k, hrest, hletters, hlength, hk⟩ := encode_eq rest
      let v := (a.toNat * 256 + b.toNat) * 256 + c.toNat
      refine ⟨letter (v / 262144) :: letter (v / 4096 % 64) :: letter (v / 64 % 64) ::
        letter (v % 64) :: letters, k, ?_, ?_, ?_, hk⟩
      · rw [encode, hrest]
        rfl
      · simp only [mem_cons]
        rintro x (rfl | rfl | rfl | rfl | hx)
        · exact ⟨_, by omega, rfl⟩
        · exact ⟨_, by omega, rfl⟩
        · exact ⟨_, by omega, rfl⟩
        · exact ⟨_, by omega, rfl⟩
        · exact hletters x hx
      · simp only [length_cons]
        omega

theorem letter_printable {n : Nat} (h : n < 64) : 32 < letter n ∧ letter n < 128 := by
  have hall : ∀ n : Fin 64, 32 < letter n ∧ letter n < 128 := by decide
  exact hall ⟨n, h⟩

theorem encode_printable (s : List UInt8) : ∀ c ∈ encode s, 32 < c ∧ c < 128 := by
  obtain ⟨letters, k, hs, hletters, -, -⟩ := encode_eq s
  intro c hc
  rw [hs, mem_append] at hc
  rcases hc with hc | hc
  · obtain ⟨n, hn, rfl⟩ := hletters c hc
    exact letter_printable hn
  · rw [(mem_replicate.mp hc).2]
    decide

def urlLetter (c : UInt8) : UInt8 := if c = 43 then 45 else if c = 47 then 95 else c

def ofURLLetter (c : UInt8) : Option UInt8 :=
  if c = 45 then some 43 else if c = 95 then some 47
  else if c = 43 || c = 47 || c = pad then none else some c

def encodeURL (s : List UInt8) : List UInt8 := ((encode s).filter (· != pad)).map urlLetter

def decodeURL (s : List UInt8) : Option (List UInt8) :=
  ((s.filter fun c => c != 10 && c != 13).mapM ofURLLetter).bind fun letters =>
    decode (letters ++ replicate ((4 - letters.length % 4) % 4) pad)

theorem ofURLLetter_letter {n : Nat} (h : n < 64) :
    ofURLLetter (urlLetter (letter n)) = some (letter n) ∧
      urlLetter (letter n) ≠ 10 ∧ urlLetter (letter n) ≠ 13 := by
  have hall : ∀ n : Fin 64, ofURLLetter (urlLetter (letter n)) = some (letter n) ∧
      urlLetter (letter n) ≠ 10 ∧ urlLetter (letter n) ≠ 13 := by decide
  exact hall ⟨n, h⟩

theorem decodeURL_encodeURL (s : List UInt8) : decodeURL (encodeURL s) = some s := by
  obtain ⟨letters, k, hs, hletters, hlength, hk⟩ := encode_eq s
  have hkeep : (encode s).filter (· != pad) = letters := by
    rw [hs, filter_append, filter_replicate_of_neg (by simp), append_nil]
    refine filter_eq_self.mpr fun c hc => ?_
    obtain ⟨n, hn, rfl⟩ := hletters c hc
    exact bne_iff_ne.mpr (letter_ne_pad hn)
  have hlines : (letters.map urlLetter).filter (fun c => c != 10 && c != 13) =
      letters.map urlLetter := by
    refine filter_eq_self.mpr fun c hc => ?_
    obtain ⟨d, hd, rfl⟩ := mem_map.mp hc
    obtain ⟨n, hn, rfl⟩ := hletters d hd
    simp [(ofURLLetter_letter hn).2]
  have hback : (letters.map urlLetter).mapM ofURLLetter = some letters := by
    clear hs hlength hkeep hlines
    induction letters with
    | nil => rfl
    | cons c letters ih =>
      obtain ⟨n, hn, rfl⟩ := hletters c mem_cons_self
      rw [map_cons, mapM_cons, (ofURLLetter_letter hn).1,
        ih fun d hd => hletters d (mem_cons_of_mem _ hd)]
      rfl
  have hpad : (4 - letters.length % 4) % 4 = k := by omega
  rw [decodeURL, encodeURL, hkeep, hlines, hback, bind_some, hpad, ← hs, decode_encode]

theorem encodeURL_ne_nil {s : List UInt8} (h : s ≠ []) : encodeURL s ≠ [] := by
  intro hnil
  have hback := decodeURL_encodeURL s
  rw [hnil] at hback
  exact h (some.inj hback).symm

end Base64
