import Mathlib.Data.List.TakeWhile
import Wegweiser.Json.Format

/-!
# Streams of JSON values

`json.Encoder` writes one value a line, and `json.Decoder` takes the values off one after another.
A line holds an object, so a stream that is cut off inside one is noticed.
-/

namespace Wegweiser.Json

open List

variable {α β : Type}

/-- `Encoder.Encode`: the text and a line break. -/
def encode (f : Format α) (a : α) : Option Octets := (f.write a).map (· ++ [10])

/-- What `Decoder.Decode` comes back with. -/
inductive Decoded (α : Type) where
  | eof
  | bad
  | value (a : α) (rest : Octets)

/-- `Decoder.Decode` on what is left of the stream. -/
def decode (f : Format α) (s : Octets) : Decoded α :=
  if skipSpace s = [] then .eof
  else
    match (cut s).bind fun p => (f.read p.1).map fun a => (a, p.2) with
    | none => .bad
    | some (a, rest) => .value a rest

def lines : List Octets → Octets → Octets
  | [], rest => rest
  | text :: texts, rest => 10 :: (text ++ lines texts rest)

/-- The text of an object that is scanned as such above `n` levels. -/
structure Line (n : Nat) (text : Octets) : Prop where
  scans : Scans n text
  brace : text.head? = some 123

section

variable {n : Nat} {f : Format α} {text rest : Octets}

def Blank (s : Octets) : Prop := ∀ c ∈ s, c = 32 ∨ c = 9 ∨ c = 10 ∨ c = 13

variable {s p q : Octets}

theorem skipSpace_eq_nil : skipSpace s = [] ↔ Blank s := by
  rw [skipSpace, dropWhile_eq_nil_iff]
  simp only [Blank, Bool.or_eq_true, beq_iff_eq, or_assoc]

theorem skipSpace_newline (s : Octets) : skipSpace (10 :: s) = skipSpace s := by
  simp [skipSpace]

theorem decode_eq_eof : decode f s = .eof ↔ skipSpace s = [] := by
  rw [decode]
  split
  · simp [*]
  · split <;> simp [*]

theorem decode_newline (f : Format α) (s : Octets) : decode f (10 :: s) = decode f s := by
  simp only [decode, cut, skipSpace_newline]

theorem delimits_newline (s : Octets) : Delimits (10 :: s) :=
  delimits_cons (by decide) (by decide)

theorem delimits_lines (texts : List Octets) (hrest : Delimits rest) :
    Delimits (lines texts rest) := by
  cases texts with
  | nil => exact hrest
  | cons text texts => exact delimits_newline _

theorem Line.ne_nil (h : Line n text) : text ≠ [] := by
  rintro rfl
  cases h.brace

theorem Line.skipSpace (h : Line n text) (s : Octets) : skipSpace (text ++ s) = text ++ s := by
  obtain ⟨c, tail, rfl, hc, -⟩ := h.scans.starts
  rw [cons_append, hc]

theorem decode_line (h : Line n text) (hrest : Delimits rest) :
    decode f (text ++ rest) = .bad ∨
      ∃ a, f.read text = some a ∧ decode f (text ++ rest) = .value a rest := by
  have hne : skipSpace (text ++ rest) ≠ [] := by
    rw [h.skipSpace]
    simp [h.ne_nil]
  rw [decode, if_neg hne]
  cases hcut : cut (text ++ rest) with
  | none => exact .inl rfl
  | some p =>
    obtain rfl := (cut_append h.scans hrest).2 p hcut
    cases hread : f.read text with
    | none => exact .inl (by simp [hread])
    | some a => exact .inr ⟨a, rfl, by simp [hread]⟩

theorem decode_line_of_read (h : Line (n + 1) text) (hrest : Delimits rest) {a : α}
    (hread : f.read text = some a) : decode f (text ++ rest) = .value a rest := by
  have hne : skipSpace (text ++ rest) ≠ [] := by
    rw [h.skipSpace]
    simp [h.ne_nil]
  rw [decode, if_neg hne, (cut_append h.scans hrest).1 n.succ_pos]
  simp [hread]

theorem decode_cut (h : Line n text) (hpq : p ++ q = text) (hq : q ≠ []) :
    decode f p = .eof ∨ decode f p = .bad := by
  rw [decode]
  split
  · exact .inl rfl
  · cases hcut : cut p with
    | none => exact .inr rfl
    | some found =>
      exfalso
      have hne : p ≠ [] := by
        rintro rfl
        simp [cut, Json.skipSpace, afterValue] at hcut
      obtain ⟨c, p, rfl⟩ := exists_cons_of_ne_nil hne
      obtain rfl : c = 123 := by
        have hhead := h.brace
        rw [← hpq] at hhead
        exact Option.some.inj hhead
      rw [cut, skipSpace_cons (by decide)] at hcut
      obtain ⟨r, hr, -⟩ := Option.map_eq_some_iff.mp hcut
      -- what is cut off would be left over behind the whole line
      have hall := (scanned_of_afterValue hr).append_of_open true
        (skipSpace_cons (by decide) p) q
      rw [hpq, ← append_nil text] at hall
      have hnil := h.scans.only delimits_nil hall
      exact hq (append_eq_nil_iff.mp hnil).2

theorem delimits_of_append (h : Delimits (rest ++ q)) : Delimits rest := by
  intro c tail hc
  exact h c (tail ++ q) (by rw [hc, cons_append])

theorem decode_cut_lines (h : Line n text) (hpq : p ++ q = 10 :: (text ++ rest)) :
    (decode f p = .eof ∨ decode f p = .bad) ∨ ∃ c, p = 10 :: (text ++ c) ∧ c ++ q = rest := by
  cases p with
  | nil => exact .inl (.inl (decode_eq_eof.mpr rfl))
  | cons c p =>
    obtain ⟨rfl, htail⟩ := cons.inj hpq
    rw [decode_newline]
    rcases append_eq_append_iff.mp htail with ⟨left, htext, -⟩ | ⟨c, hp, hrest⟩
    · by_cases hleft : left = []
      · refine .inr ⟨[], ?_, ?_⟩
        · rw [htext, hleft, append_nil, append_nil]
        · rw [htext, hleft, append_nil] at htail
          exact append_cancel_left htail
      · exact .inl (decode_cut h htext.symm hleft)
    · exact .inr ⟨c, by rw [hp], hrest.symm⟩

end

theorem line_of_struct {n : Nat} {fs : Fields β} {out : α → β} {back : β → α} {D : α → Prop}
    (h : (Format.struct fs out back).Writes n D) {a : α} {t : Octets} (ha : D a)
    (ht : (Format.struct fs out back).write a = some t) : Line n t := by
  refine ⟨(h a t ha ht).1, ?_⟩
  obtain ⟨texts, -, rfl⟩ := Option.map_eq_some_iff.mp ht
  rfl

end Wegweiser.Json
