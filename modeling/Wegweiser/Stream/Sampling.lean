/-
What a watcher is sent of a stream that is faster than it can read.

The events of a second are counted, and from the count of the second before them and their own a
ratio is worked out; one event in that many is admitted.
-/
import Mathlib.Algebra.Ring.Int.Defs
import Mathlib.Algebra.Ring.Nat
import Mathlib.Data.List.Induction
import Mathlib.Data.List.Sort
import Mathlib.Tactic.Common

namespace Wegweiser.Stream

open List

/-- The atomic fields of a `Subscription` that the sampling is done with. -/
structure Sampler where
  window : Int
  count : Nat
  next : Nat
  carried : Nat
  ratio : Nat
deriving DecidableEq

/-- The sampler `Subscribe` starts with. -/
def Sampler.fresh : Sampler := { window := 0, count := 0, next := 0, carried := 1, ratio := 1 }

def ratioFor (matched maxRate : Nat) : Nat :=
  if maxRate = 0 ∨ matched ≤ maxRate then 1 else (matched + maxRate - 1) / maxRate

/-- The second of an event is looked at, and what the one before it comes to is carried over. -/
def Sampler.turn (maxRate : Nat) (s : Sampler) (sec : Int) : Sampler :=
  if sec ≠ s.window then
    { s with window := sec, carried := ratioFor s.count maxRate, count := 0, next := 0 }
  else s

/-- `admit`, for an event that nothing interferes with. -/
def admits (maxRate : Nat) (s : Sampler) (sec : Int) : Bool × Sampler :=
  let s := s.turn maxRate sec
  let n := s.count + 1
  let ratio := max s.carried (ratioFor n maxRate)
  let s := { s with count := n, ratio }
  if ratio ≤ 1 then (true, s)
  else if n < s.next then (false, s)
  else (true, { s with next := n + ratio })

/-- The events of a stream, offered one after another: which of them are admitted. -/
def admitAll (maxRate : Nat) : Sampler → List Int → List Bool
  | _, [] => []
  | s, sec :: secs => (admits maxRate s sec).1 :: admitAll maxRate (admits maxRate s sec).2 secs

def afterAll (maxRate : Nat) (s : Sampler) (secs : List Int) : Sampler :=
  secs.foldl (fun s sec => (admits maxRate s sec).2) s

def matchedIn (secs : List Int) (sec : Int) : Nat := secs.count sec

def admittedOf (secs : List Int) (admitted : List Bool) (sec : Int) : Nat :=
  ((secs.zip admitted).filter fun p => p.1 == sec && p.2).length

def admittedIn (maxRate : Nat) (secs : List Int) (sec : Int) : Nat :=
  admittedOf secs (admitAll maxRate .fresh secs) sec

def matchedBefore (secs : List Int) (sec : Int) : Nat :=
  match (secs.filter (· < sec)).getLast? with
  | none => 0
  | some last => matchedIn secs last

section Ratio

variable {maxRate : Nat}

variable {matched : Nat}

theorem ratioFor_of_le (h : matched ≤ maxRate) : ratioFor matched maxRate = 1 :=
  if_pos (.inr h)

theorem ratioFor_of_lt (hpos : 0 < maxRate) (h : maxRate < matched) :
    ratioFor matched maxRate = (matched + maxRate - 1) / maxRate := by
  rw [ratioFor, if_neg]
  omega

theorem ratioFor_mono {n : Nat} (hle : n ≤ matched) :
    ratioFor n maxRate ≤ ratioFor matched maxRate := by
  unfold ratioFor
  split_ifs with hn hmatched hmatched
  · exact Nat.le_refl 1
  · rw [Nat.one_le_div_iff (by omega)]
    omega
  · omega
  · exact Nat.div_le_div_right (by omega)

theorem le_mul_ratioFor (hpos : 0 < maxRate) (matched : Nat) :
    matched ≤ maxRate * ratioFor matched maxRate := by
  by_cases hle : matched ≤ maxRate
  · rw [ratioFor_of_le hle]
    omega
  · rw [ratioFor_of_lt hpos (by omega)]
    have hdiv := Nat.div_add_mod (matched + maxRate - 1) maxRate
    have hmod := Nat.mod_lt (matched + maxRate - 1) hpos
    omega

end Ratio

section Second

variable {maxRate : Nat} {sec : Int} {s : Sampler}

theorem turn_of_window (h : s.window = sec) : s.turn maxRate sec = s := by
  rw [Sampler.turn, if_neg (not_not.mpr h.symm)]

def Sampler.ratioNow (maxRate : Nat) (s : Sampler) : Nat :=
  max s.carried (ratioFor (s.count + 1) maxRate)

theorem admit_of_window (h : s.window = sec) :
    admits maxRate s sec =
      if s.ratioNow maxRate ≤ 1 then
        (true, { s with count := s.count + 1, ratio := s.ratioNow maxRate })
      else if s.count + 1 < s.next then
        (false, { s with count := s.count + 1, ratio := s.ratioNow maxRate })
      else (true, { s with
        count := s.count + 1, ratio := s.ratioNow maxRate,
        next := s.count + 1 + s.ratioNow maxRate }) := by
  rw [admits, turn_of_window h]
  rfl

theorem admitAll_all (k : Nat) (hwindow : s.window = sec) (hcarried : s.carried = 1)
    (hcount : s.count + k ≤ maxRate) :
    admitAll maxRate s (replicate k sec) = replicate k true := by
  induction k generalizing s with
  | zero => rfl
  | succ k ih =>
    have hratio : s.ratioNow maxRate = 1 := by
      rw [Sampler.ratioNow, hcarried, ratioFor_of_le (by omega)]
      rfl
    rw [replicate_succ, admitAll, admit_of_window hwindow, if_pos (by omega),
      replicate_succ]
    congr 1
    exact ih hwindow hcarried (by dsimp only; omega)

theorem count_admitAll {r : Nat} (k : Nat) (hwindow : s.window = sec) (hr : 2 ≤ r)
    (hcarried : s.carried = r) (hratio : ratioFor (s.count + k) maxRate ≤ r) :
    (admitAll maxRate s (replicate k sec)).count true ≤
      (s.count + k + r - max s.next (s.count + 1)) / r := by
  induction k generalizing s with
  | zero => simp [admitAll]
  | succ k ih =>
    have hnow : s.ratioNow maxRate = r := by
      have hle : ratioFor (s.count + 1) maxRate ≤ r :=
        Nat.le_trans (ratioFor_mono (by omega)) hratio
      rw [Sampler.ratioNow, hcarried, Nat.max_eq_left hle]
    have hsum : s.count + 1 + k = s.count + (k + 1) := by omega
    rw [replicate_succ, admitAll, admit_of_window hwindow, hnow, if_neg (by omega)]
    by_cases hnext : s.count + 1 < s.next
    · -- not due yet
      have hrest := ih (s := { s with count := s.count + 1, ratio := r }) hwindow hcarried
        (by rwa [hsum])
      rw [if_pos hnext]
      dsimp only
      rw [count_cons_of_ne (by decide)]
      have hlast : max s.next (s.count + 1 + 1) = max s.next (s.count + 1) := by omega
      dsimp only at hrest
      rwa [hsum, hlast] at hrest
    · have hrest := ih (s := { s with count := s.count + 1, ratio := r, next := s.count + 1 + r })
        hwindow hcarried (by rwa [hsum])
      have hlast : s.count + 1 + k + r - max (s.count + 1 + r) (s.count + 1 + 1) = k := by omega
      have hfirst : s.count + (k + 1) + r - max s.next (s.count + 1) = k + r := by omega
      dsimp only at hrest
      rw [hlast] at hrest
      rw [if_neg hnext, count_cons_self, hfirst, Nat.add_div_right k (by omega)]
      exact Nat.succ_le_succ hrest

/-- A sampler at the beginning of a second, behind one that had so many events. -/
structure Opened (maxRate matched : Nat) (sec : Int) (s : Sampler) : Prop where
  window : s.window = sec
  count : s.count = 0
  next : s.next = 0
  carried : s.carried = ratioFor matched maxRate

theorem length_admitAll (maxRate : Nat) (s : Sampler) (secs : List Int) :
    (admitAll maxRate s secs).length = secs.length := by
  induction secs generalizing s with
  | nil => rfl
  | cons sec secs ih => rw [admitAll, length_cons, length_cons, ih]

variable {matched k : Nat}

theorem admitted_of_rate (h : Opened maxRate matched sec s)
    (hmatched : matched ≤ maxRate) (hk : k ≤ maxRate) :
    (admitAll maxRate s (replicate k sec)).count true = k := by
  have hcarried : s.carried = 1 := h.carried.trans (ratioFor_of_le hmatched)
  rw [admitAll_all k h.window hcarried (by rw [h.count]; omega), count_replicate_self]

theorem admitted_le_rate (hpos : 0 < maxRate) (h : Opened maxRate matched sec s)
    (hk : k ≤ max maxRate matched) :
    (admitAll maxRate s (replicate k sec)).count true ≤ maxRate := by
  by_cases hmatched : matched ≤ maxRate
  · calc (admitAll maxRate s (replicate k sec)).count true
        ≤ (admitAll maxRate s (replicate k sec)).length := count_le_length
      _ = k := by rw [length_admitAll, length_replicate]
      _ ≤ maxRate := by omega
  · have hle : k ≤ matched := by omega
    have hr : 2 ≤ ratioFor matched maxRate := by
      rw [ratioFor_of_lt hpos (by omega), Nat.le_div_iff_mul_le hpos]
      omega
    have hcount := count_admitAll k h.window hr h.carried
      (by rw [h.count, Nat.zero_add]; exact ratioFor_mono hle)
    have hmul := le_mul_ratioFor hpos matched
    refine Nat.le_trans hcount ?_
    rw [h.count, h.next, ← Nat.lt_succ_iff, Nat.div_lt_iff_lt_mul (by omega), Nat.succ_mul]
    omega

end Second

section Run

variable {maxRate : Nat}

theorem admitAll_append (s : Sampler) (l l' : List Int) :
    admitAll maxRate s (l ++ l') =
      admitAll maxRate s l ++ admitAll maxRate (afterAll maxRate s l) l' := by
  induction l generalizing s with
  | nil => rfl
  | cons sec l ih =>
    rw [cons_append, admitAll, admitAll, ih, cons_append]
    rfl

variable {secs l : List Int} {sec : Int}

theorem sorted_parts (hsorted : secs.Pairwise (· ≤ ·)) (sec : Int) :
    secs = secs.filter (· < sec) ++ replicate (secs.count sec) sec ++ secs.filter (sec < ·) := by
  induction secs with
  | nil => rfl
  | cons a secs ih =>
    rw [pairwise_cons] at hsorted
    have hrest := ih hsorted.2
    rcases Int.lt_trichotomy a sec with hlt | rfl | hgt
    · have hnot : ¬ sec < a := by omega
      have hne : a ≠ sec := by omega
      simp only [filter_cons, hlt, hnot, decide_true, decide_false, ↓reduceIte,
        Bool.false_eq_true, count_cons_of_ne hne, cons_append]
      congr 1
    · have hnone : secs.filter (· < a) = [] := by
        rw [filter_eq_nil_iff]
        intro b hb
        have := hsorted.1 b hb
        simp
        omega
      rw [hnone, nil_append] at hrest
      simp only [filter_cons, Int.lt_irrefl, decide_false, Bool.false_eq_true, ↓reduceIte,
        hnone, nil_append, count_cons_self, replicate_succ, cons_append]
      congr 1
    · have hall : ∀ b ∈ a :: secs, sec < b := by
        rintro b hb
        rcases mem_cons.mp hb with rfl | hb
        · exact hgt
        · exact Int.lt_of_lt_of_le hgt (hsorted.1 b hb)
      have hbefore : (a :: secs).filter (· < sec) = [] := by
        rw [filter_eq_nil_iff]
        intro b hb
        have := hall b hb
        simp
        omega
      have hcount : (a :: secs).count sec = 0 :=
        count_eq_zero_of_not_mem fun hmem => Int.lt_irrefl sec (hall sec hmem)
      have hafter : (a :: secs).filter (sec < ·) = a :: secs :=
        filter_eq_self.mpr fun b hb => decide_eq_true (hall b hb)
      rw [hbefore, hcount, hafter]
      rfl

def Counted (s : Sampler) (seen : List Int) : Prop :=
  seen = [] ∧ s = .fresh ∨
    ∃ last, seen.getLast? = some last ∧ s.window = last ∧ s.count = seen.count last

theorem admits_window (s : Sampler) (sec : Int) : (admits maxRate s sec).2.window = sec := by
  have hturn : (s.turn maxRate sec).window = sec := by
    rw [Sampler.turn]
    split
    · rfl
    · rename_i h
      exact (not_not.mp h).symm
  rw [admits]
  dsimp only
  split_ifs <;> exact hturn

theorem admits_count (s : Sampler) (sec : Int) :
    (admits maxRate s sec).2.count = (s.turn maxRate sec).count + 1 := by
  rw [admits]
  dsimp only
  split_ifs <;> rfl

theorem opened_turn (maxRate : Nat) {s : Sampler} {seen : List Int} (h : Counted s seen)
    (hlater : ∀ a ∈ seen, a < sec) :
    ∃ matched, (seen = [] ∧ matched = 0 ∨
        ∃ last, seen.getLast? = some last ∧ matched = seen.count last) ∧
      Opened maxRate matched sec (s.turn maxRate sec) := by
  obtain ⟨rfl, rfl⟩ | ⟨last, hlast, hwindow, hcount⟩ := h
  · refine ⟨0, .inl ⟨rfl, rfl⟩, ?_⟩
    by_cases hsec : sec = Sampler.fresh.window
    · rw [turn_of_window hsec.symm]
      exact ⟨hsec.symm, rfl, rfl, (ratioFor_of_le (Nat.zero_le _)).symm⟩
    · rw [Sampler.turn, if_pos hsec]
      exact ⟨rfl, rfl, rfl, rfl⟩
  · refine ⟨s.count, .inr ⟨last, hlast, hcount⟩, ?_⟩
    have hlt := hlater last (mem_of_getLast? hlast)
    rw [Sampler.turn, if_pos (by rw [hwindow]; omega)]
    exact ⟨rfl, rfl, rfl, rfl⟩

theorem le_last (hsorted : secs.Pairwise (· ≤ ·)) {last a : Int}
    (hlast : secs.getLast? = some last) (ha : a ∈ secs) : a ≤ last := by
  obtain ⟨front, rfl⟩ := getLast?_eq_some_iff.mp hlast
  rcases mem_append.mp ha with ha | ha
  · exact (pairwise_append.mp hsorted).2.2 a ha last (mem_singleton_self last)
  · exact Int.le_of_eq (mem_singleton.mp ha)

theorem counted_afterAll (hsorted : secs.Pairwise (· ≤ ·)) :
    Counted (afterAll maxRate .fresh secs) secs := by
  induction secs using reverseRecOn with
  | nil => exact .inl ⟨rfl, rfl⟩
  | append_singleton secs sec ih =>
    obtain ⟨hsecs, -, hle⟩ := pairwise_append.mp hsorted
    have hafter : afterAll maxRate .fresh (secs ++ [sec]) =
        (admits maxRate (afterAll maxRate .fresh secs) sec).2 := by
      rw [afterAll, foldl_append]
      rfl
    refine .inr ⟨sec, getLast?_concat, ?_, ?_⟩
    · rw [hafter, admits_window]
    · rw [hafter, admits_count, count_append, count_singleton_self]
      congr 1
      -- the second under way goes on, or a later one begins
      by_cases hmem : sec ∈ secs
      · obtain ⟨rfl, -⟩ | ⟨last, hlast, hwindow, hcount⟩ := ih hsecs
        · cases hmem
        · have hsec : last = sec := by
            have hge := hle last (mem_of_getLast? hlast) sec (mem_singleton_self sec)
            have hle' := le_last hsecs hlast hmem
            omega
          rw [turn_of_window (hwindow.trans hsec), hcount, hsec]
      · have hlater : ∀ a ∈ secs, a < sec := by
          intro a ha
          have hge := hle a ha sec (mem_singleton_self sec)
          have hne : a ≠ sec := fun h => hmem (h ▸ ha)
          omega
        obtain ⟨matched, -, hopened⟩ := opened_turn maxRate (ih hsecs) hlater
        rw [hopened.count, count_eq_zero_of_not_mem hmem]

theorem admitAll_turn (s : Sampler) (sec : Int) (k : Nat) :
    admitAll maxRate s (replicate k sec) =
      admitAll maxRate (s.turn maxRate sec) (replicate k sec) := by
  have hwindow : (s.turn maxRate sec).window = sec := by
    rw [Sampler.turn]
    split
    · rfl
    · rename_i h
      exact (not_not.mp h).symm
  have hadmits : admits maxRate (s.turn maxRate sec) sec = admits maxRate s sec := by
    rw [admits, admits, turn_of_window hwindow]
  cases k with
  | zero => rfl
  | succ k => rw [replicate_succ, admitAll, admitAll, hadmits]

theorem admittedOf_append {l' : List Int} {out out' : List Bool} (h : l.length = out.length)
    (sec : Int) :
    admittedOf (l ++ l') (out ++ out') sec = admittedOf l out sec + admittedOf l' out' sec := by
  rw [admittedOf, zip_append h, filter_append, length_append]
  rfl

theorem admittedOf_of_ne (h : ∀ a ∈ l, a ≠ sec) (out : List Bool) : admittedOf l out sec = 0 := by
  rw [admittedOf, length_eq_zero_iff, filter_eq_nil_iff]
  rintro ⟨a, b⟩ hmem
  simp [h a (of_mem_zip hmem).1]

theorem admittedOf_replicate (sec : Int) (out : List Bool) :
    admittedOf (replicate out.length sec) out sec = out.count true := by
  induction out with
  | nil => rfl
  | cons b out ih =>
    rw [length_cons, replicate_succ, admittedOf, zip_cons_cons, filter_cons]
    rw [admittedOf] at ih
    cases b <;> simp [ih]

theorem admittedIn_eq (hsorted : secs.Pairwise (· ≤ ·)) (sec : Int) :
    admittedIn maxRate secs sec =
      (admitAll maxRate ((afterAll maxRate .fresh (secs.filter (· < sec))).turn maxRate sec)
        (replicate (secs.count sec) sec)).count true := by
  have hparts := sorted_parts hsorted sec
  have hbefore : ∀ a ∈ secs.filter (· < sec), a ≠ sec := by
    intro a ha
    have : a < sec := by simpa using (mem_filter.mp ha).2
    omega
  have hafter : ∀ a ∈ secs.filter (sec < ·), a ≠ sec := by
    intro a ha
    have : sec < a := by simpa using (mem_filter.mp ha).2
    omega
  generalize secs.filter (· < sec) = before at *
  generalize secs.filter (sec < ·) = after at *
  generalize secs.count sec = k at *
  subst hparts
  rw [admittedIn, append_assoc, admitAll_append, admitAll_append,
    admittedOf_append (length_admitAll ..).symm, admittedOf_append (length_admitAll ..).symm,
    admittedOf_of_ne hbefore, admittedOf_of_ne hafter, Nat.zero_add, Nat.add_zero, admitAll_turn]
  have hlen := length_admitAll maxRate
    ((afterAll maxRate .fresh before).turn maxRate sec) (replicate k sec)
  have hcount := admittedOf_replicate sec
    (admitAll maxRate ((afterAll maxRate .fresh before).turn maxRate sec) (replicate k sec))
  rwa [hlen, length_replicate] at hcount

theorem matchedBefore_eq {matched : Nat} (h : secs.filter (· < sec) = [] ∧ matched = 0 ∨
      ∃ last, (secs.filter (· < sec)).getLast? = some last ∧
        matched = (secs.filter (· < sec)).count last) : matchedBefore secs sec = matched := by
  obtain ⟨hnil, rfl⟩ | ⟨last, hlast, rfl⟩ := h
  · simp [matchedBefore, hnil]
  · have hlt : last < sec := by
      simpa using (mem_filter.mp (mem_of_getLast? hlast)).2
    rw [matchedBefore, hlast]
    dsimp only
    rw [matchedIn, count_filter (by simpa using hlt)]

/-- A second with no more events than the rate or the second before it had is sent at the rate, and
one within the rate behind one within the rate is sent whole. -/
theorem sampling_keeps_rate {secs : List Int} (hpos : 0 < maxRate)
    (hsorted : secs.Pairwise (· ≤ ·)) (sec : Int) :
    (matchedIn secs sec ≤ max maxRate (matchedBefore secs sec) →
        admittedIn maxRate secs sec ≤ maxRate) ∧
      (matchedIn secs sec ≤ maxRate → matchedBefore secs sec ≤ maxRate →
        admittedIn maxRate secs sec = matchedIn secs sec) := by
  have hbefore : (secs.filter (· < sec)).Pairwise (· ≤ ·) := hsorted.filter _
  have hlater : ∀ a ∈ secs.filter (· < sec), a < sec := fun a ha => by
    simpa using (mem_filter.mp ha).2
  obtain ⟨matched, hmatched, hopened⟩ := opened_turn maxRate (counted_afterAll hbefore) hlater
  rw [matchedBefore_eq hmatched, admittedIn_eq hsorted]
  exact ⟨admitted_le_rate hpos hopened, fun hk hm => admitted_of_rate hopened hm hk⟩

theorem sampling_keeps_rate_burst :
    matchedIn [1, 1, 1, 1, 1, 2, 2, 2, 2] 2 = 4 ∧ admittedIn 2 [1, 1, 1, 1, 1, 2, 2, 2, 2] 2 ≤ 2 :=
  ⟨by decide, (sampling_keeps_rate (by decide) (by decide) 2).1 (by decide)⟩

end Run

end Wegweiser.Stream
