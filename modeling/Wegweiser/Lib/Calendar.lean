/-
Days and instants by the Gregorian calendar, and their text.

An instant is a number of nanoseconds from the first of January of the year 1. The year is counted
from March while a day is taken apart, which puts the day a leap year has more at its end.
-/
import Mathlib.Algebra.Ring.Int.Defs
import Mathlib.Algebra.Ring.Nat
import Mathlib.Data.List.Basic
import Mathlib.Tactic.Common

namespace Calendar

open List

/-- A day: year, month and day of the month. -/
structure Date where
  year : Nat
  month : Nat
  day : Nat
deriving DecidableEq

def yearOfEra (day : Nat) : Nat × Nat :=
  let century := min (day / 36524) 3
  let day := day - century * 36524
  let quad := day / 1461
  let day := day - quad * 1461
  let year := min (day / 365) 3
  (100 * century + 4 * quad + year, day - year * 365)

def monthOf (doy : Nat) : Nat := (5 * doy + 2) / 153

def monthStart (mp : Nat) : Nat := (153 * mp + 2) / 5

def dateFrom (day : Nat) : Date :=
  let yoe := (yearOfEra (day % 146097)).1
  let doy := (yearOfEra (day % 146097)).2
  let mp := monthOf doy
  { year := day / 146097 * 400 + yoe + mp / 10
    month := if mp < 10 then mp + 3 else mp - 9
    day := doy - monthStart mp + 1 }

def daysTo (d : Date) : Nat :=
  let year := if 2 < d.month then d.year else d.year - 1
  let mp := if 2 < d.month then d.month - 3 else d.month + 9
  year / 400 * 146097 + (year % 400 * 365 + year % 400 / 4 - year % 400 / 100) +
    (monthStart mp + d.day - 1)

theorem yearOfEra_spec {day : Nat} (h : day < 146097) :
    (yearOfEra day).1 < 400 ∧ (yearOfEra day).2 ≤ 365 ∧
      (yearOfEra day).1 * 365 + (yearOfEra day).1 / 4 - (yearOfEra day).1 / 100 +
        (yearOfEra day).2 = day := by
  simp only [yearOfEra]
  generalize hc : min (day / 36524) 3 = century
  have hcentury : century ≤ 3 ∧ century * 36524 ≤ day ∧ day - century * 36524 ≤ 36524 := by omega
  generalize hd : day - century * 36524 = inCentury at hcentury ⊢
  generalize hq : inCentury / 1461 = quad
  have hquad : quad ≤ 24 ∧ quad * 1461 ≤ inCentury ∧ inCentury - quad * 1461 ≤ 1460 := by omega
  generalize he : inCentury - quad * 1461 = inQuad at hquad ⊢
  generalize hy : min (inQuad / 365) 3 = year
  have hyear : year ≤ 3 ∧ year * 365 ≤ inQuad ∧ inQuad - year * 365 ≤ 365 := by omega
  have hleap : (100 * century + 4 * quad + year) / 4 = 25 * century + quad := by omega
  have hskipped : (100 * century + 4 * quad + year) / 100 = century := by omega
  rw [hleap, hskipped]
  omega

variable {doy t : Nat} {c : UInt8} {text : List UInt8}

theorem monthOf_spec (h : doy ≤ 365) :
    monthOf doy ≤ 11 ∧ monthStart (monthOf doy) ≤ doy ∧ doy - monthStart (monthOf doy) ≤ 30 := by
  simp only [monthOf, monthStart]
  omega

theorem daysTo_mk {era yoe mp : Nat} (hyoe : yoe < 400) (hmp : mp ≤ 11)
    (hstart : monthStart mp ≤ doy) :
    daysTo ⟨era * 400 + yoe + mp / 10, if mp < 10 then mp + 3 else mp - 9,
      doy - monthStart mp + 1⟩ = era * 146097 + (yoe * 365 + yoe / 4 - yoe / 100) + doy := by
  rw [daysTo]
  dsimp only
  by_cases h : mp < 10
  · have hyear : (era * 400 + yoe + mp / 10) % 400 = yoe ∧
        (era * 400 + yoe + mp / 10) / 400 = era := by
      omega
    rw [if_pos h, if_pos (show 2 < mp + 3 by omega), if_pos (show 2 < mp + 3 by omega),
      Nat.add_sub_cancel, hyear.1, hyear.2]
    omega
  · have hyear : (era * 400 + yoe + mp / 10 - 1) % 400 = yoe ∧
        (era * 400 + yoe + mp / 10 - 1) / 400 = era := by
      omega
    rw [if_neg h, if_neg (show ¬2 < mp - 9 by omega), if_neg (show ¬2 < mp - 9 by omega),
      show mp - 9 + 9 = mp by omega, hyear.1, hyear.2]
    omega

theorem daysTo_dateFrom (day : Nat) : daysTo (dateFrom day) = day := by
  obtain ⟨hyoe, hdoy, hday⟩ := yearOfEra_spec (show day % 146097 < 146097 by omega)
  obtain ⟨hmp, hstart, -⟩ := monthOf_spec hdoy
  rw [dateFrom, daysTo_mk hyoe hmp hstart]
  omega

theorem dateFrom_range (day : Nat) :
    1 ≤ (dateFrom day).month ∧ (dateFrom day).month ≤ 12 ∧ 1 ≤ (dateFrom day).day ∧
      (dateFrom day).day ≤ 31 := by
  obtain ⟨-, hdoy, -⟩ := yearOfEra_spec (show day % 146097 < 146097 by omega)
  obtain ⟨hmp, hstart, hlen⟩ := monthOf_spec hdoy
  simp only [dateFrom]
  split <;> omega

/-- The lowest `w` decimal digits of a number. -/
def digits : Nat → Nat → List UInt8
  | 0, _ => []
  | w + 1, n => digits w (n / 10) ++ [UInt8.ofNat (48 + n % 10)]

def isDigit (c : UInt8) : Bool := 48 ≤ c && c ≤ 57

def value (s : List UInt8) : Nat := s.foldl (fun n c => n * 10 + (c.toNat - 48)) 0

/-- A number of `w` digits in front of a text. -/
def field (w : Nat) (s : List UInt8) : Option (Nat × List UInt8) :=
  if (s.take w).length = w ∧ (s.take w).all isDigit then some (value (s.take w), s.drop w) else none

def expect (c : UInt8) (s : List UInt8) : Option (List UInt8) :=
  match s with
  | [] => none
  | d :: rest => if d = c then some rest else none

section Digits

variable {w n : Nat} {s rest : List UInt8}

theorem length_digits (w n : Nat) : (digits w n).length = w := by
  induction w generalizing n with
  | zero => rfl
  | succ w ih => rw [digits, length_append, ih, length_singleton]

theorem toNat_digit (n : Nat) : (UInt8.ofNat (48 + n % 10)).toNat = 48 + n % 10 := by
  rw [UInt8.toNat_ofNat']
  omega

theorem isDigit_digit (n : Nat) : isDigit (UInt8.ofNat (48 + n % 10)) = true := by
  have hall : ∀ n : Fin 10, isDigit (UInt8.ofNat (48 + n.val)) = true := by decide
  exact hall ⟨n % 10, Nat.mod_lt n (by decide)⟩

theorem all_digits (w n : Nat) : (digits w n).all isDigit = true := by
  induction w generalizing n with
  | zero => rfl
  | succ w ih => rw [digits, all_append, ih, all_cons, isDigit_digit]; rfl

theorem value_append_singleton (s : List UInt8) (c : UInt8) :
    value (s ++ [c]) = value s * 10 + (c.toNat - 48) := by
  rw [value, foldl_append]
  rfl

theorem value_digits (h : n < 10 ^ w) : value (digits w n) = n := by
  induction w generalizing n with
  | zero =>
    obtain rfl : n = 0 := by simpa using h
    rfl
  | succ w ih =>
    rw [Nat.pow_succ] at h
    rw [digits, value_append_singleton, ih (by omega), toNat_digit]
    omega

theorem field_digits (h : n < 10 ^ w) : field w (digits w n ++ rest) = some (n, rest) := by
  have htake : (digits w n ++ rest).take w = digits w n := take_left' (length_digits w n)
  have hdrop : (digits w n ++ rest).drop w = rest := drop_left' (length_digits w n)
  rw [field, htake, hdrop, if_pos ⟨length_digits w n, all_digits w n⟩, value_digits h]

theorem expect_cons (c : UInt8) (rest : List UInt8) : expect c (c :: rest) = some rest := by
  simp [expect]

end Digits

def trimZeros (s : List UInt8) : List UInt8 := (s.reverse.dropWhile (· == 48)).reverse

/-- The fraction of a second that is not zero: `.` and up to nine digits. -/
def fraction (ns : Nat) : List UInt8 := if ns = 0 then [] else 46 :: trimZeros (digits 9 ns)

def fractionOf (s : List UInt8) : Nat × List UInt8 :=
  match s with
  | [] => (0, [])
  | c :: rest =>
    let run := rest.takeWhile isDigit
    if c = 46 ∧ run ≠ [] then
      (value (run.take 9) * 10 ^ (9 - (run.take 9).length), rest.dropWhile isDigit)
    else (0, c :: rest)

theorem trimZeros_append (s : List UInt8) : ∃ k, s = trimZeros s ++ replicate k 48 := by
  have hsplit := congrArg reverse
    (@takeWhile_append_dropWhile _ (· == (48 : UInt8)) s.reverse)
  rw [reverse_append, reverse_reverse] at hsplit
  refine ⟨(s.reverse.takeWhile (· == 48)).length, ?_⟩
  have hzeros : (s.reverse.takeWhile (· == (48 : UInt8))).reverse =
      replicate (s.reverse.takeWhile (· == 48)).length 48 := by
    rw [eq_replicate_iff]
    refine ⟨length_reverse, fun c hc => ?_⟩
    simpa using all_eq_true.mp all_takeWhile c (mem_reverse.mp hc)
  rw [trimZeros, ← hzeros]
  exact hsplit.symm

theorem mem_of_mem_trimZeros {s : List UInt8} (h : c ∈ trimZeros s) : c ∈ s := by
  obtain ⟨k, hk⟩ := trimZeros_append s
  rw [hk]
  exact mem_append_left _ h

theorem value_append_zeros (s : List UInt8) (k : Nat) :
    value (s ++ replicate k 48) = value s * 10 ^ k := by
  induction k with
  | zero => simp
  | succ k ih =>
    rw [replicate_succ', ← append_assoc, value_append_singleton, ih, Nat.pow_succ]
    have hzero : (48 : UInt8).toNat - 48 = 0 := by decide
    rw [hzero, Nat.add_zero, Nat.mul_assoc]

theorem fractionOf_fraction {ns : Nat} (hns : ns < 10 ^ 9) {rest : List UInt8}
    (hc : c ≠ 46) (hdigit : isDigit c = false) :
    fractionOf (fraction ns ++ c :: rest) = (ns, c :: rest) := by
  rw [fraction]
  split
  · next hzero => simp [fractionOf, hc, hzero]
  · next hzero =>
    obtain ⟨k, hk⟩ := trimZeros_append (digits 9 ns)
    have hvalue := value_append_zeros (trimZeros (digits 9 ns)) k
    rw [← hk, value_digits hns] at hvalue
    have hlen := congrArg length hk
    rw [length_digits, length_append, length_replicate] at hlen
    have hall : ∀ d ∈ trimZeros (digits 9 ns), isDigit d = true := fun d hd =>
      all_eq_true.mp (all_digits 9 ns) d (mem_of_mem_trimZeros hd)
    generalize trimZeros (digits 9 ns) = ds at *
    have hne : ds ≠ [] := by
      rintro rfl
      simp [value] at hvalue
      exact hzero hvalue
    have htake : (ds ++ c :: rest).takeWhile isDigit = ds := by
      rw [takeWhile_append_of_pos hall, takeWhile_cons_of_neg (by simp [hdigit]),
        append_nil]
    have hdrop : (ds ++ c :: rest).dropWhile isDigit = c :: rest := by
      rw [dropWhile_append_of_pos hall, dropWhile_cons_of_neg (by simp [hdigit])]
    have hnine : ds.take 9 = ds := take_of_length_le (by omega)
    rw [cons_append, fractionOf]
    simp only [htake, hdrop, hne, ne_eq, not_false_eq_true, and_self, ↓reduceIte, hnine]
    rw [show 9 - ds.length = k by omega, ← hvalue]

def nanosPerDay : Nat := 86400000000000

def epoch : Nat := 306

/-- An instant, in nanoseconds from 0001-01-01 on, in the form of RFC 3339; none from the year
10000 on, which the form has no room for. -/
def format (t : Nat) : Option (List UInt8) :=
  let date := dateFrom (t / nanosPerDay + epoch)
  let second := t % nanosPerDay / 1000000000
  if 10000 ≤ date.year then none
  else
    some (digits 4 date.year ++ 45 :: (digits 2 date.month ++ 45 :: (digits 2 date.day ++ 84 ::
      (digits 2 (second / 3600) ++ 58 :: (digits 2 (second / 60 % 60) ++ 58 ::
        (digits 2 (second % 60) ++ (fraction (t % 1000000000) ++ [90])))))))

/-- The offset from UTC at the end of a text, in seconds, and whether it is one to take off. -/
def offsetOf (s : List UInt8) : Option (Nat × Bool) :=
  match s with
  | [] => none
  | c :: rest =>
    if c = 90 then if rest = [] then some (0, true) else none
    else if c = 43 || c = 45 then do
      let (hour, rest) ← field 2 rest
      let rest ← expect 58 rest
      let (minute, rest) ← field 2 rest
      if hour < 24 ∧ minute < 60 ∧ rest = [] then some ((hour * 60 + minute) * 60, c = 43) else none
    else none

def instant (date : Date) (second nanos : Nat) (offset : Nat × Bool) : Option Nat :=
  let day := daysTo date
  let local_ := day * nanosPerDay + second * 1000000000 + nanos
  let shift := offset.1 * 1000000000
  let start := epoch * nanosPerDay
  if offset.2 then if start + shift ≤ local_ then some (local_ - shift - start) else none
  else if start ≤ local_ + shift then some (local_ + shift - start) else none

def parse (s : List UInt8) : Option Nat := do
  let (year, s) ← field 4 s
  let s ← expect 45 s
  let (month, s) ← field 2 s
  let s ← expect 45 s
  let (day, s) ← field 2 s
  let s ← expect 84 s
  let (hour, s) ← field 2 s
  let s ← expect 58 s
  let (minute, s) ← field 2 s
  let s ← expect 58 s
  let (second, s) ← field 2 s
  let date : Date := ⟨year, month, day⟩
  -- a day the calendar has is one that its number leads back to
  if dateFrom (daysTo date) = date ∧ hour < 24 ∧ minute < 60 ∧ second < 60 then do
    let (nanos, s) := fractionOf s
    let offset ← offsetOf s
    instant date (hour * 3600 + minute * 60 + second) nanos offset
  else none

theorem instant_utc :
    instant (dateFrom (t / nanosPerDay + epoch)) (t % nanosPerDay / 1000000000) (t % 1000000000)
      (0, true) = some t := by
  have hday : t % 1000000000 = t % nanosPerDay % 1000000000 := by
    rw [nanosPerDay]
    omega
  have hsplit := Nat.div_add_mod' t nanosPerDay
  have hrest := Nat.div_add_mod' (t % nanosPerDay) 1000000000
  rw [instant, daysTo_dateFrom, hday]
  generalize t % nanosPerDay / 1000000000 = second at *
  generalize t % nanosPerDay % 1000000000 = nanos at *
  simp only [Nat.add_mul, Nat.zero_mul, Nat.add_zero, Nat.sub_zero, ↓reduceIte]
  rw [if_pos (by omega)]
  exact congrArg some (by omega)

theorem parse_format (h : format t = some text) : parse text = some t := by
  rw [format] at h
  split at h
  · cases h
  · next hyear =>
    obtain rfl := Option.some.inj h
    obtain ⟨-, hmonth, -, hday⟩ := dateFrom_range (t / nanosPerDay + epoch)
    have hsecond : t % nanosPerDay / 1000000000 < 86400 := by
      have := Nat.mod_lt t (show 0 < nanosPerDay by decide)
      rw [nanosPerDay] at this ⊢
      omega
    have hinstant := @instant_utc t
    generalize hdate : dateFrom (t / nanosPerDay + epoch) = date at *
    generalize t % nanosPerDay / 1000000000 = second at *
    have hback : dateFrom (daysTo date) = date := by rw [← hdate, daysTo_dateFrom]
    have hclock : second / 3600 * 3600 + second / 60 % 60 * 60 + second % 60 = second := by omega
    have hfraction : fractionOf (fraction (t % 1000000000) ++ [90]) = (t % 1000000000, [90]) :=
      fractionOf_fraction (Nat.mod_lt _ (by decide)) (by decide) (by decide)
    simp only [parse, bind, Option.bind, expect_cons,
      @field_digits 4 date.year _ (by omega), @field_digits 2 date.month _ (by omega),
      @field_digits 2 date.day _ (by omega), @field_digits 2 (second / 3600) _ (by omega),
      @field_digits 2 (second / 60 % 60) _ (by omega), @field_digits 2 (second % 60) _ (by omega)]
    rw [if_pos ⟨hback, by omega, by omega, by omega⟩, hfraction]
    simp only [hclock]
    exact hinstant

theorem format_plain (h : format t = some text) :
    ∀ c ∈ text, isDigit c = true ∨ c ∈ ([45, 84, 58, 46, 90] : List UInt8) := by
  rw [format] at h
  split at h
  · cases h
  · obtain rfl := Option.some.inj h
    have hdigits {w n : Nat} {c : UInt8} (hc : c ∈ digits w n) :
        isDigit c = true ∨ c ∈ ([45, 84, 58, 46, 90] : List UInt8) :=
      .inl (all_eq_true.mp (all_digits w n) c hc)
    intro c hc
    simp only [mem_append, mem_cons, not_mem_nil, or_false] at hc
    obtain hc | rfl | hc | rfl | hc | rfl | hc | rfl | hc | rfl | hc | hc | rfl := hc
    all_goals first | exact hdigits hc | exact .inr (by decide) | skip
    rw [fraction] at hc
    split at hc
    · cases hc
    · rcases mem_cons.mp hc with rfl | hc
      · exact .inr (by decide)
      · exact hdigits (mem_of_mem_trimZeros hc)

end Calendar
