/-
A type whose names stand in a list: the rendezvous servers of a HIP record.

The data of a HIP record is an algorithm, a tag and a key, and then the names of the servers.
-/
import Wegweiser.Zone.Presentation

namespace Wegweiser

open Marked List

def typeHIP : RRType := 55

namespace WireLibrary

/-- The words of a line: `word` is the one begun, and `escaped` whether it ends in a backslash. -/
def wordsFrom (escaped : Bool) (word : Octets) : Octets → List Octets
  | [] => if word.isEmpty then [] else [word]
  | c :: rest =>
    if escaped then wordsFrom false (word ++ [c]) rest
    else if c = 92 then wordsFrom true (word ++ [c]) rest
    else if c = 32 then
      if word.isEmpty then wordsFrom false [] rest else word :: wordsFrom false [] rest
    else wordsFrom false (word ++ [c]) rest

/-- No blank without a backslash before it, and no backslash without anything behind it. -/
def whole (escaped : Bool) : Octets → Bool
  | [] => !escaped
  | c :: rest =>
    if escaped then whole false rest
    else if c = 92 then whole true rest
    else c != 32 && whole false rest

/-- A word as it stands in a line: nothing in it or at its ends would be taken for a blank. -/
def solid (word : Octets) : Bool :=
  whole false word && word.all (fun o => 32 ≤ o && o < 128) &&
    word.head?.any (fun o => !isSpace o) && word.getLast?.any fun o => !isSpace o

def joinWords : List Octets → Octets
  | [] => []
  | [word] => word
  | word :: words => word ++ 32 :: joinWords words

def dotted (escaped dot : Bool) : Octets → Bool
  | [] => dot
  | c :: rest => if escaped then dotted false false rest else dotted (c == 92) (c == 46) rest

def isQualified (name : Octets) : Bool := dotted false false name

def completeUnder (origin name : Octets) : Octets :=
  if isQualified name then name else name ++ 46 :: origin

structure HipRecord where
  type : RRType × Class
  front : List Octets
  names : List Octets
deriving DecidableEq

def frontWords (t : RRType) : Nat := if t = typeHIP then 3 else 0

def hipFields (t : RRType) (count : Nat) : List NameField :=
  if t = typeHIP then [⟨true, true, count⟩] else replicate count ⟨true, false, 1⟩

def HipRecord.marks (rr : HipRecord) : List Bool :=
  found (hipFields rr.type.1 rr.names.length)

def hipLine (t : RRType) (s : Octets) : Option (List Octets × List Octets) :=
  let words := wordsFrom false [] s
  if frontWords t ≤ words.length ∧ (words.take (frontWords t)).all solid = true then
    some (words.take (frontWords t), words.drop (frontWords t))
  else none

def hip : WireLibrary where
  RR := HipRecord
  parse t c s origin := (hipLine t s).bind fun line =>
    if (line.2.map (completeUnder origin)).all solid then
      some ⟨(t, c), line.1, line.2.map (completeUnder origin)⟩
    else none
  string rr := [9, 9, 9, 9] ++ joinWords (rr.front ++ rr.names)
  domainNames rr := pick rr.marks rr.names
  setDomainNames rr new := { rr with names := put rr.marks rr.names new }

/-- What a record is but for its names. -/
structure HipShape where
  type : RRType × Class
  front : List Octets
  count : Nat
  frontOk : front.length = frontWords type.1 ∧ front.all solid = true

def hipFormat : hip.Presentation where
  Shape := HipShape
  type sh := sh.type
  nameFields sh := hipFields sh.type.1 sh.count
  read t c s :=
    let words := wordsFrom false [] s
    if h : frontWords t ≤ words.length ∧ (words.take (frontWords t)).all solid = true then
      some (⟨(t, c), words.take (frontWords t), (words.drop (frontWords t)).length,
        by rw [length_take, Nat.min_eq_left h.1], h.2⟩, words.drop (frontWords t))
    else none
  make sh ns := ⟨sh.type, sh.front, ns⟩
  print sh ns := hip.extractRData ⟨sh.type, sh.front, ns⟩
  qualified := isQualified
  complete := completeUnder
  normal := id
  nameOk := solid
  originOk origin := isQualified origin = true

variable {word s : Octets} {words : List Octets} {t : RRType} {c : Class}

variable {escaped : Bool} {ns : List Octets} {text : Octets}

theorem wordsFrom_append (hs : whole escaped s = true) (word rest : Octets) :
    wordsFrom escaped word (s ++ rest) = wordsFrom false (word ++ s) rest := by
  induction s generalizing escaped word with
  | nil =>
    obtain rfl : escaped = false := by simpa [whole] using hs
    rw [nil_append, append_nil]
  | cons c s ih =>
    have hstep (e : Bool) (he : whole e s = true) :
        wordsFrom e (word ++ [c]) (s ++ rest) = wordsFrom false (word ++ c :: s) rest := by
      rw [ih he, append_assoc, singleton_append]
    rw [whole] at hs
    rw [cons_append, wordsFrom]
    by_cases hescaped : escaped = true
    · rw [if_pos hescaped] at hs ⊢
      exact hstep false hs
    rw [if_neg hescaped] at hs ⊢
    by_cases hslash : c = 92
    · rw [if_pos hslash] at hs ⊢
      exact hstep true hs
    rw [if_neg hslash, Bool.and_eq_true, bne_iff_ne] at hs
    rw [if_neg hslash, if_neg hs.1]
    exact hstep false hs.2

theorem solid_iff : solid word = true ↔ whole false word = true ∧
    (∀ o ∈ word, 32 ≤ o ∧ o < 128) ∧ (∃ first rest, word = first :: rest ∧ isSpace first = false) ∧
    ∃ front last, word = front ++ [last] ∧ isSpace last = false := by
  have hhead : (word.head?.any fun o => !isSpace o) = true ↔
      ∃ first rest, word = first :: rest ∧ isSpace first = false := by
    cases word with
    | nil => simp
    | cons first rest => simp
  have hlast : (word.getLast?.any fun o => !isSpace o) = true ↔
      ∃ front last, word = front ++ [last] ∧ isSpace last = false := by
    rcases eq_nil_or_concat word with rfl | ⟨front, last, rfl⟩
    · simp
    · simp
  simp only [solid, Bool.and_eq_true, hhead, hlast, all_eq_true, decide_eq_true_eq, and_assoc]

theorem wordsFrom_joinWords (h : ∀ word ∈ words, solid word = true) :
    wordsFrom false [] (joinWords words) = words := by
  induction words with
  | nil => rfl
  | cons word words ih =>
    obtain ⟨hwhole, -, ⟨first, rest, rfl, -⟩, -⟩ := solid_iff.mp (h word (by simp))
    cases words with
    | nil =>
      have hword := wordsFrom_append hwhole [] []
      rw [append_nil] at hword
      rw [joinWords, hword]
      rfl
    | cons next words =>
      rw [joinWords, wordsFrom_append hwhole, nil_append, wordsFrom, if_neg (by simp),
        if_neg (by decide), if_pos rfl, if_neg (by simp),
        ih fun w hw => h w (mem_cons_of_mem _ hw)]
      simp

theorem joinWords_ends (h : ∀ word ∈ words, solid word = true) (hne : words ≠ []) :
    (∃ first rest, joinWords words = first :: rest ∧ isSpace first = false) ∧
      ∃ front last, joinWords words = front ++ [last] ∧ isSpace last = false := by
  induction words with
  | nil => exact absurd rfl hne
  | cons word words ih =>
    obtain ⟨-, -, ⟨first, rest, hfirst⟩, hlast⟩ := solid_iff.mp (h word (by simp))
    cases words with
    | nil => exact ⟨⟨first, rest, hfirst⟩, hlast⟩
    | cons next words =>
      obtain ⟨-, front, last, hlast, hspace⟩ :=
        ih (fun w hw => h w (mem_cons_of_mem _ hw)) (by simp)
      rw [joinWords, hlast]
      · refine ⟨⟨first, rest ++ 32 :: (front ++ [last]), by simp [hfirst.1], hfirst.2⟩,
          word ++ 32 :: front, last, by simp, hspace⟩
      · simp

theorem printable_joinWords (h : ∀ word ∈ words, solid word = true) :
    ∀ o ∈ joinWords words, 32 ≤ o ∧ o < 128 := by
  induction words with
  | nil => simp [joinWords]
  | cons word words ih =>
    have hword := (solid_iff.mp (h word (by simp))).2.1
    cases words with
    | nil => exact hword
    | cons next words =>
      have hrest := ih fun w hw => h w (mem_cons_of_mem _ hw)
      intro o ho
      rw [joinWords, mem_append, mem_cons] at ho
      · rcases ho with ho | rfl | ho
        · exact hword o ho
        · decide
        · exact hrest o ho
      · simp

theorem whole_append (hs : whole escaped s = true) (rest : Octets) :
    whole escaped (s ++ rest) = whole false rest := by
  induction s generalizing escaped with
  | nil =>
    obtain rfl : escaped = false := by simpa [whole] using hs
    rfl
  | cons c s ih =>
    rw [whole] at hs
    rw [cons_append, whole]
    split_ifs at hs ⊢ with hescaped hslash
    · exact ih hs
    · exact ih hs
    · rw [Bool.and_eq_true] at hs
      rw [hs.1, ih hs.2, Bool.true_and]

theorem dotted_append (hs : whole escaped s = true) (dot : Bool) (rest : Octets) :
    dotted escaped dot (s ++ 46 :: rest) = dotted false true rest := by
  induction s generalizing escaped dot with
  | nil =>
    obtain rfl : escaped = false := by simpa [whole] using hs
    rfl
  | cons c s ih =>
    rw [whole] at hs
    rw [cons_append, dotted]
    split_ifs at hs ⊢ with hescaped hslash
    · exact ih hs false
    · subst hslash
      exact ih hs _
    · rw [beq_eq_false_iff_ne.mpr hslash]
      exact ih (Bool.and_eq_true _ _ ▸ hs).2 _

theorem dotted_origin {origin : Octets} (ho : isQualified origin = true) (escaped dot : Bool)
    (name : Octets) : dotted escaped dot (name ++ 46 :: origin) = true := by
  induction name generalizing escaped dot with
  | nil =>
    have hdot : dotted false true origin = true := by
      cases origin with
      | nil => rfl
      | cons c origin => exact ho
    cases escaped with
    | true => exact ho
    | false => exact hdot
  | cons c name ih =>
    rw [cons_append, dotted]
    split_ifs
    · exact ih _ _
    · exact ih _ _

theorem whole_label (label : Octets) : whole false (label.flatMap writeEscaped) = true := by
  have hoctet (c : UInt8) : whole false (writeEscaped c) = true :=
    forall_octets (P := fun c => whole false (writeEscaped c) = true) (by decide +kernel) c
  induction label with
  | nil => rfl
  | cons c label ih => rw [flatMap_cons, whole_append (hoctet c), ih]

theorem whole_string (n : Name) : whole false n.string = true := by
  by_cases hlabels : n.labels = []
  · rw [Name.string, if_pos (by simp [Name.isRoot, hlabels])]
    rfl
  · rw [Name.string_of_labels hlabels]
    induction n.labels with
    | nil => rfl
    | cons label labels ih =>
      rw [flatMap_cons, append_assoc, whole_append (whole_label label)]
      exact ih

theorem isQualified_string (n : Name) : isQualified n.string = true := by
  have hdots (labels : List Octets) :
      dotted false true (labels.flatMap fun label => label.flatMap writeEscaped ++ [46]) = true := by
    induction labels with
    | nil => rfl
    | cons label labels ih =>
      rw [flatMap_cons, append_assoc]
      exact (dotted_append (whole_label label) true _).trans ih
  cases hlabels : n.labels with
  | nil =>
    rw [Name.string, if_pos (by simp [Name.isRoot, hlabels])]
    rfl
  | cons label labels =>
    rw [Name.string_of_labels (by simp [hlabels]), hlabels, flatMap_cons, append_assoc]
    exact (dotted_append (whole_label label) false _).trans (hdots labels)

theorem solid_string (n : Name) : solid n.string = true := by
  obtain ⟨front, hfront⟩ := n.string_ends
  obtain ⟨first, rest, hrest, hfirst⟩ := n.string_starts
  exact solid_iff.mpr ⟨whole_string n, fun o ho => Name.printable_of_mem_string ho,
    ⟨first, rest, hrest, hfirst⟩, front, 46, hfront, by decide⟩

theorem found_hipFields (t : RRType) (count : Nat) :
    found (hipFields t count) = replicate count (t != typeHIP) := by
  rw [hipFields]
  split_ifs with ht
  · simp [found, ht]
  · simp only [found, flatMap_replicate, replicate_one, flatten_replicate_singleton]
    simp [ht]

theorem length_marks (sh : HipShape) : (hipFormat.marks sh).length = sh.count :=
  (congrArg length (found_hipFields sh.type.1 sh.count)).trans (length_replicate ..)

theorem solid_words (sh : HipShape) (hns : ∀ n ∈ ns, solid n = true) :
    ∀ word ∈ sh.front ++ ns, solid word = true := by
  intro word hword
  rcases mem_append.mp hword with hword | hword
  · exact all_eq_true.mp sh.frontOk.2 word hword
  · exact hns word hword

theorem hip_print {sh : HipShape}
    (hns : ∀ n ∈ ns, solid n = true) (h : hip.extractRData ⟨sh.type, sh.front, ns⟩ = .ok text) :
    text = joinWords (sh.front ++ ns) := by
  have hall := solid_words sh hns
  by_cases hne : sh.front ++ ns = []
  · obtain ⟨hfront, rfl⟩ := append_eq_nil_iff.mp hne
    rw [hfront] at h
    cases h
  · obtain ⟨⟨first, rest, hfirst, hfirst'⟩, front, last, hlast, hlast'⟩ := joinWords_ends hall hne
    have hprint : hip.extractRData ⟨sh.type, sh.front, ns⟩ = .ok (joinWords (sh.front ++ ns)) := by
      refine extractRData_of_string rfl ?_ (trimSpace_of_ends hfirst hlast hfirst' hlast') ?_
      · exact fun htab => absurd (printable_joinWords hall 9 htab).1 (by decide)
      · rw [hfirst]
        exact cons_ne_nil _ _
    exact (Except.ok.inj (hprint.symm.trans h)).symm

theorem hip_readsBack (sh : HipShape)
    (hcount : ns.length = sh.count) (hns : ∀ n ∈ ns, solid n = true)
    (hprint : hip.extractRData ⟨sh.type, sh.front, ns⟩ = .ok text) :
    hipFormat.read sh.type.1 sh.type.2 text = some (sh, ns) := by
  have hwords : wordsFrom false [] text = sh.front ++ ns := by
    rw [hip_print hns hprint]
    exact wordsFrom_joinWords (solid_words sh hns)
  have htake : (sh.front ++ ns).take (frontWords sh.type.1) = sh.front := by
    rw [← sh.frontOk.1, take_left]
  have hdrop : (sh.front ++ ns).drop (frontWords sh.type.1) = ns := by
    rw [← sh.frontOk.1, drop_left]
  have hfront : frontWords sh.type.1 ≤ (sh.front ++ ns).length ∧
      ((sh.front ++ ns).take (frontWords sh.type.1)).all solid = true := by
    rw [htake, ← sh.frontOk.1, length_append]
    exact ⟨Nat.le_add_right _ _, sh.frontOk.2⟩
  simp only [hipFormat, hwords]
  rw [dif_pos hfront]
  simp only [htake, hdrop, hcount]

theorem completeUnder_relative {name : Octets} (h : isQualified name = false) (origin : Octets) :
    completeUnder origin name = name ++ 46 :: origin :=
  if_neg (by simp [h])

theorem hipFormat_faithful : hipFormat.Faithful where
  probes := by
    change isQualified probeOriginA = true ∧ isQualified probeOriginB = true
    decide +kernel
  parses t c s o _ := by
    change (hipLine t s).bind _ = _
    simp only [hipLine, hipFormat]
    split_ifs <;> rfl
  typed {t c s sh ns} hread := by
    simp only [hipFormat, Option.dite_none_right_eq_some, Option.some.injEq] at hread
    obtain ⟨hfront, hread⟩ := hread
    obtain ⟨rfl, rfl⟩ := Prod.mk.inj hread
    exact ⟨rfl, (length_marks ⟨_, _, _, _⟩).symm⟩
  finds sh ns hlen := by
    change pick (found (hipFields sh.type.1 ns.length)) ns = _
    rw [hlen.trans (length_marks sh)]
    rfl
  sets sh ns new hlen := by
    change HipRecord.mk sh.type sh.front (put (found (hipFields sh.type.1 ns.length)) ns new) = _
    rw [hlen.trans (length_marks sh)]
    rfl
  prints sh ns _ := by
    rw [show hipFormat.normal = id from rfl, map_id]
    rfl
  readsBack sh ns text hlen hok hprint :=
    hip_readsBack sh (hlen.trans (length_marks sh)) (fun n hn => (hok n hn).2.1) hprint
  complete_of_qualified o n hn := if_pos hn
  qualified_complete o n ho := by
    change isQualified (completeUnder o n) = true
    by_cases hn : isQualified n = true
    · rwa [completeUnder, if_pos hn]
    · rw [completeUnder_relative (Bool.not_eq_true _ ▸ hn)]
      exact dotted_origin ho false false n
  completed n hn := by
    change completeUnder probeOriginA n ≠ completeUnder probeOriginB n
    rw [completeUnder_relative hn, completeUnder_relative hn, Ne, append_cancel_left_eq]
    decide +kernel
  normal_normal _ := rfl
  qualified_normal _ := rfl
  nameOk_normal _ := rfl
  parseName_normal _ := rfl
  ofName n := ⟨isQualified_string n, solid_string n, rfl⟩

def hipSample : HipShape where
  type := (typeHIP, classIN)
  front := [ascii "2", ascii "20", ascii "AwEA"]
  count := 1
  frontOk := ⟨rfl, by decide +kernel⟩

end WireLibrary

end Wegweiser
