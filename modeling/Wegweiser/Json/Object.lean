/-
Objects and arrays: how they are written, and how they are taken apart.

A part of a document stays the text it is until it is known what it is read as.
-/
import Mathlib.Data.List.Nodup
import Wegweiser.Json.Text
import Wegweiser.Zone.Text

namespace Wegweiser.Json

open List

/-- What follows the first of several parts: the others behind commas, and the octet that closes
them all. -/
def follow (close : UInt8) : List Octets → Octets
  | [] => [close]
  | part :: rest => 44 :: (part ++ follow close rest)

def closed (close : UInt8) : List Octets → Octets
  | [] => [close]
  | part :: rest => part ++ follow close rest

def array (parts : List Octets) : Octets := 91 :: closed 93 parts

def member (m : String × Octets) : Octets := quote (ascii m.1) ++ 58 :: m.2

def present (names : List String) (texts : List (Option Octets)) : List (String × Octets) :=
  (names.zip texts).filterMap fun f => f.2.map (f.1, ·)

/-- A struct: its field names, and what each field is written as; nothing for the fields that are
left out. -/
def object (names : List String) (texts : List (Option Octets)) : Octets :=
  123 :: closed 125 ((present names texts).map member)

section Scanning

variable {braces : Bool} {close : UInt8} {parts : List Octets} {text rest : Octets} {n : Nat}

/-- The text of one value that is scanned as such above `n` levels of nesting. -/
structure Scans (n : Nat) (text : Octets) : Prop where
  starts : ∃ c tail, text = c :: tail ∧ (∀ rest, skipSpace (c :: rest) = c :: rest) ∧ c ≠ 93
  reads : ∃ left, (∀ depth < n, left ≤ maxNestingDepth - depth) ∧
    ∀ rest, Delimits rest → Scanned left .value (text ++ rest) rest

theorem Scans.accepts (h : Scans n text) {fuel depth : Nat} (hfuel : 2 * text.length ≤ fuel)
    (hdepth : depth < n) (hrest : Delimits rest) : afterValue fuel depth (text ++ rest) = some rest := by
  obtain ⟨left, hleft, hreads⟩ := h.reads
  refine (hreads rest hrest).afterValue (hleft depth hdepth) ?_
  rw [length_append]
  omega

variable {left m : Nat} {c : UInt8} {names : List String} {texts : List (Option Octets)}

theorem Scans.only (h : Scans n text) {r : Octets} (hrest : Delimits rest)
    (hr : Scanned left .value (text ++ rest) r) : r = rest := by
  obtain ⟨_, -, hreads⟩ := h.reads
  exact hr.unique (hreads rest hrest)

theorem Scans.mono (h : Scans n text) (hle : m ≤ n) : Scans m text := by
  obtain ⟨left, hleft, hreads⟩ := h.reads
  exact ⟨h.starts, left, fun depth hd => hleft depth (Nat.lt_of_lt_of_le hd hle), hreads⟩

theorem skipSpace_cons (h : (c == 32 || c == 9 || c == 10 || c == 13) = false)
    (rest : Octets) : skipSpace (c :: rest) = c :: rest :=
  dropWhile_cons_of_neg (by simp [h])

theorem delimits_comma (rest : Octets) : Delimits (44 :: rest) :=
  delimits_cons (by decide) (by decide)

theorem delimits_follow (hclose : Delimits [close]) (parts : List Octets) (rest : Octets) :
    Delimits (follow close parts ++ rest) := by
  cases parts with
  | nil =>
    rw [follow, singleton_append]
    intro c tail h
    exact hclose c [] (congrArg (· :: []) (cons.inj h).1)
  | cons p parts => exact delimits_comma _

/-- The octets that close something. -/
structure Closes (close : UInt8) : Prop where
  stays : ∀ rest, skipSpace (close :: rest) = close :: rest
  delimits : Delimits [close]
  ne_comma : close ≠ 44

theorem closes_closing (braces : Bool) : Closes (closing braces) := by
  cases braces
  all_goals exact ⟨skipSpace_cons (by decide), delimits_cons (by decide) (by decide), by decide⟩

def PartOf (braces : Bool) (n : Nat) (part : Octets) : Prop :=
  ∃ text, Scans n text ∧ ∀ rest, afterLabel braces (part ++ rest) = some (text ++ rest)

theorem scanned_closed (hne : parts ≠ [])
    (hparts : ∀ p ∈ parts, ∃ text, (∀ rest, afterLabel braces (p ++ rest) = some (text ++ rest)) ∧
      ∀ rest, Delimits rest → Scanned left .value (text ++ rest) rest) (rest : Octets) :
    Scanned left (.parts braces) (closed (closing braces) parts ++ rest) rest := by
  have hclose := closes_closing braces
  cases parts with
  | nil => exact absurd rfl hne
  | cons p parts =>
    induction parts generalizing p with
    | nil =>
      obtain ⟨text, hlabel, hvalue⟩ := hparts p mem_cons_self
      rw [closed, append_assoc]
      exact .last (hlabel _) (hvalue _ (delimits_follow hclose.delimits [] rest))
        (hclose.stays rest)
    | cons q parts ih =>
      obtain ⟨text, hlabel, hvalue⟩ := hparts p mem_cons_self
      rw [closed, append_assoc]
      refine .more (hlabel _) (hvalue _ (delimits_follow hclose.delimits _ rest))
        (skipSpace_cons (by decide) _) ?_
      exact ih q (cons_ne_nil q parts) fun x hx => hparts x (mem_cons_of_mem p hx)

theorem exists_left (hn : n ≤ maxNestingDepth) (hm : n ≤ m - 1)
    (hparts : ∀ p ∈ parts, PartOf braces m p) :
    ∃ left, (∀ depth < n, left + 1 ≤ maxNestingDepth - depth) ∧
      ∀ p ∈ parts, ∃ text, (∀ rest, afterLabel braces (p ++ rest) = some (text ++ rest)) ∧
        ∀ rest, Delimits rest → Scanned left .value (text ++ rest) rest := by
  induction parts with
  | nil => exact ⟨0, fun depth hd => by omega, by simp⟩
  | cons p parts ih =>
    obtain ⟨left, hleft, hrest⟩ := ih fun q hq => hparts q (mem_cons_of_mem p hq)
    obtain ⟨text, ⟨-, left', hleft', hreads⟩, hlabel⟩ := hparts p mem_cons_self
    refine ⟨max left left', fun depth hd => ?_,
      forall_mem_cons.mpr ⟨⟨text, hlabel, fun rest h => ?_⟩, ?_⟩⟩
    · have := hleft depth hd
      have := hleft' (depth + 1) (by omega)
      omega
    · exact (hreads rest h).mono (Nat.le_max_right left left')
    · intro q hq
      obtain ⟨text, hlabel, hvalue⟩ := hrest q hq
      exact ⟨text, hlabel, fun rest h => (hvalue rest h).mono (Nat.le_max_left left left')⟩

theorem scans_closed (hn : n ≤ maxNestingDepth) (hm : n ≤ m - 1)
    (hstart : ∀ p ∈ parts, ∃ c tail, p = c :: tail ∧
      (∀ rest, skipSpace (c :: rest) = c :: rest) ∧ c ≠ closing braces)
    (hparts : ∀ p ∈ parts, PartOf braces m p) :
    Scans n (opening braces :: closed (closing braces) parts) := by
  have hopening : ∀ rest, skipSpace (opening braces :: rest) = opening braces :: rest :=
    skipSpace_cons (by cases braces <;> decide)
  obtain ⟨left, hleft, hparts⟩ := exists_left hn hm hparts
  refine ⟨⟨_, _, rfl, hopening, by cases braces <;> decide⟩, left + 1, hleft, fun rest _ => ?_⟩
  cases parts with
  | nil => exact .empty (hopening _) ((closes_closing braces).stays rest)
  | cons p parts =>
    have hscanned := scanned_closed (cons_ne_nil p parts) hparts rest
    obtain ⟨c, tail, rfl, hc, hne⟩ := hstart p mem_cons_self
    exact .filled (hopening _) (hc _) hne hscanned

theorem scans_array (hn : n ≤ maxNestingDepth) (hm : n ≤ m - 1)
    (hparts : ∀ p ∈ parts, Scans m p) : Scans n (array parts) :=
  @scans_closed false parts n m hn hm (fun p hp => (hparts p hp).starts)
    fun p hp => ⟨p, hparts p hp, fun _ => rfl⟩

theorem afterLabel_member (m : String × Octets) (rest : Octets) :
    afterLabel true (member m ++ rest) = some (m.2 ++ rest) := by
  obtain ⟨text, hread⟩ := readString_quote (ascii m.1) (58 :: (m.2 ++ rest))
  refine afterLabel_eq_some.mpr (.inr ⟨rfl, _, _, ?_, hread, skipSpace_cons (by decide) _⟩)
  rw [member, quote, append_assoc, cons_append, skipSpace_cons (by decide)]
  rfl

theorem of_mem_present {f : String × Octets}
    (hf : f ∈ present names texts) : f.1 ∈ names ∧ ∃ t ∈ texts, f.2 ∈ t := by
  obtain ⟨⟨name, text⟩, hmem, hf⟩ := mem_filterMap.mp hf
  obtain ⟨x, hx, rfl⟩ := Option.map_eq_some_iff.mp hf
  exact ⟨(of_mem_zip hmem).1, text, (of_mem_zip hmem).2, hx⟩

theorem scans_object
    (hn : n ≤ maxNestingDepth) (hm : n ≤ m - 1) (hparts : ∀ t ∈ texts, ∀ x ∈ t, Scans m x) :
    Scans n (object names texts) := by
  refine @scans_closed true _ n m hn hm (fun p hp => ?_) fun p hp => ?_
  · obtain ⟨f, -, rfl⟩ := mem_map.mp hp
    exact ⟨34, _, rfl, skipSpace_cons (by decide), by decide⟩
  · obtain ⟨f, hf, rfl⟩ := mem_map.mp hp
    obtain ⟨-, t, ht, hx⟩ := of_mem_present hf
    exact ⟨f.2, hparts t ht f.2 hx, afterLabel_member f⟩

theorem Scans.flat (hstarts : ∃ c tail, text = c :: tail ∧
      (∀ rest, skipSpace (c :: rest) = c :: rest) ∧ c ≠ 93)
    (hreads : ∀ rest, Delimits rest → Scanned 0 .value (text ++ rest) rest) (n : Nat) :
    Scans n text :=
  ⟨hstarts, 0, fun _ _ => Nat.zero_le _, hreads⟩

theorem scans_quote (n : Nat) (s : Octets) : Scans n (quote s) := by
  refine .flat ⟨34, _, rfl, skipSpace_cons (by decide), by decide⟩ (fun rest _ => ?_) n
  obtain ⟨text, hread⟩ := readString_quote s rest
  exact .string (skipSpace_cons (by decide) _) hread

theorem scans_scalar {tail : Octets} (n : Nat) (hc : c ∈ ascii "tfn" ∨ c = 45 ∨ isDigit c = true)
    (hread : ∀ rest, Delimits rest → afterScalar (c :: (tail ++ rest)) = some rest) :
    Scans n (c :: tail) := by
  have hno (d : UInt8) (hd : (d ∈ ascii "tfn" ∨ d = 45 ∨ isDigit d = true) → False) : c ≠ d := by
    rintro rfl
    exact hd hc
  have hspace : ∀ rest, skipSpace (c :: rest) = c :: rest := skipSpace_cons (by
    simp [hno 32 (by decide), hno 9 (by decide), hno 10 (by decide), hno 13 (by decide)])
  refine .flat ⟨c, tail, rfl, hspace, hno 93 (by decide)⟩ (fun rest hrest => ?_) n
  refine .scalar (hspace _) ⟨hno 34 (by decide), fun braces => ?_⟩ (hread rest hrest)
  cases braces
  · exact hno 91 (by decide)
  · exact hno 123 (by decide)

theorem scans_word {word : Octets} (hword : word ∈ words) (n : Nat) : Scans n word := by
  have hread := fun rest => afterScalar_word hword rest
  have hhead : ∀ w ∈ words, ∃ c tail, w = c :: tail ∧ c ∈ ascii "tfn" := by
    intro w hw
    simp only [words, mem_cons, not_mem_nil, or_false] at hw
    rcases hw with rfl | rfl | rfl
    · exact ⟨116, ascii "rue", by decide, by decide⟩
    · exact ⟨102, ascii "alse", by decide, by decide⟩
    · exact ⟨110, ascii "ull", by decide, by decide⟩
  obtain ⟨c, tail, rfl, hc⟩ := hhead word hword
  exact scans_scalar n (.inl hc) fun rest _ => hread rest

theorem afterWhole_decimal (v : Nat) (hrest : Delimits rest) :
    afterWhole (decimal v ++ rest) = some rest := by
  have hdigits := digits_append (fun c hc => @isDigit_of_mem_decimal v c hc) (decimal_ne_nil v)
    fun c x hx => (hrest c x hx).1
  have hzero := @decimal_eq_zero_cons v
  cases hv : decimal v with
  | nil => exact absurd hv (decimal_ne_nil v)
  | cons c tail =>
    rw [hv] at hdigits
    rw [cons_append, afterWhole]
    split
    · next hc =>
      obtain rfl : tail = [] := hzero (by rw [hv, hc])
      rfl
    · exact hdigits

theorem afterNumber_decimal (v : Nat) (htext : unsigned text = decimal v ++ rest)
    (hrest : Delimits rest) : afterNumber text = some rest := by
  have hfraction : afterFraction rest = some rest := by
    cases rest with
    | nil => rfl
    | cons c rest => rw [afterFraction_cons, if_neg (hrest c rest rfl).2.1]
  have hexponent : afterExponent rest = some rest := by
    cases rest with
    | nil => rfl
    | cons c rest => rw [afterExponent_cons]; simp [hrest c rest rfl]
  rw [afterNumber_eq, htext, afterWhole_decimal v hrest, Option.bind_some, hfraction,
    Option.bind_some, hexponent]

theorem scans_decimal (n v : Nat) : Scans n (decimal v) := by
  cases hv : decimal v with
  | nil => exact absurd hv (decimal_ne_nil v)
  | cons c tail =>
    have hc : isDigit c = true := isDigit_of_mem_decimal (hv ▸ mem_cons_self)
    refine scans_scalar n (.inr (.inr hc)) fun rest hrest => ?_
    rw [afterScalar_number (.inr hc)]
    refine afterNumber_decimal v ?_ hrest
    have hsign : c ≠ 45 := by
      rintro rfl
      exact absurd hc (by decide)
    rw [unsigned, if_neg hsign, hv, cons_append]

theorem scans_negative (n v : Nat) : Scans n (45 :: decimal v) := by
  refine scans_scalar n (.inr (.inl rfl)) fun rest hrest => ?_
  rw [afterScalar_number (.inl rfl)]
  exact afterNumber_decimal v rfl hrest

end Scanning

def cut (s : Octets) : Option (Octets × Octets) :=
  let s := skipSpace s
  (afterValue (2 * s.length + 2) 0 s).map fun rest => (s.take (s.length - rest.length), rest)

def cutMember (s : Octets) : Option ((Octets × Octets) × Octets) := do
  let (key, rest) ← cut s
  let name ← unquote key
  match skipSpace rest with
  | [] => none
  | c :: rest =>
    if c = 58 then do
      let (text, rest) ← cut rest
      pure ((name, text), rest)
    else none

/-- Parts with commas between them, up to the octet that closes them and the end of the text. -/
def partsOf {α : Type} (close : UInt8) (part : Octets → Option (α × Octets)) :
    Nat → Octets → Option (List α)
  | 0, _ => none
  | fuel + 1, s =>
    (part s).bind fun p =>
      match skipSpace p.2 with
      | [] => none
      | c :: rest =>
        if c = 44 then (partsOf close part fuel rest).map (p.1 :: ·)
        else if c = close && (skipSpace rest).isEmpty then some [p.1]
        else none

def inside {α : Type} (opening close : UInt8) (part : Octets → Option (α × Octets)) (s : Octets) :
    Option (List α) :=
  match skipSpace s with
  | [] => none
  | c :: rest =>
    if c = opening then
      match skipSpace rest with
      | [] => none
      | d :: more =>
        if d = close then if (skipSpace more).isEmpty then some [] else none
        else partsOf close part rest.length rest
    else none

def elements (s : Octets) : Option (List Octets) := inside 91 93 cut s

def members (s : Octets) : Option (List (Octets × Octets)) := inside 123 125 cutMember s

/-- The text of the field of a struct: of the last member whose name is the field's but for the
case of its letters. -/
def lookup (ms : List (Octets × Octets)) (name : String) : Option Octets :=
  (ms.reverse.find? fun m => m.1.map lowerASCII == (ascii name).map lowerASCII).map Prod.snd

def fieldsOf (names : List String) (s : Octets) : Option (List (Option Octets)) :=
  (members s).map fun ms => names.map (lookup ms)

def onlyFields (names : List String) (s : Octets) : Bool :=
  (members s).any fun ms => ms.all fun m =>
    names.any fun name => m.1.map lowerASCII == (ascii name).map lowerASCII

/-- A reader that finds a value where it finds any, and finds it given `ok`. -/
def Reader.Finds {α : Type} (ok : Prop) (found : Option α) (a : α) : Prop :=
  (ok → found = some a) ∧ ∀ b, found = some b → b = a

namespace Reader

variable {α β : Type} {ok : Prop} {found : Option α} {a : α}

theorem Finds.of_eq (h : found = some a) : Finds ok found a :=
  ⟨fun _ => h, fun _ hb => Option.some.inj (hb.symm.trans h)⟩

theorem Finds.bind (h : Finds ok found a) {f : α → Option β} {b : β} (hf : Finds ok (f a) b) :
    Finds ok (found.bind f) b := by
  constructor
  · intro hok
    rw [h.1 hok, Option.bind_some, hf.1 hok]
  · intro c hc
    obtain ⟨a', ha', hc⟩ := Option.bind_eq_some_iff.mp hc
    obtain rfl := h.2 a' ha'
    exact hf.2 c hc

theorem Finds.map (h : Finds ok found a) (f : α → β) : Finds ok (found.map f) (f a) := by
  rw [Option.map_eq_bind]
  exact h.bind (of_eq rfl)

end Reader

section Reading

variable {n : Nat} {text rest : Octets} {close : UInt8}

theorem cut_append (h : Scans n text) (hrest : Delimits rest) :
    Reader.Finds (0 < n) (cut (text ++ rest)) (text, rest) := by
  have hspace : skipSpace (text ++ rest) = text ++ rest := by
    obtain ⟨c, tail, rfl, hc, -⟩ := h.starts
    rw [cons_append, hc]
  have hcut : cut (text ++ rest) =
      (afterValue (2 * (text ++ rest).length + 2) 0 (text ++ rest)).map fun rest' =>
        ((text ++ rest).take ((text ++ rest).length - rest'.length), rest') := by
    rw [cut, hspace]
  have htake : ((text ++ rest).take ((text ++ rest).length - rest.length), rest) = (text, rest) := by
    rw [length_append, Nat.add_sub_cancel, take_left]
  rw [hcut]
  constructor
  · intro hn
    rw [h.accepts (by rw [length_append]; omega) hn hrest, Option.map_some, htake]
  · intro r hr
    obtain ⟨rest', hscan, rfl⟩ := Option.map_eq_some_iff.mp hr
    rw [h.only hrest (scanned_of_afterValue hscan), htake]

theorem cutMember_member {m : String × Octets} (hname : isUTF8 (ascii m.1) = true)
    (h : Scans n m.2) (hrest : Delimits rest) :
    Reader.Finds (0 < n) (cutMember (member m ++ rest)) ((ascii m.1, m.2), rest) := by
  have hkey : cut (quote (ascii m.1) ++ 58 :: (m.2 ++ rest)) =
      some (quote (ascii m.1), 58 :: (m.2 ++ rest)) :=
    (cut_append (scans_quote 1 _) (delimits_cons (by decide) (by decide))).1 Nat.one_pos
  have htext : member m ++ rest = quote (ascii m.1) ++ 58 :: (m.2 ++ rest) := by
    rw [member, append_assoc, cons_append]
  have hmember : cutMember (member m ++ rest) =
      (cut (m.2 ++ rest)).map fun p => ((ascii m.1, p.1), p.2) := by
    simp only [cutMember, htext, hkey, unquote_quote hname, bind, Option.bind,
      skipSpace_cons (show ((58 : UInt8) == 32 || (58 : UInt8) == 9 || (58 : UInt8) == 10 ||
        (58 : UInt8) == 13) = false by decide), ↓reduceIte]
    cases cut (m.2 ++ rest) <;> rfl
  rw [hmember]
  exact (cut_append h hrest).map _

variable {α β : Type} {part : Octets → Option (β × Octets)} {write : α → Octets} {read : α → β}
  {ok : Prop}

theorem partsOf_closed (hclose : Closes close) {items : List α} (hne : items ≠ [])
    (hpart : ∀ a ∈ items, ∀ rest, Delimits rest →
      Reader.Finds ok (part (write a ++ rest)) (read a, rest))
    {fuel : Nat} (hfuel : items.length ≤ fuel) :
    Reader.Finds ok (partsOf close part fuel (closed close (items.map write)))
      (items.map read) := by
  induction items generalizing fuel with
  | nil => exact absurd rfl hne
  | cons a items ih =>
    obtain ⟨fuel, rfl⟩ : ∃ f, fuel = f + 1 := ⟨fuel - 1, by rw [length_cons] at hfuel; omega⟩
    have hdelimits : Delimits (follow close (items.map write)) := by
      simpa using delimits_follow hclose.delimits (items.map write) []
    rw [map_cons, closed, partsOf]
    refine (hpart a mem_cons_self _ hdelimits).bind ?_
    cases items with
    | nil =>
      rw [map_nil, follow, hclose.stays]
      exact Reader.Finds.of_eq (by simp [hclose.ne_comma, skipSpace])
    | cons b items =>
      have hrest := ih (by simp) (fun c hc => hpart c (mem_cons_of_mem a hc))
        (Nat.le_of_succ_le_succ hfuel)
      rw [map_cons, closed] at hrest
      rw [map_cons, follow, skipSpace_cons (by decide)]
      exact hrest.map (read a :: ·)

theorem length_le_follow (parts : List Octets) :
    parts.length + 1 ≤ (follow close parts).length := by
  induction parts with
  | nil => simp [follow]
  | cons p parts ih =>
    rw [follow, length_cons, length_cons, length_append]
    omega

theorem inside_closed (hclose : Closes close) {opening : UInt8}
    (hopening : ∀ rest, skipSpace (opening :: rest) = opening :: rest) {items : List α}
    (hstart : ∀ a ∈ items, ∃ c tail, write a = c :: tail ∧
      (∀ rest, skipSpace (c :: rest) = c :: rest) ∧ c ≠ close)
    (hpart : ∀ a ∈ items, ∀ rest, Delimits rest →
      Reader.Finds ok (part (write a ++ rest)) (read a, rest)) :
    Reader.Finds ok (inside opening close part (opening :: closed close (items.map write)))
      (items.map read) := by
  rw [inside, hopening]
  dsimp only
  rw [if_pos rfl]
  cases items with
  | nil =>
    rw [map_nil, closed, hclose.stays]
    exact Reader.Finds.of_eq (by simp [skipSpace])
  | cons a items =>
    obtain ⟨c, tail, hc, hspace, hne⟩ := hstart a mem_cons_self
    have hcut : closed close ((a :: items).map write) =
        c :: (tail ++ follow close (items.map write)) := by
      rw [map_cons, closed, hc, cons_append]
    have hlen : (a :: items).length ≤ (closed close ((a :: items).map write)).length := by
      have := @length_le_follow close (items.map write)
      rw [map_cons, closed, length_append, length_cons]
      rw [length_map] at this
      omega
    have hparts := partsOf_closed hclose (cons_ne_nil a items) hpart hlen
    rw [hcut] at hparts ⊢
    rw [hspace]
    dsimp only
    rw [if_neg hne]
    exact hparts

theorem elements_array {parts : List Octets} (h : ∀ p ∈ parts, Scans n p) :
    Reader.Finds (0 < n) (elements (array parts)) parts := by
  have hread := @inside_closed 93 Octets Octets cut id id (0 < n) (closes_closing false) 91
    (skipSpace_cons (by decide)) parts (fun p hp => (h p hp).starts)
    (fun p hp rest hrest => cut_append (h p hp) hrest)
  rwa [map_id] at hread

/-- Names that can be told apart as the names of fields. -/
structure FieldNames (names : List String) : Prop where
  utf8 : ∀ name ∈ names, isUTF8 (ascii name) = true
  distinct : (names.map fun name => (ascii name).map lowerASCII).Nodup

instance (names : List String) : Decidable (FieldNames names) :=
  decidable_of_iff ((∀ name ∈ names, isUTF8 (ascii name) = true) ∧
      (names.map fun name => (ascii name).map lowerASCII).Nodup)
    ⟨fun h => ⟨h.1, h.2⟩, fun h => ⟨h.utf8, h.distinct⟩⟩

variable {names : List String} {texts : List (Option Octets)}

theorem members_object (hnames : FieldNames names) (h : ∀ t ∈ texts, ∀ x ∈ t, Scans n x) :
    Reader.Finds (0 < n) (members (object names texts))
      ((present names texts).map fun f => (ascii f.1, f.2)) := by
  have hfield : ∀ f ∈ present names texts, isUTF8 (ascii f.1) = true ∧ Scans n f.2 := by
    intro f hf
    obtain ⟨hname, t, ht, hx⟩ := of_mem_present hf
    exact ⟨hnames.utf8 f.1 hname, h t ht f.2 hx⟩
  exact inside_closed (closes_closing true) (skipSpace_cons (by decide))
    (fun f _ => ⟨34, _, rfl, skipSpace_cons (by decide), by decide⟩)
    (fun f hf rest hrest => cutMember_member (hfield f hf).1 (hfield f hf).2 hrest)

theorem onlyFields_object (hnames : FieldNames names) (h : ∀ t ∈ texts, ∀ x ∈ t, Scans n x)
    (hn : 0 < n) : onlyFields names (object names texts) = true := by
  rw [onlyFields, (members_object hnames h).1 hn, Option.any_some, all_map, all_eq_true]
  intro f hf
  exact any_eq_true.mpr ⟨f.1, (of_mem_present hf).1, beq_self_eq_true _⟩

variable {f : String × Option Octets}

theorem eq_of_mem_zip (hnames : FieldNames names) (hlen : names.length = texts.length)
    {g : String × Option Octets} (hf : f ∈ names.zip texts) (hg : g ∈ names.zip texts)
    (heq : (ascii f.1).map lowerASCII = (ascii g.1).map lowerASCII) : f = g := by
  have hnodup := hnames.distinct
  have hfst : (names.zip texts).map Prod.fst = names := map_fst_zip (by omega)
  rw [← hfst, map_map] at hnodup
  exact inj_on_of_nodup_map hnodup hf hg heq

theorem lookup_present (hnames : FieldNames names) (hlen : names.length = texts.length)
    (hf : f ∈ names.zip texts) :
    lookup ((present names texts).map fun f => (ascii f.1, f.2)) f.1 = f.2 := by
  have hmem {m : Octets × Octets}
      (hm : m ∈ (present names texts).map fun f => (ascii f.1, f.2))
      (heq : m.1.map lowerASCII = (ascii f.1).map lowerASCII) : f.2 = some m.2 := by
    obtain ⟨g, hg, rfl⟩ := mem_map.mp hm
    obtain ⟨⟨name, text⟩, hzip, hg⟩ := mem_filterMap.mp hg
    obtain ⟨x, hx, rfl⟩ := Option.map_eq_some_iff.mp hg
    rw [eq_of_mem_zip hnames hlen hf hzip heq.symm]
    exact hx
  rw [lookup]
  cases hfind : find? _ _ with
  | some m =>
    have hm := mem_reverse.mp (mem_of_find?_eq_some hfind)
    have heq := find?_some hfind
    rw [hmem hm (by simpa using heq)]
    rfl
  | none =>
    cases htext : f.2 with
    | none => rfl
    | some x =>
      have hx : (f.1, x) ∈ present names texts :=
        mem_filterMap.mpr ⟨f, hf, by rw [htext]; rfl⟩
      have hno := find?_eq_none.mp hfind (ascii f.1, x)
        (mem_reverse.mpr (mem_map.mpr ⟨_, hx, rfl⟩))
      simp at hno

theorem fieldsOf_object (hnames : FieldNames names) (hlen : names.length = texts.length)
    (h : ∀ t ∈ texts, ∀ x ∈ t, Scans n x) :
    Reader.Finds (0 < n) (fieldsOf names (object names texts)) texts := by
  have hfound := (members_object hnames h).map fun ms => names.map (lookup ms)
  have hfield := fun f hf => @lookup_present names texts f hnames hlen hf
  generalize (present names texts).map (fun f => (ascii f.1, f.2)) = ms at *
  have hfst : (names.zip texts).map Prod.fst = names := map_fst_zip (by omega)
  have hsnd : (names.zip texts).map Prod.snd = texts := map_snd_zip (by omega)
  have htexts : names.map (lookup ms) = texts :=
    calc names.map (lookup ms) = ((names.zip texts).map Prod.fst).map (lookup ms) := by rw [hfst]
      _ = (names.zip texts).map fun f => lookup ms f.1 := map_map
      _ = (names.zip texts).map Prod.snd := map_congr_left hfield
      _ = texts := hsnd
  rwa [htexts] at hfound

end Reading

end Wegweiser.Json
