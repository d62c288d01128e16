/-
Formats: how the values of a type are written as JSON and read from it, put together from the
formats of their parts.

A format is only the two directions.
-/
import Wegweiser.Json.Compact
import Wegweiser.Json.Unicode
import Wegweiser.Lib.Base64
import Wegweiser.Lib.Calendar

namespace Wegweiser.Json

open List Option

/-- Both directions of `encoding/json` for a type; some values cannot be written. -/
structure Format (α : Type) where
  write : α → Option Octets
  read : Octets → Option α

/-- A field of a struct: what it is written as, where it is written at all, and what it is given
the text of the member with its name, where there is one. -/
structure Field (α : Type) where
  put : α → Option (Option Octets)
  get : Option Octets → Option α

/-- The fields of a struct in their order. -/
structure Fields (α : Type) where
  names : List String
  put : α → Option (List (Option Octets))
  get : List (Option Octets) → Option α

def null : Octets := ascii "null"

namespace Format

variable {α β : Type}

def string : Format Octets where
  write s := some (quote s)
  read := unquote

/-- A type written as another, with `MarshalText` and `UnmarshalText` say. -/
def via (f : Format β) (out : α → β) (back : β → Option α) : Format α where
  write a := f.write (out a)
  read s := (f.read s).bind back

def text : Format String := string.via octetsOf fun s => some (textOf s)

def bool : Format Bool where
  write b := some (if b then ascii "true" else ascii "false")
  read s := if s = ascii "true" then some true else if s = ascii "false" then some false else none

def uint (bits : Nat) : Format Nat where
  write n := some (decimal n)
  read := parseUint bits

def int (bits : Nat) : Format Int where
  write v := some (if v < 0 then 45 :: decimal v.natAbs else decimal v.toNat)
  read s :=
    match s with
    | [] => none
    | c :: rest =>
      if c = 45 then
        (parseUint bits rest).bind fun n => if n ≤ 2 ^ (bits - 1) then some (-(n : Int)) else none
      else (parseUint (bits - 1) s).map Int.ofNat

/-- `time.Time`, in UTC. -/
def time : Format Nat where
  write t := (Calendar.format t).map fun text => 34 :: (text ++ [34])
  read s :=
    match s with
    | [] => none
    | c :: rest =>
      if c = 34 && rest.getLast? == some 34 then Calendar.parse rest.dropLast else none

/-- `[]byte` that is not nil; the decoder passes over line ends. -/
def bytes : Format Octets where
  write b := some (quote (Base64.encode b))
  read s := (unquote s).bind fun text => Base64.decode (text.filter fun c => c != 10 && c != 13)

/-- `json.RawMessage` -/
def raw : Format Octets where
  write v := if valid v then some (compact v) else none
  read s := some s

def list (f : Format α) : Format (List α) where
  write l := (l.mapM f.write).map array
  read s := (elements s).bind fun parts => parts.mapM f.read

def struct (fs : Fields β) (out : α → β) (back : β → α) : Format α where
  write a := (fs.put (out a)).map (object fs.names)
  read s := (fieldsOf fs.names s).bind fun texts => (fs.get texts).map back

/-- A struct read with `DisallowUnknownFields`. -/
def strict (fs : Fields β) (out : α → β) (back : β → α) : Format α where
  write := (struct fs out back).write
  read s := if onlyFields fs.names s then (struct fs out back).read s else none

end Format

namespace Field

variable {α : Type}

/-- What a field is given: its zero value without a text and for `null`. -/
def orZero (zero : α) (read : Octets → Option α) : Option Octets → Option α
  | none => some zero
  | some text => if text = null then some zero else read text

def always (f : Format α) (zero : α) : Field α where
  put a := (f.write a).map some
  get := orZero zero f.read

def required (f : Format α) : Field α where
  put a := (f.write a).map some
  get text := text.bind f.read

/-- A field left out when it is empty: `omitempty` and `omitzero`. -/
def omitting [DecidableEq α] (f : Format α) (zero : α) : Field α where
  put a := if a = zero then some none else (f.write a).map some
  get := orZero zero f.read

def pointer (f : Format α) : Field (Option α) where
  put
    | none => some none
    | some a => (f.write a).map some
  get := orZero none fun text => (f.read text).map some

/-- A slice that is written as `null` when it is nil. -/
def slice [DecidableEq α] (f : Format (List α)) : Field (List α) where
  put l := if l = [] then some (some null) else (f.write l).map some
  get := orZero [] f.read

/-- `json.RawMessage`, which keeps a `null`. -/
def raw : Field Octets where
  put v := (Format.raw.write v).map some
  get text := some (text.getD [])

end Field

open Json.Field

namespace Fields

variable {α β : Type}

def nil : Fields Unit where
  names := []
  put _ := some []
  get
    | [] => some ()
    | _ :: _ => none

def cons (name : String) (f : Field α) (fs : Fields β) : Fields (α × β) where
  names := name :: fs.names
  put a := (f.put a.1).bind fun text => (fs.put a.2).map (text :: ·)
  get
    | [] => none
    | text :: texts => (f.get text).bind fun a => (fs.get texts).map (a, ·)

end Fields

/-- What the format writes for such values is one value above `n` levels of nesting, and never
`null`. -/
def Format.Writes {α : Type} (f : Format α) (n : Nat) (D : α → Prop) : Prop :=
  ∀ a t, D a → f.write a = some t → Scans n t ∧ t ≠ null

def Format.Reads {α : Type} (f : Format α) (Ok : α → Prop) : Prop :=
  ∀ a t, Ok a → f.write a = some t → f.read t = some a

/-- `Format.Writes` for a field. -/
def Field.Writes {α : Type} (f : Field α) (n : Nat) (D : α → Prop) : Prop :=
  ∀ a t, D a → f.put a = some t → ∀ x ∈ t, Scans n x

/-- `Format.Reads` for a field. -/
def Field.Reads {α : Type} (f : Field α) (Ok : α → Prop) : Prop :=
  ∀ a t, Ok a → f.put a = some t → f.get t = some a

/-- `Format.Writes` for all the fields of a struct. -/
def Fields.Writes {α : Type} (fs : Fields α) (n : Nat) (D : α → Prop) : Prop :=
  ∀ a ts, D a → fs.put a = some ts → fs.names.length = ts.length ∧ ∀ t ∈ ts, ∀ x ∈ t, Scans n x

/-- `Format.Reads` for all the fields of a struct. -/
def Fields.Reads {α : Type} (fs : Fields α) (Ok : α → Prop) : Prop :=
  ∀ a ts, Ok a → fs.put a = some ts → fs.get ts = some a

section Laws

variable {α β : Type} {f : Format α} {g : Format β} {fs : Fields β} {n m : Nat}
  {D Ok : α → Prop} {D' Ok' : β → Prop}

theorem Format.Writes.mono (h : f.Writes n D) {D₂ : α → Prop} (hD : ∀ a, D₂ a → D a) :
    f.Writes n D₂ := fun a t ha => h a t (hD a ha)

theorem Format.Writes.below (h : f.Writes m D) (hle : n ≤ m) : f.Writes n D :=
  fun a t ha ht => ⟨(h a t ha ht).1.mono hle, (h a t ha ht).2⟩

theorem Format.Reads.mono (h : f.Reads Ok) {Ok₂ : α → Prop} (hOk : ∀ a, Ok₂ a → Ok a) :
    f.Reads Ok₂ := fun a t ha => h a t (hOk a ha)

theorem ne_null_of_head {c : UInt8} {rest : Octets} (hc : c ≠ 110) : c :: rest ≠ null := by
  have hnull : null = 110 :: ascii "ull" := by decide
  rw [hnull]
  exact fun h => hc (cons.inj h).1

theorem Format.string_writes (n : Nat) : Format.string.Writes n fun _ => True := by
  rintro s t - h
  obtain rfl := some.inj h
  exact ⟨scans_quote n s, ne_null_of_head (by decide)⟩

theorem Format.string_reads : Format.string.Reads fun s => isUTF8 s = true := by
  rintro s t hs h
  obtain rfl := some.inj h
  exact unquote_quote hs

theorem Format.Writes.via (h : g.Writes n D') (out : α → β) (back : β → Option α) :
    (g.via out back).Writes n fun a => D' (out a) := fun a t ha => h (out a) t ha

theorem Format.Reads.via (h : g.Reads Ok') (out : α → β) (back : β → Option α)
    (hback : ∀ a, Ok a → Ok' (out a) ∧ back (out a) = some a) : (g.via out back).Reads Ok := by
  intro a t ha ht
  calc (g.via out back).read t = (g.read t).bind back := rfl
    _ = back (out a) := by rw [h (out a) t (hback a ha).1 ht, bind_some]
    _ = some a := (hback a ha).2

theorem Format.text_reads : Format.text.Reads fun _ => True :=
  Format.string_reads.via octetsOf _ fun s _ => ⟨isUTF8_octetsOf s, by rw [textOf_octetsOf]⟩

theorem Format.bool_writes (n : Nat) : Format.bool.Writes n fun _ => True := by
  rintro b t - h
  obtain rfl := some.inj h
  cases b with
  | true => exact ⟨scans_word (by simp [words]) n, by decide⟩
  | false => exact ⟨scans_word (by simp [words]) n, by decide⟩

theorem Format.bool_reads : Format.bool.Reads fun _ => True := by
  rintro b t - h
  obtain rfl := some.inj h
  cases b <;> decide

theorem decimal_ne_null (v : Nat) : decimal v ≠ null := by
  cases hv : decimal v with
  | nil => exact absurd hv (decimal_ne_nil v)
  | cons c rest =>
    refine ne_null_of_head ?_
    rintro rfl
    exact absurd (isDigit_of_mem_decimal (hv ▸ mem_cons_self)) (by decide)

theorem Format.uint_writes (bits n : Nat) : (Format.uint bits).Writes n fun _ => True := by
  rintro v t - h
  obtain rfl := some.inj h
  exact ⟨scans_decimal n v, decimal_ne_null v⟩

theorem Format.uint_reads (bits : Nat) : (Format.uint bits).Reads fun v => v < 2 ^ bits := by
  rintro v t hv h
  obtain rfl := some.inj h
  exact parseUint_decimal hv

theorem Format.int_writes (bits n : Nat) : (Format.int bits).Writes n fun _ => True := by
  rintro v t - h
  obtain rfl := some.inj h
  split
  · exact ⟨scans_negative n _, ne_null_of_head (by decide)⟩
  · exact ⟨scans_decimal n _, decimal_ne_null _⟩

theorem Format.int_reads (bits : Nat) :
    (Format.int (bits + 1)).Reads fun v => -2 ^ bits ≤ v ∧ v < 2 ^ bits := by
  rintro v t ⟨hlow, hhigh⟩ h
  obtain rfl := some.inj h
  have hpow : ((2 ^ bits : Nat) : Int) = 2 ^ bits := by push_cast; rfl
  have hdouble : 2 ^ (bits + 1) = 2 * 2 ^ bits := Nat.pow_succ'
  have hpos : 0 < 2 ^ bits := Nat.two_pow_pos bits
  by_cases hv : v < 0
  · have habs : v.natAbs ≤ 2 ^ bits := by omega
    have hread : parseUint (bits + 1) (decimal v.natAbs) = some v.natAbs :=
      parseUint_decimal (by omega)
    rw [if_pos hv, Format.int]
    dsimp only
    rw [if_pos rfl, hread, bind_some, Nat.add_sub_cancel, if_pos habs]
    congr 1
    omega
  · have hread : parseUint bits (decimal v.toNat) = some v.toNat := parseUint_decimal (by omega)
    rw [if_neg hv, Format.int]
    cases hdigits : decimal v.toNat with
    | nil => exact absurd hdigits (decimal_ne_nil _)
    | cons c rest =>
      have hc : c ≠ 45 := by
        rintro rfl
        exact absurd (isDigit_of_mem_decimal (hdigits ▸ mem_cons_self)) (by decide)
      dsimp only
      rw [if_neg hc, Nat.add_sub_cancel, ← hdigits, hread, map_some]
      congr 1
      exact Int.toNat_of_nonneg (by omega)

theorem Format.bytes_writes (n : Nat) : Format.bytes.Writes n fun _ => True := by
  rintro b t - h
  obtain rfl := some.inj h
  exact ⟨scans_quote n _, ne_null_of_head (by decide)⟩

theorem Format.bytes_reads : Format.bytes.Reads fun _ => True := by
  rintro b t - h
  obtain rfl := some.inj h
  have hkeep : (Base64.encode b).filter (fun c => c != 10 && c != 13) = Base64.encode b := by
    refine filter_eq_self.mpr fun c hc => ?_
    have hc := (Base64.encode_printable b c hc).1
    simp only [Bool.and_eq_true, bne_iff_ne]
    constructor <;> rintro rfl <;> exact absurd hc (by decide)
  have hread : unquote (quote (Base64.encode b)) = some (Base64.encode b) :=
    unquote_quote (isUTF8_of_low fun c hc => (Base64.encode_printable b c hc).2)
  calc Format.bytes.read (quote (Base64.encode b))
      = (unquote (quote (Base64.encode b))).bind fun text =>
          Base64.decode (text.filter fun c => c != 10 && c != 13) := rfl
    _ = some b := by rw [hread, bind_some, hkeep, Base64.decode_encode]

theorem quoteFrom_format {t : Nat} {text : Octets} (h : Calendar.format t = some text) :
    quoteFrom 0 0 text = text := by
  have hplain := Calendar.format_plain h
  clear h
  induction text with
  | nil => rfl
  | cons c rest ih =>
    have hc : c < 128 ∧ escapeOctet c = [c] := by
      rcases hplain c mem_cons_self with hc | hc
      · have hall : ∀ k : Fin 10, UInt8.ofNat (48 + k) < 128 ∧
            escapeOctet (UInt8.ofNat (48 + k)) = [UInt8.ofNat (48 + k)] := by decide
        simp only [Calendar.isDigit, Bool.and_eq_true, decide_eq_true_eq,
          UInt8.le_iff_toNat_le] at hc
        have hlow : 48 ≤ c.toNat := hc.1
        have hhigh : c.toNat ≤ 57 := hc.2
        have hk := hall ⟨c.toNat - 48, by omega⟩
        have heq : 48 + (c.toNat - 48) = c.toNat := by omega
        simpa only [heq, UInt8.ofNat_toNat] using hk
      · have hall : ∀ c ∈ ([45, 84, 58, 46, 90] : List UInt8), c < 128 ∧ escapeOctet c = [c] := by
          decide +kernel
        exact hall c hc
    rw [quoteFrom]
    simp only [hc, ↓reduceIte]
    rw [ih fun d hd => hplain d (mem_cons_of_mem c hd), singleton_append]

theorem Format.time_writes (n : Nat) : Format.time.Writes n fun _ => True := by
  rintro t x - h
  obtain ⟨text, htext, rfl⟩ := map_eq_some_iff.mp h
  refine ⟨?_, ne_null_of_head (by decide)⟩
  have hquote : (34 :: (text ++ [34]) : Octets) = quote text := by
    rw [quote, quoteFrom_format htext]
  rw [hquote]
  exact scans_quote n text

theorem Format.time_reads : Format.time.Reads fun _ => True := by
  rintro t x - h
  obtain ⟨text, htext, rfl⟩ := map_eq_some_iff.mp h
  have hlast : (text ++ [(34 : UInt8)]).getLast? = some 34 := getLast?_concat
  simp only [Format.time, hlast, beq_self_eq_true, decide_true, Bool.and_self, ↓reduceIte,
    dropLast_concat]
  exact Calendar.parse_format htext

variable {t : Octets} {name : String}

theorem Format.raw_write_eq {v : Octets} (h : Format.raw.write v = some t) :
    valid v = true ∧ t = compact v := by
  have hif : (if valid v then some (compact v) else none) = some t := h
  split at hif
  · next hv => exact ⟨hv, (some.inj hif).symm⟩
  · cases hif

theorem mapM_cons_eq_some {write : α → Option β} {a : α} {l : List α} {r : List β} :
    (a :: l).mapM write = some r ↔
      ∃ b r', write a = some b ∧ l.mapM write = some r' ∧ r = b :: r' := by
  simp only [mapM_cons, Option.bind_eq_bind, Option.bind_eq_some_iff, Option.pure_def,
    Option.some.injEq]
  constructor
  · rintro ⟨b, hb, r', hr', rfl⟩
    exact ⟨b, r', hb, hr', rfl⟩
  · rintro ⟨b, r', hb, hr', rfl⟩
    exact ⟨b, hb, r', hr', rfl⟩

theorem exists_of_mem_mapM {write : α → Option β} {l : List α} {r : List β}
    (h : l.mapM write = some r) {b : β} (hb : b ∈ r) : ∃ a ∈ l, write a = some b := by
  induction l generalizing r with
  | nil =>
    obtain rfl := some.inj h
    cases hb
  | cons a l ih =>
    obtain ⟨b', r', hb', hr', rfl⟩ := mapM_cons_eq_some.mp h
    rcases mem_cons.mp hb with rfl | hb
    · exact ⟨a, mem_cons_self, hb'⟩
    · obtain ⟨a', ha', hwrite⟩ := ih hr' hb
      exact ⟨a', mem_cons_of_mem a ha', hwrite⟩

theorem mapM_read {write : α → Option β} {read : β → Option α} {l : List α} {r : List β}
    (h : l.mapM write = some r) (hread : ∀ a ∈ l, ∀ b, write a = some b → read b = some a) :
    r.mapM read = some l := by
  induction l generalizing r with
  | nil =>
    obtain rfl := some.inj h
    rfl
  | cons a l ih =>
    obtain ⟨b, r', hb, hr', rfl⟩ := mapM_cons_eq_some.mp h
    have hrest := ih hr' fun a' ha' => hread a' (mem_cons_of_mem a ha')
    exact mapM_cons_eq_some.mpr ⟨a, l, hread a mem_cons_self b hb, hrest, rfl⟩

theorem Format.Writes.list (h : f.Writes m D) (hn : n ≤ maxNestingDepth) (hm : n ≤ m - 1) :
    f.list.Writes n fun l => ∀ a ∈ l, D a := by
  intro l t hl ht
  obtain ⟨parts, hparts, rfl⟩ := map_eq_some_iff.mp ht
  refine ⟨scans_array hn hm fun p hp => ?_, ne_null_of_head (by decide)⟩
  obtain ⟨a, ha, hwrite⟩ := exists_of_mem_mapM hparts hp
  exact (h a p (hl a ha) hwrite).1

theorem Format.Reads.list (hw : f.Writes (m + 1) D) (h : f.Reads Ok) :
    f.list.Reads fun l => ∀ a ∈ l, D a ∧ Ok a := by
  intro l t hl ht
  obtain ⟨parts, hparts, rfl⟩ := map_eq_some_iff.mp ht
  have helements : elements (array parts) = some parts := by
    refine (@elements_array (m + 1) _ fun p hp => ?_).1 m.succ_pos
    obtain ⟨a, ha, hwrite⟩ := exists_of_mem_mapM hparts hp
    exact (hw a p (hl a ha).1 hwrite).1
  calc f.list.read (array parts) = (elements (array parts)).bind fun parts => parts.mapM f.read := rfl
    _ = parts.mapM f.read := by rw [helements, bind_some]
    _ = some l := mapM_read hparts fun a ha t ht => h a t (hl a ha).2 ht

theorem orZero_of_ne {zero : α} {read : Octets → Option α} (h : t ≠ null) :
    orZero zero read (some t) = read t := if_neg h

theorem mem_of_map_some {w : Option Octets} {t : Option Octets} {x : Octets}
    (h : w.map some = some t) (hx : x ∈ t) : w = some x := by
  obtain ⟨y, rfl, rfl⟩ := map_eq_some_iff.mp h
  exact hx

theorem Field.writes_of {field : Field α}
    (hput : ∀ a t x, field.put a = some t → x ∈ t → f.write a = some x) (h : f.Writes n D) :
    field.Writes n D := fun a t ha ht x hx => (h a x ha (hput a t x ht hx)).1

theorem Field.always_writes (h : f.Writes n D) (zero : α) : (Field.always f zero).Writes n D :=
  writes_of (fun _ _ _ => mem_of_map_some) h

theorem Field.always_reads (hw : f.Writes n D) (h : f.Reads Ok) (zero : α) :
    (always f zero).Reads fun a => D a ∧ Ok a := by
  intro a t ha hput
  obtain ⟨y, hy, rfl⟩ := map_eq_some_iff.mp hput
  exact (orZero_of_ne (hw a y ha.1 hy).2).trans (h a y ha.2 hy)

theorem Field.required_writes (h : f.Writes n D) : (Field.required f).Writes n D :=
  writes_of (fun _ _ _ => mem_of_map_some) h

theorem Field.required_reads (h : f.Reads Ok) : (Field.required f).Reads Ok := by
  intro a t ha hput
  obtain ⟨y, hy, rfl⟩ := map_eq_some_iff.mp hput
  exact h a y ha hy

theorem Field.omitting_put [DecidableEq α] {zero a : α} {t : Option Octets}
    (h : (omitting f zero).put a = some t) :
    (a = zero ∧ t = none) ∨ (f.write a).map some = some t := by
  rw [omitting] at h
  dsimp only at h
  split at h
  · next hzero => exact .inl ⟨hzero, (some.inj h).symm⟩
  · exact .inr h

theorem Field.omitting_writes [DecidableEq α] (h : f.Writes n D) (zero : α) :
    (omitting f zero).Writes n D := by
  refine writes_of (fun a t x hput hx => ?_) h
  obtain ⟨-, rfl⟩ | hput := omitting_put hput
  · cases hx
  · exact mem_of_map_some hput hx

theorem Field.omitting_reads [DecidableEq α] (hw : f.Writes n D) (h : f.Reads Ok) (zero : α) :
    (omitting f zero).Reads fun a => D a ∧ Ok a := by
  intro a t ha hput
  obtain ⟨rfl, rfl⟩ | hput := omitting_put hput
  · rfl
  · exact always_reads hw h zero a t ha hput

theorem Field.pointer_writes (h : f.Writes n D) :
    (pointer f).Writes n fun a => ∀ x ∈ a, D x := by
  intro a t ha hput x hx
  cases a with
  | none =>
    obtain rfl := some.inj hput
    cases hx
  | some a =>
    obtain ⟨y, hy, rfl⟩ := map_eq_some_iff.mp hput
    obtain rfl := some.inj hx
    exact (h a y (ha a rfl) hy).1

theorem Field.pointer_reads (hw : f.Writes n D) (h : f.Reads Ok) :
    (pointer f).Reads fun a => ∀ x ∈ a, D x ∧ Ok x := by
  intro a t ha hput
  cases a with
  | none =>
    obtain rfl := some.inj hput
    rfl
  | some a =>
    obtain ⟨y, hy, rfl⟩ := map_eq_some_iff.mp hput
    have hread : (pointer f).get (some y) = (f.read y).map some :=
      @orZero_of_ne _ y none (fun text => (f.read text).map some) (hw a y (ha a rfl).1 hy).2
    rw [hread, h a y (ha a rfl).2 hy, map_some]

theorem Field.slice_put [DecidableEq α] {f : Format (List α)} {l : List α} {t : Option Octets}
    (h : (slice f).put l = some t) :
    (l = [] ∧ t = some null) ∨ (f.write l).map some = some t := by
  rw [slice] at h
  dsimp only at h
  split at h
  · next hnil => exact .inl ⟨hnil, (some.inj h).symm⟩
  · exact .inr h

theorem Field.slice_writes [DecidableEq α] {f : Format (List α)} {D : List α → Prop}
    (h : f.Writes n D) : (slice f).Writes n D := by
  intro l t hl hput x hx
  obtain ⟨-, rfl⟩ | hput := slice_put hput
  · obtain rfl := some.inj hx
    exact scans_word (by simp [null, words]) n
  · exact (h l x hl (mem_of_map_some hput hx)).1

theorem Field.slice_reads [DecidableEq α] {f : Format (List α)} {D Ok : List α → Prop}
    (hw : f.Writes n D) (h : f.Reads Ok) : (slice f).Reads fun l => D l ∧ Ok l := by
  intro l t hl hput
  obtain ⟨rfl, rfl⟩ | hput := slice_put hput
  · rfl
  · exact always_reads hw h [] l t hl hput

theorem Field.raw_writes (depth : Nat) :
    raw.Writes (depth + 1) fun v => validAt depth v = true := by
  intro v t hv hput x hx
  obtain ⟨y, hy, rfl⟩ := map_eq_some_iff.mp hput
  obtain rfl := some.inj hx
  rw [(Format.raw_write_eq hy).2]
  exact scans_compact hv

theorem Field.raw_writes_one : Field.raw.Writes 1 fun _ => True := by
  intro v t _ hput
  obtain ⟨y, hy, rfl⟩ := map_eq_some_iff.mp hput
  exact raw_writes 0 v _ (Format.raw_write_eq hy).1 hput

theorem Field.raw_reads : Field.raw.Reads fun v => compact v = v := by
  intro v t hv hput
  obtain ⟨y, hy, rfl⟩ := map_eq_some_iff.mp hput
  rw [(Format.raw_write_eq hy).2, hv]
  rfl

theorem Fields.nil_writes (n : Nat) : Fields.nil.Writes n fun _ => True := by
  rintro a ts - h
  obtain rfl := some.inj h
  exact ⟨rfl, fun t ht => nomatch ht⟩

theorem Fields.nil_reads : Fields.nil.Reads fun _ => True := by
  rintro a ts - h
  obtain rfl := some.inj h
  rfl

variable {field : Field α}

theorem Fields.Writes.cons (h : field.Writes n D) (hs : fs.Writes n D') :
    (Fields.cons name field fs).Writes n fun a => D a.1 ∧ D' a.2 := by
  intro a ts ha hput
  obtain ⟨t, ht, hput⟩ := bind_eq_some_iff.mp hput
  obtain ⟨rest, hrest, rfl⟩ := map_eq_some_iff.mp hput
  obtain ⟨hlen, hscans⟩ := hs a.2 rest ha.2 hrest
  refine ⟨congrArg (· + 1) hlen, fun t' ht' => ?_⟩
  rcases mem_cons.mp ht' with rfl | ht'
  · exact h a.1 _ ha.1 ht
  · exact hscans t' ht'

theorem Fields.Reads.cons (h : field.Reads Ok) (hs : fs.Reads Ok') :
    (Fields.cons name field fs).Reads fun a => Ok a.1 ∧ Ok' a.2 := by
  intro a ts ha hput
  obtain ⟨t, ht, hput⟩ := bind_eq_some_iff.mp hput
  obtain ⟨rest, hrest, rfl⟩ := map_eq_some_iff.mp hput
  calc (Fields.cons name field fs).get (t :: rest)
      = (field.get t).bind fun a => (fs.get rest).map (a, ·) := rfl
    _ = some a := by rw [h a.1 t ha.1 ht, bind_some, hs a.2 rest ha.2 hrest]; rfl

theorem Fields.first_of_get (h : field.Reads Ok) {a b : α × β}
    {ts : List (Option Octets)} (ha : Ok a.1) (hput : (Fields.cons name field fs).put a = some ts)
    (hget : (Fields.cons name field fs).get ts = some b) : b.1 = a.1 := by
  obtain ⟨t, ht, hput⟩ := bind_eq_some_iff.mp hput
  obtain ⟨rest, -, rfl⟩ := map_eq_some_iff.mp hput
  obtain ⟨first, hfirst, hget⟩ := bind_eq_some_iff.mp hget
  obtain ⟨others, -, rfl⟩ := map_eq_some_iff.mp hget
  exact some.inj (hfirst.symm.trans (h a.1 t ha ht))

theorem Fields.Writes.mono (h : fs.Writes n D') {D₂ : β → Prop} (hD : ∀ a, D₂ a → D' a) :
    fs.Writes n D₂ := fun a ts ha => h a ts (hD a ha)

theorem Fields.Reads.mono (h : fs.Reads Ok') {Ok₂ : β → Prop} (hOk : ∀ a, Ok₂ a → Ok' a) :
    fs.Reads Ok₂ := fun a ts ha => h a ts (hOk a ha)

theorem Format.struct_writes (h : fs.Writes m D') (hn : n ≤ maxNestingDepth) (hm : n ≤ m - 1)
    (out : α → β) (back : β → α) : (Format.struct fs out back).Writes n fun a => D' (out a) := by
  intro a t ha ht
  obtain ⟨texts, htexts, rfl⟩ := map_eq_some_iff.mp ht
  exact ⟨scans_object hn hm (h (out a) texts ha htexts).2, ne_null_of_head (by decide)⟩

theorem Format.struct_reads (hnames : FieldNames fs.names) (hw : fs.Writes (m + 1) D')
    (h : fs.Reads Ok') {out : α → β} {back : β → α} {a : α} (hback : back (out a) = a) (t : Octets)
    (hD : D' (out a)) (hOk : Ok' (out a)) (ht : (Format.struct fs out back).write a = some t) :
    (Format.struct fs out back).read t = some a := by
  obtain ⟨texts, htexts, rfl⟩ := map_eq_some_iff.mp ht
  obtain ⟨hlen, hscans⟩ := hw (out a) texts hD htexts
  calc (Format.struct fs out back).read (object fs.names texts)
      = (fieldsOf fs.names (object fs.names texts)).bind fun texts =>
          (fs.get texts).map back := rfl
    _ = (fs.get texts).map back := by
        rw [(fieldsOf_object hnames hlen hscans).1 m.succ_pos, bind_some]
    _ = some a := by rw [h (out a) texts hOk htexts, map_some, hback]

theorem Format.strict_reads (hnames : FieldNames fs.names) (hw : fs.Writes (m + 1) D')
    (h : fs.Reads Ok') {out : α → β} {back : β → α} {a : α} (hback : back (out a) = a) (t : Octets)
    (hD : D' (out a)) (hOk : Ok' (out a)) (ht : (Format.strict fs out back).write a = some t) :
    (Format.strict fs out back).read t = some a := by
  have hread := Format.struct_reads hnames hw h hback t hD hOk ht
  obtain ⟨texts, htexts, rfl⟩ := map_eq_some_iff.mp ht
  have honly := onlyFields_object hnames (hw (out a) texts hD htexts).2 m.succ_pos
  exact (if_pos honly).trans hread

theorem Format.fields_of_read (hnames : FieldNames fs.names) (hw : fs.Writes n D')
    {out : α → β} {back : β → α} {a a' : α} (hD : D' (out a))
    (ht : (Format.struct fs out back).write a = some t)
    (hr : (Format.struct fs out back).read t = some a') :
    ∃ texts b, fs.put (out a) = some texts ∧ fs.get texts = some b ∧ a' = back b := by
  obtain ⟨texts, htexts, rfl⟩ := map_eq_some_iff.mp ht
  obtain ⟨hlen, hscans⟩ := hw (out a) texts hD htexts
  obtain ⟨texts', hfound, hget⟩ := bind_eq_some_iff.mp hr
  obtain rfl := (fieldsOf_object hnames hlen hscans).2 texts' hfound
  obtain ⟨b, hb, rfl⟩ := map_eq_some_iff.mp hget
  exact ⟨texts', b, htexts, hb, rfl⟩

/-- A format that writes every value it writes as one above `n` levels, and reads those that are
`Ok`. -/
structure Format.Good (f : Format α) (n : Nat) (Ok : α → Prop) : Prop where
  writes : f.Writes n fun _ => True
  reads : f.Reads Ok

/-- `Format.Good` for a field. -/
structure Field.Good (f : Field α) (n : Nat) (Ok : α → Prop) : Prop where
  writes : f.Writes n fun _ => True
  reads : f.Reads Ok

/-- `Format.Good` for all the fields of a struct. -/
structure Fields.Good (fs : Fields α) (n : Nat) (Ok : α → Prop) : Prop where
  writes : fs.Writes n fun _ => True
  reads : fs.Reads Ok

theorem Format.Good.via (h : g.Good n Ok') (out : α → β) (back : β → Option α)
    (hback : ∀ a, Ok a → Ok' (out a) ∧ back (out a) = some a) : (g.via out back).Good n Ok :=
  ⟨h.writes.via out back, h.reads.via out back hback⟩

theorem Format.Good.list (h : f.Good (n + 2) Ok) (hn : n + 1 ≤ maxNestingDepth) :
    f.list.Good (n + 1) fun l => ∀ a ∈ l, Ok a :=
  ⟨(h.writes.list hn (by omega)).mono fun _ _ _ _ => trivial,
    (Format.Reads.list h.writes h.reads).mono fun _ hl a ha => ⟨trivial, hl a ha⟩⟩

theorem Field.Good.always (h : f.Good n Ok) (zero : α) : (Field.always f zero).Good n Ok :=
  ⟨always_writes h.writes zero,
    fun a t ha => always_reads h.writes h.reads zero a t ⟨trivial, ha⟩⟩

theorem Field.Good.required (h : f.Good n Ok) : (Field.required f).Good n Ok :=
  ⟨required_writes h.writes, required_reads h.reads⟩

theorem Field.Good.omitting [DecidableEq α] (h : f.Good n Ok) (zero : α) :
    (omitting f zero).Good n Ok :=
  ⟨omitting_writes h.writes zero,
    fun a t ha => omitting_reads h.writes h.reads zero a t ⟨trivial, ha⟩⟩

theorem Field.Good.pointer (h : f.Good n Ok) : (Field.pointer f).Good n fun a => ∀ x ∈ a, Ok x :=
  ⟨fun a t _ => pointer_writes h.writes a t fun _ _ => trivial,
    fun a t ha => pointer_reads h.writes h.reads a t fun x hx => ⟨trivial, ha x hx⟩⟩

theorem Field.Good.slice [DecidableEq α] {f : Format (List α)} {Ok : List α → Prop}
    (h : f.Good n Ok) : (slice f).Good n Ok :=
  ⟨slice_writes h.writes,
    fun a t ha => slice_reads h.writes h.reads a t ⟨trivial, ha⟩⟩

theorem Fields.Good.nil (n : Nat) : Fields.nil.Good n fun _ => True :=
  ⟨Fields.nil_writes n, Fields.nil_reads⟩

theorem Fields.Good.cons (h : field.Good n Ok) (hs : fs.Good n Ok') :
    (Fields.cons name field fs).Good n fun a => Ok a.1 ∧ Ok' a.2 :=
  ⟨fun a ts _ => Fields.Writes.cons h.writes hs.writes a ts ⟨trivial, trivial⟩,
    Fields.Reads.cons h.reads hs.reads⟩

theorem Fields.Good.strict (h : fs.Good (n + 2) Ok') (hnames : FieldNames fs.names)
    (hn : n + 1 ≤ maxNestingDepth) {out : α → β} {back : β → α} (hback : ∀ a, Ok a → back (out a) = a)
    (hOk : ∀ a, Ok a → Ok' (out a)) : (Format.strict fs out back).Good (n + 1) Ok :=
  ⟨fun a t _ => Format.struct_writes h.writes hn (by omega) out back a t trivial,
    fun a t ha => Format.strict_reads hnames h.writes h.reads (hback a ha) t trivial (hOk a ha)⟩

theorem Fields.Good.struct (h : fs.Good (n + 2) Ok') (hnames : FieldNames fs.names)
    (hn : n + 1 ≤ maxNestingDepth) {out : α → β} {back : β → α} (hback : ∀ a, Ok a → back (out a) = a)
    (hOk : ∀ a, Ok a → Ok' (out a)) : (Format.struct fs out back).Good (n + 1) Ok :=
  ⟨fun a t _ => Format.struct_writes h.writes hn (by omega) out back a t trivial,
    fun a t ha => Format.struct_reads hnames h.writes h.reads (hback a ha) t trivial (hOk a ha)⟩

end Laws

end Wegweiser.Json
