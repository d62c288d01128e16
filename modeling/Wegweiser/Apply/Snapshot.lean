/-
Log snapshots: what a member writes of its store for another to start from.

A header, a line for each thing, and a mark at the end that says how many there were.
-/
import Wegweiser.Json.Stream
import Wegweiser.Apply.Wire
import Wegweiser.Store.Replicated

namespace Wegweiser

open Checked Json List

inductive SnapshotWriter where
  | store
  | witness
  | other (kind : String)
deriving DecidableEq

def SnapshotWriter.valid : SnapshotWriter → Bool
  | .store | .witness => true
  | .other _ => false

structure SnapshotHeader where
  index : UInt64
  writer : SnapshotWriter
deriving DecidableEq

structure WireSnapshotHeader where
  format : String
  version : Nat
  index : UInt64
  writer : SnapshotWriter
deriving DecidableEq

/-- `wireItem`: one item of the content, or the mark that there is no more. -/
structure WireItem where
  kind : String
  setting : Option (String × Octets) := none
  token : Option Token := none
  key : Option TSIGKey := none
  zone : Option Zone := none
  record : Option Record := none
  commit : Option Commit := none
  count : UInt64 := 0
deriving DecidableEq

def snapshotFormat : String := "wegweiser-log-snapshot"

def snapshotVersion : Nat := 1

def snapshotEnd : String := "end"

namespace Wire

def writerText : SnapshotWriter → String
  | .store => "store"
  | .witness => "witness"
  | .other kind => kind

def readWriter (s : String) : SnapshotWriter :=
  if s = "store" then .store else if s = "witness" then .witness else .other s

def writer : Format SnapshotWriter := Format.text.via writerText fun s => some (readWriter s)

def uint64 : Format UInt64 := (Format.uint 64).via UInt64.toNat fun n => some (UInt64.ofNat n)

def header : Format WireSnapshotHeader :=
  .struct
    (.cons "format" (.always .text "") <| .cons "version" (.always (.uint 63) 0) <|
      .cons "index" (.always uint64 0) <| .cons "writer" (.always writer (readWriter "")) .nil)
    (fun h => (h.format, h.version, h.index, h.writer, ()))
    fun (format, version, index, writer, ()) => ⟨format, version, index, writer⟩

def itemFields (sp : Spelling) :
    Fields (String × Option (String × Octets) × Option Token × Option TSIGKey × Option Zone ×
      Option Record × Option Commit × UInt64 × Unit) :=
  .cons "kind" (.always .text "") <| .cons "setting" (.pointer setting) <|
    .cons "token" (.pointer (token sp)) <| .cons "key" (.pointer (key sp)) <|
    .cons "zone" (.pointer (zoneValue sp)) <| .cons "record" (.pointer (record sp)) <|
    .cons "commit" (.pointer (commit sp)) <| .cons "count" (.omitting uint64 0) .nil

def item (sp : Spelling) : Format WireItem :=
  .struct (itemFields sp)
    (fun w => (w.kind, w.setting, w.token, w.key, w.zone, w.record, w.commit, w.count, ()))
    fun (kind, setting, token, key, zone, record, commit, count, ()) =>
      ⟨kind, setting, token, key, zone, record, commit, count⟩

end Wire

open Wire

/-- `toWireToken`: when the token was last used is left out. -/
def toWireToken (t : Token) : Token := { t with lastUsedAt := none }

/-- `toWireZoneValue`: the kind and the network are left out. -/
def toWireZoneValue (z : Zone) : Zone := { z with kind := .forward, netPrefix := none }

def toWireItem : Replicated → WireItem
  | .setting key value => { kind := "setting", setting := some (key, value) }
  | .token t => { kind := "token", token := some (toWireToken t) }
  | .key k => { kind := "tsig_key", key := some k }
  | .zone z => { kind := "zone", zone := some (toWireZoneValue z) }
  | .record r => { kind := "record", record := some r }
  | .commit c => { kind := "commit", commit := some c }

namespace WireItem

def carried (w : WireItem) : Nat :=
  [w.setting.isSome, w.token.isSome, w.key.isSome, w.zone.isSome, w.record.isSome,
    w.commit.isSome].count true

/-- What an item of the kind carries, checked; `Replicated.Validate` refuses one that carries
something else. -/
def payload {α : Type} (value : Option α) (f : α → Except Err Replicated) : Except Err Replicated :=
  match value with
  | none => .error (.invalid "an item carries what its kind says, and nothing else")
  | some a => f a

def replicated (lib : WireLibrary) (w : WireItem) : Except Err Replicated := do
  ensure (w.carried == 1) (.invalid "an item carries one thing")
  if w.kind = "setting" then
    payload w.setting fun c => (settingOf c).map fun c => .setting c.1 c.2
  else if w.kind = "token" then payload w.token fun t => .ok (.token t)
  else if w.kind = "tsig_key" then payload w.key fun k => (keyOf k).map .key
  else if w.kind = "zone" then payload w.zone fun z => (zoneOf z).map .zone
  else if w.kind = "record" then payload w.record fun r => (recordOf lib r).map .record
  else if w.kind = "commit" then payload w.commit fun c => (commitOf lib c).map .commit
  else .error (.invalid "an item of a kind which this build does not know")

end WireItem

open WireItem

/-- `Encoder.Encode`, with the error it is reported as. -/
def encodeLine {α : Type} (f : Format α) (e : Err) (a : α) : Except Err Octets :=
  match Json.encode f a with
  | none => .error e
  | some line => .ok line

def writeSnapshot (sp : Spelling) (h : SnapshotHeader) (items : List Replicated) :
    Except Err Octets := do
  ensure h.writer.valid (.invalid "not a kind of member that writes log snapshots")
  let head ← encodeLine Wire.header (.failed "write the log snapshot header")
    ⟨snapshotFormat, snapshotVersion, h.index, h.writer⟩
  let content ← items.mapM fun item =>
    encodeLine (Wire.item sp) (.failed "write item of the log snapshot") (toWireItem item)
  let tail ← encodeLine (Wire.item sp) (.failed "write the end of the log snapshot")
    { kind := snapshotEnd, count := UInt64.ofNat items.length }
  pure (head ++ content.flatten ++ tail)

/-- The content `ReadSnapshot` comes back with, ranged over: the items, and the error it ends
in. -/
def readItems (lib : WireLibrary) (sp : Spelling) :
    Nat → UInt64 → Octets → List Replicated × Option Err
  | 0, _, _ => ([], some (.failed "out of fuel"))
  | fuel + 1, seen, s =>
    match decode (item sp) s with
    | .eof =>
      ([], some (.invalid "the log snapshot stops without saying it is complete"))
    | .bad => ([], some (.failed "read item of the log snapshot"))
    | .value w rest =>
      if w.kind = snapshotEnd then
        if w.count ≠ seen then
          ([], some (.invalid "the log snapshot says it holds other than it held"))
        else
          match decode Format.raw rest with
          | .eof => ([], none)
          | _ => ([], some (.invalid "the log snapshot carries something after its end"))
      else
        match w.replicated lib with
        | .error e => ([], some e)
        | .ok item =>
          let (items, err) := readItems lib sp fuel (seen + 1) rest
          (item :: items, err)

/-- `ReadSnapshot`, and everything it then yields. -/
def readSnapshot (lib : WireLibrary) (sp : Spelling) (s : Octets) :
    Except Err (SnapshotHeader × List Replicated × Option Err) :=
  match decode header s with
  | .value w rest => do
      ensure (w.format == snapshotFormat) (.invalid "this is not a log snapshot")
      ensure (w.version == snapshotVersion) (.invalid "a log snapshot of another version")
      ensure w.writer.valid (.invalid "the log snapshot was written by an unknown kind of member")
      -- every line takes an octet at least
      pure (⟨w.index, w.writer⟩, readItems lib sp (rest.length + 1) 0 rest)
  | _ => .error (.invalid "the log snapshot has no header that can be read")

section Laws

namespace Wire

variable {sp : Spelling} {n m : Nat} {D : String × Octets → Prop}

theorem writer_good (n : Nat) : writer.Good n fun w => w.valid = true := by
  refine (text_good n).via _ _ fun w hw => ⟨trivial, ?_⟩
  cases w with
  | store | witness => rfl
  | other kind => cases hw

theorem uint64_good (n : Nat) : uint64.Good n fun _ => True :=
  (uint_good 64 n).via _ _ fun v _ => ⟨v.toNat_lt, by simp⟩

theorem header_good : header.Good 1 fun h => h.version < 2 ^ 63 ∧ h.writer.valid = true := by
  refine Fields.Good.struct (.cons (.always (text_good _) _) <| .cons (.always (uint_good 63 _) _) <|
    .cons (.always (uint64_good _) _) <| .cons (.always (writer_good _) _) (.nil _))
    (by decide) (by decide) (fun _ _ => rfl) fun h hh => ?_
  exact ⟨trivial, hh.1, trivial, hh.2, trivial⟩

theorem itemFields_names : FieldNames (itemFields sp).names := by
  dsimp only [itemFields, Fields.cons, Fields.nil]
  decide

theorem itemFields_writes (hsp : sp.Lawful) (hm : m ≤ 2) (h : setting.Writes m D) :
    (itemFields sp).Writes m fun a => ∀ c ∈ a.2.1, D c := by
  refine Fields.Writes.mono (.cons (Field.always_writes (text_good m).writes "") <|
    .cons (Field.pointer_writes h) <|
    .cons (Field.pointer_writes ((token_good hsp (n := 1) (by decide)).writes.below hm)) <|
    .cons (Field.pointer_writes ((key_good hsp (n := 1) (by decide)).writes.below hm)) <|
    .cons (Field.pointer_writes ((zoneValue_good hsp (n := 1) (by decide)).writes.below hm)) <|
    .cons (Field.pointer_writes ((record_good hsp (n := 1) (by decide)).writes.below hm)) <|
    .cons (Field.pointer_writes ((commit_good hsp (n := 1) (by decide)).writes.below hm)) <|
    .cons (Field.omitting_writes (uint64_good m).writes 0) (Fields.nil_writes m)) fun a ha => ?_
  exact ⟨trivial, ha, fun _ _ => trivial, fun _ _ => trivial, fun _ _ => trivial,
    fun _ _ => trivial, fun _ _ => trivial, trivial, trivial⟩

def SettingKept (c : String × Octets) : Prop := validAt 2 c.2 = true ∧ compact c.2 = c.2

theorem setting_kept : setting.Writes 2 SettingKept :=
  (setting_writes (by decide) le_rfl).mono fun _ hc => hc.1

/-- Items all of whose content comes back. -/
structure ItemKept (w : WireItem) : Prop where
  setting : ∀ c ∈ w.setting, SettingKept c
  token : ∀ t ∈ w.token, t.lastUsedAt = none ∧ t.expiresAt ≠ some 0 ∧ t.revokedAt ≠ some 0
  key : ∀ k ∈ w.key, k.algorithm.valid = true ∧ k.revokedAt ≠ some 0
  zone : ∀ z ∈ w.zone,
    z.kind = .forward ∧ z.netPrefix = none ∧ soaFits z.soa ∧ validTTL z.defaultTTL = true
  record : ∀ r ∈ w.record, validTTL r.ttl = true ∧ isUTF8 r.rdata.text = true
  commit : ∀ c ∈ w.commit,
    ∀ e ∈ c.events, e.seq < 2 ^ 63 ∧ validTTL e.ttl = true ∧ isUTF8 e.rdata.text = true

theorem item_reads (hsp : sp.Lawful) : (item sp).Reads ItemKept := by
  have hsetting : setting.Reads SettingKept :=
    setting_reads.mono fun c hc => ⟨validAt_mono hc.1 (Nat.zero_le 2), hc.2⟩
  have hreads : (itemFields sp).Reads fun a => ItemKept
      ⟨a.1, a.2.1, a.2.2.1, a.2.2.2.1, a.2.2.2.2.1, a.2.2.2.2.2.1, a.2.2.2.2.2.2.1, 0⟩ := by
    refine Fields.Reads.mono (.cons (Field.Good.always (text_good 2) "").reads <|
      .cons (Field.pointer_reads setting_kept hsetting) <|
      .cons (Field.Good.pointer (token_good hsp (n := 1) (by decide))).reads <|
      .cons (Field.Good.pointer (key_good hsp (n := 1) (by decide))).reads <|
      .cons (Field.Good.pointer (zoneValue_good hsp (n := 1) (by decide))).reads <|
      .cons (Field.Good.pointer (record_good hsp (n := 1) (by decide))).reads <|
      .cons (Field.Good.pointer (commit_good hsp (n := 1) (by decide))).reads <|
      .cons (Field.Good.omitting (uint64_good 2) 0).reads Fields.nil_reads) fun a ha => ?_
    exact ⟨trivial, fun c hc => ⟨ha.setting c hc, ha.setting c hc⟩, ha.token, ha.key, ha.zone,
      ha.record, ha.commit, trivial, trivial⟩
  intro w t hw ht
  exact Format.struct_reads itemFields_names (itemFields_writes hsp le_rfl setting_kept) hreads rfl t
    hw.setting ⟨hw.setting, hw.token, hw.key, hw.zone, hw.record, hw.commit⟩ ht

theorem kind_of_read (hsp : sp.Lawful) {w w' : WireItem} {t : Octets}
    (ht : (item sp).write w = some t) (hr : (item sp).read t = some w') : w'.kind = w.kind := by
  obtain ⟨texts, b, hput, hget, rfl⟩ := Format.fields_of_read itemFields_names
    (itemFields_writes hsp (Nat.zero_le 2) setting_writes_zero) (fun _ _ => trivial) ht hr
  exact Fields.first_of_get (Field.Good.always (text_good 0) "").reads trivial hput hget

end Wire

end Laws

def Replicated.Travels (lib : WireLibrary) : Replicated → Prop
  | .setting k v => k ≠ "" ∧ Wire.SettingKept (k, v)
  | .token t => t.lastUsedAt = none ∧ t.expiresAt ≠ some 0 ∧ t.revokedAt ≠ some 0
  | .key k =>
    k.algorithm.valid = true ∧ k.revokedAt.isNone ≠ k.secret.isEmpty ∧ k.revokedAt ≠ some 0
  | .zone z => z.validate = .ok ()
  | .record r =>
    r.id ≠ .empty ∧ r.validate = .ok () ∧ Canonical lib r.type r.cls r.rdata ∧
      isUTF8 r.rdata.text = true
  | .commit c =>
    c.validate = .ok () ∧
      ∀ e ∈ c.events, e.seq < 2 ^ 63 ∧ Canonical lib e.type e.cls e.rdata ∧
        isUTF8 e.rdata.text = true

theorem SOA.fits_of_validate {s : SOA} (h : s.validate = .ok ()) : soaFits s := by
  simp only [SOA.validate, bind_eq_ok, ensure_eq_ok] at h
  obtain ⟨-, -, -, hrefresh, -, hretry, -, hexpire, -, hminimum, -, httl, -⟩ := h
  exact ⟨hrefresh, hretry, hexpire, hminimum, httl⟩

theorem Record.validTTL_of_validate {r : Record} (h : r.validate = .ok ()) :
    validTTL r.ttl = true := by
  simp only [Record.validate, Record.validateHeader, bind_eq_ok, ensure_eq_ok] at h
  obtain ⟨-, ⟨-, -, -, -, -, -, -, -, httl⟩, -⟩ := h
  exact httl

theorem Commit.validTTL_of_validateEvents {events : List Event} {seq : Nat} {sawAdd : Bool}
    (h : Commit.validateEvents seq sawAdd events = .ok ()) : ∀ e ∈ events, validTTL e.ttl = true := by
  induction events generalizing seq sawAdd with
  | nil => exact fun e he => nomatch he
  | cons e events ih =>
    simp only [Commit.validateEvents, bind_eq_ok, ensure_eq_ok] at h
    obtain ⟨⟨⟩, hvalid, -, -, hrest⟩ := h
    have httl : validTTL e.ttl = true := by
      simp only [Event.validate, bind_eq_ok, ensure_eq_ok] at hvalid
      exact hvalid.choose_spec.2.choose_spec.2.choose_spec.1
    refine forall_mem_cons.mpr ⟨httl, ?_⟩
    cases hop : e.op with
    | add =>
      rw [hop] at hrest
      exact ih hrest
    | del =>
      simp only [hop, bind_eq_ok, ensure_eq_ok] at hrest
      obtain ⟨-, -, hrest⟩ := hrest
      exact ih hrest

theorem Commit.validTTL_of_validate {c : Commit} (h : c.validate = .ok ()) :
    ∀ e ∈ c.events, validTTL e.ttl = true := by
  simp only [Commit.validate, bind_eq_ok, ensure_eq_ok] at h
  obtain ⟨-, -, -, -, -, -, hevents⟩ := h
  exact Commit.validTTL_of_validateEvents hevents

section Reading

variable {lib : WireLibrary} {sp : Spelling} {item : Replicated}

theorem absent {α : Type} {P : α → Prop} : ∀ a ∈ (none : Option α), P a := fun _ h => nomatch h

theorem Replicated.Travels.kept (h : item.Travels lib) : ItemKept (toWireItem item) := by
  cases item with
  | setting key value =>
    refine ⟨fun c hc => ?_, absent, absent, absent, absent, absent⟩
    obtain rfl := Option.some.inj hc
    exact h.2
  | token t =>
    refine ⟨absent, fun t' ht' => ?_, absent, absent, absent, absent⟩
    obtain rfl := Option.some.inj ht'
    exact ⟨rfl, h.2⟩
  | key k =>
    refine ⟨absent, absent, fun k' hk' => ?_, absent, absent, absent⟩
    obtain rfl := Option.some.inj hk'
    exact ⟨h.1, h.2.2⟩
  | zone z =>
    refine ⟨absent, absent, absent, fun z' hz' => ?_, absent, absent⟩
    obtain rfl := Option.some.inj hz'
    obtain ⟨httl, hsoa, -⟩ := Zone.validate_eq_ok.mp h
    exact ⟨rfl, rfl, SOA.fits_of_validate hsoa, httl⟩
  | record r =>
    refine ⟨absent, absent, absent, absent, fun r' hr' => ?_, absent⟩
    obtain rfl := Option.some.inj hr'
    exact ⟨Record.validTTL_of_validate h.2.1, h.2.2.2⟩
  | commit c =>
    refine ⟨absent, absent, absent, absent, absent, fun c' hc' e he => ?_⟩
    obtain rfl := Option.some.inj hc'
    exact ⟨(h.2 e he).1, Commit.validTTL_of_validate h.1 e he, (h.2 e he).2.2⟩

theorem Replicated.Travels.replicated (h : item.Travels lib) :
    (toWireItem item).replicated lib = .ok item := by
  cases item with
  | setting key value =>
    have hvalid : Json.valid value = true := validAt_mono h.2.1 (Nat.zero_le 2)
    have hcheck : settingOf (key, value) = .ok (key, value) := settingOf_eq_ok.mpr ⟨rfl, h.1, hvalid⟩
    simp [toWireItem, replicated, carried, payload, hcheck, Except.map,
      ensure]
  | token t =>
    have htoken : toWireToken t = t := by
      obtain ⟨id, name, display, hash, scopes, createdAt, lastUsedAt, expiresAt, revokedAt⟩ := t
      obtain rfl : lastUsedAt = none := h.1
      rfl
    simp [toWireItem, replicated, carried, payload, htoken, ensure]
  | key k =>
    have hcheck : keyOf k = .ok k := keyOf_eq_ok.mpr ⟨rfl, h.1, h.2.1⟩
    simp [toWireItem, replicated, carried, payload, hcheck, Except.map,
      ensure]
  | zone z =>
    have hcheck : zoneOf (toWireZoneValue z) = .ok z := zoneOf_eq_ok.mpr ⟨h, rfl⟩
    simp [toWireItem, replicated, carried, payload, hcheck, Except.map,
      ensure]
  | record r =>
    have hcheck : recordOf lib r = .ok r := recordOf_eq_ok.mpr ⟨rfl, h.2.2.1, h.2.1, h.1⟩
    simp [toWireItem, replicated, carried, payload, hcheck, Except.map,
      ensure]
  | commit c =>
    have hcheck : commitOf lib c = .ok c := commitOf_eq_ok.mpr ⟨rfl, fun e he => (h.2 e he).2.1, h.1⟩
    simp [toWireItem, replicated, carried, payload, hcheck, Except.map,
      ensure]

theorem kind_ne_end (item : Replicated) : (toWireItem item).kind ≠ snapshotEnd := by
  cases item <;> simp [toWireItem, snapshotEnd]

def Written (sp : Spelling) (items : List Replicated) (texts : List Octets) : Prop :=
  Forall₂ (fun item t => (Wire.item sp).write (toWireItem item) = some t) items texts

def endMark (count : UInt64) : WireItem := { kind := snapshotEnd, count }

variable {w : WireItem} {t rest mark s q head : Octets} {items : List Replicated}
  {texts : List Octets} {count seen : UInt64} {fuel : Nat} {e : Err} {h : SnapshotHeader}

theorem line_of_item (hsp : sp.Lawful) (ht : (Wire.item sp).write w = some t) : Line 0 t :=
  line_of_struct (Format.struct_writes
    (itemFields_writes hsp (Nat.zero_le 2) setting_writes_zero) (by decide) (by decide)
    _ _) (fun _ _ => trivial) ht

theorem line_of_kept (hsp : sp.Lawful) (hw : Wire.ItemKept w)
    (ht : (Wire.item sp).write w = some t) : Line 1 t :=
  line_of_struct (Format.struct_writes (Wire.itemFields_writes hsp le_rfl Wire.setting_kept)
    (by decide) (by decide) _ _) hw.setting ht

theorem endMark_kept (count : UInt64) : ItemKept (endMark count) :=
  ⟨absent, absent, absent, absent, absent, absent⟩

theorem readItems_line (lib : WireLibrary) (sp : Spelling) (fuel : Nat) (seen : UInt64) {n : Nat}
    {text : Octets} (h : Line n text) (hrest : Delimits rest) :
    (readItems lib sp fuel seen (10 :: (text ++ rest))).2 ≠ none ∨
      ∃ w, (Wire.item sp).read text = some w ∧ ((w.kind = snapshotEnd ∧ skipSpace rest = [] ∧
            readItems lib sp fuel seen (10 :: (text ++ rest)) = ([], none)) ∨
          (w.kind ≠ snapshotEnd ∧ ∃ fuel' item, fuel = fuel' + 1 ∧
            readItems lib sp fuel seen (10 :: (text ++ rest)) =
              (item :: (readItems lib sp fuel' (seen + 1) rest).1,
                (readItems lib sp fuel' (seen + 1) rest).2))) := by
  cases fuel with
  | zero => exact .inl (by simp [readItems])
  | succ fuel =>
    rw [readItems, decode_newline]
    obtain hbad | ⟨w, hread, hvalue⟩ := decode_line (f := Wire.item sp) h hrest
    · exact .inl (by simp [hbad])
    · simp only [hvalue]
      split
      · rename_i hkind
        split
        · exact .inl (by simp)
        · split
          · rename_i hafter
            exact .inr ⟨w, hread, .inl ⟨hkind, decode_eq_eof.mp hafter, rfl⟩⟩
          · exact .inl (by simp)
      · rename_i hkind
        cases hitem : w.replicated lib with
        | error e => exact .inl (by simp)
        | ok item => exact .inr ⟨w, hread, .inr ⟨hkind, fuel, item, rfl, rfl⟩⟩

theorem readItems_lines (hsp : sp.Lawful)
    (htravels : ∀ item ∈ items, item.Travels lib) (htexts : Written sp items texts)
    (hmark : (Wire.item sp).write (endMark count) = some mark)
    (hcount : count = seen + UInt64.ofNat items.length) (hrest : rest = [] ∨ rest = [10])
    (hfuel : items.length < fuel) :
    readItems lib sp fuel seen (lines (texts ++ [mark]) rest) = (items, none) := by
  obtain ⟨fuel, rfl⟩ : ∃ f, fuel = f + 1 := ⟨fuel - 1, by omega⟩
  have hdelimits : Delimits rest := by
    rcases hrest with rfl | rfl
    · exact delimits_nil
    · exact delimits_newline []
  induction htexts generalizing fuel seen with
  | nil =>
    have hread := item_reads hsp _ _ (endMark_kept count) hmark
    have hvalue := decode_line_of_read (line_of_kept hsp (endMark_kept count) hmark) hdelimits hread
    have hafter : decode Format.raw rest = .eof :=
      decode_eq_eof.mpr (by rcases hrest with rfl | rfl <;> decide)
    rw [nil_append, lines, lines, readItems, decode_newline, hvalue]
    simp [endMark, hafter, hcount]
  | @cons item text items texts hwrite _ ih =>
    have hitem := htravels item mem_cons_self
    have hread := item_reads hsp _ _ hitem.kept hwrite
    have hvalue := decode_line_of_read (line_of_kept hsp hitem.kept hwrite)
      (delimits_lines (texts ++ [mark]) hdelimits) hread
    have hcons : items.length + 1 < fuel + 1 := hfuel
    obtain ⟨fuel, rfl⟩ : ∃ f, fuel = f + 1 := ⟨fuel - 1, by omega⟩
    have hseen : count = seen + 1 + UInt64.ofNat items.length := by
      rw [hcount, length_cons, UInt64.ofNat_add, UInt64.add_assoc,
        UInt64.add_comm (UInt64.ofNat items.length)]
      rfl
    have htail := ih (fun i hi => htravels i (mem_cons_of_mem item hi)) hseen fuel (by omega)
    rw [cons_append, lines, readItems, decode_newline, hvalue]
    simp only [kind_ne_end item, ↓reduceIte, hitem.replicated]
    rw [htail]

theorem readItems_unread (h : decode (Wire.item sp) s = .eof ∨ decode (Wire.item sp) s = .bad) :
    (readItems lib sp fuel seen s).2 ≠ none := by
  cases fuel with
  | zero => simp [readItems]
  | succ fuel => rcases h with h | h <;> simp [readItems, h]

theorem readItems_cut (hsp : sp.Lawful) {p : Octets} (htexts : Written sp items texts)
    (hmark : (Wire.item sp).write (endMark count) = some mark)
    (hpq : p ++ q = lines (texts ++ [mark]) [10]) (hq : q ≠ []) :
    (readItems lib sp fuel seen p).2 ≠ none ∨
      q = [10] ∧ (readItems lib sp fuel seen p).1.length = items.length := by
  induction htexts generalizing fuel seen p with
  | nil =>
    have hline := line_of_item hsp hmark
    obtain hnone | ⟨c, rfl, hc⟩ := decode_cut_lines (f := Wire.item sp) hline hpq
    · exact .inl (readItems_unread hnone)
    · -- nothing but the last line break is missing
      obtain ⟨rfl, rfl⟩ : c = [] ∧ q = [10] := by
        rcases append_eq_singleton_iff.mp hc with h | h
        · exact h
        · exact absurd h.2 hq
      obtain herr | ⟨w, hread, ⟨-, -, hend⟩ | ⟨hkind, -⟩⟩ :=
        readItems_line lib sp fuel seen hline delimits_nil
      · exact .inl herr
      · exact .inr ⟨rfl, by rw [hend]⟩
      · exact absurd (Wire.kind_of_read hsp hmark hread) hkind
  | @cons item text items texts hwrite _ ih =>
    have hline := line_of_item hsp hwrite
    obtain hnone | ⟨c, rfl, hc⟩ := decode_cut_lines (f := Wire.item sp) hline hpq
    · exact .inl (readItems_unread hnone)
    · have hdelimits : Delimits c := by
        refine delimits_of_append (q := q) ?_
        rw [hc]
        exact delimits_lines _ (delimits_newline [])
      obtain herr | ⟨w, hread, ⟨hkind, -⟩ | ⟨-, fuel', item', rfl, hitem⟩⟩ :=
        readItems_line lib sp fuel seen hline hdelimits
      · exact .inl herr
      · exact absurd ((Wire.kind_of_read hsp hwrite hread).symm.trans hkind) (kind_ne_end item)
      · rw [hitem, length_cons, length_cons]
        exact (ih hc).imp_right fun ⟨hq, hlen⟩ => ⟨hq, congrArg (· + 1) hlen⟩

theorem readItems_trailing (hsp : sp.Lawful) (htexts : Written sp items texts)
    (hmark : (Wire.item sp).write (endMark count) = some mark) (hrest : skipSpace rest ≠ []) :
    (readItems lib sp fuel seen (lines (texts ++ [mark]) (10 :: rest))).2 ≠ none := by
  induction htexts generalizing fuel seen with
  | nil =>
    obtain herr | ⟨w, hread, ⟨-, hspace, -⟩ | ⟨hkind, -⟩⟩ :=
      readItems_line lib sp fuel seen (line_of_item hsp hmark)
        (delimits_newline rest)
    · exact herr
    · exact absurd ((skipSpace_newline rest).symm.trans hspace) hrest
    · exact absurd (Wire.kind_of_read hsp hmark hread) hkind
  | @cons item text items texts hwrite _ ih =>
    obtain herr | ⟨w, hread, ⟨hkind, -⟩ | ⟨-, fuel', item', rfl, hitem⟩⟩ :=
      readItems_line lib sp fuel seen (line_of_item hsp hwrite)
        (delimits_lines (texts ++ [mark]) (delimits_newline rest))
    · exact herr
    · exact absurd ((Wire.kind_of_read hsp hwrite hread).symm.trans hkind) (kind_ne_end item)
    · rw [cons_append, lines, hitem]
      exact ih

theorem encodeLine_eq_ok {α : Type} {f : Format α} {a : α} {line : Octets} :
    encodeLine f e a = .ok line ↔ ∃ t, f.write a = some t ∧ line = t ++ [10] := by
  rw [encodeLine, Json.encode]
  cases f.write a with
  | none => simp
  | some t => simp [eq_comm]

theorem flatten_lines (texts : List Octets) :
    10 :: (texts.map (· ++ [10])).flatten = lines texts [10] := by
  induction texts with
  | nil => rfl
  | cons text texts ih =>
    rw [lines, ← ih, map_cons, flatten_cons, append_assoc, singleton_append]

theorem lines_append (texts : List Octets) (rest more : Octets) :
    lines texts (rest ++ more) = lines texts rest ++ more := by
  induction texts with
  | nil => rfl
  | cons text texts ih => rw [lines, lines, ih, cons_append, append_assoc]

theorem length_le_lines (texts : List Octets) (rest : Octets) :
    texts.length + rest.length ≤ (lines texts rest).length := by
  induction texts with
  | nil => simp [lines]
  | cons text texts ih =>
    rw [lines, length_cons, length_cons, length_append]
    omega

theorem written_of_mapM {content : List Octets}
    (h : items.mapM (fun item => encodeLine (Wire.item sp) e (toWireItem item)) = .ok content) :
    ∃ texts, Written sp items texts ∧ content = texts.map (· ++ [10]) := by
  induction items generalizing content with
  | nil =>
    cases h
    exact ⟨[], .nil, rfl⟩
  | cons item items ih =>
    simp only [mapM_cons, bind_eq_ok, pure_eq_ok, encodeLine_eq_ok] at h
    obtain ⟨line, ⟨t, ht, rfl⟩, content, hcontent, rfl⟩ := h
    obtain ⟨texts, htexts, rfl⟩ := ih hcontent
    exact ⟨t :: texts, .cons ht htexts, rfl⟩

def SnapshotHeader.wire (h : SnapshotHeader) : WireSnapshotHeader :=
  ⟨snapshotFormat, snapshotVersion, h.index, h.writer⟩

theorem writeSnapshot_eq_ok {bytes : Octets} (hwrite : writeSnapshot sp h items = .ok bytes) :
    h.writer.valid = true ∧ ∃ head texts mark, Wire.header.write h.wire = some head ∧
      Written sp items texts ∧
      (Wire.item sp).write (endMark (UInt64.ofNat items.length)) = some mark ∧
      bytes = head ++ lines (texts ++ [mark]) [10] := by
  simp only [writeSnapshot, bind_eq_ok, ensure_eq_ok, pure_eq_ok, encodeLine_eq_ok] at hwrite
  obtain ⟨-, hvalid, _, ⟨head, hhead, rfl⟩, content, hcontent, _, ⟨mark, hmark, rfl⟩, rfl⟩ := hwrite
  obtain ⟨texts, htexts, rfl⟩ := written_of_mapM hcontent
  refine ⟨hvalid, head, texts, mark, hhead, htexts, hmark, ?_⟩
  rw [← flatten_lines, map_append, flatten_append]
  simp

theorem header_line {h : WireSnapshotHeader} (hhead : header.write h = some head) :
    Line 1 head := line_of_struct header_good.writes trivial hhead

theorem readSnapshot_append (hvalid : h.writer.valid = true)
    (hhead : header.write h.wire = some head) (hrest : Delimits rest) :
    readSnapshot lib sp (head ++ rest) =
      .ok (h, readItems lib sp (rest.length + 1) 0 rest) := by
  have hversion : snapshotVersion < 2 ^ 63 := by decide
  have hread : header.read head = some h.wire :=
    header_good.reads _ _ ⟨hversion, hvalid⟩ hhead
  rw [readSnapshot, decode_line_of_read (header_line hhead) hrest hread]
  simp [SnapshotHeader.wire, hvalid, ensure, bind, Except.bind, pure, Except.pure]

def EndsInError (result : Except Err (SnapshotHeader × List Replicated × Option Err)) : Prop :=
  ∀ h items, result ≠ .ok (h, items, none)

theorem endsInError_of_items {found : List Replicated × Option Err}
    (hfound : found.2 ≠ none) : EndsInError (.ok (h, found)) := by
  intro h' items heq
  cases heq
  exact hfound rfl

theorem readSnapshot_lines (hsp : sp.Lawful) (hvalid : h.writer.valid = true)
    (hhead : Wire.header.write h.wire = some head) (htexts : Written sp items texts)
    (hmark : (Wire.item sp).write (endMark (UInt64.ofNat items.length)) = some mark)
    (hrest : rest = [] ∨ rest = [10]) (htravels : ∀ item ∈ items, item.Travels lib) :
    readSnapshot lib sp (head ++ lines (texts ++ [mark]) rest) = .ok (h, items, none) := by
  have hdelimits : Delimits (lines (texts ++ [mark]) rest) := by
    cases texts with
    | nil => exact delimits_newline _
    | cons text texts => exact delimits_newline _
  have hfuel : items.length < (lines (texts ++ [mark]) rest).length + 1 := by
    have hle := length_le_lines (texts ++ [mark]) rest
    rw [length_append, ← htexts.length_eq] at hle
    omega
  rw [readSnapshot_append hvalid hhead hdelimits,
    readItems_lines hsp htravels htexts hmark (by simp) hrest hfuel]

theorem readSnapshot_unread (h : decode header s = .eof ∨ decode header s = .bad) :
    EndsInError (readSnapshot lib sp s) := by
  intro h' items
  rcases h with h | h <;> simp [readSnapshot, h]

theorem readSnapshot_cut (lib : WireLibrary) (hsp : sp.Lawful)
    {c : Octets} (hvalid : h.writer.valid = true)
    (hhead : header.write h.wire = some head) (htexts : Written sp items texts)
    (hmark : (Wire.item sp).write (endMark (UInt64.ofNat items.length)) = some mark)
    (hc : c ++ q = lines (texts ++ [mark]) [10]) (hq : q ≠ []) :
    EndsInError (readSnapshot lib sp (head ++ c)) ∨
      q = [10] ∧ ∃ found, readSnapshot lib sp (head ++ c) = .ok (h, found, none) ∧
        found.length = items.length ∧ ((∀ item ∈ items, item.Travels lib) → found = items) := by
  have hdelimits : Delimits c := by
    refine delimits_of_append (q := q) ?_
    rw [hc]
    exact delimits_lines _ (delimits_newline [])
  have hread : readSnapshot lib sp (head ++ c) = .ok (h, readItems lib sp (c.length + 1) 0 c) :=
    readSnapshot_append hvalid hhead hdelimits
  by_cases herr : (readItems lib sp (c.length + 1) 0 c).2 = none
  · obtain ⟨rfl, hlength⟩ : q = [10] ∧ _ :=
      (readItems_cut hsp htexts hmark hc hq).resolve_left fun h => h herr
    refine .inr ⟨rfl, _, hread.trans (by rw [← herr]), hlength, fun htravels => ?_⟩
    obtain rfl : c = lines (texts ++ [mark]) [] := by
      have hlast := lines_append (texts ++ [mark]) [] [10]
      rw [nil_append, ← hc] at hlast
      exact append_cancel_right hlast
    have hwhole := readSnapshot_lines hsp hvalid hhead htexts hmark (.inl rfl) htravels
    rw [hread] at hwhole
    exact congrArg (·.2.1) (Except.ok.inj hwhole)
  · rw [hread]
    exact .inl (endsInError_of_items herr)

end Reading

/-- Identifiers counted off on the fingers, and types and classes by their numbers. -/
def Spelling.tally : Spelling where
  ident
    | .empty => []
    | .ulid n => 117 :: replicate n 49
    | .other n => 111 :: replicate n 49
  readIdent
    | [] => .empty
    | c :: rest => if c = 117 then .ulid rest.length else .other rest.length
  algorithm _ := ascii "hmac-md5."
  typeToString _ := none
  stringToType _ := none
  classToString _ := none
  stringToClass _ := none

theorem Spelling.tally_lawful : Spelling.tally.Lawful where
  read_ident id := by cases id <;> simp [Spelling.tally]
  ident_utf8 id := by
    refine isUTF8_of_low fun c hc => ?_
    cases id with
    | empty => cases hc
    | ulid n | other n =>
      rcases mem_cons.mp hc with rfl | hc
      · decide
      · rw [(mem_replicate.mp hc).2]
        decide
  ident_empty := rfl
  types := ⟨fun _ _ h => (nomatch h), fun _ _ h => (nomatch h)⟩
  classes := ⟨fun _ _ h => (nomatch h), fun _ _ h => (nomatch h)⟩

end Wegweiser
