/-
The wire types: settings, tokens, keys, zones, records and commits as they travel in batches and
log snapshots.

A wire type has the fields of what it carries, so it is that type, with its record data not looked
at yet and, for a zone, neither kind nor network.
-/
import Wegweiser.Json.Format
import Wegweiser.Store
import Wegweiser.Zone.Valid

namespace Wegweiser

open Checked (ensure)
open Json List Format Fields

/-- The texts of what is no text here, and the tables of the wire library for types and classes. -/
structure Spelling where
  ident : Ident → Octets
  readIdent : Octets → Ident
  /-- The algorithms the server does not offer. -/
  algorithm : Nat → Octets
  typeToString : RRType → Option Octets
  stringToType : Octets → Option RRType
  classToString : Class → Option Octets
  stringToClass : Octets → Option Class

def upperASCII (c : UInt8) : UInt8 :=
  if 97 ≤ c && c ≤ 122 then c - 32 else c

def isMnemonic (s : Octets) : Bool :=
  !s.isEmpty && s.all fun c => (65 ≤ c && c ≤ 90) || (48 ≤ c && c ≤ 57) || c = 45

def mnemonicText (word : String) (table : UInt16 → Option Octets) (v : UInt16) : Octets :=
  match (table v).filter isMnemonic with
  | some s => s
  | none => ascii word ++ decimal v.toNat

def parseMnemonic (word : String) (table : Octets → Option UInt16) (s : Octets) : Option UInt16 :=
  let up := (trimSpace s).map upperASCII
  if isMnemonic up then
    match table up with
    | some v => some v
    | none =>
      if (ascii word).isPrefixOf up then
        (parseUint 16 (up.drop (ascii word).length)).map UInt16.ofNat
      else none
  else none

namespace Spelling

variable (sp : Spelling)

/-- `RRType.String` -/
def typeString (t : RRType) : Octets := mnemonicText "TYPE" sp.typeToString t

def parseRRType (s : Octets) : Option RRType := parseMnemonic "TYPE" sp.stringToType s

/-- `Class.String` -/
def classString (c : Class) : Octets := mnemonicText "CLASS" sp.classToString c

def parseClass (s : Octets) : Option Class := parseMnemonic "CLASS" sp.stringToClass s

end Spelling

namespace Wire

def oneOf {α : Type} (values : List (α × String)) (out : α → String) : Format α :=
  string.via (fun a => ascii (out a)) fun s =>
    (values.find? fun v => ascii v.2 == s).map Prod.fst

def kindText : CommitKind → String
  | .zoneCreate => "zone_create"
  | .zoneUpdate => "zone_update"
  | .zoneDelete => "zone_delete"
  | .edit => "edit"
  | .imported => "import"
  | .rollback => "rollback"

def sourceText : Source → String
  | .api => "api"
  | .cli => "cli"
  | .imported => "import"
  | .system => "system"

def opText : EventOp → String
  | .del => "del"
  | .add => "add"

def managedKindText : ManagedKind → String
  | .ptr => "ptr"
  | .rfc2317CNAME => "rfc2317-cname"

def spelled {α : Type} (text : α → String) (values : List α) : List (α × String) :=
  values.map fun a => (a, text a)

def kind : Format CommitKind :=
  oneOf (spelled kindText [.zoneCreate, .zoneUpdate, .zoneDelete, .edit, .imported, .rollback])
    kindText

def source : Format Source := oneOf (spelled sourceText [.api, .cli, .imported, .system]) sourceText

def op : Format EventOp := oneOf (spelled opText [.del, .add]) opText

def managedKind : Format ManagedKind :=
  oneOf (spelled managedKindText [.ptr, .rfc2317CNAME]) managedKindText

def name : Format Name := string.via Name.string fun s => (parseName s).toOption

/-- `TTL.UnmarshalJSON` for a number. -/
def ttl : Format TTL :=
  (uint 64).via UInt32.toNat fun n =>
    if n ≤ maxTTL.toNat then some (UInt32.ofNat n) else none

def serial : Format Serial :=
  (uint 32).via (fun s => s.v.toNat) fun n => some ⟨UInt32.ofNat n⟩

def moment : Json.Field (Option Nat) :=
  let f := Json.Field.omitting time 0
  { put := fun t => f.put (t.getD 0)
    get := fun text => (f.get text).map fun t => if t = 0 then none else some t }

section

variable (sp : Spelling)

def ident : Format Ident := string.via sp.ident fun s => some (sp.readIdent s)

def type : Format RRType := string.via sp.typeString sp.parseRRType

def cls : Format Class := string.via sp.classString sp.parseClass

def algorithmText : TSIGAlgorithm → Octets
  | .hmacSHA256 => ascii "hmac-sha256."
  | .hmacSHA384 => ascii "hmac-sha384."
  | .hmacSHA512 => ascii "hmac-sha512."
  | .other number => sp.algorithm number

def readAlgorithm (s : Octets) : TSIGAlgorithm :=
  if s = ascii "hmac-sha256." then .hmacSHA256
  else if s = ascii "hmac-sha384." then .hmacSHA384
  else if s = ascii "hmac-sha512." then .hmacSHA512
  else .other 0

def algorithm : Format TSIGAlgorithm :=
  string.via (algorithmText sp) fun s => some (readAlgorithm s)

/-- `wireSOAValue` -/
def soa : Format SOA :=
  .struct
    (.cons "ns" (.required name) <| .cons "mbox" (.required name) <|
      .cons "serial" (.always serial ⟨0⟩) <| .cons "refresh" (.always ttl 0) <|
      .cons "retry" (.always ttl 0) <| .cons "expire" (.always ttl 0) <|
      .cons "minimum" (.always ttl 0) <| .cons "ttl" (.always ttl 0) .nil)
    (fun s => (s.ns, s.mbox, s.serial, s.refresh, s.retry, s.expire, s.minimum, s.ttl, ()))
    fun (ns, mbox, serial, refresh, retry, expire, minimum, ttl, ()) =>
      ⟨ns, mbox, serial, refresh, retry, expire, minimum, ttl⟩

/-- `wireSetting` -/
def setting : Format (String × Octets) :=
  .struct (.cons "key" (.always .text "") <| .cons "value" .raw .nil)
    (fun c => (c.1, c.2, ())) fun (key, value, ()) => (key, value)

/-- `wireToken`; when the token was last used here does not travel. -/
def token : Format Token :=
  .struct
    (.cons "id" (.always (ident sp) .empty) <| .cons "name" (.always .text "") <|
      .cons "prefix" (.always .text "") <| .cons "hash" (.slice .bytes) <|
      .cons "scopes" (.slice (.list .text)) <| .cons "createdAt" (.always .time 0) <|
      .cons "expiresAt" moment <| .cons "revokedAt" moment .nil)
    (fun t => (t.id, t.name, t.display, t.hash, t.scopes, t.createdAt, t.expiresAt, t.revokedAt, ()))
    fun (id, name, display, hash, scopes, createdAt, expiresAt, revokedAt, ()) =>
      { id, name, display, hash, scopes, createdAt, lastUsedAt := none, expiresAt, revokedAt }

/-- `wireKey` -/
def key : Format TSIGKey :=
  .struct
    (.cons "id" (.always (ident sp) .empty) <| .cons "name" (.required name) <|
      .cons "algorithm" (.always (algorithm sp) (readAlgorithm [])) <|
      .cons "secret" (.slice .bytes) <| .cons "createdAt" (.always .time 0) <|
      .cons "revokedAt" moment .nil)
    (fun k => (k.id, k.name, k.algorithm, k.secret, k.createdAt, k.revokedAt, ()))
    fun (id, name, algorithm, secret, createdAt, revokedAt, ()) =>
      ⟨id, name, algorithm, secret, createdAt, revokedAt⟩

/-- `wireZoneValue`: a forward zone, whatever its name. -/
def zoneValue : Format Zone :=
  .struct
    (.cons "id" (.always (ident sp) .empty) <| .cons "name" (.required name) <|
      .cons "soa" (.required soa) <| .cons "defaultTtl" (.always ttl 0) <|
      .cons "autoReverse" (.pointer .bool) <| .cons "disabled" (.omitting .bool false) <|
      .cons "comment" (.omitting .text "") <| .cons "createdAt" (.always .time 0) <|
      .cons "updatedAt" (.always .time 0) .nil)
    (fun z => (z.id, z.name, z.soa, z.defaultTTL, z.autoReverse, z.disabled, z.comment, z.createdAt,
      z.updatedAt, ()))
    fun (id, name, soa, defaultTTL, autoReverse, disabled, comment, createdAt, updatedAt, ()) =>
      { id, name, kind := .forward, netPrefix := none, soa, defaultTTL, autoReverse, disabled,
        comment, createdAt, updatedAt }

/-- `wireRecord` -/
def record : Format Record :=
  .struct
    (.cons "id" (.always (ident sp) .empty) <| .cons "zoneId" (.always (ident sp) .empty) <|
      .cons "name" (.required name) <| .cons "class" (.always (cls sp) 0) <|
      .cons "type" (.always (type sp) 0) <| .cons "ttl" (.always ttl 0) <|
      .cons "rdata" (.always .string []) <| .cons "managedBy" (.omitting (ident sp) .empty) <|
      .cons "managedKind" (.pointer managedKind) <| .cons "comment" (.omitting .text "") <|
      .cons "disabled" (.omitting .bool false) <| .cons "createdAt" (.always .time 0) <|
      .cons "updatedAt" (.always .time 0) .nil)
    (fun r => (r.id, r.zoneID, r.name, r.cls, r.type, r.ttl, r.rdata.text, r.managedBy,
      r.managedKind, r.comment, r.disabled, r.createdAt, r.updatedAt, ()))
    fun (id, zoneID, name, cls, type, ttl, text, managedBy, managedKind, comment, disabled, createdAt,
        updatedAt, ()) =>
      ⟨id, zoneID, name, cls, type, ttl, ⟨text⟩, managedBy, managedKind, comment, disabled, createdAt,
        updatedAt⟩

/-- `wireEvent` -/
def event : Format Event :=
  .struct
    (.cons "seq" (.always (.uint 63) 0) <| .cons "op" (.required op) <|
      .cons "name" (.required name) <| .cons "class" (.always (cls sp) 0) <|
      .cons "type" (.always (type sp) 0) <| .cons "ttl" (.always ttl 0) <|
      .cons "rdata" (.always .string []) .nil)
    (fun e => (e.seq, e.op, e.name, e.cls, e.type, e.ttl, e.rdata.text, ()))
    fun (seq, op, name, cls, type, ttl, text, ()) => ⟨seq, op, name, cls, type, ttl, ⟨text⟩⟩

/-- `wireCommit` -/
def commit : Format Commit :=
  .struct
    (.cons "id" (.always (ident sp) .empty) <| .cons "zoneId" (.always (ident sp) .empty) <|
      .cons "zoneName" (.required name) <| .cons "serialFrom" (.always serial ⟨0⟩) <|
      .cons "serialTo" (.always serial ⟨0⟩) <| .cons "kind" (.required kind) <|
      .cons "source" (.required source) <| .cons "actor" (.omitting .text "") <|
      .cons "comment" (.omitting .text "") <| .cons "revertsTo" (.pointer serial) <|
      .cons "events" (.omitting (.list (event sp)) []) <| .cons "createdAt" (.always .time 0) .nil)
    (fun c => (c.id, c.zoneID, c.zoneName, c.serialFrom, c.serialTo, c.kind, c.source, c.actor,
      c.comment, c.revertsTo, c.events, c.createdAt, ()))
    fun (id, zoneID, zoneName, serialFrom, serialTo, kind, source, actor, comment, revertsTo, events,
        createdAt, ()) =>
      ⟨id, zoneID, zoneName, serialFrom, serialTo, kind, source, actor, comment, revertsTo, events,
        createdAt⟩

end

end Wire

/-- `wireSetting.check` -/
def settingOf (w : String × Octets) : Except Err (String × Octets) := do
  ensure (w.1 != "") (.invalid "a setting names no setting")
  ensure (Json.valid w.2) (.invalid "the value for the setting is not JSON")
  pure w

/-- `wireKey.key` -/
def keyOf (w : TSIGKey) : Except Err TSIGKey := do
  ensure w.algorithm.valid (.invalid "the key signs with no algorithm this server knows")
  ensure (w.revokedAt.isNone != w.secret.isEmpty)
    (.invalid "a key has a secret until it is revoked and none after")
  pure w

/-- What `NewZone` makes of a name: a forward zone, or a reverse zone with its network. -/
def kindOfName (name : Name) : Except Err (Kind × Option Prefix) :=
  if isReverseName name then (parseReversePrefix name).map fun p => (.reverse, some p)
  else .ok (.forward, none)

def Zone.newZone (name : Name) (soa : SOA) : Except Err Zone := do
  let (kind, netPrefix) ← kindOfName name
  let z : Zone :=
    { id := .empty, name, kind, netPrefix, soa, defaultTTL := 3600, autoReverse := none,
      disabled := false, comment := "", createdAt := 0, updatedAt := 0 }
  z.validate
  pure z

/-- `wireZoneValue.zone`: the kind and the network come from the name. -/
def zoneOf (w : Zone) : Except Err Zone := do
  let z ← Zone.newZone w.name w.soa
  let z := { w with kind := z.kind, netPrefix := z.netPrefix }
  z.validate
  pure z

section

variable (lib : WireLibrary)

def rdataFromWire (t : RRType) (c : Class) (text : Octets) : Except Err RData := do
  let rdata ← lib.parseRData t c text
  ensure (rdata.text == text) (.invalid "the data is not in the canonical form")
  pure rdata

/-- `wireRecord.record` -/
def recordOf (w : Record) : Except Err Record := do
  let rdata ← rdataFromWire lib w.type w.cls w.rdata.text
  let r := { w with rdata }
  r.validate
  ensure (r.id != .empty) (.invalid "a replicated record carries its identity")
  pure r

/-- An event of `wireCommit.commit`. -/
def eventOf (e : Event) : Except Err Event := do
  let rdata ← rdataFromWire lib e.type e.cls e.rdata.text
  pure { e with rdata }

/-- `wireCommit.commit` -/
def commitOf (w : Commit) : Except Err Commit := do
  let events ← w.events.mapM (eventOf lib)
  let c := { w with events }
  c.validate
  pure c

end

open Checked

section Arrival

variable {lib : WireLibrary}

def Canonical (lib : WireLibrary) (t : RRType) (c : Class) (d : RData) : Prop :=
  lib.parseRData t c d.text = .ok d

theorem rdataFromWire_eq_ok {t : RRType} {c : Class} {text : Octets} {d : RData} :
    rdataFromWire lib t c text = .ok d ↔ Canonical lib t c d ∧ d.text = text := by
  simp only [rdataFromWire, bind_eq_ok, ensure_eq_ok, pure_eq_ok, beq_iff_eq]
  constructor
  · rintro ⟨d', hparse, -, rfl, rfl⟩
    exact ⟨hparse, rfl⟩
  · rintro ⟨hparse, rfl⟩
    exact ⟨d, hparse, ⟨⟩, rfl, rfl⟩

theorem recordOf_eq_ok {w r : Record} :
    recordOf lib w = .ok r ↔
      r = w ∧ Canonical lib r.type r.cls r.rdata ∧ r.validate = .ok () ∧ r.id ≠ .empty := by
  simp only [recordOf, bind_eq_ok, ensure_eq_ok, pure_eq_ok, rdataFromWire_eq_ok, bne_iff_ne]
  constructor
  · rintro ⟨d, ⟨hd, htext⟩, ⟨⟩, hvalid, -, hid, rfl⟩
    obtain rfl : d = w.rdata := by cases d; cases htext; rfl
    exact ⟨rfl, hd, hvalid, hid⟩
  · rintro ⟨rfl, hd, hvalid, hid⟩
    exact ⟨r.rdata, ⟨hd, rfl⟩, (), hvalid, ⟨⟩, hid, rfl⟩

theorem eventOf_eq_ok {w e : Event} :
    eventOf lib w = .ok e ↔ e = w ∧ Canonical lib e.type e.cls e.rdata := by
  simp only [eventOf, bind_eq_ok, pure_eq_ok, rdataFromWire_eq_ok]
  constructor
  · rintro ⟨d, ⟨hd, htext⟩, rfl⟩
    obtain rfl : d = w.rdata := by cases d; cases htext; rfl
    exact ⟨rfl, hd⟩
  · rintro ⟨rfl, hd⟩
    exact ⟨e.rdata, ⟨hd, rfl⟩, rfl⟩

theorem keyOf_eq_ok {w k : TSIGKey} :
    keyOf w = .ok k ↔
      k = w ∧ w.algorithm.valid = true ∧ w.revokedAt.isNone ≠ w.secret.isEmpty := by
  simp only [keyOf, check_eq_ok, ensure_eq_ok, return_eq_ok, bne_iff_ne]
  tauto

theorem commitOf_eq_ok {w c : Commit} :
    commitOf lib w = .ok c ↔
      c = w ∧ (∀ e ∈ c.events, Canonical lib e.type e.cls e.rdata) ∧ c.validate = .ok () := by
  simp only [commitOf, bind_eq_ok, pure_eq_ok]
  constructor
  · rintro ⟨events, hevents, ⟨⟩, hvalid, rfl⟩
    obtain ⟨rfl, hcanonical⟩ := (mapM_eq_ok_of_check eventOf_eq_ok).mp hevents
    exact ⟨rfl, hcanonical, hvalid⟩
  · rintro ⟨rfl, hcanonical, hvalid⟩
    exact ⟨c.events, (mapM_eq_ok_of_check eventOf_eq_ok).mpr ⟨rfl, hcanonical⟩, (), hvalid, rfl⟩

theorem kindOfName_of_fits {z : Zone} (h : z.FitsName) :
    kindOfName z.name = .ok (z.kind, z.netPrefix) := by
  rw [kindOfName]
  rcases h with ⟨hkind, hnone, hforward⟩ | ⟨hkind, p, hp, hsome⟩
  · rw [if_neg (by simp [hforward]), hkind, hnone]
  · rw [if_pos (isReverseName_of_parse hp), hp, hkind, hsome]
    rfl

theorem Zone.newZone_of_valid {z : Zone} (hvalid : z.validate = .ok ()) :
    ∃ z', Zone.newZone z.name z.soa = .ok z' ∧ z'.kind = z.kind ∧ z'.netPrefix = z.netPrefix := by
  obtain ⟨-, hsoa, hname⟩ := Zone.validate_eq_ok.mp hvalid
  have httl : validTTL 3600 = true := by decide
  simp only [Zone.newZone, bind_eq_ok, pure_eq_ok]
  exact ⟨_, ⟨_, kindOfName_of_fits hname, (), Zone.validate_eq_ok.mpr ⟨httl, hsoa, hname⟩, rfl⟩,
    rfl, rfl⟩

theorem zoneOf_eq_ok {w z : Zone} :
    zoneOf w = .ok z ↔
      z.validate = .ok () ∧ z = { w with kind := z.kind, netPrefix := z.netPrefix } := by
  simp only [zoneOf, bind_eq_ok, pure_eq_ok]
  constructor
  · rintro ⟨z₀, -, ⟨⟩, hvalid, rfl⟩
    exact ⟨hvalid, rfl⟩
  · rintro ⟨hvalid, hz⟩
    obtain ⟨z₀, hnew, hkind, hprefix⟩ := Zone.newZone_of_valid hvalid
    rw [hz] at hnew
    refine ⟨z₀, hnew, (), ?_, ?_⟩
    · rw [hkind, hprefix, ← hz]
      exact hvalid
    · rw [hkind, hprefix, ← hz]

theorem settingOf_eq_ok {w c : String × Octets} :
    settingOf w = .ok c ↔ c = w ∧ w.1 ≠ "" ∧ Json.valid w.2 = true := by
  simp only [settingOf, check_eq_ok, ensure_eq_ok, return_eq_ok, bne_iff_ne]
  tauto

end Arrival

/-- Two tables of the wire library that undo each other, and have nothing to say of the texts made
of a word and a number. -/
structure TablesAgree (word : String) (out : UInt16 → Option Octets)
    (back : Octets → Option UInt16) : Prop where
  back_out : ∀ v s, out v = some s → isMnemonic s = true → back s = some v
  numbered : ∀ n v, back (ascii word ++ decimal n) = some v → v.toNat = n

/-- Texts that tell what they stand for. -/
structure Spelling.Lawful (sp : Spelling) : Prop where
  read_ident : ∀ id, sp.readIdent (sp.ident id) = id
  ident_utf8 : ∀ id, isUTF8 (sp.ident id) = true
  ident_empty : sp.ident .empty = []
  types : TablesAgree "TYPE" sp.typeToString sp.stringToType
  classes : TablesAgree "CLASS" sp.classToString sp.stringToClass

section Mnemonics

variable {word : String} {out : UInt16 → Option Octets} {back : Octets → Option UInt16}

theorem isMnemonic_plain {s : Octets} (h : isMnemonic s = true) :
    (trimSpace s).map upperASCII = s ∧ isUTF8 s = true := by
  rw [isMnemonic, Bool.and_eq_true] at h
  obtain ⟨hne, hall⟩ := h
  have hplain : ∀ c ∈ s, isSpace c = false ∧ upperASCII c = c ∧ c < 128 := by
    intro c hc
    have hrange : ∀ k : Fin 46, isSpace (UInt8.ofNat (45 + k)) = false ∧
        upperASCII (UInt8.ofNat (45 + k)) = UInt8.ofNat (45 + k) ∧ UInt8.ofNat (45 + k) < 128 := by
      decide
    have hc := all_eq_true.mp hall c hc
    simp only [Bool.or_eq_true, Bool.and_eq_true, decide_eq_true_eq, UInt8.le_iff_toNat_le,
      ← UInt8.toNat_inj, UInt8.reduceToNat] at hc
    have hk := hrange ⟨c.toNat - 45, by omega⟩
    have heq : 45 + (c.toNat - 45) = c.toNat := by omega
    simpa only [heq, UInt8.ofNat_toNat] using hk
  have hnil : s ≠ [] := by
    rintro rfl
    cases hne
  have htrim : trimSpace s = s := by
    refine trimSpace_of_ends (cons_head_tail hnil).symm
      (dropLast_append_getLast hnil).symm ?_ ?_
    · exact (hplain _ (head_mem hnil)).1
    · exact (hplain _ (getLast_mem hnil)).1
  refine ⟨?_, isUTF8_of_low fun c hc => (hplain c hc).2.2⟩
  rw [htrim]
  exact (map_congr_left fun c hc => (hplain c hc).2.1).trans (map_id s)

theorem isMnemonic_numbered {word : String} (hword : isMnemonic (ascii word) = true) (n : Nat) :
    isMnemonic (ascii word ++ decimal n) = true := by
  rw [isMnemonic, Bool.and_eq_true] at hword ⊢
  refine ⟨?_, ?_⟩
  · cases hs : ascii word with
    | nil =>
      rw [hs] at hword
      cases hword.1
    | cons c rest => rfl
  · rw [all_append, hword.2, Bool.true_and, all_eq_true]
    intro c hc
    have hdigit := isDigit_of_mem_decimal hc
    rw [isDigit] at hdigit
    simp [hdigit]

theorem mnemonicText_cases (v : UInt16) :
    (out v = some (mnemonicText word out v) ∧ isMnemonic (mnemonicText word out v) = true) ∨
      mnemonicText word out v = ascii word ++ decimal v.toNat := by
  rw [mnemonicText]
  split
  · next s hs =>
    obtain ⟨hs, hm⟩ := Option.filter_eq_some_iff.mp hs
    exact .inl ⟨hs, hm⟩
  · exact .inr rfl

theorem isMnemonic_mnemonicText (hword : isMnemonic (ascii word) = true) (v : UInt16) :
    isMnemonic (mnemonicText word out v) = true := by
  rcases @mnemonicText_cases word out v with ⟨-, h⟩ | h
  · exact h
  · rw [h]
    exact isMnemonic_numbered hword v.toNat

theorem parseMnemonic_mnemonicText (hword : isMnemonic (ascii word) = true)
    (htables : TablesAgree word out back) (v : UInt16) :
    parseMnemonic word back (mnemonicText word out v) = some v := by
  have hm := @isMnemonic_mnemonicText word out hword v
  rw [parseMnemonic]
  simp only [(isMnemonic_plain hm).1, hm, ↓reduceIte]
  rcases @mnemonicText_cases word out v with ⟨hout, -⟩ | htext
  · rw [htables.back_out v _ hout hm]
  · rw [htext]
    cases hback : back (ascii word ++ decimal v.toNat) with
    | some v' => exact congrArg some (UInt16.toNat_inj.mp (htables.numbered _ _ hback))
    | none =>
      have hfront : (ascii word).isPrefixOf (ascii word ++ decimal v.toNat) = true :=
        isPrefixOf_iff_prefix.mpr (prefix_append _ _)
      simp only [hfront, ↓reduceIte, drop_left]
      rw [parseUint_decimal v.toNat_lt, Option.map_some, UInt16.ofNat_toNat]

end Mnemonics

namespace Wire

section Good

variable {sp : Spelling} {n : Nat}

theorem string_good (n : Nat) : string.Good n fun s => isUTF8 s = true :=
  ⟨string_writes n, string_reads⟩

theorem text_good (n : Nat) : text.Good n fun _ => True :=
  ⟨(string_writes n).via _ _, text_reads⟩

theorem bool_good (n : Nat) : bool.Good n fun _ => True :=
  ⟨bool_writes n, bool_reads⟩

theorem time_good (n : Nat) : time.Good n fun _ => True :=
  ⟨time_writes n, time_reads⟩

theorem bytes_good (n : Nat) : bytes.Good n fun _ => True :=
  ⟨bytes_writes n, bytes_reads⟩

theorem uint_good (bits n : Nat) : (uint bits).Good n fun v => v < 2 ^ bits :=
  ⟨uint_writes bits n, uint_reads bits⟩

theorem oneOf_good {α : Type} {values : List (α × String)} {out : α → String} (n : Nat)
    (h : ∀ a, isUTF8 (ascii (out a)) = true ∧
      (values.find? fun v => ascii v.2 == ascii (out a)).map Prod.fst = some a) :
    (oneOf values out).Good n fun _ => True :=
  (string_good n).via _ _ fun a _ => h a

theorem kind_good (n : Nat) : kind.Good n fun _ => True :=
  oneOf_good n fun a => by cases a <;> decide

theorem source_good (n : Nat) : source.Good n fun _ => True :=
  oneOf_good n fun a => by cases a <;> decide

theorem op_good (n : Nat) : op.Good n fun _ => True :=
  oneOf_good n fun a => by cases a <;> decide

theorem managedKind_good (n : Nat) : managedKind.Good n fun _ => True :=
  oneOf_good n fun a => by cases a <;> decide

theorem name_good (n : Nat) : name.Good n fun _ => True := by
  refine (string_good n).via _ _ fun m _ => ⟨?_, by rw [m.parseName_string]; rfl⟩
  exact isUTF8_of_low fun c hc => (Name.printable_of_mem_string hc).2

theorem ttl_good (n : Nat) : ttl.Good n fun t => validTTL t = true := by
  refine (uint_good 64 n).via _ _ fun t ht => ⟨?_, ?_⟩
  · exact Nat.lt_of_lt_of_le t.toNat_lt (by decide)
  · have hle : t.toNat ≤ maxTTL.toNat := UInt32.le_iff_toNat_le.mp (of_decide_eq_true ht)
    rw [if_pos hle, UInt32.ofNat_toNat]

theorem serial_good (n : Nat) : serial.Good n fun _ => True :=
  (uint_good 32 n).via _ _ fun s _ => ⟨s.v.toNat_lt, by rw [UInt32.ofNat_toNat]⟩

theorem moment_good (n : Nat) : moment.Good n fun t => t ≠ some 0 := by
  have hgood := Field.Good.omitting (time_good n) 0
  refine ⟨fun t text _ hput => hgood.writes (t.getD 0) text trivial hput, fun t text ht hput => ?_⟩
  have hread := hgood.reads (t.getD 0) text trivial hput
  rw [moment]
  dsimp only
  rw [hread, Option.map_some]
  cases t with
  | none => rfl
  | some t => exact congrArg some (if_neg fun h => ht (congrArg some h))

theorem ident_good (hsp : sp.Lawful) (n : Nat) : (ident sp).Good n fun _ => True :=
  (string_good n).via _ _ fun id _ => ⟨hsp.ident_utf8 id, by rw [hsp.read_ident]⟩

theorem type_good (hsp : sp.Lawful) (n : Nat) : (type sp).Good n fun _ => True :=
  (string_good n).via _ _ fun t _ =>
    ⟨(isMnemonic_plain (isMnemonic_mnemonicText (by decide) t)).2,
      parseMnemonic_mnemonicText (by decide) hsp.types t⟩

theorem cls_good (hsp : sp.Lawful) (n : Nat) : (cls sp).Good n fun _ => True :=
  (string_good n).via _ _ fun c _ =>
    ⟨(isMnemonic_plain (isMnemonic_mnemonicText (by decide) c)).2,
      parseMnemonic_mnemonicText (by decide) hsp.classes c⟩

theorem algorithm_good (n : Nat) : (algorithm sp).Good n fun a => a.valid = true := by
  refine (string_good n).via _ _ fun a ha => ?_
  cases a with
  | other number => cases ha
  | hmacSHA256 | hmacSHA384 | hmacSHA512 =>
    rw [algorithmText]
    decide

def soaFits (s : SOA) : Prop :=
  validTTL s.refresh = true ∧ validTTL s.retry = true ∧ validTTL s.expire = true ∧
    validTTL s.minimum = true ∧ validTTL s.ttl = true

theorem soa_good (hn : n + 1 ≤ maxNestingDepth) : soa.Good (n + 1) soaFits := by
  refine Good.struct (.cons (.required (name_good _)) <| .cons (.required (name_good _)) <|
    .cons (.always (serial_good _) _) <| .cons (.always (ttl_good _) _) <|
    .cons (.always (ttl_good _) _) <| .cons (.always (ttl_good _) _) <|
    .cons (.always (ttl_good _) _) <| .cons (.always (ttl_good _) _) (.nil _))
    (by decide) hn (fun _ _ => rfl) fun s hs => ?_
  exact ⟨trivial, trivial, trivial, hs.1, hs.2.1, hs.2.2.1, hs.2.2.2.1, hs.2.2.2.2, trivial⟩

theorem token_good (hsp : sp.Lawful) (hn : n + 2 ≤ maxNestingDepth) :
    (token sp).Good (n + 1) fun t =>
      t.lastUsedAt = none ∧ t.expiresAt ≠ some 0 ∧ t.revokedAt ≠ some 0 := by
  refine Good.struct (.cons (.always (ident_good hsp _) _) <|
    .cons (.always (text_good _) _) <| .cons (.always (text_good _) _) <|
    .cons (.slice (bytes_good _)) <| .cons (.slice ((text_good _).list hn)) <|
    .cons (.always (time_good _) _) <| .cons (moment_good _) <| .cons (moment_good _) (.nil _))
    (by dsimp only [Fields.cons, Fields.nil]; decide) (by omega) (fun t ht => ?_) fun t ht => ?_
  · obtain ⟨id, name, display, hash, scopes, createdAt, lastUsedAt, expiresAt, revokedAt⟩ := t
    obtain rfl : lastUsedAt = none := ht.1
    rfl
  · exact ⟨trivial, trivial, trivial, trivial, fun _ _ => trivial, trivial, ht.2.1, ht.2.2, trivial⟩

theorem key_good (hsp : sp.Lawful) (hn : n + 1 ≤ maxNestingDepth) :
    (key sp).Good (n + 1) fun k => k.algorithm.valid = true ∧ k.revokedAt ≠ some 0 := by
  refine Good.struct (.cons (.always (ident_good hsp _) _) <|
    .cons (.required (name_good _)) <| .cons (.always (algorithm_good _) _) <|
    .cons (.slice (bytes_good _)) <| .cons (.always (time_good _) _) <|
    .cons (moment_good _) (.nil _))
    (by dsimp only [Fields.cons, Fields.nil]; decide) hn (fun _ _ => rfl) fun k hk => ?_
  exact ⟨trivial, trivial, hk.1, trivial, trivial, hk.2, trivial⟩

theorem zoneValue_good (hsp : sp.Lawful) (hn : n + 2 ≤ maxNestingDepth) :
    (zoneValue sp).Good (n + 1) fun z =>
      z.kind = .forward ∧ z.netPrefix = none ∧ soaFits z.soa ∧ validTTL z.defaultTTL = true := by
  refine Good.struct (.cons (.always (ident_good hsp _) _) <|
    .cons (.required (name_good _)) <| .cons (.required (soa_good hn)) <|
    .cons (.always (ttl_good _) _) <| .cons (.pointer (bool_good _)) <|
    .cons (.omitting (bool_good _) _) <| .cons (.omitting (text_good _) _) <|
    .cons (.always (time_good _) _) <| .cons (.always (time_good _) _) (.nil _))
    (by dsimp only [Fields.cons, Fields.nil]; decide) (by omega) (fun z hz => ?_) fun z hz => ?_
  · obtain ⟨id, name, kind, netPrefix, soa, defaultTTL, autoReverse, disabled, comment, c, u⟩ := z
    obtain ⟨rfl, rfl, -⟩ : kind = .forward ∧ netPrefix = none ∧ _ := hz
    rfl
  · exact ⟨trivial, trivial, hz.2.2.1, hz.2.2.2, fun _ _ => trivial, trivial, trivial, trivial,
      trivial, trivial⟩

theorem record_good (hsp : sp.Lawful) (hn : n + 1 ≤ maxNestingDepth) :
    (record sp).Good (n + 1) fun r => validTTL r.ttl = true ∧ isUTF8 r.rdata.text = true := by
  refine Good.struct (.cons (.always (ident_good hsp _) _) <|
    .cons (.always (ident_good hsp _) _) <| .cons (.required (name_good _)) <|
    .cons (.always (cls_good hsp _) _) <| .cons (.always (type_good hsp _) _) <|
    .cons (.always (ttl_good _) _) <| .cons (.always (string_good _) _) <|
    .cons (.omitting (ident_good hsp _) _) <| .cons (.pointer (managedKind_good _)) <|
    .cons (.omitting (text_good _) _) <| .cons (.omitting (bool_good _) _) <|
    .cons (.always (time_good _) _) <| .cons (.always (time_good _) _) (.nil _))
    (by dsimp only [Fields.cons, Fields.nil]; decide) hn (fun _ _ => rfl) fun r hr => ?_
  exact ⟨trivial, trivial, trivial, trivial, trivial, hr.1, hr.2, trivial, fun _ _ => trivial,
    trivial, trivial, trivial, trivial, trivial⟩

theorem event_good (hsp : sp.Lawful) (hn : n + 1 ≤ maxNestingDepth) :
    (event sp).Good (n + 1) fun e =>
      e.seq < 2 ^ 63 ∧ validTTL e.ttl = true ∧ isUTF8 e.rdata.text = true := by
  refine Good.struct (.cons (.always (uint_good 63 _) _) <|
    .cons (.required (op_good _)) <| .cons (.required (name_good _)) <|
    .cons (.always (cls_good hsp _) _) <| .cons (.always (type_good hsp _) _) <|
    .cons (.always (ttl_good _) _) <| .cons (.always (string_good _) _) (.nil _))
    (by dsimp only [Fields.cons, Fields.nil]; decide) hn (fun _ _ => rfl) fun e he => ?_
  exact ⟨he.1, trivial, trivial, trivial, trivial, he.2.1, he.2.2, trivial⟩

theorem commit_good (hsp : sp.Lawful) (hn : n + 3 ≤ maxNestingDepth) :
    (commit sp).Good (n + 1) fun c =>
      ∀ e ∈ c.events, e.seq < 2 ^ 63 ∧ validTTL e.ttl = true ∧ isUTF8 e.rdata.text = true := by
  refine Good.struct (.cons (.always (ident_good hsp _) _) <|
    .cons (.always (ident_good hsp _) _) <| .cons (.required (name_good _)) <|
    .cons (.always (serial_good _) _) <| .cons (.always (serial_good _) _) <|
    .cons (.required (kind_good _)) <| .cons (.required (source_good _)) <|
    .cons (.omitting (text_good _) _) <| .cons (.omitting (text_good _) _) <|
    .cons (.pointer (serial_good _)) <|
    .cons (.omitting ((event_good hsp hn).list (by omega)) _) <|
    .cons (.always (time_good _) _) (.nil _))
    (by dsimp only [Fields.cons, Fields.nil]; decide) (by omega) (fun _ _ => rfl) fun c hc => ?_
  exact ⟨trivial, trivial, trivial, trivial, trivial, trivial, trivial, trivial, trivial,
    fun _ _ => trivial, hc, trivial, trivial⟩

theorem setting_writes {depth : Nat} (hn : n ≤ maxNestingDepth) (hdepth : n ≤ depth) :
    setting.Writes n fun c => validAt depth c.2 = true := by
  refine (Format.struct_writes (.cons (Field.always_writes (text_good (depth + 1)).writes "")
    (.cons (Field.raw_writes depth) (nil_writes _))) hn (by omega) _ _).mono fun c hc => ?_
  exact ⟨trivial, hc, trivial⟩

theorem setting_writes_zero : setting.Writes 0 fun _ => True := by
  refine (Format.struct_writes (.cons (Field.always_writes (text_good 1).writes "")
    (.cons Field.raw_writes_one (nil_writes _))) (by decide) (by decide) _ _).mono fun c _ => ?_
  exact ⟨trivial, trivial, trivial⟩

theorem setting_reads : setting.Reads fun c => validAt 0 c.2 = true ∧ compact c.2 = c.2 := by
  intro c t hc ht
  refine struct_reads (by dsimp only [Fields.cons, Fields.nil]; decide)
    (.cons (Field.always_writes (text_good 1).writes "")
      (.cons (Field.raw_writes 0) (nil_writes _)))
    (.cons (Field.Good.always (text_good 1) "").reads (.cons Field.raw_reads Fields.nil_reads)) rfl t
    ⟨trivial, hc.1, trivial⟩ ⟨trivial, hc.2, trivial⟩ ht

end Good

end Wire

end Wegweiser
