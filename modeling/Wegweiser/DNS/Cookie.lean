/-
Server cookies.

A server cookie is a version, three reserved octets, a timestamp and a keyed hash over those, the
client's half and its address.
-/
import Wegweiser.Lib.Endian
import Wegweiser.Zone.Zone

namespace Wegweiser

open Endian

namespace Addr

def is4In6 : Addr → Bool
  | v4 _ => false
  | v6 bits _ => decide (bits.toNat / 2 ^ 32 = 0xffff)

/-- `Addr.As4`, of an address that has one. -/
def as4 : Addr → Octets
  | v4 bits => big 4 bits.toNat
  | v6 bits _ => big 4 (bits.toNat % 2 ^ 32)

def as16 : Addr → Octets
  | v4 bits => big 16 (0xffff * 2 ^ 32 + bits.toNat)
  | v6 bits _ => big 16 bits.toNat

end Addr

namespace DNS

def clientCookieLen : Nat := 8
def minServerCookie : Nat := 8
def maxServerCookie : Nat := 32
def serverCookieLen : Nat := 16
def cookieLen : Nat := clientCookieLen + serverCookieLen
def cookieVersion : UInt8 := 1
def cookieMaxAge : Int := 3600
def cookieMaxSkew : Int := 300
def cookieRenewAge : Int := 1800

section SipHash

/-- The four words of state. -/
structure SipState where
  v0 : BitVec 64
  v1 : BitVec 64
  v2 : BitVec 64
  v3 : BitVec 64

def sipRound (s : SipState) : SipState :=
  let v0 := s.v0 + s.v1
  let v1 := s.v1.rotateLeft 13
  let v1 := v1 ^^^ v0
  let v0 := v0.rotateLeft 32
  let v2 := s.v2 + s.v3
  let v3 := s.v3.rotateLeft 16
  let v3 := v3 ^^^ v2
  let v0 := v0 + v3
  let v3 := v3.rotateLeft 21
  let v3 := v3 ^^^ v0
  let v2 := v2 + v1
  let v1 := v1.rotateLeft 17
  let v1 := v1 ^^^ v2
  let v2 := v2.rotateLeft 32
  ⟨v0, v1, v2, v3⟩

def sipBlock (s : SipState) (m : BitVec 64) : SipState :=
  let s := sipRound (sipRound { s with v3 := s.v3 ^^^ m })
  { s with v0 := s.v0 ^^^ m }

/-- `binary.LittleEndian.Uint64` -/
def leWord (l : Octets) : BitVec 64 := BitVec.ofNat 64 (ofLittle l)

def sipBlocks (s : SipState) : Octets → SipState × Octets
  | a :: b :: c :: d :: e :: f :: g :: h :: rest =>
    sipBlocks (sipBlock s (leWord [a, b, c, d, e, f, g, h])) rest
  | rest => (s, rest)

def sipHash24 (k0 k1 : BitVec 64) (msg : Octets) : BitVec 64 :=
  let start : SipState :=
    ⟨k0 ^^^ 0x736f6d6570736575, k1 ^^^ 0x646f72616e646f6d, k0 ^^^ 0x6c7967656e657261,
      k1 ^^^ 0x7465646279746573⟩
  let (s, rest) := sipBlocks start msg
  -- the length of the message goes into the top octet of the last block
  let last := rest.zipIdx.foldl (fun last b => last ||| BitVec.ofNat 64 b.1.toNat <<< (8 * b.2))
    (BitVec.ofNat 64 msg.length <<< 56)
  let s := sipBlock s last
  let s := sipRound (sipRound (sipRound (sipRound { s with v2 := s.v2 ^^^ 0xff })))
  s.v0 ^^^ s.v1 ^^^ s.v2 ^^^ s.v3

end SipHash

abbrev CookieSecret := Vector UInt8 16

def CookieSecret.unset : CookieSecret := Vector.replicate 16 0

structure CookieSecrets where
  current : CookieSecret
  previous : CookieSecret
deriving DecidableEq

def CookieSecrets.usable (s : CookieSecrets) : Bool := s.current != CookieSecret.unset

abbrev ClientCookie := Vector UInt8 8

section Hash

-- what `sipHash24` stands for: a keyed hash of a message
variable (keyed : BitVec 64 → BitVec 64 → Octets → BitVec 64)

def hashInput (client head : Octets) (ts : BitVec 32) (ip : Addr) : Octets :=
  client ++ head ++ big 4 ts.toNat ++
    if ip.is4 || ip.is4In6 then ip.as4 else ip.as16

def CookieSecret.words (s : CookieSecret) : BitVec 64 × BitVec 64 :=
  (leWord (s.toList.take 8), leWord (s.toList.drop 8))

def CookieSecret.hash (s : CookieSecret) (client head : Octets) (ts : BitVec 32) (ip : Addr) :
    BitVec 64 :=
  keyed s.words.1 s.words.2 (hashInput client head ts ip)

def cookieHead : Octets := [cookieVersion, 0, 0, 0]

def CookieSecret.serverCookie (s : CookieSecret) (client : Octets) (ip : Addr) (ts : BitVec 32) :
    Octets :=
  cookieHead ++ big 4 ts.toNat ++
    little 8 (s.hash keyed client cookieHead ts ip).toNat

/-- `binary.BigEndian.Uint32(server[4:])` -/
def cookieStamp (server : Octets) : BitVec 32 :=
  BitVec.ofNat 32 (ofBig ((server.drop 4).take 4))

def CookieSecret.matches (s : CookieSecret) (client server : Octets) (ip : Addr) : Bool :=
  if server.length != serverCookieLen || server.head? != some cookieVersion then false
  else
    let want := s.hash keyed client (server.take 4) (cookieStamp server) ip
    little 8 want.toNat == server.drop 8

def CookieSecrets.knows (s : CookieSecrets) (client server : Octets) (ip : Addr) : Bool :=
  s.current.matches keyed client server ip ||
    (s.previous != CookieSecret.unset && s.previous.matches keyed client server ip)

end Hash

def cookieAge (ts now : BitVec 32) : Int := (now - ts).toInt

def cookieUsable (ts now : BitVec 32) : Bool :=
  decide (cookieAge ts now ≤ cookieMaxAge) && decide (-cookieMaxSkew ≤ cookieAge ts now)

def cookieWorn (ts now : BitVec 32) : Bool := decide (cookieRenewAge ≤ cookieAge ts now)

def splitCookie (opt : Octets) : Option (Octets × Octets) :=
  if opt.length = clientCookieLen then some (opt, [])
  else if clientCookieLen + minServerCookie ≤ opt.length ∧
      opt.length ≤ clientCookieLen + maxServerCookie then
    some (opt.take clientCookieLen, opt.drop clientCookieLen)
  else none

/-- `Time.Unix`, of a time in nanoseconds. -/
def unix (t : Int) : Int := t / 1000000000

def cookieNow (t : Int) : BitVec 32 := BitVec.ofInt 32 (unix t)

def unhex (c : UInt8) : Option UInt8 :=
  if 48 ≤ c ∧ c ≤ 57 then some (c - 48)
  else if 97 ≤ c ∧ c ≤ 102 then some (c - 97 + 10)
  else if 65 ≤ c ∧ c ≤ 70 then some (c - 65 + 10)
  else none

def unhexPairs : Octets → Option Octets
  | hi :: lo :: rest => do
      let hi ← unhex hi
      let lo ← unhex lo
      let rest ← unhexPairs rest
      some ((hi <<< 4 ||| lo) :: rest)
  | _ => some []

/-- `decodeCookieHex`, into a buffer of the given size. -/
def decodeCookieHex (s : Octets) (size : Nat) : Option Octets :=
  if s.length % 2 ≠ 0 ∨ size < s.length / 2 then none else unhexPairs s

/-- `hex.EncodeToString`, the form the wire library hands a cookie over in. -/
def hexText (l : Octets) : Octets :=
  l.flatMap fun o => [hexOctet (o.toNat / 16), hexOctet (o.toNat % 16)]

/-- An option of an OPT record.  Of a cookie it is the text the wire library makes of it. -/
inductive EDNS0 where
  | cookie (text : Octets)
  | other (code : Nat)
deriving DecidableEq

def requestCookie : List EDNS0 → Option Octets
  | [] => none
  | .cookie text :: _ => some text
  | .other _ :: rest => requestCookie rest

/-- What a responder notes of the cookie of a query. -/
structure CookieNote where
  out : Octets
  has : Bool
  valid : Bool
deriving DecidableEq

/-- `Responder.begin`, as far as cookies go: the buffer stays as it is. -/
def CookieNote.begin (r : CookieNote) : CookieNote := { r with has := false, valid := false }

/-- `Responder.readCookie`, at a time and with the secrets the server has published. -/
def readCookie (keyed : BitVec 64 → BitVec 64 → Octets → BitVec 64) (secrets : CookieSecrets)
    (now : Int) (reqOPT : Option (List EDNS0)) (sender : Addr) (r : CookieNote) :
    Bool × CookieNote :=
  match reqOPT.bind requestCookie with
  | none => (true, r)
  | some text =>
    match decodeCookieHex text (clientCookieLen + maxServerCookie) with
    | none => (false, r)
    | some raw =>
      match splitCookie raw with
      | none => (false, r)
      | some (client, server) =>
        if !secrets.usable then (true, r)
        else
          let known := secrets.knows keyed client server sender
          let ours := known && cookieUsable (cookieStamp server) (cookieNow now)
          let worn := known && cookieWorn (cookieStamp server) (cookieNow now)
          if ours && !worn then (true, ⟨raw, true, ours⟩)
          else
            (true, ⟨client ++ secrets.current.serverCookie keyed client sender (cookieNow now),
              true, ours⟩)

section Octets

variable {l : Octets} {a : Addr}

theorem leWord_inj {l' : Octets} (hl : l.length = 8) (hl' : l'.length = 8)
    (h : leWord l = leWord l') : l = l' := by
  have hlt : ofLittle l < 2 ^ 64 := by simpa [hl] using ofLittle_lt l
  have hlt' : ofLittle l' < 2 ^ 64 := by simpa [hl'] using ofLittle_lt l'
  have hnat := congrArg BitVec.toNat h
  rw [leWord, leWord, BitVec.toNat_ofNat, BitVec.toNat_ofNat, Nat.mod_eq_of_lt hlt,
    Nat.mod_eq_of_lt hlt'] at hnat
  exact ofLittle_inj (hl.trans hl'.symm) hnat

theorem CookieSecret.words_inj {s s' : CookieSecret} (h : s.words = s'.words) : s = s' := by
  obtain ⟨hlow, hhigh⟩ := Prod.mk.inj h
  have htake := leWord_inj (by simp) (by simp) hlow
  have hdrop := leWord_inj (by simp) (by simp) hhigh
  apply Vector.toList_inj.mp
  rw [← List.take_append_drop 8 s.toList, htake, hdrop, List.take_append_drop]

theorem addrOctets_eq_iff {b : Addr} : ((if a.is4 || a.is4In6 then a.as4 else a.as16) =
      if b.is4 || b.is4In6 then b.as4 else b.as16) ↔ a.column = b.column := by
  have hform : ∀ c : Addr, (if c.is4 || c.is4In6 then c.as4 else c.as16) =
      match c.column with
      | .v4 bits => big 4 bits.toNat
      | .v6 bits _ => big 16 bits.toNat := by
    intro c
    cases c with
    | v4 bits => rfl
    | v6 bits scope =>
      by_cases hmapped : bits.toNat / 2 ^ 32 = 0xffff
      · rw [Addr.column, Addr.unmap, if_pos hmapped, Addr.is4In6, decide_eq_true hmapped,
          Bool.or_true, if_pos rfl]
        rfl
      · rw [Addr.column, Addr.unmap, if_neg hmapped, Addr.is4In6, decide_eq_false hmapped]
        rfl
  have hscope : ∀ c : Addr, (∃ bits, c.column = .v4 bits) ∨ ∃ bits, c.column = .v6 bits [] := by
    intro c
    rw [Addr.column]
    cases c.unmap with
    | v4 bits => exact .inl ⟨bits, rfl⟩
    | v6 bits scope => exact .inr ⟨bits, rfl⟩
  have hfour : ∀ x y : BitVec 32, big 4 x.toNat = big 4 y.toNat ↔ x = y :=
    fun x y => (big_inj x.isLt y.isLt).trans BitVec.toNat_inj
  have hsixteen : ∀ x y : BitVec 128, big 16 x.toNat = big 16 y.toNat ↔ x = y :=
    fun x y => (big_inj x.isLt y.isLt).trans BitVec.toNat_inj
  have hne : ∀ (x : BitVec 32) (y : BitVec 128), big 4 x.toNat ≠ big 16 y.toNat := by
    intro x y h
    simpa using congrArg List.length h
  rw [hform, hform]
  rcases hscope a with ⟨x, ha⟩ | ⟨x, ha⟩
  · rcases hscope b with ⟨y, hb⟩ | ⟨y, hb⟩
    · simp [ha, hb, hfour]
    · simp [ha, hb, hne]
  · rcases hscope b with ⟨y, hb⟩ | ⟨y, hb⟩
    · simp [ha, hb, (hne _ _).symm]
    · simp [ha, hb, hsixteen]

theorem hashInput_eq_iff {c c' head : Octets} {ts : BitVec 32} {a' : Addr}
    (hlen : c.length = c'.length) :
    hashInput c head ts a = hashInput c' head ts a' ↔ c = c' ∧ a.column = a'.column := by
  rw [← addrOctets_eq_iff]
  constructor
  · intro h
    simp only [hashInput, List.append_assoc] at h
    obtain ⟨hc, hrest⟩ := List.append_inj h hlen
    exact ⟨hc, List.append_cancel_left (List.append_cancel_left hrest)⟩
  · rintro ⟨rfl, haddr⟩
    rw [hashInput, hashInput, haddr]

theorem unhex_hexOctet {n : Nat} (h : n < 16) : unhex (hexOctet n) = some (UInt8.ofNat n) := by
  have hall : ∀ n : Fin 16, unhex (hexOctet n) = some (UInt8.ofNat n) := by decide +kernel
  exact hall ⟨n, h⟩

theorem nibbles (o : UInt8) :
    UInt8.ofNat (o.toNat / 16) <<< 4 ||| UInt8.ofNat (o.toNat % 16) = o := by
  have hall : ∀ n : Fin 256,
      UInt8.ofNat (n / 16) <<< 4 ||| UInt8.ofNat (n % 16) = UInt8.ofNat n := by decide +kernel
  have ho := hall ⟨o.toNat, o.toNat_lt⟩
  rwa [UInt8.ofNat_toNat] at ho

theorem length_hexText (l : Octets) : (hexText l).length = 2 * l.length := by
  induction l with
  | nil => rfl
  | cons o rest ih =>
    rw [hexText, List.flatMap_cons, List.length_append, ← hexText, ih, List.length_cons,
      List.length_cons, List.length_cons, List.length_nil]
    omega

theorem unhexPairs_hexText (l : Octets) : unhexPairs (hexText l) = some l := by
  induction l with
  | nil => rfl
  | cons o rest ih =>
    have hhi := unhex_hexOctet (show o.toNat / 16 < 16 from by have := o.toNat_lt; omega)
    have hlo := unhex_hexOctet (show o.toNat % 16 < 16 from Nat.mod_lt _ (by decide))
    change unhexPairs (hexOctet (o.toNat / 16) :: hexOctet (o.toNat % 16) :: hexText rest) = _
    rw [unhexPairs, hhi, hlo, ih]
    dsimp only [Option.bind_eq_bind, Option.bind_some]
    rw [nibbles]

theorem decodeCookieHex_hexText {size : Nat} (h : l.length ≤ size) :
    decodeCookieHex (hexText l) size = some l := by
  rw [decodeCookieHex, length_hexText, if_neg (by omega), unhexPairs_hexText]

end Octets

section Read

variable {keyed : BitVec 64 → BitVec 64 → Octets → BitVec 64}

theorem length_serverCookie (s : CookieSecret) (c : Octets) (a : Addr) (ts : BitVec 32) :
    (s.serverCookie keyed c a ts).length = serverCookieLen := by
  simp [CookieSecret.serverCookie, cookieHead, serverCookieLen]

theorem cookieStamp_serverCookie (s : CookieSecret) (c : Octets) (a : Addr) (ts : BitVec 32) :
    cookieStamp (s.serverCookie keyed c a ts) = ts := by
  have hoctets : ((s.serverCookie keyed c a ts).drop 4).take 4 = big 4 ts.toNat := by
    rw [CookieSecret.serverCookie, List.append_assoc]
    exact List.take_left' (length_big 4 _)
  have hlt : ts.toNat < 256 ^ 4 := ts.isLt
  rw [cookieStamp, hoctets, ofBig_big, Nat.mod_eq_of_lt hlt, BitVec.ofNat_toNat,
    BitVec.setWidth_eq]

variable {s : CookieSecret} {c client server : Octets} {a sender : Addr} {ts : BitVec 32}
  {p : CookieSecrets} {now : Int} {r : CookieNote} {options : List EDNS0}

theorem CookieSecret.matches_serverCookie {s' : CookieSecret} {c' : Octets} {a' : Addr} :
    s'.matches keyed c' (s.serverCookie keyed c a ts) a' = true ↔
      s'.hash keyed c' cookieHead ts a' = s.hash keyed c cookieHead ts a := by
  have hhead : (s.serverCookie keyed c a ts).head? = some cookieVersion := rfl
  have htake : (s.serverCookie keyed c a ts).take 4 = cookieHead := rfl
  have hdrop : (s.serverCookie keyed c a ts).drop 8 =
      little 8 (s.hash keyed c cookieHead ts a).toNat := by
    rw [CookieSecret.serverCookie, List.drop_left']
    rw [List.length_append, length_big]
    rfl
  rw [CookieSecret.matches, length_serverCookie, hhead, cookieStamp_serverCookie, htake, hdrop]
  simp only [bne_self_eq_false, Bool.or_self, Bool.false_eq_true, if_false, beq_iff_eq]
  rw [little_inj (BitVec.isLt _) (BitVec.isLt _), BitVec.toNat_inj]

theorem CookieSecret.length_of_matches
    (h : s.matches keyed client server a = true) : server.length = serverCookieLen := by
  rw [CookieSecret.matches] at h
  split at h
  · cases h
  · next hshape =>
    simp only [Bool.or_eq_true, bne_iff_ne, not_or, not_not] at hshape
    exact hshape.1

theorem CookieSecrets.knows_iff :
    p.knows keyed client server a = true ↔
      p.current.matches keyed client server a = true ∨
        p.previous ≠ CookieSecret.unset ∧ p.previous.matches keyed client server a = true := by
  rw [CookieSecrets.knows, Bool.or_eq_true, Bool.and_eq_true, bne_iff_ne]

theorem readCookie_valid_iff {reqOPT : Option (List EDNS0)} :
    (readCookie keyed p now reqOPT sender r.begin).2.valid = true ↔
      ∃ text raw client server, reqOPT.bind requestCookie = some text ∧
        decodeCookieHex text (clientCookieLen + maxServerCookie) = some raw ∧
        splitCookie raw = some (client, server) ∧ p.usable = true ∧
        p.knows keyed client server sender = true ∧
        cookieUsable (cookieStamp server) (cookieNow now) = true := by
  rw [readCookie]
  cases htext : reqOPT.bind requestCookie with
  | none => simp [CookieNote.begin]
  | some text =>
    cases hraw : decodeCookieHex text (clientCookieLen + maxServerCookie) with
    | none => simp [hraw, CookieNote.begin]
    | some raw =>
      cases hsplit : splitCookie raw with
      | none => simp [hraw, hsplit, CookieNote.begin]
      | some halves =>
        obtain ⟨client, server⟩ := halves
        simp only [hraw, hsplit]
        cases p.usable with
        | false => simp [CookieNote.begin]
        | true =>
          -- whichever cookie goes back, it is valid where it was ours and not too old
          have hours : ∀ (b : Bool) (x y : Octets) (ours : Bool),
              (if b = true then (true, CookieNote.mk x true ours)
                else (true, CookieNote.mk y true ours)).2.valid = ours := by
            intro b x y ours
            cases b <;> rfl
          rw [Bool.not_true, if_neg Bool.false_ne_true, hours, Bool.and_eq_true]
          simp [hraw, hsplit]

theorem cookieAge_cookieNow (t v : Int) :
    cookieAge (cookieNow t) (cookieNow v) = (unix v - unix t).bmod (2 ^ 32) := by
  rw [cookieAge, cookieNow, cookieNow, BitVec.toInt_sub, BitVec.toInt_ofInt, BitVec.toInt_ofInt,
    Int.bmod_sub_bmod, Int.sub_bmod_bmod]

theorem cookieUsable_cookieNow (t v : Int) :
    cookieUsable (cookieNow t) (cookieNow v) = true ↔
      -300 ≤ (unix v - unix t).bmod (2 ^ 32) ∧ (unix v - unix t).bmod (2 ^ 32) ≤ 3600 := by
  rw [cookieUsable, Bool.and_eq_true, decide_eq_true_eq, decide_eq_true_eq, cookieAge_cookieNow,
    cookieMaxAge, cookieMaxSkew]
  exact And.comm

theorem splitCookie_append (hc : c.length = clientCookieLen)
    (hserver : server.length = serverCookieLen) : splitCookie (c ++ server) = some (c, server) := by
  rw [clientCookieLen] at hc
  rw [serverCookieLen] at hserver
  rw [splitCookie, List.length_append, hc, hserver, if_neg (by decide), if_pos (by decide),
    clientCookieLen, List.take_left' hc, List.drop_left' hc]

theorem readCookie_serverCookie {c c' : ClientCookie} (hopt : requestCookie options =
      some (hexText (c'.toList ++ s.serverCookie keyed c.toList a ts))) :
    (readCookie keyed p now (some options) sender r.begin).2.valid = true ↔
      p.usable = true ∧ p.knows keyed c'.toList
    (s.serverCookie keyed c.toList a ts) sender = true ∧
        cookieUsable ts (cookieNow now) = true := by
  have hraw : decodeCookieHex (hexText (c'.toList ++ s.serverCookie keyed c.toList a ts))
      (clientCookieLen + maxServerCookie) = some (c'.toList ++ s.serverCookie keyed c.toList a ts) := by
    apply decodeCookieHex_hexText
    rw [List.length_append, length_serverCookie, Vector.length_toList]
    decide
  have hsplit : splitCookie (c'.toList ++ s.serverCookie keyed c.toList a ts) =
      some (c'.toList, s.serverCookie keyed c.toList a ts) :=
    splitCookie_append c'.length_toList (length_serverCookie s c.toList a ts)
  rw [readCookie_valid_iff]
  constructor
  · rintro ⟨text, raw, client, server, htext, hdecoded, hhalves, husable, hours, hage⟩
    rw [Option.bind_some, hopt] at htext
    cases htext
    rw [hraw] at hdecoded
    cases hdecoded
    rw [hsplit] at hhalves
    cases hhalves
    rw [cookieStamp_serverCookie] at hage
    exact ⟨husable, hours, hage⟩
  · rintro ⟨husable, hours, hage⟩
    refine ⟨_, _, _, _, hopt, hraw, hsplit, husable, hours, ?_⟩
    rw [cookieStamp_serverCookie]
    exact hage

theorem length_of_valid {raw : Octets} (hopt : requestCookie options = some (hexText raw))
    (h : (readCookie keyed p now (some options) sender r.begin).2.valid = true) :
    raw.length = cookieLen := by
  obtain ⟨text, raw', client, server, htext, hraw, hsplit, -, hknows, -⟩ := readCookie_valid_iff.mp h
  rw [Option.bind_some, hopt] at htext
  cases htext
  have hraw' : raw' = raw := by
    rw [decodeCookieHex] at hraw
    split at hraw
    · cases hraw
    · rw [unhexPairs_hexText] at hraw
      exact (Option.some.inj hraw).symm
  subst hraw'
  have hserver : server.length = serverCookieLen := by
    rcases CookieSecrets.knows_iff.mp hknows with hmatch | ⟨-, hmatch⟩
    · exact CookieSecret.length_of_matches hmatch
    · exact CookieSecret.length_of_matches hmatch
  rw [splitCookie] at hsplit
  split at hsplit
  · cases hsplit
    cases hserver
  · split at hsplit
    · next hbounds =>
      cases hsplit
      rw [List.length_drop] at hserver
      rw [cookieLen]
      rw [clientCookieLen, serverCookieLen] at *
      omega
    · cases hsplit

end Read

section Accepted

variable (keyed : BitVec 64 → BitVec 64 → Octets → BitVec 64)

def CollisionFree (uses : List ((BitVec 64 × BitVec 64) × Octets)) : Prop :=
  ∀ p ∈ uses, ∀ q ∈ uses, keyed p.1.1 p.1.2 p.2 = keyed q.1.1 q.1.2 q.2 → p = q

/-- The hashes of an exchange: the one a cookie was issued with, and those it is compared to. -/
def cookieUses (s : CookieSecret) (p : CookieSecrets) (c c' : Octets) (a a' : Addr)
    (ts : BitVec 32) : List ((BitVec 64 × BitVec 64) × Octets) :=
  [(s.words, hashInput c cookieHead ts a), (p.current.words, hashInput c' cookieHead ts a'),
    (p.previous.words, hashInput c' cookieHead ts a')]

instance (uses : List ((BitVec 64 × BitVec 64) × Octets)) : Decidable (CollisionFree keyed uses) :=
  inferInstanceAs (Decidable (∀ p ∈ uses, ∀ q ∈ uses,
    keyed p.1.1 p.1.2 p.2 = keyed q.1.1 q.1.2 q.2 → p = q))

variable {keyed}

theorem matches_iff_of_collisionFree {s s' : CookieSecret} {p : CookieSecrets}
    {c c' : ClientCookie} {a a' : Addr} {ts : BitVec 32}
    (hfree : CollisionFree keyed (cookieUses s p c.toList c'.toList a a' ts))
    (hs' : s' = p.current ∨ s' = p.previous) :
    s'.matches keyed c'.toList (s.serverCookie keyed c.toList a ts) a' = true ↔
      c = c' ∧ a.column = a'.column ∧ s = s' := by
  have hlen : c.toList.length = c'.toList.length := by simp
  have hinput : hashInput c.toList cookieHead ts a = hashInput c'.toList cookieHead ts a' ↔
      c.toList = c'.toList ∧ a.column = a'.column := hashInput_eq_iff hlen
  rw [CookieSecret.matches_serverCookie]
  constructor
  · intro hhash
    have hused : (s'.words, hashInput c'.toList cookieHead ts a') ∈
        cookieUses s p c.toList c'.toList a a' ts := by
      rcases hs' with rfl | rfl
      · simp [cookieUses]
      · simp [cookieUses]
    have heq := hfree _ hused _ List.mem_cons_self hhash
    obtain ⟨hwords, hinputs⟩ := Prod.mk.inj heq
    obtain ⟨hc, ha⟩ := hinput.mp hinputs.symm
    exact ⟨Vector.toList_inj.mp hc, ha, (CookieSecret.words_inj hwords).symm⟩
  · rintro ⟨rfl, ha, rfl⟩
    rw [CookieSecret.hash, CookieSecret.hash, hinput.mpr ⟨rfl, ha⟩]

variable (keyed) (s : CookieSecret) (p : CookieSecrets) (c c' : ClientCookie) (a a' : Addr)
  (t v : Int) (options : List EDNS0) (r : CookieNote)

/-- A cookie issued under a secret, for a client at an address and at a time, is valid just for
that client at that address, while the secret is in force and the cookie neither too old nor
too far ahead.  What does not have the length of a cookie is never valid. -/
theorem cookie_valid_iff (hs : s ≠ CookieSecret.unset) (hcurrent : p.current ≠ CookieSecret.unset)
    (hfree : CollisionFree keyed (cookieUses s p c.toList c'.toList a a' (cookieNow t)))
    (hopt : requestCookie options =
      some (hexText (c'.toList ++ s.serverCookie keyed c.toList a (cookieNow t)))) :
    ((readCookie keyed p v (some options) a' r.begin).2.valid = true ↔
        c = c' ∧ a.column = a'.column ∧ (s = p.current ∨ s = p.previous) ∧
          -300 ≤ (unix v - unix t).bmod (2 ^ 32) ∧ (unix v - unix t).bmod (2 ^ 32) ≤ 3600) ∧
      ∀ (others : List EDNS0) (raw : Octets), requestCookie others = some (hexText raw) →
        raw.length ≠ clientCookieLen + 16 →
          (readCookie keyed p v (some others) a' r.begin).2.valid = false := by
  constructor
  · have hknows : p.knows keyed c'.toList (s.serverCookie keyed c.toList a (cookieNow t)) a' = true ↔
        c = c' ∧ a.column = a'.column ∧ (s = p.current ∨ s = p.previous) := by
      rw [CookieSecrets.knows_iff, matches_iff_of_collisionFree hfree (.inl rfl),
        matches_iff_of_collisionFree hfree (.inr rfl)]
      constructor
      · rintro (⟨hc, ha, hsame⟩ | ⟨-, hc, ha, hsame⟩)
        · exact ⟨hc, ha, .inl hsame⟩
        · exact ⟨hc, ha, .inr hsame⟩
      · rintro ⟨hc, ha, hsame | hsame⟩
        · exact .inl ⟨hc, ha, hsame⟩
        · exact .inr ⟨hsame ▸ hs, hc, ha, hsame⟩
    have husable : p.usable = true := bne_iff_ne.mpr hcurrent
    rw [readCookie_serverCookie hopt, hknows, cookieUsable_cookieNow, and_iff_right husable,
      and_assoc, and_assoc]
  · intro others raw hothers hlen
    rw [Bool.eq_false_iff]
    intro hvalid
    exact hlen (length_of_valid hothers hvalid)

end Accepted

end DNS

namespace Sample

def cookieSecret : DNS.CookieSecret :=
  #v[0xe5, 0xe9, 0x73, 0xe5, 0xa6, 0xb2, 0xa4, 0x3f, 0x48, 0xe7, 0xdc, 0x84, 0x9e, 0x37, 0xbf, 0xcf]

def rolledSecret : DNS.CookieSecret :=
  #v[0x44, 0x55, 0x36, 0xbc, 0xd2, 0x51, 0x32, 0x98, 0x07, 0x5a, 0x5d, 0x37, 0x96, 0x63, 0xc9, 0x62]

def cookieClient : DNS.ClientCookie := #v[0x24, 0x64, 0xc4, 0xab, 0xcf, 0x10, 0xc9, 0x57]

def cookieAddr : Addr := .v4 0xc6336464

def mappedAddr : Addr := .v6 0xffffc6336464 []

end Sample

open Sample

namespace DNS

example : cookieSecret.serverCookie sipHash24 cookieClient.toList cookieAddr
    1559731985 = [1, 0, 0, 0, 0x5c, 0xf7, 0x9f, 0x11, 0x1f, 0x81, 0x30, 0xc3, 0xee, 0xe2, 0x94, 0x80] := by
  decide +kernel

/-- After the secret rolled over, and at the same address seen through another socket. -/
theorem cookie_valid_rolled :
    (readCookie sipHash24 ⟨rolledSecret, cookieSecret⟩ 1559732985000000000
      (some [.cookie (hexText (cookieClient.toList ++
        cookieSecret.serverCookie sipHash24 cookieClient.toList cookieAddr
          (cookieNow 1559731985000000000)))]) mappedAddr
      (CookieNote.begin ⟨[], false, false⟩)).2.valid = true :=
  (cookie_valid_iff sipHash24 cookieSecret ⟨rolledSecret, cookieSecret⟩
    cookieClient cookieClient cookieAddr mappedAddr
    1559731985000000000 1559732985000000000 _ ⟨[], false, false⟩ (by decide) (by decide)
    (by decide +kernel) rfl).1.mpr (by decide +kernel)

end DNS

end Wegweiser
