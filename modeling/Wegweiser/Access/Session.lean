/-
Who a request comes from: tokens, and the sessions a browser carries in a cookie.

A session is a cookie sealed under the session key, and nothing about it is stored.
-/
import Wegweiser.Store

namespace Wegweiser

/-- `Token.Active`; rows hold milliseconds. -/
def Token.active (t : Token) (at_ : Nat) : Bool :=
  t.revokedAt.isNone && t.expiresAt.all fun ms => decide (at_ < 1000000 * ms)

namespace Access

inductive Scope where
  | read
  | write
  | admin
  | other (text : String)
deriving DecidableEq

def Scope.ofText (text : String) : Scope :=
  if text = "read" then .read
  else if text = "write" then .write
  else if text = "admin" then .admin
  else .other text

def Scope.rank : Scope → Nat
  | read => 1
  | write => 2
  | admin => 3
  | other _ => 0

structure Subject where
  tokenID : TokenID
  name : String
  scopes : List Scope
deriving DecidableEq

def Subject.allows (s : Subject) (need : Scope) : Bool :=
  s.scopes.any fun held => decide (need.rank ≤ held.rank)

/-- `ErrTokenInvalid`, which says no more than that. -/
inductive Refusal where
  | tokenInvalid
deriving DecidableEq

def tokenSubject (now : Nat) (t : Token) : Except Refusal Subject :=
  if t.active now then .ok ⟨t.id, t.name, t.scopes.map Scope.ofText⟩ else .error .tokenInvalid

structure Session where
  id : String
  token : Octets
  provider : String
  subject : String
  name : String
  scope : Scope
  expires : Nat
deriving DecidableEq

def Session.sound (sess : Session) : Bool :=
  let byToken := sess.token.length == 32
  let byPerson := sess.provider != "" && sess.subject != "" && decide (0 < sess.scope.rank)
  sess.id != "" && (byToken != byPerson)

/-- `SessionLifetime`: twelve hours. -/
def sessionLifetime : Nat := 12 * 3600 * 1000000000

/-- `SessionKey`, as the number it is; zero until one is minted. -/
abbrev SessionKey := Nat

/-- `SessionKeys`, the pair in force. -/
structure SessionKeys where
  current : SessionKey
  previous : SessionKey
deriving DecidableEq

/-- A session sealed under a key. -/
structure Sealed where
  key : SessionKey
  session : Session
deriving DecidableEq

/-- `unseal` -/
def unsealed (keys : SessionKeys) (c : Sealed) : Option Session :=
  if [keys.current, keys.previous].any fun key => key != 0 && key == c.key then some c.session
  else none

def openSession (keys : SessionKeys) (c : Sealed) (now : Nat) : Option Session :=
  (unsealed keys c).filter fun sess => sess.sound && decide (now < sess.expires)

/-- What is read of `IdentityProvider`. -/
structure IdentityProvider where
  id : String
  name : String
  enabled : Bool
deriving DecidableEq

structure EndedSession where
  id : String
  provider : String
  name : String
  until_ : Nat
deriving DecidableEq

/-- `strings.EqualFold`, where `fold` takes a rune to the least of those it is folded
with. -/
def equalFold (fold : Char → Char) (a b : String) : Bool :=
  a.toList.map fold == b.toList.map fold

def isSpace (c : Char) : Bool :=
  let n := c.toNat
  (decide (9 ≤ n) && decide (n ≤ 13)) || n == 0x20 || n == 0x85 || n == 0xA0 || n == 0x1680 ||
    (decide (0x2000 ≤ n) && decide (n ≤ 0x200A)) || n == 0x2028 || n == 0x2029 || n == 0x202F ||
    n == 0x205F || n == 0x3000

def trimSpace (s : String) : String :=
  .ofList ((s.toList.dropWhile isSpace).reverse.dropWhile isSpace).reverse

namespace EndedSession

variable (fold : Char → Char)

def ends (e : EndedSession) (id provider name : String) (expires : Nat) : Bool :=
  if e.id ≠ "" then e.id == id
  else
    e.provider != "" && e.provider == provider && equalFold fold e.name name &&
      decide (expires ≤ e.until_)

def replaces (e o : EndedSession) : Bool :=
  e.id == o.id && e.provider == o.provider && equalFold fold e.name o.name

variable {fold} {x y z : EndedSession}

theorem replaces_iff :
    x.replaces fold y = true ↔
      x.id = y.id ∧ x.provider = y.provider ∧ x.name.toList.map fold = y.name.toList.map fold := by
  rw [replaces, equalFold, Bool.and_eq_true, Bool.and_eq_true, beq_iff_eq, beq_iff_eq, beq_iff_eq,
    and_assoc]

theorem replaces_symm (h : x.replaces fold y = true) : y.replaces fold x = true := by
  rw [replaces_iff] at h ⊢
  exact ⟨h.1.symm, h.2.1.symm, h.2.2.symm⟩

theorem replaces_trans (h : x.replaces fold y = true) (h' : y.replaces fold z = true) :
    x.replaces fold z = true := by
  rw [replaces_iff] at h h' ⊢
  exact ⟨h.1.trans h'.1, h.2.1.trans h'.2.1, h.2.2.trans h'.2.2⟩

theorem replaces_refl (x : EndedSession) : x.replaces fold x = true := by
  rw [replaces_iff]
  exact ⟨rfl, rfl, rfl⟩

theorem ends_of_replaces {id provider name : String} {expires : Nat}
    (h : x.replaces fold y = true) (huntil : y.until_ ≤ x.until_)
    (hends : y.ends fold id provider name expires = true) :
    x.ends fold id provider name expires = true := by
  obtain ⟨hid, hprovider, hname⟩ := replaces_iff.mp h
  rw [ends] at hends ⊢
  rw [hid]
  by_cases hempty : y.id = ""
  · simp only [hempty, ne_eq, not_true_eq_false, if_false, Bool.and_eq_true, bne_iff_ne, beq_iff_eq,
      decide_eq_true_eq, equalFold, hprovider, hname] at hends ⊢
    exact ⟨hends.1, hends.2.trans huntil⟩
  · simpa only [ne_eq, hempty, not_false_eq_true, if_true] using hends

end EndedSession

/-- What the store holds of sessions, providers and tokens. -/
structure Held where
  keys : SessionKeys
  ended : List EndedSession
  providers : List IdentityProvider
  tokens : List Token
deriving DecidableEq

def Held.personOf (held : Held) (sess : Session) : Except Refusal Subject :=
  match held.providers.find? fun p => p.id == sess.provider with
  | none => .error .tokenInvalid
  | some p =>
    if p.enabled then .ok ⟨.empty, sess.name ++ " (" ++ p.name ++ ")", [sess.scope]⟩
    else .error .tokenInvalid

/-- `Server.openedSession`; `hash` is `endedID`. -/
def Held.openedSession (hash : String → String) (fold : Char → Char) (held : Held) (now : Nat)
    (c : Sealed) : Except Refusal (Session × Subject) :=
  match openSession held.keys c now with
  | none => .error .tokenInvalid
  | some sess =>
    if held.ended.any fun e =>
        e.ends fold (hash sess.id) sess.provider sess.name sess.expires then
      .error .tokenInvalid
    else if sess.provider ≠ "" then do
      let person ← held.personOf sess
      return (sess, person)
    else
      match held.tokens.find? fun t => t.hash == sess.token with
      | none => .error .tokenInvalid
      | some t => do
          let sub ← tokenSubject now t
          return (sess, sub)

end Access

end Wegweiser
