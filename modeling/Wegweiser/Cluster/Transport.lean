/-
The handshake on the cluster port.

Two ends that have agreed on a TLS session prove to each other that they hold the cluster's
secret.
-/
import Mathlib.Data.List.Forall2
import Mathlib.Logic.Function.Basic
import Wegweiser.Lib.Checked
import Wegweiser.Zone.Name

namespace Wegweiser.Cluster

open Checked List

/-- `StreamKind`, the octet a stream is named by. -/
abbrev StreamKind := UInt8

/-- `StreamRaft`, the letter `r`. -/
def streamRaft : StreamKind := 114

/-- `StreamForward`, the letter `f`. -/
def streamForward : StreamKind := 102

/-- `StreamJoin`, the letter `j`. -/
def streamJoin : StreamKind := 106

def known (kind : StreamKind) : Bool :=
  kind == streamRaft || kind == streamForward || kind == streamJoin

def alpn : String := "wegweiser-cluster/1"

def exporterLabel : String := "EXPORTER-wegweiser-cluster-proof"

def keyingOctets : Nat := 32

def minSecret : Nat := 32

/-- The size of a keyed hash, `sha256.Size`. -/
def proofOctets : Nat := 32

/-- The side of a session a proof names. -/
inductive Side where
  | dialer
  | listener
deriving DecidableEq

namespace Side

/-- `roleDialer` and `roleListener` -/
def role : Side → String
  | dialer => "dialer"
  | listener => "listener"

def other : Side → Side
  | dialer => listener
  | listener => dialer

end Side

/-- Why a handshake ends. -/
inductive HandshakeErr where
  | tls
  | otherProtocol
  | noKeying
  | sendProof
  | refused
  | secretMismatch
  | readProof
  | unknownStream (kind : StreamKind)
  | deadline
deriving DecidableEq

/-- `Transport`, as far as its handshake reads it. -/
structure Transport where
  secret : Octets
  secret_size : minSecret ≤ secret.length

/-- `New`, which refuses a secret that can be guessed. -/
def Transport.new (secret : Octets) : Option Transport :=
  if h : minSecret ≤ secret.length then some ⟨secret, h⟩ else none

/-- What TLS tells of a session, at either end: `ConnectionState`. -/
structure TLSState where
  negotiatedProtocol : String
  exportKeyingMaterial : String → Nat → Except HandshakeErr Octets

def sessionKeying (conn : TLSState) : Except HandshakeErr Octets :=
  if conn.negotiatedProtocol != alpn then .error .otherProtocol
  else conn.exportKeyingMaterial exporterLabel keyingOctets

/-- `io.ReadFull` into a buffer of `n` octets, with all that comes in before the deadline. -/
def readFull (n : Nat) (stream : Octets) : Option Octets :=
  if n ≤ stream.length then some (stream.take n) else none

def proofMessage (side : Side) (keying : Octets) : Octets := ascii side.role ++ [0] ++ keying

section Code

variable (hmac : Octets → Octets → Octets) (t : Transport) (conn : TLSState)

def Transport.proof (side : Side) (keying : Octets) : Octets :=
  hmac t.secret (proofMessage side keying)

/-- The first half of `Transport.call`: what the dialling side writes. -/
def Transport.callWrite (kind : StreamKind) : Except HandshakeErr Octets := do
  let keying ← sessionKeying conn
  pure (t.proof hmac .dialer keying ++ [kind])

/-- The second half of `Transport.call`, with what has come in before the deadline. -/
def Transport.callRead (stream : Octets) : Except HandshakeErr Unit := do
  let keying ← sessionKeying conn
  match readFull proofOctets stream with
  | none => .error .refused
  | some theirs => ensure (theirs == t.proof hmac .listener keying) .secretMismatch

/-- `Transport.answer` up to its write: the kind of the stream, and what is written. -/
def Transport.answer (stream : Octets) : Except HandshakeErr (StreamKind × Octets) := do
  let keying ← sessionKeying conn
  match readFull (proofOctets + 1) stream with
  | none => .error .readProof
  | some got =>
    ensure (got.take proofOctets == t.proof hmac .dialer keying) .secretMismatch
    let kind := got.getD proofOctets 0
    ensure (known kind) (.unknownStream kind)
    pure (kind, t.proof hmac .listener keying)

end Code

section Messages

variable {side side' : Side} {keying keying' : Octets}

theorem proofMessage_inj (h : proofMessage side keying = proofMessage side' keying') :
    side = side' ∧ keying = keying' := by
  have hd : ascii "dialer" = [100, 105, 97, 108, 101, 114] := by decide
  have hl : ascii "listener" = [108, 105, 115, 116, 101, 110, 101, 114] := by decide
  cases side <;> cases side' <;> simp_all [proofMessage, Side.role]

end Messages

/-- Where one end of a session is in its handshake.  An end that is `dropped` had written its
proof before it gave up. -/
inductive End where
  | waiting
  | proved (kind : StreamKind)
  | opened (kind : StreamKind)
  | failed (e : HandshakeErr)
  | dropped (e : HandshakeErr)
deriving DecidableEq

def End.spoke : End → Bool
  | waiting | failed _ => false
  | proved _ | opened _ | dropped _ => true

/-- The TLS sessions there ever are, each with what it exports and the member at either of its
ends; `none` is anybody else. -/
structure Sessions (σ : Type) where
  state : σ → TLSState
  member : σ → Side → Option Transport

/-- Where every end is, what members have written, and over what they have made proofs under
which secret. -/
structure Handshakes (σ : Type) where
  ends : σ → Side → End
  wire : List Octets
  proved : List (Octets × Octets)

/-- What can happen to an end.  What comes in is whatever the attacker likes; writing and
clearing the deadline may fail at any time. -/
inductive Happening (σ : Type) where
  | giveUp (s : σ) (side : Side)
  | call (s : σ) (kind : StreamKind) (sent : Bool)
  | read (s : σ) (stream : Octets) (cleared : Bool)
  | answer (s : σ) (stream : Octets) (sent cleared : Bool)

namespace Handshakes

variable {σ : Type} [DecidableEq σ]

def start : Handshakes σ := ⟨fun _ _ => .waiting, [], []⟩

def enter (n : Handshakes σ) (s : σ) (side : Side) (e : End) : Handshakes σ :=
  { n with ends := Function.update n.ends s (Function.update (n.ends s) side e) }

def write (n : Handshakes σ) (t : Transport) (conn : TLSState) (side : Side) (octets : Octets) :
    Handshakes σ :=
  { n with
    wire := n.wire ++ [octets]
    proved := n.proved ++
      match sessionKeying conn with
      | .ok keying => [(t.secret, proofMessage side keying)]
      | .error _ => [] }

/-- `Transport.Dial` once TLS has agreed on the session. -/
def call (hmac : Octets → Octets → Octets) (conn : TLSState) (t : Transport) (n : Handshakes σ)
    (s : σ) (kind : StreamKind) (sent : Bool) : Handshakes σ :=
  if !known kind then n.enter s .dialer (.failed (.unknownStream kind))
  else
    match t.callWrite hmac conn kind with
    | .error e => n.enter s .dialer (.failed e)
    | .ok octets =>
      (n.write t conn .dialer octets).enter s .dialer
        (if sent then .proved kind else .dropped .sendProof)

def read (hmac : Octets → Octets → Octets) (conn : TLSState) (t : Transport) (n : Handshakes σ)
    (s : σ) (kind : StreamKind) (stream : Octets) (cleared : Bool) : Handshakes σ :=
  match t.callRead hmac conn stream with
  | .error e => n.enter s .dialer (.dropped e)
  | .ok () => n.enter s .dialer (if cleared then .opened kind else .dropped .deadline)

def answer (hmac : Octets → Octets → Octets) (conn : TLSState) (t : Transport) (n : Handshakes σ)
    (s : σ) (stream : Octets) (sent cleared : Bool) : Handshakes σ :=
  match t.answer hmac conn stream with
  | .error e => n.enter s .listener (.failed e)
  | .ok (kind, octets) =>
    (n.write t conn .listener octets).enter s .listener
      (if !sent then .dropped .sendProof else if cleared then .opened kind else .dropped .deadline)

def step (hmac : Octets → Octets → Octets) (net : Sessions σ) (n : Handshakes σ) :
    Happening σ → Handshakes σ
  | .giveUp s side =>
    match n.ends s side with
    | .waiting => n.enter s side (.failed .tls)
    | _ => n
  | .call s kind sent =>
    match net.member s .dialer, n.ends s .dialer with
    | some t, .waiting => n.call hmac (net.state s) t s kind sent
    | _, _ => n
  | .read s stream cleared =>
    match net.member s .dialer, n.ends s .dialer with
    | some t, .proved kind => n.read hmac (net.state s) t s kind stream cleared
    | _, _ => n
  | .answer s stream sent cleared =>
    match net.member s .listener, n.ends s .listener with
    | some t, .waiting => n.answer hmac (net.state s) t s stream sent cleared
    | _, _ => n

def run (hmac : Octets → Octets → Octets) (net : Sessions σ) (n : Handshakes σ)
    (happenings : List (Happening σ)) : Handshakes σ :=
  happenings.foldl (step hmac net) n

end Handshakes

open Handshakes

def Happening.presented {σ : Type} : Happening σ → Option (σ × Side × Octets)
  | giveUp _ _ | call _ _ _ => none
  | read s stream _ => some (s, .dialer, stream)
  | answer s stream _ _ => some (s, .listener, stream)

section Assumptions

variable {σ : Type} (hmac : Octets → Octets → Octets) (net : Sessions σ)

/-- What an end of a holder of the secret reads is no forgery: if it passes for the proof of the
other side, a holder of the secret has made a proof over just that. -/
def Genuine (secret : Octets) (n : Handshakes σ) (a : Happening σ) : Prop :=
  ∀ s side stream, a.presented = some (s, side, stream) →
    ∀ t keying, net.member s side = some t → t.secret = secret →
      sessionKeying (net.state s) = .ok keying →
      stream.take proofOctets = hmac secret (proofMessage side.other keying) →
      (secret, proofMessage side.other keying) ∈ n.proved

instance (secret : Octets) (n : Handshakes σ) (a : Happening σ) :
    Decidable (Genuine hmac net secret n a) :=
  match ha : a.presented with
  | none => isTrue fun _ _ _ hp => by simp [ha] at hp
  | some (s, side, stream) =>
    match hmember : net.member s side, hkeying : sessionKeying (net.state s) with
    | none, _ => isTrue fun _ _ _ hp _ _ hm => by
        cases ha.symm.trans hp
        cases hmember.symm.trans hm
    | some _, .error _ => isTrue fun _ _ _ hp _ _ _ _ hk => by
        cases ha.symm.trans hp
        cases hkeying.symm.trans hk
    | some t, .ok keying =>
      decidable_of_iff
        (t.secret = secret → stream.take proofOctets = hmac secret (proofMessage side.other keying) →
          (secret, proofMessage side.other keying) ∈ n.proved) <| by
        constructor
        · intro h s' side' stream' hp t' keying' hm hs hk hproof
          cases ha.symm.trans hp
          cases hmember.symm.trans hm
          cases hkeying.symm.trans hk
          exact h hs hproof
        · intro h hs hproof
          exact h s side stream ha t keying hmember hs hkeying hproof

def Unforged [DecidableEq σ] (secret : Octets) : Handshakes σ → List (Happening σ) → Prop
  | _, [] => True
  | n, a :: rest => Genuine hmac net secret n a ∧ Unforged secret (n.step hmac net a) rest

instance Unforged.decide [DecidableEq σ] (secret : Octets) :
    ∀ (n : Handshakes σ) (happenings : List (Happening σ)),
      Decidable (Unforged hmac net secret n happenings)
  | _, [] => isTrue trivial
  | n, a :: rest =>
    have := Unforged.decide secret (n.step hmac net a) rest
    inferInstanceAs (Decidable (Genuine hmac net secret n a ∧ _))

def ExportsApart : Prop :=
  ∀ s s' octets,
    (net.state s).exportKeyingMaterial exporterLabel keyingOctets = .ok octets →
    (net.state s').exportKeyingMaterial exporterLabel keyingOctets = .ok octets → s = s'

end Assumptions

section Handshake

variable {σ : Type} {hmac : Octets → Octets → Octets} {net : Sessions σ} {secret : Octets}
  {n : Handshakes σ} {s : σ} {side : Side} {t : Transport} {keying : Octets}

variable {conn : TLSState} {stream octets : Octets} {side' : Side} {e : End} {cleared : Bool}

theorem sessionKeying_eq_ok (h : sessionKeying conn = .ok keying) :
    conn.exportKeyingMaterial exporterLabel keyingOctets = .ok keying := by
  rw [sessionKeying] at h
  split at h
  · cases h
  · exact h

theorem readFull_eq_some {size : Nat}
    (h : readFull size stream = some octets) : octets = stream.take size := by
  rw [readFull] at h
  split at h
  · exact (Option.some.inj h).symm
  · cases h

theorem Transport.callRead_eq_ok (h : t.callRead hmac conn stream = .ok ()) :
    ∃ keying, sessionKeying conn = .ok keying ∧
      stream.take proofOctets = hmac t.secret (proofMessage .listener keying) := by
  obtain ⟨keying, hkeying, hrest⟩ := bind_eq_ok.mp h
  refine ⟨keying, hkeying, ?_⟩
  cases hread : readFull proofOctets stream with
  | none => simp [hread] at hrest
  | some theirs =>
    rw [hread] at hrest
    have heq := ensure_eq_ok.mp hrest
    rw [← readFull_eq_some hread]
    exact beq_iff_eq.mp heq

theorem Transport.answer_eq_ok {kind : StreamKind}
    (h : t.answer hmac conn stream = .ok (kind, octets)) :
    ∃ keying, sessionKeying conn = .ok keying ∧ octets = t.proof hmac .listener keying ∧
      stream.take proofOctets = hmac t.secret (proofMessage .dialer keying) := by
  obtain ⟨keying, hkeying, hrest⟩ := bind_eq_ok.mp h
  refine ⟨keying, hkeying, ?_⟩
  cases hread : readFull (proofOctets + 1) stream with
  | none => simp [hread] at hrest
  | some got =>
    rw [hread] at hrest
    obtain ⟨⟨⟩, hproof, hrest⟩ := bind_eq_ok.mp hrest
    obtain ⟨⟨⟩, -, hout⟩ := bind_eq_ok.mp hrest
    have heq := beq_iff_eq.mp (ensure_eq_ok.mp hproof)
    rw [readFull_eq_some hread, take_take] at heq
    exact ⟨(Prod.mk.inj (Except.ok.inj hout)).2.symm, heq⟩

/-- The other end of the session is a holder of the secret, and has made its proof. -/
def Met (net : Sessions σ) (secret : Octets) (n : Handshakes σ) (s : σ) (side : Side) : Prop :=
  ∃ t, net.member s side.other = some t ∧ t.secret = secret ∧ (n.ends s side.other).spoke = true

/-- Proofs come from the ends of members, and whoever has opened a session has met a holder of
the secret there. -/
structure Vouched (net : Sessions σ) (secret : Octets) (n : Handshakes σ) : Prop where
  proved : ∀ p ∈ n.proved, ∃ s side t keying, net.member s side = some t ∧
    sessionKeying (net.state s) = .ok keying ∧ p = (t.secret, proofMessage side keying) ∧
    (n.ends s side).spoke = true
  opened : ∀ s side kind t, n.ends s side = .opened kind → net.member s side = some t →
    t.secret = secret → Met net secret n s side

theorem Vouched.met (h : Vouched net secret n) (hapart : ExportsApart net)
    (hkeying : sessionKeying (net.state s) = .ok keying)
    (hproof : (secret, proofMessage side.other keying) ∈ n.proved) : Met net secret n s side := by
  obtain ⟨s', side', t, keying', hmember, hkeying', heq, hspoke⟩ := h.proved _ hproof
  obtain ⟨hsecret, hmessage⟩ := Prod.mk.inj heq
  obtain ⟨rfl, rfl⟩ := proofMessage_inj hmessage
  obtain rfl := hapart s s' keying (sessionKeying_eq_ok hkeying) (sessionKeying_eq_ok hkeying')
  exact ⟨t, hmember, hsecret.symm, hspoke⟩

variable [DecidableEq σ]

@[simp] theorem Handshakes.enter_ends_self (n : Handshakes σ) (s : σ) (side : Side) (e : End) :
    (n.enter s side e).ends s side = e := by
  simp [enter]

theorem Handshakes.enter_ends_of_ne (n : Handshakes σ) {s s' : σ} (e : End)
    (hne : (s', side') ≠ (s, side)) : (n.enter s side e).ends s' side' = n.ends s' side' := by
  by_cases hs : s' = s
  · subst hs
    have hside : side' ≠ side := fun h => hne (by rw [h])
    simp [enter, hside]
  · simp [enter, hs]

theorem Handshakes.spoke_enter (he : (n.ends s side).spoke = true → e.spoke = true)
    {s' : σ} (h : (n.ends s' side').spoke = true) :
    ((n.enter s side e).ends s' side').spoke = true := by
  by_cases hend : (s', side') = (s, side)
  · obtain ⟨rfl, rfl⟩ := Prod.mk.inj hend
    rw [enter_ends_self]
    exact he h
  · rw [enter_ends_of_ne n e hend]
    exact h

theorem Met.enter (he : (n.ends s side).spoke = true → e.spoke = true) {s' : σ}
    (h : Met net secret n s' side') : Met net secret (n.enter s side e) s' side' := by
  obtain ⟨t, hmember, hsecret, hspoke⟩ := h
  exact ⟨t, hmember, hsecret, spoke_enter he hspoke⟩

theorem Vouched.enter (h : Vouched net secret n)
    (he : (n.ends s side).spoke = true → e.spoke = true)
    (hopen : ∀ kind t, e = .opened kind → net.member s side = some t → t.secret = secret →
      Met net secret n s side) : Vouched net secret (n.enter s side e) := by
  refine ⟨fun p hp => ?_, fun s' side' kind t hopened hmember hsecret => ?_⟩
  · obtain ⟨s', side', t, keying, hmember, hkeying, heq, hspoke⟩ := h.proved p hp
    exact ⟨s', side', t, keying, hmember, hkeying, heq, spoke_enter he hspoke⟩
  · refine Met.enter he ?_
    by_cases hend : (s', side') = (s, side)
    · obtain ⟨rfl, rfl⟩ := Prod.mk.inj hend
      rw [enter_ends_self] at hopened
      exact hopen kind t hopened hmember hsecret
    · rw [enter_ends_of_ne n e hend] at hopened
      exact h.opened s' side' kind t hopened hmember hsecret

theorem Vouched.write (h : Vouched net secret n) (hmember : net.member s side = some t)
    (octets : Octets) (he : e.spoke = true)
    (hopen : ∀ kind, e = .opened kind → t.secret = secret → Met net secret n s side) :
    Vouched net secret ((n.write t (net.state s) side octets).enter s side e) := by
  have hkept : Vouched net secret (n.enter s side e) := by
    refine h.enter (fun _ => he) fun kind t' hk hmember' => ?_
    obtain rfl := Option.some.inj (hmember.symm.trans hmember')
    exact hopen kind hk
  refine ⟨fun p hp => ?_, fun s' side' kind t' hopened => hkept.opened s' side' kind t' hopened⟩
  rcases mem_append.mp hp with hp | hp
  · exact hkept.proved p hp
  · cases hkeying : sessionKeying (net.state s) with
    | error e => simp [hkeying] at hp
    | ok keying =>
      simp only [hkeying, mem_singleton] at hp
      refine ⟨s, side, t, keying, hmember, hkeying, hp, ?_⟩
      rw [enter_ends_self]
      exact he

theorem Vouched.call (h : Vouched net secret n) (hmember : net.member s .dialer = some t)
    (hend : n.ends s .dialer = .waiting) (kind : StreamKind) (sent : Bool) :
    Vouched net secret (n.call hmac (net.state s) t s kind sent) := by
  rw [Handshakes.call]
  split
  · exact h.enter (by simp [hend, End.spoke]) fun _ _ hopened => nomatch hopened
  · split
    · exact h.enter (by simp [hend, End.spoke]) fun _ _ hopened => nomatch hopened
    · cases sent
      · exact h.write hmember _ rfl fun _ hopened => nomatch hopened
      · exact h.write hmember _ rfl fun _ hopened => nomatch hopened

theorem Vouched.read (h : Vouched net secret n) (hapart : ExportsApart net)
    (hmember : net.member s .dialer = some t) (kind : StreamKind)
    (hgenuine : Genuine hmac net secret n (.read s stream cleared)) :
    Vouched net secret (n.read hmac (net.state s) t s kind stream cleared) := by
  rw [Handshakes.read]
  split
  · exact h.enter (fun _ => rfl) fun _ _ hopened => nomatch hopened
  · next hok =>
    refine h.enter (fun _ => by cases cleared <;> rfl) fun kind' t' _ hmember' hsecret => ?_
    obtain rfl := Option.some.inj (hmember.symm.trans hmember')
    obtain ⟨keying, hkeying, hproof⟩ := Transport.callRead_eq_ok hok
    rw [hsecret] at hproof
    exact h.met hapart hkeying (hgenuine s .dialer stream rfl t keying hmember hsecret hkeying hproof)

theorem Vouched.answer (h : Vouched net secret n) (hapart : ExportsApart net)
    (hmember : net.member s .listener = some t) (hend : n.ends s .listener = .waiting) {sent : Bool}
    (hgenuine : Genuine hmac net secret n (.answer s stream sent cleared)) :
    Vouched net secret (n.answer hmac (net.state s) t s stream sent cleared) := by
  rw [Handshakes.answer]
  split
  · exact h.enter (by simp [hend, End.spoke]) fun _ _ hopened => nomatch hopened
  · next kind octets hok =>
    refine h.write hmember octets (by cases sent <;> cases cleared <;> rfl)
      fun kind' _ hsecret => ?_
    obtain ⟨keying, hkeying, -, hproof⟩ := Transport.answer_eq_ok hok
    rw [hsecret] at hproof
    exact h.met hapart hkeying
      (hgenuine s .listener stream rfl t keying hmember hsecret hkeying hproof)

theorem Vouched.step (h : Vouched net secret n) (hapart : ExportsApart net) {a : Happening σ}
    (hgenuine : Genuine hmac net secret n a) : Vouched net secret (n.step hmac net a) := by
  cases a with
  | giveUp s side =>
    rw [Handshakes.step]
    split
    · next hend => exact h.enter (by simp [hend, End.spoke]) fun _ _ hopened => nomatch hopened
    · exact h
  | call s kind sent =>
    rw [Handshakes.step]
    split
    · next hmember hend => exact h.call hmember hend kind sent
    · exact h
  | read s stream cleared =>
    rw [Handshakes.step]
    split
    · next hmember _ => exact h.read hapart hmember _ hgenuine
    · exact h
  | answer s stream sent cleared =>
    rw [Handshakes.step]
    split
    · next hmember hend => exact h.answer hapart hmember hend hgenuine
    · exact h

theorem Vouched.run (h : Vouched net secret n) (hapart : ExportsApart net)
    {happenings : List (Happening σ)} (hunforged : Unforged hmac net secret n happenings) :
    Vouched net secret (n.run hmac net happenings) := by
  induction happenings generalizing n with
  | nil => exact h
  | cons a rest ih => exact ih (h.step hapart hunforged.1) hunforged.2

/-- What members have written begins, one after another, with the proofs they have made. -/
def Handshakes.Spoken (hmac : Octets → Octets → Octets) (n : Handshakes σ) : Prop :=
  Forall₂ (fun octets p => hmac p.1 p.2 <+: octets) n.wire n.proved

omit [DecidableEq σ] in
theorem Handshakes.Spoken.write (h : n.Spoken hmac) (hkeying : sessionKeying conn = .ok keying)
    (hproof : t.proof hmac side keying <+: octets) : (n.write t conn side octets).Spoken hmac := by
  rw [Spoken, Handshakes.write, hkeying]
  exact rel_append h (.cons hproof .nil)

theorem Handshakes.Spoken.step (h : n.Spoken hmac) (a : Happening σ) :
    (n.step hmac net a).Spoken hmac := by
  cases a with
  | giveUp s side =>
    rw [Handshakes.step]
    split <;> exact h
  | call s kind sent =>
    rw [Handshakes.step]
    split
    · rw [call]
      split
      · exact h
      · split
        · exact h
        · next hok =>
          obtain ⟨keying, hkeying, hout⟩ := bind_eq_ok.mp hok
          exact h.write hkeying (Except.ok.inj hout ▸ prefix_append _ _)
    · exact h
  | read s stream cleared =>
    rw [Handshakes.step]
    split
    · rw [read]
      split <;> exact h
    · exact h
  | answer s stream sent cleared =>
    rw [Handshakes.step]
    split
    · rw [answer]
      split
      · exact h
      · next hok =>
        obtain ⟨keying, hkeying, rfl, -⟩ := Transport.answer_eq_ok hok
        exact h.write hkeying prefix_rfl
    · exact h

theorem Handshakes.spoken_run (hmac : Octets → Octets → Octets) (net : Sessions σ)
    (happenings : List (Happening σ)) : (start.run hmac net happenings).Spoken hmac :=
  foldlRecOn happenings (step hmac net) .nil fun _ h a _ => Spoken.step h a

/-- Whatever the attacker carries where, over any number of sessions: where a member that holds
the secret has dialled with success or has taken a stream, the other end of the very TLS session
is on the opposite side, belongs to a member that holds the secret, and has made its proof
there. -/
theorem opened_at_holder (hmac : Octets → Octets → Octets) (net : Sessions σ)
    (hapart : ExportsApart net) (secret : Octets) (happenings : List (Happening σ))
    (hunforged : Unforged hmac net secret start happenings) (s : σ) (side : Side)
    (t : Transport) (hmember : net.member s side = some t) (hsecret : t.secret = secret)
    (kind : StreamKind)
    (hopened : (start.run hmac net happenings).ends s side = .opened kind) :
    ∃ peer, net.member s side.other = some peer ∧ peer.secret = secret ∧
      ((start.run hmac net happenings).ends s side.other).spoke = true := by
  have hstart : Vouched net secret (start : Handshakes σ) :=
    ⟨fun _ hp => (nomatch hp), fun _ _ _ _ hopened => (nomatch hopened)⟩
  exact (hstart.run hapart hunforged).opened s side kind t hopened hmember hsecret

end Handshake

namespace Sample

def hmac (key message : Octets) : Octets := (key.take 1 ++ message ++ replicate 32 0).take 32

def transport : Transport := ⟨replicate 32 7, by decide⟩

def sessions : Sessions (Fin 3) where
  state s := ⟨alpn, fun _ size => .ok (replicate size (UInt8.ofNat s))⟩
  member
    | 0, .dialer | 1, .listener | 2, _ => some transport
    | _, _ => none

def proofAt (s : Fin 3) (side : Side) : Octets :=
  transport.proof hmac side (replicate keyingOctets (UInt8.ofNat s))

def relay : List (Happening (Fin 3)) :=
  [.call 0 streamRaft true, .answer 1 (proofAt 0 .dialer ++ [streamRaft]) true true,
    .call 2 streamJoin true, .answer 2 (proofAt 2 .dialer ++ [streamJoin]) true true,
    .read 0 (proofAt 0 .dialer) true, .read 2 (proofAt 2 .listener) true]

end Sample

open Cluster.Sample

theorem opened_at_holder_relay :
    ∃ peer, sessions.member 2 .listener = some peer ∧
      peer.secret = transport.secret ∧
      ((start.run hmac sessions relay).ends 2 .listener).spoke =
        true := by
  have hapart : ExportsApart sessions := by
    have hkeyings : ∀ s s' : Fin 3, replicate keyingOctets (UInt8.ofNat s) =
        replicate keyingOctets (UInt8.ofNat s') → s = s' := by
      decide
    exact fun s s' octets hs hs' => hkeyings s s' (Except.ok.inj (hs.trans hs'.symm))
  exact opened_at_holder hmac sessions hapart transport.secret relay
    (by decide +kernel) 2 .dialer transport rfl rfl streamJoin (by decide +kernel)

end Wegweiser.Cluster
