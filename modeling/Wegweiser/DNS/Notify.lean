/-
The notifier: telling the secondaries that a zone has a new version.

What is outstanding is kept under one lock, and nothing else is done while it is held: `Notify`
builds its message before it takes the lock to install it, the sender collects what is due and
writes and reports it afterwards, and the reader takes a secondary out and reports that
afterwards.
-/
import Wegweiser.DNS.Snapshot
import Wegweiser.Lib.Ranged
import Wegweiser.Store

namespace Wegweiser

open Ranged List Option

namespace DNS

structure AddrPort where
  addr : Addr
  port : UInt16
deriving DecidableEq

/-- `NotifyTarget`; one whose notifications go out unsigned has no key. -/
structure NotifyTarget where
  addr : AddrPort
  key : Option Name
deriving DecidableEq

/-- `TSIGKey`, as the query path holds it. -/
structure HeldKey where
  name : Name
  algorithm : TSIGAlgorithm
  secret : Octets
deriving DecidableEq

abbrev Keyring := FinMap Name HeldKey

inductive NotifyOutcome where
  | sent
  | answered
  | abandoned
deriving DecidableEq

structure NotifyEvent where
  zone : Name
  target : AddrPort
  outcome : NotifyOutcome
deriving DecidableEq

variable {R : Type}

def ZoneTree.apexSOA (t : ZoneTree R) : Except Err R :=
  match (t.nodeAt t.name).bind fun n => n.find classIN typeSOA with
  | some ⟨_, _, [rr], _⟩ => .ok rr
  | _ => .error (.failed "the zone has no single start of authority to transfer")

/-- `Prober.publishedSerial`, given how the serial is read out of a start of authority. -/
def publishedSerial (serialOf : R → Option Serial) (snap : Snapshot R) (apex : Name) :
    Option Serial :=
  (snap.zoneAt apex).bind fun t => t.apexSOA.toOption.bind serialOf

/-- A notification unsigned: the identifier, the zone asked about and its start of authority. -/
structure NotifyMessage (R : Type) where
  id : UInt16
  name : Name
  soa : R
deriving DecidableEq

/-- `notifyMessage`, with the identifier that was drawn for it. -/
def notifyMessage (t : ZoneTree R) (id : UInt16) : Except Err (NotifyMessage R) :=
  t.apexSOA.map fun soa => ⟨id, t.name, soa⟩

structure Notification (R : Type) where
  msg : NotifyMessage R
  waiting : FinMap AddrPort Nat
  keys : FinMap AddrPort HeldKey
  next : Nat

/-- `Notify`, one target of the notification it builds. -/
def Notification.addTarget (ring : Keyring) (n : Notification R) (target : NotifyTarget) :
    Notification R :=
  let n := { n with waiting := n.waiting.insert target.addr 0 }
  match target.key.bind fun key => ring.lookup key with
  | some key => { n with keys := n.keys.insert target.addr key }
  -- no key, or one that is not held: the notification goes unsigned
  | none => n

/-- The notification `Notify` builds. -/
def Notification.build (msg : NotifyMessage R) (targets : List NotifyTarget) (ring : Keyring) :
    Notification R :=
  targets.foldl (addTarget ring) { msg, waiting := ∅, keys := ∅, next := 0 }

/-- What a notifier is set up with, and whether the wire library packs a message. -/
structure NotifySetup (R : Type) where
  interval : Nat
  attempts : Nat
  packs : NotifyMessage R → Bool

/-- Where a call of `Notify` is. -/
inductive CallAt (R : Type) where
  | entered
  | built (n : Notification R)
  | returned

/-- A call of `Notify`, with what it was called with. -/
structure NotifyCall (R : Type) where
  snap : Snapshot R
  apex : Name
  at_ : CallAt R

/-- A datagram to be written. -/
structure Datagram (R : Type) where
  msg : NotifyMessage R
  key : Option HeldKey
  apex : Name
  addr : AddrPort
deriving DecidableEq

def Datagram.event (d : Datagram R) : NotifyEvent := ⟨d.apex, d.addr, .sent⟩

/-- Why a target dropped out. -/
inductive DropReason where
  | neverAnswered (sent : Nat)
  | notSigned
deriving DecidableEq

/-- A target that dropped out, and why. -/
structure Dropped where
  ev : NotifyEvent
  why : DropReason
deriving DecidableEq

/-- What the sender has left to do of a round: events to hand over, datagrams to write, and the
event of the one just written. -/
structure Sender (R : Type) where
  giveUps : List Dropped
  out : List (Datagram R)
  written : Option NotifyEvent
deriving DecidableEq

def Sender.idle : Sender R := ⟨[], [], none⟩

/-- `Notifier`, with the calls of `Notify` under way and where its two goroutines are. -/
structure Notifier (R : Type) where
  targets : List NotifyTarget
  keys : Keyring
  pending : FinMap Name (Notification R)
  calls : List (NotifyCall R)
  sender : Sender R
  reader : Option NotifyEvent

/-- `NewNotifier`, started. -/
def Notifier.started (targets : List NotifyTarget) (keys : Keyring) : Notifier R :=
  { targets, keys, pending := ∅, calls := [], sender := .idle, reader := none }

section Round

variable (cfg : NotifySetup R)

/-- A round's work on one notification. -/
structure Visit (R : Type) where
  p : Notification R
  out : List (Datagram R)
  giveUps : List Dropped

def Visit.drop (v : Visit R) (apex : Name) (addr : AddrPort) (why : DropReason) : Visit R :=
  { v with
    p := { v.p with waiting := v.p.waiting.erase addr }
    giveUps := v.giveUps ++ [⟨⟨apex, addr, .abandoned⟩, why⟩] }

def Visit.send (v : Visit R) (apex : Name) (addr : AddrPort) (key : Option HeldKey) (sent : Nat) :
    Visit R :=
  { v with
    p := { v.p with waiting := v.p.waiting.insert addr (sent + 1) }
    out := v.out ++ [⟨v.p.msg, key, apex, addr⟩] }

/-- `round`, one secondary of one zone. -/
def visitTarget (signs : NotifyMessage R → HeldKey → Bool) (apex : Name) (v : Visit R)
    (addr : AddrPort) : Visit R :=
  match v.p.waiting.lookup addr with
  | none => v
  | some sent =>
    if cfg.attempts ≤ sent then v.drop apex addr (.neverAnswered sent)
    else
      match v.p.keys.lookup addr with
      | none => v.send apex addr none sent
      | some key =>
        if signs v.p.msg key then v.send apex addr (some key) sent
        else v.drop apex addr .notSigned

/-- What a round has come to. -/
structure Round (R : Type) where
  pending : FinMap Name (Notification R)
  out : List (Datagram R)
  giveUps : List Dropped
  wait : Nat

/-- `round`, one zone. -/
def visitZone (now : Nat) (addrs : Name → List AddrPort)
    (signs : NotifyMessage R → HeldKey → Bool) (r : Round R) (apex : Name) : Round R :=
  match r.pending.lookup apex with
  | none => r
  | some p =>
    if now < p.next then { r with wait := min r.wait (p.next - now) }
    else
      let v := (visits (addrs apex) p.waiting).foldl (visitTarget cfg signs apex)
        ⟨p, r.out, r.giveUps⟩
      if v.p.waiting.keys.isEmpty then
        { r with pending := r.pending.erase apex, out := v.out, giveUps := v.giveUps }
      else
        { pending := r.pending.insert apex { v.p with next := now + cfg.interval }
          out := v.out, giveUps := v.giveUps, wait := min r.wait cfg.interval }

def hour : Nat := 3600000000000

/-- `round`, as far as it is done under the lock.  The orders are those the two loops take, and
`signs` is whether a notification is signed with a key. -/
def collect (now : Nat) (zones : List Name) (addrs : Name → List AddrPort)
    (signs : NotifyMessage R → HeldKey → Bool) (pending : FinMap Name (Notification R)) : Round R :=
  (visits zones pending).foldl (visitZone cfg now addrs signs) ⟨pending, [], [], hour⟩

end Round

def Notification.settledBy (p : Notification R) (id : UInt16) (source : AddrPort) : Bool :=
  p.msg.id == id && decide (source ∈ p.waiting)

/-- `acknowledge`, as far as it is done under the lock, with the event to hand over. -/
def acknowledge (pending : FinMap Name (Notification R)) (zones : List Name) (id : UInt16)
    (source : AddrPort) : FinMap Name (Notification R) × Option NotifyEvent :=
  match (visits zones pending).findSome? fun apex =>
      ((pending.lookup apex).filter fun p => p.settledBy id source).map fun p => (apex, p) with
  | none => (pending, none)
  | some (apex, p) =>
    let waiting := p.waiting.erase source
    (if waiting.keys.isEmpty then pending.erase apex
      else pending.insert apex { p with waiting },
     some ⟨apex, source, .answered⟩)

/-- What can happen next to a notifier. -/
inductive NotifyMove (R : Type) where
  | setTargets (targets : List NotifyTarget)
  | setKeys (keys : Keyring)
  /-- `Notify` is called. -/
  | call (snap : Snapshot R) (apex : Name)
  /-- A call goes on, with the identifier it draws where it draws one. -/
  | turn (i : Nat) (id : UInt16)
  /-- The sender begins a round. -/
  | round (now : Nat) (zones : List Name) (addrs : Name → List AddrPort)
      (signs : NotifyMessage R → HeldKey → Bool)
  /-- The sender hands an event over or writes a datagram, which may fail. -/
  | send (written : Bool)
  /-- The reader has an answer. -/
  | hear (zones : List Name) (id : UInt16) (source : AddrPort)
  /-- The reader hands its event over. -/
  | report

namespace Notifier

variable (cfg : NotifySetup R) (n : Notifier R)

def move (i : Nat) (c : NotifyCall R) (at_ : CallAt R) : Notifier R :=
  { n with calls := n.calls.set i { c with at_ } }

/-- `Notify`, one locked section and what is worked out behind it. -/
def turn (i : Nat) (id : UInt16) : Notifier R :=
  match n.calls[i]? with
  | none => n
  | some c =>
    match c.at_ with
    | .returned => n
    | .entered =>
      match c.snap.zoneAt c.apex with
      | none => n.move i c .returned
      | some t =>
        if n.targets.isEmpty then n.move i c .returned
        else
          match notifyMessage t id with
          | .error _ => n.move i c .returned
          | .ok msg =>
            if cfg.packs msg then n.move i c (.built (.build msg n.targets n.keys))
            else n.move i c .returned
    | .built p => { n.move i c .returned with pending := n.pending.insert c.apex p }

/-- What a call that goes on can come to. -/
inductive Turned (i : Nat) (id : UInt16) : Notifier R → Prop where
  | idle : Turned i id n
  /-- It returns without a notification. -/
  | left {c : NotifyCall R} (hc : n.calls[i]? = some c) (hat : c.at_ = .entered)
      (hwhy : c.snap.zoneAt c.apex = none ∨ n.targets = [] ∨
        ∃ t, c.snap.zoneAt c.apex = some t ∧
          ∀ msg, notifyMessage t id = .ok msg → cfg.packs msg = false) :
      Turned i id (n.move i c .returned)
  | built {c : NotifyCall R} {t : ZoneTree R} {msg : NotifyMessage R}
      (hc : n.calls[i]? = some c) (hat : c.at_ = .entered) (hzone : c.snap.zoneAt c.apex = some t)
      (htargets : n.targets ≠ []) (hmsg : notifyMessage t id = .ok msg) :
      Turned i id (n.move i c (.built (.build msg n.targets n.keys)))
  | installed {c : NotifyCall R} {p : Notification R} (hc : n.calls[i]? = some c)
      (hat : c.at_ = .built p) :
      Turned i id { n.move i c .returned with pending := n.pending.insert c.apex p }

theorem turned (i : Nat) (id : UInt16) : Turned cfg n i id (n.turn cfg i id) := by
  rw [turn]
  cases hc : n.calls[i]? with
  | none => exact .idle
  | some c =>
    dsimp only
    cases hat : c.at_ with
    | returned => exact .idle
    | built p => exact .installed hc hat
    | entered =>
      dsimp only
      cases hzone : c.snap.zoneAt c.apex with
      | none => exact .left hc hat (.inl hzone)
      | some t =>
        dsimp only
        split_ifs with htargets
        · exact .left hc hat (.inr (.inl (isEmpty_iff.mp htargets)))
        · cases hmsg : notifyMessage t id with
          | error e =>
            refine .left hc hat (.inr (.inr ⟨t, hzone, fun msg hok => ?_⟩))
            rw [hmsg] at hok
            cases hok
          | ok msg =>
            dsimp only
            split_ifs with hpacks
            · exact .built hc hat hzone (mt isEmpty_iff.mpr htargets) hmsg
            · refine .left hc hat (.inr (.inr ⟨t, hzone, fun msg' hok => ?_⟩))
              rw [hmsg] at hok
              obtain rfl := Except.ok.inj hok
              exact Bool.eq_false_of_not_eq_true hpacks

/-- What the sender does next: the events of those given up first, and behind each datagram that
could be written its event. -/
def send (written : Bool) : Notifier R × Option NotifyEvent :=
  match n.sender.giveUps with
  | gone :: giveUps => ({ n with sender := { n.sender with giveUps } }, some gone.ev)
  | [] =>
    match n.sender.written with
    | some ev => ({ n with sender := { n.sender with written := none } }, some ev)
    | none =>
      match n.sender.out with
      | [] => (n, none)
      | d :: out =>
        ({ n with sender :=
            { n.sender with out, written := if written then some d.event else none } }, none)

def step : NotifyMove R → Notifier R × Option NotifyEvent
  | .setTargets targets => ({ n with targets }, none)
  | .setKeys keys => ({ n with keys }, none)
  | .call snap apex => ({ n with calls := n.calls ++ [⟨snap, apex, .entered⟩] }, none)
  | .turn i id => (n.turn cfg i id, none)
  | .round now zones addrs signs =>
    if n.sender.giveUps.isEmpty && n.sender.out.isEmpty && n.sender.written.isNone then
      let r := collect cfg now zones addrs signs n.pending
      ({ n with pending := r.pending, sender := ⟨r.giveUps, r.out, none⟩ }, none)
    else (n, none)
  | .send written => n.send written
  | .hear zones id source =>
    match n.reader with
    | some _ => (n, none)
    | none =>
      let (pending, reader) := acknowledge n.pending zones id source
      ({ n with pending, reader }, none)
  | .report => ({ n with reader := none }, n.reader)

end Notifier

section Awaited

variable {pending pending₀ : FinMap Name (Notification R)} {apex a : Name} {addr x : AddrPort}
  {p p₀ : Notification R}

def Awaited (pending : FinMap Name (Notification R)) (apex : Name) (addr : AddrPort) : Prop :=
  ∃ p, pending.lookup apex = some p ∧ addr ∈ p.waiting

instance : Decidable (Awaited pending apex addr) :=
  decidable_of_iff ((pending.lookup apex).any fun p => addr ∈ p.waiting) (by
    simp [Awaited, Option.any_eq_true])

theorem awaited_insert :
    Awaited (pending.insert apex p) a x ↔ if a = apex then x ∈ p.waiting else Awaited pending a x := by
  rw [Awaited, lookup_insert_eq]
  split_ifs
  · simp
  · rfl

theorem awaited_erase : Awaited (pending.erase apex) a x ↔ a ≠ apex ∧ Awaited pending a x := by
  rw [Awaited, lookup_erase_eq]
  split_ifs with h
  · simp [h]
  · simp [h, Awaited]

theorem awaited_stored (p : Notification R) (left : FinMap AddrPort Nat) (hp : p.waiting = left)
    (a : Name) (x : AddrPort) :
    Awaited (if left.keys.isEmpty then pending.erase apex else pending.insert apex p) a x ↔
      if a = apex then x ∈ left else Awaited pending a x := by
  split_ifs with hnone ha ha
  · have hkeys : left.keys = [] := isEmpty_iff.mp hnone
    rw [awaited_erase, AList.mem_keys, hkeys]
    simp [ha]
  · simp [awaited_erase, ha]
  · rw [awaited_insert, if_pos ha, hp]
  · rw [awaited_insert, if_neg ha]

/-- What a round's work on one notification leaves of it, with some of the secondaries ahead. -/
structure Visited (apex : Name) (v₀ : Visit R) (rest : List AddrPort) (v : Visit R) : Prop where
  msg : v.p.msg = v₀.p.msg
  kept : ∀ x ∈ v₀.p.waiting,
    x ∈ v.p.waiting ∨ ∃ g ∈ v.giveUps, g.ev = ⟨apex, x, .abandoned⟩
  only : ∀ x ∈ v.p.waiting, x ∈ v₀.p.waiting
  out : ∃ sent, v.out = v₀.out ++ sent ∧
    ∀ d ∈ sent, d.apex = apex ∧ d.addr ∈ v.p.waiting ∧ d.addr ∉ rest
  giveUps : ∃ gone, v.giveUps = v₀.giveUps ++ gone ∧ ∀ g ∈ gone, g.ev.outcome = .abandoned

variable {v₀ v : Visit R} {rest : List AddrPort} {r : Round R}

theorem Visited.drop (h : Visited apex v₀ (addr :: rest) v)
    (why : DropReason) : Visited apex v₀ rest (v.drop apex addr why) := by
  obtain ⟨sent, hout, hsent⟩ := h.out
  obtain ⟨gone, hgiveUps, hgone⟩ := h.giveUps
  refine ⟨h.msg, fun x hx => ?_, fun x hx => h.only x (AList.mem_erase.mp hx).2,
    ⟨sent, hout, fun d hd => ?_⟩, ⟨gone ++ [⟨⟨apex, addr, .abandoned⟩, why⟩], ?_, ?_⟩⟩
  · by_cases hne : x = addr
    · exact .inr ⟨_, mem_append_right _ mem_cons_self, by rw [hne]⟩
    · refine (h.kept x hx).imp (fun hx => AList.mem_erase.mpr ⟨hne, hx⟩) ?_
      rintro ⟨g, hg, hev⟩
      exact ⟨g, mem_append_left _ hg, hev⟩
  · obtain ⟨ha, hx, hnot⟩ := hsent d hd
    rw [mem_cons, not_or] at hnot
    exact ⟨ha, AList.mem_erase.mpr ⟨hnot.1, hx⟩, hnot.2⟩
  · rw [← append_assoc, ← hgiveUps]
    rfl
  · intro g hg
    rcases mem_append.mp hg with hg | hg
    · exact hgone g hg
    · rw [mem_singleton.mp hg]

theorem Visited.send (h : Visited apex v₀ (addr :: rest) v)
    (hnew : addr ∉ rest) (hx : addr ∈ v.p.waiting) (key : Option HeldKey) (n : Nat) :
    Visited apex v₀ rest (v.send apex addr key n) := by
  obtain ⟨sent, hout, hsent⟩ := h.out
  have hwaiting (x : AddrPort) : x ∈ (v.send apex addr key n).p.waiting ↔ x ∈ v.p.waiting := by
    rw [Visit.send, AList.mem_insert]
    exact or_iff_right_of_imp fun heq => heq ▸ hx
  refine ⟨h.msg, fun x hx => (h.kept x hx).imp_left (hwaiting x).mpr,
    fun x hx => h.only x ((hwaiting x).mp hx), ⟨sent ++ [⟨v.p.msg, key, apex, addr⟩], ?_, ?_⟩,
    h.giveUps⟩
  · rw [← append_assoc, ← hout]
    rfl
  · intro d hd
    rw [hwaiting]
    rcases mem_append.mp hd with hd | hd
    · obtain ⟨ha, hx, hnot⟩ := hsent d hd
      exact ⟨ha, hx, fun hmem => hnot (mem_cons_of_mem _ hmem)⟩
    · rw [mem_singleton.mp hd]
      exact ⟨rfl, hx, hnew⟩

theorem visitTarget_visited (cfg : NotifySetup R) (signs : NotifyMessage R → HeldKey → Bool)
    (hnew : addr ∉ rest) (h : Visited apex v₀ (addr :: rest) v) :
    Visited apex v₀ rest (visitTarget cfg signs apex v addr) := by
  rw [visitTarget]
  split
  · obtain ⟨sent, hout, hsent⟩ := h.out
    exact ⟨h.msg, h.kept, h.only, ⟨sent, hout, fun d hd =>
      ⟨(hsent d hd).1, (hsent d hd).2.1, fun hx => (hsent d hd).2.2 (mem_cons_of_mem _ hx)⟩⟩,
      h.giveUps⟩
  · rename_i n hsent
    have hx := lookup_eq_some_mem hsent
    split_ifs
    · exact h.drop _
    · split
      · exact h.send hnew hx none n
      · split_ifs
        · exact h.send hnew hx _ n
        · exact h.drop _

theorem foldl_visitTarget (cfg : NotifySetup R) (signs : NotifyMessage R → HeldKey → Bool)
    (apex : Name) (order : List AddrPort) (v : Visit R) :
    Visited apex v []
      ((visits order v.p.waiting).foldl (visitTarget cfg signs apex) v) :=
  foldl_visits (fun addr _ _ hnew h => visitTarget_visited cfg signs hnew h)
    ⟨rfl, fun _ hx => .inl hx, fun _ hx => hx, ⟨[], by simp, nofun⟩, ⟨[], by simp, nofun⟩⟩

/-- What a round leaves pending and what it has to send and to report, with some of the zones
ahead. -/
structure Collected (pending₀ : FinMap Name (Notification R)) (rest : List Name) (r : Round R) :
    Prop where
  kept : ∀ a x, Awaited pending₀ a x →
    Awaited r.pending a x ∨ ∃ g ∈ r.giveUps, g.ev = ⟨a, x, .abandoned⟩
  only : ∀ a x, Awaited r.pending a x → Awaited pending₀ a x
  out : ∀ d ∈ r.out, Awaited r.pending d.apex d.addr ∧ d.apex ∉ rest
  giveUps : ∀ g ∈ r.giveUps, g.ev.outcome = .abandoned
  msg : ∀ a p, r.pending.lookup a = some p → ∃ p₀, pending₀.lookup a = some p₀ ∧ p.msg = p₀.msg

theorem Collected.store {r' : Round R} {rest : List Name}
    (h : Collected pending₀ (apex :: rest) r) (hnew : apex ∉ rest)
    (hlookup : r.pending.lookup apex = some p) (hv : Visited apex ⟨p, r.out, r.giveUps⟩ [] v)
    (hpending : ∀ a x, Awaited r'.pending a x ↔
      if a = apex then x ∈ v.p.waiting else Awaited r.pending a x)
    (hmsg : ∀ a q, r'.pending.lookup a = some q →
      (a = apex ∧ q.msg = v.p.msg) ∨ r.pending.lookup a = some q)
    (hout : r'.out = v.out) (hgiveUps : r'.giveUps = v.giveUps) : Collected pending₀ rest r' := by
  obtain ⟨sent, hsent, hsentAll⟩ := hv.out
  obtain ⟨gone, hgone, hgoneAll⟩ := hv.giveUps
  refine ⟨fun a x hx => ?_, fun a x hx => ?_, fun d hd => ?_, fun g hg => ?_, fun a q hq => ?_⟩
  · rw [hpending, hgiveUps]
    rcases h.kept a x hx with hx | ⟨g, hg, hev⟩
    · split_ifs with ha
      · subst ha
        obtain ⟨q, hq, hx⟩ := hx
        obtain rfl : p = q := some.inj (hlookup.symm.trans hq)
        exact hv.kept x hx
      · exact .inl hx
    · exact .inr ⟨g, hgone ▸ mem_append_left _ hg, hev⟩
  · rw [hpending] at hx
    split_ifs at hx with ha
    · subst ha
      exact h.only a x ⟨p, hlookup, hv.only x hx⟩
    · exact h.only a x hx
  · rw [hout, hsent, mem_append] at hd
    rw [hpending]
    rcases hd with hd | hd
    · obtain ⟨hx, hnot⟩ := h.out d hd
      rw [mem_cons, not_or] at hnot
      rw [if_neg hnot.1]
      exact ⟨hx, hnot.2⟩
    · obtain ⟨ha, hx, -⟩ := hsentAll d hd
      rw [if_pos ha, ha]
      exact ⟨hx, hnew⟩
  · rw [hgiveUps, hgone, mem_append] at hg
    exact hg.elim (h.giveUps g) (hgoneAll g)
  · rcases hmsg a q hq with ⟨rfl, hq⟩ | hq
    · obtain ⟨p₀, hp₀, hmsg⟩ := h.msg a p hlookup
      exact ⟨p₀, hp₀, (hq.trans hv.msg).trans hmsg⟩
    · exact h.msg a q hq

theorem Collected.skip {rest : List Name} (h : Collected pending₀ (apex :: rest) r)
    (wait : Nat) : Collected pending₀ rest { r with wait } :=
  ⟨h.kept, h.only, fun d hd => ⟨(h.out d hd).1, fun ha => (h.out d hd).2 (mem_cons_of_mem _ ha)⟩,
    h.giveUps, h.msg⟩

theorem visitZone_collected (cfg : NotifySetup R) (now : Nat) (addrs : Name → List AddrPort)
    (signs : NotifyMessage R → HeldKey → Bool) {rest : List Name}
    (hnew : apex ∉ rest) (h : Collected pending₀ (apex :: rest) r) :
    Collected pending₀ rest (visitZone cfg now addrs signs r apex) := by
  rw [visitZone]
  split
  · exact h.skip r.wait
  · rename_i p hlookup
    split_ifs with hnext
    · exact h.skip _
    · have hv := foldl_visitTarget cfg signs apex (addrs apex) ⟨p, r.out, r.giveUps⟩
      dsimp only at hv ⊢
      generalize (visits (addrs apex) p.waiting).foldl (visitTarget cfg signs apex)
        ⟨p, r.out, r.giveUps⟩ = v at hv ⊢
      have hstored (a : Name) (x : AddrPort) :
          Awaited (if v.p.waiting.keys.isEmpty then r.pending.erase apex
            else r.pending.insert apex { v.p with next := now + cfg.interval }) a x ↔
          if a = apex then x ∈ v.p.waiting else Awaited r.pending a x :=
        awaited_stored { v.p with next := now + cfg.interval } v.p.waiting rfl a x
      split_ifs with hnone
      · refine h.store hnew hlookup hv (fun a x => ?_) (fun a q hq => ?_) rfl rfl
        · rw [← hstored, if_pos hnone]
        · rw [lookup_erase_eq] at hq
          split_ifs at hq
          exact .inr hq
      · refine h.store hnew hlookup hv (fun a x => ?_) (fun a q hq => ?_) rfl rfl
        · rw [← hstored, if_neg hnone]
        · rw [lookup_insert_eq] at hq
          split_ifs at hq with ha
          · exact .inl ⟨ha, by rw [← some.inj hq]⟩
          · exact .inr hq

theorem collect_collected (cfg : NotifySetup R) (now : Nat) (zones : List Name)
    (addrs : Name → List AddrPort) (signs : NotifyMessage R → HeldKey → Bool)
    (pending : FinMap Name (Notification R)) :
    Collected pending [] (collect cfg now zones addrs signs pending) :=
  foldl_visits (fun _ _ _ hnew h => visitZone_collected cfg now addrs signs hnew h)
    ⟨fun _ _ hx => .inl hx, fun _ _ hx => hx, nofun, nofun, fun _ p hp => ⟨p, hp, rfl⟩⟩

theorem acknowledge_cases (pending : FinMap Name (Notification R)) (zones : List Name)
    (id : UInt16) (source : AddrPort) :
    acknowledge pending zones id source = (pending, none) ∨
      ∃ apex pending', acknowledge pending zones id source =
          (pending', some ⟨apex, source, .answered⟩) ∧
        (∀ a x, Awaited pending' a x ↔ Awaited pending a x ∧ ¬(a = apex ∧ x = source)) ∧
        ∀ a p, pending'.lookup a = some p → ∃ p₀, pending.lookup a = some p₀ ∧ p.msg = p₀.msg := by
  rw [acknowledge]
  split
  · exact .inl rfl
  · rename_i apex p hfound
    obtain ⟨apex', -, hmap⟩ := exists_of_findSome?_eq_some hfound
    obtain ⟨p', hfilter, heq⟩ := map_eq_some_iff.mp hmap
    obtain ⟨rfl, rfl⟩ := Prod.mk.injEq .. ▸ heq
    obtain ⟨hlookup, -⟩ := filter_eq_some_iff.mp hfilter
    refine .inr ⟨apex', _, rfl, fun a x => ?_, fun a q hq => ?_⟩
    · rw [awaited_stored _ (p'.waiting.erase source) rfl]
      split_ifs with ha
      · subst ha
        have hwaiting : Awaited pending a x ↔ x ∈ p'.waiting :=
          ⟨fun ⟨q, hq, hx⟩ => by rwa [some.inj (hlookup.symm.trans hq)],
            fun hx => ⟨p', hlookup, hx⟩⟩
        rw [AList.mem_erase, hwaiting]
        tauto
      · tauto
    · split_ifs at hq
      · rw [lookup_erase_eq] at hq
        split_ifs at hq
        exact ⟨q, hq, rfl⟩
      · rw [lookup_insert_eq] at hq
        split_ifs at hq with ha
        · exact ⟨p', ha ▸ hlookup, by rw [← some.inj hq]⟩
        · exact ⟨q, hq, rfl⟩

end Awaited

namespace Sample

def rootTree (serial : UInt32) : ZoneTree Serial where
  name := .root
  soa := ⟨.root, .root, ⟨serial⟩, 0, 0, 0, 0, 0⟩
  negTTL := 0
  negSOA := ⟨serial⟩
  nodes := [⟨.root, [⟨classIN, typeSOA, [⟨serial⟩], []⟩], none, none⟩]
  depth := 0
  count := 1

def rootSnapshot (serial : UInt32) : Snapshot Serial := ⟨[rootTree serial], 1, 0⟩

def secondary : AddrPort := ⟨.v4 1, 53⟩

end Sample

end DNS

end Wegweiser
