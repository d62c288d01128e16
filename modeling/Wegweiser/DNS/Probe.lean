/-
The prober: asking the secondaries what serial they hold.

What is known of a pair of zone and secondary is kept under one lock.
-/
import Mathlib.Data.Prod.Lex
import Wegweiser.DNS.Notify
import Wegweiser.Lib.Sorted

namespace Wegweiser

open Ranged Option

/-- `Serial.After`, by way of `Serial.Compare`. -/
def Serial.after (s o : Serial) : Bool :=
  if s.v = o.v then false
  else if o.v - s.v < half then false
  else if half < o.v - s.v then true
  else !decide (s.v < o.v)

namespace DNS

inductive ProbeOutcome where
  | inStep
  | behind
  | ahead
  | unordered
  | silent
  | noSerial
deriving DecidableEq

structure ProbeEvent where
  zone : Name
  target : AddrPort
  outcome : ProbeOutcome
  lag : UInt32
deriving DecidableEq

structure ProbeKey where
  zone : Name
  addr : AddrPort
deriving DecidableEq

/-- `probeState.last`; a pair that has not been asked yet has no outcome. -/
structure Reading where
  outcome : Option ProbeOutcome
  serial : Serial
  known : Bool
  lag : UInt32
  at_ : Nat
deriving DecidableEq

/-- `probeState`; nothing is outstanding where there is no deadline. -/
structure ProbeState where
  due : Nat
  backoff : Nat
  id : UInt16
  deadline : Option Nat
  suppressed : Bool
  last : Reading
deriving DecidableEq

/-- The zero `probeState`. -/
def ProbeState.zero : ProbeState := ⟨0, 0, 0, none, false, ⟨none, ⟨0⟩, false, 0, 0⟩⟩

structure ProbeStanding where
  zone : Name
  target : AddrPort
  reading : Reading
deriving DecidableEq

/-- `probeBackoff`, in nanoseconds. -/
def probeBackoff : Nat := 30000000000

def probeBurst : Nat := 64

def probeSlots : Nat := 1024

/-- What a prober is set up with: its two spans, how the serial is read out of a start of
authority, the hash of a pair, and an address in words. -/
structure ProbeSetup (R : Type) where
  wait : Nat
  floor : Nat
  serialOf : R → Option Serial
  hash : ProbeKey → Nat
  text : AddrPort → Octets

/-- A question to be written. -/
structure ProbeQuestion where
  key : ProbeKey
  id : UInt16
  moment : Nat
deriving DecidableEq

/-- An answer: its identifier, the names it says were asked about, and its answer section. -/
structure ProbeAnswer (R : Type) where
  id : UInt16
  questions : List Octets
  answer : List R

/-- What the asking side has left to do of a round. -/
structure Asker where
  silent : List ProbeEvent
  out : List ProbeQuestion
deriving DecidableEq

/-- Where the reading side is with an answer: between the halves, the serial not yet compared or
compared already, or with an event to hand on. -/
inductive Listener where
  | waiting
  | heard (key : ProbeKey) (id : UInt16) (theirs : Option Serial)
  | compared (key : ProbeKey) (id : UInt16) (theirs : Option Serial) (ev : ProbeEvent)
  | reporting (key : ProbeKey) (id : UInt16) (ev : ProbeEvent)
deriving DecidableEq

def Listener.question : Listener → Option (ProbeKey × UInt16)
  | .waiting => none
  | .heard key id _ | .compared key id _ _ | .reporting key id _ => some (key, id)

/-- What an answer is told to be out of date by: a question put to a pair, and a notification
sent to it. -/
inductive Happening where
  | asked (key : ProbeKey) (id : UInt16)
  | sent (key : ProbeKey)
deriving DecidableEq

/-- `Prober`, with where its two goroutines are, what it has handed to the observer and, known to
nobody, what has happened, the latest first. -/
structure Prober where
  targets : List NotifyTarget
  pending : FinMap ProbeKey ProbeState
  asker : Asker
  listener : Listener
  observed : List ProbeEvent
  log : List Happening

/-- `NewProber`, started. -/
def Prober.started (targets : List NotifyTarget) : Prober :=
  { targets, pending := ∅, asker := ⟨[], []⟩, listener := .waiting, observed := [], log := [] }

section Round

variable {R : Type} (cfg : ProbeSetup R)

def retry (st : ProbeState) (now : Nat) : ProbeState :=
  let backoff := if st.backoff = 0 then probeBackoff else min (st.backoff * 2) cfg.floor
  { st with backoff, due := now + backoff }

def slot (key : ProbeKey) : Nat := cfg.floor / probeSlots * (cfg.hash key % probeSlots)

def live (targets : List NotifyTarget) (snap : Snapshot R) (key : ProbeKey) : Bool :=
  targets.any (fun t => t.addr == key.addr) && (snap.zoneAt key.zone).isSome

/-- `reconcile`, a pair this server has. -/
def firstSight (now : Nat) (pending : FinMap ProbeKey ProbeState) (key : ProbeKey) :
    FinMap ProbeKey ProbeState :=
  if key ∈ pending then pending
  else pending.insert key { ProbeState.zero with due := now + slot cfg key }

/-- `reconcile`, a pair that is pending. -/
def dropGone (isLive : ProbeKey → Bool) (r : FinMap ProbeKey ProbeState × List ProbeKey)
    (key : ProbeKey) : FinMap ProbeKey ProbeState × List ProbeKey :=
  if isLive key then r else (r.1.erase key, r.2 ++ [key])

/-- `Prober.reconcile`: the pairs that are pending now, and those that have gone. -/
def reconcile (targets : List NotifyTarget) (snap : Snapshot R) (now : Nat) (order : List ProbeKey)
    (pending : FinMap ProbeKey ProbeState) : FinMap ProbeKey ProbeState × List ProbeKey :=
  let keys := targets.flatMap fun t => snap.zones.map fun z => ⟨z.name, t.addr⟩
  let pending := keys.foldl (firstSight cfg now) pending
  (visits order pending).foldl (dropGone (live targets snap)) (pending, [])

/-- What a round has come to. -/
structure Pass where
  pending : FinMap ProbeKey ProbeState
  out : List ProbeQuestion
  silent : List ProbeEvent
  faults : List ProbeKey
  nextDue : Nat
  held : Bool

/-- `round`, one pair. -/
def askPair (now : Nat) (isLive : ProbeKey → Bool) (draw : ProbeKey → Option UInt16) (r : Pass)
    (key : ProbeKey) : Pass :=
  match r.pending.lookup key with
  | none => r
  | some st =>
    if !isLive key || st.suppressed then r
    else
      match st.deadline with
      | some deadline =>
        if now < deadline then { r with nextDue := min r.nextDue (deadline - now) }
        else
          let st := retry cfg { st with id := 0, deadline := none } now
          let last := { st.last with outcome := some .silent, lag := 0, at_ := now }
          { r with
            pending := r.pending.insert key { st with last }
            nextDue := min r.nextDue (st.due - now)
            silent := r.silent ++ [⟨key.zone, key.addr, .silent, 0⟩] }
      | none =>
        if now < st.due then { r with nextDue := min r.nextDue (st.due - now) }
        else if probeBurst ≤ r.out.length then { r with held := true }
        else
          match draw key with
          | none =>
            { r with
              pending := r.pending.insert key { st with due := now + cfg.floor }
              faults := r.faults ++ [key] }
          | some id =>
            { r with
              pending := r.pending.insert key { st with id, deadline := some (now + cfg.wait) }
              out := r.out ++ [⟨key, id, now⟩]
              nextDue := min r.nextDue cfg.wait }

/-- `round`, as far as it is done under the lock.  The order is the one the loops take, and
`draw` the identifier of the question about a pair, where one can be built. -/
def passOver (targets : List NotifyTarget) (snap : Snapshot R) (now : Nat) (order : List ProbeKey)
    (draw : ProbeKey → Option UInt16) (pending : FinMap ProbeKey ProbeState) : Pass :=
  let pending := (reconcile cfg targets snap now order pending).1
  (visits order pending).foldl (askPair cfg now (live targets snap) draw)
    ⟨pending, [], [], [], hour, false⟩

end Round

section Answers

variable {R : Type} (cfg : ProbeSetup R)

def theirSerial (m : ProbeAnswer R) : Option Serial := m.answer.findSome? cfg.serialOf

/-- The pair an answer is about, by the one question in it and where it came from. -/
def ProbeAnswer.key (m : ProbeAnswer R) (source : AddrPort) : Option ProbeKey :=
  match m.questions with
  | [name] => (parseName name).toOption.map fun apex => ⟨apex, source⟩
  | _ => none

/-- `Prober.compare` -/
def compareSerial (snap : Snapshot R) (key : ProbeKey) (theirs : Option Serial) : ProbeEvent :=
  let found (outcome : ProbeOutcome) : ProbeEvent := ⟨key.zone, key.addr, outcome, 0⟩
  match theirs, publishedSerial cfg.serialOf snap key.zone with
  | none, _ => found .noSerial
  | some _, none => found .noSerial
  | some theirs, some ours =>
    if ours = theirs then found .inStep
    else if !theirs.comparable ours then found .unordered
    else if theirs.after ours then found .ahead
    else { found .behind with lag := ours.v - theirs.v }

/-- What the second half of `answer` makes of a pair. -/
def noted (st : ProbeState) (ev : ProbeEvent) (theirs : Option Serial) (now : Nat) : ProbeState :=
  let st :=
    if ev.outcome = .inStep then { st with backoff := 0, due := now + cfg.floor }
    else retry cfg st now
  let last := { st.last with outcome := some ev.outcome, lag := ev.lag, at_ := now }
  { st with last :=
      match theirs with
      | some serial => { last with serial, known := true }
      | none => last }

end Answers

/-- What a prober does next of itself. -/
inductive ProbeMove (R : Type) where
  | setTargets (targets : List NotifyTarget)
  /-- A round begins. -/
  | round (snap : Snapshot R) (now : Nat) (order : List ProbeKey)
      (draw : ProbeKey → Option UInt16)
  /-- The asking side hands an event on or writes a question, which may fail. -/
  | ask (written : Bool)
  /-- The first half of `answer`. -/
  | hear (m : ProbeAnswer R) (source : AddrPort)
  | compare (snap : Snapshot R)
  /-- The second half of `answer`. -/
  | settle (now : Nat)
  /-- The event of an answer is handed on. -/
  | report

namespace Prober

variable {R : Type} (cfg : ProbeSetup R) (p : Prober)

def notified (ev : NotifyEvent) (now : Nat) : Prober :=
  let key : ProbeKey := ⟨ev.zone, ev.target⟩
  let st := (p.pending.lookup key).getD .zero
  match ev.outcome with
  | .sent =>
    { p with
      pending := p.pending.insert key { st with suppressed := true, id := 0, deadline := none }
      log := .sent key :: p.log }
  | .answered | .abandoned =>
    { p with
      pending := p.pending.insert key { st with suppressed := false, backoff := 0, due := now } }

/-- What the asking side does next: the events of those that stayed silent first, and a question
that could not be written is taken back. -/
def ask (written : Bool) : Prober :=
  match p.asker.silent with
  | ev :: silent => { p with asker := { p.asker with silent }, observed := p.observed ++ [ev] }
  | [] =>
    match p.asker.out with
    | [] => p
    | q :: out =>
      let asked := { p with asker := { p.asker with out } }
      if written then asked
      else
        match p.pending.lookup q.key with
        | none => asked
        | some st =>
          if st.id = q.id then
            { asked with
              pending := p.pending.insert q.key
                (retry cfg { st with id := 0, deadline := none } q.moment) }
          else asked

/-- `answer`, the first half. -/
def hear (m : ProbeAnswer R) (source : AddrPort) : Prober :=
  match p.listener, m.key source with
  | .waiting, some key =>
    match p.pending.lookup key with
    | none => p
    | some st =>
      if st.deadline.isNone || st.id != m.id then p
      else
        { p with
          pending := p.pending.insert key { st with id := 0, deadline := none }
          listener := if st.suppressed then .waiting else .heard key m.id (theirSerial cfg m) }
  | _, _ => p

/-- `answer`, the second half. -/
def settle (now : Nat) : Prober :=
  match p.listener with
  | .compared key id theirs ev =>
    match p.pending.lookup key with
    | none => { p with listener := .reporting key id ev }
    | some st =>
      { p with
        pending := p.pending.insert key (noted cfg st ev theirs now)
        listener := if st.suppressed then .waiting else .reporting key id ev }
  | _ => p

def step : ProbeMove R → Prober
  | .setTargets targets => { p with targets }
  | .round snap now order draw =>
    if p.asker.silent.isEmpty && p.asker.out.isEmpty then
      let r := passOver cfg p.targets snap now order draw p.pending
      { p with
        pending := r.pending
        asker := ⟨r.silent, r.out⟩
        log := (r.out.map fun q => .asked q.key q.id).reverse ++ p.log }
    else p
  | .ask written => p.ask cfg written
  | .hear m source => p.hear cfg m source
  | .compare snap =>
    match p.listener with
    | .heard key id theirs =>
      { p with listener := .compared key id theirs (compareSerial cfg snap key theirs) }
    | _ => p
  | .settle now => p.settle cfg now
  | .report =>
    match p.listener with
    | .reporting _ _ ev => { p with listener := .waiting, observed := p.observed ++ [ev] }
    | _ => p

def standing (snap : Snapshot R) : List ProbeStanding :=
  let known := p.pending.entries.filter fun e => (snap.zoneAt e.1.zone).isSome
  let byText (s : ProbeStanding) : List Nat ×ₗ List Nat :=
    toLex (s.zone.string.map UInt8.toNat, (cfg.text s.target).map UInt8.toNat)
  Rows.sortOn byText (known.map fun e => ⟨e.1.zone, e.1.addr, e.2.last⟩)

end Prober

open Prober

section Follows

variable {R : Type} {cfg : ProbeSetup R} {draw : ProbeKey → Option UInt16}
  {pending pending' : FinMap ProbeKey ProbeState} {key : ProbeKey} {st st' : ProbeState}

/-- What a prober can make of its pairs by itself: none is held back that was not before, and no
question is outstanding that was not before or is not asked with the identifier drawn for it. -/
structure Follows (draw : ProbeKey → Option UInt16)
    (pending pending' : FinMap ProbeKey ProbeState) : Prop where
  suppressed : ∀ key st', pending'.lookup key = some st' → st'.suppressed = true →
    ∃ st, pending.lookup key = some st ∧ st.suppressed = true
  asked : ∀ key st', pending'.lookup key = some st' → st'.deadline.isSome = true →
    (∃ st, pending.lookup key = some st ∧ st.deadline.isSome = true ∧ st.id = st'.id) ∨
      draw key = some st'.id

theorem Follows.refl : Follows draw pending pending :=
  ⟨fun _ st hst h => ⟨st, hst, h⟩, fun _ st hst h => .inl ⟨st, hst, h, rfl⟩⟩

theorem Follows.update (h : Follows draw pending pending') (hst : pending'.lookup key = some st)
    (hsuppressed : st'.suppressed = true → st.suppressed = true)
    (hasked : st'.deadline.isSome = true →
      (st.deadline.isSome = true ∧ st.id = st'.id) ∨ draw key = some st'.id) :
    Follows draw pending (pending'.insert key st') := by
  refine ⟨fun k s hs hsup => ?_, fun k s hs hdeadline => ?_⟩
  · rw [lookup_insert_eq] at hs
    split_ifs at hs with hk
    · obtain rfl := some.inj hs
      exact hk ▸ h.suppressed key st hst (hsuppressed hsup)
    · exact h.suppressed k s hs hsup
  · rw [lookup_insert_eq] at hs
    split_ifs at hs with hk
    · obtain rfl := some.inj hs
      rw [hk]
      rcases hasked hdeadline with ⟨hsome, hid⟩ | hdraw
      · rw [← hid]
        exact h.asked key st hst hsome
      · exact .inr hdraw
    · exact h.asked k s hs hdeadline

theorem Follows.create (h : Follows draw pending pending') (hsuppressed : st'.suppressed = false)
    (hdeadline : st'.deadline = none) : Follows draw pending (pending'.insert key st') := by
  refine ⟨fun k s hs hsup => ?_, fun k s hs hsome => ?_⟩
  all_goals
    rw [lookup_insert_eq] at hs
    split_ifs at hs with hk
  · obtain rfl := some.inj hs
    rw [hsuppressed] at hsup
    cases hsup
  · exact h.suppressed k s hs hsup
  · obtain rfl := some.inj hs
    rw [hdeadline] at hsome
    cases hsome
  · exact h.asked k s hs hsome

theorem Follows.erase (h : Follows draw pending pending') :
    Follows draw pending (pending'.erase key) := by
  have hlookup (k : ProbeKey) (s : ProbeState) (hs : (pending'.erase key).lookup k = some s) :
      pending'.lookup k = some s := by
    rw [lookup_erase_eq] at hs
    split_ifs at hs
    exact hs
  exact ⟨fun k s hs => h.suppressed k s (hlookup k s hs), fun k s hs => h.asked k s (hlookup k s hs)⟩

theorem Follows.foldl {σ κ : Type} (get : σ → FinMap ProbeKey ProbeState) {f : σ → κ → σ}
    (hf : ∀ s k, Follows draw pending (get s) → Follows draw pending (get (f s k))) (l : List κ)
    {s : σ} (h : Follows draw pending (get s)) : Follows draw pending (get (l.foldl f s)) := by
  induction l generalizing s with
  | nil => exact h
  | cons k l ih => exact ih (hf s k h)

theorem reconcile_follows (targets : List NotifyTarget) (snap : Snapshot R) (now : Nat)
    (order : List ProbeKey) :
    Follows draw pending (reconcile cfg targets snap now order pending).1 := by
  rw [reconcile]
  refine Follows.foldl Prod.fst (fun r key h => ?_) _ (Follows.foldl id (fun pending key h => ?_) _ .refl)
  · rw [dropGone]
    split_ifs
    · exact h
    · exact h.erase
  · rw [firstSight]
    split_ifs
    · exact h
    · exact h.create rfl rfl

theorem askPair_follows {now : Nat} {isLive : ProbeKey → Bool} {r : Pass}
    (h : Follows draw pending r.pending) (key : ProbeKey) :
    Follows draw pending (askPair cfg now isLive draw r key).pending := by
  rw [askPair]
  split
  · exact h
  · rename_i st hst
    split
    · exact h
    · split
      · split
        · exact h
        · exact h.update hst id nofun
      · split
        · exact h
        · split
          · exact h
          · split
            · exact h.update hst id fun hsome => .inl ⟨hsome, rfl⟩
            · rename_i id' hid
              exact h.update hst id fun _ => .inr hid

def ProbeMove.draws : ProbeMove R → ProbeKey → Option UInt16
  | .round _ _ _ draw => draw
  | _ => fun _ => none

theorem Prober.hear_cases (cfg : ProbeSetup R) (p : Prober) (m : ProbeAnswer R)
    (source : AddrPort) :
    p.hear cfg m source = p ∨
      ∃ key st, m.key source = some key ∧ p.pending.lookup key = some st ∧
        st.deadline.isSome = true ∧ st.id = m.id ∧ p.hear cfg m source =
          { p with
            pending := p.pending.insert key { st with id := 0, deadline := none }
            listener := if st.suppressed then .waiting else .heard key m.id (theirSerial cfg m) } := by
  rw [hear]
  split
  · rename_i key hlistener hkey
    split
    · exact .inl rfl
    · rename_i st hst
      split
      · exact .inl rfl
      · rename_i hasked
        rw [Bool.or_eq_true, not_or, Bool.not_eq_true, isNone_eq_false_iff, bne_iff_ne,
          not_ne_iff] at hasked
        exact .inr ⟨key, st, hkey, hst, hasked.1, hasked.2, rfl⟩
  · exact .inl rfl

theorem noted_keeps (cfg : ProbeSetup R) (st : ProbeState) (ev : ProbeEvent)
    (theirs : Option Serial) (now : Nat) :
    (noted cfg st ev theirs now).deadline = st.deadline ∧
      (noted cfg st ev theirs now).id = st.id ∧
      (noted cfg st ev theirs now).suppressed = st.suppressed := by
  unfold noted
  dsimp only
  split_ifs <;> exact ⟨rfl, rfl, rfl⟩

theorem Prober.step_follows (cfg : ProbeSetup R) (p : Prober) (m : ProbeMove R) :
    Follows m.draws p.pending (p.step cfg m).pending := by
  cases m with
  | setTargets targets => exact .refl
  | round snap now order draw =>
    rw [step]
    split
    · exact Follows.foldl Pass.pending (fun r key hr => askPair_follows hr key) _
        (reconcile_follows p.targets snap now order)
    · exact .refl
  | ask written =>
    rw [step, ask]
    split
    · exact .refl
    · split
      · exact .refl
      · dsimp only
        split
        · exact .refl
        · split
          · exact .refl
          · rename_i st hst
            split
            · exact Follows.refl.update hst id nofun
            · exact .refl
  | hear m source =>
    rw [step]
    rcases p.hear_cases cfg m source with heq | ⟨key, st, -, hst, -, -, heq⟩
    · rw [heq]
      exact .refl
    · rw [heq]
      exact Follows.refl.update hst id nofun
  | compare snap =>
    rw [step]
    split <;> exact .refl
  | settle now =>
    rw [step, settle]
    split
    · rename_i key id theirs ev hlistener
      split
      · exact .refl
      · rename_i st hst
        obtain ⟨hdeadline, hid, hsuppressed⟩ := noted_keeps cfg st ev theirs now
        exact Follows.refl.update hst (fun hsup => hsuppressed ▸ hsup)
          fun hsome => .inl ⟨hdeadline ▸ hsome, hid.symm⟩
    · exact .refl
  | report =>
    rw [step]
    split <;> exact .refl

end Follows

def Sample.probing : ProbeSetup Serial := ⟨5, 3600, some, fun _ => 0, fun _ => []⟩

end DNS

end Wegweiser
