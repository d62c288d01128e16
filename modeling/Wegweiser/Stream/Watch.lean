/-
One watcher, offered events by the query path from many goroutines at once.

Each turn of a goroutine is one operation on shared memory: a load, a store, an addition or a
compare-and-swap of one of the atomic fields, or a send or a receive on the channel that does not
wait.
-/
import Mathlib.Algebra.Order.BigOperators.Group.Finset
import Wegweiser.Stream.Sampling

namespace Wegweiser.Stream

open List

/-- Where a goroutine is in `admit`, with what it has loaded so far. -/
inductive AdmitAt where
  | window
  | swapWindow (last : Int)
  | swapCount
  | storeCarried (matched : Nat)
  | storeNext
  | addCount
  | loadCarried (n : Nat)
  | loadRatio (n ratio : Nat)
  | storeRatio (n ratio : Nat)
  | loadNext (n ratio : Nat)
  | swapNext (n ratio next : Nat)
deriving DecidableEq

/-- One operation of `admit`: what it leaves of the fields, and where it goes on or what it
returns. -/
def admitStep (maxRate : Nat) (sec : Int) (s : Sampler) : AdmitAt → Sampler × (AdmitAt ⊕ Bool)
  | .window => (s, .inl (if sec ≠ s.window then .swapWindow s.window else .addCount))
  | .swapWindow last =>
    if s.window = last then ({ s with window := sec }, .inl .swapCount) else (s, .inl .addCount)
  | .swapCount => ({ s with count := 0 }, .inl (.storeCarried s.count))
  | .storeCarried matched => ({ s with carried := ratioFor matched maxRate }, .inl .storeNext)
  | .storeNext => ({ s with next := 0 }, .inl .addCount)
  | .addCount => ({ s with count := s.count + 1 }, .inl (.loadCarried (s.count + 1)))
  | .loadCarried n => (s, .inl (.loadRatio n (max s.carried (ratioFor n maxRate))))
  | .loadRatio n ratio =>
    (s, if s.ratio ≠ ratio then .inl (.storeRatio n ratio)
      else if ratio ≤ 1 then .inr true else .inl (.loadNext n ratio))
  | .storeRatio n ratio =>
    ({ s with ratio }, if ratio ≤ 1 then .inr true else .inl (.loadNext n ratio))
  | .loadNext n ratio => (s, if n < s.next then .inr false else .inl (.swapNext n ratio s.next))
  | .swapNext n ratio next =>
    if s.next = next then ({ s with next := n + ratio }, .inr true)
    else (s, .inl (.loadNext n ratio))

/-- `admit` run on its own to the end, for as many operations as it can take. -/
def admitRun (maxRate : Nat) (sec : Int) : Nat → Sampler → AdmitAt → Option (Bool × Sampler)
  | 0, _, _ => none
  | fuel + 1, s, at_ =>
    match admitStep maxRate sec s at_ with
    | (s, .inl at_) => admitRun maxRate sec fuel s at_
    | (s, .inr admitted) => some (admitted, s)

theorem admitRun_addCount (maxRate : Nat) (sec : Int) (k : Nat) (s : Sampler) :
    admitRun maxRate sec (k + 6) s .addCount = some (admits maxRate s s.window) := by
  rw [admits, turn_of_window rfl]
  simp only [admitRun, admitStep]
  generalize max s.carried (ratioFor (s.count + 1) maxRate) = ratio
  by_cases hratio : s.ratio = ratio
  · subst hratio
    by_cases hone : s.ratio ≤ 1
    · simp [hone]
    · by_cases hnext : s.count + 1 < s.next <;> simp [hone, hnext]
  · by_cases hone : ratio ≤ 1
    · simp [hratio, hone]
    · by_cases hnext : s.count + 1 < s.next <;> simp [hratio, hone, hnext]

/-- Where no other goroutine comes between, `admit` ends after at most eleven operations, and they do
what `admits` does at once. -/
theorem admitRun_eq (maxRate : Nat) (sec : Int) (s : Sampler) :
    admitRun maxRate sec 11 s .window = some (admits maxRate s sec) := by
  by_cases hsec : sec = s.window
  · subst hsec
    rw [← admitRun_addCount maxRate s.window 4 s, admitRun.eq_def]
    simp [admitStep]
  · have hadmits := admitRun_addCount maxRate sec 0 (s.turn maxRate sec)
    rw [admits, turn_of_window rfl, ← admits, Sampler.turn, if_pos hsec] at hadmits
    rw [← hadmits]
    simp only [admitRun, admitStep, hsec, ne_eq, not_false_eq_true, ↓reduceIte]

/-- Where a goroutine is in `offer`. -/
inductive OfferAt where
  | start
  | addMatched
  | admitting (at_ : AdmitAt)
  | addSampled
  | send
  | addSent
  | evict
  | addEvicted
  | resend
  | addDropped
  | done
deriving DecidableEq

/-- A watcher's stream: its channel, its counters, and what is known of it to nobody: how many events
the watcher has read and how many were taken out of the channel to make room. -/
structure Tail (E : Type) where
  buffer : List E
  closed : Bool
  matched : Nat
  sent : Nat
  sampled : Nat
  dropped : Nat
  sampler : Sampler
  received : Nat
  evicted : Nat

/-- A subscription with the goroutines that are offering it an event. -/
structure Watch (E : Type) where
  tail : Tail E
  offers : List (E × OfferAt)

/-- What a hub makes a subscription of: the filter, the moment of an event in seconds, and the
options. -/
structure Setup (E : Type) where
  matches_ : E → Bool
  unix : E → Int
  maxRate : Nat
  buffer : Nat

section

variable {E : Type} (cfg : Setup E)

/-- One operation of `offer`. -/
def offerStep (ev : E) (t : Tail E) : OfferAt → Tail E × OfferAt
  | .start => (t, if t.closed || !cfg.matches_ ev then .done else .addMatched)
  | .addMatched => ({ t with matched := t.matched + 1 }, .admitting .window)
  | .admitting at_ =>
    match admitStep cfg.maxRate (cfg.unix ev) t.sampler at_ with
    | (sampler, .inl at_) => ({ t with sampler }, .admitting at_)
    | (sampler, .inr admitted) => ({ t with sampler }, if admitted then .send else .addSampled)
  | .addSampled => ({ t with sampled := t.sampled + 1 }, .done)
  | .send =>
    if t.buffer.length < cfg.buffer then ({ t with buffer := t.buffer ++ [ev] }, .addSent)
    else (t, .evict)
  | .addSent => ({ t with sent := t.sent + 1 }, .done)
  | .evict =>
    -- the oldest event is thrown away, if the watcher has not been faster
    match t.buffer with
    | [] => (t, .resend)
    | _ :: rest => ({ t with buffer := rest, evicted := t.evicted + 1 }, .addEvicted)
  | .addEvicted => ({ t with dropped := t.dropped + 1 }, .resend)
  | .resend =>
    if t.buffer.length < cfg.buffer then ({ t with buffer := t.buffer ++ [ev] }, .addSent)
    else (t, .addDropped)
  | .addDropped => ({ t with dropped := t.dropped + 1 }, .done)
  | .done => (t, .done)

/-- What can happen next. -/
inductive Move (E : Type) where
  | offer (ev : E)
  | turn (i : Nat)
  | read
  | close

def step (w : Watch E) : Move E → Watch E
  | .offer ev => { w with offers := w.offers ++ [(ev, .start)] }
  | .turn i =>
    match w.offers[i]? with
    | none => w
    | some (ev, at_) =>
      let (tail, at_) := offerStep cfg ev w.tail at_
      { tail, offers := w.offers.set i (ev, at_) }
  | .read =>
    match w.tail.buffer with
    | [] => w
    | _ :: rest =>
      { w with tail := { w.tail with buffer := rest, received := w.tail.received + 1 } }
  | .close => { w with tail := { w.tail with closed := true } }

/-- A subscription as `Subscribe` makes it. -/
def subscribed : Watch E where
  tail :=
    { buffer := [], closed := false, matched := 0, sent := 0, sampled := 0, dropped := 0,
      sampler := .fresh, received := 0, evicted := 0 }
  offers := []

def run (moves : List (Move E)) : Watch E := moves.foldl (step cfg) subscribed

end

section Balance

variable {E : Type} {cfg : Setup E}

/-- The accounts an offer still owes: for its own event, and for one it has thrown away. -/
def OfferAt.owed : OfferAt → Nat
  | .start | .addMatched | .done => 0
  | .admitting _ | .addSampled | .send | .addSent | .evict | .resend | .addDropped => 1
  | .addEvicted => 2

def OfferAt.uncounted : OfferAt → Nat
  | .addSent => 1
  | _ => 0

def Watch.total (w : Watch E) (f : OfferAt → Nat) : Nat := (w.offers.map fun o => f o.2).sum

/-- What is counted as sent has been read, thrown away or is in the channel; and what matched has
been counted, once, or twice where it was thrown away. -/
structure Balanced (w : Watch E) : Prop where
  sent : w.tail.sent + w.total OfferAt.uncounted =
    w.tail.received + w.tail.evicted + w.tail.buffer.length
  matched : w.tail.matched + w.tail.evicted =
    w.tail.sampled + w.tail.sent + w.tail.dropped + w.total OfferAt.owed

/-- One operation of an offer keeps the accounts: what changes in the counters changes in what the
offer owes. -/
structure Accounts (t : Tail E) (at_ : OfferAt) (t' : Tail E) (at' : OfferAt) : Prop where
  sent : t'.sent + at'.uncounted + (t.received + t.evicted + t.buffer.length) =
    t.sent + at_.uncounted + (t'.received + t'.evicted + t'.buffer.length)
  matched : t'.matched + t'.evicted + (t.sampled + t.sent + t.dropped + at_.owed) =
    t.matched + t.evicted + (t'.sampled + t'.sent + t'.dropped + at'.owed)

theorem offerStep_accounts (cfg : Setup E) (ev : E) (t : Tail E) (at_ : OfferAt) :
    Accounts t at_ (offerStep cfg ev t at_).1 (offerStep cfg ev t at_).2 := by
  cases at_ with
  | start =>
    rw [offerStep]
    split <;> exact ⟨rfl, rfl⟩
  | addMatched | addSampled | addSent | addEvicted | addDropped | done =>
    constructor <;> simp only [offerStep, OfferAt.uncounted, OfferAt.owed] <;> omega
  | admitting at_ =>
    rw [offerStep]
    split
    · exact ⟨rfl, rfl⟩
    · split <;> exact ⟨rfl, rfl⟩
  | send | resend =>
    rw [offerStep]
    split
    · constructor
      all_goals simp only [OfferAt.uncounted, OfferAt.owed, length_append,
        length_singleton]
      all_goals omega
    · exact ⟨rfl, rfl⟩
  | evict =>
    rw [offerStep]
    split
    · exact ⟨rfl, rfl⟩
    · rename_i hbuffer
      constructor <;> simp only [OfferAt.uncounted, OfferAt.owed, hbuffer, length_cons] <;>
        omega

theorem sum_set (f : OfferAt → Nat) {offers : List (E × OfferAt)} {i : Nat} {ev : E}
    {at_ : OfferAt} (h : offers[i]? = some (ev, at_)) (at' : OfferAt) :
    ((offers.set i (ev, at')).map fun o => f o.2).sum + f at_ =
      (offers.map fun o => f o.2).sum + f at' := by
  induction offers generalizing i with
  | nil => cases h
  | cons o offers ih =>
    cases i with
    | zero =>
      obtain rfl := Option.some.inj h
      simp only [set_cons_zero, map_cons, sum_cons]
      omega
    | succ i =>
      have hrest := ih (i := i) h
      simp only [set_cons_succ, map_cons, sum_cons]
      omega

theorem step_balanced {w : Watch E} (h : Balanced w) (m : Move E) : Balanced (step cfg w m) := by
  cases m with
  | offer ev =>
    have htotal (f : OfferAt → Nat) : (step cfg w (.offer ev)).total f = w.total f + f .start := by
      simp [step, Watch.total]
    exact ⟨by rw [htotal]; exact h.sent, by rw [htotal]; exact h.matched⟩
  | turn i =>
    rw [step]
    split
    · exact h
    · rename_i ev at_ hget
      have hstep := offerStep_accounts cfg ev w.tail at_
      have hsent := h.sent
      have hmatched := h.matched
      have hqueued := sum_set OfferAt.uncounted hget (offerStep cfg ev w.tail at_).2
      have howed := sum_set OfferAt.owed hget (offerStep cfg ev w.tail at_).2
      have hstep₁ := hstep.sent
      have hstep₂ := hstep.matched
      rw [Watch.total] at hsent hmatched
      constructor <;> simp only [Watch.total] <;> omega
  | read =>
    rw [step]
    split
    · exact h
    · rename_i hbuffer
      have hsent := h.sent
      rw [hbuffer, length_cons] at hsent
      refine ⟨?_, h.matched⟩
      simp only [Watch.total] at hsent ⊢
      omega
  | close => exact ⟨h.sent, h.matched⟩

theorem run_balanced (moves : List (Move E)) {w : Watch E} (h : Balanced w) :
    Balanced (moves.foldl (step cfg) w) := by
  induction moves generalizing w with
  | nil => exact h
  | cons m moves ih => exact ih (step_balanced h m)

end Balance

section Evictions

variable {E : Type} (cfg : Setup E)

def evicts (w : Watch E) : Move E → Bool
  | .turn i =>
    match w.offers[i]? with
    | some (_, .evict) => !w.tail.buffer.isEmpty
    | _ => false
  | _ => false

def Roomy (w : Watch E) : List (Move E) → Prop
  | [] => True
  | m :: moves => evicts w m = false ∧ Roomy (step cfg w m) moves

theorem step_evicted (w : Watch E) (m : Move E) :
    (step cfg w m).tail.evicted = w.tail.evicted + (evicts w m).toNat := by
  cases m with
  | offer ev | close => rfl
  | read =>
    rw [step]
    split <;> rfl
  | turn i =>
    rw [step, evicts]
    cases hget : w.offers[i]? with
    | none => rfl
    | some o =>
      obtain ⟨ev, at_⟩ := o
      cases at_ with
      | start | addMatched | addSampled | addSent | addEvicted | addDropped | done => rfl
      | admitting at_ =>
        dsimp only
        rw [offerStep]
        split <;> rfl
      | send | resend =>
        dsimp only
        rw [offerStep]
        split <;> rfl
      | evict =>
        dsimp only
        rw [offerStep]
        cases w.tail.buffer <;> rfl

theorem evicted_eq_zero (moves : List (Move E)) (w : Watch E) :
    (moves.foldl (step cfg) w).tail.evicted = 0 ↔ w.tail.evicted = 0 ∧ Roomy cfg w moves := by
  induction moves generalizing w with
  | nil => simp [Roomy]
  | cons m moves ih =>
    rw [foldl_cons, ih, step_evicted, Roomy]
    cases evicts w m <;> simp

end Evictions

/-- Once the offers have returned and the channel is empty, the counters add up if and only if no
offer has thrown away an event to make room: such an event is counted as sent and as dropped. -/
theorem counters_add_up {E : Type} (cfg : Setup E) (moves : List (Move E))
    (hdone : ∀ o ∈ (run cfg moves).offers, o.2 = .done)
    (hdrained : (run cfg moves).tail.buffer = []) :
    ((run cfg moves).tail.sent = (run cfg moves).tail.received ∧
      (run cfg moves).tail.matched = (run cfg moves).tail.sent + (run cfg moves).tail.sampled +
        (run cfg moves).tail.dropped) ↔ Roomy cfg subscribed moves := by
  have hbalanced : Balanced (run cfg moves) := run_balanced moves ⟨rfl, rfl⟩
  have hevicted := evicted_eq_zero cfg moves subscribed
  have htotal (f : OfferAt → Nat) (hf : f .done = 0) : (run cfg moves).total f = 0 := by
    have hzero : (run cfg moves).offers.map (fun o => f o.2) =
        (run cfg moves).offers.map fun _ => 0 :=
      map_congr_left fun o ho => by rw [hdone o ho, hf]
    rw [Watch.total, hzero]
    simp
  have hsent := hbalanced.sent
  have hmatched := hbalanced.matched
  rw [htotal _ rfl, hdrained, length_nil] at hsent
  rw [htotal _ rfl] at hmatched
  have hiff : Roomy cfg subscribed moves ↔ (run cfg moves).tail.evicted = 0 := by
    rw [run, hevicted]
    exact (and_iff_right rfl).symm
  rw [hiff]
  omega

/-- How many events have been read, are in the channel, or are counted as sampled out or dropped. -/
def Tail.settled {E : Type} (t : Tail E) : Nat :=
  t.received + t.buffer.length + t.sampled + t.dropped

/-- In every order of the operations of the offers, the reads and the close: no event that matched
ever counts twice, and once the offers have returned none is missing. -/
theorem events_settle_once {E : Type} (cfg : Setup E) (moves : List (Move E)) :
    (run cfg moves).tail.settled ≤ (run cfg moves).tail.matched ∧
      ((∀ o ∈ (run cfg moves).offers, o.2 = .done) →
        (run cfg moves).tail.settled = (run cfg moves).tail.matched) := by
  obtain ⟨hsent, hmatched⟩ : Balanced (run cfg moves) := run_balanced moves ⟨rfl, rfl⟩
  have hle : ((run cfg moves).offers.map fun o => o.2.uncounted).sum ≤
      ((run cfg moves).offers.map fun o => o.2.owed).sum :=
    sum_le_sum fun o _ => by cases o.2 <;> simp [OfferAt.uncounted, OfferAt.owed]
  rw [Tail.settled]
  rw [Watch.total] at hsent hmatched
  refine ⟨by omega, fun hdone => ?_⟩
  have howed : ((run cfg moves).offers.map fun o => o.2.owed).sum = 0 := by
    simp only [List.sum_eq_zero_iff_forall_eq_nat, List.forall_mem_map]
    exact fun o ho => hdone o ho ▸ rfl
  omega

def Setup.small : Setup Nat where
  matches_ _ := true
  unix _ := 7
  maxRate := 200
  buffer := 1

def twoRead : List (Move Nat) :=
  .offer 5 :: replicate 13 (.turn 0) ++ .read :: .offer 6 :: replicate 13 (.turn 1) ++
    [.read]

def twoUnread : List (Move Nat) :=
  .offer 5 :: replicate 13 (.turn 0) ++ .offer 6 :: replicate 13 (.turn 1) ++ [.read]

theorem counters_add_up_two :
    (run .small twoRead).tail.sent = 2 ∧ (run .small twoRead).tail.received = 2 :=
  have hroomy : Roomy .small subscribed twoRead := by
    simp only [twoRead, replicate, cons_append, nil_append, Roomy]
    decide +kernel
  have h := (counters_add_up .small twoRead (by decide +kernel) (by decide +kernel)).mpr hroomy
  ⟨by decide +kernel, h.1.symm.trans (by decide +kernel)⟩

/-- The offers have returned and the channel is empty: two events were counted as sent, and the
watcher has got one. -/
theorem sent_counts_evicted :
    (run .small twoUnread).offers.all (fun o => o.2 == .done) = true ∧
      (run .small twoUnread).tail.buffer = [] ∧ (run .small twoUnread).tail.sent = 2 ∧
      (run .small twoUnread).tail.received = 1 ∧ (run .small twoUnread).tail.matched = 2 ∧
      (run .small twoUnread).tail.sampled = 0 ∧ (run .small twoUnread).tail.dropped = 1 := by
  decide +kernel

end Wegweiser.Stream
