/-
The notifier and the prober as the server wires them.

Each event of the notifier is handed to the prober, which leaves a pair alone from the time it is
notified to the time it has answered or was given up on.
-/
import Wegweiser.DNS.Announce
import Wegweiser.DNS.Probe

namespace Wegweiser

open Ranged Steps List Option

namespace DNS

/-- The two of them. -/
structure Secondaries (R : Type) where
  notifier : Notifier R
  prober : Prober

/-- What happens next: to the notifier, with the moment its event is handed over at, or to the
prober. -/
inductive SecondaryMove (R : Type) where
  | notify (m : NotifyMove R) (now : Nat)
  | probe (m : ProbeMove R)

variable {R : Type}

def Prober.told (p : Prober) (ev : Option NotifyEvent) (now : Nat) : Prober :=
  match ev with
  | some ev => p.notified ev now
  | none => p

namespace Secondaries

variable (ncfg : NotifySetup R) (pcfg : ProbeSetup R)

def started (targets asked : List NotifyTarget) (keys : Keyring) : Secondaries R :=
  ⟨.started targets keys, .started asked⟩

def step (w : Secondaries R) : SecondaryMove R → Secondaries R
  | .notify m now =>
    { notifier := (w.notifier.step ncfg m).1
      prober := w.prober.told (w.notifier.step ncfg m).2 now }
  | .probe m => { w with prober := w.prober.step pcfg m }

def run (w : Secondaries R) (moves : List (SecondaryMove R)) : Secondaries R :=
  moves.foldl (step ncfg pcfg) w

end Secondaries

open Secondaries

def SecondaryMove.keepsTargets : SecondaryMove R → Bool
  | .notify m _ => m.keepsTargets
  | .probe _ => true

def Notifier.Coming (n : Notifier R) (a : Name) (x : AddrPort) : Prop :=
  n.sender.written = some ⟨a, x, .sent⟩ ∨ ∃ d ∈ n.sender.out, d.event = ⟨a, x, .sent⟩

instance (n : Notifier R) (a : Name) (x : AddrPort) : Decidable (n.Coming a x) :=
  inferInstanceAs (Decidable (_ ∨ _))

def Notifier.quiet (n : Notifier R) : Bool :=
  n.sender.giveUps.isEmpty && n.sender.out.isEmpty && n.sender.written.isNone && n.reader.isNone

def Prober.Suppressed (p : Prober) (a : Name) (x : AddrPort) : Prop :=
  ∃ st, p.pending.lookup ⟨a, x⟩ = some st ∧ st.suppressed = true

instance (p : Prober) (a : Name) (x : AddrPort) : Decidable (p.Suppressed a x) :=
  decidable_of_iff ((p.pending.lookup ⟨a, x⟩).any fun st => st.suppressed) (by
    simp [Prober.Suppressed, Option.any_eq_true])

/-- An answered event is not handed over before the sent event of a datagram to the same pair that
the sender had collected by then, unless the pair is being notified again. -/
def Secondaries.inTurn (w : Secondaries R) : SecondaryMove R → Bool
  | .notify .report _ => w.notifier.reader.all fun ev =>
    decide (Awaited w.notifier.pending ev.zone ev.target ∨ ¬w.notifier.Coming ev.zone ev.target)
  | _ => true

/-- What the notifier has on its way: datagrams go to those that are awaited, unless their answer is
about to be reported, and notifications to all targets. -/
structure Notifier.Tracked (n : Notifier R) : Prop where
  reader : ∀ ev, n.reader = some ev → ev.outcome = .answered
  giveUps : ∀ g ∈ n.sender.giveUps, g.ev.outcome = .abandoned
  written : ∀ ev, n.sender.written = some ev → ev.outcome = .sent
  targets : ∀ a x, Awaited n.pending a x → ∃ t ∈ n.targets, t.addr = x
  built : ∀ c ∈ n.calls, ∀ p, c.at_ = .built p → ∀ x, x ∈ p.waiting ↔ ∃ t ∈ n.targets, t.addr = x
  coming : ∀ a x, n.Coming a x → Awaited n.pending a x ∨ n.reader = some ⟨a, x, .answered⟩

theorem build_waiting (msg : NotifyMessage R) (targets : List NotifyTarget) (ring : Keyring)
    (x : AddrPort) :
    x ∈ (Notification.build msg targets ring).waiting ↔ ∃ t ∈ targets, t.addr = x := by
  have hadd (n : Notification R) (t : NotifyTarget) :
      x ∈ (n.addTarget ring t).waiting ↔ t.addr = x ∨ x ∈ n.waiting := by
    rw [Notification.addTarget]
    dsimp only
    split <;> rw [AList.mem_insert, eq_comm]
  have hfold (n : Notification R) : x ∈ (targets.foldl (Notification.addTarget ring) n).waiting ↔
      x ∈ n.waiting ∨ ∃ t ∈ targets, t.addr = x := by
    induction targets generalizing n with
    | nil => simp
    | cons t targets ih =>
      rw [foldl_cons, ih, hadd]
      simp only [mem_cons, exists_eq_or_imp]
      tauto
  rw [Notification.build, hfold]
  simp

namespace Notifier.Tracked

variable {n : Notifier R} {cfg : NotifySetup R}

theorem move (h : n.Tracked) {i : Nat} {c : NotifyCall R} {at_ : CallAt R}
    (hbuilt : ∀ p, at_ = .built p → ∀ x, x ∈ p.waiting ↔ ∃ t ∈ n.targets, t.addr = x) :
    (n.move i c at_).Tracked := by
  refine ⟨h.reader, h.giveUps, h.written, h.targets, fun d hd => ?_, h.coming⟩
  rcases mem_move hd with hd | rfl
  · exact h.built d hd
  · exact hbuilt

theorem install (h : n.Tracked) {i : Nat} {c : NotifyCall R} {p : Notification R}
    (hc : c ∈ n.calls) (hat : c.at_ = .built p) :
    ({ n.move i c .returned with pending := n.pending.insert c.apex p } : Notifier R).Tracked := by
  have hmoved : (n.move i c .returned).Tracked := h.move nofun
  have hwaiting := h.built c hc p hat
  refine ⟨h.reader, h.giveUps, h.written, fun a x hx => ?_, hmoved.built, fun a x hcoming => ?_⟩
  · rw [awaited_insert] at hx
    split_ifs at hx with ha
    · exact (hwaiting x).mp hx
    · exact h.targets a x hx
  · refine (h.coming a x hcoming).imp_left fun hx => ?_
    rw [awaited_insert]
    split_ifs with ha
    · exact (hwaiting x).mpr (h.targets a x hx)
    · exact hx

theorem turn (h : n.Tracked) (i : Nat) (id : UInt16) : (n.turn cfg i id).Tracked := by
  have hturned := n.turned cfg i id
  generalize n.turn cfg i id = n' at hturned ⊢
  cases hturned with
  | idle => exact h
  | left hc hat hwhy => exact h.move nofun
  | built hc hat hzone htargets hmsg =>
    refine h.move fun p hp => ?_
    obtain rfl := CallAt.built.inj hp
    exact build_waiting _ n.targets n.keys
  | installed hc hat => exact h.install (mem_of_getElem? hc) hat

theorem round (h : n.Tracked) {r : Round R} (hr : Collected n.pending [] r) :
    ({ n with pending := r.pending, sender := ⟨r.giveUps, r.out, none⟩ } : Notifier R).Tracked := by
  refine ⟨h.reader, hr.giveUps, nofun, fun a x hx => h.targets a x (hr.only a x hx), h.built, ?_⟩
  rintro a x (hwritten | ⟨d, hd, hev⟩)
  · cases hwritten
  · obtain ⟨ha, hx, -⟩ := NotifyEvent.mk.injEq .. ▸ hev
    rw [← ha, ← hx]
    exact .inl (hr.out d hd).1

theorem send (h : n.Tracked) (written : Bool) : (n.send written).1.Tracked := by
  rw [Notifier.send]
  split
  · rename_i gone giveUps hgiveUps
    refine ⟨h.reader, fun g hg => h.giveUps g ?_, h.written, h.targets, h.built, h.coming⟩
    rw [hgiveUps]
    exact mem_cons_of_mem _ hg
  · split
    · refine ⟨h.reader, h.giveUps, fun _ hev => ?_, h.targets, h.built,
        fun a x hcoming => h.coming a x (.inr (hcoming.resolve_left fun hev => ?_))⟩
      · cases hev
      · cases hev
    · split
      · exact h
      · rename_i d out hout
        have hwritten (ev : NotifyEvent) (hev : (if written then some d.event else none) = some ev) :
            d.event = ev := by
          split_ifs at hev
          exact some.inj hev
        refine ⟨h.reader, h.giveUps, fun ev hev => ?_, h.targets, h.built, fun a x hcoming => ?_⟩
        · rw [← hwritten ev hev]
          rfl
        · refine h.coming a x (.inr ?_)
          rw [hout]
          rcases hcoming with hev | ⟨d', hd', hev⟩
          · exact ⟨d, mem_cons_self, hwritten _ hev⟩
          · exact ⟨d', mem_cons_of_mem _ hd', hev⟩

theorem hear (h : n.Tracked) (hidle : n.reader = none) (zones : List Name) (id : UInt16)
    (source : AddrPort) :
    ({ n with
        pending := (acknowledge n.pending zones id source).1
        reader := (acknowledge n.pending zones id source).2 } : Notifier R).Tracked := by
  rcases acknowledge_cases n.pending zones id source with heq | ⟨apex, pending, heq, hawaited, -⟩
  · rw [heq]
    exact ⟨nofun, h.giveUps, h.written, h.targets, h.built, fun a x hcoming =>
      .inl ((h.coming a x hcoming).resolve_right fun hreader => by rw [hidle] at hreader; cases hreader)⟩
  · rw [heq]
    refine ⟨fun ev hev => ?_, h.giveUps, h.written, fun a x hx => h.targets a x ((hawaited a x).mp hx).1,
      h.built, fun a x hcoming => ?_⟩
    · rw [← some.inj hev]
    · have hx := (h.coming a x hcoming).resolve_right fun hreader => by
        rw [hidle] at hreader
        cases hreader
      by_cases hpair : a = apex ∧ x = source
      · rw [hpair.1, hpair.2]
        exact .inr rfl
      · exact .inl ((hawaited a x).mpr ⟨hx, hpair⟩)

end Notifier.Tracked

theorem suppressed_notified {p : Prober} {ev : NotifyEvent} {now : Nat} {a : Name} {x : AddrPort} :
    (p.notified ev now).Suppressed a x ↔
      if a = ev.zone ∧ x = ev.target then ev.outcome = .sent else p.Suppressed a x := by
  have hinsert (st : ProbeState) (q : Prober)
      (hq : q.pending = p.pending.insert ⟨ev.zone, ev.target⟩ st) :
      q.Suppressed a x ↔
        if a = ev.zone ∧ x = ev.target then st.suppressed = true else p.Suppressed a x := by
    rw [Prober.Suppressed, hq, lookup_insert_eq]
    simp only [ProbeKey.mk.injEq]
    split_ifs
    · simp
    · rfl
  rw [Prober.notified]
  cases ev.outcome with
  | sent => rw [hinsert _ _ rfl]; simp
  | answered | abandoned => rw [hinsert _ _ rfl]; simp

/-- A pair that is left alone is being notified, or an event is on its way that ends it. -/
structure Secondaries.Sound (w : Secondaries R) : Prop where
  tracked : w.notifier.Tracked
  held : ∀ a x, w.prober.Suppressed a x → Awaited w.notifier.pending a x ∨
    w.notifier.reader = some ⟨a, x, .answered⟩ ∨
    ∃ g ∈ w.notifier.sender.giveUps, g.ev = ⟨a, x, .abandoned⟩

namespace Secondaries.Sound

variable {w : Secondaries R} {ncfg : NotifySetup R} {pcfg : ProbeSetup R}

theorem turn (h : w.Sound) (i : Nat) (id : UInt16) :
    (⟨w.notifier.turn ncfg i id, w.prober⟩ : Secondaries R).Sound := by
  refine ⟨h.tracked.turn i id, fun a x hx => ?_⟩
  have hturned := w.notifier.turned ncfg i id
  dsimp only
  generalize w.notifier.turn ncfg i id = n' at hturned ⊢
  cases hturned with
  | idle | left | built => exact h.held a x hx
  | @installed c p hc hat =>
    refine (h.held a x hx).imp_left fun hawaited => ?_
    rw [awaited_insert]
    split_ifs with ha
    · exact (h.tracked.built c (mem_of_getElem? hc) p hat x).mpr
        (h.tracked.targets a x hawaited)
    · exact hawaited

theorem round (h : w.Sound) {r : Round R} (hr : Collected w.notifier.pending [] r)
    (hidle : w.notifier.sender.giveUps = []) :
    (⟨{ w.notifier with pending := r.pending, sender := ⟨r.giveUps, r.out, none⟩ }, w.prober⟩ :
      Secondaries R).Sound := by
  refine ⟨h.tracked.round hr, fun a x hx => ?_⟩
  rcases h.held a x hx with hawaited | hreader | ⟨g, hg, -⟩
  · exact (hr.kept a x hawaited).imp_right .inr
  · exact .inr (.inl hreader)
  · rw [hidle] at hg
    cases hg

theorem send (h : w.Sound) (written : Bool) (now : Nat) :
    (⟨(w.notifier.send written).1, w.prober.told (w.notifier.send written).2 now⟩ :
      Secondaries R).Sound := by
  refine ⟨h.tracked.send written, ?_⟩
  rw [Notifier.send]
  split
  · rename_i gone giveUps hgiveUps
    intro a x hx
    rw [Prober.told, suppressed_notified] at hx
    split_ifs at hx with hpair
    · have habandoned := h.tracked.giveUps gone (by rw [hgiveUps]; exact mem_cons_self)
      rw [habandoned] at hx
      cases hx
    · refine (h.held a x hx).imp_right fun hrest => hrest.imp_right ?_
      rintro ⟨g, hg, hev⟩
      rw [hgiveUps] at hg
      rcases mem_cons.mp hg with rfl | hg
      · rw [hev] at hpair
        exact absurd ⟨rfl, rfl⟩ hpair
      · exact ⟨g, hg, hev⟩
  · rename_i hgiveUps
    split
    · rename_i ev hwritten
      intro a x hx
      rw [Prober.told, suppressed_notified] at hx
      split_ifs at hx with hpair
      · have hev : ev = ⟨a, x, .sent⟩ := by rw [hpair.1, hpair.2, ← hx]
        exact (h.tracked.coming a x (.inl (hwritten.trans (by rw [hev])))).imp_right .inl
      · exact h.held a x hx
    · split <;> exact h.held

theorem hear (h : w.Sound) (hidle : w.notifier.reader = none) (zones : List Name) (id : UInt16)
    (source : AddrPort) :
    (⟨{ w.notifier with
          pending := (acknowledge w.notifier.pending zones id source).1
          reader := (acknowledge w.notifier.pending zones id source).2 }, w.prober⟩ :
      Secondaries R).Sound := by
  refine ⟨h.tracked.hear hidle zones id source, fun a x hx => ?_⟩
  rcases acknowledge_cases w.notifier.pending zones id source with
    heq | ⟨apex, pending, heq, hawaited, -⟩
  · rw [heq]
    rcases h.held a x hx with hawaited | hreader | hgone
    · exact .inl hawaited
    · rw [hidle] at hreader
      cases hreader
    · exact .inr (.inr hgone)
  · rw [heq]
    rcases h.held a x hx with hx | hreader | hgone
    · by_cases hpair : a = apex ∧ x = source
      · rw [hpair.1, hpair.2]
        exact .inr (.inl rfl)
      · exact .inl ((hawaited a x).mpr ⟨hx, hpair⟩)
    · rw [hidle] at hreader
      cases hreader
    · exact .inr (.inr hgone)

theorem report (h : w.Sound) (now : Nat) (hturn : w.inTurn (.notify .report now) = true) :
    (⟨{ w.notifier with reader := none }, w.prober.told w.notifier.reader now⟩ :
      Secondaries R).Sound := by
  cases hreader : w.notifier.reader with
  | none =>
    have hsame : ({ w.notifier with reader := none } : Notifier R) = w.notifier := by
      rw [← hreader]
    rw [hsame]
    exact h
  | some ev =>
    have houtcome := h.tracked.reader ev hreader
    rw [inTurn, hreader, all_some, decide_eq_true_iff] at hturn
    have hpair (a : Name) (x : AddrPort)
        (heq : w.notifier.reader = some ⟨a, x, .answered⟩) : a = ev.zone ∧ x = ev.target := by
      rw [hreader, some.injEq] at heq
      rw [heq]
      exact ⟨rfl, rfl⟩
    refine ⟨⟨nofun, h.tracked.giveUps, h.tracked.written, h.tracked.targets, h.tracked.built,
      fun a x hcoming => .inl ?_⟩, fun a x hx => ?_⟩
    · rcases h.tracked.coming a x hcoming with hawaited | heq
      · exact hawaited
      · obtain ⟨rfl, rfl⟩ := hpair a x heq
        exact hturn.resolve_right fun hnot => hnot hcoming
    · rw [Prober.told, suppressed_notified] at hx
      split_ifs at hx with hsame
      · rw [houtcome] at hx
        cases hx
      · rcases h.held a x hx with hawaited | heq | hgone
        · exact .inl hawaited
        · exact absurd (hpair a x heq) hsame
        · exact .inr (.inr hgone)

theorem step (h : w.Sound) {m : SecondaryMove R} (htargets : m.keepsTargets = true)
    (hturn : w.inTurn m = true) : (w.step ncfg pcfg m).Sound := by
  cases m with
  | probe m =>
    refine ⟨h.tracked, fun a x hx => h.held a x ?_⟩
    obtain ⟨st, hst, hsuppressed⟩ := hx
    exact (w.prober.step_follows pcfg m).suppressed ⟨a, x⟩ st hst hsuppressed
  | notify m now =>
    have hkeep (n : Notifier R) (hn : n.Tracked) (hpending : n.pending = w.notifier.pending)
        (hreader : n.reader = w.notifier.reader) (hsender : n.sender = w.notifier.sender) :
        (⟨n, w.prober⟩ : Secondaries R).Sound :=
      ⟨hn, fun a x hx => by
        rw [hpending, hreader, hsender]
        exact h.held a x hx⟩
    rw [Secondaries.step]
    cases m with
    | setTargets targets => cases htargets
    | setKeys keys =>
      exact hkeep _ ⟨h.tracked.reader, h.tracked.giveUps, h.tracked.written, h.tracked.targets,
        h.tracked.built, h.tracked.coming⟩ rfl rfl rfl
    | call snap apex =>
      refine hkeep _ ⟨h.tracked.reader, h.tracked.giveUps, h.tracked.written,
        h.tracked.targets, fun c hc => ?_, h.tracked.coming⟩ rfl rfl rfl
      rcases mem_append.mp hc with hc | hc
      · exact h.tracked.built c hc
      · rw [mem_singleton.mp hc]
        nofun
    | turn i id => exact h.turn i id
    | round now' zones addrs signs =>
      rw [Notifier.step]
      split
      · rename_i hidle
        have hgiveUps : w.notifier.sender.giveUps = [] := by
          rw [Bool.and_eq_true, Bool.and_eq_true] at hidle
          exact isEmpty_iff.mp hidle.1.1
        exact h.round (collect_collected ncfg now' zones addrs signs _) hgiveUps
      · exact h
    | send written => exact h.send written now
    | hear zones id source =>
      rw [Notifier.step]
      split
      · exact h
      · rename_i hidle
        exact h.hear hidle zones id source
    | report => exact h.report now hturn

end Secondaries.Sound

/-- Where no answered event is handed over ahead of a sent event of the same pair that the sender
had collected before: in every state in which no notification is pending for a pair and nobody
has an event to hand over, the prober does not leave the pair alone. -/
theorem suppression_ends (ncfg : NotifySetup R) (pcfg : ProbeSetup R)
    (targets asked : List NotifyTarget) (keys : Keyring) (moves : List (SecondaryMove R))
    (htargets : ∀ m ∈ moves, m.keepsTargets = true)
    (hturn : Along (step ncfg pcfg) (fun w m => w.inTurn m = true)
      (.started targets asked keys) moves)
    (a : Name) (x : AddrPort)
    (hquiet : (run ncfg pcfg (.started targets asked keys) moves).notifier.quiet = true)
    (hpending : ¬Awaited
      (run ncfg pcfg (.started targets asked keys) moves).notifier.pending a x) :
    ¬(run ncfg pcfg (.started targets asked keys) moves).prober.Suppressed a x := by
  have hstart : (started targets asked keys : Secondaries R).Sound := by
    refine ⟨⟨nofun, nofun, nofun, ?_, nofun, ?_⟩, ?_⟩
    · rintro a x ⟨p, hp, -⟩
      cases hp
    · rintro a x (hwritten | ⟨d, hd, -⟩)
      · cases hwritten
      · cases hd
    · rintro a x ⟨st, hst, -⟩
      cases hst
  have hsound := ((Along.of_forall htargets).and hturn).invariant
    (fun w m hm hw => hw.step hm.1 hm.2) hstart
  intro hx
  simp only [Notifier.quiet, Bool.and_eq_true, List.isEmpty_iff, isNone_iff_eq_none] at hquiet
  rcases hsound.held a x hx with hawaited | heq | ⟨g, hg, -⟩
  · exact hpending hawaited
  · exact absurd (hquiet.2.symm.trans heq) nofun
  · exact absurd hg (by rw [← run, hquiet.1.1.1]; nofun)

namespace Sample

def wired : Secondaries Serial := .started [⟨secondary, none⟩] [⟨secondary, none⟩] ∅

def sending : List (SecondaryMove Serial) :=
  [.notify (.call (rootSnapshot 5) .root) 0, .notify (.turn 0 7) 0, .notify (.turn 0 0) 0,
    .notify (.round 1 [] (fun _ => []) fun _ _ => true) 1, .notify (.send true) 1]

def inTime : List (SecondaryMove Serial) :=
  sending ++ [.notify (.send true) 1, .notify (.hear [] 7 secondary) 2, .notify .report 2]

def tooEarly : List (SecondaryMove Serial) :=
  sending ++ [.notify (.hear [] 7 secondary) 2, .notify .report 2, .notify (.send true) 2]

end Sample

open DNS.Sample

theorem suppression_ends_in_time :
    (run twice probing wired
      (sending ++ [.notify (.send true) 1])).prober.Suppressed .root secondary ∧
    ¬(run twice probing wired inTime).prober.Suppressed
      .root secondary :=
  ⟨by decide +kernel, suppression_ends twice probing [⟨secondary, none⟩]
    [⟨secondary, none⟩] ∅ inTime (by decide +kernel) (by decide +kernel) .root
    secondary (by decide +kernel) (by decide +kernel)⟩

/-- The answered event comes first: nothing is pending, nobody has anything to hand over, and the
pair is left alone for good. -/
theorem suppression_sticks :
    (∀ m ∈ tooEarly, m.keepsTargets = true) ∧
    (run twice probing wired tooEarly).notifier.quiet = true ∧
    ¬Awaited (run twice probing wired
      tooEarly).notifier.pending .root secondary ∧
    (run twice probing wired tooEarly).prober.Suppressed
      .root secondary := by
  decide +kernel

end DNS

end Wegweiser
