/-
What the notifier announces of a zone when it is told of several versions at once.

A call of `Notify` reads the version out of the snapshot it was called with, builds its message
and only then takes the lock to install it.
-/
import Wegweiser.DNS.Notify
import Wegweiser.Lib.Steps

namespace Wegweiser

open Ranged Steps List Option

namespace DNS

variable {R : Type} (serialOf : R → Option Serial) (age : Serial → Nat) (apex : Name)
  (cfg : NotifySetup R)

def NotifyCall.serial (c : NotifyCall R) : Option Serial := publishedSerial serialOf c.snap c.apex

def NotifyCall.hasReturned (c : NotifyCall R) : Bool :=
  match c.at_ with
  | .returned => true
  | _ => false

def NotifyCall.hasBuilt (c : NotifyCall R) : Bool :=
  match c.at_ with
  | .built _ => true
  | _ => false

def notYounger (s s' : Option Serial) : Bool := s.all fun s => s'.all fun s' => age s ≤ age s'

def NotifyMove.keepsTargets : NotifyMove R → Bool
  | .setTargets _ => false
  | _ => true

/-- A snapshot a call is made with carries a serial of the zone where it holds the zone, and none
that is older than those the calls before it were made with. -/
def Notifier.rises (n : Notifier R) : NotifyMove R → Bool
  | .call snap a =>
    a != apex ||
      ((snap.zoneAt a).isNone || (publishedSerial serialOf snap a).isSome) &&
      n.calls.all fun c => c.apex != apex ||
        notYounger age (c.serial serialOf) (publishedSerial serialOf snap a)
  | _ => true

/-- A call for the zone that installs its notification was not overtaken: no later one with a
younger serial has returned. -/
def Notifier.inOrder (n : Notifier R) : NotifyMove R → Bool
  | .turn i _ => n.calls[i]?.all fun c => !c.hasBuilt || c.apex != apex ||
      (n.calls.drop (i + 1)).all fun d => d.apex != apex || !d.hasReturned ||
        notYounger age (d.serial serialOf) (c.serial serialOf)
  | _ => true

def Notifier.after (n : Notifier R) (m : NotifyMove R) : Notifier R := (n.step cfg m).1

def NotifyCall.asked (c : NotifyCall R) : Snapshot R × Name := (c.snap, c.apex)

/-- The calls were made with serials that do not get older, and build their notifications of what
they were made with. -/
structure Ordered (calls : List (NotifyCall R)) : Prop where
  rising : (calls.map NotifyCall.asked).Pairwise fun c d => c.2 = apex → d.2 = apex →
    notYounger age (publishedSerial serialOf c.1 c.2) (publishedSerial serialOf d.1 d.2) = true
  carried : ∀ c ∈ calls, c.apex = apex → (c.snap.zoneAt c.apex).isSome →
    (c.serial serialOf).isSome
  built : ∀ c ∈ calls, ∀ p, c.at_ = .built p →
    (c.snap.zoneAt c.apex).isSome ∧ serialOf p.msg.soa = c.serial serialOf

/-- What is pending for the zone announces the youngest serial of the calls that have returned. -/
structure Announcing (n : Notifier R) : Prop where
  calls : Ordered serialOf age apex n.calls
  silent : n.targets = [] → n.pending.lookup apex = none ∧ ∀ c ∈ n.calls, c.hasBuilt = false
  newest : ∀ p, n.pending.lookup apex = some p → ∃ s, serialOf p.msg.soa = some s ∧
    (∃ (j : Nat) (c : NotifyCall R), n.calls[j]? = some c ∧ c.apex = apex ∧
      c.hasReturned = true ∧ c.serial serialOf = some s) ∧
    ∀ c ∈ n.calls, c.apex = apex → c.hasReturned = true →
      notYounger age (c.serial serialOf) (some s) = true

variable {serialOf age apex cfg} {n : Notifier R} {i : Nat} {c : NotifyCall R}

variable {at_ : CallAt R} {d : NotifyCall R} {j : Nat} {t : ZoneTree R}

theorem mem_move (hd : d ∈ (n.move i c at_).calls) : d ∈ n.calls ∨ d = { c with at_ } :=
  mem_or_eq_of_mem_set hd

theorem asked_move (hc : n.calls[i]? = some c) (at_ : CallAt R) :
    (n.move i c at_).calls.map NotifyCall.asked = n.calls.map NotifyCall.asked := by
  refine ext_getElem? fun j => ?_
  rw [Notifier.move, getElem?_map, getElem?_map, getElem?_set]
  split_ifs with hij hlt
  · rw [← hij, hc]
    rfl
  · rw [← hij, getElem?_eq_none (Nat.le_of_not_lt hlt)]
  · rfl

theorem getElem_move (hc : n.calls[i]? = some c)
    (hnot : c.hasReturned = false) (hd : n.calls[j]? = some d) (hreturned : d.hasReturned = true)
    (at_ : CallAt R) : (n.move i c at_).calls[j]? = some d := by
  have hij : i ≠ j := by
    rintro rfl
    rw [hc, some.injEq] at hd
    rw [hd, hreturned] at hnot
    cases hnot
  rw [Notifier.move, getElem?_set_ne hij, hd]

theorem Ordered.move (h : Ordered serialOf age apex n.calls) (hc : n.calls[i]? = some c)
    (hbuilt : ∀ p, at_ = .built p →
      (c.snap.zoneAt c.apex).isSome ∧ serialOf p.msg.soa = c.serial serialOf) :
    Ordered serialOf age apex (n.move i c at_).calls := by
  have hmem : c ∈ n.calls := mem_of_getElem? hc
  refine ⟨?_, fun d hd => ?_, fun d hd => ?_⟩
  · rw [asked_move hc]
    exact h.rising
  · rcases mem_move hd with hd | rfl
    · exact h.carried d hd
    · exact h.carried c hmem
  · rcases mem_move hd with hd | rfl
    · exact h.built d hd
    · exact hbuilt

theorem Ordered.not_younger {calls : List (NotifyCall R)}
    (h : Ordered serialOf age apex calls) (hd : calls[j]? = some d) (hc : calls[i]? = some c)
    (hij : j < i) (hd' : d.apex = apex) (hc' : c.apex = apex) :
    notYounger age (d.serial serialOf) (c.serial serialOf) = true := by
  obtain ⟨hj, rfl⟩ := List.getElem?_eq_some_iff.mp hd
  obtain ⟨hi, rfl⟩ := List.getElem?_eq_some_iff.mp hc
  have hpair := pairwise_iff_getElem.mp h.rising j i (by simpa using hj) (by simpa using hi) hij
  rw [getElem_map, getElem_map] at hpair
  exact hpair hd' hc'

theorem Announcing.move (h : Announcing serialOf age apex n) (hc : n.calls[i]? = some c)
    (hnot : c.hasReturned = false) (hbuilt : ∀ p, at_ = .built p →
      (c.snap.zoneAt c.apex).isSome ∧ serialOf p.msg.soa = c.serial serialOf)
    (hsilent : n.targets = [] → at_ = .returned)
    (hreturned : at_ = .returned → n.targets = [] ∨ (c.apex = apex → c.serial serialOf = none)) :
    Announcing serialOf age apex (n.move i c at_) := by
  refine ⟨h.calls.move hc hbuilt, fun htargets => ⟨(h.silent htargets).1, fun d hd => ?_⟩, ?_⟩
  · rcases mem_move hd with hd | rfl
    · exact (h.silent htargets).2 d hd
    · rw [NotifyCall.hasBuilt, hsilent htargets]
  · intro p (hp : n.pending.lookup apex = some p)
    obtain ⟨s, hs, ⟨j, d, hd, hapex, hret, hserial⟩, hall⟩ := h.newest p hp
    refine ⟨s, hs, ⟨j, d, getElem_move hc hnot hd hret at_, hapex, hret, hserial⟩, ?_⟩
    intro d hd hapex hret
    rcases mem_move hd with hd | rfl
    · exact hall d hd hapex hret
    · cases at_ with
      | entered | built p => cases hret
      | returned =>
        rcases hreturned rfl with htargets | hnone
        · rw [(h.silent htargets).1] at hp
          cases hp
        · have hserial : NotifyCall.serial serialOf { c with at_ := .returned } = none :=
            hnone hapex
          rw [hserial]
          rfl

theorem Announcing.install (h : Announcing serialOf age apex n) (hc : n.calls[i]? = some c)
    {p : Notification R} (hat : c.at_ = .built p)
    (horder : c.apex = apex → ∀ d ∈ n.calls.drop (i + 1), d.apex = apex → d.hasReturned = true →
      notYounger age (d.serial serialOf) (c.serial serialOf) = true) :
    Announcing serialOf age apex
      { n.move i c .returned with pending := n.pending.insert c.apex p } := by
  have hmem : c ∈ n.calls := mem_of_getElem? hc
  have hnot : c.hasReturned = false := by rw [NotifyCall.hasReturned, hat]
  have hbuilt : c.hasBuilt = true := by rw [NotifyCall.hasBuilt, hat]
  obtain ⟨hheld, hserial⟩ := h.calls.built c hmem p hat
  refine ⟨h.calls.move hc nofun, fun htargets => ?_, fun q hq => ?_⟩
  · rw [(h.silent htargets).2 c hmem] at hbuilt
    cases hbuilt
  · rw [lookup_insert_eq] at hq
    split_ifs at hq with hapex
    · obtain rfl := some.inj hq
      obtain ⟨s, hs⟩ := isSome_iff_exists.mp (h.calls.carried c hmem hapex.symm hheld)
      have hlt := (List.getElem?_eq_some_iff.mp hc).1
      refine ⟨s, hserial.trans hs, ⟨i, { c with at_ := .returned }, ?_, hapex.symm, rfl, hs⟩, ?_⟩
      · rw [Notifier.move, getElem?_set_self hlt]
      · intro d hd hd' hret
        rcases mem_move hd with hd | rfl
        · obtain ⟨j, hj⟩ := getElem?_of_mem hd
          rw [← hs]
          rcases Nat.lt_trichotomy j i with hij | rfl | hij
          · exact h.calls.not_younger hj hc hij hd' hapex.symm
          · obtain rfl := some.inj (hc.symm.trans hj)
            rw [hnot] at hret
            cases hret
          · refine horder hapex.symm d (mem_of_getElem? (i := j - (i + 1)) ?_) hd' hret
            rwa [getElem?_drop, Nat.add_sub_cancel' hij]
        · have hsame : NotifyCall.serial serialOf { c with at_ := .returned } = some s := hs
          rw [hsame]
          simp [notYounger]
    · have hmoved : Announcing serialOf age apex (n.move i c .returned) :=
        h.move hc hnot nofun (fun _ => rfl) fun _ => .inr fun heq => absurd heq.symm hapex
      exact hmoved.newest q hq

theorem serial_of_notifyMessage {id : UInt16} {msg : NotifyMessage R}
    (hzone : c.snap.zoneAt c.apex = some t) (hmsg : notifyMessage t id = .ok msg) :
    serialOf msg.soa = c.serial serialOf := by
  rw [NotifyCall.serial, publishedSerial, hzone, bind_some]
  rw [notifyMessage] at hmsg
  cases hsoa : t.apexSOA with
  | error e =>
    rw [hsoa] at hmsg
    cases hmsg
  | ok soa =>
    rw [hsoa] at hmsg
    obtain rfl := Except.ok.inj hmsg
    rfl

theorem build_msg (msg : NotifyMessage R) (targets : List NotifyTarget) (ring : Keyring) :
    (Notification.build msg targets ring).msg = msg := by
  have hfold (n : Notification R) : (targets.foldl (Notification.addTarget ring) n).msg = n.msg := by
    induction targets generalizing n with
    | nil => rfl
    | cons target targets ih =>
      rw [foldl_cons, ih, Notification.addTarget]
      dsimp only
      split <;> rfl
  exact hfold _

theorem serial_eq_none (id : UInt16) (hzone : c.snap.zoneAt c.apex = some t)
    (hfails : ∀ msg, notifyMessage t id ≠ .ok msg) : c.serial serialOf = none := by
  rw [NotifyCall.serial, publishedSerial, hzone, bind_some]
  cases hsoa : t.apexSOA with
  | error e => rfl
  | ok soa => exact absurd (by rw [notifyMessage, hsoa]; rfl) (hfails ⟨id, t.name, soa⟩)

theorem turn_announcing (hpacks : ∀ msg, cfg.packs msg = true) (id : UInt16)
    (h : Announcing serialOf age apex n) (horder : n.inOrder serialOf age apex (.turn i id) = true) :
    Announcing serialOf age apex (n.turn cfg i id) := by
  have hturned := n.turned cfg i id
  generalize n.turn cfg i id = n' at hturned ⊢
  have hentered (c : NotifyCall R) (hat : c.at_ = .entered) : c.hasReturned = false := by
    rw [NotifyCall.hasReturned, hat]
  cases hturned with
  | idle => exact h
  | @left c hc hat hwhy =>
    refine h.move hc (hentered c hat) nofun (fun _ => rfl) fun _ => ?_
    rcases hwhy with hzone | htargets | ⟨t, hzone, hfails⟩
    · refine .inr fun _ => ?_
      rw [NotifyCall.serial, publishedSerial, hzone, bind_none]
    · exact .inl htargets
    · refine .inr fun _ => serial_eq_none id hzone fun msg hmsg => ?_
      exact Bool.noConfusion ((hpacks msg).symm.trans (hfails msg hmsg))
  | @built c t msg hc hat hzone htargets hmsg =>
    refine h.move hc (hentered c hat) (fun p hp => ?_) (fun hnone => absurd hnone htargets) nofun
    obtain rfl := CallAt.built.inj hp
    rw [build_msg]
    exact ⟨by rw [hzone]; rfl, serial_of_notifyMessage hzone hmsg⟩
  | @installed c p hc hat =>
    refine h.install hc hat fun hapex d hd hd' hret => ?_
    rw [Notifier.inOrder, hc, all_some, NotifyCall.hasBuilt, hat] at horder
    have hall : ∀ d ∈ n.calls.drop (i + 1), (¬d.apex = apex ∨ d.hasReturned = false) ∨
        notYounger age (d.serial serialOf) (c.serial serialOf) = true := by
      simpa [hapex] using horder
    exact (hall d hd).resolve_left (by simp [hd', hret])

theorem Announcing.settle {n' : Notifier R} (h : Announcing serialOf age apex n)
    (hcalls : n'.calls = n.calls) (htargets : n'.targets = n.targets)
    (hmsg : ∀ a p, n'.pending.lookup a = some p →
      ∃ p₀, n.pending.lookup a = some p₀ ∧ p.msg = p₀.msg) :
    Announcing serialOf age apex n' := by
  refine ⟨hcalls ▸ h.calls, fun hnone => ?_, fun p hp => ?_⟩
  · rw [htargets] at hnone
    rw [hcalls]
    refine ⟨?_, (h.silent hnone).2⟩
    cases hp : n'.pending.lookup apex with
    | none => rfl
    | some p =>
      obtain ⟨p₀, hp₀, -⟩ := hmsg apex p hp
      rw [(h.silent hnone).1] at hp₀
      cases hp₀
  · obtain ⟨p₀, hp₀, hsame⟩ := hmsg apex p hp
    rw [hsame, hcalls]
    exact h.newest p₀ hp₀

theorem Announcing.called {snap : Snapshot R} {a : Name} (h : Announcing serialOf age apex n)
    (hrises : n.rises serialOf age apex (.call snap a) = true) :
    Announcing serialOf age apex { n with calls := n.calls ++ [⟨snap, a, .entered⟩] } := by
  have hnew (d : NotifyCall R) (hd : d ∈ n.calls ++ [⟨snap, a, .entered⟩]) :
      d ∈ n.calls ∨ d = ⟨snap, a, .entered⟩ := by simpa using hd
  have hrise : a = apex →
      ((snap.zoneAt a).isNone = true ∨ (publishedSerial serialOf snap a).isSome = true) ∧
      ∀ c ∈ n.calls, ¬c.apex = apex ∨
        notYounger age (c.serial serialOf) (publishedSerial serialOf snap a) = true := by
    intro ha
    simpa [Notifier.rises, ha] using hrises
  refine ⟨⟨?_, fun d hd => ?_, fun d hd => ?_⟩, fun hnone => ⟨(h.silent hnone).1, fun d hd => ?_⟩,
    fun p hp => ?_⟩
  · rw [map_append, pairwise_append]
    refine ⟨h.calls.rising, by simp, fun c hc d hd hc' hd' => ?_⟩
    obtain ⟨c, hmem, rfl⟩ := mem_map.mp hc
    obtain rfl : d = (snap, a) := by simpa [NotifyCall.asked] using hd
    exact ((hrise hd').2 c hmem).resolve_left fun hne => hne hc'
  · rcases hnew d hd with hd | rfl
    · exact h.calls.carried d hd
    · intro hapex hheld
      refine (hrise hapex).1.resolve_left fun hnone => ?_
      rw [isNone_iff_eq_none.mp hnone] at hheld
      cases hheld
  · rcases hnew d hd with hd | rfl
    · exact h.calls.built d hd
    · nofun
  · rcases hnew d hd with hd | rfl
    · exact (h.silent hnone).2 d hd
    · rfl
  · obtain ⟨s, hs, ⟨j, d, hd, hrest⟩, hall⟩ := h.newest p hp
    refine ⟨s, hs, ⟨j, d, ?_, hrest⟩, fun d hd => ?_⟩
    · rw [List.getElem?_append_left (List.getElem?_eq_some_iff.mp hd).1, hd]
    · rcases hnew d hd with hd | rfl
      · exact hall d hd
      · nofun

theorem after_announcing (hpacks : ∀ msg, cfg.packs msg = true) (n : Notifier R) (m : NotifyMove R)
    (htargets : m.keepsTargets = true) (hrises : n.rises serialOf age apex m = true)
    (horder : n.inOrder serialOf age apex m = true) (h : Announcing serialOf age apex n) :
    Announcing serialOf age apex (n.after cfg m) := by
  have hkeep (n' : Notifier R) (hcalls : n'.calls = n.calls) (htargets : n'.targets = n.targets)
      (hpending : n'.pending = n.pending) : Announcing serialOf age apex n' :=
    h.settle hcalls htargets fun a p hp => ⟨p, hpending ▸ hp, rfl⟩
  rw [Notifier.after]
  cases m with
  | setTargets targets => cases htargets
  | setKeys keys => exact hkeep _ rfl rfl rfl
  | call snap a => exact h.called hrises
  | turn i id => exact turn_announcing hpacks id h horder
  | round now zones addrs signs =>
    rw [Notifier.step]
    split_ifs
    · exact h.settle rfl rfl (collect_collected cfg now zones addrs signs n.pending).msg
    · exact h
  | send written =>
    rw [Notifier.step, Notifier.send]
    split
    · exact hkeep _ rfl rfl rfl
    · split
      · exact hkeep _ rfl rfl rfl
      · split
        · exact h
        · exact hkeep _ rfl rfl rfl
  | hear zones id source =>
    rw [Notifier.step]
    split
    · exact h
    · rcases acknowledge_cases n.pending zones id source with heq | ⟨apex, pending, heq, -, hmsg⟩
      · rw [heq]
        exact hkeep _ rfl rfl rfl
      · rw [heq]
        exact h.settle rfl rfl hmsg
  | report => exact hkeep _ rfl rfl rfl

theorem returned_after (hc : n.calls[j]? = some c) (hret : c.hasReturned = true)
    (m : NotifyMove R) : (n.after cfg m).calls[j]? = some c := by
  rw [Notifier.after]
  cases m with
  | setTargets | setKeys | report => exact hc
  | call snap a => exact (List.getElem?_append_left (List.getElem?_eq_some_iff.mp hc).1).trans hc
  | turn i id =>
    have hmove (d : NotifyCall R) (hd : n.calls[i]? = some d) (hat : d.at_ ≠ .returned)
        (at_ : CallAt R) : (n.move i d at_).calls[j]? = some c := by
      refine getElem_move hd ?_ hc hret at_
      rw [NotifyCall.hasReturned]
      split
      · rename_i hreturned
        exact absurd hreturned hat
      · rfl
    have hturned := n.turned cfg i id
    rw [Notifier.step]
    generalize n.turn cfg i id = n' at hturned ⊢
    cases hturned with
    | idle => exact hc
    | left hd hat | built hd hat | installed hd hat => exact hmove _ hd (by rw [hat]; nofun) _
  | round now zones addrs signs =>
    rw [Notifier.step]
    split_ifs <;> exact hc
  | send written =>
    rw [Notifier.step, Notifier.send]
    split
    · exact hc
    · split
      · exact hc
      · split <;> exact hc
  | hear zones id source =>
    rw [Notifier.step]
    split <;> exact hc

def Notifier.run (cfg : NotifySetup R) (n : Notifier R) (moves : List (NotifyMove R)) : Notifier R :=
  moves.foldl (Notifier.after cfg) n

/-- Where calls of `Notify` for a zone are made with serials that do not get older, and none is
overtaken between reading its serial and installing it: once all have returned, what is pending
announces the youngest serial any of them was made with; and what replaces a notification still
pending announces no older serial than it does. -/
theorem youngest_is_announced (cfg : NotifySetup R) (serialOf : R → Option Serial)
    (age : Serial → Nat) (apex : Name) (targets : List NotifyTarget) (keys : Keyring)
    (moves : List (NotifyMove R)) (hpacks : ∀ msg, cfg.packs msg = true)
    (htargets : ∀ m ∈ moves, m.keepsTargets = true)
    (hrises : Along (Notifier.after cfg) (fun n m => n.rises serialOf age apex m = true)
      (.started targets keys) moves)
    (horder : Along (Notifier.after cfg) (fun n m => n.inOrder serialOf age apex m = true)
      (.started targets keys) moves) :
    (∀ p, (Notifier.run cfg (.started targets keys) moves).pending.lookup apex = some p →
      (∀ c ∈ (Notifier.run cfg (.started targets keys) moves).calls,
        c.apex = apex → c.hasReturned = true) →
      ∃ s, serialOf p.msg.soa = some s ∧
        (∃ c ∈ (Notifier.run cfg (.started targets keys) moves).calls,
          c.apex = apex ∧ c.serial serialOf = some s) ∧
        ∀ c ∈ (Notifier.run cfg (.started targets keys) moves).calls,
          c.apex = apex → ∀ s', c.serial serialOf = some s' → age s' ≤ age s) ∧
    ∀ before m after, moves = before ++ m :: after → ∀ p p',
      (Notifier.run cfg (.started targets keys) before).pending.lookup apex = some p →
      (Notifier.run cfg (.started targets keys) (before ++ [m])).pending.lookup apex = some p' →
      ∃ s s', serialOf p.msg.soa = some s ∧ serialOf p'.msg.soa = some s' ∧ age s ≤ age s' := by
  have hall := ((Along.of_forall htargets).and hrises).and horder
  have hstart : Announcing serialOf age apex (Notifier.started targets keys : Notifier R) :=
    ⟨⟨.nil, nofun, nofun⟩, fun _ => ⟨rfl, nofun⟩, nofun⟩
  have hstep (n : Notifier R) (m : NotifyMove R)
      (hm : (m.keepsTargets = true ∧ n.rises serialOf age apex m = true) ∧
        n.inOrder serialOf age apex m = true) (h : Announcing serialOf age apex n) :
      Announcing serialOf age apex (n.after cfg m) :=
    after_announcing hpacks n m hm.1.1 hm.1.2 hm.2 h
  refine ⟨fun p hp hreturned => ?_, ?_⟩
  · have h := hall.invariant hstep hstart
    obtain ⟨s, hs, ⟨j, c, hc, hapex, -, hserial⟩, hyoungest⟩ := h.newest p hp
    refine ⟨s, hs, ⟨c, mem_of_getElem? hc, hapex, hserial⟩, fun c hc hapex s' hs' => ?_⟩
    have hle := hyoungest c hc hapex (hreturned c hc hapex)
    rw [hs'] at hle
    simpa [notYounger] using hle
  · rintro before m after rfl p p' hp hp'
    obtain ⟨hbefore, hmove, -⟩ := along_append.mp hall
    have h := hbefore.invariant hstep hstart
    have h' := hstep _ m hmove h
    rw [Notifier.run, foldl_append] at hp'
    obtain ⟨s, hs, ⟨j, c, hc, hapex, hret, hserial⟩, -⟩ := h.newest p hp
    obtain ⟨s', hs', -, hyoungest⟩ := h'.newest p' hp'
    have hle := hyoungest c (mem_of_getElem? (returned_after hc hret m)) hapex hret
    rw [hserial] at hle
    exact ⟨s, s', hs, hs', by simpa [notYounger] using hle⟩

namespace Sample

def twice : NotifySetup Serial := ⟨60, 2, fun _ => true⟩

def alone : Notifier Serial := .started [⟨secondary, none⟩] ∅

def inTurn : List (NotifyMove Serial) :=
  [.call (rootSnapshot 5) .root, .call (rootSnapshot 6) .root, .turn 0 1, .turn 1 2, .turn 0 0,
    .turn 1 0]

def overtaking : List (NotifyMove Serial) :=
  [.call (rootSnapshot 5) .root, .turn 0 1, .call (rootSnapshot 6) .root, .turn 1 2, .turn 1 0]

end Sample

open DNS.Sample

theorem youngest_is_announced_two :
    ∃ p, (Notifier.run twice alone inTurn).pending.lookup .root = some p ∧
      p.msg.soa = ⟨6⟩ ∧
      ∀ c ∈ (Notifier.run twice alone inTurn).calls, c.apex = .root →
        ∀ s, c.serial some = some s → s.v.toNat ≤ 6 := by
  obtain ⟨p, hp, hsix⟩ := (any_eq_true _ _).mp
    (show ((Notifier.run twice alone inTurn).pending.lookup .root).any
      (fun p => p.msg.soa = ⟨6⟩) = true by decide +kernel)
  have hsix := of_decide_eq_true hsix
  obtain ⟨s, hs, -, hyoungest⟩ := (youngest_is_announced twice some (fun s => s.v.toNat) .root
    [⟨secondary, none⟩] ∅ inTurn (fun _ => rfl) (by decide +kernel)
    (by decide +kernel) (by decide +kernel)).1 p hp (by decide +kernel)
  obtain rfl : s = ⟨6⟩ := (some.inj hs).symm.trans hsix
  exact ⟨p, hp, hsix, hyoungest⟩

/-- The older of two versions replaces the newer one, and stays. -/
theorem overtaken_call_announces_older :
    (∀ m ∈ overtaking ++ [.turn 0 0], m.keepsTargets = true) ∧
    Along (Notifier.after twice)
      (fun n m => n.rises some (fun s => s.v.toNat) .root m = true) alone
      (overtaking ++ [.turn 0 0]) ∧
    ((Notifier.run twice alone overtaking).pending.lookup .root).any
      (fun p => p.msg.soa = ⟨6⟩) = true ∧
    (∀ c ∈ (Notifier.run twice alone (overtaking ++ [.turn 0 0])).calls,
      c.hasReturned = true) ∧
    ((Notifier.run twice alone (overtaking ++ [.turn 0 0])).pending.lookup
      .root).any (fun p => p.msg.soa = ⟨5⟩) = true := by
  decide +kernel

end DNS

end Wegweiser
