/-
When the state machine never rejects.

A plan holds for the store it was made on.
-/
import Wegweiser.Cluster.Run

namespace Wegweiser.Cluster

open Checked List Option Store Bool Batch

variable {s t s' s₀ : Store} {e : Entry} {now index at_ base : Nat} {clock : Nat → Nat}
  {l l' : List Entry}

namespace Entry

theorem applyAt_index (hs : s.appliedIndex < index) (hok : e.applyAt now index s = .ok s') :
    s'.appliedIndex ≤ index := by
  cases e with
  | command b | configuration =>
    obtain ⟨-, mid, -, rfl⟩ := (applyAt_eq_ok hs).mp hok
    exact le_rfl
  | internal =>
    cases hok
    exact hs.le

theorem applyAt_alike (h : Alike s t) (now' : Nat) (hs : s.appliedIndex < index)
    (ht : t.appliedIndex < index) (hok : e.applyAt now index s = .ok s') :
    ∃ t', e.applyAt now' index t = .ok t' ∧ Alike s' t' := by
  cases e with
  | command b | configuration => exact applyAt_alike h now' hs ht hok
  | internal =>
    cases hok
    exact ⟨t, rfl, h⟩

theorem applyAt_quiet (hquiet : e.isCommand = false) (hs : s.appliedIndex < index)
    (hok : e.applyAt now index s = .ok s') : Alike s s' := by
  cases e with
  | command b => cases hquiet
  | configuration =>
    obtain ⟨-, mid, hmid, rfl⟩ := (applyAt_eq_ok hs).mp hok
    cases hmid
    exact ⟨rfl, rfl, rfl, rfl, rfl, rfl⟩
  | internal =>
    cases hok
    exact Alike.refl s

end Entry

theorem replay_cons :
    replay clock at_ (e :: l) s = .ok t ↔
      ∃ mid, e.applyAt (clock (at_ + 1)) (at_ + 1) s = .ok mid ∧
        replay clock (at_ + 1) l mid = .ok t := by
  rw [replay, bind_eq_ok]

theorem replay_append :
    replay clock at_ (l ++ l') s = .ok t ↔
      ∃ mid, replay clock at_ l s = .ok mid ∧
        replay clock (at_ + l.length) l' mid = .ok t := by
  induction l generalizing at_ s with
  | nil => simp [replay]
  | cons head tail ih =>
    have hlen : at_ + 1 + tail.length = at_ + (head :: tail).length := by
      simp only [length_cons]
      omega
    simp only [cons_append, replay_cons, ih, hlen]
    constructor
    · rintro ⟨mid, hmid, mid', hmid', hrest⟩
      exact ⟨mid', ⟨mid, hmid, hmid'⟩, hrest⟩
    · rintro ⟨mid', ⟨mid, hmid, hmid'⟩, hrest⟩
      exact ⟨mid, hmid, mid', hmid', hrest⟩

theorem replay_index (hs : s.appliedIndex ≤ at_) (hok : replay clock at_ l s = .ok t) :
    t.appliedIndex ≤ at_ + l.length := by
  induction l generalizing at_ s with
  | nil =>
    cases hok
    exact hs
  | cons head tail ih =>
    obtain ⟨mid, hmid, hrest⟩ := replay_cons.mp hok
    have hstep := ih (Entry.applyAt_index (Nat.lt_succ_of_le hs) hmid) hrest
    simp only [length_cons]
    omega

theorem replay_alike (h : Alike s t) (clock' : Nat → Nat) (hs : s.appliedIndex ≤ at_)
    (ht : t.appliedIndex ≤ at_) (hok : replay clock at_ l s = .ok s') :
    ∃ t', replay clock' at_ l t = .ok t' ∧ Alike s' t' := by
  induction l generalizing at_ s t with
  | nil =>
    cases hok
    exact ⟨t, rfl, h⟩
  | cons head tail ih =>
    obtain ⟨mid, hmid, hrest⟩ := replay_cons.mp hok
    obtain ⟨mid', hmid', halike⟩ := Entry.applyAt_alike h (clock' (at_ + 1))
      (Nat.lt_succ_of_le hs) (Nat.lt_succ_of_le ht) hmid
    obtain ⟨t', ht', halike'⟩ := ih halike
      (Entry.applyAt_index (Nat.lt_succ_of_le hs) hmid)
      (Entry.applyAt_index (Nat.lt_succ_of_le ht) hmid') hrest
    exact ⟨t', replay_cons.mpr ⟨mid', hmid', ht'⟩, halike'⟩

theorem replay_quiet (hquiet : ∀ e ∈ l, e.isCommand = false) (hs : s.appliedIndex ≤ at_)
    (hok : replay clock at_ l s = .ok t) : Alike s t := by
  induction l generalizing at_ s with
  | nil =>
    cases hok
    exact Alike.refl _
  | cons head tail ih =>
    obtain ⟨mid, hmid, hrest⟩ := replay_cons.mp hok
    have hhead := Entry.applyAt_quiet (hquiet head mem_cons_self) (Nat.lt_succ_of_le hs)
      hmid
    have htail := ih (fun e he => hquiet e (mem_cons_of_mem _ he))
      (Entry.applyAt_index (Nat.lt_succ_of_le hs) hmid) hrest
    exact hhead.trans htail

theorem replay_prefix (hle : l <+: l') (hok : accepted (replay clock at_ l' s)) :
    accepted (replay clock at_ l s) := by
  obtain ⟨rest, rfl⟩ := hle
  obtain ⟨t, ht⟩ := hok
  obtain ⟨mid, hmid, -⟩ := replay_append.mp ht
  exact ⟨mid, hmid⟩

abbrev still : Nat → Nat := fun _ => 0

/-- What holds of a member: its log can be applied, its store is what applying as
much as it has applied gives, and it has never stalled. -/
structure MemberInv (base : Nat) (s₀ : Store) (committed : List Entry) (p : Member) : Prop where
  log : accepted (replay still base p.log s₀)
  applied_le : p.applied ≤ committed.length
  log_agrees : committed.take p.applied <+: p.log
  store : ∃ s, replay still base (committed.take p.applied) s₀ = .ok s ∧ Alike s p.store
  index : p.store.appliedIndex ≤ base + p.applied
  running : p.stalled = false

/-- What a write in hand may rely on, on a member that leads in the term its barrier
returned in. -/
def StageInv (p : Member) : Stage → Prop
  | .settled _ op => State.caughtUp p = true ∧ op.onZones = true
  | .planned _ _ b => State.caughtUp p = true ∧ ∃ now, accepted (b.write now p.store)
  | .proposed _ _ position => ∀ e ∈ p.log.drop position, e.isCommand = false

/-- The invariant of a run. -/
structure Inv {M : Type} (base : Nat) (s₀ : Store) (c : State M) : Prop where
  member : ∀ m, MemberInv base s₀ c.committed (c.members m)
  committed : accepted (replay still base c.committed s₀)
  leader : ∀ m, c.leader = some m → c.committed <+: (c.members m).log
  term_le : ∀ m st, (c.members m).write = some st → st.term ≤ c.term
  stage : ∀ m st, c.leader = some m → (c.members m).write = some st → st.term = c.term →
    StageInv (c.members m) st

variable {M : Type} {c c' : State M} {m : M} {p : Member}

theorem mem_caughtUp : State.caughtUp p = true ↔ ∀ e ∈ p.log.drop p.applied, e.isCommand = false := by
  simp [State.caughtUp]

namespace MemberInv

theorem commit {old new : List Entry} (h : MemberInv base s₀ old p) (hle : old <+: new) :
    MemberInv base s₀ new p := by
  have htake : new.take p.applied = old.take p.applied := by
    obtain ⟨rest, rfl⟩ := hle
    exact take_append_of_le_length h.applied_le
  exact ⟨h.log, h.applied_le.trans hle.length_le, htake ▸ h.log_agrees, htake ▸ h.store, h.index,
    h.running⟩

variable {committed : List Entry}

theorem store_alike (h : MemberInv base s₀ committed p)
    (h₀ : s₀.appliedIndex ≤ base) (hcaught : State.caughtUp p = true) :
    ∃ s, replay still base p.log s₀ = .ok s ∧ Alike p.store s := by
  obtain ⟨full, hfull⟩ := h.log
  obtain ⟨s, hs, halike⟩ := h.store
  have hlen : (committed.take p.applied).length = p.applied := by
    rw [length_take, Nat.min_eq_left h.applied_le]
  have hsplit : committed.take p.applied ++ p.log.drop p.applied = p.log := by
    have htake := prefix_iff_eq_take.mp h.log_agrees
    rw [hlen] at htake
    rw [htake, take_append_drop]
  rw [← hsplit] at hfull
  obtain ⟨mid, hmid, hrest⟩ := replay_append.mp hfull
  cases hs.symm.trans hmid
  rw [hsplit] at hfull
  have hquiet := replay_quiet (mem_caughtUp.mp hcaught)
    (by rw [hlen]; exact hlen ▸ replay_index h₀ hs) hrest
  exact ⟨full, hfull, halike.symm.trans hquiet⟩

theorem propose (h : MemberInv base s₀ committed p)
    (h₀ : s₀.appliedIndex ≤ base) (hcaught : State.caughtUp p = true) {b : Batch}
    (hwrite : accepted (b.write now p.store)) (hfits : base + p.log.length + 1 ≤ 2 ^ 63 - 1) :
    accepted (replay still base (p.log ++ [.command b]) s₀) := by
  obtain ⟨s, hs, halike⟩ := h.store_alike h₀ hcaught
  obtain ⟨w, hw⟩ := hwrite
  obtain ⟨w', hw', -⟩ := write_alike halike 0 hw
  have hindex : s.appliedIndex < base + p.log.length + 1 :=
    Nat.lt_succ_of_le (replay_index h₀ hs)
  obtain ⟨t, ht⟩ := (applyAt_accepted hindex).mpr ⟨writeOnce_accepted hw', hfits⟩
  exact ⟨t, replay_append.mpr ⟨s, hs, replay_cons.mpr ⟨t, ht, rfl⟩⟩⟩

theorem append (h : MemberInv base s₀ committed p)
    (h₀ : s₀.appliedIndex ≤ base) (hquiet : e.isCommand = false)
    (hfits : base + p.log.length + 1 ≤ 2 ^ 63 - 1) :
    accepted (replay still base (p.log ++ [e]) s₀) := by
  obtain ⟨s, hs⟩ := h.log
  have hindex : s.appliedIndex < base + p.log.length + 1 :=
    Nat.lt_succ_of_le (replay_index h₀ hs)
  have hstep : accepted (e.applyAt 0 (base + p.log.length + 1) s) := by
    cases e with
    | command b => cases hquiet
    | configuration => exact (applyAt_accepted hindex).mpr ⟨⟨s, rfl⟩, hfits⟩
    | internal => exact ⟨s, rfl⟩
  obtain ⟨t, ht⟩ := hstep
  exact ⟨t, replay_append.mpr ⟨s, hs, replay_cons.mpr ⟨t, ht, rfl⟩⟩⟩

theorem applyNext (h : MemberInv base s₀ committed p)
    (h₀ : s₀.appliedIndex ≤ base) (hcommitted : accepted (replay still base committed s₀))
    (he : committed[p.applied]? = some e)
    (hlog : committed.take (p.applied + 1) <+: p.log) (now : Nat) :
    ∃ store, e.applyAt now (base + p.applied + 1) p.store = .ok store ∧
      MemberInv base s₀ committed { p with store, applied := p.applied + 1 } := by
  obtain ⟨s, hs, halike⟩ := h.store
  have hlt : p.applied < committed.length := (List.getElem?_eq_some_iff.mp he).1
  have hlen : (committed.take p.applied).length = p.applied := by
    rw [length_take, Nat.min_eq_left hlt.le]
  have htake : committed.take (p.applied + 1) = committed.take p.applied ++ [e] := by
    rw [take_add_one, he]
    rfl
  obtain ⟨next, hnext⟩ := replay_prefix (List.take_prefix (p.applied + 1) committed) hcommitted
  rw [htake] at hnext
  obtain ⟨mid, hmid, hlast⟩ := replay_append.mp hnext
  cases hs.symm.trans hmid
  rw [hlen] at hlast
  obtain ⟨last, hlast, hnil⟩ := replay_cons.mp hlast
  cases hnil
  have hindex : s.appliedIndex < base + p.applied + 1 :=
    Nat.lt_succ_of_le (hlen ▸ replay_index h₀ hs)
  have hindex' : p.store.appliedIndex < base + p.applied + 1 := Nat.lt_succ_of_le h.index
  obtain ⟨store, hstore, halike'⟩ := Entry.applyAt_alike halike now hindex hindex' hlast
  refine ⟨store, hstore, h.log, hlt, hlog, ⟨_, ?_, halike'⟩, ?_, h.running⟩
  · change replay still base (committed.take (p.applied + 1)) s₀ = _
    rw [htake]
    exact hnext
  · exact Entry.applyAt_index hindex' hstore

end MemberInv

namespace Inv

theorem elect (h : Inv base s₀ c) (hpre : c.committed <+: (c.members m).log) :
    Inv base s₀ { c with leader := some m, term := c.term + 1 } where
  member := h.member
  committed := h.committed
  leader k hlead := by
    cases hlead
    exact hpre
  term_le k st hst := (h.term_le k st hst).trans (Nat.le_succ _)
  stage k st _ hst hcur := by
    -- no write was settled in the term that begins now
    have hle := h.term_le k st hst
    change st.term = c.term + 1 at hcur
    omega

theorem stepDown (h : Inv base s₀ c) : Inv base s₀ { c with leader := none } where
  member := h.member
  committed := h.committed
  leader _ hlead := by cases hlead
  term_le := h.term_le
  stage _ _ hlead := by cases hlead

theorem commit (h : Inv base s₀ c) {lead : M} (hlead : c.leader = some lead) {length : Nat}
    (hlen : c.committed.length ≤ length) :
    Inv base s₀ { c with committed := (c.members lead).log.take length } := by
  have hle : c.committed <+: (c.members lead).log.take length :=
    prefix_take_iff.mpr ⟨h.leader lead hlead, hlen⟩
  refine ⟨fun k => (h.member k).commit hle,
    replay_prefix (List.take_prefix _ _) (h.member lead).log, ?_, h.term_le, h.stage⟩
  intro k hk
  cases hk.symm.trans hlead
  exact take_prefix _ _

end Inv

variable [DecidableEq M]

/-- The condition on a step: a proposal is made in the term its barrier returned
in, and what is put into the log has a position the store can record. -/
def State.steady (base : Nat) (c : State M) : Action M → Bool
  | .propose m =>
    ((c.members m).write.all fun st => st.term == c.term) &&
      decide (base + (c.members m).log.length + 1 ≤ 2 ^ 63 - 1)
  | .append _ =>
    c.leader.all fun l => decide (base + (c.members l).log.length + 1 ≤ 2 ^ 63 - 1)
  | _ => true

def State.steadyRun (base : Nat) : State M → List (Action M) → Bool
  | _, [] => true
  | c, a :: rest =>
    c.steady base a && (c.step base a).all fun c' => c'.steadyRun base rest

namespace Inv

theorem onMember (h : Inv base s₀ c) (m : M) {f : Member → Member}
    (hmember : MemberInv base s₀ c.committed (f (c.members m)))
    (hleader : c.leader = some m → c.committed <+: (f (c.members m)).log)
    (hterm : ∀ st, (f (c.members m)).write = some st → st.term ≤ c.term)
    (hstage : ∀ st, c.leader = some m → (f (c.members m)).write = some st → st.term = c.term →
      StageInv (f (c.members m)) st) :
    Inv base s₀ (c.onMember m f) where
  member k := by
    by_cases hk : k = m
    · subst hk
      simpa [State.onMember] using hmember
    · simpa [State.onMember, hk] using h.member k
  committed := h.committed
  leader k hlead := by
    by_cases hk : k = m
    · subst hk
      simpa [State.onMember] using hleader hlead
    · simpa [State.onMember, hk] using h.leader k hlead
  term_le k st hst := by
    by_cases hk : k = m
    · subst hk
      exact hterm st (by simpa [State.onMember] using hst)
    · exact h.term_le k st (by simpa [State.onMember, hk] using hst)
  stage k st hlead hst hcur := by
    by_cases hk : k = m
    · subst hk
      simpa [State.onMember] using hstage st hlead (by simpa [State.onMember] using hst) hcur
    · simpa [State.onMember, hk] using
        h.stage k st hlead (by simpa [State.onMember, hk] using hst) hcur

theorem write (h : Inv base s₀ c) (m : M) {w : Option Stage}
    (hterm : ∀ st, w = some st → st.term ≤ c.term)
    (hstage : ∀ st, c.leader = some m → w = some st → st.term = c.term →
      StageInv { c.members m with write := w } st) :
    Inv base s₀ (c.onMember m fun p => { p with write := w }) :=
  h.onMember m ⟨(h.member m).log, (h.member m).applied_le, (h.member m).log_agrees,
    (h.member m).store, (h.member m).index, (h.member m).running⟩ (h.leader m) hterm hstage

variable {lead : M} {q : Member} {next : Option Operation}

theorem replicate (h : Inv base s₀ c) (hlead : c.leader = some lead) (hne : m ≠ lead)
    {length : Nat} (hlen : (c.members m).applied ≤ length) :
    Inv base s₀ (c.onMember m fun p => { p with log := (c.members lead).log.take length }) := by
  have hm := h.member m
  have hagrees : c.committed.take (c.members m).applied <+: (c.members lead).log.take length := by
    have hpre := (List.take_prefix (c.members m).applied c.committed).trans
      (h.leader lead hlead)
    refine prefix_take_iff.mpr ⟨hpre, ?_⟩
    exact (length_take_le _ _).trans hlen
  refine h.onMember m ⟨?_, hm.applied_le, hagrees, hm.store, hm.index, hm.running⟩ ?_
    (h.term_le m) ?_
  · exact replay_prefix (List.take_prefix _ _) (h.member lead).log
  · intro hself
    exact absurd (some.inj (hself.symm.trans hlead)) hne
  · intro st hself
    exact absurd (some.inj (hself.symm.trans hlead)) hne

theorem append (h : Inv base s₀ c) (h₀ : s₀.appliedIndex ≤ base)
    (hlead : c.leader = some lead) (hquiet : e.isCommand = false)
    (hfits : base + (c.members lead).log.length + 1 ≤ 2 ^ 63 - 1) :
    Inv base s₀ (c.onMember lead fun p => { p with log := p.log ++ [e] }) := by
  have hm := h.member lead
  have hdrop (n : Nat) (hn : ∀ o ∈ (c.members lead).log.drop n, o.isCommand = false) :
      ∀ o ∈ ((c.members lead).log ++ [e]).drop n, o.isCommand = false := by
    intro o ho
    rw [drop_append, mem_append] at ho
    rcases ho with ho | ho
    · exact hn o ho
    · rw [mem_singleton.mp (mem_of_mem_drop ho)]
      exact hquiet
  have hlonger {l : List Entry} (hl : l <+: (c.members lead).log) :
      l <+: (c.members lead).log ++ [e] :=
    hl.trans (prefix_append _ _)
  refine h.onMember lead ⟨hm.append h₀ hquiet hfits, hm.applied_le, hlonger hm.log_agrees, hm.store,
    hm.index, hm.running⟩ (fun _ => hlonger (h.leader lead hlead)) (h.term_le lead) ?_
  intro st _ hst hcur
  have hstage := h.stage lead st hlead hst hcur
  cases st with
  | settled term op => exact ⟨mem_caughtUp.mpr (hdrop _ (mem_caughtUp.mp hstage.1)), hstage.2⟩
  | planned term op b => exact ⟨mem_caughtUp.mpr (hdrop _ (mem_caughtUp.mp hstage.1)), hstage.2⟩
  | proposed term op position => exact hdrop _ hstage

theorem apply (h : Inv base s₀ c) (h₀ : s₀.appliedIndex ≤ base) (now : Nat)
    (he : c.committed[(c.members m).applied]? = some e)
    (hlog : c.committed.take ((c.members m).applied + 1) <+: (c.members m).log) :
    Inv base s₀ (c.onMember m fun p => State.applyNext base now p e) := by
  obtain ⟨store, hstore, hm⟩ := (h.member m).applyNext h₀ h.committed he hlog now
  have hnext : State.applyNext base now (c.members m) e =
      { c.members m with store, applied := (c.members m).applied + 1 } := by
    simp only [State.applyNext, hstore]
  -- what is caught up already has only quiet entries left to go through
  have hcaught (hc : State.caughtUp (c.members m) = true) :
      State.caughtUp { c.members m with store, applied := (c.members m).applied + 1 } = true ∧
        Alike (c.members m).store store := by
    rw [mem_caughtUp] at hc ⊢
    have hlt : (c.members m).applied < c.committed.length :=
      (List.getElem?_eq_some_iff.mp he).1
    have hhead : (c.members m).log.drop (c.members m).applied =
        e :: (c.members m).log.drop ((c.members m).applied + 1) := by
      obtain ⟨rest, hrest⟩ := hlog
      have htake : c.committed.take ((c.members m).applied + 1) =
          c.committed.take (c.members m).applied ++ [e] := by
        rw [take_add_one, he]
        rfl
      have hlen : (c.committed.take (c.members m).applied).length = (c.members m).applied := by
        rw [length_take, Nat.min_eq_left hlt.le]
      rw [htake, append_assoc] at hrest
      rw [← hrest]
      simp [drop_append, hlen]
    rw [hhead] at hc
    refine ⟨fun o ho => hc o (mem_cons_of_mem _ ho), ?_⟩
    exact Entry.applyAt_quiet (hc e mem_cons_self)
      (Nat.lt_succ_of_le (h.member m).index) hstore
  refine h.onMember m (hnext ▸ hm) ?_ ?_ ?_
  · rw [hnext]
    exact h.leader m
  · rw [hnext]
    exact h.term_le m
  · rw [hnext]
    intro st hlead hst hcur
    have hstage := h.stage m st hlead hst hcur
    cases st with
    | settled term op => exact ⟨(hcaught hstage.1).1, hstage.2⟩
    | planned term op b =>
      obtain ⟨hc, now', w, hw⟩ := hstage
      obtain ⟨w', hw', -⟩ := write_alike (hcaught hc).2 now' hw
      exact ⟨(hcaught hc).1, now', w', hw'⟩
    | proposed term op position => exact hstage

theorem plan (h : Inv base s₀ c) {env : Env} (hplan : State.planWrite env (c.members m) = some q) :
    Inv base s₀ (c.onMember m fun _ => q) := by
  rw [State.planWrite] at hplan
  split at hplan
  · next term op hwrite =>
    split at hplan
    · next b res hb =>
      cases hplan
      refine h.write m ?_ ?_
      · rintro st ⟨⟩
        exact h.term_le m (.settled term op) hwrite
      · rintro st hlead ⟨⟩ hcur
        obtain ⟨hcaught, hop⟩ := h.stage m _ hlead hwrite hcur
        exact ⟨hcaught, env.now, Env.planOp_writes hb hop⟩
    · cases hplan
      exact h.write m (fun _ hst => by cases hst) (fun _ _ hst => by cases hst)
  · cases hplan

theorem propose (h : Inv base s₀ c) (h₀ : s₀.appliedIndex ≤ base)
    (hsteady : c.steady base (.propose m) = true)
    (hpropose : State.proposeWrite (c.leader == some m) (c.members m) = some q) :
    Inv base s₀ (c.onMember m fun _ => q) := by
  rw [State.proposeWrite] at hpropose
  split at hpropose
  · next term op b hwrite =>
    split at hpropose
    · cases hpropose
    · split at hpropose
      · next hleads =>
        cases hpropose
        simp only [and_eq_true, beq_iff_eq] at hleads
        simp only [State.steady, hwrite, all_some, and_eq_true, beq_iff_eq,
          decide_eq_true_eq] at hsteady
        obtain ⟨hcur, hfits⟩ := hsteady
        obtain ⟨hcaught, now, haccepted⟩ := h.stage m _ hleads.1 hwrite hcur
        have hm := h.member m
        refine h.onMember m ⟨hm.propose h₀ hcaught haccepted hfits, hm.applied_le,
          hm.log_agrees.trans (prefix_append _ _), hm.store, hm.index, hm.running⟩
          (fun hlead => (h.leader m hlead).trans (prefix_append _ _)) ?_ ?_
        · rintro st ⟨⟩
          exact h.term_le m (.planned term op b) hwrite
        · rintro st - ⟨⟩ -
          change ∀ o ∈ ((c.members m).log ++ [Entry.command b]).drop
            ((c.members m).log.length + 1), o.isCommand = false
          rw [drop_of_length_le (by simp)]
          exact fun o ho => absurd ho not_mem_nil
      · cases hpropose
        exact h.write m (fun _ hst => by cases hst) (fun _ _ hst => by cases hst)
  · cases hpropose

theorem nextStage_eq_some {term : Nat} {op : Operation}
    {stage : Option Stage} (hnext : nextStage term op next = some stage) :
    stage = none ∨ ∃ op', stage = some (.settled term op') ∧ op'.onZones = true := by
  cases next with
  | none =>
    cases hnext
    exact .inl rfl
  | some op' =>
    simp only [nextStage] at hnext
    split at hnext
    · next hfills =>
      cases hnext
      refine .inr ⟨op', rfl, ?_⟩
      cases op <;> cases op' <;> first | rfl | cases hfills
    · cases hnext

theorem finish (h : Inv base s₀ c) (hfinish : State.finishWrite next (c.members m) = some q) :
    Inv base s₀ (c.onMember m fun _ => q) := by
  have hcont {term : Nat} {op : Operation} {stage : Option Stage} {st₀ : Stage}
      (hwrite : (c.members m).write = some st₀) (hterm : st₀.term = term)
      (hcaught : c.leader = some m → st₀.term = c.term →
        State.caughtUp (c.members m) = true)
      (hstage : nextStage term op next = some stage) :
      Inv base s₀ (c.onMember m fun p => { p with write := stage }) := by
    rcases nextStage_eq_some hstage with rfl | ⟨op', rfl, hop'⟩
    · exact h.write m (fun _ hst => by cases hst) (fun _ _ hst => by cases hst)
    · refine h.write m ?_ ?_
      · rintro st ⟨⟩
        exact hterm ▸ h.term_le m st₀ hwrite
      · rintro st hlead ⟨⟩ hcur
        exact ⟨hcaught hlead (hterm.trans hcur), hop'⟩
  rw [State.finishWrite] at hfinish
  split at hfinish
  · next term op b hwrite =>
    split at hfinish
    · obtain ⟨stage, hstage, rfl⟩ := map_eq_some_iff.mp hfinish
      exact hcont hwrite rfl (fun hlead hcur => (h.stage m _ hlead hwrite hcur).1) hstage
    · cases hfinish
  · next term op position hwrite =>
    split at hfinish
    · next hdone =>
      obtain ⟨stage, hstage, rfl⟩ := map_eq_some_iff.mp hfinish
      simp only [and_eq_true, decide_eq_true_eq] at hdone
      refine hcont hwrite rfl (fun hlead hcur => ?_) hstage
      have hquiet : ∀ o ∈ (c.members m).log.drop position, o.isCommand = false :=
        h.stage m _ hlead hwrite hcur
      refine mem_caughtUp.mpr fun o ho => hquiet o ?_
      exact (drop_sublist_drop_left _ hdone.1).mem ho
    · cases hfinish
  · cases hfinish

theorem step (h : Inv base s₀ c) (h₀ : s₀.appliedIndex ≤ base) {a : Action M}
    (hsteady : c.steady base a = true) (hstep : c.step base a = some c') : Inv base s₀ c' := by
  cases a with
  | elect m =>
    simp only [State.step, ite_none_right_eq_some, and_eq_true,
      isPrefixOf_iff_prefix, some.injEq] at hstep
    obtain ⟨⟨hpre, -⟩, rfl⟩ := hstep
    exact h.elect hpre
  | stepDown =>
    cases hstep
    exact h.stepDown
  | replicate m length =>
    simp only [State.step] at hstep
    split at hstep
    · next lead hlead =>
      simp only [ite_none_right_eq_some, some.injEq] at hstep
      obtain ⟨⟨hne, hlen⟩, rfl⟩ := hstep
      exact h.replicate hlead hne hlen
    · cases hstep
  | append e =>
    simp only [State.step] at hstep
    split at hstep
    · next lead hlead =>
      simp only [ite_none_left_eq_some, not_eq_true, some.injEq] at hstep
      obtain ⟨hquiet, rfl⟩ := hstep
      simp only [State.steady, hlead, all_some, decide_eq_true_eq] at hsteady
      exact h.append h₀ hlead hquiet hsteady
    · cases hstep
  | commit length =>
    simp only [State.step] at hstep
    split at hstep
    · next lead hlead =>
      simp only [ite_none_right_eq_some, some.injEq] at hstep
      obtain ⟨hlen, rfl⟩ := hstep
      exact h.commit hlead hlen
    · cases hstep
  | apply m now =>
    simp only [State.step] at hstep
    split at hstep
    · next e he =>
      simp only [ite_none_right_eq_some, and_eq_true,
        isPrefixOf_iff_prefix, some.injEq] at hstep
      obtain ⟨⟨hlog, -⟩, rfl⟩ := hstep
      exact h.apply h₀ now he hlog
    · cases hstep
  | settle m op =>
    simp only [State.step, ite_none_right_eq_some, some.injEq] at hstep
    obtain ⟨⟨hlead, -, -, hop, hcaught⟩, rfl⟩ := hstep
    refine h.write m ?_ ?_
    · rintro st ⟨⟩
      exact le_rfl
    · rintro st - ⟨⟩ -
      exact ⟨hcaught, hop⟩
  | plan m env =>
    obtain ⟨q, hq, rfl⟩ := map_eq_some_iff.mp hstep
    exact h.plan hq
  | propose m =>
    obtain ⟨q, hq, rfl⟩ := map_eq_some_iff.mp hstep
    exact h.propose h₀ hsteady hq
  | finish m next =>
    obtain ⟨q, hq, rfl⟩ := map_eq_some_iff.mp hstep
    exact h.finish hq
  | giveUp m =>
    cases hstep
    exact h.write m (fun _ hst => by cases hst) (fun _ _ hst => by cases hst)

theorem run (h : Inv base s₀ c) (h₀ : s₀.appliedIndex ≤ base) {actions : List (Action M)}
    (hsteady : c.steadyRun base actions = true) (hrun : c.run base actions = some c') :
    Inv base s₀ c' := by
  induction actions generalizing c with
  | nil =>
    cases hrun
    exact h
  | cons a rest ih =>
    obtain ⟨mid, hmid, hrest⟩ := bind_eq_some_iff.mp hrun
    simp only [State.steadyRun, hmid, all_some, and_eq_true] at hsteady
    exact ih (h.step h₀ hsteady.1 hmid) hsteady.2 hrest

omit [DecidableEq M] in
theorem initial (h₀ : s₀.appliedIndex ≤ base) : Inv base s₀ (State.initial s₀ : State M) where
  member _ := ⟨⟨s₀, rfl⟩, le_rfl, nil_prefix, ⟨s₀, rfl, Alike.refl s₀⟩, h₀, rfl⟩
  committed := ⟨s₀, rfl⟩
  leader _ hlead := by cases hlead
  term_le _ _ hst := by cases hst
  stage _ _ hlead := by cases hlead

end Inv

/-- In every run whose proposals are made in the term of their barrier, every
committed entry is applied without an error, by whatever clock, and no member ever
stalls. -/
theorem committed_entries_apply {actions : List (Action M)} (h₀ : s₀.appliedIndex ≤ base)
    (hsteady : (State.initial s₀ : State M).steadyRun base actions = true)
    (hrun : (State.initial s₀).run base actions = some c) :
    (∀ clock, ∃ s, replay clock base c.committed s₀ = .ok s) ∧
      ∀ m, (c.members m).stalled = false := by
  have hinv : Inv base s₀ c := Inv.run (Inv.initial h₀) h₀ hsteady hrun
  refine ⟨fun clock => ?_, fun m => (hinv.member m).running⟩
  obtain ⟨s, hs⟩ := hinv.committed
  obtain ⟨t, ht, -⟩ := replay_alike (Alike.refl s₀) clock h₀ h₀ hs
  exact ⟨t, ht⟩

namespace Sample

open Wegweiser.Sample

def otherEnv : Env :=
  { env with
    mint := fun n => .ulid ((200 + n) % 2 ^ 128)
    mint_valid := fun n => by
      simp only [Ident.valid, decide_eq_true_eq]
      exact Nat.mod_lt _ (by decide) }

def calm : List (Action Bool) :=
  [.elect true, .settle true (edit 1 [.add address]), .plan true env, .propose true, .commit 1,
    .apply true 5, .finish true none]

def regained : List (Action Bool) :=
  [.elect true, .settle true (edit 1 [.add address]), .plan true env, .stepDown, .elect false,
    .settle false (edit 1 [.add (record 3 1 ["b", "ex"] typeA "192.0.2.11")]),
    .plan false otherEnv, .propose false, .commit 1, .replicate true 1, .apply true 5, .elect true,
    .propose true, .commit 2, .apply true 6]

end Sample

open Cluster.Sample

theorem committed_entries_apply_calm :
    ∃ c, (State.initial Wegweiser.Sample.forwardStore).run 0 calm = some c ∧
      (∀ clock, ∃ s, replay clock 0 c.committed Wegweiser.Sample.forwardStore = .ok s) ∧
      ∀ m, (c.members m).stalled = false := by
  obtain ⟨c, hc⟩ : ∃ c, (State.initial Wegweiser.Sample.forwardStore).run 0 calm = some c :=
    isSome_iff_exists.mp (by decide +kernel)
  exact ⟨c, hc, committed_entries_apply (by decide) (by decide +kernel) hc⟩

/-- Two entries are committed, the second of them cannot be applied, and the member
that tries stalls. -/
theorem committed_entry_refused_after_regaining_lead :
    ∃ c, (State.initial Wegweiser.Sample.forwardStore).run 0 regained = some c ∧
      replay (fun _ => 1) 0 c.committed Wegweiser.Sample.forwardStore =
        .error (.conflict "the zone already has a commit producing that serial") ∧
      (c.members true).stalled = true := by
  have hrun : ((State.initial Wegweiser.Sample.forwardStore).run 0 regained).any (fun c =>
      decide (replay (fun _ => 1) 0 c.committed Wegweiser.Sample.forwardStore =
        .error (.conflict "the zone already has a commit producing that serial")) &&
      (c.members true).stalled) = true := by
    decide +kernel
  obtain ⟨c, hc, hbad⟩ := (any_eq_true _ _).mp hrun
  simp only [and_eq_true, decide_eq_true_eq] at hbad
  exact ⟨c, hc, hbad⟩

end Wegweiser.Cluster
