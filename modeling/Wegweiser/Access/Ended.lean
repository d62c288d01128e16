/-
Sessions opened and ended side by side.

Ending a session, or every session of a person, is a call of a few steps: it takes the lock on the
list of ended sessions, reads the clock, reads the list, and writes it whole with its own entry in
it.
-/
import Mathlib.Logic.Function.Basic
import Wegweiser.Access.Session

namespace Wegweiser.Access

open List Option Function

/-- How a session is opened: with a token, or by a person signing in through a provider. -/
inductive Opening where
  | token (hash : Octets)
  | person (provider subject name : String) (scope : Scope)
deriving DecidableEq

/-- The session `CreateSession`, `finishOIDC` and `CreateDirectorySession` seal. -/
def Opening.session (id : String) (now : Nat) : Opening → Session
  | .token hash => ⟨id, hash, "", "", "", .other "", now + sessionLifetime⟩
  | .person provider subject name scope =>
    ⟨id, [], provider, subject, name, scope, now + sessionLifetime⟩

/-- A session and when it was opened. -/
structure Opened where
  session : Session
  at_ : Nat
deriving DecidableEq

/-- What is to end: the session a cookie carried, or the sessions of a person. -/
inductive Ending where
  | session (sess : Session)
  | person (provider name : String)
deriving DecidableEq

namespace Ending

variable (hash : String → String) (fold : Char → Char)

/-- What `EndSession` and `EndPersonSessions` check before anything else. -/
def named : Ending → Bool
  | session sess => hash sess.id != ""
  | person _ name => trimSpace name != ""

/-- A session can be named by the cookie it is sealed in, and a person at any time. -/
def presentable (opened : List Opened) : Ending → Bool
  | session sess => opened.any fun o => o.session == sess
  | person _ _ => true

def known (held : Held) : Ending → Bool
  | session _ => true
  | person provider _ => held.providers.any fun p => p.id == provider

def entry (now : Nat) : Ending → EndedSession
  | session sess => ⟨hash sess.id, "", "", sess.expires⟩
  | person provider name => ⟨"", provider, trimSpace name, now + sessionLifetime⟩

/-- The sessions an ending at a moment is for: the one it names, or those the person had
opened by then. -/
def Covers (now : Nat) (o : Opened) : Ending → Prop
  | session sess => o.session.id = sess.id
  | person provider name =>
    o.session.provider ≠ "" ∧ o.session.provider = provider ∧
      equalFold fold (trimSpace name) o.session.name = true ∧ o.at_ ≤ now

instance (now : Nat) (o : Opened) : DecidablePred (Covers fold now o)
  | session sess => inferInstanceAs (Decidable (o.session.id = sess.id))
  | person provider name => inferInstanceAs (Decidable
      (o.session.provider ≠ "" ∧ o.session.provider = provider ∧
        equalFold fold (trimSpace name) o.session.name = true ∧ o.at_ ≤ now))

end Ending

/-- The list `endSessions` writes; it writes none where the entry has run out. -/
def amended (fold : Char → Char) (now : Nat) (next : EndedSession) (ended : List EndedSession) :
    List EndedSession :=
  if next.until_ ≤ now then ended
  else (ended.filter fun e => !(e.replaces fold next || decide (e.until_ ≤ now))) ++ [next]

/-- How far a call has got. -/
inductive Phase where
  | idle
  | asked (e : Ending)
  | holding (e : Ending) (now : Nat)
  | viewed (e : Ending) (now : Nat) (ended : List EndedSession)
  | finished (e : Ending) (now : Nat)
  | failed
deriving DecidableEq

namespace Phase

def ending? : Phase → Option Ending
  | asked e | holding e _ | viewed e _ _ | finished e _ => some e
  | idle | failed => none

def dated? : Phase → Option (Ending × Nat)
  | holding e now | viewed e now _ | finished e now => some (e, now)
  | idle | asked _ | failed => none

def locks : Phase → Bool
  | holding _ _ | viewed _ _ _ => true
  | idle | asked _ | finished _ _ | failed => false

end Phase

/-- The server: what its store holds, the sessions it has sealed, and the calls under way. -/
structure Server where
  held : Held
  opened : List Opened
  phase : Nat → Phase
  holder : Option Nat
  clock : Nat

/-- What can happen.  The rest of the store changes as it likes. -/
inductive Move where
  | open_ (id : String) (o : Opening)
  | ask (k : Nat) (e : Ending)
  | go (k : Nat)
  | giveUp (k : Nat)
  | tend (keys : SessionKeys) (providers : List IdentityProvider) (tokens : List Token)
deriving DecidableEq

/-- A move, after some time. -/
structure Tick where
  wait : Nat
  move : Move
deriving DecidableEq

namespace Server

variable (hash : String → String) (fold : Char → Char)

def fresh (keys : SessionKeys) (providers : List IdentityProvider) (tokens : List Token)
    (clock : Nat) : Server :=
  ⟨⟨keys, [], providers, tokens⟩, [], fun _ => .idle, none, clock⟩

def enter (s : Server) (k : Nat) (p : Phase) : Server :=
  { s with phase := update s.phase k p }

def leave (s : Server) (k : Nat) (p : Phase) : Server :=
  { s.enter k p with holder := if s.holder = some k then none else s.holder }

def go (s : Server) (k : Nat) : Server :=
  match s.phase k with
  | .asked e =>
    if e.named hash then
      if s.holder.isNone then { s.enter k (.holding e s.clock) with holder := some k } else s
    else s.enter k .failed
  | .holding e now =>
    if e.known s.held then s.enter k (.viewed e now s.held.ended) else s.leave k .failed
  | .viewed e now ended =>
    { s.leave k (.finished e now) with
      held := { s.held with ended := amended fold now (e.entry hash now) ended } }
  | .idle | .finished _ _ | .failed => s

/-- A move.  The secrets minted for sessions are new and so are their hashes, and what a
call is asked to end is a session that was sealed. -/
def act (s : Server) : Move → Server
  | .open_ id o =>
    if s.opened.any fun p => hash p.session.id == hash id then s
    else { s with opened := ⟨o.session id s.clock, s.clock⟩ :: s.opened }
  | .ask k e =>
    match s.phase k with
    | .idle => if e.presentable s.opened then s.enter k (.asked e) else s
    | _ => s
  | .go k => s.go hash fold k
  | .giveUp k =>
    match s.phase k with
    | .finished _ _ => s
    | _ => s.leave k .failed
  | .tend keys providers tokens => { s with held := ⟨keys, s.held.ended, providers, tokens⟩ }

def step (s : Server) (t : Tick) : Server :=
  { s with clock := s.clock + t.wait }.act hash fold t.move

def run (s : Server) (ticks : List Tick) : Server := ticks.foldl (step hash fold) s

def shown (s : Server) (c : Sealed) : Except Refusal (Session × Subject) :=
  s.held.openedSession hash fold s.clock c

/-- What every state of a run keeps. -/
structure Kept (s : Server) : Prop where
  lifetime : ∀ o ∈ s.opened, o.session.expires = o.at_ + sessionLifetime
  distinct : ∀ o ∈ s.opened, ∀ p ∈ s.opened, hash o.session.id = hash p.session.id → o = p
  was_sealed : ∀ k sess, (s.phase k).ending? = some (.session sess) →
    ∃ o ∈ s.opened, o.session = sess
  named : ∀ k e now, (s.phase k).dated? = some (e, now) → e.named hash = true
  past : ∀ k e now, (s.phase k).dated? = some (e, now) → now ≤ s.clock
  locked : ∀ k, (s.phase k).locks = true → s.holder = some k
  in_turn : ∀ j k e now e' now', s.phase j = .finished e now → (s.phase k).locks = true →
    (s.phase k).dated? = some (e', now') → now ≤ now'
  read : ∀ k e now ended, s.phase k = .viewed e now ended → ended = s.held.ended
  noted : ∀ x ∈ s.held.ended, ∃ k e now, s.phase k = .finished e now ∧ x = e.entry hash now
  stands : ∀ k e now, s.phase k = .finished e now →
    (e.entry hash now).until_ ≤ s.clock ∨
      ∃ x ∈ s.held.ended, x.replaces fold (e.entry hash now) = true ∧
        (e.entry hash now).until_ ≤ x.until_

namespace Kept

variable {hash fold} {s : Server}

theorem fresh (keys : SessionKeys) (providers : List IdentityProvider) (tokens : List Token)
    (clock : Nat) : Kept hash fold (Server.fresh keys providers tokens clock) := by
  constructor <;> simp [Server.fresh, Phase.ending?, Phase.dated?, Phase.locks]

theorem wait (h : Kept hash fold s) (n : Nat) :
    Kept hash fold { s with clock := s.clock + n } where
  __ := h
  past k e now hk := Nat.le_add_right_of_le (h.past k e now hk)
  stands k e now hk := (h.stands k e now hk).imp_left Nat.le_add_right_of_le

theorem tend (h : Kept hash fold s) (keys : SessionKeys) (providers : List IdentityProvider)
    (tokens : List Token) :
    Kept hash fold { s with held := ⟨keys, s.held.ended, providers, tokens⟩ } :=
  { h with }

theorem opens (h : Kept hash fold s) {id : String}
    (hnew : ∀ p ∈ s.opened, hash p.session.id ≠ hash id) (o : Opening) :
    Kept hash fold { s with opened := ⟨o.session id s.clock, s.clock⟩ :: s.opened } where
  __ := h
  lifetime p hp := by
    rcases mem_cons.mp hp with rfl | hp
    · cases o <;> rfl
    · exact h.lifetime p hp
  distinct p hp q hq heq := by
    have hid : (o.session id s.clock).id = id := by cases o <;> rfl
    rcases mem_cons.mp hp with rfl | hp'
    · rcases mem_cons.mp hq with rfl | hq'
      · rfl
      · exact absurd (hid ▸ heq.symm) (hnew q hq')
    · rcases mem_cons.mp hq with rfl | hq'
      · exact absurd (hid ▸ heq) (hnew p hp')
      · exact h.distinct p hp' q hq' heq
  was_sealed k sess hk := by
    obtain ⟨p, hp, rfl⟩ := h.was_sealed k sess hk
    exact ⟨p, mem_cons_of_mem _ hp, rfl⟩

variable {k j now now' : Nat} {e e' : Ending} {ended : List EndedSession}

theorem moves (h : Kept hash fold s) {p : Phase} {holder : Option Nat}
    (hopen : ∀ e now, s.phase k ≠ .finished e now) (hshort : ∀ e now, p ≠ .finished e now)
    (hsealed : ∀ sess, p.ending? = some (.session sess) → ∃ o ∈ s.opened, o.session = sess)
    (hdated : ∀ e now, p.dated? = some (e, now) → e.named hash = true ∧ now ≤ s.clock ∧
      ∀ j e' now', s.phase j = .finished e' now' → now' ≤ now)
    (hread : ∀ e now ended, p = .viewed e now ended → ended = s.held.ended)
    (hlocks : p.locks = true → holder = some k)
    (hothers : ∀ j, j ≠ k → (s.phase j).locks = true → holder = some j) :
    Kept hash fold { s.enter k p with holder := holder } := by
  have hfin : ∀ {j e now}, update s.phase k p j = .finished e now →
      s.phase j = .finished e now := by
    intro j e now hj
    by_cases hjk : j = k
    · subst hjk
      rw [update_self] at hj
      exact absurd hj (hshort e now)
    · rwa [update_of_ne hjk] at hj
  have hfin' : ∀ {j e now}, s.phase j = .finished e now →
      update s.phase k p j = .finished e now := by
    intro j e now hj
    by_cases hjk : j = k
    · subst hjk
      exact absurd hj (hopen e now)
    · rwa [update_of_ne hjk]
  have hcases : ∀ {q : Phase → Prop} (j : Nat), q (update s.phase k p j) →
      (j = k ∧ q p) ∨ (j ≠ k ∧ q (s.phase j)) := by
    intro q j hq
    by_cases hjk : j = k
    · subst hjk
      rw [update_self] at hq
      exact .inl ⟨rfl, hq⟩
    · rw [update_of_ne hjk] at hq
      exact .inr ⟨hjk, hq⟩
  exact {
    lifetime := h.lifetime
    distinct := h.distinct
    was_sealed := fun j sess hj => by
      rcases hcases (q := fun r => r.ending? = some (.session sess)) j hj with ⟨-, hp⟩ | ⟨-, hj⟩
      · exact hsealed sess hp
      · exact h.was_sealed j sess hj
    named := fun j e now hj => by
      rcases hcases (q := fun r => r.dated? = some (e, now)) j hj with ⟨-, hp⟩ | ⟨-, hj⟩
      · exact (hdated e now hp).1
      · exact h.named j e now hj
    past := fun j e now hj => by
      rcases hcases (q := fun r => r.dated? = some (e, now)) j hj with ⟨-, hp⟩ | ⟨-, hj⟩
      · exact (hdated e now hp).2.1
      · exact h.past j e now hj
    locked := fun j hj => by
      rcases hcases (q := fun r => r.locks = true) j hj with ⟨rfl, hp⟩ | ⟨hjk, hj⟩
      · exact hlocks hp
      · exact hothers j hjk hj
    in_turn := fun i j e now e' now' hi hj hdate => by
      rcases hcases (q := fun r => r.locks = true ∧ r.dated? = some (e', now')) j ⟨hj, hdate⟩ with
        ⟨-, -, hp⟩ | ⟨-, hl, hd⟩
      · exact (hdated e' now' hp).2.2 i e now (hfin hi)
      · exact h.in_turn i j e now e' now' (hfin hi) hl hd
    read := fun j e now ended hj => by
      rcases hcases (q := fun r => r = .viewed e now ended) j hj with ⟨-, hp⟩ | ⟨-, hj⟩
      · exact hread e now ended hp
      · exact h.read j e now ended hj
    noted := fun x hx => by
      obtain ⟨j, e, now, hj, rfl⟩ := h.noted x hx
      exact ⟨j, e, now, hfin' hj, rfl⟩
    stands := fun j e now hj => h.stands j e now (hfin hj) }

theorem fails (h : Kept hash fold s) (hopen : ∀ e now, s.phase k ≠ .finished e now) :
    Kept hash fold (s.leave k .failed) := by
  apply h.moves hopen
  · simp
  · simp [Phase.ending?]
  · simp [Phase.dated?]
  · simp
  · simp [Phase.locks]
  · intro j hjk hj
    rw [h.locked j hj, if_neg (by simpa using hjk)]

theorem until_le (h : Kept hash fold s) (hk : s.phase k = .viewed e now ended)
    (hj : s.phase j = .finished e' now')
    (hsame : (e.entry hash now).replaces fold (e'.entry hash now') = true) :
    (e'.entry hash now').until_ ≤ (e.entry hash now).until_ := by
  obtain ⟨hid, -, -⟩ := EndedSession.replaces_iff.mp hsame
  have hname := h.named k e now (by rw [hk]; rfl)
  have hname' := h.named j e' now' (by rw [hj]; rfl)
  cases e with
  | session sess =>
    cases e' with
    | session sess' =>
      -- one hash is one session
      obtain ⟨o, ho, rfl⟩ := h.was_sealed k sess (by rw [hk]; rfl)
      obtain ⟨o', ho', rfl⟩ := h.was_sealed j sess' (by rw [hj]; rfl)
      rw [h.distinct o ho o' ho' hid]
      exact le_rfl
    | person provider name => exact absurd hid (bne_iff_ne.mp hname)
  | person provider name =>
    cases e' with
    | session sess' => exact absurd hid.symm (bne_iff_ne.mp hname')
    | person provider' name' =>
      have hturn := h.in_turn j k _ _ _ _ hj (by rw [hk]; rfl) (by rw [hk]; rfl)
      exact Nat.add_le_add_right hturn _

theorem stands_amended (h : Kept hash fold s) (hk : s.phase k = .viewed e now ended)
    (hj : s.phase j = .finished e' now') :
    (e'.entry hash now').until_ ≤ s.clock ∨
      ∃ x ∈ amended fold now (e.entry hash now) s.held.ended,
        x.replaces fold (e'.entry hash now') = true ∧ (e'.entry hash now').until_ ≤ x.until_ := by
  have hpast : now ≤ s.clock := h.past k e now (by rw [hk]; rfl)
  rcases h.stands j e' now' hj with hout | ⟨x, hx, hsame, huntil⟩
  · exact .inl hout
  · rw [amended]
    by_cases hskip : (e.entry hash now).until_ ≤ now
    · rw [if_pos hskip]
      exact .inr ⟨x, hx, hsame, huntil⟩
    · rw [if_neg hskip]
      by_cases hrep : x.replaces fold (e.entry hash now) = true
      · have hnext := EndedSession.replaces_trans (EndedSession.replaces_symm hrep) hsame
        exact .inr ⟨_, mem_append_right _ (mem_singleton_self _), hnext,
          h.until_le hk hj hnext⟩
      · by_cases hrun : x.until_ ≤ now
        · exact .inl (huntil.trans (hrun.trans hpast))
        · refine .inr ⟨x, mem_append_left _ (mem_filter.mpr ⟨hx, ?_⟩), hsame, huntil⟩
          simp [hrep, hrun]

theorem mem_amended (h : Kept hash fold s) (hk : s.phase k = .viewed e now ended) :
    (e.entry hash now).until_ ≤ s.clock ∨
      e.entry hash now ∈ amended fold now (e.entry hash now) s.held.ended := by
  rw [amended]
  by_cases hskip : (e.entry hash now).until_ ≤ now
  · exact .inl (hskip.trans (h.past k e now (by rw [hk]; rfl)))
  · rw [if_neg hskip]
    exact .inr (mem_append_right _ (mem_singleton_self _))

theorem of_mem_amended {x next : EndedSession}
    (hx : x ∈ amended fold now next ended) : x ∈ ended ∨ x = next := by
  rw [amended] at hx
  by_cases hskip : next.until_ ≤ now
  · rw [if_pos hskip] at hx
    exact .inl hx
  · rw [if_neg hskip, mem_append, mem_singleton] at hx
    exact hx.imp_left mem_of_mem_filter

theorem finishes (h : Kept hash fold s) (hk : s.phase k = .viewed e now ended) :
    Kept hash fold { s.leave k (.finished e now) with
      held := { s.held with ended := amended fold now (e.entry hash now) ended } } := by
  have hhold : s.holder = some k := h.locked k (by rw [hk]; rfl)
  -- nobody else holds the lock
  have halone : ∀ j, j ≠ k → (s.phase j).locks = false := by
    intro j hjk
    rw [Bool.eq_false_iff]
    intro hj
    exact hjk (some.inj ((h.locked j hj).symm.trans hhold))
  have hnone : ∀ j, (update s.phase k (.finished e now) j).locks = false := by
    intro j
    by_cases hjk : j = k
    · subst hjk
      rw [update_self]
      rfl
    · rw [update_of_ne hjk]
      exact halone j hjk
  have hkept : ∀ {j e' now'}, s.phase j = .finished e' now' →
      update s.phase k (.finished e now) j = .finished e' now' := by
    intro j e' now' hj
    have hjk : j ≠ k := by
      rintro rfl
      rw [hk] at hj
      cases hj
    rwa [update_of_ne hjk]
  have hending : ∀ j, (update s.phase k (.finished e now) j).ending? =
      (s.phase j).ending? := by
    intro j
    by_cases hjk : j = k
    · subst hjk
      rw [update_self, hk]
      rfl
    · rw [update_of_ne hjk]
  have hdated : ∀ j, (update s.phase k (.finished e now) j).dated? =
      (s.phase j).dated? := by
    intro j
    by_cases hjk : j = k
    · subst hjk
      rw [update_self, hk]
      rfl
    · rw [update_of_ne hjk]
  rw [h.read k e now ended hk]
  exact {
    lifetime := h.lifetime
    distinct := h.distinct
    was_sealed := fun j sess hj => h.was_sealed j sess ((hending j).symm.trans hj)
    named := fun j e' now' hj => h.named j e' now' ((hdated j).symm.trans hj)
    past := fun j e' now' hj => h.past j e' now' ((hdated j).symm.trans hj)
    locked := fun j hj => absurd hj (Bool.eq_false_iff.mp (hnone j))
    in_turn := fun _ j _ _ _ _ _ hj _ => absurd hj (Bool.eq_false_iff.mp (hnone j))
    read := fun j e' now' l hj => by
      have hl : (update s.phase k (.finished e now) j).locks = true := by
        change update s.phase k _ j = _ at hj
        rw [hj]
        rfl
      exact absurd hl (Bool.eq_false_iff.mp (hnone j))
    noted := fun x hx => by
      rcases of_mem_amended hx with hx | rfl
      · obtain ⟨j, e', now', hj, rfl⟩ := h.noted x hx
        exact ⟨j, e', now', hkept hj, rfl⟩
      · exact ⟨k, e, now, update_self .., rfl⟩
    stands := fun j e' now' hj => by
      by_cases hjk : j = k
      · subst hjk
        change update s.phase j _ j = _ at hj
        rw [update_self] at hj
        cases hj
        refine (h.mem_amended hk).imp_right fun hmem => ⟨_, hmem, ?_, le_rfl⟩
        exact EndedSession.replaces_refl _
      · change update s.phase k _ j = _ at hj
        rw [update_of_ne hjk] at hj
        exact h.stands_amended hk hj }

theorem go (h : Kept hash fold s) (k : Nat) : Kept hash fold (s.go hash fold k) := by
  rw [Server.go]
  cases hk : s.phase k with
  | idle => exact h
  | finished e now => exact h
  | failed => exact h
  | asked e =>
    by_cases hname : e.named hash = true
    · by_cases hfree : s.holder.isNone = true
      · simp only [hname, hfree, if_true]
        apply h.moves
        · simp [hk]
        · simp
        · intro sess hsess
          exact h.was_sealed k sess (by rw [hk]; exact hsess)
        · intro e' now' hdate
          cases hdate
          refine ⟨hname, le_rfl, fun j e' now' hj => ?_⟩
          exact h.past j e' now' (by rw [hj]; rfl)
        · simp
        · exact fun _ => rfl
        · intro j _ hj
          rw [h.locked j hj] at hfree
          cases hfree
      · simp only [hname, hfree, if_true]
        exact h
    · simp only [hname]
      apply h.moves
      · simp [hk]
      · simp
      · simp [Phase.ending?]
      · simp [Phase.dated?]
      · simp
      · simp [Phase.locks]
      · exact fun j _ hj => h.locked j hj
  | holding e now =>
    by_cases hknown : e.known s.held = true
    · simp only [hknown, if_true]
      have hlock : (s.phase k).locks = true := by rw [hk]; rfl
      have hdate : (s.phase k).dated? = some (e, now) := by rw [hk]; rfl
      apply h.moves
      · simp [hk]
      · simp
      · intro sess hsess
        exact h.was_sealed k sess (by rw [hk]; exact hsess)
      · intro e' now' heq
        cases heq
        refine ⟨h.named k e now hdate, h.past k e now hdate, fun j e' now' hj => ?_⟩
        exact h.in_turn j k e' now' e now hj hlock hdate
      · intro e' now' ended heq
        cases heq
        rfl
      · exact fun _ => h.locked k hlock
      · exact fun j _ hj => h.locked j hj
    · simp only [hknown]
      exact h.fails (by simp [hk])
  | viewed e now ended => exact h.finishes hk

theorem asks (h : Kept hash fold s) (hk : s.phase k = .idle)
    (hsealed : ∀ sess, e = .session sess → ∃ o ∈ s.opened, o.session = sess) :
    Kept hash fold (s.enter k (.asked e)) := by
  apply h.moves
  · simp [hk]
  · simp
  · intro sess hsess
    exact hsealed sess (some.inj hsess)
  · simp [Phase.dated?]
  · simp
  · simp [Phase.locks]
  · exact fun j _ hj => h.locked j hj

theorem act (h : Kept hash fold s) (m : Move) : Kept hash fold (s.act hash fold m) := by
  cases m with
  | open_ id o =>
    rw [Server.act]
    by_cases hold : (s.opened.any fun p => hash p.session.id == hash id) = true
    · rw [if_pos hold]
      exact h
    · rw [if_neg hold]
      refine h.opens (fun p hp heq => hold ?_) o
      exact any_eq_true.mpr ⟨p, hp, beq_iff_eq.mpr heq⟩
  | ask k e =>
    rw [Server.act]
    cases hk : s.phase k with
    | idle =>
      by_cases hsess : e.presentable s.opened = true
      · simp only [hsess, if_true]
        refine h.asks hk fun sess heq => ?_
        subst heq
        obtain ⟨o, ho, heq⟩ := any_eq_true.mp hsess
        exact ⟨o, ho, beq_iff_eq.mp heq⟩
      · simp only [hsess]
        exact h
    | asked _ => exact h
    | holding _ _ => exact h
    | viewed _ _ _ => exact h
    | finished _ _ => exact h
    | failed => exact h
  | go k => exact h.go k
  | giveUp k =>
    rw [Server.act]
    cases hk : s.phase k with
    | finished e now => exact h
    | idle => exact h.fails (by simp [hk])
    | asked _ => exact h.fails (by simp [hk])
    | holding _ _ => exact h.fails (by simp [hk])
    | viewed _ _ _ => exact h.fails (by simp [hk])
    | failed => exact h.fails (by simp [hk])
  | tend keys providers tokens => exact h.tend keys providers tokens

theorem run (h : Kept hash fold s) (ticks : List Tick) : Kept hash fold (s.run hash fold ticks) := by
  induction ticks generalizing s with
  | nil => exact h
  | cons t rest ih => exact ih ((h.wait t.wait).act t.move)

end Kept

section Finished

variable {hash fold} {s : Server} {j k : Nat} {e : Ending} {now : Nat}

theorem phase_enter {p : Phase} (hjk : j ≠ k) : (s.enter k p).phase j = s.phase j :=
  update_of_ne hjk _ _

theorem go_finished (hj : s.phase j = .finished e now) :
    (s.go hash fold k).phase j = .finished e now := by
  rw [go]
  by_cases hjk : j = k
  · subst hjk
    simp only [hj]
  · cases hk : s.phase k with
    | idle => exact hj
    | finished e now => exact hj
    | failed => exact hj
    | viewed e now ended => exact (phase_enter hjk).trans hj
    | asked e =>
      dsimp only
      split
      · split
        · exact (phase_enter hjk).trans hj
        · exact hj
      · exact (phase_enter hjk).trans hj
    | holding e now =>
      dsimp only
      split
      · exact (phase_enter hjk).trans hj
      · exact (phase_enter hjk).trans hj

theorem act_finished (m : Move) (hj : s.phase j = .finished e now) :
    (s.act hash fold m).phase j = .finished e now := by
  cases m with
  | open_ id o =>
    rw [act]
    split
    · exact hj
    · exact hj
  | ask k e =>
    by_cases hjk : j = k
    · subst hjk
      rw [act, hj]
      exact hj
    · rw [act]
      split
      · split
        · exact (phase_enter hjk).trans hj
        · exact hj
      · exact hj
  | go k => exact go_finished hj
  | giveUp k =>
    by_cases hjk : j = k
    · subst hjk
      rw [act, hj]
      exact hj
    · rw [act]
      split
      · exact hj
      · exact (phase_enter hjk).trans hj
  | tend keys providers tokens => exact hj

theorem run_finished (ticks : List Tick) (hj : s.phase j = .finished e now) :
    (s.run hash fold ticks).phase j = .finished e now := by
  induction ticks generalizing s with
  | nil => exact hj
  | cons t rest ih => exact ih (act_finished t.move hj)

end Finished

section Shown

variable {hash fold} {s : Server} {e : Ending} {k now : Nat} {o : Opened}

theorem entry_ends (h : Kept hash fold s) (hk : s.phase k = .finished e now) (ho : o ∈ s.opened)
    (hcovers : e.Covers fold now o) :
    (e.entry hash now).ends fold (hash o.session.id) o.session.provider o.session.name
        o.session.expires = true ∧
      o.session.expires ≤ (e.entry hash now).until_ := by
  have hname := h.named k e now (by rw [hk]; rfl)
  cases e with
  | session sess =>
    obtain ⟨p, hp, rfl⟩ := h.was_sealed k sess (by rw [hk]; rfl)
    have hsame : o = p := h.distinct o ho p hp (congrArg hash hcovers)
    subst hsame
    refine ⟨?_, le_rfl⟩
    rw [EndedSession.ends, Ending.entry, if_pos (bne_iff_ne.mp hname)]
    exact beq_self_eq_true _
  | person provider name =>
    obtain ⟨hperson, rfl, hfold, hat⟩ := hcovers
    have huntil : o.session.expires ≤ now + sessionLifetime := by
      rw [h.lifetime o ho]
      exact Nat.add_le_add_right hat _
    refine ⟨?_, huntil⟩
    simp only [EndedSession.ends, Ending.entry, ne_eq, not_true_eq_false, if_false,
      Bool.and_eq_true, bne_iff_ne, beq_self_eq_true]
    exact ⟨⟨⟨hperson, trivial⟩, hfold⟩, decide_eq_true huntil⟩

theorem covers_of_ends (h : Kept hash fold s) (hk : s.phase k = .finished e now) (ho : o ∈ s.opened)
    (hends : (e.entry hash now).ends fold (hash o.session.id) o.session.provider o.session.name
      o.session.expires = true) : e.Covers fold now o := by
  have hname := h.named k e now (by rw [hk]; rfl)
  cases e with
  | session sess =>
    obtain ⟨p, hp, rfl⟩ := h.was_sealed k sess (by rw [hk]; rfl)
    rw [EndedSession.ends, Ending.entry, if_pos (bne_iff_ne.mp hname)] at hends
    exact congrArg (fun q : Opened => q.session.id)
      (h.distinct o ho p hp (beq_iff_eq.mp hends).symm)
  | person provider name =>
    simp only [EndedSession.ends, Ending.entry, ne_eq, not_true_eq_false, if_false,
      Bool.and_eq_true, bne_iff_ne, beq_iff_eq, decide_eq_true_eq, h.lifetime o ho] at hends
    obtain ⟨⟨⟨hempty, hprovider⟩, hfold⟩, huntil⟩ := hends
    exact ⟨hprovider ▸ hempty, hprovider.symm, hfold, Nat.le_of_add_le_add_right huntil⟩

variable {c : Sealed}

theorem shown_eq_error_of_expired (h : c.session.expires ≤ s.clock) :
    s.shown hash fold c = .error .tokenInvalid := by
  have hnone : openSession s.held.keys c s.clock = none := by
    rw [openSession, unsealed]
    split
    · simp [Option.filter, Nat.not_lt.mpr h]
    · rfl
  rw [shown, Held.openedSession, hnone]

theorem openSession_eq_some {keys : SessionKeys} {clock : Nat} {sess : Session}
    (h : openSession keys c clock = some sess) : sess = c.session := by
  rw [openSession, filter_eq_some_iff, unsealed] at h
  split at h
  · exact (some.inj h.1).symm
  · cases h.1

theorem shown_eq_error_of_ended {x : EndedSession} (hx : x ∈ s.held.ended)
    (hends : x.ends fold (hash c.session.id) c.session.provider c.session.name
      c.session.expires = true) : s.shown hash fold c = .error .tokenInvalid := by
  rw [shown, Held.openedSession]
  cases hopen : openSession s.held.keys c s.clock with
  | none => rfl
  | some sess =>
    rw [openSession_eq_some hopen]
    dsimp only
    rw [if_pos (any_eq_true.mpr ⟨x, hx, hends⟩)]

theorem shown_eq_of_none_ends
    (h : ∀ x ∈ s.held.ended, x.ends fold (hash c.session.id) c.session.provider c.session.name
      c.session.expires = false) :
    s.shown hash fold c = { s with held := { s.held with ended := [] } }.shown hash fold c := by
  rw [shown, shown, Held.openedSession, Held.openedSession]
  cases hopen : openSession s.held.keys c s.clock with
  | none => rfl
  | some sess =>
    rw [openSession_eq_some hopen]
    dsimp only
    rw [if_neg (by simpa using h)]
    rfl

end Shown

/-- Once an ending has finished, the sessions it is for are refused whenever their cookie is
shown, whatever else is opened, ended or changed in the meantime.  A session no ending is for
is answered as though nothing had been ended. -/
theorem ended_session_refused (hash : String → String) (fold : Char → Char) (keys : SessionKeys)
    (providers : List IdentityProvider) (tokens : List Token) (clock : Nat)
    (ticks later : List Tick) (k : Nat) (e : Ending) (now : Nat)
    (hended : ((fresh keys providers tokens clock).run hash fold ticks).phase k =
      .finished e now) :
    let s := ((fresh keys providers tokens clock).run hash fold ticks).run hash fold later
    (∀ o ∈ s.opened, e.Covers fold now o →
      ∀ key, s.shown hash fold ⟨key, o.session⟩ = .error .tokenInvalid) ∧
    (∀ o ∈ s.opened, (∀ j e' now', s.phase j = .finished e' now' → ¬ e'.Covers fold now' o) →
      ∀ key, s.shown hash fold ⟨key, o.session⟩ =
        { s with held := { s.held with ended := [] } }.shown hash fold ⟨key, o.session⟩) := by
  intro s
  have hkept : Kept hash fold s := ((Kept.fresh keys providers tokens clock).run ticks).run later
  have hk : s.phase k = .finished e now := run_finished later hended
  constructor
  · intro o ho hcovers key
    obtain ⟨hends, hexpires⟩ := entry_ends hkept hk ho hcovers
    rcases hkept.stands k e now hk with hout | ⟨x, hx, hsame, huntil⟩
    · exact shown_eq_error_of_expired (hexpires.trans hout)
    · exact shown_eq_error_of_ended hx (EndedSession.ends_of_replaces hsame huntil hends)
  · intro o ho hnone key
    apply shown_eq_of_none_ends
    intro x hx
    obtain ⟨j, e', now', hj, rfl⟩ := hkept.noted x hx
    rw [Bool.eq_false_iff]
    exact fun hends => hnone j e' now' hj (covers_of_ends hkept hj ho hends)

end Server

namespace Sample

def aliceEnded : List Tick :=
  [⟨0, .open_ "a" (.person "idp" "sub" "alice" .read)⟩, ⟨5, .ask 0 (.person "idp" " Alice ")⟩,
    ⟨0, .go 0⟩, ⟨0, .go 0⟩, ⟨0, .go 0⟩]

def aliceBack : List Tick :=
  [⟨1, .open_ "b" (.person "idp" "sub" "alice" .read)⟩, ⟨0, .ask 1 (.person "idp" "bob")⟩,
    ⟨0, .go 1⟩, ⟨0, .go 1⟩, ⟨0, .go 1⟩]

def signIns : Server := .fresh ⟨7, 0⟩ [⟨"idp", "Corp", true⟩] [] 0

def first : Opened := ⟨(Opening.person "idp" "sub" "alice" .read).session "a" 0, 0⟩

def second : Opened := ⟨(Opening.person "idp" "sub" "alice" .read).session "b" 6, 6⟩

end Sample

open Access.Sample

theorem Server.ended_session_refused_alice :
    let s := (signIns.run id Char.toLower aliceEnded).run id Char.toLower
      aliceBack
    s.shown id Char.toLower ⟨7, first.session⟩ = .error .tokenInvalid ∧
      s.shown id Char.toLower ⟨7, second.session⟩ =
        .ok (Sample.second.session, ⟨.empty, "alice (Corp)", [.read]⟩) := by
  have h := ended_session_refused id Char.toLower ⟨7, 0⟩ [⟨"idp", "Corp", true⟩] [] 0
    Sample.aliceEnded Sample.aliceBack 0 (.person "idp" " Alice ") 5 (by decide +kernel)
  refine ⟨h.1 first (by decide +kernel) (by decide +kernel) 7, ?_⟩
  decide +kernel

end Wegweiser.Access
