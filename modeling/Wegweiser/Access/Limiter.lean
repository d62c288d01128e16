/-
How often a wrong token may be tried.

A request that presents a token asks the limiter first, looks the token up, and is charged for it
once it turned out wrong.
-/
import Mathlib.Data.List.Nodup
import Mathlib.Logic.Function.Basic
import Wegweiser.Lib.Bucket
import Wegweiser.Lib.Checked
import Wegweiser.Zone.Name

namespace Wegweiser.Access

open Checked List Option Function

def authBurst : Int := 10
def authRefill : Int := 6 * 1000000000
def authForget : Int := 600 * 1000000000

/-- `authBucket`; moments are in nanoseconds. -/
structure AuthBucket where
  full : Int
  seen : Int
deriving DecidableEq

/-- `authLimiter`: the bucket of each source address. -/
abbrev AuthLimiter := Octets → Option AuthBucket

namespace AuthLimiter

def allow (l : AuthLimiter) (addr : Octets) (now : Int) : Bool × AuthLimiter :=
  match l addr with
  | none => (true, l)
  | some b =>
    (!decide (now + authBurst * authRefill < b.full),
      update l addr (some { b with seen := now }))

def forget (l : AuthLimiter) (now : Int) : AuthLimiter := fun addr =>
  (l addr).filter fun b => !decide (authForget < now - b.seen)

def spend (l : AuthLimiter) (addr : Octets) (now : Int) : AuthLimiter :=
  let l := l.forget now
  let full := ((l addr).map AuthBucket.full).getD now
  let full := if full < now then now else full
  update l addr (some ⟨full + authRefill, now⟩)

end AuthLimiter

/-- A request that was let through to have its token looked up. -/
structure Attempt where
  id : Nat
  addr : Octets
  asked : Int
  rejected : Bool
deriving DecidableEq

/-- The limiter, the requests under way, and the tokens that were looked up and rejected, the
last one first. -/
structure Gate where
  limiter : AuthLimiter
  running : List Attempt
  rejections : List (Octets × Int)

namespace Gate

def fresh : Gate := ⟨fun _ => none, [], []⟩

/-- What a request does next. -/
inductive Act where
  /-- It presents a credential. -/
  | ask (id : Nat) (addr : Octets)
  /-- Its token is looked up and rejected. -/
  | reject (id : Nat)
  /-- It ends in any other way, and costs nothing. -/
  | finish (id : Nat)
  /-- Its rejection is charged. -/
  | charge (id : Nat)
deriving DecidableEq

variable (σ : Gate)

def attempt (id : Nat) : Option Attempt := σ.running.find? fun a => a.id == id

def without (id : Nat) : List Attempt := σ.running.filter fun a => a.id != id

/-- The requests of `authenticated`, step by step. -/
def step (σ : Gate) (now : Int) : Act → Except Err Gate
  | .ask id addr =>
    if (σ.attempt id).isSome then .error (.failed "the request is under way")
    else
      match σ.limiter.allow addr now with
      | (true, l) => .ok { σ with limiter := l, running := σ.running ++ [⟨id, addr, now, false⟩] }
      | (false, l) => .ok { σ with limiter := l }
  | .reject id =>
    match σ.attempt id with
    | some a =>
      if a.rejected then .error (.failed "the token was looked up")
      else .ok { σ with
        running := σ.without id ++ [{ a with rejected := true }]
        rejections := (a.addr, now) :: σ.rejections }
    | none => .error (.failed "no such request")
  | .finish id =>
    match σ.attempt id with
    | some a =>
      if a.rejected then .error (.failed "the token was rejected")
      else .ok { σ with running := σ.without id }
    | none => .error (.failed "no such request")
  | .charge id =>
    match σ.attempt id with
    | some a =>
      if a.rejected then
        .ok { σ with limiter := σ.limiter.spend a.addr now, running := σ.without id }
      else .error (.failed "the token was not rejected")
    | none => .error (.failed "no such request")

def run (σ : Gate) (acts : List (Int × Act)) : Except Err Gate :=
  acts.foldlM (fun σ p => σ.step p.1 p.2) σ

def rejectedAt (addr : Octets) : List Int :=
  (σ.rejections.filter fun p => p.1 == addr).map Prod.snd

def Alone (addr : Octets) : Act → Prop
  | .ask _ other => other = addr → ∀ a ∈ σ.running, a.addr ≠ addr
  | _ => True

instance (addr : Octets) (act : Act) : Decidable (σ.Alone addr act) :=
  match act with
  | .ask _ other => inferInstanceAs (Decidable (other = addr → ∀ a ∈ σ.running, a.addr ≠ addr))
  | .reject _ | .finish _ | .charge _ => inferInstanceAs (Decidable True)

def AllAlone (addr : Octets) : Gate → List (Int × Act) → Prop
  | _, [] => True
  | σ, p :: rest => σ.Alone addr p.2 ∧ ∀ τ, σ.step p.1 p.2 = .ok τ → AllAlone addr τ rest

end Gate

section Deadline

variable {b : Option AuthBucket} {now : Int} {spent : List Int}

def deadline (b : Option AuthBucket) (now : Int) : Int := (b.map AuthBucket.full).getD now

def Timely (b : Option AuthBucket) (now : Int) : Prop :=
  ∀ k ∈ b, k.seen ≤ now ∧ k.full ≤ k.seen + (authBurst + 1) * authRefill

/-- A bucket as `forget` leaves it. -/
def remembered (b : Option AuthBucket) (now : Int) : Option AuthBucket :=
  b.filter fun k => !decide (authForget < now - k.seen)

theorem remembered_cases (b : Option AuthBucket) (now : Int) :
    remembered b now = b ∨
      remembered b now = none ∧ ∃ k ∈ b, authForget < now - k.seen := by
  cases b with
  | none => exact .inl rfl
  | some k =>
    by_cases hold : authForget < now - k.seen
    · refine .inr ⟨?_, k, rfl, hold⟩
      rw [remembered, filter_some, decide_eq_true hold]
      rfl
    · refine .inl ?_
      rw [remembered, filter_some, decide_eq_false hold]
      rfl

theorem covers_remembered (h : Bucket.Covers authRefill (deadline b now) now spent)
    (htimely : Timely b now) :
    Bucket.Covers authRefill (deadline (remembered b now) now) now spent := by
  rcases remembered_cases b now with heq | ⟨-, k, hk, hold⟩
  · rw [heq]
    exact h
  · refine h.past ?_
    have hfull := (htimely k hk).2
    rw [mem_def.mp hk, deadline, map_some, getD_some]
    simp only [authForget, authBurst, authRefill] at hold hfull
    omega

theorem covers_wait (h : Bucket.Covers authRefill (deadline b now) now spent)
    (hspent : ∀ t ∈ spent, t ≤ now) {later : Int} (hlater : now ≤ later) :
    Bucket.Covers authRefill (deadline b later) later spent := by
  cases b with
  | none => exact (h.wait hspent hlater).past hlater
  | some k => exact h.wait hspent hlater

end Deadline

namespace Gate

variable {addr : Octets} {now later : Int} {spent : List Int} {σ τ : Gate}

/-- A request of the address that is under way: what was spent when it asked, and the time of
its rejection. -/
structure Underway (addr : Octets) (now : Int) (spent : List Int) (σ : Gate) (a : Attempt) : Prop where
  asked : a.asked ≤ now
  before : ∀ t ∈ spent, t ≤ a.asked
  level : ∀ x ≤ a.asked, x + authRefill * Bucket.since x spent ≤ a.asked + authBurst * authRefill
  bucket : ∀ k ∈ σ.limiter addr, k.full ≤ a.asked + authBurst * authRefill
  rejected : a.rejected = true → ∃ t, σ.rejectedAt addr = t :: spent ∧ t ≤ now

/-- The rejections of an address and what of them was charged. -/
structure Tally (addr : Octets) (now : Int) (spent : List Int) (σ : Gate) : Prop where
  ids : (σ.running.map Attempt.id).Nodup
  single : ∀ a ∈ σ.running, ∀ b ∈ σ.running, a.addr = addr → b.addr = addr → a = b
  past : ∀ t ∈ spent, t ≤ now
  covers : Bucket.Covers authRefill (deadline (σ.limiter addr) now) now spent
  timely : Timely (σ.limiter addr) now
  spaced : Bucket.Spaced authBurst authRefill (σ.rejectedAt addr)
  charged : (∀ a ∈ σ.running, a.addr = addr → a.rejected = false) → σ.rejectedAt addr = spent
  underway : ∀ a ∈ σ.running, a.addr = addr → Underway addr now spent σ a

theorem tally_fresh (addr : Octets) (now : Int) : Tally addr now [] fresh where
  ids := nodup_nil
  single a ha := by cases ha
  past t ht := by cases ht
  covers := Bucket.covers_nil _ _ _
  timely k hk := by cases hk
  spaced := Bucket.spaced_nil (by decide) (by decide)
  charged _ := rfl
  underway a ha := by cases ha

theorem Tally.wait (h : Tally addr now spent σ) (hlater : now ≤ later) : Tally addr later spent σ where
  ids := h.ids
  single := h.single
  past t ht := (h.past t ht).trans hlater
  covers := covers_wait h.covers h.past hlater
  timely k hk := ⟨(h.timely k hk).1.trans hlater, (h.timely k hk).2⟩
  spaced := h.spaced
  charged := h.charged
  underway a ha haddr := by
    have hold := h.underway a ha haddr
    refine ⟨hold.asked.trans hlater, hold.before, hold.level, hold.bucket, fun hrejected => ?_⟩
    obtain ⟨t, ht, hle⟩ := hold.rejected hrejected
    exact ⟨t, ht, hle.trans hlater⟩

variable {id : Nat} {a : Attempt} {other : Octets}

theorem mem_of_attempt (h : σ.attempt id = some a) : a ∈ σ.running ∧ a.id = id :=
  ⟨mem_of_find?_eq_some h, by simpa using find?_some h⟩

theorem mem_without : a ∈ σ.without id ↔ a ∈ σ.running ∧ a.id ≠ id := by
  rw [without, mem_filter, bne_iff_ne]

theorem ids_without (h : (σ.running.map Attempt.id).Nodup) (id : Nat) :
    ((σ.without id).map Attempt.id).Nodup :=
  h.sublist (filter_sublist.map _)

theorem ids_append {l : List Attempt} (h : (l.map Attempt.id).Nodup)
    (ha : ∀ b ∈ l, b.id ≠ a.id) : ((l ++ [a]).map Attempt.id).Nodup := by
  rw [map_append, nodup_append]
  refine ⟨h, nodup_singleton _, ?_⟩
  intro i hi j hj
  obtain ⟨b, hb, rfl⟩ := mem_map.mp hi
  rw [map_singleton, mem_singleton] at hj
  rw [hj]
  exact ha b hb

theorem Tally.elsewhere (h : Tally addr now spent σ) (hids : (τ.running.map Attempt.id).Nodup)
    (hmine : ∀ a, a.addr = addr → (a ∈ τ.running ↔ a ∈ σ.running))
    (hbucket : τ.limiter addr = σ.limiter addr ∨ τ.limiter addr = remembered (σ.limiter addr) now)
    (hlog : τ.rejectedAt addr = σ.rejectedAt addr) : Tally addr now spent τ := by
  have hkept : ∀ k ∈ τ.limiter addr, k ∈ σ.limiter addr := by
    intro k hk
    rcases hbucket with heq | heq
    · exact heq ▸ hk
    · rw [heq] at hk
      exact (mem_filter_iff.mp hk).1
  refine ⟨hids, ?_, h.past, ?_, fun k hk => h.timely k (hkept k hk), hlog ▸ h.spaced, ?_, ?_⟩
  · intro a ha b hb haddr hbaddr
    exact h.single a ((hmine a haddr).mp ha) b ((hmine b hbaddr).mp hb) haddr hbaddr
  · rcases hbucket with heq | heq
    · rw [heq]
      exact h.covers
    · rw [heq]
      exact covers_remembered h.covers h.timely
  · intro hidle
    rw [hlog]
    exact h.charged fun a ha haddr => hidle a ((hmine a haddr).mpr ha) haddr
  · intro a ha haddr
    have hold := h.underway a ((hmine a haddr).mp ha) haddr
    exact ⟨hold.asked, hold.before, hold.level, fun k hk => hold.bucket k (hkept k hk),
      hlog.symm ▸ hold.rejected⟩

theorem allow_cases (l : AuthLimiter) (addr : Octets) (now : Int) :
    (l addr = none ∧ l.allow addr now = (true, l)) ∨
      ∃ k, l addr = some k ∧ l.allow addr now =
        (decide (k.full ≤ now + authBurst * authRefill),
          update l addr (some ⟨k.full, now⟩)) := by
  cases hk : l addr with
  | none => exact .inl ⟨rfl, by rw [AuthLimiter.allow, hk]⟩
  | some k =>
    refine .inr ⟨k, rfl, ?_⟩
    have hdecide : (!decide (now + authBurst * authRefill < k.full)) =
        decide (k.full ≤ now + authBurst * authRefill) := by
      rw [← decide_not]
      exact decide_eq_decide.mpr Int.not_lt
    rw [AuthLimiter.allow, hk]
    dsimp only
    rw [hdecide]

theorem Tally.heard (h : Tally addr now spent σ) {k : AuthBucket} (hk : σ.limiter addr = some k)
    {l : AuthLimiter} (hl : l addr = some ⟨k.full, now⟩) :
    Tally addr now spent { σ with limiter := l } := by
  have hbucket := h.timely k hk
  refine ⟨h.ids, h.single, h.past, ?_, ?_, h.spaced, h.charged, ?_⟩
  · have hcovers := h.covers
    dsimp only
    rw [hk] at hcovers
    rw [hl]
    exact hcovers
  · intro o ho
    cases hl.symm.trans ho
    exact ⟨Int.le_refl _, hbucket.2.trans (Int.add_le_add_right hbucket.1 _)⟩
  · intro a ha haddr
    have hold := h.underway a ha haddr
    refine ⟨hold.asked, hold.before, hold.level, ?_, hold.rejected⟩
    intro o ho
    cases hl.symm.trans ho
    exact hold.bucket k hk

theorem Tally.admitted (h : Tally addr now spent σ) (hnew : ∀ a ∈ σ.running, a.id ≠ id)
    (halone : ∀ a ∈ σ.running, a.addr ≠ addr)
    (hallowed : ∀ k ∈ σ.limiter addr, k.full ≤ now + authBurst * authRefill) :
    Tally addr now spent { σ with running := σ.running ++ [⟨id, addr, now, false⟩] } := by
  have hmine : ∀ a ∈ σ.running ++ [⟨id, addr, now, false⟩], a.addr = addr →
      a = ⟨id, addr, now, false⟩ := by
    intro a ha haddr
    rcases mem_append.mp ha with ha | ha
    · exact absurd haddr (halone a ha)
    · exact mem_singleton.mp ha
  refine ⟨ids_append h.ids hnew, ?_, h.past, h.covers, h.timely, h.spaced, ?_, ?_⟩
  · intro a ha b hb haddr hbaddr
    rw [hmine a ha haddr, hmine b hb hbaddr]
  · intro _
    exact h.charged fun a ha haddr => absurd haddr (halone a ha)
  · intro a ha haddr
    rw [hmine a ha haddr]
    refine ⟨Int.le_refl _, h.past, ?_, hallowed, fun hrejected => by cases hrejected⟩
    intro x hx
    refine (h.covers x hx).trans (max_le ?_ ?_)
    · cases hk : σ.limiter addr with
      | none =>
        rw [deadline]
        exact Int.le_add_of_nonneg_right (by decide)
      | some k => exact hallowed k hk
    · exact Int.le_add_of_nonneg_right (by decide)

theorem Tally.ask (h : Tally addr now spent σ)
    (halone : σ.Alone addr (.ask id other)) (hok : σ.step now (.ask id other) = .ok τ) :
    Tally addr now spent τ := by
  rw [step] at hok
  split at hok
  · cases hok
  · next hfree =>
    have hnew : ∀ a ∈ σ.running, a.id ≠ id := by
      intro a ha hid
      refine hfree ?_
      rw [attempt, find?_isSome]
      exact ⟨a, ha, by simp [hid]⟩
    by_cases hother : other = addr
    · subst hother
      have hnone := halone rfl
      rcases allow_cases σ.limiter other now with ⟨hk, hallow⟩ | ⟨k, hk, hallow⟩
      · rw [hallow] at hok
        cases hok
        exact h.admitted hnew hnone (by simp [hk])
      · rw [hallow] at hok
        have hself : update σ.limiter other (some ⟨k.full, now⟩) other =
            some ⟨k.full, now⟩ := update_self ..
        have hheard := h.heard hk hself
        split at hok
        · next l heq =>
          cases hok
          obtain ⟨hle, rfl⟩ := Prod.mk.inj heq
          refine hheard.admitted hnew hnone ?_
          intro o ho
          cases hself.symm.trans ho
          exact of_decide_eq_true hle
        · next l heq =>
          cases hok
          obtain ⟨-, rfl⟩ := Prod.mk.inj heq
          exact hheard
    · have hsame : (σ.limiter.allow other now).2 addr = σ.limiter addr := by
        rcases allow_cases σ.limiter other now with ⟨-, hallow⟩ | ⟨k, -, hallow⟩
        · rw [hallow]
        · rw [hallow]
          exact update_of_ne (Ne.symm hother) _ _
      split at hok
      · next l heq =>
        cases hok
        rw [heq] at hsame
        refine h.elsewhere (ids_append h.ids hnew) ?_ (.inl hsame) rfl
        intro a haddr
        rw [mem_append, mem_singleton]
        constructor
        · rintro (ha | rfl)
          · exact ha
          · exact absurd haddr hother
        · exact .inl
      · next l heq =>
        cases hok
        rw [heq] at hsame
        exact h.elsewhere h.ids (fun _ _ => Iff.rfl) (.inl hsame) rfl

theorem Tally.mem_without (h : Tally addr now spent σ)
    (hattempt : σ.attempt id = some a) (haddr : a.addr ≠ addr) {b : Attempt} (hb : b.addr = addr) :
    b ∈ σ.without id ↔ b ∈ σ.running := by
  obtain ⟨ha, hid⟩ := mem_of_attempt hattempt
  rw [Gate.mem_without]
  refine and_iff_left_of_imp fun hmem heq => haddr ?_
  rw [inj_on_of_nodup_map h.ids ha hmem (hid.trans heq.symm)]
  exact hb

theorem Tally.reject (h : Tally addr now spent σ)
    (hok : σ.step now (.reject id) = .ok τ) : Tally addr now spent τ := by
  rw [step] at hok
  split at hok
  · next a hattempt =>
    obtain ⟨ha, hid⟩ := mem_of_attempt hattempt
    have hids : ((σ.without id ++ [{ a with rejected := true }]).map Attempt.id).Nodup := by
      refine ids_append (ids_without h.ids id) fun b hb => ?_
      rw [hid]
      exact (Gate.mem_without.mp hb).2
    split at hok
    · cases hok
    · next hrejected =>
      cases hok
      by_cases haddr : a.addr = addr
      · have hmine : ∀ b ∈ σ.without id ++ [{ a with rejected := true }], b.addr = addr →
            b = { a with rejected := true } := by
          intro b hb hbaddr
          rcases mem_append.mp hb with hb | hb
          · obtain ⟨hmem, hne⟩ := Gate.mem_without.mp hb
            exact absurd ((h.single b hmem a ha hbaddr haddr) ▸ hid) hne
          · exact mem_singleton.mp hb
        have hspent : σ.rejectedAt addr = spent := by
          refine h.charged fun b hb hbaddr => ?_
          rw [h.single b hb a ha hbaddr haddr]
          simpa using hrejected
        have hlog : Gate.rejectedAt { σ with
            running := σ.without id ++ [{ a with rejected := true }]
            rejections := (a.addr, now) :: σ.rejections } addr = now :: spent := by
          rw [← hspent]
          simp [rejectedAt, haddr]
        have hold := h.underway a ha haddr
        refine ⟨hids, ?_, h.past, h.covers, h.timely, ?_, ?_, ?_⟩
        · intro b hb b' hb' hbaddr hbaddr'
          rw [hmine b hb hbaddr, hmine b' hb' hbaddr']
        · rw [hlog]
          exact (hspent ▸ h.spaced).cons (by decide) (by decide) hold.before hold.level hold.asked
        · intro hidle
          exact absurd (hidle _ (mem_append_right _ mem_cons_self) haddr) (by simp)
        · intro b hb hbaddr
          rw [hmine b hb hbaddr]
          exact ⟨hold.asked, hold.before, hold.level, hold.bucket,
            fun _ => ⟨now, hlog, Int.le_refl _⟩⟩
      · refine h.elsewhere hids ?_ (.inl rfl) ?_
        · intro b hb
          rw [mem_append, mem_singleton, h.mem_without hattempt haddr hb]
          constructor
          · rintro (hmem | rfl)
            · exact hmem
            · exact absurd hb haddr
          · exact .inl
        · simp [rejectedAt, haddr]
  · cases hok

theorem Tally.finish (h : Tally addr now spent σ)
    (hok : σ.step now (.finish id) = .ok τ) : Tally addr now spent τ := by
  rw [step] at hok
  split at hok
  · next a hattempt =>
    obtain ⟨ha, hid⟩ := mem_of_attempt hattempt
    split at hok
    · cases hok
    · next hrejected =>
      cases hok
      refine ⟨ids_without h.ids id, ?_, h.past, h.covers, h.timely, h.spaced, ?_, ?_⟩
      · intro b hb b' hb'
        exact h.single b (Gate.mem_without.mp hb).1 b' (Gate.mem_without.mp hb').1
      · intro hidle
        refine h.charged fun b hb hbaddr => ?_
        by_cases hb' : b.id = id
        · rw [inj_on_of_nodup_map h.ids hb ha (hb'.trans hid.symm)]
          simpa using hrejected
        · exact hidle b (Gate.mem_without.mpr ⟨hb, hb'⟩) hbaddr
      · intro b hb hbaddr
        have hold := h.underway b (Gate.mem_without.mp hb).1 hbaddr
        exact ⟨hold.asked, hold.before, hold.level, hold.bucket, hold.rejected⟩
  · cases hok

theorem spend_self (l : AuthLimiter) (addr : Octets) (now : Int) :
    l.spend addr now addr =
      some ⟨max (deadline (remembered (l addr) now) now) now + authRefill, now⟩ := by
  have hmax : ∀ full : Int, (if full < now then now else full) = max full now := by
    intro full
    split
    · next hlt => rw [max_eq_right hlt.le]
    · next hle => rw [max_eq_left (Int.not_lt.mp hle)]
  rw [AuthLimiter.spend, update_self, hmax]
  rfl

theorem spend_other (l : AuthLimiter) (hne : addr ≠ other) (now : Int) :
    l.spend other now addr = remembered (l addr) now := by
  rw [AuthLimiter.spend]
  exact update_of_ne hne _ _

theorem Tally.charge (h : Tally addr now spent σ)
    (hok : σ.step now (.charge id) = .ok τ) : ∃ spent', Tally addr now spent' τ := by
  rw [step] at hok
  split at hok
  · next a hattempt =>
    obtain ⟨ha, hid⟩ := mem_of_attempt hattempt
    split at hok
    · next hrejected =>
      cases hok
      by_cases haddr : a.addr = addr
      · have hold := h.underway a ha haddr
        obtain ⟨t, hlog, ht⟩ := hold.rejected hrejected
        have hnone : ∀ b ∈ σ.without id, b.addr ≠ addr := by
          intro b hb hbaddr
          obtain ⟨hmem, hne⟩ := Gate.mem_without.mp hb
          exact hne ((h.single b hmem a ha hbaddr haddr) ▸ hid)
        have hself := spend_self σ.limiter addr now
        rw [haddr]
        refine ⟨t :: spent, ids_without h.ids id, ?_, ?_, ?_, ?_, h.spaced, fun _ => hlog, ?_⟩
        · intro b hb _ _ hbaddr
          exact absurd hbaddr (hnone b hb)
        · intro s hs
          rcases mem_cons.mp hs with rfl | hs
          · exact ht
          · exact h.past s hs
        · dsimp only
          rw [hself]
          exact (covers_remembered h.covers h.timely).spend (by decide)
        · intro k hk
          cases hself.symm.trans hk
          refine ⟨Int.le_refl _, ?_⟩
          have hnow : now ≤ now + authBurst * authRefill :=
            Int.le_add_of_nonneg_right (by decide)
          -- it was let through with the deadline it finds now
          have hdeadline : deadline (remembered (σ.limiter addr) now) now ≤
              now + authBurst * authRefill := by
            rcases remembered_cases (σ.limiter addr) now with heq | ⟨heq, -⟩
            · rw [heq]
              cases hk : σ.limiter addr with
              | none => exact hnow
              | some k => exact (hold.bucket k hk).trans (Int.add_le_add_right hold.asked _)
            · rw [heq]
              exact hnow
          have hmax := max_le hdeadline hnow
          dsimp only
          rw [Int.add_mul, Int.one_mul]
          omega
        · intro b hb hbaddr
          exact absurd hbaddr (hnone b hb)
      · refine ⟨spent, h.elsewhere (ids_without h.ids id)
          (fun b hb => h.mem_without hattempt haddr hb) (.inr ?_) rfl⟩
        exact spend_other σ.limiter (Ne.symm haddr) now
    · cases hok
  · cases hok

theorem Tally.step (h : Tally addr now spent σ) {act : Act} (hlater : now ≤ later)
    (halone : σ.Alone addr act) (hok : σ.step later act = .ok τ) :
    ∃ spent', Tally addr later spent' τ := by
  have hlate := h.wait hlater
  cases act with
  | ask id other => exact ⟨spent, hlate.ask halone hok⟩
  | reject id => exact ⟨spent, hlate.reject hok⟩
  | finish id => exact ⟨spent, hlate.finish hok⟩
  | charge id => exact hlate.charge hok

theorem Tally.run {acts : List (Int × Act)} (h : Tally addr now spent σ)
    (hclock : (now :: acts.map Prod.fst).Pairwise (· ≤ ·)) (halone : AllAlone addr σ acts)
    (hok : σ.run acts = .ok τ) : ∃ last spent', Tally addr last spent' τ := by
  induction acts generalizing now spent σ with
  | nil =>
    cases hok
    exact ⟨now, spent, h⟩
  | cons p rest ih =>
    obtain ⟨mid, hone, hrest⟩ := foldlM_cons_eq_ok.mp hok
    rw [map_cons, pairwise_cons] at hclock
    obtain ⟨spent', hmid⟩ := h.step (hclock.1 p.1 mem_cons_self) halone.1 hone
    exact ih hmid hclock.2 (halone.2 mid hone) hrest

end Gate

section Bound

variable (acts : List (Int × Gate.Act)) (addr : Octets) (σ : Gate)

/-- Requests of an address that ask one after another: in every interval at most a burst, one
and what is refilled in it are rejected. -/
theorem rejections_bounded (hclock : (acts.map Prod.fst).Pairwise (· ≤ ·))
    (halone : Gate.AllAlone addr .fresh acts) (hok : Gate.fresh.run acts = .ok σ) (x span : Int)
    (hspan : 0 ≤ span) :
    (Bucket.within x span (σ.rejectedAt addr) : Int) ≤ authBurst + 1 + span / authRefill := by
  cases acts with
  | nil =>
    cases hok
    exact (Gate.tally_fresh addr 0).spaced x span hspan
  | cons p rest =>
    have hfirst : (p.1 :: (p :: rest).map Prod.fst).Pairwise (· ≤ ·) := by
      rw [map_cons] at hclock ⊢
      refine pairwise_cons.mpr ⟨fun t ht => ?_, hclock⟩
      rcases mem_cons.mp ht with rfl | ht
      · exact Int.le_refl _
      · exact (pairwise_cons.mp hclock).1 t ht
    obtain ⟨last, spent, h⟩ := (Gate.tally_fresh addr p.1).run hfirst halone hok
    exact h.spaced x span hspan

end Bound

namespace Sample

def source : Octets := ascii "192.0.2.1"

def inTurn : List (Int × Gate.Act) :=
  (range 11).flatMap fun i => [(0, .ask i source), (0, .reject i), (0, .charge i)]

def sideBySide : List (Int × Gate.Act) :=
  ((range 12).map fun i => (0, .ask i source)) ++
    (range 12).flatMap fun i => [(0, .reject i), (0, .charge i)]

def aloneAlong (addr : Octets) : Gate → List (Int × Gate.Act) → Bool
  | _, [] => true
  | σ, p :: rest =>
    decide (σ.Alone addr p.2) && ((σ.step p.1 p.2).toOption.all fun τ => aloneAlong addr τ rest)

theorem allAlone_of_aloneAlong {addr : Octets} {acts : List (Int × Gate.Act)} {σ : Gate}
    (h : aloneAlong addr σ acts = true) : σ.AllAlone addr acts := by
  induction acts generalizing σ with
  | nil => trivial
  | cons p rest ih =>
    rw [aloneAlong, Bool.and_eq_true] at h
    refine ⟨of_decide_eq_true h.1, fun τ hτ => ih ?_⟩
    rw [hτ] at h
    exact h.2

end Sample

open Access.Sample

/-- Eleven wrong tokens at once, which is as many as there may be. -/
theorem rejections_bounded_inTurn :
    ∃ σ, Gate.fresh.run inTurn = .ok σ ∧
      Bucket.within 0 0 (σ.rejectedAt source) = 11 ∧
      (Bucket.within 0 0 (σ.rejectedAt source) : Int) ≤ authBurst + 1 + 0 / authRefill := by
  obtain ⟨σ, hσ, hcount⟩ := ok_of_any
    (show (Gate.fresh.run inTurn).toOption.any (fun σ =>
      Bucket.within 0 0 (σ.rejectedAt source) == 11) = true by decide +kernel)
  exact ⟨σ, hσ, eq_of_beq hcount, rejections_bounded inTurn source σ
    (by decide +kernel) (allAlone_of_aloneAlong (by decide +kernel)) hσ 0 0 (Int.le_refl 0)⟩

/-- Twelve that have all asked before the first one was charged. -/
theorem rejections_side_by_side :
    (sideBySide.map Prod.fst).Pairwise (· ≤ ·) ∧
      ∃ σ, Gate.fresh.run sideBySide = .ok σ ∧
        ¬ (Bucket.within 0 0 (σ.rejectedAt source) : Int) ≤
          authBurst + 1 + 0 / authRefill := by
  obtain ⟨σ, hσ, hcount⟩ := ok_of_any
    (show (Gate.fresh.run sideBySide).toOption.any (fun σ =>
      decide (¬ (Bucket.within 0 0 (σ.rejectedAt source) : Int) ≤
        authBurst + 1 + 0 / authRefill)) = true by decide +kernel)
  exact ⟨by decide +kernel, σ, hσ, of_decide_eq_true hcount⟩

end Wegweiser.Access
