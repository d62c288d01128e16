/-
The rotation of the cookie secrets.

A rotation keeps the secret it replaces as the predecessor and is due an hour after the last
one, so that a secret stays in force for as long as a cookie issued under it can be presented.
-/
import Wegweiser.DNS.Cookie

namespace Wegweiser

open Checked List Sample

namespace DNS

/-- `apply.CookieSecrets`, as the setting holds them; times are in nanoseconds. -/
structure StoredSecrets where
  current : CookieSecret
  previous : CookieSecret
  rotatedAt : Int
deriving DecidableEq

def cookieRotation : Int := 3600 * 1000000000

namespace StoredSecrets

def isZero (s : StoredSecrets) : Bool := s.current == CookieSecret.unset

def zero : StoredSecrets := ⟨CookieSecret.unset, CookieSecret.unset, -62135596800 * 1000000000⟩

/-- `CookieSecrets.Rotate`, with what the system's randomness gave. -/
def rotate (s : StoredSecrets) (now : Int) (mint : Except Err CookieSecret) :
    Except Err StoredSecrets := do
  let next ← mint
  pure ⟨next, s.current, now⟩

def due (s : StoredSecrets) (now : Int) : Bool :=
  s.isZero || !decide (now < s.rotatedAt + cookieRotation)

/-- What `Publisher.cookies` hands to the query path. -/
def published (s : StoredSecrets) : CookieSecrets := ⟨s.current, s.previous⟩

end StoredSecrets

def storedCookieSecrets : Option StoredSecrets → Except Err StoredSecrets
  | none => .ok StoredSecrets.zero
  | some s =>
    if s.isZero then .error (.invalid "cookie secrets in the database: no current secret")
    else .ok s

/-- `CookieSecretsChange`: the setting as it is to be written. -/
def cookieSecretsChange (s : StoredSecrets) : Except Err StoredSecrets :=
  if s.isZero then .error (.invalid "cookie secrets: no current secret") else .ok s

/-- `Applier.RotateCookieSecrets`: the pair in force afterwards and whether it is a new one. -/
def rotateCookieSecrets (now : Int) (mint : Except Err CookieSecret)
    (setting : Option StoredSecrets) : Except Err (StoredSecrets × Bool) := do
  let stored ← storedCookieSecrets setting
  if !stored.due now then pure (stored, false)
  else
    let next ← stored.rotate now mint
    let change ← cookieSecretsChange next
    pure (change, true)

/-- The setting, and the secrets cookies are computed and checked under. -/
structure CookieServer where
  setting : Option StoredSecrets
  published : CookieSecrets
deriving DecidableEq

/-- A call of `RotateCookieSecrets` with its time and what was minted. -/
structure Rotation where
  now : Int
  mint : Except Err CookieSecret

/-- A rotation is written and published at once; a call that fails or finds nothing due leaves
everything as it was. -/
def CookieServer.rotate (σ : CookieServer) (call : Rotation) : CookieServer :=
  match rotateCookieSecrets call.now call.mint σ.setting with
  | .ok (next, true) => ⟨some next, next.published⟩
  | _ => σ

def CookieServer.rotateAll (σ : CookieServer) (calls : List Rotation) : CookieServer :=
  calls.foldl CookieServer.rotate σ

section Step

variable {σ : CookieServer} {call : Rotation}

theorem CookieServer.rotate_cases (σ : CookieServer) (call : Rotation) :
    σ.rotate call = σ ∨
      ∃ stored next, storedCookieSecrets σ.setting = .ok stored ∧ stored.due call.now = true ∧
        next ≠ CookieSecret.unset ∧
        σ.rotate call =
          ⟨some ⟨next, stored.current, call.now⟩, ⟨next, stored.current⟩⟩ := by
  rw [CookieServer.rotate]
  split
  · next secrets hrotate =>
    right
    simp only [rotateCookieSecrets, bind_eq_ok] at hrotate
    obtain ⟨stored, hstored, hrotate⟩ := hrotate
    split at hrotate
    · cases hrotate
    · next hdue =>
      simp only [StoredSecrets.rotate, bind_eq_ok, pure_eq_ok] at hrotate
      obtain ⟨_, ⟨next, -, rfl⟩, change, hchange, heq⟩ := hrotate
      cases heq
      rw [cookieSecretsChange] at hchange
      split at hchange
      · cases hchange
      · next hset =>
        cases hchange
        rw [Bool.not_eq_true', Bool.not_eq_false] at hdue
        refine ⟨stored, next, hstored, hdue, ?_, rfl⟩
        intro hnext
        exact hset (by simp [StoredSecrets.isZero, hnext])
  · exact .inl rfl

def CookieServer.InStep (σ : CookieServer) : Prop :=
  ∃ stored, storedCookieSecrets σ.setting = .ok stored ∧ σ.published = stored.published

theorem CookieServer.InStep.rotate (h : σ.InStep) : (σ.rotate call).InStep := by
  rcases σ.rotate_cases call with heq | ⟨stored, next, -, -, hnext, heq⟩
  · rw [heq]
    exact h
  · rw [heq]
    refine ⟨⟨next, stored.current, call.now⟩, ?_, rfl⟩
    rw [storedCookieSecrets, StoredSecrets.isZero, if_neg]
    simpa using hnext

/-- A secret that was current at `t` is in force at `now`, or its hour is over. -/
def CookieServer.Honours (secret : CookieSecret) (t now : Int) (σ : CookieServer) : Prop :=
  σ.published.current = secret ∨
    (σ.published.previous = secret ∧ σ.published.current ≠ CookieSecret.unset ∧
      ∃ stored, storedCookieSecrets σ.setting = .ok stored ∧ t ≤ stored.rotatedAt) ∨
    t + cookieRotation ≤ now

theorem CookieServer.Honours.rotate {secret : CookieSecret} {t now : Int}
    (h : σ.Honours secret t now) (hstep : σ.InStep) (ht : t ≤ now) (hnow : now ≤ call.now) :
    (σ.rotate call).Honours secret t call.now := by
  rcases σ.rotate_cases call with heq | ⟨stored, next, hstored, hdue, hnext, heq⟩
  · rw [heq]
    rcases h with hcurrent | hprevious | hover
    · exact .inl hcurrent
    · exact .inr (.inl hprevious)
    · exact .inr (.inr (hover.trans hnow))
  · rw [heq]
    obtain ⟨stored', hstored', hpublished⟩ := hstep
    obtain rfl : stored = stored' := Except.ok.inj (hstored.symm.trans hstored')
    rcases h with hcurrent | ⟨-, hcurrent, ⟨stored', hstored', hrotated⟩⟩ | hover
    · -- the secret becomes the predecessor
      refine .inr (.inl ⟨?_, hnext, ⟨next, stored.current, call.now⟩, ?_, ht.trans hnow⟩)
      · rw [← hcurrent, hpublished]
        rfl
      · rw [storedCookieSecrets, StoredSecrets.isZero, if_neg]
        simpa using hnext
    · -- it was the predecessor for an hour already
      obtain rfl : stored = stored' := Except.ok.inj (hstored.symm.trans hstored')
      right; right
      have hset : stored.isZero = false := by
        rw [hpublished, StoredSecrets.published] at hcurrent
        simpa [StoredSecrets.isZero] using hcurrent
      rw [StoredSecrets.due, hset, Bool.false_or, Bool.not_eq_true', decide_eq_false_iff_not] at hdue
      omega
    · exact .inr (.inr (hover.trans hnow))

end Step

section Run

variable {σ : CookieServer} {secret : CookieSecret} {t : Int}

theorem CookieServer.InStep.rotateAll (h : σ.InStep) (calls : List Rotation) :
    (σ.rotateAll calls).InStep := by
  induction calls generalizing σ with
  | nil => exact h
  | cons call rest ih => exact ih h.rotate

theorem CookieServer.Honours.rotateAll {now v : Int} (calls : List Rotation)
    (h : σ.Honours secret t now) (hstep : σ.InStep) (ht : t ≤ now)
    (hclock : (now :: calls.map Rotation.now ++ [v]).Pairwise (· ≤ ·)) :
    (σ.rotateAll calls).Honours secret t v := by
  induction calls generalizing σ now with
  | nil =>
    have hnow : now ≤ v := (pairwise_cons.mp hclock).1 v (by simp)
    rcases h with hcurrent | hprevious | hover
    · exact .inl hcurrent
    · exact .inr (.inl hprevious)
    · exact .inr (.inr (hover.trans hnow))
  | cons call rest ih =>
    have hnow : now ≤ call.now := (pairwise_cons.mp hclock).1 call.now (by simp)
    exact ih (h.rotate hstep ht hnow) hstep.rotate (ht.trans hnow) (pairwise_cons.mp hclock).2

theorem cookieUsable_of_lt {v : Int} (ht : t ≤ v) (hv : v < t + cookieRotation) :
    cookieUsable (cookieNow t) (cookieNow v) = true := by
  have hlow : unix t ≤ unix v := Int.ediv_le_ediv (by decide) ht
  have hhigh : unix v ≤ unix t + 3600 := by
    simp only [unix, cookieRotation] at hv ⊢
    omega
  have hbmod : (unix v - unix t).bmod (2 ^ 32) = unix v - unix t :=
    Int.bmod_eq_of_le (by omega) (by omega)
  rw [cookieUsable_cookieNow, hbmod]
  omega

end Run

section Honoured

variable (keyed : BitVec 64 → BitVec 64 → Octets → BitVec 64) (setting : Option StoredSecrets)
  (stored : StoredSecrets) (earlier later : List Rotation) (t v : Int) (c : ClientCookie)
  (a : Addr) (options : List EDNS0) (r : CookieNote)

/-- A cookie is valid for the hour after it was issued, whatever is rotated in the meantime. -/
theorem issued_cookie_honoured (hstored : storedCookieSecrets setting = .ok stored)
    (hclock : (earlier.map Rotation.now ++ t :: later.map Rotation.now ++ [v]).Pairwise (· ≤ ·))
    (hv : v < t + cookieRotation)
    (hissued : (CookieServer.rotateAll ⟨setting, stored.published⟩ earlier).published.usable = true)
    (hopt : requestCookie options = some (hexText (c.toList ++
      (CookieServer.rotateAll ⟨setting, stored.published⟩ earlier).published.current.serverCookie
        keyed c.toList a (cookieNow t)))) :
    (readCookie keyed (CookieServer.rotateAll ⟨setting, stored.published⟩ (earlier ++ later)).published
      v (some options) a r.begin).2.valid = true := by
  generalize hσ : CookieServer.rotateAll ⟨setting, stored.published⟩ earlier = σ at hissued hopt
  have hrun : CookieServer.rotateAll ⟨setting, stored.published⟩ (earlier ++ later) =
      σ.rotateAll later := by
    rw [← hσ, CookieServer.rotateAll, foldl_append]
    rfl
  rw [hrun]
  have hstep : σ.InStep := by
    rw [← hσ]
    exact CookieServer.InStep.rotateAll ⟨stored, hstored, rfl⟩ earlier
  have hlater : (t :: later.map Rotation.now ++ [v]).Pairwise (· ≤ ·) := by
    rw [append_assoc] at hclock
    exact (pairwise_append.mp hclock).2.1
  have htv : t ≤ v := (pairwise_cons.mp hlater).1 v (by simp)
  have hset : σ.published.current ≠ CookieSecret.unset := bne_iff_ne.mp hissued
  have hhonours : (σ.rotateAll later).Honours σ.published.current t v :=
    CookieServer.Honours.rotateAll later (.inl rfl) hstep le_rfl hlater
  -- the secret it was issued under makes the same hash again
  have hsame : σ.published.current.matches keyed c.toList
      (σ.published.current.serverCookie keyed c.toList a (cookieNow t)) a = true :=
    CookieSecret.matches_serverCookie.mpr rfl
  rw [readCookie_serverCookie hopt, CookieSecrets.knows_iff, CookieSecrets.usable, bne_iff_ne]
  refine ⟨?_, ?_, cookieUsable_of_lt htv hv⟩
  · rcases hhonours with hcurrent | ⟨-, hcurrent, -⟩ | hover
    · rw [hcurrent]
      exact hset
    · exact hcurrent
    · exact absurd hv (Int.not_lt.mpr hover)
  · rcases hhonours with hcurrent | ⟨hprevious, -, -⟩ | hover
    · rw [hcurrent]
      exact .inl hsame
    · rw [hprevious]
      exact .inr ⟨hset, hsame⟩
    · exact absurd hv (Int.not_lt.mpr hover)

/-- A cookie issued just before a rotation, presented after it. -/
theorem issued_cookie_honoured_rotation :
    (readCookie sipHash24
      (CookieServer.rotateAll ⟨none, StoredSecrets.zero.published⟩
        ([⟨0, .ok cookieSecret⟩] ++ [⟨3600000000000, .ok rolledSecret⟩])).published
      7199000000000
      (some [.cookie (hexText (cookieClient.toList ++
        cookieSecret.serverCookie sipHash24 cookieClient.toList cookieAddr
          (cookieNow 3600000000000)))])
      cookieAddr (CookieNote.begin ⟨[], false, false⟩)).2.valid = true :=
  issued_cookie_honoured sipHash24 none StoredSecrets.zero [⟨0, .ok cookieSecret⟩]
    [⟨3600000000000, .ok rolledSecret⟩] 3600000000000 7199000000000 cookieClient
    cookieAddr _ ⟨[], false, false⟩ rfl (by decide +kernel) (by decide +kernel)
    (by decide +kernel) (by decide +kernel)

end Honoured

end DNS

end Wegweiser
