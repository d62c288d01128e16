/-
Tokens minted and withdrawn side by side.

Withdrawing a token asks first whether it is the last one that can administer the server.
-/
import Wegweiser.Access.Session
import Wegweiser.Apply.Performed

namespace Wegweiser

open Checked List Function

def Store.touchToken (s : Store) (id : TokenID) (at_ : Nat) : Store :=
  { s with tokens := s.tokens.map fun t => if t.id = id then { t with lastUsedAt := some at_ } else t }

namespace Access

def hasAdmin (t : Token) : Bool := t.scopes.any fun sc => Scope.ofText sc == .admin

/-- One token of the loop of `checkNotLastAdmin`: the one to withdraw as far as it was met, and
how many others there are. -/
def countAdmin (revoking : TokenID) (now : Nat) (found : Option Token × Nat) (t : Token) :
    Option Token × Nat :=
  let target := if t.id = revoking then some t else found.1
  if decide (t.id = revoking) || !t.active now || !hasAdmin t then (target, found.2)
  else (target, found.2 + 1)

def checkNotLastAdmin (toks : List Token) (revoking : TokenID) (now : Nat) : Except Err Unit :=
  match toks.foldl (countAdmin revoking now) (none, 0) with
  | (none, _) => .error (.notFound "token")
  | (some target, remaining) =>
    if hasAdmin target && target.active now && remaining == 0 then
      .error (.conflict "this is the only token that can still administer the server; mint another one with the admin scope before withdrawing it")
    else .ok ()

/-- A request to the API that mints a token or withdraws one; `judged` is when the handler of
the latter read the clock. -/
inductive TokenRequest where
  | create (t : Token)
  | revoke (id : TokenID) (judged : Nat)

/-- A request with what the applier finds around it and the clock of its write. -/
structure TokenCall where
  request : TokenRequest
  env : Env
  clock : Nat

/-- Where a request is between two of its transactions; one that was planned knows the tokens
its plan has read. -/
inductive TokenPhase where
  | waiting
  | ready (seen : List Token) (b : Batch)
  | accepted
  | refused
deriving DecidableEq

/-- The store, where each request is, and who holds the lock on the tokens. -/
structure TokenServer (ι : Type) where
  store : Store
  phase : ι → TokenPhase
  holder : Option ι

/-- A request has its next transaction, or a token is used. -/
inductive TokenEvent (ι : Type) where
  | call (i : ι)
  | use (id : TokenID) (at_ : Nat)

namespace TokenServer

variable {ι : Type} [DecidableEq ι]

def start (s : Store) : TokenServer ι := ⟨s, fun _ => .waiting, none⟩

def enter (n : TokenServer ι) (i : ι) (p : TokenPhase) : TokenServer ι :=
  { n with phase := update n.phase i p }

def release (n : TokenServer ι) (i : ι) : TokenServer ι :=
  { n with holder := if n.holder = some i then none else n.holder }

/-- The plan of a request: `CreateToken` takes no lock, `RevokeToken` waits for it and keeps
it. -/
def plan (n : TokenServer ι) (i : ι) (env : Env) : TokenRequest → TokenServer ι
  | .create t =>
    match env.planCreateToken t with
    | .ok (b, _) => n.enter i (.ready n.store.tokens b)
    | .error _ => n.enter i .refused
  | .revoke id judged =>
    if n.holder.isSome then n
    else
      match env.planRevokeToken n.store id fun toks => checkNotLastAdmin toks id judged with
      | .ok (b, _) => { n.enter i (.ready n.store.tokens b) with holder := some i }
      | .error _ => n.enter i .refused

def write (n : TokenServer ι) (i : ι) (b : Batch) (clock : Nat) : TokenServer ι :=
  match b.apply clock n.store with
  | .ok s => { (n.enter i .accepted).release i with store := s }
  | .error _ => (n.enter i .refused).release i

def step (calls : ι → TokenCall) (n : TokenServer ι) : TokenEvent ι → TokenServer ι
  | .use id at_ => { n with store := n.store.touchToken id at_ }
  | .call i =>
    match n.phase i with
    | .waiting => n.plan i (calls i).env (calls i).request
    | .ready _ b => n.write i b (calls i).clock
    | .accepted | .refused => n

def run (calls : ι → TokenCall) (n : TokenServer ι) (events : List (TokenEvent ι)) :
    TokenServer ι :=
  events.foldl (step calls) n

end TokenServer

open TokenServer

section Guard

variable {toks : List Token} {id : TokenID} {now : Nat}

def substitutes (id : TokenID) (now : Nat) (t : Token) : Bool :=
  t.id != id && t.active now && hasAdmin t

theorem countAdmin_eq (found : Option Token × Nat) (t : Token) :
    countAdmin id now found t =
      (if t.id = id then some t else found.1, found.2 + if substitutes id now t then 1 else 0) := by
  rw [countAdmin, substitutes]
  by_cases hid : t.id = id
  · simp [hid]
  · cases t.active now <;> cases hasAdmin t <;> simp [hid]

theorem foldl_countAdmin (toks : List Token) (found : Option Token × Nat) :
    toks.foldl (countAdmin id now) found =
      ((toks.reverse.find? fun t => t.id == id).or found.1,
        found.2 + toks.countP (substitutes id now)) := by
  induction toks generalizing found with
  | nil => simp
  | cons t rest ih =>
    rw [foldl_cons, ih, countAdmin_eq, reverse_cons, find?_append, countP_cons]
    refine Prod.ext ?_ (by dsimp only; omega)
    by_cases hid : t.id = id
    · simp [hid]
    · simp [hid]

theorem exists_substitute (hids : (toks.map Token.id).Nodup)
    (hok : checkNotLastAdmin toks id now = .ok ()) {t : Token} (ht : t ∈ toks) (hid : t.id = id)
    (hadmin : hasAdmin t = true) (hactive : t.active now = true) :
    ∃ o ∈ toks, substitutes id now o = true := by
  have hsome : (toks.reverse.find? fun t => t.id == id).isSome := by
    rw [find?_isSome]
    exact ⟨t, mem_reverse.mpr ht, by simp [hid]⟩
  obtain ⟨target, htarget⟩ := Option.isSome_iff_exists.mp hsome
  obtain rfl : target = t := by
    have hmem := mem_reverse.mp (mem_of_find?_eq_some htarget)
    have htid : target.id = id := by simpa using find?_some htarget
    exact inj_on_of_nodup_map hids hmem ht (htid.trans hid.symm)
  rw [checkNotLastAdmin, foldl_countAdmin, htarget] at hok
  simp only [Option.some_or, hadmin, hactive, Bool.and_self, Bool.true_and, Nat.zero_add,
    beq_iff_eq] at hok
  split at hok
  · cases hok
  · next hcount => exact countP_pos_iff.mp (Nat.pos_of_ne_zero hcount)

end Guard

section Rows

variable {s t : Store} {now : Nat} {toks toks' toks'' : List Token}

def standing (t : Token) : TokenID × List String × Option Nat × Option Nat :=
  (t.id, t.scopes, t.expiresAt, t.revokedAt)

variable {id : TokenID} {o : Token} {f : Token → Token} {top : TokenOp}

theorem substitutes_of_standing {o' : Token} (h : standing o' = standing o) :
    substitutes id now o' = substitutes id now o := by
  simp only [standing, Prod.mk.injEq] at h
  simp only [substitutes, Token.active, hasAdmin, h]

def Stand (toks toks' : List Token) : Prop := ∀ o ∈ toks, ∃ o' ∈ toks', standing o' = standing o

theorem Stand.trans (h : Stand toks toks') (h' : Stand toks' toks'') : Stand toks toks'' := by
  intro o ho
  obtain ⟨o', ho', heq⟩ := h o ho
  obtain ⟨o'', ho'', heq'⟩ := h' o' ho'
  exact ⟨o'', ho'', heq'.trans heq⟩

theorem Stand.refl (toks : List Token) : Stand toks toks := fun o ho => ⟨o, ho, rfl⟩

theorem stand_map (hf : ∀ o, standing (f o) = standing o) : Stand toks (toks.map f) :=
  fun o ho => ⟨f o, mem_map_of_mem ho, hf o⟩

theorem stand_touchToken (s : Store) (id : TokenID) (at_ : Nat) :
    Stand s.tokens (s.touchToken id at_).tokens := by
  refine stand_map fun o => ?_
  split <;> rfl

theorem stand_createToken {k : Token} (hok : s.createToken now k = .ok t) :
    Stand s.tokens t.tokens := by
  obtain ⟨-, rfl⟩ := Store.createToken_eq_ok.mp hok
  exact fun o ho => ⟨o, mem_append_left _ ho, rfl⟩

theorem mem_of_revokeToken {at_ : Nat} (hok : s.revokeToken id at_ = .ok t) (ho : o ∈ s.tokens)
    (hid : o.id ≠ id) : o ∈ t.tokens := by
  obtain ⟨-, rfl⟩ := Store.revokeToken_eq_ok.mp hok
  refine mem_map.mpr ⟨o, ho, ?_⟩
  simp [hid]

theorem nodup_map_ids (hf : ∀ o, (f o).id = o.id)
    (h : (toks.map Token.id).Nodup) : ((toks.map f).map Token.id).Nodup := by
  rw [map_map, show Token.id ∘ f = Token.id from funext hf]
  exact h

theorem nodup_writeToken (h : (s.tokens.map Token.id).Nodup)
    (hok : Batch.writeToken now s top = .ok t) : (t.tokens.map Token.id).Nodup := by
  cases top with
  | create k =>
    obtain ⟨hfits, rfl⟩ := Store.createToken_eq_ok.mp hok
    exact Links.nodup_concat h hfits.id_new
  | revoke id at_ =>
    obtain ⟨-, rfl⟩ := Store.revokeToken_eq_ok.mp hok
    refine nodup_map_ids (fun o => ?_) h
    split <;> rfl

theorem apply_token (hok : ({ Batch.blank with tokens := [top] } : Batch).apply now s = .ok t) :
    t = s ∨ Batch.writeToken now s top = .ok t := by
  refine (Batch.apply_eq_ok hok).imp_right fun hwrite => ?_
  obtain ⟨s₁, s₂, s₃, s₄, s₅, s₆, h₁, h₂, h₃, h₄, h₅, h₆, h₇⟩ := Batch.write_eq_ok.mp hwrite
  obtain ⟨mid, hmid, hrest⟩ := foldlM_cons_eq_ok.mp h₃
  cases h₁
  cases h₂
  cases hrest
  cases h₄
  cases h₅
  cases h₆
  cases h₇
  exact hmid

end Rows

section Runs

variable {ι : Type} {calls : ι → TokenCall} {n n' : TokenServer ι} {i : ι} {seen : List Token}
  {b : Batch} {r : TokenRequest}

/-- What is true of a request between its plan and its write: one that withdraws a token holds
the lock, and every token its guard has seen stands. -/
def Planned (n : TokenServer ι) (i : ι) (seen : List Token) (b : Batch) : TokenRequest → Prop
  | .create _ => ∃ k, b = { Batch.blank with tokens := [.create k] }
  | .revoke id judged =>
    (∃ at_, b = { Batch.blank with tokens := [.revoke id at_] }) ∧ n.holder = some i ∧
      (seen.map Token.id).Nodup ∧ checkNotLastAdmin seen id judged = .ok () ∧
      Stand seen n.store.tokens

structure Guarded (calls : ι → TokenCall) (n : TokenServer ι) : Prop where
  ids : (n.store.tokens.map Token.id).Nodup
  planned : ∀ i seen b, n.phase i = .ready seen b → Planned n i seen b (calls i).request

theorem Planned.of_free (h : Planned n i seen b r) (hfree : n.holder ≠ some i) :
    Planned n' i seen b r := by
  cases r with
  | create k => exact h
  | revoke id judged => exact absurd h.2.1 hfree

theorem Planned.mono (h : Planned n i seen b r) (hholder : n'.holder = n.holder)
    (hstand : Stand n.store.tokens n'.store.tokens) : Planned n' i seen b r := by
  cases r with
  | create k => exact h
  | revoke id judged =>
    obtain ⟨hb, hheld, hids, hok, hseen⟩ := h
    exact ⟨hb, hholder.trans hheld, hids, hok, hseen.trans hstand⟩

variable {s : Store} {p : TokenPhase}

theorem Planned.apply {clock : Nat} (h : Planned n i seen b r)
    (hids : (n.store.tokens.map Token.id).Nodup) (hok : b.apply clock n.store = .ok s) :
    (s.tokens.map Token.id).Nodup ∧ (n.holder ≠ some i → Stand n.store.tokens s.tokens) := by
  cases r with
  | create k =>
    obtain ⟨k', rfl⟩ := h
    rcases apply_token hok with rfl | hwrite
    · exact ⟨hids, fun _ => Stand.refl _⟩
    · exact ⟨nodup_writeToken hids hwrite, fun _ => stand_createToken hwrite⟩
  | revoke id judged =>
    obtain ⟨⟨at_, rfl⟩, hheld, -⟩ := h
    refine ⟨?_, fun hfree => absurd hheld hfree⟩
    rcases apply_token hok with rfl | hwrite
    · exact hids
    · exact nodup_writeToken hids hwrite

variable [DecidableEq ι]

theorem Guarded.enter (h : Guarded calls n)
    (hp : ∀ seen b, p = .ready seen b → Planned n i seen b (calls i).request) :
    Guarded calls (n.enter i p) := by
  refine ⟨h.ids, fun j seen b hj => ?_⟩
  by_cases hji : j = i
  · subst hji
    simp only [enter, update_self] at hj
    exact (hp seen b hj).mono rfl (Stand.refl _)
  · simp only [TokenServer.enter, update_of_ne hji] at hj
    exact (h.planned j seen b hj).mono rfl (Stand.refl _)

theorem Guarded.plan (h : Guarded calls n) (i : ι) :
    Guarded calls (n.plan i (calls i).env (calls i).request) := by
  cases hr : (calls i).request with
  | create k =>
    refine h.enter fun seen b hp => ?_
    cases hp
    rw [hr]
    exact ⟨_, rfl⟩
  | revoke id judged =>
    rw [TokenServer.plan]
    split
    · exact h
    · next hfree =>
      have hnone : n.holder = none := by simpa using hfree
      split
      · next hplan =>
        simp only [Env.planRevokeToken, bind_eq_ok, pure_eq_ok, Prod.mk.injEq] at hplan
        obtain ⟨-, -, ⟨⟩, hok, rfl, -⟩ := hplan
        refine ⟨h.ids, fun j seen b hj => ?_⟩
        by_cases hji : j = i
        · subst hji
          simp only [TokenServer.enter, update_self, TokenPhase.ready.injEq] at hj
          obtain ⟨rfl, rfl⟩ := hj
          rw [hr]
          exact ⟨⟨_, rfl⟩, rfl, h.ids, hok, Stand.refl _⟩
        · simp only [TokenServer.enter, update_of_ne hji] at hj
          -- nobody held the lock, so whoever else was planned mints a token
          exact (h.planned j seen b hj).of_free (by simp [hnone])
      · exact h.enter fun _ _ hp => by cases hp

theorem Guarded.release (h : Guarded calls n)
    (hp : ∀ seen b, p ≠ .ready seen b) (hids : (s.tokens.map Token.id).Nodup)
    (hstand : n.holder ≠ some i → Stand n.store.tokens s.tokens) :
    Guarded calls { (n.enter i p).release i with store := s } := by
  refine ⟨hids, fun j seen b hj => ?_⟩
  have hji : j ≠ i := by
    rintro rfl
    simp only [TokenServer.release, TokenServer.enter, update_self] at hj
    exact hp seen b hj
  simp only [TokenServer.release, TokenServer.enter, update_of_ne hji] at hj
  have hplanned := h.planned j seen b hj
  by_cases hheld : n.holder = some j
  · have hother : n.holder ≠ some i := by
      rw [hheld]
      simpa using hji
    refine hplanned.mono ?_ (hstand hother)
    simp [TokenServer.release, TokenServer.enter, hother]
  · exact hplanned.of_free hheld

theorem Guarded.step (h : Guarded calls n) (e : TokenEvent ι) : Guarded calls (n.step calls e) := by
  cases e with
  | use id at_ =>
    have hids : ((n.store.touchToken id at_).tokens.map Token.id).Nodup := by
      refine nodup_map_ids (fun o => ?_) h.ids
      split <;> rfl
    exact ⟨hids, fun j seen b hj =>
      (h.planned j seen b hj).mono rfl (stand_touchToken n.store id at_)⟩
  | call i =>
    rw [TokenServer.step]
    split
    · exact h.plan i
    · next seen b hi =>
      rw [write]
      split
      · next s hok =>
        have hkept := (h.planned i seen b hi).apply h.ids hok
        exact h.release (by simp) hkept.1 hkept.2
      · exact h.release (by simp) h.ids fun _ => Stand.refl _
    · exact h
    · exact h

theorem Guarded.run (h : Guarded calls n) (events : List (TokenEvent ι)) :
    Guarded calls (n.run calls events) := by
  induction events generalizing n with
  | nil => exact h
  | cons e rest ih => exact ih (h.step e)

/-- However requests that mint tokens and requests that withdraw them are interleaved, and
whatever tokens are used meanwhile: when the withdrawal of an administrator's token is accepted,
another one is in the store that was neither withdrawn nor expired at the time it was judged
by. -/
theorem admin_remains (calls : ι → TokenCall) (s : Store) (hs : (s.tokens.map Token.id).Nodup)
    (events : List (TokenEvent ι)) (i : ι) {id : TokenID} {judged : Nat} {seen : List Token}
    {b : Batch} {t : Token} (hcall : (calls i).request = .revoke id judged)
    (hready : ((start s).run calls events).phase i = .ready seen b)
    (ht : t ∈ seen) (hid : t.id = id) (hadmin : hasAdmin t = true)
    (hactive : t.active judged = true)
    (haccepted : (((start s).run calls events).step calls (.call i)).phase i =
      .accepted) :
    ∃ o ∈ (((start s).run calls events).step calls (.call i)).store.tokens,
      o.id ≠ id ∧ hasAdmin o = true ∧ o.active judged = true := by
  have hstart : Guarded calls (start s : TokenServer ι) :=
    ⟨hs, fun _ _ _ hj => nomatch hj⟩
  have hrun := hstart.run events
  generalize (start s).run calls events = n at hrun hready haccepted ⊢
  have hplanned := hrun.planned i seen b hready
  rw [hcall] at hplanned
  obtain ⟨⟨at_, rfl⟩, -, hids, hok, hseen⟩ := hplanned
  obtain ⟨o, ho, hsub⟩ := exists_substitute hids hok ht hid hadmin hactive
  obtain ⟨o', ho', hstanding⟩ := hseen o ho
  rw [← substitutes_of_standing hstanding, substitutes] at hsub
  simp only [Bool.and_eq_true, bne_iff_ne, ne_eq] at hsub
  refine ⟨o', ?_, hsub.1.1, hsub.2, hsub.1.2⟩
  simp only [step, hready, write] at haccepted ⊢
  split at haccepted
  · next u hu =>
    rcases apply_token hu with rfl | hwrite
    · exact ho'
    · exact mem_of_revokeToken hwrite ho' hsub.1.1
  · simp [TokenServer.release, TokenServer.enter] at haccepted

namespace Sample

def adminToken (n : Nat) : Token :=
  { id := .ulid n, name := "ops", display := "wgw", hash := List.replicate 32 (UInt8.ofNat n),
    scopes := ["admin"], createdAt := 1, lastUsedAt := none, expiresAt := none, revokedAt := none }

def tokenCalls : Fin 3 → TokenCall
  | 0 => ⟨.revoke (.ulid 1) 5, Wegweiser.Sample.envAt 10, 6⟩
  | 1 => ⟨.revoke (.ulid 2) 5, Wegweiser.Sample.envAt 20, 6⟩
  | 2 => ⟨.create (adminToken 3), Wegweiser.Sample.envAt 30, 6⟩

def tokenStore : Store := { Wegweiser.Sample.store [] [] with tokens := [adminToken 1, adminToken 2] }

def tokenEvents : List (TokenEvent (Fin 3)) :=
  [.call (.last 2), .call ⟨0, by decide⟩, .use (.ulid 2) 4, .call ⟨1, by decide⟩, .call (.last 2)]

end Sample

open Access.Sample

theorem admin_remains_interleaved :
    ∃ o ∈ (((start tokenStore).run tokenCalls tokenEvents).step
        tokenCalls (.call 0)).store.tokens,
      o.id ≠ .ulid 1 ∧ hasAdmin o = true ∧ o.active 5 = true := by
  have hready : ((start tokenStore).run tokenCalls
      tokenEvents).phase 0 = .ready [adminToken 1, adminToken 2]
        { Batch.blank with tokens := [.revoke (.ulid 1) 1] } := by
    decide +kernel
  exact admin_remains tokenCalls tokenStore (by decide +kernel) tokenEvents 0
    rfl hready (mem_cons_self ..) rfl (by decide +kernel) (by decide +kernel)
    (by decide +kernel)

end Runs

end Access

end Wegweiser
