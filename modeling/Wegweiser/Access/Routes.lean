/-
Requests to the API: who may reach which handler.

The authenticator goes by texts the whole path begins or ends with, and the router by the method
and the segments of the path.
-/
import Wegweiser.Access.Session

namespace Wegweiser.Access

open List

/-- A method. -/
inductive Method where
  | get | head | options | post | put | patch | delete
  | other (name : String)
deriving DecidableEq

/-- The operations of `ServerInterface`. -/
inductive Handler where
  | getHealth | getMetrics | streamQueries | listZones | createZone | deleteZone | getZone
  | updateZone | listRecords | createRecord | importZone | exportZone | checkZone | reconcileZone
  | rollbackZone | replaceRRsets | deleteRecord | getRecord | updateRecord | detachRecord
  | makeRecordCanonical | deleteSession | getSession | createSession | listSignInProviders
  | createDirectorySession | startOIDCSignIn | finishOIDCSignIn | getSettings | updateSettings
  | listTokens | createToken | revokeToken | listTSIGKeys | createTSIGKey | revokeTSIGKey
  | readTSIGKeySecret | listIdentityProviders | createIdentityProvider | deleteIdentityProvider
  | getIdentityProvider | updateIdentityProvider | endIdentityProviderSessions | tryOIDCSignIn
  | checkIdentityProvider | getSecondaryConfig | getSecondaryStatus | ask | getCluster
  | initCluster | removeClusterMember | listCommits | getCommit
deriving DecidableEq

/-- One segment of a pattern. -/
inductive Segment where
  | literal (text : List Char)
  | param
deriving DecidableEq

def lit (text : String) : Segment := .literal text.toList

def Segment.takes : Segment → List Char → Bool
  | literal text, seg => text == seg
  | param, seg => !seg.isEmpty

def takesAll : List Segment → List (List Char) → Bool
  | [], [] => true
  | p :: pattern, seg :: segs => p.takes seg && takesAll pattern segs
  | _, _ => false

structure Route where
  method : Method
  pattern : List Segment
  handler : Handler
deriving DecidableEq

/-- The routes `HandlerWithOptions` registers, below the base path. -/
def routes : List Route :=
  [⟨.get, [lit "healthz"], .getHealth⟩,
    ⟨.get, [lit "metrics"], .getMetrics⟩,
    ⟨.get, [lit "queries", lit "stream"], .streamQueries⟩,
    ⟨.get, [lit "zones"], .listZones⟩,
    ⟨.post, [lit "zones"], .createZone⟩,
    ⟨.delete, [lit "zones", .param], .deleteZone⟩,
    ⟨.get, [lit "zones", .param], .getZone⟩,
    ⟨.patch, [lit "zones", .param], .updateZone⟩,
    ⟨.get, [lit "zones", .param, lit "records"], .listRecords⟩,
    ⟨.post, [lit "zones", .param, lit "records"], .createRecord⟩,
    ⟨.post, [lit "zones", lit "import"], .importZone⟩,
    ⟨.get, [lit "zones", .param, lit "export"], .exportZone⟩,
    ⟨.get, [lit "zones", .param, lit "check"], .checkZone⟩,
    ⟨.post, [lit "zones", .param, lit "reconcile"], .reconcileZone⟩,
    ⟨.post, [lit "zones", .param, lit "rollback"], .rollbackZone⟩,
    ⟨.put, [lit "zones", .param, lit "rrsets"], .replaceRRsets⟩,
    ⟨.delete, [lit "records", .param], .deleteRecord⟩,
    ⟨.get, [lit "records", .param], .getRecord⟩,
    ⟨.patch, [lit "records", .param], .updateRecord⟩,
    ⟨.post, [lit "records", .param, lit "detach"], .detachRecord⟩,
    ⟨.post, [lit "records", .param, lit "canonical"], .makeRecordCanonical⟩,
    ⟨.delete, [lit "auth", lit "session"], .deleteSession⟩,
    ⟨.get, [lit "auth", lit "session"], .getSession⟩,
    ⟨.post, [lit "auth", lit "session"], .createSession⟩,
    ⟨.get, [lit "auth", lit "providers"], .listSignInProviders⟩,
    ⟨.post, [lit "auth", lit "ldap", .param], .createDirectorySession⟩,
    ⟨.get, [lit "auth", lit "oidc", .param, lit "start"], .startOIDCSignIn⟩,
    ⟨.get, [lit "auth", lit "oidc", lit "callback"], .finishOIDCSignIn⟩,
    ⟨.get, [lit "settings"], .getSettings⟩,
    ⟨.patch, [lit "settings"], .updateSettings⟩,
    ⟨.get, [lit "tokens"], .listTokens⟩,
    ⟨.post, [lit "tokens"], .createToken⟩,
    ⟨.delete, [lit "tokens", .param], .revokeToken⟩,
    ⟨.get, [lit "tsig-keys"], .listTSIGKeys⟩,
    ⟨.post, [lit "tsig-keys"], .createTSIGKey⟩,
    ⟨.delete, [lit "tsig-keys", .param], .revokeTSIGKey⟩,
    ⟨.get, [lit "tsig-keys", .param, lit "secret"], .readTSIGKeySecret⟩,
    ⟨.get, [lit "identity-providers"], .listIdentityProviders⟩,
    ⟨.post, [lit "identity-providers"], .createIdentityProvider⟩,
    ⟨.delete, [lit "identity-providers", .param], .deleteIdentityProvider⟩,
    ⟨.get, [lit "identity-providers", .param], .getIdentityProvider⟩,
    ⟨.put, [lit "identity-providers", .param], .updateIdentityProvider⟩,
    ⟨.post, [lit "identity-providers", .param, lit "end-sessions"], .endIdentityProviderSessions⟩,
    ⟨.post, [lit "identity-providers", .param, lit "try-sign-in"], .tryOIDCSignIn⟩,
    ⟨.post, [lit "identity-providers", lit "check"], .checkIdentityProvider⟩,
    ⟨.get, [lit "secondary-config"], .getSecondaryConfig⟩,
    ⟨.get, [lit "secondary-status"], .getSecondaryStatus⟩,
    ⟨.get, [lit "ask"], .ask⟩,
    ⟨.get, [lit "cluster"], .getCluster⟩,
    ⟨.post, [lit "cluster", lit "init"], .initCluster⟩,
    ⟨.delete, [lit "cluster", lit "members", .param], .removeClusterMember⟩,
    ⟨.get, [lit "commits"], .listCommits⟩,
    ⟨.get, [lit "commits", .param], .getCommit⟩]

def routed (m : Method) (segs : List (List Char)) : Option Handler :=
  (routes.find? fun ρ => ρ.method == m && takesAll ρ.pattern segs).map Route.handler

def Segment.meets : Segment → Segment → Bool
  | literal a, literal b => a == b
  | literal a, param | param, literal a => !a.isEmpty
  | param, param => true

def meetAll : List Segment → List Segment → Bool
  | [], [] => true
  | p :: ps, q :: qs => p.meets q && meetAll ps qs
  | _, _ => false

theorem Segment.meets_of_takes {p q : Segment} {seg : List Char} (hp : p.takes seg = true)
    (hq : q.takes seg = true) : p.meets q = true := by
  cases p with
  | literal a =>
    obtain rfl := beq_iff_eq.mp hp
    cases q with
    | literal b => exact beq_iff_eq.mpr (beq_iff_eq.mp hq).symm
    | param => exact hq
  | param =>
    cases q with
    | literal b =>
      obtain rfl := beq_iff_eq.mp hq
      exact hp
    | param => rfl

variable {segs : List (List Char)}

theorem meetAll_of_takesAll {ps qs : List Segment}
    (hp : takesAll ps segs = true) (hq : takesAll qs segs = true) : meetAll ps qs = true := by
  induction ps generalizing qs segs with
  | nil =>
    cases segs with
    | nil =>
      cases qs with
      | nil => rfl
      | cons q qs => cases hq
    | cons seg segs => cases hp
  | cons p ps ih =>
    cases segs with
    | nil => cases hp
    | cons seg segs =>
      cases qs with
      | nil => cases hq
      | cons q qs =>
        rw [takesAll, Bool.and_eq_true] at hp hq
        rw [meetAll, Bool.and_eq_true]
        exact ⟨Segment.meets_of_takes hp.1 hq.1, ih hp.2 hq.2⟩

theorem routes_apart : ∀ ρ ∈ routes, ∀ σ ∈ routes, ρ.method = σ.method →
    meetAll ρ.pattern σ.pattern = true → ρ.handler = σ.handler := by
  decide +kernel

theorem routed_eq_some {m : Method} {h : Handler} :
    routed m segs = some h ↔
      ∃ ρ ∈ routes, ρ.method = m ∧ takesAll ρ.pattern segs = true ∧ ρ.handler = h := by
  rw [routed, Option.map_eq_some_iff]
  constructor
  · rintro ⟨ρ, hfind, hhandler⟩
    have htakes := find?_some hfind
    rw [Bool.and_eq_true, beq_iff_eq] at htakes
    exact ⟨ρ, mem_of_find?_eq_some hfind, htakes.1, htakes.2, hhandler⟩
  · rintro ⟨ρ, hρ, rfl, htakes, rfl⟩
    have hsome : (routes.find? fun σ => σ.method == ρ.method && takesAll σ.pattern segs).isSome :=
      find?_isSome.mpr ⟨ρ, hρ, by simp [htakes]⟩
    obtain ⟨σ, hσ⟩ := Option.isSome_iff_exists.mp hsome
    have hσtakes := find?_some hσ
    rw [Bool.and_eq_true, beq_iff_eq] at hσtakes
    exact ⟨σ, hσ, routes_apart σ (mem_of_find?_eq_some hσ) ρ hρ hσtakes.1
      (meetAll_of_takesAll hσtakes.2 htakes)⟩

def Handler.signsIn : Handler → Bool
  | getHealth | createSession | listSignInProviders | startOIDCSignIn | finishOIDCSignIn
  | createDirectorySession => true
  | _ => false

def Handler.ownSession : Handler → Bool
  | getSession | deleteSession => true
  | _ => false

def basePath : List Char := "/api/v1".toList
def healthPath : List Char := "/healthz".toList
def sessionPath : List Char := "/auth/session".toList
def signInProvidersPath : List Char := "/auth/providers".toList
def oidcPath : List Char := "/auth/oidc".toList
def ldapPath : List Char := "/auth/ldap".toList

def joined (segs : List (List Char)) : List Char := segs.flatMap fun seg => '/' :: seg

/-- What is read of a request: the path below the base path, the headers, and the session
cookie.  A cookie nobody sealed is one under the zero key. -/
structure Request where
  method : Method
  segments : List (List Char)
  authorization : String
  cookie : Option Sealed
  csrf : String
  mediaType : Option String
deriving DecidableEq

/-- `URL.Path` -/
def urlPath (segs : List (List Char)) : List Char := basePath ++ joined segs

def unauthenticated (m : Method) (segs : List (List Char)) : Bool :=
  let path := urlPath segs
  healthPath.isSuffixOf path ||
    (m == .post && sessionPath.isSuffixOf path) ||
    (m == .get && path == basePath ++ signInProvidersPath) ||
    (m == .get && (basePath ++ oidcPath ++ ['/']).isPrefixOf path) ||
    (m == .post && (basePath ++ ldapPath ++ ['/']).isPrefixOf path)

def scopeFor : Method → Scope
  | .get | .head | .options => .read
  | _ => .write

def scopeNeeded (m : Method) (segs : List (List Char)) : Scope :=
  if sessionPath.isSuffixOf (urlPath segs) then .read else scopeFor m

def changesState : Method → Bool
  | .get | .head | .options => false
  | _ => true

/-- `bearer`, of the `Authorization` header. -/
def bearer (header : String) : Option String :=
  let h := header.toList
  if h.length ≤ 7 || (h.take 7).map Char.toLower != "bearer ".toList then none
  else some (trimSpace (.ofList (h.drop 7)))

namespace Request

/-- `sentJSON`, where the media type is what `mime.ParseMediaType` reads. -/
def sentJSON (r : Request) : Bool := r.mediaType == some "application/json"

def presented (r : Request) : Bool := (bearer r.authorization).isSome || r.cookie.isSome

end Request

/-- Why a request reaches no handler. -/
inductive Problem where
  | unsupportedMediaType
  | unauthorized
  | tooManyAttempts
  | csrf
  | notAllowed (need : Scope)
  | noRoute
deriving DecidableEq

/-- The hashes and the folding the server uses: the hash of a token's secret, `endedID`,
and `csrfFor`. -/
structure Primitives where
  sha256 : String → Octets
  endedID : String → String
  csrfFor : SessionKey → String → String
  fold : Char → Char

/-- What a request meets: the store, the clock, and whether the limiter lets it try. -/
structure World where
  held : Held
  now : Nat
  allowed : Bool
deriving DecidableEq

namespace World

variable (prim : Primitives)

def authenticate (w : World) (secret : String) : Except Problem Subject :=
  match w.held.tokens.find? fun t => t.hash == prim.sha256 secret with
  | none => .error .unauthorized
  | some t =>
    match tokenSubject w.now t with
    | .ok sub => .ok sub
    | .error _ => .error .unauthorized

def checkCSRF (r : Request) (c : Sealed) : Bool :=
  r.csrf != "" && r.csrf == prim.csrfFor c.key c.session.id

def credential (w : World) (r : Request) : Except Problem Subject :=
  match bearer r.authorization with
  | some secret => w.authenticate prim secret
  | none =>
    match r.cookie with
    | none => .error .unauthorized
    | some c =>
      match w.held.openedSession prim.endedID prim.fold w.now c with
      | .error _ => .error .unauthorized
      | .ok (_, sub) =>
        if changesState r.method && !checkCSRF prim r c then .error .csrf else .ok sub

/-- `Server.authenticator`, in front of the router. -/
def authenticator (w : World) (r : Request) : Except Problem Unit :=
  if unauthenticated r.method r.segments then
    if r.method = .post ∧ r.sentJSON = false then .error .unsupportedMediaType else .ok ()
  else if r.presented = false then .error .unauthorized
  else if w.allowed = false then .error .tooManyAttempts
  else do
    let sub ← w.credential prim r
    if sub.allows (scopeNeeded r.method r.segments) then .ok ()
    else .error (.notAllowed (scopeNeeded r.method r.segments))

def serve (w : World) (r : Request) : Except Problem Handler := do
  w.authenticator prim r
  match routed r.method r.segments with
  | some h => .ok h
  | none => .error .noRoute

end World

section Paths

variable {u v w : List Char} {segs : List (List Char)}

theorem eq_of_slash_suffix {front : List Char} (hu : '/' ∉ u) (hw : '/' ∉ w)
    (h : '/' :: u <:+ front ++ '/' :: w) : u = w := by
  have hend : '/' :: w <:+ front ++ '/' :: w := suffix_append ..
  rcases suffix_or_suffix_of_suffix h hend with huw | hwu
  · rcases suffix_cons_iff.mp huw with heq | hin
    · exact (cons.inj heq).2
    · exact absurd (hin.subset mem_cons_self) hw
  · rcases suffix_cons_iff.mp hwu with heq | hin
    · exact (cons.inj heq).2.symm
    · exact absurd (hin.subset mem_cons_self) hu

theorem takeWhile_slash (hw : '/' ∉ w) (rest : List Char)
    (hrest : rest = [] ∨ ∃ more, rest = '/' :: more) : (w ++ rest).takeWhile (· != '/') = w := by
  rw [takeWhile_append_of_pos (by
    intro c hc
    rw [bne_iff_ne]
    rintro rfl
    exact hw hc)]
  rcases hrest with rfl | ⟨more, rfl⟩
  · simp
  · simp

theorem joined_cases (segs : List (List Char)) :
    joined segs = [] ∨ ∃ more, joined segs = '/' :: more := by
  cases segs with
  | nil => exact .inl rfl
  | cons seg rest => exact .inr ⟨seg ++ joined rest, rfl⟩

theorem eq_of_slash_prefix (hu : '/' ∉ u) (hw : '/' ∉ w)
    (h : '/' :: (u ++ '/' :: v) <+: joined (w :: segs)) : u = w := by
  obtain ⟨t, ht⟩ := h
  have htail : u ++ ('/' :: v ++ t) = w ++ joined segs := by
    rw [← append_assoc]
    exact (cons.inj ht).2
  calc u = (u ++ ('/' :: v ++ t)).takeWhile (· != '/') :=
        (takeWhile_slash hu _ (.inr ⟨v ++ t, rfl⟩)).symm
    _ = (w ++ joined segs).takeWhile (· != '/') := by rw [htail]
    _ = w := takeWhile_slash hw _ (joined_cases segs)

theorem joined_of_getLast {pattern : List Segment} (hlast : pattern.getLast? = some (.literal w))
    (h : takesAll pattern segs = true) : ∃ front, joined segs = front ++ '/' :: w := by
  induction pattern generalizing segs with
  | nil => cases hlast
  | cons p rest ih =>
    cases segs with
    | nil => cases h
    | cons seg segs =>
      rw [takesAll, Bool.and_eq_true] at h
      cases rest with
      | nil =>
        cases segs with
        | nil =>
          cases hlast
          obtain rfl := beq_iff_eq.mp h.1
          exact ⟨[], by simp [joined]⟩
        | cons seg' segs => cases h.2
      | cons q rest =>
        obtain ⟨front, hfront⟩ := ih (by simpa using hlast) h.2
        refine ⟨'/' :: seg ++ front, ?_⟩
        rw [append_assoc, ← hfront]
        rfl

end Paths

section Exemptions

variable {m : Method} {segs : List (List Char)} {h : Handler}

def Route.endsElsewhere (ρ : Route) : Bool :=
  match ρ.pattern.getLast? with
  | some (.literal w) => !w.contains '/' && w != "session".toList
  | _ => false

/-- What a route begins with.  Below `auth` there are the ways to sign in, and the caller's
own session. -/
def Route.beginsElsewhere (ρ : Route) : Bool :=
  match ρ.pattern with
  | .literal w :: rest =>
    !w.contains '/' &&
      (w != "auth".toList || (rest == [lit "session"] && (ρ.method == .get || ρ.method == .delete)))
  | _ => false

theorem routes_end_elsewhere : ∀ ρ ∈ routes, ρ.method = .post →
    ρ.handler.signsIn = true ∨ ρ.endsElsewhere = true := by
  decide +kernel

theorem routes_begin_elsewhere : ∀ ρ ∈ routes,
    ρ.handler.signsIn = true ∨ ρ.beginsElsewhere = true := by
  decide +kernel

theorem signsIn_of_session_suffix (hrouted : routed .post segs = some h)
    (hsuffix : sessionPath <:+ urlPath segs) : h.signsIn = true := by
  obtain ⟨ρ, hρ, hpost, htakes, rfl⟩ := routed_eq_some.mp hrouted
  rcases routes_end_elsewhere ρ hρ hpost with hsigns | hends
  · exact hsigns
  · rw [Route.endsElsewhere] at hends
    split at hends
    · rename_i w hlast
      rw [Bool.and_eq_true, Bool.not_eq_true', bne_iff_ne] at hends
      obtain ⟨front, hfront⟩ := joined_of_getLast hlast htakes
      have hend : '/' :: "session".toList <:+ basePath ++ front ++ '/' :: w := by
        rw [append_assoc, ← hfront]
        exact List.IsSuffix.trans ⟨"/auth".toList, rfl⟩ hsuffix
      exact absurd (eq_of_slash_suffix (by decide) (by simpa using hends.1) hend).symm hends.2
    · cases hends

theorem signsIn_of_auth_prefix {v : List Char} (hrouted : routed m segs = some h)
    (hfront : basePath ++ '/' :: ("auth".toList ++ '/' :: v) <+: urlPath segs) :
    h.signsIn = true ∨
      (m = .get ∨ m = .delete) ∧ urlPath segs = basePath ++ sessionPath := by
  obtain ⟨ρ, hρ, rfl, htakes, rfl⟩ := routed_eq_some.mp hrouted
  rcases routes_begin_elsewhere ρ hρ with hsigns | hbegins
  · exact .inl hsigns
  · rw [Route.beginsElsewhere] at hbegins
    split at hbegins
    · rename_i w rest hpattern
      rw [Bool.and_eq_true, Bool.not_eq_true', Bool.or_eq_true, bne_iff_ne] at hbegins
      rw [hpattern] at htakes
      cases segs with
      | nil => cases htakes
      | cons seg segs =>
        rw [takesAll, Bool.and_eq_true] at htakes
        obtain rfl := beq_iff_eq.mp htakes.1
        have hauth := eq_of_slash_prefix (by decide) (by simpa using hbegins.1)
          (prefix_append_right_inj basePath |>.mp hfront)
        rcases hbegins.2 with hne | hown
        · exact absurd hauth.symm hne
        · rw [Bool.and_eq_true, beq_iff_eq, Bool.or_eq_true, beq_iff_eq, beq_iff_eq] at hown
          refine .inr ⟨hown.2, ?_⟩
          rw [hown.1] at htakes
          cases segs with
          | nil => cases htakes.2
          | cons seg segs =>
            cases segs with
            | nil =>
              rw [takesAll, Bool.and_eq_true] at htakes
              obtain rfl := beq_iff_eq.mp htakes.2.1
              rw [urlPath, ← hauth]
              rfl
            | cons _ _ =>
              rw [takesAll, Bool.and_eq_true] at htakes
              cases htakes.2.2
    · cases hbegins

theorem signsIn_of_unauthenticated (hrouted : routed m segs = some h)
    (hopen : unauthenticated m segs = true) (hhealth : ¬ healthPath <:+ urlPath segs) :
    h.signsIn = true := by
  simp only [unauthenticated, Bool.or_eq_true, Bool.and_eq_true, beq_iff_eq,
    isSuffixOf_iff_suffix, isPrefixOf_iff_prefix] at hopen
  rcases hopen with (((hend | ⟨rfl, hsession⟩) | ⟨rfl, hproviders⟩) | ⟨rfl, hoidc⟩) | ⟨rfl, hldap⟩
  · exact absurd hend hhealth
  · exact signsIn_of_session_suffix hrouted hsession
  · have hauth : basePath ++ '/' :: ("auth".toList ++ '/' :: "providers".toList) <+: urlPath segs := by
      rw [hproviders]
      exact prefix_rfl
    rcases signsIn_of_auth_prefix hrouted hauth with hsigns | ⟨-, hpath⟩
    · exact hsigns
    · rw [hpath] at hproviders
      exact absurd hproviders (by decide)
  · have hauth : basePath ++ '/' :: ("auth".toList ++ '/' :: "oidc/".toList) <+: urlPath segs := hoidc
    rcases signsIn_of_auth_prefix hrouted hauth with hsigns | ⟨-, hpath⟩
    · exact hsigns
    · rw [hpath] at hoidc
      exact absurd hoidc (by decide)
  · have hauth : basePath ++ '/' :: ("auth".toList ++ '/' :: "ldap/".toList) <+: urlPath segs := hldap
    rcases signsIn_of_auth_prefix hrouted hauth with hsigns | ⟨hmethod, -⟩
    · exact hsigns
    · simp at hmethod

end Exemptions

/-- What a caller has to hold for a handler: what the method needs, and to read for the
operations on their own session. -/
def Handler.needs (h : Handler) (m : Method) : Scope :=
  if h.ownSession then .read else scopeFor m

def Sample.primitives : Primitives :=
  ⟨fun secret => secret.toList.map fun c => c.toNat.toUInt8, id, fun _ id => id, Char.toLower⟩

namespace World

variable {prim : Primitives} {w : World} {r : Request}

def Guarded (prim : Primitives) (w : World) (r : Request) : Prop :=
  ∀ h, w.serve prim r = .ok h →
    h.signsIn = true ∨
      ∃ sub, w.credential prim r = .ok sub ∧ sub.allows (h.needs r.method) = true

variable {h : Handler} {sub : Subject} {m : Method} {segs : List (List Char)}

theorem serve_eq_ok :
    w.serve prim r = .ok h ↔
      w.authenticator prim r = .ok () ∧ routed r.method r.segments = some h := by
  rw [serve, Checked.bind_eq_ok]
  cases routed r.method r.segments with
  | none => simp
  | some h' => exact ⟨fun ⟨_, hauth, hh⟩ => ⟨hauth, congrArg some (Except.ok.inj hh)⟩,
      fun ⟨hauth, hh⟩ => ⟨(), hauth, congrArg Except.ok (Option.some.inj hh)⟩⟩

theorem authenticator_eq_ok :
    w.authenticator prim r = .ok () ↔
      (unauthenticated r.method r.segments = true ∧ ¬ (r.method = .post ∧ r.sentJSON = false)) ∨
      (unauthenticated r.method r.segments = false ∧ r.presented = true ∧ w.allowed = true ∧
        ∃ sub, w.credential prim r = .ok sub ∧
          sub.allows (scopeNeeded r.method r.segments) = true) := by
  rw [authenticator]
  by_cases hopen : unauthenticated r.method r.segments = true
  · by_cases hpost : r.method = .post ∧ r.sentJSON = false
    · rw [if_pos hopen, if_pos hpost, hopen]
      simp [hpost]
    · rw [if_pos hopen, if_neg hpost]
      simp [hopen, hpost]
  · rw [Bool.not_eq_true] at hopen
    by_cases hpresented : r.presented = true
    · by_cases hallowed : w.allowed = true
      · simp [hopen, hpresented, hallowed]
      · simp [hopen, hpresented, hallowed]
    · simp [hopen, hpresented]

theorem scopeFor_cases (m : Method) : scopeFor m = .read ∨ scopeFor m = .write := by
  cases m <;> simp [scopeFor]

theorem allows_read (h : sub.allows (scopeFor m) = true) : sub.allows .read = true := by
  rw [Subject.allows, any_eq_true] at h ⊢
  obtain ⟨held, hheld, hrank⟩ := h
  refine ⟨held, hheld, ?_⟩
  rw [decide_eq_true_eq] at hrank ⊢
  refine Nat.le_trans ?_ hrank
  rcases scopeFor_cases m with hm | hm <;> simp [hm, Scope.rank]

theorem allows_needs
    (hsession : sessionPath <:+ urlPath segs → scopeFor m = .read ∨ h.ownSession = true)
    (hallows : sub.allows (scopeNeeded m segs) = true) : sub.allows (h.needs m) = true := by
  rw [scopeNeeded] at hallows
  rw [Handler.needs]
  by_cases hsuffix : sessionPath.isSuffixOf (urlPath segs) = true
  · rw [if_pos hsuffix] at hallows
    by_cases hown : h.ownSession = true
    · rwa [if_pos hown]
    · rw [if_neg hown]
      rcases hsession (isSuffixOf_iff_suffix.mp hsuffix) with hread | hown'
      · rwa [hread]
      · exact absurd hown' hown
  · rw [if_neg hsuffix] at hallows
    by_cases hown : h.ownSession = true
    · rw [if_pos hown]
      exact allows_read hallows
    · rwa [if_neg hown]

def bare (m : Method) (segs : List (List Char)) : Request :=
  ⟨m, segs, "", none, "", some "application/json"⟩

def withToken (m : Method) (segs : List (List Char)) : Request :=
  ⟨m, segs, "Bearer weg", none, "", some "application/json"⟩

def readOnly (prim : Primitives) : World :=
  ⟨⟨⟨0, 0⟩, [], [], [⟨.ulid 1, "ro", "weg", prim.sha256 "weg", ["read"], 0, none, none, none⟩]⟩, 0,
    true⟩

theorem credential_bare : w.credential prim (bare m segs) = .error .unauthorized := by
  have hbearer : bearer (bare m segs).authorization = none := by
    change bearer "" = none
    decide +kernel
  rw [credential, hbearer]
  rfl

theorem bearer_withToken : bearer (withToken m segs).authorization = some "weg" := by
  change bearer "Bearer weg" = some "weg"
  decide +kernel

theorem credential_readOnly :
    (readOnly prim).credential prim (withToken m segs) = .ok ⟨.ulid 1, "ro", [.read]⟩ := by
  rw [credential, bearer_withToken]
  simp [authenticate, readOnly, tokenSubject, Token.active, Scope.ofText]

/-- Whatever the headers of a request, and whatever tokens and sessions there are, the
handlers behind a method and a path are guarded exactly when the path does not end as the
health check's does, nor as the session's where the method writes, unless that is what it
leads to. -/
theorem handlers_guarded_iff (prim : Primitives) (m : Method) (segs : List (List Char)) :
    (∀ w r, r.method = m → r.segments = segs → Guarded prim w r) ↔
      ∀ h, routed m segs = some h → h.signsIn = false →
        ¬ healthPath <:+ urlPath segs ∧
          (sessionPath <:+ urlPath segs → scopeFor m = .read ∨ h.ownSession = true) := by
  constructor
  · intro hguarded h hrouted hsigns
    constructor
    · intro hhealth
      have hserve : (readOnly prim).serve prim (bare m segs) = .ok h := by
        refine serve_eq_ok.mpr ⟨authenticator_eq_ok.mpr (.inl ⟨?_, ?_⟩), hrouted⟩
        · have hsuffix := isSuffixOf_iff_suffix.mpr hhealth
          simp [unauthenticated, bare, hsuffix]
        · simp [bare, Request.sentJSON]
      rcases hguarded _ _ rfl rfl h hserve with hin | ⟨sub, hsub, -⟩
      · simp [hsigns] at hin
      · rw [credential_bare] at hsub
        cases hsub
    · intro hsession
      by_contra hneither
      rw [not_or, Bool.not_eq_true] at hneither
      have hwrite := (scopeFor_cases m).resolve_left hneither.1
      have hserve : (readOnly prim).serve prim (withToken m segs) = .ok h := by
        refine serve_eq_ok.mpr ⟨authenticator_eq_ok.mpr ?_, hrouted⟩
        by_cases hopen : unauthenticated m segs = true
        · exact .inl ⟨hopen, by simp [withToken, Request.sentJSON]⟩
        · rw [Bool.not_eq_true] at hopen
          refine .inr ⟨hopen, ?_, rfl, _, credential_readOnly, ?_⟩
          · rw [Request.presented, bearer_withToken]
            rfl
          · have hsuffix := isSuffixOf_iff_suffix.mpr hsession
            simp [scopeNeeded, withToken, hsuffix, Subject.allows]
      rcases hguarded _ _ rfl rfl h hserve with hin | ⟨sub, hsub, hallows⟩
      · simp [hsigns] at hin
      · rw [credential_readOnly] at hsub
        cases hsub
        simp [Handler.needs, hneither.2, withToken, hwrite, Subject.allows, Scope.rank] at hallows
  · rintro hcond w r rfl rfl h hserve
    obtain ⟨hauth, hrouted⟩ := serve_eq_ok.mp hserve
    by_cases hsigns : h.signsIn = true
    · exact .inl hsigns
    · rw [Bool.not_eq_true] at hsigns
      obtain ⟨hhealth, hsession⟩ := hcond h hrouted hsigns
      rcases authenticator_eq_ok.mp hauth with ⟨hopen, -⟩ | ⟨-, -, -, sub, hsub, hallows⟩
      · exact .inl (signsIn_of_unauthenticated hrouted hopen hhealth)
      · exact .inr ⟨sub, hsub, allows_needs hsession hallows⟩

/-- The handler that removes a member is entered without a credential, under the name of the
health check; and the one that deletes a zone with a token that may only read, under the name of
the session. -/
theorem handlers_unguarded :
    (readOnly Sample.primitives).serve Sample.primitives
        (bare .delete ["cluster".toList, "members".toList, "healthz".toList]) =
          .ok .removeClusterMember ∧
      (readOnly Sample.primitives).serve Sample.primitives
          (withToken .delete ["zones".toList, "auth/session".toList]) = .ok .deleteZone ∧
      (readOnly Sample.primitives).serve Sample.primitives
          (withToken .delete ["zones".toList, "session".toList]) = .error (.notAllowed .write) ∧
      ¬ Guarded Sample.primitives (readOnly Sample.primitives)
          (bare .delete ["cluster".toList, "members".toList, "healthz".toList]) ∧
      ¬ Guarded Sample.primitives (readOnly Sample.primitives)
          (withToken .delete ["zones".toList, "auth/session".toList]) := by
  refine ⟨by decide +kernel, by decide +kernel, by decide +kernel, fun h => ?_, fun h => ?_⟩
  · rcases h .removeClusterMember (by decide +kernel) with hin | ⟨sub, hsub, -⟩
    · cases hin
    · rw [credential_bare] at hsub
      cases hsub
  · rcases h .deleteZone (by decide +kernel) with hin | ⟨sub, hsub, hallows⟩
    · cases hin
    · rw [credential_readOnly] at hsub
      cases hsub
      revert hallows
      decide

end World

end Wegweiser.Access
