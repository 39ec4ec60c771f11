import Warp.Auth.Gateway
import Warp.Infra.Runs
import Warp.Properties.SessionSteps
import Warp.Properties.UserRoles

/-!
# Where authority comes from

A change of users, roles or API credentials is made with the bootstrap token, by a user who has shown its
password or its second factor a short while ago, or with an API credential. The user got its role, and the
program its credential, from an earlier change of this kind, and so on back to the bootstrap token or to the
root of the setup.
-/

namespace Warp.Auth

open Infra

/-! ## Times -/

section

variable {c : Ctx} {db db' : AuthDb} {Shows : ℕ → Prop} {used : Option String} {userId : ℕ} {t : Instant}

theorem CredentialsKept.told (h : CredentialsKept db db') (htold : Says db' userId t) :
    Says db userId t := by
  cases htold with
  | session s' mem user time =>
    obtain ⟨s, hs, hsame⟩ := h.sessions s' mem
    exact .session s hs (hsame.userId.symm.trans user) (hsame.reauthenticatedAt.symm.trans time)
  | code r' mem user time =>
    obtain ⟨r, hr, huser, htime⟩ := h.codes r' mem
    exact .code r hr (huser.symm.trans user) (htime.symm.trans time)
  | token r' mem user time =>
    obtain ⟨r, hr, huser, htime⟩ := h.tokens r' mem
    exact .token r hr (huser.symm.trans user) (htime.symm.trans time)

/-- A session that is saved in the place of another one. -/
theorem told_saveSession {s : AuthSession} (htold : Says (db.saveSession s) userId t) :
    s.userId = userId ∧ s.reauthenticatedAt = t ∨ Says db userId t := by
  cases htold with
  | session x mem user time =>
    rcases mem_insert_of mem with rfl | hx
    · exact Or.inl ⟨user, time⟩
    · exact Or.inr (.session x hx user time)
  | code r mem user time => exact Or.inr (.code r mem user time)
  | token r mem user time => exact Or.inr (.token r mem user time)

/-- A time is passed on, or the user is shown right now. -/
theorem CredentialStep.told (h : CredentialStep c Shows used db db') (htold : Says db' userId t) :
    Says db userId t ∨ Shows userId ∧ t = c.now := by
  cases h with
  | kept kept => exact Or.inl (kept.told htold)
  | touched s clientIp mem hash live unexpired idle =>
    rcases told_saveSession htold with ⟨huser, htime⟩ | hold
    · exact Or.inl (.session s mem huser htime)
    · exact Or.inl hold
  | opened owner clientIp userAgent verified shown fresh =>
    cases htold with
    | session x mem user time =>
      rcases mem_insert_of mem with rfl | hx
      · obtain rfl : owner = userId := user
        exact Or.inr ⟨shown, time.symm⟩
      · exact Or.inl (.session x hx user time)
    | code r mem user time => exact Or.inl (.code r mem user time)
    | token r mem user time => exact Or.inl (.token r mem user time)
  | renewed s s' mem same time shown =>
    rcases told_saveSession htold with ⟨huser, htime⟩ | hold
    · have howner : s'.userId = s.userId := same.userId
      obtain rfl : s.userId = userId := howner.symm.trans huser
      exact Or.inr ⟨shown, htime.symm.trans time⟩
    · exact Or.inl hold
  | consented r source =>
    cases htold with
    | session x mem user time => exact Or.inl (.session x mem user time)
    | code x mem user time =>
      rcases mem_insert_of mem with rfl | hx
      · exact Or.inl (user ▸ time ▸ source)
      · exact Or.inl (.code x hx user time)
    | token x mem user time => exact Or.inl (.token x mem user time)
  | exchanged r source =>
    cases htold with
    | session x mem user time => exact Or.inl (.session x mem user time)
    | code x mem user time => exact Or.inl (.code x mem user time)
    | token x mem user time =>
      rcases mem_insert_of mem with rfl | hx
      · exact Or.inl (user ▸ time ▸ source)
      · exact Or.inl (.token x hx user time)

theorem CredentialSteps.told (h : CredentialSteps c Shows used db db') (htold : Says db' userId t) :
    Says db userId t ∨ Shows userId ∧ t = c.now := by
  induction h with
  | refl => exact Or.inl htold
  | tail _ hstep ih =>
    rcases hstep.told htold with hmid | hnew
    · exact ih hmid
    · exact Or.inr hnew

end

/-! ## The gate -/

/-- The hash of the session cookie, where the request comes without a bearer token. -/
def Caller.sessionHash? (c : Ctx) (caller : Caller) : Option String :=
  match caller.authorization with
  | some _ => none
  | none => (given? caller.sessionToken).map (hashSessionToken c)

/-- The bearer token that the caller carries. -/
def Caller.Bears (caller : Caller) (token : String) : Prop :=
  ∃ scheme, caller.authorization = some (scheme, token)

/-- The caller carries a session or an access token of the user, who has shown itself at `t`, and it is
accepted now. -/
inductive Caller.SpeaksFor (c : Ctx) (db : AuthDb) (caller : Caller) (userId : ℕ) (t : Instant) : Prop where
  | session (s : AuthSession) (mem : s ∈ db.authSessions) (live : s.revokedAt = none)
      (unexpired : c.now < s.expiresAt)
      (idle : c.now - s.lastSeenAt < seconds c.settings.sessionIdleTtlSeconds)
      (hash : caller.sessionHash? c = some s.tokenHash) (user : s.userId = userId)
      (time : s.reauthenticatedAt = t) : SpeaksFor c db caller userId t
  | token (r : OAuthToken) (mem : r ∈ db.oauthTokens) (live : r.revokedAt = none)
      (unexpired : c.now < r.accessExpiresAt) (token : String)
      (bears : caller.Bears token) (hash : r.accessTokenHash = hashSessionToken c token)
      (user : r.userId = userId) (time : r.reauthenticatedAt = t) : SpeaksFor c db caller userId t

/-- An API credential that the caller carries and that is accepted now. -/
structure APICredential.Presented (c : Ctx) (caller : Caller) (k : APICredential) : Prop where
  live : k.revokedAt = none
  unexpired : ∀ t ∈ k.expiresAt, c.now < t
  bears : ∃ token, caller.Bears token ∧ k.tokenHash = hashSessionToken c token

/-- Whom the gate has let in. -/
inductive Admitted (c : Ctx) (s : GateSettings) (db : ApiDb) (route : Route) (caller : Caller) : Prop where
  | bootstrap (token : String) (bears : caller.Bears token) (is : isBootstrapToken s token = .ok true)
  | credential (k : APICredential) (mem : k ∈ db.apiCredentials) (presented : k.Presented c caller)
      (scope : requiredScope route.method route.path ∈ k.scopes ∨ wildcardScope ∈ k.scopes)
  | user (user : User) (t : Instant) (mem : user ∈ db.auth.users) (active : user.status = .active)
      (speaks : caller.SpeaksFor c db.auth user.id t)
      (permitted : wildcardPermission ∈ effectivePermissions db.auth.roles user ∨
        requiredPermissions route ⊆ effectivePermissions db.auth.roles user)
      (sensitive : route.sensitive = true → (s.privilegedMfaRequired = true → user.mfaEnabled = true) ∧
        c.now - t < seconds c.settings.reauthTtlSeconds)

section

variable {c : Ctx} {s : GateSettings} {db db' : ApiDb} {route : Route} {caller : Caller}
  {principal : AuthenticatedPrincipal}

theorem checkSensitive_ok {auth : AuthDb} {user : User} (hu : user ∈ auth.users)
    (hid : principal.userId = some user.id) (h : checkSensitive c s auth principal = .ok ()) :
    (s.privilegedMfaRequired = true → user.mfaEnabled = true) ∧
      recentlyReauthenticated c auth principal = true := by
  simp only [checkSensitive, bind_eq_ok, ensure_eq_ok, orRaise_eq_ok, hid, Option.bind_some] at h
  obtain ⟨found, hfound, _, hmfa, hrecent⟩ := h
  obtain ⟨hmem, hkey⟩ := Table.find?_eq_some.mp hfound
  obtain rfl : found = user := Table.key_inj hmem hu hkey
  refine ⟨fun hrequired => ?_, hrecent⟩
  rw [hrequired, Bool.not_true, Bool.false_or, Bool.and_eq_true] at hmfa
  exact hmfa.1

theorem authorizePermissions_ok {granted required : Finset String}
    (h : authorizePermissions granted required = .ok ()) :
    wildcardPermission ∈ granted ∨ required ⊆ granted := by
  simpa [authorizePermissions] using h

theorem reauthenticationIsRecent_some {t : Instant} : reauthenticationIsRecent c (some t) = true ↔
    c.now - t < seconds c.settings.reauthTtlSeconds := by
  rw [reauthenticationIsRecent, Option.any_some, decide_eq_true_eq]

theorem recentlyReauthenticated_session {auth : AuthDb} {user : User} {current : AuthSession}
    (hfound : auth.authSessions.find? current.id = some current)
    (h : recentlyReauthenticated c auth (sessionPrincipal auth user current) = true) :
    c.now - current.reauthenticatedAt < seconds c.settings.reauthTtlSeconds := by
  have hmethod : (sessionPrincipal auth user current).authenticationMethod = .humanSession := rfl
  have hbind : (sessionPrincipal auth user current).sessionId.bind auth.authSessions.find? =
      some current := hfound
  rw [recentlyReauthenticated, if_pos hmethod, hbind, Option.any_some, sessionRecentlyReauthenticated,
    decide_eq_true_eq] at h
  exact h

/-- A principal that is not a user is checked for its scopes. -/
theorem checkOperation_program (hnot : principal.userId = none) {auth : AuthDb}
    (h : checkOperation c s auth route principal = .ok ()) :
    requiredScope route.method route.path ∈ principal.scopes ∨ wildcardScope ∈ principal.scopes := by
  simp only [checkOperation, AuthenticatedPrincipal.isUser, hnot, Option.isSome_none, Bool.false_eq_true,
    if_false, authorize, ensure_eq_ok, decide_eq_true_eq] at h
  have hscope := h _ (Finset.mem_singleton_self _)
  simp only [AuthenticatedPrincipal.hasScope, Bool.or_eq_true, decide_eq_true_eq] at hscope
  exact hscope.symm

/-- A principal that is a user is checked for its permissions. -/
theorem checkOperation_user {auth : AuthDb} {user : User} (hu : user ∈ auth.users)
    (hid : principal.userId = some user.id) (h : checkOperation c s auth route principal = .ok ()) :
    (wildcardPermission ∈ principal.permissions ∨ requiredPermissions route ⊆ principal.permissions) ∧
      (route.sensitive = true → (s.privilegedMfaRequired = true → user.mfaEnabled = true) ∧
        recentlyReauthenticated c auth principal = true) := by
  simp only [checkOperation, AuthenticatedPrincipal.isUser, hid, Option.isSome_some, if_true,
    bind_eq_ok, mapError_eq_ok] at h
  obtain ⟨_, hpermitted, h⟩ := h
  refine ⟨authorizePermissions_ok hpermitted, fun hsensitive => ?_⟩
  rw [if_pos hsensitive] at h
  exact checkSensitive_ok hu hid h

theorem authenticateToken_admitted {token : String} (hbears : caller.Bears token)
    (h : authenticateToken c s db token = .ok principal)
    (hcheck : checkOperation c s db.auth route principal = .ok ()) : Admitted c s db route caller := by
  unfold authenticateToken at h
  split at h
  · split at h
    · cases h
    · next record user hfound =>
      cases h
      simp only [findActiveAccessToken, Option.bind_eq_bind, Option.bind_eq_some_iff] at hfound
      obtain ⟨record', hrecord, user', huser, hout⟩ := hfound
      split at hout
      · cases hout
        obtain ⟨hu, hactive⟩ := Option.filter_eq_some_iff.mp huser
        obtain ⟨hu, hid⟩ := Table.find?_eq_some.mp hu
        obtain ⟨hr, hlive⟩ := Option.filter_eq_some_iff.mp hrecord
        have hhash : record.accessTokenHash = hashSessionToken c token := by simpa using List.find?_some hr
        rw [Bool.and_eq_true] at hactive hlive
        obtain ⟨hpermitted, hsensitive⟩ := checkOperation_user hu rfl hcheck
        refine .user user record.reauthenticatedAt hu (of_decide_eq_true hactive.1) ?_ hpermitted
          fun hroute => ⟨(hsensitive hroute).1, ?_⟩
        · exact .token record (List.mem_of_find?_eq_some hr) (Option.isNone_iff_eq_none.mp hlive.1)
            (of_decide_eq_true hlive.2) token hbears hhash hid.symm rfl
        · have hrecent := (hsensitive hroute).2
          rw [recentlyReauthenticated, if_neg (by simp [oauthPrincipal])] at hrecent
          exact reauthenticationIsRecent_some.mp hrecent
      · cases hout
  · simp only [bind_eq_ok, mapError_eq_ok] at h
    obtain ⟨bootstrap, hbootstrap, h⟩ := h
    split at h
    · next his => exact .bootstrap token hbears (his ▸ hbootstrap)
    · simp only [bind_eq_ok, ensure_eq_ok, orRaise_eq_ok, pure_eq_ok] at h
      obtain ⟨k, hk, _, hrevoked, _, hexpiry, rfl⟩ := h
      have hhash : k.tokenHash = hashSessionToken c token := by simpa using List.find?_some hk
      refine .credential k (List.mem_of_find?_eq_some hk) ⟨Option.isNone_iff_eq_none.mp hrevoked, ?_,
        token, hbears, hhash⟩ ?_
      · intro t ht
        rw [Option.mem_def.mp ht] at hexpiry
        exact of_decide_eq_true hexpiry
      · simpa [credentialPrincipal] using checkOperation_program rfl hcheck

/-- A session that has come through the gate. -/
theorem authenticateSession_admitted {token : String} {auth : AuthDb} {user : User} {current : AuthSession}
    (hash : caller.sessionHash? c = some (hashSessionToken c token))
    (h : authenticateSession c db.auth token caller.clientIp = .ok (auth, user, current))
    (hcheck : checkOperation c s auth route (sessionPrincipal auth user current) = .ok ()) :
    Admitted c s db route caller := by
  simp only [authenticateSession, bind_eq_ok, ensure_eq_ok, pure_eq_ok, orRaise_eq_ok] at h
  obtain ⟨x, hx, _, hrevoked, _, hunexpired, _, hidle, u, hu, _, hactive, hout⟩ := h
  cases hout
  obtain ⟨hu, hid⟩ := Table.find?_eq_some.mp hu
  have hhash : x.tokenHash = hashSessionToken c token := by simpa using List.find?_some hx
  have husers : user ∈ (db.auth.saveSession (touchSession c x caller.clientIp)).users := hu
  obtain ⟨hpermitted, hsensitive⟩ := checkOperation_user husers rfl hcheck
  refine .user user x.reauthenticatedAt hu (of_decide_eq_true hactive) ?_ hpermitted
    fun hroute => ⟨(hsensitive hroute).1, ?_⟩
  · exact .session x (List.mem_of_find?_eq_some hx) (Option.isNone_iff_eq_none.mp hrevoked)
      (of_decide_eq_true hunexpired) (of_decide_eq_true hidle) (hash.trans (congrArg some hhash.symm)) hid.symm rfl
  · have hrecent := (hsensitive hroute).2
    have hrow : (db.auth.saveSession (touchSession c x caller.clientIp)).authSessions.find?
        (touchSession c x caller.clientIp).id = some (touchSession c x caller.clientIp) :=
      Table.find?_eq_some.mpr ⟨Table.mem_insert_self, rfl⟩
    have htime : (touchSession c x caller.clientIp).reauthenticatedAt = x.reauthenticatedAt := rfl
    rw [← htime]
    exact recentlyReauthenticated_session hrow hrecent

/-- What coming through the gate does to the database: a session is used at most. -/
inductive Passed (c : Ctx) (db : ApiDb) (caller : Caller) : ApiDb → Prop where
  | bearer : Passed c db caller db
  | cookie (token : String) (auth : AuthDb) (user : User) (current : AuthSession)
      (hash : caller.sessionHash? c = some (hashSessionToken c token))
      (authenticated : authenticateSession c db.auth token caller.clientIp = .ok (auth, user, current)) :
      Passed c db caller (db.withAuth auth)

theorem openGate_ok (h : openGate c s db route caller = .ok (db', principal)) :
    Passed c db caller db' ∧ Admitted c s db route caller := by
  simp only [openGate, getAuthenticatedPrincipal, bind_eq_ok, pure_eq_ok] at h
  obtain ⟨⟨mid, found⟩, ⟨_, _, hprincipal⟩, _, hcheck, hout⟩ := h
  cases hout
  split at hprincipal
  · next scheme token hbearer =>
    simp only [bind_eq_ok, pure_eq_ok] at hprincipal
    obtain ⟨_, _, _, htoken, hout⟩ := hprincipal
    cases hout
    exact ⟨.bearer, authenticateToken_admitted ⟨scheme, hbearer⟩ htoken hcheck⟩
  · next hnone =>
    split at hprincipal
    · cases hprincipal
    · next token hgiven =>
      simp only [bind_eq_ok, mapError_eq_ok, pure_eq_ok] at hprincipal
      obtain ⟨⟨auth, user, current⟩, hauth, _, _, hout⟩ := hprincipal
      cases hout
      have hash : caller.sessionHash? c = some (hashSessionToken c token) := by
        simp only [Caller.sessionHash?, hnone, hgiven, Option.map_some]
      exact ⟨.cookie token auth user current hash hauth, authenticateSession_admitted hash hauth hcheck⟩

theorem Passed.steps (h : Passed c db caller db') {Shows : ℕ → Prop} :
    CredentialSteps c Shows (caller.sessionHash? c) db.auth db'.auth := by
  cases h with
  | bearer => exact .refl
  | cookie token auth user current hash authenticated =>
    exact .single (authenticateSession_touched authenticated hash).1

/-- Everything but the sessions stays. -/
theorem Passed.rest (h : Passed c db caller db') : db'.apiCredentials = db.apiCredentials ∧
    db'.nextCredential = db.nextCredential ∧ AccountsKept db.auth db'.auth ∧
    db'.auth.sequences = db.auth.sequences := by
  cases h with
  | bearer => exact ⟨rfl, rfl, ⟨rfl, rfl⟩, rfl⟩
  | cookie token auth user current hash authenticated =>
    obtain ⟨_, hin⟩ := authenticateSession_ok authenticated
    rw [hin.touched]
    exact ⟨rfl, rfl, ⟨rfl, rfl⟩, rfl⟩

end

/-! ## Requests through the gate -/

/-- The route of a request behind the gate, and its caller. -/
def GatewayRequest.gated : GatewayRequest → Option (Route × Caller)
  | .direct .. => none
  | .access caller action => some (action.route, caller)
  | .createCredential caller _ => some (createCredentialRoute, caller)
  | .revokeCredential caller credentialId => some (revokeCredentialRoute credentialId, caller)

def GatewayRequest.ShowsIdentity (c : Ctx) (db : AuthDb) (userId : ℕ) : GatewayRequest → Prop
  | .direct request _ => request.ShowsIdentity c db userId
  | .access .. | .createCredential .. | .revokeCredential .. => False

def GatewayRequest.sessionHash? (c : Ctx) : GatewayRequest → Option String
  | .direct request _ => request.sessionHash? c
  | .access caller _ | .createCredential caller _ | .revokeCredential caller _ => caller.sessionHash? c

/-- The request makes the user the root. -/
def GatewayRequest.MakesRoot (db : ApiDb) (userId : ℕ) : GatewayRequest → Prop
  | .direct request _ => userId = db.auth.sequences.user ∧
    ∃ name email password clientIp userAgent, request = .setupRoot name email password clientIp userAgent
  | .access .. | .createCredential .. | .revokeCredential .. => False

/-- The request gives the role to the user. -/
def GatewayRequest.Assigns (db : ApiDb) (userId roleId : ℕ) : GatewayRequest → Prop
  | .access _ action => action.Assigns db.auth userId roleId
  | .direct .. | .createCredential .. | .revokeCredential .. => False

/-- The request issues the credential, which may have been revoked since. -/
def GatewayRequest.Issues (c : Ctx) (db : ApiDb) (k : APICredential) : GatewayRequest → Prop
  | .createCredential _ data =>
    (∃ principal, { k with revokedAt := none } = newCredential c db data principal) ∧
      ∀ scope ∈ data.scopes, scope ∈ operationScopes
  | .direct .. | .access .. | .revokeCredential .. => False

section

variable {c : Ctx} {s : GateSettings} {db db' : ApiDb} {request : GatewayRequest} {route : Route}
  {caller : Caller} {principal : AuthenticatedPrincipal}

theorem runAccessRoute_credentialsKept {auth auth' : AuthDb} {action : AccessAction}
    (h : runAccessRoute c auth principal action = .ok auth') : CredentialsKept auth auth' := by
  unfold runAccessRoute at h
  split at h
  · simp only [createRole, exceptMap_eq_ok, bind_eq_ok, pure_eq_ok] at h
    obtain ⟨_, ⟨_, _, _, _, _, _, _, _, hout⟩, rfl⟩ := h
    cases hout
    exact credentialsKept_of_eq rfl rfl rfl rfl
  · exact runAccessAction_credentialsKept h

theorem createCredential_ok {data : APICredentialCreate} {k : APICredential} {token : String}
    (h : createCredential c db data principal = .ok (db', k, token)) :
    db'.auth = db.auth ∧ k = newCredential c db data principal ∧
      db'.apiCredentials = db.apiCredentials.insert k ∧ ∀ scope ∈ data.scopes, scope ∈ operationScopes := by
  simp only [createCredential, bind_eq_ok, ensure_eq_ok, pure_eq_ok] at h
  obtain ⟨_, hknown, _, _, _, _, _, _, hout⟩ := h
  cases hout
  refine ⟨rfl, rfl, rfl, fun scope hscope => ?_⟩
  by_contra hunknown
  have hmem : scope ∈ (sortedSet data.scopes.toFinset).filter fun scope => scope ∉ operationScopes := by
    simpa [hscope] using hunknown
  rw [List.isEmpty_iff.mp hknown] at hmem
  exact absurd hmem List.not_mem_nil

theorem revokeCredential_ok {credentialId : ℕ} {k : APICredential}
    (h : revokeCredential c db credentialId = .ok (db', k)) :
    db'.auth = db.auth ∧ ∀ x' ∈ db'.apiCredentials, ∃ x ∈ db.apiCredentials,
      { x' with revokedAt := none } = { x with revokedAt := none } := by
  simp only [revokeCredential, bind_eq_ok, orRaise_eq_ok] at h
  obtain ⟨found, hfound, h⟩ := h
  split at h
  · cases h
    refine ⟨rfl, fun x' hx' => ?_⟩
    rcases mem_insert_of hx' with rfl | hx'
    · exact ⟨found, (Table.find?_eq_some.mp hfound).1, rfl⟩
    · exact ⟨x', hx', rfl⟩
  · cases h
    exact ⟨rfl, fun x' hx' => ⟨x', hx', rfl⟩⟩

theorem runGatewayRequest_admitted (hgated : request.gated = some (route, caller))
    (h : runGatewayRequest c s db request = .ok db') : Admitted c s db route caller := by
  cases request with
  | direct => cases hgated
  | access caller action =>
    cases hgated
    simp only [runGatewayRequest, bind_eq_ok] at h
    obtain ⟨⟨_, _⟩, hopen, _⟩ := h
    exact (openGate_ok hopen).2
  | createCredential caller data =>
    cases hgated
    simp only [runGatewayRequest, bind_eq_ok] at h
    obtain ⟨⟨_, _⟩, hopen, _⟩ := h
    exact (openGate_ok hopen).2
  | revokeCredential caller credentialId =>
    cases hgated
    simp only [runGatewayRequest, bind_eq_ok] at h
    obtain ⟨⟨_, _⟩, hopen, _⟩ := h
    exact (openGate_ok hopen).2

theorem runGatewayRequest_steps (h : runGatewayRequest c s db request = .ok db') :
    CredentialSteps c (fun userId => request.ShowsIdentity c db.auth userId) (request.sessionHash? c)
      db.auth db'.auth := by
  cases request with
  | direct request _ =>
    simp only [runGatewayRequest, bind_eq_ok, mapError_eq_ok, pure_eq_ok] at h
    obtain ⟨⟨_, _⟩, h, rfl⟩ := h
    exact runRequest_steps h
  | access caller action =>
    simp only [runGatewayRequest, bind_eq_ok, mapError_eq_ok, pure_eq_ok] at h
    obtain ⟨⟨mid, principal⟩, hopen, auth, haction, rfl⟩ := h
    exact (openGate_ok hopen).1.steps.tail (.kept (runAccessRoute_credentialsKept haction))
  | createCredential caller data =>
    simp only [runGatewayRequest, bind_eq_ok, pure_eq_ok] at h
    obtain ⟨⟨mid, principal⟩, hopen, ⟨_, k, token⟩, hcreate, rfl⟩ := h
    rw [(createCredential_ok hcreate).1]
    exact (openGate_ok hopen).1.steps
  | revokeCredential caller credentialId =>
    simp only [runGatewayRequest, bind_eq_ok, pure_eq_ok] at h
    obtain ⟨⟨mid, principal⟩, hopen, ⟨_, k⟩, hrevoke, rfl⟩ := h
    rw [(revokeCredential_ok hrevoke).1]
    exact (openGate_ok hopen).1.steps

/-- A credential is an old one, or the request has issued it. -/
theorem runGatewayRequest_credentials (h : runGatewayRequest c s db request = .ok db')
    {k : APICredential} (hk : k ∈ db'.apiCredentials) :
    (∃ x ∈ db.apiCredentials, { k with revokedAt := none } = { x with revokedAt := none }) ∨
      request.Issues c db k := by
  cases request with
  | direct request _ =>
    simp only [runGatewayRequest, bind_eq_ok, mapError_eq_ok, pure_eq_ok] at h
    obtain ⟨⟨_, _⟩, _, rfl⟩ := h
    exact Or.inl ⟨k, hk, rfl⟩
  | access caller action =>
    simp only [runGatewayRequest, bind_eq_ok, mapError_eq_ok, pure_eq_ok] at h
    obtain ⟨⟨mid, principal⟩, hopen, auth, haction, rfl⟩ := h
    have hsame : mid.apiCredentials = db.apiCredentials := (openGate_ok hopen).1.rest.1
    exact Or.inl ⟨k, hsame ▸ hk, rfl⟩
  | createCredential caller data =>
    simp only [runGatewayRequest, bind_eq_ok, pure_eq_ok] at h
    obtain ⟨⟨mid, principal⟩, hopen, ⟨_, new, token⟩, hcreate, rfl⟩ := h
    obtain ⟨hsame, hnext, _⟩ := (openGate_ok hopen).1.rest
    obtain ⟨_, hnew, hrows, hknown⟩ := createCredential_ok hcreate
    rw [hrows] at hk
    rcases mem_insert_of hk with rfl | hk
    · refine Or.inr ⟨⟨principal, ?_⟩, hknown⟩
      rw [hnew]
      simp only [newCredential, hnext]
    · exact Or.inl ⟨k, hsame ▸ hk, rfl⟩
  | revokeCredential caller credentialId =>
    simp only [runGatewayRequest, bind_eq_ok, pure_eq_ok] at h
    obtain ⟨⟨mid, principal⟩, hopen, ⟨_, revoked⟩, hrevoke, rfl⟩ := h
    have hsame : mid.apiCredentials = db.apiCredentials := (openGate_ok hopen).1.rest.1
    obtain ⟨x, hx, hrow⟩ := (revokeCredential_ok hrevoke).2 k hk
    exact Or.inl ⟨x, hsame ▸ hx, hrow⟩

theorem AccessAction.assigns_congr {auth auth' : AuthDb} (h : auth'.sequences = auth.sequences)
    {action : AccessAction} {userId roleId : ℕ} :
    action.Assigns auth' userId roleId ↔ action.Assigns auth userId roleId := by
  cases action with
  | user action => cases action <;> simp only [AccessAction.Assigns, h]
  | createRole => exact Iff.rfl
  | updateRole => exact Iff.rfl
  | deleteRole => exact Iff.rfl

/-- A role of a user is an old one, or the request has given it. Who is root was so before, or has been
made the root. -/
theorem runGatewayRequest_users (h : runGatewayRequest c s db request = .ok db') {u' : User}
    (hu' : u' ∈ db'.auth.users) :
    (∀ id ∈ u'.roleIds, (∃ u ∈ db.auth.users, u.id = u'.id ∧ id ∈ u.roleIds) ∨
      request.Assigns db u'.id id) ∧
    (u'.isRoot = true → (∃ u ∈ db.auth.users, u.id = u'.id ∧ u.isRoot = true) ∨
      request.MakesRoot db u'.id) := by
  have hold : u' ∈ db.auth.users → _ := fun hu => (⟨fun id hid => Or.inl ⟨u', hu, rfl, hid⟩,
    fun hroot => Or.inl ⟨u', hu, rfl, hroot⟩⟩ :
    (∀ id ∈ u'.roleIds, (∃ u ∈ db.auth.users, u.id = u'.id ∧ id ∈ u.roleIds) ∨
      request.Assigns db u'.id id) ∧
    (u'.isRoot = true → (∃ u ∈ db.auth.users, u.id = u'.id ∧ u.isRoot = true) ∨
      request.MakesRoot db u'.id))
  cases request with
  | direct request hpublic =>
    simp only [runGatewayRequest, bind_eq_ok, mapError_eq_ok, pure_eq_ok] at h
    obtain ⟨⟨_, _⟩, h, rfl⟩ := h
    rcases runRequest_rolesKept hpublic h u' hu' with ⟨u, hu, hsame⟩ | ⟨hsetup, hid, hroles⟩
    · refine ⟨fun id hid => Or.inl ⟨u, hu, hsame.id.symm, hsame.roleIds ▸ hid⟩, fun hroot => ?_⟩
      exact Or.inl ⟨u, hu, hsame.id.symm, hsame.isRoot ▸ hroot⟩
    · rw [hroles]
      exact ⟨fun id hid => absurd hid List.not_mem_nil, fun _ => Or.inr ⟨hid, hsetup⟩⟩
  | access caller action =>
    simp only [runGatewayRequest, bind_eq_ok, mapError_eq_ok, pure_eq_ok] at h
    obtain ⟨⟨mid, principal⟩, hopen, auth, haction, rfl⟩ := h
    obtain ⟨_, _, ⟨husers, _⟩, hsequences⟩ := (openGate_ok hopen).1.rest
    unfold runAccessRoute at haction
    split at haction
    · simp only [createRole, exceptMap_eq_ok, bind_eq_ok, pure_eq_ok] at haction
      obtain ⟨_, ⟨_, _, _, _, _, _, _, _, hout⟩, rfl⟩ := haction
      cases hout
      exact hold (husers ▸ hu')
    · refine ⟨fun id hid => ?_, fun hroot => ?_⟩
      · rcases runAccessAction_assigns haction u' hu' id hid with ⟨u, hu, hsame⟩ | hassigns
        · exact Or.inl ⟨u, husers ▸ hu, hsame⟩
        · exact Or.inr ((AccessAction.assigns_congr hsequences).mp hassigns)
      · exact Or.inl ⟨u', husers ▸ runAccessAction_root haction hu' hroot, rfl, hroot⟩
  | createCredential caller data =>
    simp only [runGatewayRequest, bind_eq_ok, pure_eq_ok] at h
    obtain ⟨⟨mid, principal⟩, hopen, ⟨_, k, token⟩, hcreate, rfl⟩ := h
    rw [(createCredential_ok hcreate).1, (openGate_ok hopen).1.rest.2.2.1.users] at hu'
    exact hold hu'
  | revokeCredential caller credentialId =>
    simp only [runGatewayRequest, bind_eq_ok, pure_eq_ok] at h
    obtain ⟨⟨mid, principal⟩, hopen, ⟨_, k⟩, hrevoke, rfl⟩ := h
    rw [(revokeCredential_ok hrevoke).1, (openGate_ok hopen).1.rest.2.2.1.users] at hu'
    exact hold hu'

end

/-! ## Sensitive routes -/

theorem startsWith_append {text start : String} (h : startsWith text start = true) (rest : String) :
    startsWith (text ++ rest) start = true := by
  unfold startsWith at *
  rw [List.isPrefixOf_iff_prefix] at *
  rw [String.toList_append]
  exact h.trans (List.prefix_append _ _)

theorem startsWith_apart {text start other : String} (h : startsWith text start = true)
    (h₁ : startsWith start other = false) (h₂ : startsWith other start = false) :
    startsWith text other = false := by
  unfold startsWith at *
  rw [List.isPrefixOf_iff_prefix] at h
  refine Bool.eq_false_iff.mpr fun hother => ?_
  rw [List.isPrefixOf_iff_prefix] at hother
  rcases List.prefix_or_prefix_of_prefix h hother with hle | hle
  · rw [← List.isPrefixOf_iff_prefix, h₂] at hle
    cases hle
  · rw [← List.isPrefixOf_iff_prefix, h₁] at hle
    cases hle

section

variable {method path : String}

theorem requiredPermissions_access (hmethod : Text.upper method ≠ "GET")
    (h : startsWith path "/users" = true ∨ startsWith path "/roles" = true) :
    requiredPermissions ⟨method, path⟩ = {"access:manage"} := by
  have hreview : path ≠ "/authorization/access-review" := by
    rintro rfl
    revert h
    decide
  have hprefix : startsWith path "/users" || startsWith path "/roles" || startsWith path "/authorization" := by
    rcases h with h | h <;> simp [h]
  simp only [requiredPermissions, if_neg hreview, if_pos hprefix, if_neg hmethod]

theorem requiredPermissions_credentials (h : startsWith path "/auth/credentials" = true) :
    requiredPermissions ⟨method, path⟩ = {"api_credentials:manage"} := by
  have hreview : path ≠ "/authorization/access-review" := by
    rintro rfl
    revert h
    decide
  have husers : startsWith path "/users" = false := startsWith_apart h (by decide) (by decide)
  have hroles : startsWith path "/roles" = false := startsWith_apart h (by decide) (by decide)
  have hauthorization : startsWith path "/authorization" = false := startsWith_apart h (by decide) (by decide)
  simp [requiredPermissions, hreview, husers, hroles, hauthorization, h]

end

theorem AccessAction.requiredPermissions_route (action : AccessAction) :
    requiredPermissions action.route = {"access:manage"} ∧
      Text.upper action.route.method ∉ safeSessionMethods := by
  have husers : startsWith "/users/" "/users" = true := by decide
  have hroles : startsWith "/roles/" "/roles" = true := by decide
  cases action with
  | createRole =>
    exact ⟨(by decide : requiredPermissions ⟨"POST", "/roles"⟩ = {"access:manage"}),
      (by decide : Text.upper "POST" ∉ safeSessionMethods)⟩
  | updateRole roleId data =>
    exact ⟨requiredPermissions_access (by decide) (Or.inr (startsWith_append hroles _)),
      (by decide : Text.upper "PATCH" ∉ safeSessionMethods)⟩
  | deleteRole roleId =>
    exact ⟨requiredPermissions_access (by decide) (Or.inr (startsWith_append hroles _)),
      (by decide : Text.upper "DELETE" ∉ safeSessionMethods)⟩
  | user action =>
    cases action with
    | createUser =>
      exact ⟨(by decide : requiredPermissions ⟨"POST", "/users"⟩ = {"access:manage"}),
        (by decide : Text.upper "POST" ∉ safeSessionMethods)⟩
    | updateUser userId data =>
      exact ⟨requiredPermissions_access (by decide) (Or.inl (startsWith_append husers _)),
        (by decide : Text.upper "PATCH" ∉ safeSessionMethods)⟩
    | resetUserPassword userId password =>
      exact ⟨requiredPermissions_access (by decide)
          (Or.inl (startsWith_append (startsWith_append husers _) _)),
        (by decide : Text.upper "POST" ∉ safeSessionMethods)⟩
    | disableUser userId =>
      exact ⟨requiredPermissions_access (by decide) (Or.inl (startsWith_append husers _)),
        (by decide : Text.upper "DELETE" ∉ safeSessionMethods)⟩

/-- Every route behind the gate needs one permission, a sensitive one. -/
theorem gated_sensitive {request : GatewayRequest} {route : Route} {caller : Caller}
    (h : request.gated = some (route, caller)) :
    route.sensitive = true ∧ ∃ permission, requiredPermissions route = {permission} := by
  have hsensitive : ∀ {route : Route} {permission : String}, requiredPermissions route = {permission} →
      permission ∈ sensitivePermissions → Text.upper route.method ∉ safeSessionMethods →
      route.sensitive = true := by
    intro route permission hrequired hpermission hmethod
    have hmeet : (requiredPermissions route ∩ sensitivePermissions).Nonempty :=
      ⟨permission, by simpa [hrequired] using hpermission⟩
    rw [Route.sensitive, Bool.and_eq_true]
    exact ⟨decide_eq_true hmethod, decide_eq_true hmeet⟩
  cases request with
  | direct => cases h
  | access caller action =>
    cases h
    obtain ⟨hrequired, hmethod⟩ := action.requiredPermissions_route
    exact ⟨hsensitive hrequired (by decide) hmethod, _, hrequired⟩
  | createCredential caller data =>
    cases h
    exact ⟨by decide, "api_credentials:manage", by decide⟩
  | revokeCredential caller credentialId =>
    cases h
    have hrequired : requiredPermissions (revokeCredentialRoute credentialId) =
        {"api_credentials:manage"} :=
      requiredPermissions_credentials (startsWith_append (by decide) _)
    exact ⟨hsensitive hrequired (by decide) (by decide : Text.upper "DELETE" ∉ safeSessionMethods),
      _, hrequired⟩

/-! ## Runs -/

/-- The call goes through in the state that it finds. -/
def GoesThrough (p : Platform) (g : Gateway) (call : GatewayCall) : Prop :=
  ∃ db, runGatewayRequest (call.ctx p g) call.gate g.db call.request = .ok db

/-- The user shows who it is with the call, at `t`. -/
def ShowsItself (p : Platform) (userId : ℕ) (t : Instant) (g : Gateway) (call : GatewayCall) : Prop :=
  GoesThrough p g call ∧ call.request.ShowsIdentity (call.ctx p g) g.db.auth userId ∧
    g.clock + call.elapsed = t

def SetsUpRoot (p : Platform) (userId : ℕ) (g : Gateway) (call : GatewayCall) : Prop :=
  GoesThrough p g call ∧ call.request.MakesRoot g.db userId

def GivesRole (p : Platform) (userId roleId : ℕ) (g : Gateway) (call : GatewayCall) : Prop :=
  GoesThrough p g call ∧ call.request.Assigns g.db userId roleId

def IssuesCredential (p : Platform) (k : APICredential) (g : Gateway) (call : GatewayCall) : Prop :=
  GoesThrough p g call ∧ call.request.Issues (call.ctx p g) g.db k

/-- Whatever carries authority after the calls comes from one of them. -/
structure Traced (p : Platform) (start : Gateway) (calls : List GatewayCall) (g : Gateway) : Prop where
  shown : ∀ userId t, Says g.db.auth userId t →
    Happened (Gateway.step p) (ShowsItself p userId t) start calls
  roots : ∀ u ∈ g.db.auth.users, u.isRoot = true →
    Happened (Gateway.step p) (SetsUpRoot p u.id) start calls
  roles : ∀ u ∈ g.db.auth.users, ∀ id ∈ u.roleIds,
    Happened (Gateway.step p) (GivesRole p u.id id) start calls
  credentials : ∀ k ∈ g.db.apiCredentials,
    Happened (Gateway.step p) (IssuesCredential p k) start calls

theorem Traced.initial {p : Platform} {roles : Table Role} {employees : Table Employee} {clock : Instant} :
    Traced p (.initial roles employees clock) [] (.initial roles employees clock) where
  shown userId t h := by
    cases h with
    | session s mem => exact absurd mem Table.not_mem_empty
    | code r mem => exact absurd mem Table.not_mem_empty
    | token r mem => exact absurd mem Table.not_mem_empty
  roots u hu := absurd hu Table.not_mem_empty
  roles u hu := absurd hu Table.not_mem_empty
  credentials k hk := absurd hk Table.not_mem_empty

theorem issues_congr {c : Ctx} {db : ApiDb} {k x : APICredential} {request : GatewayRequest}
    (h : { k with revokedAt := none } = { x with revokedAt := none }) :
    request.Issues c db k ↔ request.Issues c db x := by
  cases request with
  | createCredential caller data => simp only [GatewayRequest.Issues, h]
  | direct => exact Iff.rfl
  | access => exact Iff.rfl
  | revokeCredential => exact Iff.rfl

theorem Traced.step {p : Platform} {start : Gateway} {calls : List GatewayCall} {call : GatewayCall}
    (h : Traced p start calls (calls.foldl (Gateway.step p) start)) :
    Traced p start (calls ++ [call]) (Gateway.step p (calls.foldl (Gateway.step p) start) call) := by
  obtain ⟨g, hg⟩ : ∃ g, calls.foldl (Gateway.step p) start = g := ⟨_, rfl⟩
  rw [hg] at h ⊢
  have hlast : ∀ {P : Gateway → GatewayCall → Prop}, P g call →
      Happened (Gateway.step p) P start (calls ++ [call]) := fun hP => .last (hg ▸ hP)
  cases hrun : runGatewayRequest (call.ctx p g) call.gate g.db call.request with
  | error e =>
    have hdb : (Gateway.step p g call).db = g.db := by simp only [Gateway.step, hrun]
    constructor
    · exact fun userId t htold => (h.shown userId t (hdb ▸ htold)).append _
    · exact fun u hu hroot => (h.roots u (hdb ▸ hu) hroot).append _
    · exact fun u hu id hid => (h.roles u (hdb ▸ hu) id hid).append _
    · exact fun k hk => (h.credentials k (hdb ▸ hk)).append _
  | ok db =>
    have hdb : (Gateway.step p g call).db = db := by simp only [Gateway.step, hrun]
    have hthrough : GoesThrough p g call := ⟨db, hrun⟩
    constructor
    · intro userId t htold
      rw [hdb] at htold
      rcases (runGatewayRequest_steps hrun).told htold with hold | ⟨hshows, rfl⟩
      · exact (h.shown userId t hold).append _
      · exact hlast ⟨hthrough, hshows, rfl⟩
    · intro u hu hroot
      rw [hdb] at hu
      rcases (runGatewayRequest_users hrun hu).2 hroot with ⟨u₀, hu₀, hid, hroot₀⟩ | hmakes
      · exact hid ▸ (h.roots u₀ hu₀ hroot₀).append _
      · exact hlast ⟨hthrough, hmakes⟩
    · intro u hu id hid
      rw [hdb] at hu
      rcases (runGatewayRequest_users hrun hu).1 id hid with ⟨u₀, hu₀, hsame, hid₀⟩ | hassigns
      · exact hsame ▸ (h.roles u₀ hu₀ id hid₀).append _
      · exact hlast ⟨hthrough, hassigns⟩
    · intro k hk
      rw [hdb] at hk
      rcases runGatewayRequest_credentials hrun hk with ⟨x, hx, hrow⟩ | hissues
      · obtain ⟨before, a, after, hcalls, hthrough, hissues⟩ := (h.credentials x hx).append [call]
        exact ⟨before, a, after, hcalls, hthrough, (issues_congr hrow).mpr hissues⟩
      · exact hlast ⟨hthrough, hissues⟩

theorem traced (p : Platform) (roles : Table Role) (employees : Table Employee) (clock : Instant)
    (calls : List GatewayCall) : Traced p (.initial roles employees clock) calls
      (Gateway.run p (.initial roles employees clock) calls) :=
  history_invariant (I := Traced p (.initial roles employees clock)) Traced.initial
    (fun _ _ h => h.step) calls

/-! ## Roots -/

/-- The caller stands for an active user, who has shown itself at `t` by one of the calls, not long ago. -/
structure StandsFor (p : Platform) (start : Gateway) (calls : List GatewayCall) (call : GatewayCall)
    (caller : Caller) (user : User) (t : Instant) : Prop where
  found : user ∈ (Gateway.run p start calls).db.auth.users
  active : user.status = .active
  speaks : caller.SpeaksFor (call.ctx p (Gateway.run p start calls)) (Gateway.run p start calls).db.auth
    user.id t
  shown : Happened (Gateway.step p) (ShowsItself p user.id t) start calls
  recent : (Gateway.run p start calls).clock + call.elapsed - t < seconds call.settings.reauthTtlSeconds
  factor : call.gate.privilegedMfaRequired = true → user.mfaEnabled = true

/-- Why a call may pass the gate after the calls before it. -/
inductive Rooted (p : Platform) (start : Gateway) : List GatewayCall → GatewayCall → Prop where
  /-- The caller has the token of the environment. -/
  | bootstrap {calls : List GatewayCall} {call : GatewayCall} {route : Route} {caller : Caller}
      (gated : call.request.gated = some (route, caller)) (token : String) (bears : caller.Bears token)
      (is : isBootstrapToken call.gate token = .ok true) : Rooted p start calls call
  /-- The caller is the root of the setup. -/
  | root {calls : List GatewayCall} {call : GatewayCall} {route : Route} {caller : Caller}
      (gated : call.request.gated = some (route, caller)) (user : User) (t : Instant)
      (stands : StandsFor p start calls call caller user t) (isRoot : user.isRoot = true)
      (setUp : Happened (Gateway.step p) (SetsUpRoot p user.id) start calls) : Rooted p start calls call
  /-- The caller has a role with the permission, given by a call that was rooted itself. -/
  | member {calls before after : List GatewayCall} {call giving : GatewayCall} {route : Route}
      {caller : Caller} (gated : call.request.gated = some (route, caller)) (user : User) (t : Instant)
      (stands : StandsFor p start calls call caller user t) (role : Role) (permission : String)
      (required : requiredPermissions route = {permission})
      (found : role ∈ (Gateway.run p start calls).db.auth.roles) (held : role.id ∈ user.roleIds)
      (grants : permission ∈ role.permissions ∨ wildcardPermission ∈ role.permissions)
      (earlier : calls = before ++ giving :: after)
      (gives : GivesRole p user.id role.id (Gateway.run p start before) giving)
      (rooted : Rooted p start before giving) : Rooted p start calls call
  /-- The caller is a program with a credential for the operation, issued by a call that was rooted
  itself. -/
  | program {calls before after : List GatewayCall} {call issuing : GatewayCall} {route : Route}
      {caller : Caller} (gated : call.request.gated = some (route, caller)) (k : APICredential)
      (found : k ∈ (Gateway.run p start calls).db.apiCredentials)
      (presented : k.Presented (call.ctx p (Gateway.run p start calls)) caller)
      (scope : requiredScope route.method route.path ∈ k.scopes)
      (earlier : calls = before ++ issuing :: after)
      (issues : IssuesCredential p k (Gateway.run p start before) issuing)
      (rooted : Rooted p start before issuing) : Rooted p start calls call

/-- A credential is for known operations only. -/
theorem GatewayRequest.Issues.scopes {c : Ctx} {db : ApiDb} {k : APICredential} {request : GatewayRequest}
    (h : request.Issues c db k) : request.gated.isSome = true ∧ ∀ scope ∈ k.scopes, scope ∈ operationScopes := by
  cases request with
  | createCredential caller data =>
    obtain ⟨⟨principal, hk⟩, hknown⟩ := h
    refine ⟨rfl, fun scope hscope => hknown scope ?_⟩
    have hscopes : k.scopes = sortedSet data.scopes.toFinset := congrArg APICredential.scopes hk
    rw [hscopes, mem_sortedSet, List.mem_toFinset] at hscope
    exact hscope
  | direct => cases h
  | access => cases h
  | revokeCredential => cases h

/-- The role by which a user that is not the root has a permission. -/
theorem exists_role_of_permitted {roles : Table Role} {user : User} {permission : String}
    (hroot : user.isRoot = false)
    (h : wildcardPermission ∈ effectivePermissions roles user ∨
      {permission} ⊆ effectivePermissions roles user) :
    ∃ role ∈ roles, role.id ∈ user.roleIds ∧
      (permission ∈ role.permissions ∨ wildcardPermission ∈ role.permissions) := by
  have hrole : ∀ {text : String}, text ∈ effectivePermissions roles user →
      ∃ role ∈ roles, role.id ∈ user.roleIds ∧ text ∈ role.permissions := by
    intro text htext
    rw [effectivePermissions, hroot, if_neg Bool.false_ne_true, List.mem_toFinset, List.mem_flatMap] at htext
    obtain ⟨role, hmem, htext⟩ := htext
    obtain ⟨hmem, hheld⟩ := Table.mem_select.mp hmem
    exact ⟨role, hmem, List.contains_iff_mem.mp hheld, htext⟩
  rcases h with h | h
  · obtain ⟨role, hmem, hheld, htext⟩ := hrole h
    exact ⟨role, hmem, hheld, Or.inr htext⟩
  · obtain ⟨role, hmem, hheld, htext⟩ := hrole (Finset.singleton_subset_iff.mp h)
    exact ⟨role, hmem, hheld, Or.inl htext⟩

theorem rooted_of_gated (p : Platform) (roles : Table Role) (employees : Table Employee) (clock : Instant) :
    ∀ (n : ℕ) (calls : List GatewayCall) (call : GatewayCall), calls.length = n →
      call.request.gated.isSome = true →
      GoesThrough p (Gateway.run p (.initial roles employees clock) calls) call →
      Rooted p (.initial roles employees clock) calls call := by
  intro n
  induction n using Nat.strong_induction_on with
  | _ n ih =>
    rintro calls call rfl hgated ⟨db, hrun⟩
    obtain ⟨⟨route, caller⟩, hroute⟩ := Option.isSome_iff_exists.mp hgated
    have htraced := traced p roles employees clock calls
    obtain ⟨hsensitive, permission, hrequired⟩ := gated_sensitive hroute
    cases runGatewayRequest_admitted hroute hrun with
    | bootstrap token bears is => exact .bootstrap hroute token bears is
    | credential k mem presented scope =>
      obtain ⟨before, issuing, after, hcalls, hthrough, hissues⟩ := htraced.credentials k mem
      obtain ⟨hissuing, hscopes⟩ := hissues.scopes
      -- no credential is for every operation
      have hscope : requiredScope route.method route.path ∈ k.scopes :=
        scope.resolve_right fun hwild => absurd (hscopes _ hwild) (by decide)
      refine .program hroute k mem presented hscope hcalls ⟨hthrough, hissues⟩ ?_
      exact ih before.length (by simp [hcalls]) before issuing rfl hissuing hthrough
    | user user t mem active speaks permitted sensitive =>
      obtain ⟨hfactor, hrecent⟩ := sensitive hsensitive
      have hshown : Says (Gateway.run p (.initial roles employees clock) calls).db.auth user.id t := by
        cases speaks with
        | session s mem live unexpired idle hash user time => exact .session s mem user time
        | token r mem live unexpired token bears hash user time => exact .token r mem user time
      have hstands : StandsFor p (.initial roles employees clock) calls call caller user t :=
        ⟨mem, active, speaks, htraced.shown user.id t hshown, hrecent, hfactor⟩
      cases hroot : user.isRoot with
      | true => exact .root hroute user t hstands hroot (htraced.roots user mem hroot)
      | false =>
        rw [hrequired] at permitted
        obtain ⟨role, hrole, hheld, hgrants⟩ := exists_role_of_permitted hroot permitted
        obtain ⟨before, giving, after, hcalls, hthrough, hgives⟩ := htraced.roles user mem role.id hheld
        refine .member hroute user t hstands role permission hrequired hrole hheld hgrants hcalls
          ⟨hthrough, hgives⟩ (ih before.length (by simp [hcalls]) before giving rfl ?_ hthrough)
        cases hrequest : giving.request with
        | access => rfl
        | direct => simp only [hrequest, GatewayRequest.Assigns] at hgives
        | createCredential => rfl
        | revokeCredential => rfl

/-- Every call behind the gate that goes through goes back to the bootstrap token or to the root of the
setup, over changes that were made before it. -/
theorem privileged_changes_rooted (p : Platform) (roles : Table Role) (employees : Table Employee)
    (clock : Instant) (calls : List GatewayCall) (call : GatewayCall)
    (hgated : call.request.gated.isSome = true)
    (h : GoesThrough p (Gateway.run p (.initial roles employees clock) calls) call) :
    Rooted p (.initial roles employees clock) calls call :=
  rooted_of_gated p roles employees clock calls.length calls call rfl hgated h

def officeGate : GateSettings where
  privilegedMfaRequired := false
  baseUrl := "http://127.0.0.1:8000"

/-- A request one second after the one before, with default settings. -/
def GatewayCall.plain (text : String) (request : GatewayRequest) : GatewayCall :=
  ⟨.default, officeGate, .plain text, seconds 1, request⟩

def rootCaller : Caller where
  origin := some "http://127.0.0.1:8000"
  sessionToken := some "pos_a"

def programCaller : Caller where
  origin := some "http://127.0.0.1:8000"
  authorization := some ("Bearer", "wpa_b")

/-- The root issues a credential for a program. -/
def issuingCalls : List GatewayCall :=
  [.plain "a" (.direct (.setupRoot "Root" "root" "old" none none) rfl),
    .plain "b" (.createCredential rootCaller ⟨"sync", "sync", ["execute"], none, by decide, by decide,
      by decide⟩)]

/-- The program adds a role. -/
def programCall : GatewayCall :=
  .plain "c" (.access programCaller (.createRole { name := "Reader", permissions := ["employees:read"] }))

theorem goesThrough_programCall :
    GoesThrough .plain (Gateway.run .plain (.initial .empty .empty 0) issuingCalls) programCall := by
  have hok : (runGatewayRequest
      (programCall.ctx .plain (Gateway.run .plain (.initial .empty .empty 0) issuingCalls)) officeGate
      (Gateway.run .plain (.initial .empty .empty 0) issuingCalls).db programCall.request).toOption.isSome =
        true := by
    decide +kernel
  cases hrun : runGatewayRequest
      (programCall.ctx .plain (Gateway.run .plain (.initial .empty .empty 0) issuingCalls)) officeGate
      (Gateway.run .plain (.initial .empty .empty 0) issuingCalls).db programCall.request with
  | ok db => exact ⟨db, hrun⟩
  | error e =>
    rw [hrun] at hok
    cases hok

theorem privileged_changes_rooted_program : programCall.request.gated.isSome = true ∧
    Rooted .plain (.initial .empty .empty 0) issuingCalls programCall :=
  ⟨rfl, privileged_changes_rooted .plain .empty .empty 0 issuingCalls programCall rfl
    goesThrough_programCall⟩

end Warp.Auth
