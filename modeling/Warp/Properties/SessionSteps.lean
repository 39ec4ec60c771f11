import Mathlib.Logic.Relation
import Warp.Auth.AccessRequests
import Warp.Properties.CredentialEffects

/-!
# The steps of requests on sessions

What a request does to sessions, codes and tokens is a sequence of steps of six kinds, told with the times
of the rows. A session is opened or renewed only by a request that shows who the user is.
-/

namespace Warp.Auth

open Infra

/-! ## Showing who one is -/

/-- The second factor is right, where the user has one. -/
def FactorGiven (c : Ctx) (user : User) (mfaCode recoveryCode : Option String) : Prop :=
  user.mfaEnabled = true → ∃ user', verifyUserFactor c user mfaCode recoveryCode = .ok (some user')

/-- The action shows the password of the user, or a code of the secret that is being enrolled. -/
def SessionAction.ShowsIdentity (c : Ctx) (user : User) (current : AuthSession) : SessionAction → Prop
  | .changePassword currentPassword _ => verifyPassword c user.passwordHash currentPassword = true
  | .disableMfa currentPassword mfaCode recoveryCode =>
    verifyPassword c user.passwordHash currentPassword = true ∧ FactorGiven c user mfaCode recoveryCode
  | .reauthenticate password mfaCode recoveryCode =>
    verifyPassword c user.passwordHash password = true ∧ FactorGiven c user mfaCode recoveryCode
  | .confirmMfaSetup code => ∃ secret,
    decryptMfaSecret c (current.pendingMfaSecretCiphertext.getD "") = .ok secret ∧
      verifyTotp c secret code = .ok true
  | .me | .logout | .beginMfaSetup _ | .revokeOtherSessions | .revokeAllSessions | .authorize .. => False

/-- The request shows the password of the user with its second factor, sets the first password, or shows
a code of the secret that the user is enrolling. -/
def Request.ShowsIdentity (c : Ctx) (db : AuthDb) (userId : ℕ) : Request → Prop
  | .setupRoot .. => userId = db.sequences.user
  | .login email password mfaCode recoveryCode _ _ =>
    ∃ user ∈ db.users, user.id = userId ∧ user.email = normalizeEmail c email ∧
      user.status = .active ∧ verifyPassword c user.passwordHash password = true ∧
      FactorGiven c user mfaCode recoveryCode
  | .session token clientIp action =>
    ∃ mid user current, authenticateSession c db token clientIp = .ok (mid, user, current) ∧
      user.id = userId ∧ action.ShowsIdentity c user current
  | .admin .. | .requestPasswordReset .. | .confirmPasswordReset .. | .registerClient ..
  | .exchangeAuthorizationCode .. | .exchangeRefreshToken .. | .revokeOAuthToken .. => False

/-- The hash of the session token that comes with a request. -/
def Request.sessionHash? (c : Ctx) : Request → Option String
  | .session token .. => some (hashSessionToken c token)
  | _ => none

/-! ## Steps -/

/-- The same session, which may have ended. -/
structure SameSession (s s' : AuthSession) : Prop where
  id : s'.id = s.id
  userId : s'.userId = s.userId
  tokenHash : s'.tokenHash = s.tokenHash
  expiresAt : s'.expiresAt = s.expiresAt
  createdAt : s'.createdAt = s.createdAt
  lastSeenAt : s'.lastSeenAt = s.lastSeenAt
  reauthenticatedAt : s'.reauthenticatedAt = s.reauthenticatedAt
  ended : s.revokedAt ≠ none → s'.revokedAt ≠ none

theorem SameSession.refl (s : AuthSession) : SameSession s s :=
  ⟨rfl, rfl, rfl, rfl, rfl, rfl, rfl, fun h => h⟩

theorem SameSession.trans {s t u : AuthSession} (h : SameSession s t) (h' : SameSession t u) :
    SameSession s u :=
  ⟨h'.id.trans h.id, h'.userId.trans h.userId, h'.tokenHash.trans h.tokenHash,
    h'.expiresAt.trans h.expiresAt, h'.createdAt.trans h.createdAt, h'.lastSeenAt.trans h.lastSeenAt,
    h'.reauthenticatedAt.trans h.reauthenticatedAt, h'.ended ∘ h.ended⟩

/-- A credential of a user with the time at which the user has shown who it is. -/
inductive Says (db : AuthDb) (userId : ℕ) (t : Instant) : Prop where
  | session (s : AuthSession) (mem : s ∈ db.authSessions) (user : s.userId = userId)
      (time : s.reauthenticatedAt = t) : Says db userId t
  | code (r : OAuthAuthorizationCode) (mem : r ∈ db.oauthAuthorizationCodes) (user : r.userId = userId)
      (time : r.reauthenticatedAt = t) : Says db userId t
  | token (r : OAuthToken) (mem : r ∈ db.oauthTokens) (user : r.userId = userId)
      (time : r.reauthenticatedAt = t) : Says db userId t

/-- No credential is new, and no session goes away. -/
structure CredentialsKept (db db' : AuthDb) : Prop where
  sessions : ∀ s' ∈ db'.authSessions, ∃ s ∈ db.authSessions, SameSession s s'
  present : ∀ s ∈ db.authSessions, ∃ s' ∈ db'.authSessions, SameSession s s'
  codes : ∀ r' ∈ db'.oauthAuthorizationCodes, ∃ r ∈ db.oauthAuthorizationCodes,
    r'.userId = r.userId ∧ r'.reauthenticatedAt = r.reauthenticatedAt
  tokens : ∀ r' ∈ db'.oauthTokens, ∃ r ∈ db.oauthTokens,
    r'.userId = r.userId ∧ r'.reauthenticatedAt = r.reauthenticatedAt
  next : db'.sequences.authSession = db.sequences.authSession

/-- One step of a request that comes with the session of the hash `used` and shows to be the users of
`Shows`. -/
inductive CredentialStep (c : Ctx) (Shows : ℕ → Prop) (used : Option String) (db : AuthDb) :
    AuthDb → Prop where
  | kept {db' : AuthDb} (kept : CredentialsKept db db') : CredentialStep c Shows used db db'
  | touched (s : AuthSession) (clientIp : Option String) (mem : s ∈ db.authSessions)
      (hash : used = some s.tokenHash) (live : s.revokedAt = none) (unexpired : c.now < s.expiresAt)
      (idle : c.now - s.lastSeenAt < seconds c.settings.sessionIdleTtlSeconds) :
      CredentialStep c Shows used db (db.saveSession (touchSession c s clientIp))
  | opened (userId : ℕ) (clientIp userAgent : Option String) (verified : Bool) (shown : Shows userId)
      (fresh : ∀ s ∈ db.authSessions,
        s.tokenHash ≠ (newSession c db userId clientIp userAgent verified).tokenHash) :
      CredentialStep c Shows used db (db.addSession (newSession c db userId clientIp userAgent verified))
  | renewed (s s' : AuthSession) (mem : s ∈ db.authSessions)
      (same : SameSession s { s' with reauthenticatedAt := s.reauthenticatedAt })
      (time : s'.reauthenticatedAt = c.now) (shown : Shows s.userId) :
      CredentialStep c Shows used db (db.saveSession s')
  | consented (r : OAuthAuthorizationCode) (source : Says db r.userId r.reauthenticatedAt) :
      CredentialStep c Shows used db (db.addCode r)
  | exchanged (r : OAuthToken) (source : Says db r.userId r.reauthenticatedAt) :
      CredentialStep c Shows used db (db.addToken r)

abbrev CredentialSteps (c : Ctx) (Shows : ℕ → Prop) (used : Option String) : AuthDb → AuthDb → Prop :=
  Relation.ReflTransGen (CredentialStep c Shows used)

variable {c : Ctx} {db mid db' : AuthDb} {Shows : ℕ → Prop} {used : Option String}

theorem CredentialsKept.refl (db : AuthDb) : CredentialsKept db db where
  sessions s hs := ⟨s, hs, .refl s⟩
  present s hs := ⟨s, hs, .refl s⟩
  codes r hr := ⟨r, hr, rfl, rfl⟩
  tokens r hr := ⟨r, hr, rfl, rfl⟩
  next := rfl

theorem CredentialsKept.trans (h : CredentialsKept db mid) (h' : CredentialsKept mid db') :
    CredentialsKept db db' where
  sessions s'' hs := by
    obtain ⟨s', hs', hsame'⟩ := h'.sessions s'' hs
    obtain ⟨s, hs, hsame⟩ := h.sessions s' hs'
    exact ⟨s, hs, hsame.trans hsame'⟩
  present s hs := by
    obtain ⟨s', hs', hsame⟩ := h.present s hs
    obtain ⟨s'', hs'', hsame'⟩ := h'.present s' hs'
    exact ⟨s'', hs'', hsame.trans hsame'⟩
  codes r'' hr := by
    obtain ⟨r', hr', huser', htime'⟩ := h'.codes r'' hr
    obtain ⟨r, hr, huser, htime⟩ := h.codes r' hr'
    exact ⟨r, hr, huser'.trans huser, htime'.trans htime⟩
  tokens r'' hr := by
    obtain ⟨r', hr', huser', htime'⟩ := h'.tokens r'' hr
    obtain ⟨r, hr, huser, htime⟩ := h.tokens r' hr'
    exact ⟨r, hr, huser'.trans huser, htime'.trans htime⟩
  next := h'.next.trans h.next

theorem CredentialsKept.after (h : CredentialsKept mid db') (hmid : CredentialsKept db mid) :
    CredentialsKept db db' := hmid.trans h

/-! ## Writes that keep the credentials -/

theorem credentialsKept_of_eq (hsessions : db'.authSessions = db.authSessions)
    (hcodes : db'.oauthAuthorizationCodes = db.oauthAuthorizationCodes)
    (htokens : db'.oauthTokens = db.oauthTokens)
    (hnext : db'.sequences.authSession = db.sequences.authSession) : CredentialsKept db db' where
  sessions s hs := ⟨s, hsessions ▸ hs, .refl s⟩
  present s hs := ⟨s, hsessions ▸ hs, .refl s⟩
  codes r hr := ⟨r, hcodes ▸ hr, rfl, rfl⟩
  tokens r hr := ⟨r, htokens ▸ hr, rfl, rfl⟩
  next := hnext

theorem credentialsKept_saveUser {user : User} : CredentialsKept db (db.saveUser user) :=
  credentialsKept_of_eq rfl rfl rfl rfl

theorem credentialsKept_saveSession {s s' : AuthSession} (hs : s ∈ db.authSessions)
    (hsame : SameSession s s') : CredentialsKept db (db.saveSession s') :=
  { CredentialsKept.refl db with
    sessions := fun x hx => by
      rcases mem_insert_of hx with rfl | hx
      · exact ⟨s, hs, hsame⟩
      · exact ⟨x, hx, .refl x⟩
    present := fun x hx => by
      by_cases hid : x.id = s'.id
      · have hxs : x = s := Table.key_inj hx hs (hid.trans hsame.id)
        exact ⟨s', Table.mem_insert_self, hxs ▸ hsame⟩
      · exact ⟨x, Table.mem_insert.mpr (Or.inr ⟨hx, hid⟩), .refl x⟩ }

theorem sameSession_revoked {userId : ℕ} {kept : Option ℕ} (s : AuthSession) :
    SameSession s (revokeSessionRow c userId kept s) := by
  unfold revokeSessionRow
  split
  · exact ⟨rfl, rfl, rfl, rfl, rfl, rfl, rfl, fun _ => by simp⟩
  · exact .refl s

theorem credentialsKept_revokeUserSessions {userId : ℕ} {kept : Option ℕ} :
    CredentialsKept db (revokeUserSessions c db userId kept) :=
  { CredentialsKept.refl db with
    sessions := fun x hx => by
      obtain ⟨s, hs, rfl⟩ := mem_revokeUserSessions.mp hx
      exact ⟨s, hs, sameSession_revoked s⟩
    present := fun s hs => ⟨_, mem_revokeUserSessions.mpr ⟨s, hs, rfl⟩, sameSession_revoked s⟩ }

theorem credentialsKept_revokeSession {user : User} {s : AuthSession} (hs : s ∈ db.authSessions)
    (h : revokeSession c db user s = .ok db') : CredentialsKept db db' := by
  rcases revokeSession_ok h with rfl | rfl
  · exact .refl db'
  · exact credentialsKept_saveSession hs ⟨rfl, rfl, rfl, rfl, rfl, rfl, rfl, fun _ => by simp⟩

theorem credentialsKept_saveCode {r r' : OAuthAuthorizationCode} (hr : r ∈ db.oauthAuthorizationCodes)
    (huser : r'.userId = r.userId) (htime : r'.reauthenticatedAt = r.reauthenticatedAt) :
    CredentialsKept db (db.saveCode r') :=
  { CredentialsKept.refl db with
    codes := fun x hx => by
      rcases mem_insert_of hx with rfl | hx
      · exact ⟨r, hr, huser, htime⟩
      · exact ⟨x, hx, rfl, rfl⟩ }

theorem credentialsKept_saveToken {r r' : OAuthToken} (hr : r ∈ db.oauthTokens)
    (huser : r'.userId = r.userId) (htime : r'.reauthenticatedAt = r.reauthenticatedAt) :
    CredentialsKept db (db.saveToken r') :=
  { CredentialsKept.refl db with
    tokens := fun x hx => by
      rcases mem_insert_of hx with rfl | hx
      · exact ⟨r, hr, huser, htime⟩
      · exact ⟨x, hx, rfl, rfl⟩ }

/-! ## Services -/

theorem createSession_opened {userId : ℕ} {clientIp userAgent : Option String} {verified : Bool}
    {created : CreatedSession} (hshown : Shows userId)
    (h : createSession c db userId clientIp userAgent verified = .ok (db', created)) :
    CredentialStep c Shows used db db' := by
  simp only [createSession, bind_eq_ok, ensure_eq_ok, pure_eq_ok] at h
  obtain ⟨_, hfresh, hout⟩ := h
  cases hout
  refine .opened userId clientIp userAgent verified hshown fun s hs => ?_
  exact of_decide_eq_true (List.all_eq_true.mp hfresh s hs)

theorem authenticateSession_touched {token : String} {clientIp : Option String} {user : User}
    {current : AuthSession} (h : authenticateSession c db token clientIp = .ok (db', user, current))
    (hused : used = some (hashSessionToken c token)) :
    CredentialStep c Shows used db db' ∧ user ∈ db'.users ∧ current ∈ db'.authSessions ∧
      current.userId = user.id := by
  simp only [authenticateSession, bind_eq_ok, ensure_eq_ok, pure_eq_ok, orRaise_eq_ok] at h
  obtain ⟨s, hs, _, hrevoked, _, hunexpired, _, hidle, u, hu, _, _, hout⟩ := h
  cases hout
  obtain ⟨hu, hid⟩ := Table.find?_eq_some.mp hu
  have hhash : s.tokenHash = hashSessionToken c token := by simpa using List.find?_some hs
  refine ⟨.touched s clientIp (List.mem_of_find?_eq_some hs) (hused.trans (congrArg some hhash.symm))
    (by simpa using hrevoked) (of_decide_eq_true hunexpired) (of_decide_eq_true hidle),
    hu, Table.mem_insert_self, hid.symm⟩

section

variable {user : User} {current : AuthSession} {created : CreatedSession}

theorem changePassword_steps {currentPassword newPassword : String}
    (hshown : verifyPassword c user.passwordHash currentPassword = true → Shows user.id)
    (h : changePassword c db user current currentPassword newPassword = .ok (db', created)) :
    CredentialSteps c Shows used db db' := by
  simp only [changePassword, bind_eq_ok, ensure_eq_ok] at h
  obtain ⟨_, hpassword, _, _, _, _, h⟩ := h
  have hkept : CredentialsKept db
      (revokeUserSessions c (db.saveUser (withNewPassword c user newPassword)) user.id none) :=
    credentialsKept_saveUser.trans credentialsKept_revokeUserSessions
  exact (Relation.ReflTransGen.single (.kept hkept)).tail (createSession_opened (hshown hpassword) h)

theorem disableMfa_steps {currentPassword : String} {mfaCode recoveryCode : Option String}
    (hshown : verifyPassword c user.passwordHash currentPassword = true →
      FactorGiven c user mfaCode recoveryCode → Shows user.id)
    (h : disableMfa c db user current currentPassword mfaCode recoveryCode = .ok (db', created)) :
    CredentialSteps c Shows used db db' := by
  simp only [disableMfa, bind_eq_ok, ensure_eq_ok] at h
  obtain ⟨_, hpassword, _, _, checked, hchecked, _, hsome, _, _, h⟩ := h
  obtain ⟨user', rfl⟩ := Option.isSome_iff_exists.mp hsome
  have hkept : CredentialsKept db (revokeUserSessions c (db.saveUser
      { user with mfaEnabled := false, mfaSecretCiphertext := none, mfaRecoveryCodeHashes := [] })
      user.id none) :=
    credentialsKept_saveUser.trans credentialsKept_revokeUserSessions
  exact (Relation.ReflTransGen.single (.kept hkept)).tail
    (createSession_opened (hshown hpassword fun _ => ⟨user', hchecked⟩) h)

theorem reauthenticate_steps {password : String} {mfaCode recoveryCode : Option String}
    (hs : current ∈ db.authSessions)
    (hshown : verifyPassword c user.passwordHash password = true →
      FactorGiven c user mfaCode recoveryCode → Shows user.id)
    (h : reauthenticate c db user current password mfaCode recoveryCode = .ok (db', created)) :
    CredentialSteps c Shows used db db' := by
  simp only [reauthenticate, bind_eq_ok, ensure_eq_ok, orRaise_eq_ok] at h
  obtain ⟨_, hpassword, _, hchecked, user', rfl, h⟩ := h
  obtain ⟨hsame, hfactor⟩ := checkedUser_ok hchecked
  have hsaved : CredentialsKept (db.saveUser user')
      ((db.saveUser user').saveSession { current with revokedAt := some c.now }) :=
    credentialsKept_saveSession (s := current) hs
      ⟨rfl, rfl, rfl, rfl, rfl, rfl, rfl, fun _ => by simp⟩
  refine (Relation.ReflTransGen.single (.kept (credentialsKept_saveUser.trans hsaved))).tail
    (createSession_opened ?_ h)
  rw [hsame.1.id]
  exact hshown hpassword fun hmfa => ⟨user', hfactor hmfa⟩

theorem confirmMfaSetup_steps {code : String} {codes : List String} (hs : current ∈ db.authSessions)
    (howner : current.userId = user.id)
    (hshown : (∃ secret, decryptMfaSecret c (current.pendingMfaSecretCiphertext.getD "") = .ok secret ∧
      verifyTotp c secret code = .ok true) → Shows user.id)
    (h : confirmMfaSetup c db user current code = .ok (db', codes)) :
    CredentialSteps c Shows used db db' := by
  simp only [confirmMfaSetup, bind_eq_ok, ensure_eq_ok, pure_eq_ok, orRaise_eq_ok] at h
  obtain ⟨encrypted, hpending, secret, hsecret, valid, hvalid, _, rfl, _, _, hout⟩ := h
  cases hout
  have hgiven : current.pendingMfaSecretCiphertext.getD "" = encrypted := by
    rw [(Option.filter_eq_some_iff.mp hpending).1]
    rfl
  refine (Relation.ReflTransGen.single (.kept credentialsKept_saveUser)).tail
    (.renewed current _ hs ⟨rfl, rfl, rfl, rfl, rfl, rfl, rfl, fun h => h⟩ rfl ?_)
  exact howner ▸ hshown ⟨secret, hgiven ▸ hsecret, hvalid⟩

end

theorem resolveOAuthClient_kept {clientId : String} {document : Except AuthError ClientMetadata}
    {client : OAuthClient} (h : resolveOAuthClient c db clientId document = .ok (db', client)) :
    CredentialsKept db db' := by
  unfold resolveOAuthClient at h
  split at h
  · simp only [bind_eq_ok, ensure_eq_ok, pure_eq_ok] at h
    obtain ⟨_, _, _, _, hout⟩ := h
    cases hout
    exact credentialsKept_of_eq rfl rfl rfl rfl
  · simp only [bind_eq_ok, pure_eq_ok] at h
    obtain ⟨_, _, hout⟩ := h
    cases hout
    exact .refl db

section

variable {request : AuthorizationRequest} {document : Except AuthError ClientMetadata} {approve : Bool}
  {user : User} {current : AuthSession}

theorem authorizationRedirect_credentialsKept :
    CredentialsKept db (authorizationRedirect c db user current request document approve).1 := by
  unfold authorizationRedirect
  split
  · exact .refl db
  · next h => exact resolveOAuthClient_kept h

/-- A consent passes the time of its session on to the code. -/
theorem authorizationRedirect_steps {record : Option OAuthAuthorizationCode}
    (hs : current ∈ db.authSessions) (howner : current.userId = user.id)
    (h : (authorizationRedirect c db user current request document approve).2 = .ok (db', record)) :
    CredentialSteps c Shows used db db' := by
  unfold authorizationRedirect at h
  split at h
  · cases h
  · next mid client hclient =>
    have hkept := resolveOAuthClient_kept hclient
    simp only [bind_eq_ok] at h
    obtain ⟨⟨scopes, resource⟩, _, h⟩ := h
    cases approve with
    | false =>
      cases h
      exact .single (.kept hkept)
    | true =>
      simp only [if_true, issueCode, bind_eq_ok, ensure_eq_ok, pure_eq_ok] at h
      obtain ⟨_, ⟨_, _, rfl⟩, hout⟩ := h
      cases hout
      obtain ⟨s, hmem, hsame⟩ := hkept.present current hs
      exact (Relation.ReflTransGen.single (.kept hkept)).tail
        (.consented _ (.session s hmem (hsame.userId.trans howner) hsame.reauthenticatedAt))

theorem authorizeRoute_steps {e : Option Event} (hs : current ∈ db.authSessions)
    (howner : current.userId = user.id)
    (h : authorizeRoute c db user current request document approve = .ok (db', e)) :
    CredentialSteps c Shows used db db' := by
  unfold authorizeRoute at h
  split at h
  · next hredirect =>
    cases h
    exact authorizationRedirect_steps hs howner (congrArg Prod.snd hredirect)
  · next hredirect =>
    cases h
    have hfst := congrArg Prod.fst hredirect
    dsimp only at hfst
    exact .single (.kept (hfst ▸ authorizationRedirect_credentialsKept))
  · cases h

end

theorem issueTokens_step {g : Grant} {token : OAuthToken} (hsource : Says db g.userId g.reauthenticatedAt)
    (h : issueTokens c db g = .ok (db', token)) : CredentialStep c Shows used db db' := by
  simp only [issueTokens, bind_eq_ok, pure_eq_ok] at h
  obtain ⟨_, _, hout⟩ := h
  cases hout
  exact .exchanged _ hsource

theorem exchangeAuthorizationCode_steps {clientId code redirectUri codeVerifier : String}
    {resource : Option String} {record : OAuthAuthorizationCode} {token : OAuthToken}
    (h : exchangeAuthorizationCode c db clientId code redirectUri codeVerifier resource =
      .ok (db', record, token)) : CredentialSteps c Shows used db db' := by
  simp only [exchangeAuthorizationCode, bind_eq_ok, pure_eq_ok, orRaise_eq_ok] at h
  obtain ⟨_, _, found, hfound, _, _, _, _, _, _, ⟨_, _⟩, hissue, hout⟩ := h
  cases hout
  have hmem : record ∈ db.oauthAuthorizationCodes :=
    List.mem_of_find?_eq_some (Option.filter_eq_some_iff.mp hfound).1
  refine (Relation.ReflTransGen.single (.kept (credentialsKept_saveCode hmem rfl rfl))).tail
    (issueTokens_step ?_ hissue)
  exact .code { record with usedAt := some c.now } Table.mem_insert_self rfl rfl

theorem exchangeRefreshToken_steps {clientId refreshToken : String} {scope resource : Option String}
    {record token : OAuthToken}
    (h : exchangeRefreshToken c db clientId refreshToken scope resource =
      .ok (db', record, token)) : CredentialSteps c Shows used db db' := by
  simp only [exchangeRefreshToken, bind_eq_ok, pure_eq_ok, orRaise_eq_ok] at h
  obtain ⟨found, hfound, _, _, _, _, _, _, ⟨_, _⟩, hissue, hout⟩ := h
  cases hout
  have hmem : record ∈ db.oauthTokens :=
    List.mem_of_find?_eq_some (Option.filter_eq_some_iff.mp hfound).1
  refine (Relation.ReflTransGen.single (.kept (credentialsKept_saveToken hmem rfl rfl))).tail
    (issueTokens_step ?_ hissue)
  exact .token { record with revokedAt := some c.now } Table.mem_insert_self rfl rfl

theorem revokeOAuthToken_credentialsKept {token : String} :
    CredentialsKept db (revokeOAuthToken c db token) := by
  unfold revokeOAuthToken
  dsimp only
  split
  · exact .refl db
  · next record hfound =>
    exact credentialsKept_saveToken
      (List.mem_of_find?_eq_some (Option.filter_eq_some_iff.mp hfound).1) rfl rfl

theorem requestPasswordReset_credentialsKept {email : String} {clientIp token : Option String}
    (h : requestPasswordReset c db email clientIp = .ok (db', token)) : CredentialsKept db db' := by
  unfold requestPasswordReset at h
  split at h
  · cases h
    exact .refl db
  · simp only [bind_eq_ok, pure_eq_ok] at h
    obtain ⟨_, _, _, _, hout⟩ := h
    cases hout
    exact credentialsKept_of_eq rfl rfl rfl rfl

theorem confirmPasswordReset_credentialsKept {token newPassword : String}
    {mfaCode recoveryCode : Option String} {user : User}
    (h : confirmPasswordReset c db token newPassword mfaCode recoveryCode = .ok (db', user)) :
    CredentialsKept db db' := by
  simp only [confirmPasswordReset, bind_eq_ok, pure_eq_ok] at h
  obtain ⟨_, _, _, _, _, _, _, _, _, _, _, _, _, _, hout⟩ := h
  cases hout
  exact CredentialsKept.after credentialsKept_revokeUserSessions (credentialsKept_of_eq rfl rfl rfl rfl)

/-! ## Administration -/

theorem runAdminAction_credentialsKept {actorUserId : Option ℕ} {action : AdminAction}
    {e : Option Event} (h : runAdminAction c db actorUserId action = .ok (db', e)) :
    CredentialsKept db db' := by
  cases action with
  | createUser name email password roleIds employeeId =>
    simp only [runAdminAction, createUser, bind_eq_ok, pure_eq_ok] at h
    obtain ⟨_, ⟨_, _, _, _, _, _, _, _, _, _, rfl⟩, hout⟩ := h
    cases hout
    exact credentialsKept_of_eq rfl rfl rfl rfl
  | updateUser userId data =>
    simp only [runAdminAction, updateUser, bind_eq_ok] at h
    obtain ⟨user, _, ⟨_, updated⟩, ⟨_, _, updated', _, h⟩, hout⟩ := h
    have hdb : CredentialsKept db db' := by
      by_cases hstatus : data.status = none ∨ data.status = some .active
      · rw [if_pos hstatus] at h hout
        cases h
        cases hout
        exact credentialsKept_saveUser
      · rw [if_neg hstatus] at h hout
        cases h
        cases hout
        exact credentialsKept_saveUser.trans credentialsKept_revokeUserSessions
    exact hdb
  | resetUserPassword userId password =>
    simp only [runAdminAction, resetUserPassword, bind_eq_ok, pure_eq_ok] at h
    obtain ⟨_, _, _, ⟨_, _, rfl⟩, hout⟩ := h
    cases hout
    exact credentialsKept_saveUser.trans credentialsKept_revokeUserSessions
  | disableUser userId =>
    simp only [runAdminAction, disableUser, bind_eq_ok, pure_eq_ok] at h
    obtain ⟨_, _, _, ⟨_, _, _, _, rfl⟩, hout⟩ := h
    cases hout
    exact credentialsKept_saveUser.trans credentialsKept_revokeUserSessions

theorem runAccessAction_credentialsKept {principal : Principal} {action : AccessAction}
    (h : runAccessAction c db principal action = .ok db') : CredentialsKept db db' := by
  cases action with
  | createRole data =>
    simp only [runAccessAction, createRole, exceptMap_eq_ok, bind_eq_ok, pure_eq_ok] at h
    obtain ⟨_, ⟨_, _, _, _, _, _, _, _, hout⟩, rfl⟩ := h
    cases hout
    exact credentialsKept_of_eq rfl rfl rfl rfl
  | updateRole roleId data =>
    simp only [runAccessAction, updateRole, exceptMap_eq_ok, bind_eq_ok, pure_eq_ok] at h
    obtain ⟨_, _, _, ⟨_, _, _, _, hout⟩, rfl⟩ := h
    cases hout
    exact credentialsKept_of_eq rfl rfl rfl rfl
  | deleteRole roleId =>
    simp only [runAccessAction, deleteRole, bind_eq_ok, pure_eq_ok] at h
    obtain ⟨_, _, _, _, hout⟩ := h
    cases hout
    exact credentialsKept_of_eq rfl rfl rfl rfl
  | user action =>
    simp only [runAccessAction, exceptMap_eq_ok, bind_eq_ok] at h
    obtain ⟨_, _, ⟨_, _⟩, h, rfl⟩ := h
    exact runAdminAction_credentialsKept h

/-! ## Requests -/

theorem refuseLogin_credentialsKept {email password : String}
    {mfaCode recoveryCode clientIp userAgent : Option String} {refusal : LoginRefusal}
    (h : authenticateHuman c db email password mfaCode recoveryCode clientIp userAgent =
      .error refusal) : CredentialsKept db refusal.db := by
  simp only [authenticateHuman, checkLoginPassword, checkLoginFactor, bind_eq_error] at h
  rcases h with (h | ⟨_, _, h⟩) | ⟨_, _, (h | ⟨_, _, h | ⟨_, _, h⟩⟩) | ⟨_, _, h⟩⟩
  all_goals rw [refuseWith_error h]
  all_goals exact credentialsKept_of_eq rfl rfl rfl rfl

theorem loginRoute_steps {email password : String}
    {mfaCode recoveryCode clientIp userAgent : Option String} {e : Option Event}
    (hshown : ∀ userId, (Request.login email password mfaCode recoveryCode clientIp
      userAgent).ShowsIdentity c db userId → Shows userId)
    (h : loginRoute c db email password mfaCode recoveryCode clientIp userAgent = .ok (db', e)) :
    CredentialSteps c Shows used db db' := by
  unfold loginRoute at h
  split at h
  · next _ login hlogin =>
    cases h
    simp only [authenticateHuman, checkLoginPassword, checkLoginFactor, bind_eq_ok] at hlogin
    obtain ⟨found, ⟨_, _, hfound⟩, checked, ⟨_, _, _, hfactor, hchecked⟩, hlogin⟩ := hlogin
    obtain ⟨hrow, hcond⟩ := Option.filter_eq_some_iff.mp (orRaise_eq_ok.mp (refuseWith_ok hfound))
    rw [Bool.and_eq_true, hrow] at hcond
    have hemail : found.email = normalizeEmail c email := by simpa using List.find?_some hrow
    rw [orRaise_eq_ok.mp (refuseWith_ok hchecked)] at hfactor
    obtain ⟨hkept, hgiven⟩ := checkedUser_ok (refuseWith_ok hfactor)
    have hshows : Shows found.id := by
      refine hshown found.id ⟨found, List.mem_of_find?_eq_some hrow, rfl, hemail,
        of_decide_eq_true hcond.2, hcond.1, fun hmfa => ⟨checked, hgiven hmfa⟩⟩
    have hlogin := refuseWith_ok hlogin
    simp only [completeLogin, bind_eq_ok, pure_eq_ok] at hlogin
    obtain ⟨⟨_, created⟩, hcreated, _, _, _, _, _, _, hout⟩ := hlogin
    cases hout
    have hopened : Shows checked.id := hkept.1.id ▸ hshows
    refine (Relation.ReflTransGen.single (.kept ?_)).tail (createSession_opened hopened hcreated)
    exact credentialsKept_of_eq rfl rfl rfl rfl
  · next hrefused =>
    cases h
    exact .single (.kept (refuseLogin_credentialsKept hrefused))
  · cases h

theorem createRootUser_steps {name email password : String} {clientIp userAgent : Option String}
    {user : User} {created : CreatedSession} (hshown : Shows db.sequences.user)
    (h : createRootUser c db name email password clientIp userAgent = .ok (db', user, created)) :
    CredentialSteps c Shows used db db' := by
  simp only [createRootUser, bind_eq_ok, ensure_eq_ok, pure_eq_ok] at h
  obtain ⟨_, _, _, _, ⟨_, created⟩, h, hout⟩ := h
  cases hout
  exact (Relation.ReflTransGen.single (.kept (credentialsKept_of_eq rfl rfl rfl rfl))).tail
    (createSession_opened hshown h)

section

variable {user : User} {current : AuthSession} {e : Option Event}

theorem runSessionAction_steps {action : SessionAction} (hs : current ∈ db.authSessions)
    (howner : current.userId = user.id) (hshown : action.ShowsIdentity c user current → Shows user.id)
    (h : runSessionAction c db user current action = .ok (db', e)) :
    CredentialSteps c Shows used db db' := by
  cases action with
  | me =>
    cases h
    exact .refl
  | logout =>
    simp only [runSessionAction, bind_eq_ok, pure_eq_ok] at h
    obtain ⟨_, hrevoked, hout⟩ := h
    cases hout
    exact .single (.kept (credentialsKept_revokeSession hs hrevoked))
  | changePassword currentPassword newPassword =>
    simp only [runSessionAction, bind_eq_ok, pure_eq_ok] at h
    obtain ⟨⟨_, created⟩, h, hout⟩ := h
    cases hout
    exact changePassword_steps hshown h
  | beginMfaSetup currentPassword =>
    simp only [runSessionAction, beginMfaSetup, bind_eq_ok, pure_eq_ok] at h
    obtain ⟨⟨_, _⟩, ⟨_, _, _, _, _, _, h⟩, hout⟩ := h
    cases hout
    cases h
    exact .single (.kept (credentialsKept_saveSession hs
      ⟨rfl, rfl, rfl, rfl, rfl, rfl, rfl, fun h => h⟩))
  | confirmMfaSetup code =>
    simp only [runSessionAction, bind_eq_ok, pure_eq_ok] at h
    obtain ⟨⟨_, _⟩, h, _, _, hout⟩ := h
    cases hout
    exact confirmMfaSetup_steps hs howner hshown h
  | disableMfa currentPassword mfaCode recoveryCode =>
    simp only [runSessionAction, bind_eq_ok, pure_eq_ok] at h
    obtain ⟨⟨_, created⟩, h, hout⟩ := h
    cases hout
    exact disableMfa_steps (fun hpassword hfactor => hshown ⟨hpassword, hfactor⟩) h
  | reauthenticate password mfaCode recoveryCode =>
    simp only [runSessionAction, bind_eq_ok, pure_eq_ok] at h
    obtain ⟨⟨_, created⟩, h, hout⟩ := h
    cases hout
    exact reauthenticate_steps hs (fun hpassword hfactor => hshown ⟨hpassword, hfactor⟩) h
  | revokeOtherSessions =>
    simp only [runSessionAction, bind_eq_ok, pure_eq_ok] at h
    obtain ⟨_, _, _, _, hout⟩ := h
    cases hout
    exact .single (.kept credentialsKept_revokeUserSessions)
  | revokeAllSessions =>
    simp only [runSessionAction, bind_eq_ok, pure_eq_ok] at h
    obtain ⟨_, _, _, _, hout⟩ := h
    cases hout
    exact .single (.kept credentialsKept_revokeUserSessions)
  | authorize request document approve => exact authorizeRoute_steps hs howner h

end

/-- What any request does to sessions, codes and tokens. -/
theorem runRequest_steps {r : Request} {e : Option Event} (h : runRequest c db r = .ok (db', e)) :
    CredentialSteps c (fun userId => r.ShowsIdentity c db userId) (r.sessionHash? c) db db' := by
  cases r with
  | setupRoot name email password clientIp userAgent =>
    simp only [runRequest, bind_eq_ok, pure_eq_ok] at h
    obtain ⟨⟨_, _, _⟩, h, hout⟩ := h
    cases hout
    exact createRootUser_steps rfl h
  | login email password mfaCode recoveryCode clientIp userAgent =>
    exact loginRoute_steps (fun _ hshown => hshown) h
  | session token clientIp action =>
    simp only [runRequest, bind_eq_ok] at h
    obtain ⟨⟨mid, user, current⟩, hauth, h⟩ := h
    obtain ⟨hstep, _, hcurrent, howner⟩ := authenticateSession_touched hauth rfl
    refine (Relation.ReflTransGen.single hstep).trans (runSessionAction_steps hcurrent howner ?_ h)
    exact fun hshown => ⟨mid, user, current, hauth, rfl, hshown⟩
  | admin actorUserId action => exact .single (.kept (runAdminAction_credentialsKept h))
  | requestPasswordReset email clientIp =>
    simp only [runRequest, bind_eq_ok, pure_eq_ok] at h
    obtain ⟨⟨_, _⟩, h, hout⟩ := h
    cases hout
    exact .single (.kept (requestPasswordReset_credentialsKept h))
  | confirmPasswordReset token newPassword mfaCode recoveryCode =>
    simp only [runRequest, bind_eq_ok, pure_eq_ok] at h
    obtain ⟨⟨_, _⟩, h, hout⟩ := h
    cases hout
    exact .single (.kept (confirmPasswordReset_credentialsKept h))
  | registerClient clientName redirectUris =>
    simp only [runRequest, registerClient, bind_eq_ok, pure_eq_ok] at h
    obtain ⟨⟨_, _⟩, ⟨_, _, _, _, _, _, h⟩, hout⟩ := h
    cases hout
    cases h
    exact .single (.kept (credentialsKept_of_eq rfl rfl rfl rfl))
  | exchangeAuthorizationCode clientId code redirectUri codeVerifier resource =>
    simp only [runRequest, bind_eq_ok, pure_eq_ok] at h
    obtain ⟨⟨_, _, _⟩, h, hout⟩ := h
    cases hout
    exact exchangeAuthorizationCode_steps h
  | exchangeRefreshToken clientId refreshToken scope resource =>
    simp only [runRequest, bind_eq_ok, pure_eq_ok] at h
    obtain ⟨⟨_, _, _⟩, h, hout⟩ := h
    cases hout
    exact exchangeRefreshToken_steps h
  | revokeOAuthToken token =>
    cases h
    exact .single (.kept revokeOAuthToken_credentialsKept)

end Warp.Auth
