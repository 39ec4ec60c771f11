import Warp.Auth.Requests
import Warp.Infra.Numbering

/-!
# Concurrent token requests

Consents and requests at the token endpoint. A request locks the row of the code or refresh token that
it presents until it ends, and the unique indexes make two transactions with one hash wait for each
other. A refused request ends like any other: the route answers, and whatever it wrote is committed.
-/

namespace Warp.Auth

open Infra

/-- A code or a refresh token, by the id of its row. -/
inductive GrantKey where
  | code (id : ℕ)
  | token (id : ℕ)
deriving DecidableEq, Repr

def GrantKey.credential : GrantKey → Credential
  | .code id => .code id
  | .token id => .token id

/-! ## New rows -/

/-- The row of an approved consent under an id. -/
def codeRow (c : Ctx) (id : ℕ) (user : User) (authSession : AuthSession) (r : AuthorizationRequest)
    (scopes : List String) (resource : String) : OAuthAuthorizationCode where
  id := id
  codeHash := hashSessionToken c ("pocd_" ++ c.draws.token)
  clientId := r.clientId
  userId := user.id
  redirectUri := r.redirectUri
  codeChallenge := r.codeChallenge
  scopes := scopes
  resource := resource
  createdAt := c.now
  expiresAt := c.now + seconds c.settings.authorizationCodeTtlSeconds
  reauthenticatedAt := authSession.reauthenticatedAt
  mfaVerified := authSession.mfaVerifiedAt.isSome

theorem newCode_eq (c : Ctx) (db : AuthDb) (user : User) (authSession : AuthSession)
    (r : AuthorizationRequest) (scopes : List String) (resource : String) :
    newCode c db user authSession r scopes resource =
      codeRow c db.sequences.oauthAuthorizationCode user authSession r scopes resource := rfl

/-- The row of an issued pair of tokens under an id. -/
def tokenRow (c : Ctx) (id : ℕ) (g : Grant) : OAuthToken where
  id := id
  accessTokenHash := hashSessionToken c ("poa_" ++ c.draws.token)
  refreshTokenHash := hashSessionToken c ("por_" ++ c.draws.refreshToken)
  clientId := g.clientId
  userId := g.userId
  scopes := g.scopes
  resource := g.resource
  createdAt := c.now
  accessExpiresAt := c.now + seconds c.settings.accessTokenTtlSeconds
  refreshExpiresAt := c.now + seconds c.settings.refreshTokenTtlSeconds
  reauthenticatedAt := g.reauthenticatedAt
  mfaVerified := g.mfaVerified

theorem newToken_eq (c : Ctx) (db : AuthDb) (g : Grant) :
    newToken c db g = tokenRow c db.sequences.oauthToken g := rfl

@[simp] theorem tokenRow_grant (c : Ctx) (id : ℕ) (g : Grant) : (tokenRow c id g).grant = g := rfl

/-! ## Rows -/

/-- The codes and tokens, and what was exchanged for what, the latest first. -/
structure GrantState where
  codes : Table OAuthAuthorizationCode
  tokens : Table OAuthToken
  log : List Event

inductive GrantWrite where
  | insertCode (record : OAuthAuthorizationCode)
  | exchange (key : GrantKey) (now : Instant) (token : OAuthToken)
  | refuse (e : AuthError)

def useCode (codes : Table OAuthAuthorizationCode) (id : ℕ) (now : Instant) :
    Table OAuthAuthorizationCode :=
  codes.modify (fun r => if r.id = id then { r with usedAt := some now } else r)
    fun r => by split <;> rfl

def revokeToken (tokens : Table OAuthToken) (id : ℕ) (now : Instant) : Table OAuthToken :=
  tokens.modify (fun t => if t.id = id then { t with revokedAt := some now } else t)
    fun t => by split <;> rfl

def exchangeEvent (token : OAuthToken) : GrantKey → Event
  | .code id => .exchanged token.id id token.userId
  | .token id => .refreshed token.id id token.userId

/-- The presented code or token is used up, and the new pair is stored. -/
def GrantState.exchange (s : GrantState) (key : GrantKey) (now : Instant) (token : OAuthToken) :
    GrantState where
  codes := match key with
    | .code id => useCode s.codes id now
    | .token _ => s.codes
  tokens := (match key with
    | .code _ => s.tokens
    | .token id => revokeToken s.tokens id now).insert token
  log := exchangeEvent token key :: s.log

def applyGrantWrite (s : GrantState) : GrantWrite → GrantState
  | .insertCode record => { s with codes := s.codes.insert record }
  | .exchange key now token => s.exchange key now token
  | .refuse _ => s

/-! ## Checks -/

/-- The part of `exchange_authorization_code` before the code is used. -/
def checkCode (c : Ctx) (clients : Table OAuthClient) (codes : Table OAuthAuthorizationCode)
    (clientId code redirectUri codeVerifier : String) (resource : Option String) :
    Except AuthError OAuthAuthorizationCode := do
  ensure (clients.find? clientId).isSome
    (.oauthProtocol "invalid_client" "The OAuth client is not registered" 401)
  let record ← orRaise
    ((codes.rows.find? (·.codeHash = hashSessionToken c code)).filter fun r =>
      r.clientId = clientId && r.redirectUri = redirectUri && r.usedAt.isNone &&
        c.now < r.expiresAt)
    (oauthError "invalid_grant" "The authorization code is invalid or expired")
  ensure (resourceMatches resource record.resource)
    (oauthError "invalid_target" "The token resource does not match the authorization request")
  let valid ← validPkceVerifier c codeVerifier record.codeChallenge
  ensure valid (oauthError "invalid_grant" "PKCE verification failed")
  return record

/-- The part of `exchange_refresh_token` before the token is revoked: the row and the scopes. -/
def checkRefreshToken (c : Ctx) (tokens : Table OAuthToken) (clientId refreshToken : String)
    (scope resource : Option String) : Except AuthError (OAuthToken × List String) := do
  let record ← orRaise
    ((tokens.rows.find? (·.refreshTokenHash = hashSessionToken c refreshToken)).filter
      fun r => r.clientId = clientId && r.revokedAt.isNone && c.now < r.refreshExpiresAt)
    (oauthError "invalid_grant" "The refresh token is invalid or expired")
  let scopes ← requestedScopes record.scopes scope
  ensure (scopes.all (· ∈ record.scopes))
    (oauthError "invalid_scope" "Refresh cannot increase the granted scope")
  ensure (resourceMatches resource record.resource)
    (oauthError "invalid_target" "The token resource cannot be changed")
  return (record, scopes)

/-! ## Statements -/

inductive GrantOp where
  | consent (c : Ctx) (user : User) (authSession : AuthSession) (client : OAuthClient)
      (r : AuthorizationRequest)
  | exchangeCode (c : Ctx) (clientId code redirectUri codeVerifier : String)
      (resource : Option String)
  | exchangeRefresh (c : Ctx) (clientId refreshToken : String) (scope resource : Option String)
  | issue (c : Ctx) (key : GrantKey) (g : Grant)

/-- A row, or the place of a hash in a unique index. -/
inductive GrantLock where
  | row (key : GrantKey)
  | codeHash (codeHash : String)
  | accessHash (accessTokenHash : String)
  | refreshHash (refreshTokenHash : String)
deriving DecidableEq

def lockGrantRows (clients : Table OAuthClient) (s : GrantState) : GrantOp → List GrantLock
  | .consent c .. => [.codeHash (hashSessionToken c ("pocd_" ++ c.draws.token))]
  | .exchangeCode c clientId code .. =>
    if (clients.find? clientId).isSome then
      (s.codes.rows.find? (·.codeHash = hashSessionToken c code)).toList.map fun r =>
        .row (.code r.id)
    else []
  | .exchangeRefresh c _ refreshToken .. =>
    (s.tokens.rows.find? (·.refreshTokenHash = hashSessionToken c refreshToken)).toList.map fun t =>
      .row (.token t.id)
  | .issue c key _ =>
    [.row key, .accessHash (hashSessionToken c ("poa_" ++ c.draws.token)),
      .refreshHash (hashSessionToken c ("por_" ++ c.draws.refreshToken))]

/-- The route answers a protocol error, and every other error rolls back. -/
def answer : Except AuthError (List GrantOp) → Except AuthError (List GrantOp × List GrantWrite)
  | .ok ops => .ok (ops, [])
  | .error (.oauthProtocol error description statusCode) =>
    .ok ([], [.refuse (.oauthProtocol error description statusCode)])
  | .error e => .error e

def runGrantOp (clients : Table OAuthClient) (n : ℕ) (s : GrantState) :
    GrantOp → Except AuthError (List GrantOp × List GrantWrite)
  | .consent c user authSession client r => do
    let (scopes, resource) ← checkAuthorizationRequest c client r
    let record := codeRow c n user authSession r scopes resource
    ensure (s.codes.rows.all (·.codeHash ≠ record.codeHash)) (.integrity "oauth_authorization_codes")
    return ([], [.insertCode record])
  | .exchangeCode c clientId code redirectUri codeVerifier resource =>
    answer ((checkCode c clients s.codes clientId code redirectUri codeVerifier resource).map
      fun record => [.issue c (.code record.id) record.grant])
  | .exchangeRefresh c clientId refreshToken scope resource =>
    answer ((checkRefreshToken c s.tokens clientId refreshToken scope resource).map
      fun (record, scopes) =>
        [.issue c (.token record.id) { record.grant with scopes := scopes }])
  | .issue c key g => do
    let record := tokenRow c n g
    ensure (s.tokens.rows.all fun t =>
        t.accessTokenHash ≠ record.accessTokenHash && t.refreshTokenHash ≠ record.refreshTokenHash)
      (.integrity "oauth_tokens")
    return ([], [.exchange key c.now record])

def grantCode (clients : Table OAuthClient) :
    Code GrantState GrantWrite GrantOp AuthError GrantLock where
  apply := applyGrantWrite
  locks _ s op := lockGrantRows clients s op
  exec n _ s op := runGrantOp clients n s op

/-! ## Requests -/

inductive GrantTransaction where
  | consent (c : Ctx) (user : User) (authSession : AuthSession) (client : OAuthClient)
      (r : AuthorizationRequest)
  | exchangeAuthorizationCode (c : Ctx) (clientId code redirectUri codeVerifier : String)
      (resource : Option String)
  | exchangeRefreshToken (c : Ctx) (clientId refreshToken : String) (scope resource : Option String)

def GrantTransaction.op : GrantTransaction → GrantOp
  | .consent c user authSession client r => .consent c user authSession client r
  | .exchangeAuthorizationCode c clientId code redirectUri codeVerifier resource =>
    .exchangeCode c clientId code redirectUri codeVerifier resource
  | .exchangeRefreshToken c clientId refreshToken scope resource =>
    .exchangeRefresh c clientId refreshToken scope resource

abbrev GrantWorld := World GrantState GrantWrite GrantOp AuthError GrantLock

/-- Nothing has been granted yet. -/
def grantWorld (transactions : List GrantTransaction) : GrantWorld :=
  World.init ⟨.empty, .empty, []⟩ (transactions.map fun transaction => [transaction.op]) 1

/-! ## The services

A request on its own does what the service does. -/

section

variable {c : Ctx} {db db' : AuthDb} {token : OAuthToken} {log : List Event}

def AuthDb.grants (db : AuthDb) (log : List Event) : GrantState :=
  ⟨db.oauthAuthorizationCodes, db.oauthTokens, log⟩

theorem mem_useCode {codes : Table OAuthAuthorizationCode} {id : ℕ} {now : Instant}
    {r : OAuthAuthorizationCode} : r ∈ useCode codes id now ↔
      (r ∈ codes ∧ r.id ≠ id) ∨ ∃ r₀ ∈ codes, r₀.id = id ∧ { r₀ with usedAt := some now } = r :=
  Table.mem_modify_if

theorem mem_revokeToken {tokens : Table OAuthToken} {id : ℕ} {now : Instant} {t : OAuthToken} :
    t ∈ revokeToken tokens id now ↔
      (t ∈ tokens ∧ t.id ≠ id) ∨ ∃ t₀ ∈ tokens, t₀.id = id ∧ { t₀ with revokedAt := some now } = t :=
  Table.mem_modify_if

theorem insert_eq_useCode {codes : Table OAuthAuthorizationCode} {record : OAuthAuthorizationCode}
    (h : record ∈ codes) (now : Instant) :
    codes.insert { record with usedAt := some now } = useCode codes record.id now := by
  refine Table.ext_mem fun r => ?_
  rw [Table.mem_insert, mem_useCode, or_comm]
  refine or_congr_right ⟨?_, ?_⟩
  · rintro rfl
    exact ⟨record, h, rfl, rfl⟩
  · rintro ⟨r₀, hr₀, hid, rfl⟩
    rw [Table.key_inj hr₀ h hid]

theorem insert_eq_revokeToken {tokens : Table OAuthToken} {record : OAuthToken}
    (h : record ∈ tokens) (now : Instant) :
    tokens.insert { record with revokedAt := some now } = revokeToken tokens record.id now := by
  refine Table.ext_mem fun t => ?_
  rw [Table.mem_insert, mem_revokeToken, or_comm]
  refine or_congr_right ⟨?_, ?_⟩
  · rintro rfl
    exact ⟨record, h, rfl, rfl⟩
  · rintro ⟨t₀, ht₀, hid, rfl⟩
    rw [Table.key_inj ht₀ h hid]

theorem issueTokens_tokens {g : Grant} (h : issueTokens c db g = .ok (db', token)) :
    token = tokenRow c db.sequences.oauthToken g ∧
      db'.oauthAuthorizationCodes = db.oauthAuthorizationCodes ∧
      db'.oauthTokens = db.oauthTokens.insert token := by
  simp only [issueTokens, bind_eq_ok, pure_eq_ok] at h
  obtain ⟨_, _, hout⟩ := h
  cases hout
  exact ⟨rfl, rfl, rfl⟩

theorem exchangeAuthorizationCode_write {clientId code redirectUri codeVerifier : String}
    {resource : Option String} {record : OAuthAuthorizationCode}
    (h : exchangeAuthorizationCode c db clientId code redirectUri codeVerifier resource =
      .ok (db', record, token)) :
    checkCode c db.oauthClients db.oauthAuthorizationCodes clientId code redirectUri codeVerifier
        resource = .ok record ∧
      token = tokenRow c db.sequences.oauthToken record.grant ∧
      db'.grants (exchangeEvent token (.code record.id) :: log) =
        applyGrantWrite (db.grants log) (.exchange (.code record.id) c.now token) := by
  simp only [exchangeAuthorizationCode, bind_eq_ok, ensure_eq_ok, orRaise_eq_ok, pure_eq_ok,
    exists_const] at h
  obtain ⟨hclient, record, hrecord, hresource, valid, hvalid, hok, ⟨db₁, token⟩, hissue, hout⟩ := h
  cases hout
  have hmem := List.mem_of_find?_eq_some (Option.filter_eq_some_iff.mp hrecord).1
  obtain ⟨rfl, hcodes, htokens⟩ := issueTokens_tokens hissue
  refine ⟨?_, rfl, ?_⟩
  · simp only [checkCode, bind_eq_ok, ensure_eq_ok, orRaise_eq_ok, pure_eq_ok, exists_const]
    exact ⟨hclient, record, hrecord, hresource, valid, hvalid, hok, rfl⟩
  · rw [AuthDb.grants, hcodes, htokens, AuthDb.saveCode, insert_eq_useCode hmem]
    rfl

theorem exchangeRefreshToken_write {clientId refreshToken : String}
    {scope resource : Option String} {record : OAuthToken}
    (h : exchangeRefreshToken c db clientId refreshToken scope resource = .ok (db', record, token)) :
    ∃ scopes, checkRefreshToken c db.oauthTokens clientId refreshToken scope resource =
        .ok (record, scopes) ∧
      token = tokenRow c db.sequences.oauthToken { record.grant with scopes := scopes } ∧
      db'.grants (exchangeEvent token (.token record.id) :: log) =
        applyGrantWrite (db.grants log) (.exchange (.token record.id) c.now token) := by
  simp only [exchangeRefreshToken, bind_eq_ok, ensure_eq_ok, orRaise_eq_ok, pure_eq_ok,
    exists_const] at h
  obtain ⟨record, hrecord, scopes, hscopes, hwithin, hresource, ⟨db₁, token⟩, hissue, hout⟩ := h
  cases hout
  have hmem := List.mem_of_find?_eq_some (Option.filter_eq_some_iff.mp hrecord).1
  obtain ⟨rfl, hcodes, htokens⟩ := issueTokens_tokens hissue
  refine ⟨scopes, ?_, rfl, ?_⟩
  · simp only [checkRefreshToken, bind_eq_ok, ensure_eq_ok, orRaise_eq_ok, pure_eq_ok, exists_const]
    exact ⟨record, hrecord, scopes, hscopes, hwithin, hresource, rfl⟩
  · rw [AuthDb.grants, hcodes, htokens, AuthDb.saveToken, insert_eq_revokeToken hmem]
    rfl

end

end Warp.Auth
