import Warp.Auth.HumanAuth

/-!
# OAuth grants

A signed-in user consents to a client and gets an authorization code, the client exchanges it for an
access and a refresh token, and each refresh token for the next pair.
-/

namespace Warp.Auth

open Infra

def oauthScope : String := "policyos"

def oauthError (error description : String) : AuthError := .oauthProtocol error description 400

/-! ## Texts -/

/-- `str.split` without a separator -/
def splitWords : List Char → List Char → List String
  | word, [] => if word.isEmpty then [] else [String.ofList word.reverse]
  | word, c :: rest =>
    if Text.isSpace c then
      (if word.isEmpty then [] else [String.ofList word.reverse]) ++ splitWords [] rest
    else splitWords (c :: word) rest

/-- `str.rstrip("/")` -/
def rstripSlash (text : String) : String :=
  String.ofList ((text.toList.reverse.dropWhile (· = '/')).reverse)

def validatedScopes (scope : Option String) : Except AuthError (List String) := do
  let scopes := (splitWords [] ((given? scope).getD oauthScope).toList).eraseDups
  ensure (!scopes.isEmpty && scopes.all (· = oauthScope))
    (oauthError "invalid_scope" "Only the 'policyos' scope is supported")
  return scopes

def validPkceVerifier (c : Ctx) (verifier expectedChallenge : String) : Except AuthError Bool :=
  if 43 ≤ verifier.length ∧ verifier.length ≤ 128 then
    compareDigest (c.platform.pkceChallenge verifier) expectedChallenge
  else .ok false

/-! ## Addresses -/

def loopbackHosts : List String := ["localhost", "127.0.0.1", "::1"]

def validateRedirectUri (c : Ctx) (value : String) : Except AuthError String := do
  ensure (value.length ≤ 1000) (oauthError "invalid_redirect_uri" "A redirect URI is too long")
  let parsed := c.platform.urlparse value
  ensure (parsed.fragment = "" && given? parsed.username = none && given? parsed.password = none &&
      parsed.scheme ≠ "")
    (oauthError "invalid_redirect_uri" "A redirect URI is invalid")
  let loopback := c.platform.casefold (parsed.hostname.getD "") ∈ loopbackHosts
  ensure (parsed.scheme = "https" || (parsed.scheme = "http" && loopback))
    (oauthError "invalid_redirect_uri"
      "Redirect URIs must use HTTPS, except for HTTP loopback clients")
  return value

/-- `_redirect_uri_matches`: equal, up to the port of a loopback client. -/
def redirectUriMatches (c : Ctx) (requested registered : String) : Bool :=
  let a := c.platform.urlparse requested
  let b := c.platform.urlparse registered
  requested = registered ||
    (a.scheme = "http" && b.scheme = "http" && loopbackHosts.any (a.hostname = some ·) &&
      a.hostname = b.hostname && a.username.isNone && a.password.isNone && b.username.isNone &&
      b.password.isNone && a.port.isSome && b.port.isSome && a.path = b.path &&
      a.params = b.params && a.query = b.query && a.fragment = b.fragment)

def isClientMetadataDocumentId (c : Ctx) (clientId : String) : Bool :=
  let parsed := c.platform.urlparse clientId
  clientId.length ≤ 200 && parsed.scheme = "https" && parsed.hostname.isSome &&
    parsed.username.isNone && parsed.password.isNone && parsed.path ≠ "" && parsed.path ≠ "/" &&
    parsed.query = "" && parsed.fragment = ""

/-! ## Clients -/

def registerClient (c : Ctx) (db : AuthDb) (clientName : String) (redirectUris : List String) :
    Except AuthError (AuthDb × OAuthClient) := do
  let redirectUris ← traverseAll (validateRedirectUri c) redirectUris
  ensure (redirectUris.Nodup) (oauthError "invalid_client_metadata" "redirect_uris must be unique")
  let client : OAuthClient := ⟨"poc_" ++ c.draws.token, Text.strip clientName, redirectUris⟩
  ensure (db.oauthClients.find? client.clientId).isNone (.integrity "oauth_clients")
  return ({ db with oauthClients := db.oauthClients.insert client }, client)

/-- A fetched and validated client metadata document. -/
structure ClientMetadata where
  clientName : Option String
  redirectUris : List String
deriving DecidableEq, Repr

/-- `resolve_oauth_client`, where `document` is what fetching and validating the metadata document
of the client gives. -/
def resolveOAuthClient (c : Ctx) (db : AuthDb) (clientId : String)
    (document : Except AuthError ClientMetadata) : Except AuthError (AuthDb × OAuthClient) :=
  if isClientMetadataDocumentId c clientId then do
    let metadata ← document
    let clientName := Text.strip ((given? metadata.clientName).getD "MCP client")
    ensure (1 ≤ clientName.length && clientName.length ≤ 200)
      (oauthError "invalid_client_metadata" "client_name must contain 1 to 200 characters")
    let client : OAuthClient := ⟨clientId, clientName, metadata.redirectUris⟩
    return ({ db with oauthClients := db.oauthClients.insert client }, client)
  else do
    let client ← orRaise (db.oauthClients.find? clientId)
      (oauthError "invalid_request" "The OAuth client is not registered")
    return (db, client)

/-! ## Consent -/

structure AuthorizationRequest where
  clientId : String
  redirectUri : String
  responseType : String
  codeChallenge : String
  codeChallengeMethod : String
  scope : Option String
  resource : Option String
deriving DecidableEq, Repr

/-- `validate_authorization_request` once the client is known: scopes and resource. -/
def checkAuthorizationRequest (c : Ctx) (client : OAuthClient) (r : AuthorizationRequest) :
    Except AuthError (List String × String) := do
  ensure (client.redirectUris.any (redirectUriMatches c r.redirectUri))
    (oauthError "invalid_request" "The redirect URI is not registered")
  ensure (r.responseType = "code")
    (oauthError "unsupported_response_type" "Only code is supported")
  ensure (r.codeChallengeMethod = "S256" && 43 ≤ r.codeChallenge.length &&
      r.codeChallenge.length ≤ 128)
    (oauthError "invalid_request" "A valid S256 PKCE code challenge is required")
  let scopes ← validatedScopes r.scope
  let resource := rstripSlash ((given? r.resource).getD c.settings.mcpResourceUrl)
  ensure (resource = c.settings.mcpResourceUrl)
    (oauthError "invalid_target" "The requested resource is not this PolicyOS MCP server")
  return (scopes, resource)

def AuthDb.addCode (db : AuthDb) (record : OAuthAuthorizationCode) : AuthDb :=
  { db with
    oauthAuthorizationCodes := db.oauthAuthorizationCodes.insert record
    sequences :=
      { db.sequences with oauthAuthorizationCode := db.sequences.oauthAuthorizationCode + 1 } }

/-- The row that an approved consent adds. -/
def newCode (c : Ctx) (db : AuthDb) (user : User) (authSession : AuthSession)
    (r : AuthorizationRequest) (scopes : List String) (resource : String) :
    OAuthAuthorizationCode where
  id := db.sequences.oauthAuthorizationCode
  codeHash := hashSessionToken c ("pocd_" ++ c.draws.token)
  clientId := r.clientId
  userId := user.id
  redirectUri := r.redirectUri
  codeChallenge := r.codeChallenge
  scopes := scopes
  resource := resource
  createdAt := c.now
  expiresAt := c.now + seconds c.settings.authorizationCodeTtlSeconds
  reauthenticatedAt := authSession.reauthenticatedAt
  mfaVerified := authSession.mfaVerifiedAt.isSome

def issueCode (c : Ctx) (db : AuthDb) (user : User) (authSession : AuthSession)
    (r : AuthorizationRequest) (scopes : List String) (resource : String) :
    Except AuthError (AuthDb × OAuthAuthorizationCode) := do
  let record := newCode c db user authSession r scopes resource
  ensure (db.oauthAuthorizationCodes.rows.all (·.codeHash ≠ record.codeHash))
    (.integrity "oauth_authorization_codes")
  return (db.addCode record, record)

/-- `authorization_redirect`: the code, if the user approved. The client of a metadata document is
stored before the request is checked, and the route keeps it when the check fails. -/
def authorizationRedirect (c : Ctx) (db : AuthDb) (user : User) (authSession : AuthSession)
    (r : AuthorizationRequest) (document : Except AuthError ClientMetadata) (approve : Bool) :
    AuthDb × Except AuthError (AuthDb × Option OAuthAuthorizationCode) :=
  match resolveOAuthClient c db r.clientId document with
  | .error e => (db, .error e)
  | .ok (db, client) => (db, do
    let (scopes, resource) ← checkAuthorizationRequest c client r
    if approve then
      let (db, record) ← issueCode c db user authSession r scopes resource
      return (db, some record)
    else return (db, none))

/-! ## Tokens -/

def AuthDb.addToken (db : AuthDb) (record : OAuthToken) : AuthDb :=
  { db with
    oauthTokens := db.oauthTokens.insert record
    sequences := { db.sequences with oauthToken := db.sequences.oauthToken + 1 } }

/-- What `_issue_tokens` copies from the code or token it replaces. -/
structure Grant where
  userId : ℕ
  clientId : String
  scopes : List String
  resource : String
  reauthenticatedAt : Instant
  mfaVerified : Bool
deriving DecidableEq, Repr

def OAuthAuthorizationCode.grant (r : OAuthAuthorizationCode) : Grant where
  userId := r.userId
  clientId := r.clientId
  scopes := r.scopes
  resource := r.resource
  reauthenticatedAt := r.reauthenticatedAt
  mfaVerified := r.mfaVerified

def OAuthToken.grant (r : OAuthToken) : Grant where
  userId := r.userId
  clientId := r.clientId
  scopes := r.scopes
  resource := r.resource
  reauthenticatedAt := r.reauthenticatedAt
  mfaVerified := r.mfaVerified

/-- The row that `_issue_tokens` adds. -/
def newToken (c : Ctx) (db : AuthDb) (g : Grant) : OAuthToken where
  id := db.sequences.oauthToken
  accessTokenHash := hashSessionToken c ("poa_" ++ c.draws.token)
  refreshTokenHash := hashSessionToken c ("por_" ++ c.draws.refreshToken)
  clientId := g.clientId
  userId := g.userId
  scopes := g.scopes
  resource := g.resource
  createdAt := c.now
  accessExpiresAt := c.now + seconds c.settings.accessTokenTtlSeconds
  refreshExpiresAt := c.now + seconds c.settings.refreshTokenTtlSeconds
  reauthenticatedAt := g.reauthenticatedAt
  mfaVerified := g.mfaVerified

def issueTokens (c : Ctx) (db : AuthDb) (g : Grant) : Except AuthError (AuthDb × OAuthToken) := do
  let record := newToken c db g
  ensure (db.oauthTokens.rows.all fun t =>
      t.accessTokenHash ≠ record.accessTokenHash && t.refreshTokenHash ≠ record.refreshTokenHash)
    (.integrity "oauth_tokens")
  return (db.addToken record, record)

def AuthDb.saveCode (db : AuthDb) (record : OAuthAuthorizationCode) : AuthDb :=
  { db with oauthAuthorizationCodes := db.oauthAuthorizationCodes.insert record }

def AuthDb.saveToken (db : AuthDb) (record : OAuthToken) : AuthDb :=
  { db with oauthTokens := db.oauthTokens.insert record }

/-- Whether the resource of a token request, if there is one, is that of the grant. -/
def resourceMatches (resource : Option String) (granted : String) : Bool :=
  resource.all fun r => rstripSlash r = granted

def exchangeAuthorizationCode (c : Ctx) (db : AuthDb)
    (clientId code redirectUri codeVerifier : String) (resource : Option String) :
    Except AuthError (AuthDb × OAuthAuthorizationCode × OAuthToken) := do
  ensure (db.oauthClients.find? clientId).isSome
    (.oauthProtocol "invalid_client" "The OAuth client is not registered" 401)
  let record ← orRaise
    ((db.oauthAuthorizationCodes.rows.find? (·.codeHash = hashSessionToken c code)).filter fun r =>
      r.clientId = clientId && r.redirectUri = redirectUri && r.usedAt.isNone &&
        c.now < r.expiresAt)
    (oauthError "invalid_grant" "The authorization code is invalid or expired")
  ensure (resourceMatches resource record.resource)
    (oauthError "invalid_target" "The token resource does not match the authorization request")
  let valid ← validPkceVerifier c codeVerifier record.codeChallenge
  ensure valid (oauthError "invalid_grant" "PKCE verification failed")
  let (db, token) ← issueTokens c (db.saveCode { record with usedAt := some c.now }) record.grant
  return (db, record, token)

/-- The scopes that a refresh asks for, by default those it has. -/
def requestedScopes (granted : List String) : Option String → Except AuthError (List String)
  | none => .ok granted
  | some scope => validatedScopes (some scope)

def exchangeRefreshToken (c : Ctx) (db : AuthDb) (clientId refreshToken : String)
    (scope resource : Option String) : Except AuthError (AuthDb × OAuthToken × OAuthToken) := do
  let record ← orRaise
    ((db.oauthTokens.rows.find? (·.refreshTokenHash = hashSessionToken c refreshToken)).filter
      fun r => r.clientId = clientId && r.revokedAt.isNone && c.now < r.refreshExpiresAt)
    (oauthError "invalid_grant" "The refresh token is invalid or expired")
  let scopes ← requestedScopes record.scopes scope
  ensure (scopes.all (· ∈ record.scopes))
    (oauthError "invalid_scope" "Refresh cannot increase the granted scope")
  ensure (resourceMatches resource record.resource)
    (oauthError "invalid_target" "The token resource cannot be changed")
  let (db, token) ← issueTokens c (db.saveToken { record with revokedAt := some c.now })
    { record.grant with scopes := scopes }
  return (db, record, token)

def findActiveAccessToken (c : Ctx) (db : AuthDb) (token : String) : Option (OAuthToken × User) := do
  let record ← (db.oauthTokens.rows.find? (·.accessTokenHash = hashSessionToken c token)).filter
    fun r => r.revokedAt.isNone && c.now < r.accessExpiresAt
  let user ← (db.users.find? record.userId).filter
    fun u => u.status = .active && !u.passwordChangeRequired
  -- a token from before the last change of the password is dead
  if user.passwordChangedAt.all (· ≤ record.createdAt) then some (record, user) else none

def revokeOAuthToken (c : Ctx) (db : AuthDb) (token : String) : AuthDb :=
  let tokenHash := hashSessionToken c token
  match (db.oauthTokens.rows.find? fun t =>
      t.accessTokenHash = tokenHash || t.refreshTokenHash = tokenHash).filter
      (·.revokedAt.isNone) with
  | none => db
  | some record => db.saveToken { record with revokedAt := some c.now }

end Warp.Auth
