import Warp.Auth.OAuth
import Warp.Auth.Roles

/-!
# API credentials

Programs call with tokens that are issued for some operations. A bearer token is one of these, an access
token of a user, or the bootstrap token of the environment.
-/

namespace Warp.Auth

open Infra

/-! ## Scopes -/

def readScope : String := "read"

def previewScope : String := "preview"

def executeScope : String := "execute"

def auditScope : String := "audit"

def credentialsManageScope : String := "credentials:manage"

def actorOverrideScope : String := "actor:override"

def wildcardScope : String := "*"

/-- The keys of `OPERATION_SCOPES` -/
def operationScopes : List String :=
  [readScope, previewScope, executeScope, auditScope, credentialsManageScope, actorOverrideScope]

/-- `str.startswith` -/
def startsWith (text start : String) : Bool := start.toList.isPrefixOf text.toList

/-- `str.endswith` -/
def endsWith (text ending : String) : Bool := ending.toList.isSuffixOf text.toList

/-- `part in text` -/
def containsText (text part : String) : Bool :=
  text.toList.tails.any fun rest => part.toList.isPrefixOf rest

def requiredScope (method path : String) : String :=
  if startsWith path "/auth/credentials" then credentialsManageScope
  else if path = "/auth/scopes" then readScope
  else if startsWith path "/audit-logs" then auditScope
  else if startsWith path "/change-previews" then previewScope
  else if startsWith path "/assignment-queries" then readScope
  else if Text.upper method = "GET" then readScope
  else executeScope

/-! ## Rows -/

structure APICredential where
  id : ℕ
  name : String
  subject : String
  tokenPrefix : String
  tokenHash : String
  scopes : List String
  createdBy : String
  createdAt : Instant
  expiresAt : Option Instant := none
  revokedAt : Option Instant := none
deriving DecidableEq, Repr

instance : Row APICredential ℕ := ⟨fun r => r.id⟩

/-- The accounts with the credentials of programs. -/
structure ApiDb where
  auth : AuthDb
  apiCredentials : Table APICredential
  nextCredential : ℕ

/-! ## Errors and settings -/

inductive GateError where
  | auth (e : AuthError)
  /-- `AuthenticationError` with the id of a credential in its metadata -/
  | credential (message code : String) (credentialId : ℕ)
  /-- `AuthorizationError` -/
  | insufficientScope (required granted : List String)
  /-- `CredentialConflictError` -/
  | credentialConflict (name : String)
  /-- `CredentialValidationError` -/
  | credentialValidation (message code : String) (unknownScopes : List String)
deriving DecidableEq, Repr

/-- What the checks of requests read from the environment and from the application. -/
structure GateSettings where
  /-- `AUTH_BOOTSTRAP_TOKEN` -/
  bootstrapToken : Option String := none
  /-- `AUTH_BOOTSTRAP_SUBJECT` -/
  bootstrapSubject : String := "bootstrap"
  /-- `AUTH_REQUIRE_PRIVILEGED_MFA` -/
  privilegedMfaRequired : Bool := true
  browserAllowedOrigins : List String := []
  baseUrl : String

/-! ## Principals -/

inductive AuthenticationMethod where
  | oauthAccessToken
  | bootstrapToken
  | apiCredential
  | humanSession
deriving DecidableEq, Repr

structure AuthenticatedPrincipal where
  subject : String
  scopes : Finset String
  credentialId : Option ℕ
  credentialName : String
  authenticationMethod : AuthenticationMethod
  /-- `identity_kind` and `user_id`: a principal is a user if it has the id of one. -/
  userId : Option ℕ := none
  sessionId : Option ℕ := none
  permissions : Finset String := ∅
  clientId : Option String := none
  expiresAt : Option Instant := none
  resource : Option String := none
  reauthenticatedAt : Option Instant := none
  mfaVerified : Bool := false
deriving DecidableEq

def AuthenticatedPrincipal.hasScope (principal : AuthenticatedPrincipal) (scope : String) : Bool :=
  wildcardScope ∈ principal.scopes || scope ∈ principal.scopes

def AuthenticatedPrincipal.isUser (principal : AuthenticatedPrincipal) : Bool :=
  principal.userId.isSome

def authorize (principal : AuthenticatedPrincipal) (requiredScopes : Finset String) :
    Except GateError Unit :=
  ensure (decide (∀ scope ∈ requiredScopes, principal.hasScope scope = true))
    (.insufficientScope (sortedSet requiredScopes) (sortedSet principal.scopes))

def oauthPrincipal (db : AuthDb) (token : OAuthToken) (user : User) : AuthenticatedPrincipal where
  subject := user.email
  scopes := token.scopes.toFinset
  credentialId := some token.id
  credentialName := "oauth:" ++ token.clientId
  authenticationMethod := .oauthAccessToken
  userId := some user.id
  permissions := effectivePermissions db.roles user
  clientId := some token.clientId
  expiresAt := some token.accessExpiresAt
  resource := some token.resource
  reauthenticatedAt := some token.reauthenticatedAt
  mfaVerified := token.mfaVerified

def bootstrapPrincipal (subject : String) : AuthenticatedPrincipal where
  subject := subject
  scopes := {wildcardScope}
  credentialId := none
  credentialName := "bootstrap"
  authenticationMethod := .bootstrapToken

def credentialPrincipal (credential : APICredential) : AuthenticatedPrincipal where
  subject := credential.subject
  scopes := credential.scopes.toFinset
  credentialId := some credential.id
  credentialName := credential.name
  authenticationMethod := .apiCredential

/-- Whether the token is the bootstrap token of the environment, which has at least 32 bytes. -/
def isBootstrapToken (s : GateSettings) (token : String) : Except AuthError Bool :=
  match s.bootstrapToken with
  | none => .ok false
  | some bootstrap =>
    if 32 ≤ bootstrap.utf8ByteSize then compareDigest token bootstrap else .ok false

def authenticateToken (c : Ctx) (s : GateSettings) (db : ApiDb) (token : String) :
    Except GateError AuthenticatedPrincipal :=
  if startsWith token "poa_" then
    match findActiveAccessToken c db.auth token with
    | none => .error (.auth (.authentication "The OAuth access token is invalid or expired"
        "invalid_credential" .none))
    | some (record, user) => .ok (oauthPrincipal db.auth record user)
  else do
    let bootstrap ← (isBootstrapToken s token).mapError .auth
    if bootstrap then
      let subject := Text.strip s.bootstrapSubject
      ensure (subject ≠ "" && subject.length ≤ 200)
        (.auth (.authentication "AUTH_BOOTSTRAP_SUBJECT must contain 1 to 200 characters"
          "bootstrap_configuration_invalid" .none))
      return bootstrapPrincipal subject
    else do
      let credential ← orRaise
        (db.apiCredentials.rows.find? fun r => r.tokenHash = hashSessionToken c token)
        (.auth (.authentication "The bearer credential is invalid" "invalid_credential" .none))
      ensure credential.revokedAt.isNone
        (.credential "The bearer credential has been revoked" "credential_revoked" credential.id)
      ensure (credential.expiresAt.all fun t => c.now < t)
        (.credential "The bearer credential has expired" "credential_expired" credential.id)
      return credentialPrincipal credential

/-! ## Creating and revoking -/

/-- A request for a credential, with its texts stripped. -/
structure APICredentialCreate where
  name : String
  subject : String
  scopes : List String
  expiresAt : Option Instant := none
  name_bounds : 1 ≤ name.length ∧ name.length ≤ 200
  subject_bounds : 1 ≤ subject.length ∧ subject.length ≤ 200
  scopes_given : scopes ≠ [] ∧ "" ∉ scopes

def newCredential (c : Ctx) (db : ApiDb) (data : APICredentialCreate)
    (principal : AuthenticatedPrincipal) : APICredential where
  id := db.nextCredential
  name := data.name
  subject := data.subject
  tokenPrefix := truncate 12 ("wpa_" ++ c.draws.token)
  tokenHash := hashSessionToken c ("wpa_" ++ c.draws.token)
  scopes := sortedSet data.scopes.toFinset
  createdBy := principal.subject
  createdAt := c.now
  expiresAt := data.expiresAt

/-- `create_credential`: the credential, and the token that it is used with. -/
def createCredential (c : Ctx) (db : ApiDb) (data : APICredentialCreate)
    (principal : AuthenticatedPrincipal) : Except GateError (ApiDb × APICredential × String) := do
  let unknown := (sortedSet data.scopes.toFinset).filter fun scope => scope ∉ operationScopes
  ensure unknown.isEmpty (.credentialValidation ("Unknown operation scopes: ["
    ++ String.intercalate ", " (unknown.map fun scope => "'" ++ scope ++ "'") ++ "]")
    "unknown_operation_scope" unknown)
  ensure (data.expiresAt.all fun t => c.now < t)
    (.credentialValidation "expires_at must be in the future" "credential_expiry_not_future" [])
  ensure (db.apiCredentials.rows.all fun r => r.name ≠ data.name) (.credentialConflict data.name)
  let credential := newCredential c db data principal
  ensure (db.apiCredentials.rows.all fun r => r.tokenHash ≠ credential.tokenHash)
    (.auth (.integrity "api_credentials"))
  return ({ db with
      apiCredentials := db.apiCredentials.insert credential
      nextCredential := db.nextCredential + 1 },
    credential, "wpa_" ++ c.draws.token)

/-- `revoke_credential`. A credential that is revoked stays as it is. -/
def revokeCredential (c : Ctx) (db : ApiDb) (credentialId : ℕ) :
    Except GateError (ApiDb × APICredential) := do
  let credential ← orRaise (db.apiCredentials.find? credentialId)
    (.auth (.http 404 s!"API credential {credentialId} not found"))
  if credential.revokedAt.isNone then
    let revoked := { credential with revokedAt := some c.now }
    return ({ db with apiCredentials := db.apiCredentials.insert revoked }, revoked)
  else return (db, credential)

end Warp.Auth
