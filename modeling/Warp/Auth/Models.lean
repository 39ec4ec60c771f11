import Warp.Models

/-!
# Users, sessions and grants

The tables behind sign-in and OAuth. A token column holds the hash of a random text. Times are
microseconds.
-/

namespace Warp.Auth

open Infra

/-- Microseconds since the epoch, as `current_datetime` reads them. -/
abbrev Instant := ℕ

def seconds (n : ℕ) : ℕ := n * 1000000

/-! ## Rows -/

inductive UserStatus where
  | active
  | suspended
  | disabled
deriving DecidableEq, Repr

structure User where
  id : ℕ
  email : String
  name : String
  passwordHash : String
  status : UserStatus := .active
  isRoot : Bool := false
  passwordChangeRequired : Bool := false
  mfaEnabled : Bool := false
  mfaSecretCiphertext : Option String := none
  mfaRecoveryCodeHashes : List String := []
  passwordChangedAt : Option Instant := none
  employeeId : Option ℕ := none
  lastLoginAt : Option Instant := none
  roleIds : List ℕ := []
deriving DecidableEq, Repr

structure AuthSession where
  id : ℕ
  userId : ℕ
  tokenHash : String
  createdAt : Instant
  expiresAt : Instant
  lastSeenAt : Instant
  revokedAt : Option Instant := none
  reauthenticatedAt : Instant
  mfaVerifiedAt : Option Instant := none
  createdIp : Option String
  lastIp : Option String
  userAgent : Option String
  pendingMfaSecretCiphertext : Option String := none
deriving DecidableEq, Repr

structure LoginThrottle where
  keyHash : String
  failedCount : ℕ
  windowStartedAt : Instant
  lockedUntil : Option Instant := none
deriving DecidableEq, Repr

structure PasswordResetToken where
  id : ℕ
  userId : ℕ
  tokenHash : String
  createdAt : Instant
  expiresAt : Instant
  usedAt : Option Instant := none
  requestedIp : Option String
deriving DecidableEq, Repr

structure OAuthClient where
  clientId : String
  clientName : String
  redirectUris : List String
deriving DecidableEq, Repr

structure OAuthAuthorizationCode where
  id : ℕ
  codeHash : String
  clientId : String
  userId : ℕ
  redirectUri : String
  codeChallenge : String
  scopes : List String
  resource : String
  createdAt : Instant
  expiresAt : Instant
  usedAt : Option Instant := none
  reauthenticatedAt : Instant
  mfaVerified : Bool
deriving DecidableEq, Repr

structure OAuthToken where
  id : ℕ
  accessTokenHash : String
  refreshTokenHash : String
  clientId : String
  userId : ℕ
  scopes : List String
  resource : String
  createdAt : Instant
  accessExpiresAt : Instant
  refreshExpiresAt : Instant
  revokedAt : Option Instant := none
  reauthenticatedAt : Instant
  mfaVerified : Bool
deriving DecidableEq, Repr

inductive EmployeeScope where
  | all
  | reportingTree
  | self
  | none
deriving DecidableEq, Repr

inductive AssignmentFieldScope where
  | all
  | selected
  | none
deriving DecidableEq, Repr

/-- A role with its permissions and the assignment fields that it is linked to. -/
structure Role where
  id : ℕ
  name : String
  description : Option String := none
  employeeScope : EmployeeScope := .none
  assignmentFieldScope : AssignmentFieldScope := .none
  createdBy : String := ""
  permissions : List String := []
  assignmentFieldIds : List ℕ := []
deriving DecidableEq, Repr

instance : Row User ℕ := ⟨fun r => r.id⟩
instance : Row AuthSession ℕ := ⟨fun r => r.id⟩
instance : Row LoginThrottle String := ⟨fun r => r.keyHash⟩
instance : Row PasswordResetToken ℕ := ⟨fun r => r.id⟩
instance : Row OAuthClient String := ⟨fun r => r.clientId⟩
instance : Row OAuthAuthorizationCode ℕ := ⟨fun r => r.id⟩
instance : Row OAuthToken ℕ := ⟨fun r => r.id⟩
instance : Row Role ℕ := ⟨fun r => r.id⟩

/-- The next id of each table. -/
structure AuthSequences where
  user : ℕ := 1
  authSession : ℕ := 1
  passwordResetToken : ℕ := 1
  oauthAuthorizationCode : ℕ := 1
  oauthToken : ℕ := 1
  role : ℕ := 1
deriving DecidableEq, Repr

structure AuthDb where
  users : Table User
  authSessions : Table AuthSession
  loginThrottles : Table LoginThrottle
  passwordResetTokens : Table PasswordResetToken
  oauthClients : Table OAuthClient
  oauthAuthorizationCodes : Table OAuthAuthorizationCode
  oauthTokens : Table OAuthToken
  roles : Table Role
  employees : Table Employee
  assignmentFieldDefinitions : Table AssignmentFieldDefinition := .empty
  sequences : AuthSequences

/-- No accounts yet, over some roles and employees. -/
def AuthDb.initial (roles : Table Role) (employees : Table Employee) : AuthDb where
  users := .empty
  authSessions := .empty
  loginThrottles := .empty
  passwordResetTokens := .empty
  oauthClients := .empty
  oauthAuthorizationCodes := .empty
  oauthTokens := .empty
  roles := roles
  employees := employees
  sequences := {}

/-! ## Errors -/

/-- `metadata` of an `AuthenticationError` -/
inductive AuthMetadata where
  | none
  | methods (methods : List String)
  | retryAfterSeconds (n : ℕ)
deriving DecidableEq, Repr

inductive AuthError where
  /-- `AuthenticationError` -/
  | authentication (message code : String) (metadata : AuthMetadata)
  /-- `OAuthProtocolError` -/
  | oauthProtocol (error description : String) (statusCode : ℕ)
  /-- `ValueError` -/
  | value (message : String)
  /-- `RuntimeError` -/
  | runtime (message : String)
  /-- `LookupError` -/
  | lookup (message : String)
  /-- `TypeError` of `compare_digest` on a text with a character outside ASCII -/
  | compareDigest
  /-- `IntegrityError` of the database on a unique key -/
  | integrity (table : String)
  /-- `PermissionDeniedError` -/
  | permissionDenied (required granted : List String)
  /-- `HTTPException` -/
  | http (statusCode : ℕ) (detail : String)
deriving DecidableEq, Repr

/-! ## Settings and other programs -/

/-- The environment of the services. A lifetime that is out of its bounds stops every request that
reads it, so the settings here carry that it is within. -/
structure AuthSettings where
  sessionTtlSeconds : ℕ := 12 * 60 * 60
  sessionIdleTtlSeconds : ℕ := 30 * 60
  reauthTtlSeconds : ℕ := 10 * 60
  accessTokenTtlSeconds : ℕ := 3600
  refreshTokenTtlSeconds : ℕ := 30 * 86400
  authorizationCodeTtlSeconds : ℕ := 300
  mfaEncryptionKey : String
  mcpResourceUrl : String := "http://127.0.0.1:8001/mcp"
  oauthIssuerUrl : String := "http://127.0.0.1:8000"
  session_bounds : 300 ≤ sessionTtlSeconds ∧ sessionTtlSeconds ≤ 30 * 24 * 60 * 60
  idle_bounds : 60 ≤ sessionIdleTtlSeconds ∧ sessionIdleTtlSeconds ≤ 24 * 60 * 60
  reauth_bounds : 60 ≤ reauthTtlSeconds ∧ reauthTtlSeconds ≤ 60 * 60
  access_bounds : 300 ≤ accessTokenTtlSeconds ∧ accessTokenTtlSeconds ≤ 86400
  refresh_bounds : 3600 ≤ refreshTokenTtlSeconds ∧ refreshTokenTtlSeconds ≤ 90 * 86400
  code_bounds : 60 ≤ authorizationCodeTtlSeconds ∧ authorizationCodeTtlSeconds ≤ 600

/-- `urllib.parse.ParseResult`; the port is none when reading it raises. -/
structure ParsedUrl where
  scheme : String
  hostname : Option String
  port : Option (Option ℕ)
  username : Option String
  password : Option String
  path : String
  params : String
  query : String
  fragment : String
deriving DecidableEq, Repr

/-- What the services call in other packages: argon2, Fernet, HMAC, SHA-256, `urllib` and two ways to
put a text in lower case. -/
structure Platform where
  /-- `PasswordHasher.hash`, with the salt it draws -/
  hashPassword : ℕ → String → String
  /-- `verify_password` -/
  verifyPassword : String → String → Bool
  checkNeedsRehash : String → Bool
  /-- The Fernet token for a raw key, a drawn nonce and a text. -/
  fernetEncrypt : String → ℕ → String → String
  fernetDecrypt : String → String → Option String
  /-- The six digits that `totp_code` truncates from the HMAC of a base32 secret and a counter. -/
  hotp : String → ℤ → String
  sha256 : String → String
  /-- `_valid_pkce_verifier` after its length check: the challenge of a verifier. -/
  pkceChallenge : String → String
  casefold : String → String
  /-- `lower` of the database -/
  lower : String → String
  urlparse : String → ParsedUrl

/-- Stand-ins that keep every text as it is, for runs on concrete input. -/
def Platform.plain : Platform where
  hashPassword _ password := password
  verifyPassword passwordHash password := passwordHash == password
  checkNeedsRehash _ := false
  fernetEncrypt _ _ text := text
  fernetDecrypt _ text := some text
  hotp _ _ := "123456"
  sha256 text := text
  pkceChallenge verifier := verifier
  casefold text := text
  lower text := text
  urlparse _ :=
    { scheme := "https", hostname := some "client", port := some none, username := none,
      password := none, path := "", params := "", query := "", fragment := "" }

/-- What a request draws from `secrets`. -/
structure Draws where
  token : String
  refreshToken : String
  /-- Salts and nonces, numbered within the request. -/
  salt : ℕ → ℕ
  mfaSecret : String
  recoveryCodes : List String

/-- Draws with one text in all of them. -/
def Draws.plain (text : String) : Draws where
  token := text
  refreshToken := text
  salt _ := 0
  mfaSecret := text
  recoveryCodes := []

def AuthSettings.default : AuthSettings where
  mfaEncryptionKey := "0123456789abcdef0123456789abcdef"
  session_bounds := by decide
  idle_bounds := by decide
  reauth_bounds := by decide
  access_bounds := by decide
  refresh_bounds := by decide
  code_bounds := by decide

/-- What a request reads from the platform, the environment, `secrets` and the clock. -/
structure Ctx where
  platform : Platform
  settings : AuthSettings
  draws : Draws
  now : Instant

end Warp.Auth
