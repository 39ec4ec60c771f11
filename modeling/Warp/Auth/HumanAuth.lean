import Warp.Auth.Models
import Warp.Infra.Outcome
import Warp.Text
import Mathlib.Data.List.MinMax

/-!
# Sign-in

Password sign-in with a second factor, sessions, and the self-service changes of an account. Every
service returns the new database; a service that raises leaves no changes, except that a refused
sign-in keeps its throttle record.
-/

namespace Warp.Auth

open Infra

/-! ## Texts -/

/-- Truth of an optional text: it is there and not empty. -/
def given? (text : Option String) : Option String := text.filter (· ≠ "")

def truncate (n : ℕ) (text : String) : String := String.ofList (text.toList.take n)

/-- Digits that are no decimal digits, as ranges. -/
def digitRanges : List (ℕ × ℕ) :=
  [(0xb2, 0xb3), (0xb9, 0xb9), (0x1369, 0x1371), (0x19da, 0x19da), (0x2070, 0x2070),
    (0x2074, 0x2079), (0x2080, 0x2089), (0x2460, 0x2468), (0x2474, 0x247c), (0x2488, 0x2490),
    (0x24ea, 0x24ea), (0x24f5, 0x24fd), (0x24ff, 0x24ff), (0x2776, 0x277e), (0x2780, 0x2788),
    (0x278a, 0x2792), (0x10a40, 0x10a43), (0x10e60, 0x10e68), (0x11052, 0x1105a),
    (0x1f100, 0x1f10a)]

/-- `str.isdigit` of one character -/
def isDigit (c : Char) : Bool :=
  (Text.decimalValue? c).isSome || digitRanges.any fun r => r.1 ≤ c.toNat && c.toNat ≤ r.2

/-- `hmac.compare_digest` of two texts -/
def compareDigest (a b : String) : Except AuthError Bool :=
  if a.toList.all (·.toNat < 128) && b.toList.all (·.toNat < 128) then .ok (a == b)
  else .error .compareDigest

def normalizeEmail (c : Ctx) (email : String) : String := c.platform.casefold (Text.strip email)

def normalizeRecoveryCode (c : Ctx) (value : String) : String :=
  String.ofList ((c.platform.casefold (Text.strip value)).toList.filter (· ≠ ' '))

def hashSessionToken (c : Ctx) (token : String) : String := c.platform.sha256 token

def hashPassword (c : Ctx) (draw : ℕ) (password : String) : String :=
  c.platform.hashPassword (c.draws.salt draw) password

def verifyPassword (c : Ctx) (passwordHash password : String) : Bool :=
  c.platform.verifyPassword passwordHash password

/-- `_DUMMY_PASSWORD_HASH` -/
def dummyPasswordHash (c : Ctx) : String :=
  c.platform.hashPassword 0 "policyos-dummy-password-value"

/-! ## Second factors -/

/-- `_mfa_fernet`: the raw key, if it is long enough. -/
def mfaFernet (c : Ctx) : Except AuthError String :=
  if c.settings.mfaEncryptionKey.utf8ByteSize < 32 then
    .error (.runtime "AUTH_MFA_ENCRYPTION_KEY must contain at least 32 bytes")
  else .ok c.settings.mfaEncryptionKey

def encryptMfaSecret (c : Ctx) (secret : String) : Except AuthError String := do
  let key ← mfaFernet c
  return c.platform.fernetEncrypt key (c.draws.salt 0) secret

def decryptMfaSecret (c : Ctx) (ciphertext : String) : Except AuthError String := do
  let key ← mfaFernet c
  orRaise (c.platform.fernetDecrypt key ciphertext)
    (.runtime "The MFA encryption key is invalid or has changed")

def totpCode (p : Platform) (secret : String) (timestamp : ℤ) : String :=
  p.hotp secret (timestamp / 30)

def verifyTotp (c : Ctx) (secret code : String) : Except AuthError Bool :=
  let normalized := String.ofList (code.toList.filter isDigit)
  if normalized.length ≠ 6 then .ok false
  else
    [-1, 0, 1].anyM fun (offset : ℤ) =>
      compareDigest (totpCode c.platform secret ((c.now / 1000000 : ℕ) + offset * 30)) normalized

/-- The stored hash that a recovery code matches, as an index. -/
def matchingRecoveryCode? (c : Ctx) (hashes : List String) (recoveryCode : String) : Option ℕ :=
  hashes.findIdx? fun codeHash => verifyPassword c codeHash (normalizeRecoveryCode c recoveryCode)

/-- `verify_user_factor` with `consume_recovery`: the user after the check, or nothing if the factor
is wrong. -/
def verifyUserFactor (c : Ctx) (user : User) (mfaCode recoveryCode : Option String) :
    Except AuthError (Option User) :=
  match given? mfaCode, given? user.mfaSecretCiphertext with
  | some code, some ciphertext =>
    match decryptMfaSecret c ciphertext with
    | .error _ => .ok none
    | .ok secret => (verifyTotp c secret code).map fun valid => if valid then some user else none
  | _, _ =>
    match given? recoveryCode with
    | none => .ok none
    | some recovery =>
      .ok ((matchingRecoveryCode? c user.mfaRecoveryCodeHashes recovery).map fun index =>
        { user with mfaRecoveryCodeHashes := user.mfaRecoveryCodeHashes.eraseIdx index })

/-- The user after its second factor was checked, if it has one; nothing if the factor is wrong. -/
def checkedUser (c : Ctx) (user : User) (mfaCode recoveryCode : Option String) :
    Except AuthError (Option User) :=
  if user.mfaEnabled then verifyUserFactor c user mfaCode recoveryCode else .ok (some user)

/-! ## Sessions -/

structure CreatedSession where
  token : String
  record : AuthSession
deriving DecidableEq, Repr

def AuthDb.saveUser (db : AuthDb) (user : User) : AuthDb :=
  { db with users := db.users.insert user }

def AuthDb.saveSession (db : AuthDb) (record : AuthSession) : AuthDb :=
  { db with authSessions := db.authSessions.insert record }

def AuthDb.addSession (db : AuthDb) (record : AuthSession) : AuthDb :=
  { db with
    authSessions := db.authSessions.insert record
    sequences := { db.sequences with authSession := db.sequences.authSession + 1 } }

/-- The row that `create_session` adds. -/
def newSession (c : Ctx) (db : AuthDb) (userId : ℕ) (clientIp userAgent : Option String)
    (mfaVerified : Bool) : AuthSession where
  id := db.sequences.authSession
  userId := userId
  tokenHash := hashSessionToken c ("pos_" ++ c.draws.token)
  createdAt := c.now
  expiresAt := c.now + seconds c.settings.sessionTtlSeconds
  lastSeenAt := c.now
  reauthenticatedAt := c.now
  mfaVerifiedAt := if mfaVerified then some c.now else none
  createdIp := clientIp
  lastIp := clientIp
  userAgent := (given? userAgent).map (truncate 500)

def createSession (c : Ctx) (db : AuthDb) (userId : ℕ) (clientIp userAgent : Option String)
    (mfaVerified : Bool) : Except AuthError (AuthDb × CreatedSession) := do
  let record := newSession c db userId clientIp userAgent mfaVerified
  ensure (db.authSessions.rows.all fun s => s.tokenHash ≠ record.tokenHash)
    (.integrity "auth_sessions")
  return (db.addSession record, ⟨"pos_" ++ c.draws.token, record⟩)

/-- The changes of `authenticate_session` to the row it accepts. -/
def touchSession (c : Ctx) (record : AuthSession) (clientIp : Option String) : AuthSession :=
  { record with
    lastSeenAt := if seconds 60 ≤ c.now - record.lastSeenAt then c.now else record.lastSeenAt
    lastIp := if (given? clientIp).isSome then clientIp else record.lastIp }

def authenticateSession (c : Ctx) (db : AuthDb) (token : String) (clientIp : Option String) :
    Except AuthError (AuthDb × User × AuthSession) := do
  let record ← orRaise (db.authSessions.rows.find? (·.tokenHash = hashSessionToken c token))
    (.authentication "The user session is invalid" "invalid_session" .none)
  ensure record.revokedAt.isNone
    (.authentication "The user session has ended" "session_revoked" .none)
  ensure (c.now < record.expiresAt)
    (.authentication "The user session has expired" "session_expired" .none)
  ensure (c.now - record.lastSeenAt < seconds c.settings.sessionIdleTtlSeconds)
    (.authentication "The user session expired after being idle" "session_idle_expired" .none)
  -- the foreign key keeps the user of a session
  let user ← orRaise (db.users.find? record.userId) (.integrity "auth_sessions")
  ensure (user.status = .active)
    (.authentication "The user account is not active" "account_inactive" .none)
  let record := touchSession c record clientIp
  return (db.saveSession record, user, record)

/-- What `record_audit_log` demands of the actor, which is the address of the user here. -/
def auditActorFits (actor : String) : Bool :=
  (Text.strip actor) ≠ "" && (Text.strip actor).length ≤ 200

/-- `record_audit_log`, of which only the check matters here -/
def checkAuditActor (actor : String) : Except AuthError Unit :=
  ensure (auditActorFits actor) (.value "Audit actor must contain 1 to 200 characters")

def revokeSession (c : Ctx) (db : AuthDb) (user : User) (record : AuthSession) :
    Except AuthError AuthDb :=
  if record.revokedAt = none then do
    checkAuditActor user.email
    return db.saveSession { record with revokedAt := some c.now }
  else .ok db

/-- The row after `revoke_user_sessions`. -/
def revokeSessionRow (c : Ctx) (userId : ℕ) (kept : Option ℕ) (s : AuthSession) : AuthSession :=
  if s.userId = userId ∧ s.revokedAt = none ∧ kept ≠ some s.id then
    { s with revokedAt := some c.now }
  else s

theorem revokeSessionRow_id (c : Ctx) (userId : ℕ) (kept : Option ℕ) (s : AuthSession) :
    (revokeSessionRow c userId kept s).id = s.id := by
  unfold revokeSessionRow
  split <;> rfl

/-- The rows after `revoke_user_sessions`, where `kept` is the current session if it is not included. -/
def revokeUserSessions (c : Ctx) (db : AuthDb) (userId : ℕ) (kept : Option ℕ) : AuthDb :=
  { db with
    authSessions := db.authSessions.modify (revokeSessionRow c userId kept)
      (revokeSessionRow_id c userId kept) }

theorem mem_revokeUserSessions {c : Ctx} {db : AuthDb} {userId : ℕ} {kept : Option ℕ}
    {s : AuthSession} : s ∈ (revokeUserSessions c db userId kept).authSessions ↔
      ∃ s₀ ∈ db.authSessions, revokeSessionRow c userId kept s₀ = s :=
  Table.mem_modify (h := revokeSessionRow_id c userId kept)

/-- `session_recently_reauthenticated` -/
def sessionRecentlyReauthenticated (c : Ctx) (record : AuthSession) : Bool :=
  c.now - record.reauthenticatedAt < seconds c.settings.reauthTtlSeconds

/-! ## Root setup -/

def AuthDb.addUser (db : AuthDb) (user : User) : AuthDb :=
  { db with
    users := db.users.insert user
    sequences := { db.sequences with user := db.sequences.user + 1 } }

def createRootUser (c : Ctx) (db : AuthDb) (name email password : String)
    (clientIp userAgent : Option String) : Except AuthError (AuthDb × User × CreatedSession) := do
  ensure db.users.rows.isEmpty (.value "Root setup has already been completed")
  let user : User :=
    { id := db.sequences.user
      name := Text.strip name
      email := normalizeEmail c email
      passwordHash := hashPassword c 1 password
      isRoot := true
      passwordChangedAt := some c.now
      lastLoginAt := some c.now }
  checkAuditActor user.email
  let (db, created) ← createSession c (db.addUser user) user.id clientIp userAgent false
  return (db, user, created)

/-! ## Login -/

def throttleKey (c : Ctx) (email : String) (clientIp : Option String) : String :=
  c.platform.sha256 (email ++ "|" ++ (given? clientIp).getD "unknown")

def assertLoginNotThrottled (c : Ctx) (db : AuthDb) (keyHash : String) : Except AuthError Unit :=
  match (db.loginThrottles.find? keyHash).bind (·.lockedUntil) with
  | none => .ok ()
  | some lockedUntil =>
    if c.now < lockedUntil then
      .error (.authentication "Too many sign-in attempts. Try again later" "login_throttled"
        (.retryAfterSeconds (max 1 ((lockedUntil - c.now) / 1000000))))
    else .ok ()

/-- The record before `_record_login_failure` counts the failure. -/
def openThrottle (c : Ctx) (db : AuthDb) (keyHash : String) : LoginThrottle :=
  match db.loginThrottles.find? keyHash with
  | none => { keyHash := keyHash, failedCount := 0, windowStartedAt := c.now }
  | some record =>
    if seconds (15 * 60) ≤ c.now - record.windowStartedAt then
      { record with failedCount := 0, windowStartedAt := c.now, lockedUntil := none }
    else record

def recordLoginFailure (c : Ctx) (db : AuthDb) (keyHash : String) : AuthDb :=
  let record := openThrottle c db keyHash
  { db with
    loginThrottles := db.loginThrottles.insert
      { record with
        failedCount := record.failedCount + 1
        lockedUntil :=
          if 5 ≤ record.failedCount + 1 then some (c.now + seconds (15 * 60))
          else record.lockedUntil } }

/-- A refused login: the error and the state at that point. -/
structure LoginRefusal where
  error : AuthError
  db : AuthDb

/-- An error that changes nothing before it. -/
def refuseWith {α : Type} (db : AuthDb) (x : Except AuthError α) : Except LoginRefusal α :=
  x.mapError fun e => ⟨e, db⟩

/-- The user of a login whose password is right. -/
def checkLoginPassword (c : Ctx) (db : AuthDb) (normalized key password : String) :
    Except LoginRefusal User := do
  refuseWith db (assertLoginNotThrottled c db key)
  let user := db.users.rows.find? (·.email = normalized)
  let candidateHash := (user.map (·.passwordHash)).getD (dummyPasswordHash c)
  refuseWith (recordLoginFailure c db key) (orRaise
    (user.filter fun u => verifyPassword c candidateHash password && u.status = .active)
    (.authentication "Email or password is incorrect" "invalid_login" .none))

/-- The user of a login after its second factor, if it has one. -/
def checkLoginFactor (c : Ctx) (db : AuthDb) (user : User) (key : String)
    (mfaCode recoveryCode : Option String) : Except LoginRefusal User := do
  refuseWith db (ensure
    (!user.mfaEnabled || (given? mfaCode).isSome || (given? recoveryCode).isSome)
    (.authentication "A verification code is required" "mfa_required"
      (.methods ["totp", "recovery_code"])))
  let checked ← refuseWith db (checkedUser c user mfaCode recoveryCode)
  refuseWith (recordLoginFailure c db key) (orRaise checked
    (.authentication "The verification code is invalid" "invalid_mfa_code" .none))

/-- `bool(value and previous and not hmac.compare_digest(value, previous))` -/
def contextDiffers (value previous : Option String) : Except AuthError Bool :=
  match given? value, given? previous with
  | some value, some previous => (compareDigest value previous).map (!·)
  | _, _ => .ok false

/-- What a login grants. `found` is the row of the user before it, and `newContext` says whether the
address or the device is new. -/
structure Login where
  found : User
  user : User
  created : CreatedSession
  newContext : Bool

/-- The part of `authenticate_human` after the checks. -/
def completeLogin (c : Ctx) (db : AuthDb) (found checked : User) (key password : String)
    (clientIp userAgent : Option String) : Except AuthError (AuthDb × Login) := do
  let user :=
    { checked with
      passwordHash :=
        if c.platform.checkNeedsRehash checked.passwordHash then hashPassword c 1 password
        else checked.passwordHash
      lastLoginAt := some c.now }
  let previous := (db.authSessions.rows.filter (·.userId = user.id)).argmax (·.createdAt)
  let db := { db with loginThrottles := db.loginThrottles.filter (·.keyHash ≠ key) }
  let (db, created) ←
    createSession c (db.saveUser user) user.id clientIp userAgent user.mfaEnabled
  let newIp ← contextDiffers clientIp (previous.bind (·.createdIp))
  let newUserAgent ← contextDiffers ((given? userAgent).map (truncate 500))
    (previous.bind (·.userAgent))
  checkAuditActor user.email
  return (db,
    { found := found, user := user, created := created, newContext := newIp || newUserAgent })

def authenticateHuman (c : Ctx) (db : AuthDb) (email password : String)
    (mfaCode recoveryCode clientIp userAgent : Option String) :
    Except LoginRefusal (AuthDb × Login) := do
  let normalized := normalizeEmail c email
  let key := throttleKey c normalized clientIp
  let found ← checkLoginPassword c db normalized key password
  let checked ← checkLoginFactor c db found key mfaCode recoveryCode
  refuseWith db (completeLogin c db found checked key password clientIp userAgent)

/-! ## Account changes -/

def invalidCurrentPassword : AuthError :=
  .authentication "Current password is incorrect" "invalid_current_password" .none

def invalidMfaCode : AuthError :=
  .authentication "The verification code is invalid" "invalid_mfa_code" .none

def samePassword : AuthError :=
  .value "The new password must be different from the current password"

/-- The row with a password that the user has chosen. -/
def withNewPassword (c : Ctx) (user : User) (newPassword : String) : User :=
  { user with
    passwordHash := hashPassword c 1 newPassword
    passwordChangeRequired := false
    passwordChangedAt := some c.now }

def changePassword (c : Ctx) (db : AuthDb) (user : User) (currentSession : AuthSession)
    (currentPassword newPassword : String) : Except AuthError (AuthDb × CreatedSession) := do
  ensure (verifyPassword c user.passwordHash currentPassword) invalidCurrentPassword
  ensure (!verifyPassword c user.passwordHash newPassword) samePassword
  let user := withNewPassword c user newPassword
  let db := revokeUserSessions c (db.saveUser user) user.id none
  checkAuditActor user.email
  createSession c db user.id currentSession.lastIp currentSession.userAgent user.mfaEnabled

def beginMfaSetup (c : Ctx) (db : AuthDb) (user : User) (currentSession : AuthSession)
    (currentPassword : String) : Except AuthError (AuthDb × String) := do
  ensure (!user.mfaEnabled)
    (.value "Disable the current MFA method before enrolling a replacement")
  ensure (verifyPassword c user.passwordHash currentPassword) invalidCurrentPassword
  let encrypted ← encryptMfaSecret c c.draws.mfaSecret
  return (db.saveSession { currentSession with pendingMfaSecretCiphertext := some encrypted },
    c.draws.mfaSecret)

/-- What a confirmed enrollment stores: the secret that was confirmed and new recovery codes. -/
def enrolledUser (c : Ctx) (user : User) (encrypted : String) : User :=
  { user with
    mfaEnabled := true
    mfaSecretCiphertext := some encrypted
    mfaRecoveryCodeHashes := c.draws.recoveryCodes.zipIdx.map fun (value, index) =>
      hashPassword c (index + 1) (normalizeRecoveryCode c value) }

def confirmMfaSetup (c : Ctx) (db : AuthDb) (user : User) (currentSession : AuthSession)
    (code : String) : Except AuthError (AuthDb × List String) := do
  let encrypted ← orRaise (given? currentSession.pendingMfaSecretCiphertext)
    (.value "Start MFA setup before confirming a code")
  let secret ← decryptMfaSecret c encrypted
  let valid ← verifyTotp c secret code
  ensure valid invalidMfaCode
  checkAuditActor user.email
  return ((db.saveUser (enrolledUser c user encrypted)).saveSession
    { currentSession with
      pendingMfaSecretCiphertext := none
      mfaVerifiedAt := some c.now
      reauthenticatedAt := c.now }, c.draws.recoveryCodes)

def disableMfa (c : Ctx) (db : AuthDb) (user : User) (currentSession : AuthSession)
    (currentPassword : String) (mfaCode recoveryCode : Option String) :
    Except AuthError (AuthDb × CreatedSession) := do
  ensure (verifyPassword c user.passwordHash currentPassword) invalidCurrentPassword
  ensure user.mfaEnabled (.value "MFA is not enabled")
  let checked ← verifyUserFactor c user mfaCode recoveryCode
  ensure checked.isSome invalidMfaCode
  let user :=
    { user with mfaEnabled := false, mfaSecretCiphertext := none, mfaRecoveryCodeHashes := [] }
  let db := revokeUserSessions c (db.saveUser user) user.id none
  checkAuditActor user.email
  createSession c db user.id currentSession.lastIp currentSession.userAgent false

def reauthenticate (c : Ctx) (db : AuthDb) (user : User) (currentSession : AuthSession)
    (password : String) (mfaCode recoveryCode : Option String) :
    Except AuthError (AuthDb × CreatedSession) := do
  ensure (verifyPassword c user.passwordHash password)
    (.authentication "Password is incorrect" "invalid_current_password" .none)
  let checked ← checkedUser c user mfaCode recoveryCode
  let user ← orRaise checked
    (.authentication "A valid verification code is required" "invalid_mfa_code" .none)
  let db := (db.saveUser user).saveSession { currentSession with revokedAt := some c.now }
  createSession c db user.id currentSession.lastIp currentSession.userAgent user.mfaEnabled

/-! ## Password reset -/

def AuthDb.addPasswordResetToken (db : AuthDb) (record : PasswordResetToken) : AuthDb :=
  { db with
    passwordResetTokens := db.passwordResetTokens.insert record
    sequences :=
      { db.sequences with passwordResetToken := db.sequences.passwordResetToken + 1 } }

/-- `request_password_reset`: the token, or nothing without an active account. -/
def requestPasswordReset (c : Ctx) (db : AuthDb) (email : String) (clientIp : Option String) :
    Except AuthError (AuthDb × Option String) :=
  match (db.users.rows.find? (·.email = normalizeEmail c email)).filter (·.status = .active) with
  | none => .ok (db, none)
  | some user => do
    let kept := db.passwordResetTokens.filter fun r => !(r.userId = user.id && r.usedAt.isNone)
    let token := "prst_" ++ c.draws.token
    ensure (kept.rows.all (·.tokenHash ≠ hashSessionToken c token))
      (.integrity "password_reset_tokens")
    checkAuditActor user.email
    let db := { db with passwordResetTokens := kept }
    return (db.addPasswordResetToken
      { id := db.sequences.passwordResetToken
        userId := user.id
        tokenHash := hashSessionToken c token
        createdAt := c.now
        expiresAt := c.now + seconds (30 * 60)
        requestedIp := clientIp }, some token)

def confirmPasswordReset (c : Ctx) (db : AuthDb) (token newPassword : String)
    (mfaCode recoveryCode : Option String) : Except AuthError (AuthDb × User) := do
  let record ← orRaise
    ((db.passwordResetTokens.rows.find? (·.tokenHash = hashSessionToken c token)).filter
      fun r => r.usedAt.isNone && c.now < r.expiresAt)
    (.authentication "The password reset link is invalid or expired" "invalid_reset_token" .none)
  let user ← orRaise (db.users.find? record.userId) (.integrity "password_reset_tokens")
  ensure (user.status = .active)
    (.authentication "The user account is not active" "account_inactive" .none)
  let checked ← checkedUser c user mfaCode recoveryCode
  let user ← orRaise checked
    (.authentication "A valid verification or recovery code is required" "mfa_required" .none)
  ensure (!verifyPassword c user.passwordHash newPassword) samePassword
  checkAuditActor user.email
  let db := db.saveUser (withNewPassword c user newPassword)
  let db := { db with
    passwordResetTokens := db.passwordResetTokens.insert { record with usedAt := some c.now } }
  return (revokeUserSessions c db user.id none, withNewPassword c user newPassword)

end Warp.Auth
