import Warp.Auth.AccessControl
import Warp.Auth.OAuth
import Warp.Infra.Provenance

/-!
# Requests and runs

The routes of sign-in, OAuth and user administration, each one transaction, and runs of them. A log
records what every request that went through has issued and which accounts it has closed; the
program itself keeps no such log.
-/

namespace Warp.Auth

open Infra

/-! ## The log -/

inductive Credential where
  | session (id : ℕ)
  | code (id : ℕ)
  | token (id : ℕ)
deriving DecidableEq, Repr

/-- What a request has done to credentials. `user` is the row before the request, the codes are
what the request presented. -/
inductive Event where
  | rootCreated (session userId : ℕ)
  | loggedIn (session : ℕ) (user : User) (mfaCode recoveryCode : Option String) (ctx : Ctx)
  | reauthenticated (session current : ℕ) (user : User) (mfaCode recoveryCode : Option String)
      (ctx : Ctx)
  | mfaConfirmed (session userId : ℕ) (secret code : String) (ctx : Ctx)
  | mfaDisabled (session current userId : ℕ)
  | passwordChanged (session current userId : ℕ)
  | passwordReset (userId : ℕ)
  | passwordResetByAdministrator (userId : ℕ)
  | deactivated (userId : ℕ)
  | consented (code session userId : ℕ)
  | exchanged (token code userId : ℕ)
  | refreshed (token previous userId : ℕ)

def Event.issue : Event → Option (Issue Credential ℕ)
  | .rootCreated session userId => some ⟨.session session, userId, none⟩
  | .loggedIn session user _ _ _ => some ⟨.session session, user.id, none⟩
  | .reauthenticated session current user _ _ _ =>
    some ⟨.session session, user.id, some (.session current)⟩
  | .mfaDisabled session current userId => some ⟨.session session, userId, some (.session current)⟩
  | .passwordChanged session current userId =>
    some ⟨.session session, userId, some (.session current)⟩
  | .consented code session userId => some ⟨.code code, userId, some (.session session)⟩
  | .exchanged token code userId => some ⟨.token token, userId, some (.code code)⟩
  | .refreshed token previous userId => some ⟨.token token, userId, some (.token previous)⟩
  | .mfaConfirmed .. | .passwordReset _ | .passwordResetByAdministrator _ | .deactivated _ => none

/-- The user whose credentials the request has ended. -/
def Event.ends : Event → Option ℕ
  | .passwordChanged _ _ userId => some userId
  | .passwordReset userId => some userId
  | .passwordResetByAdministrator userId => some userId
  | .deactivated userId => some userId
  | _ => none

instance : Ledger Event Credential ℕ := ⟨Event.issue, Event.ends⟩

/-- The request presented a valid TOTP or recovery code of the user in this session. -/
def Event.ShowsFactor (userId : ℕ) (k : Credential) : Event → Prop
  | .loggedIn session user mfaCode recoveryCode c =>
    k = .session session ∧ user.id = userId ∧
      ∃ user', verifyUserFactor c user mfaCode recoveryCode = .ok (some user')
  | .reauthenticated session _ user mfaCode recoveryCode c =>
    k = .session session ∧ user.id = userId ∧
      ∃ user', verifyUserFactor c user mfaCode recoveryCode = .ok (some user')
  | .mfaConfirmed session owner secret code c =>
    k = .session session ∧ owner = userId ∧ verifyTotp c secret code = .ok true
  | _ => False

/-! ## Requests -/

/-- The routes that need a session. -/
inductive SessionAction where
  | me
  | logout
  | changePassword (currentPassword newPassword : String)
  | beginMfaSetup (currentPassword : String)
  | confirmMfaSetup (code : String)
  | disableMfa (currentPassword : String) (mfaCode recoveryCode : Option String)
  | reauthenticate (password : String) (mfaCode recoveryCode : Option String)
  | revokeOtherSessions
  | revokeAllSessions
  | authorize (request : AuthorizationRequest) (document : Except AuthError ClientMetadata)
      (approve : Bool)

/-- User administration, on behalf of a user or of another client. -/
inductive AdminAction where
  | createUser (name email password : String) (roleIds : List ℕ) (employeeId : Option ℕ)
  | updateUser (userId : ℕ) (data : UserUpdate)
  | resetUserPassword (userId : ℕ) (password : String)
  | disableUser (userId : ℕ)

inductive Request where
  | setupRoot (name email password : String) (clientIp userAgent : Option String)
  | login (email password : String) (mfaCode recoveryCode clientIp userAgent : Option String)
  | session (token : String) (clientIp : Option String) (action : SessionAction)
  | admin (actorUserId : Option ℕ) (action : AdminAction)
  | requestPasswordReset (email : String) (clientIp : Option String)
  | confirmPasswordReset (token newPassword : String) (mfaCode recoveryCode : Option String)
  | registerClient (clientName : String) (redirectUris : List String)
  | exchangeAuthorizationCode (clientId code redirectUri codeVerifier : String)
      (resource : Option String)
  | exchangeRefreshToken (clientId refreshToken : String) (scope resource : Option String)
  | revokeOAuthToken (token : String)

/-- A transaction that goes through, with the event it leaves in the log. -/
abbrev Outcome := Except AuthError (AuthDb × Option Event)

/-- `oauth_authorize_decision`: it answers a protocol error itself and commits. -/
def authorizeRoute (c : Ctx) (db : AuthDb) (user : User) (current : AuthSession)
    (request : AuthorizationRequest) (document : Except AuthError ClientMetadata)
    (approve : Bool) : Outcome :=
  match authorizationRedirect c db user current request document approve with
  | (_, .ok (db, record)) =>
    .ok (db, record.map fun record => .consented record.id current.id user.id)
  | (db, .error (.oauthProtocol ..)) => .ok (db, none)
  | (_, .error e) => .error e

def runSessionAction (c : Ctx) (db : AuthDb) (user : User) (current : AuthSession) :
    SessionAction → Outcome
  | .me => .ok (db, none)
  | .logout => do
    let db ← revokeSession c db user current
    return (db, none)
  | .changePassword currentPassword newPassword => do
    let (db, created) ← changePassword c db user current currentPassword newPassword
    return (db, some (.passwordChanged created.record.id current.id user.id))
  | .beginMfaSetup currentPassword => do
    let (db, _) ← beginMfaSetup c db user current currentPassword
    return (db, none)
  | .confirmMfaSetup code => do
    let (db, _) ← confirmMfaSetup c db user current code
    let secret ← decryptMfaSecret c (current.pendingMfaSecretCiphertext.getD "")
    return (db, some (.mfaConfirmed current.id user.id secret code c))
  | .disableMfa currentPassword mfaCode recoveryCode => do
    let (db, created) ← disableMfa c db user current currentPassword mfaCode recoveryCode
    return (db, some (.mfaDisabled created.record.id current.id user.id))
  | .reauthenticate password mfaCode recoveryCode => do
    let (db, created) ← reauthenticate c db user current password mfaCode recoveryCode
    return (db, some (.reauthenticated created.record.id current.id user mfaCode recoveryCode c))
  | .revokeOtherSessions => do
    ensure (sessionRecentlyReauthenticated c current)
      (.authentication "Re-enter your password before signing out other devices"
        "reauthentication_required" .none)
    checkAuditActor user.email
    return (revokeUserSessions c db user.id (some current.id), none)
  | .revokeAllSessions => do
    ensure (sessionRecentlyReauthenticated c current)
      (.authentication "Re-enter your password before signing out other devices"
        "reauthentication_required" .none)
    checkAuditActor user.email
    return (revokeUserSessions c db user.id none, none)
  | .authorize request document approve => authorizeRoute c db user current request document approve

def runAdminAction (c : Ctx) (db : AuthDb) (actorUserId : Option ℕ) : AdminAction → Outcome
  | .createUser name email password roleIds employeeId => do
    let (db, _) ← createUser c db name email password roleIds employeeId
    return (db, none)
  | .updateUser userId data => do
    let user ← userById db userId
    let (db, _) ← updateUser c db user data actorUserId
    if data.status = none ∨ data.status = some .active then return (db, none)
    else return (db, some (.deactivated user.id))
  | .resetUserPassword userId password => do
    let user ← userById db userId
    let (db, _) ← resetUserPassword c db user password
    return (db, some (.passwordResetByAdministrator user.id))
  | .disableUser userId => do
    let user ← userById db userId
    let (db, _) ← disableUser c db user actorUserId
    return (db, some (.deactivated user.id))

/-- `login`: a refusal keeps the throttle record. -/
def loginRoute (c : Ctx) (db : AuthDb) (email password : String)
    (mfaCode recoveryCode clientIp userAgent : Option String) : Outcome :=
  match authenticateHuman c db email password mfaCode recoveryCode clientIp userAgent with
  | .ok (db, login) =>
    .ok (db, some (.loggedIn login.created.record.id login.found mfaCode recoveryCode c))
  | .error ⟨.authentication .., db⟩ => .ok (db, none)
  | .error refusal => .error refusal.error

def runRequest (c : Ctx) (db : AuthDb) : Request → Outcome
  | .setupRoot name email password clientIp userAgent => do
    let (db, user, created) ← createRootUser c db name email password clientIp userAgent
    return (db, some (.rootCreated created.record.id user.id))
  | .login email password mfaCode recoveryCode clientIp userAgent =>
    loginRoute c db email password mfaCode recoveryCode clientIp userAgent
  | .session token clientIp action => do
    let (db, user, current) ← authenticateSession c db token clientIp
    runSessionAction c db user current action
  | .admin actorUserId action => runAdminAction c db actorUserId action
  | .requestPasswordReset email clientIp => do
    let (db, _) ← requestPasswordReset c db email clientIp
    return (db, none)
  | .confirmPasswordReset token newPassword mfaCode recoveryCode => do
    let (db, user) ← confirmPasswordReset c db token newPassword mfaCode recoveryCode
    return (db, some (.passwordReset user.id))
  | .registerClient clientName redirectUris => do
    let (db, _) ← registerClient c db clientName redirectUris
    return (db, none)
  | .exchangeAuthorizationCode clientId code redirectUri codeVerifier resource => do
    let (db, record, token) ←
      exchangeAuthorizationCode c db clientId code redirectUri codeVerifier resource
    return (db, some (.exchanged token.id record.id record.userId))
  | .exchangeRefreshToken clientId refreshToken scope resource => do
    let (db, record, token) ← exchangeRefreshToken c db clientId refreshToken scope resource
    return (db, some (.refreshed token.id record.id record.userId))
  | .revokeOAuthToken token => .ok (revokeOAuthToken c db token, none)

/-! ## Runs -/

/-- The database with the log, the latest event first, and the time of the last request. -/
structure Service where
  db : AuthDb
  log : List Event
  clock : Instant

/-- A request with what it finds around it: the environment, its draws, and the time since the
request before. -/
structure Call where
  settings : AuthSettings
  draws : Draws
  elapsed : ℕ
  request : Request

/-- A request one second after the one before, with default settings. -/
def Call.plain (text : String) (request : Request) : Call :=
  ⟨.default, .plain text, seconds 1, request⟩

def Call.ctx (p : Platform) (s : Service) (call : Call) : Ctx where
  platform := p
  settings := call.settings
  draws := call.draws
  now := s.clock + call.elapsed

def Service.initial (roles : Table Role) (employees : Table Employee) (clock : Instant) :
    Service :=
  ⟨.initial roles employees, [], clock⟩

/-- A request that raises changes nothing but the time. -/
def Service.step (p : Platform) (s : Service) (call : Call) : Service :=
  match runRequest (call.ctx p s) s.db call.request with
  | .ok (db, event) => ⟨db, event.toList ++ s.log, s.clock + call.elapsed⟩
  | .error _ => { s with clock := s.clock + call.elapsed }

def Service.run (p : Platform) (s : Service) (calls : List Call) : Service :=
  calls.foldl (Service.step p) s

end Warp.Auth
