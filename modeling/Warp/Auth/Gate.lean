import Warp.Auth.AccessRequests
import Warp.Auth.Credentials

/-!
# The checks of every request

A request is authenticated by its bearer token or its session cookie, and authorized by its method and
path. Changes of users, roles and API credentials need a user who has shown its password or its second
factor a short while ago.
-/

namespace Warp.Auth

open Infra

/-- What the checks read of a request. -/
structure Caller where
  origin : Option String := none
  /-- The scheme and the credentials of the `Authorization` header -/
  authorization : Option (String × String) := none
  sessionToken : Option String := none
  clientIp : Option String := none
deriving DecidableEq, Repr

/-- A method and a path. -/
structure Route where
  method : String
  path : String
deriving DecidableEq, Repr

/-! ## Permissions of routes -/

/-- The part of `required_permissions` about `/employees` -/
def employeePermissions (method path : String) : Finset String :=
  if endsWith path "/overrides/options" then {"assignments:manage"}
  else if containsText path "/assignments" || containsText path "/overrides"
      || endsWith path "/refresh" then
    if method = "GET" then {"assignments:read"} else {"assignments:manage"}
  else if method = "GET" then {"employees:read"}
  else if method = "POST" then {"employees:create"}
  else if method = "PATCH" then {"employees:update"}
  else if method = "DELETE" then {"employees:delete"}
  else ∅

/-- `required_permissions`. The routes of policies check for more after they have loaded the record. -/
def requiredPermissions (route : Route) : Finset String :=
  let method := Text.upper route.method
  let path := route.path
  if path = "/authorization/access-review" then {"access:review"}
  else if startsWith path "/users" || startsWith path "/roles" || startsWith path "/authorization" then
    if method = "GET" then {"access:read"} else {"access:manage"}
  else if startsWith path "/auth/credentials" || path = "/auth/scopes" then {"api_credentials:manage"}
  else if startsWith path "/audit-logs" then {"audit:read"}
  else if startsWith path "/change-previews" then {"changes:preview"}
  else if startsWith path "/assignment-fields" then
    if method = "GET" then {"settings:read"} else {"settings:manage"}
  else if startsWith path "/condition-fields" then {"settings:read"}
  else if startsWith path "/assignment-summary" || startsWith path "/assignment-queries" then
    {"assignments:read"}
  else if startsWith path "/employees" then employeePermissions method path
  else if startsWith path "/groups" then
    if method = "GET" then {"groups:read"}
    else if method = "POST" && path = "/groups" then {"groups:create"}
    else {"groups:update"}
  else if startsWith path "/policies" then
    if method = "GET" then {"policies:read"}
    else if method = "POST" && path = "/policies" then {"policies:create"}
    else ∅
  else ∅

/-! ## Authentication -/

def safeSessionMethods : List String := ["GET", "HEAD", "OPTIONS"]

/-- `_require_trusted_session_origin` -/
def requireTrustedSessionOrigin (s : GateSettings) (route : Route) (caller : Caller) :
    Except GateError Unit :=
  ensure (Text.upper route.method ∈ safeSessionMethods
      || caller.origin.any fun origin =>
        origin ∈ s.browserAllowedOrigins || origin = rstripSlash s.baseUrl)
    (.auth (.http 403 "This user-session request did not come from a trusted origin"))

def sessionPrincipal (db : AuthDb) (user : User) (current : AuthSession) : AuthenticatedPrincipal where
  subject := user.email
  scopes := if user.isRoot then {wildcardScope} else ∅
  credentialId := none
  credentialName := "human-session"
  authenticationMethod := .humanSession
  userId := some user.id
  sessionId := some current.id
  permissions := effectivePermissions db.roles user
  reauthenticatedAt := some current.reauthenticatedAt
  mfaVerified := current.mfaVerifiedAt.isSome

def ApiDb.withAuth (db : ApiDb) (auth : AuthDb) : ApiDb := { db with auth := auth }

/-- `get_authenticated_principal`, with the database in which a session has been used. -/
def getAuthenticatedPrincipal (c : Ctx) (s : GateSettings) (db : ApiDb) (route : Route)
    (caller : Caller) : Except GateError (ApiDb × AuthenticatedPrincipal) := do
  requireTrustedSessionOrigin s route caller
  match caller.authorization with
  | some (scheme, credentials) =>
    ensure (Text.lower scheme = "bearer" && Text.strip credentials ≠ "")
      (.auth (.authentication "Authorization must contain a bearer credential"
        "invalid_authorization_header" .none))
    let principal ← authenticateToken c s db credentials
    return (db, principal)
  | none =>
    match given? caller.sessionToken with
    | none =>
      .error (.auth (.authentication "Authentication is required" "authentication_required" .none))
    | some token => do
      let (auth, user, current) ←
        (authenticateSession c db.auth token caller.clientIp).mapError .auth
      ensure (!user.passwordChangeRequired)
        (.auth (.http 403 "You must change your temporary password before using PolicyOS"))
      return (db.withAuth auth, sessionPrincipal auth user current)

/-! ## Authorization -/

/-- `SENSITIVE_PERMISSIONS` -/
def sensitivePermissions : Finset String := {"access:manage", "api_credentials:manage"}

/-- Whether a request makes a change that needs a recent reauthentication. -/
def Route.sensitive (route : Route) : Bool :=
  Text.upper route.method ∉ safeSessionMethods
    && decide ((requiredPermissions route ∩ sensitivePermissions).Nonempty)

/-- `reauthentication_is_recent` -/
def reauthenticationIsRecent (c : Ctx) (reauthenticatedAt : Option Instant) : Bool :=
  reauthenticatedAt.any fun t => c.now - t < seconds c.settings.reauthTtlSeconds

def recentlyReauthenticated (c : Ctx) (db : AuthDb) (principal : AuthenticatedPrincipal) : Bool :=
  if principal.authenticationMethod = .humanSession then
    ((principal.sessionId.bind db.authSessions.find?).any fun record =>
      sessionRecentlyReauthenticated c record)
  else reauthenticationIsRecent c principal.reauthenticatedAt

/-- The checks of a sensitive change by a user. -/
def checkSensitive (c : Ctx) (s : GateSettings) (db : AuthDb) (principal : AuthenticatedPrincipal) :
    Except GateError Unit := do
  let user ← orRaise (principal.userId.bind db.users.find?)
    (.auth (.authentication "The authenticated user is invalid" "invalid_session" .none))
  ensure (!s.privilegedMfaRequired || (user.mfaEnabled && principal.mfaVerified))
    (.auth (.authentication "Multi-factor authentication is required for privileged changes"
      "mfa_enrollment_required" .none))
  ensure (recentlyReauthenticated c db principal)
    (.auth (.authentication "Re-enter your password before performing this sensitive operation"
      "reauthentication_required" .none))

/-- `authorize_operation` -/
def checkOperation (c : Ctx) (s : GateSettings) (db : AuthDb) (route : Route)
    (principal : AuthenticatedPrincipal) : Except GateError Unit :=
  if principal.isUser then do
    (authorizePermissions principal.permissions (requiredPermissions route)).mapError .auth
    if route.sensitive then checkSensitive c s db principal else return ()
  else authorize principal {requiredScope route.method route.path}

/-- The principal of a request that passes the checks. -/
def openGate (c : Ctx) (s : GateSettings) (db : ApiDb) (route : Route) (caller : Caller) :
    Except GateError (ApiDb × AuthenticatedPrincipal) := do
  let (db, principal) ← getAuthenticatedPrincipal c s db route caller
  checkOperation c s db.auth route principal
  return (db, principal)

/-- `get_audit_actor`: the caller, or the actor that it is allowed to name. -/
def getAuditActor (principal : AuthenticatedPrincipal) (xActor : Option String) :
    Except GateError String :=
  match xActor with
  | none => .ok principal.subject
  | some text => do
    let actor := Text.strip text
    ensure (actor ≠ "") (.auth (.http 422 "X-Actor cannot be blank"))
    ensure (actor.length ≤ 200) (.auth (.http 422 "X-Actor cannot exceed 200 characters"))
    authorize principal {actorOverrideScope}
    return actor

end Warp.Auth
