import Warp.Auth.Gate

/-!
# Requests through the gate

The routes of sign-in and OAuth check for themselves. Those of users, roles and API credentials stand
behind the checks of every request. Runs of all of them are runs of the whole of access control.
-/

namespace Warp.Auth

open Infra

/-! ## Routes -/

/-- The routes that are not behind the gate. -/
def Request.isPublic : Request → Bool
  | .admin .. => false
  | .setupRoot .. | .login .. | .session .. | .requestPasswordReset .. | .confirmPasswordReset ..
  | .registerClient .. | .exchangeAuthorizationCode .. | .exchangeRefreshToken ..
  | .revokeOAuthToken .. => true

def AccessAction.route : AccessAction → Route
  | .createRole _ => ⟨"POST", "/roles"⟩
  | .updateRole roleId _ => ⟨"PATCH", "/roles/" ++ toString roleId⟩
  | .deleteRole roleId => ⟨"DELETE", "/roles/" ++ toString roleId⟩
  | .user (.createUser ..) => ⟨"POST", "/users"⟩
  | .user (.updateUser userId _) => ⟨"PATCH", "/users/" ++ toString userId⟩
  | .user (.resetUserPassword userId _) => ⟨"POST", "/users/" ++ toString userId ++ "/reset-password"⟩
  | .user (.disableUser userId) => ⟨"DELETE", "/users/" ++ toString userId⟩

def createCredentialRoute : Route := ⟨"POST", "/auth/credentials"⟩

def revokeCredentialRoute (credentialId : ℕ) : Route :=
  ⟨"DELETE", "/auth/credentials/" ++ toString credentialId⟩

inductive GatewayRequest where
  | direct (request : Request) (isPublic : request.isPublic = true)
  | access (caller : Caller) (action : AccessAction)
  | createCredential (caller : Caller) (data : APICredentialCreate)
  | revokeCredential (caller : Caller) (credentialId : ℕ)

/-- The user behind a principal, or a program. -/
def AuthenticatedPrincipal.principal (principal : AuthenticatedPrincipal) : Principal :=
  match principal.userId with
  | none => .service
  | some userId => .user userId

/-- A route of users and roles. A new role keeps the subject of its creator. -/
def runAccessRoute (c : Ctx) (db : AuthDb) (principal : AuthenticatedPrincipal) :
    AccessAction → Except AuthError AuthDb
  | .createRole data => (createRole c db data principal.subject).map Prod.fst
  | action => runAccessAction c db principal.principal action

def runGatewayRequest (c : Ctx) (s : GateSettings) (db : ApiDb) :
    GatewayRequest → Except GateError ApiDb
  | .direct request _ => do
    let (auth, _) ← (runRequest c db.auth request).mapError .auth
    return db.withAuth auth
  | .access caller action => do
    let (db, principal) ← openGate c s db action.route caller
    let auth ← (runAccessRoute c db.auth principal action).mapError .auth
    return db.withAuth auth
  | .createCredential caller data => do
    let (db, principal) ← openGate c s db createCredentialRoute caller
    let (db, _, _) ← createCredential c db data principal
    return db
  | .revokeCredential caller credentialId => do
    let (db, _) ← openGate c s db (revokeCredentialRoute credentialId) caller
    let (db, _) ← revokeCredential c db credentialId
    return db

/-! ## Runs -/

structure Gateway where
  db : ApiDb
  clock : Instant

/-- A request with what it finds around it. -/
structure GatewayCall where
  settings : AuthSettings
  gate : GateSettings
  draws : Draws
  elapsed : ℕ
  request : GatewayRequest

def GatewayCall.ctx (p : Platform) (g : Gateway) (call : GatewayCall) : Ctx where
  platform := p
  settings := call.settings
  draws := call.draws
  now := g.clock + call.elapsed

def Gateway.initial (roles : Table Role) (employees : Table Employee) (clock : Instant) : Gateway where
  db := { auth := .initial roles employees, apiCredentials := .empty, nextCredential := 1 }
  clock := clock

/-- A request that raises changes nothing but the time. -/
def Gateway.step (p : Platform) (g : Gateway) (call : GatewayCall) : Gateway where
  db :=
    match runGatewayRequest (call.ctx p g) call.gate g.db call.request with
    | .ok db => db
    | .error _ => g.db
  clock := g.clock + call.elapsed

def Gateway.run (p : Platform) (g : Gateway) (calls : List GatewayCall) : Gateway :=
  calls.foldl (Gateway.step p) g

end Warp.Auth
