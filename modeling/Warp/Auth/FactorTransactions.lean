import Warp.Auth.HumanAuth
import Warp.Infra.Worklist

/-!
# Concurrent second-factor checks

The requests that verify and consume a second factor: sign-in, reauthentication, disabling MFA and a
password reset. Each loads the row of the user without a lock, decides, and writes the columns that it
has changed. The checks on throttles, sessions and reset tokens only refuse requests and are left out.
-/

namespace Warp.Auth

open Infra

/-! ## Requests -/

inductive FactorRequest where
  | login (email password : String) (mfaCode recoveryCode clientIp : Option String)
  | reauthenticate (userId : ℕ) (password : String) (mfaCode recoveryCode : Option String)
  | disableMfa (userId : ℕ) (currentPassword : String) (mfaCode recoveryCode : Option String)
  | confirmPasswordReset (userId : ℕ) (newPassword : String) (mfaCode recoveryCode : Option String)

def FactorRequest.mfaCode : FactorRequest → Option String
  | .login _ _ mfaCode _ _ => mfaCode
  | .reauthenticate _ _ mfaCode _ => mfaCode
  | .disableMfa _ _ mfaCode _ => mfaCode
  | .confirmPasswordReset _ _ mfaCode _ => mfaCode

def FactorRequest.recoveryCode : FactorRequest → Option String
  | .login _ _ _ recoveryCode _ => recoveryCode
  | .reauthenticate _ _ _ recoveryCode => recoveryCode
  | .disableMfa _ _ _ recoveryCode => recoveryCode
  | .confirmPasswordReset _ _ _ recoveryCode => recoveryCode

/-- A request with what it reads from its surroundings. -/
structure FactorTransaction where
  ctx : Ctx
  request : FactorRequest

/-- The row that the request loads. -/
def loadUser (c : Ctx) (users : Table User) : FactorRequest → Except AuthError User
  | .login email .. =>
    orRaise (users.rows.find? (·.email = normalizeEmail c email))
      (.authentication "Email or password is incorrect" "invalid_login" .none)
  | .reauthenticate userId .. => orRaise (users.find? userId) (.integrity "auth_sessions")
  | .disableMfa userId .. => orRaise (users.find? userId) (.integrity "auth_sessions")
  | .confirmPasswordReset userId .. =>
    orRaise (users.find? userId) (.integrity "password_reset_tokens")

def withLogin (c : Ctx) (user : User) (password : String) : User :=
  { user with
    passwordHash :=
      if c.platform.checkNeedsRehash user.passwordHash then hashPassword c 1 password
      else user.passwordHash
    lastLoginAt := some c.now }

def withoutMfa (user : User) : User :=
  { user with mfaEnabled := false, mfaSecretCiphertext := none, mfaRecoveryCodeHashes := [] }

/-- The row after the request is accepted. -/
def acceptRequest (c : Ctx) (user : User) : FactorRequest → Except AuthError User
  | .login _ password mfaCode recoveryCode _ => do
    ensure (verifyPassword c user.passwordHash password && user.status = .active)
      (.authentication "Email or password is incorrect" "invalid_login" .none)
    ensure (!user.mfaEnabled || (given? mfaCode).isSome || (given? recoveryCode).isSome)
      (.authentication "A verification code is required" "mfa_required"
        (.methods ["totp", "recovery_code"]))
    let checked ← orRaise (← checkedUser c user mfaCode recoveryCode)
      (.authentication "The verification code is invalid" "invalid_mfa_code" .none)
    checkAuditActor checked.email
    return withLogin c checked password
  | .reauthenticate _ password mfaCode recoveryCode => do
    ensure (verifyPassword c user.passwordHash password)
      (.authentication "Password is incorrect" "invalid_current_password" .none)
    orRaise (← checkedUser c user mfaCode recoveryCode)
      (.authentication "A valid verification code is required" "invalid_mfa_code" .none)
  | .disableMfa _ currentPassword mfaCode recoveryCode => do
    ensure (verifyPassword c user.passwordHash currentPassword) invalidCurrentPassword
    ensure user.mfaEnabled (.value "MFA is not enabled")
    let _ ← orRaise (← checkedUser c user mfaCode recoveryCode) invalidMfaCode
    checkAuditActor user.email
    return withoutMfa user
  | .confirmPasswordReset _ newPassword mfaCode recoveryCode => do
    ensure (user.status = .active)
      (.authentication "The user account is not active" "account_inactive" .none)
    let checked ← orRaise (← checkedUser c user mfaCode recoveryCode)
      (.authentication "A valid verification or recovery code is required" "mfa_required" .none)
    ensure (!verifyPassword c checked.passwordHash newPassword) samePassword
    checkAuditActor checked.email
    return withNewPassword c checked newPassword

/-- The stored hash of the recovery code that the check of the second factor takes away. -/
def consumedCode (c : Ctx) (user : User) (mfaCode recoveryCode : Option String) : Option String :=
  if user.mfaEnabled then
    match given? mfaCode, given? user.mfaSecretCiphertext with
    | some _, some _ => none
    | _, _ =>
      (given? recoveryCode).bind fun recovery =>
        (matchingRecoveryCode? c user.mfaRecoveryCodeHashes recovery).bind fun index =>
          user.mfaRecoveryCodeHashes[index]?
  else none

/-! ## Rows -/

/-- The accounts, and for each accepted recovery code its user and its stored hash. -/
structure FactorState where
  users : Table User
  accepted : List (ℕ × String)

/-- The columns that these requests change -/
def mergeUser (loaded updated row : User) : User :=
  { row with
    passwordHash := mergeColumn loaded.passwordHash updated.passwordHash row.passwordHash
    passwordChangeRequired := mergeColumn loaded.passwordChangeRequired
      updated.passwordChangeRequired row.passwordChangeRequired
    passwordChangedAt := mergeColumn loaded.passwordChangedAt updated.passwordChangedAt
      row.passwordChangedAt
    lastLoginAt := mergeColumn loaded.lastLoginAt updated.lastLoginAt row.lastLoginAt
    mfaEnabled := mergeColumn loaded.mfaEnabled updated.mfaEnabled row.mfaEnabled
    mfaSecretCiphertext := mergeColumn loaded.mfaSecretCiphertext updated.mfaSecretCiphertext
      row.mfaSecretCiphertext
    mfaRecoveryCodeHashes := mergeColumn loaded.mfaRecoveryCodeHashes
      updated.mfaRecoveryCodeHashes row.mfaRecoveryCodeHashes }

@[simp] theorem mergeUser_id (loaded updated row : User) :
    (mergeUser loaded updated row).id = row.id := rfl

/-- The update of a row, with the recovery code that was accepted for it. -/
structure FactorWrite where
  loaded : User
  updated : User
  code : Option String

def applyFactorWrite (s : FactorState) (x : FactorWrite) : FactorState where
  users := s.users.modify
    (fun row => if row.id = x.loaded.id then mergeUser x.loaded x.updated row else row)
    fun row => by split <;> rfl
  accepted := s.accepted ++ x.code.toList.map fun codeHash => (x.loaded.id, codeHash)

/-! ## Statements -/

inductive FactorOp where
  | verify (transaction : FactorTransaction)
  | updateRow (x : FactorWrite)

inductive FactorLock where
  | throttle (keyHash : String)
  | user (userId : ℕ)
deriving DecidableEq

/-- A sign-in takes the advisory lock of its address, and an update the lock of its row. -/
def lockFactorRows : FactorOp → List FactorLock
  | .verify transaction =>
    match transaction.request with
    | .login email _ _ _ clientIp =>
      [.throttle (throttleKey transaction.ctx (normalizeEmail transaction.ctx email) clientIp)]
    | _ => []
  | .updateRow x => [.user x.loaded.id]

def runFactorOp (s : FactorState) : FactorOp → Except AuthError (List FactorOp × List FactorWrite)
  | .verify transaction => do
    let c := transaction.ctx
    let request := transaction.request
    let loaded ← loadUser c s.users request
    let updated ← acceptRequest c loaded request
    let code := consumedCode c loaded request.mfaCode request.recoveryCode
    return (if updated = loaded then [] else [.updateRow ⟨loaded, updated, code⟩], [])
  | .updateRow x => do
    ensure (s.users.find? x.loaded.id).isSome (.integrity "users")
    return ([], [x])

def factorCode : Code FactorState FactorWrite FactorOp AuthError FactorLock where
  apply := applyFactorWrite
  locks _ _ op := lockFactorRows op
  exec _ _ s op := runFactorOp s op

abbrev FactorWorld := World FactorState FactorWrite FactorOp AuthError FactorLock

/-- No recovery code has been accepted yet. -/
def factorWorld (users : Table User) (transactions : List FactorTransaction) : FactorWorld :=
  World.init ⟨users, []⟩ (transactions.map fun transaction => [.verify transaction]) 0

/-! ## The services

A request on its own saves the row of the service. -/

section

variable {c : Ctx} {db db' : AuthDb} {user : User} {current : AuthSession} {created : CreatedSession}
variable {password : String} {mfaCode recoveryCode clientIp userAgent : Option String}

theorem createSession_users {mfaVerified : Bool} {userId : ℕ}
    (h : createSession c db userId clientIp userAgent mfaVerified = .ok (db', created)) :
    db'.users = db.users := by
  simp only [createSession, bind_eq_ok, pure_eq_ok] at h
  obtain ⟨_, _, hout⟩ := h
  cases hout
  rfl

theorem authenticateHuman_row {email : String} {login : Login}
    (h : authenticateHuman c db email password mfaCode recoveryCode clientIp userAgent =
      .ok (db', login)) :
    loadUser c db.users (.login email password mfaCode recoveryCode clientIp) = .ok login.found ∧
      acceptRequest c login.found (.login email password mfaCode recoveryCode clientIp) =
        .ok login.user ∧
      db'.users = db.users.insert login.user := by
  simp only [authenticateHuman, checkLoginPassword, checkLoginFactor, completeLogin, refuseWith,
    checkAuditActor, bind_eq_ok, mapError_eq_ok, pure_eq_ok, ensure_eq_ok, orRaise_eq_ok,
    exists_const] at h
  obtain ⟨found, ⟨_, _, hfound⟩, checked, ⟨hgiven, _, hchecked, rfl⟩, ⟨db₁, created⟩, hsession, _, _,
    _, _, haudit, hout⟩ := h
  cases hout
  obtain ⟨hfound, hok⟩ := Option.filter_eq_some_iff.mp hfound
  rw [hfound, Option.map_some, Option.getD_some] at hok
  refine ⟨orRaise_eq_ok.mpr hfound, ?_, createSession_users hsession⟩
  simp only [acceptRequest, checkAuditActor, bind_eq_ok, ensure_eq_ok, orRaise_eq_ok, pure_eq_ok,
    exists_const]
  exact ⟨hok, hgiven, _, hchecked, checked, rfl, haudit, rfl⟩

theorem reauthenticate_row
    (h : reauthenticate c db user current password mfaCode recoveryCode = .ok (db', created)) :
    ∃ updated, acceptRequest c user (.reauthenticate user.id password mfaCode recoveryCode) =
        .ok updated ∧ db'.users = db.users.insert updated := by
  simp only [reauthenticate, bind_eq_ok, ensure_eq_ok, orRaise_eq_ok, exists_const] at h
  obtain ⟨hpassword, _, hchecked, updated, rfl, hsession⟩ := h
  refine ⟨updated, ?_, createSession_users hsession⟩
  simp only [acceptRequest, bind_eq_ok, ensure_eq_ok, orRaise_eq_ok, exists_const]
  exact ⟨hpassword, _, hchecked, rfl⟩

theorem disableMfa_row
    (h : disableMfa c db user current password mfaCode recoveryCode = .ok (db', created)) :
    ∃ updated, acceptRequest c user (.disableMfa user.id password mfaCode recoveryCode) =
        .ok updated ∧ db'.users = db.users.insert updated := by
  simp only [disableMfa, checkAuditActor, bind_eq_ok, ensure_eq_ok, exists_const] at h
  obtain ⟨hpassword, henabled, checked, hchecked, hsome, haudit, hsession⟩ := h
  obtain ⟨accepted, rfl⟩ := Option.isSome_iff_exists.mp hsome
  refine ⟨withoutMfa user, ?_, createSession_users hsession⟩
  simp only [acceptRequest, checkAuditActor, bind_eq_ok, ensure_eq_ok, orRaise_eq_ok, pure_eq_ok,
    exists_const]
  exact ⟨hpassword, henabled, _, by rw [checkedUser, if_pos henabled, hchecked], accepted, rfl,
    haudit, trivial⟩

theorem confirmPasswordReset_row {token : String}
    (h : confirmPasswordReset c db token password mfaCode recoveryCode = .ok (db', user)) :
    ∃ found ∈ db.users, acceptRequest c found
        (.confirmPasswordReset found.id password mfaCode recoveryCode) = .ok user ∧
      db'.users = db.users.insert user := by
  simp only [confirmPasswordReset, checkAuditActor, bind_eq_ok, ensure_eq_ok, orRaise_eq_ok, pure_eq_ok,
    exists_const] at h
  obtain ⟨record, _, found, hfound, hactive, _, hchecked, checked, rfl, hdifferent, haudit, hout⟩ := h
  cases hout
  refine ⟨found, (Table.find?_eq_some.mp hfound).1, ?_, rfl⟩
  simp only [acceptRequest, checkAuditActor, bind_eq_ok, ensure_eq_ok, orRaise_eq_ok, pure_eq_ok,
    exists_const]
  exact ⟨hactive, _, hchecked, checked, rfl, hdifferent, haudit, rfl⟩

end

end Warp.Auth
