import Warp.Properties.RootOfTrust

/-!
# Resetting a password

A password is reset with the newest token that was made for the user, within half an hour, and once. Every
other request leaves the reset tokens alone.
-/

namespace Warp.Auth

open Infra

/-! ## Requests that leave the reset tokens alone -/

section

variable {c : Ctx} {db db' : AuthDb} {user : User} {current : AuthSession} {e : Option Event}

theorem createSession_resetTokens {userId : ℕ} {clientIp userAgent : Option String} {verified : Bool}
    {created : CreatedSession}
    (h : createSession c db userId clientIp userAgent verified = .ok (db', created)) :
    db'.passwordResetTokens = db.passwordResetTokens := by
  rw [(createSession_ok h).2]
  rfl

theorem runSessionAction_resetTokens {action : SessionAction}
    (h : runSessionAction c db user current action = .ok (db', e)) :
    db'.passwordResetTokens = db.passwordResetTokens := by
  cases action with
  | me =>
    cases h
    rfl
  | logout =>
    simp only [runSessionAction, bind_eq_ok, pure_eq_ok] at h
    obtain ⟨_, hrevoked, hout⟩ := h
    cases hout
    rcases revokeSession_ok hrevoked with rfl | rfl <;> rfl
  | changePassword currentPassword newPassword =>
    simp only [runSessionAction, changePassword, bind_eq_ok, pure_eq_ok] at h
    obtain ⟨⟨_, _⟩, ⟨_, _, _, _, _, _, hcreated⟩, hout⟩ := h
    cases hout
    exact (createSession_resetTokens hcreated).trans rfl
  | beginMfaSetup currentPassword =>
    simp only [runSessionAction, beginMfaSetup, bind_eq_ok, pure_eq_ok] at h
    obtain ⟨_, ⟨_, _, _, _, _, _, hbegun⟩, hout⟩ := h
    cases hout
    cases hbegun
    rfl
  | confirmMfaSetup code =>
    simp only [runSessionAction, confirmMfaSetup, bind_eq_ok, pure_eq_ok] at h
    obtain ⟨_, ⟨_, _, _, _, _, _, _, _, _, _, hconfirmed⟩, _, _, hout⟩ := h
    cases hout
    cases hconfirmed
    rfl
  | disableMfa currentPassword mfaCode recoveryCode =>
    simp only [runSessionAction, disableMfa, bind_eq_ok, pure_eq_ok] at h
    obtain ⟨_, ⟨_, _, _, _, _, _, _, _, _, _, hcreated⟩, hout⟩ := h
    cases hout
    exact (createSession_resetTokens hcreated).trans rfl
  | reauthenticate password mfaCode recoveryCode =>
    simp only [runSessionAction, reauthenticate, bind_eq_ok, pure_eq_ok] at h
    obtain ⟨_, ⟨_, _, _, _, _, _, hcreated⟩, hout⟩ := h
    cases hout
    exact (createSession_resetTokens hcreated).trans rfl
  | revokeOtherSessions =>
    simp only [runSessionAction, bind_eq_ok, pure_eq_ok] at h
    obtain ⟨_, _, _, _, hout⟩ := h
    cases hout
    rfl
  | revokeAllSessions =>
    simp only [runSessionAction, bind_eq_ok, pure_eq_ok] at h
    obtain ⟨_, _, _, _, hout⟩ := h
    cases hout
    rfl
  | authorize request document approve => exact (authorizeRoute_accounts h).resetTokens

theorem loginRoute_resetTokens {email password : String}
    {mfaCode recoveryCode clientIp userAgent : Option String}
    (h : loginRoute c db email password mfaCode recoveryCode clientIp userAgent = .ok (db', e)) :
    db'.passwordResetTokens = db.passwordResetTokens := by
  unfold loginRoute at h
  split at h
  · next _ login hlogin =>
    cases h
    simp only [authenticateHuman, checkLoginPassword, checkLoginFactor, bind_eq_ok] at hlogin
    obtain ⟨found, _, checked, _, hlogin⟩ := hlogin
    have hlogin := refuseWith_ok hlogin
    simp only [completeLogin, bind_eq_ok, pure_eq_ok] at hlogin
    obtain ⟨⟨_, _⟩, hcreated, _, _, _, _, _, _, hout⟩ := hlogin
    cases hout
    exact (createSession_resetTokens hcreated).trans rfl
  · next hrefused =>
    cases h
    simp only [authenticateHuman, checkLoginPassword, checkLoginFactor, bind_eq_error] at hrefused
    rcases hrefused with (h | ⟨_, _, h⟩) | ⟨_, _, (h | ⟨_, _, h | ⟨_, _, h⟩⟩) | ⟨_, _, h⟩⟩
    all_goals exact (congrArg AuthDb.passwordResetTokens (refuseWith_error h)).trans rfl
  · cases h

theorem runAdminAction_resetTokens {actorUserId : Option ℕ} {action : AdminAction}
    (h : runAdminAction c db actorUserId action = .ok (db', e)) :
    db'.passwordResetTokens = db.passwordResetTokens := by
  cases action with
  | createUser name email password roleIds employeeId =>
    simp only [runAdminAction, createUser, bind_eq_ok, pure_eq_ok] at h
    obtain ⟨_, ⟨_, _, _, _, _, _, _, _, _, _, rfl⟩, hout⟩ := h
    cases hout
    rfl
  | updateUser userId data =>
    simp only [runAdminAction, updateUser, bind_eq_ok] at h
    obtain ⟨_, _, ⟨after, _⟩, ⟨_, _, _, _, hupdated⟩, hout⟩ := h
    have hsame : after.passwordResetTokens = db.passwordResetTokens := by
      split at hupdated <;> cases hupdated <;> rfl
    split at hout <;> cases hout <;> exact hsame
  | resetUserPassword userId password =>
    simp only [runAdminAction, resetUserPassword, bind_eq_ok, pure_eq_ok] at h
    obtain ⟨_, _, _, ⟨_, _, rfl⟩, hout⟩ := h
    cases hout
    rfl
  | disableUser userId =>
    simp only [runAdminAction, disableUser, bind_eq_ok, pure_eq_ok] at h
    obtain ⟨_, _, _, ⟨_, _, _, _, rfl⟩, hout⟩ := h
    cases hout
    rfl

theorem runAccessRoute_resetTokens {principal : AuthenticatedPrincipal} {action : AccessAction}
    (h : runAccessRoute c db principal action = .ok db') :
    db'.passwordResetTokens = db.passwordResetTokens := by
  unfold runAccessRoute at h
  split at h
  · simp only [createRole, exceptMap_eq_ok, bind_eq_ok, pure_eq_ok] at h
    obtain ⟨_, ⟨_, _, _, _, _, _, _, _, hout⟩, rfl⟩ := h
    cases hout
    rfl
  · cases action with
    | createRole data =>
      simp only [runAccessAction, createRole, exceptMap_eq_ok, bind_eq_ok, pure_eq_ok] at h
      obtain ⟨_, ⟨_, _, _, _, _, _, _, _, hout⟩, rfl⟩ := h
      cases hout
      rfl
    | updateRole roleId data =>
      simp only [runAccessAction, updateRole, exceptMap_eq_ok, bind_eq_ok, pure_eq_ok] at h
      obtain ⟨_, _, _, ⟨_, _, _, _, hout⟩, rfl⟩ := h
      cases hout
      rfl
    | deleteRole roleId =>
      simp only [runAccessAction, deleteRole, bind_eq_ok, pure_eq_ok] at h
      obtain ⟨_, _, _, _, hout⟩ := h
      cases hout
      rfl
    | user action =>
      simp only [runAccessAction, exceptMap_eq_ok, bind_eq_ok] at h
      obtain ⟨_, _, ⟨_, _⟩, h, rfl⟩ := h
      exact runAdminAction_resetTokens h

end

/-! ## The two requests -/

/-- The address for which a request asks for a reset. -/
def GatewayRequest.resetEmail? : GatewayRequest → Option String
  | .direct (.requestPasswordReset email _) _ => some email
  | _ => none

/-- The reset token that a request presents. -/
def GatewayRequest.resetToken? : GatewayRequest → Option String
  | .direct (.confirmPasswordReset token ..) _ => some token
  | _ => none

/-- The active account with the address. -/
def resetUser? (c : Ctx) (db : AuthDb) (email : String) : Option User :=
  (db.users.rows.find? (·.email = normalizeEmail c email)).filter (·.status = .active)

/-- The request asks for a reset for the user. -/
def GatewayRequest.AsksReset (c : Ctx) (db : AuthDb) (userId : ℕ) (request : GatewayRequest) : Prop :=
  ∃ email ∈ request.resetEmail?, ∃ user ∈ resetUser? c db email, user.id = userId

/-- The request presents a reset token with the hash. -/
def GatewayRequest.PresentsReset (c : Ctx) (tokenHash : String) (request : GatewayRequest) : Prop :=
  ∃ token ∈ request.resetToken?, hashSessionToken c token = tokenHash

/-- The unique key on the hash. -/
def ResetHashesUnique (db : AuthDb) : Prop :=
  ∀ r ∈ db.passwordResetTokens, ∀ r' ∈ db.passwordResetTokens, r.tokenHash = r'.tokenHash → r = r'

/-- What a request does to the tokens that are not used yet. -/
structure ResetStep (c : Ctx) (request : GatewayRequest) (db db' : AuthDb) : Prop where
  unique : ResetHashesUnique db'
  pending : ∀ r ∈ db'.passwordResetTokens, r.usedAt = none →
    (r ∈ db.passwordResetTokens ∧ ¬request.AsksReset c db r.userId ∧
      ¬request.PresentsReset c r.tokenHash) ∨
    request.AsksReset c db r.userId ∧ r.tokenHash = hashSessionToken c ("prst_" ++ c.draws.token) ∧
      r.expiresAt = c.now + seconds (30 * 60)

section

variable {c : Ctx} {s : GateSettings} {db db' : AuthDb} {request : GatewayRequest}

theorem ResetStep.of_eq (hunique : ResetHashesUnique db) (hemail : request.resetEmail? = none)
    (htoken : request.resetToken? = none) (h : db'.passwordResetTokens = db.passwordResetTokens) :
    ResetStep c request db db' where
  unique r hr r' hr' := hunique r (h ▸ hr) r' (h ▸ hr')
  pending r hr _ := by
    refine Or.inl ⟨h ▸ hr, ?_, ?_⟩
    · rintro ⟨email, hmem, _⟩
      rw [hemail] at hmem
      cases hmem
    · rintro ⟨token, hmem, _⟩
      rw [htoken] at hmem
      cases hmem

theorem requestPasswordReset_step {email : String} {clientIp token : Option String} {hpublic}
    (hunique : ResetHashesUnique db)
    (h : requestPasswordReset c db email clientIp = .ok (db', token)) :
    ResetStep c (.direct (.requestPasswordReset email clientIp) hpublic) db db' := by
  have hpresents : ∀ tokenHash, ¬(GatewayRequest.direct (.requestPasswordReset email clientIp)
      hpublic).PresentsReset c tokenHash := by
    rintro tokenHash ⟨token, hmem, _⟩
    cases hmem
  unfold requestPasswordReset at h
  split at h
  · next hnone =>
    cases h
    refine ⟨hunique, fun r hr _ => Or.inl ⟨hr, ?_, hpresents _⟩⟩
    rintro ⟨_, hmem, user, huser, _⟩
    cases hmem
    rw [resetUser?, hnone] at huser
    cases huser
  · next user huser =>
    simp only [bind_eq_ok, ensure_eq_ok, pure_eq_ok] at h
    obtain ⟨_, hfresh, _, _, hout⟩ := h
    cases hout
    have hkept : ∀ r ∈ db.passwordResetTokens.filter fun r => !(r.userId = user.id && r.usedAt.isNone),
        r.tokenHash ≠ hashSessionToken c ("prst_" ++ c.draws.token) := fun r hr =>
      of_decide_eq_true (List.all_eq_true.mp hfresh r hr)
    refine ⟨fun r hr r' hr' hsame => ?_, fun r hr hunused => ?_⟩
    · rcases mem_insert_of hr with rfl | hr
      · rcases mem_insert_of hr' with rfl | hr'
        · rfl
        · exact absurd hsame.symm (hkept r' hr')
      · rcases mem_insert_of hr' with rfl | hr'
        · exact absurd hsame (hkept r hr)
        · exact hunique r (Table.mem_filter.mp hr).1 r' (Table.mem_filter.mp hr').1 hsame
    · rcases mem_insert_of hr with rfl | hr
      · exact Or.inr ⟨⟨email, rfl, user, huser, rfl⟩, rfl, rfl⟩
      · obtain ⟨hmem, hother⟩ := Table.mem_filter.mp hr
        refine Or.inl ⟨hmem, ?_, hpresents _⟩
        rintro ⟨_, hemail, asked, hasked, hid⟩
        cases hemail
        have hsame : asked = user := Option.some.inj (hasked.symm.trans huser)
        simp [hunused, ← hid, hsame] at hother

theorem confirmPasswordReset_step {token newPassword : String} {mfaCode recoveryCode : Option String}
    {user : User} {hpublic} (hunique : ResetHashesUnique db)
    (h : confirmPasswordReset c db token newPassword mfaCode recoveryCode = .ok (db', user)) :
    ResetStep c (.direct (.confirmPasswordReset token newPassword mfaCode recoveryCode) hpublic) db
      db' := by
  simp only [confirmPasswordReset, bind_eq_ok, orRaise_eq_ok, pure_eq_ok] at h
  obtain ⟨record, hrecord, _, _, _, _, _, _, _, _, _, _, _, _, hout⟩ := h
  cases hout
  obtain ⟨hrow, _⟩ := Option.filter_eq_some_iff.mp hrecord
  have hmem : record ∈ db.passwordResetTokens := List.mem_of_find?_eq_some hrow
  have hhash : record.tokenHash = hashSessionToken c token := by simpa using List.find?_some hrow
  refine ⟨fun r hr r' hr' hsame => ?_, fun r hr hunused => ?_⟩
  · rcases Table.mem_insert.mp hr with rfl | ⟨hr, hne⟩
    · rcases Table.mem_insert.mp hr' with rfl | ⟨hr', hne'⟩
      · rfl
      · exact absurd (congrArg PasswordResetToken.id (hunique record hmem r' hr' hsame)).symm hne'
    · rcases Table.mem_insert.mp hr' with rfl | ⟨hr', _⟩
      · exact absurd (congrArg PasswordResetToken.id (hunique r hr record hmem hsame)) hne
      · exact hunique r hr r' hr' hsame
  · rcases Table.mem_insert.mp hr with rfl | ⟨hr, hne⟩
    · cases hunused
    · refine Or.inl ⟨hr, ?_, ?_⟩
      · rintro ⟨email, hemail, _⟩
        cases hemail
      · rintro ⟨_, htoken, hsame⟩
        cases htoken
        have hrecord : r = record := hunique r hr record hmem (hsame.symm.trans hhash.symm)
        exact hne (hrecord ▸ rfl)

end

theorem runGatewayRequest_reset {c : Ctx} {s : GateSettings} {db db' : ApiDb} {request : GatewayRequest}
    (hunique : ResetHashesUnique db.auth) (h : runGatewayRequest c s db request = .ok db') :
    ResetStep c request db.auth db'.auth := by
  cases request with
  | direct request hpublic =>
    simp only [runGatewayRequest, bind_eq_ok, mapError_eq_ok, pure_eq_ok] at h
    obtain ⟨⟨auth, _⟩, h, rfl⟩ := h
    cases request with
    | setupRoot name email password clientIp userAgent =>
      simp only [runRequest, createRootUser, bind_eq_ok, pure_eq_ok] at h
      obtain ⟨⟨_, _, _⟩, ⟨_, _, _, _, ⟨_, _⟩, hcreated, hroot⟩, hout⟩ := h
      cases hout
      cases hroot
      exact .of_eq hunique rfl rfl ((createSession_resetTokens hcreated).trans rfl)
    | login email password mfaCode recoveryCode clientIp userAgent =>
      exact .of_eq hunique rfl rfl (loginRoute_resetTokens h)
    | session token clientIp action =>
      simp only [runRequest, bind_eq_ok] at h
      obtain ⟨⟨mid, user, current⟩, hauth, h⟩ := h
      obtain ⟨_, hin⟩ := authenticateSession_ok hauth
      have hmid : mid.passwordResetTokens = db.auth.passwordResetTokens := by
        rw [hin.touched]
        rfl
      exact .of_eq hunique rfl rfl ((runSessionAction_resetTokens h).trans hmid)
    | admin => cases hpublic
    | requestPasswordReset email clientIp =>
      simp only [runRequest, bind_eq_ok, pure_eq_ok] at h
      obtain ⟨⟨_, _⟩, h, hout⟩ := h
      cases hout
      exact requestPasswordReset_step hunique h
    | confirmPasswordReset token newPassword mfaCode recoveryCode =>
      simp only [runRequest, bind_eq_ok, pure_eq_ok] at h
      obtain ⟨⟨_, _⟩, h, hout⟩ := h
      cases hout
      exact confirmPasswordReset_step hunique h
    | registerClient | exchangeAuthorizationCode | exchangeRefreshToken | revokeOAuthToken =>
      exact .of_eq hunique rfl rfl (runRequest_oauthOnly rfl h).passwordResetTokens
  | access caller action =>
    simp only [runGatewayRequest, bind_eq_ok, mapError_eq_ok, pure_eq_ok] at h
    obtain ⟨⟨mid, principal⟩, hopen, auth, haction, rfl⟩ := h
    exact .of_eq hunique rfl rfl
      ((runAccessRoute_resetTokens haction).trans (openGate_ok hopen).1.rest.2.2.1.resetTokens)
  | createCredential caller data =>
    simp only [runGatewayRequest, bind_eq_ok, pure_eq_ok] at h
    obtain ⟨⟨mid, principal⟩, hopen, ⟨_, k, token⟩, hcreate, rfl⟩ := h
    refine .of_eq hunique rfl rfl ?_
    rw [(createCredential_ok hcreate).1, (openGate_ok hopen).1.rest.2.2.1.resetTokens]
  | revokeCredential caller credentialId =>
    simp only [runGatewayRequest, bind_eq_ok, pure_eq_ok] at h
    obtain ⟨⟨mid, principal⟩, hopen, ⟨_, k⟩, hrevoke, rfl⟩ := h
    refine .of_eq hunique rfl rfl ?_
    rw [(revokeCredential_ok hrevoke).1, (openGate_ok hopen).1.rest.2.2.1.resetTokens]

/-! ## Runs -/

/-- The call asks for a reset for the user. -/
def AsksForReset (p : Platform) (userId : ℕ) (g : Gateway) (call : GatewayCall) : Prop :=
  GoesThrough p g call ∧ call.request.AsksReset (call.ctx p g) g.db.auth userId

/-- The call resets a password with a token of the hash. -/
def UsesReset (p : Platform) (tokenHash : String) (g : Gateway) (call : GatewayCall) : Prop :=
  GoesThrough p g call ∧ call.request.PresentsReset (call.ctx p g) tokenHash

/-- The call makes the token for its user. -/
structure MakesReset (p : Platform) (r : PasswordResetToken) (g : Gateway) (call : GatewayCall) : Prop where
  asks : AsksForReset p r.userId g call
  tokenHash : r.tokenHash = hashSessionToken (call.ctx p g) ("prst_" ++ call.draws.token)
  expiresAt : r.expiresAt = g.clock + call.elapsed + seconds (30 * 60)

/-- The token was made by one of the calls, and no call since then has asked for another one for its user,
nor used it. -/
def NewestReset (p : Platform) (start : Gateway) (calls : List GatewayCall) (r : PasswordResetToken) :
    Prop :=
  ∃ before making after, calls = before ++ making :: after ∧
    MakesReset p r (before.foldl (Gateway.step p) start) making ∧
    ∀ since call later, after = since ++ call :: later →
      ¬AsksForReset p r.userId ((before ++ making :: since).foldl (Gateway.step p) start) call ∧
      ¬UsesReset p r.tokenHash ((before ++ making :: since).foldl (Gateway.step p) start) call

structure ResetsNewest (p : Platform) (start : Gateway) (calls : List GatewayCall) (g : Gateway) :
    Prop where
  unique : ResetHashesUnique g.db.auth
  newest : ∀ r ∈ g.db.auth.passwordResetTokens, r.usedAt = none → NewestReset p start calls r

section

variable {p : Platform} {start : Gateway} {calls : List GatewayCall} {call : GatewayCall}
  {r : PasswordResetToken}

theorem NewestReset.next (h : NewestReset p start calls r)
    (hasks : ¬AsksForReset p r.userId (calls.foldl (Gateway.step p) start) call)
    (huses : ¬UsesReset p r.tokenHash (calls.foldl (Gateway.step p) start) call) :
    NewestReset p start (calls ++ [call]) r := by
  obtain ⟨before, making, after, rfl, hmakes, hnewest⟩ := h
  refine ⟨before, making, after ++ [call], by simp, hmakes, fun since a later hsplit => ?_⟩
  rcases List.eq_nil_or_concat later with rfl | ⟨rest, last, rfl⟩
  · obtain ⟨rfl, hlast⟩ := List.append_inj' hsplit rfl
    cases hlast
    exact ⟨hasks, huses⟩
  · have hsplit' : after ++ [call] = (since ++ a :: rest) ++ [last] := by simpa using hsplit
    exact hnewest since a rest (List.append_inj' hsplit' rfl).1

theorem ResetsNewest.next
    (h : ResetsNewest p start calls (calls.foldl (Gateway.step p) start)) :
    ResetsNewest p start (calls ++ [call])
      (Gateway.step p (calls.foldl (Gateway.step p) start) call) := by
  obtain ⟨g, hg⟩ : ∃ g, calls.foldl (Gateway.step p) start = g := ⟨_, rfl⟩
  rw [hg] at h ⊢
  cases hcall : runGatewayRequest (call.ctx p g) call.gate g.db call.request with
  | error e =>
    have hdb : (Gateway.step p g call).db = g.db := by simp only [Gateway.step, hcall]
    have hnot : ¬GoesThrough p g call := by
      rintro ⟨db, hok⟩
      rw [hcall] at hok
      cases hok
    refine ⟨hdb ▸ h.unique, fun r hr hunused => ?_⟩
    exact (h.newest r (hdb ▸ hr) hunused).next (hg ▸ fun hasks => hnot hasks.1)
      (hg ▸ fun huses => hnot huses.1)
  | ok db =>
    have hdb : (Gateway.step p g call).db = db := by simp only [Gateway.step, hcall]
    have hstep := runGatewayRequest_reset h.unique hcall
    have hthrough : GoesThrough p g call := ⟨db, hcall⟩
    refine ⟨hdb ▸ hstep.unique, fun r hr hunused => ?_⟩
    rcases hstep.pending r (hdb ▸ hr) hunused with ⟨hold, hasks, hpresents⟩ | ⟨hasks, hhash, hexpires⟩
    · exact (h.newest r hold hunused).next (hg ▸ fun hagain => hasks hagain.2)
        (hg ▸ fun huses => hpresents huses.2)
    · refine ⟨calls, call, [], rfl, hg ▸ ⟨⟨hthrough, hasks⟩, hhash, hexpires⟩, ?_⟩
      intro since a later hsplit
      exact absurd hsplit (by simp)

end

theorem resetsNewest (p : Platform) (roles : Table Role) (employees : Table Employee) (clock : Instant)
    (calls : List GatewayCall) : ResetsNewest p (.initial roles employees clock) calls
      (Gateway.run p (.initial roles employees clock) calls) := by
  refine history_invariant (I := ResetsNewest p (.initial roles employees clock)) ?_
    (fun _ _ h => h.next) calls
  exact ⟨fun r hr => absurd hr Table.not_mem_empty, fun r hr => absurd hr Table.not_mem_empty⟩

/-- A password is reset only with the newest token that was made for its user, half an hour old at most and
not used before, by a user that is active and gives its second factor. -/
theorem password_reset_newest (p : Platform) (roles : Table Role) (employees : Table Employee)
    (clock : Instant) (calls : List GatewayCall) (c : Ctx) (token newPassword : String)
    (mfaCode recoveryCode : Option String) (after : AuthDb) (saved : User)
    (h : confirmPasswordReset c (Gateway.run p (.initial roles employees clock) calls).db.auth token
      newPassword mfaCode recoveryCode = .ok (after, saved)) :
    ∃ r, r.tokenHash = hashSessionToken c token ∧ c.now < r.expiresAt ∧
      NewestReset p (.initial roles employees clock) calls r ∧
      ∃ user ∈ (Gateway.run p (.initial roles employees clock) calls).db.auth.users,
        user.id = r.userId ∧ saved.id = r.userId ∧ user.status = .active ∧
          FactorGiven c user mfaCode recoveryCode := by
  simp only [confirmPasswordReset, bind_eq_ok, ensure_eq_ok, orRaise_eq_ok, pure_eq_ok] at h
  obtain ⟨r, hr, user, huser, _, hactive, _, hchecked, checked, rfl, _, _, _, _, hout⟩ := h
  cases hout
  obtain ⟨hrow, hvalid⟩ := Option.filter_eq_some_iff.mp hr
  rw [Bool.and_eq_true] at hvalid
  have hhash : r.tokenHash = hashSessionToken c token := by simpa using List.find?_some hrow
  obtain ⟨hmem, hid⟩ := Table.find?_eq_some.mp huser
  obtain ⟨hsame, hfactor⟩ := checkedUser_ok hchecked
  refine ⟨r, hhash, of_decide_eq_true hvalid.2, ?_, user, hmem, hid, hsame.1.id.trans hid,
    of_decide_eq_true hactive, fun hmfa => ⟨checked, hfactor hmfa⟩⟩
  exact (resetsNewest p roles employees clock calls).newest r (List.mem_of_find?_eq_some hrow)
    (Option.isNone_iff_eq_none.mp hvalid.1)

/-- The root has asked for a token. -/
def resetCalls : List GatewayCall :=
  issuingCalls.take 1 ++ [.plain "b" (.direct (.requestPasswordReset "root" none) rfl)]

theorem password_reset_newest_root : ∃ r : PasswordResetToken, r.tokenHash = "prst_b" ∧
    NewestReset .plain (.initial .empty .empty 0) resetCalls r := by
  have hok : (confirmPasswordReset
      (programCall.ctx .plain (Gateway.run .plain (.initial .empty .empty 0) resetCalls))
      (Gateway.run .plain (.initial .empty .empty 0) resetCalls).db.auth "prst_b" "new" none
      none).toOption.isSome = true := by
    decide +kernel
  cases hrun : confirmPasswordReset
      (programCall.ctx .plain (Gateway.run .plain (.initial .empty .empty 0) resetCalls))
      (Gateway.run .plain (.initial .empty .empty 0) resetCalls).db.auth "prst_b" "new" none none with
  | error e =>
    rw [hrun] at hok
    cases hok
  | ok out =>
    obtain ⟨r, hhash, _, hnewest, _⟩ := password_reset_newest .plain .empty .empty 0 resetCalls _ "prst_b"
      "new" none none out.1 out.2 hrun
    exact ⟨r, hhash, hnewest⟩

end Warp.Auth
