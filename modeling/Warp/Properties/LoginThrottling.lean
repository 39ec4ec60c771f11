import Warp.Infra.Runs
import Warp.Properties.CredentialEffects

/-!
# Login throttling

A throttle record counts the failed logins of an account and an address. The failures are told by the
answers of the service, without the records: a window of them starts with a failure, lasts for fifteen
minutes and ends with a success. The record is what these windows say, so a window never has more than
five failures.
-/

namespace Warp.Auth

open Infra

/-! ## Outcomes of a login -/

def Locked (db : AuthDb) (key : String) (now : Instant) : Prop :=
  ∃ lockedUntil, (db.loginThrottles.find? key).bind (·.lockedUntil) = some lockedUntil ∧
    now < lockedUntil

/-- The credentials were looked at and found wrong. A request for a second factor that was not given is
no failure, and neither is one that breaks off with another exception. -/
def AuthError.isLoginFailure : AuthError → Bool
  | .authentication _ code _ => code = "invalid_login" || code = "invalid_mfa_code"
  | _ => false

/-- What a request is for the failures of a key. -/
inductive Attempt where
  | other
  | failed
  | granted
deriving DecidableEq, Repr

def attempt (c : Ctx) (db : AuthDb) (key : String) : Request → Attempt
  | .login email password mfaCode recoveryCode clientIp userAgent =>
    if throttleKey c (normalizeEmail c email) clientIp = key then
      match authenticateHuman c db email password mfaCode recoveryCode clientIp userAgent with
      | .ok _ => .granted
      | .error refusal => if refusal.error.isLoginFailure then .failed else .other
    else .other
  | _ => .other

section

variable {c : Ctx} {db db' : AuthDb} {key email password : String}
  {mfaCode recoveryCode clientIp userAgent : Option String} {e : AuthError}

theorem assertLoginNotThrottled_eq_ok : assertLoginNotThrottled c db key = .ok () ↔
    ¬Locked db key c.now := by
  unfold assertLoginNotThrottled Locked
  split
  · next hnone => simp [hnone]
  · next until_ huntil =>
    rw [huntil]
    split <;> simp_all

theorem assertLoginNotThrottled_error (h : Locked db key c.now) :
    ∃ e, assertLoginNotThrottled c db key = .error e ∧ e.isLoginFailure = false := by
  obtain ⟨lockedUntil, hlocked, hlt⟩ := h
  unfold assertLoginNotThrottled
  rw [hlocked]
  dsimp only
  rw [if_pos hlt]
  exact ⟨_, rfl, rfl⟩

theorem compareDigest_error {a b : String} (h : compareDigest a b = .error e) :
    e.isLoginFailure = false := by
  unfold compareDigest at h
  split at h
  · cases h
  · cases h
    rfl

theorem checkedUser_error {user : User} (h : checkedUser c user mfaCode recoveryCode = .error e) :
    e.isLoginFailure = false := by
  unfold checkedUser at h
  split at h
  · unfold verifyUserFactor at h
    split at h
    · split at h
      · cases h
      · have hverify := exceptMap_eq_error.mp h
        unfold verifyTotp at hverify
        dsimp only at hverify
        split at hverify
        · cases hverify
        · obtain ⟨_, _, he⟩ := anyM_eq_error hverify
          exact compareDigest_error he
    · split at h <;> cases h
  · cases h

theorem contextDiffers_error {value previous : Option String}
    (h : contextDiffers value previous = .error e) : e.isLoginFailure = false := by
  unfold contextDiffers at h
  split at h
  · exact compareDigest_error (exceptMap_eq_error.mp h)
  · cases h

theorem checkAuditActor_error {actor : String} (h : checkAuditActor actor = .error e) :
    e.isLoginFailure = false := by
  rw [ensure_eq_error h]
  rfl

theorem completeLogin_error {found checked : User}
    (h : completeLogin c db found checked key password clientIp userAgent = .error e) :
    e.isLoginFailure = false := by
  simp only [completeLogin, createSession, bind_eq_error] at h
  rcases h with (h | ⟨_, _, h⟩) | ⟨_, _, h | ⟨_, _, h | ⟨_, _, h | ⟨_, _, h⟩⟩⟩⟩
  · rw [ensure_eq_error h]
    rfl
  · cases h
  · exact contextDiffers_error h
  · exact contextDiffers_error h
  · exact checkAuditActor_error h
  · cases h

theorem completeLogin_throttles {found checked : User} {login : Login}
    (h : completeLogin c db found checked key password clientIp userAgent = .ok (db', login)) :
    db'.loginThrottles = db.loginThrottles.filter (·.keyHash ≠ key) := by
  simp only [completeLogin, bind_eq_ok, pure_eq_ok] at h
  obtain ⟨⟨_, created⟩, hcreated, _, _, _, _, _, _, hout⟩ := h
  cases hout
  rw [(createSession_ok hcreated).2]
  rfl

/-- What a login does to the record of its key. -/
inductive LoginTurn (c : Ctx) (db : AuthDb) (key : String) :
    Except LoginRefusal (AuthDb × Login) → Prop where
  | locked (e : AuthError) (hlocked : Locked db key c.now) (he : e.isLoginFailure = false) :
      LoginTurn c db key (.error ⟨e, db⟩)
  | raised (e : AuthError) (hfree : ¬Locked db key c.now) (he : e.isLoginFailure = false) :
      LoginTurn c db key (.error ⟨e, db⟩)
  | failed (e : AuthError) (hfree : ¬Locked db key c.now) (he : e.isLoginFailure = true) :
      LoginTurn c db key (.error ⟨e, recordLoginFailure c db key⟩)
  | granted (db' : AuthDb) (login : Login) (hfree : ¬Locked db key c.now)
      (hthrottles : db'.loginThrottles = db.loginThrottles.filter (·.keyHash ≠ key)) :
      LoginTurn c db key (.ok (db', login))

theorem refuseWith_eq_error {α : Type} {x : Except AuthError α} {refusal : LoginRefusal}
    (h : refuseWith db x = .error refusal) : ∃ e, x = .error e ∧ refusal = ⟨e, db⟩ := by
  cases x with
  | error e =>
    cases h
    exact ⟨e, rfl, rfl⟩
  | ok a => cases h

theorem authenticateHuman_turn : LoginTurn c db (throttleKey c (normalizeEmail c email) clientIp)
    (authenticateHuman c db email password mfaCode recoveryCode clientIp userAgent) := by
  generalize hresult :
    authenticateHuman c db email password mfaCode recoveryCode clientIp userAgent = result
  unfold authenticateHuman at hresult
  dsimp only at hresult
  generalize throttleKey c (normalizeEmail c email) clientIp = key at *
  by_cases hlocked : Locked db key c.now
  · obtain ⟨e, he, hkind⟩ := assertLoginNotThrottled_error hlocked
    simp only [checkLoginPassword, he] at hresult
    subst hresult
    exact .locked e hlocked hkind
  · cases result with
    | ok granted =>
      obtain ⟨db', login⟩ := granted
      simp only [bind_eq_ok] at hresult
      obtain ⟨_, _, _, _, hlogin⟩ := hresult
      exact .granted db' login hlocked (completeLogin_throttles (refuseWith_ok hlogin))
    | error refusal =>
      simp only [checkLoginPassword, checkLoginFactor, bind_eq_error] at hresult
      rcases hresult with (h | ⟨_, _, h⟩) | ⟨_, _, (h | ⟨_, _, h | ⟨_, _, h⟩⟩) | ⟨_, _, h⟩⟩
      all_goals obtain ⟨e, he, rfl⟩ := refuseWith_eq_error h
      · rw [assertLoginNotThrottled_eq_ok.mpr hlocked] at he
        cases he
      · rw [orRaise_eq_error he]
        exact .failed _ hlocked rfl
      · rw [ensure_eq_error he]
        exact .raised _ hlocked rfl
      · exact .raised _ hlocked (checkedUser_error he)
      · rw [orRaise_eq_error he]
        exact .failed _ hlocked rfl
      · exact .raised _ hlocked (completeLogin_error he)

/-- While the key is locked the answer is the same for all credentials, and nothing changes. -/
theorem authenticateHuman_locked
    (h : Locked db (throttleKey c (normalizeEmail c email) clientIp) c.now) :
    ∃ e, ∀ password mfaCode recoveryCode userAgent,
      authenticateHuman c db email password mfaCode recoveryCode clientIp userAgent =
        .error ⟨e, db⟩ := by
  obtain ⟨e, he, _⟩ := assertLoginNotThrottled_error h
  refine ⟨e, fun password mfaCode recoveryCode userAgent => ?_⟩
  simp only [authenticateHuman, checkLoginPassword, he]
  rfl

end

/-! ## Requests that are no login -/

section

variable {c : Ctx} {db db' : AuthDb}

theorem createSession_throttles {userId : ℕ} {ip ua : Option String} {v : Bool}
    {created : CreatedSession} (h : createSession c db userId ip ua v = .ok (db', created)) :
    db'.loginThrottles = db.loginThrottles := by
  rw [(createSession_ok h).2]
  rfl

/-- Neither the throttle records nor the sessions change. -/
def SignInKept (db db' : AuthDb) : Prop :=
  db'.loginThrottles = db.loginThrottles ∧ db'.authSessions = db.authSessions

theorem authorizationRedirect_signInKept {user : User} {current : AuthSession}
    {request : AuthorizationRequest} {document : Except AuthError ClientMetadata} {approve : Bool}
    {result : AuthDb × Except AuthError (AuthDb × Option OAuthAuthorizationCode)}
    (h : authorizationRedirect c db user current request document approve = result) :
    SignInKept db result.1 ∧ ∀ db' record, result.2 = .ok (db', record) → SignInKept db db' := by
  -- the client is stored at most, whatever becomes of the request
  have hclient : ∀ mid client, resolveOAuthClient c db request.clientId document = .ok (mid, client) →
      SignInKept db mid := by
    intro mid client hresolve
    unfold resolveOAuthClient at hresolve
    split at hresolve
    · simp only [bind_eq_ok, ensure_eq_ok, pure_eq_ok] at hresolve
      obtain ⟨_, _, _, _, hout⟩ := hresolve
      cases hout
      exact ⟨rfl, rfl⟩
    · simp only [bind_eq_ok, pure_eq_ok] at hresolve
      obtain ⟨_, _, hout⟩ := hresolve
      cases hout
      exact ⟨rfl, rfl⟩
  subst h
  unfold authorizationRedirect
  split
  · exact ⟨⟨rfl, rfl⟩, fun _ _ h => by cases h⟩
  · next mid client hresolve =>
    refine ⟨hclient mid client hresolve, fun db' record h => ?_⟩
    simp only [bind_eq_ok] at h
    obtain ⟨_, _, h⟩ := h
    cases approve with
    | false =>
      cases h
      exact hclient mid client hresolve
    | true =>
      simp only [if_true, issueCode, bind_eq_ok, ensure_eq_ok, pure_eq_ok] at h
      obtain ⟨_, ⟨_, _, rfl⟩, h⟩ := h
      cases h
      exact hclient mid client hresolve

theorem authorizeRoute_signInKept {user : User} {current : AuthSession}
    {request : AuthorizationRequest} {document : Except AuthError ClientMetadata} {approve : Bool}
    {e : Option Event}
    (h : authorizeRoute c db user current request document approve = .ok (db', e)) :
    SignInKept db db' := by
  unfold authorizeRoute at h
  split at h
  · next mid record hredirect =>
    cases h
    exact (authorizationRedirect_signInKept hredirect).2 _ _ rfl
  · next hredirect =>
    cases h
    exact (authorizationRedirect_signInKept hredirect).1
  · cases h

theorem runSessionAction_throttles {user : User} {current : AuthSession} {action : SessionAction}
    {e : Option Event} (h : runSessionAction c db user current action = .ok (db', e)) :
    db'.loginThrottles = db.loginThrottles := by
  cases action with
  | me =>
    cases h
    rfl
  | logout =>
    simp only [runSessionAction, bind_eq_ok, pure_eq_ok] at h
    obtain ⟨_, hrevoked, hout⟩ := h
    cases hout
    rcases revokeSession_ok hrevoked with rfl | rfl <;> rfl
  | changePassword currentPassword newPassword =>
    simp only [runSessionAction, changePassword, bind_eq_ok, ensure_eq_ok, pure_eq_ok] at h
    obtain ⟨_, ⟨_, _, _, _, _, _, hcreated⟩, hout⟩ := h
    cases hout
    exact (createSession_throttles hcreated).trans rfl
  | beginMfaSetup currentPassword =>
    simp only [runSessionAction, beginMfaSetup, bind_eq_ok, ensure_eq_ok, pure_eq_ok] at h
    obtain ⟨_, ⟨_, _, _, _, _, _, hbegun⟩, hout⟩ := h
    cases hout
    cases hbegun
    rfl
  | confirmMfaSetup code =>
    simp only [runSessionAction, confirmMfaSetup, bind_eq_ok, ensure_eq_ok, pure_eq_ok] at h
    obtain ⟨_, ⟨_, _, _, _, _, _, _, _, _, _, hconfirmed⟩, _, _, hout⟩ := h
    cases hout
    cases hconfirmed
    rfl
  | disableMfa currentPassword mfaCode recoveryCode =>
    simp only [runSessionAction, disableMfa, bind_eq_ok, ensure_eq_ok, pure_eq_ok] at h
    obtain ⟨_, ⟨_, _, _, _, _, _, _, _, _, _, hcreated⟩, hout⟩ := h
    cases hout
    exact (createSession_throttles hcreated).trans rfl
  | reauthenticate password mfaCode recoveryCode =>
    simp only [runSessionAction, reauthenticate, bind_eq_ok, ensure_eq_ok, pure_eq_ok] at h
    obtain ⟨_, ⟨_, _, _, _, _, _, hcreated⟩, hout⟩ := h
    cases hout
    exact (createSession_throttles hcreated).trans rfl
  | revokeOtherSessions =>
    simp only [runSessionAction, bind_eq_ok, pure_eq_ok] at h
    obtain ⟨_, _, _, _, hout⟩ := h
    cases hout
    rfl
  | revokeAllSessions =>
    simp only [runSessionAction, bind_eq_ok, pure_eq_ok] at h
    obtain ⟨_, _, _, _, hout⟩ := h
    cases hout
    rfl
  | authorize request document approve => exact (authorizeRoute_signInKept h).1

theorem runAdminAction_throttles {actorUserId : Option ℕ} {action : AdminAction} {e : Option Event}
    (h : runAdminAction c db actorUserId action = .ok (db', e)) :
    db'.loginThrottles = db.loginThrottles := by
  cases action with
  | createUser name email password roleIds employeeId =>
    simp only [runAdminAction, createUser, bind_eq_ok, pure_eq_ok] at h
    obtain ⟨_, ⟨_, _, _, _, _, _, _, _, _, _, rfl⟩, hout⟩ := h
    cases hout
    rfl
  | updateUser userId data =>
    simp only [runAdminAction, updateUser, bind_eq_ok] at h
    obtain ⟨_, _, ⟨db₁, _⟩, ⟨_, _, _, _, hupdated⟩, hout⟩ := h
    have hsame : db₁.loginThrottles = db.loginThrottles := by
      split at hupdated <;> cases hupdated <;> rfl
    split at hout <;> cases hout <;> exact hsame
  | resetUserPassword userId password =>
    simp only [runAdminAction, resetUserPassword, bind_eq_ok, pure_eq_ok] at h
    obtain ⟨_, _, _, ⟨_, _, rfl⟩, hout⟩ := h
    cases hout
    rfl
  | disableUser userId =>
    simp only [runAdminAction, disableUser, bind_eq_ok, pure_eq_ok] at h
    obtain ⟨_, _, _, ⟨_, _, _, _, rfl⟩, hout⟩ := h
    cases hout
    rfl

/-- Only a login changes a record. -/
theorem runRequest_throttles {r : Request} {e : Option Event}
    (hlogin : ∀ email password mfaCode recoveryCode clientIp userAgent,
      r ≠ .login email password mfaCode recoveryCode clientIp userAgent)
    (h : runRequest c db r = .ok (db', e)) : db'.loginThrottles = db.loginThrottles := by
  cases r with
  | setupRoot name email password clientIp userAgent =>
    -- all others keep the table; the database is taken apart down to the write
    simp only [runRequest, createRootUser, bind_eq_ok, ensure_eq_ok, pure_eq_ok] at h
    obtain ⟨_, ⟨_, _, _, _, ⟨_, _⟩, hcreated, hroot⟩, hout⟩ := h
    cases hout
    cases hroot
    exact (createSession_throttles hcreated).trans rfl
  | login email password mfaCode recoveryCode clientIp userAgent =>
    exact absurd rfl (hlogin _ _ _ _ _ _)
  | session token clientIp action =>
    simp only [runRequest, bind_eq_ok] at h
    obtain ⟨⟨_, _, _⟩, hauth, h⟩ := h
    obtain ⟨_, hin⟩ := authenticateSession_ok hauth
    rw [runSessionAction_throttles h, hin.touched]
    rfl
  | admin actorUserId action => exact runAdminAction_throttles h
  | requestPasswordReset email clientIp =>
    simp only [runRequest, bind_eq_ok, pure_eq_ok] at h
    obtain ⟨⟨_, _⟩, h, hout⟩ := h
    cases hout
    unfold requestPasswordReset at h
    split at h
    · cases h
      rfl
    · simp only [bind_eq_ok, pure_eq_ok] at h
      obtain ⟨_, _, _, _, hout⟩ := h
      cases hout
      rfl
  | confirmPasswordReset token newPassword mfaCode recoveryCode =>
    simp only [runRequest, confirmPasswordReset, bind_eq_ok, pure_eq_ok] at h
    obtain ⟨_, ⟨_, _, _, _, _, _, _, _, _, _, _, _, _, _, hreset⟩, hout⟩ := h
    cases hout
    cases hreset
    rfl
  | registerClient | exchangeAuthorizationCode | exchangeRefreshToken | revokeOAuthToken =>
    exact (runRequest_oauthOnly rfl h).loginThrottles

end

/-! ## Windows of failures -/

def throttleWindow : ℕ := seconds (15 * 60)

/-- The failures of a window, oldest first, after one more: it opens a new window if there is none or
if fifteen minutes have passed since the first. -/
def failIn (window : List Instant) (now : Instant) : List Instant :=
  match window with
  | [] => [now]
  | first :: _ => if first + throttleWindow ≤ now then [now] else window ++ [now]

def nextWindow (window : List Instant) (now : Instant) : Attempt → List Instant
  | .other => window
  | .failed => failIn window now
  | .granted => []

/-- The record that a window stands for. -/
def windowRecord (key : String) : List Instant → Option LoginThrottle
  | [] => none
  | first :: rest => some
    { keyHash := key
      failedCount := rest.length + 1
      windowStartedAt := first
      lockedUntil :=
        if rest.length + 1 = 5 then some (rest.getLastD first + throttleWindow) else none }

/-- A step of the service, and what it answers for the window of a key. -/
def Service.watch (p : Platform) (key : String) (x : Service × List Instant) (call : Call) :
    Service × List Instant :=
  (x.1.step p call, nextWindow x.2 (call.ctx p x.1).now
    (attempt (call.ctx p x.1) x.1.db key call.request))

/-- The record of the key is that of the window. -/
structure Watched (key : String) (x : Service × List Instant) : Prop where
  record : x.1.db.loginThrottles.find? key = windowRecord key x.2
  bounded : x.2.length ≤ 5
  sorted : x.2.Pairwise (· ≤ ·)
  past : ∀ t ∈ x.2, t ≤ x.1.clock

section

variable {c : Ctx} {db db' : AuthDb} {key : String} {window : List Instant} {p : Platform}

theorem getLastD_mem {first : Instant} {rest : List Instant} :
    rest.getLastD first ∈ first :: rest := by
  induction rest generalizing first with
  | nil => exact List.mem_cons_self
  | cons a rest ih =>
    rw [List.getLastD_cons]
    exact List.mem_cons_of_mem _ ih

/-- A window that is not over and not locked has room for a failure. -/
theorem room_of_free {first : Instant} {rest : List Instant}
    (hrecord : db.loginThrottles.find? key = windowRecord key (first :: rest))
    (hbounded : (first :: rest).length ≤ 5) (hsorted : (first :: rest).Pairwise (· ≤ ·))
    (hfree : ¬Locked db key c.now) (hopen : ¬first + throttleWindow ≤ c.now) :
    rest.length + 1 < 5 := by
  refine lt_of_le_of_ne hbounded fun hfive => hfree ?_
  -- the lock of the fifth failure outlasts the window
  refine ⟨rest.getLastD first + throttleWindow, ?_, ?_⟩
  · rw [hrecord]
    simp only [windowRecord, Option.bind_some]
    exact if_pos hfive
  · have hfirst : first ≤ rest.getLastD first := by
      rcases List.mem_cons.mp (@getLastD_mem first rest) with he | hmem
      · exact he.ge
      · exact (List.pairwise_cons.mp hsorted).1 _ hmem
    exact lt_of_lt_of_le (not_le.mp hopen) (Nat.add_le_add_right hfirst _)

theorem recordLoginFailure_find (hrecord : db.loginThrottles.find? key = windowRecord key window)
    (hbounded : window.length ≤ 5) (hsorted : window.Pairwise (· ≤ ·))
    (hpast : ∀ t ∈ window, t ≤ c.now) (hfree : ¬Locked db key c.now) :
    (recordLoginFailure c db key).loginThrottles.find? key =
      windowRecord key (failIn window c.now) ∧ (failIn window c.now).length ≤ 5 := by
  cases window with
  | nil =>
    have hopen : openThrottle c db key =
        { keyHash := key, failedCount := 0, windowStartedAt := c.now } := by
      rw [openThrottle, hrecord]
      rfl
    refine ⟨?_, by simp [failIn]⟩
    rw [recordLoginFailure, hopen]
    exact Table.find?_insert_self _ _
  | cons first rest =>
    have hfirst : first ≤ c.now := hpast first List.mem_cons_self
    -- a window that is over starts again with this failure
    by_cases hover : first + throttleWindow ≤ c.now
    · have hopen : openThrottle c db key =
          { keyHash := key, failedCount := 0, windowStartedAt := c.now } := by
        rw [openThrottle, hrecord]
        simp only [windowRecord]
        rw [if_pos (show seconds (15 * 60) ≤ c.now - first from Nat.le_sub_of_add_le' hover)]
      rw [failIn, if_pos hover, recordLoginFailure, hopen]
      exact ⟨Table.find?_insert_self _ _, by simp⟩
    -- the key is free, so fewer than five failures are in the window
    · have hroom := room_of_free hrecord hbounded hsorted hfree hover
      have hopen : openThrottle c db key =
          { keyHash := key, failedCount := rest.length + 1, windowStartedAt := first } := by
        rw [openThrottle, hrecord]
        simp only [windowRecord]
        rw [if_neg (show ¬seconds (15 * 60) ≤ c.now - first from
            fun h => hover (Nat.add_le_of_le_sub' hfirst h)), if_neg hroom.ne]
      rw [failIn, if_neg hover, recordLoginFailure, hopen]
      refine ⟨(Table.find?_insert_self _ _).trans ?_, ?_⟩
      · simp only [List.cons_append, windowRecord, List.length_append, List.length_singleton,
          List.getLastD_concat]
        by_cases hfive : rest.length + 1 + 1 = 5
        · rw [if_pos hfive.ge, if_pos hfive]
          rfl
        · rw [if_neg (show ¬5 ≤ rest.length + 1 + 1 by omega), if_neg hfive]
      · rw [List.length_append, List.length_cons]
        exact hroom

theorem failIn_sorted (hsorted : window.Pairwise (· ≤ ·)) {now : Instant}
    (hpast : ∀ t ∈ window, t ≤ now) : (failIn window now).Pairwise (· ≤ ·) ∧
      ∀ t ∈ failIn window now, t ≤ now := by
  unfold failIn
  split
  · simp
  · next first rest =>
    split
    · simp
    · refine ⟨List.pairwise_append.mpr ⟨hsorted, List.pairwise_singleton _ _, ?_⟩, ?_⟩
      · intro a ha b hb
        rw [List.mem_singleton.mp hb]
        exact hpast a ha
      · intro t ht
        rcases List.mem_append.mp ht with ht | ht
        · exact hpast t ht
        · exact (List.mem_singleton.mp ht).le

theorem find?_recordLoginFailure_ne {key' : String} (hne : key' ≠ key) :
    (recordLoginFailure c db key').loginThrottles.find? key = db.loginThrottles.find? key := by
  have hkey : (openThrottle c db key').keyHash = key' := by
    unfold openThrottle
    split
    · rfl
    · next r hfind =>
      obtain ⟨_, hid⟩ := Table.find?_eq_some.mp hfind
      split <;> exact hid
  refine Table.find?_insert_ne ?_
  show key ≠ (openThrottle c db key').keyHash
  rw [hkey]
  exact hne.symm

theorem find?_filter_ne {key' : String} (hne : key' ≠ key) :
    (db.loginThrottles.filter (·.keyHash ≠ key')).find? key = db.loginThrottles.find? key := by
  refine Table.find?_congr fun r hr => ?_
  rw [Table.mem_filter]
  refine and_iff_left ?_
  rw [show r.keyHash = key from hr]
  simpa using hne.symm

/-- What can happen to the record of a key, told by the answer. -/
def RecordTurn (c : Ctx) (db : AuthDb) (key : String) (db' : AuthDb) : Attempt → Prop
  | .other => db'.loginThrottles.find? key = db.loginThrottles.find? key
  | .failed => ¬Locked db key c.now ∧ db'.loginThrottles.find? key =
      (recordLoginFailure c db key).loginThrottles.find? key
  | .granted => db'.loginThrottles.find? key = none

/-- The database after a request, also after one that raises. -/
def afterRequest (c : Ctx) (db : AuthDb) (r : Request) : AuthDb :=
  match runRequest c db r with
  | .ok result => result.1
  | .error _ => db

theorem login_record (key : String) (email password : String)
    (mfaCode recoveryCode clientIp userAgent : Option String) :
    RecordTurn c db key
      (afterRequest c db (.login email password mfaCode recoveryCode clientIp userAgent))
      (attempt c db key (.login email password mfaCode recoveryCode clientIp userAgent)) := by
  have hturn := @authenticateHuman_turn c db email password mfaCode recoveryCode clientIp userAgent
  simp only [afterRequest, runRequest, loginRoute, attempt]
  generalize throttleKey c (normalizeEmail c email) clientIp = own at *
  generalize authenticateHuman c db email password mfaCode recoveryCode clientIp userAgent = result
    at *
  -- the request writes the record of its own key only
  by_cases hown : own = key
  · subst hown
    rw [if_pos rfl]
    cases hturn with
    | locked e hlocked he =>
      dsimp only
      rw [he]
      cases e <;> rfl
    | raised e hfree he =>
      dsimp only
      rw [he]
      cases e <;> rfl
    | failed e hfree he =>
      cases e with
      | authentication message code metadata =>
        dsimp only
        rw [if_pos he]
        exact ⟨hfree, rfl⟩
      | _ => cases he
    | granted db' login hfree hthrottles =>
      refine Table.find?_eq_none.mpr fun r hr => ?_
      rw [hthrottles, Table.mem_filter] at hr
      exact of_decide_eq_true hr.2
  · rw [if_neg hown]
    cases hturn with
    | locked e hlocked he => cases e <;> rfl
    | raised e hfree he => cases e <;> rfl
    | failed e hfree he =>
      cases e with
      | authentication message code metadata => exact find?_recordLoginFailure_ne hown
      | _ => cases he
    | granted db' login hfree hthrottles =>
      show db'.loginThrottles.find? key = _
      rw [hthrottles]
      exact find?_filter_ne hown

theorem request_record (key : String) (r : Request) :
    RecordTurn c db key (afterRequest c db r) (attempt c db key r) := by
  by_cases hlogin : ∀ email password mfaCode recoveryCode clientIp userAgent,
      r ≠ .login email password mfaCode recoveryCode clientIp userAgent
  · have hother : attempt c db key r = .other := by
      cases r with
      | login => exact absurd rfl (hlogin _ _ _ _ _ _)
      | _ => rfl
    rw [hother]
    show (afterRequest c db r).loginThrottles.find? key = _
    unfold afterRequest
    split
    · next result hrun => rw [runRequest_throttles hlogin hrun]
    · rfl
  · push Not at hlogin
    obtain ⟨email, password, mfaCode, recoveryCode, clientIp, userAgent, rfl⟩ := hlogin
    exact login_record key email password mfaCode recoveryCode clientIp userAgent

theorem step_db (s : Service) (call : Call) :
    (s.step p call).db = afterRequest (call.ctx p s) s.db call.request ∧
      (s.step p call).clock = (call.ctx p s).now := by
  unfold Service.step afterRequest
  cases runRequest (call.ctx p s) s.db call.request with
  | error e => exact ⟨rfl, rfl⟩
  | ok result => exact ⟨rfl, rfl⟩

theorem Watched.step {x : Service × List Instant} (h : Watched key x) (call : Call) :
    Watched key (Service.watch p key x call) := by
  obtain ⟨s, window⟩ := x
  obtain ⟨hdb, hclock⟩ := step_db (p := p) s call
  have hpast : ∀ t ∈ window, t ≤ (call.ctx p s).now :=
    fun t ht => (h.past t ht).trans (Nat.le_add_right _ _)
  have hturn := @request_record (call.ctx p s) s.db key call.request
  rw [← hdb] at hturn
  unfold Service.watch
  dsimp only
  generalize attempt (call.ctx p s) s.db key call.request = outcome at hturn
  cases outcome with
  | other => exact ⟨hturn.trans h.record, h.bounded, h.sorted, fun t ht => hclock ▸ hpast t ht⟩
  | failed =>
    obtain ⟨hfree, hfind⟩ := hturn
    obtain ⟨hrecord, hbounded⟩ :=
      recordLoginFailure_find h.record h.bounded h.sorted hpast hfree
    obtain ⟨hsorted, hlast⟩ := failIn_sorted h.sorted hpast
    exact ⟨hfind.trans hrecord, hbounded, hsorted, fun t ht => hclock ▸ hlast t ht⟩
  | granted => exact ⟨hturn, by simp [nextWindow], List.Pairwise.nil, fun t ht => by cases ht⟩

/-- Every run keeps the record of the window. -/
theorem watched_run (roles : Table Role) (employees : Table Employee) (clock : Instant)
    (calls : List Call) :
    Watched key (calls.foldl (Service.watch p key) (.initial roles employees clock, [])) := by
  have hinit : Watched key (Service.initial roles employees clock, []) :=
    ⟨rfl, by simp, List.Pairwise.nil, fun t ht => by cases ht⟩
  generalize (Service.initial roles employees clock, ([] : List Instant)) = x at hinit
  induction calls generalizing x with
  | nil => exact hinit
  | cons call calls ih => exact ih _ (hinit.step call)

theorem watch_fst (calls : List Call) (x : Service × List Instant) :
    (calls.foldl (Service.watch p key) x).1 = x.1.run p calls := by
  induction calls generalizing x with
  | nil => rfl
  | cons call calls ih => exact ih _

end

/-! ## The laws of throttling -/

/-- The failed logins of a key in a run. -/
def failures (p : Platform) (key : String) : Service → List Call → ℕ
  | _, [] => 0
  | s, call :: rest =>
    (if attempt (call.ctx p s) s.db key call.request = .failed then 1 else 0) +
      failures p key (s.step p call) rest

/-- The call comes before the window ends or while the key is locked, and is no successful login. -/
def InWindow (p : Platform) (key : String) (windowEnd : Instant) (s : Service) (call : Call) : Prop :=
  attempt (call.ctx p s) s.db key call.request ≠ .granted ∧
    ((call.ctx p s).now < windowEnd ∨ Locked s.db key (call.ctx p s).now)

/-- What holds of the record of a key in a state. The failures of its window are `window`. -/
structure Throttling (p : Platform) (key : String) (s : Service) (window : List Instant) : Prop where
  recorded : s.db.loginThrottles.find? key = windowRecord key window
  bounded : window.length ≤ 5
  counted : ∀ r, s.db.loginThrottles.find? key = some r → 1 ≤ r.failedCount ∧ r.failedCount ≤ 5 ∧
    r.failedCount = window.length ∧ window.head? = some r.windowStartedAt
  lockedAtFive : ∀ r, s.db.loginThrottles.find? key = some r →
    (r.lockedUntil.isSome ↔ r.failedCount = 5) ∧ ∀ lockedUntil, r.lockedUntil = some lockedUntil →
      ∃ fifth, window.getLast? = some fifth ∧ lockedUntil = fifth + seconds (15 * 60)
  refused : ∀ c email clientIp, throttleKey c (normalizeEmail c email) clientIp = key →
    Locked s.db key c.now → ∃ e, ∀ password mfaCode recoveryCode userAgent,
      authenticateHuman c s.db email password mfaCode recoveryCode clientIp userAgent =
        .error ⟨e, s.db⟩
  atMostFive : ∀ r, s.db.loginThrottles.find? key = some r → ∀ more,
    Along (Service.step p) (InWindow p key (r.windowStartedAt + seconds (15 * 60))) s more →
      r.failedCount + failures p key s more ≤ 5
  fresh : ∀ r lockedUntil, s.db.loginThrottles.find? key = some r →
    r.lockedUntil = some lockedUntil → ∀ call,
      attempt (call.ctx p s) s.db key call.request = .failed →
        (s.step p call).db.loginThrottles.find? key =
          some { keyHash := key, failedCount := 1, windowStartedAt := (call.ctx p s).now }

section

variable {p : Platform} {key : String} {x : Service × List Instant}

theorem Watched.record_eq (h : Watched key x) {r : LoginThrottle}
    (hfind : x.1.db.loginThrottles.find? key = some r) :
    ∃ first rest, x.2 = first :: rest ∧ windowRecord key (first :: rest) = some r := by
  have hrecord := h.record.symm.trans hfind
  cases hwindow : x.2 with
  | nil =>
    rw [hwindow] at hrecord
    cases hrecord
  | cons first rest =>
    rw [hwindow] at hrecord
    exact ⟨first, rest, rfl, hrecord⟩

/-- As long as the window lasts, its failures are those of the run. -/
theorem Watched.atMostFive (h : Watched key x) {first : Instant} {rest : List Instant}
    (hwindow : x.2 = first :: rest) {more : List Call}
    (hmore : Along (Service.step p) (InWindow p key (first + throttleWindow)) x.1 more) :
    rest.length + 1 + failures p key x.1 more ≤ 5 := by
  induction more generalizing x rest with
  | nil =>
    have hbounded := h.bounded
    rw [hwindow] at hbounded
    exact hbounded
  | cons call more ih =>
    obtain ⟨⟨hgranted, hin⟩, hmore⟩ := hmore
    have hstep := h.step (p := p) call
    have hturn := @request_record (call.ctx p x.1) x.1.db key call.request
    unfold failures
    cases houtcome : attempt (call.ctx p x.1) x.1.db key call.request with
    | other =>
      rw [if_neg (by simp), Nat.zero_add]
      refine ih hstep ?_ hmore
      rw [Service.watch, houtcome]
      exact hwindow
    | failed =>
      rw [houtcome] at hturn
      have hopen : ¬first + throttleWindow ≤ (call.ctx p x.1).now :=
        not_le.mpr (hin.resolve_right hturn.1)
      have hnow : (Service.watch p key x call).2 = first :: (rest ++ [(call.ctx p x.1).now]) := by
        rw [Service.watch, houtcome, hwindow]
        exact if_neg hopen
      have hnext := ih hstep hnow hmore
      rw [List.length_append, List.length_singleton] at hnext
      rw [if_pos rfl, ← Nat.add_assoc]
      exact hnext
    | granted => exact absurd houtcome hgranted

theorem Watched.fresh (h : Watched key x) {r : LoginThrottle} {lockedUntil : Instant}
    (hfind : x.1.db.loginThrottles.find? key = some r) (hlock : r.lockedUntil = some lockedUntil)
    {call : Call} (hfailed : attempt (call.ctx p x.1) x.1.db key call.request = .failed) :
    (x.1.step p call).db.loginThrottles.find? key =
      some { keyHash := key, failedCount := 1, windowStartedAt := (call.ctx p x.1).now } := by
  obtain ⟨first, rest, hwindow, hrecord⟩ := h.record_eq hfind
  have hstep := (h.step (p := p) call).record
  have hturn := @request_record (call.ctx p x.1) x.1.db key call.request
  rw [hfailed] at hturn
  simp only [windowRecord, Option.some.injEq] at hrecord
  have hfive : rest.length + 1 = 5 := by
    by_contra hne
    rw [← hrecord, if_neg hne] at hlock
    cases hlock
  -- a lock that is over comes after a window that is over
  have hover : first + throttleWindow ≤ (call.ctx p x.1).now := by
    by_contra hopen
    have hbounded := h.bounded
    have hsorted := h.sorted
    rw [hwindow] at hbounded hsorted
    have hroom := room_of_free (h.record.trans (by rw [hwindow])) hbounded hsorted hturn.1 hopen
    exact absurd hfive hroom.ne
  rw [Service.watch, hfailed] at hstep
  rw [hstep, hwindow]
  show windowRecord key (failIn (first :: rest) _) = _
  rw [failIn, if_pos hover]
  rfl

theorem Watched.throttling (h : Watched key x) : Throttling p key x.1 x.2 where
  recorded := h.record
  bounded := h.bounded
  counted := by
    intro r hfind
    obtain ⟨first, rest, hwindow, hrecord⟩ := h.record_eq hfind
    have hbounded := h.bounded
    rw [hwindow] at hbounded
    rw [hwindow, ← Option.some.inj hrecord]
    exact ⟨Nat.le_add_left 1 _, hbounded, rfl, rfl⟩
  lockedAtFive := by
    intro r hfind
    obtain ⟨first, rest, hwindow, hrecord⟩ := h.record_eq hfind
    rw [hwindow, ← Option.some.inj hrecord]
    constructor
    · by_cases hfive : rest.length + 1 = 5
      · simp [hfive]
      · simp [hfive]
    · intro lockedUntil hlock
      dsimp only at hlock
      split at hlock
      · cases hlock
        exact ⟨_, by rw [List.getLast?_cons, List.getLastD_eq_getLast?], rfl⟩
      · cases hlock
  refused := by
    rintro c email clientIp rfl hlocked
    exact authenticateHuman_locked hlocked
  atMostFive := by
    intro r hfind more hmore
    obtain ⟨first, rest, hwindow, hrecord⟩ := h.record_eq hfind
    rw [← Option.some.inj hrecord] at hmore ⊢
    exact h.atMostFive hwindow hmore
  fresh := fun _ _ hfind hlock _ hfailed => h.fresh hfind hlock hfailed

end

/-- The laws hold of every key in every state that a run comes to. -/
theorem login_throttling (p : Platform) (roles : Table Role) (employees : Table Employee)
    (clock : Instant) (calls : List Call) (key : String) :
    Throttling p key (Service.run p (.initial roles employees clock) calls)
      (calls.foldl (Service.watch p key) (.initial roles employees clock, [])).2 := by
  have hwatched := @watched_run key p roles employees clock calls
  have h := @Watched.throttling p key _ hwatched
  rwa [watch_fst] at h

/-- Five wrong passwords lock the key, and the right one no longer helps. -/
def lockingCalls : List Call :=
  [.plain "a" (.setupRoot "Root" "root" "old" none none),
    .plain "b" (.login "root" "bad" none none none none),
    .plain "c" (.login "root" "bad" none none none none),
    .plain "d" (.login "root" "bad" none none none none),
    .plain "e" (.login "root" "bad" none none none none),
    .plain "f" (.login "root" "bad" none none none none),
    .plain "g" (.login "root" "old" none none none none)]

theorem login_throttling_locked :
    (Service.run .plain (.initial .empty .empty 0) lockingCalls).db.loginThrottles.find?
      "root|unknown" = some
        { keyHash := "root|unknown", failedCount := 5, windowStartedAt := seconds 2,
          lockedUntil := some (seconds 6 + seconds (15 * 60)) } := by
  have hwindow : (lockingCalls.foldl (Service.watch .plain "root|unknown")
      (.initial .empty .empty 0, [])).2 = [2, 3, 4, 5, 6].map seconds := by
    decide +kernel
  rw [(login_throttling .plain .empty .empty 0 lockingCalls "root|unknown").recorded, hwindow]
  rfl

end Warp.Auth
