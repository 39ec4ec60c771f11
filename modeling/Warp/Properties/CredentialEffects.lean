import Warp.Auth.Requests

/-!
# What a request does to credentials

Every request that goes through has one of a few effects on users, sessions, codes and tokens:
it keeps them, issues one new credential, marks a session as verified, or closes an account. The
results about runs look at these effects only.
-/

namespace Warp.Auth

open Infra

/-! ## Keeping rows -/

/-- The session may be used or revoked, nothing else. -/
structure SessionKept (s s' : AuthSession) : Prop where
  id : s'.id = s.id
  userId : s'.userId = s.userId
  mfaVerifiedAt : s'.mfaVerifiedAt = s.mfaVerifiedAt
  revoked : s.revokedAt ≠ none → s'.revokedAt ≠ none

theorem SessionKept.refl (s : AuthSession) : SessionKept s s := ⟨rfl, rfl, rfl, fun h => h⟩

theorem SessionKept.trans {s t u : AuthSession} (h : SessionKept s t) (h' : SessionKept t u) :
    SessionKept s u :=
  ⟨h'.id.trans h.id, h'.userId.trans h.userId, h'.mfaVerifiedAt.trans h.mfaVerifiedAt,
    h'.revoked ∘ h.revoked⟩

structure CodeKept (r r' : OAuthAuthorizationCode) : Prop where
  id : r'.id = r.id
  userId : r'.userId = r.userId
  mfaVerified : r'.mfaVerified = r.mfaVerified

theorem CodeKept.refl (r : OAuthAuthorizationCode) : CodeKept r r := ⟨rfl, rfl, rfl⟩

structure TokenKept (t t' : OAuthToken) : Prop where
  id : t'.id = t.id
  userId : t'.userId = t.userId
  mfaVerified : t'.mfaVerified = t.mfaVerified
  createdAt : t'.createdAt = t.createdAt
  accessExpiresAt : t'.accessExpiresAt = t.accessExpiresAt
  revoked : t.revokedAt ≠ none → t'.revokedAt ≠ none

theorem TokenKept.refl (t : OAuthToken) : TokenKept t t := ⟨rfl, rfl, rfl, rfl, rfl, fun h => h⟩

/-- The columns of a user that decide whether its tokens are accepted. -/
structure UserKept (u u' : User) : Prop where
  id : u'.id = u.id
  status : u'.status = u.status
  passwordChangeRequired : u'.passwordChangeRequired = u.passwordChangeRequired
  passwordChangedAt : u'.passwordChangedAt = u.passwordChangedAt

theorem UserKept.refl (u : User) : UserKept u u := ⟨rfl, rfl, rfl, rfl⟩

theorem UserKept.trans {u v w : User} (h : UserKept u v) (h' : UserKept v w) : UserKept u w :=
  ⟨h'.id.trans h.id, h'.status.trans h.status,
    h'.passwordChangeRequired.trans h.passwordChangeRequired,
    h'.passwordChangedAt.trans h.passwordChangedAt⟩

/-- No credential is new, and no user changes but the excepted one. Users may be new. -/
structure KeptBut (except : Option ℕ) (db db' : AuthDb) : Prop where
  sessions : ∀ s' ∈ db'.authSessions, ∃ s ∈ db.authSessions, SessionKept s s'
  codes : ∀ r' ∈ db'.oauthAuthorizationCodes, ∃ r ∈ db.oauthAuthorizationCodes, CodeKept r r'
  tokens : ∀ t' ∈ db'.oauthTokens, ∃ t ∈ db.oauthTokens, TokenKept t t'
  users : ∀ u' ∈ db'.users, (∃ u ∈ db.users, u.id = u'.id ∧ (except = some u.id ∨ UserKept u u')) ∨
    (db.sequences.user ≤ u'.id ∧ u'.id < db'.sequences.user)
  userSequence : db.sequences.user ≤ db'.sequences.user
  authSession : db'.sequences.authSession = db.sequences.authSession
  oauthAuthorizationCode :
    db'.sequences.oauthAuthorizationCode = db.sequences.oauthAuthorizationCode
  oauthToken : db'.sequences.oauthToken = db.sequences.oauthToken

abbrev Kept := KeptBut none

variable {c : Ctx} {db mid db' : AuthDb} {except : Option ℕ}

theorem KeptBut.refl (db : AuthDb) : KeptBut except db db where
  sessions s hs := ⟨s, hs, .refl s⟩
  codes r hr := ⟨r, hr, .refl r⟩
  tokens t ht := ⟨t, ht, .refl t⟩
  users u hu := Or.inl ⟨u, hu, rfl, Or.inr (.refl u)⟩
  userSequence := le_rfl
  authSession := rfl
  oauthAuthorizationCode := rfl
  oauthToken := rfl

theorem KeptBut.trans (h : KeptBut except db mid) (h' : KeptBut except mid db') :
    KeptBut except db db' where
  sessions s hs := by
    obtain ⟨s₁, hs₁, hk₁⟩ := h'.sessions s hs
    obtain ⟨s₀, hs₀, hk₀⟩ := h.sessions s₁ hs₁
    exact ⟨s₀, hs₀, hk₀.trans hk₁⟩
  codes r hr := by
    obtain ⟨r₁, hr₁, hk₁⟩ := h'.codes r hr
    obtain ⟨r₀, hr₀, hk₀⟩ := h.codes r₁ hr₁
    exact ⟨r₀, hr₀, hk₁.id.trans hk₀.id, hk₁.userId.trans hk₀.userId,
      hk₁.mfaVerified.trans hk₀.mfaVerified⟩
  tokens t ht := by
    obtain ⟨t₁, ht₁, hk₁⟩ := h'.tokens t ht
    obtain ⟨t₀, ht₀, hk₀⟩ := h.tokens t₁ ht₁
    exact ⟨t₀, ht₀, hk₁.id.trans hk₀.id, hk₁.userId.trans hk₀.userId,
      hk₁.mfaVerified.trans hk₀.mfaVerified, hk₁.createdAt.trans hk₀.createdAt,
      hk₁.accessExpiresAt.trans hk₀.accessExpiresAt, hk₁.revoked ∘ hk₀.revoked⟩
  users u hu := by
    rcases h'.users u hu with ⟨u₁, hu₁, hid, hk₁⟩ | ⟨hle, hlt⟩
    · rcases h.users u₁ hu₁ with ⟨u₀, hu₀, hid₀, hk₀⟩ | ⟨hle, hlt⟩
      · refine Or.inl ⟨u₀, hu₀, hid₀.trans hid, ?_⟩
        rcases hk₀ with hk₀ | hk₀
        · exact Or.inl hk₀
        · rcases hk₁ with hk₁ | hk₁
          · exact Or.inl (hid₀ ▸ hk₁)
          · exact Or.inr (hk₀.trans hk₁)
      · exact Or.inr (hid ▸ ⟨hle, lt_of_lt_of_le hlt h'.userSequence⟩)
    · exact Or.inr ⟨le_trans h.userSequence hle, hlt⟩
  userSequence := le_trans h.userSequence h'.userSequence
  authSession := h'.authSession.trans h.authSession
  oauthAuthorizationCode := h'.oauthAuthorizationCode.trans h.oauthAuthorizationCode
  oauthToken := h'.oauthToken.trans h.oauthToken

theorem Kept.but (h : Kept db db') (except : Option ℕ) : KeptBut except db db' where
  sessions := h.sessions
  codes := h.codes
  tokens := h.tokens
  users u hu := by
    rcases h.users u hu with ⟨u₀, hu₀, hid, hk | hk⟩ | hnew
    · exact absurd hk (by simp)
    · exact Or.inl ⟨u₀, hu₀, hid, Or.inr hk⟩
    · exact Or.inr hnew
  userSequence := h.userSequence
  authSession := h.authSession
  oauthAuthorizationCode := h.oauthAuthorizationCode
  oauthToken := h.oauthToken

/-- Other tables do not matter. -/
theorem kept_of_eq (hsessions : db'.authSessions = db.authSessions)
    (hcodes : db'.oauthAuthorizationCodes = db.oauthAuthorizationCodes)
    (htokens : db'.oauthTokens = db.oauthTokens) (husers : db'.users = db.users)
    (huser : db'.sequences.user = db.sequences.user)
    (hsession : db'.sequences.authSession = db.sequences.authSession)
    (hcode : db'.sequences.oauthAuthorizationCode = db.sequences.oauthAuthorizationCode)
    (htoken : db'.sequences.oauthToken = db.sequences.oauthToken) : Kept db db' where
  sessions s hs := ⟨s, hsessions ▸ hs, .refl s⟩
  codes r hr := ⟨r, hcodes ▸ hr, .refl r⟩
  tokens t ht := ⟨t, htokens ▸ ht, .refl t⟩
  users u hu := Or.inl ⟨u, husers ▸ hu, rfl, Or.inr (.refl u)⟩
  userSequence := huser.ge
  authSession := hsession
  oauthAuthorizationCode := hcode
  oauthToken := htoken

/-! ## The primitive writes -/

/-- Saving a row replaces the row with its id. -/
theorem mem_insert_of {α κ : Type*} [Row α κ] [LinearOrder κ] {t : Table α} {a x : α}
    (h : x ∈ t.insert a) : x = a ∨ x ∈ t :=
  (Table.mem_insert.mp h).imp_right And.left

theorem kept_saveSession {s s' : AuthSession} (hs : s ∈ db.authSessions) (hk : SessionKept s s') :
    Kept db (db.saveSession s') :=
  { KeptBut.refl db with
    sessions := fun x hx => by
      rcases mem_insert_of hx with rfl | hx
      · exact ⟨s, hs, hk⟩
      · exact ⟨x, hx, .refl x⟩ }

theorem keptBut_saveUser {u u' : User} (hu : u ∈ db.users) (hid : u'.id = u.id)
    (h : except = some u.id ∨ UserKept u u') : KeptBut except db (db.saveUser u') :=
  { (KeptBut.refl db : KeptBut except db db) with
    users := fun x hx => by
      rcases mem_insert_of hx with rfl | hx
      · exact Or.inl ⟨u, hu, hid.symm, h⟩
      · exact Or.inl ⟨x, hx, rfl, Or.inr (.refl x)⟩ }

theorem kept_addUser {u : User} (hid : u.id = db.sequences.user) : Kept db (db.addUser u) :=
  { (KeptBut.refl db : Kept db db) with
    users := fun x hx => by
      rcases mem_insert_of hx with rfl | hx
      · exact Or.inr ⟨hid.ge, by rw [hid]; exact Nat.lt_succ_self _⟩
      · exact Or.inl ⟨x, hx, rfl, Or.inr (.refl x)⟩
    userSequence := Nat.le_succ _ }

theorem kept_saveCode {r r' : OAuthAuthorizationCode} (hr : r ∈ db.oauthAuthorizationCodes)
    (hk : CodeKept r r') : Kept db (db.saveCode r') :=
  { KeptBut.refl db with
    codes := fun x hx => by
      rcases mem_insert_of hx with rfl | hx
      · exact ⟨r, hr, hk⟩
      · exact ⟨x, hx, .refl x⟩ }

theorem kept_saveToken {t t' : OAuthToken} (ht : t ∈ db.oauthTokens) (hk : TokenKept t t') :
    Kept db (db.saveToken t') :=
  { KeptBut.refl db with
    tokens := fun x hx => by
      rcases mem_insert_of hx with rfl | hx
      · exact ⟨t, ht, hk⟩
      · exact ⟨x, hx, .refl x⟩ }

theorem revokeSessionRow_kept {userId : ℕ} {kept : Option ℕ} (s : AuthSession) :
    SessionKept s (revokeSessionRow c userId kept s) := by
  unfold revokeSessionRow
  split
  · exact ⟨rfl, rfl, rfl, fun _ => by simp⟩
  · exact .refl s

theorem kept_revokeUserSessions {userId : ℕ} {kept : Option ℕ} :
    Kept db (revokeUserSessions c db userId kept) :=
  { KeptBut.refl db with
    sessions := fun x hx => by
      obtain ⟨s, hs, rfl⟩ := mem_revokeUserSessions.mp hx
      exact ⟨s, hs, revokeSessionRow_kept s⟩ }

/-- Without an exception every session of the user is revoked. -/
theorem revoked_revokeUserSessions {userId : ℕ} {s : AuthSession}
    (hs : s ∈ (revokeUserSessions c db userId none).authSessions) (hu : s.userId = userId) :
    s.revokedAt ≠ none := by
  obtain ⟨s₀, _, rfl⟩ := mem_revokeUserSessions.mp hs
  have huser : s₀.userId = userId := (revokeSessionRow_kept s₀).userId.symm.trans hu
  unfold revokeSessionRow
  split
  · simp
  · next h => exact fun hnone => h ⟨huser, hnone, by simp⟩

/-- A session that is revoked already stays as it is. -/
theorem revokeSession_ok {user : User} {s : AuthSession}
    (h : revokeSession c db user s = .ok db') :
    db' = db ∨ db' = db.saveSession { s with revokedAt := some c.now } := by
  unfold revokeSession at h
  split at h
  · simp only [bind_eq_ok, pure_eq_ok] at h
    obtain ⟨_, _, rfl⟩ := h
    exact Or.inr rfl
  · cases h
    exact Or.inl rfl

theorem kept_revokeSession {user : User} {s : AuthSession} (hs : s ∈ db.authSessions)
    (h : revokeSession c db user s = .ok db') : Kept db db' := by
  rcases revokeSession_ok h with rfl | rfl
  · exact KeptBut.refl db'
  · exact kept_saveSession hs ⟨rfl, rfl, rfl, fun _ => by simp⟩

/-! ## Parts of the services -/

theorem createSession_ok {userId : ℕ} {ip ua : Option String} {v : Bool} {created : CreatedSession}
    (h : createSession c db userId ip ua v = .ok (db', created)) :
    created.record = newSession c db userId ip ua v ∧ db' = db.addSession created.record := by
  simp only [createSession, bind_eq_ok, ensure_eq_ok, pure_eq_ok] at h
  obtain ⟨_, _, h⟩ := h
  cases h
  exact ⟨rfl, rfl⟩

/-- A request comes with a live session `s` of `user`, which is now `current`. -/
structure SignedIn (db db₁ : AuthDb) (s current : AuthSession) (user : User) : Prop where
  mem : s ∈ db.authSessions
  kept : SessionKept s current
  live : s.revokedAt = none
  user_mem : user ∈ db.users
  owner : user.id = s.userId
  touched : db₁ = db.saveSession current

theorem authenticateSession_ok {token : String} {ip : Option String} {user : User}
    {current : AuthSession} (h : authenticateSession c db token ip = .ok (db', user, current)) :
    ∃ s, SignedIn db db' s current user := by
  simp only [authenticateSession, bind_eq_ok, ensure_eq_ok, pure_eq_ok, orRaise_eq_ok] at h
  obtain ⟨s, hs, _, hrevoked, _, _, _, _, u, hu, _, _, h⟩ := h
  cases h
  obtain ⟨hu, hid⟩ := Table.find?_eq_some.mp hu
  exact ⟨s,
    { mem := List.mem_of_find?_eq_some hs
      kept := ⟨rfl, rfl, rfl, fun h => h⟩
      live := by simpa using hrevoked
      user_mem := hu
      owner := hid
      touched := rfl }⟩

theorem verifyUserFactor_ok {user user' : User} {mfaCode recoveryCode : Option String}
    (h : verifyUserFactor c user mfaCode recoveryCode = .ok (some user')) :
    UserKept user user' ∧ user'.mfaEnabled = user.mfaEnabled := by
  unfold verifyUserFactor at h
  split at h
  · split at h
    · simp at h
    · rw [exceptMap_eq_ok] at h
      obtain ⟨valid, _, h⟩ := h
      split at h
      · cases h
        exact ⟨.refl _, rfl⟩
      · cases h
  · split at h
    · simp at h
    · simp only [Except.ok.injEq, Option.map_eq_some_iff] at h
      obtain ⟨_, _, rfl⟩ := h
      exact ⟨⟨rfl, rfl, rfl, rfl⟩, rfl⟩
theorem checkedUser_ok {user user' : User} {mfaCode recoveryCode : Option String}
    (h : checkedUser c user mfaCode recoveryCode = .ok (some user')) :
    (UserKept user user' ∧ user'.mfaEnabled = user.mfaEnabled) ∧
      (user.mfaEnabled = true → verifyUserFactor c user mfaCode recoveryCode = .ok (some user')) := by
  unfold checkedUser at h
  split at h
  · exact ⟨verifyUserFactor_ok h, fun _ => h⟩
  · next hmfa =>
    cases h
    exact ⟨⟨.refl _, rfl⟩, fun h => absurd h hmfa⟩

/-! ## Requests that touch credentials -/

namespace Request

/-- The code or refresh token that a token request presents, with its user. -/
def grant? (c : Ctx) (db : AuthDb) : Request → Option (Credential × ℕ)
  | .exchangeAuthorizationCode _ code _ _ _ =>
    (db.oauthAuthorizationCodes.rows.find? (·.codeHash = hashSessionToken c code)).map fun r =>
      (.code r.id, r.userId)
  | .exchangeRefreshToken _ refreshToken _ _ =>
    (db.oauthTokens.rows.find? (·.refreshTokenHash = hashSessionToken c refreshToken)).map fun r =>
      (.token r.id, r.userId)
  | _ => none

/-- The user whose password a user changes or resets with the request. -/
def passwordOf? (c : Ctx) (db : AuthDb) : Request → Option ℕ
  | .session token clientIp (.changePassword _ _) =>
    (authenticateSession c db token clientIp).toOption.map fun found => found.2.1.id
  | .confirmPasswordReset token _ _ _ =>
    (db.passwordResetTokens.rows.find? (·.tokenHash = hashSessionToken c token)).map (·.userId)
  | _ => none

/-- The user whom an administrator makes active with the request. -/
def activates? : Request → Option ℕ
  | .admin _ (.updateUser userId data) => if data.status = some .active then some userId else none
  | _ => none

/-- A change of password by a user with MFA comes from a session that has shown the second factor
itself. -/
def carriesFactor (c : Ctx) (db : AuthDb) : Request → Bool
  | .session token clientIp (.changePassword _ _) =>
    (authenticateSession c db token clientIp).toOption.all fun (_, user, current) =>
      !user.mfaEnabled || current.mfaVerifiedAt.isSome
  | _ => true

end Request

/-! ## Effects -/

/-- What closes the account of a user to its older tokens. -/
def Closed (c : Ctx) (db : AuthDb) (r : Request) (u : User) : Prop :=
  u.status ≠ .active ∨ u.passwordChangeRequired = true ∨
    (u.passwordChangedAt = some c.now ∧ r.passwordOf? c db = some u.id)

/-- The request ends the credentials of the user. -/
structure Ends (c : Ctx) (db : AuthDb) (r : Request) (db' : AuthDb) (userId : ℕ) : Prop where
  kept : KeptBut (some userId) db db'
  revoked : ∀ s ∈ db'.authSessions, s.userId = userId → s.revokedAt ≠ none
  closed : ∀ u ∈ db'.users, u.id = userId → Closed c db r u

/-- The code or token that a grant names, as far as it is handed on. -/
def Holds (db : AuthDb) (k : Credential) (userId : ℕ) (mfaVerified : Bool) : Prop :=
  (∃ r ∈ db.oauthAuthorizationCodes,
    k = .code r.id ∧ r.userId = userId ∧ r.mfaVerified = mfaVerified) ∨
  ∃ t ∈ db.oauthTokens, k = .token t.id ∧ t.userId = userId ∧ t.mfaVerified = mfaVerified

inductive Effect (c : Ctx) (db : AuthDb) (r : Request) : AuthDb → Option Event → Prop
  | kept {db' : AuthDb} (hkept : Kept db db') : Effect c db r db' none
  | activated {u u' : User} (hr : r.activates? = some u.id) (hu : u ∈ db.users) (hid : u'.id = u.id)
      (hrequired : u'.passwordChangeRequired = u.passwordChangeRequired)
      (hchanged : u'.passwordChangedAt = u.passwordChangedAt) :
      Effect c db r (db.saveUser u') none
  | ended {db' : AuthDb} {e : Event} {userId : ℕ} (h : Ends c db r db' userId)
      (hissue : e.issue = none) (hends : e.ends = some userId) : Effect c db r db' (some e)
  | confirmed {mid : AuthDb} {s s' : AuthSession} {e : Event} (hkept : Kept db mid)
      (hs : s ∈ mid.authSessions) (hid : s'.id = s.id) (huser : s'.userId = s.userId)
      (hrevoked : s.revokedAt ≠ none → s'.revokedAt ≠ none)
      (hissue : e.issue = none) (hends : e.ends = none)
      (hshows : e.ShowsFactor s'.userId (.session s'.id)) :
      Effect c db r (mid.saveSession s') (some e)
  | opened {mid : AuthDb} {n : AuthSession} {e : Event} {source : Option Credential}
      (hkept : Kept db mid) (hid : n.id = mid.sequences.authSession) (huser : ∃ u ∈ mid.users, u.id = n.userId)
      (hissue : e.issue = some ⟨.session n.id, n.userId, source⟩) (hends : e.ends = none)
      (hsource : ∀ a, source = some a →
        ∃ s ∈ db.authSessions, a = .session s.id ∧ s.userId = n.userId ∧ s.revokedAt = none)
      (hverified : n.mfaVerifiedAt ≠ none → e.ShowsFactor n.userId (.session n.id)) :
      Effect c db r (mid.addSession n) (some e)
  | passwordChanged {mid : AuthDb} {s n : AuthSession} {e : Event} (h : Ends c db r mid n.userId)
      (hid : n.id = mid.sequences.authSession) (hs : s ∈ db.authSessions)
      (huser : s.userId = n.userId) (hlive : s.revokedAt = none)
      (hissue : e.issue = some ⟨.session n.id, n.userId, some (.session s.id)⟩)
      (hends : e.ends = some n.userId)
      (hverified : r.carriesFactor c db → n.mfaVerifiedAt ≠ none → s.mfaVerifiedAt ≠ none) :
      Effect c db r (mid.addSession n) (some e)
  | consented {mid : AuthDb} {s : AuthSession} {n : OAuthAuthorizationCode} {e : Event}
      (hkept : Kept db mid) (hid : n.id = mid.sequences.oauthAuthorizationCode) (hs : s ∈ db.authSessions)
      (huser : s.userId = n.userId) (hlive : s.revokedAt = none)
      (hissue : e.issue = some ⟨.code n.id, n.userId, some (.session s.id)⟩) (hends : e.ends = none)
      (hverified : n.mfaVerified = true → s.mfaVerifiedAt ≠ none) :
      Effect c db r (mid.addCode n) (some e)
  | exchanged {mid : AuthDb} {k : Credential} {n : OAuthToken} {e : Event} (hkept : Kept db mid)
      (hr : r.grant? c db = some (k, n.userId)) (hid : n.id = mid.sequences.oauthToken)
      (hsource : Holds db k n.userId n.mfaVerified) (hcreated : n.createdAt = c.now)
      (hissue : e.issue = some ⟨.token n.id, n.userId, some k⟩) (hends : e.ends = none) :
      Effect c db r (mid.addToken n) (some e)

/-! ## The effect of each service -/

theorem SignedIn.kept_touched {s current : AuthSession} {user : User}
    (h : SignedIn db mid s current user) : Kept db mid :=
  h.touched ▸ kept_saveSession h.mem h.kept

theorem SignedIn.mem_users {s current : AuthSession} {user : User}
    (h : SignedIn db mid s current user) : user ∈ mid.users := by
  rw [h.touched]
  exact h.user_mem

theorem SignedIn.mem_sessions {s current : AuthSession} {user : User}
    (h : SignedIn db mid s current user) : current ∈ mid.authSessions := by
  rw [h.touched]
  exact Table.mem_insert_self

/-- After a save the row with that id is the saved one. -/
theorem eq_of_mem_saveUser {u x : User} (hx : x ∈ (db.saveUser u).users) (hid : x.id = u.id) :
    x = u := by
  rcases Table.mem_insert.mp hx with rfl | ⟨_, hne⟩
  · rfl
  · exact absurd hid hne

theorem changePassword_ok {user : User} {current : AuthSession} {currentPassword newPassword : String}
    {created : CreatedSession} (hu : user ∈ db.users)
    (h : changePassword c db user current currentPassword newPassword = .ok (db', created)) :
    ∃ mid, KeptBut (some user.id) db mid ∧
      (∀ s ∈ mid.authSessions, s.userId = user.id → s.revokedAt ≠ none) ∧
      (∀ u ∈ mid.users, u.id = user.id → u.passwordChangedAt = some c.now) ∧
      created.record = newSession c mid user.id current.lastIp current.userAgent user.mfaEnabled ∧
      db' = mid.addSession created.record := by
  simp only [changePassword, bind_eq_ok, ensure_eq_ok] at h
  obtain ⟨_, _, _, _, _, _, h⟩ := h
  obtain ⟨hrecord, hdb⟩ := createSession_ok h
  refine ⟨_, ?_, fun s hs hid => revoked_revokeUserSessions hs hid, ?_, hrecord, hdb⟩
  · refine KeptBut.trans ?_ (kept_revokeUserSessions.but _)
    exact keptBut_saveUser hu rfl (Or.inl rfl)
  · intro u hu hid
    rw [eq_of_mem_saveUser hu hid]
    rfl

theorem disableMfa_ok {user : User} {current : AuthSession} {currentPassword : String}
    {mfaCode recoveryCode : Option String} {created : CreatedSession} (hu : user ∈ db.users)
    (h : disableMfa c db user current currentPassword mfaCode recoveryCode = .ok (db', created)) :
    ∃ mid, Kept db mid ∧ (∃ u ∈ mid.users, u.id = user.id) ∧
      created.record = newSession c mid user.id current.lastIp current.userAgent false ∧
      db' = mid.addSession created.record := by
  simp only [disableMfa, bind_eq_ok, ensure_eq_ok] at h
  obtain ⟨_, _, _, _, _, _, _, _, _, _, h⟩ := h
  obtain ⟨hrecord, hdb⟩ := createSession_ok h
  refine ⟨_, ?_, ⟨_, Table.mem_insert_self (t := db.users), ?_⟩, hrecord, hdb⟩
  · refine KeptBut.trans ?_ kept_revokeUserSessions
    exact keptBut_saveUser hu rfl (Or.inr ⟨rfl, rfl, rfl, rfl⟩)
  · rfl

theorem reauthenticate_ok {user : User} {current : AuthSession} {password : String}
    {mfaCode recoveryCode : Option String} {created : CreatedSession} (hu : user ∈ db.users)
    (hs : current ∈ db.authSessions)
    (h : reauthenticate c db user current password mfaCode recoveryCode = .ok (db', created)) :
    ∃ mid, Kept db mid ∧ (∃ u ∈ mid.users, u.id = user.id) ∧
      created.record = newSession c mid user.id current.lastIp current.userAgent user.mfaEnabled ∧
      (user.mfaEnabled = true →
        ∃ user', verifyUserFactor c user mfaCode recoveryCode = .ok (some user')) ∧
      db' = mid.addSession created.record := by
  simp only [reauthenticate, bind_eq_ok, ensure_eq_ok, orRaise_eq_ok] at h
  obtain ⟨_, _, _, hchecked, user', rfl, h⟩ := h
  obtain ⟨hsame, hfactor⟩ := checkedUser_ok hchecked
  obtain ⟨hrecord, hdb⟩ := createSession_ok h
  rw [hsame.1.id, hsame.2] at hrecord
  refine ⟨_, ?_, ⟨user', Table.mem_insert_self, hsame.1.id⟩, hrecord,
    fun hmfa => ⟨user', hfactor hmfa⟩, hdb⟩
  refine (keptBut_saveUser hu hsame.1.id (Or.inr hsame.1)).trans ?_
  exact kept_saveSession hs ⟨rfl, rfl, rfl, fun _ => by simp⟩

theorem beginMfaSetup_ok {user : User} {current : AuthSession} {currentPassword secret : String}
    (hs : current ∈ db.authSessions)
    (h : beginMfaSetup c db user current currentPassword = .ok (db', secret)) : Kept db db' := by
  simp only [beginMfaSetup, bind_eq_ok, ensure_eq_ok, pure_eq_ok] at h
  obtain ⟨_, _, _, _, _, _, h⟩ := h
  cases h
  exact kept_saveSession hs ⟨rfl, rfl, rfl, fun h => h⟩

theorem confirmMfaSetup_ok {user : User} {current : AuthSession} {code : String}
    {codes : List String} (hu : user ∈ db.users) (hs : current ∈ db.authSessions)
    (h : confirmMfaSetup c db user current code = .ok (db', codes)) :
    ∃ mid secret s', Kept db mid ∧ current ∈ mid.authSessions ∧ s'.id = current.id ∧
      s'.userId = current.userId ∧ s'.revokedAt = current.revokedAt ∧
      decryptMfaSecret c (current.pendingMfaSecretCiphertext.getD "") = .ok secret ∧
      verifyTotp c secret code = .ok true ∧ db' = mid.saveSession s' := by
  simp only [confirmMfaSetup, bind_eq_ok, ensure_eq_ok, pure_eq_ok, orRaise_eq_ok] at h
  obtain ⟨encrypted, hpending, secret, hsecret, valid, hvalid, _, rfl, _, _, h⟩ := h
  cases h
  have hgiven : current.pendingMfaSecretCiphertext.getD "" = encrypted := by
    rw [(Option.filter_eq_some_iff.mp hpending).1]
    rfl
  refine ⟨db.saveUser (enrolledUser c user encrypted), secret, _,
    keptBut_saveUser hu rfl (Or.inr ⟨rfl, rfl, rfl, rfl⟩), hs, ?_, ?_, ?_,
    hgiven ▸ hsecret, hvalid, rfl⟩
  all_goals rfl

theorem resolveOAuthClient_ok {clientId : String} {document : Except AuthError ClientMetadata}
    {client : OAuthClient} (h : resolveOAuthClient c db clientId document = .ok (db', client)) :
    Kept db db' := by
  unfold resolveOAuthClient at h
  split at h
  · simp only [bind_eq_ok, ensure_eq_ok, pure_eq_ok] at h
    obtain ⟨_, _, _, _, h⟩ := h
    cases h
    exact kept_of_eq rfl rfl rfl rfl rfl rfl rfl rfl
  · simp only [bind_eq_ok, pure_eq_ok] at h
    obtain ⟨_, _, h⟩ := h
    cases h
    exact KeptBut.refl db

theorem authorizationRedirect_kept {user : User} {current : AuthSession}
    {request : AuthorizationRequest} {document : Except AuthError ClientMetadata} {approve : Bool} :
    Kept db (authorizationRedirect c db user current request document approve).1 := by
  unfold authorizationRedirect
  split
  · exact KeptBut.refl db
  · next h => exact resolveOAuthClient_ok h

/-- An approved consent adds a code with the factor of the session, other consents add nothing. -/
theorem authorizationRedirect_ok {user : User} {current : AuthSession}
    {request : AuthorizationRequest} {document : Except AuthError ClientMetadata} {approve : Bool}
    {record : Option OAuthAuthorizationCode}
    (h : (authorizationRedirect c db user current request document approve).2 =
      .ok (db', record)) :
    ∃ mid, Kept db mid ∧ (record = none ∧ db' = mid ∨
      ∃ scopes resource, record = some (newCode c mid user current request scopes resource) ∧
        db' = mid.addCode (newCode c mid user current request scopes resource)) := by
  unfold authorizationRedirect at h
  split at h
  · cases h
  · next mid client hclient =>
    refine ⟨mid, resolveOAuthClient_ok hclient, ?_⟩
    simp only [bind_eq_ok] at h
    obtain ⟨⟨scopes, resource⟩, _, h⟩ := h
    cases approve with
    | false =>
      cases h
      exact Or.inl ⟨rfl, rfl⟩
    | true =>
      simp only [if_true, issueCode, bind_eq_ok, ensure_eq_ok, pure_eq_ok] at h
      obtain ⟨_, ⟨_, _, rfl⟩, h⟩ := h
      cases h
      exact Or.inr ⟨scopes, resource, rfl, rfl⟩

/-- Of the columns that matter here a user update changes only the status. -/
theorem updatedUser_ok {user user' : User} {data : UserUpdate} {actorUserId : Option ℕ}
    (h : updatedUser db user data actorUserId = .ok user') :
    UserKept { user with status := data.status.getD user.status } user' := by
  simp only [updatedUser, bind_eq_ok] at h
  obtain ⟨u₁, hname, u₂, hstatus, u₃, hroles, hemployee⟩ := h
  have h₁ : UserKept user u₁ := by
    unfold changedName at hname
    split at hname
    · cases hname
      exact .refl _
    · simp only [bind_eq_ok, ensure_eq_ok, pure_eq_ok] at hname
      obtain ⟨_, _, rfl⟩ := hname
      exact ⟨rfl, rfl, rfl, rfl⟩
  have h₂ : UserKept { u₁ with status := data.status.getD u₁.status } u₂ := by
    unfold changedStatus at hstatus
    split at hstatus
    · next hnone =>
      cases hstatus
      exact ⟨rfl, by rw [hnone]; rfl, rfl, rfl⟩
    · next status hsome =>
      simp only [bind_eq_ok, ensure_eq_ok, pure_eq_ok] at hstatus
      obtain ⟨_, _, rfl⟩ := hstatus
      exact ⟨rfl, by rw [hsome]; rfl, rfl, rfl⟩
  have h₃ : UserKept u₂ u₃ := by
    unfold changedRoles at hroles
    split at hroles
    · cases hroles
      exact .refl _
    · simp only [bind_eq_ok, ensure_eq_ok, pure_eq_ok] at hroles
      obtain ⟨_, _, _, _, _, _, rfl⟩ := hroles
      exact ⟨rfl, rfl, rfl, rfl⟩
  have h₄ : UserKept u₃ user' := by
    unfold changedEmployee at hemployee
    split at hemployee
    · cases hemployee
      exact .refl _
    · simp only [bind_eq_ok, pure_eq_ok] at hemployee
      obtain ⟨_, _, rfl⟩ := hemployee
      exact ⟨rfl, rfl, rfl, rfl⟩
  have h₁' : UserKept { user with status := data.status.getD user.status }
      { u₁ with status := data.status.getD u₁.status } :=
    ⟨h₁.id, by rw [h₁.status], h₁.passwordChangeRequired, h₁.passwordChangedAt⟩
  exact ((h₁'.trans h₂).trans h₃).trans h₄

/-! ## Every request has an effect -/

theorem newSession_verified {userId : ℕ} {clientIp userAgent : Option String} {mfaVerified : Bool}
    (h : (newSession c db userId clientIp userAgent mfaVerified).mfaVerifiedAt ≠ none) :
    mfaVerified = true := by
  cases mfaVerified with
  | false => exact absurd rfl h
  | true => rfl

theorem authorizeRoute_effect {token : String} {clientIp : Option String}
    {request : AuthorizationRequest} {document : Except AuthError ClientMetadata} {approve : Bool}
    {s current : AuthSession} {user : User} {e : Option Event}
    (hin : SignedIn db mid s current user)
    (h : authorizeRoute c mid user current request document approve = .ok (db', e)) :
    Effect c db (.session token clientIp (.authorize request document approve)) db' e := by
  have hid : current.id = s.id := hin.kept.id
  unfold authorizeRoute at h
  split at h
  · next db₂ record hredirect =>
    cases h
    obtain ⟨mid', hkept, ⟨rfl, rfl⟩ | ⟨scopes, resource, rfl, rfl⟩⟩ :=
      authorizationRedirect_ok (congrArg Prod.snd hredirect)
    · exact .kept (hin.kept_touched.trans hkept)
    · refine .consented (s := s) (hin.kept_touched.trans hkept) rfl hin.mem hin.owner.symm
        hin.live ?_ rfl ?_
      · simp only [Event.issue, hid]
        rfl
      · intro hverified
        rw [← hin.kept.mfaVerifiedAt]
        exact Option.isSome_iff_ne_none.mp hverified
  · next hredirect =>
    cases h
    have hfst := congrArg Prod.fst hredirect
    dsimp only at hfst
    exact .kept (hin.kept_touched.trans (hfst ▸ authorizationRedirect_kept))
  · cases h

section

variable {token : String} {clientIp : Option String} {s current : AuthSession} {user : User}
  {e : Option Event}

/-- The new session inherits the shown factor of the old one, and every other session of the user ends. -/
theorem changePassword_effect {currentPassword newPassword : String} (hin : SignedIn db mid s current user)
    (hauth : authenticateSession c db token clientIp = .ok (mid, user, current))
    (h : runSessionAction c mid user current (.changePassword currentPassword newPassword) = .ok (db', e)) :
    Effect c db (.session token clientIp (.changePassword currentPassword newPassword)) db' e := by
  have hid : current.id = s.id := hin.kept.id
  simp only [runSessionAction, bind_eq_ok, pure_eq_ok] at h
  obtain ⟨⟨_, created⟩, h, hout⟩ := h
  cases hout
  obtain ⟨mid', hkept, hrevoked, hchanged, hrecord, rfl⟩ := changePassword_ok hin.mem_users h
  have huser : created.record.userId = user.id := by
    rw [hrecord]
    rfl
  have hpassword : (Request.session token clientIp
      (.changePassword currentPassword newPassword)).passwordOf? c db = some user.id := by
    simp only [Request.passwordOf?, hauth]
    rfl
  refine .passwordChanged (s := s) ⟨?_, ?_, ?_⟩ ?_ hin.mem ?_ hin.live ?_ ?_ ?_
  · rw [huser]
    exact (hin.kept_touched.but _).trans hkept
  · rw [huser]
    exact hrevoked
  · rw [huser]
    exact fun u hu hid => Or.inr (Or.inr ⟨hchanged u hu hid, hid ▸ hpassword⟩)
  · rw [hrecord]
    rfl
  · rw [huser, hin.owner]
  · simp only [Event.issue, huser, hid]
  · simp only [Event.ends, huser]
  · intro hcarries hverified
    rw [hrecord] at hverified
    have hmfa : user.mfaEnabled = true := newSession_verified hverified
    rw [Request.carriesFactor, hauth] at hcarries
    simp only [Except.toOption, Option.all_some, hmfa, Bool.not_true, Bool.false_or] at hcarries
    rw [← hin.kept.mfaVerifiedAt]
    exact Option.isSome_iff_ne_none.mp hcarries

theorem disableMfa_effect {currentPassword : String} {mfaCode recoveryCode : Option String} (hin : SignedIn db mid s current user)
    (h : runSessionAction c mid user current (.disableMfa currentPassword mfaCode recoveryCode) = .ok (db', e)) :
    Effect c db (.session token clientIp (.disableMfa currentPassword mfaCode recoveryCode)) db' e := by
  have hid : current.id = s.id := hin.kept.id
  simp only [runSessionAction, bind_eq_ok, pure_eq_ok] at h
  obtain ⟨⟨_, created⟩, h, hout⟩ := h
  cases hout
  obtain ⟨mid', hkept, huser, hrecord, rfl⟩ := disableMfa_ok hin.mem_users h
  have howner : created.record.userId = user.id := by
    rw [hrecord]
    rfl
  have hissue : (Event.mfaDisabled created.record.id current.id user.id).issue =
      some ⟨.session created.record.id, created.record.userId, some (.session s.id)⟩ := by
    simp only [Event.issue, howner, hid]
  refine .opened (hin.kept_touched.trans hkept) ?_ ?_ hissue rfl ?_ ?_
  · rw [hrecord]
    rfl
  · rwa [howner]
  · rintro a ⟨⟩
    exact ⟨s, hin.mem, rfl, by rw [howner, hin.owner], hin.live⟩
  · intro hverified
    rw [hrecord] at hverified
    exact absurd rfl hverified

/-- The new session has shown a factor when the request did. -/
theorem reauthenticate_effect {password : String} {mfaCode recoveryCode : Option String} (hin : SignedIn db mid s current user)
    (h : runSessionAction c mid user current (.reauthenticate password mfaCode recoveryCode) = .ok (db', e)) :
    Effect c db (.session token clientIp (.reauthenticate password mfaCode recoveryCode)) db' e := by
  have hid : current.id = s.id := hin.kept.id
  simp only [runSessionAction, bind_eq_ok, pure_eq_ok] at h
  obtain ⟨⟨_, created⟩, h, hout⟩ := h
  cases hout
  obtain ⟨mid', hkept, huser, hrecord, hfactor, rfl⟩ :=
    reauthenticate_ok hin.mem_users hin.mem_sessions h
  have howner : created.record.userId = user.id := by
    rw [hrecord]
    rfl
  have hissue : (Event.reauthenticated created.record.id current.id user mfaCode recoveryCode c).issue =
      some ⟨.session created.record.id, created.record.userId, some (.session s.id)⟩ := by
    simp only [Event.issue, howner, hid]
  refine .opened (hin.kept_touched.trans hkept) ?_ ?_ hissue rfl ?_ ?_
  · rw [hrecord]
    rfl
  · rwa [howner]
  · rintro a ⟨⟩
    exact ⟨s, hin.mem, rfl, by rw [howner, hin.owner], hin.live⟩
  · intro hverified
    rw [hrecord] at hverified
    exact ⟨rfl, howner.symm, hfactor (newSession_verified hverified)⟩

theorem runSessionAction_effect {action : SessionAction}
    (hin : SignedIn db mid s current user)
    (hauth : authenticateSession c db token clientIp = .ok (mid, user, current))
    (h : runSessionAction c mid user current action = .ok (db', e)) :
    Effect c db (.session token clientIp action) db' e := by
  cases action with
  | me =>
    cases h
    exact .kept hin.kept_touched
  | logout =>
    simp only [runSessionAction, bind_eq_ok, pure_eq_ok] at h
    obtain ⟨_, h, hout⟩ := h
    cases hout
    exact .kept (hin.kept_touched.trans (kept_revokeSession hin.mem_sessions h))
  | changePassword currentPassword newPassword => exact changePassword_effect hin hauth h
  | beginMfaSetup currentPassword =>
    simp only [runSessionAction, bind_eq_ok, pure_eq_ok] at h
    obtain ⟨⟨_, _⟩, h, hout⟩ := h
    cases hout
    exact .kept (hin.kept_touched.trans (beginMfaSetup_ok hin.mem_sessions h))
  | confirmMfaSetup code =>
    simp only [runSessionAction, bind_eq_ok, pure_eq_ok] at h
    obtain ⟨⟨_, _⟩, h, secret, hsecret, hout⟩ := h
    cases hout
    obtain ⟨mid', secret', s', hkept, hs, hid', huser, hrevoked, hsecret', hvalid, rfl⟩ :=
      confirmMfaSetup_ok hin.mem_users hin.mem_sessions h
    rw [hsecret] at hsecret'
    cases hsecret'
    refine .confirmed (hin.kept_touched.trans hkept) hs hid' huser (by rw [hrevoked]; exact id)
      rfl rfl ⟨by rw [hid'], ?_, hvalid⟩
    rw [huser, hin.kept.userId, hin.owner]
  | disableMfa currentPassword mfaCode recoveryCode => exact disableMfa_effect hin h
  | reauthenticate password mfaCode recoveryCode => exact reauthenticate_effect hin h
  | revokeOtherSessions =>
    simp only [runSessionAction, bind_eq_ok, pure_eq_ok, ensure_eq_ok] at h
    obtain ⟨_, _, _, _, hout⟩ := h
    cases hout
    exact .kept (hin.kept_touched.trans kept_revokeUserSessions)
  | revokeAllSessions =>
    simp only [runSessionAction, bind_eq_ok, pure_eq_ok, ensure_eq_ok] at h
    obtain ⟨_, _, _, _, hout⟩ := h
    cases hout
    exact .kept (hin.kept_touched.trans kept_revokeUserSessions)
  | authorize request document approve =>
    exact authorizeRoute_effect hin h

end

theorem refuseWith_ok {α : Type} {x : Except AuthError α} {a : α} (h : refuseWith db x = .ok a) :
    x = .ok a := by
  cases x with
  | error e => cases h
  | ok b =>
    cases h
    rfl

theorem kept_recordLoginFailure {key : String} : Kept db (recordLoginFailure c db key) :=
  kept_of_eq rfl rfl rfl rfl rfl rfl rfl rfl

/-- A refused login leaves the database or adds to its throttle records. -/
theorem refuseWith_error {α : Type} {x : Except AuthError α} {refusal : LoginRefusal}
    (h : refuseWith db x = .error refusal) : refusal.db = db := by
  cases x with
  | error e =>
    cases h
    rfl
  | ok a => cases h

theorem authenticateHuman_error {email password : String}
    {mfaCode recoveryCode clientIp userAgent : Option String} {refusal : LoginRefusal}
    (h : authenticateHuman c db email password mfaCode recoveryCode clientIp userAgent =
      .error refusal) : Kept db refusal.db := by
  simp only [authenticateHuman, checkLoginPassword, checkLoginFactor, bind_eq_error] at h
  rcases h with (h | ⟨_, _, h⟩) | ⟨_, _, (h | ⟨_, _, h | ⟨_, _, h⟩⟩) | ⟨_, _, h⟩⟩
  all_goals rw [refuseWith_error h]
  all_goals first
    | exact KeptBut.refl db
    | exact kept_recordLoginFailure

theorem completeLogin_ok {found checked : User} {key password : String}
    {clientIp userAgent : Option String} {login : Login} (hu : found ∈ db.users)
    (hk : UserKept found checked)
    (h : completeLogin c db found checked key password clientIp userAgent = .ok (db', login)) :
    ∃ mid, Kept db mid ∧ (∃ u ∈ mid.users, u.id = found.id) ∧
      login.created.record = newSession c mid found.id clientIp userAgent checked.mfaEnabled ∧
      login.found = found ∧ db' = mid.addSession login.created.record := by
  simp only [completeLogin, bind_eq_ok, pure_eq_ok] at h
  obtain ⟨⟨_, created⟩, h, _, _, _, _, _, _, hout⟩ := h
  cases hout
  obtain ⟨hrecord, hdb⟩ := createSession_ok h
  refine ⟨_, ?_, ⟨_, Table.mem_insert_self (t := db.users), ?_⟩, ?_, rfl, hdb⟩
  · have hthrottles : Kept db
        { db with loginThrottles := db.loginThrottles.filter (·.keyHash ≠ key) } :=
      kept_of_eq rfl rfl rfl rfl rfl rfl rfl rfl
    have hu : found ∈
        { db with loginThrottles := db.loginThrottles.filter (·.keyHash ≠ key) }.users := hu
    refine hthrottles.trans (keptBut_saveUser hu ?_ (Or.inr ⟨?_, ?_, ?_, ?_⟩))
    · exact hk.id
    · exact hk.id
    · exact hk.status
    · exact hk.passwordChangeRequired
    · exact hk.passwordChangedAt
  · exact hk.id
  · exact hrecord.trans (congrArg (newSession c _ · clientIp userAgent _) hk.id)

theorem loginRoute_effect {email password : String}
    {mfaCode recoveryCode clientIp userAgent : Option String} {e : Option Event}
    (h : loginRoute c db email password mfaCode recoveryCode clientIp userAgent = .ok (db', e)) :
    Effect c db (.login email password mfaCode recoveryCode clientIp userAgent) db' e := by
  unfold loginRoute at h
  split at h
  · next db₂ login hlogin =>
    cases h
    simp only [authenticateHuman, checkLoginPassword, checkLoginFactor, bind_eq_ok] at hlogin
    obtain ⟨found, ⟨_, _, hfound⟩, checked, ⟨_, _, _, hfactor, hchecked⟩, hlogin⟩ := hlogin
    have hmem : found ∈ db.users := by
      have := orRaise_eq_ok.mp (refuseWith_ok hfound)
      exact List.mem_of_find?_eq_some (Option.filter_eq_some_iff.mp this).1
    rw [orRaise_eq_ok.mp (refuseWith_ok hchecked)] at hfactor
    obtain ⟨⟨hkept, hmfa⟩, hshown⟩ := checkedUser_ok (refuseWith_ok hfactor)
    obtain ⟨mid, hmid, huser, hrecord, hlogged, rfl⟩ :=
      completeLogin_ok hmem hkept (refuseWith_ok hlogin)
    have howner : login.created.record.userId = found.id := by
      rw [hrecord]
      rfl
    have hissue : (Event.loggedIn login.created.record.id login.found mfaCode recoveryCode c).issue =
        some ⟨.session login.created.record.id, login.created.record.userId, none⟩ := by
      simp only [Event.issue, hlogged, howner]
    refine .opened hmid ?_ ?_ hissue rfl ?_ ?_
    · rw [hrecord]
      rfl
    · rwa [howner]
    · rintro a ⟨⟩
    · intro hverified
      rw [hrecord, hmfa] at hverified
      rw [hlogged]
      exact ⟨rfl, howner.symm, checked, hshown (newSession_verified hverified)⟩
  · next hrefused =>
    cases h
    exact .kept (authenticateHuman_error hrefused)
  · cases h

theorem createRootUser_effect {name email password : String} {clientIp userAgent : Option String}
    {user : User} {created : CreatedSession}
    (h : createRootUser c db name email password clientIp userAgent = .ok (db', user, created)) :
    Effect c db (.setupRoot name email password clientIp userAgent) db'
      (some (.rootCreated created.record.id user.id)) := by
  simp only [createRootUser, bind_eq_ok, ensure_eq_ok, pure_eq_ok] at h
  obtain ⟨_, _, _, _, ⟨_, created⟩, h, hout⟩ := h
  cases hout
  obtain ⟨hrecord, rfl⟩ := createSession_ok h
  have hissue : (Event.rootCreated created.record.id db.sequences.user).issue =
      some ⟨.session created.record.id, created.record.userId, none⟩ := by
    rw [hrecord]
    rfl
  refine .opened (kept_addUser rfl) ?_ ⟨_, Table.mem_insert_self, ?_⟩ hissue rfl ?_ ?_
  · rw [hrecord]
    rfl
  · rw [hrecord]
    rfl
  · rintro a ⟨⟩
  · intro hverified
    rw [hrecord] at hverified
    exact absurd rfl hverified

/-- Ending an account: a new row for the user, and all its sessions revoked. -/
theorem ends_of_saved {r : Request} {u : User} (u' : User) {userId : ℕ} (hu : u ∈ db.users)
    (huid : u.id = userId) (hid : u'.id = userId) (hmid : Kept (db.saveUser u') mid)
    (husers : mid.users = (db.saveUser u').users) (hclosed : Closed c db r u') :
    Ends c db r (revokeUserSessions c mid userId none) userId where
  kept := by
    have hsaved : KeptBut (some userId) db (db.saveUser u') :=
      keptBut_saveUser hu (hid.trans huid.symm) (Or.inl (congrArg some huid.symm))
    exact (hsaved.trans (hmid.but _)).trans (kept_revokeUserSessions.but _)
  revoked _ hs hid := revoked_revokeUserSessions hs hid
  closed x hx hxid := by
    have hx : x ∈ (db.saveUser u').users := husers ▸ hx
    rw [eq_of_mem_saveUser hx (hxid.trans hid.symm)]
    exact hclosed

theorem updateUser_effect {user updated : User} {data : UserUpdate} {actorUserId : Option ℕ}
    (hu : user ∈ db.users) (h : updateUser c db user data actorUserId = .ok (db', updated)) :
    Effect c db (.admin actorUserId (.updateUser user.id data)) db'
      (if data.status = none ∨ data.status = some .active then none
        else some (.deactivated user.id)) := by
  simp only [updateUser, bind_eq_ok, ensure_eq_ok] at h
  obtain ⟨_, _, updated', hupdated, h⟩ := h
  have hk := updatedUser_ok hupdated
  by_cases hstatus : data.status = none ∨ data.status = some .active
  · rw [if_pos hstatus] at h ⊢
    cases h
    rcases hstatus with hnone | hactive
    · rw [hnone] at hk
      exact .kept (keptBut_saveUser hu hk.id (Or.inr hk))
    · refine .activated ?_ hu hk.id hk.passwordChangeRequired hk.passwordChangedAt
      simp only [Request.activates?, hactive, if_true]
  · rw [if_neg hstatus] at h ⊢
    cases h
    refine .ended (ends_of_saved updated hu rfl hk.id (KeptBut.refl _) rfl (Or.inl ?_)) rfl rfl
    rw [hk.status]
    cases hs : data.status with
    | none => exact absurd (Or.inl hs) hstatus
    | some status =>
      rintro rfl
      exact hstatus (Or.inr hs)

theorem userById_ok {userId : ℕ} {user : User} (h : userById db userId = .ok user) :
    user ∈ db.users ∧ user.id = userId := by
  exact Table.find?_eq_some.mp (orRaise_eq_ok.mp h)

theorem runAdminAction_effect {actorUserId : Option ℕ} {action : AdminAction} {e : Option Event}
    (h : runAdminAction c db actorUserId action = .ok (db', e)) :
    Effect c db (.admin actorUserId action) db' e := by
  cases action with
  | createUser name email password roleIds employeeId =>
    simp only [runAdminAction, createUser, bind_eq_ok, pure_eq_ok] at h
    obtain ⟨_, ⟨_, _, _, _, _, _, _, _, _, _, rfl⟩, hout⟩ := h
    cases hout
    exact .kept (kept_addUser rfl)
  | updateUser userId data =>
    simp only [runAdminAction, bind_eq_ok] at h
    obtain ⟨user, huser, ⟨_, updated⟩, h, hout⟩ := h
    obtain ⟨hu, rfl⟩ := userById_ok huser
    have heffect := updateUser_effect hu h
    by_cases hstatus : data.status = none ∨ data.status = some .active
    · rw [if_pos hstatus] at hout heffect
      cases hout
      exact heffect
    · rw [if_neg hstatus] at hout heffect
      cases hout
      exact heffect
  | resetUserPassword userId password =>
    simp only [runAdminAction, resetUserPassword, bind_eq_ok, pure_eq_ok] at h
    obtain ⟨user, huser, _, ⟨_, _, rfl⟩, hout⟩ := h
    cases hout
    obtain ⟨hu, rfl⟩ := userById_ok huser
    exact .ended (ends_of_saved
      { user with
        passwordHash := hashPassword c 1 password
        passwordChangeRequired := true
        passwordChangedAt := some c.now }
      hu rfl rfl (KeptBut.refl _) rfl (Or.inr (Or.inl rfl))) rfl rfl
  | disableUser userId =>
    simp only [runAdminAction, disableUser, bind_eq_ok, pure_eq_ok] at h
    obtain ⟨user, huser, _, ⟨_, _, _, _, rfl⟩, hout⟩ := h
    cases hout
    obtain ⟨hu, rfl⟩ := userById_ok huser
    refine .ended (ends_of_saved { user with status := .disabled } hu rfl rfl (KeptBut.refl _) rfl
      (Or.inl ?_)) rfl rfl
    simp

theorem confirmPasswordReset_effect {token newPassword : String}
    {mfaCode recoveryCode : Option String} {user : User}
    (h : confirmPasswordReset c db token newPassword mfaCode recoveryCode = .ok (db', user)) :
    Effect c db (.confirmPasswordReset token newPassword mfaCode recoveryCode) db'
      (some (.passwordReset user.id)) := by
  simp only [confirmPasswordReset, bind_eq_ok, pure_eq_ok, orRaise_eq_ok] at h
  obtain ⟨record, hrecord, found, hfound, _, _, _, hchecked, checked, rfl, _, _, _, _, hout⟩ := h
  cases hout
  obtain ⟨hu, hid⟩ := Table.find?_eq_some.mp hfound
  have hk := (checkedUser_ok hchecked).1.1
  have hpassword : (Request.confirmPasswordReset token newPassword mfaCode recoveryCode).passwordOf?
      c db = some checked.id := by
    simp only [Request.passwordOf?, (Option.filter_eq_some_iff.mp hrecord).1, Option.map_some]
    rw [hk.id, show found.id = record.userId from hid]
  exact .ended (ends_of_saved (withNewPassword c checked newPassword) hu hk.id.symm rfl
    (kept_of_eq rfl rfl rfl rfl rfl rfl rfl rfl) rfl (Or.inr (Or.inr ⟨rfl, hpassword⟩))) rfl rfl

theorem requestPasswordReset_kept {email : String} {clientIp token : Option String}
    (h : requestPasswordReset c db email clientIp = .ok (db', token)) : Kept db db' := by
  unfold requestPasswordReset at h
  split at h
  · cases h
    exact KeptBut.refl db
  · simp only [bind_eq_ok, pure_eq_ok] at h
    obtain ⟨_, _, _, _, hout⟩ := h
    cases hout
    exact kept_of_eq rfl rfl rfl rfl rfl rfl rfl rfl

theorem issueTokens_ok {g : Grant} {token : OAuthToken}
    (h : issueTokens c db g = .ok (db', token)) :
    token = newToken c db g ∧ db' = db.addToken token := by
  simp only [issueTokens, bind_eq_ok, pure_eq_ok] at h
  obtain ⟨_, _, hout⟩ := h
  cases hout
  exact ⟨rfl, rfl⟩

theorem exchangeAuthorizationCode_effect {clientId code redirectUri codeVerifier : String}
    {resource : Option String} {record : OAuthAuthorizationCode} {token : OAuthToken}
    (h : exchangeAuthorizationCode c db clientId code redirectUri codeVerifier resource =
      .ok (db', record, token)) :
    Effect c db (.exchangeAuthorizationCode clientId code redirectUri codeVerifier resource) db'
      (some (.exchanged token.id record.id record.userId)) := by
  simp only [exchangeAuthorizationCode, bind_eq_ok, pure_eq_ok, orRaise_eq_ok] at h
  obtain ⟨_, _, found, hfound, _, _, _, _, _, _, ⟨_, _⟩, hissue, hout⟩ := h
  cases hout
  obtain ⟨hfound, _⟩ := Option.filter_eq_some_iff.mp hfound
  have hmem : record ∈ db.oauthAuthorizationCodes := List.mem_of_find?_eq_some hfound
  obtain ⟨rfl, rfl⟩ := issueTokens_ok hissue
  refine .exchanged (kept_saveCode hmem ⟨rfl, rfl, rfl⟩) ?_ rfl
    (Or.inl ⟨record, hmem, rfl, rfl, rfl⟩) rfl rfl rfl
  simp only [Request.grant?, hfound, Option.map_some]
  rfl

theorem exchangeRefreshToken_effect {clientId refreshToken : String}
    {scope resource : Option String} {record token : OAuthToken}
    (h : exchangeRefreshToken c db clientId refreshToken scope resource =
      .ok (db', record, token)) :
    Effect c db (.exchangeRefreshToken clientId refreshToken scope resource) db'
      (some (.refreshed token.id record.id record.userId)) := by
  simp only [exchangeRefreshToken, bind_eq_ok, pure_eq_ok, orRaise_eq_ok] at h
  obtain ⟨found, hfound, _, _, _, _, _, _, ⟨_, _⟩, hissue, hout⟩ := h
  cases hout
  obtain ⟨hfound, _⟩ := Option.filter_eq_some_iff.mp hfound
  have hmem : record ∈ db.oauthTokens := List.mem_of_find?_eq_some hfound
  obtain ⟨rfl, rfl⟩ := issueTokens_ok hissue
  refine .exchanged (kept_saveToken hmem ⟨rfl, rfl, rfl, rfl, rfl, fun _ => by simp⟩) ?_ rfl
    (Or.inr ⟨record, hmem, rfl, rfl, rfl⟩) rfl rfl rfl
  simp only [Request.grant?, hfound, Option.map_some]
  rfl

theorem revokeOAuthToken_kept {token : String} : Kept db (revokeOAuthToken c db token) := by
  unfold revokeOAuthToken
  dsimp only
  split
  · exact KeptBut.refl db
  · next record hfound =>
    have hmem : record ∈ db.oauthTokens :=
      List.mem_of_find?_eq_some (Option.filter_eq_some_iff.mp hfound).1
    exact kept_saveToken hmem ⟨rfl, rfl, rfl, rfl, rfl, fun _ => by simp⟩

/-- What any request can do to credentials. -/
theorem runRequest_effect {r : Request} {e : Option Event} (h : runRequest c db r = .ok (db', e)) :
    Effect c db r db' e := by
  cases r with
  | setupRoot name email password clientIp userAgent =>
    simp only [runRequest, bind_eq_ok, pure_eq_ok] at h
    obtain ⟨⟨_, _, _⟩, h, hout⟩ := h
    cases hout
    exact createRootUser_effect h
  | login email password mfaCode recoveryCode clientIp userAgent => exact loginRoute_effect h
  | session token clientIp action =>
    simp only [runRequest, bind_eq_ok] at h
    obtain ⟨⟨_, _, _⟩, hauth, h⟩ := h
    obtain ⟨s, hin⟩ := authenticateSession_ok hauth
    exact runSessionAction_effect hin hauth h
  | admin actorUserId action => exact runAdminAction_effect h
  | requestPasswordReset email clientIp =>
    simp only [runRequest, bind_eq_ok, pure_eq_ok] at h
    obtain ⟨⟨_, _⟩, h, hout⟩ := h
    cases hout
    exact .kept (requestPasswordReset_kept h)
  | confirmPasswordReset token newPassword mfaCode recoveryCode =>
    simp only [runRequest, bind_eq_ok, pure_eq_ok] at h
    obtain ⟨⟨_, _⟩, h, hout⟩ := h
    cases hout
    exact confirmPasswordReset_effect h
  | registerClient clientName redirectUris =>
    simp only [runRequest, registerClient, bind_eq_ok, pure_eq_ok] at h
    obtain ⟨⟨_, _⟩, ⟨_, _, _, _, _, _, h⟩, hout⟩ := h
    cases hout
    cases h
    exact .kept (kept_of_eq rfl rfl rfl rfl rfl rfl rfl rfl)
  | exchangeAuthorizationCode clientId code redirectUri codeVerifier resource =>
    simp only [runRequest, bind_eq_ok, pure_eq_ok] at h
    obtain ⟨⟨_, _, _⟩, h, hout⟩ := h
    cases hout
    exact exchangeAuthorizationCode_effect h
  | exchangeRefreshToken clientId refreshToken scope resource =>
    simp only [runRequest, bind_eq_ok, pure_eq_ok] at h
    obtain ⟨⟨_, _, _⟩, h, hout⟩ := h
    cases hout
    exact exchangeRefreshToken_effect h
  | revokeOAuthToken token =>
    cases h
    exact .kept revokeOAuthToken_kept

/-! ## Clients -/

/-- The endpoints of the protocol for clients. -/
def Request.isOAuth : Request → Bool
  | .registerClient .. | .exchangeAuthorizationCode .. | .exchangeRefreshToken ..
  | .revokeOAuthToken _ => true
  | _ => false

/-- Only the tables of clients, codes and tokens may differ. -/
structure OAuthOnly (db db' : AuthDb) : Prop where
  users : db'.users = db.users
  authSessions : db'.authSessions = db.authSessions
  loginThrottles : db'.loginThrottles = db.loginThrottles
  passwordResetTokens : db'.passwordResetTokens = db.passwordResetTokens

theorem runRequest_oauthOnly {r : Request} {e : Option Event} (hoauth : r.isOAuth = true)
    (h : runRequest c db r = .ok (db', e)) : OAuthOnly db db' := by
  cases r with
  | registerClient clientName redirectUris =>
    simp only [runRequest, registerClient, bind_eq_ok, pure_eq_ok] at h
    obtain ⟨⟨_, _⟩, ⟨_, _, _, _, _, _, h⟩, hout⟩ := h
    cases hout
    cases h
    exact ⟨rfl, rfl, rfl, rfl⟩
  | exchangeAuthorizationCode clientId code redirectUri codeVerifier resource =>
    simp only [runRequest, exchangeAuthorizationCode, bind_eq_ok, pure_eq_ok] at h
    obtain ⟨_, ⟨_, _, _, _, _, _, _, _, _, _, ⟨_, _⟩, hissue, hexchange⟩, hout⟩ := h
    cases hout
    cases hexchange
    rw [(issueTokens_ok hissue).2]
    exact ⟨rfl, rfl, rfl, rfl⟩
  | exchangeRefreshToken clientId refreshToken scope resource =>
    simp only [runRequest, exchangeRefreshToken, bind_eq_ok, pure_eq_ok] at h
    obtain ⟨_, ⟨_, _, _, _, _, _, _, _, ⟨_, _⟩, hissue, hexchange⟩, hout⟩ := h
    cases hout
    cases hexchange
    rw [(issueTokens_ok hissue).2]
    exact ⟨rfl, rfl, rfl, rfl⟩
  | revokeOAuthToken token =>
    cases h
    unfold revokeOAuthToken
    dsimp only
    split
    · exact ⟨rfl, rfl, rfl, rfl⟩
    · exact ⟨rfl, rfl, rfl, rfl⟩
  | setupRoot | login | session | admin | requestPasswordReset | confirmPasswordReset =>
    cases hoauth

end Warp.Auth
