import Warp.Auth.Gateway
import Warp.Properties.AccountState
import Warp.Properties.CredentialEffects

/-!
# Who gives roles to users

The routes of sign-in and OAuth save rows of users, but the roles in them stay. A user gets its roles from
a change by an administrator, and only the setup makes the root.
-/

namespace Warp.Auth

open Infra

/-- The user keeps its roles, and stays the root or not. -/
structure SameRoles (u u' : User) : Prop where
  id : u'.id = u.id
  isRoot : u'.isRoot = u.isRoot
  roleIds : u'.roleIds = u.roleIds

theorem SameRoles.refl (u : User) : SameRoles u u := ⟨rfl, rfl, rfl⟩

/-- No user is new, and each keeps its roles. -/
def RolesKept (db db' : AuthDb) : Prop := ∀ u' ∈ db'.users, ∃ u ∈ db.users, SameRoles u u'

variable {c : Ctx} {db mid db' : AuthDb}

theorem rolesKept_of_eq (h : db'.users = db.users) : RolesKept db db' :=
  fun u hu => ⟨u, h ▸ hu, .refl u⟩

theorem rolesKept_insert {u u' : User} (hu : u ∈ db.users) (hsame : SameRoles u u')
    (h : db'.users = db.users.insert u') : RolesKept db db' := by
  intro x hx
  rw [h] at hx
  rcases mem_insert_of hx with rfl | hx
  · exact ⟨u, hu, hsame⟩
  · exact ⟨x, hx, .refl x⟩

/-! ## Routes that are not behind the gate -/

section

variable {user user' : User} {current : AuthSession} {created : CreatedSession}
  {mfaCode recoveryCode : Option String}

theorem verifyUserFactor_sameRoles (h : verifyUserFactor c user mfaCode recoveryCode = .ok (some user')) :
    SameRoles user user' := by
  unfold verifyUserFactor at h
  split at h
  · split at h
    · cases h
    · rw [exceptMap_eq_ok] at h
      obtain ⟨valid, _, h⟩ := h
      split at h
      · cases h
        exact .refl user
      · cases h
  · split at h
    · cases h
    · simp only [Except.ok.injEq, Option.map_eq_some_iff] at h
      obtain ⟨_, _, rfl⟩ := h
      exact ⟨rfl, rfl, rfl⟩

theorem checkedUser_sameRoles (h : checkedUser c user mfaCode recoveryCode = .ok (some user')) :
    SameRoles user user' := by
  unfold checkedUser at h
  split at h
  · exact verifyUserFactor_sameRoles h
  · cases h
    exact .refl user

theorem createSession_sameUsers {userId : ℕ} {clientIp userAgent : Option String} {verified : Bool}
    (h : createSession c db userId clientIp userAgent verified = .ok (db', created)) :
    db'.users = db.users := by
  rw [(createSession_ok h).2]
  rfl

/-- Neither the users nor the tokens for resetting their passwords change. -/
structure AccountsKept (db db' : AuthDb) : Prop where
  users : db'.users = db.users
  resetTokens : db'.passwordResetTokens = db.passwordResetTokens

theorem resolveOAuthClient_accounts {clientId : String} {document : Except AuthError ClientMetadata}
    {client : OAuthClient} (h : resolveOAuthClient c db clientId document = .ok (db', client)) :
    AccountsKept db db' := by
  unfold resolveOAuthClient at h
  split at h
  · simp only [bind_eq_ok, pure_eq_ok] at h
    obtain ⟨_, _, _, _, hout⟩ := h
    cases hout
    exact ⟨rfl, rfl⟩
  · simp only [bind_eq_ok, pure_eq_ok] at h
    obtain ⟨_, _, hout⟩ := h
    cases hout
    exact ⟨rfl, rfl⟩

theorem authorizeRoute_accounts {request : AuthorizationRequest}
    {document : Except AuthError ClientMetadata} {approve : Bool} {e : Option Event}
    (h : authorizeRoute c db user current request document approve = .ok (db', e)) :
    AccountsKept db db' := by
  unfold authorizeRoute authorizationRedirect at h
  cases hresolve : resolveOAuthClient c db request.clientId document with
  | error refusal =>
    rw [hresolve] at h
    cases refusal <;> cases h
    exact ⟨rfl, rfl⟩
  | ok found =>
    have hclient := resolveOAuthClient_accounts hresolve
    simp only [hresolve] at h
    split at h
    · next hredirect =>
      cases h
      obtain ⟨_, hredirect⟩ := Prod.mk.inj hredirect
      simp only [bind_eq_ok] at hredirect
      obtain ⟨_, _, hredirect⟩ := hredirect
      cases approve with
      | false =>
        cases hredirect
        exact ⟨hclient.users, hclient.resetTokens⟩
      | true =>
        simp only [if_true, issueCode, bind_eq_ok, pure_eq_ok] at hredirect
        obtain ⟨_, ⟨_, _, rfl⟩, hout⟩ := hredirect
        cases hout
        exact ⟨hclient.users, hclient.resetTokens⟩
    · next hredirect =>
      cases h
      exact (Prod.mk.inj hredirect).1 ▸ hclient
    · cases h

theorem runSessionAction_rolesKept {action : SessionAction} {e : Option Event} (hu : user ∈ db.users)
    (h : runSessionAction c db user current action = .ok (db', e)) : RolesKept db db' := by
  cases action with
  | me =>
    cases h
    exact rolesKept_of_eq rfl
  | logout =>
    simp only [runSessionAction, bind_eq_ok, pure_eq_ok] at h
    obtain ⟨_, hrevoked, hout⟩ := h
    cases hout
    rcases revokeSession_ok hrevoked with rfl | rfl <;> exact rolesKept_of_eq rfl
  | changePassword currentPassword newPassword =>
    simp only [runSessionAction, changePassword, bind_eq_ok, pure_eq_ok] at h
    obtain ⟨⟨_, _⟩, ⟨_, _, _, _, _, _, hcreated⟩, hout⟩ := h
    cases hout
    have hsame : SameRoles user (withNewPassword c user newPassword) := ⟨rfl, rfl, rfl⟩
    exact rolesKept_insert hu hsame (createSession_sameUsers hcreated)
  | beginMfaSetup currentPassword =>
    simp only [runSessionAction, beginMfaSetup, bind_eq_ok, pure_eq_ok] at h
    obtain ⟨_, ⟨_, _, _, _, _, _, hbegun⟩, hout⟩ := h
    cases hout
    cases hbegun
    exact rolesKept_of_eq rfl
  | confirmMfaSetup code =>
    simp only [runSessionAction, confirmMfaSetup, bind_eq_ok, pure_eq_ok] at h
    obtain ⟨_, ⟨encrypted, _, _, _, _, _, _, _, _, _, hconfirmed⟩, _, _, hout⟩ := h
    cases hout
    cases hconfirmed
    have hsame : SameRoles user (enrolledUser c user encrypted) := ⟨rfl, rfl, rfl⟩
    exact rolesKept_insert hu hsame rfl
  | disableMfa currentPassword mfaCode recoveryCode =>
    simp only [runSessionAction, disableMfa, bind_eq_ok, pure_eq_ok] at h
    obtain ⟨_, ⟨_, _, _, _, _, _, _, _, _, _, hcreated⟩, hout⟩ := h
    cases hout
    refine rolesKept_insert hu ?_ (createSession_sameUsers hcreated)
    exact ⟨rfl, rfl, rfl⟩
  | reauthenticate password mfaCode recoveryCode =>
    simp only [runSessionAction, reauthenticate, bind_eq_ok, orRaise_eq_ok, pure_eq_ok] at h
    obtain ⟨_, ⟨_, _, _, hchecked, user', rfl, hcreated⟩, hout⟩ := h
    cases hout
    exact rolesKept_insert hu (checkedUser_sameRoles hchecked) (createSession_sameUsers hcreated)
  | revokeOtherSessions =>
    simp only [runSessionAction, bind_eq_ok, pure_eq_ok] at h
    obtain ⟨_, _, _, _, hout⟩ := h
    cases hout
    exact rolesKept_of_eq rfl
  | revokeAllSessions =>
    simp only [runSessionAction, bind_eq_ok, pure_eq_ok] at h
    obtain ⟨_, _, _, _, hout⟩ := h
    cases hout
    exact rolesKept_of_eq rfl
  | authorize request document approve => exact rolesKept_of_eq (authorizeRoute_accounts h).users

end

theorem loginRoute_rolesKept {email password : String}
    {mfaCode recoveryCode clientIp userAgent : Option String} {e : Option Event}
    (h : loginRoute c db email password mfaCode recoveryCode clientIp userAgent = .ok (db', e)) :
    RolesKept db db' := by
  unfold loginRoute at h
  split at h
  · next _ login hlogin =>
    cases h
    simp only [authenticateHuman, checkLoginPassword, checkLoginFactor, bind_eq_ok] at hlogin
    obtain ⟨found, ⟨_, _, hfound⟩, checked, ⟨_, _, _, hfactor, hchecked⟩, hlogin⟩ := hlogin
    obtain ⟨hrow, _⟩ := Option.filter_eq_some_iff.mp (orRaise_eq_ok.mp (refuseWith_ok hfound))
    rw [orRaise_eq_ok.mp (refuseWith_ok hchecked)] at hfactor
    have hsame := checkedUser_sameRoles (refuseWith_ok hfactor)
    have hlogin := refuseWith_ok hlogin
    simp only [completeLogin, bind_eq_ok, pure_eq_ok] at hlogin
    obtain ⟨⟨_, _⟩, hcreated, _, _, _, _, _, _, hout⟩ := hlogin
    cases hout
    refine rolesKept_insert (List.mem_of_find?_eq_some hrow) ?_ (createSession_sameUsers hcreated)
    exact ⟨hsame.id, hsame.isRoot, hsame.roleIds⟩
  · next hrefused =>
    cases h
    simp only [authenticateHuman, checkLoginPassword, checkLoginFactor, bind_eq_error] at hrefused
    rcases hrefused with (h | ⟨_, _, h⟩) | ⟨_, _, (h | ⟨_, _, h | ⟨_, _, h⟩⟩) | ⟨_, _, h⟩⟩
    all_goals
      have hdb : db' = _ := refuseWith_error h
      rw [hdb]
      exact rolesKept_of_eq rfl
  · cases h

/-- The routes before the gate give roles to nobody. -/
theorem runRequest_rolesKept {r : Request} {e : Option Event} (hpublic : r.isPublic = true)
    (h : runRequest c db r = .ok (db', e)) : ∀ u' ∈ db'.users,
      (∃ u ∈ db.users, SameRoles u u') ∨
        (∃ name email password clientIp userAgent, r = .setupRoot name email password clientIp userAgent) ∧
          u'.id = db.sequences.user ∧ u'.roleIds = [] := by
  cases r with
  | setupRoot name email password clientIp userAgent =>
    intro u hu
    simp only [runRequest, createRootUser, bind_eq_ok, pure_eq_ok] at h
    obtain ⟨⟨_, _, _⟩, ⟨_, _, _, _, ⟨_, _⟩, hcreated, hroot⟩, hout⟩ := h
    cases hout
    cases hroot
    rw [createSession_sameUsers hcreated] at hu
    rcases mem_insert_of hu with rfl | hold
    · exact Or.inr ⟨⟨name, email, password, clientIp, userAgent, rfl⟩, rfl, rfl⟩
    · exact Or.inl ⟨u, hold, .refl u⟩
  | login email password mfaCode recoveryCode clientIp userAgent =>
    exact fun u hu => Or.inl (loginRoute_rolesKept h u hu)
  | session token clientIp action =>
    simp only [runRequest, bind_eq_ok] at h
    obtain ⟨⟨mid, user, current⟩, hauth, h⟩ := h
    obtain ⟨_, hin⟩ := authenticateSession_ok hauth
    have husers : mid.users = db.users := by
      rw [hin.touched]
      rfl
    intro u hu
    obtain ⟨u₀, hmid, hsame⟩ := runSessionAction_rolesKept (husers ▸ hin.user_mem) h u hu
    exact Or.inl ⟨u₀, husers ▸ hmid, hsame⟩
  | admin => cases hpublic
  | requestPasswordReset email clientIp =>
    simp only [runRequest, bind_eq_ok, pure_eq_ok] at h
    obtain ⟨⟨_, _⟩, h, hout⟩ := h
    cases hout
    unfold requestPasswordReset at h
    split at h
    · cases h
      exact fun u hu => Or.inl ⟨u, hu, .refl u⟩
    · simp only [bind_eq_ok, pure_eq_ok] at h
      obtain ⟨_, _, _, _, hout⟩ := h
      cases hout
      exact fun u hu => Or.inl ⟨u, hu, .refl u⟩
  | confirmPasswordReset token newPassword mfaCode recoveryCode =>
    simp only [runRequest, confirmPasswordReset, bind_eq_ok, orRaise_eq_ok, pure_eq_ok] at h
    obtain ⟨_, ⟨_, _, found, hfound, _, _, _, hchecked, user, rfl, _, _, _, _, hreset⟩, hout⟩ := h
    cases hout
    cases hreset
    have hsame := checkedUser_sameRoles hchecked
    intro u hu
    refine Or.inl (rolesKept_insert (Table.find?_eq_some.mp hfound).1 ?_ rfl u hu)
    exact ⟨hsame.id, hsame.isRoot, hsame.roleIds⟩
  | registerClient | exchangeAuthorizationCode | exchangeRefreshToken | revokeOAuthToken =>
    exact fun u hu => Or.inl (rolesKept_of_eq (runRequest_oauthOnly rfl h).users u hu)

/-! ## Changes by administrators -/

/-- The change gives the role to the user. -/
def AccessAction.Assigns (db : AuthDb) (userId roleId : ℕ) : AccessAction → Prop
  | .user (.createUser _ _ _ roleIds _) => db.sequences.user = userId ∧ roleId ∈ roleIds
  | .user (.updateUser id data) => id = userId ∧ ∃ roleIds, data.roleIds = some roleIds ∧ roleId ∈ roleIds
  | .createRole _ | .updateRole .. | .deleteRole _ | .user (.resetUserPassword ..)
  | .user (.disableUser _) => False

theorem mem_rolesByIds {requested roleIds : List ℕ} (h : rolesByIds db requested = .ok roleIds) {id : ℕ} :
    id ∈ roleIds ↔ id ∈ requested := by
  simp only [rolesByIds, bind_eq_ok, ensure_eq_ok, pure_eq_ok] at h
  obtain ⟨_, _, rfl⟩ := h
  rw [Finset.mem_sort, List.mem_toFinset]

theorem updatedUser_roleIds {user user' : User} {data : UserUpdate} {actorUserId : Option ℕ}
    (h : updatedUser db user data actorUserId = .ok user') : user'.roleIds = user.roleIds ∨
      ∃ roleIds, data.roleIds = some roleIds ∧ ∀ id ∈ user'.roleIds, id ∈ roleIds := by
  simp only [updatedUser, bind_eq_ok] at h
  obtain ⟨named, hnamed, placed, hplaced, roled, hroled, hlinked⟩ := h
  have hname : named.roleIds = user.roleIds := by
    unfold changedName at hnamed
    split at hnamed
    · cases hnamed
      rfl
    · simp only [bind_eq_ok, pure_eq_ok] at hnamed
      obtain ⟨_, _, rfl⟩ := hnamed
      rfl
  have hstatus : placed.roleIds = named.roleIds := by
    unfold changedStatus at hplaced
    split at hplaced
    · cases hplaced
      rfl
    · simp only [bind_eq_ok, pure_eq_ok] at hplaced
      obtain ⟨_, _, rfl⟩ := hplaced
      rfl
  have hlink : user'.roleIds = roled.roleIds := by
    unfold changedEmployee at hlinked
    split at hlinked
    · cases hlinked
      rfl
    · simp only [bind_eq_ok, pure_eq_ok] at hlinked
      obtain ⟨_, _, rfl⟩ := hlinked
      rfl
  rw [hlink]
  unfold changedRoles at hroled
  split at hroled
  · cases hroled
    exact Or.inl (hstatus.trans hname)
  · next requested hrequested =>
    simp only [bind_eq_ok, pure_eq_ok] at hroled
    obtain ⟨_, _, roleIds, hroles, _, _, rfl⟩ := hroled
    exact Or.inr ⟨requested, hrequested, fun id hid => (mem_rolesByIds hroles).mp hid⟩

/-- A user has a role from before, or the change gives it. -/
theorem runAccessAction_assigns {principal : Principal} {action : AccessAction}
    (h : runAccessAction c db principal action = .ok db') : ∀ u' ∈ db'.users, ∀ id ∈ u'.roleIds,
      (∃ u ∈ db.users, u.id = u'.id ∧ id ∈ u.roleIds) ∨ action.Assigns db u'.id id := by
  have hold : ∀ {users : Table User} {u' : User}, u' ∈ users → users = db.users → ∀ id ∈ u'.roleIds,
      (∃ u ∈ db.users, u.id = u'.id ∧ id ∈ u.roleIds) ∨ action.Assigns db u'.id id :=
    fun hu husers id hid => Or.inl ⟨_, husers ▸ hu, rfl, hid⟩
  intro u' hu' id hid
  cases action with
  | createRole data =>
    simp only [runAccessAction, createRole, exceptMap_eq_ok, bind_eq_ok, pure_eq_ok] at h
    obtain ⟨_, ⟨_, _, _, _, _, _, _, _, hout⟩, rfl⟩ := h
    cases hout
    exact hold hu' rfl id hid
  | updateRole roleId data =>
    simp only [runAccessAction, updateRole, exceptMap_eq_ok, bind_eq_ok, pure_eq_ok] at h
    obtain ⟨_, _, _, ⟨_, _, _, _, hout⟩, rfl⟩ := h
    cases hout
    exact hold hu' rfl id hid
  | deleteRole roleId =>
    simp only [runAccessAction, deleteRole, bind_eq_ok, pure_eq_ok] at h
    obtain ⟨_, _, _, _, hout⟩ := h
    cases hout
    exact hold hu' rfl id hid
  | user action =>
    simp only [runAccessAction, exceptMap_eq_ok, bind_eq_ok] at h
    obtain ⟨_, _, ⟨final, _⟩, h, rfl⟩ := h
    cases action with
    | createUser name email password roleIds employeeId =>
      simp only [runAdminAction, createUser, bind_eq_ok, pure_eq_ok] at h
      obtain ⟨_, ⟨_, _, _, _, roles, hroles, _, _, _, _, rfl⟩, hout⟩ := h
      cases hout
      rcases mem_insert_of hu' with rfl | hmem
      · exact Or.inr ⟨rfl, (mem_rolesByIds hroles).mp hid⟩
      · exact hold hmem rfl id hid
    | updateUser userId data =>
      simp only [runAdminAction, bind_eq_ok] at h
      obtain ⟨user, hfind, ⟨after, updated⟩, hupdate, hout⟩ := h
      have hdb : after = final := by
        split at hout <;> cases hout <;> rfl
      subst hdb
      obtain ⟨hm, rfl⟩ := userById_eq_ok.mp hfind
      obtain ⟨_, hsame, hsaves⟩ := updateUser_eq_ok hupdate
      rw [hsaves.users] at hu'
      rcases mem_insert_of hu' with rfl | hmem
      · simp only [updateUser, bind_eq_ok] at hupdate
        obtain ⟨_, _, updated, hupdated, hrow⟩ := hupdate
        obtain rfl : updated = u' := by
          split at hrow <;> cases hrow <;> rfl
        rcases updatedUser_roleIds hupdated with hkept | ⟨roleIds, hdata, hrequested⟩
        · exact Or.inl ⟨user, hm, hsame.id.symm, hkept ▸ hid⟩
        · exact Or.inr ⟨hsame.id.symm, roleIds, hdata, hrequested id hid⟩
      · exact hold hmem rfl id hid
    | resetUserPassword userId password =>
      simp only [runAdminAction, bind_eq_ok, pure_eq_ok] at h
      obtain ⟨user, hfind, ⟨_, updated⟩, hreset, hout⟩ := h
      cases hout
      obtain ⟨_, ⟨hid', _, hroles, _⟩, hsaves⟩ := resetUserPassword_eq_ok hreset
      rw [hsaves.users] at hu'
      rcases mem_insert_of hu' with rfl | hmem
      · exact Or.inl ⟨user, (userById_eq_ok.mp hfind).1, hid'.symm, hroles ▸ hid⟩
      · exact hold hmem rfl id hid
    | disableUser userId =>
      simp only [runAdminAction, bind_eq_ok, pure_eq_ok] at h
      obtain ⟨user, hfind, ⟨_, updated⟩, hdisable, hout⟩ := h
      cases hout
      obtain ⟨_, _, ⟨hid', _, hroles, _⟩, hsaves⟩ := disableUser_eq_ok hdisable
      rw [hsaves.users] at hu'
      rcases mem_insert_of hu' with rfl | hmem
      · exact Or.inl ⟨user, (userById_eq_ok.mp hfind).1, hid'.symm, hroles ▸ hid⟩
      · exact hold hmem rfl id hid

/-- A change makes nobody the root. -/
theorem runAccessAction_root {principal : Principal} {action : AccessAction}
    (h : runAccessAction c db principal action = .ok db') {u : User} (hu : u ∈ db'.users)
    (hroot : u.isRoot = true) : u ∈ db.users := by
  cases runAccessAction_effect h with
  | createRole data role after =>
    rw [after] at hu
    exact hu
  | updateRole data role role' found after =>
    rw [after] at hu
    exact hu
  | deleteRole role found free after =>
    rw [after] at hu
    exact hu
  | user action scope effect =>
    cases effect with
    | added user after id isRoot =>
      rw [after] at hu
      rcases mem_insert_of hu with rfl | hold
      · rw [isRoot] at hroot
        cases hroot
      · exact hold
    | saved user user' found isRoot id isRoot' roles employeeId after =>
      rw [after.users] at hu
      rcases mem_insert_of hu with rfl | hold
      · rw [isRoot'] at hroot
        cases hroot
      · exact hold

end Warp.Auth
