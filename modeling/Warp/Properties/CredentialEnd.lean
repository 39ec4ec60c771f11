import Warp.Properties.CredentialLog
import Warp.Infra.Runs

/-!
# Ended credentials stay ended

Once the credentials of a user have been ended, nothing that descends from them is accepted again,
as long as no code or refresh token survives the end: the end does not touch codes and tokens, so
they work on wherever the account itself lets them.
-/

namespace Warp.Auth

open Infra

/-! ## Acceptance -/

/-- The service authenticates a request by the credential, now or later. -/
def Accepts (s : Service) : Credential → Prop
  | .session id => ∃ c token clientIp db' user current, s.clock ≤ c.now ∧
    authenticateSession c s.db token clientIp = .ok (db', user, current) ∧ current.id = id
  | .token id => ∃ c token record user, s.clock ≤ c.now ∧
    findActiveAccessToken c s.db token = some (record, user) ∧ record.id = id
  | .code _ => False

def OAuthToken.Live (t : OAuthToken) (now : Instant) : Prop :=
  t.revokedAt = none ∧ now < t.accessExpiresAt

/-- The user of a token does not need a new password and has not had one since. -/
def Current (db : AuthDb) (t : OAuthToken) : Prop :=
  ∃ u ∈ db.users, u.id = t.userId ∧ u.passwordChangeRequired = false ∧
    ∀ changedAt, u.passwordChangedAt = some changedAt → changedAt ≤ t.createdAt

def AccountOpen (db : AuthDb) (userId : ℕ) : Prop :=
  ∃ u ∈ db.users, u.id = userId ∧ u.status = .active ∧ u.passwordChangeRequired = false

/-- A token with which its user can authenticate. -/
def Usable (db : AuthDb) (now : Instant) (t : OAuthToken) : Prop :=
  t.Live now ∧ ∃ u ∈ db.users, u.id = t.userId ∧ u.status = .active ∧
    u.passwordChangeRequired = false ∧
    ∀ changedAt, u.passwordChangedAt = some changedAt → changedAt ≤ t.createdAt

/-! ## The invariant -/

/-- Nothing stale is usable. -/
structure Ended (s : Service) : Prop where
  sessions : ∀ r ∈ s.db.authSessions, Stale s.log (.session r.id) → r.revokedAt ≠ none
  tokens : ∀ t ∈ s.db.oauthTokens, Stale s.log (.token t.id) → ¬ Usable s.db s.clock t

variable {c : Ctx} {r : Request} {s : Service} {db db' : AuthDb} {except : Option ℕ}

/-- What is usable after a change that keeps its user was usable before. -/
theorem KeptBut.usable (h : KeptBut except s.db db') (hs : Logged s) {t t' : OAuthToken}
    (ht : t ∈ s.db.oauthTokens) (hk : TokenKept t t') (hne : except ≠ some t.userId)
    {now now' : Instant} (hnow : now ≤ now') (hu : Usable db' now' t') : Usable s.db now t := by
  obtain ⟨⟨hlive, hexpires⟩, u', hu', hid, hstatus, hrequired, hchanged⟩ := hu
  rw [hk.userId] at hid
  rw [hk.accessExpiresAt] at hexpires
  refine ⟨⟨by_contra fun hr => hk.revoked hr hlive, lt_of_le_of_lt hnow hexpires⟩, ?_⟩
  rcases h.users u' hu' with ⟨u, hu, huid, hex | hkept⟩ | ⟨hnew, _⟩
  · exact absurd (hex.trans (congrArg some (huid.trans hid))) hne
  · refine ⟨u, hu, huid.trans hid, hkept.status ▸ hstatus,
      hkept.passwordChangeRequired ▸ hrequired, fun changedAt hat => ?_⟩
    rw [← hk.createdAt]
    exact hchanged changedAt (hkept.passwordChangedAt.trans hat)
  · -- a new user has no tokens
    have := hs.owners _ _ (hs.tokens t ht)
    omega

theorem Kept.ended (h : Kept s.db db') (hs : Logged s) (he : Ended s) {clock : Instant}
    (hclock : s.clock ≤ clock) : Ended ⟨db', s.log, clock⟩ where
  sessions r' hr' hstale := by
    obtain ⟨r, hr, hk⟩ := h.sessions r' hr'
    exact hk.revoked (he.sessions r hr (hk.id ▸ hstale))
  tokens t' ht' hstale hu := by
    obtain ⟨t, ht, hk⟩ := h.tokens t' ht'
    exact he.tokens t ht (hk.id ▸ hstale) (h.usable hs ht hk (by simp) hclock hu)

/-- An event that ends nothing does not make older credentials stale. -/
theorem Ended.cons (he : Ended s) (hs : Logged s) {e : Event} (hw : WellIssued (e :: s.log))
    (hends : e.ends = none) : Ended ⟨s.db, e :: s.log, s.clock⟩ := by
  have hstale : ∀ {k u}, Issued s.log k u → Stale (e :: s.log) k → Stale s.log k := by
    intro k u hk h
    rcases (stale_cons_of_issued hw hk).mp h with h | h
    · exact h
    · exact absurd (hends.symm.trans h) (by simp)
  exact
    { sessions := fun r hr h => he.sessions r hr (hstale (hs.sessions r hr) h)
      tokens := fun t ht h => he.tokens t ht (hstale (hs.tokens t ht) h) }

theorem Ended.addSession (he : Ended s) {n : AuthSession}
    (hn : ¬ Stale s.log (.session n.id)) : Ended ⟨s.db.addSession n, s.log, s.clock⟩ where
  sessions r hr hstale := by
    rcases mem_insert_of hr with rfl | hr
    · exact absurd hstale hn
    · exact he.sessions r hr hstale
  tokens t ht hstale hu := he.tokens t ht hstale hu

/-- After the end of the credentials of a user its sessions and tokens are dead, if no live token is
as young as a change of the password. -/
theorem Ends.ended {userId : ℕ} (h : Ends c s.db r db' userId) (hs : Logged s) (he : Ended s)
    {e : Event} (hw : WellIssued (e :: s.log)) (hends : e.ends = some userId)
    (hclock : s.clock ≤ c.now)
    (hyoung : ∀ u, r.passwordOf? c s.db = some u → ∀ t ∈ s.db.oauthTokens, t.userId = u →
      t.Live c.now → t.createdAt < c.now) : Ended ⟨db', e :: s.log, c.now⟩ where
  sessions r' hr' hstale := by
    by_cases huser : r'.userId = userId
    · exact h.revoked r' hr' huser
    · obtain ⟨r, hr, hk⟩ := h.kept.sessions r' hr'
      refine hk.revoked (he.sessions r hr ?_)
      rw [hk.id] at hstale
      rcases (stale_cons_of_issued hw (hs.sessions r hr)).mp hstale with hstale | hended
      · exact hstale
      · rw [show Ledger.ends e = _ from hends, Option.some.injEq] at hended
        exact absurd (hk.userId.trans hended.symm) huser
  tokens t' ht' hstale hu := by
    obtain ⟨t, ht, hk⟩ := h.kept.tokens t' ht'
    by_cases huser : t.userId = userId
    · obtain ⟨⟨hlive, hexpires⟩, u', hu', hid, hstatus, hrequired, hchanged⟩ := hu
      have hid : u'.id = userId := hid.trans (hk.userId.trans huser)
      rcases h.closed u' hu' hid with hclosed | hclosed | ⟨hat, hpassword⟩
      · exact hclosed hstatus
      · rw [hrequired] at hclosed
        exact absurd hclosed (by simp)
      · -- the password is newer than every live token
        have hold := hyoung _ hpassword t ht (huser.trans hid.symm)
          ⟨by_contra fun hr => hk.revoked hr hlive, hk.accessExpiresAt ▸ hexpires⟩
        have hle := hchanged _ hat
        rw [hk.createdAt] at hle
        exact absurd hold (not_lt.mpr hle)
    · refine he.tokens t ht ?_ (h.kept.usable hs ht hk ?_ hclock hu)
      · rw [hk.id] at hstale
        rcases (stale_cons_of_issued hw (hs.tokens t ht)).mp hstale with hstale | hended
        · exact hstale
        · rw [show Ledger.ends e = _ from hends, Option.some.injEq] at hended
          exact absurd hended.symm huser
      · exact fun hex => huser (Option.some.inj hex).symm

/-! ## The condition -/

/-- What a request that goes through may not do: exchange a code or refresh token from before the
end of its user's credentials while the account is open, change the password in the very
microsecond in which a live token was issued, or make a user active whose stale tokens are live. -/
structure EndsFor (c : Ctx) (s : Service) (r : Request) : Prop where
  grant : ∀ k u, r.grant? c s.db = some (k, u) → AccountOpen s.db u → ¬ Stale s.log k
  password : ∀ u, r.passwordOf? c s.db = some u → ∀ t ∈ s.db.oauthTokens, t.userId = u →
    t.Live c.now → t.createdAt < c.now
  activation : ∀ u, r.activates? = some u → ∀ t ∈ s.db.oauthTokens, t.userId = u →
    Stale s.log (.token t.id) → t.Live c.now → ¬ Current s.db t

def EndsFinally (p : Platform) (s : Service) (call : Call) : Prop :=
  (∃ outcome, runRequest (call.ctx p s) s.db call.request = .ok outcome) →
    EndsFor (call.ctx p s) s call.request

theorem Effect.keeps_ended {e : Option Event} (h : Effect c s.db r db' e) (hs : Logged s) (he : Ended s)
    (hclock : s.clock ≤ c.now) (hcond : EndsFor c s r) :
    Ended ⟨db', e.toList ++ s.log, c.now⟩ := by
  have hlogged := h.logged hs c.now
  cases h with
  | kept hkept => exact hkept.ended hs he hclock
  | @activated u u' hr hu hid hrequired hchanged =>
    have hkept : KeptBut (some u.id) s.db (s.db.saveUser u') :=
      keptBut_saveUser hu hid (Or.inl rfl)
    refine ⟨he.sessions, fun t ht hstale husable => ?_⟩
    by_cases huser : t.userId = u.id
    · obtain ⟨hlive, x, hx, hxid, _, hxrequired, hxchanged⟩ := husable
      obtain rfl : x = u' := eq_of_mem_saveUser hx (hxid.trans (huser.trans hid.symm))
      refine hcond.activation u.id hr t ht huser hstale hlive ⟨u, hu, huser.symm, ?_, ?_⟩
      · rw [← hrequired]
        exact hxrequired
      · rw [← hchanged]
        exact hxchanged
    · exact he.tokens t ht hstale (hkept.usable hs ht (.refl t)
        (fun hex => huser (Option.some.inj hex).symm) hclock husable)
  | ended h _ hends => exact h.ended hs he hlogged.wellIssued hends hclock hcond.password
  | @confirmed mid x x' e hkept hx hid _ hrevoked _ hends _ =>
    have hmid := (hkept.ended hs he hclock).cons (hkept.logged hs c.now) hlogged.wellIssued hends
    refine ⟨fun y hy hstale => ?_, hmid.tokens⟩
    rcases mem_insert_of hy with rfl | hy
    · exact hrevoked (hmid.sessions x hx (hid ▸ hstale))
    · exact hmid.sessions y hy hstale
  | @opened mid n e source hkept _ _ hissue hends hsource _ =>
    have hmid := (hkept.ended hs he hclock).cons (hkept.logged hs c.now) hlogged.wellIssued hends
    refine hmid.addSession fun hstale => ?_
    obtain ⟨a, ha, hstale⟩ := (stale_cons_of_new hlogged.wellIssued hissue).mp hstale
    obtain ⟨x, hx, rfl, _, hlive⟩ := hsource a ha
    exact he.sessions x hx hstale hlive
  | @passwordChanged mid x n e h _ hx _ hlive hissue hends _ =>
    have hmid := h.ended hs he hlogged.wellIssued hends hclock hcond.password
    refine hmid.addSession fun hstale => ?_
    obtain ⟨a, ha, hstale⟩ := (stale_cons_of_new hlogged.wellIssued hissue).mp hstale
    cases ha
    exact he.sessions x hx hstale hlive
  | @consented mid x n e hkept _ _ _ _ _ hends _ =>
    have hmid := (hkept.ended hs he hclock).cons (hkept.logged hs c.now) hlogged.wellIssued hends
    exact ⟨hmid.sessions, hmid.tokens⟩
  | @exchanged mid k n e hkept hr _ hsource _ hissue hends =>
    have hmid := (hkept.ended hs he hclock).cons (hkept.logged hs c.now) hlogged.wellIssued hends
    refine ⟨hmid.sessions, fun y hy hstale husable => ?_⟩
    rcases mem_insert_of hy with rfl | hy
    · obtain ⟨a, ha, hstale⟩ := (stale_cons_of_new hlogged.wellIssued hissue).mp hstale
      cases ha
      refine hcond.grant k y.userId hr ?_ hstale
      obtain ⟨_, u', hu', hid, hstatus, hrequired, _⟩ := husable
      rcases hkept.users u' hu' with ⟨u, hu, huid, hex | hk⟩ | ⟨hnew, _⟩
      · exact absurd hex (by simp)
      · exact ⟨u, hu, huid.trans hid, hk.status ▸ hstatus, hk.passwordChangeRequired ▸ hrequired⟩
      · have := hs.owners _ _ (hs.issued_of_holds hsource)
        omega
    · exact hmid.tokens y hy hstale husable

theorem Ended.step {p : Platform} (hs : Logged s) (he : Ended s) {call : Call}
    (h : EndsFinally p s call) : Ended (s.step p call) := by
  have hclock : s.clock ≤ s.clock + call.elapsed := Nat.le_add_right _ _
  unfold Service.step
  split
  · next hrun => exact (runRequest_effect hrun).keeps_ended hs he hclock (h ⟨_, hrun⟩)
  · exact Kept.ended (KeptBut.refl s.db) hs he hclock

/-! ## Acceptance and the invariant -/

theorem usable_of_findActiveAccessToken {token : String} {record : OAuthToken} {user : User}
    (h : findActiveAccessToken c db token = some (record, user)) :
    record ∈ db.oauthTokens ∧ Usable db c.now record := by
  simp only [findActiveAccessToken, Option.bind_eq_bind, Option.bind_eq_some_iff] at h
  obtain ⟨t, ht, u, hu, h⟩ := h
  split at h
  · next hchanged =>
    cases h
    obtain ⟨ht, hlive⟩ := Option.filter_eq_some_iff.mp ht
    obtain ⟨hu, hopen⟩ := Option.filter_eq_some_iff.mp hu
    obtain ⟨hu, hid⟩ := Table.find?_eq_some.mp hu
    simp only [Bool.and_eq_true, Option.isNone_iff_eq_none, decide_eq_true_eq, Bool.not_eq_true']
      at hlive hopen
    refine ⟨List.mem_of_find?_eq_some ht, hlive, user, hu, hid, hopen.1, hopen.2, ?_⟩
    intro changedAt hat
    rw [hat] at hchanged
    simpa using hchanged
  · cases h

theorem Ended.not_accepts (he : Ended s) {k : Credential} (hk : Stale s.log k) :
    ¬ Accepts s k := by
  cases k with
  | session id =>
    rintro ⟨c, token, clientIp, db', user, current, _, hauth, rfl⟩
    obtain ⟨r, hin⟩ := authenticateSession_ok hauth
    exact he.sessions r hin.mem (hin.kept.id ▸ hk) hin.live
  | code id => exact fun h => h
  | token id =>
    rintro ⟨c, token, record, user, hclock, hfound, rfl⟩
    obtain ⟨hmem, ⟨hlive, hexpires⟩, huser⟩ := usable_of_findActiveAccessToken hfound
    exact he.tokens record hmem hk ⟨⟨hlive, lt_of_le_of_lt hclock hexpires⟩, huser⟩

/-- In a run whose requests all meet the condition, no session and no access token that descends
from a credential from before the end of its user's credentials is ever accepted again. -/
theorem ended_credentials_final (p : Platform) (roles : Table Role) (employees : Table Employee)
    (clock : Instant) (calls : List Call)
    (h : Along (Service.step p) (EndsFinally p) (.initial roles employees clock) calls)
    (k : Credential) (hk : Stale ((Service.initial roles employees clock).run p calls).log k) :
    ¬ Accepts ((Service.initial roles employees clock).run p calls) k := by
  have hinv : Logged ((Service.initial roles employees clock).run p calls) ∧
      Ended ((Service.initial roles employees clock).run p calls) := by
    refine Along.invariant (I := fun s => Logged s ∧ Ended s)
      (fun s call hs hcall => ⟨hs.1.step p call, hs.2.step hs.1 hcall⟩) h ?_
    exact ⟨logged_initial roles employees clock,
      fun _ hr => absurd hr Table.not_mem_empty, fun _ ht => absurd ht Table.not_mem_empty⟩
  exact hinv.2.not_accepts hk

/-! ## Two runs -/

/-- The state after some requests, from no accounts. -/
def stateAfter (calls : List Call) : Service := (Service.initial .empty .empty 0).run .plain calls

/-- The root user consents to a client. -/
def consentCalls : List Call :=
  [.plain "a" (.setupRoot "Root" "root" "old" none none),
    .plain "b" (.registerClient "App" ["uri"]),
    .plain "c" (.session "pos_a" none (.authorize
      { clientId := "poc_b"
        redirectUri := "uri"
        responseType := "code"
        codeChallenge := "0123456789012345678901234567890123456789012"
        codeChallengeMethod := "S256"
        scope := none
        resource := none } (.error .compareDigest) true))]

def exchangeCall : Call :=
  .plain "d" (.exchangeAuthorizationCode "poc_b" "pocd_c" "uri"
    "0123456789012345678901234567890123456789012" none)

def changePasswordCall : Call := .plain "e" (.session "pos_a" none (.changePassword "old" "new"))

/-- A request without a grant, a new password or an activation meets the condition. -/
theorem endsFor_of_none (hgrant : r.grant? c s.db = none) (hpassword : r.passwordOf? c s.db = none)
    (hactivates : r.activates? = none) : EndsFor c s r where
  grant k u h := by
    rw [hgrant] at h
    cases h
  password u h := by
    rw [hpassword] at h
    cases h
  activation u h := by
    rw [hactivates] at h
    cases h

/-- The client exchanges its code, then the user changes the password. -/
theorem ended_credentials_final_exchanged :
    ¬ Accepts (stateAfter (consentCalls ++ [exchangeCall, changePasswordCall])) (.token 1) := by
  refine ended_credentials_final .plain .empty .empty 0
    (consentCalls ++ [exchangeCall, changePasswordCall])
    ⟨fun _ => endsFor_of_none rfl rfl rfl, fun _ => endsFor_of_none rfl rfl rfl,
      fun _ => endsFor_of_none rfl rfl rfl, fun _ => ⟨?_, ?_, ?_⟩, fun _ => ⟨?_, ?_, ?_⟩, trivial⟩
    (.token 1) ⟨[], .passwordChanged 2 1 1, [.exchanged 1 1 1, .consented 1 1 1, .rootCreated 1 1],
      1, .token 1, rfl, rfl, ⟨.exchanged 1 1 1, by simp, _, rfl, rfl, rfl⟩, .refl _⟩
  · intro k u _ _
    refine not_stale_of_no_ends (ε := Event) fun e he => ?_
    have he : e ∈ [Event.consented 1 1 1, .rootCreated 1 1] := he
    simp only [List.mem_cons, List.not_mem_nil, or_false] at he
    rcases he with rfl | rfl <;> rfl
  · intro u h
    cases h
  · intro u h
    cases h
  · intro k u h
    cases h
  · intro u _ t ht _ _
    have hcreated : ∀ t ∈ (stateAfter (consentCalls ++ [exchangeCall])).db.oauthTokens.rows,
        t.createdAt < (changePasswordCall.ctx .plain
          (stateAfter (consentCalls ++ [exchangeCall]))).now := by
      decide +kernel
    exact hcreated t ht
  · intro u h
    cases h

/-- The code outlives the change of the password: exchanged afterwards it gives a token that is
accepted. -/
theorem old_code_accepted :
    ¬ ∀ k, Stale (stateAfter (consentCalls ++ [changePasswordCall, exchangeCall])).log k →
      ¬ Accepts (stateAfter (consentCalls ++ [changePasswordCall, exchangeCall])) k := by
  intro h
  refine h (.token 1) ⟨[.exchanged 1 1 1], .passwordChanged 2 1 1,
    [.consented 1 1 1, .rootCreated 1 1], 1, .code 1, rfl, rfl,
    ⟨.consented 1 1 1, by simp, _, rfl, rfl, rfl⟩, ?_⟩ ?_
  · exact (Descends.refl _).tail ⟨.exchanged 1 1 1, by simp, _, rfl, rfl, rfl⟩
  · have hfound : ((findActiveAccessToken
        (exchangeCall.ctx .plain (stateAfter (consentCalls ++ [changePasswordCall, exchangeCall])))
        (stateAfter (consentCalls ++ [changePasswordCall, exchangeCall])).db "poa_d").map
          (·.1.id)) = some 1 := by
      decide +kernel
    obtain ⟨⟨record, user⟩, hfound, hid⟩ := Option.map_eq_some_iff.mp hfound
    exact ⟨_, _, record, user, Nat.le_add_right _ _, hfound, hid⟩

end Warp.Auth
