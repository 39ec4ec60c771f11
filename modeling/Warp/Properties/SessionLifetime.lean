import Warp.Properties.RootOfTrust

/-!
# The life of a session

A session is opened once, by a call in which the user shows who it is, and its token is in force without a
break from then on. It is over when it is revoked, when its time is up or when it was not used for too long,
and then nothing brings it back.
-/

namespace Warp.Auth

open Infra

/-- The session is refused: it has ended, its time is up, or it was idle for too long. -/
def AuthSession.Over (idleSeconds : ℕ) (now : Instant) (s : AuthSession) : Prop :=
  s.revokedAt ≠ none ∨ s.expiresAt ≤ now ∨ seconds idleSeconds ≤ now - s.lastSeenAt

theorem AuthSession.Over.later {idleSeconds : ℕ} {now later : Instant} {s : AuthSession}
    (h : s.Over idleSeconds now) (hle : now ≤ later) : s.Over idleSeconds later := by
  rcases h with hrevoked | hexpired | hidle
  · exact Or.inl hrevoked
  · exact Or.inr (Or.inl (hexpired.trans hle))
  · exact Or.inr (Or.inr (hidle.trans (Nat.sub_le_sub_right hle _)))

/-! ## Steps -/

/-- The same session later in a request that comes with the token of the hash `used`. -/
structure Aged (c : Ctx) (used : Option String) (s s' : AuthSession) : Prop where
  userId : s'.userId = s.userId
  tokenHash : s'.tokenHash = s.tokenHash
  expiresAt : s'.expiresAt = s.expiresAt
  ended : s.Over c.settings.sessionIdleTtlSeconds c.now → s'.Over c.settings.sessionIdleTtlSeconds c.now
  seen : s'.lastSeenAt = s.lastSeenAt ∨ used = some s.tokenHash ∧ s'.lastSeenAt = c.now

/-- A session that a user of `Shows` has opened in this request. -/
structure JustOpened (c : Ctx) (Shows : ℕ → Prop) (db : AuthDb) (s : AuthSession) : Prop where
  shown : Shows s.userId
  fresh : ∀ x ∈ db.authSessions, x.tokenHash ≠ s.tokenHash
  expiresAt : s.expiresAt = c.now + seconds c.settings.sessionTtlSeconds
  seen : s.lastSeenAt = c.now

def SessionIdsDrawn (db : AuthDb) : Prop := ∀ s ∈ db.authSessions, s.id < db.sequences.authSession

section

variable {c : Ctx} {db mid db' : AuthDb} {Shows : ℕ → Prop} {used : Option String}
  {s s' s'' : AuthSession}

theorem SameSession.aged (h : SameSession s s') : Aged c used s s' where
  userId := h.userId
  tokenHash := h.tokenHash
  expiresAt := h.expiresAt
  ended := by
    rintro (hrevoked | hexpired | hidle)
    · exact Or.inl (h.ended hrevoked)
    · exact Or.inr (Or.inl (h.expiresAt ▸ hexpired))
    · exact Or.inr (Or.inr (h.lastSeenAt ▸ hidle))
  seen := Or.inl h.lastSeenAt

theorem Aged.trans (h : Aged c used s s') (h' : Aged c used s' s'') : Aged c used s s'' where
  userId := h'.userId.trans h.userId
  tokenHash := h'.tokenHash.trans h.tokenHash
  expiresAt := h'.expiresAt.trans h.expiresAt
  ended hended := h'.ended (h.ended hended)
  seen := by
    rcases h'.seen with hsame | ⟨hused, hnow⟩
    · rcases h.seen with hsame' | ⟨hused, hnow⟩
      · exact Or.inl (hsame.trans hsame')
      · exact Or.inr ⟨hused, hsame.trans hnow⟩
    · exact Or.inr ⟨hused.trans (congrArg some h.tokenHash), hnow⟩

theorem JustOpened.aged (h : JustOpened c Shows db s) (h' : Aged c used s s') :
    JustOpened c Shows db s' where
  shown := h'.userId ▸ h.shown
  fresh x hx := h'.tokenHash ▸ h.fresh x hx
  expiresAt := h'.expiresAt.trans h.expiresAt
  seen := by
    rcases h'.seen with hsame | ⟨_, hnow⟩
    · exact hsame.trans h.seen
    · exact hnow

/-- A use counts for the idle time at most once a minute. -/
theorem aged_touchSession {clientIp : Option String} (hused : used = some s.tokenHash)
    (hlive : s.revokedAt = none) (hunexpired : c.now < s.expiresAt)
    (hidle : c.now - s.lastSeenAt < seconds c.settings.sessionIdleTtlSeconds) :
    Aged c used s (touchSession c s clientIp) where
  userId := rfl
  tokenHash := rfl
  expiresAt := rfl
  ended := by
    rintro (hrevoked | hexpired | hlong)
    · exact absurd hlive hrevoked
    · exact absurd hunexpired (not_lt.mpr hexpired)
    · exact absurd hidle (not_lt.mpr hlong)
  seen := by
    show (if seconds 60 ≤ c.now - s.lastSeenAt then c.now else s.lastSeenAt) = s.lastSeenAt ∨ _
    split
    · exact Or.inr ⟨hused, if_pos ‹_›⟩
    · exact Or.inl rfl

/-- What a step does to the sessions. No token goes away. -/
structure SessionsAged (c : Ctx) (Shows : ℕ → Prop) (used : Option String) (db db' : AuthDb) : Prop where
  sessions : ∀ s' ∈ db'.authSessions, (∃ s ∈ db.authSessions, Aged c used s s') ∨
    JustOpened c Shows db s'
  present : ∀ s ∈ db.authSessions, ∃ s' ∈ db'.authSessions, s'.tokenHash = s.tokenHash
  drawn : SessionIdsDrawn db'

theorem SessionsAged.of_eq (hids : SessionIdsDrawn db) (hsessions : db'.authSessions = db.authSessions)
    (hnext : db'.sequences.authSession = db.sequences.authSession) :
    SessionsAged c Shows used db db' where
  sessions s hs := Or.inl ⟨s, hsessions ▸ hs, (SameSession.refl s).aged⟩
  present s hs := ⟨s, hsessions ▸ hs, rfl⟩
  drawn s hs := hnext ▸ hids s (hsessions ▸ hs)

theorem SessionsAged.save (hids : SessionIdsDrawn db) (hs : s ∈ db.authSessions) (hid : s'.id = s.id)
    (h : Aged c used s s') : SessionsAged c Shows used db (db.saveSession s') where
  sessions x hx := by
    rcases mem_insert_of hx with rfl | hx
    · exact Or.inl ⟨s, hs, h⟩
    · exact Or.inl ⟨x, hx, (SameSession.refl x).aged⟩
  present x hx := by
    by_cases hkey : x.id = s'.id
    · have hxs : x = s := Table.key_inj hx hs (hkey.trans hid)
      exact ⟨s', Table.mem_insert_self, hxs ▸ h.tokenHash⟩
    · exact ⟨x, Table.mem_insert.mpr (Or.inr ⟨hx, hkey⟩), rfl⟩
  drawn x hx := by
    rcases mem_insert_of hx with rfl | hx
    · exact hid ▸ hids s hs
    · exact hids x hx

theorem CredentialStep.aged (hids : SessionIdsDrawn db) (h : CredentialStep c Shows used db db') :
    SessionsAged c Shows used db db' := by
  cases h with
  | kept kept =>
    refine ⟨fun s' hs' => ?_, fun s hs => ?_, fun s' hs' => ?_⟩
    · obtain ⟨s, hs, hsame⟩ := kept.sessions s' hs'
      exact Or.inl ⟨s, hs, hsame.aged⟩
    · obtain ⟨s', hs', hsame⟩ := kept.present s hs
      exact ⟨s', hs', hsame.tokenHash⟩
    · obtain ⟨s, hs, hsame⟩ := kept.sessions s' hs'
      rw [hsame.id, kept.next]
      exact hids s hs
  | touched s clientIp mem hash live unexpired idle =>
    exact .save hids mem rfl (aged_touchSession hash live unexpired idle)
  | opened userId clientIp userAgent verified shown fresh =>
    refine ⟨fun s' hs' => ?_, fun s hs => ?_, fun s' hs' => ?_⟩
    · rcases mem_insert_of hs' with rfl | hs
      · exact Or.inr ⟨shown, fresh, rfl, rfl⟩
      · exact Or.inl ⟨s', hs, (SameSession.refl s').aged⟩
    · have hne : s.id ≠ db.sequences.authSession := (hids s hs).ne
      exact ⟨s, Table.mem_insert.mpr (Or.inr ⟨hs, hne⟩), rfl⟩
    · show s'.id < db.sequences.authSession + 1
      rcases mem_insert_of hs' with rfl | hs
      · exact Nat.lt_succ_self _
      · exact Nat.lt_succ_of_lt (hids s' hs)
  | renewed s s' mem same time shown =>
    have haged : Aged c used s { s' with reauthenticatedAt := s.reauthenticatedAt } := same.aged
    exact .save hids mem same.id
      ⟨haged.userId, haged.tokenHash, haged.expiresAt, haged.ended, haged.seen⟩
  | consented r source => exact .of_eq hids rfl rfl
  | exchanged r source => exact .of_eq hids rfl rfl

theorem CredentialSteps.aged (hids : SessionIdsDrawn db) (h : CredentialSteps c Shows used db db') :
    SessionsAged c Shows used db db' := by
  induction h with
  | refl => exact .of_eq hids rfl rfl
  | tail _ hstep ih =>
    have hlast := hstep.aged ih.drawn
    refine ⟨fun s'' hs'' => ?_, fun s hs => ?_, hlast.drawn⟩
    · rcases hlast.sessions s'' hs'' with ⟨s', hs', haged⟩ | hopened
      · rcases ih.sessions s' hs' with ⟨s, hs, hfirst⟩ | hopened
        · exact Or.inl ⟨s, hs, hfirst.trans haged⟩
        · exact Or.inr (hopened.aged haged)
      · refine Or.inr ⟨hopened.shown, fun x hx => ?_, hopened.expiresAt, hopened.seen⟩
        obtain ⟨x', hx', hhash⟩ := ih.present x hx
        exact hhash ▸ hopened.fresh x' hx'
    · obtain ⟨s', hs', hhash⟩ := ih.present s hs
      obtain ⟨s'', hs'', hhash'⟩ := hlast.present s' hs'
      exact ⟨s'', hs'', hhash'.trans hhash⟩

end

/-! ## Runs -/

/-- The call opens the session: its user shows who it is, and the token is a new one. -/
structure OpensSession (p : Platform) (s : AuthSession) (g : Gateway) (call : GatewayCall) : Prop where
  through : GoesThrough p g call
  shows : call.request.ShowsIdentity (call.ctx p g) g.db.auth s.userId
  fresh : ∀ x ∈ g.db.auth.authSessions, x.tokenHash ≠ s.tokenHash
  expiresAt : s.expiresAt = g.clock + call.elapsed + seconds call.settings.sessionTtlSeconds

/-- The call comes with the token of the session, or opens it, at the time at which it was last seen. -/
structure SeesSession (p : Platform) (s : AuthSession) (g : Gateway) (call : GatewayCall) : Prop where
  through : GoesThrough p g call
  time : s.lastSeenAt = g.clock + call.elapsed
  presents : call.request.sessionHash? (call.ctx p g) = some s.tokenHash ∨ OpensSession p s g call

/-- The session goes back to the call that has opened it, and was not over after any call in between unless
it is over at `clock`. -/
structure Lives (p : Platform) (start : Gateway) (idleSeconds : ℕ) (calls : List GatewayCall)
    (clock : Instant) (s : AuthSession) : Prop where
  opened : ∃ before opening after, calls = before ++ opening :: after ∧
    OpensSession p s (before.foldl (Gateway.step p) start) opening ∧
    ∀ since, since <+: after →
      ∃ x ∈ ((before ++ opening :: since).foldl (Gateway.step p) start).db.auth.authSessions,
        x.tokenHash = s.tokenHash ∧
          (x.Over idleSeconds ((before ++ opening :: since).foldl (Gateway.step p) start).clock →
            s.Over idleSeconds clock)
  seen : Happened (Gateway.step p) (SeesSession p s) start calls

section

variable {p : Platform} {start : Gateway} {idleSeconds : ℕ} {calls : List GatewayCall} {call : GatewayCall}
  {clock later : Instant} {s s' : AuthSession}

theorem OpensSession.congr {g : Gateway} (h : OpensSession p s g call) (huser : s'.userId = s.userId)
    (hhash : s'.tokenHash = s.tokenHash) (hexpires : s'.expiresAt = s.expiresAt) :
    OpensSession p s' g call where
  through := h.through
  shows := huser ▸ h.shows
  fresh x hx := hhash ▸ h.fresh x hx
  expiresAt := hexpires.trans h.expiresAt

/-- A session lives on through a call that ages it. -/
theorem Lives.next (h : Lives p start idleSeconds calls clock s)
    (hs' : s' ∈ ((calls ++ [call]).foldl (Gateway.step p) start).db.auth.authSessions)
    (hclock : ((calls ++ [call]).foldl (Gateway.step p) start).clock = later)
    (huser : s'.userId = s.userId) (hhash : s'.tokenHash = s.tokenHash)
    (hexpires : s'.expiresAt = s.expiresAt)
    (hover : s.Over idleSeconds clock → s'.Over idleSeconds later)
    (hseen : s'.lastSeenAt = s.lastSeenAt ∨
      SeesSession p s' (calls.foldl (Gateway.step p) start) call) :
    Lives p start idleSeconds (calls ++ [call]) later s' where
  opened := by
    obtain ⟨before, opening, after, rfl, hopens, hbetween⟩ := h.opened
    refine ⟨before, opening, after ++ [call], by simp, hopens.congr huser hhash hexpires, ?_⟩
    intro since hsince
    rcases List.prefix_concat_iff.mp hsince with rfl | hsince
    · have hlist : before ++ opening :: (after ++ [call]) = before ++ opening :: after ++ [call] := by
        simp
      rw [hlist]
      exact ⟨s', hs', rfl, fun hx => hclock ▸ hx⟩
    · obtain ⟨x, hx, hsame, hlives⟩ := hbetween since hsince
      exact ⟨x, hx, hsame.trans hhash.symm, fun hx => hover (hlives hx)⟩
  seen := by
    rcases hseen with hsame | hsees
    · obtain ⟨before, a, after, hcalls, hsees⟩ := h.seen.append [call]
      refine ⟨before, a, after, hcalls, hsees.through, hsame.trans hsees.time, ?_⟩
      rcases hsees.presents with hpresents | hopens
      · exact Or.inl (hhash ▸ hpresents)
      · exact Or.inr (hopens.congr huser hhash hexpires)
    · exact .last hsees

/-- Every session of the state lives, if the idle time has always been the same. -/
structure SessionsLive (p : Platform) (start : Gateway) (idleSeconds : ℕ) (calls : List GatewayCall)
    (g : Gateway) : Prop where
  drawn : SessionIdsDrawn g.db.auth
  lives : (∀ call ∈ calls, call.settings.sessionIdleTtlSeconds = idleSeconds) →
    ∀ s ∈ g.db.auth.authSessions, Lives p start idleSeconds calls g.clock s

theorem SessionsLive.next
    (h : SessionsLive p start idleSeconds calls (calls.foldl (Gateway.step p) start)) :
    SessionsLive p start idleSeconds (calls ++ [call])
      (Gateway.step p (calls.foldl (Gateway.step p) start) call) := by
  have hrun : (calls ++ [call]).foldl (Gateway.step p) start =
      Gateway.step p (calls.foldl (Gateway.step p) start) call := List.foldl_concat ..
  obtain ⟨g, hg⟩ : ∃ g, calls.foldl (Gateway.step p) start = g := ⟨_, rfl⟩
  rw [hg] at h hrun ⊢
  have hle : g.clock ≤ (Gateway.step p g call).clock := Nat.le_add_right _ _
  cases hcall : runGatewayRequest (call.ctx p g) call.gate g.db call.request with
  | error e =>
    have hdb : (Gateway.step p g call).db = g.db := by simp only [Gateway.step, hcall]
    refine ⟨hdb ▸ h.drawn, fun hidle s hs => ?_⟩
    have hlives := h.lives (fun a ha => hidle a (List.mem_append_left _ ha)) s (hdb ▸ hs)
    refine hlives.next (hrun ▸ hs) (hrun ▸ rfl) rfl rfl rfl (fun hover => hover.later hle) (Or.inl rfl)
  | ok db =>
    have hdb : (Gateway.step p g call).db = db := by simp only [Gateway.step, hcall]
    have haged := (runGatewayRequest_steps hcall).aged h.drawn
    refine ⟨hdb ▸ haged.drawn, fun hidle s' hs' => ?_⟩
    have hthrough : GoesThrough p g call := ⟨db, hcall⟩
    rcases haged.sessions s' (hdb ▸ hs') with ⟨s, hs, hstep⟩ | hopened
    · have hlives := h.lives (fun a ha => hidle a (List.mem_append_left _ ha)) s hs
      refine hlives.next (hrun ▸ hs') (hrun ▸ rfl) hstep.userId hstep.tokenHash hstep.expiresAt ?_ ?_
      · intro hover
        have hsame := hidle call (by simp)
        rw [← hsame] at hover ⊢
        exact hstep.ended (hover.later hle)
      · rcases hstep.seen with hsame | ⟨hused, hnow⟩
        · exact Or.inl hsame
        · exact Or.inr (hg ▸ ⟨hthrough, hnow, Or.inl (hstep.tokenHash ▸ hused)⟩)
    · have hopens : OpensSession p s' g call :=
        ⟨hthrough, hopened.shown, hopened.fresh, hopened.expiresAt⟩
      refine ⟨⟨calls, call, [], rfl, hg ▸ hopens, fun since hsince => ?_⟩, .last (hg ▸ ?_)⟩
      · rw [List.prefix_nil.mp hsince, hrun]
        exact ⟨s', hs', rfl, fun hover => hover⟩
      · exact ⟨hthrough, hopened.seen, Or.inr hopens⟩

end

theorem sessionsLive (p : Platform) (roles : Table Role) (employees : Table Employee) (clock : Instant)
    (idleSeconds : ℕ) (calls : List GatewayCall) :
    SessionsLive p (.initial roles employees clock) idleSeconds calls
      (Gateway.run p (.initial roles employees clock) calls) := by
  refine history_invariant (I := SessionsLive p (.initial roles employees clock) idleSeconds) ?_
    (fun _ _ h => h.next) calls
  exact ⟨fun s hs => absurd hs Table.not_mem_empty, fun _ s hs => absurd hs Table.not_mem_empty⟩

/-! ## Acceptance -/

/-- Some session with the token is not over. -/
def InForce (idleSeconds : ℕ) (tokenHash : String) (g : Gateway) : Prop :=
  ∃ s ∈ g.db.auth.authSessions, s.tokenHash = tokenHash ∧ ¬s.Over idleSeconds g.clock

/-- A token that is accepted was issued by a call in which its user has shown who it is, not longer ago than
a session lasts, and to nobody before. It was in force after every call since then, and was last seen
within the idle time. -/
theorem session_lives_once (p : Platform) (roles : Table Role) (employees : Table Employee) (clock : Instant)
    (calls : List GatewayCall) (c : Ctx) (token : String) (clientIp : Option String) (after : AuthDb)
    (user : User) (current : AuthSession)
    (hidle : ∀ call ∈ calls, call.settings.sessionIdleTtlSeconds = c.settings.sessionIdleTtlSeconds)
    (hlater : (Gateway.run p (.initial roles employees clock) calls).clock ≤ c.now)
    (h : authenticateSession c (Gateway.run p (.initial roles employees clock) calls).db.auth token
      clientIp = .ok (after, user, current)) :
    ∃ s ∈ (Gateway.run p (.initial roles employees clock) calls).db.auth.authSessions,
      current = touchSession c s clientIp ∧
      s.userId = user.id ∧ s.tokenHash = hashSessionToken c token ∧ c.now < s.expiresAt ∧
      c.now - s.lastSeenAt < seconds c.settings.sessionIdleTtlSeconds ∧
      Happened (Gateway.step p) (SeesSession p s) (.initial roles employees clock) calls ∧
      ∃ before opening later, calls = before ++ opening :: later ∧
        OpensSession p s (Gateway.run p (.initial roles employees clock) before) opening ∧
        ∀ since, since <+: later → InForce c.settings.sessionIdleTtlSeconds (hashSessionToken c token)
          (Gateway.run p (.initial roles employees clock) (before ++ opening :: since)) := by
  simp only [authenticateSession, bind_eq_ok, ensure_eq_ok, pure_eq_ok, orRaise_eq_ok] at h
  obtain ⟨s, hs, _, hrevoked, _, hunexpired, _, hrecent, _, hu, _, _, hout⟩ := h
  cases hout
  have hhash : s.tokenHash = hashSessionToken c token := by simpa using List.find?_some hs
  have hunexpired : c.now < s.expiresAt := of_decide_eq_true hunexpired
  have hrecent : c.now - s.lastSeenAt < seconds c.settings.sessionIdleTtlSeconds :=
    of_decide_eq_true hrecent
  -- what is accepted now was not over before
  have hnot : ¬s.Over c.settings.sessionIdleTtlSeconds
      (Gateway.run p (.initial roles employees clock) calls).clock := by
    intro hover
    rcases hover.later hlater with hended | hexpired | hlong
    · exact hended (Option.isNone_iff_eq_none.mp hrevoked)
    · exact absurd hunexpired (not_lt.mpr hexpired)
    · exact absurd hrecent (not_lt.mpr hlong)
  obtain ⟨⟨before, opening, later, hcalls, hopens, hbetween⟩, hseen⟩ :=
    (sessionsLive p roles employees clock c.settings.sessionIdleTtlSeconds calls).lives hidle s
      (List.mem_of_find?_eq_some hs)
  refine ⟨s, List.mem_of_find?_eq_some hs, rfl, (Table.find?_eq_some.mp hu).2.symm, hhash, hunexpired,
    hrecent, hseen, before, opening, later, hcalls, hopens, fun since hsince => ?_⟩
  obtain ⟨x, hx, hsame, hlives⟩ := hbetween since hsince
  exact ⟨x, hx, hsame.trans hhash, fun hover => hnot (hlives hover)⟩

/-- The session of the setup is still accepted after the root has issued a credential. -/
theorem session_lives_once_root : ∃ s : AuthSession, s.tokenHash = "pos_a" ∧
    ∃ before opening later, issuingCalls = before ++ opening :: later ∧
      OpensSession .plain s (Gateway.run .plain (.initial .empty .empty 0) before) opening := by
  have hok : (authenticateSession
      (programCall.ctx .plain (Gateway.run .plain (.initial .empty .empty 0) issuingCalls))
      (Gateway.run .plain (.initial .empty .empty 0) issuingCalls).db.auth "pos_a" none).toOption.isSome =
        true := by
    decide +kernel
  cases hrun : authenticateSession
      (programCall.ctx .plain (Gateway.run .plain (.initial .empty .empty 0) issuingCalls))
      (Gateway.run .plain (.initial .empty .empty 0) issuingCalls).db.auth "pos_a" none with
  | error e =>
    rw [hrun] at hok
    cases hok
  | ok out =>
    obtain ⟨s, _, _, _, hhash, _, _, _, before, opening, later, hcalls, hopens, _⟩ :=
      session_lives_once .plain .empty .empty 0 issuingCalls _ "pos_a" none out.1 out.2.1 out.2.2
        (by decide) (by decide +kernel) hrun
    exact ⟨s, hhash, before, opening, later, hcalls, hopens⟩

end Warp.Auth
