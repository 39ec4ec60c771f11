import Warp.Properties.CredentialEffects

/-!
# The log agrees with the tables

In every run each session, code and token is issued exactly once, to its user, from a credential
that is already there.
-/

namespace Warp.Auth

open Infra

/-- The id of a credential is used up. -/
def AuthDb.Numbered (db : AuthDb) : Credential → Prop
  | .session id => id < db.sequences.authSession
  | .code id => id < db.sequences.oauthAuthorizationCode
  | .token id => id < db.sequences.oauthToken

structure Logged (s : Service) : Prop where
  wellIssued : WellIssued s.log
  sessions : ∀ r ∈ s.db.authSessions, Issued s.log (.session r.id) r.userId
  codes : ∀ r ∈ s.db.oauthAuthorizationCodes, Issued s.log (.code r.id) r.userId
  tokens : ∀ t ∈ s.db.oauthTokens, Issued s.log (.token t.id) t.userId
  numbered : ∀ k u, Issued s.log k u → s.db.Numbered k
  owners : ∀ k u, Issued s.log k u → u < s.db.sequences.user
  users : ∀ u ∈ s.db.users, u.id < s.db.sequences.user

theorem logged_initial (roles : Table Role) (employees : Table Employee) (clock : Instant) :
    Logged (.initial roles employees clock) where
  wellIssued := trivial
  sessions _ hr := absurd hr Table.not_mem_empty
  codes _ hr := absurd hr Table.not_mem_empty
  tokens _ ht := absurd ht Table.not_mem_empty
  numbered _ _ h := absurd h not_issued_nil
  owners _ _ h := absurd h not_issued_nil
  users _ hu := absurd hu Table.not_mem_empty

variable {c : Ctx} {r : Request} {s : Service} {db db' : AuthDb} {except : Option ℕ}

theorem KeptBut.numbered (h : KeptBut except db db') {k : Credential} :
    db'.Numbered k ↔ db.Numbered k := by
  cases k with
  | session id => simp only [AuthDb.Numbered, h.authSession]
  | code id => simp only [AuthDb.Numbered, h.oauthAuthorizationCode]
  | token id => simp only [AuthDb.Numbered, h.oauthToken]

theorem KeptBut.logged (h : KeptBut except s.db db') (hs : Logged s) (clock : Instant) :
    Logged ⟨db', s.log, clock⟩ where
  wellIssued := hs.wellIssued
  sessions r' hr' := by
    obtain ⟨r, hr, hk⟩ := h.sessions r' hr'
    rw [hk.id, hk.userId]
    exact hs.sessions r hr
  codes r' hr' := by
    obtain ⟨r, hr, hk⟩ := h.codes r' hr'
    rw [hk.id, hk.userId]
    exact hs.codes r hr
  tokens t' ht' := by
    obtain ⟨t, ht, hk⟩ := h.tokens t' ht'
    rw [hk.id, hk.userId]
    exact hs.tokens t ht
  numbered k u hk := h.numbered.mpr (hs.numbered k u hk)
  owners k u hk := lt_of_lt_of_le (hs.owners k u hk) h.userSequence
  users u' hu' := by
    rcases h.users u' hu' with ⟨u, hu, hid, _⟩ | ⟨_, hlt⟩
    · exact lt_of_lt_of_le (hid ▸ hs.users u hu) h.userSequence
    · exact hlt

/-- An event that issues nothing. -/
theorem Logged.cons_of_no_issue (hs : Logged s) {e : Event} (he : e.issue = none) :
    Logged ⟨s.db, e :: s.log, s.clock⟩ := by
  have hissued : ∀ {k u}, Issued (e :: s.log) k u ↔ Issued s.log k u := by
    intro k u
    rw [issued_cons]
    refine or_iff_right ?_
    rintro ⟨i, hi, _⟩
    exact absurd (he.symm.trans hi) (by simp)
  exact
    { wellIssued := ⟨fun i hi => absurd (he.symm.trans hi) (by simp), hs.wellIssued⟩
      sessions := fun r hr => hissued.mpr (hs.sessions r hr)
      codes := fun r hr => hissued.mpr (hs.codes r hr)
      tokens := fun t ht => hissued.mpr (hs.tokens t ht)
      numbered := fun k u hk => hs.numbered k u (hissued.mp hk)
      owners := fun k u hk => hs.owners k u (hissued.mp hk)
      users := hs.users }

theorem issued_cons_of_issue {e : Event} {log : List Event} {i : Issue Credential ℕ}
    (he : e.issue = some i) {k : Credential} {u : ℕ} :
    Issued (e :: log) k u ↔ (k = i.item ∧ u = i.owner) ∨ Issued log k u := by
  rw [issued_cons]
  refine or_congr_left ⟨?_, ?_⟩
  · rintro ⟨j, hj, rfl, rfl⟩
    obtain rfl : i = j := Option.some.inj (he.symm.trans hj)
    exact ⟨rfl, rfl⟩
  · rintro ⟨rfl, rfl⟩
    exact ⟨i, he, rfl, rfl⟩

/-- An event that issues the next credential of its sequence, which is the only new row. -/
theorem Logged.cons_of_issue (hs : Logged s) {e : Event} {i : Issue Credential ℕ}
    (he : e.issue = some i) (hnew : ¬ s.db.Numbered i.item) (howner : i.owner < s.db.sequences.user)
    (hsource : ∀ a, i.source = some a → Issued s.log a i.owner)
    (hnumbered : ∀ k, k = i.item ∨ s.db.Numbered k → db'.Numbered k)
    (hsessions : ∀ r ∈ db'.authSessions,
      (.session r.id = i.item ∧ r.userId = i.owner) ∨ r ∈ s.db.authSessions)
    (hcodes : ∀ r ∈ db'.oauthAuthorizationCodes,
      (.code r.id = i.item ∧ r.userId = i.owner) ∨ r ∈ s.db.oauthAuthorizationCodes)
    (htokens : ∀ t ∈ db'.oauthTokens,
      (.token t.id = i.item ∧ t.userId = i.owner) ∨ t ∈ s.db.oauthTokens)
    (husers : db'.users = s.db.users) (hsequence : db'.sequences.user = s.db.sequences.user) :
    Logged ⟨db', e :: s.log, s.clock⟩ where
  wellIssued := by
    refine ⟨fun j hj => ?_, hs.wellIssued⟩
    obtain rfl : i = j := Option.some.inj (he.symm.trans hj)
    exact ⟨fun u hu => hnew (hs.numbered _ _ hu), hsource⟩
  sessions r hr := (issued_cons_of_issue he).mpr ((hsessions r hr).imp_right (hs.sessions r))
  codes r hr := (issued_cons_of_issue he).mpr ((hcodes r hr).imp_right (hs.codes r))
  tokens t ht := (issued_cons_of_issue he).mpr ((htokens t ht).imp_right (hs.tokens t))
  numbered k u hk :=
    hnumbered k (((issued_cons_of_issue he).mp hk).imp And.left (hs.numbered k u))
  owners k u hk := by
    rw [hsequence]
    rcases (issued_cons_of_issue he).mp hk with ⟨_, rfl⟩ | hk
    · exact howner
    · exact hs.owners k u hk
  users u hu := by
    rw [hsequence]
    exact hs.users u (husers ▸ hu)

theorem Logged.addSession (hs : Logged s) {n : AuthSession} {e : Event} {source : Option Credential}
    (hid : n.id = s.db.sequences.authSession) (huser : n.userId < s.db.sequences.user)
    (he : e.issue = some ⟨.session n.id, n.userId, source⟩)
    (hsource : ∀ a, source = some a → Issued s.log a n.userId) :
    Logged ⟨s.db.addSession n, e :: s.log, s.clock⟩ := by
  refine hs.cons_of_issue he ?_ huser hsource ?_ (fun r hr => ?_) (fun _ => Or.inr)
    (fun _ => Or.inr) rfl rfl
  · simp [AuthDb.Numbered, hid]
  · rintro k (rfl | hk)
    · show n.id < s.db.sequences.authSession + 1
      omega
    · cases k with
      | session id => exact Nat.lt_succ_of_lt hk
      | code id => exact hk
      | token id => exact hk
  · rcases mem_insert_of hr with rfl | hr
    · exact Or.inl ⟨rfl, rfl⟩
    · exact Or.inr hr

theorem Logged.addCode (hs : Logged s) {n : OAuthAuthorizationCode} {e : Event}
    {source : Option Credential} (hid : n.id = s.db.sequences.oauthAuthorizationCode)
    (huser : n.userId < s.db.sequences.user)
    (he : e.issue = some ⟨.code n.id, n.userId, source⟩)
    (hsource : ∀ a, source = some a → Issued s.log a n.userId) :
    Logged ⟨s.db.addCode n, e :: s.log, s.clock⟩ := by
  refine hs.cons_of_issue he ?_ huser hsource ?_ (fun _ => Or.inr) (fun r hr => ?_)
    (fun _ => Or.inr) rfl rfl
  · simp [AuthDb.Numbered, hid]
  · rintro k (rfl | hk)
    · show n.id < s.db.sequences.oauthAuthorizationCode + 1
      omega
    · cases k with
      | session id => exact hk
      | code id => exact Nat.lt_succ_of_lt hk
      | token id => exact hk
  · rcases mem_insert_of hr with rfl | hr
    · exact Or.inl ⟨rfl, rfl⟩
    · exact Or.inr hr

theorem Logged.addToken (hs : Logged s) {n : OAuthToken} {e : Event}
    {source : Option Credential} (hid : n.id = s.db.sequences.oauthToken)
    (huser : n.userId < s.db.sequences.user)
    (he : e.issue = some ⟨.token n.id, n.userId, source⟩)
    (hsource : ∀ a, source = some a → Issued s.log a n.userId) :
    Logged ⟨s.db.addToken n, e :: s.log, s.clock⟩ := by
  refine hs.cons_of_issue he ?_ huser hsource ?_ (fun _ => Or.inr) (fun _ => Or.inr)
    (fun t ht => ?_) rfl rfl
  · simp [AuthDb.Numbered, hid]
  · rintro k (rfl | hk)
    · show n.id < s.db.sequences.oauthToken + 1
      omega
    · cases k with
      | session id => exact hk
      | code id => exact hk
      | token id => exact Nat.lt_succ_of_lt hk
  · rcases mem_insert_of ht with rfl | ht
    · exact Or.inl ⟨rfl, rfl⟩
    · exact Or.inr ht

/-! ## One request -/

theorem Logged.issued_of_holds (hs : Logged s) {k : Credential} {userId : ℕ} {mfaVerified : Bool}
    (h : Holds s.db k userId mfaVerified) : Issued s.log k userId := by
  rcases h with ⟨r, hr, rfl, rfl, _⟩ | ⟨t, ht, rfl, rfl, _⟩
  · exact hs.codes r hr
  · exact hs.tokens t ht

theorem Effect.logged {e : Option Event} (h : Effect c s.db r db' e) (hs : Logged s)
    (clock : Instant) : Logged ⟨db', e.toList ++ s.log, clock⟩ := by
  cases h with
  | kept hkept => exact hkept.logged hs clock
  | activated hr hu hid _ _ =>
    exact (keptBut_saveUser hu hid (Or.inl rfl)).logged hs clock
  | ended h hissue _ => exact (h.kept.logged hs clock).cons_of_no_issue hissue
  | @confirmed mid r r' e hkept hr hid huser hrevoked hissue _ _ =>
    have hmid := hkept.logged hs clock
    refine Logged.cons_of_no_issue (s := ⟨mid.saveSession r', s.log, clock⟩) ?_ hissue
    refine { hmid with sessions := fun x hx => ?_ }
    rcases mem_insert_of hx with rfl | hx
    · rw [hid, huser]
      exact hmid.sessions r hr
    · exact hmid.sessions x hx
  | @opened mid n e source hkept hid huser hissue _ hsource _ =>
    have hmid := hkept.logged hs clock
    obtain ⟨u, hu, hun⟩ := huser
    refine hmid.addSession hid (hun ▸ hmid.users u hu) hissue fun a ha => ?_
    obtain ⟨x, hx, rfl, hxu, _⟩ := hsource a ha
    exact hxu ▸ hs.sessions x hx
  | @passwordChanged mid x n e h hid hx huser _ hissue _ _ =>
    have hmid := h.kept.logged hs clock
    have hsource : Issued s.log (.session x.id) n.userId := huser ▸ hs.sessions x hx
    refine hmid.addSession hid (hmid.owners _ _ hsource) hissue fun a ha => ?_
    cases ha
    exact hsource
  | @consented mid x n e hkept hid hx huser _ hissue _ _ =>
    have hmid := hkept.logged hs clock
    have hsource : Issued s.log (.session x.id) n.userId := huser ▸ hs.sessions x hx
    refine hmid.addCode hid (hmid.owners _ _ hsource) hissue fun a ha => ?_
    cases ha
    exact hsource
  | @exchanged mid k n e hkept _ hid hsource _ hissue _ =>
    have hmid := hkept.logged hs clock
    have hissued := hs.issued_of_holds hsource
    refine hmid.addToken hid (hmid.owners _ _ hissued) hissue fun a ha => ?_
    cases ha
    exact hissued

theorem Logged.step (p : Platform) (hs : Logged s) (call : Call) : Logged (s.step p call) := by
  unfold Service.step
  split
  · next h => exact (runRequest_effect h).logged hs _
  · exact (KeptBut.refl s.db : Kept s.db s.db).logged hs _

end Warp.Auth
