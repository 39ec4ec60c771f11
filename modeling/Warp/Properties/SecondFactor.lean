import Warp.Properties.CredentialLog
import Warp.Infra.Runs

/-!
# Where a verified second factor comes from

A session, code or token that counts as verified descends from a session in which a valid TOTP or
recovery code was presented, as long as nobody changes a password from a session without one.
-/

namespace Warp.Auth

open Infra

/-- Some ancestor of the credential, or itself, is a session in which a valid code of the user was
presented. -/
def FactorShown (log : List Event) (userId : ℕ) (k : Credential) : Prop :=
  ∃ a, Descends log a k ∧ ∃ e ∈ log, e.ShowsFactor userId a

/-- Everything that counts as verified has a shown factor behind it. -/
structure Verified (s : Service) : Prop where
  sessions : ∀ r ∈ s.db.authSessions, r.mfaVerifiedAt ≠ none →
    FactorShown s.log r.userId (.session r.id)
  codes : ∀ r ∈ s.db.oauthAuthorizationCodes, r.mfaVerified = true →
    FactorShown s.log r.userId (.code r.id)
  tokens : ∀ t ∈ s.db.oauthTokens, t.mfaVerified = true → FactorShown s.log t.userId (.token t.id)

variable {c : Ctx} {r : Request} {s : Service} {db' : AuthDb} {except : Option ℕ}

theorem FactorShown.mono {log log' : List Event} (h : log ⊆ log') {userId : ℕ} {k : Credential} :
    FactorShown log userId k → FactorShown log' userId k :=
  fun ⟨a, ha, e, he, hshows⟩ => ⟨a, ha.mono h, e, h he, hshows⟩

/-- What is derived from a credential inherits its ancestors. -/
theorem FactorShown.derive {log : List Event} {e : Event} {userId : ℕ} {k a : Credential}
    (he : e.issue = some ⟨k, userId, some a⟩) (h : FactorShown log userId a) :
    FactorShown (e :: log) userId k := by
  obtain ⟨b, hb, f, hf, hshows⟩ := h
  refine ⟨b, ?_, f, List.mem_cons_of_mem _ hf, hshows⟩
  exact (hb.mono (List.subset_cons_self _ _)).tail ⟨e, List.mem_cons_self, _, he, rfl, rfl⟩

theorem FactorShown.here {log : List Event} {e : Event} {userId : ℕ} {k : Credential}
    (h : e.ShowsFactor userId k) : FactorShown (e :: log) userId k :=
  ⟨k, Descends.refl k, e, List.mem_cons_self, h⟩

theorem KeptBut.verified (h : KeptBut except s.db db') (hs : Verified s) (clock : Instant) :
    Verified ⟨db', s.log, clock⟩ where
  sessions r' hr' hv := by
    obtain ⟨r, hr, hk⟩ := h.sessions r' hr'
    rw [hk.mfaVerifiedAt] at hv
    rw [hk.id, hk.userId]
    exact hs.sessions r hr hv
  codes r' hr' hv := by
    obtain ⟨r, hr, hk⟩ := h.codes r' hr'
    rw [hk.mfaVerified] at hv
    rw [hk.id, hk.userId]
    exact hs.codes r hr hv
  tokens t' ht' hv := by
    obtain ⟨t, ht, hk⟩ := h.tokens t' ht'
    rw [hk.mfaVerified] at hv
    rw [hk.id, hk.userId]
    exact hs.tokens t ht hv

theorem Verified.cons (hs : Verified s) (e : Event) : Verified ⟨s.db, e :: s.log, s.clock⟩ where
  sessions r hr hv := (hs.sessions r hr hv).mono (List.subset_cons_self _ _)
  codes r hr hv := (hs.codes r hr hv).mono (List.subset_cons_self _ _)
  tokens t ht hv := (hs.tokens t ht hv).mono (List.subset_cons_self _ _)

theorem Verified.addSession (hs : Verified s) {n : AuthSession}
    (h : n.mfaVerifiedAt ≠ none → FactorShown s.log n.userId (.session n.id)) :
    Verified ⟨s.db.addSession n, s.log, s.clock⟩ :=
  { hs with
    sessions := fun r hr hv => by
      rcases mem_insert_of hr with rfl | hr
      · exact h hv
      · exact hs.sessions r hr hv }

/-- The factor behind a verified code or token of a grant. -/
theorem Verified.of_holds (hs : Verified s) {k : Credential} {userId : ℕ}
    (h : Holds s.db k userId true) : FactorShown s.log userId k := by
  rcases h with ⟨r, hr, rfl, rfl, hv⟩ | ⟨t, ht, rfl, rfl, hv⟩
  · exact hs.codes r hr hv
  · exact hs.tokens t ht hv

theorem Effect.verified {e : Option Event} (h : Effect c s.db r db' e) (hs : Verified s)
    (hcarries : r.carriesFactor c s.db) (clock : Instant) :
    Verified ⟨db', e.toList ++ s.log, clock⟩ := by
  cases h with
  | kept hkept => exact hkept.verified hs clock
  | activated _ hu hid _ _ => exact (keptBut_saveUser hu hid (Or.inl rfl)).verified hs clock
  | ended h _ _ => exact (h.kept.verified hs clock).cons _
  | @confirmed mid x x' e hkept hx hid huser _ _ _ hshows =>
    have hmid := (hkept.verified hs clock).cons e
    refine { hmid with sessions := fun y hy hv => ?_ }
    rcases mem_insert_of hy with rfl | hy
    · exact .here hshows
    · exact hmid.sessions y hy hv
  | @opened mid n e source hkept _ _ _ _ _ hverified =>
    exact ((hkept.verified hs clock).cons e).addSession fun hv => .here (hverified hv)
  | @passwordChanged mid x n e h _ hx huser _ hissue _ hverified =>
    refine ((h.kept.verified hs clock).cons e).addSession fun hv => .derive hissue ?_
    exact huser ▸ hs.sessions x hx (hverified hcarries hv)
  | @consented mid x n e hkept _ hx huser _ hissue _ hverified =>
    have hmid := (hkept.verified hs clock).cons e
    refine { hmid with codes := fun y hy hv => ?_ }
    rcases mem_insert_of hy with rfl | hy
    · exact .derive hissue (huser ▸ hs.sessions x hx (hverified hv))
    · exact hmid.codes y hy hv
  | @exchanged mid k n e hkept _ _ hsource _ hissue _ =>
    have hmid := (hkept.verified hs clock).cons e
    refine { hmid with tokens := fun y hy hv => ?_ }
    rcases mem_insert_of hy with rfl | hy
    · exact .derive hissue (hs.of_holds (hv ▸ hsource))
    · exact hmid.tokens y hy hv

/-- The condition on a request that goes through: a user with MFA changes the password only from a
session that has shown the second factor. -/
def CarriesFactor (p : Platform) (s : Service) (call : Call) : Prop :=
  (runRequest (call.ctx p s) s.db call.request).toOption.isSome = true →
    call.request.carriesFactor (call.ctx p s) s.db = true

instance (p : Platform) (s : Service) (call : Call) : Decidable (CarriesFactor p s call) :=
  inferInstanceAs (Decidable (_ = true → _ = true))

theorem Verified.step {p : Platform} (hs : Verified s) {call : Call}
    (h : CarriesFactor p s call) : Verified (s.step p call) := by
  unfold Service.step
  split
  · next hrun => exact (runRequest_effect hrun).verified hs (h (by rw [hrun]; rfl)) _
  · exact (KeptBut.refl s.db : Kept s.db s.db).verified hs _

/-- In a run in which nobody with MFA changes the password from an unverified session, whatever
counts as verified descends from a session in which a valid code was presented. -/
theorem second_factor_provenance (p : Platform) (roles : Table Role) (employees : Table Employee)
    (clock : Instant) (calls : List Call)
    (h : Along (Service.step p) (CarriesFactor p) (.initial roles employees clock) calls) :
    Verified ((Service.initial roles employees clock).run p calls) := by
  refine Along.invariant (I := Verified) (fun _ _ hs hcall => hs.step hcall) h ?_
  exact ⟨fun _ hr => absurd hr Table.not_mem_empty, fun _ hr => absurd hr Table.not_mem_empty,
    fun _ ht => absurd ht Table.not_mem_empty⟩

/-- MFA is set up in the session that later changes the password. Another session has tried to, with a
wrong password. -/
def ownSessionCalls : List Call :=
  [.plain "a" (.setupRoot "Root" "root" "old" none none),
    .plain "b" (.login "root" "old" none none none none),
    .plain "c" (.session "pos_a" none (.beginMfaSetup "old")),
    .plain "d" (.session "pos_a" none (.confirmMfaSetup "123456")),
    .plain "e" (.session "pos_b" none (.changePassword "bad" "new")),
    .plain "f" (.session "pos_a" none (.changePassword "old" "new"))]

theorem second_factor_provenance_own_session :
    Verified ((Service.initial .empty .empty 0).run .plain ownSessionCalls) :=
  second_factor_provenance .plain .empty .empty 0 ownSessionCalls (by decide +kernel)

/-- A second session sets up MFA, then the first one, which has shown its password only, changes
the password. -/
def otherSessionCalls : List Call :=
  [.plain "a" (.setupRoot "Root" "root" "old" none none),
    .plain "b" (.login "root" "old" none none none none),
    .plain "c" (.session "pos_b" none (.beginMfaSetup "old")),
    .plain "d" (.session "pos_b" none (.confirmMfaSetup "123456")),
    .plain "e" (.session "pos_a" none (.changePassword "old" "new"))]

/-- The session whose factor an event may show. -/
def Event.showedIn? : Event → Option Credential
  | .loggedIn session .. | .reauthenticated session .. | .mfaConfirmed session .. =>
    some (.session session)
  | _ => none

theorem Event.ShowsFactor.showedIn {e : Event} {userId : ℕ} {k : Credential}
    (h : e.ShowsFactor userId k) : e.showedIn? = some k := by
  cases e with
  | loggedIn => exact congrArg some h.1.symm
  | reauthenticated => exact congrArg some h.1.symm
  | mfaConfirmed => exact congrArg some h.1.symm
  | _ => exact h.elim

/-- The new session counts as verified, but nobody has presented a code in it or in the session it
comes from. -/
theorem changed_password_verified :
    ¬ Verified ((Service.initial .empty .empty 0).run .plain otherSessionCalls) := by
  intro h
  have hsession : ∃ r ∈ ((Service.initial .empty .empty 0).run .plain
      otherSessionCalls).db.authSessions.rows, r.mfaVerifiedAt ≠ none ∧ r.id = 3 := by
    decide +kernel
  obtain ⟨r, hr, hv, hid⟩ := hsession
  obtain ⟨a, ha, e, he, hshows⟩ := h.sessions r hr hv
  rw [hid] at ha
  have hissues : ((Service.initial .empty .empty 0).run .plain otherSessionCalls).log.map
      Event.issue = [some ⟨.session 3, 1, some (.session 1)⟩, none, some ⟨.session 2, 1, none⟩,
        some ⟨.session 1, 1, none⟩] := by
    decide +kernel
  have hshown : ((Service.initial .empty .empty 0).run .plain otherSessionCalls).log.map
      Event.showedIn? = [none, some (.session 2), some (.session 2), none] := by
    decide +kernel
  have ha2 : a = .session 2 := by
    have := List.mem_map.mpr ⟨e, he, hshows.showedIn⟩
    rw [hshown] at this
    simpa using this
  have hsource : ∀ {k b}, Derives ((Service.initial .empty .empty 0).run .plain
      otherSessionCalls).log b k → b = .session 1 ∧ k = .session 3 := by
    rintro k b ⟨f, hf, i, hi, hb, rfl⟩
    have := List.mem_map.mpr ⟨f, hf, hi⟩
    rw [show List.map Ledger.issue _ = _ from hissues] at this
    simp only [List.mem_cons, Option.some.injEq, reduceCtorEq, List.not_mem_nil, or_false,
      false_or] at this
    rcases this with rfl | rfl | rfl
    · exact ⟨(Option.some.inj hb).symm, rfl⟩
    · cases hb
    · cases hb
  -- the ancestors of session 3 are itself and session 1
  rcases ha.cases_tail with h3 | ⟨b, hab, hb⟩
  · rw [ha2] at h3
    cases h3
  · obtain ⟨rfl, _⟩ := hsource hb
    rcases hab.cases_tail with h1 | ⟨_, _, hb⟩
    · rw [ha2] at h1
      cases h1
    · cases (hsource hb).2

end Warp.Auth
