import Warp.Auth.GrantTransactions

/-!
# Single use of grants under concurrency

Every code and every refresh token is exchanged once at most, in whatever order the requests run. The
tokens of a consent therefore form a chain with at most one live end, and none of them has more rights
than the consent gave.
-/

namespace Warp.Auth

open Infra

/-! ## What is granted -/

/-- The rights of one grant do not go beyond those of another. -/
structure Grant.Within (g granted : Grant) : Prop where
  user : g.userId = granted.userId
  client : g.clientId = granted.clientId
  resource : g.resource = granted.resource
  scopes : g.scopes ⊆ granted.scopes
  reauthenticated : g.reauthenticatedAt = granted.reauthenticatedAt
  mfa : g.mfaVerified = granted.mfaVerified

theorem Grant.Within.refl (g : Grant) : g.Within g := ⟨rfl, rfl, rfl, fun _ h => h, rfl, rfl⟩

theorem Grant.Within.trans {g g' g'' : Grant} (h : g.Within g') (h' : g'.Within g'') :
    g.Within g'' where
  user := h.user.trans h'.user
  client := h.client.trans h'.client
  resource := h.resource.trans h'.resource
  scopes := fun _ hs => h'.scopes (h.scopes hs)
  reauthenticated := h.reauthenticated.trans h'.reauthenticated
  mfa := h.mfa.trans h'.mfa

/-- The code is that of an approved consent: for this user and client, with the scopes and the resource
that the request names, and with the second factor and the reauthentication of the session. -/
structure ConsentedTo (user : User) (authSession : AuthSession) (client : OAuthClient)
    (r : AuthorizationRequest) (c : Ctx) (record : OAuthAuthorizationCode) : Prop where
  checked : checkAuthorizationRequest c client r = .ok (record.scopes, record.resource)
  user : record.userId = user.id
  client : record.clientId = r.clientId
  reauthenticated : record.reauthenticatedAt = authSession.reauthenticatedAt
  mfa : record.mfaVerified = authSession.mfaVerifiedAt.isSome

def Consented (transactions : List GrantTransaction) (record : OAuthAuthorizationCode) : Prop :=
  ∃ c user authSession client r, .consent c user authSession client r ∈ transactions ∧
    ConsentedTo user authSession client r c record

/-! ## Exchanges -/

/-- What an exchange presented. -/
def Event.presented (e : Event) : Option Credential := e.issue.bind fun i => i.source

/-- An unused code or an unrevoked token with at least these rights. -/
def GrantState.Presentable (s : GrantState) (g : Grant) : GrantKey → Prop
  | .code id => ∃ r ∈ s.codes, r.id = id ∧ r.usedAt = none ∧ g.Within r.grant
  | .token id => ∃ t ∈ s.tokens, t.id = id ∧ t.revokedAt = none ∧ g.Within t.grant

/-- The rows of committed codes and tokens, and the exchanges behind them. -/
structure GrantsSound (transactions : List GrantTransaction) (s : GrantState) : Prop where
  consented : ∀ r ∈ s.codes, Consented transactions r
  codeHashes : ∀ r ∈ s.codes, ∀ r' ∈ s.codes, r.codeHash = r'.codeHash → r = r'
  refreshHashes : ∀ t ∈ s.tokens, ∀ t' ∈ s.tokens, t.refreshTokenHash = t'.refreshTokenHash → t = t'
  once : (s.log.map Event.presented).Nodup
  usedCodes : ∀ id b, Derives s.log (.code id) b → ∃ r ∈ s.codes, r.id = id ∧ r.usedAt ≠ none
  usedTokens : ∀ id b, Derives s.log (.token id) b → ∃ t ∈ s.tokens, t.id = id ∧ t.revokedAt ≠ none
  granted : ∀ t ∈ s.tokens, ∃ r ∈ s.codes,
    Descends s.log (.code r.id) (.token t.id) ∧ t.grant.Within r.grant

section

variable {transactions : List GrantTransaction} {s : GrantState}

theorem derives_unique {log : List Event} (h : (log.map Event.presented).Nodup)
    {a b b' : Credential} (hb : Derives log a b) (hb' : Derives log a b') : b = b' := by
  obtain ⟨e, he, i, hi, hsource, rfl⟩ := hb
  obtain ⟨e', he', i', hi', hsource', rfl⟩ := hb'
  have hpresented : ∀ {e : Event} {i : Issue Credential ℕ}, Ledger.issue e = some i →
      i.source = some a → e.presented = some a := by
    intro e i hi hsource
    have hissue : e.issue = some i := hi
    rw [Event.presented, hissue, Option.bind_some, hsource]
  have heq : e = e' := List.inj_on_of_nodup_map h he he'
    ((hpresented hi hsource).trans (hpresented hi' hsource').symm)
  rw [heq] at hi
  rw [Option.some.inj (hi.symm.trans hi')]

/-- A live token is the end of its chain. -/
theorem GrantsSound.eq_of_descends (h : GrantsSound transactions s) {t t' : OAuthToken}
    (ht : t ∈ s.tokens) (ht' : t' ∈ s.tokens) (hlive : t.revokedAt = none)
    (hdesc : Descends s.log (.token t.id) (.token t'.id)) : t = t' := by
  rcases Relation.ReflTransGen.cases_head hdesc with heq | ⟨b, hb, _⟩
  · exact Table.key_inj ht ht' (Credential.token.inj heq)
  · obtain ⟨used, hused, hid, hrevoked⟩ := h.usedTokens t.id b hb
    rw [Table.key_inj hused ht hid] at hrevoked
    exact absurd hlive hrevoked

/-- At most one token of a consent is live. -/
theorem GrantsSound.one_live (h : GrantsSound transactions s) {record : OAuthAuthorizationCode}
    {t t' : OAuthToken} (ht : t ∈ s.tokens) (ht' : t' ∈ s.tokens)
    (hdesc : Descends s.log (.code record.id) (.token t.id))
    (hdesc' : Descends s.log (.code record.id) (.token t'.id)) (hlive : t.revokedAt = none)
    (hlive' : t'.revokedAt = none) : t = t' := by
  have hunique : Relator.RightUnique (Derives s.log) := fun _ _ _ hb hb' =>
    derives_unique h.once hb hb'
  rcases Relation.ReflTransGen.total_of_right_unique hunique hdesc hdesc' with hdesc | hdesc
  · exact h.eq_of_descends ht ht' hlive hdesc
  · exact (h.eq_of_descends ht' ht hlive' hdesc).symm

/-! ## Rows after an exchange -/

/-- The row of a code, which may have been used in between. -/
structure CodeRowKept (r r' : OAuthAuthorizationCode) : Prop where
  id : r'.id = r.id
  codeHash : r'.codeHash = r.codeHash
  grant : r'.grant = r.grant
  used : r.usedAt ≠ none → r'.usedAt ≠ none

/-- The row of a token, which may have been revoked in between. -/
structure TokenRowKept (t t' : OAuthToken) : Prop where
  id : t'.id = t.id
  accessTokenHash : t'.accessTokenHash = t.accessTokenHash
  refreshTokenHash : t'.refreshTokenHash = t.refreshTokenHash
  grant : t'.grant = t.grant
  revoked : t.revokedAt ≠ none → t'.revokedAt ≠ none

theorem CodeRowKept.refl (r : OAuthAuthorizationCode) : CodeRowKept r r := ⟨rfl, rfl, rfl, fun h => h⟩

theorem CodeRowKept.use (r : OAuthAuthorizationCode) (now : Instant) :
    CodeRowKept r { r with usedAt := some now } := ⟨rfl, rfl, rfl, fun _ => by simp⟩

theorem TokenRowKept.refl (t : OAuthToken) : TokenRowKept t t := ⟨rfl, rfl, rfl, rfl, fun h => h⟩

theorem TokenRowKept.revoke (t : OAuthToken) (now : Instant) :
    TokenRowKept t { t with revokedAt := some now } := ⟨rfl, rfl, rfl, rfl, fun _ => by simp⟩

theorem CodeRowKept.consented {r r' : OAuthAuthorizationCode} (h : CodeRowKept r r') :
    Consented transactions r → Consented transactions r' := by
  rintro ⟨c, user, authSession, client, request, hmem, hr⟩
  have hgrant := h.grant
  refine ⟨c, user, authSession, client, request, hmem, ?_, ?_, ?_, ?_, ?_⟩
  · rw [show r'.scopes = r.scopes from congrArg Grant.scopes hgrant,
      show r'.resource = r.resource from congrArg Grant.resource hgrant]
    exact hr.checked
  · exact (congrArg Grant.userId hgrant).trans hr.user
  · exact (congrArg Grant.clientId hgrant).trans hr.client
  · exact (congrArg Grant.reauthenticatedAt hgrant).trans hr.reauthenticated
  · exact (congrArg Grant.mfaVerified hgrant).trans hr.mfa

section

variable {key : GrantKey} {now : Instant} {token : OAuthToken}

theorem codes_exchange {r' : OAuthAuthorizationCode} (h : r' ∈ (s.exchange key now token).codes) :
    ∃ r ∈ s.codes, CodeRowKept r r' := by
  cases key with
  | code id =>
    rcases mem_useCode.mp h with ⟨hr, _⟩ | ⟨r, hr, _, rfl⟩
    · exact ⟨r', hr, .refl r'⟩
    · exact ⟨r, hr, .use r now⟩
  | token id => exact ⟨r', h, .refl r'⟩

theorem exchange_codes {r : OAuthAuthorizationCode} (h : r ∈ s.codes) :
    ∃ r' ∈ (s.exchange key now token).codes, CodeRowKept r r' := by
  cases key with
  | code id =>
    by_cases hid : r.id = id
    · exact ⟨_, mem_useCode.mpr (Or.inr ⟨r, h, hid, rfl⟩), .use r now⟩
    · exact ⟨r, mem_useCode.mpr (Or.inl ⟨h, hid⟩), .refl r⟩
  | token id => exact ⟨r, h, .refl r⟩

theorem tokens_exchange {t' : OAuthToken} (h : t' ∈ (s.exchange key now token).tokens) :
    t' = token ∨ ∃ t ∈ s.tokens, TokenRowKept t t' := by
  rcases Table.mem_insert.mp h with rfl | ⟨ht, _⟩
  · exact Or.inl rfl
  · refine Or.inr ?_
    cases key with
    | code id => exact ⟨t', ht, .refl t'⟩
    | token id =>
      rcases mem_revokeToken.mp ht with ⟨hmem, _⟩ | ⟨t, hmem, _, rfl⟩
      · exact ⟨t', hmem, .refl t'⟩
      · exact ⟨t, hmem, .revoke t now⟩

theorem exchange_tokens (hfresh : ∀ t ∈ s.tokens, t.id ≠ token.id) {t : OAuthToken}
    (h : t ∈ s.tokens) : ∃ t' ∈ (s.exchange key now token).tokens, TokenRowKept t t' := by
  have hkeep : ∀ t' : OAuthToken, t'.id = t.id →
      (t' ∈ match key with
        | .code _ => s.tokens
        | .token id => revokeToken s.tokens id now) → t' ∈ (s.exchange key now token).tokens := by
    intro t' hid ht'
    exact Table.mem_insert.mpr (Or.inr ⟨ht', fun hkey => hfresh t h (hid.symm.trans hkey)⟩)
  cases key with
  | code id => exact ⟨t, hkeep t rfl h, .refl t⟩
  | token id =>
    by_cases hid : t.id = id
    · have hrevoked : { t with revokedAt := some now } ∈ revokeToken s.tokens id now :=
        mem_revokeToken.mpr (Or.inr ⟨t, h, hid, rfl⟩)
      exact ⟨{ t with revokedAt := some now }, hkeep _ rfl hrevoked, .revoke t now⟩
    · exact ⟨t, hkeep t rfl (mem_revokeToken.mpr (Or.inl ⟨h, hid⟩)), .refl t⟩

/-- What can be presented can still be presented after something else was exchanged. -/
theorem GrantState.Presentable.exchange {g : Grant} {other : GrantKey}
    (h : s.Presentable g other) (hne : other ≠ key) (hfresh : ∀ t ∈ s.tokens, t.id ≠ token.id) :
    (s.exchange key now token).Presentable g other := by
  cases other with
  | code id =>
    obtain ⟨r, hr, hid, hunused, hg⟩ := h
    refine ⟨r, ?_, hid, hunused, hg⟩
    cases key with
    | code used =>
      refine mem_useCode.mpr (Or.inl ⟨hr, fun hused => hne ?_⟩)
      rw [← hid, ← hused]
    | token used => exact hr
  | token id =>
    obtain ⟨t, ht, hid, hlive, hg⟩ := h
    refine ⟨t, Table.mem_insert.mpr (Or.inr ⟨?_, hfresh t ht⟩), hid, hlive, hg⟩
    cases key with
    | code used => exact ht
    | token used =>
      refine mem_revokeToken.mpr (Or.inl ⟨ht, fun hused => hne ?_⟩)
      rw [← hid, ← hused]

theorem derives_exchange {a b : Credential} :
    Derives (s.exchange key now token).log a b ↔
      (a = key.credential ∧ b = .token token.id) ∨ Derives s.log a b := by
  have hissue : Ledger.issue (exchangeEvent token key) =
      some ⟨.token token.id, token.userId, some key.credential⟩ := by cases key <;> rfl
  constructor
  · rintro ⟨e, he, i, hi, hsource, hitem⟩
    rcases List.mem_cons.mp he with rfl | he
    · rw [hissue] at hi
      cases hi
      exact Or.inl ⟨(Option.some.inj hsource).symm, hitem.symm⟩
    · exact Or.inr ⟨e, he, i, hi, hsource, hitem⟩
  · rintro (⟨rfl, rfl⟩ | ⟨e, he, hi⟩)
    · exact ⟨_, List.mem_cons_self, _, hissue, rfl, rfl⟩
    · exact ⟨e, List.mem_cons_of_mem _ he, hi⟩

/-! ## Writes -/

theorem GrantsSound.insertCode (h : GrantsSound transactions s) {record : OAuthAuthorizationCode}
    (hconsented : Consented transactions record) (hid : ∀ r ∈ s.codes, r.id ≠ record.id)
    (hhash : ∀ r ∈ s.codes, r.codeHash ≠ record.codeHash) :
    GrantsSound transactions (applyGrantWrite s (.insertCode record)) := by
  have hmem : ∀ r, r ∈ s.codes.insert record ↔ r = record ∨ r ∈ s.codes := fun r =>
    Table.mem_insert_fresh hid
  refine ⟨fun r hr => ?_, fun r hr r' hr' heq => ?_, h.refreshHashes, h.once, fun id b hb => ?_,
    h.usedTokens, fun t ht => ?_⟩
  · rcases (hmem r).mp hr with rfl | hr
    · exact hconsented
    · exact h.consented r hr
  · rcases (hmem r).mp hr with rfl | hold
    · rcases (hmem r').mp hr' with rfl | hold'
      · rfl
      · exact absurd heq.symm (hhash r' hold')
    · rcases (hmem r').mp hr' with rfl | hold'
      · exact absurd heq (hhash r hold)
      · exact h.codeHashes r hold r' hold' heq
  · obtain ⟨r, hr, hused⟩ := h.usedCodes id b hb
    exact ⟨r, (hmem r).mpr (Or.inr hr), hused⟩
  · obtain ⟨r, hr, hg⟩ := h.granted t ht
    exact ⟨r, (hmem r).mpr (Or.inr hr), hg⟩

/-- What can be presented was not presented before. -/
theorem GrantsSound.not_presented (h : GrantsSound transactions s) {g : Grant}
    (hp : s.Presentable g key) : some key.credential ∉ s.log.map Event.presented := by
  intro hmem
  obtain ⟨e, he, hpresented⟩ := List.mem_map.mp hmem
  obtain ⟨i, hi, hsource⟩ := Option.bind_eq_some_iff.mp hpresented
  have hderives : Derives s.log key.credential i.item := ⟨e, he, i, hi, hsource, rfl⟩
  cases key with
  | code id =>
    obtain ⟨r, hr, hid, hunused, _⟩ := hp
    obtain ⟨used, hused, hid', hne⟩ := h.usedCodes id _ hderives
    rw [Table.key_inj hused hr (hid'.trans hid.symm)] at hne
    exact hne hunused
  | token id =>
    obtain ⟨t, ht, hid, hlive, _⟩ := hp
    obtain ⟨used, hused, hid', hne⟩ := h.usedTokens id _ hderives
    rw [Table.key_inj hused ht (hid'.trans hid.symm)] at hne
    exact hne hlive

/-- The presented code or token comes from a consent that gives at least these rights. -/
theorem GrantsSound.origin (h : GrantsSound transactions s) {g : Grant} (hp : s.Presentable g key) :
    ∃ r ∈ s.codes, Descends s.log (.code r.id) key.credential ∧ g.Within r.grant := by
  cases key with
  | code id =>
    obtain ⟨r, hr, rfl, _, hg⟩ := hp
    exact ⟨r, hr, Descends.refl _, hg⟩
  | token id =>
    obtain ⟨t, ht, rfl, _, hg⟩ := hp
    obtain ⟨r, hr, hdesc, hwithin⟩ := h.granted t ht
    exact ⟨r, hr, hdesc, hg.trans hwithin⟩

theorem GrantsSound.exchange (h : GrantsSound transactions s)
    (hp : s.Presentable token.grant key) (hfresh : ∀ t ∈ s.tokens, t.id ≠ token.id)
    (hhash : ∀ t ∈ s.tokens, t.refreshTokenHash ≠ token.refreshTokenHash) :
    GrantsSound transactions (s.exchange key now token) where
  consented r' hr' := by
    obtain ⟨r, hr, hkept⟩ := codes_exchange hr'
    exact hkept.consented (h.consented r hr)
  codeHashes r₁ hr₁ r₂ hr₂ heq := by
    obtain ⟨r, hr, hkept⟩ := codes_exchange hr₁
    obtain ⟨r', hr', hkept'⟩ := codes_exchange hr₂
    rw [hkept.codeHash, hkept'.codeHash] at heq
    refine Table.key_inj hr₁ hr₂ (hkept.id.trans (Eq.trans ?_ hkept'.id.symm))
    rw [h.codeHashes r hr r' hr' heq]
  refreshHashes t₁ ht₁ t₂ ht₂ heq := by
    rcases tokens_exchange ht₁ with rfl | ⟨t, ht, hkept⟩
    · rcases tokens_exchange ht₂ with rfl | ⟨t', ht', hkept'⟩
      · rfl
      · exact absurd (hkept'.refreshTokenHash.symm.trans heq.symm) (hhash t' ht')
    · rcases tokens_exchange ht₂ with rfl | ⟨t', ht', hkept'⟩
      · exact absurd (hkept.refreshTokenHash.symm.trans heq) (hhash t ht)
      · rw [hkept.refreshTokenHash, hkept'.refreshTokenHash] at heq
        refine Table.key_inj ht₁ ht₂ (hkept.id.trans (Eq.trans ?_ hkept'.id.symm))
        rw [h.refreshHashes t ht t' ht' heq]
  once := by
    have hpresented : (exchangeEvent token key).presented = some key.credential := by
      cases key <;> rfl
    refine List.nodup_cons.mpr ⟨?_, h.once⟩
    rw [hpresented]
    exact h.not_presented hp
  usedCodes id b hb := by
    rcases derives_exchange.mp hb with ⟨hkey, _⟩ | hb
    · cases key with
      | code used =>
        cases hkey
        obtain ⟨r, hr, hid, _⟩ := hp
        exact ⟨_, mem_useCode.mpr (Or.inr ⟨r, hr, hid, rfl⟩), hid, by simp⟩
      | token used => cases hkey
    · obtain ⟨r, hr, hid, hused⟩ := h.usedCodes id b hb
      obtain ⟨r', hr', hkept⟩ := exchange_codes hr
      exact ⟨r', hr', hkept.id.trans hid, hkept.used hused⟩
  usedTokens id b hb := by
    rcases derives_exchange.mp hb with ⟨hkey, _⟩ | hb
    · cases key with
      | code used => cases hkey
      | token used =>
        cases hkey
        obtain ⟨t, ht, hid, _⟩ := hp
        exact ⟨_, Table.mem_insert.mpr (Or.inr
          ⟨mem_revokeToken.mpr (Or.inr ⟨t, ht, hid, rfl⟩), hfresh t ht⟩), hid, by simp⟩
    · obtain ⟨t, ht, hid, hrevoked⟩ := h.usedTokens id b hb
      obtain ⟨t', ht', hkept⟩ := exchange_tokens hfresh ht
      exact ⟨t', ht', hkept.id.trans hid, hkept.revoked hrevoked⟩
  granted t' ht' := by
    have hsub : s.log ⊆ (s.exchange key now token).log := List.subset_cons_self _ _
    rcases tokens_exchange ht' with rfl | ⟨t, ht, hkept⟩
    · obtain ⟨r, hr, hdesc, hg⟩ := h.origin hp
      obtain ⟨r', hr', hkept⟩ := exchange_codes hr
      refine ⟨r', hr', ?_, by rw [hkept.grant]; exact hg⟩
      rw [hkept.id]
      exact (hdesc.mono hsub).tail (derives_exchange.mpr (Or.inl ⟨rfl, rfl⟩))
    · obtain ⟨r, hr, hdesc, hg⟩ := h.granted t ht
      obtain ⟨r', hr', hkept'⟩ := exchange_codes hr
      refine ⟨r', hr', ?_, by rw [hkept'.grant, hkept.grant]; exact hg⟩
      rw [hkept'.id, hkept.id]
      exact hdesc.mono hsub

end

end

/-! ## Stages of a transaction -/

def grantNumbers : Numbering GrantState GrantWrite where
  known s := {i | (∃ r ∈ s.codes, r.id = i) ∨ ∃ t ∈ s.tokens, t.id = i}
  mentions
    | .insertCode record => {record.id}
    | .exchange _ _ token => {token.id}
    | .refuse _ => ∅
  inserts
    | .insertCode record => {record.id}
    | .exchange _ _ token => {token.id}
    | .refuse _ => ∅

/-- How far a transaction is, with the locks it holds and what they keep true of the committed rows. -/
inductive GrantStage (transactions : List GrantTransaction) (s : GrantState)
    (held : GrantLock → Prop) : Live GrantOp GrantWrite → Prop where
  | waiting (transaction : GrantTransaction) (mem : transaction ∈ transactions) :
      GrantStage transactions s held ⟨[transaction.op], []⟩
  | issuing (c : Ctx) (key : GrantKey) (g : Grant) (locked : held (.row key))
      (presentable : s.Presentable g key) : GrantStage transactions s held ⟨[.issue c key g], []⟩
  | consented (record : OAuthAuthorizationCode) (consent : Consented transactions record)
      (locked : held (.codeHash record.codeHash))
      (new : ∀ r ∈ s.codes, r.codeHash ≠ record.codeHash) :
      GrantStage transactions s held ⟨[], [.insertCode record]⟩
  | exchanged (key : GrantKey) (now : Instant) (token : OAuthToken) (locked : held (.row key))
      (presentable : s.Presentable token.grant key)
      (lockedHash : held (.refreshHash token.refreshTokenHash))
      (new : ∀ t ∈ s.tokens, t.refreshTokenHash ≠ token.refreshTokenHash) :
      GrantStage transactions s held ⟨[], [.exchange key now token]⟩
  | refused (e : AuthError) : GrantStage transactions s held ⟨[], [.refuse e]⟩

section

variable {transactions : List GrantTransaction} {s : GrantState} {held held' : GrantLock → Prop}
variable {l : Live GrantOp GrantWrite} {clients : Table OAuthClient} {n : ℕ}

theorem GrantStage.mono (hsub : ∀ k, held k → held' k) (h : GrantStage transactions s held l) :
    GrantStage transactions s held' l := by
  cases h with
  | waiting transaction mem => exact .waiting transaction mem
  | issuing c key g locked presentable => exact .issuing c key g (hsub _ locked) presentable
  | consented record consent locked new => exact .consented record consent (hsub _ locked) new
  | exchanged key now token locked presentable lockedHash new =>
    exact .exchanged key now token (hsub _ locked) presentable (hsub _ lockedHash) new
  | refused e => exact .refused e

/-- An answered check leads on with what it found, or refuses. -/
theorem answer_cases {x : Except AuthError (List GrantOp)} {more : List GrantOp}
    {new : List GrantWrite} (h : answer x = .ok (more, new)) :
    (x = .ok more ∧ new = []) ∨ ∃ e, more = [] ∧ new = [.refuse e] := by
  unfold answer at h
  split at h
  · cases h
    exact Or.inl ⟨rfl, rfl⟩
  · cases h
    exact Or.inr ⟨_, rfl, rfl⟩
  · cases h

theorem checkCode_presentable {c : Ctx} {clientId code redirectUri codeVerifier : String}
    {resource : Option String} {record : OAuthAuthorizationCode}
    (h : checkCode c clients s.codes clientId code redirectUri codeVerifier resource = .ok record) :
    s.Presentable record.grant (.code record.id) ∧
      .row (.code record.id) ∈
        lockGrantRows clients s (.exchangeCode c clientId code redirectUri codeVerifier resource) := by
  simp only [checkCode, bind_eq_ok, ensure_eq_ok, orRaise_eq_ok, pure_eq_ok, exists_const] at h
  obtain ⟨hclient, _, hrecord, _, _, _, _, hout⟩ := h
  cases hout
  obtain ⟨hfind, hfit⟩ := Option.filter_eq_some_iff.mp hrecord
  refine ⟨⟨record, List.mem_of_find?_eq_some hfind, rfl, ?_, .refl _⟩, ?_⟩
  · simp only [Bool.and_eq_true, Option.isNone_iff_eq_none] at hfit
    exact hfit.1.2
  · rw [lockGrantRows, if_pos hclient, hfind]
    exact List.mem_singleton_self _

theorem checkRefreshToken_presentable {c : Ctx} {clientId refreshToken : String}
    {scope resource : Option String} {record : OAuthToken} {scopes : List String}
    (h : checkRefreshToken c s.tokens clientId refreshToken scope resource = .ok (record, scopes)) :
    s.Presentable { record.grant with scopes := scopes } (.token record.id) ∧
      .row (.token record.id) ∈
        lockGrantRows clients s (.exchangeRefresh c clientId refreshToken scope resource) := by
  simp only [checkRefreshToken, bind_eq_ok, ensure_eq_ok, orRaise_eq_ok, pure_eq_ok,
    exists_const] at h
  obtain ⟨_, hrecord, _, _, hscopes, _, hout⟩ := h
  cases hout
  obtain ⟨hfind, hfit⟩ := Option.filter_eq_some_iff.mp hrecord
  refine ⟨⟨record, List.mem_of_find?_eq_some hfind, rfl, ?_, rfl, rfl, rfl, ?_, rfl, rfl⟩, ?_⟩
  · simp only [Bool.and_eq_true, Option.isNone_iff_eq_none] at hfit
    exact hfit.1.2
  · intro scope hscope
    exact of_decide_eq_true (List.all_eq_true.mp hscopes scope hscope)
  · rw [lockGrantRows, hfind]
    exact List.mem_singleton_self _

/-- What a statement makes of the stage of its transaction. -/
theorem GrantStage.exec {op : GrantOp} {todo more : List GrantOp} {writes new : List GrantWrite}
    (h : GrantStage transactions s held ⟨op :: todo, writes⟩)
    (hok : runGrantOp clients n (writes.foldl applyGrantWrite s) op = .ok (more, new)) :
    GrantStage transactions s
      (fun k => held k ∨ k ∈ lockGrantRows clients (writes.foldl applyGrantWrite s) op)
      ⟨more ++ todo, writes ++ new⟩ := by
  cases h with
  | waiting transaction mem =>
    cases transaction with
    | consent c user authSession client r =>
      simp only [GrantTransaction.op, runGrantOp, bind_eq_ok, ensure_eq_ok, pure_eq_ok,
        exists_const] at hok
      obtain ⟨⟨scopes, resource⟩, hchecked, hnew, hout⟩ := hok
      cases hout
      refine .consented _ ⟨c, user, authSession, client, r, mem, hchecked, rfl, rfl, rfl, rfl⟩
        (Or.inr (List.mem_singleton_self _)) fun r hr => ?_
      exact of_decide_eq_true (List.all_eq_true.mp hnew r hr)
    | exchangeAuthorizationCode c clientId code redirectUri codeVerifier resource =>
      rcases answer_cases hok with ⟨hchecked, rfl⟩ | ⟨e, rfl, rfl⟩
      · rw [exceptMap_eq_ok] at hchecked
        obtain ⟨record, hrecord, rfl⟩ := hchecked
        obtain ⟨hpresentable, hlocked⟩ := checkCode_presentable hrecord
        exact .issuing c _ _ (Or.inr hlocked) hpresentable
      · exact .refused e
    | exchangeRefreshToken c clientId refreshToken scope resource =>
      rcases answer_cases hok with ⟨hchecked, rfl⟩ | ⟨e, rfl, rfl⟩
      · rw [exceptMap_eq_ok] at hchecked
        obtain ⟨⟨record, scopes⟩, hrecord, rfl⟩ := hchecked
        obtain ⟨hpresentable, hlocked⟩ := checkRefreshToken_presentable hrecord
        exact .issuing c _ _ (Or.inr hlocked) hpresentable
      · exact .refused e
  -- the row that was presented is locked since it was checked, so it is still unused
  | issuing c key g locked presentable =>
    simp only [runGrantOp, bind_eq_ok, ensure_eq_ok, pure_eq_ok, exists_const] at hok
    obtain ⟨hnew, hout⟩ := hok
    cases hout
    refine .exchanged key c.now (tokenRow c n g) (Or.inl locked) presentable (Or.inr ?_)
      fun t ht => ?_
    · simp [lockGrantRows, tokenRow]
    · have hboth := List.all_eq_true.mp hnew t ht
      rw [Bool.and_eq_true] at hboth
      exact of_decide_eq_true hboth.2

/-- The commit of another transaction, whose locks are others, leaves the stage as it is. -/
theorem GrantStage.afterCommit {writes : List GrantWrite} {heldOther : GrantLock → Prop}
    (hother : GrantStage transactions s heldOther ⟨[], writes⟩)
    (hfresh : ∀ x ∈ writes, ∀ i ∈ grantNumbers.inserts x, i ∉ grantNumbers.known s)
    (hapart : ∀ k, heldOther k → ¬held k) (h : GrantStage transactions s held l) :
    GrantStage transactions (writes.foldl applyGrantWrite s) held l := by
  cases hother with
  | consented record _ locked _ =>
    have hid : ∀ r ∈ s.codes, r.id ≠ record.id := fun r hr heq =>
      hfresh _ List.mem_cons_self record.id rfl (Or.inl ⟨r, hr, heq⟩)
    -- a new code row leaves every presented row as it is
    have hpresentable : ∀ {g key}, s.Presentable g key →
        (applyGrantWrite s (.insertCode record)).Presentable g key := by
      intro g key hp
      cases key with
      | code id =>
        obtain ⟨r, hr, hp⟩ := hp
        exact ⟨r, (Table.mem_insert_fresh hid).mpr (Or.inr hr), hp⟩
      | token id => exact hp
    cases h with
    | waiting transaction mem => exact .waiting transaction mem
    | issuing c key g hlocked presentable =>
      exact .issuing c key g hlocked (hpresentable presentable)
    | consented own consent hlocked new =>
      refine .consented own consent hlocked fun r hr heq => ?_
      rcases Table.mem_insert.mp hr with rfl | ⟨hr, _⟩
      · rw [← heq] at hlocked
        exact hapart _ locked hlocked
      · exact new r hr heq
    | exchanged key now token hlocked presentable hhash new =>
      exact .exchanged key now token hlocked (hpresentable presentable) hhash new
    | refused e => exact .refused e
  | exchanged used usedAt issued locked _ lockedHash _ =>
    have hid : ∀ t ∈ s.tokens, t.id ≠ issued.id := fun t ht heq =>
      hfresh _ List.mem_cons_self issued.id rfl (Or.inr ⟨t, ht, heq⟩)
    -- the exchange used up a row that this transaction does not hold
    have hpresentable : ∀ {g key}, held (.row key) → s.Presentable g key →
        (s.exchange used usedAt issued).Presentable g key := by
      intro g key hlocked hp
      refine hp.exchange (fun heq => ?_) hid
      rw [heq] at hlocked
      exact hapart _ locked hlocked
    cases h with
    | waiting transaction mem => exact .waiting transaction mem
    | issuing c key g hlocked presentable =>
      exact .issuing c key g hlocked (hpresentable hlocked presentable)
    | consented own consent hlocked new =>
      refine .consented own consent hlocked fun r' hr' heq => ?_
      obtain ⟨r, hr, hkept⟩ := codes_exchange hr'
      exact new r hr (hkept.codeHash.symm.trans heq)
    | exchanged key now token hlocked presentable hhash new =>
      refine .exchanged key now token hlocked (hpresentable hlocked presentable) hhash
        fun t' ht' heq => ?_
      rcases tokens_exchange ht' with rfl | ⟨t, ht, hkept⟩
      · rw [← heq] at hhash
        exact hapart _ lockedHash hhash
      · exact new t ht (hkept.refreshTokenHash.symm.trans heq)
    | refused e => exact .refused e
  | refused e => exact h

/-- A commit keeps the codes and tokens sound. -/
theorem GrantStage.commit {writes : List GrantWrite}
    (h : GrantStage transactions s held ⟨[], writes⟩)
    (hfresh : ∀ x ∈ writes, ∀ i ∈ grantNumbers.inserts x, i ∉ grantNumbers.known s)
    (hs : GrantsSound transactions s) :
    GrantsSound transactions (writes.foldl applyGrantWrite s) := by
  cases h with
  | consented record consent _ new =>
    refine hs.insertCode consent (fun r hr heq => ?_) new
    exact hfresh _ List.mem_cons_self record.id rfl (Or.inl ⟨r, hr, heq⟩)
  | exchanged key now token _ presentable _ new =>
    refine hs.exchange presentable (fun t ht heq => ?_) new
    exact hfresh _ List.mem_cons_self token.id rfl (Or.inr ⟨t, ht, heq⟩)
  | refused e => exact hs

end

/-! ## Numbers -/

theorem applyGrantWrite_known (s : GrantState) (x : GrantWrite) :
    grantNumbers.known (applyGrantWrite s x) ⊆
      grantNumbers.known s ∪ grantNumbers.mentions x := by
  rintro i (⟨r', hr', rfl⟩ | ⟨t', ht', rfl⟩)
  · cases x with
    | insertCode record =>
      rcases Table.mem_insert.mp hr' with rfl | ⟨hr, _⟩
      · exact Or.inr rfl
      · exact Or.inl (Or.inl ⟨r', hr, rfl⟩)
    | exchange key now token =>
      obtain ⟨r, hr, hkept⟩ := codes_exchange hr'
      exact Or.inl (Or.inl ⟨r, hr, hkept.id.symm⟩)
    | refuse e => exact Or.inl (Or.inl ⟨r', hr', rfl⟩)
  · cases x with
    | insertCode record => exact Or.inl (Or.inr ⟨t', ht', rfl⟩)
    | exchange key now token =>
      rcases tokens_exchange ht' with rfl | ⟨t, ht, hkept⟩
      · exact Or.inr rfl
      · exact Or.inl (Or.inr ⟨t, ht, hkept.id.symm⟩)
    | refuse e => exact Or.inl (Or.inr ⟨t', ht', rfl⟩)

/-- The rows that a statement writes have the number it draws. -/
theorem runGrantOp_numbers {clients : Table OAuthClient} {n : ℕ} {s : GrantState} {op : GrantOp}
    {more : List GrantOp} {new : List GrantWrite}
    (h : runGrantOp clients n s op = .ok (more, new)) {x : GrantWrite} (hx : x ∈ new) {i : ℕ}
    (hi : i ∈ grantNumbers.mentions x) : i = n := by
  cases op with
  | consent c user authSession client r =>
    simp only [runGrantOp, bind_eq_ok, pure_eq_ok] at h
    obtain ⟨_, _, _, _, hout⟩ := h
    cases hout
    rw [List.mem_singleton.mp hx] at hi
    exact hi
  | exchangeCode c clientId code redirectUri codeVerifier resource =>
    rcases answer_cases h with ⟨_, rfl⟩ | ⟨e, _, rfl⟩
    · exact absurd hx List.not_mem_nil
    · rw [List.mem_singleton.mp hx] at hi
      exact absurd hi (Set.notMem_empty i)
  | exchangeRefresh c clientId refreshToken scope resource =>
    rcases answer_cases h with ⟨_, rfl⟩ | ⟨e, _, rfl⟩
    · exact absurd hx List.not_mem_nil
    · rw [List.mem_singleton.mp hx] at hi
      exact absurd hi (Set.notMem_empty i)
  | issue c key g =>
    simp only [runGrantOp, bind_eq_ok, pure_eq_ok] at h
    obtain ⟨_, _, hout⟩ := h
    cases hout
    rw [List.mem_singleton.mp hx] at hi
    exact hi

theorem grantNumbers_respects (clients : Table OAuthClient) :
    grantNumbers.Respects (grantCode clients) where
  apply := applyGrantWrite_known
  mentions h _ hx _ hi := Or.inr (runGrantOp_numbers h hx hi)
  inserts h x hx i hi := by
    refine runGrantOp_numbers h hx ?_
    cases x with
    | insertCode record => exact hi
    | exchange key now token => exact hi
    | refuse e => exact hi

/-! ## Runs -/

structure GrantWorldSound (transactions : List GrantTransaction) (w : GrantWorld) : Prop where
  fresh : grantNumbers.Fresh w
  sound : GrantsSound transactions w.committed
  stage : ∀ (t : ℕ) l, w.fates[t]? = some (.live l) →
    GrantStage transactions w.committed (fun k => w.holder k = some t) l

theorem GrantWorldSound.next {transactions : List GrantTransaction} {w : GrantWorld}
    (clients : Table OAuthClient) (h : GrantWorldSound transactions w) (a : Action) :
    GrantWorldSound transactions (w.next (grantCode clients) a) where
  fresh := h.fresh.next (grantNumbers_respects clients) a
  sound := by
    cases a with
    | exec t =>
      rw [World.committed_exec]
      exact h.sound
    | rollback t =>
      rw [World.committed_rollback]
      exact h.sound
    | commit t =>
      refine (World.committed_commit (G := fun _ _ => True) h.sound fun writes live => ?_).mpr
        fun _ _ => trivial
      refine iff_of_true ((h.stage t _ live).commit (fun x hx => ?_) h.sound) trivial
      exact h.fresh.unpublished ⟨_, live, hx⟩
  stage := by
    refine World.stage_next (fun _ _ _ _ hsub hstage => hstage.mono hsub)
      (fun t op todo more writes new live hstage ok => hstage.exec ok)
      (fun t writes live hstage u l hu _ hl => ?_) h.stage
    refine hstage.afterCommit (fun x hx => h.fresh.unpublished ⟨_, live, hx⟩) (fun k hk hk' => ?_) hl
    exact hu (Option.some.inj (hk'.symm.trans hk))

theorem GrantWorldSound.init (transactions : List GrantTransaction) :
    GrantWorldSound transactions (grantWorld transactions) where
  fresh := by
    refine Numbering.Fresh.init ?_
    rintro i (⟨r, hr, _⟩ | ⟨t, ht, _⟩)
    · exact absurd hr Table.not_mem_empty
    · exact absurd ht Table.not_mem_empty
  sound := by
    have hnone : ∀ a b, ¬Derives ([] : List Event) a b := by
      rintro a b ⟨e, he, _⟩
      exact absurd he List.not_mem_nil
    exact ⟨fun _ hr => absurd hr Table.not_mem_empty, fun _ hr => absurd hr Table.not_mem_empty,
      fun _ ht => absurd ht Table.not_mem_empty, List.nodup_nil,
      fun id b hb => absurd hb (hnone _ b), fun id b hb => absurd hb (hnone _ b),
      fun _ ht => absurd ht Table.not_mem_empty⟩
  stage := by
    rintro t ⟨todo, writes⟩ hl
    obtain ⟨hwrites, htodo⟩ := World.init_live hl
    obtain ⟨transaction, hmem, hop⟩ := List.mem_map.mp htodo
    cases hwrites
    cases hop
    exact .waiting transaction hmem

theorem GrantWorldSound.run {transactions : List GrantTransaction} (clients : Table OAuthClient) :
    ∀ (actions : List Action) {w : GrantWorld}, GrantWorldSound transactions w →
      GrantWorldSound transactions (w.run (grantCode clients) actions)
  | [], _, h => h
  | a :: actions, _, h => run clients actions (h.next clients a)

/-- What every state of a run guarantees about codes and tokens. -/
structure GrantsSingleUse (clients : Table OAuthClient) (transactions : List GrantTransaction)
    (w : GrantWorld) : Prop where
  /-- No code and no refresh token was exchanged twice. -/
  once : (w.committed.log.map Event.presented).Nodup
  codeOfHash : ∀ r ∈ w.committed.codes, ∀ r' ∈ w.committed.codes, r.codeHash = r'.codeHash → r = r'
  tokenOfHash : ∀ t ∈ w.committed.tokens, ∀ t' ∈ w.committed.tokens,
    t.refreshTokenHash = t'.refreshTokenHash → t = t'
  oneLive : ∀ r ∈ w.committed.codes, ∀ t ∈ w.committed.tokens, ∀ t' ∈ w.committed.tokens,
    Descends w.committed.log (.code r.id) (.token t.id) →
    Descends w.committed.log (.code r.id) (.token t'.id) →
    t.revokedAt = none → t'.revokedAt = none → t = t'
  rights : ∀ t ∈ w.committed.tokens, ∃ r ∈ w.committed.codes,
    Descends w.committed.log (.code r.id) (.token t.id) ∧ t.grant.Within r.grant ∧
      Consented transactions r
  /-- The transaction of a refused request commits no change. -/
  refused : ∀ (t : ℕ) writes e, w.fates[t]? = some (.live ⟨[], writes⟩) → .refuse e ∈ writes →
    (w.next (grantCode clients) (.commit t)).committed = w.committed

/-- Whatever the order of the steps of consents and token requests, every code and every refresh token
is exchanged once at most, and no token has more rights than its consent. -/
theorem oauth_grants_single_use (clients : Table OAuthClient)
    (transactions : List GrantTransaction) (actions : List Action) :
    GrantsSingleUse clients transactions
      ((grantWorld transactions).run (grantCode clients) actions) := by
  have hsound := (GrantWorldSound.init transactions).run clients actions
  refine ⟨hsound.sound.once, hsound.sound.codeHashes, hsound.sound.refreshHashes,
    fun r _ t ht t' ht' => hsound.sound.one_live ht ht', fun t ht => ?_,
    fun t writes e live hrefuse => ?_⟩
  · obtain ⟨r, hr, hdesc, hwithin⟩ := hsound.sound.granted t ht
    exact ⟨r, hr, hdesc, hwithin, hsound.sound.consented r hr⟩
  · have honly : writes = [.refuse e] := by
      cases hsound.stage t _ live with
      | consented record _ _ _ => exact absurd hrefuse (by simp)
      | exchanged key now token _ _ _ _ => exact absurd hrefuse (by simp)
      | refused e' => rw [List.mem_singleton.mp hrefuse]
    rw [honly] at live
    simp only [World.next, World.step, live]
    rfl

/-! ## A code presented twice -/

def racingCtx (text : String) : Ctx := ⟨.plain, .default, .plain text, seconds 1⟩

def racingVerifier : String := "0123456789012345678901234567890123456789012"

def racingClient : OAuthClient := ⟨"agent", "Agent", ["https://client"]⟩

/-- A consent, and two requests that present its code -/
def racingExchanges : List GrantTransaction :=
  [.consent (racingCtx "a") { id := 7, email := "ada@example.com", name := "Ada", passwordHash := "" }
      ⟨1, 7, "", 0, seconds 9, 0, none, 0, none, none, none, none, none⟩ racingClient
      ⟨"agent", "https://client", "code", racingVerifier, "S256", none, none⟩,
    .exchangeAuthorizationCode (racingCtx "b") "agent" "pocd_a" "https://client" racingVerifier none,
    .exchangeAuthorizationCode (racingCtx "c") "agent" "pocd_a" "https://client" racingVerifier none]

-- The second request waits for the first and is refused.
example : ((grantWorld racingExchanges).run (grantCode (.ofRows [racingClient]))
    [.exec 0, .commit 0, .exec 1, .exec 2, .exec 1, .commit 1, .exec 2, .commit 2]).committed.log =
      [.exchanged 3 1 7] := by rfl

end Warp.Auth
