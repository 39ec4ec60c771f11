import Warp.Properties.LoginThrottling

/-!
# Answers to a right password

An active user who is not locked out and knows the password is refused for a wrong second factor, which
counts, and let in with a valid one. Both fail where `compare_digest` meets a character outside ASCII: in
the digits of the code, or in the address and the device of this login and the one before.
-/

namespace Warp.Auth

open Infra

/-! ## Comparing texts -/

def Ascii (text : String) : Prop := ∀ ch ∈ text.toList, ch.toNat < 128

instance (text : String) : Decidable (Ascii text) := List.decidableBAll _ _

theorem compareDigest_eq (a b : String) : compareDigest a b =
    if Ascii a ∧ Ascii b then .ok (a == b) else .error .compareDigest := by
  unfold compareDigest Ascii
  by_cases h : (∀ ch ∈ a.toList, ch.toNat < 128) ∧ ∀ ch ∈ b.toList, ch.toNat < 128
  · rw [if_pos h, if_pos (by simpa using h)]
  · rw [if_neg h, if_neg (by simpa using h)]

/-- Codes are `f"{value:06d}"` of a number under a million. -/
def SixDigits (p : Platform) : Prop :=
  ∀ secret counter, (p.hotp secret counter).length = 6 ∧ Ascii (p.hotp secret counter)

/-! ## Second factors -/

/-- The digits that `verify_totp` keeps of a code. -/
def codeDigits (code : String) : String := String.ofList (code.toList.filter isDigit)

/-- Six digits that `compare_digest` does not take. -/
def Uncomparable (code : String) : Prop :=
  (codeDigits code).length = 6 ∧ ¬Ascii (codeDigits code)

instance (code : String) : Decidable (Uncomparable code) := inferInstanceAs (Decidable (_ ∧ _))

def storedSecret? (c : Ctx) (user : User) : Option String :=
  (given? user.mfaSecretCiphertext).bind fun ciphertext => (decryptMfaSecret c ciphertext).toOption

/-- The code is that of the present half minute, of the one before or of the next. -/
def CurrentCode (c : Ctx) (user : User) (code : String) : Prop :=
  ∃ secret ∈ storedSecret? c user, ∃ offset ∈ ([-1, 0, 1] : List ℤ),
    totpCode c.platform secret ((c.now / 1000000 : ℕ) + offset * 30) = codeDigits code

def UnusedRecoveryCode (c : Ctx) (user : User) (code : String) : Prop :=
  ∃ codeHash ∈ user.mfaRecoveryCodeHashes,
    verifyPassword c codeHash (normalizeRecoveryCode c code) = true

section

variable {c : Ctx} {user : User} {secret code : String} {mfaCode recoveryCode : Option String}

theorem verifyTotp_eq (hcodes : SixDigits c.platform) : verifyTotp c secret code =
    if Uncomparable code then .error .compareDigest
    else .ok (([-1, 0, 1] : List ℤ).any fun offset =>
      totpCode c.platform secret ((c.now / 1000000 : ℕ) + offset * 30) == codeDigits code) := by
  have hcompare : ∀ offset : ℤ,
      compareDigest (totpCode c.platform secret ((c.now / 1000000 : ℕ) + offset * 30))
        (codeDigits code) = if Ascii (codeDigits code) then
          .ok (totpCode c.platform secret ((c.now / 1000000 : ℕ) + offset * 30) == codeDigits code)
        else .error .compareDigest := fun offset => by
    rw [compareDigest_eq]
    exact if_congr (and_iff_right (hcodes secret _).2) rfl rfl
  show (if (codeDigits code).length ≠ 6 then _ else _) = _
  by_cases hlength : (codeDigits code).length = 6
  · rw [if_neg (not_not.mpr hlength)]
    by_cases hascii : Ascii (codeDigits code)
    · rw [if_neg fun h => h.2 hascii]
      exact anyM_of_ok fun offset _ => (hcompare offset).trans (if_pos hascii)
    · rw [if_pos ⟨hlength, hascii⟩]
      exact anyM_cons_error ((hcompare _).trans (if_neg hascii))
  · -- no code has another number of digits
    rw [if_pos hlength, if_neg fun h => hlength h.1]
    refine congrArg _ (Eq.symm (List.any_eq_false.mpr fun offset _ he => hlength ?_))
    rw [← eq_of_beq he]
    exact (hcodes secret _).1

theorem currentCode_iff (hsecret : storedSecret? c user = some secret) :
    CurrentCode c user code ↔ (([-1, 0, 1] : List ℤ).any fun offset =>
      totpCode c.platform secret ((c.now / 1000000 : ℕ) + offset * 30) == codeDigits code) = true := by
  simp only [CurrentCode, hsecret, Option.mem_def, Option.some.injEq, exists_eq_left',
    List.any_eq_true, beq_iff_eq]

theorem verifyUserFactor_secret (hcode : given? mfaCode = some code)
    (hsecret : storedSecret? c user = some secret) :
    verifyUserFactor c user mfaCode recoveryCode =
      (verifyTotp c secret code).map fun valid => if valid then some user else none := by
  obtain ⟨ciphertext, hciphertext, hdecrypt⟩ := Option.bind_eq_some_iff.mp hsecret
  have hok : decryptMfaSecret c ciphertext = .ok secret := by
    cases h : decryptMfaSecret c ciphertext with
    | error e =>
      rw [h] at hdecrypt
      cases hdecrypt
    | ok secret' =>
      rw [h] at hdecrypt
      rw [Option.some.inj hdecrypt]
  unfold verifyUserFactor
  simp only [hcode, hciphertext, hok]

theorem verifyUserFactor_recovery
    (h : given? mfaCode = none ∨ given? user.mfaSecretCiphertext = none) :
    verifyUserFactor c user mfaCode recoveryCode =
      match given? recoveryCode with
      | none => .ok none
      | some recovery =>
        .ok ((matchingRecoveryCode? c user.mfaRecoveryCodeHashes recovery).map fun index =>
          { user with mfaRecoveryCodeHashes := user.mfaRecoveryCodeHashes.eraseIdx index }) := by
  unfold verifyUserFactor
  rcases h with h | h
  · cases given? recoveryCode <;> simp only [h]
  · cases given? mfaCode <;> cases given? recoveryCode <;> simp only [h]

theorem matchingRecoveryCode?_eq_none : matchingRecoveryCode? c user.mfaRecoveryCodeHashes code = none ↔
    ¬UnusedRecoveryCode c user code := by
  unfold matchingRecoveryCode? UnusedRecoveryCode
  rw [List.findIdx?_eq_none_iff]
  simp

/-- What a second factor without a valid code comes to. -/
theorem verifyUserFactor_wrong (hcodes : SixDigits c.platform)
    (hmfa : ∀ code ∈ given? mfaCode, ¬CurrentCode c user code)
    (hrecovery : ∀ code ∈ given? recoveryCode, ¬UnusedRecoveryCode c user code) :
    verifyUserFactor c user mfaCode recoveryCode =
      if (∃ code ∈ given? mfaCode, Uncomparable code) ∧ (storedSecret? c user).isSome then
        .error .compareDigest
      else .ok none := by
  by_cases hsecond : given? mfaCode = none ∨ given? user.mfaSecretCiphertext = none
  · -- there is nothing to compare the code with, or no code
    have hno : ¬((∃ code ∈ given? mfaCode, Uncomparable code) ∧ (storedSecret? c user).isSome) := by
      rintro ⟨⟨code, hcode, _⟩, hsecret⟩
      rcases hsecond with h | h
      · rw [h] at hcode
        cases hcode
      · rw [storedSecret?, h] at hsecret
        cases hsecret
    rw [verifyUserFactor_recovery hsecond, if_neg hno]
    cases hgiven : given? recoveryCode with
    | none => rfl
    | some recovery =>
      show Except.ok (Option.map _ _) = _
      rw [matchingRecoveryCode?_eq_none.mpr (hrecovery recovery hgiven)]
      rfl
  · obtain ⟨hcode, hciphertext⟩ := not_or.mp hsecond
    obtain ⟨code, hcode⟩ := Option.ne_none_iff_exists'.mp hcode
    obtain ⟨ciphertext, hciphertext⟩ := Option.ne_none_iff_exists'.mp hciphertext
    cases hsecret : storedSecret? c user with
    | none =>
      rw [if_neg fun h => by cases h.2]
      rw [storedSecret?, hciphertext, Option.bind_some] at hsecret
      cases h : decryptMfaSecret c ciphertext with
      | error e => simp only [verifyUserFactor, hcode, hciphertext, h]
      | ok secret =>
        rw [h] at hsecret
        cases hsecret
    | some secret =>
      rw [verifyUserFactor_secret hcode hsecret, verifyTotp_eq hcodes]
      by_cases hun : Uncomparable code
      · rw [if_pos hun, if_pos ⟨⟨code, hcode, hun⟩, rfl⟩]
        rfl
      · have hno : ¬((∃ code ∈ given? mfaCode, Uncomparable code) ∧ (some secret).isSome) := by
          rintro ⟨⟨code', hcode', hun'⟩, _⟩
          cases hcode.symm.trans hcode'
          exact hun hun'
        rw [if_neg hun, if_neg hno, Bool.eq_false_iff.mpr fun h =>
          hmfa code hcode ((currentCode_iff hsecret).mpr h)]
        rfl

end

/-! ## The right password -/

/-- An active user presents the right password, and the key is not locked. -/
structure SigningIn (c : Ctx) (db : AuthDb) (email password : String) (clientIp : Option String)
    (user : User) : Prop where
  found : db.users.rows.find? (·.email = normalizeEmail c email) = some user
  active : user.status = .active
  password : verifyPassword c user.passwordHash password = true
  free : ¬Locked db (throttleKey c (normalizeEmail c email) clientIp) c.now

/-- A login with the right password comes down to the second factor and to what it grants. -/
theorem SigningIn.authenticateHuman_eq {c : Ctx} {db : AuthDb} {email password : String}
    {clientIp : Option String} {user : User} (h : SigningIn c db email password clientIp user)
    (mfaCode recoveryCode userAgent : Option String) :
    authenticateHuman c db email password mfaCode recoveryCode clientIp userAgent =
      (checkLoginFactor c db user (throttleKey c (normalizeEmail c email) clientIp) mfaCode
        recoveryCode).bind fun checked => refuseWith db (completeLogin c db user checked
          (throttleKey c (normalizeEmail c email) clientIp) password clientIp userAgent) := by
  have hpassword : checkLoginPassword c db (normalizeEmail c email)
      (throttleKey c (normalizeEmail c email) clientIp) password = .ok user := by
    have hfilter : (some user).filter (fun u => verifyPassword c user.passwordHash password &&
        u.status = .active) = some user := by
      rw [Option.filter_some, h.password, h.active]
      rfl
    unfold checkLoginPassword
    rw [assertLoginNotThrottled_eq_ok.mpr h.free, h.found]
    show refuseWith _ (orRaise ((some user).filter _) _) = _
    rw [Option.map_some, Option.getD_some, hfilter]
    rfl
  unfold authenticateHuman
  dsimp only
  rw [hpassword]
  rfl

/-! ## Wrong second factors -/

/-- A login request that the schema admits. -/
structure HumanLoginCreate where
  email : String
  password : String
  mfaCode : Option String := none
  recoveryCode : Option String := none
  password_length : 1 ≤ password.length ∧ password.length ≤ 128
  mfaCode_length : ∀ code ∈ mfaCode, 6 ≤ code.length ∧ code.length ≤ 20
  recoveryCode_length : ∀ code ∈ recoveryCode, 8 ≤ code.length ∧ code.length ≤ 32

theorem given?_of_length {n : ℕ} {text : Option String} (h : ∀ t ∈ text, n + 1 ≤ t.length) :
    given? text = text := by
  cases text with
  | none => rfl
  | some t =>
    have hne : t ≠ "" := fun he => by
      have hlength := h t rfl
      rw [he] at hlength
      exact Nat.not_succ_le_zero n hlength
    rw [given?, Option.filter_some, if_pos (decide_eq_true hne)]

/-- The failures of the window that lasts. -/
def failuresNow (c : Ctx) (db : AuthDb) (key : String) : ℕ :=
  match db.loginThrottles.find? key with
  | none => 0
  | some record =>
    if seconds (15 * 60) ≤ c.now - record.windowStartedAt then 0 else record.failedCount

/-- The login is refused as wrong, and the database that is committed counts one more failure. -/
def RefusedAndCounted (c : Ctx) (db : AuthDb) (data : HumanLoginCreate)
    (clientIp userAgent : Option String) : Prop :=
  ∃ message code metadata db',
    authenticateHuman c db data.email data.password data.mfaCode data.recoveryCode clientIp
      userAgent = .error ⟨.authentication message code metadata, db'⟩ ∧
    loginRoute c db data.email data.password data.mfaCode data.recoveryCode clientIp userAgent =
      .ok (db', none) ∧
    ∃ record, db'.loginThrottles.find? (throttleKey c (normalizeEmail c data.email) clientIp) =
        some record ∧ record.failedCount =
          failuresNow c db (throttleKey c (normalizeEmail c data.email) clientIp) + 1

/-- A second factor that is not valid: something is given, and nothing given is a valid factor. -/
structure WrongFactor (c : Ctx) (user : User) (data : HumanLoginCreate) : Prop where
  enabled : user.mfaEnabled = true
  given : data.mfaCode.isSome ∨ data.recoveryCode.isSome
  mfaCode : ∀ code ∈ data.mfaCode, ¬CurrentCode c user code
  recoveryCode : ∀ code ∈ data.recoveryCode, ¬UnusedRecoveryCode c user code

theorem recordLoginFailure_count (c : Ctx) (db : AuthDb) (key : String) :
    ∃ record, (recordLoginFailure c db key).loginThrottles.find? key = some record ∧
      record.failedCount = failuresNow c db key + 1 := by
  have hopen : (openThrottle c db key).keyHash = key ∧
      (openThrottle c db key).failedCount = failuresNow c db key := by
    unfold openThrottle failuresNow
    cases hfind : db.loginThrottles.find? key with
    | none => exact ⟨rfl, rfl⟩
    | some record =>
      obtain ⟨_, hid⟩ := Table.find?_eq_some.mp hfind
      dsimp only
      split
      · exact ⟨hid, rfl⟩
      · exact ⟨hid, rfl⟩
  obtain ⟨hkey, hcount⟩ := hopen
  refine ⟨{ openThrottle c db key with
    failedCount := (openThrottle c db key).failedCount + 1
    lockedUntil := if 5 ≤ (openThrottle c db key).failedCount + 1 then some (c.now + seconds (15 * 60))
      else (openThrottle c db key).lockedUntil }, ?_, congrArg (· + 1) hcount⟩
  exact (congrArg _ hkey.symm).trans (Table.find?_insert_self db.loginThrottles _)

section

variable {c : Ctx} {db : AuthDb} {data : HumanLoginCreate} {clientIp userAgent : Option String}
  {user : User}

theorem HumanLoginCreate.given_mfaCode : given? data.mfaCode = data.mfaCode :=
  given?_of_length fun code hcode => (data.mfaCode_length code hcode).1

theorem HumanLoginCreate.given_recoveryCode : given? data.recoveryCode = data.recoveryCode :=
  given?_of_length fun code hcode => (data.recoveryCode_length code hcode).1

theorem authenticateHuman_wrongFactor (hcodes : SixDigits c.platform)
    (h : SigningIn c db data.email data.password clientIp user) (hwrong : WrongFactor c user data) :
    authenticateHuman c db data.email data.password data.mfaCode data.recoveryCode clientIp
      userAgent =
      if (∃ code ∈ data.mfaCode, Uncomparable code) ∧ (storedSecret? c user).isSome then
        .error ⟨.compareDigest, db⟩
      else
        .error ⟨.authentication "The verification code is invalid" "invalid_mfa_code" .none,
          recordLoginFailure c db (throttleKey c (normalizeEmail c data.email) clientIp)⟩ := by
  have hverify := @verifyUserFactor_wrong c user data.mfaCode data.recoveryCode hcodes
    (by rw [HumanLoginCreate.given_mfaCode]; exact hwrong.mfaCode)
    (by rw [HumanLoginCreate.given_recoveryCode]; exact hwrong.recoveryCode)
  rw [HumanLoginCreate.given_mfaCode] at hverify
  have hgiven : (!user.mfaEnabled || (given? data.mfaCode).isSome ||
      (given? data.recoveryCode).isSome) = true := by
    rw [HumanLoginCreate.given_mfaCode, HumanLoginCreate.given_recoveryCode, Bool.or_assoc,
      Bool.or_eq_true, Bool.or_eq_true]
    exact .inr hwrong.given
  rw [h.authenticateHuman_eq]
  unfold checkLoginFactor checkedUser
  rw [hgiven, if_pos hwrong.enabled, hverify]
  split <;> rfl

/-- The failure is counted unless the stored secret is there to be compared with a code of six digits
of which one is outside ASCII. -/
theorem wrong_factor_counted_iff (hcodes : SixDigits c.platform)
    (h : SigningIn c db data.email data.password clientIp user) (hwrong : WrongFactor c user data) :
    RefusedAndCounted c db data clientIp userAgent ↔
      ¬((∃ code ∈ data.mfaCode, Uncomparable code) ∧ (storedSecret? c user).isSome) := by
  have hanswer := @authenticateHuman_wrongFactor c db data clientIp userAgent user hcodes h hwrong
  unfold RefusedAndCounted loginRoute
  rw [hanswer]
  split
  · next hun =>
    refine iff_of_false ?_ (not_not.mpr hun)
    rintro ⟨_, _, _, _, he, _⟩
    cases he
  · next hno =>
    exact iff_of_true ⟨_, _, _, _, rfl, rfl, recordLoginFailure_count c db _⟩ hno

end

/-- The root account with its second factor set up. -/
def enrolledService : Service :=
  (Service.initial .empty .empty 0).run .plain
    [.plain "a" (.setupRoot "Root" "root" "old" none none),
      .plain "b" (.session "pos_a" none (.beginMfaSetup "old")),
      .plain "c" (.session "pos_a" none (.confirmMfaSetup "123456"))]

def enrolledRoot : User where
  id := 1
  email := "root"
  name := "Root"
  passwordHash := "old"
  isRoot := true
  mfaEnabled := true
  mfaSecretCiphertext := some "b"
  passwordChangedAt := some (seconds 1)
  lastLoginAt := some (seconds 1)

def enrolledCtx : Ctx := ⟨.plain, .default, .plain "d", seconds 4⟩

theorem sixDigits_plain : SixDigits .plain := by
  intro secret counter
  show "123456".length = 6 ∧ Ascii "123456"
  decide

theorem enrolledRoot_signingIn : SigningIn enrolledCtx enrolledService.db "root" "old" none enrolledRoot where
  found := by decide +kernel
  active := rfl
  password := by decide +kernel
  free := by
    rintro ⟨lockedUntil, hlocked, _⟩
    have hnone : (enrolledService.db.loginThrottles.find? (throttleKey enrolledCtx
        (normalizeEmail enrolledCtx "root") none)).bind (·.lockedUntil) = none := by decide +kernel
    rw [hnone] at hlocked
    cases hlocked

/-- A login of the root account with a code that is not the current one. -/
def wrongCode (code : String) (h : 6 ≤ code.length ∧ code.length ≤ 20) : HumanLoginCreate where
  email := "root"
  password := "old"
  mfaCode := some code
  password_length := by decide
  mfaCode_length := by
    rintro _ ⟨⟩
    exact h
  recoveryCode_length := by
    rintro _ ⟨⟩

theorem wrongCode_wrongFactor {code : String} (h : 6 ≤ code.length ∧ code.length ≤ 20)
    (hdigits : codeDigits code ≠ "123456") : WrongFactor enrolledCtx enrolledRoot (wrongCode code h) where
  enabled := rfl
  given := .inl rfl
  mfaCode := by
    rintro _ ⟨⟩ ⟨secret, _, offset, _, hcode⟩
    exact hdigits hcode.symm
  recoveryCode := by
    rintro _ ⟨⟩

theorem wrong_factor_counted_iff_enrolled :
    RefusedAndCounted enrolledCtx enrolledService.db (wrongCode "654321" (by decide)) none none :=
  (wrong_factor_counted_iff sixDigits_plain enrolledRoot_signingIn
    (wrongCode_wrongFactor (by decide) (by decide +kernel))).mpr (by
      rintro ⟨⟨_, ⟨⟩, hun⟩, _⟩
      exact absurd hun (by decide +kernel))

/-- Arabic digits are refused with another error, and nothing is counted. -/
theorem wrong_factor_uncounted : ¬ ∀ (c : Ctx) (db : AuthDb) (data : HumanLoginCreate)
    (clientIp userAgent : Option String) (user : User), SixDigits c.platform →
    SigningIn c db data.email data.password clientIp user → WrongFactor c user data →
    RefusedAndCounted c db data clientIp userAgent := by
  intro h
  have hlength : 6 ≤ "\u0661\u0662\u0663\u0664\u0665\u0666".length ∧
      "\u0661\u0662\u0663\u0664\u0665\u0666".length ≤ 20 := by decide
  have hwrong := wrongCode_wrongFactor hlength (by decide +kernel)
  obtain ⟨message, code, metadata, db', hrefused, _⟩ :=
    h enrolledCtx enrolledService.db _ none none enrolledRoot sixDigits_plain
      enrolledRoot_signingIn hwrong
  have hanswer := @authenticateHuman_wrongFactor enrolledCtx enrolledService.db _ none none
    enrolledRoot sixDigits_plain enrolledRoot_signingIn hwrong
  rw [if_pos ⟨⟨_, rfl, by decide +kernel⟩, by decide +kernel⟩] at hanswer
  rw [hanswer] at hrefused
  cases hrefused

end Warp.Auth
