import Warp.Auth.FactorTransactions
import Warp.Infra.Undisturbed
import Mathlib.Data.List.Perm.Basic

/-!
# Recovery codes under concurrency

Taking a recovery code out of the stored list reads the list, removes one hash and writes the whole
list back. No code is accepted twice or comes back as long as a request that accepts one commits on the
list that it has read.
-/

namespace Warp.Auth

open Infra

/-- No code was accepted twice, and no accepted code is in the stored list. -/
structure RecoveryCodesOneTime (s : FactorState) : Prop where
  once : s.accepted.Nodup
  gone : ∀ userId codeHash, (userId, codeHash) ∈ s.accepted → ∀ u ∈ s.users, u.id = userId →
    codeHash ∉ u.mfaRecoveryCodeHashes

/-- Where a recovery code has been accepted, the stored list is still the one that the request has
loaded, with this code in it once. -/
def ListStillLoaded (s : FactorState) (x : FactorWrite) : Prop :=
  ∀ codeHash, x.code = some codeHash →
    (s.users.find? x.loaded.id).map (fun u => u.mfaRecoveryCodeHashes) =
        some x.loaded.mfaRecoveryCodeHashes ∧
      x.loaded.mfaRecoveryCodeHashes.count codeHash = 1

def ListsStillLoaded (s : FactorState) (writes : List FactorWrite) : Prop :=
  ∀ x ∈ writes, ListStillLoaded s x

/-! ## What a request writes -/

/-- A write that accepts a code takes it out of the list, and any other write keeps or empties it. -/
inductive FactorWrite.Sound (x : FactorWrite) : Prop where
  | kept (code : x.code = none)
      (same : x.updated.mfaRecoveryCodeHashes = x.loaded.mfaRecoveryCodeHashes)
  | emptied (code : x.code = none) (empty : x.updated.mfaRecoveryCodeHashes = [])
  | consumed (codeHash : String) (code : x.code = some codeHash)
      (present : codeHash ∈ x.loaded.mfaRecoveryCodeHashes)
      (left : x.updated.mfaRecoveryCodeHashes.Sublist x.loaded.mfaRecoveryCodeHashes)
      (fewer : x.updated.mfaRecoveryCodeHashes.count codeHash <
        x.loaded.mfaRecoveryCodeHashes.count codeHash)

theorem count_eraseIdx_lt {l : List String} {index : ℕ} {a : String} (h : l[index]? = some a) :
    (l.eraseIdx index).count a < l.count a := by
  obtain ⟨hlt, hget⟩ := List.getElem?_eq_some_iff.mp h
  have hperm := List.getElem_cons_eraseIdx_perm hlt
  rw [hget] at hperm
  rw [← hperm.count_eq, List.count_cons_self]
  exact Nat.lt_succ_self _

section

variable {c : Ctx} {user user' : User} {mfaCode recoveryCode : Option String}

/-- The check takes away the hash that `consumedCode` names. -/
theorem verifyUserFactor_code
    (h : verifyUserFactor c user mfaCode recoveryCode = .ok (some user')) (hmfa : user.mfaEnabled) :
    (consumedCode c user mfaCode recoveryCode = none ∧
        user'.mfaRecoveryCodeHashes = user.mfaRecoveryCodeHashes) ∨
      ∃ index codeHash, consumedCode c user mfaCode recoveryCode = some codeHash ∧
        user.mfaRecoveryCodeHashes[index]? = some codeHash ∧
        user'.mfaRecoveryCodeHashes = user.mfaRecoveryCodeHashes.eraseIdx index := by
  unfold verifyUserFactor at h
  split at h
  · next code ciphertext hcode hcipher =>
    refine Or.inl ⟨by simp only [consumedCode, if_pos hmfa, hcode, hcipher], ?_⟩
    split at h
    · cases h
    · rw [exceptMap_eq_ok] at h
      obtain ⟨valid, _, h⟩ := h
      split at h
      · cases h
        rfl
      · cases h
  · next hother =>
    split at h
    · cases h
    · next recovery hrecovery =>
      simp only [Except.ok.injEq, Option.map_eq_some_iff] at h
      obtain ⟨index, hindex, rfl⟩ := h
      obtain ⟨hlt, _⟩ := List.findIdx?_eq_some_iff_getElem.mp hindex
      refine Or.inr ⟨index, user.mfaRecoveryCodeHashes[index], ?_, List.getElem?_eq_getElem hlt, rfl⟩
      rw [consumedCode, if_pos hmfa]
      split
      · next code ciphertext hcode hcipher => exact absurd hcipher (hother code ciphertext hcode)
      · rw [hrecovery, Option.bind_some, hindex, Option.bind_some]
        exact List.getElem?_eq_getElem hlt

theorem checkedUser_code (h : checkedUser c user mfaCode recoveryCode = .ok (some user')) :
    (consumedCode c user mfaCode recoveryCode = none ∧
        user'.mfaRecoveryCodeHashes = user.mfaRecoveryCodeHashes) ∨
      ∃ index codeHash, consumedCode c user mfaCode recoveryCode = some codeHash ∧
        user.mfaRecoveryCodeHashes[index]? = some codeHash ∧
        user'.mfaRecoveryCodeHashes = user.mfaRecoveryCodeHashes.eraseIdx index := by
  by_cases hmfa : user.mfaEnabled
  · rw [checkedUser, if_pos hmfa] at h
    exact verifyUserFactor_code h hmfa
  · rw [checkedUser, if_neg hmfa] at h
    cases h
    exact Or.inl ⟨if_neg hmfa, rfl⟩

/-- A row with the list that the check leaves -/
theorem sound_of_checked (h : checkedUser c user mfaCode recoveryCode = .ok (some user'))
    {updated : User} (hhashes : updated.mfaRecoveryCodeHashes = user'.mfaRecoveryCodeHashes) :
    FactorWrite.Sound ⟨user, updated, consumedCode c user mfaCode recoveryCode⟩ := by
  rcases checkedUser_code h with ⟨hcode, hsame⟩ | ⟨index, codeHash, hcode, hget, herase⟩
  · exact .kept hcode (hhashes.trans hsame)
  · have hupdated : updated.mfaRecoveryCodeHashes = user.mfaRecoveryCodeHashes.eraseIdx index :=
      hhashes.trans herase
    refine .consumed codeHash hcode (List.mem_of_getElem? hget) ?_ ?_
    · rw [hupdated]
      exact List.eraseIdx_sublist _ _
    · rw [hupdated]
      exact count_eraseIdx_lt hget

theorem acceptRequest_sound {request : FactorRequest} {updated : User}
    (h : acceptRequest c user request = .ok updated) :
    FactorWrite.Sound
      ⟨user, updated, consumedCode c user request.mfaCode request.recoveryCode⟩ := by
  cases request with
  | login email password mfaCode recoveryCode clientIp =>
    simp only [acceptRequest, bind_eq_ok, orRaise_eq_ok, pure_eq_ok] at h
    obtain ⟨_, _, _, _, _, hchecked, checked, rfl, _, _, hout⟩ := h
    cases hout
    exact sound_of_checked hchecked rfl
  | reauthenticate userId password mfaCode recoveryCode =>
    simp only [acceptRequest, bind_eq_ok, orRaise_eq_ok] at h
    obtain ⟨_, _, _, hchecked, rfl⟩ := h
    exact sound_of_checked hchecked rfl
  | disableMfa userId currentPassword mfaCode recoveryCode =>
    simp only [acceptRequest, bind_eq_ok, orRaise_eq_ok, pure_eq_ok] at h
    obtain ⟨_, _, _, _, _, hchecked, checked, rfl, _, _, hout⟩ := h
    cases hout
    rcases checkedUser_code hchecked with ⟨hcode, _⟩ | ⟨index, codeHash, hcode, hget, _⟩
    · exact .emptied hcode rfl
    · have hpresent := List.mem_of_getElem? hget
      exact .consumed codeHash hcode hpresent (List.nil_sublist _)
        (List.count_pos_iff.mpr hpresent)
  | confirmPasswordReset userId newPassword mfaCode recoveryCode =>
    simp only [acceptRequest, bind_eq_ok, orRaise_eq_ok, pure_eq_ok] at h
    obtain ⟨_, _, _, hchecked, checked, rfl, _, _, _, _, hout⟩ := h
    cases hout
    exact sound_of_checked hchecked rfl

end

/-! ## The state after a write -/

section

variable {s : FactorState} {x : FactorWrite} {u : User}

theorem mem_applyFactorWrite : u ∈ (applyFactorWrite s x).users ↔
    (u ∈ s.users ∧ u.id ≠ x.loaded.id) ∨
      ∃ r ∈ s.users, r.id = x.loaded.id ∧ mergeUser x.loaded x.updated r = u := by
  rw [applyFactorWrite, Table.mem_modify_if]

/-- A write without a code takes nothing into the list. -/
theorem RecoveryCodesOneTime.keep (h : RecoveryCodesOneTime s) (hcode : x.code = none)
    (hlist : x.updated.mfaRecoveryCodeHashes = x.loaded.mfaRecoveryCodeHashes ∨
      x.updated.mfaRecoveryCodeHashes = []) :
    RecoveryCodesOneTime (applyFactorWrite s x) := by
  have haccepted : (applyFactorWrite s x).accepted = s.accepted := by
    simp [applyFactorWrite, hcode]
  refine ⟨by rw [haccepted]; exact h.once, fun userId codeHash hmem u hu hid hin => ?_⟩
  rw [haccepted] at hmem
  rcases mem_applyFactorWrite.mp hu with ⟨hu, _⟩ | ⟨r, hr, _, rfl⟩
  · exact h.gone userId codeHash hmem u hu hid hin
  · by_cases hsame : x.updated.mfaRecoveryCodeHashes = x.loaded.mfaRecoveryCodeHashes
    · simp only [mergeUser, mergeColumn_of_eq hsame] at hin
      exact h.gone userId codeHash hmem r hr hid hin
    · have hempty : (mergeUser x.loaded x.updated r).mfaRecoveryCodeHashes = [] :=
        (mergeColumn_of_ne hsame).trans (hlist.resolve_left hsame)
      rw [hempty] at hin
      exact absurd hin List.not_mem_nil

/-- A write with a code, on the list that the request has loaded -/
theorem RecoveryCodesOneTime.accept (h : RecoveryCodesOneTime s) {codeHash : String}
    (hcode : x.code = some codeHash) (hpresent : codeHash ∈ x.loaded.mfaRecoveryCodeHashes)
    (hleft : x.updated.mfaRecoveryCodeHashes.Sublist x.loaded.mfaRecoveryCodeHashes)
    (hfewer : x.updated.mfaRecoveryCodeHashes.count codeHash <
      x.loaded.mfaRecoveryCodeHashes.count codeHash) (hloaded : ListStillLoaded s x) :
    RecoveryCodesOneTime (applyFactorWrite s x) := by
  have haccepted : (applyFactorWrite s x).accepted = s.accepted ++ [(x.loaded.id, codeHash)] := by
    simp [applyFactorWrite, hcode]
  obtain ⟨hlist, honce⟩ := hloaded codeHash hcode
  obtain ⟨r, hr, hsame⟩ := Option.map_eq_some_iff.mp hlist
  obtain ⟨hr, hid⟩ := Table.find?_eq_some.mp hr
  -- nothing that has been accepted is in the list that was loaded
  have hunused : ∀ earlier ∈ x.loaded.mfaRecoveryCodeHashes, (x.loaded.id, earlier) ∉ s.accepted := by
    intro earlier hin hmem
    refine h.gone _ earlier hmem r hr hid ?_
    rw [hsame]
    exact hin
  have htaken : codeHash ∉ x.updated.mfaRecoveryCodeHashes := by
    rw [honce] at hfewer
    exact List.count_eq_zero.mp (Nat.lt_one_iff.mp hfewer)
  have hchanged : x.updated.mfaRecoveryCodeHashes ≠ x.loaded.mfaRecoveryCodeHashes :=
    fun hne => htaken (hne ▸ hpresent)
  refine ⟨?_, fun userId earlier hmem u hu hid' hin => ?_⟩
  · rw [haccepted]
    refine List.nodup_append.mpr ⟨h.once, List.nodup_singleton _, fun a ha b hb hab => ?_⟩
    rw [hab, List.mem_singleton.mp hb] at ha
    exact hunused codeHash hpresent ha
  · rw [haccepted] at hmem
    rcases mem_applyFactorWrite.mp hu with ⟨hu, hother⟩ | ⟨r', _, hrow, rfl⟩
    · -- A row of another user
      rcases List.mem_append.mp hmem with hmem | hmem
      · exact h.gone userId earlier hmem u hu hid' hin
      · cases List.mem_singleton.mp hmem
        exact hother hid'
    · have hlist : (mergeUser x.loaded x.updated r').mfaRecoveryCodeHashes =
          x.updated.mfaRecoveryCodeHashes := mergeColumn_of_ne hchanged
      rw [hlist] at hin
      rcases List.mem_append.mp hmem with hmem | hmem
      · refine hunused earlier (hleft.subset hin) ?_
        rw [← hrow, ← mergeUser_id x.loaded x.updated r', hid']
        exact hmem
      · cases List.mem_singleton.mp hmem
        exact htaken hin

theorem RecoveryCodesOneTime.write (h : RecoveryCodesOneTime s) (hx : x.Sound)
    (hloaded : ListStillLoaded s x) : RecoveryCodesOneTime (applyFactorWrite s x) := by
  cases hx with
  | kept code same => exact h.keep code (Or.inl same)
  | emptied code empty => exact h.keep code (Or.inr empty)
  | consumed codeHash code present left fewer => exact h.accept code present left fewer hloaded

end

/-! ## Runs -/

/-- A live transaction is about to check, about to write, or has written its row. -/
inductive FactorTidy : Live FactorOp FactorWrite → Prop where
  | verifying (transaction : FactorTransaction) : FactorTidy ⟨[.verify transaction], []⟩
  | updating (x : FactorWrite) (sound : x.Sound) : FactorTidy ⟨[.updateRow x], []⟩
  | written (x : FactorWrite) (sound : x.Sound) : FactorTidy ⟨[], [x]⟩
  | nothing : FactorTidy ⟨[], []⟩

def FactorTidyWorld (w : FactorWorld) : Prop :=
  ∀ (t : ℕ) l, w.fates[t]? = some (.live l) → FactorTidy l

theorem FactorTidyWorld.next {w : FactorWorld} (h : FactorTidyWorld w) (a : Action) :
    FactorTidyWorld (w.next factorCode a) := by
  refine World.live_next (fun t op todo more writes new live tidy ok => ?_) h
  cases tidy with
  | verifying transaction =>
    simp only [factorCode, runFactorOp, bind_eq_ok, pure_eq_ok] at ok
    obtain ⟨loaded, _, updated, haccept, hout⟩ := ok
    cases hout
    by_cases hsame : updated = loaded
    · rw [if_pos hsame]
      exact .nothing
    · rw [if_neg hsame]
      exact .updating _ (acceptRequest_sound haccept)
  | updating x sound =>
    simp only [factorCode, runFactorOp, bind_eq_ok, pure_eq_ok] at ok
    obtain ⟨_, _, hout⟩ := ok
    cases hout
    exact .written x sound

theorem FactorTidyWorld.init (users : Table User) (transactions : List FactorTransaction) :
    FactorTidyWorld (factorWorld users transactions) := by
  rintro t ⟨todo, writes⟩ hl
  obtain ⟨hwrites, htodo⟩ := World.init_live hl
  obtain ⟨transaction, _, hop⟩ := List.mem_map.mp htodo
  cases hwrites
  cases hop
  exact .verifying transaction

theorem FactorTidyWorld.commit {w : FactorWorld} (h : FactorTidyWorld w)
    (hp : RecoveryCodesOneTime w.committed) {t : ℕ} {writes : List FactorWrite}
    (live : w.fates[t]? = some (.live ⟨[], writes⟩)) (hloaded : ListsStillLoaded w.committed writes) :
    RecoveryCodesOneTime (writes.foldl applyFactorWrite w.committed) := by
  cases h t _ live with
  | written x sound => exact hp.write sound (hloaded x List.mem_cons_self)
  | nothing => exact hp

/-- Every recovery code is one-time in a run in which each commit that accepts one finds the list that the
request has loaded. -/
theorem recovery_codes_one_time (users : Table User) (transactions : List FactorTransaction)
    (actions : List Action)
    (h : Along (World.next factorCode) (CommitsWith ListsStillLoaded)
      (factorWorld users transactions) actions) :
    RecoveryCodesOneTime ((factorWorld users transactions).run factorCode actions).committed :=
  (World.committed_along (I := FactorTidyWorld) (fun _ a hw => hw.next a)
    (fun _ _ _ hw hp live hloaded => hw.commit hp live hloaded)
    (FactorTidyWorld.init users transactions)
    ⟨List.nodup_nil, fun _ _ hmem => absurd hmem List.not_mem_nil⟩ h).2

/-! ## Nobody commits in between -/

/-- The codes of every user are different. -/
def DistinctCodes (s : FactorState) : Prop := ∀ u ∈ s.users, u.mfaRecoveryCodeHashes.Nodup

/-- The row that a live transaction has loaded is there. -/
inductive FactorChecked (s : FactorState) : Live FactorOp FactorWrite → Prop where
  | verifying (transaction : FactorTransaction) : FactorChecked s ⟨[.verify transaction], []⟩
  | updating (x : FactorWrite) (sound : x.Sound) (loaded : x.loaded ∈ s.users) :
      FactorChecked s ⟨[.updateRow x], []⟩
  | written (x : FactorWrite) (sound : x.Sound) (loaded : x.loaded ∈ s.users) :
      FactorChecked s ⟨[], [x]⟩
  | nothing : FactorChecked s ⟨[], []⟩

theorem loadUser_mem {c : Ctx} {users : Table User} {request : FactorRequest} {loaded : User}
    (h : loadUser c users request = .ok loaded) : loaded ∈ users := by
  cases request with
  | login => exact List.mem_of_find?_eq_some (orRaise_eq_ok.mp h)
  | reauthenticate | disableMfa | confirmPasswordReset =>
    exact (Table.find?_eq_some.mp (orRaise_eq_ok.mp h)).1

theorem FactorChecked.exec {n : ℕ} {rows : List FactorLock} {s : FactorState} {op : FactorOp}
    {todo more : List FactorOp} {writes new : List FactorWrite} (h : FactorChecked s ⟨op :: todo, writes⟩)
    (ok : factorCode.exec n rows (writes.foldl factorCode.apply s) op = .ok (more, new)) :
    FactorChecked s ⟨more ++ todo, writes ++ new⟩ := by
  cases h with
  | verifying transaction =>
    simp only [factorCode, List.foldl_nil, runFactorOp, bind_eq_ok, pure_eq_ok] at ok
    obtain ⟨loaded, hload, updated, haccept, hout⟩ := ok
    cases hout
    by_cases hsame : updated = loaded
    · rw [if_pos hsame]
      exact .nothing
    · rw [if_neg hsame]
      exact .updating _ (acceptRequest_sound haccept) (loadUser_mem hload)
  | updating x sound loaded =>
    simp only [factorCode, List.foldl_nil, runFactorOp, bind_eq_ok, pure_eq_ok] at ok
    obtain ⟨_, _, hout⟩ := ok
    cases hout
    exact .written x sound loaded

theorem FactorWrite.Sound.listLoaded {s : FactorState} {x : FactorWrite} (hx : x.Sound)
    (hdistinct : DistinctCodes s) (hloaded : x.loaded ∈ s.users) : ListStillLoaded s x := by
  intro codeHash hcode
  cases hx with
  | kept code _ => exact absurd (hcode.symm.trans code) (by simp)
  | emptied code _ => exact absurd (hcode.symm.trans code) (by simp)
  | consumed _ code present _ _ =>
    obtain rfl := Option.some.inj (code.symm.trans hcode)
    refine ⟨?_, List.count_eq_one_of_mem (hdistinct _ hloaded) present⟩
    rw [show s.users.find? x.loaded.id = some x.loaded from Table.find?_key hloaded]
    rfl

theorem DistinctCodes.write {s : FactorState} {x : FactorWrite} (h : DistinctCodes s) (hx : x.Sound)
    (hloaded : x.loaded ∈ s.users) : DistinctCodes (applyFactorWrite s x) := by
  intro u hu
  have hupdated : x.updated.mfaRecoveryCodeHashes.Nodup := by
    cases hx with
    | kept _ same => exact same ▸ h _ hloaded
    | emptied _ empty => exact empty ▸ List.nodup_nil
    | consumed _ _ _ left _ => exact left.nodup (h _ hloaded)
  rcases mem_applyFactorWrite.mp hu with ⟨hu, _⟩ | ⟨r, hr, _, rfl⟩
  · exact h u hu
  · show (mergeColumn x.loaded.mfaRecoveryCodeHashes x.updated.mfaRecoveryCodeHashes
      r.mfaRecoveryCodeHashes).Nodup
    unfold mergeColumn
    split
    · exact hupdated
    · exact h r hr

/-- Where nobody commits between the check of a request and its commit, every commit finds the list that
the request has loaded. -/
theorem lists_undisturbed {users : Table User}
    (hdistinct : ∀ u ∈ users, u.mfaRecoveryCodeHashes.Nodup)
    (transactions : List FactorTransaction) {actions : List Action} (h : Undisturbed actions) :
    Along (World.next factorCode) (CommitsWith ListsStillLoaded) (factorWorld users transactions)
      actions := by
  have hinit : DistinctCodes ⟨users, []⟩ := hdistinct
  refine Undisturbed.commits (I := fun _ => DistinctCodes) (C := fun _ => FactorChecked) ⟨?_, ?_, ?_, ?_⟩ hinit h
  · intro _ s todo _ htodo
    obtain ⟨transaction, _, rfl⟩ := List.mem_map.mp htodo
    exact .verifying transaction
  · exact fun _ _ hs => ⟨hs, fun _ hchecked => hchecked⟩
  · exact fun _ _ _ _ _ _ _ _ _ hchecked ok => hchecked.exec ok
  · intro _ s writes hs hchecked
    cases hchecked with
    | written x sound loaded =>
      exact ⟨List.forall_mem_singleton.mpr (sound.listLoaded hs loaded), hs.write sound loaded⟩
    | nothing => exact ⟨fun x hx => absurd hx List.not_mem_nil, hs⟩

/-! ## One code in two requests -/

/-- A user with two recovery codes -/
def recoveringUser : User :=
  { id := 1, email := "ada@example.com", name := "Ada", passwordHash := "secret", mfaEnabled := true,
    mfaRecoveryCodeHashes := ["first", "second"] }

def recoveryCtx : Ctx := ⟨.plain, .default, .plain "drawn", seconds 1⟩

/-- A sign-in and a reauthentication with one code -/
def sharedCode : List FactorTransaction :=
  [⟨recoveryCtx, .login "ada@example.com" "secret" none (some "first") none⟩,
    ⟨recoveryCtx, .reauthenticate 1 "secret" none (some "first")⟩]

/-- Both check, the first writes and commits, and then the second. -/
def sharedRun : List Action := [.exec 0, .exec 1, .exec 0, .commit 0, .exec 1, .commit 1]

theorem recovery_code_accepted_twice : ¬RecoveryCodesOneTime
    ((factorWorld (.ofRows [recoveringUser]) sharedCode).run factorCode sharedRun).committed := by
  intro h
  have haccepted : ((factorWorld (.ofRows [recoveringUser]) sharedCode).run factorCode
      sharedRun).committed.accepted = [(1, "first"), (1, "first")] := by decide +kernel
  have once := h.once
  rw [haccepted] at once
  exact absurd once (by decide)

/-- One after the other: the reauthentication no longer finds the code. -/
def serialCodes : List Action := [.exec 0, .exec 0, .commit 0, .exec 1]

theorem recovery_codes_one_time_serial : RecoveryCodesOneTime
    ((factorWorld (.ofRows [recoveringUser]) sharedCode).run factorCode serialCodes).committed :=
  recovery_codes_one_time _ sharedCode serialCodes
    (lists_undisturbed (fun u hu => by
      obtain rfl : u = recoveringUser := List.mem_singleton.mp hu
      decide) sharedCode (by decide))

end Warp.Auth
