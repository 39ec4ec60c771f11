import Warp.Properties.AssignmentTimeline

/-!
# The assignment history

A refresh at `T` does not change what the history says about earlier instants. A row that has been
valid for some time is closed, never removed, and the open rows that go are those that are no longer
desired.
-/

namespace Warp

open Infra

/-- What the history records of a row, apart from its period. -/
def EmployeeAssignment.recorded (a : EmployeeAssignment) : ℕ × AssignmentIdentity × Explanation :=
  (a.id, a.identity, a.explanation)

/-- The row has been closed at `T`. -/
def EndedAt (db : Db) (T : DateTime) (a : EmployeeAssignment) : Prop :=
  { a with effectiveUntil := some T } ∈ db.employeeAssignments

/-- The row is gone. -/
def Deleted (db : Db) (a : EmployeeAssignment) : Prop :=
  ∀ x ∈ db.employeeAssignments, x.id ≠ a.id

/-- The states that assignment rows get into: only a refresh writes rows, and they go with their
employee. -/
inductive AssignmentHistory : Db → Prop where
  | start {db : Db} (rows : db.employeeAssignments = .empty) : AssignmentHistory db
  | refreshed {db db' : Db} {rows : List EmployeeAssignment} (employeeId : ℕ)
      (evaluationDate : Option Date) (reconciliationAt : Option DateTime) (actor : Actor)
      (desired : Option (List FinalAssignment)) (now : DateTime) (before : AssignmentHistory db)
      (ok : refreshEmployeeAssignments db employeeId evaluationDate reconciliationAt actor desired
        now = .ok (db', rows)) : AssignmentHistory db'
  | employeeDeleted {db : Db} (employeeId : ℕ) (before : AssignmentHistory db) :
      AssignmentHistory { db with
        employeeAssignments := db.employeeAssignments.filter fun a => a.employeeId ≠ employeeId }
  | elsewhere {db db' : Db} (before : AssignmentHistory db)
      (rows : db'.employeeAssignments = db.employeeAssignments)
      (sequence : db'.sequences.employeeAssignment = db.sequences.employeeAssignment) :
      AssignmentHistory db'

/-- What holds of every history. -/
structure SoundHistory (db : Db) : Prop where
  fresh : FreshAssignments db
  ranges : ∀ a ∈ db.employeeAssignments, ∀ u, a.effectiveUntil = some u → a.effectiveFrom < u
  keys : ∀ employeeId,
    ((openAssignments db employeeId).map EmployeeAssignment.assignmentKey).Nodup

/-! ## One refresh -/

section

variable {db db' : Db} {employeeId : ℕ} {T : DateTime} {items : List FinalAssignment}

/-- What an accepted refresh does. -/
theorem refresh_eq_ok {evaluationDate : Option Date} {reconciliationAt : Option DateTime}
    {actor : Actor} {desired : Option (List FinalAssignment)} {now : DateTime}
    {rows : List EmployeeAssignment} (hfresh : FreshAssignments db)
    (h : refreshEmployeeAssignments db employeeId evaluationDate reconciliationAt actor desired now =
      .ok (db', rows))
    (hT : T = reconciliationTimestamp evaluationDate reconciliationAt now) :
    (∀ a ∈ db.employeeAssignments, a.employeeId = employeeId → a.effectiveFrom ≤ T) ∧
      ∃ items, finalAssignments db employeeId (evaluationDate.getD T.date) desired = .ok items ∧
        Written db db' employeeId T (syncAssignments db employeeId items) := by
  unfold refreshEmployeeAssignments at h
  rw [← hT] at h
  cases horder : rejectOutOfOrderReconciliation db employeeId T with
  | error e =>
    rw [horder] at h
    exact absurd h (by simp)
  | ok u =>
    simp only [horder] at h
    cases hitems : finalAssignments db employeeId (evaluationDate.getD T.date) desired with
    | error e =>
      rw [hitems] at h
      exact absurd h (by simp)
    | ok items =>
      simp only [hitems] at h
      cases h
      exact ⟨rejectOutOfOrder_eq_ok.mp horder, items, rfl, writeAssignments_written hfresh⟩

/-- The open rows of the employee that end are those with a key that is not desired. -/
theorem SoundHistory.mem_ended (h : SoundHistory db) {a : EmployeeAssignment} :
    a ∈ (syncAssignments db employeeId items).ended ↔
      a ∈ openAssignments db employeeId ∧
        a.assignmentKey ∉ items.map FinalAssignment.assignmentKey := by
  rw [← mem_keys_desiredByKey]
  exact mem_ended_of_nodup (h.keys employeeId)

theorem Written.ranges (h : Written db db' employeeId T (syncAssignments db employeeId items))
    (hs : SoundHistory db)
    (hstarts : ∀ a ∈ db.employeeAssignments, a.employeeId = employeeId → a.effectiveFrom ≤ T) :
    ∀ a ∈ db'.employeeAssignments, ∀ u, a.effectiveUntil = some u → a.effectiveFrom < u := by
  intro x hx u hu
  rcases (h.rows x).mp hx with ⟨hold, _⟩ | ⟨a, ha, hne, rfl⟩ | hnew
  · exact hs.ranges x hold u hu
  · obtain ⟨hm, hid, _⟩ := mem_openAssignments.mp (Warp.mem_ended ha)
    cases hu
    exact lt_of_le_of_ne (hstarts a hm hid) hne
  · rw [(mem_newAssignments hnew).2.2.2] at hu
    exact absurd hu (by simp)

theorem Written.sound (h : Written db db' employeeId T (syncAssignments db employeeId items))
    (hs : SoundHistory db)
    (hstarts : ∀ a ∈ db.employeeAssignments, a.employeeId = employeeId → a.effectiveFrom ≤ T) :
    SoundHistory db' where
  fresh := h.fresh
  ranges := h.ranges hs hstarts
  keys e := by
    by_cases he : e = employeeId
    · rw [he]
      exact h.open_perm.nodup_iff.mpr (Dict.keys_nodup _)
    · have hopen : openAssignments db' e = openAssignments db e := by
        have hrows := h.other_rows he
        refine Table.select_congr fun x => ?_
        have hiff : x ∈ employeeRows db' e ↔ x ∈ employeeRows db e := by rw [hrows]
        rw [mem_employeeRows, mem_employeeRows] at hiff
        simp only [Bool.and_eq_true, decide_eq_true_eq, ← and_assoc, hiff]
      rw [hopen]
      exact hs.keys e

/-- Before the refresh the same rows are valid, with another stop at most. -/
theorem Written.recorded_before
    (h : Written db db' employeeId T (syncAssignments db employeeId items)) {t : DateTime}
    (ht : t < T) (e : ℕ) {r : ℕ × AssignmentIdentity × Explanation} :
    r ∈ (getEmployeeAssignmentsAsOf db' e t).map EmployeeAssignment.recorded ↔
      r ∈ (getEmployeeAssignmentsAsOf db e t).map EmployeeAssignment.recorded := by
  simp only [List.mem_map, mem_asOf, mem_employeeRows]
  constructor
  · rintro ⟨x, ⟨⟨hx, hid⟩, hvalid⟩, rfl⟩
    rcases (h.rows x).mp hx with ⟨hold, _⟩ | ⟨a, ha, _, rfl⟩ | hnew
    · exact ⟨x, ⟨⟨hold, hid⟩, hvalid⟩, rfl⟩
    · obtain ⟨hm, _, hopen⟩ := mem_openAssignments.mp (Warp.mem_ended ha)
      refine ⟨a, ⟨⟨hm, hid⟩, hvalid.1, fun u hu => ?_⟩, rfl⟩
      exact absurd (hopen.symm.trans hu) (by simp)
    · -- a new row starts at the refresh
      have hstart : x.effectiveFrom ≤ t := hvalid.1
      rw [(mem_newAssignments hnew).2.2.1] at hstart
      exact absurd hstart (not_le.mpr ht)
  · rintro ⟨a, ⟨⟨hm, hid⟩, hvalid⟩, rfl⟩
    by_cases ha : a ∈ (syncAssignments db employeeId items).ended
    · have hne : a.effectiveFrom ≠ T := by
        have hstart : a.effectiveFrom ≤ t := hvalid.1
        exact (lt_of_le_of_lt hstart ht).ne
      refine ⟨{ a with effectiveUntil := some T },
        ⟨⟨(h.rows _).mpr (Or.inr (Or.inl ⟨a, ha, hne, rfl⟩)), hid⟩, hvalid.1, fun u hu => ?_⟩, rfl⟩
      cases hu
      exact ht
    · exact ⟨a, ⟨⟨(h.rows a).mpr (Or.inl ⟨hm, ha⟩), hid⟩, hvalid⟩, rfl⟩

/-- The order of an as-of answer. -/
def recordedOrder (r : ℕ × AssignmentIdentity × Explanation) : ℕ ×ₗ String ×ₗ ℕ :=
  toLex (r.2.1.assignmentFieldDefinitionId, toLex (r.2.1.value, r.1))

theorem asOf_sorted (db : Db) (e : ℕ) (t : DateTime) :
    ((getEmployeeAssignmentsAsOf db e t).map EmployeeAssignment.recorded).Pairwise
      fun r s => recordedOrder r < recordedOrder s := by
  refine List.pairwise_map.mpr ?_
  have hsorted : (getEmployeeAssignmentsAsOf db e t).Pairwise fun a b =>
      recordedOrder a.recorded ≤ recordedOrder b.recorded := orderBy_sorted _ _
  have hnodup : (getEmployeeAssignmentsAsOf db e t).Nodup := orderBy_nodup (Table.select_nodup _ _)
  refine (hsorted.and hnodup).imp_of_mem fun {a b} ha hb hab => ?_
  refine lt_of_le_of_ne hab.1 fun he => hab.2 ?_
  have hid : a.id = b.id := by
    have hinner := congrArg (fun k => (ofLex k).2) he
    exact congrArg (fun k => (ofLex k).2) hinner
  exact Table.key_inj (mem_employeeRows.mp (mem_asOf.mp ha).1).1
    (mem_employeeRows.mp (mem_asOf.mp hb).1).1 hid

theorem Written.asOf_before
    (h : Written db db' employeeId T (syncAssignments db employeeId items)) {t : DateTime}
    (ht : t < T) (e : ℕ) :
    (getEmployeeAssignmentsAsOf db' e t).map EmployeeAssignment.recorded =
      (getEmployeeAssignmentsAsOf db e t).map EmployeeAssignment.recorded :=
  eq_of_strictly_sorted (asOf_sorted db' e t) (asOf_sorted db e t) fun _ => h.recorded_before ht e

/-- What becomes of a row that was open. -/
theorem Written.open_row (h : Written db db' employeeId T (syncAssignments db employeeId items))
    (hs : SoundHistory db) {a : EmployeeAssignment} (ha : a ∈ db.employeeAssignments)
    (hopen : a.effectiveUntil = none) :
    (a ∉ db'.employeeAssignments ↔ a.employeeId = employeeId ∧
      a.assignmentKey ∉ items.map FinalAssignment.assignmentKey) ∧
    (a ∉ db'.employeeAssignments →
      if a.effectiveFrom = T then Deleted db' a else EndedAt db' T a) := by
  have hiff : a ∉ db'.employeeAssignments ↔ a ∈ (syncAssignments db employeeId items).ended := by
    constructor
    · intro hnot
      by_contra hend
      exact hnot ((h.rows a).mpr (Or.inl ⟨ha, hend⟩))
    · intro hend hm
      rcases (h.rows a).mp hm with ⟨_, hnot⟩ | ⟨b, _, _, he⟩ | hnew
      · exact hnot hend
      · rw [he] at hopen
        exact absurd hopen (by simp)
      · exact absurd (hs.fresh a ha) (not_lt.mpr (mem_newAssignments hnew).1)
  refine ⟨?_, fun hnot => ?_⟩
  · rw [hiff, hs.mem_ended, mem_openAssignments]
    exact and_congr_left' ⟨fun hm => hm.2.1, fun hid => ⟨ha, hid, hopen⟩⟩
  · have hend := hiff.mp hnot
    split
    · next hT =>
      intro x hx hid
      rcases (h.rows x).mp hx with ⟨hold, hkept⟩ | ⟨b, hb, hne, rfl⟩ | hnew
      · rw [Table.key_inj hold ha hid] at hkept
        exact hkept hend
      · have hab : b = a := Table.key_inj (mem_openAssignments.mp (Warp.mem_ended hb)).1 ha hid
        rw [hab] at hne
        exact hne hT
      · have hlt := hs.fresh a ha
        have hle := (mem_newAssignments hnew).1
        omega
    · next hT => exact (h.rows _).mpr (Or.inr (Or.inl ⟨a, hend, hT, rfl⟩))

end

/-! ## Every history -/

theorem AssignmentHistory.sound {db : Db} (h : AssignmentHistory db) : SoundHistory db := by
  induction h with
  | @start db hrows =>
    have hopen : ∀ e, openAssignments db e = [] := by
      intro e
      rw [openAssignments, hrows]
      rfl
    refine ⟨fun a ha => ?_, fun a ha => ?_, fun e => ?_⟩
    · rw [hrows] at ha
      exact absurd ha Table.not_mem_empty
    · rw [hrows] at ha
      exact absurd ha Table.not_mem_empty
    · rw [hopen]
      exact List.nodup_nil
  | refreshed employeeId evaluationDate reconciliationAt actor desired now _ hok ih =>
    obtain ⟨hstarts, items, _, hwritten⟩ := refresh_eq_ok ih.fresh hok rfl
    exact hwritten.sound ih hstarts
  | employeeDeleted employeeId _ ih =>
    refine ⟨fun a ha => ih.fresh a (Table.mem_filter.mp ha).1,
      fun a ha => ih.ranges a (Table.mem_filter.mp ha).1, fun e => ?_⟩
    refine (ih.keys e).sublist (List.Sublist.map _ ?_)
    exact List.filter_sublist.filter _
  | @elsewhere db db' _ hrows hseq ih =>
    refine ⟨fun a ha => ?_, fun a ha => ?_, fun e => ?_⟩
    · rw [hrows] at ha
      rw [hseq]
      exact ih.fresh a ha
    · rw [hrows] at ha
      exact ih.ranges a ha
    · rw [openAssignments, hrows]
      exact ih.keys e

/-- An accepted refresh at `T` leaves every earlier answer as it was and every row with a positive
period, and the open rows that it ends or deletes are those that are not desired. -/
theorem refresh_history_immutable {db db' : Db} {rows : List EmployeeAssignment} {employeeId : ℕ}
    {evaluationDate : Option Date} {reconciliationAt : Option DateTime} {actor : Actor}
    {desired : Option (List FinalAssignment)} {now T : DateTime} (hist : AssignmentHistory db)
    (h : refreshEmployeeAssignments db employeeId evaluationDate reconciliationAt actor desired now =
      .ok (db', rows))
    (hT : T = reconciliationTimestamp evaluationDate reconciliationAt now) :
    (∀ e t, t < T → (getEmployeeAssignmentsAsOf db' e t).map EmployeeAssignment.recorded =
      (getEmployeeAssignmentsAsOf db e t).map EmployeeAssignment.recorded) ∧
    (∀ a ∈ db'.employeeAssignments, ∀ u, a.effectiveUntil = some u → a.effectiveFrom < u) ∧
    ∃ items, finalAssignments db employeeId (evaluationDate.getD T.date) desired = .ok items ∧
      ∀ a ∈ db.employeeAssignments, a.effectiveUntil = none →
        (a ∉ db'.employeeAssignments ↔ a.employeeId = employeeId ∧
          a.assignmentKey ∉ items.map FinalAssignment.assignmentKey) ∧
        (a ∉ db'.employeeAssignments →
          if a.effectiveFrom = T then Deleted db' a else EndedAt db' T a) := by
  have hs := hist.sound
  obtain ⟨hstarts, items, hitems, hwritten⟩ := refresh_eq_ok hs.fresh h hT
  exact ⟨fun e t ht => hwritten.asOf_before ht e, hwritten.ranges hs hstarts, items, hitems,
    fun a ha hopen => hwritten.open_row hs ha hopen⟩

/-- The rows of employee 1 after a refresh at `T`. -/
def refreshedAt (db : Db) (T : DateTime) : Db :=
  match refreshEmployeeAssignments db 1 none (some T) .system none T with
  | .error _ => db
  | .ok (db', _) => db'

theorem refreshedAt_history {db : Db} (h : AssignmentHistory db) (T : DateTime) :
    AssignmentHistory (refreshedAt db T) := by
  unfold refreshedAt
  cases hr : refreshEmployeeAssignments db 1 none (some T) .system none T with
  | error e => exact h
  | ok out => exact .refreshed 1 none (some T) .system none T h hr

/-- The override of January is retired. -/
def overrideRetired : Db :=
  { refreshedAt { Db.empty with facts := overrideFacts [⟨1, 1, 1, "custom", none⟩] }
      (startOfDay (.on 2026 1 1)) with facts := overrideFacts [] }

/-- The refresh in March ends the row, and the answer for February stays. -/
theorem refresh_history_immutable_march :
    ∃ db rows, refreshEmployeeAssignments overrideRetired 1 none (some (startOfDay (.on 2026 3 1)))
        .system none (startOfDay (.on 2026 3 1)) = .ok (db, rows) ∧
      (getEmployeeAssignmentsAsOf db 1 (startOfDay (.on 2026 2 1))).map
          EmployeeAssignment.recorded =
        (getEmployeeAssignmentsAsOf overrideRetired 1 (startOfDay (.on 2026 2 1))).map
          EmployeeAssignment.recorded ∧
      (getEmployeeAssignmentsAsOf overrideRetired 1 (startOfDay (.on 2026 2 1))).length = 1 ∧
      rows = [] := by
  have hrun : (refreshEmployeeAssignments overrideRetired 1 none
      (some (startOfDay (.on 2026 3 1))) .system none (startOfDay (.on 2026 3 1))).toOption.map
        (fun out => out.2) = some [] := by
    decide +kernel
  have hlength : (getEmployeeAssignmentsAsOf overrideRetired 1
      (startOfDay (.on 2026 2 1))).length = 1 := by
    decide +kernel
  have hist : AssignmentHistory overrideRetired :=
    .elsewhere (refreshedAt_history (.start rfl) _) rfl rfl
  cases hr : refreshEmployeeAssignments overrideRetired 1 none
      (some (startOfDay (.on 2026 3 1))) .system none (startOfDay (.on 2026 3 1)) with
  | error e =>
    rw [hr] at hrun
    exact absurd hrun (by simp [Except.toOption])
  | ok out =>
    rw [hr] at hrun
    obtain ⟨hbefore, _⟩ := refresh_history_immutable hist hr rfl
    exact ⟨out.1, out.2, rfl, hbefore 1 _ (by decide +kernel), hlength, Option.some.inj hrun⟩

end Warp
