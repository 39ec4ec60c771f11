import Warp.Properties.AuditJournal
import Warp.Properties.RecordedHistory
import Warp.RefreshTransactions

/-!
# Concurrent refreshes and the audit log

Several transactions may refresh the same employees at the same time. The audit log still tells which
rows are open: a row that a transaction ends is locked by it, and nobody has ended it before. What is
recorded about a row depends on the entries that concern it, so the argument goes row by row.
-/

namespace Warp

open Infra

/-! ## What the log tells of one row -/

/-- The entry decides whether a row with this id is open. -/
def AuditLog.concerns (entry : AuditLog) (assignmentId : ℕ) : Bool :=
  if entry.entityType = "EmployeeAssignment" then
    if entry.action = "created" then
      match entry.after with
      | some (.assignment a _) => a.id = assignmentId
      | _ => false
    else entry.action = "ended" && entry.entityId = assignmentId
  else entry.entityType = "Employee" && entry.action = "deleted"

/-- The row, and the entries that concern it. -/
structure RowRecord where
  row : Option EmployeeAssignment
  log : Table AuditLog

def Db.rowRecord (db : Db) (assignmentId : ℕ) : RowRecord where
  row := db.employeeAssignments.find? assignmentId
  log := db.auditLogs.filter fun entry => entry.concerns assignmentId

/-- The entries tell whether the row is open, and with which values. A closed row has had a time. -/
structure RowRecord.Told (record : RowRecord) (assignmentId : ℕ) : Prop where
  open_iff : ∀ a : EmployeeAssignment, a.id = assignmentId →
    (a ∈ replay record.log ↔ record.row = some a ∧ a.effectiveUntil = none)
  range : ∀ a, record.row = some a → ∀ u, a.effectiveUntil = some u → a.effectiveFrom < u

theorem mem_replayEntry_of_not_concerns {rows : List EmployeeAssignment} {entry : AuditLog}
    {a : EmployeeAssignment} (h : entry.concerns a.id = false) :
    a ∈ replayEntry rows entry ↔ a ∈ rows := by
  unfold AuditLog.concerns at h
  unfold replayEntry
  split
  · next htype =>
    rw [if_pos htype] at h
    split
    · next haction =>
      rw [if_pos haction] at h
      split
      · next b _ hafter =>
        rw [hafter, decide_eq_false_iff_not] at h
        rw [List.mem_append, List.mem_singleton]
        exact or_iff_left fun hab => h (hab ▸ rfl)
      · exact Iff.rfl
    · next haction =>
      rw [if_neg haction] at h
      split
      · next hended =>
        simp only [hended, decide_true, Bool.true_and, decide_eq_false_iff_not] at h
        rw [List.mem_filter, decide_eq_true_eq]
        exact and_iff_left fun hid => h hid.symm
      · exact Iff.rfl
  · next htype =>
    rw [if_neg htype] at h
    split
    · next hdeleted =>
      rw [hdeleted.1, hdeleted.2] at h
      exact absurd h (by decide)
    · exact Iff.rfl

theorem mem_replayEntry_congr {rows rows' : List EmployeeAssignment} {entry : AuditLog}
    {a : EmployeeAssignment} (h : a ∈ rows ↔ a ∈ rows') :
    a ∈ replayEntry rows entry ↔ a ∈ replayEntry rows' entry := by
  unfold replayEntry
  repeat' split
  all_goals simp [h]

/-- Entries that do not concern the row may be left out. -/
theorem mem_foldl_replayEntry (a : EmployeeAssignment) : ∀ (entries : List AuditLog)
    {rows rows' : List EmployeeAssignment}, (a ∈ rows ↔ a ∈ rows') →
      (a ∈ entries.foldl replayEntry rows ↔
        a ∈ (entries.filter fun entry => entry.concerns a.id).foldl replayEntry rows')
  | [], _, _, h => h
  | entry :: entries, rows, rows', h => by
    rw [List.foldl_cons, List.filter_cons]
    split
    · exact mem_foldl_replayEntry a entries (mem_replayEntry_congr h)
    · next hnot =>
      refine mem_foldl_replayEntry a entries ?_
      exact (mem_replayEntry_of_not_concerns (Bool.eq_false_iff.mpr hnot)).trans h

theorem mem_replay_rowRecord {db : Db} {a : EmployeeAssignment} :
    a ∈ replay db.auditLogs ↔ a ∈ replay (db.rowRecord a.id).log :=
  mem_foldl_replayEntry a db.auditLogs.rows Iff.rfl

theorem mem_openRows_rowRecord {db : Db} {a : EmployeeAssignment} :
    a ∈ openRows db ↔ (db.rowRecord a.id).row = some a ∧ a.effectiveUntil = none := by
  rw [openRows, Table.mem_select, Option.isNone_iff_eq_none]
  refine and_congr_left fun _ => ?_
  rw [Db.rowRecord, Table.find?_eq_some]
  exact (and_iff_left rfl).symm

/-- What is told of every row makes the replay. -/
theorem replay_of_told {db : Db} (h : ∀ k, (db.rowRecord k).Told k) (a : EmployeeAssignment) :
    a ∈ replay db.auditLogs ↔ a ∈ openRows db := by
  rw [mem_replay_rowRecord, mem_openRows_rowRecord]
  exact (h a.id).open_iff a rfl

theorem Journaled.told {db : Db} (h : Journaled db) (hranges : ∀ a ∈ db.employeeAssignments,
    ∀ u, a.effectiveUntil = some u → a.effectiveFrom < u) (k : ℕ) : (db.rowRecord k).Told k where
  open_iff := by
    rintro a rfl
    rw [← mem_replay_rowRecord, ← mem_openRows_rowRecord, h.replayed]
  range a ha := hranges a (Table.find?_eq_some.mp ha).1

/-! ## Single writes -/

def RefreshWrite.concerns : RefreshWrite → ℕ → Bool
  | .endRow a _, assignmentId => a.id = assignmentId
  | .insertRow a, assignmentId => a.id = assignmentId
  | .record entry, assignmentId => entry.concerns assignmentId

def RefreshWrite.entryId? : RefreshWrite → Option ℕ
  | .record entry => some entry.id
  | _ => none

section

variable {db db' : Db} {x : RefreshWrite} {writes : List RefreshWrite} {k : ℕ}

/-- What a write to another row leaves, if its entry is new. -/
theorem rowRecord_of_not_concerns
    (hfresh : ∀ e ∈ db.auditLogs, x.entryId? ≠ some e.id) (h : x.concerns k = false) :
    (applyRefreshWrite db x).rowRecord k = db.rowRecord k := by
  cases x with
  | endRow a T =>
    simp only [RefreshWrite.concerns, decide_eq_false_iff_not] at h
    have hrow : (endRow T db.employeeAssignments a).find? k = db.employeeAssignments.find? k := by
      refine Table.find?_congr fun r hr => ?_
      unfold endRow
      split
      · rw [Table.mem_filter, decide_eq_true_eq]
        exact and_iff_left fun hid => h (hid.symm.trans hr)
      · rw [Table.mem_modify_if]
        constructor
        · rintro (⟨hmem, _⟩ | ⟨r', _, hid, rfl⟩)
          · exact hmem
          · exact absurd (hid.symm.trans hr) h
        · exact fun hmem => Or.inl ⟨hmem, fun hid => h (hid.symm.trans hr)⟩
    simp only [Db.rowRecord, applyRefreshWrite, hrow]
  | insertRow a =>
    simp only [RefreshWrite.concerns, decide_eq_false_iff_not] at h
    have hrow := Table.find?_insert_ne (t := db.employeeAssignments) (a := a) (k := k) (Ne.symm h)
    simp only [Db.rowRecord, applyRefreshWrite, hrow]
  | record entry =>
    have hlog : (db.auditLogs.insert entry).filter (fun e => e.concerns k) =
        db.auditLogs.filter fun e => e.concerns k := by
      refine Table.ext_mem fun e => ?_
      rw [Table.mem_filter, Table.mem_filter, Table.mem_insert]
      constructor
      · rintro ⟨rfl | ⟨hmem, _⟩, hc⟩
        · exact absurd (h.symm.trans hc) Bool.false_ne_true
        · exact ⟨hmem, hc⟩
      · rintro ⟨hmem, hc⟩
        exact ⟨Or.inr ⟨hmem, fun hid => hfresh e hmem (congrArg some hid.symm)⟩, hc⟩
    simp only [Db.rowRecord, applyRefreshWrite, hlog]

theorem filter_insert_concerns {entry : AuditLog} (h : entry.concerns k = true)
    (log : Table AuditLog) : (log.insert entry).filter (fun e => e.concerns k) =
      (log.filter fun e => e.concerns k).insert entry := by
  refine Table.ext_mem fun e => ?_
  rw [Table.mem_filter, Table.mem_insert, Table.mem_insert, Table.mem_filter]
  constructor
  · rintro ⟨rfl | ⟨hmem, hid⟩, hc⟩
    · exact Or.inl rfl
    · exact Or.inr ⟨⟨hmem, hc⟩, hid⟩
  · rintro (rfl | ⟨⟨hmem, hc⟩, hid⟩)
    · exact ⟨Or.inl rfl, h⟩
    · exact ⟨Or.inr ⟨hmem, hid⟩, hc⟩

/-- A write to a row depends on this row alone. -/
theorem rowRecord_congr (h : db.rowRecord k = db'.rowRecord k) (hk : x.concerns k = true) :
    (applyRefreshWrite db x).rowRecord k = (applyRefreshWrite db' x).rowRecord k := by
  obtain ⟨hrow, hlog⟩ := RowRecord.mk.inj h
  cases x with
  | endRow a T =>
    simp only [RefreshWrite.concerns, decide_eq_true_eq] at hk
    have hmem : ∀ r, Row.key r = k → (r ∈ db.employeeAssignments ↔ r ∈ db'.employeeAssignments) := by
      intro r hr
      have hboth := Table.find?_eq_some (t := db.employeeAssignments) (k := k) (a := r)
      rw [hrow, Table.find?_eq_some] at hboth
      exact ⟨fun hm => (hboth.mpr ⟨hm, hr⟩).1, fun hm => (hboth.mp ⟨hm, hr⟩).1⟩
    have hended : (endRow T db.employeeAssignments a).find? k =
        (endRow T db'.employeeAssignments a).find? k := by
      refine Table.find?_congr fun r hr => ?_
      unfold endRow
      split
      · rw [Table.mem_filter, Table.mem_filter, hmem r hr]
      · rw [Table.mem_modify_if, Table.mem_modify_if, hmem r hr]
        refine or_congr_right (exists_congr fun r' => and_congr_left fun hr' => hmem r' ?_)
        rw [← hk]
        exact hr'.1
    simp only [Db.rowRecord, applyRefreshWrite, hended, hlog]
  | insertRow a =>
    simp only [RefreshWrite.concerns, decide_eq_true_eq] at hk
    have hself := Table.find?_insert_self db.employeeAssignments a
    have hself' := Table.find?_insert_self db'.employeeAssignments a
    rw [show Row.key a = k from hk] at hself hself'
    simp only [Db.rowRecord, applyRefreshWrite, hself, hself', hlog]
  | record entry =>
    simp only [Db.rowRecord, applyRefreshWrite, filter_insert_concerns hk, hrow, hlog]

/-! ## Writes of a transaction -/

/-- The entries of a transaction are new and have different ids. -/
structure NewEntries (db : Db) (writes : List RefreshWrite) : Prop where
  unknown : ∀ x ∈ writes, ∀ e ∈ db.auditLogs, x.entryId? ≠ some e.id
  distinct : (writes.filterMap RefreshWrite.entryId?).Nodup

theorem NewEntries.tail (h : NewEntries db (x :: writes)) :
    NewEntries (applyRefreshWrite db x) writes := by
  have hrest := fun y hy => h.unknown y (List.mem_cons_of_mem x hy)
  cases x with
  | record entry =>
    have hdistinct : (entry.id :: writes.filterMap RefreshWrite.entryId?).Nodup := h.distinct
    rw [List.nodup_cons] at hdistinct
    refine ⟨fun y hy e he heq => ?_, hdistinct.2⟩
    rcases Table.mem_insert.mp he with rfl | ⟨he, _⟩
    · exact hdistinct.1 (List.mem_filterMap.mpr ⟨y, hy, heq⟩)
    · exact hrest y hy e he heq
  | endRow a T | insertRow a => exact ⟨hrest, h.distinct⟩

theorem newEntries_of_lt {n : ℕ} (hlt : ∀ e ∈ db.auditLogs, e.id < n)
    (h : (writes.filterMap RefreshWrite.entryId?).Sublist [n]) : NewEntries db writes where
  unknown x hx e he heq := by
    have hn := List.mem_singleton.mp (h.subset (List.mem_filterMap.mpr ⟨x, hx, heq⟩))
    exact absurd (hlt e he) (by omega)
  distinct := (List.nodup_singleton n).sublist h

theorem rowRecord_untouched : ∀ {writes : List RefreshWrite} {db : Db}, NewEntries db writes →
    (∀ x ∈ writes, x.concerns k = false) →
      (writes.foldl applyRefreshWrite db).rowRecord k = db.rowRecord k
  | [], _, _, _ => rfl
  | x :: writes, db, hnew, h => by
    rw [List.foldl_cons, rowRecord_untouched hnew.tail fun y hy => h y (List.mem_cons_of_mem _ hy)]
    exact rowRecord_of_not_concerns (hnew.unknown x List.mem_cons_self) (h x List.mem_cons_self)

/-- A transaction sees a row that nobody else has changed as before. -/
theorem rowRecord_foldl_congr : ∀ {writes : List RefreshWrite} {db db' : Db}, NewEntries db writes →
    NewEntries db' writes → db.rowRecord k = db'.rowRecord k →
      (writes.foldl applyRefreshWrite db).rowRecord k =
        (writes.foldl applyRefreshWrite db').rowRecord k
  | [], _, _, _, _, h => h
  | x :: writes, db, db', hnew, hnew', h => by
    rw [List.foldl_cons, List.foldl_cons]
    refine rowRecord_foldl_congr hnew.tail hnew'.tail ?_
    cases hk : x.concerns k with
    | true => exact rowRecord_congr h hk
    | false =>
      rw [rowRecord_of_not_concerns (hnew.unknown x List.mem_cons_self) hk, h,
        rowRecord_of_not_concerns (hnew'.unknown x List.mem_cons_self) hk]

theorem mem_iff_rowRecord {a : EmployeeAssignment} :
    a ∈ db.employeeAssignments ↔ (db.rowRecord a.id).row = some a := by
  rw [Db.rowRecord, Table.find?_eq_some]
  exact (and_iff_left rfl).symm

/-! ## What becomes of a row -/

variable {a : EmployeeAssignment} {n : ℕ} {request : RefreshRequest}

theorem replay_insert {log : Table AuditLog} {entry : AuditLog} (h : ∀ e ∈ log, e.id < entry.id) :
    replay (log.insert entry) = replayEntry (replay log) entry := by
  have hrows := Table.rows_insert_of_lt (t := log) (a := entry) h
  unfold replay
  rw [hrows, List.foldl_append]
  rfl

theorem find?_endRow {rows : Table EmployeeAssignment} {T : DateTime} (ha : a ∈ rows) :
    (endRow T rows a).find? a.id =
      if a.effectiveFrom = T then none else some { a with effectiveUntil := some T } := by
  unfold endRow
  split
  · rw [Table.find?_eq_none]
    intro r hr
    exact of_decide_eq_true (Table.mem_filter.mp hr).2
  · rw [Table.find?_modify, show rows.find? a.id = some a from Table.find?_key ha,
      Option.map_some, if_pos rfl]

theorem assignmentEntry_concerns_ended {before : Option Snapshot} :
    (assignmentEntry n request "ended" a before none).concerns k = true ↔ a.id = k :=
  decide_eq_true_iff

theorem assignmentEntry_concerns_created {db : Db} :
    (assignmentEntry n request "created" a none (some (snapshotAssignment db a))).concerns k = true ↔
      a.id = k := by
  simp [AuditLog.concerns, assignmentEntry, snapshotAssignment]

/-- A row that ends is open for neither the table nor the log. -/
theorem Told_ended (ha : a ∈ db.employeeAssignments) (hle : a.effectiveFrom ≤ request.effectiveAt)
    (hlt : ∀ e ∈ db.auditLogs, e.id < n) (before : Option Snapshot) :
    (([.endRow a request.effectiveAt,
      .record (assignmentEntry n request "ended" a before none)].foldl applyRefreshWrite
        db).rowRecord a.id).Told a.id := by
  have hlog : ∀ e ∈ db.auditLogs.filter (fun e => e.concerns a.id), e.id < n :=
    fun e he => hlt e (Table.mem_filter.mp he).1
  have hconcerns : (assignmentEntry n request "ended" a before none).concerns a.id = true :=
    assignmentEntry_concerns_ended.mpr rfl
  simp only [List.foldl_cons, List.foldl_nil, Db.rowRecord, applyRefreshWrite, find?_endRow ha,
    filter_insert_concerns hconcerns]
  constructor
  · rintro b hb
    rw [replay_insert hlog]
    have hgone : b ∉ replayEntry (replay (db.auditLogs.filter fun e => e.concerns a.id))
        (assignmentEntry n request "ended" a before none) := by
      simp [replayEntry, assignmentEntry, hb]
    refine iff_of_false hgone ?_
    split
    · simp
    · rintro ⟨hsome, hopen⟩
      cases hsome
      exact absurd hopen (by simp)
  · intro b hb u hu
    split at hb
    · exact absurd hb (by simp)
    · next hne =>
      cases hb
      cases hu
      exact lt_of_le_of_ne hle hne

/-- A row that is there, and is recorded now. -/
theorem Told_created (ha : a ∈ db.employeeAssignments) (unended : a.effectiveUntil = none)
    (huntold : ∀ b : EmployeeAssignment, b.id = a.id → b ∉ replay (db.rowRecord a.id).log)
    (hlt : ∀ e ∈ db.auditLogs, e.id < n) :
    (([.record (assignmentEntry n request "created" a none
      (some (snapshotAssignment db a)))].foldl applyRefreshWrite db).rowRecord a.id).Told a.id := by
  have hlog : ∀ e ∈ db.auditLogs.filter (fun e => e.concerns a.id), e.id < n :=
    fun e he => hlt e (Table.mem_filter.mp he).1
  have hconcerns : (assignmentEntry n request "created" a none
      (some (snapshotAssignment db a))).concerns a.id = true :=
    assignmentEntry_concerns_created.mpr rfl
  have hrow : db.employeeAssignments.find? a.id = some a := Table.find?_key ha
  simp only [List.foldl_cons, List.foldl_nil, Db.rowRecord, applyRefreshWrite, hrow,
    filter_insert_concerns hconcerns]
  constructor
  · intro b hb
    rw [replay_insert hlog]
    have hlast : replayEntry (replay (db.auditLogs.filter fun e => e.concerns a.id))
        (assignmentEntry n request "created" a none (some (snapshotAssignment db a))) =
          replay (db.auditLogs.filter fun e => e.concerns a.id) ++ [a] := rfl
    have hold : b ∉ replay (db.auditLogs.filter fun e => e.concerns a.id) := huntold b hb
    rw [hlast, List.mem_append, List.mem_singleton, or_iff_right hold, Option.some.injEq]
    constructor
    · rintro rfl
      exact ⟨rfl, unended⟩
    · rintro ⟨rfl, _⟩
      rfl
  · intro b hb u hu
    cases hb
    exact absurd (unended.symm.trans hu) (by simp)

end

/-! ## Numbers -/

def refreshNumbers : Numbering Db RefreshWrite where
  known db := {i | (∃ a ∈ db.employeeAssignments, a.id = i) ∨ ∃ e ∈ db.auditLogs, e.id = i}
  mentions
    | .endRow _ _ => ∅
    | .insertRow a => {a.id}
    | .record entry => {entry.id}
  inserts
    | .endRow _ _ => ∅
    | .insertRow a => {a.id}
    | .record entry => {entry.id}

theorem mentions_eq_inserts (x : RefreshWrite) :
    refreshNumbers.mentions x = refreshNumbers.inserts x := by
  cases x <;> rfl

section

variable {n : ℕ} {db : Db} {op : RefreshOp} {more : List RefreshOp} {new : List RefreshWrite}

/-- The rows and entries that a statement inserts have the number that it draws. -/
theorem runRefreshOp_inserts (h : runRefreshOp n db op = .ok (more, new)) :
    ∀ x ∈ new, ∀ i ∈ refreshNumbers.inserts x, i = n := by
  intro x hx i hi
  cases op with
  | refresh request =>
    simp only [runRefreshOp, bind_eq_ok, pure_eq_ok] at h
    obtain ⟨_, _, hout⟩ := h
    cases hout
    exact absurd hx List.not_mem_nil
  | selectOpen request =>
    cases h
    exact absurd hx List.not_mem_nil
  | lockRows request found locked =>
    cases found with
    | nil =>
      cases h
      exact absurd hx List.not_mem_nil
    | cons assignmentId found =>
      rw [runRefreshOp] at h
      split at h <;> cases h <;> exact absurd hx List.not_mem_nil
  | endRow request a =>
    simp only [runRefreshOp, bind_eq_ok, pure_eq_ok] at h
    obtain ⟨_, _, hout⟩ := h
    cases hout
    rcases List.mem_cons.mp hx with rfl | hx
    · exact absurd hi (Set.notMem_empty i)
    · rw [List.mem_singleton.mp hx] at hi
      exact hi
  | insertRow request item =>
    simp only [runRefreshOp, bind_eq_ok, pure_eq_ok] at h
    obtain ⟨_, _, hout⟩ := h
    cases hout
    rw [List.mem_singleton.mp hx] at hi
    exact hi
  | recordCreated request a =>
    cases h
    rw [List.mem_singleton.mp hx] at hi
    exact hi

/-- A row is an earlier one, perhaps updated, or has been inserted. -/
theorem row_before {x : RefreshWrite} {a : EmployeeAssignment}
    (h : a ∈ (applyRefreshWrite db x).employeeAssignments) :
    (∃ r ∈ db.employeeAssignments, r.id = a.id) ∨ x = .insertRow a := by
  cases x with
  | endRow b T =>
    change a ∈ endRow T db.employeeAssignments b at h
    unfold endRow at h
    split at h
    · exact Or.inl ⟨a, (Table.mem_filter.mp h).1, rfl⟩
    · rcases Table.mem_modify_if.mp h with ⟨h, _⟩ | ⟨r, hr, _, rfl⟩
      · exact Or.inl ⟨a, h, rfl⟩
      · exact Or.inl ⟨r, hr, rfl⟩
  | insertRow b =>
    rcases Table.mem_insert.mp h with rfl | ⟨h, _⟩
    · exact Or.inr rfl
    · exact Or.inl ⟨a, h, rfl⟩
  | record entry => exact Or.inl ⟨a, h, rfl⟩

theorem row_before_foldl : ∀ (writes : List RefreshWrite) {db : Db} {a : EmployeeAssignment},
    a ∈ (writes.foldl applyRefreshWrite db).employeeAssignments →
      (∃ r ∈ db.employeeAssignments, r.id = a.id) ∨ ∃ b, .insertRow b ∈ writes ∧ b.id = a.id
  | [], _, a, h => Or.inl ⟨a, h, rfl⟩
  | x :: writes, db, a, h => by
    rcases row_before_foldl writes h with ⟨r, hr, hid⟩ | ⟨b, hb, hid⟩
    · rcases row_before hr with ⟨r', hr', hid'⟩ | rfl
      · exact Or.inl ⟨r', hr', hid'.trans hid⟩
      · exact Or.inr ⟨r, List.mem_cons_self, hid⟩
    · exact Or.inr ⟨b, List.mem_cons_of_mem _ hb, hid⟩

theorem refreshNumbers_respects : refreshNumbers.Respects refreshCode where
  apply db x := by
    rintro i (⟨a, ha, rfl⟩ | ⟨e, he, rfl⟩)
    · rcases row_before ha with ⟨r, hr, hid⟩ | rfl
      · exact Or.inl (Or.inl ⟨r, hr, hid⟩)
      · exact Or.inr rfl
    · cases x with
      | record entry =>
        rcases Table.mem_insert.mp he with rfl | ⟨he, _⟩
        · exact Or.inr rfl
        · exact Or.inl (Or.inr ⟨e, he, rfl⟩)
      | endRow b T | insertRow b => exact Or.inl (Or.inr ⟨e, he, rfl⟩)
  mentions h x hx i hi := Or.inr (runRefreshOp_inserts h x hx i (mentions_eq_inserts x ▸ hi))
  inserts h := runRefreshOp_inserts h

end

/-! ## Stages of a transaction -/

/-- The transaction has locked the committed row, or inserted it. -/
def Owns (db : Db) (held : ℕ → Prop) (writes : List RefreshWrite) (k : ℕ) : Prop :=
  (held k ∧ ∃ a ∈ db.employeeAssignments, a.id = k) ∨ ∃ a, .insertRow a ∈ writes ∧ a.id = k

/-- What is left to do, and what it relies on in the rows that the transaction sees. -/
inductive RefreshSteps (db : Db) (owned : ℕ → Prop) : List RefreshOp → Prop where
  | begins (requests : List RefreshRequest) : RefreshSteps db owned (requests.map .refresh)
  | selecting (request : RefreshRequest) (requests : List RefreshRequest) :
      RefreshSteps db owned (.selectOpen request :: requests.map .refresh)
  | locking (request : RefreshRequest) (found locked : List ℕ) (requests : List RefreshRequest)
      (mine : ∀ k ∈ locked, owned k) :
      RefreshSteps db owned (.lockRows request found locked :: requests.map .refresh)
  | writing (request : RefreshRequest) (ended : List EmployeeAssignment)
      (items : List FinalAssignment) (requests : List RefreshRequest)
      (rows : ∀ a ∈ ended, a ∈ db.employeeAssignments ∧ a.effectiveUntil = none ∧ owned a.id)
      (distinct : (ended.map fun a => a.id).Nodup) :
      RefreshSteps db owned
        (ended.map (.endRow request) ++ (items.map (.insertRow request) ++ requests.map .refresh))
  | recording (request : RefreshRequest) (a : EmployeeAssignment) (items : List FinalAssignment)
      (requests : List RefreshRequest) (row : a ∈ db.employeeAssignments)
      (unended : a.effectiveUntil = none) (mine : owned a.id)
      (untold : ∀ b : EmployeeAssignment, b.id = a.id → b ∉ replay (db.rowRecord a.id).log) :
      RefreshSteps db owned
        (.recordCreated request a :: (items.map (.insertRow request) ++ requests.map .refresh))

/-- The row has been inserted, and is to be recorded next. -/
def Unrecorded (todo : List RefreshOp) (k : ℕ) : Prop :=
  ∃ request a rest, todo = .recordCreated request a :: rest ∧ a.id = k

structure RefreshStage (db : Db) (held : ℕ → Prop) (l : Live RefreshOp RefreshWrite) : Prop where
  distinct : (l.writes.filterMap RefreshWrite.entryId?).Nodup
  owned : ∀ x ∈ l.writes, ∀ k, x.concerns k = true → Owns db held l.writes k
  opened : ∀ x ∈ l.writes, ∀ a ∈ db.employeeAssignments, x.concerns a.id = true →
    a.effectiveUntil = none
  told : ∀ k, ¬Unrecorded l.todo k → ((l.writes.foldl applyRefreshWrite db).rowRecord k).Told k
  steps : RefreshSteps (l.writes.foldl applyRefreshWrite db) (Owns db held l.writes) l.todo

section

variable {db db' : Db} {held held' : ℕ → Prop} {writes new : List RefreshWrite}
variable {todo more : List RefreshOp} {l : Live RefreshOp RefreshWrite}

theorem Owns.mono (hsub : ∀ k, held k → held' k) {k : ℕ} (h : Owns db held writes k) :
    Owns db held' writes k :=
  h.imp_left fun ⟨hheld, hrow⟩ => ⟨hsub k hheld, hrow⟩

theorem Owns.append {k : ℕ} (h : Owns db held writes k) : Owns db held (writes ++ new) k :=
  h.imp_right fun ⟨a, ha, hid⟩ => ⟨a, List.mem_append_left _ ha, hid⟩

/-- The steps rely on rows that the transaction owns. -/
theorem RefreshSteps.congr {owned owned' : ℕ → Prop} (hsub : ∀ k, owned k → owned' k)
    (hrows : ∀ k, owned k → db.rowRecord k = db'.rowRecord k) (h : RefreshSteps db owned todo) :
    RefreshSteps db' owned' todo := by
  have hmem : ∀ a : EmployeeAssignment, owned a.id → a ∈ db.employeeAssignments →
      a ∈ db'.employeeAssignments := by
    intro a howned ha
    rw [mem_iff_rowRecord, ← hrows a.id howned]
    exact mem_iff_rowRecord.mp ha
  cases h with
  | begins requests => exact .begins requests
  | selecting request requests => exact .selecting request requests
  | locking request found locked requests mine =>
    exact .locking request found locked requests fun k hk => hsub k (mine k hk)
  | writing request ended items requests rows distinct =>
    refine .writing request ended items requests (fun a ha => ?_) distinct
    obtain ⟨hrow, hopen, howned⟩ := rows a ha
    exact ⟨hmem a howned hrow, hopen, hsub _ howned⟩
  | recording request a items requests row unended mine untold =>
    refine .recording request a items requests (hmem a mine row) unended (hsub _ mine) ?_
    rw [← hrows a.id mine]
    exact untold

theorem RefreshStage.mono (hsub : ∀ k, held k → held' k) (h : RefreshStage db held l) :
    RefreshStage db held' l where
  distinct := h.distinct
  owned x hx k hk := (h.owned x hx k hk).mono hsub
  opened := h.opened
  told := h.told
  steps := h.steps.congr (fun _ hk => hk.mono hsub) fun _ _ => rfl

/-! ## Statements -/

variable {n k : ℕ} {op : RefreshOp} {request : RefreshRequest}

/-- A row that the transaction sees open is committed open, or not at all. -/
theorem RefreshStage.opened_of_view (h : RefreshStage db held l) (hnew : NewEntries db l.writes)
    {a : EmployeeAssignment} (ha : a ∈ (l.writes.foldl applyRefreshWrite db).employeeAssignments)
    (hopen : a.effectiveUntil = none) {r : EmployeeAssignment} (hr : r ∈ db.employeeAssignments)
    (hid : r.id = a.id) : r.effectiveUntil = none := by
  by_cases htouched : ∃ x ∈ l.writes, x.concerns a.id = true
  · obtain ⟨x, hx, hk⟩ := htouched
    exact h.opened x hx r hr (hid ▸ hk)
  · have hsame := rowRecord_untouched (k := a.id) hnew fun x hx => by
      rw [← Bool.not_eq_true]
      exact fun hk => htouched ⟨x, hx, hk⟩
    have hrow := mem_iff_rowRecord.mp ha
    rw [hsame, ← mem_iff_rowRecord] at hrow
    rw [Table.key_inj hr hrow hid]
    exact hopen

/-- A statement that writes nothing. -/
theorem RefreshStage.quiet (h : RefreshStage db held ⟨op :: todo, writes⟩)
    (hop : ∀ k, ¬Unrecorded (op :: todo) k)
    (hsteps : RefreshSteps (writes.foldl applyRefreshWrite db) (Owns db held writes)
      (more ++ todo)) : RefreshStage db held ⟨more ++ todo, writes ++ []⟩ := by
  rw [List.append_nil]
  exact ⟨h.distinct, h.owned, h.opened, fun k _ => h.told k (hop k), hsteps⟩

/-- A statement that writes to one row. -/
theorem RefreshStage.extend (h : RefreshStage db held ⟨op :: todo, writes⟩)
    (hgiven : ∀ x ∈ writes, ∀ i ∈ refreshNumbers.inserts x, i < n)
    (hlt : ∀ i ∈ refreshNumbers.known (writes.foldl applyRefreshWrite db), i < n)
    (hids : (new.filterMap RefreshWrite.entryId?).Sublist [n])
    (honly : ∀ x ∈ new, ∀ j, x.concerns j = true → j = k)
    (howns : Owns db held (writes ++ new) k)
    (hopened : ∀ a ∈ db.employeeAssignments, a.id = k → a.effectiveUntil = none)
    (hother : ∀ j, j ≠ k → ¬Unrecorded (op :: todo) j)
    (htold : ¬Unrecorded (more ++ todo) k →
      ((new.foldl applyRefreshWrite (writes.foldl applyRefreshWrite db)).rowRecord k).Told k)
    (hsteps : RefreshSteps (new.foldl applyRefreshWrite (writes.foldl applyRefreshWrite db))
      (Owns db held (writes ++ new)) (more ++ todo)) :
    RefreshStage db held ⟨more ++ todo, writes ++ new⟩ := by
  have hentries := newEntries_of_lt (fun e he => hlt e.id (Or.inr ⟨e, he, rfl⟩)) hids
  refine ⟨?_, fun x hx j hj => ?_, fun x hx a ha hk => ?_, fun j hj => ?_, ?_⟩
  · rw [List.filterMap_append]
    refine h.distinct.append hentries.distinct fun i hi hi' => ?_
    obtain ⟨x, hx, hxi⟩ := List.mem_filterMap.mp hi
    have hn := List.mem_singleton.mp (hids.subset hi')
    cases x with
    | record entry =>
      cases hxi
      exact absurd (hgiven _ hx entry.id rfl) (by omega)
    | endRow a T | insertRow a => exact absurd hxi (by simp [RefreshWrite.entryId?])
  · rcases List.mem_append.mp hx with hx | hx
    · exact (h.owned x hx j hj).append
    · exact honly x hx j hj ▸ howns
  · rcases List.mem_append.mp hx with hx | hx
    · exact h.opened x hx a ha hk
    · exact hopened a ha (honly x hx a.id hk)
  · rw [List.foldl_append]
    by_cases hjk : j = k
    · subst hjk
      exact htold hj
    · rw [rowRecord_untouched hentries fun x hx => by
        rw [← Bool.not_eq_true]
        exact fun hk => hjk (honly x hx j hk)]
      exact h.told j (hother j hjk)
  · rw [List.foldl_append]
    exact hsteps

theorem not_unrecorded (hop : ∀ request a, op ≠ .recordCreated request a) :
    ¬Unrecorded (op :: todo) k := by
  rintro ⟨request, a, rest, heq, _⟩
  exact hop request a (List.cons.inj heq).1

theorem RefreshStage.refresh {requests : List RefreshRequest}
    (h : RefreshStage db held ⟨.refresh request :: requests.map .refresh, writes⟩)
    (ok : runRefreshOp n (writes.foldl applyRefreshWrite db) (.refresh request) = .ok (more, new)) :
    RefreshStage db held ⟨more ++ requests.map .refresh, writes ++ new⟩ := by
  simp only [runRefreshOp, bind_eq_ok, pure_eq_ok] at ok
  obtain ⟨_, _, hout⟩ := ok
  cases hout
  exact h.quiet (fun k => not_unrecorded (by simp)) (.selecting request requests)

/-- A row that is found and still open is locked. -/
theorem RefreshStage.lock {assignmentId : ℕ} {found locked : List ℕ} {requests : List RefreshRequest}
    (h : RefreshStage db held
      ⟨.lockRows request (assignmentId :: found) locked :: requests.map .refresh, writes⟩)
    (mine : ∀ k ∈ locked, Owns db held writes k)
    (hheld : ∀ a ∈ (writes.foldl applyRefreshWrite db).employeeAssignments, a.id = assignmentId →
      held assignmentId)
    (ok : runRefreshOp n (writes.foldl applyRefreshWrite db)
      (.lockRows request (assignmentId :: found) locked) = .ok (more, new)) :
    RefreshStage db held ⟨more ++ requests.map .refresh, writes ++ new⟩ := by
  rw [runRefreshOp] at ok
  split at ok
  · next hopen =>
    cases ok
    refine h.quiet (fun k => not_unrecorded (by simp))
      (.locking request found (assignmentId :: locked) requests fun k hk => ?_)
    rcases List.mem_cons.mp hk with rfl | hk
    · obtain ⟨a, ha, hid⟩ := List.any_eq_true.mp hopen
      have hrow := (mem_openAssignments.mp ha).1
      rw [decide_eq_true_eq] at hid
      refine (row_before_foldl writes hrow).imp (fun ⟨r, hr, hrid⟩ => ?_) fun ⟨b, hb, hbid⟩ => ?_
      · exact ⟨hheld a hrow hid, r, hr, hrid.trans hid⟩
      · exact ⟨b, hb, hbid.trans hid⟩
    · exact mine k hk
  · cases ok
    exact h.quiet (fun k => not_unrecorded (by simp)) (.locking request found locked requests mine)

/-- The rows that end are open and locked. -/
theorem RefreshStage.sync {locked : List ℕ} {requests : List RefreshRequest}
    (h : RefreshStage db held ⟨.lockRows request [] locked :: requests.map .refresh, writes⟩)
    (mine : ∀ k ∈ locked, Owns db held writes k)
    (ok : runRefreshOp n (writes.foldl applyRefreshWrite db) (.lockRows request [] locked) =
      .ok (more, new)) :
    RefreshStage db held ⟨more ++ requests.map .refresh, writes ++ new⟩ := by
  cases ok
  refine h.quiet (fun k => not_unrecorded (by simp)) ?_
  rw [List.append_assoc]
  refine .writing request _ _ requests (fun a ha => ?_) ?_
  · have hlocked := List.mem_filter.mp (ended_sublist.subset ha)
    obtain ⟨hrow, _, hopen⟩ := mem_openAssignments.mp hlocked.1
    exact ⟨hrow, hopen, mine a.id (List.contains_iff_mem.mp hlocked.2)⟩
  · have hsub : (lockedAssignments (writes.foldl applyRefreshWrite db) request.employeeId
        locked).Sublist (writes.foldl applyRefreshWrite db).employeeAssignments.rows :=
      List.filter_sublist.trans List.filter_sublist
    exact (Table.keys_nodup _).sublist ((ended_sublist.trans hsub).map _)

theorem RefreshStage.endRow {a : EmployeeAssignment} {ended : List EmployeeAssignment}
    {items : List FinalAssignment} {requests : List RefreshRequest}
    (h : RefreshStage db held ⟨.endRow request a :: (ended.map (.endRow request) ++
      (items.map (.insertRow request) ++ requests.map .refresh)), writes⟩)
    (hnew : NewEntries db writes)
    (hgiven : ∀ x ∈ writes, ∀ i ∈ refreshNumbers.inserts x, i < n)
    (hlt : ∀ i ∈ refreshNumbers.known (writes.foldl applyRefreshWrite db), i < n)
    (rows : ∀ r ∈ a :: ended, r ∈ (writes.foldl applyRefreshWrite db).employeeAssignments ∧
      r.effectiveUntil = none ∧ Owns db held writes r.id)
    (distinct : ((a :: ended).map fun r => r.id).Nodup)
    (ok : runRefreshOp n (writes.foldl applyRefreshWrite db) (.endRow request a) = .ok (more, new)) :
    RefreshStage db held ⟨more ++ (ended.map (.endRow request) ++
      (items.map (.insertRow request) ++ requests.map .refresh)), writes ++ new⟩ := by
  simp only [runRefreshOp, bind_eq_ok, ensure_eq_ok, decide_eq_true_eq, pure_eq_ok] at ok
  obtain ⟨_, hle, hout⟩ := ok
  cases hout
  obtain ⟨hrow, hopen, hown⟩ := rows a List.mem_cons_self
  obtain ⟨hnot, hrest⟩ := List.nodup_cons.mp distinct
  have hlog : ∀ e ∈ (writes.foldl applyRefreshWrite db).auditLogs, e.id < n :=
    fun e he => hlt e.id (Or.inr ⟨e, he, rfl⟩)
  have honly : ∀ x ∈ [RefreshWrite.endRow a request.effectiveAt, .record (assignmentEntry n request
      "ended" a (some (snapshotAssignment (writes.foldl applyRefreshWrite db) a)) none)],
      ∀ j, x.concerns j = true → j = a.id := by
    intro x hx j hj
    rcases List.mem_cons.mp hx with rfl | hx
    · exact (of_decide_eq_true hj).symm
    · rw [List.mem_singleton.mp hx] at hj
      exact (assignmentEntry_concerns_ended.mp hj).symm
  refine h.extend hgiven hlt (List.Sublist.refl [n]) honly hown.append
    (fun r hr hid => h.opened_of_view hnew hrow hopen hr hid)
    (fun j _ => not_unrecorded (by simp)) (fun _ => Told_ended hrow hle hlog _) ?_
  refine .writing request ended items requests (fun r hr => ?_) hrest
  obtain ⟨hr', hopen', hown'⟩ := rows r (List.mem_cons_of_mem _ hr)
  -- the other rows are as they were
  have hne : r.id ≠ a.id := by
    intro hid
    exact hnot (List.mem_map.mpr ⟨r, hr, hid⟩)
  refine ⟨?_, hopen', hown'.append⟩
  rw [mem_iff_rowRecord, rowRecord_untouched (newEntries_of_lt hlog ?_) fun x hx => ?_]
  · exact mem_iff_rowRecord.mp hr'
  · exact List.Sublist.refl [n]
  · rw [← Bool.not_eq_true]
    exact fun hk => hne (honly x hx r.id hk)

theorem RefreshStage.insertRow {item : FinalAssignment} {items : List FinalAssignment}
    {requests : List RefreshRequest}
    (h : RefreshStage db held ⟨.insertRow request item ::
      (items.map (.insertRow request) ++ requests.map .refresh), writes⟩)
    (hgiven : ∀ x ∈ writes, ∀ i ∈ refreshNumbers.inserts x, i < n)
    (hknown : ∀ i ∈ refreshNumbers.known db, i < n)
    (hlt : ∀ i ∈ refreshNumbers.known (writes.foldl applyRefreshWrite db), i < n)
    (ok : runRefreshOp n (writes.foldl applyRefreshWrite db) (.insertRow request item) =
      .ok (more, new)) :
    RefreshStage db held ⟨more ++ (items.map (.insertRow request) ++ requests.map .refresh),
      writes ++ new⟩ := by
  simp only [runRefreshOp, bind_eq_ok, pure_eq_ok] at ok
  obtain ⟨_, _, hout⟩ := ok
  cases hout
  have hown : Owns db held
      (writes ++ [.insertRow (newAssignment n request.employeeId request.effectiveAt item)]) n :=
    Or.inr ⟨_, List.mem_append_right _ List.mem_cons_self, rfl⟩
  have htold := h.told n (not_unrecorded (by simp))
  refine h.extend (k := n) hgiven hlt (List.nil_sublist [n]) (fun x hx j hj => ?_) hown
    (fun r hr hid => ?_)
    (fun j _ => not_unrecorded (by simp)) (fun hnot => ?_) ?_
  · rw [List.mem_singleton.mp hx] at hj
    exact (of_decide_eq_true hj).symm
  · exact absurd (hknown r.id (Or.inl ⟨r, hr, rfl⟩)) (by omega)
  · exact absurd ⟨request, _, _, rfl, rfl⟩ hnot
  · refine .recording request _ items requests Table.mem_insert_self rfl hown fun b hb hmem => ?_
    -- no row has had this number, so the log tells of none
    obtain ⟨hrow, _⟩ := (htold.open_iff b hb).mp hmem
    have hb' := (Table.find?_eq_some.mp hrow).1
    exact absurd (hlt b.id (Or.inl ⟨b, hb', rfl⟩)) (by rw [hb]; exact lt_irrefl n)

theorem RefreshStage.recordCreated {a : EmployeeAssignment} {items : List FinalAssignment}
    {requests : List RefreshRequest}
    (h : RefreshStage db held ⟨.recordCreated request a ::
      (items.map (.insertRow request) ++ requests.map .refresh), writes⟩)
    (hnew : NewEntries db writes)
    (hgiven : ∀ x ∈ writes, ∀ i ∈ refreshNumbers.inserts x, i < n)
    (hlt : ∀ i ∈ refreshNumbers.known (writes.foldl applyRefreshWrite db), i < n)
    (row : a ∈ (writes.foldl applyRefreshWrite db).employeeAssignments)
    (unended : a.effectiveUntil = none) (mine : Owns db held writes a.id)
    (untold : ∀ b : EmployeeAssignment, b.id = a.id →
      b ∉ replay ((writes.foldl applyRefreshWrite db).rowRecord a.id).log)
    (ok : runRefreshOp n (writes.foldl applyRefreshWrite db) (.recordCreated request a) =
      .ok (more, new)) :
    RefreshStage db held ⟨more ++ (items.map (.insertRow request) ++ requests.map .refresh),
      writes ++ new⟩ := by
  cases ok
  refine h.extend (k := a.id) hgiven hlt (List.Sublist.refl [n]) (fun x hx j hj => ?_) mine.append
    (fun r hr hid => h.opened_of_view hnew row unended hr hid) (fun j hj hun => ?_)
    (fun _ => Told_created row unended untold fun e he => hlt e.id (Or.inr ⟨e, he, rfl⟩)) ?_
  · rw [List.mem_singleton.mp hx] at hj
    exact (assignmentEntry_concerns_created.mp hj).symm
  · obtain ⟨_, b, _, heq, hid⟩ := hun
    cases heq
    exact hj hid.symm
  · exact .writing request [] items requests (fun r hr => absurd hr List.not_mem_nil) List.nodup_nil

theorem RefreshStage.exec (h : RefreshStage db held ⟨op :: todo, writes⟩)
    (hnew : NewEntries db writes)
    (hgiven : ∀ x ∈ writes, ∀ i ∈ refreshNumbers.inserts x, i < n)
    (hknown : ∀ i ∈ refreshNumbers.known db, i < n)
    (hlt : ∀ i ∈ refreshNumbers.known (writes.foldl applyRefreshWrite db), i < n)
    (hlocks : ∀ k ∈ lockAssignmentRows (writes.foldl applyRefreshWrite db) op, held k)
    (ok : runRefreshOp n (writes.foldl applyRefreshWrite db) op = .ok (more, new)) :
    RefreshStage db held ⟨more ++ todo, writes ++ new⟩ := by
  have hsteps := h.steps
  dsimp only at hsteps
  generalize hall : op :: todo = all at hsteps
  cases hsteps with
  | begins requests =>
    cases requests with
    | nil => exact absurd hall (List.cons_ne_nil op todo)
    | cons request requests =>
      cases hall
      exact h.refresh ok
  | selecting request requests =>
    cases hall
    cases ok
    exact h.quiet (fun k => not_unrecorded (by simp))
      (.locking request _ [] requests fun k hk => absurd hk List.not_mem_nil)
  | locking request found locked requests mine =>
    cases hall
    cases found with
    | nil => exact h.sync mine ok
    | cons assignmentId found =>
      refine h.lock mine (fun a ha hid => hlocks assignmentId ?_) ok
      have hsome : ((writes.foldl applyRefreshWrite db).employeeAssignments.find?
          assignmentId).isSome := Table.isSome_find?.mpr ⟨a, ha, hid⟩
      simp [lockAssignmentRows, hsome]
  | writing request ended items requests rows distinct =>
    cases ended with
    | cons a ended =>
      cases hall
      exact h.endRow hnew hgiven hlt rows distinct ok
    | nil =>
      cases items with
      | cons item items =>
        cases hall
        exact h.insertRow hgiven hknown hlt ok
      | nil =>
        cases requests with
        | nil => exact absurd hall (List.cons_ne_nil op todo)
        | cons request requests =>
          cases hall
          exact h.refresh ok
  | recording request a items requests row unended mine untold =>
    cases hall
    exact h.recordCreated hnew hgiven hlt row unended mine untold ok

/-- The commit of another transaction leaves the rows of this one. -/
theorem RefreshStage.afterCommit {heldOther : ℕ → Prop}
    (hother : RefreshStage db heldOther ⟨[], new⟩) (hentries : NewEntries db new)
    (hnew : NewEntries db l.writes) (hnew' : NewEntries (new.foldl applyRefreshWrite db) l.writes)
    (hapart : ∀ k, Owns db heldOther new k → ¬Owns db held l.writes k)
    (h : RefreshStage db held l) :
    RefreshStage (new.foldl applyRefreshWrite db) held l := by
  have hsame : ∀ k, Owns db held l.writes k →
      db.rowRecord k = (new.foldl applyRefreshWrite db).rowRecord k := by
    intro k hk
    refine (rowRecord_untouched hentries fun x hx => ?_).symm
    rw [← Bool.not_eq_true]
    exact fun hc => hapart k (hother.owned x hx k hc) hk
  have howns : ∀ k, Owns db held l.writes k →
      Owns (new.foldl applyRefreshWrite db) held l.writes k := by
    intro k hk
    refine hk.imp_left ?_
    rintro ⟨hheld, a, ha, rfl⟩
    rw [mem_iff_rowRecord, hsame a.id hk] at ha
    exact ⟨hheld, a, mem_iff_rowRecord.mpr ha, rfl⟩
  refine ⟨h.distinct, fun x hx k hk => howns k (h.owned x hx k hk), fun x hx a ha hk => ?_,
    fun k hk => ?_, ?_⟩
  · rw [mem_iff_rowRecord, ← hsame a.id (h.owned x hx a.id hk), ← mem_iff_rowRecord] at ha
    exact h.opened x hx a ha hk
  · by_cases htouched : ∃ x ∈ l.writes, x.concerns k = true
    · obtain ⟨x, hx, hc⟩ := htouched
      rw [← rowRecord_foldl_congr hnew hnew' (hsame k (h.owned x hx k hc))]
      exact h.told k hk
    · rw [rowRecord_untouched hnew' fun x hx => by
        rw [← Bool.not_eq_true]
        exact fun hc => htouched ⟨x, hx, hc⟩]
      exact hother.told k fun ⟨_, _, _, heq, _⟩ => List.cons_ne_nil _ _ heq.symm
  · exact h.steps.congr howns fun k hk => rowRecord_foldl_congr hnew hnew' (hsame k hk)

end

/-! ## Runs -/

abbrev RefreshWorld := World Db RefreshWrite RefreshOp ServiceError ℕ

structure RefreshSound (w : RefreshWorld) : Prop where
  fresh : refreshNumbers.Fresh w
  told : ∀ k, (w.committed.rowRecord k).Told k
  stage : ∀ (t : ℕ) l, w.fates[t]? = some (.live l) →
    RefreshStage w.committed (fun k => w.holder k = some t) l

section

variable {w : RefreshWorld} {t u : ℕ}

theorem RefreshSound.newEntries (h : RefreshSound w) {l : Live RefreshOp RefreshWrite}
    (live : w.fates[t]? = some (.live l)) : NewEntries w.committed l.writes where
  unknown x hx e he heq := by
    cases x with
    | record entry =>
      exact h.fresh.unpublished ⟨l, live, hx⟩ entry.id rfl (Or.inr ⟨e, he, (Option.some.inj heq).symm⟩)
    | endRow a T | insertRow a => exact absurd heq (by simp [RefreshWrite.entryId?])
  distinct := (h.stage t l live).distinct

/-- The numbers of a transaction stay unknown when another one commits. -/
theorem RefreshSound.newEntries_commit (h : RefreshSound w) (hne : u ≠ t)
    {l : Live RefreshOp RefreshWrite} (live : w.fates[u]? = some (.live l))
    {writes : List RefreshWrite} (hcommits : w.fates[t]? = some (.live ⟨[], writes⟩)) :
    NewEntries (writes.foldl applyRefreshWrite w.committed) l.writes where
  unknown x hx e he heq := by
    cases x with
    | record entry =>
      have hid : e.id = entry.id := (Option.some.inj heq).symm
      rcases Numbering.known_foldl refreshNumbers_respects writes w.committed
        (Or.inr ⟨e, he, rfl⟩) with hk | ⟨y, hy, hk⟩
      · exact h.fresh.unpublished ⟨l, live, hx⟩ entry.id rfl (hid ▸ hk)
      · exact hne (h.fresh.apart ⟨l, live, hx⟩ ⟨_, hcommits, hy⟩ rfl (hid ▸ hk))
    | endRow a T | insertRow a => exact absurd heq (by simp [RefreshWrite.entryId?])
  distinct := (h.stage u l live).distinct

/-- No row belongs to two transactions. -/
theorem RefreshSound.apart (h : RefreshSound w) (hne : u ≠ t) {l l' : Live RefreshOp RefreshWrite}
    (live : w.fates[t]? = some (.live l)) (live' : w.fates[u]? = some (.live l')) {k : ℕ}
    (hk : Owns w.committed (fun k => w.holder k = some t) l.writes k) :
    ¬Owns w.committed (fun k => w.holder k = some u) l'.writes k := by
  intro hk'
  rcases hk with ⟨hheld, a, ha, hid⟩ | ⟨b, hb, hid⟩
  · rcases hk' with ⟨hheld', _⟩ | ⟨b', hb', hid'⟩
    · exact hne (Option.some.inj (hheld'.symm.trans hheld))
    · exact h.fresh.unpublished ⟨l', live', hb'⟩ k hid'.symm (Or.inl ⟨a, ha, hid⟩)
  · rcases hk' with ⟨_, a, ha, hid'⟩ | ⟨b', hb', hid'⟩
    · exact h.fresh.unpublished ⟨l, live, hb⟩ k hid.symm (Or.inl ⟨a, ha, hid'⟩)
    · exact hne (h.fresh.apart ⟨l', live', hb'⟩ ⟨l, live, hb⟩ hid'.symm hid.symm)

theorem RefreshSound.next (h : RefreshSound w) (a : Action) :
    RefreshSound (w.next refreshCode a) where
  fresh := h.fresh.next refreshNumbers_respects a
  told := by
    cases (World.next_cases w a : WorldStep refreshCode w (w.next refreshCode a) a) with
    | committed t writes live after =>
      rw [after]
      exact fun k => (h.stage t _ live).told k fun ⟨_, _, _, heq, _⟩ => List.cons_ne_nil _ _ heq.symm
    | ran _ _ _ _ _ _ _ _ _ after
    | failed _ _ _ _ _ _ _ after
    | rolledBack _ _ _ after
    | waits _ after =>
      rw [after]
      exact h.told
  stage := by
    refine World.stage_next (fun _ _ _ _ hsub hstage => hstage.mono hsub)
      (fun t op todo more writes new live hstage ok => ?_)
      (fun t writes live hstage u l hu hl hstage' => ?_) h.stage
    · exact (hstage.mono fun k hk => Or.inl hk).exec (h.newEntries live)
        (fun x hx => h.fresh.given ⟨_, live, hx⟩) h.fresh.known
        (fun i hi => h.fresh.view_lt refreshNumbers_respects live hi) (fun k hk => Or.inr hk) ok
    · exact hstage.afterCommit (h.newEntries live) (h.newEntries hl)
        (h.newEntries_commit hu hl live) (fun k hk => h.apart hu live hl hk) hstage'

theorem RefreshSound.run (h : RefreshSound w) (actions : List Action) :
    RefreshSound (w.run refreshCode actions) := by
  induction actions generalizing w with
  | nil => exact h
  | cons a rest ih => exact ih (h.next a)

/-- A row that has ended stays as it is. -/
theorem RefreshSound.kept_next (h : RefreshSound w) (action : Action) {a : EmployeeAssignment}
    (ha : a ∈ w.committed.employeeAssignments) (hended : a.effectiveUntil ≠ none) :
    a ∈ (w.next refreshCode action).committed.employeeAssignments := by
  cases (World.next_cases w action : WorldStep refreshCode w (w.next refreshCode action) action) with
  | committed t writes live after =>
    rw [after, mem_iff_rowRecord]
    have hsame : (writes.foldl applyRefreshWrite w.committed).rowRecord a.id =
        w.committed.rowRecord a.id := by
      refine rowRecord_untouched (h.newEntries live) fun x hx => ?_
      rw [← Bool.not_eq_true]
      exact fun hk => hended ((h.stage t _ live).opened x hx a ha hk)
    exact (congrArg RowRecord.row hsame).trans (mem_iff_rowRecord.mp ha)
  | ran _ _ _ _ _ _ _ _ _ after
  | failed _ _ _ _ _ _ _ after
  | rolledBack _ _ _ after
  | waits _ after =>
    rw [after]
    exact ha

theorem RefreshSound.kept (h : RefreshSound w) (actions : List Action) {a : EmployeeAssignment}
    (ha : a ∈ w.committed.employeeAssignments) (hended : a.effectiveUntil ≠ none) :
    a ∈ (w.run refreshCode actions).committed.employeeAssignments := by
  induction actions generalizing w with
  | nil => exact ha
  | cons action rest ih => exact ih (h.next action) (h.kept_next action ha hended)

theorem RefreshSound.init {db : Db} (hjournal : Journaled db) (hhistory : SoundHistory db)
    (transactions : List RefreshTransaction) : RefreshSound (refreshWorld db transactions) where
  fresh := by
    refine .init ?_
    rintro i (⟨a, ha, rfl⟩ | ⟨e, he, rfl⟩)
    · exact (hjournal.rowsFresh a ha).trans_le (le_max_left _ _)
    · exact (hjournal.logFresh e he).trans_le (le_max_right _ _)
  told := hjournal.told hhistory.ranges
  stage := by
    intro t l hl
    obtain ⟨hwrites, htodo⟩ := World.init_live hl
    obtain ⟨requests, _, hrequests⟩ := List.mem_map.mp htodo
    have htold := hjournal.told hhistory.ranges
    refine ⟨by simp [hwrites], by simp [hwrites], by simp [hwrites], fun k _ => ?_, ?_⟩
    · rw [hwrites]
      exact htold k
    · rw [← hrequests]
      exact .begins requests

end

/-- However the refreshes of several transactions interleave after some operations, replaying the
audit log gives the open assignment rows, and a row that has ended has had a time and stays as it is:
no row is ended twice. -/
theorem concurrent_refreshes_journaled (facts : Facts) (sequences : Sequences)
    (calls : List OperationCall) (transactions : List RefreshTransaction)
    (first rest : List Action) :
    let w := (refreshWorld (runOperations (.unreconciled facts sequences) calls) transactions).run
      refreshCode first
    (∀ a, a ∈ replay w.committed.auditLogs ↔ a ∈ openRows w.committed) ∧
    ∀ a ∈ w.committed.employeeAssignments, ∀ u, a.effectiveUntil = some u →
      a.effectiveFrom < u ∧ a ∈ (w.run refreshCode rest).committed.employeeAssignments := by
  have hjournal := Journaled.run calls (journaled_unreconciled facts sequences)
  have hhistory := SoundHistory.run calls
    (AssignmentHistory.start rfl : AssignmentHistory (.unreconciled facts sequences)).sound
  have hsound := (RefreshSound.init hjournal hhistory transactions).run first
  refine ⟨replay_of_told hsound.told, fun a ha u hu => ⟨?_, ?_⟩⟩
  · exact (hsound.told a.id).range a (mem_iff_rowRecord.mp ha) u hu
  · exact hsound.kept rest ha (by simp [hu])

end Warp
