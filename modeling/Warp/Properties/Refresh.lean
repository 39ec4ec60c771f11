import Warp.Reconciliation

/-!
# What a refresh does to the assignment rows

Rows that are still desired stay as they are, the other open rows stop at the time of the refresh,
and the desired assignments that no open row had are new rows.
-/

namespace Warp

open Infra

/-! ## Frame -/

/-- Nothing but assignment rows and the audit log changes. -/
structure AssignmentsOnly (db db' : Db) : Prop where
  facts : db'.facts = db.facts
  employeePolicies : db'.employeePolicies = db.employeePolicies
  scheduledReconciliations : db'.scheduledReconciliations = db.scheduledReconciliations
  sequences : db'.sequences =
    { db.sequences with
      employeeAssignment := db'.sequences.employeeAssignment
      auditLog := db'.sequences.auditLog }

theorem AssignmentsOnly.refl (db : Db) : AssignmentsOnly db db := ⟨rfl, rfl, rfl, rfl⟩

theorem AssignmentsOnly.trans {db db' db'' : Db} (h : AssignmentsOnly db db')
    (h' : AssignmentsOnly db' db'') : AssignmentsOnly db db'' where
  facts := h'.facts.trans h.facts
  employeePolicies := h'.employeePolicies.trans h.employeePolicies
  scheduledReconciliations := h'.scheduledReconciliations.trans h.scheduledReconciliations
  sequences := by
    rw [h'.sequences, h.sequences]

section

variable {db : Db} {actor : Actor} {T : DateTime}

theorem endAssignment_frame (a : EmployeeAssignment) :
    AssignmentsOnly db (endAssignment T actor db a) := ⟨rfl, rfl, rfl, rfl⟩

theorem createAssignment_frame (a : EmployeeAssignment) :
    AssignmentsOnly db (createAssignment actor db a) := ⟨rfl, rfl, rfl, rfl⟩

theorem foldl_endAssignment_frame : ∀ {ended : List EmployeeAssignment} {db : Db},
    AssignmentsOnly db (ended.foldl (endAssignment T actor) db)
  | [], db => .refl db
  | a :: _, _ => (endAssignment_frame a).trans foldl_endAssignment_frame

theorem foldl_createAssignment_frame : ∀ {rows : List EmployeeAssignment} {db : Db},
    AssignmentsOnly db (rows.foldl (createAssignment actor) db)
  | [], db => .refl db
  | a :: _, _ => (createAssignment_frame a).trans foldl_createAssignment_frame

theorem writeAssignments_frame (employeeId : ℕ)
    (sync : KeyedSync EmployeeAssignment AssignmentKey FinalAssignment) :
    AssignmentsOnly db (writeAssignments db employeeId T actor sync) :=
  foldl_endAssignment_frame.trans foldl_createAssignment_frame

/-! ## Ending rows -/

theorem mem_endRow {rows : Table EmployeeAssignment} {a x : EmployeeAssignment} (ha : a ∈ rows) :
    x ∈ endRow T rows a ↔ (x ∈ rows ∧ x.id ≠ a.id) ∨
      (a.effectiveFrom ≠ T ∧ x = { a with effectiveUntil := some T }) := by
  unfold endRow
  split
  · next hT =>
    rw [Table.mem_filter]
    simp [hT]
  · next hT =>
    rw [Table.mem_modify]
    constructor
    · rintro ⟨r, hr, rfl⟩
      split
      · next hid =>
        rw [Table.key_inj hr ha hid]
        exact Or.inr ⟨hT, rfl⟩
      · next hid => exact Or.inl ⟨hr, hid⟩
    · rintro (⟨hx, hid⟩ | ⟨_, rfl⟩)
      · exact ⟨x, hx, if_neg hid⟩
      · exact ⟨a, ha, if_pos rfl⟩

theorem mem_endAssignments (actor : Actor) (T : DateTime) : ∀ {ended : List EmployeeAssignment} {db : Db} {x : EmployeeAssignment},
    (∀ a ∈ ended, a ∈ db.employeeAssignments) → (ended.map fun a => a.id).Nodup →
      (x ∈ (ended.foldl (endAssignment T actor) db).employeeAssignments ↔
        (x ∈ db.employeeAssignments ∧ x.id ∉ ended.map fun a => a.id) ∨
          ∃ a ∈ ended, a.effectiveFrom ≠ T ∧ x = { a with effectiveUntil := some T })
  | [], db, x, _, _ => by simp
  | a :: ended, db, x, hmem, hn => by
    obtain ⟨hfresh, hn⟩ := List.nodup_cons.mp hn
    have ha := hmem a List.mem_cons_self
    have hrest : ∀ b ∈ ended, b ∈ (endAssignment T actor db a).employeeAssignments := by
      intro b hb
      refine (mem_endRow ha).mpr (Or.inl ⟨hmem b (List.mem_cons_of_mem _ hb), fun hid => ?_⟩)
      exact hfresh (List.mem_map.mpr ⟨b, hb, hid⟩)
    rw [List.foldl_cons, mem_endAssignments actor T hrest hn,
      show x ∈ (endAssignment T actor db a).employeeAssignments ↔ _ from mem_endRow ha,
      List.map_cons, List.mem_cons, List.exists_mem_cons_iff]
    constructor
    · rintro (⟨⟨hx, hid⟩ | hx, hids⟩ | hx)
      · exact Or.inl ⟨hx, fun h => h.elim hid hids⟩
      · exact Or.inr (Or.inl hx)
      · exact Or.inr (Or.inr hx)
    · rintro (⟨hx, hids⟩ | ⟨hT, rfl⟩ | hx)
      · exact Or.inl ⟨Or.inl ⟨hx, fun h => hids (Or.inl h)⟩, fun h => hids (Or.inr h)⟩
      · exact Or.inl ⟨Or.inr ⟨hT, rfl⟩, hfresh⟩
      · exact Or.inr hx

theorem endAssignments_sequence : ∀ (ended : List EmployeeAssignment) (db : Db),
    (ended.foldl (endAssignment T actor) db).sequences.employeeAssignment =
      db.sequences.employeeAssignment
  | [], _ => rfl
  | a :: ended, db => endAssignments_sequence ended (endAssignment T actor db a)

/-! ## Creating rows -/

theorem mem_newAssignments {employeeId : ℕ} : ∀ {items : List FinalAssignment} {id : ℕ}
    {x : EmployeeAssignment}, x ∈ newAssignments employeeId T id items →
      id ≤ x.id ∧ x.employeeId = employeeId ∧ x.effectiveFrom = T ∧ x.effectiveUntil = none
  | [], id, x, h => by simp [newAssignments] at h
  | item :: items, id, x, h => by
    rcases List.mem_cons.mp h with rfl | h
    · exact ⟨le_rfl, rfl, rfl, rfl⟩
    · obtain ⟨hid, hrest⟩ := mem_newAssignments h
      exact ⟨(Nat.le_succ id).trans hid, hrest⟩

theorem newAssignments_keys {employeeId : ℕ} : ∀ {items : List FinalAssignment} {id : ℕ},
    (newAssignments employeeId T id items).map EmployeeAssignment.assignmentKey =
      items.map FinalAssignment.assignmentKey
  | [], _ => rfl
  | _ :: _, _ => congrArg (List.cons _) newAssignments_keys

/-- The ids of the rows are below the sequence. -/
def FreshAssignments (db : Db) : Prop :=
  ∀ a ∈ db.employeeAssignments, a.id < db.sequences.employeeAssignment

theorem mem_createAssignments (actor : Actor) (T : DateTime) (employeeId : ℕ) :
    ∀ {items : List FinalAssignment} {db : Db}, FreshAssignments db →
      (∀ x, x ∈ ((newAssignments employeeId T db.sequences.employeeAssignment items).foldl
          (createAssignment actor) db).employeeAssignments ↔
        x ∈ db.employeeAssignments ∨
          x ∈ newAssignments employeeId T db.sequences.employeeAssignment items) ∧
      FreshAssignments ((newAssignments employeeId T db.sequences.employeeAssignment items).foldl
        (createAssignment actor) db)
  | [], db, h => ⟨by simp [newAssignments], h⟩
  | item :: items, db, h => by
    have hne : ∀ b ∈ db.employeeAssignments, Row.key b ≠
        Row.key (newAssignment db.sequences.employeeAssignment employeeId T item) :=
      fun b hb => ne_of_lt (h b hb)
    have hfresh : FreshAssignments (createAssignment actor db
        (newAssignment db.sequences.employeeAssignment employeeId T item)) := by
      intro a ha
      rcases (Table.mem_insert_fresh hne).mp ha with rfl | ha
      · exact Nat.lt_succ_self _
      · exact (h a ha).trans (Nat.lt_succ_self _)
    obtain ⟨hmem, hrest⟩ := mem_createAssignments actor T employeeId hfresh
    refine ⟨fun x => ?_, hrest⟩
    rw [newAssignments, List.foldl_cons, List.mem_cons]
    refine (hmem x).trans ?_
    rw [show x ∈ (createAssignment actor db _).employeeAssignments ↔ _ from
      Table.mem_insert_fresh hne, or_assoc, or_left_comm]
    rfl

end

/-! ## One refresh -/

/-- The rows after a refresh at `T`, for the given outcome of the synchronisation. -/
structure Written (db db' : Db) (employeeId : ℕ) (T : DateTime)
    (sync : KeyedSync EmployeeAssignment AssignmentKey FinalAssignment) : Prop where
  frame : AssignmentsOnly db db'
  fresh : FreshAssignments db'
  rows : ∀ x, x ∈ db'.employeeAssignments ↔
    (x ∈ db.employeeAssignments ∧ x ∉ sync.ended) ∨
    (∃ a ∈ sync.ended, a.effectiveFrom ≠ T ∧ x = { a with effectiveUntil := some T }) ∨
    x ∈ newAssignments employeeId T db.sequences.employeeAssignment sync.leftover.values

section

variable {db db' : Db} {employeeId : ℕ} {T : DateTime} {actor : Actor}
  {items : List FinalAssignment}

theorem mem_openAssignments {a : EmployeeAssignment} : a ∈ openAssignments db employeeId ↔
    a ∈ db.employeeAssignments ∧ a.employeeId = employeeId ∧ a.effectiveUntil = none := by
  simp [openAssignments]

theorem mem_ended {a : EmployeeAssignment}
    (h : a ∈ (syncAssignments db employeeId items).ended) : a ∈ openAssignments db employeeId :=
  mem_syncRows.mpr (Or.inr h)

theorem writeAssignments_written (h : FreshAssignments db) :
    Written db (writeAssignments db employeeId T actor (syncAssignments db employeeId items))
      employeeId T (syncAssignments db employeeId items) := by
  have hmem : ∀ a ∈ (syncAssignments db employeeId items).ended, a ∈ db.employeeAssignments :=
    fun a ha => (mem_openAssignments.mp (mem_ended ha)).1
  have hn : ((syncAssignments db employeeId items).ended.map fun a => a.id).Nodup :=
    db.employeeAssignments.keys_nodup.sublist
      ((ended_sublist.trans List.filter_sublist).map _)
  have hended := fun x => mem_endAssignments actor T (x := x) hmem hn
  have hids : ∀ x ∈ db.employeeAssignments,
      x.id ∉ (syncAssignments db employeeId items).ended.map (fun a => a.id) ↔
        x ∉ (syncAssignments db employeeId items).ended := by
    intro x hx
    refine not_congr ⟨fun hid => ?_, fun hm => List.mem_map_of_mem hm⟩
    obtain ⟨a, ha, he⟩ := List.mem_map.mp hid
    rw [← Table.key_inj (hmem a ha) hx he]
    exact ha
  have hfresh : FreshAssignments ((syncAssignments db employeeId items).ended.foldl
      (endAssignment T actor) db) := by
    intro x hx
    rw [endAssignments_sequence]
    rcases (hended x).mp hx with ⟨hx, _⟩ | ⟨a, ha, _, rfl⟩
    · exact h x hx
    · exact h a (hmem a ha)
  have hnew := @mem_createAssignments actor T employeeId
    (syncAssignments db employeeId items).leftover.values _ hfresh
  rw [endAssignments_sequence] at hnew
  refine ⟨writeAssignments_frame employeeId _, hnew.2, fun x => (hnew.1 x).trans ?_⟩
  rw [hended x, or_assoc]
  refine or_congr_left (and_congr_right fun hx => hids x hx)

/-- An accepted refresh does not lie before the start of a row. -/
theorem rejectOutOfOrder_eq_ok :
    rejectOutOfOrderReconciliation db employeeId T = .ok () ↔
      ∀ a ∈ db.employeeAssignments, a.employeeId = employeeId → a.effectiveFrom ≤ T := by
  have hrows : (∀ t ∈ (employeeRows db employeeId).map (fun a => a.effectiveFrom), t ≤ T) ↔
      ∀ a ∈ db.employeeAssignments, a.employeeId = employeeId → a.effectiveFrom ≤ T := by
    simp only [employeeRows, List.mem_map, Table.mem_select, decide_eq_true_eq]
    constructor
    · exact fun h a ha he => h _ ⟨a, ⟨ha, he⟩, rfl⟩
    · rintro h _ ⟨a, ⟨ha, he⟩, rfl⟩
      exact h a ha he
  rw [← hrows]
  unfold rejectOutOfOrderReconciliation latestStart?
  cases hmax : ((employeeRows db employeeId).map fun a => a.effectiveFrom).max? with
  | none =>
    rw [List.max?_eq_none_iff] at hmax
    simp [hmax]
  | some latest =>
    obtain ⟨hmem, hle⟩ := List.max?_eq_some_iff.mp hmax
    simp only [ensure_eq_ok, decide_eq_true_eq]
    exact ⟨fun h t ht => (hle t ht).trans h, fun h => h latest hmem⟩

/-! ## The open rows afterwards -/

theorem mem_desiredByKey {k : AssignmentKey} {item : FinalAssignment}
    (h : (k, item) ∈ (desiredByKey items).entries) : item ∈ items ∧ k = item.assignmentKey := by
  obtain ⟨item', hm, he⟩ := List.mem_map.mp (Dict.mem_of_mem_ofList h)
  cases he
  exact ⟨hm, rfl⟩

theorem mem_keys_desiredByKey {k : AssignmentKey} :
    k ∈ (desiredByKey items).keys ↔ k ∈ items.map FinalAssignment.assignmentKey := by
  rw [desiredByKey, Dict.mem_keys_ofList, List.map_map]
  rfl

theorem leftover_keys : (syncAssignments db employeeId items).leftover.values.map
    FinalAssignment.assignmentKey = (syncAssignments db employeeId items).leftover.keys := by
  rw [Dict.values, Dict.keys, List.map_map]
  refine List.map_congr_left fun p hp => ?_
  exact (mem_desiredByKey (leftover_subset hp)).2.symm

/-- The open rows are those that stay and the new ones. -/
theorem Written.mem_open (h : Written db db' employeeId T (syncAssignments db employeeId items))
    {x : EmployeeAssignment} : x ∈ openAssignments db' employeeId ↔
      x ∈ (syncAssignments db employeeId items).kept ∨
        x ∈ newAssignments employeeId T db.sequences.employeeAssignment
          (syncAssignments db employeeId items).leftover.values := by
  rw [mem_openAssignments, h.rows]
  constructor
  · rintro ⟨⟨hx, hne⟩ | ⟨a, _, _, rfl⟩ | hx, hid, hopen⟩
    · have hm := mem_openAssignments.mpr ⟨hx, hid, hopen⟩
      exact Or.inl ((mem_syncRows.mp hm).resolve_right hne)
    · exact absurd hopen (by simp)
    · exact Or.inr hx
  · rintro (hx | hx)
    · obtain ⟨hm, hid, hopen⟩ := mem_openAssignments.mp (mem_syncRows.mpr (Or.inl hx))
      refine ⟨Or.inl ⟨hm, fun hend => ?_⟩, hid, hopen⟩
      have hn : (openAssignments db employeeId).Nodup := Table.select_nodup _ _
      have hperm : ((syncAssignments db employeeId items).kept ++
          (syncAssignments db employeeId items).ended).Nodup := syncRows_perm.nodup_iff.mpr hn
      exact (List.nodup_append.mp hperm).2.2 x hx x hend rfl
    · obtain ⟨_, hid, _, hopen⟩ := mem_newAssignments hx
      exact ⟨Or.inr (Or.inr hx), hid, hopen⟩

theorem Written.open_perm (h : Written db db' employeeId T (syncAssignments db employeeId items)) :
    ((openAssignments db' employeeId).map EmployeeAssignment.assignmentKey).Perm
      (desiredByKey items).keys := by
  have hnew : (newAssignments employeeId T db.sequences.employeeAssignment
      (syncAssignments db employeeId items).leftover.values).map EmployeeAssignment.assignmentKey =
        (syncAssignments db employeeId items).leftover.keys := by
    rw [newAssignments_keys, leftover_keys]
  have hrows : (openAssignments db' employeeId).Perm
      ((syncAssignments db employeeId items).kept ++ newAssignments employeeId T
        db.sequences.employeeAssignment (syncAssignments db employeeId items).leftover.values) := by
    refine (List.perm_ext_iff_of_nodup (Table.select_nodup _ _) ?_).mpr fun x => ?_
    · refine List.Nodup.of_map EmployeeAssignment.assignmentKey ?_
      rw [List.map_append, hnew]
      exact syncRows_keys.nodup_iff.mpr (Dict.keys_nodup _)
    · exact h.mem_open.trans List.mem_append.symm
  refine (hrows.map _).trans ?_
  rw [List.map_append, hnew]
  exact syncRows_keys

/-- After a refresh the keys of the open rows are the desired keys. -/
theorem Written.open_keys (h : Written db db' employeeId T (syncAssignments db employeeId items))
    {k : AssignmentKey} :
    k ∈ (openAssignments db' employeeId).map EmployeeAssignment.assignmentKey ↔
      k ∈ items.map FinalAssignment.assignmentKey :=
  h.open_perm.mem_iff.trans mem_keys_desiredByKey

/-! ## The other employees -/

theorem mem_employeeRows {a : EmployeeAssignment} :
    a ∈ employeeRows db employeeId ↔ a ∈ db.employeeAssignments ∧ a.employeeId = employeeId := by
  simp [employeeRows]

/-- The rows of the other employees stay. -/
theorem Written.other_rows (h : Written db db' employeeId T (syncAssignments db employeeId items))
    {e : ℕ} (hne : e ≠ employeeId) : employeeRows db' e = employeeRows db e := by
  refine Table.select_congr fun x => ?_
  simp only [decide_eq_true_eq]
  refine and_congr_left fun hx => ?_
  rw [h.rows]
  constructor
  · rintro (⟨hm, _⟩ | ⟨a, ha, _, rfl⟩ | hnew)
    · exact hm
    · exact absurd (hx.symm.trans (mem_openAssignments.mp (mem_ended ha)).2.1) hne
    · exact absurd (hx.symm.trans (mem_newAssignments hnew).2.1) hne
  · refine fun hm => Or.inl ⟨hm, fun hend => ?_⟩
    exact hne (hx.symm.trans (mem_openAssignments.mp (mem_ended hend)).2.1)

theorem openAssignments_eq : openAssignments db employeeId =
    (employeeRows db employeeId).filter fun a => a.effectiveUntil.isNone := by
  rw [openAssignments, employeeRows, Table.select_eq_rows_filter, Table.select_eq_rows_filter]
  show db.employeeAssignments.rows.filter _ = (db.employeeAssignments.rows.filter _).filter _
  rw [List.filter_filter]
  exact List.filter_congr fun a _ => Bool.and_comm _ _

theorem Written.others_open
    (h : Written db db' employeeId T (syncAssignments db employeeId items)) {e : ℕ}
    (hne : e ≠ employeeId) : openAssignments db' e = openAssignments db e := by
  rw [openAssignments_eq, openAssignments_eq, h.other_rows hne]

end

end Warp
