import Warp.Properties.ConflictResolution
import Warp.Properties.Refresh

/-!
# The assignment timeline

Rows of an employee that exclude each other (the same value twice, or two values of a one-valued
field) should never be valid at the same time. The order guard of a refresh looks at the starts of
the rows only. What it takes is that a refresh lies before no stop of a row either.
-/

namespace Warp

open Infra

/-- Two assignments that an employee cannot have at the same time. -/
def AssignmentIdentity.excludes (oneValued : ℕ → Prop) (i j : AssignmentIdentity) : Prop :=
  i.assignmentFieldDefinitionId = j.assignmentFieldDefinitionId ∧
    (i.value = j.value ∨ oneValued i.assignmentFieldDefinitionId)

theorem AssignmentIdentity.excludes_symm {oneValued : ℕ → Prop} (i j : AssignmentIdentity)
    (h : i.excludes oneValued j) : j.excludes oneValued i := by
  obtain ⟨hf, hv⟩ := h
  refine ⟨hf.symm, hv.imp Eq.symm fun hone => ?_⟩
  rw [← hf]
  exact hone

/-- The rows of an employee that exclude each other do not overlap. -/
def EmployeeTimeline (oneValued : ℕ → Prop) (db : Db) (employeeId : ℕ) : Prop :=
  Timeline (fun a b : EmployeeAssignment => a.identity.excludes oneValued b.identity)
    (employeeRows db employeeId)

/-- No two of the desired assignments exclude each other. -/
def ApartItems (oneValued : ℕ → Prop) (items : List FinalAssignment) : Prop :=
  (items.map FinalAssignment.identity).Pairwise fun i j => ¬ i.excludes oneValued j

/-- No row of the employee stops after the time. -/
def StopsBy (db : Db) (employeeId : ℕ) (T : DateTime) : Prop :=
  ∀ a ∈ employeeRows db employeeId, ∀ u, a.effectiveUntil = some u → u ≤ T

/-! ## One refresh -/

section

variable {oneValued : ℕ → Prop} {db db' : Db} {employeeId : ℕ} {T : DateTime}
  {items : List FinalAssignment}

theorem validAt_iff {a : EmployeeAssignment} : a.validAt T = true ↔ ValidAt a T := by
  unfold EmployeeAssignment.validAt ValidAt
  rw [Bool.and_eq_true, decide_eq_true_eq]
  refine and_congr_right fun _ => ?_
  simp only [Period.stop]
  cases a.effectiveUntil with
  | none => simp
  | some u => simp

theorem mem_asOf {a : EmployeeAssignment} : a ∈ getEmployeeAssignmentsAsOf db employeeId T ↔
    a ∈ employeeRows db employeeId ∧ ValidAt a T := by
  rw [getEmployeeAssignmentsAsOf, mem_orderBy, Table.mem_select, mem_employeeRows,
    Bool.and_eq_true, validAt_iff, decide_eq_true_eq, and_assoc]

theorem ApartItems.keys_nodup (h : ApartItems oneValued items) :
    (items.map FinalAssignment.assignmentKey).Nodup := by
  have hn : (items.map FinalAssignment.identity).Nodup :=
    h.imp fun hij he => hij ⟨congrArg _ he, Or.inl (congrArg _ he)⟩
  refine List.Nodup.of_map Prod.fst ?_
  rw [List.map_map]
  exact hn

/-- With distinct keys the open rows are the desired assignments, one row for each. -/
theorem Written.open_perm_items (hapart : ApartItems oneValued items)
    (h : Written db db' employeeId T (syncAssignments db employeeId items)) :
    ((openAssignments db' employeeId).map EmployeeAssignment.assignmentKey).Perm
      (items.map FinalAssignment.assignmentKey) := by
  refine h.open_perm.trans ?_
  refine (List.perm_ext_iff_of_nodup (Dict.keys_nodup _) hapart.keys_nodup).mpr fun k => ?_
  exact mem_keys_desiredByKey

/-- Open rows do not exclude each other. -/
theorem Written.open_apart (hapart : ApartItems oneValued items)
    (h : Written db db' employeeId T (syncAssignments db employeeId items)) :
    (openAssignments db' employeeId).Pairwise fun a b =>
      ¬ a.identity.excludes oneValued b.identity := by
  have hperm := (h.open_perm_items hapart).map Prod.fst
  rw [List.map_map, List.map_map] at hperm
  have hsymm : ∀ {i j : AssignmentIdentity}, ¬ i.excludes oneValued j →
      ¬ j.excludes oneValued i := fun hij hji => hij (AssignmentIdentity.excludes_symm _ _ hji)
  exact List.pairwise_map.mp ((hperm.pairwise_iff hsymm).mpr hapart)

/-- Where a row of the employee comes from: a row that has become no longer, or it is new. -/
theorem Written.origin (h : Written db db' employeeId T (syncAssignments db employeeId items))
    {x : EmployeeAssignment} (hx : x ∈ employeeRows db' employeeId) :
    (∃ a ∈ employeeRows db employeeId, a.id = x.id ∧ a.identity = x.identity ∧
      (∀ t, ValidAt x t → ValidAt a t) ∧ (x = a ∨ x.effectiveUntil = some T)) ∨
    (x.effectiveFrom = T ∧ x.effectiveUntil = none) := by
  obtain ⟨hm, hid⟩ := mem_employeeRows.mp hx
  rcases (h.rows x).mp hm with ⟨hold, _⟩ | ⟨a, ha, _, rfl⟩ | hnew
  · exact Or.inl ⟨x, mem_employeeRows.mpr ⟨hold, hid⟩, rfl, rfl, fun _ ht => ht, Or.inl rfl⟩
  · obtain ⟨hold, hidA, hopen⟩ := mem_openAssignments.mp (mem_ended ha)
    refine Or.inl ⟨a, mem_employeeRows.mpr ⟨hold, hidA⟩, rfl, rfl, fun t ht => ?_, Or.inr rfl⟩
    refine ⟨ht.1, fun u hu => ?_⟩
    rw [show Period.stop a = none from hopen] at hu
    exact absurd hu (by simp)
  · obtain ⟨_, _, hfrom, huntil⟩ := mem_newAssignments hnew
    exact Or.inr ⟨hfrom, huntil⟩

/-- A refresh that lies before no stop of a row keeps the timeline. -/
theorem Written.timeline (hapart : ApartItems oneValued items)
    (h : Written db db' employeeId T (syncAssignments db employeeId items))
    (htime : EmployeeTimeline oneValued db employeeId) (hstops : StopsBy db employeeId T) :
    EmployeeTimeline oneValued db' employeeId := by
  have hopen := h.open_apart hapart
  have hclosed : ∀ x ∈ employeeRows db' employeeId, ∀ y ∈ employeeRows db' employeeId, x ≠ y →
      x.effectiveUntil ≠ none → x.identity.excludes oneValued y.identity → ¬ Overlap x y := by
    intro x hx y hy hne hstop hex
    rcases h.origin hx with ⟨a, ha, hida, hia, hva, hxa⟩ | ⟨_, hnone⟩
    · rcases h.origin hy with ⟨b, hb, hidb, hib, hvb, _⟩ | ⟨hfrom, _⟩
      · have hab : a ≠ b := by
          rintro rfl
          refine hne (Table.key_inj (mem_employeeRows.mp hx).1 (mem_employeeRows.mp hy).1 ?_)
          exact hida.symm.trans hidb
        have hexab : a.identity.excludes oneValued b.identity := by
          rw [hia, hib]
          exact hex
        have hapartab := htime.forall (fun _ _ => AssignmentIdentity.excludes_symm _ _)
          ha hb hab hexab
        exact fun ho => hapartab (ho.mono hva hvb)
      · -- the other row starts at the refresh, and this one has stopped by then
        obtain ⟨u, hu⟩ := Option.ne_none_iff_exists'.mp hstop
        refine not_overlap_of_stop_le (u := u) hu ?_
        show u ≤ y.effectiveFrom
        rw [hfrom]
        rcases hxa with rfl | hT
        · exact hstops x ha u hu
        · rw [hT] at hu
          exact le_of_eq (Option.some.inj hu).symm
    · exact absurd hnone hstop
  refine List.Nodup.pairwise_of_forall_ne (Table.select_nodup _ _) fun x hx y hy hne hex => ?_
  -- of two rows one has ended, or both are open and kept apart
  by_cases hxopen : x.effectiveUntil = none
  · by_cases hyopen : y.effectiveUntil = none
    · obtain ⟨hxm, hxid⟩ := mem_employeeRows.mp hx
      obtain ⟨hym, hyid⟩ := mem_employeeRows.mp hy
      have : Std.Symm fun a b : EmployeeAssignment => ¬ a.identity.excludes oneValued b.identity :=
        ⟨fun _ _ hij hji => hij (AssignmentIdentity.excludes_symm _ _ hji)⟩
      exact absurd hex (hopen.forall (mem_openAssignments.mpr ⟨hxm, hxid, hxopen⟩)
        (mem_openAssignments.mpr ⟨hym, hyid, hyopen⟩) hne)
    · exact fun ho => hclosed y hy x hx hne.symm hyopen
        (AssignmentIdentity.excludes_symm _ _ hex) ho.symm
  · exact hclosed x hx y hy hne hxopen hex

/-- The rows valid at the time of the refresh are the desired assignments exactly when no row stops
later. -/
theorem Written.asOf_iff (hapart : ApartItems oneValued items)
    (h : Written db db' employeeId T (syncAssignments db employeeId items))
    (hstarts : ∀ a ∈ db.employeeAssignments, a.employeeId = employeeId → a.effectiveFrom ≤ T) :
    ((getEmployeeAssignmentsAsOf db' employeeId T).map EmployeeAssignment.assignmentKey).Perm
      (items.map FinalAssignment.assignmentKey) ↔ StopsBy db employeeId T := by
  have hperm := h.open_perm_items hapart
  have hvalid : ∀ x ∈ openAssignments db' employeeId,
      x ∈ getEmployeeAssignmentsAsOf db' employeeId T := by
    intro x hx
    obtain ⟨hm, hid, hopen⟩ := mem_openAssignments.mp hx
    refine mem_asOf.mpr ⟨mem_employeeRows.mpr ⟨hm, hid⟩, ?_, fun u hu => ?_⟩
    · rcases h.mem_open.mp hx with hk | hn
      · obtain ⟨hold, _, _⟩ := mem_openAssignments.mp (mem_syncRows.mpr (Or.inl hk))
        exact hstarts x hold hid
      · exact le_of_eq (mem_newAssignments hn).2.2.1
    · exact absurd (hopen.symm.trans hu) (by simp)
  have hnodup : (getEmployeeAssignmentsAsOf db' employeeId T).Nodup :=
    orderBy_nodup (Table.select_nodup _ _)
  constructor
  · intro hasof a ha u hu
    by_contra hlate
    obtain ⟨hm, hid⟩ := mem_employeeRows.mp ha
    -- the late row is unchanged, and valid besides the open ones
    have hkept : a ∈ db'.employeeAssignments := by
      refine (h.rows a).mpr (Or.inl ⟨hm, fun hend => ?_⟩)
      exact absurd ((mem_openAssignments.mp (mem_ended hend)).2.2.symm.trans hu) (by simp)
    have hnot : a ∉ openAssignments db' employeeId := by
      intro ho
      exact absurd ((mem_openAssignments.mp ho).2.2.symm.trans hu) (by simp)
    have hmem : a ∈ getEmployeeAssignmentsAsOf db' employeeId T := by
      refine mem_asOf.mpr ⟨mem_employeeRows.mpr ⟨hkept, hid⟩, hstarts a hm hid, fun v hv => ?_⟩
      rw [Option.some.inj ((show Period.stop a = some u from hu).symm.trans hv)] at hlate
      exact not_le.mp hlate
    have hsub : (a :: openAssignments db' employeeId).Subperm
        (getEmployeeAssignmentsAsOf db' employeeId T) := by
      refine List.Nodup.subperm (List.nodup_cons.mpr ⟨hnot, Table.select_nodup _ _⟩) fun x hx => ?_
      rcases List.mem_cons.mp hx with rfl | hx
      · exact hmem
      · exact hvalid x hx
    have hle := hsub.length_le
    have h1 := hasof.length_eq
    have h2 := hperm.length_eq
    simp only [List.length_map, List.length_cons] at hle h1 h2
    omega
  · intro hstops
    refine List.Perm.trans ?_ hperm
    refine List.Perm.map _ ((List.perm_ext_iff_of_nodup hnodup (Table.select_nodup _ _)).mpr ?_)
    intro x
    refine ⟨fun hx => ?_, hvalid x⟩
    obtain ⟨hrow, hvalidx⟩ := mem_asOf.mp hx
    obtain ⟨hm, hid⟩ := mem_employeeRows.mp hrow
    refine mem_openAssignments.mpr ⟨hm, hid, ?_⟩
    by_contra hclosed
    obtain ⟨u, hu⟩ := Option.ne_none_iff_exists'.mp hclosed
    have hlt := hvalidx.2 u hu
    rcases h.origin hrow with ⟨a, ha, _, _, _, rfl | hT⟩ | ⟨_, hnone⟩
    · exact absurd (hstops x ha u hu) (not_le.mpr hlt)
    · rw [hT] at hu
      exact absurd hlt (by rw [Option.some.inj hu]; exact lt_irrefl _)
    · exact hclosed hnone

end

/-! ## Sequences of calls -/

/-- A call of `refresh_employee_assignments` with the facts that it finds. The overrides are those
that their validation admits, and the cardinality of a field never changes. -/
structure RefreshCall (oneValued : ℕ → Prop) where
  employeeId : ℕ
  facts : Facts
  employeePolicies : Table EmployeePolicy
  evaluationDate : Option Date
  reconciliationAt : Option DateTime
  /-- The date of the resolution that the caller passes as the desired assignments. -/
  resolvedFor : Option Date
  actor : Actor
  now : DateTime
  admitted : OverridesAdmitted facts employeeId
  known : ∀ o ∈ facts.employeeOverrides,
    ∃ f ∈ facts.assignmentFieldDefinitions, f.id = o.assignmentFieldDefinitionId
  cardinalities : ∀ f ∈ facts.assignmentFieldDefinitions, f.cardinality = .one ↔ oneValued f.id

namespace RefreshCall

variable {oneValued : ℕ → Prop}

def timestamp (c : RefreshCall oneValued) : DateTime :=
  reconciliationTimestamp c.evaluationDate c.reconciliationAt c.now

/-- The database as the call finds it. -/
def found (c : RefreshCall oneValued) (db : Db) : Db :=
  { db with facts := c.facts, employeePolicies := c.employeePolicies }

/-- `desired_assignments` -/
def passed (c : RefreshCall oneValued) : Except ServiceError (Option (List FinalAssignment)) :=
  match c.resolvedFor with
  | none => .ok none
  | some day =>
    (resolveEmployeeAssignmentsForDate c.facts c.employeeId day).map fun r => some r.assignments

/-- The assignments that the call wants the employee to have. -/
def desired (c : RefreshCall oneValued) (db : Db) : Except ServiceError (List FinalAssignment) :=
  match c.passed with
  | .error e => .error e
  | .ok passed =>
    finalAssignments (c.found db) c.employeeId (c.evaluationDate.getD c.timestamp.date) passed

def run (c : RefreshCall oneValued) (db : Db) :
    Except ServiceError (Db × List EmployeeAssignment) :=
  match c.passed with
  | .error e => .error e
  | .ok passed =>
    refreshEmployeeAssignments (c.found db) c.employeeId c.evaluationDate c.reconciliationAt c.actor
      passed c.now

/-- A refused call changes nothing. -/
def after (c : RefreshCall oneValued) (db : Db) : Db :=
  match c.run db with
  | .error _ => db
  | .ok (db', _) => db'

end RefreshCall

section

variable {oneValued : ℕ → Prop} {db db' : Db} {rows : List EmployeeAssignment}

/-- After every accepted call no rows that exclude each other overlap, and the rows valid at the
time of the call are the assignments it wanted. -/
def KeepsTimeline : Db → List (RefreshCall oneValued) → Prop
  | _, [] => True
  | db, c :: rest =>
    (∀ db' rows, c.run db = .ok (db', rows) →
      (∀ employeeId, EmployeeTimeline oneValued db' employeeId) ∧
      ∃ items, c.desired db = .ok items ∧
        ((getEmployeeAssignmentsAsOf db' c.employeeId c.timestamp).map
          EmployeeAssignment.assignmentKey).Perm (items.map FinalAssignment.assignmentKey)) ∧
    KeepsTimeline (c.after db) rest

/-- No accepted call lies before a stop that is recorded for its employee. -/
def BeforeNoStop : Db → List (RefreshCall oneValued) → Prop
  | _, [] => True
  | db, c :: rest =>
    (∀ db' rows, c.run db = .ok (db', rows) → StopsBy db c.employeeId c.timestamp) ∧
    BeforeNoStop (c.after db) rest

theorem apartItems_of_resolved {facts : Facts} {employeeId : ℕ} {day : Date}
    {resolved : List ResolvedAssignment} {policyIds : List ℕ} {policyMatches : PolicyMatches}
    (hr : resolvePolicyAssignments facts.toRules policyIds day policyMatches = .ok resolved)
    (hadm : OverridesAdmitted facts employeeId)
    (hknown : ∀ o ∈ facts.employeeOverrides,
      ∃ f ∈ facts.assignmentFieldDefinitions, f.id = o.assignmentFieldDefinitionId)
    (hcard : ∀ f ∈ facts.assignmentFieldDefinitions, f.cardinality = .one ↔ oneValued f.id) :
    ApartItems oneValued
      (applyEmployeeOverrides facts.toRules resolved (activeOverrides facts employeeId)) := by
  refine List.pairwise_map.mpr ((applyEmployeeOverrides_apart hr hadm).imp_of_mem ?_)
  rintro a b ha _ hab ⟨hf, hv⟩
  obtain ⟨hne, hmany⟩ := hab hf
  refine hv.elim hne fun hone => hmany ?_
  have hfield : ∃ f ∈ facts.assignmentFieldDefinitions, f.id = a.assignmentFieldDefinitionId := by
    rcases applyEmployeeOverrides_field hr ha with h | ⟨o, ho, hid⟩
    · exact h
    · rw [← hid]
      exact hknown o ho
  obtain ⟨f, hfm, hfid⟩ := hfield
  refine ⟨f, hfm, hfid, (hcard f hfm).mpr ?_⟩
  rw [hfid]
  exact hone

theorem RefreshCall.desired_apart {c : RefreshCall oneValued} {items : List FinalAssignment}
    (h : c.desired db = .ok items) : ApartItems oneValued items := by
  unfold RefreshCall.desired RefreshCall.passed at h
  cases hday : c.resolvedFor with
  | none =>
    rw [hday] at h
    obtain ⟨resolved, hr, rfl⟩ := exceptMap_eq_ok.mp h
    exact apartItems_of_resolved hr c.admitted c.known c.cardinalities
  | some day =>
    rw [hday] at h
    dsimp only at h
    split at h
    · exact absurd h (by simp)
    · next passed hp =>
      obtain ⟨r, hres, rfl⟩ := exceptMap_eq_ok.mp hp
      cases h
      unfold resolveEmployeeAssignmentsForDate at hres
      split at hres
      · exact absurd hres (by simp)
      · split at hres
        · exact absurd hres (by simp)
        · next resolved hr =>
          cases hres
          have hapart := apartItems_of_resolved hr c.admitted c.known c.cardinalities
          unfold ApartItems at hapart ⊢
          rw [List.map_map]
          exact hapart

/-- What an accepted call does. -/
theorem RefreshCall.run_eq_ok {c : RefreshCall oneValued} (hfresh : FreshAssignments db)
    (h : c.run db = .ok (db', rows)) :
    ∃ items, c.desired db = .ok items ∧ ApartItems oneValued items ∧
      (∀ a ∈ db.employeeAssignments, a.employeeId = c.employeeId →
        a.effectiveFrom ≤ c.timestamp) ∧
      Written (c.found db) db' c.employeeId c.timestamp
        (syncAssignments (c.found db) c.employeeId items) := by
  have hdesired : ∃ items, c.desired db = .ok items ∧
      rejectOutOfOrderReconciliation (c.found db) c.employeeId c.timestamp = .ok () ∧
      db' = writeAssignments (c.found db) c.employeeId c.timestamp c.actor
        (syncAssignments (c.found db) c.employeeId items) := by
    unfold RefreshCall.run at h
    unfold RefreshCall.desired
    split at h
    · exact absurd h (by simp)
    · unfold refreshEmployeeAssignments at h
      split at h
      · exact absurd h (by simp)
      · next horder =>
        split at h
        · exact absurd h (by simp)
        · next items hitems =>
          cases h
          exact ⟨items, hitems, horder, rfl⟩
  obtain ⟨items, hitems, horder, rfl⟩ := hdesired
  refine ⟨items, hitems, RefreshCall.desired_apart hitems, ?_, writeAssignments_written hfresh⟩
  exact rejectOutOfOrder_eq_ok.mp horder

theorem keepsTimeline_iff : ∀ (calls : List (RefreshCall oneValued)) {db : Db},
    FreshAssignments db → (∀ employeeId, EmployeeTimeline oneValued db employeeId) →
      (KeepsTimeline db calls ↔ BeforeNoStop db calls)
  | [], _, _, _ => Iff.rfl
  | c :: rest, db, hfresh, htime => by
    rw [KeepsTimeline, BeforeNoStop]
    unfold RefreshCall.after
    cases hrun : c.run db with
    | error e => simp [keepsTimeline_iff rest hfresh htime]
    | ok out =>
      obtain ⟨db', rows⟩ := out
      obtain ⟨items, hitems, hapart, hstarts, hwritten⟩ := RefreshCall.run_eq_ok hfresh hrun
      have hasof := hwritten.asOf_iff hapart hstarts
      have htimeline : StopsBy db c.employeeId c.timestamp →
          ∀ employeeId, EmployeeTimeline oneValued db' employeeId := by
        intro hstops employeeId
        by_cases he : employeeId = c.employeeId
        · rw [he]
          exact hwritten.timeline hapart (htime c.employeeId) hstops
        · unfold EmployeeTimeline
          rw [hwritten.other_rows he]
          exact htime employeeId
      have hnow : (∀ db'' rows', (.ok (db', rows) : Except ServiceError _) = .ok (db'', rows') →
          (∀ employeeId, EmployeeTimeline oneValued db'' employeeId) ∧
          ∃ items, c.desired db = .ok items ∧
            ((getEmployeeAssignmentsAsOf db'' c.employeeId c.timestamp).map
              EmployeeAssignment.assignmentKey).Perm (items.map FinalAssignment.assignmentKey)) ↔
          StopsBy db c.employeeId c.timestamp := by
        constructor
        · intro h
          obtain ⟨items', hitems', hperm⟩ := (h db' rows rfl).2
          rw [hitems] at hitems'
          cases hitems'
          exact hasof.mp hperm
        · rintro hstops db'' rows' he
          cases he
          exact ⟨htimeline hstops, items, hitems, hasof.mpr hstops⟩
      rw [hnow]
      constructor
      · rintro ⟨hstops, hrest⟩
        refine ⟨fun _ _ _ => hstops, ?_⟩
        exact (keepsTimeline_iff rest hwritten.fresh (htimeline hstops)).mp hrest
      · rintro ⟨hstops, hrest⟩
        have hstops := hstops db' rows rfl
        exact ⟨hstops, (keepsTimeline_iff rest hwritten.fresh (htimeline hstops)).mpr hrest⟩

/-- From the first call on, the timeline is kept exactly while no accepted call lies before a
recorded stop. -/
theorem refresh_assignment_timeline (oneValued : ℕ → Prop) (calls : List (RefreshCall oneValued)) :
    KeepsTimeline .empty calls ↔ BeforeNoStop .empty calls := by
  refine keepsTimeline_iff calls (fun a ha => absurd ha Table.not_mem_empty) fun employeeId => ?_
  have hrows : employeeRows .empty employeeId = [] := rfl
  unfold EmployeeTimeline
  rw [hrows]
  exact List.Pairwise.nil

end

/-! ## An override that comes and goes -/

/-- An employee with a laptop override, or with none. -/
def overrideFacts (overrides : List EmployeeOverride) : Facts :=
  { Facts.empty with
    assignmentFieldDefinitions := .ofRows [⟨1, "laptop", .one, "priority", .text⟩]
    employeeOverrides := .ofRows overrides }

def overrideCall (active : Bool) (T : DateTime) : RefreshCall (fun _ => True) where
  employeeId := 1
  facts := overrideFacts (if active then [⟨1, 1, 1, "custom", none⟩] else [])
  employeePolicies := .empty
  evaluationDate := none
  reconciliationAt := some T
  resolvedFor := none
  actor := .system
  now := T
  admitted := by
    have hone : (activeOverrides (overrideFacts (if active then [⟨1, 1, 1, "custom", none⟩] else []))
        1).length ≤ 1 := by
      cases active <;> decide +kernel
    have hsame : ∀ o ∈ activeOverrides (overrideFacts
        (if active then [⟨1, 1, 1, "custom", none⟩] else [])) 1, ∀ p ∈ activeOverrides
          (overrideFacts (if active then [⟨1, 1, 1, "custom", none⟩] else [])) 1, o = p := by
      intro o ho p hp
      generalize activeOverrides _ 1 = l at hone ho hp
      match l, hone with
      | [x], _ => rw [List.mem_singleton.mp ho, List.mem_singleton.mp hp]
    exact ⟨fun o ho p hp _ _ => hsame o ho p hp, fun o ho p hp _ _ => hsame o ho p hp⟩
  known := by
    have hall : ∀ o ∈ (overrideFacts (if active then [⟨1, 1, 1, "custom", none⟩] else
        [])).employeeOverrides.rows, o.assignmentFieldDefinitionId = 1 := by
      cases active <;> decide +kernel
    exact fun o ho => ⟨⟨1, "laptop", .one, "priority", .text⟩, by
      rw [Table.mem_def]
      cases active <;> decide +kernel, (hall o ho).symm⟩
  cardinalities := by
    have hall : ∀ f ∈ (overrideFacts (if active then [⟨1, 1, 1, "custom", none⟩] else
        [])).assignmentFieldDefinitions.rows, f.cardinality = .one := by
      cases active <;> decide +kernel
    exact fun f hf => iff_of_true (hall f hf) trivial

/-- The row starts in January and stops in March. A call for February is accepted and starts a
second row of the same value. -/
def overrideCalls : List (RefreshCall (fun _ => True)) :=
  [overrideCall true (startOfDay (.on 2026 1 1)),
    overrideCall false (startOfDay (.on 2026 3 1)),
    overrideCall true (startOfDay (.on 2026 2 1))]

/-- The state before the third call. -/
def overrideStopped : Db :=
  (overrideCall false (startOfDay (.on 2026 3 1))).after
    ((overrideCall true (startOfDay (.on 2026 1 1))).after .empty)

theorem overrideCalls_overlap : ¬ KeepsTimeline .empty overrideCalls := by
  rintro ⟨_, _, hthird, _⟩
  have hlate : ((overrideCall true (startOfDay (.on 2026 2 1))).run
      overrideStopped).toOption.map (fun out => (getEmployeeAssignmentsAsOf out.1 1
        (startOfDay (.on 2026 2 1))).length) = some 2 := by
    decide +kernel
  have hitems : ((overrideCall true (startOfDay (.on 2026 2 1))).desired
      overrideStopped).toOption.map List.length = some 1 := by
    decide +kernel
  cases hrun : (overrideCall true (startOfDay (.on 2026 2 1))).run overrideStopped with
  | error e =>
    rw [hrun] at hlate
    exact absurd hlate (by simp [Except.toOption])
  | ok out =>
    obtain ⟨_, items, hdesired, hperm⟩ := hthird out.1 out.2 hrun
    rw [hrun] at hlate
    rw [show (overrideCall true (startOfDay (.on 2026 2 1))).desired overrideStopped =
      .ok items from hdesired] at hitems
    have hlength := hperm.length_eq
    rw [List.length_map, List.length_map] at hlength
    have h2 := Option.some.inj hlate
    have h1 := Option.some.inj hitems
    exact absurd ((h2.symm.trans hlength).trans h1) (by decide)

end Warp
