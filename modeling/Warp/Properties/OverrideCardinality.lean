import Warp.Infra.Undisturbed
import Warp.OverrideTransactions

/-!
# The cardinality of overrides under concurrency

Each transaction checks the cardinality on the overrides that are committed at the check, and commits
later. What a run of transactions may commit so that no field gets an override too many.
-/

namespace Warp

open Infra

def EmployeeOverride.Active (o : EmployeeOverride) : Prop := o.retiredAt = none

/-- Two active overrides of one field of an employee. -/
structure EmployeeOverride.Competes (o o' : EmployeeOverride) : Prop where
  employee : o.employeeId = o'.employeeId
  field : o.assignmentFieldDefinitionId = o'.assignmentFieldDefinitionId
  active : o.Active
  active' : o'.Active

/-- At most one active override of a one-valued field, and different values for a many-valued one. -/
structure OverridesWithinCardinality (fields : Table AssignmentFieldDefinition)
    (overrides : Table EmployeeOverride) : Prop where
  one : ∀ d ∈ fields, d.cardinality = .one → ∀ o ∈ overrides, ∀ o' ∈ overrides,
    o.assignmentFieldDefinitionId = d.id → o.Competes o' → o = o'
  many : ∀ d ∈ fields, d.cardinality = .many → ∀ o ∈ overrides, ∀ o' ∈ overrides,
    o.assignmentFieldDefinitionId = d.id → o.Competes o' → o.value = o'.value → o = o'

/-- The check of an override passes on these rows. -/
def OverrideFits (fields : Table AssignmentFieldDefinition) (overrides : Table EmployeeOverride)
    (o : EmployeeOverride) (excludedOverrideId : Option ℕ) : Prop :=
  ∀ d ∈ fields, o.assignmentFieldDefinitionId = d.id →
    validateOverrideCardinality overrides o.employeeId d o.value excludedOverrideId = .ok ()

/-- The check of the override that a transaction adds still passes. -/
def OverrideStillFits (fields : Table AssignmentFieldDefinition)
    (overrides : Table EmployeeOverride) : List OverrideWrite → Prop
  | [.insert o] => OverrideFits fields overrides o none
  | [.retire overrideId _, .insert o] => OverrideFits fields overrides o (some overrideId)
  | _ => True

section

variable {fields : Table AssignmentFieldDefinition} {overrides : Table EmployeeOverride}
variable {id fieldId employeeId : ℕ} {now : DateTime} {o o' : EmployeeOverride}

/-! ## Rows -/

/-- The active overrides after one is retired are the others. -/
theorem active_retireOverride : (o ∈ retireOverride overrides id now ∧ o.Active) ↔
    o ∈ overrides ∧ o.Active ∧ o.id ≠ id := by
  rw [mem_retireOverride]
  constructor
  · rintro ⟨⟨ho, hid⟩ | ⟨r, _, _, rfl⟩, hactive⟩
    · exact ⟨ho, hactive, hid⟩
    · exact absurd hactive (by simp [EmployeeOverride.Active])
  · rintro ⟨ho, hactive, hid⟩
    exact ⟨Or.inl ⟨ho, hid⟩, hactive⟩

theorem mem_activeFieldOverrides {excluded : Option ℕ} :
    o ∈ activeFieldOverrides overrides employeeId fieldId excluded ↔
      o ∈ overrides ∧ o.employeeId = employeeId ∧ o.assignmentFieldDefinitionId = fieldId ∧
        o.Active ∧ some o.id ≠ excluded := by
  simp only [activeFieldOverrides, Table.mem_select, Bool.and_eq_true, decide_eq_true_eq,
    Option.isNone_iff_eq_none, EmployeeOverride.Active, and_assoc]

theorem validateOverrideCardinality_ok {d : AssignmentFieldDefinition} {value : String}
    {excluded : Option ℕ} :
    validateOverrideCardinality overrides employeeId d value excluded = .ok () ↔
      (d.cardinality = .one → activeFieldOverrides overrides employeeId d.id excluded = []) ∧
        ∀ o ∈ activeFieldOverrides overrides employeeId d.id excluded, o.value ≠ value := by
  simp only [validateOverrideCardinality, bind_eq_ok, ensure_eq_ok, exists_const]
  refine and_congr ?_ ?_
  · simp [List.isEmpty_iff, imp_iff_not_or]
  · simp

/-! ## Clashes -/

/-- Two active overrides that the field does not admit together. -/
structure Clash (d : AssignmentFieldDefinition) (o o' : EmployeeOverride) : Prop where
  field : o.assignmentFieldDefinitionId = d.id
  competes : o.Competes o'
  excess : d.cardinality = .one ∨ o.value = o'.value

theorem Clash.symm {d : AssignmentFieldDefinition} (h : Clash d o o') : Clash d o' o where
  field := h.competes.field.symm.trans h.field
  competes :=
    ⟨h.competes.employee.symm, h.competes.field.symm, h.competes.active', h.competes.active⟩
  excess := h.excess.imp_right Eq.symm

theorem overridesWithinCardinality_iff : OverridesWithinCardinality fields overrides ↔
    ∀ d ∈ fields, ∀ o ∈ overrides, ∀ o' ∈ overrides, Clash d o o' → o = o' := by
  constructor
  · intro h d hd o ho o' ho' hclash
    cases hcard : d.cardinality with
    | one => exact h.one d hd hcard o ho o' ho' hclash.field hclash.competes
    | many =>
      refine h.many d hd hcard o ho o' ho' hclash.field hclash.competes ?_
      exact hclash.excess.resolve_left (by rw [hcard]; simp)
  · intro h
    exact ⟨fun d hd hcard o ho o' ho' hfield hc => h d hd o ho o' ho' ⟨hfield, hc, Or.inl hcard⟩,
      fun d hd _ o ho o' ho' hfield hc hv => h d hd o ho o' ho' ⟨hfield, hc, Or.inr hv⟩⟩

/-- The check passes exactly when no other override clashes. -/
theorem overrideFits_iff {excluded : Option ℕ} (hactive : o.Active) :
    OverrideFits fields overrides o excluded ↔
      ∀ d ∈ fields, ∀ r ∈ overrides, some r.id ≠ excluded → ¬Clash d r o := by
  refine forall_congr' fun d => forall_congr' fun _ => ?_
  rw [validateOverrideCardinality_ok]
  constructor
  · intro h r hr hne hclash
    have hfield := hclash.competes.field.symm.trans hclash.field
    have hmem : r ∈ activeFieldOverrides overrides o.employeeId d.id excluded :=
      mem_activeFieldOverrides.mpr
        ⟨hr, hclash.competes.employee, hclash.field, hclash.competes.active, hne⟩
    obtain ⟨hone, hvalues⟩ := h hfield
    rcases hclash.excess with hcard | hvalue
    · rw [hone hcard] at hmem
      exact absurd hmem List.not_mem_nil
    · exact hvalues r hmem hvalue
  · intro h hfield
    have hclash : ∀ r ∈ activeFieldOverrides overrides o.employeeId d.id excluded,
        ¬(d.cardinality = .one ∨ r.value = o.value) := by
      intro r hr hexcess
      obtain ⟨hr, hemployee, hrfield, hractive, hne⟩ := mem_activeFieldOverrides.mp hr
      exact h r hr hne
        ⟨hrfield, ⟨hemployee, hrfield.trans hfield.symm, hractive, hactive⟩, hexcess⟩
    refine ⟨fun hcard => List.eq_nil_iff_forall_not_mem.mpr fun r hr => ?_, fun r hr hv => ?_⟩
    · exact hclash r hr (Or.inl hcard)
    · exact hclash r hr (Or.inr hv)

/-- Excluding an override from the check is checking after it is retired. -/
theorem overrideFits_retire (hactive : o.Active) :
    OverrideFits fields (retireOverride overrides id now) o none ↔
      OverrideFits fields overrides o (some id) := by
  rw [overrideFits_iff hactive, overrideFits_iff hactive]
  refine forall_congr' fun d => forall_congr' fun _ => ?_
  constructor
  · intro h r hr hne hclash
    refine h r (active_retireOverride.mpr ⟨hr, hclash.competes.active, ?_⟩).1 (by simp) hclash
    exact fun hid => hne (congrArg some hid)
  · intro h r hr _ hclash
    obtain ⟨hr, _, hid⟩ := active_retireOverride.mp ⟨hr, hclash.competes.active⟩
    exact h r hr (fun he => hid (Option.some.inj he)) hclash

/-! ## The cardinality after a write -/

theorem OverridesWithinCardinality.retire (h : OverridesWithinCardinality fields overrides) :
    OverridesWithinCardinality fields (retireOverride overrides id now) := by
  rw [overridesWithinCardinality_iff] at h ⊢
  intro d hd o ho o' ho' hclash
  exact h d hd o (active_retireOverride.mp ⟨ho, hclash.competes.active⟩).1 o'
    (active_retireOverride.mp ⟨ho', hclash.competes.active'⟩).1 hclash

/-- A new override keeps the cardinality exactly when its check passes. -/
theorem OverridesWithinCardinality.insert_iff (h : OverridesWithinCardinality fields overrides)
    (hactive : o.Active) (hfresh : ∀ r ∈ overrides, r.id ≠ o.id) :
    OverridesWithinCardinality fields (overrides.insert o) ↔
      OverrideFits fields overrides o none := by
  rw [overridesWithinCardinality_iff] at h ⊢
  rw [overrideFits_iff hactive]
  have hmem : ∀ r, r ∈ overrides.insert o ↔ r = o ∨ r ∈ overrides := fun r =>
    Table.mem_insert_fresh hfresh
  constructor
  · intro h' d hd r hr _ hclash
    have heq := h' d hd r ((hmem r).mpr (Or.inr hr)) o ((hmem o).mpr (Or.inl rfl)) hclash
    exact hfresh r hr (by rw [heq])
  · intro hfits d hd r hr r' hr' hclash
    rcases (hmem r).mp hr with rfl | hold
    · rcases (hmem r').mp hr' with rfl | hold'
      · rfl
      · exact absurd hclash.symm (hfits d hd r' hold' (by simp))
    · rcases (hmem r').mp hr' with rfl | hold'
      · exact absurd hclash (hfits d hd r hold (by simp))
      · exact h d hd r hold r' hold' hclash

end

/-! ## Statements -/

def overrideNumbers : Numbering (Table EmployeeOverride) OverrideWrite where
  known overrides := {i | ∃ o ∈ overrides, o.id = i}
  mentions
    | .insert o => {o.id}
    | .retire _ _ => ∅
  inserts
    | .insert o => {o.id}
    | .retire _ _ => ∅

/-- The override that a statement is going to add has been checked on these rows. -/
def OverrideOp.Checked (fields : Table AssignmentFieldDefinition)
    (overrides : Table EmployeeOverride) : OverrideOp → Prop
  | .insertRow employeeId fieldId value =>
    ∀ n, OverrideFits fields overrides (newOverride n employeeId fieldId value) none
  | .replaceRow overrideId employeeId fieldId value _ =>
    ∀ n, OverrideFits fields overrides (newOverride n employeeId fieldId value) (some overrideId)
  | _ => True

/-- What a statement leaves to do and what it writes: the next statement, or the writes at the end. -/
inductive OverrideStep (fields : Table AssignmentFieldDefinition) (n : ℕ)
    (overrides : Table EmployeeOverride) (op : OverrideOp) :
    List OverrideOp → List OverrideWrite → Prop where
  | decided (next : OverrideOp) (checked : next.Checked fields overrides) :
      OverrideStep fields n overrides op [next] []
  | nothing : OverrideStep fields n overrides op [] []
  | created (employeeId fieldId : ℕ) (value : String)
      (ran : op = .insertRow employeeId fieldId value) :
      OverrideStep fields n overrides op [] [.insert (newOverride n employeeId fieldId value)]
  | replaced (overrideId employeeId fieldId : ℕ) (value : String) (now : DateTime)
      (ran : op = .replaceRow overrideId employeeId fieldId value now) :
      OverrideStep fields n overrides op []
        [.retire overrideId now, .insert (newOverride n employeeId fieldId value)]
  | removed (overrideId : ℕ) (now : DateTime) :
      OverrideStep fields n overrides op [] [.retire overrideId now]

/-- The field with the id is the one that was checked. -/
theorem overrideFits_of_checked {facts : Facts} {overrides : Table EmployeeOverride}
    {fieldId employeeId : ℕ} {definition : AssignmentFieldDefinition} {value : String}
    {excluded : Option ℕ} (hdefinition : getAssignmentFieldDefinition facts.toRules fieldId = .ok definition)
    (hchecked : validateOverrideCardinality overrides employeeId definition value excluded = .ok ())
    (n : ℕ) : OverrideFits facts.assignmentFieldDefinitions overrides
      (newOverride n employeeId definition.id value) excluded := by
  intro d hd hid
  have hfound := (Table.find?_eq_some.mp (orRaise_eq_ok.mp hdefinition)).1
  obtain rfl : definition = d := Table.key_inj hfound hd hid
  exact hchecked

theorem runOverrideOp_cases {facts : Facts} {n : ℕ} {overrides : Table EmployeeOverride}
    {op : OverrideOp} {more : List OverrideOp} {new : List OverrideWrite}
    (h : runOverrideOp facts n overrides op = .ok (more, new)) :
    OverrideStep facts.assignmentFieldDefinitions n overrides op more new := by
  cases op with
  | create employeeId fieldId value =>
    simp only [runOverrideOp, bind_eq_ok, pure_eq_ok] at h
    obtain ⟨employee, hemployee, definition, hdefinition, normalized, _, _, hchecked, hout⟩ := h
    cases hout
    have hid : employee.id = employeeId := (Table.find?_eq_some.mp (orRaise_eq_ok.mp hemployee)).2
    rw [← hid] at hchecked
    exact .decided _ (overrideFits_of_checked hdefinition hchecked)
  | insertRow employeeId fieldId value =>
    cases h
    exact .created employeeId fieldId value rfl
  | update employeeId overrideId fieldId value now =>
    simp only [runOverrideOp, bind_eq_ok, pure_eq_ok] at h
    obtain ⟨_, _, _, _, hout⟩ := h
    cases hout
    exact .decided _ trivial
  | checkUpdate override fieldId value now =>
    simp only [runOverrideOp, bind_eq_ok] at h
    obtain ⟨definition, hdefinition, targetValue, _, hout⟩ := h
    by_cases hsame : definition.id = override.assignmentFieldDefinitionId ∧
        targetValue = override.value
    · rw [if_pos hsame] at hout
      cases hout
      exact .nothing
    · rw [if_neg hsame] at hout
      simp only [bind_eq_ok, pure_eq_ok] at hout
      obtain ⟨_, hchecked, hout⟩ := hout
      cases hout
      exact .decided _ (overrideFits_of_checked hdefinition hchecked)
  | replaceRow overrideId employeeId fieldId value now =>
    simp only [runOverrideOp, bind_eq_ok, pure_eq_ok] at h
    obtain ⟨_, _, hout⟩ := h
    cases hout
    exact .replaced overrideId employeeId fieldId value now rfl
  | delete employeeId overrideId now =>
    simp only [runOverrideOp, bind_eq_ok, pure_eq_ok] at h
    obtain ⟨_, _, _, _, hout⟩ := h
    cases hout
    exact .decided _ trivial
  | retireRow overrideId now =>
    simp only [runOverrideOp, bind_eq_ok, pure_eq_ok] at h
    obtain ⟨_, _, hout⟩ := h
    cases hout
    exact .removed overrideId now

section

variable {fields : Table AssignmentFieldDefinition} {n : ℕ} {overrides : Table EmployeeOverride}
  {op : OverrideOp} {more : List OverrideOp} {new : List OverrideWrite}

theorem OverrideStep.numbers (h : OverrideStep fields n overrides op more new) {x : OverrideWrite} (hx : x ∈ new) {i : ℕ}
    (hi : i ∈ overrideNumbers.mentions x) : i = n := by
  cases h with
  | decided next _ => exact absurd hx List.not_mem_nil
  | nothing => exact absurd hx List.not_mem_nil
  | created employeeId fieldId value _ =>
    rw [List.mem_singleton.mp hx] at hi
    exact hi
  | replaced overrideId employeeId fieldId value now _ =>
    rcases List.mem_cons.mp hx with rfl | hx
    · exact absurd hi (Set.notMem_empty i)
    · rw [List.mem_singleton.mp hx] at hi
      exact hi
  | removed overrideId now =>
    rw [List.mem_singleton.mp hx] at hi
    exact absurd hi (Set.notMem_empty i)

end

theorem overrideNumbers_respects (facts : Facts) :
    overrideNumbers.Respects (overrideCode facts) where
  apply := by
    rintro overrides x i ⟨o, ho, rfl⟩
    cases x with
    | insert r =>
      rcases Table.mem_insert.mp ho with rfl | ⟨ho, _⟩
      · exact Or.inr rfl
      · exact Or.inl ⟨o, ho, rfl⟩
    | retire id now =>
      rcases mem_retireOverride.mp ho with ⟨ho, _⟩ | ⟨r, hr, _, rfl⟩
      · exact Or.inl ⟨o, ho, rfl⟩
      · exact Or.inl ⟨r, hr, rfl⟩
  mentions h _ hx _ hi := Or.inr ((runOverrideOp_cases h).numbers hx hi)
  inserts h x hx i hi := by
    refine (runOverrideOp_cases h).numbers hx ?_
    cases x with
    | insert o => exact hi
    | retire id now => exact absurd hi (Set.notMem_empty i)

/-! ## Runs -/

/-- A live transaction has one statement to go, or has made the writes of its request. -/
inductive OverrideTidy : Live OverrideOp OverrideWrite → Prop where
  | deciding (op : OverrideOp) : OverrideTidy ⟨[op], []⟩
  | nothing : OverrideTidy ⟨[], []⟩
  | created (o : EmployeeOverride) (active : o.Active) : OverrideTidy ⟨[], [.insert o]⟩
  | replaced (overrideId : ℕ) (now : DateTime) (o : EmployeeOverride) (active : o.Active) :
      OverrideTidy ⟨[], [.retire overrideId now, .insert o]⟩
  | removed (overrideId : ℕ) (now : DateTime) : OverrideTidy ⟨[], [.retire overrideId now]⟩

theorem OverrideStep.tidy {fields : Table AssignmentFieldDefinition} {n : ℕ}
    {overrides : Table EmployeeOverride} {op : OverrideOp} {more : List OverrideOp}
    {new : List OverrideWrite} (h : OverrideStep fields n overrides op more new) : OverrideTidy ⟨more, new⟩ := by
  cases h with
  | decided next _ => exact .deciding next
  | nothing => exact .nothing
  | created employeeId fieldId value _ => exact .created _ rfl
  | replaced overrideId employeeId fieldId value now _ => exact .replaced overrideId now _ rfl
  | removed overrideId now => exact .removed overrideId now

structure OverrideTidyWorld (w : OverrideWorld) : Prop where
  fresh : overrideNumbers.Fresh w
  live : ∀ (t : ℕ) l, w.fates[t]? = some (.live l) → OverrideTidy l

theorem OverrideTidyWorld.next {facts : Facts} {w : OverrideWorld} (h : OverrideTidyWorld w)
    (a : Action) : OverrideTidyWorld (w.next (overrideCode facts) a) where
  fresh := h.fresh.next (overrideNumbers_respects facts) a
  live := by
    refine World.live_next (fun t op todo more writes new live tidy ok => ?_) h.live
    cases tidy with
    | deciding op =>
      rw [List.append_nil]
      exact (runOverrideOp_cases ok).tidy

theorem OverrideTidyWorld.init {overrides : Table EmployeeOverride} {sequence : ℕ}
    (hdrawn : ∀ o ∈ overrides, o.id < sequence) (transactions : List OverrideTransaction) :
    OverrideTidyWorld (overrideWorld overrides transactions sequence) where
  fresh := by
    refine Numbering.Fresh.init ?_
    rintro i ⟨o, ho, rfl⟩
    exact hdrawn o ho
  live := by
    rintro t ⟨todo, writes⟩ hl
    obtain ⟨hwrites, htodo⟩ := World.init_live hl
    obtain ⟨transaction, _, hop⟩ := List.mem_map.mp htodo
    cases hwrites
    cases hop
    exact .deciding transaction.op

/-- A commit keeps the cardinality exactly when the check of its override still passes. -/
theorem OverrideTidyWorld.commit_iff {fields : Table AssignmentFieldDefinition} {w : OverrideWorld}
    (h : OverrideTidyWorld w) (hp : OverridesWithinCardinality fields w.committed) {t : ℕ}
    {writes : List OverrideWrite} (live : w.fates[t]? = some (.live ⟨[], writes⟩)) :
    OverridesWithinCardinality fields (writes.foldl applyOverrideWrite w.committed) ↔
      OverrideStillFits fields w.committed writes := by
  have hfresh : ∀ o, .insert o ∈ writes → ∀ r ∈ w.committed, r.id ≠ o.id :=
    fun o ho r hr hid => h.fresh.unpublished ⟨_, live, ho⟩ o.id rfl ⟨r, hr, hid⟩
  cases h.live t _ live with
  | nothing => exact iff_of_true hp trivial
  | created o active => exact hp.insert_iff active (hfresh o (by simp))
  | replaced overrideId now o active =>
    have hretired : ∀ r ∈ retireOverride w.committed overrideId now, r.id ≠ o.id := by
      intro r hr
      rcases mem_retireOverride.mp hr with ⟨hr, _⟩ | ⟨r', hr', _, rfl⟩
      · exact hfresh o (by simp) r hr
      · exact hfresh o (by simp) r' hr'
    exact (hp.retire.insert_iff active hretired).trans (overrideFits_retire active)
  | removed overrideId now => exact iff_of_true hp.retire trivial

/-- The committed overrides stay within the cardinality all along exactly when every commit that adds
one finds rows on which its check still passes. -/
theorem override_cardinality_iff (facts : Facts) (overrides : Table EmployeeOverride)
    (sequence : ℕ) (hdrawn : ∀ o ∈ overrides, o.id < sequence)
    (hwithin : OverridesWithinCardinality facts.assignmentFieldDefinitions overrides)
    (transactions : List OverrideTransaction) (actions : List Action) :
    (∀ first rest, actions = first ++ rest →
      OverridesWithinCardinality facts.assignmentFieldDefinitions
        ((overrideWorld overrides transactions sequence).run (overrideCode facts) first).committed) ↔
      Along (World.next (overrideCode facts))
        (CommitsWith (OverrideStillFits facts.assignmentFieldDefinitions))
        (overrideWorld overrides transactions sequence) actions :=
  World.committed_iff (I := OverrideTidyWorld) (fun _ a h => h.next a)
    (fun _ _ _ h hp live => h.commit_iff hp live) (OverrideTidyWorld.init hdrawn transactions)
    hwithin actions

/-! ## Nobody commits in between -/

/-- The override that a live transaction adds fits the rows that it has checked. -/
inductive OverrideChecked (fields : Table AssignmentFieldDefinition)
    (overrides : Table EmployeeOverride) : Live OverrideOp OverrideWrite → Prop where
  | deciding (op : OverrideOp) (checked : op.Checked fields overrides) :
      OverrideChecked fields overrides ⟨[op], []⟩
  | decided (writes : List OverrideWrite) (fits : OverrideStillFits fields overrides writes) :
      OverrideChecked fields overrides ⟨[], writes⟩

theorem OverrideChecked.exec {facts : Facts} {n : ℕ} {rows : List ℕ}
    {overrides : Table EmployeeOverride} {op : OverrideOp} {todo more : List OverrideOp}
    {writes new : List OverrideWrite}
    (h : OverrideChecked facts.assignmentFieldDefinitions overrides ⟨op :: todo, writes⟩)
    (ok : (overrideCode facts).exec n rows (writes.foldl (overrideCode facts).apply overrides) op =
      .ok (more, new)) :
    OverrideChecked facts.assignmentFieldDefinitions overrides ⟨more ++ todo, writes ++ new⟩ := by
  cases h with
  | deciding _ checked =>
    rw [List.append_nil]
    cases (runOverrideOp_cases ok : OverrideStep _ n overrides op more new) with
    | decided next checked => exact .deciding next checked
    | nothing => exact .decided [] trivial
    | created employeeId fieldId value ran =>
      rw [ran] at checked
      exact .decided _ (checked n)
    | replaced overrideId employeeId fieldId value now ran =>
      rw [ran] at checked
      exact .decided _ (checked n)
    | removed overrideId now => exact .decided _ trivial

/-- Where nobody commits between the check of a transaction and its commit, every commit finds rows on
which the check still passes. -/
theorem overrides_undisturbed (facts : Facts) (overrides : Table EmployeeOverride)
    (transactions : List OverrideTransaction) (sequence : ℕ) {actions : List Action}
    (h : Undisturbed actions) :
    Along (World.next (overrideCode facts))
      (CommitsWith (OverrideStillFits facts.assignmentFieldDefinitions))
      (overrideWorld overrides transactions sequence) actions := by
  refine Undisturbed.commits (I := fun _ _ => True)
    (C := fun _ => OverrideChecked facts.assignmentFieldDefinitions) ⟨?_, ?_, ?_, ?_⟩ trivial h
  · intro _ s todo _ htodo
    obtain ⟨transaction, _, rfl⟩ := List.mem_map.mp htodo
    refine .deciding _ ?_
    cases transaction <;> trivial
  · exact fun _ _ _ => ⟨trivial, fun _ hchecked => hchecked⟩
  · exact fun _ _ _ _ _ _ _ _ _ hchecked ok => hchecked.exec ok
  · intro _ s writes _ hchecked
    cases hchecked with
    | decided _ fits => exact ⟨fits, trivial⟩

/-! ## Two overrides of a one-valued field -/

/-- One employee, and a field that takes one value -/
def officeFacts : Facts :=
  { Facts.empty with
    assignmentFieldDefinitions := .ofRows [{ id := 1, name := "office", cardinality := .one }]
    employees := .ofRows [⟨1, "Ada", "CA", "Sales", "full_time", none, Date.on 2024 1 1, none⟩] }

def racingOverrides : List OverrideTransaction :=
  [.createEmployeeOverride 1 1 "North", .createEmployeeOverride 1 1 "South"]

/-- Both check, both write, both commit. -/
def racingRun : List Action := [.exec 0, .exec 1, .exec 0, .exec 1, .commit 0, .commit 1]

theorem empty_withinCardinality (fields : Table AssignmentFieldDefinition) :
    OverridesWithinCardinality fields .empty :=
  ⟨fun _ _ _ _ ho => absurd ho Table.not_mem_empty, fun _ _ _ _ ho => absurd ho Table.not_mem_empty⟩

theorem override_cardinality_raced : ¬OverridesWithinCardinality officeFacts.assignmentFieldDefinitions
    ((overrideWorld .empty racingOverrides 1).run (overrideCode officeFacts) racingRun).committed := by
  intro h
  have hrows : ((overrideWorld .empty racingOverrides 1).run (overrideCode officeFacts)
      racingRun).committed.rows = [newOverride 3 1 1 "North", newOverride 4 1 1 "South"] := by
    decide +kernel
  have heq := h.one { id := 1, name := "office", cardinality := .one }
    Table.mem_insert_self rfl (newOverride 3 1 1 "North")
    (by rw [Table.mem_def, hrows]; simp) (newOverride 4 1 1 "South")
    (by rw [Table.mem_def, hrows]; simp) rfl ⟨rfl, rfl, rfl, rfl⟩
  exact absurd (congrArg EmployeeOverride.id heq) (by decide)

/-- One after the other: the second override is refused. -/
def serialOverrides : List Action := [.exec 0, .exec 0, .commit 0, .exec 1, .exec 1, .commit 1]

theorem override_cardinality_iff_office :
    (∀ first rest, serialOverrides = first ++ rest →
      OverridesWithinCardinality officeFacts.assignmentFieldDefinitions
        ((overrideWorld .empty racingOverrides 1).run (overrideCode officeFacts) first).committed) ∧
    ((overrideWorld .empty racingOverrides 1).run (overrideCode officeFacts)
      serialOverrides).committed.rows.map EmployeeOverride.value = ["North"] :=
  ⟨(override_cardinality_iff officeFacts .empty 1 (fun _ ho => absurd ho Table.not_mem_empty)
    (empty_withinCardinality _) racingOverrides serialOverrides).mpr
      (overrides_undisturbed _ _ _ _ (by decide)), by decide +kernel⟩

end Warp
