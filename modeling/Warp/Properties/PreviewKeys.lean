import Warp.ChangePreviews
import Warp.Properties.AssignmentKeys
import Warp.Properties.RowSources

/-!
# What the keys of a preview tell

A preview compares rows by texts: the whole explanation, or what is left of it without the ids that
only the preview has drawn. Two rows with one text have one assignment key.
-/

namespace Warp

open Infra Auth

/-! ## Texts with and without a field -/

section

variable {α β γ δ : Type*}

/-- Lists that look alike to `f` look alike to `g`, if `f` tells what `g` does. -/
theorem filterMap_alike {f : α → γ} {g : α → Option δ} : ∀ {l m : List α}, l.map f = m.map f →
    (∀ a ∈ l, ∀ b, f a = f b → g a = g b) → l.filterMap g = m.filterMap g
  | [], [], _, _ => rfl
  | a :: l, b :: m, h, hfg => by
    rw [List.map_cons, List.map_cons, List.cons.injEq] at h
    have hrest := filterMap_alike h.2 fun x hx => hfg x (List.mem_cons_of_mem a hx)
    rw [List.filterMap_cons, List.filterMap_cons, hfg a List.mem_cons_self b h.1, hrest]
  | [], _ :: _, h, _ => absurd h (by simp)
  | _ :: _, [], h, _ => absurd h (by simp)

end

namespace Json

theorem withoutFields_filter (name : String) (fields : List (String × Json)) :
    withoutFields name fields =
      (fields.filter fun p => p.1 ≠ name).map fun p => (p.1, p.2.without name) := by
  induction fields with
  | nil => rfl
  | cons p fields ih =>
    obtain ⟨k, v⟩ := p
    rw [withoutFields]
    split
    · next h => rw [ih, List.filter_cons_of_neg (by simpa using h)]
    · next h => rw [ih, List.filter_cons_of_pos (by simpa using h), List.map_cons]

theorem sortFields_dumps (fields : List (String × Json)) :
    sortFields (dumpsFields fields) =
      (orderBy Prod.fst fields).map fun p => (p.1, dumps p.2) := by
  rw [dumpsFields_eq]
  exact orderBy_map _ _ _

/-- The text of a value tells its text without a field. -/
theorem dumps_without (name : String) (v w : Json) (h : dumps v = dumps w) :
    dumps (v.without name) = dumps (w.without name) := by
  have hkind := kind_of_dumps h
  match v, w, hkind with
  | .null, .null, _ => rfl
  | .bool _, .bool _, _ => exact h
  | .int _, .int _, _ => exact h
  | .str _, .str _, _ => exact h
  | .arr items, .arr others, _ =>
    rw [without, without, dumps_arr, withoutItems_eq, withoutItems_eq, List.map_map, List.map_map,
      ← List.filterMap_eq_map]
    refine filterMap_alike (dumps_arr.mp h) fun x hx y hxy => ?_
    have hsize := List.sizeOf_lt_of_mem hx
    exact congrArg some (dumps_without name x y hxy)
  | .obj fields, .obj others, _ =>
    have hsorted := dumps_obj.mp h
    rw [sortFields_dumps, sortFields_dumps] at hsorted
    have hshape : ∀ fs : List (String × Json),
        sortFields (dumpsFields (withoutFields name fs)) =
          (orderBy Prod.fst fs).filterMap fun p =>
            if p.1 = name then none else some (p.1, dumps (p.2.without name)) := by
      intro fs
      rw [sortFields_dumps, withoutFields_filter, orderBy_map, orderBy_filter, List.map_map]
      generalize orderBy Prod.fst fs = sorted
      induction sorted with
      | nil => rfl
      | cons p sorted ih =>
        by_cases hp : p.1 = name
        · simpa [hp] using ih
        · simpa [hp] using ih
    rw [without, without, dumps_obj, hshape, hshape]
    refine filterMap_alike hsorted fun p hp q hpq => ?_
    have hsize := List.sizeOf_lt_of_mem (mem_orderBy.mp hp)
    rw [Prod.mk.injEq] at hpq
    rw [hpq.1, dumps_without name p.2 q.2 hpq.2]
termination_by sizeOf v
decreasing_by
  · simp only [arr.sizeOf_spec]
    omega
  · obtain ⟨k, u⟩ := p
    simp only [obj.sizeOf_spec, Prod.mk.sizeOf_spec] at hsize ⊢
    omega

end Json

theorem EmployeeAssignment.assignmentKey_of_previewKey {a b : EmployeeAssignment}
    (h : a.previewKey = b.previewKey) : a.assignmentKey = b.assignmentKey := by
  obtain ⟨hidentity, htext⟩ := Prod.mk.injEq .. ▸ h
  exact Prod.ext hidentity (Json.dumps_without _ _ _ htext)

/-! ## Rows without proposed ids -/

/-- A context that proposes overrides at most -/
def overridesContext (included proposed : Finset ℕ) : MutationContext :=
  { includedEmployeeIds := included, proposedOverrideIds := proposed }

section

variable {included proposed : Finset ℕ} {parentKey : Option String}

theorem Json.isIn_empty (v : Json) : v.isIn ∅ = false := by
  cases v <;> simp [isIn]

theorem proposes_overrides (key : String) (item : Json) :
    (overridesContext included proposed).proposes parentKey key item =
      ((key ∈ ["override_id", "source_override_id"] && item.isIn proposed) ||
        (key = "id" && parentKey = some "override" && item.isIn proposed)) := by
  simp [MutationContext.proposes, overridesContext, Json.isIn_empty]

theorem Json.setField_new {key : String} {value : Json} {fields : List (String × Json)}
    (h : key ∉ fields.map Prod.fst) : setField key value fields = fields ++ [(key, value)] := by
  induction fields with
  | nil => rfl
  | cons p fields ih =>
    obtain ⟨k, v⟩ := p
    rw [List.map_cons, List.mem_cons, not_or] at h
    rw [setField, if_neg (fun he => h.1 he.symm), ih h.2]
    rfl

/-- The value stays where it stands. -/
def Kept (proposed : Finset ℕ) (parentKey : Option String) (v : Json) : Prop :=
  ∀ included, (overridesContext included proposed).sanitize parentKey v = v

theorem Kept.arr {items : List Json} (h : ∀ v ∈ items, Kept proposed parentKey v) :
    Kept proposed parentKey (.arr items) := by
  intro included
  rw [MutationContext.sanitize]
  congr 1
  induction items with
  | nil => rfl
  | cons v items ih =>
    rw [MutationContext.sanitizeItems, h v List.mem_cons_self included,
      ih fun w hw => h w (List.mem_cons_of_mem v hw)]

theorem Kept.arr_map {α : Type} {f : α → Json} {l : List α}
    (h : ∀ x, Kept proposed parentKey (f x)) : Kept proposed parentKey (.arr (l.map f)) := by
  refine .arr fun v hv => ?_
  obtain ⟨x, _, rfl⟩ := List.mem_map.mp hv
  exact h x

theorem Kept.obj {fields : List (String × Json)} (hn : (fields.map Prod.fst).Nodup)
    (h : ∀ p ∈ fields, Kept proposed (some p.1) p.2 ∧
      (p.1 ∈ ["override_id", "source_override_id"] ∨ p.1 = "id" ∧ parentKey = some "override" →
        p.2.isIn proposed = false)) :
    Kept proposed parentKey (.obj fields) := by
  intro included
  have hrun : ∀ (rest result : List (String × Json)), (∀ p ∈ rest, p ∈ fields) →
      ((result ++ rest).map Prod.fst).Nodup →
      (overridesContext included proposed).sanitizeFields parentKey result rest =
        result ++ rest := by
    intro rest
    induction rest with
    | nil => intro result _ _; rw [MutationContext.sanitizeFields, List.append_nil]
    | cons p rest ih =>
      intro result hsub hnodup
      obtain ⟨key, item⟩ := p
      obtain ⟨hkept, hids⟩ := h _ (hsub _ List.mem_cons_self)
      have hnew : key ∉ result.map Prod.fst := by
        rw [List.map_append, List.map_cons, List.nodup_middle, List.nodup_cons] at hnodup
        exact fun hmem => hnodup.1 (List.mem_append_left _ hmem)
      have hfalse : (overridesContext included proposed).proposes parentKey key item = false := by
        rw [proposes_overrides]
        by_cases hkey : key ∈ ["override_id", "source_override_id"] ∨
          key = "id" ∧ parentKey = some "override"
        · simp [hids hkey]
        · obtain ⟨hother, hid⟩ := not_or.mp hkey
          have hdecide : decide (key = "id" ∧ parentKey = some "override") = false :=
            decide_eq_false hid
          rw [Bool.decide_and] at hdecide
          rw [decide_eq_false hother, hdecide]
          rfl
      rw [MutationContext.sanitizeFields, hfalse, if_neg (by decide), hkept included,
        Json.setField_new hnew]
      have := ih (result ++ [(key, item)]) (fun q hq => hsub q (List.mem_cons_of_mem _ hq))
        (by simpa using hnodup)
      rw [this, List.append_assoc]
      rfl
  rw [MutationContext.sanitize, hrun fields [] (fun _ hp => hp) hn]
  rfl

@[simp] theorem kept_null : Kept proposed parentKey .null := fun _ => rfl

@[simp] theorem kept_str (s : String) : Kept proposed parentKey (.str s) := fun _ => rfl

@[simp] theorem kept_int (n : ℤ) : Kept proposed parentKey (.int n) := fun _ => rfl

@[simp] theorem kept_bool (b : Bool) : Kept proposed parentKey (.bool b) := fun _ => rfl

@[simp] theorem kept_optionText (s : Option String) : Kept proposed parentKey (optionText s) := by
  cases s <;> intro _ <;> rfl

@[simp] theorem ExplanationValue.kept (v : ExplanationValue) :
    Kept proposed parentKey v.toJson := by
  cases v with
  | ids l => exact .arr_map fun n => kept_int n
  | tenure => exact .obj (by simp) (by simp)
  | null | str | int | bool => intro _; rfl

@[simp] theorem ConditionMatchEvidence.kept (c : ConditionMatchEvidence) :
    Kept proposed parentKey c.toJson :=
  .obj (by simp) (by simp)

@[simp] theorem ClauseMatchEvidence.kept (c : ClauseMatchEvidence) :
    Kept proposed parentKey c.toJson :=
  .obj (by simp) (by simp [Kept.arr_map])

@[simp] theorem ExplanationOrigin.kept (o : ExplanationOrigin) :
    Kept proposed parentKey o.toJson := by
  match o with
  | .persistedPolicyLink => exact .obj (by simp) (by simp)
  | .origin (.group _ _) => exact .obj (by simp) (by simp)
  | .origin (.conditionMatch _) => exact .obj (by simp) (by simp [Kept.arr_map])

@[simp] theorem CandidateSummary.kept (c : CandidateSummary) :
    Kept proposed parentKey c.toJson :=
  .obj (by simp) (by simp [Kept.arr_map])

@[simp] theorem ReplacedAssignment.kept (r : ReplacedAssignment) :
    Kept proposed parentKey r.toJson :=
  .obj (by simp) (by simp)

theorem PolicyExplanation.fields_kept (e : PolicyExplanation) :
    ∀ p ∈ e.fields, Kept proposed (some p.1) p.2 ∧ p.1 ∉ ["override_id", "source_override_id"] := by
  have hpolicy : Kept proposed (some "policy")
      (.obj [("id", .int e.policyId), ("name", .str e.policyName)]) :=
    .obj (by simp) (by simp)
  have hversion : Kept proposed (some "policy_version")
      (.obj [("id", .int e.policyVersionId), ("version_number", .int e.versionNumber)]) :=
    .obj (by simp) (by simp)
  have hselection : Kept proposed (some "selection")
      (.obj [("field", .str e.field), ("cardinality", .str e.cardinality.text),
        ("strategy", .str e.strategy), ("source_selection", optionText e.sourceSelection),
        ("priority", .int e.priority),
        ("candidates", .arr (e.candidates.map CandidateSummary.toJson))]) :=
    .obj (by simp) (by simp [Kept.arr_map])
  simp [fields, hpolicy, hversion, hselection, Kept.arr_map]

theorem OverrideExplanation.fields_kept (e : OverrideExplanation) (h : e.id ∉ proposed) :
    ∀ p ∈ e.fields, Kept proposed (some p.1) p.2 ∧ p.1 ∉ ["override_id", "source_override_id"] := by
  have hoverride : Kept proposed (some "override")
      (.obj [("id", .int e.id), ("value", .str e.value)]) :=
    .obj (by simp) (by simp [Json.isIn, h])
  have hselection : Kept proposed (some "selection")
      (.obj [("field", optionText e.field), ("field_id", .int e.fieldId),
        ("cardinality", optionText (e.cardinality.map Cardinality.text)),
        ("strategy", .str "override_replaces_policy"),
        ("replaced_policy_assignments",
          .arr (e.replacedPolicyAssignments.map ReplacedAssignment.toJson))]) :=
    .obj (by simp) (by simp [Kept.arr_map])
  simp [fields, hoverride, hselection]

/-- Only the id of an override that is proposed is taken out. -/
theorem Explanation.kept (e : Explanation)
    (h : ∀ o, e.reason = .manualOverride o → o.id ∉ proposed) : Kept proposed none e.toJson := by
  obtain ⟨day, reason⟩ := e
  refine .obj ?_ fun p hp => ?_
  · cases day <;> cases reason <;> simp [PolicyExplanation.fields, OverrideExplanation.fields]
  · rcases List.mem_append.mp hp with hdate | hfield
    · cases day with
      | none => simp at hdate
      | some day =>
        cases List.mem_singleton.mp hdate
        simp
    · have hboth : Kept proposed (some p.1) p.2 ∧ p.1 ∉ ["override_id", "source_override_id"] := by
        cases reason with
        | policy e => exact e.fields_kept p hfield
        | manualOverride e => exact e.fields_kept (h e rfl) p hfield
      exact ⟨hboth.1, fun hid => absurd hid (by simp [hboth.2])⟩

/-! ## Keys of shown rows -/

theorem optionInt_dumps {a b : Option ℕ} : (optionInt a).dumps = (optionInt b).dumps ↔ a = b := by
  cases a with
  | none =>
    cases b with
    | none => simp
    | some m => exact iff_of_false (fun h => by cases Json.kind_of_dumps h) (by simp)
  | some n =>
    cases b with
    | none => exact iff_of_false (fun h => by cases Json.kind_of_dumps h) (by simp)
    | some m =>
      rw [optionInt, optionInt, Json.dumps_int, Option.some.injEq]
      exact Int.ofNat_inj

theorem SourceType.text_injective {s t : SourceType} : s.text = t.text ↔ s = t := by
  cases s <;> cases t <;> decide

/-- What two items with one key have in common. -/
structure AssignmentPreview.Alike (x y : AssignmentPreview) : Prop where
  field : x.assignmentFieldDefinitionId = y.assignmentFieldDefinitionId
  value : x.value = y.value
  sourceType : x.sourceType = y.sourceType
  sourceId : x.sourceId = y.sourceId
  sourceIsProposed : x.sourceIsProposed = y.sourceIsProposed
  explanation : x.explanation.dumps = y.explanation.dumps

theorem AssignmentPreview.alike_of_key {x y : AssignmentPreview} (h : x.key = y.key) :
    x.Alike y := by
  have htexts := (Json.dumps_record (by simp) (by simp)).mp h
  simp only [List.map_cons, List.map_nil, List.cons.injEq, Json.dumps_int, Json.dumps_str,
    Json.dumps_bool, optionInt_dumps, SourceType.text_injective, Int.ofNat_inj, and_true] at htexts
  obtain ⟨hfield, _, hvalue, htype, hid, hproposed, hexplanation⟩ := htexts
  exact ⟨hfield, hvalue, htype, hid, hproposed, hexplanation⟩

variable {a b : EmployeeAssignment} {next next' : ℕ}

theorem EmployeeAssignment.Sourced.one_source (h : a.Sourced next) :
    a.sourcePolicyVersionId = none ∨ a.sourceOverrideId = none := by
  revert h
  unfold Sourced
  cases a.explanation.reason with
  | policy e => exact Or.inr
  | manualOverride e => exact fun h => Or.inl h.1

theorem EmployeeAssignment.Sourced.sources_eq (ha : a.Sourced next) (hb : b.Sourced next')
    (htype : a.sourceType = b.sourceType) (hid : a.sourceId = b.sourceId) :
    a.sourcePolicyVersionId = b.sourcePolicyVersionId ∧ a.sourceOverrideId = b.sourceOverrideId := by
  have hsource := ha.one_source
  have hsource' := hb.one_source
  unfold sourceType at htype
  unfold sourceId at hid
  cases hv : a.sourcePolicyVersionId <;> cases hw : b.sourcePolicyVersionId <;>
    simp_all

theorem EmployeeAssignment.Sourced.override_lt (h : a.Sourced next) {id : ℕ}
    (hid : a.sourceOverrideId = some id) : id < next := by
  revert h
  unfold Sourced
  cases a.explanation.reason with
  | policy e => exact fun h => absurd (h.symm.trans hid) (by simp)
  | manualOverride e =>
    rintro ⟨_, hoverride, hlt⟩
    rwa [← Option.some.inj (hoverride.symm.trans hid)]

/-- An explanation of a row is taken apart only if the source of the row is proposed. -/
theorem EmployeeAssignment.Sourced.kept (h : a.Sourced next)
    (hproposed : a.sourceIsProposed (overridesContext included proposed) = false) :
    (overridesContext included proposed).sanitize none a.explanation.toJson =
      a.explanation.toJson := by
  refine Explanation.kept a.explanation (fun o ho => ?_) included
  rw [Sourced, ho] at h
  rw [sourceIsProposed, h.1, h.2.1] at hproposed
  exact of_decide_eq_false hproposed

theorem EmployeeAssignment.not_proposed (a : EmployeeAssignment) :
    a.sourceIsProposed (overridesContext ∅ ∅) = false := by
  unfold sourceIsProposed
  cases a.sourcePolicyVersionId with
  | some id => exact decide_eq_false (Finset.notMem_empty id)
  | none => cases a.sourceOverrideId <;> simp [overridesContext]

/-- Whatever the changed database proposes, a row with the key of a row before the change is shown with
its own source. -/
theorem previewRow_key {rules rules' : Rules} (ha : a.Sourced next) (hb : b.Sourced next')
    (h : (previewRow rules (overridesContext ∅ ∅) a).key =
      (previewRow rules' (overridesContext included proposed) b).key) :
    a.assignmentKey = b.assignmentKey := by
  obtain ⟨hfield, hvalue, htype, hid, hproposed, htext⟩ := AssignmentPreview.alike_of_key h
  simp only [previewRow, a.not_proposed] at hfield hvalue htype hid hproposed htext
  rw [← hproposed] at hid
  obtain ⟨hversion, hoverride⟩ := ha.sources_eq hb htype hid
  rw [ha.kept a.not_proposed, hb.kept hproposed.symm] at htext
  refine Prod.ext ?_ (Json.dumps_without _ _ _ htext)
  show a.identity = b.identity
  unfold EmployeeAssignment.identity
  rw [hfield, hvalue, hversion, hoverride]

theorem previewRow_same {rules rules' : Rules} (ha : a.Sourced next)
    (hfields : rules'.assignmentFieldDefinitions = rules.assignmentFieldDefinitions)
    (hnew : ∀ id ∈ proposed, next ≤ id) :
    previewRow rules' (overridesContext included proposed) a =
      previewRow rules (overridesContext ∅ ∅) a := by
  have hproposed : a.sourceIsProposed (overridesContext included proposed) = false := by
    unfold EmployeeAssignment.sourceIsProposed
    cases a.sourcePolicyVersionId with
    | some id => exact decide_eq_false (Finset.notMem_empty id)
    | none =>
      cases hid : a.sourceOverrideId with
      | none => rfl
      | some id =>
        refine decide_eq_false fun hmem => ?_
        exact absurd (ha.override_lt hid) (not_lt.mpr (hnew id hmem))
  unfold previewRow
  rw [hproposed, a.not_proposed, ha.kept hproposed, ha.kept a.not_proposed, fieldName, fieldName,
    hfields]

end

end Warp
