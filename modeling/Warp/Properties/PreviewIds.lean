import Warp.Properties.PreviewKeys

/-!
# The override ids that a preview names

An item of a preview names an override as its source and inside its explanation. The explanation is
searched at any depth: a field for the id of an override keeps an id only if it is not a proposed one.
-/

namespace Warp

open Infra Auth

/-! ## Ids inside a value -/

/-- The field holds the id of an override. -/
def isOverrideField (parentKey : Option String) (key : String) : Bool :=
  key ∈ ["override_id", "source_override_id"] || (key = "id" && parentKey = some "override")

namespace Json

def number? : Json → Option ℤ
  | .int n => some n
  | _ => none

mutual

/-- The ids of overrides in a value that stands under `parentKey`. -/
def overrideIds (parentKey : Option String) : Json → List ℤ
  | .null => []
  | .bool _ => []
  | .int _ => []
  | .str _ => []
  | .arr items => overrideIdsOfItems parentKey items
  | .obj fields => overrideIdsOfFields parentKey fields

def overrideIdsOfItems (parentKey : Option String) : List Json → List ℤ
  | [] => []
  | item :: rest => item.overrideIds parentKey ++ overrideIdsOfItems parentKey rest

def overrideIdsOfFields (parentKey : Option String) : List (String × Json) → List ℤ
  | [] => []
  | (key, item) :: rest =>
    (if isOverrideField parentKey key then item.number?.toList else [])
      ++ item.overrideIds (some key) ++ overrideIdsOfFields parentKey rest

end

section

variable {parentKey : Option String} {key : String} {value : Json} {n : ℤ}

theorem overrideIdsOfFields_cons (p : String × Json) (rest : List (String × Json)) :
    overrideIdsOfFields parentKey (p :: rest) =
      overrideIdsOfFields parentKey [p] ++ overrideIdsOfFields parentKey rest := by
  simp [overrideIdsOfFields]

theorem mem_overrideIds_setField : ∀ {fields : List (String × Json)},
    n ∈ overrideIdsOfFields parentKey (setField key value fields) →
      n ∈ overrideIdsOfFields parentKey fields ∨ n ∈ overrideIdsOfFields parentKey [(key, value)]
  | [], h => Or.inr h
  | (k, v) :: rest, h => by
    rw [setField] at h
    rw [overrideIdsOfFields_cons (k, v), List.mem_append]
    split at h
    · rw [overrideIdsOfFields_cons, List.mem_append] at h
      rcases h with hvalue | hrest
      · exact Or.inr hvalue
      · exact Or.inl (Or.inr hrest)
    · rw [overrideIdsOfFields_cons, List.mem_append] at h
      rcases h with hfirst | hrest
      · exact Or.inl (Or.inl hfirst)
      · exact (mem_overrideIds_setField hrest).imp_left Or.inr

theorem overrideIdsOfItems_map {α : Type} {f : α → Json} {l : List α}
    (h : ∀ x, (f x).overrideIds parentKey = []) : overrideIdsOfItems parentKey (l.map f) = [] := by
  induction l with
  | nil => rfl
  | cons x l ih => rw [List.map_cons, overrideIdsOfItems, h, ih, List.nil_append]

end

end Json

/-! ## Sanitized values -/

section

variable {context : MutationContext} {parentKey : Option String} {n : ℤ}

/-- What is no proposed id is no id of a proposed override. -/
theorem isIn_of_not_proposed {key : String} {item : Json}
    (h : ¬ context.proposes parentKey key item = true) (hkey : isOverrideField parentKey key = true) :
    item.isIn context.proposedOverrideIds = false := by
  by_contra hin
  rw [Bool.not_eq_false] at hin
  refine h ?_
  rw [isOverrideField, Bool.or_eq_true] at hkey
  rcases hkey with hname | hid
  · simp only [MutationContext.proposes, hname, hin, Bool.and_self, Bool.or_true, Bool.true_or]
  · simp only [MutationContext.proposes, hid, hin, Bool.and_self, Bool.or_true]

/-- Only a number is sanitized to a number. -/
theorem number?_sanitize {item : Json} (h : (context.sanitize parentKey item).number? = some n) :
    item = .int n := by
  cases item with
  | int m => exact congrArg Json.int (Option.some.inj h)
  | null | bool | str | arr | obj => cases h

mutual

/-- A sanitized value names ids that the value has named, and none that is proposed. -/
theorem mem_overrideIds_sanitize (parentKey : Option String) : ∀ {v : Json},
    n ∈ (context.sanitize parentKey v).overrideIds parentKey →
      n ∈ v.overrideIds parentKey ∧ (Json.int n).isIn context.proposedOverrideIds = false
  | .null, h => absurd h List.not_mem_nil
  | .bool _, h => absurd h List.not_mem_nil
  | .int _, h => absurd h List.not_mem_nil
  | .str _, h => absurd h List.not_mem_nil
  | .arr _, h => mem_overrideIds_sanitizeItems parentKey h
  | .obj _, h =>
    (mem_overrideIds_sanitizeFields parentKey h).resolve_left List.not_mem_nil

theorem mem_overrideIds_sanitizeItems (parentKey : Option String) : ∀ {items : List Json},
    n ∈ Json.overrideIdsOfItems parentKey (context.sanitizeItems parentKey items) →
      n ∈ Json.overrideIdsOfItems parentKey items ∧
        (Json.int n).isIn context.proposedOverrideIds = false
  | [], h => absurd h List.not_mem_nil
  | item :: rest, h => by
    rw [MutationContext.sanitizeItems, Json.overrideIdsOfItems, List.mem_append] at h
    rw [Json.overrideIdsOfItems, List.mem_append]
    rcases h with hitem | hrest
    · exact (mem_overrideIds_sanitize parentKey hitem).imp_left Or.inl
    · exact (mem_overrideIds_sanitizeItems parentKey hrest).imp_left Or.inr

/-- The loop adds nothing to the ids of the result so far but ids of the fields. -/
theorem mem_overrideIds_sanitizeFields (parentKey : Option String) :
    ∀ {fields result : List (String × Json)},
    n ∈ Json.overrideIdsOfFields parentKey (context.sanitizeFields parentKey result fields) →
      n ∈ Json.overrideIdsOfFields parentKey result ∨
        n ∈ Json.overrideIdsOfFields parentKey fields ∧
          (Json.int n).isIn context.proposedOverrideIds = false
  | [], _, h => Or.inl h
  | (key, item) :: rest, result, h => by
    rw [MutationContext.sanitizeFields] at h
    rw [Json.overrideIdsOfFields_cons (key, item), List.mem_append]
    split at h
    · rcases mem_overrideIds_sanitizeFields parentKey h with hresult | ⟨hrest, hnot⟩
      · rcases Json.mem_overrideIds_setField hresult with hkey | hmark
        · rcases Json.mem_overrideIds_setField hkey with hold | hnull
          · exact Or.inl hold
          · simp [Json.overrideIdsOfFields, Json.overrideIds, Json.number?] at hnull
        · simp [Json.overrideIdsOfFields, Json.overrideIds, Json.number?] at hmark
      · exact Or.inr ⟨Or.inr hrest, hnot⟩
    · next hproposes =>
      rcases mem_overrideIds_sanitizeFields parentKey h with hresult | ⟨hrest, hnot⟩
      · rcases Json.mem_overrideIds_setField hresult with hold | hnew
        · exact Or.inl hold
        · rw [Json.overrideIdsOfFields, Json.overrideIdsOfFields, List.append_nil,
            List.mem_append] at hnew ⊢
          rcases hnew with hfield | hdeep
          · split at hfield
            · next hkey =>
              have hitem := number?_sanitize (Option.mem_toList.mp hfield)
              have hnot := isIn_of_not_proposed hproposes hkey
              rw [hitem] at hnot ⊢
              exact Or.inr ⟨Or.inl (Or.inl (by simp [hkey, Json.number?])), hnot⟩
            · exact absurd hfield List.not_mem_nil
          · obtain ⟨hdeep, hnot⟩ := mem_overrideIds_sanitize (some key) hdeep
            exact Or.inr ⟨Or.inl (Or.inr hdeep), hnot⟩
      · exact Or.inr ⟨Or.inr hrest, hnot⟩

end

/-! ## Explanations -/

open Json

@[simp] theorem optionText_overrideIds (s : Option String) :
    (optionText s).overrideIds parentKey = [] := by
  cases s <;> rfl

@[simp] theorem ExplanationValue.overrideIds (v : ExplanationValue) :
    v.toJson.overrideIds parentKey = [] := by
  cases v with
  | ids l => exact overrideIdsOfItems_map fun n => rfl
  | tenure => simp [toJson, Json.overrideIds, overrideIdsOfFields, number?]
  | null | str | int | bool => rfl

@[simp] theorem ConditionMatchEvidence.overrideIds (c : ConditionMatchEvidence) :
    c.toJson.overrideIds parentKey = [] := by
  simp [toJson, Json.overrideIds, overrideIdsOfFields, isOverrideField]

@[simp] theorem ClauseMatchEvidence.overrideIds (c : ClauseMatchEvidence) :
    c.toJson.overrideIds parentKey = [] := by
  simp [toJson, Json.overrideIds, overrideIdsOfFields, overrideIdsOfItems_map, isOverrideField]

@[simp] theorem ExplanationOrigin.overrideIds (o : ExplanationOrigin) :
    o.toJson.overrideIds parentKey = [] := by
  match o with
  | .persistedPolicyLink => simp [toJson, Json.overrideIds, overrideIdsOfFields, isOverrideField]
  | .origin (.group _ _) => simp [toJson, Json.overrideIds, overrideIdsOfFields, isOverrideField]
  | .origin (.conditionMatch _) =>
    simp [toJson, Json.overrideIds, overrideIdsOfFields, overrideIdsOfItems_map, isOverrideField]

@[simp] theorem CandidateSummary.overrideIds (c : CandidateSummary) :
    c.toJson.overrideIds parentKey = [] := by
  simp [toJson, Json.overrideIds, overrideIdsOfFields, overrideIdsOfItems_map, isOverrideField]

@[simp] theorem ReplacedAssignment.overrideIds (r : ReplacedAssignment) :
    r.toJson.overrideIds parentKey = [] := by
  simp [toJson, Json.overrideIds, overrideIdsOfFields, isOverrideField]

theorem PolicyExplanation.overrideIds (e : PolicyExplanation) :
    overrideIdsOfFields none e.fields = [] := by
  simp [fields, Json.overrideIds, overrideIdsOfFields, overrideIdsOfItems_map, isOverrideField]

/-- An explanation of an override names this override. -/
theorem OverrideExplanation.overrideIds (e : OverrideExplanation) :
    overrideIdsOfFields none e.fields = [(e.id : ℤ)] := by
  simp [fields, Json.overrideIds, overrideIdsOfFields, overrideIdsOfItems_map, isOverrideField, number?]

theorem Explanation.overrideIds (e : Explanation) : e.toJson.overrideIds none =
    match e.reason with
    | .policy _ => []
    | .manualOverride o => [(o.id : ℤ)] := by
  obtain ⟨day, reason⟩ := e
  have hday : ∀ (text : String) (fields : List (String × Json)),
      overrideIdsOfFields none (("evaluation_date", .str text) :: fields) =
        overrideIdsOfFields none fields := by
    intro text fields
    rw [overrideIdsOfFields_cons]
    simp [Json.overrideIds, overrideIdsOfFields, isOverrideField]
  cases day <;> cases reason <;>
    simp [toJson, Json.overrideIds, hday, PolicyExplanation.overrideIds, OverrideExplanation.overrideIds]

end

/-! ## Items -/

/-- The item names the override, as its source or inside its explanation. -/
def AssignmentPreview.NamesOverride (item : AssignmentPreview) (overrideId : ℕ) : Prop :=
  item.sourceType = .override ∧ item.sourceId = some overrideId ∨
    (overrideId : ℤ) ∈ item.explanation.overrideIds none

/-- Every item of a change -/
def EmployeePreviewChange.items (c : EmployeePreviewChange) : List AssignmentPreview :=
  c.before ++ c.after ++ c.added ++ c.removed ++ c.changed.flatMap fun f => f.before ++ f.after

section

variable {rules : Rules} {included proposed : Finset ℕ} {a : EmployeeAssignment} {next bound id : ℕ}

/-- The source of a shown row that is an override -/
theorem previewRow_source (htype : a.sourceType = .override)
    (h : (previewRow rules (overridesContext included proposed) a).sourceId = some id) :
    a.sourceOverrideId = some id ∧ id ∉ proposed := by
  have hversion : a.sourcePolicyVersionId = none := by
    unfold EmployeeAssignment.sourceType at htype
    by_contra hne
    rw [if_pos (Option.isSome_iff_ne_none.mpr hne)] at htype
    cases htype
  unfold previewRow at h
  split at h
  · exact absurd h (by simp)
  · next hproposed =>
    rw [EmployeeAssignment.sourceId, hversion] at h
    rw [EmployeeAssignment.sourceIsProposed, hversion] at hproposed
    replace h : a.sourceOverrideId = some id := h
    refine ⟨h, fun hmem => hproposed ?_⟩
    rw [h]
    exact decide_eq_true hmem

/-- A shown row names overrides that it has, and none that is proposed. -/
theorem previewRow_names (ha : a.Sourced next)
    (h : (previewRow rules (overridesContext included proposed) a).NamesOverride id) :
    id < next ∧ id ∉ proposed := by
  rcases h with ⟨htype, hid⟩ | hdeep
  · obtain ⟨hsource, hnot⟩ := previewRow_source htype hid
    exact ⟨ha.override_lt hsource, hnot⟩
  · obtain ⟨hnamed, hin⟩ := mem_overrideIds_sanitize none hdeep
    rw [a.explanation.overrideIds] at hnamed
    rw [EmployeeAssignment.Sourced] at ha
    cases hreason : a.explanation.reason with
    | policy e =>
      rw [hreason] at hnamed
      exact absurd hnamed List.not_mem_nil
    | manualOverride o =>
      rw [hreason] at hnamed ha
      obtain rfl : id = o.id := by exact_mod_cast List.mem_singleton.mp hnamed
      refine ⟨ha.2.2, fun hmem => ?_⟩
      have hproposed : (Json.int o.id).isIn proposed = true := by simp [Json.isIn, hmem]
      exact Bool.false_ne_true (hin.symm.trans hproposed)

/-- Every item of a change is one from before or from after. -/
theorem mem_items {db : Db} {before after : Dict ℕ (List AssignmentPreview)} {context : MutationContext}
    {item : AssignmentPreview} (h : item ∈ (employeeChange db before after context id).items) :
    item ∈ (before.get? id).getD [] ∨ item ∈ (after.get? id).getD [] := by
  have hfield : ∀ {l : List AssignmentPreview} {fieldId : ℕ},
      item ∈ ((byField l).get? fieldId).getD [] → item ∈ l := by
    intro l fieldId hmem
    rw [byField, Dict.get?_collect, List.filter_map, List.map_map] at hmem
    obtain ⟨x, hx, rfl⟩ := List.mem_map.mp hmem
    exact (List.mem_filter.mp hx).1
  simp only [EmployeePreviewChange.items, List.mem_append] at h
  rcases h with (((hbefore | hafter) | hadded) | hremoved) | hchanged
  · exact Or.inl hbefore
  · exact Or.inr hafter
  · exact Or.inr (List.mem_filter.mp hadded).1
  · exact Or.inl (List.mem_filter.mp hremoved).1
  · obtain ⟨f, hf, hmem⟩ := List.mem_flatMap.mp hchanged
    obtain ⟨fieldId, _, hlisted⟩ := List.mem_filterMap.mp hf
    dsimp only at hlisted
    split at hlisted
    · cases hlisted
    · cases hlisted
      exact (List.mem_append.mp hmem).imp hfield hfield

end

end Warp
