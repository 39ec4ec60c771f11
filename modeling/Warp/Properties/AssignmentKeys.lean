import Warp.Properties.JsonText
import Warp.Reconciliation

/-!
# What an assignment key says

Two assignments have one key when they agree on field, value, sources and explanation, where the
dates of evaluation do not count. Nothing else of an explanation is lost in the key.
-/

namespace Warp

open Infra

/-! ## Explanations without dates of evaluation -/

/-- The start of a tenure stands for its date of evaluation. -/
def ExplanationValue.undated : ExplanationValue → ExplanationValue
  | .tenure startDate _ => .tenure startDate startDate
  | v => v

def ConditionMatchEvidence.undated (c : ConditionMatchEvidence) : ConditionMatchEvidence :=
  { c with expected := c.expected.undated, actual := c.actual.undated }

def ClauseMatchEvidence.undated (c : ClauseMatchEvidence) : ClauseMatchEvidence :=
  { c with conditions := c.conditions.map ConditionMatchEvidence.undated }

def ExplanationOrigin.undated : ExplanationOrigin → ExplanationOrigin
  | .origin (.conditionMatch clauses) =>
    .origin (.conditionMatch (clauses.map ClauseMatchEvidence.undated))
  | o => o

/-- What every list of origins in an explanation is replaced by. -/
abbrev OriginsMap := List ExplanationOrigin → List ExplanationOrigin

def CandidateSummary.mapOrigins (f : OriginsMap) (c : CandidateSummary) : CandidateSummary :=
  { c with origins := f c.origins }

def PolicyExplanation.mapOrigins (f : OriginsMap) (e : PolicyExplanation) : PolicyExplanation :=
  { e with
    origins := f e.origins
    candidates := e.candidates.map (CandidateSummary.mapOrigins f) }

def ExplanationReason.mapOrigins (f : OriginsMap) : ExplanationReason → ExplanationReason
  | .policy e => .policy (e.mapOrigins f)
  | .manualOverride e => .manualOverride e

def undatedOrigins : OriginsMap := List.map ExplanationOrigin.undated

def Explanation.undated (e : Explanation) : Explanation :=
  ⟨none, e.reason.mapOrigins undatedOrigins⟩

/-! ## Stable texts -/

namespace Json

/-- The text of a value without its dates of evaluation. -/
def stable (v : Json) : String := (v.without "evaluation_date").dumps

theorem withoutItems_eq (name : String) (items : List Json) :
    withoutItems name items = items.map (without name) := by
  induction items with
  | nil => rfl
  | cons v items ih => rw [withoutItems, ih]; rfl

theorem withoutFields_eq {name : String} {fields : List (String × Json)}
    (h : name ∉ fields.map Prod.fst) :
    withoutFields name fields = fields.map fun p => (p.1, p.2.without name) := by
  induction fields with
  | nil => rfl
  | cons p fields ih =>
    obtain ⟨k, v⟩ := p
    rw [List.map_cons, List.mem_cons, not_or] at h
    rw [withoutFields, if_neg (fun he => h.1 he.symm), ih h.2]
    rfl

@[simp] theorem stable_str {a b : String} : (str a).stable = (str b).stable ↔ a = b := dumps_str

@[simp] theorem stable_int {n m : ℤ} : (int n).stable = (int m).stable ↔ n = m := dumps_int

theorem stable_nat {n m : ℕ} : (int n).stable = (int m).stable ↔ n = m := by
  rw [stable_int]
  exact Int.ofNat_inj

@[simp] theorem stable_bool {b c : Bool} : (bool b).stable = (bool c).stable ↔ b = c := dumps_bool

theorem stable_arr {l m : List Json} :
    (arr l).stable = (arr m).stable ↔ l.map stable = m.map stable := by
  unfold stable
  rw [without, without, dumps_arr, withoutItems_eq, withoutItems_eq, List.map_map, List.map_map]
  rfl

/-- Arrays of written elements have one text when the elements have the same texts. -/
theorem stable_arr_map {α β : Type*} {f : α → Json} {g : α → β}
    (hf : ∀ a b, (f a).stable = (f b).stable ↔ g a = g b) {l m : List α} :
    (arr (l.map f)).stable = (arr (m.map f)).stable ↔ l.map g = m.map g := by
  rw [stable_arr, List.map_map, List.map_map]
  induction l generalizing m with
  | nil => cases m <;> simp
  | cons a l ih =>
    cases m with
    | nil => simp
    | cons b m =>
      rw [List.map_cons, List.map_cons, List.map_cons, List.map_cons, List.cons.injEq,
        List.cons.injEq, ih]
      exact and_congr_left fun _ => hf a b

theorem stable_record {fields others : List (String × Json)} (hn : (fields.map Prod.fst).Nodup)
    (hdate : "evaluation_date" ∉ fields.map Prod.fst)
    (hk : others.map Prod.fst = fields.map Prod.fst) :
    (obj fields).stable = (obj others).stable ↔
      fields.map (fun p => p.2.stable) = others.map (fun p => p.2.stable) := by
  unfold stable
  rw [without, without, withoutFields_eq hdate, withoutFields_eq (by rw [hk]; exact hdate)]
  have hkeys : ∀ fs : List (String × Json),
      (fs.map fun p => (p.1, p.2.without "evaluation_date")).map Prod.fst = fs.map Prod.fst := by
    intro fs
    rw [List.map_map]
    rfl
  rw [dumps_record (by rw [hkeys]; exact hn) (by rw [hkeys, hkeys, hk]), List.map_map, List.map_map]
  rfl

/-- Records with different numbers of fields have different texts. -/
theorem stable_ne {fields others : List (String × Json)}
    (h : (withoutFields "evaluation_date" fields).length ≠
      (withoutFields "evaluation_date" others).length) :
    (obj fields).stable ≠ (obj others).stable := by
  intro hsame
  have hlength := congrArg List.length (dumps_obj.mp hsame)
  refine h ?_
  simpa [sortFields, (perm_orderBy _ _).length_eq, dumpsFields_eq] using hlength

end Json

/-! ## The text of an explanation -/

theorem Json.kind_without (name : String) (v : Json) : (v.without name).kind = v.kind := by
  cases v <;> rfl

theorem Json.stable_kind {v w : Json} (h : v.stable = w.stable) : v.kind = w.kind := by
  rw [← Json.kind_without "evaluation_date" v, Json.kind_of_dumps h, Json.kind_without]

theorem ExplanationValue.stable_ids {l m : List ℕ} : (ids l).toJson.stable = (ids m).toJson.stable ↔
    l = m := by
  have hf : ∀ a b : ℕ, (Json.int a).stable = (Json.int b).stable ↔ id a = id b :=
    fun _ _ => Json.stable_nat
  have hl : ∀ l : List ℕ, (ids l).toJson = .arr (l.map fun n : ℕ => .int n) := by
    intro l
    simp [toJson, ← List.map_eq_flatMap]
  rw [hl, hl, Json.stable_arr_map hf, List.map_id, List.map_id]

theorem ExplanationValue.stable_tenure {start day start' day' : Date} :
    (tenure start day).toJson.stable = (tenure start' day').toJson.stable ↔ start = start' := by
  have hstart : ∀ start day : Date, (tenure start day).toJson.stable =
      (Json.obj [("start_date", .str start.isoformat)]).stable := by
    intro start day
    simp [Json.stable, toJson, Json.without, Json.withoutFields]
  rw [hstart, hstart, Json.stable_record (by simp) (by simp) (by simp)]
  simp only [List.map_cons, List.map_nil, Json.stable_str, List.cons.injEq, and_true]
  exact ⟨Date.isoformat_injective, fun h => by rw [h]⟩

/-- Texts of two kinds differ, and so do values of two constructors. -/
theorem ExplanationValue.stable_iff (x y : ExplanationValue) :
    x.toJson.stable = y.toJson.stable ↔ x.undated = y.undated := by
  by_cases hkind : x.toJson.kind = y.toJson.kind
  · cases x <;> cases y <;> simp only [toJson, Json.kind, reduceCtorEq] at hkind
    · simp
    · simp [toJson, undated]
    · simp [toJson, undated]
    · simp [toJson, undated]
    · simp [stable_ids, undated]
    · simp [stable_tenure, undated]
  · refine iff_of_false (fun h => hkind (Json.stable_kind h)) fun h => hkind ?_
    cases x <;> cases y <;> simp only [undated, reduceCtorEq] at h <;> simp only [toJson, Json.kind]

theorem Operator.text_injective {o p : Operator} : o.text = p.text ↔ o = p := by
  cases o <;> cases p <;> decide

theorem ConditionMatchEvidence.stable_iff (c d : ConditionMatchEvidence) :
    c.toJson.stable = d.toJson.stable ↔ c.undated = d.undated := by
  rw [toJson, toJson, Json.stable_record (by simp) (by simp) (by simp)]
  simp [undated, ExplanationValue.stable_iff, Operator.text_injective]

theorem ClauseMatchEvidence.stable_iff (c d : ClauseMatchEvidence) :
    c.toJson.stable = d.toJson.stable ↔ c.undated = d.undated := by
  rw [toJson, toJson, Json.stable_record (by simp) (by simp) (by simp)]
  simp [undated, Json.stable_arr_map ConditionMatchEvidence.stable_iff, Int.ofNat_inj]

/-- The three types of origins differ in the number of their fields. -/
theorem ExplanationOrigin.stable_iff (o p : ExplanationOrigin) :
    o.toJson.stable = p.toJson.stable ↔ o.undated = p.undated := by
  rcases o with _ | (clauses | ⟨groupId, groupName⟩) <;>
    rcases p with _ | (clauses' | ⟨groupId', groupName'⟩)
  · simp
  · exact iff_of_false (Json.stable_ne (by simp [Json.withoutFields])) (by simp [undated])
  · exact iff_of_false (Json.stable_ne (by simp [Json.withoutFields])) (by simp [undated])
  · exact iff_of_false (Json.stable_ne (by simp [Json.withoutFields])) (by simp [undated])
  · rw [toJson, toJson, Json.stable_record (by simp) (by simp) (by simp)]
    simp [undated, Json.stable_arr_map ClauseMatchEvidence.stable_iff]
  · exact iff_of_false (Json.stable_ne (by simp [Json.withoutFields])) (by simp [undated])
  · exact iff_of_false (Json.stable_ne (by simp [Json.withoutFields])) (by simp [undated])
  · exact iff_of_false (Json.stable_ne (by simp [Json.withoutFields])) (by simp [undated])
  · rw [toJson, toJson, Json.stable_record (by simp) (by simp) (by simp)]
    simp [undated, Int.ofNat_inj]

theorem CandidateOutcome.text_injective {o p : CandidateOutcome} : o.text = p.text ↔ o = p := by
  cases o <;> cases p <;> decide

theorem CandidateSummary.stable_iff (c d : CandidateSummary) : c.toJson.stable = d.toJson.stable ↔
    c.mapOrigins undatedOrigins = d.mapOrigins undatedOrigins := by
  rw [toJson, toJson, Json.stable_record (by simp) (by simp) (by simp)]
  simp [mapOrigins, undatedOrigins, Json.stable_arr_map ExplanationOrigin.stable_iff,
    CandidateOutcome.text_injective, Int.ofNat_inj]

theorem optionText_stable {a b : Option String} :
    (optionText a).stable = (optionText b).stable ↔ a = b := by
  cases a <;> cases b
  · simp
  · refine iff_of_false (fun h => absurd (Json.stable_kind h) (by simp [optionText, Json.kind])) (by simp)
  · refine iff_of_false (fun h => absurd (Json.stable_kind h) (by simp [optionText, Json.kind])) (by simp)
  · simp [optionText]

theorem Cardinality.text_injective {c d : Cardinality} : c.text = d.text ↔ c = d := by
  cases c <;> cases d <;> decide

theorem PolicyExplanation.stable_iff (e f : PolicyExplanation) :
    (Json.obj e.fields).stable = (Json.obj f.fields).stable ↔
      e.mapOrigins undatedOrigins = f.mapOrigins undatedOrigins := by
  rw [fields, fields, Json.stable_record (by simp) (by simp) (by simp)]
  simp only [List.map_cons, List.map_nil, List.cons.injEq, and_true]
  rw [Json.stable_record (by simp) (by simp) (by simp),
    Json.stable_record (by simp) (by simp) (by simp),
    Json.stable_record (by simp) (by simp) (by simp)]
  simp only [List.map_cons, List.map_nil, List.cons.injEq, and_true, Json.stable_str,
    Json.stable_int, Int.ofNat_inj, optionText_stable, Cardinality.text_injective, true_and,
    Json.stable_arr_map ExplanationOrigin.stable_iff, Json.stable_arr_map CandidateSummary.stable_iff,
    mapOrigins, undatedOrigins, PolicyExplanation.mk.injEq, and_assoc]

theorem ReplacedAssignment.stable_iff (r s : ReplacedAssignment) :
    r.toJson.stable = s.toJson.stable ↔ id r = id s := by
  rw [toJson, toJson, Json.stable_record (by simp) (by simp) (by simp)]
  cases r
  cases s
  simp [optionText_stable, Int.ofNat_inj]

theorem OverrideExplanation.stable_iff (e f : OverrideExplanation) :
    (Json.obj e.fields).stable = (Json.obj f.fields).stable ↔ e = f := by
  rw [fields, fields, Json.stable_record (by simp) (by simp) (by simp)]
  simp only [List.map_cons, List.map_nil, List.cons.injEq, and_true]
  rw [Json.stable_record (by simp) (by simp) (by simp),
    Json.stable_record (by simp) (by simp) (by simp)]
  have hcardinality : ∀ c d : Option Cardinality,
      c.map Cardinality.text = d.map Cardinality.text ↔ c = d := by
    intro c d
    cases c <;> cases d <;> simp [Cardinality.text_injective]
  cases e
  cases f
  simp only [List.map_cons, List.map_nil, List.cons.injEq, and_true, Json.stable_str,
    Json.stable_int, Int.ofNat_inj, optionText_stable, hcardinality, true_and, List.map_id,
    Json.stable_arr_map ReplacedAssignment.stable_iff, mk.injEq, and_assoc]

def ExplanationReason.fields : ExplanationReason → List (String × Json)
  | .policy e => e.fields
  | .manualOverride e => e.fields

/-- The date that stands beside the reason is left out. -/
theorem Explanation.toJson_stable (e : Explanation) :
    e.toJson.stable = (Json.obj e.reason.fields).stable := by
  obtain ⟨day, reason⟩ := e
  cases day <;> cases reason <;> rfl

theorem ExplanationReason.stable_iff (r s : ExplanationReason) :
    (Json.obj r.fields).stable = (Json.obj s.fields).stable ↔
      r.mapOrigins undatedOrigins = s.mapOrigins undatedOrigins := by
  cases r with
  | policy e =>
    cases s with
    | policy f => simp [fields, mapOrigins, PolicyExplanation.stable_iff]
    | manualOverride f =>
      exact iff_of_false (Json.stable_ne (by
        simp [fields, PolicyExplanation.fields, OverrideExplanation.fields, Json.withoutFields]))
        (by simp [mapOrigins])
  | manualOverride e =>
    cases s with
    | policy f =>
      exact iff_of_false (Json.stable_ne (by
        simp [fields, PolicyExplanation.fields, OverrideExplanation.fields, Json.withoutFields]))
        (by simp [mapOrigins])
    | manualOverride f => simp [fields, mapOrigins, OverrideExplanation.stable_iff]

/-- The key keeps everything of an explanation but the dates of evaluation. -/
theorem stableExplanation_iff (e f : Explanation) :
    stableExplanation e = stableExplanation f ↔ e.undated = f.undated := by
  show e.toJson.stable = f.toJson.stable ↔ _
  rw [Explanation.toJson_stable, Explanation.toJson_stable, ExplanationReason.stable_iff]
  simp [Explanation.undated]

/-! ## Keys -/

/-- What a key says. -/
def FinalAssignment.essence (item : FinalAssignment) : AssignmentIdentity × Explanation :=
  (item.identity, item.explanation.undated)

def EmployeeAssignment.essence (a : EmployeeAssignment) : AssignmentIdentity × Explanation :=
  (a.identity, a.explanation.undated)

theorem FinalAssignment.assignmentKey_iff {a b : FinalAssignment} :
    a.assignmentKey = b.assignmentKey ↔ a.essence = b.essence := by
  simp only [assignmentKey, essence, Prod.mk.injEq, stableExplanation_iff]

theorem assignmentKeys_of_essence {l l' : List FinalAssignment}
    (h : l.map FinalAssignment.essence = l'.map FinalAssignment.essence) :
    l.map FinalAssignment.assignmentKey = l'.map FinalAssignment.assignmentKey := by
  induction l generalizing l' with
  | nil => rw [List.map_eq_nil_iff.mp h.symm]
  | cons a l ih =>
    obtain ⟨b, m, rfl, hb, hm⟩ := List.map_eq_cons_iff.mp h.symm
    rw [List.map_cons, List.map_cons, ih hm.symm, FinalAssignment.assignmentKey_iff.mpr hb.symm]

end Warp
