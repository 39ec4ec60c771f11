import Mathlib.Data.List.Flatten
import Warp.ConditionGroupEditor
import Warp.Infra.DrawnIds

/-!
# The identifiers of the policy builder

The builder's tree is the received one with an identifier on every row and every group. They are distinct
when the page is opened, and stay so whatever controls are used.
-/

namespace Warp.PolicyBuilder

open Infra

/-! ## Identifiers of a tree -/

inductive IdKind where
  | group
  | condition
deriving DecidableEq, Repr

def BuilderIds.next (ids : BuilderIds) : IdKind → ℕ
  | .group => ids.group
  | .condition => ids.condition

/-- The identifiers of one kind that a group itself holds. -/
def ownIds (groupId : ℕ) (conditions : List BuilderCondition) : IdKind → List ℕ
  | .group => [groupId]
  | .condition => conditions.map fun row => row.rowId

mutual

def treeIds (kind : IdKind) : BuilderConditionGroup → List ℕ
  | .mk groupId _ conditions children => ownIds groupId conditions kind ++ forestIds kind children

def forestIds (kind : IdKind) : List BuilderConditionGroup → List ℕ
  | [] => []
  | child :: rest => treeIds kind child ++ forestIds kind rest

end

/-- No two groups and no two rows of the tree have the same identifier. -/
def UniqueIds (root : BuilderConditionGroup) : Prop := ∀ kind, (treeIds kind root).Nodup

theorem forestIds_eq (kind : IdKind) (children : List BuilderConditionGroup) :
    forestIds kind children = children.flatMap (treeIds kind) := by
  induction children with
  | nil => rfl
  | cons child rest ih => rw [forestIds, List.flatMap_cons, ih]

theorem treeIds_mk (kind : IdKind) (groupId : ℕ) (op : LogicalOperator)
    (conditions : List BuilderCondition) (children : List BuilderConditionGroup) :
    treeIds kind (.mk groupId op conditions children) =
      ownIds groupId conditions kind ++ children.flatMap (treeIds kind) := by
  rw [treeIds, forestIds_eq]

theorem treeIds_child {groupId : ℕ} {op : LogicalOperator} {conditions : List BuilderCondition}
    {children : List BuilderConditionGroup} {child : BuilderConditionGroup} (h : child ∈ children)
    (kind : IdKind) :
    (treeIds kind child).Sublist (treeIds kind (.mk groupId op conditions children)) := by
  rw [treeIds_mk]
  exact (List.sublist_flatten_of_mem (List.mem_map_of_mem h)).trans (List.sublist_append_right _ _)

theorem groupId_mem (group : BuilderConditionGroup) : group.groupId ∈ treeIds .group group := by
  cases group with
  | mk groupId op conditions children => exact List.mem_cons_self

/-! ## The tree at the start -/

/-- The identifiers that were given out between two states of the counters. -/
def Numbers (ids last : BuilderIds) (given : IdKind → List ℕ) : Prop :=
  ∀ kind, ∃ n, given kind = List.range' (ids.next kind) n ∧ last.next kind = ids.next kind + n

theorem Numbers.append {ids middle last : BuilderIds} {given more : IdKind → List ℕ}
    (h : Numbers ids middle given) (hmore : Numbers middle last more) :
    Numbers ids last fun kind => given kind ++ more kind := by
  intro kind
  obtain ⟨n, hgiven, hmiddle⟩ := h kind
  obtain ⟨m, hothers, hlast⟩ := hmore kind
  refine ⟨n + m, ?_, by rw [hlast, hmiddle, Nat.add_assoc]⟩
  show given kind ++ more kind = _
  rw [hgiven, hothers, hmiddle, List.range'_append_1]

theorem Numbers.nodup {ids last : BuilderIds} {given : IdKind → List ℕ} (h : Numbers ids last given)
    (kind : IdKind) : (given kind).Nodup := by
  obtain ⟨n, hgiven, _⟩ := h kind
  rw [hgiven]
  exact List.nodup_range'

theorem numberConditions_ids (conditions : List Condition) : ∀ ids,
    (numberConditions conditions ids).1.map (fun row => row.rowId) =
        List.range' ids.condition conditions.length ∧
      (numberConditions conditions ids).2 =
        { ids with condition := ids.condition + conditions.length } := by
  induction conditions with
  | nil =>
    intro ids
    exact ⟨rfl, rfl⟩
  | cons condition rest ih =>
    intro ids
    obtain ⟨hrows, hlast⟩ := ih { ids with condition := ids.condition + 1 }
    constructor
    · rw [numberConditions, List.map_cons, hrows, List.length_cons, List.range'_succ]
    · show (numberConditions rest { ids with condition := ids.condition + 1 }).2 = _
      rw [hlast, List.length_cons, Nat.add_right_comm, Nat.add_assoc]

/-- The group's own identifiers: one number, and one for each row. -/
theorem numbers_own (conditions : List Condition) (ids : BuilderIds) :
    Numbers ids (numberConditions conditions { ids with group := ids.group + 1 }).2
      (ownIds ids.group (numberConditions conditions { ids with group := ids.group + 1 }).1) := by
  obtain ⟨hrows, hlast⟩ := numberConditions_ids conditions { ids with group := ids.group + 1 }
  rw [hlast]
  intro kind
  cases kind with
  | group => exact ⟨1, rfl, rfl⟩
  | condition => exact ⟨conditions.length, hrows, rfl⟩

mutual

theorem numbers_group : ∀ (group : ConditionGroup) (ids : BuilderIds),
    Numbers ids (numberGroup group ids).2 fun kind => treeIds kind (numberGroup group ids).1
  | .mk op conditions children, ids => by
    have hchildren := numbers_groups children
      (numberConditions conditions { ids with group := ids.group + 1 }).2
    simp only [numberGroup, treeIds]
    exact (numbers_own conditions ids).append hchildren

theorem numbers_groups : ∀ (groups : List ConditionGroup) (ids : BuilderIds),
    Numbers ids (numberGroups groups ids).2 fun kind => forestIds kind (numberGroups groups ids).1
  | [], ids => fun kind => ⟨0, rfl, rfl⟩
  | child :: rest, ids => by
    have hrest := numbers_groups rest (numberGroup child ids).2
    simp only [numberGroups, forestIds]
    exact (numbers_group child ids).append hrest

end

theorem initialize_unique (source : Option ConditionGroup) (includeDefaultCondition : Bool) :
    UniqueIds (initializeConditionTree source includeDefaultCondition) := by
  intro kind
  cases source with
  | some source => exact (numbers_group source ⟨1, 1⟩).nodup kind
  | none => cases kind <;> cases includeDefaultCondition <;> decide

/-! ## What the tree keeps -/

mutual

/-- The tree without the words for its values. -/
def ConditionGroup.withoutDisplayValues : ConditionGroup → ConditionGroup
  | .mk op conditions children =>
    .mk op (conditions.map fun condition => { condition with displayValue := none })
      (withoutDisplayValuesAll children)

def ConditionGroup.withoutDisplayValuesAll : List ConditionGroup → List ConditionGroup
  | [] => []
  | child :: rest => child.withoutDisplayValues :: withoutDisplayValuesAll rest

end

mutual

/-- What is sent, as the type of the trees that are received. -/
def ofSent : ConditionGroupCreate → ConditionGroup
  | .mk op conditions children =>
    .mk op (conditions.map fun sent => ⟨sent.field, sent.operator, sent.value, none⟩)
      (ofSentAll children)

def ofSentAll : List ConditionGroupCreate → List ConditionGroup
  | [] => []
  | child :: rest => ofSent child :: ofSentAll rest

end

theorem sent_numberConditions (conditions : List Condition) : ∀ ids,
    ((numberConditions conditions ids).1.map serializeCondition).map
        (fun sent => (⟨sent.field, sent.operator, sent.value, none⟩ : Condition)) =
      conditions.map fun condition => { condition with displayValue := none } := by
  induction conditions with
  | nil =>
    intro ids
    rfl
  | cons condition rest ih =>
    intro ids
    rw [numberConditions, List.map_cons, List.map_cons, List.map_cons, ih]
    rfl

mutual

theorem sent_numberGroup : ∀ (group : ConditionGroup) (ids : BuilderIds),
    ofSent (serializeConditionTree (numberGroup group ids).1) = group.withoutDisplayValues
  | .mk op conditions children, ids => by
    rw [numberGroup, serializeConditionTree, ofSent, ConditionGroup.withoutDisplayValues,
      sent_numberConditions, sent_numberGroups children]

theorem sent_numberGroups : ∀ (groups : List ConditionGroup) (ids : BuilderIds),
    ofSentAll (serializeConditionTrees (numberGroups groups ids).1) =
      ConditionGroup.withoutDisplayValuesAll groups
  | [], _ => rfl
  | child :: rest, ids => by
    rw [numberGroups, serializeConditionTrees, ofSentAll, ConditionGroup.withoutDisplayValuesAll,
      sent_numberGroup child, sent_numberGroups rest]

end

/-! ## The counters -/

theorem raiseIds_own (groupId : ℕ) (conditions : List BuilderCondition) (ids : BuilderIds)
    (kind : IdKind) :
    ∀ n, n ≤ ids.next kind ∨ n ∈ ownIds groupId conditions kind →
      n ≤ BuilderIds.next ⟨max ids.group groupId,
        conditions.foldl (fun id row => max id row.rowId) ids.condition⟩ kind := by
  cases kind with
  | group =>
    rintro n (h | h)
    · exact h.trans (Nat.le_max_left _ _)
    · rw [List.mem_singleton.mp h]
      exact Nat.le_max_right _ _
  | condition =>
    show ∀ n, n ≤ ids.condition ∨ n ∈ conditions.map (fun row => row.rowId) →
      n ≤ conditions.foldl (fun id row => max id row.rowId) ids.condition
    generalize ids.condition = start
    induction conditions generalizing start with
    | nil =>
      rintro n (h | h)
      · exact h
      · exact absurd h List.not_mem_nil
    | cons row rest ih =>
      rintro n (h | h)
      · exact ih _ n (Or.inl (h.trans (Nat.le_max_left _ _)))
      · rcases List.mem_cons.mp h with rfl | hrest
        · exact ih _ _ (Or.inl (Nat.le_max_right _ _))
        · exact ih _ n (Or.inr hrest)

mutual

/-- The maximum covers where it started and every identifier of the tree. -/
theorem le_raiseIds (kind : IdKind) : ∀ (group : BuilderConditionGroup) (ids : BuilderIds) (n : ℕ),
    n ≤ ids.next kind ∨ n ∈ treeIds kind group → n ≤ (raiseIds group ids).next kind
  | .mk groupId op conditions children, ids, n, h => by
    rw [treeIds, List.mem_append, ← or_assoc] at h
    exact le_raiseChildIds kind children _ n (h.imp_left (raiseIds_own groupId conditions ids kind n))

theorem le_raiseChildIds (kind : IdKind) : ∀ (children : List BuilderConditionGroup)
    (ids : BuilderIds) (n : ℕ),
    n ≤ ids.next kind ∨ n ∈ forestIds kind children → n ≤ (raiseChildIds children ids).next kind
  | [], _, n, h => h.resolve_right List.not_mem_nil
  | child :: rest, ids, n, h => by
    rw [forestIds, List.mem_append, ← or_assoc] at h
    exact le_raiseChildIds kind rest _ n (h.imp_left (le_raiseIds kind child ids n))

end

/-- Every identifier of the page was given out, and none twice. -/
def PolicyBuilderState.InUse (page : PolicyBuilderState) : Prop :=
  ∀ kind, Infra.InUse (treeIds kind page.conditionTree) (page.nextBuilderIds.next kind)

theorem open_inUse (source : Option ConditionGroup) (conditionFields : List ConditionField) :
    (openPolicyBuilder source conditionFields).InUse := by
  intro kind
  refine ⟨initialize_unique source _ kind, fun n hn => ?_⟩
  have hle : n ≤ (maximumBuilderIds (openPolicyBuilder source conditionFields).conditionTree).next kind :=
    le_raiseIds kind _ _ n (Or.inr hn)
  cases kind with
  | group => exact Nat.lt_succ_of_le hle
  | condition => exact Nat.lt_succ_of_le hle

/-! ## Edits -/

section

variable {groupId : ℕ} {op : LogicalOperator} {conditions : List BuilderCondition}
  {children : List BuilderConditionGroup} {ids : BuilderIds}

/-- The identifiers of the group that an editor holds are in use, and what it hands upwards has distinct
ones, old or drawn in between. -/
def DrawnIn (group edited : BuilderConditionGroup) (ids last : BuilderIds) : Prop :=
  ∀ kind, Drawn (treeIds kind group) (treeIds kind edited) (ids.next kind) (last.next kind)

theorem drawnIn_of_sublist {group edited : BuilderConditionGroup}
    (h : ∀ kind, Infra.InUse (treeIds kind group) (ids.next kind))
    (hsub : ∀ kind, (treeIds kind edited).Sublist (treeIds kind group)) :
    DrawnIn group edited ids ids := fun kind => (h kind).drawn_of_sublist (hsub kind)

theorem patched_rowId (item : BuilderCondition) (patch : ConditionPatch) :
    (item.patched patch).rowId = item.rowId := rfl

theorem ownIds_patched (row : ℕ) (patch : ConditionPatch) (kind : IdKind) :
    ownIds groupId (conditions.map fun item =>
      if item.rowId = row then item.patched patch else item) kind = ownIds groupId conditions kind := by
  cases kind with
  | group => rfl
  | condition =>
    show ((conditions.map _).map _) = conditions.map _
    rw [List.map_map]
    refine List.map_congr_left fun item _ => ?_
    show (if item.rowId = row then item.patched patch else item).rowId = item.rowId
    split
    · exact patched_rowId item patch
    · rfl

theorem ownIds_sublist {rows : List BuilderCondition} (h : rows.Sublist conditions) (kind : IdKind) :
    (ownIds groupId rows kind).Sublist (ownIds groupId conditions kind) := by
  cases kind with
  | group => exact List.Sublist.refl _
  | condition => exact h.map _

theorem createCondition_drawn
    (h : ∀ kind, Infra.InUse (treeIds kind (.mk groupId op conditions children)) (ids.next kind)) :
    DrawnIn (.mk groupId op conditions children)
      (.mk groupId op (conditions ++ [(createCondition ids).1]) children) ids
      (createCondition ids).2 := by
  intro kind
  have hkind := h kind
  rw [treeIds_mk] at hkind ⊢
  rw [treeIds_mk]
  cases kind with
  | group => exact hkind.drawn_of_sublist (List.Sublist.refl _)
  | condition =>
    refine hkind.drawn_of_perm ?_
    simp only [ownIds, List.map_append, List.map_cons, List.map_nil, List.append_assoc,
      List.singleton_append]
    exact List.perm_middle

theorem createGroup_drawn
    (h : ∀ kind, Infra.InUse (treeIds kind (.mk groupId op conditions children)) (ids.next kind)) :
    DrawnIn (.mk groupId op conditions children)
      (.mk groupId op conditions (children ++ [(createGroup ids).1])) ids (createGroup ids).2 := by
  intro kind
  have hkind := h kind
  rw [treeIds_mk] at hkind ⊢
  rw [treeIds_mk, List.flatMap_append, ← List.append_assoc, List.flatMap_singleton]
  cases kind with
  | group => exact hkind.drawn_of_perm (List.perm_append_singleton _ _)
  | condition => exact hkind.drawn_of_perm (List.perm_append_singleton _ _)

/-- Two children have different group identifiers, also where they hold no rows. -/
theorem children_apart (h : ((children.flatMap (treeIds .group))).Nodup) :
    children.Pairwise fun x y => x.groupId ≠ y.groupId := by
  refine (List.nodup_flatMap.mp h).2.imp fun {x y} hdisjoint => ?_
  intro heq
  have hmem : x.groupId ∈ treeIds .group y := heq ▸ groupId_mem y
  exact hdisjoint (groupId_mem x) hmem

theorem inGroup_drawn {child nextChild : BuilderConditionGroup} {last : BuilderIds}
    (h : ∀ kind, Infra.InUse (treeIds kind (.mk groupId op conditions children)) (ids.next kind))
    (hchild : child ∈ children) (hdrawn : DrawnIn child nextChild ids last) :
    DrawnIn (.mk groupId op conditions children)
      (.mk groupId op conditions
        (children.map fun item => if item.groupId = child.groupId then nextChild else item)) ids last := by
  have hgroups := h .group
  rw [treeIds_mk] at hgroups
  have hapart := children_apart (List.nodup_append.mp hgroups.nodup).2.1
  have hsame : ∀ x ∈ children, x.groupId = child.groupId → x = child := by
    intro x hx heq
    have hsymm : Std.Symm fun x y : BuilderConditionGroup => x.groupId ≠ y.groupId :=
      ⟨fun _ _ hne => hne.symm⟩
    by_contra hne
    exact hapart.forall hx hchild hne heq
  intro kind
  have hkind := h kind
  rw [treeIds_mk] at hkind ⊢
  rw [treeIds_mk]
  refine hkind.drawn_block hchild hsame (hapart.imp fun {x y} hne hboth => ?_) (hdrawn kind)
  exact hne (hboth.1.trans hboth.2.symm)

/-- One use of a control: a case for each kind of control, by induction on the way down to its group. -/
theorem editGroup_drawn {conditionFields : List ConditionField} {stats : ConditionTreeStats}
    {edit : GroupEdit} : ∀ {depth : ℕ} {group edited : BuilderConditionGroup} {ids last : BuilderIds},
    editGroup conditionFields stats depth edit group ids = some (edited, last) →
      (∀ kind, Infra.InUse (treeIds kind group) (ids.next kind)) → DrawnIn group edited ids last := by
  induction edit with
  | logicalOperator op' =>
    rintro depth ⟨groupId, op, conditions, children⟩ edited ids last hedit h
    cases hedit
    exact drawnIn_of_sublist h fun kind => by rw [treeIds_mk, treeIds_mk]
  | changeCondition row change =>
    rintro depth ⟨groupId, op, conditions, children⟩ edited ids last hedit h
    simp only [editGroup, Option.bind_eq_some_iff, Option.map_eq_some_iff, Prod.mk.injEq] at hedit
    obtain ⟨condition, _, patch, _, rfl, rfl⟩ := hedit
    exact drawnIn_of_sublist h fun kind => by rw [treeIds_mk, treeIds_mk, ownIds_patched]
  | removeCondition row =>
    rintro depth ⟨groupId, op, conditions, children⟩ edited ids last hedit h
    simp only [editGroup, Option.bind_eq_some_iff, Option.ite_none_left_eq_some, Option.some.injEq,
      Prod.mk.injEq] at hedit
    obtain ⟨condition, _, _, rfl, rfl⟩ := hedit
    refine drawnIn_of_sublist h fun kind => ?_
    rw [treeIds_mk, treeIds_mk]
    exact (ownIds_sublist List.filter_sublist kind).append_right _
  | addCondition =>
    rintro depth ⟨groupId, op, conditions, children⟩ edited ids last hedit h
    simp only [editGroup, Option.ite_none_right_eq_some, Option.some.injEq, Prod.mk.injEq] at hedit
    obtain ⟨_, rfl, rfl⟩ := hedit
    exact createCondition_drawn h
  | addGroup =>
    rintro depth ⟨groupId, op, conditions, children⟩ edited ids last hedit h
    simp only [editGroup, Option.ite_none_right_eq_some, Option.some.injEq, Prod.mk.injEq] at hedit
    obtain ⟨_, rfl, rfl⟩ := hedit
    exact createGroup_drawn h
  | removeGroup index =>
    rintro depth ⟨groupId, op, conditions, children⟩ edited ids last hedit h
    simp only [editGroup, Option.bind_eq_some_iff, Option.ite_none_left_eq_some, Option.some.injEq,
      Prod.mk.injEq] at hedit
    obtain ⟨child, _, _, rfl, rfl⟩ := hedit
    refine drawnIn_of_sublist h fun kind => ?_
    rw [treeIds_mk, treeIds_mk]
    exact (List.filter_sublist.flatMap _).append_left _
  | inGroup index change ih =>
    rintro depth ⟨groupId, op, conditions, children⟩ edited ids last hedit h
    simp only [editGroup, Option.bind_eq_some_iff, Option.map_eq_some_iff] at hedit
    obtain ⟨child, hindex, ⟨nextChild, last'⟩, hchange, hedited⟩ := hedit
    cases hedited
    have hchild : child ∈ children := List.mem_of_getElem? hindex
    -- the child's identifiers are among the group's
    have hbelow : ∀ kind, Infra.InUse (treeIds kind child) (ids.next kind) := fun kind =>
      (h kind).sublist (treeIds_child hchild kind)
    exact inGroup_drawn h hchild (ih hchange hbelow)

end

/-! ## Runs -/

theorem changeConditionTree_inUse {conditionFields : List ConditionField} {page : PolicyBuilderState}
    (h : page.InUse) (edit : GroupEdit) : (changeConditionTree conditionFields page edit).InUse := by
  unfold changeConditionTree
  split
  · next nextTree ids hedit =>
    exact fun kind => (editGroup_drawn hedit h kind).inUse (h kind)
  · exact h

theorem runEdits_inUse {conditionFields : List ConditionField} (edits : List GroupEdit) :
    ∀ {page : PolicyBuilderState}, page.InUse → (runEdits conditionFields page edits).InUse := by
  induction edits with
  | nil =>
    intro page h
    exact h
  | cons edit rest ih =>
    intro page h
    exact ih (changeConditionTree_inUse h edit)

/-- What is sent unedited is what was received, without the words for its values. No two rows and no two
groups ever have the same identifier. -/
theorem builder_tree_faithful (includeDefaultCondition : Bool) :
    (∀ source : ConditionGroup,
      ofSent (serializeConditionTree (initializeConditionTree (some source) includeDefaultCondition)) =
        source.withoutDisplayValues) ∧
    ∀ source : Option ConditionGroup,
      UniqueIds (initializeConditionTree source includeDefaultCondition) ∧
      ∀ (conditionFields : List ConditionField) (edits : List GroupEdit),
        UniqueIds
          (runEdits conditionFields (openPolicyBuilder source conditionFields) edits).conditionTree :=
  ⟨fun source => sent_numberGroup source ⟨1, 1⟩, fun source =>
    ⟨initialize_unique source includeDefaultCondition, fun conditionFields edits kind =>
      (runEdits_inUse edits (open_inUse source conditionFields) kind).nodup⟩⟩

/-- A policy for California, as it is received. -/
def californiaRule : ConditionGroup := .mk .and [⟨"state", .eq, "CA", some "California"⟩] []

theorem display_value_not_sent : ¬ ∀ source : ConditionGroup,
    ofSent (serializeConditionTree (initializeConditionTree (some source) true)) = source := by
  intro h
  have hrule := h californiaRule
  injection hrule with _ hconditions
  exact absurd hconditions (by decide)

end Warp.PolicyBuilder
