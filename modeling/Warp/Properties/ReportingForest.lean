import Warp.EmployeeTransactions
import Warp.Infra.Acyclic
import Warp.Infra.Undisturbed
import Warp.Properties.EmployeeRows

/-!
# The reporting forest under concurrency

Each transaction checks a new manager against the rows that are committed at the check, and commits
later. What a run of transactions may commit so that nobody ever reports to themselves.
-/

namespace Warp

open Infra

/-- Nobody manages themselves, directly or indirectly. -/
def ManagerForest (employees : Table Employee) : Prop := ∀ id, id ∉ getAncestorIds employees id

/-- A changed manager is neither the employee nor somebody below on these rows. -/
def ManagerStillFits (employees : Table Employee) : EmployeeWrite → Prop
  | .update loaded updated => ∀ m, updated.managerId = some m →
      updated.managerId ≠ loaded.managerId → (employees.find? loaded.id).isSome →
        m ≠ loaded.id ∧ loaded.id ∉ getAncestorIds employees m
  | _ => True

def ManagersStillFit (employees : Table Employee) (writes : List EmployeeWrite) : Prop :=
  ∀ x ∈ writes, ManagerStillFits employees x

section

variable {employees : Table Employee} {a b id n : ℕ}

/-! ## The graph after a write -/

theorem managerForest_iff : ManagerForest employees ↔ Acyclic (Succ (managerIds employees)) :=
  forall_congr' fun _ => not_congr mem_getAncestorIds

theorem managerForest_of_roots (h : ∀ e ∈ employees, e.managerId = none) :
    ManagerForest employees := by
  intro id hid
  obtain ⟨b, hb, _⟩ := Relation.TransGen.head'_iff.mp (mem_getAncestorIds.mp hid)
  obtain ⟨e, he, _, hm⟩ := mem_managerIds.mp hb
  rw [h e he] at hm
  exact absurd hm (by simp)

theorem mem_modifyEmployee {f : Employee → Employee} (h : ∀ e, (f e).id = e.id) {e : Employee} :
    e ∈ modifyEmployee employees id f h ↔
      (e ∈ employees ∧ e.id ≠ id) ∨ ∃ r ∈ employees, r.id = id ∧ f r = e :=
  Table.mem_modify_if

theorem succ_modifyEmployee_ne {f : Employee → Employee} (h : ∀ e, (f e).id = e.id) (ha : a ≠ id) :
    Succ (managerIds (modifyEmployee employees id f h)) a b ↔ Succ (managerIds employees) a b := by
  show b ∈ managerIds _ a ↔ b ∈ managerIds employees a
  rw [mem_managerIds, mem_managerIds]
  constructor
  · rintro ⟨e, he, rfl, hm⟩
    rcases (mem_modifyEmployee h).mp he with ⟨he, _⟩ | ⟨r, _, hid, hre⟩
    · exact ⟨e, he, rfl, hm⟩
    · rw [← hre, h r] at ha
      exact absurd hid ha
  · rintro ⟨e, he, rfl, hm⟩
    exact ⟨e, (mem_modifyEmployee h).mpr (Or.inl ⟨he, ha⟩), rfl, hm⟩

theorem succ_modifyEmployee_self {f : Employee → Employee} (h : ∀ e, (f e).id = e.id) :
    Succ (managerIds (modifyEmployee employees id f h)) id b ↔
      ∃ r ∈ employees, r.id = id ∧ (f r).managerId = some b := by
  show b ∈ managerIds _ id ↔ _
  rw [mem_managerIds]
  constructor
  · rintro ⟨e, he, hid, hm⟩
    rcases (mem_modifyEmployee h).mp he with ⟨_, hne⟩ | ⟨r, hr, hrid, rfl⟩
    · exact absurd hid hne
    · exact ⟨r, hr, hrid, hm⟩
  · rintro ⟨r, hr, hid, hm⟩
    exact ⟨f r, (mem_modifyEmployee h).mpr (Or.inr ⟨r, hr, hid, rfl⟩), (h r).trans hid, hm⟩

/-- A write that takes managers away and gives none. -/
def EmployeeWrite.Loosens : EmployeeWrite → Prop
  | .clearManager _ => True
  | .delete _ => True
  | _ => False

theorem succ_of_loosens {x : EmployeeWrite} (hx : x.Loosens) (a b : ℕ)
    (h : Succ (managerIds (applyEmployeeWrite employees x)) a b) :
    Succ (managerIds employees) a b := by
  cases x with
  | insert e => exact absurd hx (by simp [EmployeeWrite.Loosens])
  | update loaded updated => exact absurd hx (by simp [EmployeeWrite.Loosens])
  | clearManager id =>
    by_cases ha : a = id
    · rw [ha] at h
      obtain ⟨r, _, _, hm⟩ := (succ_modifyEmployee_self unmanaged_id).mp h
      exact absurd hm (by simp [unmanaged])
    · exact (succ_modifyEmployee_ne unmanaged_id ha).mp h
  | delete id =>
    obtain ⟨e, he, rfl, hm⟩ := mem_managerIds.mp h
    exact mem_managerIds.mpr ⟨e, (withoutEmployee_manager he hm).2, rfl, hm⟩

theorem ManagerForest.loosen : ∀ (writes : List EmployeeWrite) {employees : Table Employee},
    (∀ x ∈ writes, x.Loosens) → ManagerForest employees →
      ManagerForest (writes.foldl applyEmployeeWrite employees)
  | [], _, _, h => h
  | x :: writes, employees, hx, h => by
    refine loosen writes (fun y hy => hx y (List.mem_cons_of_mem _ hy)) ?_
    rw [managerForest_iff] at h ⊢
    exact h.mono (succ_of_loosens (hx x List.mem_cons_self))

/-- A new employee that nobody names as a manager yet closes no cycle. -/
theorem ManagerForest.insert {e : Employee} (h : ManagerForest employees)
    (hself : e.managerId ≠ some e.id) (hunnamed : ∀ r ∈ employees, r.managerId ≠ some e.id) :
    ManagerForest (employees.insert e) := by
  -- Every edge is an old one or leads from the new employee to its manager.
  have hedge : ∀ a b, Succ (managerIds (employees.insert e)) a b →
      Succ (managerIds employees) a b ∨ (a = e.id ∧ e.managerId = some b) := by
    intro a b hab
    obtain ⟨r, hr, rfl, hm⟩ := mem_managerIds.mp hab
    rcases Table.mem_insert.mp hr with rfl | ⟨hr, _⟩
    · exact Or.inr ⟨rfl, hm⟩
    · exact Or.inl (mem_managerIds.mpr ⟨r, hr, rfl, hm⟩)
  have hacyclic := managerForest_iff.mp h
  rw [managerForest_iff]
  cases hmanager : e.managerId with
  | none =>
    refine hacyclic.mono fun a b hab => ?_
    rcases hedge a b hab with hab | ⟨_, hm⟩
    · exact hab
    · rw [hmanager] at hm
      exact absurd hm (by simp)
  | some m =>
    refine hacyclic.of_edge (x := e.id) (m := m) (fun a b hab => ?_) fun hback => ?_
    · refine (hedge a b hab).imp_right fun ⟨ha, hm⟩ => ⟨ha, ?_⟩
      rw [hmanager] at hm
      exact (Option.some.inj hm).symm
    · rcases Relation.ReflTransGen.cases_tail hback with he | ⟨c, _, hc⟩
      · exact hself (by rw [hmanager, he])
      · obtain ⟨r, hr, _, hm⟩ := mem_managerIds.mp hc
        exact hunnamed r hr hm

/-- The update keeps the forest exactly when its manager still fits. -/
theorem ManagerForest.update_iff {loaded updated : Employee} (h : ManagerForest employees) :
    ManagerForest (applyEmployeeWrite employees (.update loaded updated)) ↔
      ManagerStillFits employees (.update loaded updated) := by
  have hacyclic := managerForest_iff.mp h
  by_cases hsame : updated.managerId = loaded.managerId
  · -- The managers stay as they are.
    refine iff_of_true ?_ fun _ _ hne => absurd hsame hne
    rw [managerForest_iff]
    refine hacyclic.mono fun a b hab => ?_
    by_cases ha : a = loaded.id
    · rw [ha] at hab ⊢
      obtain ⟨r, hr, hid, hm⟩ := (succ_modifyEmployee_self (mergeEmployee_id loaded updated)).mp hab
      rw [mergeEmployee, mergeColumn_of_eq hsame] at hm
      exact mem_managerIds.mpr ⟨r, hr, hid, hm⟩
    · exact (succ_modifyEmployee_ne (mergeEmployee_id loaded updated) ha).mp hab
  · have hself : ∀ b, Succ (managerIds (applyEmployeeWrite employees (.update loaded updated)))
        loaded.id b ↔ (employees.find? loaded.id).isSome ∧ updated.managerId = some b := by
      intro b
      rw [applyEmployeeWrite, succ_modifyEmployee_self (mergeEmployee_id loaded updated), Option.isSome_iff_exists]
      simp only [mergeEmployee, mergeColumn_of_ne hsame, Table.find?_eq_some]
      constructor
      · rintro ⟨r, hr, hid, hm⟩
        exact ⟨⟨r, hr, hid⟩, hm⟩
      · rintro ⟨⟨r, hr, hid⟩, hm⟩
        exact ⟨r, hr, hid, hm⟩
    by_cases hedge : ∃ m, updated.managerId = some m ∧ (employees.find? loaded.id).isSome
    · obtain ⟨m, hm, hrow⟩ := hedge
      have hredirect : Acyclic (Succ (managerIds
          (applyEmployeeWrite employees (.update loaded updated)))) ↔
            m ≠ loaded.id ∧ ¬Relation.TransGen (Succ (managerIds employees)) m loaded.id := by
        refine hacyclic.redirect_iff
          (fun a b ha => succ_modifyEmployee_ne (mergeEmployee_id loaded updated) ha) fun b => ?_
        rw [hself, hm, Option.some.injEq, and_iff_right hrow]
        exact eq_comm
      rw [managerForest_iff, hredirect, ← mem_getAncestorIds]
      constructor
      · intro hfit m' hm' _ _
        rw [hm] at hm'
        rw [← Option.some.inj hm']
        exact hfit
      · exact fun hfit => hfit m hm hsame hrow
    · -- There is no row to update, or it gets no manager.
      refine iff_of_true ?_ fun m hm _ hrow => absurd ⟨m, hm, hrow⟩ hedge
      rw [managerForest_iff]
      refine hacyclic.mono fun a b hab => ?_
      by_cases ha : a = loaded.id
      · rw [ha] at hab
        obtain ⟨hrow, hm⟩ := (hself b).mp hab
        exact absurd ⟨b, hm, hrow⟩ hedge
      · exact (succ_modifyEmployee_ne (mergeEmployee_id loaded updated) ha).mp hab

end

/-! ## Numbers -/

/-- The ids of the rows and of their managers -/
def employeeNumbers : Numbering (Table Employee) EmployeeWrite where
  known employees := {i | ∃ e ∈ employees, e.id = i ∨ e.managerId = some i}
  mentions
    | .insert e => {i | e.id = i ∨ e.managerId = some i}
    | .update loaded updated => {i | updated.managerId = some i ∧ updated.managerId ≠ loaded.managerId}
    | _ => ∅
  inserts
    | .insert e => {e.id}
    | _ => ∅

theorem known_modify {employees : Table Employee} {id i : ℕ} {f : Employee → Employee}
    (h : ∀ e, (f e).id = e.id) (hi : i ∈ employeeNumbers.known (modifyEmployee employees id f h)) :
    i ∈ employeeNumbers.known employees ∨ ∃ e ∈ employees, (f e).managerId = some i := by
  obtain ⟨e, he, hi⟩ := hi
  rcases (mem_modifyEmployee h).mp he with ⟨he, _⟩ | ⟨r, hr, _, rfl⟩
  · exact Or.inl ⟨e, he, hi⟩
  · rcases hi with hi | hi
    · exact Or.inl ⟨r, hr, Or.inl ((h r).symm.trans hi)⟩
    · exact Or.inr ⟨r, hr, hi⟩

theorem applyEmployeeWrite_known (employees : Table Employee) (x : EmployeeWrite) :
    employeeNumbers.known (applyEmployeeWrite employees x) ⊆
      employeeNumbers.known employees ∪ employeeNumbers.mentions x := by
  intro i hi
  cases x with
  | insert e =>
    obtain ⟨r, hr, hi⟩ := hi
    rcases Table.mem_insert.mp hr with rfl | ⟨hr, _⟩
    · exact Or.inr hi
    · exact Or.inl ⟨r, hr, hi⟩
  | update loaded updated =>
    rcases known_modify (mergeEmployee_id loaded updated) hi with hi | ⟨e, he, hm⟩
    · exact Or.inl hi
    · by_cases hsame : updated.managerId = loaded.managerId
      · rw [mergeEmployee, mergeColumn_of_eq hsame] at hm
        exact Or.inl ⟨e, he, Or.inr hm⟩
      · rw [mergeEmployee, mergeColumn_of_ne hsame] at hm
        exact Or.inr ⟨hm, hsame⟩
  | clearManager id =>
    rcases known_modify unmanaged_id hi with hi | ⟨e, he, hm⟩
    · exact Or.inl hi
    · exact absurd hm (by simp [unmanaged])
  | delete id =>
    obtain ⟨r, hr, hi⟩ := hi
    rcases hi with hi | hi
    · obtain ⟨_, e, he, hid⟩ := withoutEmployee_id hr
      exact Or.inl ⟨e, he, Or.inl (hid.trans hi)⟩
    · exact Or.inl ⟨r, (withoutEmployee_manager hr hi).2, Or.inr hi⟩

theorem checkManagerRow_known {employees : Table Employee} {managerId : Option ℕ} {u : Unit}
    (h : checkManagerRow employees managerId = .ok u) {m : ℕ} (hm : managerId = some m) :
    m ∈ employeeNumbers.known employees := by
  have hall := ensure_eq_ok.mp h
  rw [hm, Option.all_some, Option.isSome_iff_exists] at hall
  obtain ⟨e, he⟩ := hall
  obtain ⟨hmem, hid⟩ := Table.find?_eq_some.mp he
  exact ⟨e, hmem, Or.inl hid⟩

/-! ## Statements -/

def EmployeeOp.Loosens : EmployeeOp → Prop
  | .clearManager _ => True
  | .deleteRow _ => True
  | _ => False

/-- The check passes on these rows, so the update fits them. -/
theorem checkedManager_fits {employees : Table Employee} {loaded updated : Employee}
    {data : EmployeeUpdate} (hchecked : checkedManager employees loaded.id data.managerId = .ok ())
    (hupdated : updatedEmployee loaded data = .ok updated) :
    ManagerStillFits employees (.update loaded updated) := by
  intro m hm hne _
  have hmanager := (updatedEmployee_eq_ok hupdated).2
  cases hdata : data.managerId with
  | none =>
    rw [hdata] at hmanager
    exact absurd hmanager hne
  | some managerId =>
    rw [hdata] at hmanager hchecked
    obtain rfl : managerId = some m := hmanager.symm.trans hm
    exact validateManagerAssignment_apart hchecked

/-- What a statement leaves to do and what it writes. -/
inductive EmployeeStep (n : ℕ) (employees : Table Employee) (op : EmployeeOp) :
    List EmployeeOp → List EmployeeWrite → Prop where
  | decided (next : EmployeeOp) (deciding : ¬op.Loosens) (undecided : ¬next.Loosens)
      (checked : ∀ loaded updated, next = .updateRow loaded updated →
        ManagerStillFits employees (.update loaded updated)) : EmployeeStep n employees op [next] []
  | inserted (data : EmployeeCreate) (deciding : ¬op.Loosens)
      (manager : ∀ m, data.managerId = some m → m ∈ employeeNumbers.known employees) :
      EmployeeStep n employees op [] [.insert (data.row n)]
  | updated (loaded updated : Employee) (ran : op = .updateRow loaded updated)
      (manager : ∀ m, updated.managerId = some m → updated.managerId ≠ loaded.managerId →
        m ∈ employeeNumbers.known employees) :
      EmployeeStep n employees op [] [.update loaded updated]
  | loosened (more : List EmployeeOp) (new : List EmployeeWrite)
      (ops : ∀ o ∈ more, o.Loosens) (writes : ∀ x ∈ new, x.Loosens) :
      EmployeeStep n employees op more new

theorem runEmployeeOp_cases {n : ℕ} {employees : Table Employee} {op : EmployeeOp}
    {more : List EmployeeOp} {new : List EmployeeWrite}
    (h : runEmployeeOp n employees op = .ok (more, new)) : EmployeeStep n employees op more new := by
  cases op with
  | create data =>
    simp only [runEmployeeOp, bind_eq_ok, pure_eq_ok] at h
    obtain ⟨_, _, hout⟩ := h
    cases hout
    exact .decided _ id id (by simp)
  | insertRow data =>
    simp only [runEmployeeOp, bind_eq_ok, pure_eq_ok] at h
    obtain ⟨_, hmanager, hout⟩ := h
    cases hout
    exact .inserted data id fun m hm => checkManagerRow_known hmanager hm
  | update id' data =>
    simp only [runEmployeeOp, bind_eq_ok, pure_eq_ok] at h
    obtain ⟨_, _, hout⟩ := h
    cases hout
    exact .decided _ id id (by simp)
  | validate loaded data =>
    simp only [runEmployeeOp, bind_eq_ok, pure_eq_ok] at h
    obtain ⟨_, hchecked, updated, hupdated, hout⟩ := h
    cases hout
    by_cases hnil : changedColumns loaded updated = []
    · rw [if_pos hnil]
      exact .loosened _ _ (by simp) (by simp)
    · rw [if_neg hnil]
      refine .decided _ id id fun _ _ hop => ?_
      cases hop
      exact checkedManager_fits hchecked hupdated
  | updateRow loaded updated =>
    by_cases hne : updated.managerId ≠ loaded.managerId
    · simp only [runEmployeeOp, if_pos hne, bind_eq_ok, pure_eq_ok] at h
      obtain ⟨_, _, _, hmanager, hout⟩ := h
      cases hout
      exact .updated loaded updated rfl fun m hm _ => checkManagerRow_known hmanager hm
    · simp only [runEmployeeOp, if_neg hne, bind_eq_ok, pure_eq_ok] at h
      obtain ⟨_, _, hout⟩ := h
      cases hout
      exact .updated loaded updated rfl fun m _ hne' => absurd hne' hne
  | delete id' =>
    simp only [runEmployeeOp, bind_eq_ok, pure_eq_ok] at h
    obtain ⟨_, _, hout⟩ := h
    cases hout
    refine .loosened _ _ (fun o ho => ?_) (by simp)
    rcases List.mem_append.mp ho with ho | ho
    · obtain ⟨e, _, rfl⟩ := List.mem_map.mp ho
      trivial
    · rw [List.mem_singleton.mp ho]
      trivial
  | clearManager id' =>
    simp only [runEmployeeOp, bind_eq_ok, pure_eq_ok] at h
    obtain ⟨_, _, hout⟩ := h
    cases hout
    exact .loosened _ _ (by simp) (by simp [EmployeeWrite.Loosens])
  | deleteRow id' =>
    cases h
    exact .loosened _ _ (by simp) (by simp [EmployeeWrite.Loosens])

theorem EmployeeWrite.Loosens.mentions {x : EmployeeWrite} (hx : x.Loosens) :
    employeeNumbers.mentions x = ∅ ∧ employeeNumbers.inserts x = ∅ := by
  cases x with
  | insert e => exact absurd hx id
  | update loaded updated => exact absurd hx id
  | clearManager id => exact ⟨rfl, rfl⟩
  | delete id => exact ⟨rfl, rfl⟩

theorem employeeNumbers_respects : employeeNumbers.Respects employeeCode where
  apply := applyEmployeeWrite_known
  mentions := by
    intro n rows employees op more new h x hx i hi
    cases runEmployeeOp_cases h with
    | decided next _ _ _ => exact absurd hx List.not_mem_nil
    | inserted data _ manager =>
      rw [List.mem_singleton.mp hx] at hi
      rcases hi with hi | hi
      · exact Or.inr hi.symm
      · exact Or.inl (manager i hi)
    | updated loaded updated _ manager =>
      rw [List.mem_singleton.mp hx] at hi
      exact Or.inl (manager i hi.1 hi.2)
    | loosened _ _ _ writes =>
      rw [(writes x hx).mentions.1] at hi
      exact absurd hi (Set.notMem_empty i)
  inserts := by
    intro n rows employees op more new h x hx i hi
    cases runEmployeeOp_cases h with
    | decided next _ _ _ => exact absurd hx List.not_mem_nil
    | inserted data _ _ =>
      rw [List.mem_singleton.mp hx] at hi
      exact hi
    | updated loaded updated _ _ =>
      rw [List.mem_singleton.mp hx] at hi
      exact absurd hi (Set.notMem_empty i)
    | loosened _ _ _ writes =>
      rw [(writes x hx).mentions.2] at hi
      exact absurd hi (Set.notMem_empty i)

/-! ## Runs -/

/-- A live transaction is about to decide, or has written its one row, or only takes managers away. -/
inductive Tidy : Live EmployeeOp EmployeeWrite → Prop where
  | deciding (op : EmployeeOp) (undecided : ¬op.Loosens) : Tidy ⟨[op], []⟩
  | written (x : EmployeeWrite)
      (self : ∀ e, x = .insert e → e.managerId ≠ some e.id) : Tidy ⟨[], [x]⟩
  | loosening (todo : List EmployeeOp) (writes : List EmployeeWrite)
      (ops : ∀ o ∈ todo, o.Loosens) (loosens : ∀ x ∈ writes, x.Loosens) : Tidy ⟨todo, writes⟩

structure TidyWorld (w : EmployeeWorld) : Prop where
  fresh : employeeNumbers.Fresh w
  live : ∀ (t : ℕ) l, w.fates[t]? = some (.live l) → Tidy l

theorem TidyWorld.next {w : EmployeeWorld} (h : TidyWorld w) (a : Action) :
    TidyWorld (w.next employeeCode a) where
  fresh := h.fresh.next employeeNumbers_respects a
  live := by
    refine World.live_next (fun t op todo more writes new live tidy ok => ?_) h.live
    cases tidy with
    | deciding op undecided =>
      cases runEmployeeOp_cases ok with
      | decided next _ hnext _ => exact .deciding next hnext
      | inserted data _ manager =>
        refine .written _ fun e he hself => ?_
        cases he
        exact lt_irrefl _ (h.fresh.view_lt employeeNumbers_respects live (manager _ hself))
      | updated loaded updated _ _ => exact .written _ fun e he => absurd he (by simp)
      | loosened more new ops loosens =>
        rw [List.append_nil]
        exact .loosening more new ops loosens
    | loosening _ _ ops loosens =>
      have hop := ops op List.mem_cons_self
      cases runEmployeeOp_cases ok with
      | decided _ deciding _ _ => exact absurd hop deciding
      | inserted _ deciding _ => exact absurd hop deciding
      | updated _ _ ran _ =>
        rw [ran] at hop
        exact hop.elim
      | loosened more new ops' loosens' =>
        refine .loosening _ _ (fun o ho => ?_) fun x hx => ?_
        · rcases List.mem_append.mp ho with ho | ho
          · exact ops' o ho
          · exact ops o (List.mem_cons_of_mem _ ho)
        · rcases List.mem_append.mp hx with hx | hx
          · exact loosens x hx
          · exact loosens' x hx

theorem EmployeeTransaction.op_undecided (transaction : EmployeeTransaction) :
    ¬transaction.op.Loosens := by
  cases transaction <;> exact id

theorem TidyWorld.init {db : Db} (h : EmployeesSound db)
    (transactions : List EmployeeTransaction) :
    TidyWorld (employeeWorld db.facts.employees transactions db.sequences.employee) where
  fresh := by
    refine Numbering.Fresh.init ?_
    rintro i ⟨e, he, rfl | hm⟩
    · exact h.fresh e he
    · exact h.manager_lt he hm
  live := by
    rintro t ⟨todo, writes⟩ hl
    obtain ⟨hwrites, htodo⟩ := World.init_live hl
    obtain ⟨transaction, _, hop⟩ := List.mem_map.mp htodo
    cases hwrites
    cases hop
    exact .deciding _ transaction.op_undecided

/-- A commit keeps the forest exactly when its managers still fit. -/
theorem TidyWorld.commit_iff {w : EmployeeWorld} (h : TidyWorld w) (hp : ManagerForest w.committed)
    {t : ℕ} {writes : List EmployeeWrite} (live : w.fates[t]? = some (.live ⟨[], writes⟩)) :
    ManagerForest (writes.foldl applyEmployeeWrite w.committed) ↔
      ManagersStillFit w.committed writes := by
  cases h.live t _ live with
  | written x self =>
    have hsingle : ManagersStillFit w.committed [x] ↔ ManagerStillFits w.committed x :=
      List.forall_mem_singleton
    rw [hsingle]
    cases x with
    | insert e =>
      refine iff_of_true (hp.insert (self e rfl) fun r hr hm => ?_) trivial
      exact h.fresh.unpublished ⟨_, live, List.mem_singleton_self _⟩ e.id rfl ⟨r, hr, Or.inr hm⟩
    | update loaded updated => exact hp.update_iff
    | clearManager id => exact iff_of_true (hp.loosen [_] (by simp [EmployeeWrite.Loosens])) trivial
    | delete id => exact iff_of_true (hp.loosen [_] (by simp [EmployeeWrite.Loosens])) trivial
  | loosening _ _ _ loosens =>
    refine iff_of_true (hp.loosen _ loosens) fun x hx => ?_
    have hx := loosens x hx
    cases x with
    | insert e => exact absurd hx id
    | update loaded updated => exact absurd hx id
    | clearManager id => trivial
    | delete id => trivial

/-- The committed rows are a forest all along exactly when every commit that changes a manager finds
rows on which the check of that manager still passes. -/
theorem reporting_forest_iff (db : Db) (hsound : EmployeesSound db)
    (hforest : ManagerForest db.facts.employees) (transactions : List EmployeeTransaction)
    (actions : List Action) :
    (∀ first rest, actions = first ++ rest →
      ManagerForest ((employeeWorld db.facts.employees transactions db.sequences.employee).run
        employeeCode first).committed) ↔
      Along (World.next employeeCode) (CommitsWith ManagersStillFit)
        (employeeWorld db.facts.employees transactions db.sequences.employee) actions :=
  World.committed_iff (I := TidyWorld) (fun _ a h => h.next a)
    (fun _ _ _ h hp live => h.commit_iff hp live) (TidyWorld.init hsound transactions) hforest actions

/-! ## Nobody commits in between -/

/-- What a live transaction still has to write fits the rows that it has checked. -/
inductive ManagerChecked (employees : Table Employee) : Live EmployeeOp EmployeeWrite → Prop where
  | deciding (op : EmployeeOp) (undecided : ¬op.Loosens)
      (fits : ∀ loaded updated, op = .updateRow loaded updated →
        ManagerStillFits employees (.update loaded updated)) : ManagerChecked employees ⟨[op], []⟩
  | written (x : EmployeeWrite) (fits : ManagerStillFits employees x) :
      ManagerChecked employees ⟨[], [x]⟩
  | loosening (todo : List EmployeeOp) (writes : List EmployeeWrite)
      (ops : ∀ o ∈ todo, o.Loosens) (loosens : ∀ x ∈ writes, x.Loosens) :
      ManagerChecked employees ⟨todo, writes⟩

theorem EmployeeWrite.Loosens.fits {x : EmployeeWrite} (hx : x.Loosens) (employees : Table Employee) :
    ManagerStillFits employees x := by
  cases x with
  | insert e => exact absurd hx id
  | update loaded updated => exact absurd hx id
  | clearManager id => trivial
  | delete id => trivial

theorem ManagerChecked.exec {n : ℕ} {rows : List ℕ} {employees : Table Employee} {op : EmployeeOp}
    {todo more : List EmployeeOp} {writes new : List EmployeeWrite}
    (h : ManagerChecked employees ⟨op :: todo, writes⟩)
    (ok : employeeCode.exec n rows (writes.foldl employeeCode.apply employees) op = .ok (more, new)) :
    ManagerChecked employees ⟨more ++ todo, writes ++ new⟩ := by
  cases h with
  | deciding _ undecided fits =>
    rw [List.append_nil]
    cases (runEmployeeOp_cases ok : EmployeeStep n employees op more new) with
    | decided next _ hnext checked => exact .deciding next hnext checked
    | inserted data _ _ => exact .written _ trivial
    | updated loaded updated ran _ => exact .written _ (fits loaded updated ran)
    | loosened more new ops loosens => exact .loosening more new ops loosens
  | loosening _ _ ops loosens =>
    have hop := ops op List.mem_cons_self
    cases runEmployeeOp_cases ok with
    | decided _ deciding _ _ => exact absurd hop deciding
    | inserted _ deciding _ => exact absurd hop deciding
    | updated _ _ ran _ =>
      rw [ran] at hop
      exact hop.elim
    | loosened more new ops' loosens' =>
      exact .loosening _ _ (List.forall_mem_append.mpr
        ⟨ops', fun o ho => ops o (List.mem_cons_of_mem _ ho)⟩)
        (List.forall_mem_append.mpr ⟨loosens, loosens'⟩)

theorem ManagerChecked.fits {employees : Table Employee} {writes : List EmployeeWrite}
    (h : ManagerChecked employees ⟨[], writes⟩) : ManagersStillFit employees writes := by
  cases h with
  | written x fits => exact List.forall_mem_singleton.mpr fits
  | loosening _ _ _ loosens => exact fun x hx => (loosens x hx).fits employees

/-- Where nobody commits between the check of a transaction and its commit, every commit finds rows on
which the check still passes. -/
theorem managers_undisturbed (employees : Table Employee) (transactions : List EmployeeTransaction)
    (sequence : ℕ) {actions : List Action} (h : Undisturbed actions) :
    Along (World.next employeeCode) (CommitsWith ManagersStillFit)
      (employeeWorld employees transactions sequence) actions := by
  refine Undisturbed.commits (I := fun _ _ => True) (C := fun _ => ManagerChecked) ⟨?_, ?_, ?_, ?_⟩ trivial h
  · intro _ s todo _ htodo
    obtain ⟨transaction, _, rfl⟩ := List.mem_map.mp htodo
    refine .deciding _ transaction.op_undecided fun loaded updated hop => ?_
    cases transaction <;> cases hop
  · exact fun _ _ _ => ⟨trivial, fun _ hchecked => hchecked⟩
  · exact fun _ _ _ _ _ _ _ _ _ hchecked ok => hchecked.exec ok
  · exact fun _ _ _ _ hchecked => ⟨hchecked.fits, trivial⟩

/-! ## Two employees that become each other's managers -/

def peer (id : ℕ) (name : String) : Employee :=
  ⟨id, name, "CA", "Sales", "full_time", none, Date.on 2024 1 1, none⟩

def peers : Db :=
  { Db.empty with
    facts := { Facts.empty with employees := .ofRows [peer 1 "Ada", peer 2 "Ben"] }
    sequences := { employee := 3 } }

theorem peers_rows {e : Employee} (he : e ∈ peers.facts.employees) :
    e = peer 1 "Ada" ∨ e = peer 2 "Ben" := by
  have hrows : peers.facts.employees.rows = [peer 1 "Ada", peer 2 "Ben"] := rfl
  rw [Table.mem_def, hrows] at he
  simpa using he

theorem peers_forest : ManagerForest peers.facts.employees :=
  managerForest_of_roots fun e he => by rcases peers_rows he with rfl | rfl <;> rfl

theorem peers_sound : EmployeesSound peers where
  fresh e he := by rcases peers_rows he with rfl | rfl <;> decide
  managers e he m hm := by rcases peers_rows he with rfl | rfl <;> exact absurd hm (by simp [peer])

def crossedUpdates : List EmployeeTransaction :=
  [.updateEmployee 1 { managerId := some (some 2) }, .updateEmployee 2 { managerId := some (some 1) }]

/-- Load, check and write in both transactions, then commit both. -/
def crossedRun : List Action :=
  [.exec 0, .exec 1, .exec 0, .exec 1, .exec 0, .exec 1, .commit 0, .commit 1]

theorem reporting_forest_crossed : ManagerForest peers.facts.employees ∧
    ¬ManagerForest ((employeeWorld peers.facts.employees crossedUpdates
      peers.sequences.employee).run employeeCode crossedRun).committed :=
  ⟨peers_forest, fun h => h 1 (by decide +kernel)⟩

/-- One after the other: the second update is refused. -/
def serialUpdates : List Action :=
  [.exec 0, .exec 0, .exec 0, .commit 0, .exec 1, .exec 1, .exec 1, .commit 1]

theorem reporting_forest_iff_peers :
    (∀ first rest, serialUpdates = first ++ rest →
      ManagerForest ((employeeWorld peers.facts.employees crossedUpdates
        peers.sequences.employee).run employeeCode first).committed) ∧
    ((employeeWorld peers.facts.employees crossedUpdates peers.sequences.employee).run employeeCode
      serialUpdates).committed.rows.map Employee.managerId = [some 2, none] :=
  ⟨(reporting_forest_iff peers peers_sound peers_forest crossedUpdates serialUpdates).mpr
    (managers_undisturbed _ _ _ (by decide)), by decide +kernel⟩

end Warp
