import Warp.Directories
import Warp.GroupTransactions
import Warp.Infra.Undisturbed

/-!
# The directory of the groups

The frontend reads the groups page by page while others create and rename groups. If the groups commit in
the order of their ids, it gets every group that its last request counted, none twice.
-/

namespace Warp

open Infra Auth

def groupIds (groups : Table Group) : List ℕ := groups.rows.map Group.id

/-! ## Groups stay -/

/-- Every transaction has at most one group to write. -/
def WriteOneGroup (w : GroupWorld) : Prop :=
  ∀ (t : ℕ) l, w.fates[t]? = some (.live l) → l.todo.length + l.writes.length ≤ 1

section

variable {w : GroupWorld} {groups : Table Group}

theorem runGroupOp_one {n : ℕ} {op : GroupOp} {more : List GroupOp} {new : List GroupWrite}
    (ok : runGroupOp n groups op = .ok (more, new)) : more.length + new.length ≤ 1 := by
  cases op with
  | create name =>
    cases ok
    exact Nat.le_refl 1
  | update id name =>
    obtain ⟨group, _, ok⟩ := bind_eq_ok.mp ok
    cases name with
    | none =>
      cases ok
      exact Nat.zero_le 1
    | some name =>
      cases ok
      split <;> simp
  | updateRow id name =>
    obtain ⟨_, _, ok⟩ := bind_eq_ok.mp ok
    cases ok
    exact Nat.le_refl 1

theorem writeOneGroup_init (transactions : List GroupTransaction) (sequence : ℕ) :
    WriteOneGroup (groupWorld groups transactions sequence) := by
  intro t l hl
  obtain ⟨hwrites, htodo⟩ := World.init_live hl
  obtain ⟨transaction, _, htransaction⟩ := List.mem_map.mp htodo
  rw [hwrites, ← htransaction]
  exact Nat.le_refl 1

theorem WriteOneGroup.next {a : Action} (h : WriteOneGroup w) :
    WriteOneGroup (w.next groupCode a) := by
  refine World.live_next (L := fun l => l.todo.length + l.writes.length ≤ 1)
    (fun t op todo more writes new _ hone ok => ?_) h
  have hnew := runGroupOp_one ok
  simp only [List.length_cons, List.length_append] at hone ⊢
  omega

theorem groupIds_rename (groupId : ℕ) (name : String) :
    groupIds (renameGroup groups groupId name) = groupIds groups := by
  show ((groups.rows.map _).map Group.id) = groups.rows.map Group.id
  rw [List.map_map]
  refine List.map_congr_left fun g _ => ?_
  show (if g.id = groupId then { g with name := name } else g).id = g.id
  split <;> rfl

theorem groupIds_write {x : GroupWrite} (hx : InIdOrder groups [x]) :
    groupIds groups <+: groupIds (applyGroupWrite groups x) := by
  cases x with
  | insert g =>
    have hlast : ∀ r ∈ groups, Row.key r < Row.key g := hx g List.mem_cons_self
    show (groups.rows.map Group.id) <+: ((groups.insert g).rows.map Group.id)
    rw [Table.rows_insert_of_lt hlast, List.map_append]
    exact List.prefix_append _ _
  | rename groupId name =>
    show groupIds groups <+: groupIds (renameGroup groups groupId name)
    rw [groupIds_rename]

/-- Where the groups commit in the order of their ids, they only grow at the end. -/
theorem groupIds_run (hone : WriteOneGroup w) {actions : List Action}
    (horder : Along (World.next groupCode) (CommitsWith InIdOrder) w actions) :
    WriteOneGroup (w.run groupCode actions) ∧
      groupIds w.committed <+: groupIds (w.run groupCode actions).committed := by
  refine World.committed_along (P := fun groups => groupIds w.committed <+: groupIds groups)
    (fun w' a hw' => hw'.next) (fun w' t writes hw' hgrown live hin => ?_) hone List.prefix_rfl horder
  have hlength : 0 + writes.length ≤ 1 := hw' t _ live
  match writes, hlength, hin with
  | [], _, _ => exact hgrown
  | [x], _, hin => exact hgrown.trans (groupIds_write hin)

theorem groupIds_sorted (groups : Table Group) : (groupIds groups).Pairwise (· < ·) := by
  rw [groupIds, List.pairwise_map]
  exact groups.sorted

end

/-! ## Reading while others work -/

/-- The transactions at a time; `actions n` is what they do from the time `n` to the next. -/
def groupWorldAt (w : GroupWorld) (actions : ℕ → List Action) : ℕ → GroupWorld
  | 0 => w
  | n + 1 => (groupWorldAt w actions n).run groupCode (actions n)

/-- No group commits after one with a larger id. -/
def CommitInIdOrder (w : GroupWorld) (actions : ℕ → List Action) : Prop :=
  ∀ n, Along (World.next groupCode) (CommitsWith InIdOrder) (groupWorldAt w actions n) (actions n)

/-- What a statement finds committed. The other tables may hold anything. -/
def factsAt (facts : ℕ → Facts) (w : GroupWorld) (actions : ℕ → List Action) (statement : ℕ) : Facts :=
  { facts statement with groups := (groupWorldAt w actions (statement + 1)).committed }

/-- A request of the list makes four statements. -/
def directoryReads (facts : ℕ → Facts) (w : GroupWorld) (actions : ℕ → List Action) (request : ℕ) :
    DirectoryReads where
  counted := factsAt facts w actions (4 * request)
  found := factsAt facts w actions (4 * request + 1)
  memberships := factsAt facts w actions (4 * request + 2)
  policies := factsAt facts w actions (4 * request + 3)

theorem groupIds_at {w : GroupWorld} {actions : ℕ → List Action} (hone : WriteOneGroup w)
    (horder : CommitInIdOrder w actions) {n m : ℕ} (h : n ≤ m) :
    groupIds (groupWorldAt w actions n).committed <+: groupIds (groupWorldAt w actions m).committed := by
  have hones : ∀ n, WriteOneGroup (groupWorldAt w actions n) := by
    intro n
    induction n with
    | zero => exact hone
    | succ n ih => exact (groupIds_run ih (horder n)).1
  induction h with
  | refl => exact List.prefix_rfl
  | step _ ih => exact ih.trans (groupIds_run (hones _) (horder _)).2

/-! ## Nobody commits in between -/

/-- The group that a live transaction inserts comes behind the committed ones. -/
inductive GroupChecked (n : ℕ) (groups : Table Group) : Live GroupOp GroupWrite → Prop where
  | deciding (op : GroupOp) : GroupChecked n groups ⟨[op], []⟩
  | inserts (g : Group) (last : ∀ r ∈ groups, r.id < g.id) (drawn : g.id < n) :
      GroupChecked n groups ⟨[], [.insert g]⟩
  | renames (groupId : ℕ) (name : String) : GroupChecked n groups ⟨[], [.rename groupId name]⟩
  | nothing : GroupChecked n groups ⟨[], []⟩

theorem GroupChecked.drawn {n : ℕ} {groups : Table Group} {l : Live GroupOp GroupWrite}
    (h : GroupChecked n groups l) : GroupChecked (n + 1) groups l := by
  cases h with
  | deciding op => exact .deciding op
  | inserts g last drawn => exact .inserts g last (Nat.lt_succ_of_lt drawn)
  | renames groupId name => exact .renames groupId name
  | nothing => exact .nothing

theorem GroupChecked.exec {n : ℕ} {rows : List ℕ} {groups : Table Group} {op : GroupOp}
    {todo more : List GroupOp} {writes new : List GroupWrite} (hfresh : ∀ r ∈ groups, r.id < n)
    (h : GroupChecked n groups ⟨op :: todo, writes⟩)
    (ok : groupCode.exec n rows (writes.foldl groupCode.apply groups) op = .ok (more, new)) :
    GroupChecked (n + 1) groups ⟨more ++ todo, writes ++ new⟩ := by
  cases h with
  | deciding =>
    simp only [groupCode, List.foldl_nil] at ok
    cases op with
    | create name =>
      cases ok
      exact .inserts ⟨n, name⟩ hfresh (Nat.lt_succ_self n)
    | update id name =>
      obtain ⟨group, _, ok⟩ := bind_eq_ok.mp ok
      cases name with
      | none =>
        cases ok
        exact .nothing
      | some name =>
        cases ok
        split
        · exact .nothing
        · exact .deciding _
    | updateRow id name =>
      obtain ⟨_, _, ok⟩ := bind_eq_ok.mp ok
      cases ok
      exact .renames id name

theorem GroupChecked.commit {n : ℕ} {groups : Table Group} {writes : List GroupWrite}
    (hfresh : ∀ r ∈ groups, r.id < n) (h : GroupChecked n groups ⟨[], writes⟩) :
    InIdOrder groups writes ∧ ∀ r ∈ writes.foldl groupCode.apply groups, r.id < n := by
  cases h with
  | inserts g last drawn =>
    refine ⟨fun g' hg' => ?_, fun r hr => ?_⟩
    · cases List.mem_singleton.mp hg'
      exact last
    · rcases Table.mem_insert.mp hr with rfl | ⟨hr, _⟩
      · exact drawn
      · exact hfresh r hr
  | renames groupId name =>
    refine ⟨fun g' hg' => absurd (List.mem_singleton.mp hg') (by simp), fun r hr => ?_⟩
    have hids : r.id ∈ groupIds (renameGroup groups groupId name) := List.mem_map_of_mem hr
    rw [groupIds_rename] at hids
    obtain ⟨r', hr', hid⟩ := List.mem_map.mp hids
    exact hid ▸ hfresh r' hr'
  | nothing => exact ⟨fun g' hg' => absurd hg' List.not_mem_nil, hfresh⟩

/-- Where nobody commits between the flush of a group and its commit, the groups commit in the order of
their ids. -/
theorem groups_undisturbed {groups : Table Group} {sequence : ℕ}
    (hfresh : ∀ r ∈ groups, r.id < sequence) (transactions : List GroupTransaction)
    {actions : List Action} (h : Undisturbed actions) :
    Along (World.next groupCode) (CommitsWith InIdOrder) (groupWorld groups transactions sequence)
      actions := by
  refine Undisturbed.commits (I := fun n groups => ∀ r ∈ groups, r.id < n) (C := GroupChecked)
    ⟨?_, ?_, ?_, ?_⟩ hfresh h
  · intro n s todo _ htodo
    obtain ⟨transaction, _, rfl⟩ := List.mem_map.mp htodo
    exact .deciding _
  · exact fun n s hs => ⟨fun r hr => Nat.lt_succ_of_lt (hs r hr), fun l hl => hl.drawn⟩
  · exact fun _ _ _ _ _ _ _ _ hs hchecked ok => hchecked.exec hs ok
  · exact fun _ _ _ hs hchecked => hchecked.commit hs

theorem groupWorldAt_eq (w : GroupWorld) (actions : ℕ → List Action) (n : ℕ) :
    groupWorldAt w actions n = w.run groupCode ((List.range n).flatMap actions) := by
  induction n with
  | zero => rfl
  | succ n ih =>
    rw [groupWorldAt, ih, List.range_succ, List.flatMap_append, List.flatMap_singleton]
    exact List.foldl_append.symm

theorem commitInIdOrder_undisturbed {groups : Table Group} {sequence : ℕ}
    (hfresh : ∀ r ∈ groups, r.id < sequence) (transactions : List GroupTransaction)
    {actions : ℕ → List Action} (h : ∀ n, Undisturbed ((List.range n).flatMap actions)) :
    CommitInIdOrder (groupWorld groups transactions sequence) actions := by
  intro n
  have halong := groups_undisturbed hfresh transactions (h (n + 1))
  rw [List.range_succ, List.flatMap_append, List.flatMap_singleton] at halong
  rw [groupWorldAt_eq]
  exact halong.append_right

/-! ## What the reader gets -/

/-- The answers for all groups of a table. -/
def DirectoryReads.allGroups (reads : DirectoryReads) (visibility : EmployeeVisibility)
    (fieldVisibility : AssignmentFieldVisibility) (groups : Table Group) : List GroupDirectoryRead :=
  groups.rows.map (reads.groupRead visibility fieldVisibility)

theorem DirectoryReads.allGroups_ids (reads : DirectoryReads) (visibility : EmployeeVisibility)
    (fieldVisibility : AssignmentFieldVisibility) (facts : Facts) :
    (reads.allGroups visibility fieldVisibility facts.groups).map GroupDirectoryRead.id =
      groupIds facts.groups := by
  rw [DirectoryReads.allGroups, List.map_map]
  rfl

theorem DirectoryReads.allGroups_prefix {reads reads' : DirectoryReads}
    {visibility visibility' : EmployeeVisibility}
    {fieldVisibility fieldVisibility' : AssignmentFieldVisibility} {facts facts' : Facts}
    (h : groupIds facts.groups <+: groupIds facts'.groups) :
    (reads.allGroups visibility fieldVisibility facts.groups).map GroupDirectoryRead.id <+:
      (reads'.allGroups visibility' fieldVisibility' facts'.groups).map GroupDirectoryRead.id := by
  rw [allGroups_ids, allGroups_ids]
  exact h

theorem groupStatement_all (ilike : Ilike) (facts : Facts) :
    groupStatement ilike { bound := by simp } facts = facts.groups.rows := by
  simp [groupStatement, given?, Table.select]

theorem getGroups_eq (reads : ℕ → DirectoryReads) (ilike : Ilike) (visibility : ℕ → EmployeeVisibility)
    (fieldVisibility : ℕ → AssignmentFieldVisibility) (fuel : ℕ) :
    getGroups reads ilike visibility fieldVisibility fuel =
      readPages 500
        (fun n => (reads n).allGroups (visibility n) (fieldVisibility n) (reads n).counted.groups)
        (fun n => (reads n).allGroups (visibility n) (fieldVisibility n) (reads n).found.groups)
        fuel := by
  refine readAll_paginate (fun n pagination => ?_) fuel
  rw [listAllGroups, groupStatement_all, groupStatement_all]

/-- Whatever the others do between the statements, if no group commits after one with a larger id, a
reader of the groups that ends has every group that its last request has counted, in the order of the ids
and each one once, as one of its requests has read it. It ends if the number of groups stays within a
bound. -/
theorem group_directory_complete (groups : Table Group) (transactions : List GroupTransaction)
    (sequence : ℕ) (actions : ℕ → List Action) (facts : ℕ → Facts) (ilike : Ilike)
    (visibility : ℕ → EmployeeVisibility) (fieldVisibility : ℕ → AssignmentFieldVisibility)
    (horder : CommitInIdOrder (groupWorld groups transactions sequence) actions) :
    let reads := directoryReads facts (groupWorld groups transactions sequence) actions
    let got := getGroups reads ilike visibility fieldVisibility
    (∀ fuel result, got fuel = some result → ∃ last, result.requests = last + 1 ∧
      groupIds (reads last).counted.groups <+: result.items.map GroupDirectoryRead.id ∧
      result.items.map GroupDirectoryRead.id <+: groupIds (reads last).found.groups ∧
      (result.items.map GroupDirectoryRead.id).Pairwise (· < ·) ∧
      ∀ item ∈ result.items, ∃ n ≤ last, ∃ g ∈ (reads n).found.groups,
        item = (reads n).groupRead (visibility n) (fieldVisibility n) g) ∧
    ∀ bound, (∀ n, (groupIds (reads n).counted.groups).length ≤ bound) →
      ∃ fuel ≤ bound + 1, (got fuel).isSome := by
  intro reads got
  have hids := fun n => (reads n).allGroups_ids (visibility n) (fieldVisibility n)
  have hgrows {n m : ℕ} (h : n ≤ m) :=
    groupIds_at (writeOneGroup_init transactions sequence) horder h
  constructor
  · intro fuel result hresult
    rw [show got fuel = _ from getGroups_eq ..] at hresult
    -- within a request and from one to the next, the groups only grow at the end
    obtain ⟨last, hlast, hcomplete, hwithin⟩ := readPages_complete (by decide)
      (fun n => DirectoryReads.allGroups_prefix (hgrows (by omega)))
      (fun n => DirectoryReads.allGroups_prefix (hgrows (by omega))) hresult
    rw [hids] at hcomplete hwithin
    refine ⟨last, hlast, hcomplete, hwithin, ?_, fun item hitem => ?_⟩
    · exact (groupIds_sorted _).sublist hwithin.sublist
    · obtain ⟨n, hn, hfound⟩ := readPages_found hresult item hitem
      obtain ⟨g, hg, rfl⟩ := List.mem_map.mp hfound
      exact ⟨n, by omega, g, hg, rfl⟩
  · intro bound hbound
    have hcount : ∀ n, ((reads n).allGroups (visibility n) (fieldVisibility n)
        (reads n).counted.groups).length ≤ bound := by
      intro n
      have hn := hbound n
      rwa [← hids, List.length_map] at hn
    have hrun : ∃ fuel ≤ bound + 1, ∃ result, got fuel = some result := by
      simp only [got, getGroups_eq]
      exact readPages_ends hcount
    obtain ⟨fuel, hfuel, result, hresult⟩ := hrun
    exact ⟨fuel, hfuel, Option.isSome_iff_exists.mpr ⟨result, hresult⟩⟩

/-! ## Groups that are created together -/

theorem commitsWith_insert {w : GroupWorld} {t : ℕ} {g : Group}
    (hlive : w.fates[t]? = some (.live ⟨[], [.insert g]⟩)) (hlast : ∀ r ∈ w.committed, r.id < g.id) :
    CommitsWith InIdOrder w (.commit t) := by
  intro writes live
  rw [hlive] at live
  cases live
  intro g' hg'
  cases List.mem_singleton.mp hg'
  exact hlast

def twoGroups : Table Group := .ofRows [⟨1, "Pilots"⟩, ⟨2, "Remote"⟩]

def newGroups : List GroupTransaction := [.createGroup "Night shift", .createGroup "Day shift"]

/-- Both groups have their ids before the first request counts. One commits before it reads its page, the
other afterwards. -/
def committedInOrder : ℕ → List Action
  | 0 => [.exec 0, .exec 1]
  | 1 => [.commit 0]
  | 2 => [.commit 1]
  | _ => []

theorem group_directory_complete_shifts :
    let reads := directoryReads (fun _ => .empty) (groupWorld twoGroups newGroups 3) committedInOrder
    let got := getGroups reads (fun _ _ => true) (fun _ => ⟨true, ∅, false⟩) (fun _ => ⟨true, ∅⟩)
    (got 1).map (fun result => result.items.map GroupDirectoryRead.id) = some [1, 2, 3] ∧
      ∀ result, got 1 = some result → ∃ last, result.requests = last + 1 ∧
        groupIds (reads last).counted.groups <+: result.items.map GroupDirectoryRead.id := by
  refine ⟨by decide +kernel, fun result hresult => ?_⟩
  have horder : CommitInIdOrder (groupWorld twoGroups newGroups 3) committedInOrder := by
    intro n
    match n with
    | 0 => exact ⟨trivial, trivial, trivial⟩
    | 1 => exact ⟨commitsWith_insert (g := ⟨3, "Night shift"⟩) rfl (by decide +kernel), trivial⟩
    | 2 => exact ⟨commitsWith_insert (g := ⟨4, "Day shift"⟩) rfl (by decide +kernel), trivial⟩
    | _ + 3 => exact trivial
  obtain ⟨last, hlast, hcomplete, _⟩ := (group_directory_complete twoGroups newGroups 3 committedInOrder
    (fun _ => .empty) (fun _ _ => true) (fun _ => ⟨true, ∅, false⟩) (fun _ => ⟨true, ∅⟩) horder).1 1 result
      hresult
  exact ⟨last, hlast, hcomplete⟩

/-- In the other order the group 3 comes before the group 4, which a page may have ended with. -/
example :
    let w := groupWorld twoGroups newGroups 3
    let later := w.run groupCode [.exec 0, .exec 1, .commit 1]
    groupIds later.committed = [1, 2, 4] ∧
      groupIds (later.run groupCode [.commit 0]).committed = [1, 2, 3, 4] := by
  decide +kernel

end Warp
