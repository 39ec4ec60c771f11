import Mathlib.Data.List.Basic
import Mathlib.Logic.Relation

/-!
# Provenance

A log of events, the latest first. An event can issue an item to an owner, derived from an older
item or from nothing, and it can end what its owner holds. What is issued before such an end, or
derived from it later, is stale.
-/

namespace Infra

structure Issue (κ υ : Type*) where
  item : κ
  owner : υ
  source : Option κ
deriving DecidableEq

class Ledger (ε : Type*) (κ υ : outParam Type*) where
  issue : ε → Option (Issue κ υ)
  ends : ε → Option υ

variable {ε κ υ : Type*} [Ledger ε κ υ]

/-! ## Issued items -/

def Issued (log : List ε) (k : κ) (u : υ) : Prop :=
  ∃ e ∈ log, ∃ i : Issue κ υ, Ledger.issue e = some i ∧ i.item = k ∧ i.owner = u

theorem not_issued_nil {k : κ} {u : υ} : ¬ Issued ([] : List ε) k u := by
  rintro ⟨e, he, _⟩
  exact absurd he List.not_mem_nil

theorem issued_cons {e : ε} {log : List ε} {k : κ} {u : υ} :
    Issued (e :: log) k u ↔
      (∃ i : Issue κ υ, Ledger.issue e = some i ∧ i.item = k ∧ i.owner = u) ∨ Issued log k u := by
  unfold Issued
  rw [List.exists_mem_cons_iff]

/-! ## Descent -/

/-- An event derives `b` from `a`. -/
def Derives (log : List ε) (a b : κ) : Prop :=
  ∃ e ∈ log, ∃ i : Issue κ υ, Ledger.issue e = some i ∧ i.source = some a ∧ i.item = b

/-- `b` is `a`, or comes from it in some derivations. -/
def Descends (log : List ε) : κ → κ → Prop := Relation.ReflTransGen (Derives log)

theorem Descends.refl {log : List ε} (a : κ) : Descends log a a := Relation.ReflTransGen.refl

theorem Descends.mono {log log' : List ε} (h : log ⊆ log') {a b : κ} :
    Descends log a b → Descends log' a b := by
  intro hab
  induction hab with
  | refl => exact Descends.refl a
  | tail _ hstep ih =>
    obtain ⟨e, he, hi⟩ := hstep
    exact Relation.ReflTransGen.tail ih ⟨e, h he, hi⟩

theorem Descends.tail {log : List ε} {a b c : κ} (hab : Descends log a b) (hbc : Derives log b c) :
    Descends log a c := Relation.ReflTransGen.tail hab hbc

/-! ## Logs in which every item is new -/

/-- Every event issues a new item, from one that its owner holds. -/
def WellIssued : List ε → Prop
  | [] => True
  | e :: log =>
    (∀ i : Issue κ υ, Ledger.issue e = some i →
      (∀ u, ¬ Issued log i.item u) ∧ ∀ a, i.source = some a → Issued log a i.owner) ∧
    WellIssued log

theorem WellIssued.source_issued {log : List ε} (h : WellIssued log) {e : ε} (he : e ∈ log)
    {i : Issue κ υ} {a : κ} (hi : Ledger.issue e = some i) (ha : i.source = some a) :
    ∃ u, Issued log a u := by
  induction log with
  | nil => exact absurd he List.not_mem_nil
  | cons d log ih =>
    rcases List.mem_cons.mp he with rfl | he
    · exact ⟨i.owner, issued_cons.mpr (Or.inr ((h.1 i hi).2 a ha))⟩
    · obtain ⟨u, hu⟩ := ih h.2 he
      exact ⟨u, issued_cons.mpr (Or.inr hu)⟩

/-- An item has one owner. -/
theorem WellIssued.owner_unique {log : List ε} (h : WellIssued log) {k : κ} {u v : υ}
    (hu : Issued log k u) (hv : Issued log k v) : u = v := by
  induction log with
  | nil => exact absurd hu not_issued_nil
  | cons e log ih =>
    rcases issued_cons.mp hu with ⟨i, hi, rfl, rfl⟩ | hu
    · rcases issued_cons.mp hv with ⟨j, hj, _, rfl⟩ | hv
      · rw [Option.some.inj (hi.symm.trans hj)]
      · exact absurd hv ((h.1 i hi).1 v)
    · rcases issued_cons.mp hv with ⟨j, hj, rfl, _⟩ | hv
      · exact absurd hu ((h.1 j hj).1 u)
      · exact ih h.2 hu hv

/-- In a longer log only the latest item has a new ancestry. -/
theorem descends_cons {e : ε} {log newer : List ε} (h : WellIssued (e :: log)) (hsub : newer ⊆ log)
    {a b : κ} (hab : Descends (e :: newer) a b) :
    Descends newer a b ∨
      ∃ i : Issue κ υ, ∃ c, Ledger.issue e = some i ∧ i.item = b ∧ i.source = some c ∧
        Descends newer a c := by
  induction hab with
  | refl => exact Or.inl (Descends.refl a)
  | tail _ hstep ih =>
    obtain ⟨d, hd, j, hj, hsource, rfl⟩ := hstep
    rcases ih with hdesc | ⟨i, c, hi, hitem, _, _⟩
    · rcases List.mem_cons.mp hd with rfl | hd
      · exact Or.inr ⟨j, _, hj, rfl, hsource, hdesc⟩
      · exact Or.inl (hdesc.tail ⟨d, hd, j, hj, hsource, rfl⟩)
    · -- nothing is derived from the latest item yet
      obtain ⟨u, hu⟩ : ∃ u, Issued log i.item u := by
        rcases List.mem_cons.mp hd with rfl | hd
        · exact ⟨j.owner, (h.1 j hj).2 _ (hitem ▸ hsource)⟩
        · exact h.2.source_issued (hsub hd) hj (hitem ▸ hsource)
      exact absurd hu ((h.1 i hi).1 u)

/-! ## Stale items -/

/-- The item descends from one that its owner held before an event that ended it. -/
def Stale (log : List ε) (k : κ) : Prop :=
  ∃ newer e older u a, log = newer ++ e :: older ∧ Ledger.ends e = some u ∧ Issued older a u ∧
    Descends newer a k

theorem not_stale_nil {k : κ} : ¬ Stale ([] : List ε) k := by
  rintro ⟨newer, e, older, _, _, h, _⟩
  exact absurd h.symm (by simp)

theorem not_stale_of_no_ends {log : List ε} (h : ∀ e ∈ log, Ledger.ends e = none) {k : κ} :
    ¬ Stale log k := by
  rintro ⟨newer, e, older, u, _, rfl, he, _⟩
  rw [h e (by simp)] at he
  cases he

/-- What an event makes stale: all that its owner holds when it ends that, and what it derives from
a stale item. -/
theorem stale_cons {e : ε} {log : List ε} (h : WellIssued (e :: log)) {k : κ} :
    Stale (e :: log) k ↔
      Stale log k ∨ (∃ u, Ledger.ends e = some u ∧ Issued log k u) ∨
        ∃ i : Issue κ υ, ∃ a, Ledger.issue e = some i ∧ i.item = k ∧ i.source = some a ∧
          Stale log a := by
  constructor
  · rintro ⟨newer, d, older, u, a, hlog, hd, ha, hdesc⟩
    cases newer with
    | nil =>
      obtain ⟨rfl, rfl⟩ := List.cons.inj hlog
      refine Or.inr (Or.inl ⟨u, hd, ?_⟩)
      rcases hdesc.cases_tail with rfl | ⟨_, _, e', he', _⟩
      · exact ha
      · exact absurd he' List.not_mem_nil
    | cons e' newer =>
      obtain ⟨rfl, rfl⟩ := List.cons.inj hlog
      rcases descends_cons h (List.subset_append_left _ _) hdesc with hk | ⟨i, c, hi, hik, hic, hc⟩
      · exact Or.inl ⟨newer, d, older, u, a, rfl, hd, ha, hk⟩
      · exact Or.inr (Or.inr ⟨i, c, hi, hik, hic, newer, d, older, u, a, rfl, hd, ha, hc⟩)
  · rintro (⟨newer, d, older, u, a, rfl, hd, ha, hk⟩ | ⟨u, he, hk⟩ |
      ⟨i, c, hi, hik, hic, newer, d, older, u, a, rfl, hd, ha, hc⟩)
    · exact ⟨e :: newer, d, older, u, a, rfl, hd, ha, hk.mono (List.subset_cons_self _ _)⟩
    · exact ⟨[], e, log, u, k, rfl, he, hk, Descends.refl k⟩
    · refine ⟨e :: newer, d, older, u, a, rfl, hd, ha, ?_⟩
      exact (hc.mono (List.subset_cons_self _ _)).tail ⟨e, List.mem_cons_self, i, hi, hic, hik⟩

theorem Stale.issued {log : List ε} (h : WellIssued log) : ∀ {k : κ}, Stale log k →
    ∃ u, Issued log k u := by
  induction log with
  | nil => exact fun hk => absurd hk not_stale_nil
  | cons e log ih =>
    intro k hk
    rcases (stale_cons h).mp hk with hk | ⟨u, _, hk⟩ | ⟨i, a, hi, rfl, _, _⟩
    · obtain ⟨u, hu⟩ := ih h.2 hk
      exact ⟨u, issued_cons.mpr (Or.inr hu)⟩
    · exact ⟨u, issued_cons.mpr (Or.inr hk)⟩
    · exact ⟨i.owner, issued_cons.mpr (Or.inl ⟨i, hi, rfl, rfl⟩)⟩

/-- Of the older items an event makes stale those that it ends. -/
theorem stale_cons_of_issued {e : ε} {log : List ε} (h : WellIssued (e :: log)) {k : κ} {u : υ}
    (hk : Issued log k u) : Stale (e :: log) k ↔ Stale log k ∨ Ledger.ends e = some u := by
  rw [stale_cons h]
  refine or_congr_right ⟨?_, ?_⟩
  · rintro (⟨v, hv, hkv⟩ | ⟨i, _, hi, rfl, _, _⟩)
    · rw [hv, h.2.owner_unique hkv hk]
    · exact absurd hk ((h.1 i hi).1 u)
  · exact fun he => Or.inl ⟨u, he, hk⟩

/-- A new item is stale when the item it comes from is. -/
theorem stale_cons_of_new {e : ε} {log : List ε} (h : WellIssued (e :: log)) {i : Issue κ υ}
    (hi : Ledger.issue e = some i) :
    Stale (e :: log) i.item ↔ ∃ a, i.source = some a ∧ Stale log a := by
  have hnew := (h.1 i hi).1
  rw [stale_cons h]
  constructor
  · rintro (hk | ⟨u, _, hk⟩ | ⟨j, a, hj, _, ha, hstale⟩)
    · obtain ⟨u, hu⟩ := hk.issued h.2
      exact absurd hu (hnew u)
    · exact absurd hk (hnew u)
    · rw [Option.some.inj (hi.symm.trans hj)]
      exact ⟨a, ha, hstale⟩
  · rintro ⟨a, ha, hstale⟩
    exact Or.inr (Or.inr ⟨i, a, hi, rfl, ha, hstale⟩)

end Infra
