import Mathlib.Data.List.Sort
import Mathlib.Data.Prod.Lex

/-!
# Tables

A table is the list of its rows in the order of their primary key. The key order makes the list
canonical: two tables with the same rows are equal, and inserts of different keys commute.
-/

namespace Infra

/-- A row type with its primary key. -/
class Row (α : Type*) (κ : outParam Type*) where
  key : α → κ

structure Table (α : Type*) {κ : Type*} [Row α κ] [LinearOrder κ] where
  rows : List α
  sorted : rows.Pairwise (fun a b => Row.key a < Row.key b)

namespace Table

variable {α κ : Type*} [Row α κ] [LinearOrder κ]

def empty : Table α where
  rows := []
  sorted := List.Pairwise.nil

instance : Membership α (Table α) where
  mem t a := a ∈ t.rows

theorem mem_def {t : Table α} {a : α} : a ∈ t ↔ a ∈ t.rows := Iff.rfl

@[simp] theorem not_mem_empty {a : α} : ¬ a ∈ (empty : Table α) := by
  simp [mem_def, empty]

theorem keys_nodup (t : Table α) : (t.rows.map Row.key).Nodup := by
  refine List.Pairwise.map _ ?_ t.sorted
  exact fun _ _ h => ne_of_lt h

/-- The primary key determines the row. -/
theorem key_inj {t : Table α} {a b : α} (ha : a ∈ t) (hb : b ∈ t) (h : Row.key a = Row.key b) :
    a = b :=
  List.inj_on_of_nodup_map t.keys_nodup ha hb h

/-- Two tables with the same rows are equal. -/
theorem ext_mem {t u : Table α} (h : ∀ a, a ∈ t ↔ a ∈ u) : t = u := by
  have hp : t.rows.Perm u.rows :=
    (List.perm_ext_iff_of_nodup t.keys_nodup.of_map u.keys_nodup.of_map).mpr h
  have hr : t.rows = u.rows := by
    have ht : t.rows.Pairwise (fun a b => Row.key a ≤ Row.key b) := t.sorted.imp le_of_lt
    have hu : u.rows.Pairwise (fun a b => Row.key a ≤ Row.key b) := u.sorted.imp le_of_lt
    refine List.Perm.eq_of_pairwise ?_ ht hu hp
    intro a b ha hb hab hba
    exact key_inj (t := t) ha ((h b).mpr hb) (le_antisymm hab hba)
  cases t
  cases u
  cases hr
  rfl

/-! ## Lookup -/

def find? (t : Table α) (k : κ) : Option α := t.rows.find? (fun a => Row.key a = k)

theorem find?_eq_some {t : Table α} {k : κ} {a : α} :
    t.find? k = some a ↔ a ∈ t ∧ Row.key a = k := by
  unfold find?
  constructor
  · intro h
    exact ⟨List.mem_of_find?_eq_some h, by simpa using List.find?_some h⟩
  · rintro ⟨hm, hk⟩
    cases hf : t.rows.find? (fun a => Row.key a = k) with
    | none =>
      have hne := List.find?_eq_none.mp hf a hm
      simp [hk] at hne
    | some b =>
      have hb : Row.key b = k := by simpa using List.find?_some hf
      rw [key_inj (List.mem_of_find?_eq_some hf) hm (hb.trans hk.symm)]

theorem find?_eq_none {t : Table α} {k : κ} : t.find? k = none ↔ ∀ a ∈ t, Row.key a ≠ k := by
  simp [find?, List.find?_eq_none, mem_def]

theorem isSome_find? {t : Table α} {k : κ} :
    (t.find? k).isSome = true ↔ ∃ a ∈ t, Row.key a = k := by
  simp only [Option.isSome_iff_exists, find?_eq_some]

theorem find?_key {t : Table α} {a : α} (h : a ∈ t) : t.find? (Row.key a) = some a :=
  find?_eq_some.mpr ⟨h, rfl⟩

/-- Two tables with the same rows under one key give that key the same answer. -/
theorem find?_congr {t u : Table α} {k : κ} (h : ∀ a, Row.key a = k → (a ∈ t ↔ a ∈ u)) :
    t.find? k = u.find? k := by
  refine Option.ext fun a => ?_
  rw [find?_eq_some, find?_eq_some]
  constructor
  · exact fun ⟨hm, hk⟩ => ⟨(h a hk).mp hm, hk⟩
  · exact fun ⟨hm, hk⟩ => ⟨(h a hk).mpr hm, hk⟩

/-! ## Insert -/

/-- Puts a row at its place. A row with the same key is replaced. -/
def insertRow (a : α) : List α → List α
  | [] => [a]
  | b :: bs =>
    if Row.key a < Row.key b then a :: b :: bs
    else if Row.key a = Row.key b then a :: bs
    else b :: insertRow a bs

theorem mem_insertRow_imp {a x : α} {l : List α} (h : x ∈ insertRow a l) : x = a ∨ x ∈ l := by
  induction l with
  | nil => simpa [insertRow] using h
  | cons b bs ih =>
    simp only [insertRow] at h
    split at h
    · simpa using h
    · split at h
      · rcases List.mem_cons.mp h with h | h
        · exact Or.inl h
        · exact Or.inr (List.mem_cons_of_mem _ h)
      · rcases List.mem_cons.mp h with h | h
        · exact Or.inr (List.mem_cons.mpr (Or.inl h))
        · rcases ih h with h | h
          · exact Or.inl h
          · exact Or.inr (List.mem_cons_of_mem _ h)

theorem insertRow_sorted {a : α} {l : List α}
    (h : l.Pairwise (fun a b => Row.key a < Row.key b)) :
    (insertRow a l).Pairwise (fun a b => Row.key a < Row.key b) := by
  induction l with
  | nil => exact List.pairwise_singleton _ _
  | cons b bs ih =>
    obtain ⟨hb, hbs⟩ := List.pairwise_cons.mp h
    simp only [insertRow]
    split
    · next hlt =>
      refine List.pairwise_cons.mpr ⟨?_, h⟩
      intro x hx
      rcases List.mem_cons.mp hx with rfl | hx
      · exact hlt
      · exact lt_trans hlt (hb x hx)
    · next hnlt =>
      split
      · next heq =>
        refine List.pairwise_cons.mpr ⟨?_, hbs⟩
        intro x hx
        rw [heq]
        exact hb x hx
      · next hne =>
        refine List.pairwise_cons.mpr ⟨?_, ih hbs⟩
        intro x hx
        rcases mem_insertRow_imp hx with rfl | hx
        · exact lt_of_le_of_ne (not_lt.mp hnlt) (Ne.symm hne)
        · exact hb x hx

theorem mem_insertRow {a x : α} {l : List α}
    (h : l.Pairwise (fun a b => Row.key a < Row.key b)) :
    x ∈ insertRow a l ↔ x = a ∨ (x ∈ l ∧ Row.key x ≠ Row.key a) := by
  induction l with
  | nil => simp [insertRow]
  | cons b bs ih =>
    obtain ⟨hb, hbs⟩ := List.pairwise_cons.mp h
    simp only [insertRow]
    split
    · next hlt =>
      have hgt : ∀ y ∈ b :: bs, Row.key y ≠ Row.key a := by
        intro y hy
        rcases List.mem_cons.mp hy with rfl | hy
        · exact (ne_of_lt hlt).symm
        · exact (ne_of_lt (lt_trans hlt (hb y hy))).symm
      rw [List.mem_cons]
      exact or_congr_right ⟨fun hx => ⟨hx, hgt x hx⟩, And.left⟩
    · split
      · next heq =>
        have hgt : ∀ y ∈ bs, Row.key y ≠ Row.key a := fun y hy => by
          rw [heq]
          exact (ne_of_lt (hb y hy)).symm
        rw [List.mem_cons]
        refine or_congr_right ⟨fun hx => ⟨List.mem_cons_of_mem _ hx, hgt x hx⟩, ?_⟩
        rintro ⟨hx, hne⟩
        rcases List.mem_cons.mp hx with rfl | hx
        · exact absurd heq.symm hne
        · exact hx
      · next hne =>
        rw [List.mem_cons, ih hbs, List.mem_cons]
        constructor
        · rintro (rfl | rfl | ⟨hx, hk⟩)
          · exact Or.inr ⟨Or.inl rfl, Ne.symm hne⟩
          · exact Or.inl rfl
          · exact Or.inr ⟨Or.inr hx, hk⟩
        · rintro (rfl | ⟨rfl | hx, hk⟩)
          · exact Or.inr (Or.inl rfl)
          · exact Or.inl rfl
          · exact Or.inr (Or.inr ⟨hx, hk⟩)

def insert (t : Table α) (a : α) : Table α where
  rows := insertRow a t.rows
  sorted := insertRow_sorted t.sorted

theorem mem_insert {t : Table α} {a x : α} :
    x ∈ t.insert a ↔ x = a ∨ (x ∈ t ∧ Row.key x ≠ Row.key a) :=
  mem_insertRow t.sorted

/-- With a fresh key, an insert only adds the row. -/
theorem mem_insert_fresh {t : Table α} {a x : α} (h : ∀ b ∈ t, Row.key b ≠ Row.key a) :
    x ∈ t.insert a ↔ x = a ∨ x ∈ t := by
  rw [mem_insert]
  exact or_congr_right ⟨And.left, fun hx => ⟨hx, h x hx⟩⟩

@[simp] theorem mem_insert_self {t : Table α} {a : α} : a ∈ t.insert a :=
  mem_insert.mpr (Or.inl rfl)

theorem find?_insert_self (t : Table α) (a : α) : (t.insert a).find? (Row.key a) = some a :=
  find?_key mem_insert_self

theorem find?_insert_ne {t : Table α} {a : α} {k : κ} (h : k ≠ Row.key a) :
    (t.insert a).find? k = t.find? k := by
  refine find?_congr fun b hb => ?_
  rw [mem_insert]
  constructor
  · rintro (rfl | ⟨hm, _⟩)
    · exact absurd hb.symm h
    · exact hm
  · exact fun hm => Or.inr ⟨hm, by rw [hb]; exact h⟩

theorem isSome_find?_insert {t : Table α} {a : α} {k : κ} (h : (t.find? k).isSome) :
    ((t.insert a).find? k).isSome := by
  by_cases hk : k = Row.key a
  · rw [hk, find?_insert_self]
    rfl
  · rw [find?_insert_ne hk]
    exact h

/-- A row with a larger key than all others goes to the end. -/
theorem rows_insert_of_lt {t : Table α} {a : α} (h : ∀ b ∈ t, Row.key b < Row.key a) :
    (t.insert a).rows = t.rows ++ [a] := by
  have happend : ∀ l : List α, (∀ b ∈ l, Row.key b < Row.key a) → insertRow a l = l ++ [a] := by
    intro l
    induction l with
    | nil => intro _; rfl
    | cons b bs ih =>
      intro hl
      have hb := hl b List.mem_cons_self
      rw [insertRow, if_neg (not_lt.mpr hb.le), if_neg hb.ne', ih fun x hx =>
        hl x (List.mem_cons_of_mem _ hx)]
      rfl
  exact happend t.rows h

/-- The table of some rows; of several rows with one key the last one stays. -/
def ofRows (rows : List α) : Table α := rows.foldl insert empty

/-! ## Update and delete -/

/-- Updates rows without touching their primary key. -/
def modify (t : Table α) (f : α → α) (h : ∀ a, Row.key (f a) = Row.key a) : Table α where
  rows := t.rows.map f
  sorted := by
    refine List.Pairwise.map _ (fun a b hab => ?_) t.sorted
    rw [h, h]
    exact hab

theorem mem_modify {t : Table α} {f : α → α} {h : ∀ a, Row.key (f a) = Row.key a} {x : α} :
    x ∈ t.modify f h ↔ ∃ a ∈ t, f a = x := by
  simp [mem_def, modify]

/-- After an update of some rows, a row is one of the others or an updated one. -/
theorem mem_modify_if {t : Table α} {p : α → Prop} [DecidablePred p] {f : α → α}
    {h : ∀ a, Row.key (if p a then f a else a) = Row.key a} {x : α} :
    x ∈ t.modify (fun a => if p a then f a else a) h ↔ (x ∈ t ∧ ¬p x) ∨ ∃ a ∈ t, p a ∧ f a = x := by
  rw [mem_modify]
  constructor
  · rintro ⟨a, ha, rfl⟩
    by_cases hp : p a
    · rw [if_pos hp]
      exact Or.inr ⟨a, ha, hp, rfl⟩
    · rw [if_neg hp]
      exact Or.inl ⟨ha, hp⟩
  · rintro (⟨hx, hp⟩ | ⟨a, ha, hp, rfl⟩)
    · exact ⟨x, hx, if_neg hp⟩
    · exact ⟨a, ha, if_pos hp⟩

theorem find?_modify {t : Table α} {f : α → α} {h : ∀ a, Row.key (f a) = Row.key a} {k : κ} :
    (t.modify f h).find? k = (t.find? k).map f := by
  refine Option.ext fun x => ?_
  rw [find?_eq_some, mem_modify, Option.map_eq_some_iff]
  constructor
  · rintro ⟨⟨a, ha, rfl⟩, hk⟩
    exact ⟨a, find?_eq_some.mpr ⟨ha, by rw [← h a]; exact hk⟩, rfl⟩
  · rintro ⟨a, ha, rfl⟩
    obtain ⟨hm, hk⟩ := find?_eq_some.mp ha
    exact ⟨⟨a, hm, rfl⟩, by rw [h a]; exact hk⟩

def filter (t : Table α) (p : α → Bool) : Table α where
  rows := t.rows.filter p
  sorted := t.sorted.sublist List.filter_sublist

theorem mem_filter {t : Table α} {p : α → Bool} {x : α} :
    x ∈ t.filter p ↔ x ∈ t ∧ p x = true := by
  simp [mem_def, filter]

/-- The rows that satisfy a condition, in key order. -/
def select (t : Table α) (p : α → Bool) : List α := t.rows.filter p

@[simp] theorem mem_select {t : Table α} {p : α → Bool} {x : α} :
    x ∈ t.select p ↔ x ∈ t ∧ p x = true := by
  simp [select, mem_def]

theorem select_nodup (t : Table α) (p : α → Bool) : (t.select p).Nodup :=
  (t.keys_nodup.of_map).filter p

theorem select_eq_rows_filter (t : Table α) (p : α → Bool) : t.select p = (t.filter p).rows := rfl

/-- Two tables that agree on the rows a query asks for give it the same answer. -/
theorem select_congr {t u : Table α} {p q : α → Bool}
    (h : ∀ a, (a ∈ t ∧ p a = true) ↔ (a ∈ u ∧ q a = true)) : t.select p = u.select q := by
  rw [select_eq_rows_filter, select_eq_rows_filter]
  have he : t.filter p = u.filter q := ext_mem fun a => by rw [mem_filter, mem_filter]; exact h a
  rw [he]

end Table

end Infra
