import Mathlib.Data.Finset.Basic
import Mathlib.Data.List.Sort
import Mathlib.Data.Prod.Lex
import Mathlib.Data.String.Basic

/-!
# Ordering and grouping lists

`orderBy` is a stable sort on a key. `groupBy` collects the runs of equal keys of a list. On a list
that is sorted by the key, the runs are the filters of the list.
-/

namespace Infra

variable {α κ : Type*}

/-! ## Sorting -/

section OrderBy

variable [LinearOrder κ]

def orderBy (key : α → κ) (l : List α) : List α :=
  l.insertionSort (fun a b => key a ≤ key b)

theorem perm_orderBy (key : α → κ) (l : List α) : (orderBy key l).Perm l :=
  List.perm_insertionSort _ _

@[simp] theorem mem_orderBy {key : α → κ} {l : List α} {a : α} : a ∈ orderBy key l ↔ a ∈ l :=
  (perm_orderBy key l).mem_iff

theorem orderBy_sorted (key : α → κ) (l : List α) :
    (orderBy key l).Pairwise (fun a b => key a ≤ key b) := by
  have : Std.Total (fun a b : α => key a ≤ key b) := ⟨fun a b => le_total _ _⟩
  have : IsTrans α (fun a b : α => key a ≤ key b) := ⟨fun _ _ _ => le_trans⟩
  exact List.pairwise_insertionSort _ l

/-- With distinct keys, the sorted list depends only on the members. -/
theorem orderBy_congr {key : α → κ} {l m : List α} (hp : l.Perm m)
    (hinj : ∀ a ∈ l, ∀ b ∈ l, key a = key b → a = b) : orderBy key l = orderBy key m := by
  have hpm : (orderBy key l).Perm (orderBy key m) :=
    ((perm_orderBy key l).trans hp).trans (perm_orderBy key m).symm
  refine hpm.eq_of_pairwise ?_ (orderBy_sorted key l) (orderBy_sorted key m)
  intro a b ha hb hab hba
  refine hinj a (mem_orderBy.mp ha) b ?_ (le_antisymm hab hba)
  exact hp.mem_iff.mpr (mem_orderBy.mp hb)

/-- Two strictly sorted lists with the same members are equal. -/
theorem eq_of_strictly_sorted {key : α → κ} {l m : List α}
    (hl : l.Pairwise fun a b => key a < key b) (hm : m.Pairwise fun a b => key a < key b)
    (h : ∀ a, a ∈ l ↔ a ∈ m) : l = m := by
  have hne : ∀ {n : List α}, n.Pairwise (fun a b => key a < key b) → n.Nodup :=
    fun hn => List.Pairwise.imp (fun {a b} hlt he => absurd (congrArg key he) hlt.ne) hn
  have hperm := (List.perm_ext_iff_of_nodup (hne hl) (hne hm)).mpr h
  exact hperm.eq_of_pairwise (fun _ _ _ _ hab hba => absurd hab (not_lt_of_gt hba)) hl hm

/-- What comes first of all is inserted in front. -/
theorem orderedInsert_of_le {key : α → κ} {a : α} {l : List α} (h : ∀ b ∈ l, key a ≤ key b) :
    l.orderedInsert (fun a b => key a ≤ key b) a = a :: l := by
  cases l with
  | nil => rfl
  | cons b l => rw [List.orderedInsert_cons, if_pos (h b List.mem_cons_self)]

theorem filter_orderedInsert {key : α → κ} (p : α → Bool) (a : α) {l : List α}
    (h : l.Pairwise (fun a b => key a ≤ key b)) :
    (l.orderedInsert (fun a b => key a ≤ key b) a).filter p =
      if p a then (l.filter p).orderedInsert (fun a b => key a ≤ key b) a else l.filter p := by
  induction l with
  | nil => by_cases ha : p a <;> simp [ha]
  | cons b l ih =>
    obtain ⟨hb, hl⟩ := List.pairwise_cons.mp h
    rw [List.orderedInsert_cons]
    by_cases hab : key a ≤ key b
    · rw [if_pos hab, List.filter_cons]
      split
      · rw [orderedInsert_of_le]
        intro x hx
        rcases List.mem_cons.mp (List.mem_of_mem_filter hx) with rfl | hx
        · exact hab
        · exact hab.trans (hb x hx)
      · rfl
    · rw [if_neg hab, List.filter_cons, ih hl]
      by_cases hpb : p b = true
      · rw [if_pos hpb, List.filter_cons_of_pos hpb, List.orderedInsert_cons, if_neg hab]
        split <;> rfl
      · rw [if_neg hpb, List.filter_cons_of_neg hpb]

/-- The sort is stable, so it commutes with a restriction. -/
theorem orderBy_filter {key : α → κ} (p : α → Bool) (l : List α) :
    orderBy key (l.filter p) = (orderBy key l).filter p := by
  induction l with
  | nil => rfl
  | cons a l ih =>
    have hcons : orderBy key (a :: l) =
        (orderBy key l).orderedInsert (fun a b => key a ≤ key b) a := rfl
    rw [hcons, filter_orderedInsert p a (orderBy_sorted key l), ← ih, List.filter_cons]
    split <;> rfl

/-- Elements with equal keys keep their order. -/
theorem orderBy_stable {key : α → κ} {r : α → α → Prop} {l : List α} (h : l.Pairwise r) :
    (orderBy key l).Pairwise fun a b => key a < key b ∨ key a = key b ∧ r a b := by
  induction l with
  | nil => exact List.Pairwise.nil
  | cons a l ih =>
    obtain ⟨ha, hl⟩ := List.pairwise_cons.mp h
    replace ih := ih hl
    have hcons : orderBy key (a :: l) =
        (orderBy key l).orderedInsert (fun a b => key a ≤ key b) a := rfl
    rw [hcons]
    have hr : ∀ b ∈ orderBy key l, r a b := fun b hb => ha b (mem_orderBy.mp hb)
    generalize orderBy key l = m at ih hr
    induction m with
    | nil => exact List.pairwise_singleton _ _
    | cons b m ihm =>
      obtain ⟨hb, hm⟩ := List.pairwise_cons.mp ih
      rw [List.orderedInsert_cons]
      split
      · next hab =>
        refine List.pairwise_cons.mpr ⟨fun x hx => ?_, ih⟩
        have hax : key a ≤ key x := by
          rcases List.mem_cons.mp hx with rfl | hx
          · exact hab
          · exact hab.trans ((hb x hx).elim le_of_lt fun h => h.1.le)
        exact hax.lt_or_eq.imp_right fun he => ⟨he, hr x hx⟩
      · next hab =>
        refine List.pairwise_cons.mpr ⟨fun x hx => ?_, ihm hm fun x hx => ?_⟩
        · rcases (List.mem_orderedInsert _).mp hx with rfl | hx
          · exact Or.inl (not_le.mp hab)
          · exact hb x hx
        · exact hr x (List.mem_cons_of_mem _ hx)

theorem orderBy_nodup {key : α → κ} {l : List α} (h : l.Nodup) : (orderBy key l).Nodup :=
  (perm_orderBy key l).nodup_iff.mpr h

/-- The element in front, if it is in the list. -/
def toFront [DecidableEq α] (a : α) (l : List α) : List α :=
  if a ∈ l then a :: l.erase a else l

theorem toFront_perm [DecidableEq α] (a : α) (l : List α) : (toFront a l).Perm l := by
  unfold toFront
  split
  · next h => exact (List.perm_cons_erase h).symm
  · exact List.Perm.refl l

theorem toFront_of_mem [DecidableEq α] {a : α} {l : List α} (h : a ∈ l) :
    toFront a l = a :: l.erase a := if_pos h

/-- What is put in front comes first among those that are not smaller. -/
theorem find?_orderBy_toFront [DecidableEq α] {key : α → κ} {p : α → Bool} {a : α} {l : List α}
    (ha : a ∈ l) (hp : p a = true) (hmin : ∀ b ∈ l, p b = true → key a ≤ key b) :
    (orderBy key (toFront a l)).find? p = some a := by
  have hcons : orderBy key (a :: (l.erase a).filter p) = a :: orderBy key ((l.erase a).filter p) := by
    refine orderedInsert_of_le fun b hb => ?_
    obtain ⟨hb, hpb⟩ := List.mem_filter.mp (mem_orderBy.mp hb)
    exact hmin b (List.mem_of_mem_erase hb) hpb
  rw [← List.head?_filter, ← orderBy_filter, toFront_of_mem ha, List.filter_cons_of_pos hp, hcons]
  rfl

/-- A map that the key does not see commutes with the sort. -/
theorem orderBy_map {β : Type*} (g : α → β) (key : β → κ) (l : List α) :
    orderBy key (l.map g) = (orderBy (fun a => key (g a)) l).map g :=
  (List.map_insertionSort _ _ g l fun _ _ _ _ => Iff.rfl).symm

/-- A finite set in ascending order. -/
def sortedSet (s : Finset κ) : List κ :=
  Quot.liftOn s.val (orderBy id) fun _ _ hp => orderBy_congr hp fun _ _ _ _ h => h

@[simp] theorem mem_sortedSet {s : Finset κ} {a : κ} : a ∈ sortedSet s ↔ a ∈ s := by
  obtain ⟨m, hm⟩ := s
  induction m using Quot.induction_on with
  | h l => exact (perm_orderBy id l).mem_iff

end OrderBy

/-- In a sorted list, what a search finds first comes before everything else that fits. -/
theorem find?_first {r : α → α → Prop} {l : List α} {p : α → Bool} (h : l.Pairwise r) {a b : α}
    (ha : l.find? p = some a) (hb : b ∈ l) (hp : p b = true) : b = a ∨ r a b := by
  induction l with
  | nil => simp at hb
  | cons c l ih =>
    obtain ⟨hc, hl⟩ := List.pairwise_cons.mp h
    by_cases hpc : p c = true
    · rw [List.find?_cons_of_pos hpc] at ha
      cases ha
      rcases List.mem_cons.mp hb with rfl | hb
      · exact Or.inl rfl
      · exact Or.inr (hc b hb)
    · rw [List.find?_cons_of_neg hpc] at ha
      rcases List.mem_cons.mp hb with rfl | hb
      · exact absurd hp hpc
      · exact ih hl ha hb

/-! ## Grouping -/

section GroupBy

variable [DecidableEq κ]

/-- The runs of consecutive elements with one key, as `itertools.groupby`. -/
def groupBy (key : α → κ) : List α → List (κ × List α)
  | [] => []
  | a :: l =>
    match groupBy key l with
    | [] => [(key a, [a])]
    | (k, g) :: rest =>
      if key a = k then (k, a :: g) :: rest else (key a, [a]) :: (k, g) :: rest

theorem groupBy_flatMap (key : α → κ) (l : List α) : (groupBy key l).flatMap Prod.snd = l := by
  induction l with
  | nil => rfl
  | cons a l ih =>
    simp only [groupBy]
    split
    · next h =>
      rw [h] at ih
      have hl : l = [] := by simpa using ih.symm
      simp [hl]
    · next k g rest h =>
      rw [h] at ih
      split <;> simp [← ih]

theorem groupBy_key {key : α → κ} {l : List α} {k : κ} {g : List α}
    (h : (k, g) ∈ groupBy key l) : g ≠ [] ∧ ∀ a ∈ g, key a = k := by
  induction l generalizing k g with
  | nil => simp [groupBy] at h
  | cons a l ih =>
    simp only [groupBy] at h
    split at h
    · have h' := List.mem_singleton.mp h
      cases h'
      simp
    · next k' g' rest heq =>
      rw [heq] at ih
      split at h
      · next hk =>
        rcases List.mem_cons.mp h with h | h
        · cases h
          refine ⟨by simp, ?_⟩
          intro b hb
          rcases List.mem_cons.mp hb with rfl | hb
          · exact hk
          · exact (ih List.mem_cons_self).2 b hb
        · exact ih (List.mem_cons_of_mem _ h)
      · rcases List.mem_cons.mp h with h | h
        · cases h
          simp
        · exact ih h

/-- Elements of one key are one run. -/
theorem groupBy_const {key : α → κ} {l : List α} {k : κ} (hne : l ≠ []) (h : ∀ a ∈ l, key a = k) :
    groupBy key l = [(k, l)] := by
  induction l with
  | nil => exact absurd rfl hne
  | cons a l ih =>
    have ha : key a = k := h a List.mem_cons_self
    cases l with
    | nil => simp [groupBy, ha]
    | cons b l =>
      rw [groupBy, ih (by simp) fun c hc => h c (List.mem_cons_of_mem _ hc)]
      exact if_pos ha

theorem mem_groupBy_of_mem (key : α → κ) {l : List α} {a : α} (h : a ∈ l) :
    ∃ g, (key a, g) ∈ groupBy key l ∧ a ∈ g := by
  rw [← groupBy_flatMap key l] at h
  obtain ⟨⟨k, g⟩, hg, ha⟩ := List.mem_flatMap.mp h
  have hk := (groupBy_key hg).2 a ha
  exact ⟨g, by rw [hk]; exact hg, ha⟩

end GroupBy

section GroupBySorted

variable [LinearOrder κ]

theorem groupBy_keys_sorted (key : α → κ) {l : List α}
    (h : l.Pairwise (fun a b => key a ≤ key b)) :
    (groupBy key l).Pairwise (fun p q => p.1 < q.1) := by
  induction l with
  | nil => exact List.Pairwise.nil
  | cons a l ih =>
    obtain ⟨ha, hl⟩ := List.pairwise_cons.mp h
    replace ih := ih hl
    have hle : ∀ p ∈ groupBy key l, key a ≤ p.1 := by
      rintro ⟨k, g⟩ hp
      obtain ⟨hne, hk⟩ := groupBy_key hp
      obtain ⟨b, hb⟩ := List.exists_mem_of_ne_nil g hne
      have hbl : b ∈ l := by
        rw [← groupBy_flatMap key l]
        exact List.mem_flatMap.mpr ⟨(k, g), hp, hb⟩
      rw [← hk b hb]
      exact ha b hbl
    simp only [groupBy]
    split
    · exact List.pairwise_singleton _ _
    · next k g rest heq =>
      rw [heq] at ih hle
      obtain ⟨hk, hrest⟩ := List.pairwise_cons.mp ih
      split
      · exact List.pairwise_cons.mpr ⟨fun p hp => hk p hp, hrest⟩
      · next hne =>
        have hlt : key a < k := lt_of_le_of_ne (hle _ List.mem_cons_self) hne
        refine List.pairwise_cons.mpr ⟨?_, ih⟩
        intro p hp
        rcases List.mem_cons.mp hp with rfl | hp
        · exact hlt
        · exact lt_trans hlt (hk p hp)

/-- On a list sorted by the key, a run holds all the elements of its key in their order. -/
theorem groupBy_eq_filter {key : α → κ} {l : List α}
    (h : l.Pairwise (fun a b => key a ≤ key b)) {k : κ} {g : List α}
    (hg : (k, g) ∈ groupBy key l) : g = l.filter (fun a => key a = k) := by
  have hs := groupBy_keys_sorted key h
  have hkeys : ∀ p ∈ groupBy key l, ∀ a ∈ p.2, key a = p.1 :=
    fun p hp => (groupBy_key (k := p.1) (g := p.2) hp).2
  have hsplit : ∀ gs : List (κ × List α), gs.Pairwise (fun p q => p.1 < q.1) →
      (∀ p ∈ gs, ∀ a ∈ p.2, key a = p.1) → (k, g) ∈ gs →
        (gs.flatMap Prod.snd).filter (fun a => key a = k) = g := by
    intro gs
    induction gs with
    | nil => intro _ _ hm; simp at hm
    | cons p rest ih =>
      intro hp hk hm
      obtain ⟨hlt, hrest⟩ := List.pairwise_cons.mp hp
      rw [List.flatMap_cons, List.filter_append]
      rcases List.mem_cons.mp hm with rfl | hm
      · have hall : g.filter (fun a => key a = k) = g := by
          refine List.filter_eq_self.mpr fun a ha => ?_
          simpa using hk (k, g) List.mem_cons_self a ha
        have hnone : (rest.flatMap Prod.snd).filter (fun a => key a = k) = [] := by
          refine List.filter_eq_nil_iff.mpr fun a ha => ?_
          obtain ⟨q, hq, haq⟩ := List.mem_flatMap.mp ha
          have hne := (hlt q hq).ne'
          rw [hk q (List.mem_cons_of_mem _ hq) a haq]
          simpa using hne
        rw [hall, hnone, List.append_nil]
      · have hnone : p.2.filter (fun a => key a = k) = [] := by
          refine List.filter_eq_nil_iff.mpr fun a ha => ?_
          have hne := (hlt (k, g) hm).ne
          rw [hk p List.mem_cons_self a ha]
          simpa using hne
        rw [hnone, List.nil_append]
        exact ih hrest (fun q hq => hk q (List.mem_cons_of_mem _ hq)) hm
  rw [← hsplit _ hs hkeys hg, groupBy_flatMap]

theorem mem_groupBy_sorted {key : α → κ} {l : List α}
    (h : l.Pairwise (fun a b => key a ≤ key b)) {k : κ} {g : List α} :
    (k, g) ∈ groupBy key l ↔ g = l.filter (fun a => key a = k) ∧ g ≠ [] := by
  constructor
  · exact fun hg => ⟨groupBy_eq_filter h hg, (groupBy_key hg).1⟩
  · rintro ⟨rfl, hne⟩
    obtain ⟨a, ha⟩ := List.exists_mem_of_ne_nil _ hne
    obtain ⟨hal, hak⟩ := List.mem_filter.mp ha
    obtain ⟨g, hg, _⟩ := mem_groupBy_of_mem key hal
    rw [of_decide_eq_true hak] at hg
    rw [← groupBy_eq_filter h hg]
    exact hg

/-- A restriction to some of the keys drops whole runs of a sorted list. -/
theorem groupBy_filter {key : α → κ} {l : List α} (p : κ → Bool)
    (h : l.Pairwise (fun a b => key a ≤ key b)) :
    groupBy key (l.filter fun a => p (key a)) = (groupBy key l).filter fun g => p g.1 := by
  have hf : (l.filter fun a => p (key a)).Pairwise (fun a b => key a ≤ key b) := h.filter _
  have hs := groupBy_keys_sorted key hf
  have hs' := (groupBy_keys_sorted key h).filter fun g => p g.1
  have hmem : ∀ g, g ∈ groupBy key (l.filter fun a => p (key a)) ↔
      g ∈ (groupBy key l).filter fun g => p g.1 := by
    rintro ⟨k, g⟩
    rw [mem_groupBy_sorted hf, List.mem_filter, mem_groupBy_sorted h, List.filter_filter]
    by_cases hp : p k = true
    · have hsame : l.filter (fun a => decide (key a = k) && p (key a)) =
          l.filter fun a => decide (key a = k) := by
        refine List.filter_congr fun a _ => ?_
        by_cases ha : key a = k <;> simp [ha, hp]
      rw [hsame]
      exact (and_iff_left hp).symm
    · have hnone : l.filter (fun a => decide (key a = k) && p (key a)) = [] := by
        refine List.filter_eq_nil_iff.mpr fun a _ => ?_
        by_cases ha : key a = k <;> simp [ha, hp]
      rw [hnone]
      exact iff_of_false (fun hg => hg.2 hg.1) fun hg => hp hg.2
  exact eq_of_strictly_sorted hs hs' hmem

end GroupBySorted

end Infra
