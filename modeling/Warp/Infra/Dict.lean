import Mathlib.Data.List.Nodup
import Mathlib.Data.List.Perm.Lattice
import Warp.Infra.Ordering

/-!
# Insertion-ordered dictionaries

The keys are distinct and keep the order in which they were first set. A key that is set again
keeps its place, as in Python.
-/

namespace Infra

structure Dict (κ α : Type*) where
  entries : List (κ × α)
  nodup : (entries.map Prod.fst).Nodup

namespace Dict

variable {κ α ι : Type*}

def empty : Dict κ α where
  entries := []
  nodup := List.nodup_nil

def keys (d : Dict κ α) : List κ := d.entries.map Prod.fst

def values (d : Dict κ α) : List α := d.entries.map Prod.snd

theorem keys_nodup (d : Dict κ α) : d.keys.Nodup := d.nodup

@[simp] theorem keys_empty : (empty : Dict κ α).keys = [] := rfl

theorem mem_keys {d : Dict κ α} {k : κ} : k ∈ d.keys ↔ ∃ a, (k, a) ∈ d.entries := by
  simp [keys]

theorem mem_values {d : Dict κ α} {a : α} : a ∈ d.values ↔ ∃ k, (k, a) ∈ d.entries := by
  simp [values]

/-- A key has one value. -/
theorem value_unique {d : Dict κ α} {k : κ} {a b : α} (ha : (k, a) ∈ d.entries)
    (hb : (k, b) ∈ d.entries) : a = b :=
  congrArg Prod.snd (List.inj_on_of_nodup_map d.nodup ha hb rfl)

variable [DecidableEq κ]

def get? (d : Dict κ α) (k : κ) : Option α :=
  (d.entries.find? (fun p => p.1 = k)).map Prod.snd

theorem get?_eq_some {d : Dict κ α} {k : κ} {a : α} :
    d.get? k = some a ↔ (k, a) ∈ d.entries := by
  unfold get?
  constructor
  · intro h
    obtain ⟨p, hp, rfl⟩ := Option.map_eq_some_iff.mp h
    have hk : p.1 = k := by simpa using List.find?_some hp
    rw [← hk]
    exact List.mem_of_find?_eq_some hp
  · intro h
    cases hf : d.entries.find? (fun p => p.1 = k) with
    | none =>
      have hne := List.find?_eq_none.mp hf _ h
      simp at hne
    | some p =>
      have hk : p.1 = k := by simpa using List.find?_some hf
      have hm : (k, p.2) ∈ d.entries := by rw [← hk]; exact List.mem_of_find?_eq_some hf
      rw [Option.map_some, value_unique hm h]

theorem get?_eq_none {d : Dict κ α} {k : κ} : d.get? k = none ↔ k ∉ d.keys := by
  constructor
  · intro h hk
    obtain ⟨a, ha⟩ := mem_keys.mp hk
    rw [get?_eq_some.mpr ha] at h
    exact absurd h (by simp)
  · intro h
    cases hg : d.get? k with
    | none => rfl
    | some a => exact absurd (mem_keys.mpr ⟨a, get?_eq_some.mp hg⟩) h

/-! ## Setting a key -/

/-- Overwrites the value of a key in place. -/
def modify (d : Dict κ α) (k : κ) (f : α → α) : Dict κ α where
  entries := d.entries.map (fun p => if p.1 = k then (p.1, f p.2) else p)
  nodup := by
    have h : (d.entries.map (fun p => if p.1 = k then (p.1, f p.2) else p)).map Prod.fst
        = d.entries.map Prod.fst := by
      rw [List.map_map]
      refine List.map_congr_left fun p _ => ?_
      simp only [Function.comp_apply]
      split <;> rfl
    rw [h]
    exact d.nodup

/-- Adds a key that is not in the dictionary at its end. -/
def append (d : Dict κ α) (k : κ) (a : α) (h : k ∉ d.keys) : Dict κ α where
  entries := d.entries ++ [(k, a)]
  nodup := by
    rw [List.map_append, List.nodup_append]
    refine ⟨d.nodup, by simp, ?_⟩
    intro x hx y hy he
    simp only [List.map_cons, List.map_nil, List.mem_singleton] at hy
    exact h (by rw [← hy, ← he]; exact hx)

def set (d : Dict κ α) (k : κ) (a : α) : Dict κ α :=
  if h : k ∈ d.keys then d.modify k (fun _ => a) else d.append k a h

/-- `setdefault`: the first value of a key stays. -/
def setDefault (d : Dict κ α) (k : κ) (a : α) : Dict κ α :=
  if h : k ∈ d.keys then d else d.append k a h

/-- `setdefault(k, a)` followed by an update of the value in place. -/
def update (d : Dict κ α) (k : κ) (a : α) (f : α → α) : Dict κ α :=
  (d.setDefault k a).modify k f

@[simp] theorem keys_modify (d : Dict κ α) (k : κ) (f : α → α) : (d.modify k f).keys = d.keys := by
  simp only [keys, modify, List.map_map]
  refine List.map_congr_left fun p _ => ?_
  simp only [Function.comp_apply]
  split <;> rfl

theorem mem_entries_modify {d : Dict κ α} {k j : κ} {f : α → α} {b : α} :
    (j, b) ∈ (d.modify k f).entries ↔
      (j ≠ k ∧ (j, b) ∈ d.entries) ∨ (j = k ∧ ∃ a, (k, a) ∈ d.entries ∧ b = f a) := by
  simp only [modify, List.mem_map, Prod.exists]
  constructor
  · rintro ⟨i, a, hm, he⟩
    by_cases hi : i = k
    · rw [if_pos hi] at he
      cases he
      exact Or.inr ⟨hi, a, by rw [← hi]; exact hm, rfl⟩
    · rw [if_neg hi] at he
      cases he
      exact Or.inl ⟨hi, hm⟩
  · rintro (⟨hj, hm⟩ | ⟨rfl, a, hm, rfl⟩)
    · exact ⟨j, b, hm, if_neg hj⟩
    · exact ⟨j, a, hm, if_pos rfl⟩

/-- The values of a changed dictionary differ at one place. -/
theorem values_modify {d : Dict κ α} {k : κ} {f : α → α} (hk : k ∈ d.keys) :
    ∃ before a after, d.values = before ++ a :: after ∧
      (d.modify k f).values = before ++ f a :: after := by
  obtain ⟨entries, hn⟩ := d
  simp only [keys, values, modify] at hk ⊢
  induction entries with
  | nil => simp at hk
  | cons p rest ih =>
    rw [List.map_cons, List.nodup_cons] at hn
    by_cases hp : p.1 = k
    · have hrest : (rest.map fun q => if q.1 = k then (q.1, f q.2) else q) = rest := by
        refine (List.map_congr_left fun q hq => if_neg ?_).trans (List.map_id _)
        rintro rfl
        exact hn.1 (hp ▸ List.mem_map_of_mem hq)
      refine ⟨[], p.2, rest.map Prod.snd, rfl, ?_⟩
      rw [List.map_cons, if_pos hp, hrest]
      rfl
    · obtain ⟨before, a, after, h, h'⟩ := ih hn.2 ((List.mem_cons.mp hk).resolve_left (Ne.symm hp))
      refine ⟨p.2 :: before, a, after, by rw [List.map_cons, h]; rfl, ?_⟩
      rw [List.map_cons, if_neg hp, List.map_cons, h']
      rfl

theorem mem_keys_setDefault {d : Dict κ α} {k j : κ} {a : α} :
    j ∈ (d.setDefault k a).keys ↔ j = k ∨ j ∈ d.keys := by
  unfold setDefault
  split
  · next h => exact ⟨Or.inr, fun hj => hj.elim (fun he => he ▸ h) id⟩
  · simp [append, keys, or_comm]

theorem mem_entries_setDefault {d : Dict κ α} {k j : κ} {a b : α} :
    (j, b) ∈ (d.setDefault k a).entries ↔
      (j, b) ∈ d.entries ∨ (k ∉ d.keys ∧ j = k ∧ b = a) := by
  unfold setDefault
  split
  · next h => simp [h]
  · next h => simp [append, h]

theorem mem_keys_set {d : Dict κ α} {k j : κ} {a : α} :
    j ∈ (d.set k a).keys ↔ j = k ∨ j ∈ d.keys := by
  unfold set
  split
  · next h =>
    rw [keys_modify]
    exact ⟨Or.inr, fun hj => hj.elim (fun he => he ▸ h) id⟩
  · simp [append, keys, or_comm]

theorem mem_entries_set {d : Dict κ α} {k j : κ} {a b : α} :
    (j, b) ∈ (d.set k a).entries ↔ (j = k ∧ b = a) ∨ (j ≠ k ∧ (j, b) ∈ d.entries) := by
  unfold set
  split
  · next h =>
    rw [mem_entries_modify]
    obtain ⟨c, hc⟩ := mem_keys.mp h
    constructor
    · rintro (hl | ⟨hj, _, _, hb⟩)
      · exact Or.inr hl
      · exact Or.inl ⟨hj, hb⟩
    · rintro (⟨hj, hb⟩ | hr)
      · exact Or.inr ⟨hj, c, hc, hb⟩
      · exact Or.inl hr
  · next h =>
    simp only [append, List.mem_append, List.mem_singleton, Prod.mk.injEq]
    constructor
    · rintro (hm | hk)
      · exact Or.inr ⟨fun he => h (he ▸ mem_keys.mpr ⟨b, hm⟩), hm⟩
      · exact Or.inl hk
    · rintro (hk | ⟨_, hm⟩)
      · exact Or.inr hk
      · exact Or.inl hm

/-! ## Building a dictionary from a list -/

/-- `{key: value for ... in pairs}`: a later pair overwrites an earlier one. -/
def ofList (pairs : List (κ × α)) : Dict κ α :=
  pairs.foldl (fun d p => d.set p.1 p.2) empty

theorem mem_keys_foldl_set (pairs : List (κ × α)) : ∀ (d : Dict κ α) (k : κ),
    k ∈ (pairs.foldl (fun d p => d.set p.1 p.2) d).keys ↔
      k ∈ d.keys ∨ k ∈ pairs.map Prod.fst := by
  induction pairs with
  | nil => intro d k; simp
  | cons p rest ih =>
    intro d k
    rw [List.foldl_cons, ih, mem_keys_set, List.map_cons, List.mem_cons]
    tauto

theorem mem_keys_ofList {pairs : List (κ × α)} {k : κ} :
    k ∈ (ofList pairs).keys ↔ k ∈ pairs.map Prod.fst := by
  rw [ofList, mem_keys_foldl_set]
  simp

theorem mem_of_mem_foldl_set (pairs : List (κ × α)) : ∀ (d : Dict κ α) (p : κ × α),
    p ∈ (pairs.foldl (fun d p => d.set p.1 p.2) d).entries → p ∈ d.entries ∨ p ∈ pairs := by
  induction pairs with
  | nil => intro d p h; exact Or.inl h
  | cons q rest ih =>
    intro d p h
    rcases ih _ _ h with h | h
    · rcases mem_entries_set.mp h with ⟨h1, h2⟩ | ⟨_, h2⟩
      · exact Or.inr (List.mem_cons.mpr (Or.inl (Prod.ext h1 h2)))
      · exact Or.inl h2
    · exact Or.inr (List.mem_cons_of_mem _ h)

/-- Every entry comes from the list. -/
theorem mem_of_mem_ofList {pairs : List (κ × α)} {p : κ × α} (h : p ∈ (ofList pairs).entries) :
    p ∈ pairs := by
  rcases mem_of_mem_foldl_set pairs empty p h with h | h
  · simp [empty] at h
  · exact h

theorem entries_foldl_set {pairs : List (κ × α)} {d : Dict κ α}
    (h : (d.keys ++ pairs.map Prod.fst).Nodup) :
    (pairs.foldl (fun d p => d.set p.1 p.2) d).entries = d.entries ++ pairs := by
  induction pairs generalizing d with
  | nil => exact (List.append_nil _).symm
  | cons p rest ih =>
    have hp : p.1 ∉ d.keys := fun hk =>
      (List.nodup_append.mp h).2.2 p.1 hk p.1 List.mem_cons_self rfl
    have hset : d.set p.1 p.2 = d.append p.1 p.2 hp := dif_neg hp
    have hkeys : (d.append p.1 p.2 hp).keys = d.keys ++ [p.1] := by
      simp [keys, append]
    rw [List.foldl_cons, hset, ih]
    · simp [append]
    · rw [hkeys, List.append_assoc]
      exact h

/-- Pairs with distinct keys are the entries, in their order. -/
theorem entries_ofList {pairs : List (κ × α)} (h : (pairs.map Prod.fst).Nodup) :
    (ofList pairs).entries = pairs := by
  rw [ofList, entries_foldl_set]
  · rfl
  · exact h

/-! ## Collecting values under keys -/

/-- Appends every value to the list of its key, as `setdefault(key, []).append(value)`. -/
def collect (pairs : List (κ × α)) : Dict κ (List α) :=
  pairs.foldl (fun d p => d.update p.1 [] (fun l => l ++ [p.2])) empty

theorem mem_update {d : Dict κ α} {k j : κ} {a b : α} {f : α → α} :
    (j, b) ∈ (d.update k a f).entries ↔ (j ≠ k ∧ (j, b) ∈ d.entries) ∨
      (j = k ∧ b = f ((d.get? k).getD a)) := by
  unfold update
  rw [mem_entries_modify]
  simp only [mem_entries_setDefault, true_and]
  constructor
  · rintro (⟨hj, hm | ⟨_, hjk, _⟩⟩ | ⟨hj, c, hc | ⟨hk, rfl⟩, rfl⟩)
    · exact Or.inl ⟨hj, hm⟩
    · exact absurd hjk hj
    · rw [get?_eq_some.mpr hc]
      exact Or.inr ⟨hj, rfl⟩
    · rw [get?_eq_none.mpr hk]
      exact Or.inr ⟨hj, rfl⟩
  · rintro (⟨hj, hm⟩ | ⟨hj, rfl⟩)
    · exact Or.inl ⟨hj, Or.inl hm⟩
    · refine Or.inr ⟨hj, ?_⟩
      cases hg : d.get? k with
      | none => exact ⟨a, Or.inr ⟨get?_eq_none.mp hg, rfl⟩, rfl⟩
      | some c => exact ⟨c, Or.inl (get?_eq_some.mp hg), rfl⟩

theorem mem_keys_update {d : Dict κ α} {k j : κ} {a : α} {f : α → α} :
    j ∈ (d.update k a f).keys ↔ j = k ∨ j ∈ d.keys := by
  rw [update, keys_modify, mem_keys_setDefault]

theorem get?_collect_aux (pairs : List (κ × α)) : ∀ (d : Dict κ (List α)) (k : κ),
    (((pairs.foldl (fun d p => d.update p.1 [] (fun l => l ++ [p.2])) d).get? k).getD []) =
      (d.get? k).getD [] ++ (pairs.filter (fun p => p.1 = k)).map Prod.snd := by
  induction pairs with
  | nil => intro d k; simp
  | cons p rest ih =>
    intro d k
    rw [List.foldl_cons, ih]
    by_cases hk : p.1 = k
    · have hg : (d.update p.1 [] (fun l => l ++ [p.2])).get? k =
          some ((d.get? p.1).getD [] ++ [p.2]) :=
        get?_eq_some.mpr (mem_update.mpr (Or.inr ⟨hk.symm, rfl⟩))
      rw [hg, List.filter_cons_of_pos (by simpa using hk), hk]
      simp
    · have hg : (d.update p.1 [] (fun l => l ++ [p.2])).get? k = d.get? k := by
        refine Option.ext fun l => ?_
        rw [get?_eq_some, get?_eq_some, mem_update]
        constructor
        · rintro (⟨_, hm⟩ | ⟨he, _⟩)
          · exact hm
          · exact absurd he.symm hk
        · exact fun hm => Or.inl ⟨Ne.symm hk, hm⟩
      rw [hg, List.filter_cons_of_neg (by simpa using hk)]

theorem mem_keys_collect_aux (pairs : List (κ × α)) : ∀ (d : Dict κ (List α)) (k : κ),
    k ∈ (pairs.foldl (fun d p => d.update p.1 [] (fun l => l ++ [p.2])) d).keys ↔
      k ∈ d.keys ∨ k ∈ pairs.map Prod.fst := by
  induction pairs with
  | nil => intro d k; simp
  | cons p rest ih =>
    intro d k
    rw [List.foldl_cons, ih, mem_keys_update, List.map_cons, List.mem_cons]
    tauto

theorem mem_keys_collect {pairs : List (κ × α)} {k : κ} :
    k ∈ (collect pairs).keys ↔ k ∈ pairs.map Prod.fst := by
  rw [collect, mem_keys_collect_aux]
  simp

theorem get?_collect (pairs : List (κ × α)) (k : κ) :
    ((collect pairs).get? k).getD [] = (pairs.filter fun p => p.1 = k).map Prod.snd :=
  get?_collect_aux pairs empty k

/-- A key holds the values of its pairs in their order. -/
theorem mem_collect {pairs : List (κ × α)} {k : κ} {l : List α} :
    (k, l) ∈ (collect pairs).entries ↔
      k ∈ pairs.map Prod.fst ∧ l = (pairs.filter (fun p => p.1 = k)).map Prod.snd := by
  have hval := get?_collect_aux pairs empty k
  rw [← collect] at hval
  have hempty : (empty : Dict κ (List α)).get? k = none := rfl
  rw [hempty, Option.getD_none, List.nil_append] at hval
  constructor
  · intro h
    rw [get?_eq_some.mpr h] at hval
    exact ⟨mem_keys_collect.mp (mem_keys.mpr ⟨l, h⟩), hval⟩
  · rintro ⟨hk, rfl⟩
    obtain ⟨m, hm⟩ := mem_keys.mp (mem_keys_collect.mpr hk)
    rw [get?_eq_some.mpr hm] at hval
    rw [← hval]
    exact hm

/-! ## The first value of each key -/

/-- Sets every key that is not there yet, as `setdefault(key, value)`. -/
def firsts (pairs : List (κ × α)) : Dict κ α :=
  pairs.foldl (fun d p => d.setDefault p.1 p.2) empty

theorem mem_firsts_aux (pairs : List (κ × α)) : ∀ (d : Dict κ α) (k : κ) (a : α),
    (k, a) ∈ (pairs.foldl (fun d p => d.setDefault p.1 p.2) d).entries ↔
      (k, a) ∈ d.entries ∨ (k ∉ d.keys ∧ pairs.find? (fun p => p.1 = k) = some (k, a)) := by
  induction pairs with
  | nil => intro d k a; simp
  | cons p rest ih =>
    intro d k a
    rw [List.foldl_cons, ih, mem_entries_setDefault, mem_keys_setDefault]
    by_cases hk : p.1 = k
    · rw [List.find?_cons_of_pos (by simpa using hk)]
      constructor
      · rintro ((hm | ⟨hnk, _, rfl⟩) | ⟨hnk, _⟩)
        · exact Or.inl hm
        · exact Or.inr ⟨hk ▸ hnk, congrArg some (Prod.ext hk rfl)⟩
        · exact absurd (Or.inl hk.symm) hnk
      · rintro (hm | ⟨hnk, he⟩)
        · exact Or.inl (Or.inl hm)
        · have hp := Option.some.inj he
          exact Or.inl (Or.inr ⟨hk.symm ▸ hnk, hk.symm, by rw [hp]⟩)
    · rw [List.find?_cons_of_neg (by simpa using hk)]
      constructor
      · rintro ((hm | ⟨_, he, _⟩) | ⟨hnk, hf⟩)
        · exact Or.inl hm
        · exact absurd he.symm hk
        · exact Or.inr ⟨fun hd => hnk (Or.inr hd), hf⟩
      · rintro (hm | ⟨hnk, hf⟩)
        · exact Or.inl (Or.inl hm)
        · exact Or.inr ⟨fun hd => hd.elim (fun he => hk he.symm) hnk, hf⟩

theorem mem_firsts {pairs : List (κ × α)} {k : κ} {a : α} :
    (k, a) ∈ (firsts pairs).entries ↔ pairs.find? (fun p => p.1 = k) = some (k, a) := by
  rw [firsts, mem_firsts_aux]
  simp [empty, keys]

theorem firsts_sublist_aux {pairs : List (κ × α)} {d : Dict κ α} :
    (pairs.foldl (fun d p => d.setDefault p.1 p.2) d).entries.Sublist (d.entries ++ pairs) := by
  induction pairs generalizing d with
  | nil => simp
  | cons p rest ih =>
    rw [List.foldl_cons]
    refine ih.trans ?_
    unfold setDefault
    split
    · exact List.Sublist.append (List.Sublist.refl _) (List.sublist_cons_self _ _)
    · simp [append]

theorem firsts_sublist (pairs : List (κ × α)) : (firsts pairs).entries.Sublist pairs :=
  firsts_sublist_aux

theorem find?_firsts_aux {pairs : List (κ × α)} {d : Dict κ α} (q : κ → Bool) :
    (pairs.foldl (fun d p => d.setDefault p.1 p.2) d).entries.find? (fun p => q p.1) =
      (d.entries ++ pairs).find? fun p => q p.1 := by
  induction pairs generalizing d with
  | nil => simp
  | cons p rest ih =>
    rw [List.foldl_cons, ih]
    unfold setDefault
    split
    · next hk =>
      rw [List.find?_append, List.find?_append]
      cases hfind : d.entries.find? fun p => q p.1 with
      | some e => rfl
      | none =>
        -- the key is in the dictionary, where nothing satisfies `q`
        obtain ⟨a, ha⟩ := mem_keys.mp hk
        have hnot : ¬ q p.1 = true := List.find?_eq_none.mp hfind (p.1, a) ha
        rw [Bool.not_eq_true] at hnot
        rw [List.find?_cons, hnot]
    · simp [append]

/-- A search for keys does not see that the later values of a key are missing. -/
theorem find?_firsts (pairs : List (κ × α)) (q : κ → Bool) :
    (firsts pairs).entries.find? (fun p => q p.1) = pairs.find? fun p => q p.1 :=
  find?_firsts_aux q

/-- The entries of one key: there is one or none. -/
theorem filter_key (d : Dict κ α) (k : κ) :
    d.entries.filter (fun p => p.1 = k) = ((d.get? k).map fun a => (k, a)).toList := by
  cases hk : d.get? k with
  | none =>
    refine List.filter_eq_nil_iff.mpr fun p hp => ?_
    rw [decide_eq_true_eq]
    rintro rfl
    exact get?_eq_none.mp hk (mem_keys.mpr ⟨p.2, hp⟩)
  | some a =>
    have hmem := get?_eq_some.mp hk
    have hnodup : (d.entries.filter fun p => p.1 = k).Nodup := (List.Nodup.of_map _ d.nodup).filter _
    refine List.perm_singleton.mp ((List.perm_ext_iff_of_nodup hnodup (List.nodup_singleton _)).mpr fun p => ?_)
    rw [List.mem_filter, List.mem_singleton, decide_eq_true_eq]
    constructor
    · rintro ⟨hp, rfl⟩
      exact Prod.ext rfl (value_unique hp hmem)
    · rintro rfl
      exact ⟨hmem, rfl⟩

/-! ## Mapping and sorting -/

/-- Keeps the keys for which the function gives a value. -/
def filterMap {β : Type*} (d : Dict κ α) (f : κ → α → Option β) : Dict κ β where
  entries := d.entries.filterMap (fun p => (f p.1 p.2).map (fun b => (p.1, b)))
  nodup := by
    have hsub : ((d.entries.filterMap (fun p => (f p.1 p.2).map (fun b => (p.1, b)))).map
        Prod.fst).Sublist (d.entries.map Prod.fst) := by
      induction d.entries with
      | nil => exact List.Sublist.slnil
      | cons p rest ih =>
        cases hf : f p.1 p.2 with
        | none =>
          rw [List.filterMap_cons_none (by rw [hf]; rfl), List.map_cons]
          exact ih.cons _
        | some b =>
          rw [List.filterMap_cons_some (b := (p.1, b)) (by rw [hf]; rfl), List.map_cons,
            List.map_cons]
          exact ih.cons_cons _
    exact d.nodup.sublist hsub

omit [DecidableEq κ] in
theorem mem_filterMap {β : Type*} {d : Dict κ α} {f : κ → α → Option β} {k : κ} {b : β} :
    (k, b) ∈ (d.filterMap f).entries ↔ ∃ a, (k, a) ∈ d.entries ∧ f k a = some b := by
  simp only [filterMap, List.mem_filterMap, Option.map_eq_some_iff, Prod.mk.injEq, Prod.exists]
  constructor
  · rintro ⟨j, a, hm, c, hf, rfl, rfl⟩
    exact ⟨a, hm, hf⟩
  · rintro ⟨a, hm, hf⟩
    exact ⟨k, a, hm, b, hf, rfl, rfl⟩

/-- The dictionary with its entries in another order. -/
def permute (d : Dict κ α) (entries : List (κ × α)) (h : entries.Perm d.entries) : Dict κ α where
  entries := entries
  nodup := ((h.map Prod.fst).nodup_iff).mpr d.nodup

/-- `dict(sorted(d.items()))` on the keys. -/
def sortByKey [LinearOrder κ] (d : Dict κ α) : Dict κ α :=
  d.permute (orderBy Prod.fst d.entries) (perm_orderBy Prod.fst d.entries)

omit [DecidableEq κ] in
@[simp] theorem mem_sortByKey [LinearOrder κ] {d : Dict κ α} {p : κ × α} :
    p ∈ d.sortByKey.entries ↔ p ∈ d.entries :=
  (perm_orderBy Prod.fst d.entries).mem_iff

/-! ## Removing a key -/

/-- `pop`: the dictionary without the key. -/
def erase (d : Dict κ α) (k : κ) : Dict κ α where
  entries := d.entries.filter (fun p => p.1 ≠ k)
  nodup := d.nodup.sublist (List.filter_sublist.map _)

theorem keys_erase (d : Dict κ α) (k : κ) : (d.erase k).keys = d.keys.filter (· ≠ k) := by
  simp only [keys, erase, List.filter_map]
  rfl

theorem mem_keys_erase {d : Dict κ α} {k j : κ} : j ∈ (d.erase k).keys ↔ j ∈ d.keys ∧ j ≠ k := by
  rw [keys_erase]
  simp

/-- Taking a key out and putting it in front is a permutation of the keys. -/
theorem perm_cons_erase {d : Dict κ α} {k : κ} (h : k ∈ d.keys) :
    (k :: (d.erase k).keys).Perm d.keys := by
  have hf : (d.keys.filter (· ≠ k)) = d.keys.erase k := by
    rw [List.Nodup.erase_eq_filter d.keys_nodup k]
    refine List.filter_congr fun x _ => ?_
    by_cases hx : x = k <;> simp [hx]
  rw [keys_erase, hf]
  exact (List.perm_cons_erase h).symm

end Dict

end Infra
