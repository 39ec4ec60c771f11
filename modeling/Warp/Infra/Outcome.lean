import Mathlib.Data.List.Forall2

/-!
# Computations that may raise

`Except` with the rules that take a successful computation apart.
-/

namespace Infra

variable {ε α β γ δ : Type*}

/-! ## One step -/

theorem bind_eq_ok {α β : Type} {x : Except ε α} {f : α → Except ε β} {b : β} :
    (x >>= f) = .ok b ↔ ∃ a, x = .ok a ∧ f a = .ok b := by
  cases x with
  | error e => simp [bind, Except.bind]
  | ok a => simp [bind, Except.bind]

theorem bind_eq_error {α β : Type} {x : Except ε α} {f : α → Except ε β} {e : ε} :
    (x >>= f) = .error e ↔ x = .error e ∨ ∃ a, x = .ok a ∧ f a = .error e := by
  cases x with
  | error e => simp [bind, Except.bind]
  | ok a => simp [bind, Except.bind]

theorem exceptMap_eq_ok {x : Except ε α} {f : α → β} {b : β} :
    x.map f = .ok b ↔ ∃ a, x = .ok a ∧ f a = b := by
  cases x with
  | error e => simp [Except.map]
  | ok a => simp [Except.map]

theorem mapError_eq_ok {ε' : Type} {x : Except ε α} {f : ε → ε'} {a : α} :
    x.mapError f = .ok a ↔ x = .ok a := by
  cases x <;> simp [Except.mapError]

theorem exceptMap_eq_error {x : Except ε α} {f : α → β} {e : ε} :
    x.map f = .error e ↔ x = .error e := by
  cases x with
  | error e => simp [Except.map]
  | ok a => simp [Except.map]

@[simp] theorem pure_eq_ok {α : Type} {a b : α} :
    (pure a : Except ε α) = .ok b ↔ a = b := by
  simp [pure, Except.pure]

/-- Raises unless the condition holds. -/
def ensure (p : Bool) (e : ε) : Except ε Unit := if p then .ok () else .error e

@[simp] theorem ensure_eq_ok {p : Bool} {e : ε} {u : Unit} : ensure p e = .ok u ↔ p = true := by
  cases p <;> simp [ensure]

theorem ensure_eq_error {p : Bool} {e e' : ε} (h : ensure p e = .error e') : e' = e := by
  cases p with
  | true => cases h
  | false =>
    cases h
    rfl

/-- The result of a lookup, or an error. -/
def orRaise (x : Option α) (e : ε) : Except ε α :=
  match x with
  | some a => .ok a
  | none => .error e

@[simp] theorem orRaise_eq_ok {x : Option α} {e : ε} {a : α} :
    orRaise x e = .ok a ↔ x = some a := by
  cases x <;> simp [orRaise]

theorem orRaise_eq_error {x : Option α} {e e' : ε} (h : orRaise x e = .error e') : e' = e := by
  cases x with
  | none =>
    cases h
    rfl
  | some a => cases h

/-- A search raises what one of its tests raises. -/
theorem anyM_eq_error {α : Type} {f : α → Except ε Bool} {l : List α} {e : ε}
    (h : l.anyM f = .error e) : ∃ a ∈ l, f a = .error e := by
  induction l with
  | nil => cases h
  | cons a l ih =>
    rw [List.anyM, bind_eq_error] at h
    rcases h with h | ⟨b, _, h⟩
    · exact ⟨a, List.mem_cons_self, h⟩
    · cases b with
      | true => cases h
      | false =>
        obtain ⟨x, hx, he⟩ := ih h
        exact ⟨x, List.mem_cons_of_mem _ hx, he⟩

theorem anyM_of_ok {α : Type} {f : α → Except ε Bool} {g : α → Bool} {l : List α}
    (h : ∀ a ∈ l, f a = .ok (g a)) : l.anyM f = .ok (l.any g) := by
  induction l with
  | nil => rfl
  | cons a l ih =>
    have hrest := ih fun x hx => h x (List.mem_cons_of_mem _ hx)
    rw [List.anyM, h a List.mem_cons_self, List.any_cons]
    cases g a with
    | true => rfl
    | false => exact hrest

theorem anyM_cons_error {α : Type} {f : α → Except ε Bool} {a : α} {l : List α} {e : ε}
    (h : f a = .error e) : (a :: l).anyM f = .error e := by
  rw [List.anyM, h]
  rfl

/-! ## Traversals -/

/-- Runs a step on every element and collects the results. The first error ends the traversal. -/
def traverseAll (f : α → Except ε β) : List α → Except ε (List β)
  | [] => .ok []
  | a :: l =>
    match f a with
    | .error e => .error e
    | .ok b =>
      match traverseAll f l with
      | .error e => .error e
      | .ok bs => .ok (b :: bs)

@[simp] theorem traverseAll_nil (f : α → Except ε β) : traverseAll f [] = .ok [] := rfl

theorem traverseAll_cons (f : α → Except ε β) (a : α) (l : List α) : traverseAll f (a :: l) =
    match f a with
    | .error e => .error e
    | .ok b =>
      match traverseAll f l with
      | .error e => .error e
      | .ok bs => .ok (b :: bs) := rfl

theorem traverseAll_cons_eq_ok {f : α → Except ε β} {a : α} {l : List α} {cs : List β} :
    traverseAll f (a :: l) = .ok cs ↔
      ∃ b bs, f a = .ok b ∧ traverseAll f l = .ok bs ∧ cs = b :: bs := by
  rw [traverseAll_cons]
  constructor
  · intro h
    cases hb : f a with
    | error e =>
      rw [hb] at h
      cases h
    | ok b =>
      rw [hb] at h
      cases hbs : traverseAll f l with
      | error e =>
        rw [hbs] at h
        cases h
      | ok bs =>
        rw [hbs] at h
        exact ⟨b, bs, rfl, rfl, (Except.ok.inj h).symm⟩
  · rintro ⟨b, bs, hb, hbs, rfl⟩
    rw [hb, hbs]

theorem traverseAll_cons_eq_error {f : α → Except ε β} {a : α} {l : List α} {e : ε} :
    traverseAll f (a :: l) = .error e ↔
      f a = .error e ∨ ∃ b, f a = .ok b ∧ traverseAll f l = .error e := by
  rw [traverseAll_cons]
  cases f a with
  | error e' => simp
  | ok b =>
    cases traverseAll f l with
    | error e' => simp
    | ok bs => simp

theorem traverseAll_eq_ok {f : α → Except ε β} {l : List α} {bs : List β} :
    traverseAll f l = .ok bs ↔ List.Forall₂ (fun a b => f a = .ok b) l bs := by
  induction l generalizing bs with
  | nil => simp [eq_comm]
  | cons a l ih =>
    rw [traverseAll_cons_eq_ok, List.forall₂_cons_left_iff]
    constructor
    · rintro ⟨b, cs, hb, hcs, rfl⟩
      exact ⟨b, cs, hb, ih.mp hcs, rfl⟩
    · rintro ⟨b, cs, hb, hcs, rfl⟩
      exact ⟨b, cs, hb, ih.mpr hcs, rfl⟩

theorem traverseAll_congr {f g : α → Except ε β} {l : List α} (h : ∀ a ∈ l, f a = g a) :
    traverseAll f l = traverseAll g l := by
  induction l with
  | nil => rfl
  | cons a l ih =>
    have ha := h a List.mem_cons_self
    have hl := ih fun b hb => h b (List.mem_cons_of_mem _ hb)
    rw [traverseAll_cons, traverseAll_cons, ha, hl]

/-- A traversal succeeds when every step does. -/
theorem exists_traverseAll_eq_ok {f : α → Except ε β} {l : List α} :
    (∃ bs, traverseAll f l = .ok bs) ↔ ∀ a ∈ l, ∃ b, f a = .ok b := by
  induction l with
  | nil => simp
  | cons a l ih =>
    rw [List.forall_mem_cons, ← ih]
    constructor
    · rintro ⟨cs, h⟩
      obtain ⟨b, bs, hb, hbs, rfl⟩ := traverseAll_cons_eq_ok.mp h
      exact ⟨⟨b, hb⟩, bs, hbs⟩
    · rintro ⟨⟨b, hb⟩, bs, hbs⟩
      exact ⟨b :: bs, traverseAll_cons_eq_ok.mpr ⟨b, bs, hb, hbs, rfl⟩⟩

theorem mem_of_traverseAll {f : α → Except ε β} {l : List α} {bs : List β}
    (h : traverseAll f l = .ok bs) {b : β} (hb : b ∈ bs) : ∃ a ∈ l, f a = .ok b := by
  have h' := traverseAll_eq_ok.mp h
  clear h
  induction h' with
  | nil => simp at hb
  | cons hab _ ih =>
    rcases List.mem_cons.mp hb with rfl | hb
    · exact ⟨_, List.mem_cons_self, hab⟩
    · obtain ⟨a, ha, hf⟩ := ih hb
      exact ⟨a, List.mem_cons_of_mem _ ha, hf⟩

theorem traverseAll_mem {f : α → Except ε β} {l : List α} {bs : List β}
    (h : traverseAll f l = .ok bs) {a : α} (ha : a ∈ l) : ∃ b ∈ bs, f a = .ok b := by
  have h' := traverseAll_eq_ok.mp h
  clear h
  induction h' with
  | nil => simp at ha
  | cons hab _ ih =>
    rcases List.mem_cons.mp ha with rfl | ha
    · exact ⟨_, List.mem_cons_self, hab⟩
    · obtain ⟨b, hb, hf⟩ := ih ha
      exact ⟨b, List.mem_cons_of_mem _ hb, hf⟩

/-- Two functions whose results look alike give lists that look alike. -/
theorem traverseAll_alike {f f' : α → Except ε β} {g : β → δ} {l : List α}
    {bs bs' : List β} (h : ∀ a ∈ l, ∀ b b', f a = .ok b → f' a = .ok b' → g b = g b')
    (hf : traverseAll f l = .ok bs) (hf' : traverseAll f' l = .ok bs') :
    bs.map g = bs'.map g := by
  induction l generalizing bs bs' with
  | nil =>
    cases hf
    cases hf'
    rfl
  | cons a l ih =>
    obtain ⟨b, cs, hb, hcs, rfl⟩ := traverseAll_cons_eq_ok.mp hf
    obtain ⟨b', cs', hb', hcs', rfl⟩ := traverseAll_cons_eq_ok.mp hf'
    rw [List.map_cons, List.map_cons, h a List.mem_cons_self b b' hb hb',
      ih (fun x hx => h x (List.mem_cons_of_mem _ hx)) hcs hcs']

/-- A view of the results that the steps determine. -/
theorem traverseAll_view {f : α → Except ε β} {g : β → δ} {k : α → δ} {l : List α} {bs : List β}
    (h : traverseAll f l = .ok bs) (hk : ∀ a ∈ l, ∀ b, f a = .ok b → g b = k a) :
    bs.map g = l.map k := by
  induction l generalizing bs with
  | nil =>
    cases h
    rfl
  | cons a l ih =>
    obtain ⟨b, rest, hb, hrest, rfl⟩ := traverseAll_cons_eq_ok.mp h
    rw [List.map_cons, List.map_cons, hk a List.mem_cons_self b hb,
      ih hrest fun c hc => hk c (List.mem_cons_of_mem _ hc)]

/-- A restriction that can be read off the results as well. -/
theorem traverseAll_filter {f : α → Except ε β} {p : α → Bool} {q : β → Bool} {l : List α}
    {bs : List β} (h : traverseAll f l = .ok bs) (hpq : ∀ a ∈ l, ∀ b, f a = .ok b → p a = q b) :
    traverseAll f (l.filter p) = .ok (bs.filter q) := by
  induction l generalizing bs with
  | nil =>
    cases h
    rfl
  | cons a l ih =>
    obtain ⟨b, bs, hb, hbs, rfl⟩ := traverseAll_cons_eq_ok.mp h
    have hrest := ih hbs fun x hx => hpq x (List.mem_cons_of_mem _ hx)
    have hp := hpq a List.mem_cons_self b hb
    by_cases hq : q b = true
    · rw [List.filter_cons_of_pos (hp.trans hq), List.filter_cons_of_pos hq]
      exact traverseAll_cons_eq_ok.mpr ⟨b, _, hb, hrest, rfl⟩
    · rw [List.filter_cons_of_neg (by rw [hp]; exact hq), List.filter_cons_of_neg hq]
      exact hrest

/-- In another order the same results come in that order. -/
theorem traverseAll_perm {f : α → Except ε β} {l m : List α} (h : l.Perm m) {bs : List β}
    (hl : traverseAll f l = .ok bs) : ∃ cs, traverseAll f m = .ok cs ∧ bs.Perm cs := by
  induction h generalizing bs with
  | nil => exact ⟨bs, hl, List.Perm.refl bs⟩
  | cons a _ ih =>
    obtain ⟨b, rest, ha, hrest, rfl⟩ := traverseAll_cons_eq_ok.mp hl
    obtain ⟨cs, hcs, hperm⟩ := ih hrest
    exact ⟨b :: cs, traverseAll_cons_eq_ok.mpr ⟨b, cs, ha, hcs, rfl⟩, hperm.cons b⟩
  | swap a b _ =>
    obtain ⟨x, tail, hx, htail, rfl⟩ := traverseAll_cons_eq_ok.mp hl
    obtain ⟨y, rest, hy, hrest, rfl⟩ := traverseAll_cons_eq_ok.mp htail
    refine ⟨y :: x :: rest, traverseAll_cons_eq_ok.mpr ⟨y, x :: rest, hy, ?_, rfl⟩, .swap y x rest⟩
    exact traverseAll_cons_eq_ok.mpr ⟨x, rest, hx, hrest, rfl⟩
  | trans _ _ ih ih' =>
    obtain ⟨cs, hcs, hperm⟩ := ih hl
    obtain ⟨ds, hds, hperm'⟩ := ih' hcs
    exact ⟨ds, hds, hperm.trans hperm'⟩

/-- A relation between the elements that carries over to their results. -/
theorem traverseAll_pairwise {f : α → Except ε β} {r : α → α → Prop} {s : β → β → Prop}
    {l : List α} {bs : List β} (h : traverseAll f l = .ok bs) (hp : l.Pairwise r)
    (hrs : ∀ a ∈ l, ∀ a' ∈ l, ∀ b b', r a a' → f a = .ok b → f a' = .ok b' → s b b') :
    bs.Pairwise s := by
  induction l generalizing bs with
  | nil =>
    cases h
    exact List.Pairwise.nil
  | cons a l ih =>
    obtain ⟨hr, hl⟩ := List.pairwise_cons.mp hp
    obtain ⟨b, bs, hb, hbs, rfl⟩ := traverseAll_cons_eq_ok.mp h
    refine List.pairwise_cons.mpr ⟨fun b' hb' => ?_, ?_⟩
    · obtain ⟨a', ha', hf⟩ := mem_of_traverseAll hbs hb'
      exact hrs a List.mem_cons_self a' (List.mem_cons_of_mem _ ha') b b' (hr a' ha') hb hf
    · refine ih hbs hl fun x hx y hy => ?_
      exact hrs x (List.mem_cons_of_mem _ hx) y (List.mem_cons_of_mem _ hy)

/-- A restriction that drops whole parts of the collected result. -/
theorem traverseAll_filter_flatten {f : α → Except ε (List β)} {p : α → Bool} {q : β → Bool}
    {l : List α} {bs : List (List β)} (h : traverseAll f l = .ok bs)
    (hpq : ∀ a ∈ l, ∀ b, f a = .ok b → ∀ r ∈ b, q r = p a) :
    ∃ cs, traverseAll f (l.filter p) = .ok cs ∧ cs.flatten = bs.flatten.filter q := by
  induction l generalizing bs with
  | nil =>
    cases h
    exact ⟨[], rfl, rfl⟩
  | cons a l ih =>
    obtain ⟨b, bs, hb, hbs, rfl⟩ := traverseAll_cons_eq_ok.mp h
    obtain ⟨cs, hcs, hflat⟩ := ih hbs fun x hx => hpq x (List.mem_cons_of_mem _ hx)
    have hq := hpq a List.mem_cons_self b hb
    rw [List.flatten_cons, List.filter_append, ← hflat]
    by_cases hp : p a = true
    · have hall : b.filter q = b := List.filter_eq_self.mpr fun r hr => (hq r hr).trans hp
      rw [List.filter_cons_of_pos hp, hall]
      exact ⟨b :: cs, traverseAll_cons_eq_ok.mpr ⟨b, cs, hb, hcs, rfl⟩, rfl⟩
    · have hnone : b.filter q = [] :=
        List.filter_eq_nil_iff.mpr fun r hr => by rw [hq r hr]; exact hp
      rw [List.filter_cons_of_neg hp, hnone]
      exact ⟨cs, hcs, rfl⟩

/-- Steps whose results are mapped afterwards. -/
theorem traverseAll_map_result {f : α → Except ε β} (g : β → δ) {l : List α} :
    traverseAll (fun a => (f a).map g) l = (traverseAll f l).map (List.map g) := by
  induction l with
  | nil => rfl
  | cons a l ih =>
    rw [traverseAll_cons, traverseAll_cons, ih]
    cases f a with
    | error e => rfl
    | ok b => cases traverseAll f l <;> rfl

theorem traverseAll_map {f : β → Except ε δ} (g : α → β) {l : List α} :
    traverseAll f (l.map g) = traverseAll (fun a => f (g a)) l := by
  induction l with
  | nil => rfl
  | cons a l ih => rw [List.map_cons, traverseAll_cons, traverseAll_cons, ih]

/-- The error of a traversal is the one of the first step that fails. -/
theorem traverseAll_first_error {f : α → Except ε β} {e : ε} {l : List α}
    (h : traverseAll f l = .error e) :
    ∃ pre a post, l = pre ++ a :: post ∧ f a = .error e ∧ ∀ x ∈ pre, ∃ b, f x = .ok b := by
  induction l with
  | nil => simp at h
  | cons a l ih =>
    rcases traverseAll_cons_eq_error.mp h with ha | ⟨b, ha, hl⟩
    · exact ⟨[], a, l, rfl, ha, by simp⟩
    · obtain ⟨pre, x, post, rfl, hx, hpre⟩ := ih hl
      exact ⟨a :: pre, x, post, rfl, hx, List.forall_mem_cons.mpr ⟨⟨b, ha⟩, hpre⟩⟩

theorem traverseAll_eq_error {f : α → Except ε β} {e : ε} {l : List α}
    (h : traverseAll f l = .error e) : ∃ a ∈ l, f a = .error e := by
  obtain ⟨pre, a, post, rfl, ha, _⟩ := traverseAll_first_error h
  exact ⟨a, by simp, ha⟩

/-! ## Folds over a state -/

/-- Threads a state through a list of steps. -/
def runAll (step : γ → α → Except ε γ) : γ → List α → Except ε γ
  | s, [] => .ok s
  | s, a :: l =>
    match step s a with
    | .error e => .error e
    | .ok s' => runAll step s' l

@[simp] theorem runAll_nil (step : γ → α → Except ε γ) (s : γ) : runAll step s [] = .ok s := rfl

theorem runAll_step {step : γ → α → Except ε γ} {s : γ} {a : α} {l : List α} :
    runAll step s (a :: l) = match step s a with
      | .error e => .error e
      | .ok s' => runAll step s' l := rfl

theorem runAll_cons {step : γ → α → Except ε γ} {s t : γ} {a : α} {l : List α} :
    runAll step s (a :: l) = .ok t ↔ ∃ u, step s a = .ok u ∧ runAll step u l = .ok t := by
  rw [runAll_step]
  constructor
  · intro h
    cases hu : step s a with
    | error e =>
      rw [hu] at h
      cases h
    | ok u =>
      rw [hu] at h
      exact ⟨u, rfl, h⟩
  · rintro ⟨u, hu, h⟩
    rw [hu]
    exact h

/-- What every step of the list preserves, the run preserves. -/
theorem runAll_invariant {step : γ → α → Except ε γ} {I : γ → Prop} {l : List α} {s t : γ}
    (hstep : ∀ a ∈ l, ∀ u v, I u → step u a = .ok v → I v) (hs : I s)
    (h : runAll step s l = .ok t) : I t := by
  induction l generalizing s with
  | nil =>
    cases h
    exact hs
  | cons a l ih =>
    obtain ⟨u, hu, hl⟩ := runAll_cons.mp h
    refine ih (fun b hb => hstep b (List.mem_cons_of_mem _ hb)) ?_ hl
    exact hstep a List.mem_cons_self s u hs hu

/-- A run succeeds if every step does from the states it can come to. -/
theorem exists_runAll_eq_ok {step : γ → α → Except ε γ} {I : γ → Prop} {l : List α} {s : γ}
    (hstep : ∀ a ∈ l, ∀ u, I u → ∃ v, step u a = .ok v ∧ I v) (hs : I s) :
    ∃ t, runAll step s l = .ok t := by
  induction l generalizing s with
  | nil => exact ⟨s, rfl⟩
  | cons a l ih =>
    obtain ⟨u, hu, hI⟩ := hstep a List.mem_cons_self s hs
    obtain ⟨t, ht⟩ := ih (fun b hb => hstep b (List.mem_cons_of_mem _ hb)) hI
    exact ⟨t, runAll_cons.mpr ⟨u, hu, ht⟩⟩

/-- What every step preserves together with the steps already done, the run preserves. -/
theorem runAll_prefix {step : γ → α → Except ε γ} {I : List α → γ → Prop} {l : List α} {s t : γ}
    (hstep : ∀ done, ∀ a ∈ l, ∀ u v, I done u → step u a = .ok v → I (done ++ [a]) v)
    (hs : I [] s) (h : runAll step s l = .ok t) : I l t := by
  have hrun : ∀ m done u, (∀ a ∈ m, a ∈ l) → I done u → runAll step u m = .ok t →
      I (done ++ m) t := by
    intro m
    induction m with
    | nil =>
      intro done u _ hI hrun
      cases hrun
      rw [List.append_nil]
      exact hI
    | cons a m ih =>
      intro done u hm hI hrun
      obtain ⟨v, hv, hrest⟩ := runAll_cons.mp hrun
      have hnext := ih (done ++ [a]) v (fun b hb => hm b (List.mem_cons_of_mem _ hb))
        (hstep done a (hm a List.mem_cons_self) u v hI hv) hrest
      rwa [List.append_assoc] at hnext
  exact hrun l [] s (fun _ ha => ha) hs h

/-- A run that fails does so at a step, in a state that it has come to. -/
theorem runAll_eq_error {step : γ → α → Except ε γ} {l : List α} {s : γ} {e : ε}
    (h : runAll step s l = .error e) :
    ∃ done a rest u, l = done ++ a :: rest ∧ runAll step s done = .ok u ∧ step u a = .error e := by
  induction l generalizing s with
  | nil => cases h
  | cons a l ih =>
    rw [runAll_step] at h
    split at h
    · next e' he =>
      cases h
      exact ⟨[], a, l, s, rfl, rfl, he⟩
    · next u hu =>
      obtain ⟨done, b, rest, v, rfl, hdone, hb⟩ := ih h
      exact ⟨a :: done, b, rest, v, rfl, runAll_cons.mpr ⟨u, hu, hdone⟩, hb⟩

end Infra
