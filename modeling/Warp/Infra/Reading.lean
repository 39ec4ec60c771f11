import Mathlib.Data.List.Basic
import Mathlib.Data.Set.Basic

/-!
# Reading back what was written

Written pieces follow one another without a mark of where each one ends. A piece is readable among
others when a text that begins with it can begin with no other of them.
-/

namespace Infra

variable {τ α : Type*}

/-- The text is at its end, or goes on with a character that stops. -/
def Stops (stop : τ → Prop) (s : List τ) : Prop := ∀ c ∈ s.head?, stop c

/-- A text that begins with `x` and one that begins with a piece of `L` differ, unless the piece is
`x` and the rests are the same. -/
def Reads (stop : τ → Prop) (L : Set (List τ)) (x : List τ) : Prop :=
  ∀ y ∈ L, ∀ s t, Stops stop s → Stops stop t → x ++ s = y ++ t → x = y ∧ s = t

section

variable {stop : τ → Prop} {L : Set (List τ)}

@[simp] theorem stops_nil : Stops stop [] := by simp [Stops]

@[simp] theorem stops_cons {c : τ} {s : List τ} : Stops stop (c :: s) ↔ stop c := by simp [Stops]

/-- A run of characters that do not stop is read up to the first one that does. -/
theorem read_run {x y s t : List τ} (hx : ∀ c ∈ x, ¬ stop c) (hy : ∀ c ∈ y, ¬ stop c)
    (hs : Stops stop s) (ht : Stops stop t) (h : x ++ s = y ++ t) : x = y ∧ s = t := by
  induction x generalizing y with
  | nil =>
    cases y with
    | nil => exact ⟨rfl, h⟩
    | cons c y =>
      rw [show s = c :: (y ++ t) from h, stops_cons] at hs
      exact absurd hs (hy c List.mem_cons_self)
  | cons c x ih =>
    cases y with
    | nil =>
      rw [show t = c :: (x ++ s) from h.symm, stops_cons] at ht
      exact absurd ht (hx c List.mem_cons_self)
    | cons d y =>
      obtain ⟨rfl, hrest⟩ := List.cons.inj h
      obtain ⟨rfl, hst⟩ := ih (fun c hc => hx c (List.mem_cons_of_mem _ hc))
        (fun c hc => hy c (List.mem_cons_of_mem _ hc)) hrest
      exact ⟨rfl, hst⟩

/-! ## Codes -/

/-- A code that a reader takes apart: from the code of `a` and what follows it gets both. The mark
begins no code. -/
structure MarkedCode (f : α → List τ) (mark : τ) where
  read : List τ → Option (α × List τ)
  read_code : ∀ a s, read (f a ++ s) = some (a, s)
  read_mark : ∀ s, read (mark :: s) = none

/-- Codes up to the mark are read one by one. -/
theorem MarkedCode.read_all {f : α → List τ} {mark : τ} (code : MarkedCode f mark) {l m : List α}
    {s t : List τ} (h : l.flatMap f ++ mark :: s = m.flatMap f ++ mark :: t) : l = m ∧ s = t := by
  have hnone : ∀ {a : α} {rest u : List τ}, f a ++ rest = mark :: u → False := by
    intro a rest u he
    have hread := code.read_code a rest
    rw [he, code.read_mark] at hread
    exact absurd hread (by simp)
  induction l generalizing m with
  | nil =>
    cases m with
    | nil => exact ⟨rfl, (List.cons.inj h).2⟩
    | cons b m =>
      rw [List.flatMap_cons, List.append_assoc] at h
      exact (hnone h.symm).elim
  | cons a l ih =>
    cases m with
    | nil =>
      rw [List.flatMap_cons, List.append_assoc] at h
      exact (hnone h).elim
    | cons b m =>
      rw [List.flatMap_cons, List.flatMap_cons, List.append_assoc, List.append_assoc] at h
      have hread := code.read_code a (l.flatMap f ++ mark :: s)
      rw [h, code.read_code] at hread
      obtain ⟨rfl, hrest⟩ := Prod.mk.inj (Option.some.inj hread)
      obtain ⟨rfl, hst⟩ := ih hrest.symm
      exact ⟨rfl, hst⟩

/-! ## Lists of pieces -/

theorem stops_tail {sep close : τ} (hsep : stop sep) (hclose : stop close) (xs : List (List τ))
    (s : List τ) : Stops stop (xs.flatMap (sep :: ·) ++ close :: s) := by
  cases xs with
  | nil => exact stops_cons.mpr hclose
  | cons x xs => exact stops_cons.mpr hsep

/-- Further pieces, each after a separator, up to the closing character. -/
theorem read_tail {sep close : τ} (hsep : stop sep) (hclose : stop close) (hne : sep ≠ close)
    {xs ys : List (List τ)} (hxs : ∀ x ∈ xs, Reads stop L x) (hys : ∀ y ∈ ys, y ∈ L) {s t : List τ}
    (h : xs.flatMap (sep :: ·) ++ close :: s = ys.flatMap (sep :: ·) ++ close :: t) :
    xs = ys ∧ s = t := by
  induction xs generalizing ys with
  | nil =>
    cases ys with
    | nil => exact ⟨rfl, (List.cons.inj h).2⟩
    | cons y ys => exact absurd (List.cons.inj h).1.symm hne
  | cons x xs ih =>
    cases ys with
    | nil => exact absurd (List.cons.inj h).1 hne
    | cons y ys =>
      simp only [List.flatMap_cons, List.cons_append, List.append_assoc, List.cons.injEq,
        true_and] at h
      obtain ⟨rfl, hrest⟩ := hxs x List.mem_cons_self y (hys y List.mem_cons_self) _ _
        (stops_tail hsep hclose xs s) (stops_tail hsep hclose ys t) h
      obtain ⟨rfl, hst⟩ := ih (fun x hx => hxs x (List.mem_cons_of_mem _ hx))
        (fun y hy => hys y (List.mem_cons_of_mem _ hy)) hrest
      exact ⟨rfl, hst⟩

theorem intercalate_cons (sep : τ) (x : List τ) (xs : List (List τ)) :
    [sep].intercalate (x :: xs) = x ++ xs.flatMap (sep :: ·) := by
  induction xs generalizing x with
  | nil => simp [List.intercalate]
  | cons y ys ih =>
    rw [List.flatMap_cons, List.cons_append, ← ih y]
    simp [List.intercalate]

/-- Separated pieces up to the closing character, which begins none of them. -/
theorem read_separated {sep close : τ} (hsep : stop sep) (hclose : stop close) (hne : sep ≠ close)
    (hbegin : ∀ y ∈ L, ∀ s t, y ++ s ≠ close :: t) {xs ys : List (List τ)}
    (hxs : ∀ x ∈ xs, Reads stop L x ∧ x ∈ L) (hys : ∀ y ∈ ys, y ∈ L) {s t : List τ}
    (h : [sep].intercalate xs ++ close :: s = [sep].intercalate ys ++ close :: t) :
    xs = ys ∧ s = t := by
  cases xs with
  | nil =>
    cases ys with
    | nil => exact ⟨rfl, (List.cons.inj h).2⟩
    | cons y ys =>
      rw [intercalate_cons, List.append_assoc] at h
      exact absurd h.symm (hbegin y (hys y List.mem_cons_self) _ _)
  | cons x xs =>
    cases ys with
    | nil =>
      rw [intercalate_cons, List.append_assoc] at h
      exact absurd h (hbegin x (hxs x List.mem_cons_self).2 _ _)
    | cons y ys =>
      rw [intercalate_cons, intercalate_cons, List.append_assoc, List.append_assoc] at h
      obtain ⟨rfl, hrest⟩ := (hxs x List.mem_cons_self).1 y (hys y List.mem_cons_self) _ _
        (stops_tail hsep hclose xs s) (stops_tail hsep hclose ys t) h
      obtain ⟨rfl, hst⟩ := read_tail hsep hclose hne
        (fun x hx => (hxs x (List.mem_cons_of_mem _ hx)).1)
        (fun y hy => hys y (List.mem_cons_of_mem _ hy)) hrest
      exact ⟨rfl, hst⟩

end

end Infra
