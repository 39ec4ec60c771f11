import Warp.Infra.Worklist

/-!
# Numbers drawn by transactions

A statement may give the number it draws to a new row. Until the transaction commits, no other
transaction and no committed row mentions that number.
-/

namespace Infra

variable {S W O ε κ : Type*}

/-- The numbers that the rows mention, those that a write mentions, and those it gives out. -/
structure Numbering (S W : Type*) where
  known : S → Set ℕ
  mentions : W → Set ℕ
  inserts : W → Set ℕ

namespace Numbering

/-- A write mentions what its transaction sees or has just drawn, and gives out only the latter. -/
structure Respects (num : Numbering S W) (code : Code S W O ε κ) : Prop where
  apply : ∀ s x, num.known (code.apply s x) ⊆ num.known s ∪ num.mentions x
  mentions : ∀ {n rows s op more new}, code.exec n rows s op = .ok (more, new) →
    ∀ x ∈ new, ∀ i ∈ num.mentions x, i ∈ num.known s ∨ i = n
  inserts : ∀ {n rows s op more new}, code.exec n rows s op = .ok (more, new) →
    ∀ x ∈ new, ∀ i ∈ num.inserts x, i = n

structure Fresh (num : Numbering S W) (w : World S W O ε κ) : Prop where
  known : ∀ i ∈ num.known w.committed, i < w.sequence
  mentioned : ∀ {t x}, w.Pending t x → ∀ i ∈ num.mentions x, i < w.sequence
  given : ∀ {t x}, w.Pending t x → ∀ i ∈ num.inserts x, i < w.sequence
  unpublished : ∀ {t x}, w.Pending t x → ∀ i ∈ num.inserts x, i ∉ num.known w.committed
  apart : ∀ {t u x y i}, w.Pending t x → w.Pending u y → i ∈ num.inserts x → i ∈ num.mentions y →
    t = u

section

variable {num : Numbering S W} {code : Code S W O ε κ} {w : World S W O ε κ}

theorem known_foldl (hr : num.Respects code) {i : ℕ} (writes : List W) (s : S)
    (h : i ∈ num.known (writes.foldl code.apply s)) :
    i ∈ num.known s ∨ ∃ x ∈ writes, i ∈ num.mentions x := by
  induction writes generalizing s with
  | nil => exact Or.inl h
  | cons x writes ih =>
    rcases ih _ h with h | ⟨y, hy, hi⟩
    · rcases hr.apply s x h with h | h
      · exact Or.inl h
      · exact Or.inr ⟨x, List.mem_cons_self, h⟩
    · exact Or.inr ⟨y, List.mem_cons_of_mem _ hy, hi⟩

/-- What a live transaction sees mentions numbers that are drawn. -/
theorem Fresh.view_lt (h : num.Fresh w) (hr : num.Respects code) {t : ℕ} {l : Live O W}
    (hlive : w.fates[t]? = some (.live l)) {i : ℕ} (hi : i ∈ num.known (w.view code l)) :
    i < w.sequence := by
  rcases known_foldl hr _ _ hi with hi | ⟨x, hx, hi⟩
  · exact h.known i hi
  · exact h.mentioned ⟨l, hlive, hx⟩ i hi

theorem Fresh.init {s : S} {programs : List (List O)} {sequence : ℕ}
    (h : ∀ i ∈ num.known s, i < sequence) :
    num.Fresh (World.init s programs sequence : World S W O ε κ) := by
  have hnone : ∀ t x, ¬(World.init s programs sequence : World S W O ε κ).Pending t x := by
    rintro t x ⟨l, hl, hx⟩
    rw [(World.init_live hl).1] at hx
    exact absurd hx List.not_mem_nil
  exact ⟨h, fun hp => absurd hp (hnone _ _), fun hp => absurd hp (hnone _ _),
    fun hp => absurd hp (hnone _ _), fun hp => absurd hp (hnone _ _)⟩

/-- Fewer pending writes, and no number known that was not known before. -/
theorem Fresh.of_pending {w' : World S W O ε κ} (h : num.Fresh w)
    (hpending : ∀ t x, w'.Pending t x → w.Pending t x)
    (hknown : num.known w'.committed ⊆ num.known w.committed)
    (hsequence : w.sequence ≤ w'.sequence) : num.Fresh w' where
  known i hi := (h.known i (hknown hi)).trans_le hsequence
  mentioned hp i hi := (h.mentioned (hpending _ _ hp) i hi).trans_le hsequence
  given hp i hi := (h.given (hpending _ _ hp) i hi).trans_le hsequence
  unpublished hp i hi hk := h.unpublished (hpending _ _ hp) i hi (hknown hk)
  apart hp hq := h.apart (hpending _ _ hp) (hpending _ _ hq)

theorem Fresh.next [DecidableEq κ] (h : num.Fresh w) (hr : num.Respects code) (a : Action) :
    num.Fresh (w.next code a) := by
  cases (World.next_cases w a : WorldStep code w (w.next code a) a) with
  | ran t op todo more writes new live _ ok after =>
    rw [after]
    -- A pending write is an earlier one or one of the new ones.
    have hpending : ∀ u y, World.Pending { w with
        fates := w.fates.set t (.live ⟨more ++ todo, writes ++ new⟩)
        holder := w.acquire t (w.lockRows code t ⟨op :: todo, writes⟩ op)
        sequence := w.sequence + 1 } u y → w.Pending u y ∨ (u = t ∧ y ∈ new) := by
      rintro u y ⟨l, hl, hy⟩
      rcases live_set hl with ⟨rfl, hf⟩ | ⟨_, hl⟩
      · cases hf
        rcases List.mem_append.mp hy with hy | hy
        · exact Or.inl ⟨_, live, hy⟩
        · exact Or.inr ⟨rfl, hy⟩
      · exact Or.inl ⟨l, hl, hy⟩
    have hview : ∀ i, i ∈ num.known (w.view code ⟨op :: todo, writes⟩) →
        i ∈ num.known w.committed ∨ ∃ x, w.Pending t x ∧ i ∈ num.mentions x := by
      intro i hi
      rcases known_foldl hr _ _ hi with hi | ⟨x, hx, hi⟩
      · exact Or.inl hi
      · exact Or.inr ⟨x, ⟨_, live, hx⟩, hi⟩
    refine ⟨fun i hi => (h.known i hi).trans (Nat.lt_succ_self _), ?_, ?_, ?_, ?_⟩
    · intro u y hp i hi
      rcases hpending u y hp with hp | ⟨_, hy⟩
      · exact (h.mentioned hp i hi).trans (Nat.lt_succ_self _)
      · rcases hr.mentions ok y hy i hi with hi | rfl
        · exact (h.view_lt hr live hi).trans (Nat.lt_succ_self _)
        · exact Nat.lt_succ_self _
    · intro u y hp i hi
      rcases hpending u y hp with hp | ⟨_, hy⟩
      · exact (h.given hp i hi).trans (Nat.lt_succ_self _)
      · rw [hr.inserts ok y hy i hi]
        exact Nat.lt_succ_self _
    · intro u y hp i hi
      rcases hpending u y hp with hp | ⟨_, hy⟩
      · exact h.unpublished hp i hi
      · rw [hr.inserts ok y hy i hi]
        exact fun hk => lt_irrefl _ (h.known _ hk)
    · intro u v x y i hp hq hi hj
      rcases hpending u x hp with hx | ⟨rfl, hx⟩
      · rcases hpending v y hq with hy | ⟨rfl, hy⟩
        · exact h.apart hx hy hi hj
        · -- What the new write mentions is visible to its transaction, or drawn just now.
          rcases hr.mentions ok y hy i hj with hk | rfl
          · rcases hview i hk with hk | ⟨z, hz, hk⟩
            · exact absurd hk (h.unpublished hx i hi)
            · exact h.apart hx hz hi hk
          · exact absurd (h.given hx _ hi) (lt_irrefl _)
      · rcases hpending v y hq with hy | ⟨rfl, _⟩
        · rw [hr.inserts ok x hx i hi] at hj
          exact absurd (h.mentioned hy _ hj) (lt_irrefl _)
        · rfl
  | failed t _ _ _ _ _ _ after
  | rolledBack t _ _ after =>
    rw [after]
    refine h.of_pending ?_ (fun _ hi => hi) (by simp)
    rintro u y ⟨l, hl, hy⟩
    rcases live_set hl with ⟨_, hf⟩ | ⟨_, hl⟩
    · exact absurd hf (by simp)
    · exact ⟨l, hl, hy⟩
  | committed t writes live after =>
    rw [after]
    have hpending : ∀ u y, World.Pending { w with
        committed := w.view code ⟨[], writes⟩
        fates := w.fates.set t .committed
        holder := w.release t } u y → u ≠ t ∧ w.Pending u y := by
      rintro u y ⟨l, hl, hy⟩
      rcases live_set hl with ⟨_, hf⟩ | ⟨hu, hl⟩
      · exact absurd hf (by simp)
      · exact ⟨hu, l, hl, hy⟩
    refine ⟨fun i hi => h.view_lt hr live hi, fun hp => h.mentioned (hpending _ _ hp).2,
      fun hp => h.given (hpending _ _ hp).2, fun hp i hi hk => ?_,
      fun hp hq => h.apart (hpending _ _ hp).2 (hpending _ _ hq).2⟩
    obtain ⟨hu, hp⟩ := hpending _ _ hp
    rcases known_foldl hr _ _ hk with hk | ⟨y, hy, hk⟩
    · exact h.unpublished hp i hi hk
    · exact hu (h.apart hp ⟨_, live, hy⟩ hi hk)
  | waits _ after =>
    rw [after]
    exact h

end

end Numbering

end Infra
