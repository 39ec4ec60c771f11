import Warp.Infra.Worklist

/-!
# Runs without a commit in between

What a transaction has checked on the committed rows still holds at its commit, if nobody else commits
after its first statement. The serial runs are among these.
-/

namespace Infra

variable {S W O ε κ : Type*}

/-- From the first statement of a transaction to its commit nobody else commits. The transactions
`begun` have made a statement before. -/
def UndisturbedFrom : List ℕ → List Action → Prop
  | _, [] => True
  | begun, .exec t :: rest => UndisturbedFrom (t :: begun) rest
  | begun, .commit t :: rest =>
    (∀ u ∈ begun, u ≠ t → .commit u ∉ rest) ∧ UndisturbedFrom begun rest
  | begun, .rollback _ :: rest => UndisturbedFrom begun rest

abbrev Undisturbed (actions : List Action) : Prop := UndisturbedFrom [] actions

instance UndisturbedFrom.decidable : ∀ (actions : List Action) (begun : List ℕ),
    Decidable (UndisturbedFrom begun actions)
  | [], _ => isTrue trivial
  | .exec t :: rest, begun => UndisturbedFrom.decidable rest (t :: begun)
  | .commit t :: rest, begun =>
    have := UndisturbedFrom.decidable rest begun
    inferInstanceAs (Decidable ((∀ u ∈ begun, u ≠ t → .commit u ∉ rest) ∧ UndisturbedFrom begun rest))
  | .rollback _ :: rest, begun => UndisturbedFrom.decidable rest begun

variable {code : Code S W O ε κ} {w : World S W O ε κ} {begun : List ℕ} {t : ℕ}
  {I : ℕ → S → Prop} {C : ℕ → S → Live O W → Prop} {G : S → List W → Prop} {P : List O → Prop}

/-- What the transactions check, `C`, holds before they begin on all rows with `I`, their statements keep
it, and on rows for which it holds they may commit. Both may speak of the numbers that are yet to be
drawn. -/
structure Checks (code : Code S W O ε κ) (I : ℕ → S → Prop) (P : List O → Prop)
    (C : ℕ → S → Live O W → Prop) (G : S → List W → Prop) : Prop where
  start : ∀ n s todo, I n s → P todo → C n s ⟨todo, []⟩
  drawn : ∀ n s, I n s → I (n + 1) s ∧ ∀ l, C n s l → C (n + 1) s l
  exec : ∀ n rows s op todo writes more new, I n s → C n s ⟨op :: todo, writes⟩ →
    code.exec n rows (writes.foldl code.apply s) op = .ok (more, new) →
      C (n + 1) s ⟨more ++ todo, writes ++ new⟩
  commit : ∀ n s writes, I n s → C n s ⟨[], writes⟩ → G s writes ∧ I n (writes.foldl code.apply s)

/-- Who has not begun has its program still to do, and what the others have checked holds of the
committed rows as long as they have their commit still to come. -/
structure CheckedWorld (I : ℕ → S → Prop) (P : List O → Prop) (C : ℕ → S → Live O W → Prop)
    (begun : List ℕ) (actions : List Action) (w : World S W O ε κ) : Prop where
  sound : I w.sequence w.committed
  waiting : ∀ (u : ℕ) l, w.fates[u]? = some (.live l) → u ∉ begun → l.writes = [] ∧ P l.todo
  checked : ∀ (u : ℕ) l, w.fates[u]? = some (.live l) → .commit u ∈ actions →
    C w.sequence w.committed l

theorem CheckedWorld.tail {a : Action} {rest : List Action}
    (h : CheckedWorld I P C begun (a :: rest) w) : CheckedWorld I P C begun rest w :=
  { h with checked := fun u l hl hu => h.checked u l hl (List.mem_cons_of_mem _ hu) }

/-- A transaction that ends without a commit. -/
theorem CheckedWorld.ended {rest : List Action} (h : CheckedWorld I P C begun rest w)
    {f : Fate O W ε} (hf : ∀ l, f ≠ .live l) {holder : κ → Option ℕ} :
    CheckedWorld I P C begun rest { w with fates := w.fates.set t f, holder := holder } where
  sound := h.sound
  waiting u l hl hu := by
    rcases live_set hl with ⟨_, hf'⟩ | ⟨_, hl⟩
    · exact absurd hf' (hf l)
    · exact h.waiting u l hl hu
  checked u l hl hu := by
    rcases live_set hl with ⟨_, hf'⟩ | ⟨_, hl⟩
    · exact absurd hf' (hf l)
    · exact h.checked u l hl hu

theorem CheckedWorld.begin {rest : List Action} (h : CheckedWorld I P C begun rest w) :
    CheckedWorld I P C (t :: begun) rest w :=
  { h with waiting := fun u l hl hu => h.waiting u l hl fun hmem => hu (List.mem_cons_of_mem _ hmem) }

theorem CheckedWorld.drawn {rest : List Action} (hchecks : Checks code I P C G)
    (h : CheckedWorld I P C begun rest w) :
    CheckedWorld I P C begun rest { w with sequence := w.sequence + 1 } where
  sound := (hchecks.drawn _ _ h.sound).1
  waiting := h.waiting
  checked u l hl hu := (hchecks.drawn _ _ h.sound).2 l (h.checked u l hl hu)

variable [DecidableEq κ]

theorem CheckedWorld.exec {rest : List Action} (hchecks : Checks code I P C G)
    (h : CheckedWorld I P C begun (.exec t :: rest) w) :
    CheckedWorld I P C (t :: begun) rest (w.next code (.exec t)) := by
  have hrest : CheckedWorld I P C (t :: begun) rest w := h.tail.begin
  have hdrawn := hrest.drawn hchecks
  cases (World.next_cases w (.exec t) : WorldStep code w _ _) with
  | ran _ op todo more writes new live _ ok after =>
    rw [after]
    refine ⟨hdrawn.sound, fun u l hl hu => ?_, fun u l hl hu => ?_⟩
    · rcases live_set hl with ⟨rfl, _⟩ | ⟨_, hl⟩
      · exact absurd List.mem_cons_self hu
      · exact hrest.waiting u l hl hu
    · rcases live_set hl with ⟨rfl, hf⟩ | ⟨_, hl⟩
      · cases hf
        exact hchecks.exec _ _ _ _ _ _ _ _ h.sound (hrest.checked u _ live hu) ok
      · exact hdrawn.checked u l hl hu
  | failed _ _ _ _ _ _ _ after =>
    rw [after]
    exact hdrawn.ended fun l => by simp
  | waits _ after =>
    rw [after]
    exact hrest

theorem CheckedWorld.commit {rest : List Action} (hchecks : Checks code I P C G)
    (hothers : ∀ u ∈ begun, u ≠ t → .commit u ∉ rest)
    (h : CheckedWorld I P C begun (.commit t :: rest) w) :
    CheckedWorld I P C begun rest (w.next code (.commit t)) := by
  cases (World.next_cases w (.commit t) : WorldStep code w _ _) with
  | committed _ writes live after =>
    have hsound : I w.sequence (w.view code ⟨[], writes⟩) :=
      (hchecks.commit _ _ _ h.sound (h.checked t _ live List.mem_cons_self)).2
    rw [after]
    refine ⟨hsound, fun u l hl hu => ?_, fun u l hl hu => ?_⟩
    · rcases live_set hl with ⟨_, hf⟩ | ⟨_, hl⟩
      · exact absurd hf (by simp)
      · exact h.waiting u l hl hu
    · rcases live_set hl with ⟨_, hf⟩ | ⟨hne, hl⟩
      · exact absurd hf (by simp)
      · -- who has its commit still to come has not begun
        have hwaiting : u ∉ begun := fun hmem => hothers u hmem hne hu
        obtain ⟨hwrites, hprogram⟩ := h.waiting u l hl hwaiting
        obtain ⟨todo, writes⟩ := l
        cases hwrites
        exact hchecks.start _ _ todo hsound hprogram
  | waits _ after =>
    rw [after]
    exact h.tail

theorem CheckedWorld.rollback {rest : List Action}
    (h : CheckedWorld I P C begun (.rollback t :: rest) w) :
    CheckedWorld I P C begun rest (w.next code (.rollback t)) := by
  cases (World.next_cases w (.rollback t) : WorldStep code w _ _) with
  | rolledBack _ l _ after =>
    rw [after]
    exact h.tail.ended fun l => by simp
  | waits _ after =>
    rw [after]
    exact h.tail

/-- In an undisturbed run, every commit finds rows for which what the transaction has checked holds. -/
theorem CheckedWorld.commits (hchecks : Checks code I P C G) {actions : List Action}
    (hrun : UndisturbedFrom begun actions) (h : CheckedWorld I P C begun actions w) :
    Along (World.next code) (CommitsWith G) w actions := by
  induction actions generalizing begun w with
  | nil => trivial
  | cons a rest ih =>
    cases a with
    | exec t => exact ⟨trivial, ih hrun (h.exec hchecks)⟩
    | commit t =>
      refine ⟨fun writes live => ?_, ih hrun.2 (h.commit hchecks hrun.1)⟩
      exact (hchecks.commit _ _ _ h.sound (h.checked t _ live List.mem_cons_self)).1
    | rollback t => exact ⟨trivial, ih hrun h.rollback⟩

theorem Undisturbed.commits {s : S} {programs : List (List O)} {sequence : ℕ}
    (hchecks : Checks code I (fun todo => todo ∈ programs) C G) (hs : I sequence s)
    {actions : List Action} (hrun : Undisturbed actions) :
    Along (World.next code) (CommitsWith G) (World.init s programs sequence) actions := by
  refine CheckedWorld.commits hchecks hrun ⟨hs, fun u l hl _ => World.init_live hl, ?_⟩
  rintro u ⟨todo, writes⟩ hl _
  obtain ⟨hwrites, htodo⟩ := World.init_live hl
  cases hwrites
  exact hchecks.start sequence s todo hs htodo

end Infra
