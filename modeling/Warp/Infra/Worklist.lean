import Warp.Infra.ReadCommitted
import Warp.Infra.Runs
import Mathlib.Data.Set.Basic

/-!
# Transactions that decide what to do next

Transactions under READ COMMITTED whose statements depend on what was read: a statement may put
further statements in front of the remaining ones. It sees the committed rows together with the own
writes, waits while another transaction holds a row that it locks, and draws a number that no other
statement draws.
-/

namespace Infra

variable {S W O ε κ : Type*}

/-- What the statements of a system do. `exec` gets the number drawn and the rows locked. -/
structure Code (S W O ε κ : Type*) where
  apply : S → W → S
  locks : (κ → Bool) → S → O → List κ
  exec : ℕ → List κ → S → O → Except ε (List O × List W)

/-- A transaction that has not ended. -/
structure Live (O W : Type*) where
  todo : List O
  writes : List W

inductive Fate (O W ε : Type*) where
  | live (l : Live O W)
  | committed
  | rolledBack
  | failed (e : ε)

structure World (S W O ε κ : Type*) where
  committed : S
  fates : List (Fate O W ε)
  holder : κ → Option ℕ
  sequence : ℕ

/-- Every transaction is yet to begin. -/
def World.init (s : S) (programs : List (List O)) (sequence : ℕ) : World S W O ε κ where
  committed := s
  fates := programs.map fun todo => .live ⟨todo, []⟩
  holder _ := none
  sequence := sequence

namespace World

variable (code : Code S W O ε κ)

/-- What transaction `t` sees. -/
def view (w : World S W O ε κ) (l : Live O W) : S := l.writes.foldl code.apply w.committed

/-- No other transaction holds the row. -/
def available (w : World S W O ε κ) (t : ℕ) (k : κ) : Bool :=
  w.holder k = none ∨ w.holder k = some t

def release (w : World S W O ε κ) (t : ℕ) : κ → Option ℕ := fun k =>
  if w.holder k = some t then none else w.holder k

def acquire [DecidableEq κ] (w : World S W O ε κ) (t : ℕ) (rows : List κ) : κ → Option ℕ := fun k =>
  if k ∈ rows then some t else w.holder k

/-- The rows that the next statement of `t` locks. -/
def lockRows (w : World S W O ε κ) (t : ℕ) (l : Live O W) (op : O) : List κ :=
  code.locks (w.available t) (w.view code l) op

/-- One step of one transaction, unless it has to wait or has ended. -/
def step [DecidableEq κ] (w : World S W O ε κ) : Action → Option (World S W O ε κ)
  | .exec t =>
    match w.fates[t]? with
    | some (.live ⟨op :: todo, writes⟩) =>
      let rows := w.lockRows code t ⟨op :: todo, writes⟩ op
      if rows.all (w.available t) then
        match code.exec w.sequence rows (w.view code ⟨op :: todo, writes⟩) op with
        | .error e =>
          some { w with
            fates := w.fates.set t (.failed e)
            holder := w.release t
            sequence := w.sequence + 1 }
        | .ok (more, new) =>
          some { w with
            fates := w.fates.set t (.live ⟨more ++ todo, writes ++ new⟩)
            holder := w.acquire t rows
            sequence := w.sequence + 1 }
      else none
    | _ => none
  | .commit t =>
    match w.fates[t]? with
    | some (.live ⟨[], writes⟩) =>
      some { w with
        committed := w.view code ⟨[], writes⟩
        fates := w.fates.set t .committed
        holder := w.release t }
    | _ => none
  | .rollback t =>
    match w.fates[t]? with
    | some (.live _) =>
      some { w with fates := w.fates.set t .rolledBack, holder := w.release t }
    | _ => none

/-- The step, or the same state where the transaction has to wait or has ended. -/
def next [DecidableEq κ] (w : World S W O ε κ) (a : Action) : World S W O ε κ :=
  (w.step code a).getD w

def run [DecidableEq κ] (w : World S W O ε κ) (actions : List Action) : World S W O ε κ :=
  actions.foldl (next code) w

end World

/-! ## Updated rows -/

section

variable {α : Type*} [DecidableEq α] {loaded updated current : α}

/-- What an `UPDATE` leaves in a column: the new value where the transaction has changed the one it
loaded. -/
def mergeColumn (loaded updated current : α) : α :=
  if updated ≠ loaded then updated else current

theorem mergeColumn_of_ne (h : updated ≠ loaded) : mergeColumn loaded updated current = updated :=
  if_pos h

theorem mergeColumn_of_eq (h : updated = loaded) : mergeColumn loaded updated current = current :=
  if_neg (not_not.mpr h)

@[simp] theorem mergeColumn_loaded : mergeColumn loaded updated loaded = updated := by
  by_cases h : updated = loaded
  · rw [mergeColumn_of_eq h, h]
  · exact mergeColumn_of_ne h

end

/-- What holds before some writes or is brought about by one of them holds afterwards, if they all
keep it. -/
theorem foldl_reaches {apply : S → W → S} {P : S → Prop} (writes : List W) {s : S}
    (hkeep : ∀ x ∈ writes, ∀ s, P s → P (apply s x)) (h : P s ∨ ∃ x ∈ writes, ∀ s, P (apply s x)) :
    P (writes.foldl apply s) := by
  induction writes generalizing s with
  | nil =>
    rcases h with h | ⟨x, hx, _⟩
    · exact h
    · exact absurd hx List.not_mem_nil
  | cons x writes ih =>
    refine ih (fun y hy => hkeep y (List.mem_cons_of_mem _ hy)) ?_
    rcases h with h | ⟨y, hy, hreach⟩
    · exact Or.inl (hkeep x List.mem_cons_self s h)
    · rcases List.mem_cons.mp hy with rfl | hy
      · exact Or.inl (hreach s)
      · exact Or.inr ⟨y, hy, hreach⟩

/-! ## What a step does -/

section

variable {code : Code S W O ε κ} {w : World S W O ε κ} {t u : ℕ}

/-- What a step does, by the way the transaction goes on. -/
inductive WorldStep [DecidableEq κ] (code : Code S W O ε κ) (w w' : World S W O ε κ) :
    Action → Prop where
  | ran (t : ℕ) (op : O) (todo more : List O) (writes new : List W)
      (live : w.fates[t]? = some (.live ⟨op :: todo, writes⟩))
      (free : ∀ k ∈ w.lockRows code t ⟨op :: todo, writes⟩ op, w.available t k = true)
      (ok : code.exec w.sequence (w.lockRows code t ⟨op :: todo, writes⟩ op)
        (w.view code ⟨op :: todo, writes⟩) op = .ok (more, new))
      (after : w' = { w with
        fates := w.fates.set t (.live ⟨more ++ todo, writes ++ new⟩)
        holder := w.acquire t (w.lockRows code t ⟨op :: todo, writes⟩ op)
        sequence := w.sequence + 1 }) : WorldStep code w w' (.exec t)
  | failed (t : ℕ) (op : O) (todo : List O) (writes : List W) (e : ε)
      (live : w.fates[t]? = some (.live ⟨op :: todo, writes⟩))
      (error : code.exec w.sequence (w.lockRows code t ⟨op :: todo, writes⟩ op)
        (w.view code ⟨op :: todo, writes⟩) op = .error e)
      (after : w' = { w with
        fates := w.fates.set t (.failed e)
        holder := w.release t
        sequence := w.sequence + 1 }) : WorldStep code w w' (.exec t)
  | committed (t : ℕ) (writes : List W) (live : w.fates[t]? = some (.live ⟨[], writes⟩))
      (after : w' = { w with
        committed := w.view code ⟨[], writes⟩
        fates := w.fates.set t .committed
        holder := w.release t }) : WorldStep code w w' (.commit t)
  | rolledBack (t : ℕ) (l : Live O W) (live : w.fates[t]? = some (.live l))
      (after : w' = { w with fates := w.fates.set t .rolledBack, holder := w.release t }) :
      WorldStep code w w' (.rollback t)
  | waits (a : Action) (after : w' = w) : WorldStep code w w' a

theorem World.next_cases [DecidableEq κ] (w : World S W O ε κ) (a : Action) :
    WorldStep code w (w.next code a) a := by
  unfold World.next
  cases hstep : w.step code a with
  | none => exact .waits a rfl
  | some w' =>
    cases a with
    | exec t =>
      rw [World.step] at hstep
      split at hstep
      · next op todo writes hlive =>
        dsimp only at hstep
        split at hstep
        · next hfree =>
          split at hstep
          · next e herror =>
            cases hstep
            exact .failed t op todo writes e hlive herror rfl
          · next more new hok =>
            cases hstep
            exact .ran t op todo more writes new hlive (List.all_eq_true.mp hfree) hok rfl
        · exact absurd hstep (by simp)
      · exact absurd hstep (by simp)
    | commit t =>
      rw [World.step] at hstep
      split at hstep
      · next writes hlive =>
        cases hstep
        exact .committed t writes hlive rfl
      · exact absurd hstep (by simp)
    | rollback t =>
      rw [World.step] at hstep
      split at hstep
      · next l hlive =>
        cases hstep
        exact .rolledBack t l hlive rfl
      · exact absurd hstep (by simp)

/-- Who is live after the fate of one transaction changes. -/
theorem live_set {fates : List (Fate O W ε)} {f : Fate O W ε} {l : Live O W}
    (h : (fates.set t f)[u]? = some (.live l)) :
    (u = t ∧ f = .live l) ∨ (u ≠ t ∧ fates[u]? = some (.live l)) := by
  rw [List.getElem?_set] at h
  split at h
  · next htu =>
    split at h
    · exact Or.inl ⟨htu.symm, Option.some.inj h⟩
    · exact absurd h (by simp)
  · next htu => exact Or.inr ⟨fun hut => htu hut.symm, h⟩

theorem World.init_live {s : S} {programs : List (List O)} {sequence : ℕ} {l : Live O W}
    (h : (World.init s programs sequence : World S W O ε κ).fates[t]? = some (.live l)) :
    l.writes = [] ∧ l.todo ∈ programs := by
  simp only [World.init, List.getElem?_map, Option.map_eq_some_iff] at h
  obtain ⟨todo, htodo, hl⟩ := h
  cases hl
  exact ⟨rfl, List.mem_of_getElem? htodo⟩

theorem World.release_of_ne {k : κ} (h : w.holder k = some u) (hne : u ≠ t) :
    w.release t k = some u := by
  rw [World.release, h, if_neg fun he => hne (Option.some.inj he)]

/-- A held row stays with its holder when another transaction locks rows that are free for it. -/
theorem World.acquire_of_held [DecidableEq κ] {rows : List κ} {k : κ} (h : w.holder k = some u)
    (hfree : ∀ j ∈ rows, w.available t j = true) : w.acquire t rows k = some u := by
  unfold World.acquire
  split
  · next hk =>
    have hf := hfree k hk
    simp only [World.available, h, reduceCtorEq, Option.some.injEq, false_or,
      decide_eq_true_eq] at hf
    rw [hf]
  · exact h

/-! ## Live transactions -/

/-- What a statement keeps holds of every live transaction. -/
theorem World.live_next [DecidableEq κ] {L : Live O W → Prop} {a : Action}
    (hexec : ∀ t op todo more writes new,
      w.fates[t]? = some (.live ⟨op :: todo, writes⟩) → L ⟨op :: todo, writes⟩ →
      code.exec w.sequence (w.lockRows code t ⟨op :: todo, writes⟩ op)
        (w.view code ⟨op :: todo, writes⟩) op = .ok (more, new) →
      L ⟨more ++ todo, writes ++ new⟩)
    (h : ∀ (u : ℕ) l, w.fates[u]? = some (.live l) → L l) :
    ∀ (u : ℕ) l, (w.next code a).fates[u]? = some (.live l) → L l := by
  intro u l hl
  cases (World.next_cases w a : WorldStep code w (w.next code a) a) with
  | ran t op todo more writes new live _ ok after =>
    rw [after] at hl
    rcases live_set hl with ⟨_, hf⟩ | ⟨_, hl⟩
    · cases hf
      exact hexec t op todo more writes new live (h t _ live) ok
    · exact h u l hl
  | failed t op todo writes e _ _ after
  | committed t writes _ after
  | rolledBack t _ _ after =>
    rw [after] at hl
    rcases live_set hl with ⟨_, hf⟩ | ⟨_, hl⟩
    · exact absurd hf (by simp)
    · exact h u l hl
  | waits a after =>
    rw [after] at hl
    exact h u l hl

/-- What a stage of a transaction says of the committed rows and of the locks it holds goes on to
hold, if it needs no lock to be free, the statements keep it, and so do the commits of others. -/
theorem World.stage_next [DecidableEq κ] {Stage : S → (κ → Prop) → Live O W → Prop} {a : Action}
    (hmono : ∀ s held held' l, (∀ k, held k → held' k) → Stage s held l → Stage s held' l)
    (hexec : ∀ t op todo more writes new,
      w.fates[t]? = some (.live ⟨op :: todo, writes⟩) →
      Stage w.committed (fun k => w.holder k = some t) ⟨op :: todo, writes⟩ →
      code.exec w.sequence (w.lockRows code t ⟨op :: todo, writes⟩ op)
        (w.view code ⟨op :: todo, writes⟩) op = .ok (more, new) →
      Stage w.committed
        (fun k => w.holder k = some t ∨ k ∈ w.lockRows code t ⟨op :: todo, writes⟩ op)
        ⟨more ++ todo, writes ++ new⟩)
    (hcommit : ∀ (t : ℕ) writes, w.fates[t]? = some (.live ⟨[], writes⟩) →
      Stage w.committed (fun k => w.holder k = some t) ⟨[], writes⟩ →
      ∀ (u : ℕ) l, u ≠ t → w.fates[u]? = some (.live l) →
      Stage w.committed (fun k => w.holder k = some u) l →
      Stage (writes.foldl code.apply w.committed) (fun k => w.holder k = some u) l)
    (h : ∀ (u : ℕ) l, w.fates[u]? = some (.live l) →
      Stage w.committed (fun k => w.holder k = some u) l) :
    ∀ (u : ℕ) l, (w.next code a).fates[u]? = some (.live l) →
      Stage (w.next code a).committed (fun k => (w.next code a).holder k = some u) l := by
  intro u l hl
  cases (World.next_cases w a : WorldStep code w (w.next code a) a) with
  | ran t op todo more writes new live free ok after =>
    rw [after] at hl ⊢
    rcases live_set hl with ⟨rfl, hf⟩ | ⟨_, hl⟩
    · cases hf
      refine hmono _ _ _ _ (fun k hk => ?_) (hexec u op todo more writes new live (h u _ live) ok)
      rcases hk with hk | hk
      · exact World.acquire_of_held hk free
      · exact if_pos hk
    · exact hmono _ _ _ _ (fun k hk => World.acquire_of_held hk free) (h u l hl)
  | failed t op todo writes e _ _ after
  | rolledBack t _ _ after =>
    rw [after] at hl ⊢
    rcases live_set hl with ⟨_, hf⟩ | ⟨hu, hl⟩
    · exact absurd hf (by simp)
    · exact hmono _ _ _ _ (fun k hk => World.release_of_ne hk hu) (h u l hl)
  | committed t writes live after =>
    rw [after] at hl ⊢
    rcases live_set hl with ⟨_, hf⟩ | ⟨hu, hl⟩
    · exact absurd hf (by simp)
    · exact hmono _ _ _ _ (fun k hk => World.release_of_ne hk hu)
        (hcommit t writes live (h t _ live) u l hu hl (h u l hl))
  | waits a after =>
    rw [after] at hl ⊢
    exact h u l hl

/-- Transaction `t` has done the write and not ended. -/
def World.Pending (w : World S W O ε κ) (t : ℕ) (x : W) : Prop :=
  ∃ l, w.fates[t]? = some (.live l) ∧ x ∈ l.writes

/-! ## Commits under a condition -/

/-- A commit finds rows on which its writes meet the condition. -/
def CommitsWith (G : S → List W → Prop) (w : World S W O ε κ) : Action → Prop
  | .commit t => ∀ writes, w.fates[t]? = some (.live ⟨[], writes⟩) → G w.committed writes
  | _ => True

theorem World.committed_exec [DecidableEq κ] :
    (World.next code w (.exec t)).committed = w.committed := by
  cases (World.next_cases w (.exec t) : WorldStep code w _ _) with
  | ran _ _ _ _ _ _ _ _ _ after
  | failed _ _ _ _ _ _ _ after
  | waits _ after => rw [after]

theorem World.committed_rollback [DecidableEq κ] :
    (World.next code w (.rollback t)).committed = w.committed := by
  cases (World.next_cases w (.rollback t) : WorldStep code w _ _) with
  | rolledBack _ _ _ after
  | waits _ after => rw [after]

/-- A commit writes, or there is nothing to commit. -/
theorem World.committed_commit [DecidableEq κ] {P : S → Prop} {G : S → List W → Prop}
    (hp : P w.committed)
    (h : ∀ writes, w.fates[t]? = some (.live ⟨[], writes⟩) →
      (P (writes.foldl code.apply w.committed) ↔ G w.committed writes)) :
    P (World.next code w (.commit t)).committed ↔ CommitsWith G w (.commit t) := by
  by_cases hlive : ∃ writes, w.fates[t]? = some (.live ⟨[], writes⟩)
  · obtain ⟨writes, hlive⟩ := hlive
    have hnext : (World.next code w (.commit t)).committed =
        writes.foldl code.apply w.committed := by
      simp only [World.next, World.step, hlive]
      rfl
    rw [hnext, h writes hlive]
    refine ⟨fun hg writes' hlive' => ?_, fun hg => hg writes hlive⟩
    rw [hlive] at hlive'
    cases hlive'
    exact hg
  · refine iff_of_true ?_ fun writes hw => absurd ⟨writes, hw⟩ hlive
    have hnext : World.next code w (.commit t) = w := by
      simp only [World.next, World.step]
      split
      · next writes hw => exact absurd ⟨writes, hw⟩ hlive
      · rfl
    rw [hnext]
    exact hp

/-- Only commits change the committed rows. Where the condition is exactly what keeps `P` at a
commit, the runs whose committed rows have `P` all along are those whose commits meet it. -/
theorem World.committed_iff [DecidableEq κ] {I : World S W O ε κ → Prop} {P : S → Prop}
    {G : S → List W → Prop} (hI : ∀ w a, I w → I (World.next code w a))
    (hcommit : ∀ (w : World S W O ε κ) (t : ℕ) writes, I w → P w.committed →
      w.fates[t]? = some (.live ⟨[], writes⟩) →
        (P (writes.foldl code.apply w.committed) ↔ G w.committed writes))
    (hi : I w) (hp : P w.committed) (actions : List Action) :
    (∀ first rest, actions = first ++ rest → P (w.run code first).committed) ↔
      Along (World.next code) (CommitsWith G) w actions := by
  refine @Along.invariant_iff _ _ _ _ I (fun w => P w.committed) hI
    (fun w a hi hp => ?_) actions w hi hp
  cases a with
  | commit t => exact World.committed_commit hp fun writes => hcommit w t writes hi hp
  | exec t =>
    refine iff_of_true ?_ trivial
    rw [World.committed_exec]
    exact hp
  | rollback t =>
    refine iff_of_true ?_ trivial
    rw [World.committed_rollback]
    exact hp

/-- A condition on the commits that is enough to keep `P` on the committed rows. -/
theorem World.committed_along [DecidableEq κ] {I : World S W O ε κ → Prop} {P : S → Prop}
    {G : S → List W → Prop} (hI : ∀ w a, I w → I (World.next code w a))
    (hcommit : ∀ (w : World S W O ε κ) (t : ℕ) writes, I w → P w.committed →
      w.fates[t]? = some (.live ⟨[], writes⟩) → G w.committed writes →
        P (writes.foldl code.apply w.committed))
    (hi : I w) (hp : P w.committed) {actions : List Action}
    (h : Along (World.next code) (CommitsWith G) w actions) :
    I (w.run code actions) ∧ P (w.run code actions).committed := by
  refine Along.invariant (I := fun w => I w ∧ P w.committed) (fun w a hw ha => ⟨hI w a hw.1, ?_⟩) h
    ⟨hi, hp⟩
  cases a with
  | exec t =>
    rw [World.committed_exec]
    exact hw.2
  | rollback t =>
    rw [World.committed_rollback]
    exact hw.2
  | commit t =>
    refine (World.committed_commit (G := fun s writes => G s writes ∨
      P (writes.foldl code.apply s)) hw.2 fun writes live => ?_).mpr fun writes live =>
        Or.inl (ha writes live)
    exact ⟨Or.inr, fun hg => hg.elim (hcommit w t writes hw.1 hw.2 live) id⟩

end

end Infra
