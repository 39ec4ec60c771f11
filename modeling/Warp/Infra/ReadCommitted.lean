import Mathlib.Logic.Function.Basic
import Mathlib.Data.List.Basic

/-!
# Transactions under READ COMMITTED

Every statement of a transaction sees the rows that are committed when it runs, together with the
transaction's own writes. A statement first locks rows, and has to wait while another transaction
holds one of them. Locks last until the transaction commits or rolls back.
-/

namespace Infra

variable {S W M ε κ σ : Type*}

/-- The rows a statement locks, and what it does to the memory of its transaction and the rows. -/
structure Statement (S W M ε κ : Type*) where
  locks : S → M → List κ
  exec : S → M → Except ε (M × List W)

structure Program (S W M ε κ : Type*) where
  memory : M
  statements : List (Statement S W M ε κ)

/-! ## A transaction on its own -/

section

variable (apply : S → W → S)

/-- The statements one after the other, with nothing in between. -/
def runStatements : List (Statement S W M ε κ) → S → M → List W → Except ε (M × List W)
  | [], _, memory, writes => .ok (memory, writes)
  | stmt :: rest, s, memory, writes =>
    match stmt.exec (writes.foldl apply s) memory with
    | .error e => .error e
    | .ok (memory', new) => runStatements rest s memory' (writes ++ new)

theorem runStatements_snoc {stmt : Statement S W M ε κ} {s : S} {out : M × List W}
    {stmts : List (Statement S W M ε κ)} {memory : M} {writes : List W}
    (h : runStatements apply stmts s memory writes = .ok out) :
    runStatements apply (stmts ++ [stmt]) s memory writes =
      match stmt.exec (out.2.foldl apply s) out.1 with
      | .error e => .error e
      | .ok (memory', new) => .ok (memory', out.2 ++ new) := by
  induction stmts generalizing memory writes with
  | nil =>
    cases h
    rfl
  | cons first stmts ih =>
    rw [List.cons_append, runStatements]
    rw [runStatements] at h
    split at h
    · exact absurd h (by simp)
    · exact ih h

end

/-! ## Staying within a part -/

section

variable {apply : S → W → S} {part : S → κ → σ} {valid : S → Prop}

/-- A write that stays within one part of the rows. -/
structure StaysWithin (apply : S → W → S) (part : S → κ → σ) (valid : S → Prop) (k : κ) (w : W) :
    Prop where
  keeps : ∀ s, valid s → valid (apply s w)
  others : ∀ s j, valid s → j ≠ k → part (apply s w) j = part s j
  own : ∀ s s', valid s → valid s' → part s k = part s' k →
    part (apply s w) k = part (apply s' w) k

/-- A statement that reads and writes one part only. -/
structure Statement.Confined (apply : S → W → S) (part : S → κ → σ) (valid : S → Prop) (k : κ)
    (stmt : Statement S W M ε κ) : Prop where
  reads : ∀ s s' m, valid s → valid s' → part s k = part s' k → stmt.exec s m = stmt.exec s' m
  writes : ∀ s m m' ws, stmt.exec s m = .ok (m', ws) →
    ∀ w ∈ ws, StaysWithin apply part valid k w

/-- The first statement locks the part of the transaction, and all statements stay within it. -/
structure Program.Exclusive (apply : S → W → S) (part : S → κ → σ) (valid : S → Prop) (k : κ)
    (p : Program S W M ε κ) : Prop where
  nonempty : p.statements ≠ []
  first : ∀ stmt rest, p.statements = stmt :: rest → ∀ s m, k ∈ stmt.locks s m
  confined : ∀ stmt ∈ p.statements, stmt.Confined apply part valid k

theorem foldl_staysWithin {k : κ} {ws : List W} {s : S}
    (hw : ∀ w ∈ ws, StaysWithin apply part valid k w) (hs : valid s) :
    valid (ws.foldl apply s) ∧ (∀ j, j ≠ k → part (ws.foldl apply s) j = part s j) ∧
      ∀ s', valid s' → part s k = part s' k →
        part (ws.foldl apply s) k = part (ws.foldl apply s') k := by
  induction ws generalizing s with
  | nil => exact ⟨hs, fun _ _ => rfl, fun _ _ h => h⟩
  | cons w ws ih =>
    have hfirst := hw w List.mem_cons_self
    obtain ⟨h1, h2, h3⟩ :=
      ih (fun x hx => hw x (List.mem_cons_of_mem _ hx)) (hfirst.keeps s hs)
    refine ⟨h1, fun j hj => ?_, fun s' hs' he => ?_⟩
    · rw [List.foldl_cons, h2 j hj, hfirst.others s j hs hj]
    · exact h3 (apply s' w) (hfirst.keeps s' hs') (hfirst.own s s' hs hs' he)

/-- A program within a part runs alike wherever the part is the same. -/
theorem runStatements_congr {k : κ} {s s' : S} (hs : valid s) (hs' : valid s')
    (hpart : part s k = part s' k) {stmts : List (Statement S W M ε κ)} {memory : M}
    {writes : List W} (hstmts : ∀ stmt ∈ stmts, stmt.Confined apply part valid k)
    (hwrites : ∀ w ∈ writes, StaysWithin apply part valid k w) :
    runStatements apply stmts s memory writes = runStatements apply stmts s' memory writes := by
  induction stmts generalizing memory writes with
  | nil => rfl
  | cons stmt rest ih =>
    obtain ⟨hv, _, he⟩ := foldl_staysWithin hwrites hs
    obtain ⟨hv', _, _⟩ := foldl_staysWithin hwrites hs'
    have hfirst := hstmts stmt List.mem_cons_self
    rw [runStatements, runStatements, hfirst.reads _ _ memory hv hv' (he s' hs' hpart)]
    split
    · rfl
    · next memory' new hok =>
      refine ih (fun x hx => hstmts x (List.mem_cons_of_mem _ hx)) fun w hw => ?_
      rcases List.mem_append.mp hw with hw | hw
      · exact hwrites w hw
      · exact hfirst.writes _ _ _ _ hok w hw

end

/-! ## Interleavings -/

/-- A transaction that has not ended: what is left of its program, and its own writes. -/
structure Running (S W M ε κ : Type*) where
  rest : List (Statement S W M ε κ)
  memory : M
  writes : List W

inductive Phase (S W M ε κ : Type*) where
  | running (r : Running S W M ε κ)
  | committed (memory : M)
  | rolledBack

structure System (S W M ε κ : Type*) where
  committed : S
  phase : ℕ → Phase S W M ε κ
  holder : κ → Option ℕ

inductive Action where
  | exec (t : ℕ)
  | commit (t : ℕ)
  | rollback (t : ℕ)
deriving DecidableEq, Repr

def Program.start (p : Program S W M ε κ) : Running S W M ε κ := ⟨p.statements, p.memory, []⟩

/-- Every transaction is yet to begin. -/
def System.init (s : S) (program : ℕ → Program S W M ε κ) : System S W M ε κ where
  committed := s
  phase t := .running (program t).start
  holder _ := none

/-- The locks of `t` are free again. -/
def System.release (sys : System S W M ε κ) (t : ℕ) : κ → Option ℕ := fun k =>
  if sys.holder k = some t then none else sys.holder k

/-- No other transaction holds one of the rows. -/
def System.free (sys : System S W M ε κ) (t : ℕ) (rows : List κ) : Bool :=
  rows.all fun k => sys.holder k = none ∨ sys.holder k = some t

section

variable [DecidableEq κ]

def System.acquire (sys : System S W M ε κ) (t : ℕ) (rows : List κ) : κ → Option ℕ := fun k =>
  if k ∈ rows then some t else sys.holder k

variable (apply : S → W → S)

/-- One step of one transaction, unless it has to wait or has ended. -/
def System.step (sys : System S W M ε κ) : Action → Option (System S W M ε κ)
  | .exec t =>
    match sys.phase t with
    | .running ⟨stmt :: rest, memory, writes⟩ =>
      if sys.free t (stmt.locks (writes.foldl apply sys.committed) memory) then
        match stmt.exec (writes.foldl apply sys.committed) memory with
        | .error _ =>
          some ⟨sys.committed, Function.update sys.phase t .rolledBack, sys.release t⟩
        | .ok (memory', new) =>
          some ⟨sys.committed,
            Function.update sys.phase t (.running ⟨rest, memory', writes ++ new⟩),
            sys.acquire t (stmt.locks (writes.foldl apply sys.committed) memory)⟩
      else none
    | _ => none
  | .commit t =>
    match sys.phase t with
    | .running ⟨[], memory, writes⟩ =>
      some ⟨writes.foldl apply sys.committed,
        Function.update sys.phase t (.committed memory), sys.release t⟩
    | _ => none
  | .rollback t =>
    match sys.phase t with
    | .running _ => some ⟨sys.committed, Function.update sys.phase t .rolledBack, sys.release t⟩
    | _ => none

def System.run (sys : System S W M ε κ) : List Action → Option (System S W M ε κ)
  | [] => some sys
  | a :: rest =>
    match sys.step apply a with
    | none => none
    | some sys' => sys'.run rest

/-- What every step preserves holds after every run. -/
theorem System.run_invariant {I : System S W M ε κ → Prop}
    (hstep : ∀ sys sys' a, I sys → sys.step apply a = some sys' → I sys')
    {actions : List Action} {sys sys' : System S W M ε κ} (hI : I sys)
    (h : sys.run apply actions = some sys') : I sys' := by
  induction actions generalizing sys with
  | nil =>
    cases h
    exact hI
  | cons a rest ih =>
    rw [System.run] at h
    split at h
    · exact absurd h (by simp)
    · next mid hmid => exact ih (hstep sys mid a hI hmid) h

/-- What a step does, by action. -/
inductive StepCase (sys sys' : System S W M ε κ) : Prop where
  | exec (t : ℕ) (stmt : Statement S W M ε κ) (rest : List (Statement S W M ε κ)) (memory memory' : M)
      (writes new : List W)
      (running : sys.phase t = .running ⟨stmt :: rest, memory, writes⟩)
      (free : ∀ k ∈ stmt.locks (writes.foldl apply sys.committed) memory,
        sys.holder k = none ∨ sys.holder k = some t)
      (ok : stmt.exec (writes.foldl apply sys.committed) memory = .ok (memory', new))
      (after : sys' = ⟨sys.committed,
        Function.update sys.phase t (.running ⟨rest, memory', writes ++ new⟩),
        sys.acquire t (stmt.locks (writes.foldl apply sys.committed) memory)⟩)
  | rollback (t : ℕ) (r : Running S W M ε κ) (running : sys.phase t = .running r)
      (after : sys' = ⟨sys.committed, Function.update sys.phase t .rolledBack, sys.release t⟩)
  | commit (t : ℕ) (memory : M) (writes : List W)
      (running : sys.phase t = .running ⟨[], memory, writes⟩)
      (after : sys' = ⟨writes.foldl apply sys.committed,
        Function.update sys.phase t (.committed memory), sys.release t⟩)

theorem System.step_cases {sys sys' : System S W M ε κ} {a : Action}
    (h : sys.step apply a = some sys') : StepCase apply sys sys' := by
  cases a with
  | exec t =>
    rw [System.step] at h
    split at h
    · next stmt rest memory writes hr =>
      split at h
      · next hfree =>
        split at h
        · cases h
          exact .rollback t _ hr rfl
        · next memory' new hok =>
          cases h
          refine .exec t stmt rest memory memory' writes new hr (fun k hk => ?_) hok rfl
          simpa using List.all_eq_true.mp hfree k hk
      · exact absurd h (by simp)
    · exact absurd h (by simp)
  | commit t =>
    rw [System.step] at h
    split at h
    · next memory writes hr =>
      cases h
      exact .commit t memory writes hr rfl
    · exact absurd h (by simp)
  | rollback t =>
    rw [System.step] at h
    split at h
    · next r hr =>
      cases h
      exact .rollback t r hr rfl
    · exact absurd h (by simp)

end

/-! ## Transactions that hold the lock of their part -/

section

variable {apply : S → W → S} {part : S → κ → σ} {valid : S → Prop}

/-- What an exclusive transaction has done so far is what it would have done alone. -/
structure Alone (apply : S → W → S) (part : S → κ → σ) (valid : S → Prop)
    (program : ℕ → Program S W M ε κ) (key : ℕ → κ) (sys : System S W M ε κ) (t : ℕ)
    (r : Running S W M ε κ) : Prop where
  locked : sys.holder (key t) = some t
  prefixed : ∃ past, (program t).statements = past ++ r.rest ∧
    runStatements apply past sys.committed (program t).memory [] = .ok (r.memory, r.writes)
  within : ∀ w ∈ r.writes, StaysWithin apply part valid (key t) w

/-- A running transaction has not begun, or it is as if it were alone. -/
structure Serial (apply : S → W → S) (part : S → κ → σ) (valid : S → Prop)
    (program : ℕ → Program S W M ε κ) (key : ℕ → κ) (sys : System S W M ε κ) : Prop where
  committed : valid sys.committed
  running : ∀ t r, sys.phase t = .running r →
    r = (program t).start ∨ Alone apply part valid program key sys t r

variable {program : ℕ → Program S W M ε κ} {key : ℕ → κ} {sys sys' : System S W M ε κ}

/-- The other transactions keep their state when one ends without writing to their parts. -/
theorem Alone.frame {t : ℕ} {r : Running S W M ε κ}
    (hprogram : (program t).Exclusive apply part valid (key t))
    (h : Alone apply part valid program key sys t r) (hs : valid sys.committed)
    (hs' : valid sys'.committed) (hholder : sys'.holder (key t) = some t)
    (hpart : part sys.committed (key t) = part sys'.committed (key t)) :
    Alone apply part valid program key sys' t r := by
  obtain ⟨past, hpast, hrun⟩ := h.prefixed
  refine ⟨hholder, ⟨past, hpast, ?_⟩, h.within⟩
  rw [← runStatements_congr hs hs' hpart (fun stmt hstmt => hprogram.confined stmt ?_) (by simp)]
  · exact hrun
  · rw [hpast]
    exact List.mem_append_left _ hstmt

theorem release_other {t u : ℕ} {k : κ} (h : sys.holder k = some u) (hne : u ≠ t) :
    sys.release t k = some u := by
  rw [System.release, h, if_neg fun he => hne (Option.some.inj he)]

/-- At its commit an exclusive transaction has run as if alone on the committed rows. -/
theorem Serial.commit_alone {t : ℕ} {memory : M} {writes : List W}
    (hprogram : (program t).Exclusive apply part valid (key t))
    (h : Serial apply part valid program key sys)
    (hr : sys.phase t = .running ⟨[], memory, writes⟩) :
    Alone apply part valid program key sys t ⟨[], memory, writes⟩ ∧
      runStatements apply (program t).statements sys.committed (program t).memory [] =
        .ok (memory, writes) := by
  rcases h.running t _ hr with hstart | halone
  · exact absurd (congrArg Running.rest hstart).symm hprogram.nonempty
  · obtain ⟨past, hpast, hrun⟩ := halone.prefixed
    refine ⟨halone, ?_⟩
    rw [hpast, List.append_nil]
    exact hrun

theorem Serial.init {s : S} (hs : valid s) :
    Serial apply part valid program key (System.init s program) := by
  refine ⟨hs, fun t r hr => Or.inl ?_⟩
  cases hr
  rfl

/-- Who is running after the phase of one transaction changes. -/
theorem running_update {phase : ℕ → Phase S W M ε κ} {t u : ℕ} {p : Phase S W M ε κ}
    {r : Running S W M ε κ} (h : Function.update phase t p u = .running r) :
    (u = t ∧ p = .running r) ∨ (u ≠ t ∧ phase u = .running r) := by
  by_cases hut : u = t
  · subst hut
    rw [Function.update_self] at h
    exact Or.inl ⟨rfl, h⟩
  · rw [Function.update_of_ne hut] at h
    exact Or.inr ⟨hut, h⟩

/-- The transactions that have committed. -/
def System.done (sys : System S W M ε κ) (t : ℕ) : Prop := ∃ memory, sys.phase t = .committed memory

theorem done_update {t : ℕ} {p : Phase S W M ε κ} {s : S} {holder : κ → Option ℕ}
    {r : Running S W M ε κ} (hr : sys.phase t = .running r) :
    System.done ⟨s, Function.update sys.phase t p, holder⟩ =
      fun u => (u = t ∧ ∃ memory, p = .committed memory) ∨ sys.done u := by
  funext u
  by_cases hut : u = t
  · subst hut
    simp [System.done, hr]
  · simp [System.done, hut]

section

variable [DecidableEq κ]

theorem acquire_other {t u : ℕ} {k : κ} {rows : List κ} (h : sys.holder k = some u) (hne : u ≠ t)
    (hfree : ∀ j ∈ rows, sys.holder j = none ∨ sys.holder j = some t) :
    sys.acquire t rows k = some u := by
  rw [System.acquire, if_neg, h]
  intro hk
  rcases hfree k hk with hf | hf
  · exact absurd (h.symm.trans hf) (by simp)
  · exact hne (Option.some.inj (h.symm.trans hf))

theorem Serial.step (hprogram : ∀ t, (program t).Exclusive apply part valid (key t))
    {a : Action} (h : Serial apply part valid program key sys)
    (hstep : sys.step apply a = some sys') : Serial apply part valid program key sys' := by
  cases System.step_cases apply hstep with
  | exec t stmt rest memory memory' writes new hr hfree hok hafter =>
    subst hafter
    refine ⟨h.committed, fun u r hu => ?_⟩
    rcases running_update hu with ⟨rfl, hr'⟩ | ⟨hne, hu⟩
    · cases hr'
      refine Or.inr ?_
      rcases h.running u _ hr with hstart | halone
      · -- the first statement takes the lock
        have hstmts : (program u).statements = stmt :: rest :=
          (congrArg Running.rest hstart).symm
        have hmem : stmt ∈ (program u).statements := by
          rw [hstmts]
          exact List.mem_cons_self
        obtain ⟨rfl, rfl⟩ : memory = (program u).memory ∧ writes = [] :=
          ⟨congrArg Running.memory hstart, congrArg Running.writes hstart⟩
        refine ⟨if_pos ((hprogram u).first stmt rest hstmts _ _), ⟨[stmt], hstmts, ?_⟩, ?_⟩
        · show runStatements apply [stmt] sys.committed _ [] = _
          rw [runStatements, hok]
          rfl
        · exact ((hprogram u).confined stmt hmem).writes _ _ _ _ hok
      -- the lock is held already: the statements so far are a run of their own
      · obtain ⟨past, hpast, hrun⟩ := halone.prefixed
        have hmem : stmt ∈ (program u).statements := by
          rw [hpast]
          exact List.mem_append_right _ List.mem_cons_self
        refine ⟨?_, ⟨past ++ [stmt], ?_, ?_⟩, fun w hw => ?_⟩
        · show sys.acquire u _ (key u) = some u
          unfold System.acquire
          split
          · rfl
          · exact halone.locked
        · rw [hpast, List.append_assoc]
          rfl
        · show runStatements apply (past ++ [stmt]) sys.committed _ [] = _
          rw [runStatements_snoc apply hrun, hok]
        · rcases List.mem_append.mp hw with hw | hw
          · exact halone.within w hw
          · exact ((hprogram u).confined stmt hmem).writes _ _ _ _ hok w hw
    · refine (h.running u r hu).imp_right fun halone => ?_
      exact halone.frame (hprogram u) h.committed h.committed
        (acquire_other halone.locked hne hfree) rfl
  | rollback t r hr hafter =>
    subst hafter
    refine ⟨h.committed, fun u r' hu => ?_⟩
    rcases running_update hu with ⟨_, hr'⟩ | ⟨hne, hu⟩
    · exact absurd hr' (by simp)
    · refine (h.running u r' hu).imp_right fun halone => ?_
      exact halone.frame (hprogram u) h.committed h.committed (release_other halone.locked hne) rfl
  | commit t memory writes hr hafter =>
    subst hafter
    obtain ⟨hcommit, _⟩ := h.commit_alone (hprogram t) hr
    obtain ⟨hvalid, hothers, _⟩ := foldl_staysWithin hcommit.within h.committed
    refine ⟨hvalid, fun u r hu => ?_⟩
    rcases running_update hu with ⟨_, hr'⟩ | ⟨hne, hu⟩
    · exact absurd hr' (by simp)
    · refine (h.running u r hu).imp_right fun halone => ?_
      -- both would hold the lock of one key
      have hkey : key u ≠ key t := by
        intro he
        have hboth := halone.locked
        rw [he, hcommit.locked] at hboth
        exact hne (Option.some.inj hboth).symm
      exact halone.frame (hprogram u) h.committed hvalid (release_other halone.locked hne)
        (hothers (key u) hkey).symm

/-- What every transaction preserves when it runs alone holds of the committed rows in every
interleaving. -/
theorem committed_invariant {I : (ℕ → Prop) → S → Prop}
    (hprogram : ∀ t, (program t).Exclusive apply part valid (key t)) {s : S} (hs : valid s)
    (hI : I (fun _ => False) s)
    (hrun : ∀ past s t memory writes, valid s → I past s → ¬ past t →
      runStatements apply (program t).statements s (program t).memory [] = .ok (memory, writes) →
        I (fun u => u = t ∨ past u) (writes.foldl apply s)) {actions : List Action}
    (hactions : (System.init s program).run apply actions = some sys) :
    I sys.done sys.committed := by
  have hinit : I (System.init s program).done s := by
    have hnone : (System.init s program).done = fun _ => False := by
      funext t
      simp [System.done, System.init]
    rw [hnone]
    exact hI
  refine (System.run_invariant apply
    (I := fun sys => Serial apply part valid program key sys ∧ I sys.done sys.committed) ?_
    ⟨Serial.init hs, hinit⟩ hactions).2
  rintro sys sys' a ⟨hserial, hinv⟩ hstep
  refine ⟨hserial.step hprogram hstep, ?_⟩
  cases System.step_cases apply hstep with
  | exec t stmt rest memory memory' writes new hr hfree hok hafter =>
    subst hafter
    rw [done_update hr]
    simpa using hinv
  | rollback t r hr hafter =>
    subst hafter
    rw [done_update hr]
    simpa using hinv
  -- a transaction commits what it does alone on the committed rows
  | commit t memory writes hr hafter =>
    subst hafter
    rw [done_update hr]
    have hnot : ¬ sys.done t := by
      rintro ⟨m, hm⟩
      rw [hr] at hm
      exact absurd hm (by simp)
    have h := hrun _ _ t memory writes hserial.committed hinv hnot
      (hserial.commit_alone (hprogram t) hr).2
    simpa using h

end

end

end Infra
