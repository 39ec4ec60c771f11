import Mathlib.Algebra.Order.Ring.Rat
import Warp.Infra.Loop
import Warp.ScheduledReconciliations

/-!
# The reconciliation worker

One invocation of the worker reconciles due events batch by batch, each batch in a transaction of its
own, until nothing is due or its time is up.
-/

namespace Warp

open Infra

structure ReconciliationWorkerSettings where
  batchSize : ℕ := 50
  maxRuntimeSeconds : ℕ := 15 * 60
deriving Repr

structure ReconciliationWorkerResult where
  acquiredLock : Bool
  drained : Bool
  processedEvents : ℕ
  batches : ℕ
  startedAt : DateTime
  completedAt : DateTime

/-- The clocks as the readings they give one after another. -/
structure WorkerClocks where
  clock : ℕ → DateTime
  monotonicClock : ℕ → ℚ

/-- The variables of the loop and the database it works on. `processed` names the events of the
batches so far, of which the code keeps the number only. -/
structure DrainState where
  db : Db
  processedEvents : ℕ := 0
  batches : ℕ := 0
  processingAt : Option DateTime := none
  processed : List ℕ := []
  clockReads : ℕ := 0
  monotonicReads : ℕ := 1

/-- The state at the end, with what the call returns or raises. -/
structure DrainEnd where
  state : DrainState
  result : Except ServiceError ReconciliationWorkerResult

section

variable (settings : ReconciliationWorkerSettings) (startedAt : DateTime) (clocks : WorkerClocks)

def DrainState.finish (s : DrainState) (drained : Bool) : DrainEnd where
  state := s
  result := .ok
    { acquiredLock := true
      drained := drained
      processedEvents := s.processedEvents
      batches := s.batches
      startedAt := startedAt
      completedAt := clocks.clock s.clockReads }

/-- The check of the runtime, which the first round does not make. -/
def DrainState.outOfTime (s : DrainState) : Bool :=
  0 < s.batches &&
    settings.maxRuntimeSeconds ≤ clocks.monotonicClock s.monotonicReads - clocks.monotonicClock 0

/-- The transaction of a batch, and what follows its commit. -/
def DrainState.batch (s : DrainState) : DrainState ⊕ DrainEnd :=
  let processingAt := clocks.clock s.clockReads
  let s := { s with processingAt := some processingAt, clockReads := s.clockReads + 1 }
  match reconcileDueEvents s.db processingAt settings.batchSize with
  | .error e => .inr ⟨s, .error e⟩
  | .ok (db, []) => .inr ({ s with db := db }.finish startedAt clocks true)
  | .ok (db, event :: events) =>
    let s :=
      { s with
        db := db
        batches := s.batches + 1
        processedEvents := s.processedEvents + (event :: events).length
        processed := s.processed ++ (event :: events).map fun e => e.id }
    if (event :: events).length < settings.batchSize then .inr (s.finish startedAt clocks true)
    else .inl s

def drainRound (s : DrainState) : DrainState ⊕ DrainEnd :=
  if s.outOfTime settings clocks then .inr (s.finish startedAt clocks false)
  else
    { s with
      monotonicReads := if 0 < s.batches then s.monotonicReads + 1 else s.monotonicReads }.batch
        settings startedAt clocks

/-- `_drain_due_reconciliations` -/
def drainDueReconciliations (db : Db) (fuel : ℕ) : Option DrainEnd :=
  runLoop (drainRound settings startedAt clocks) fuel { db := db }

variable {settings startedAt clocks}

theorem drainDueReconciliations_more {db : Db} {fuel more : ℕ} {out : DrainEnd}
    (h : drainDueReconciliations settings startedAt clocks db fuel = some out)
    (hmore : fuel ≤ more) :
    drainDueReconciliations settings startedAt clocks db more = some out :=
  runLoop_more h hmore

end

end Warp
