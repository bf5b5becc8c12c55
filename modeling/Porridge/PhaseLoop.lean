import Porridge.Reservations
import Porridge.Runnable

/-! One normal phase run to quiescence: planning waves over snapshots, admission against the
reservations, and commits as runs finish. -/
namespace Porridge

/-- A planning wave: the systems still to be planned over its snapshot, and the runs of the last
planned system that are still to be admitted. -/
structure Wave (α : Type) where
  snapshot : World α
  systems : List SystemId
  queue : List (SystemId × PlannedSystemRun)

/-- Where the loop of a phase is. -/
inductive Stage (α : Type) where
  | top
  | planning (wave : Wave α)
  /-- Runs are awaited; no system needed planning where the wait is quiet. -/
  | waiting (quiet : Bool)
  /-- A batch of finished runs is being committed. -/
  | committing (quiet followup stale : Bool)
  /-- The readers are dropped, and the writers run to completion. -/
  | draining

namespace Stage

variable {α : Type}

def isWaiting : Stage α → Bool
  | waiting _ => true
  | _ => false

def isDraining : Stage α → Bool
  | draining => true
  | _ => false

end Stage

/-- The loop of one phase; a run is in flight until it has been committed or dropped. -/
structure PhaseLoop (α : Type) where
  phase : Phase
  reservations : Reservations
  running : List (RunId × PlannedSystemRun)
  needsPlan : Bool
  deferredConflicts : Bool
  changed : Bool
  stage : Stage α

inductive PhaseStep (α : Type) where
  | turn
  | planNext
  | admitNext
  | endWave
  /-- A mutator that waits for a boundary wakes the loop. -/
  | interrupt
  | preempt
  | finish (id : RunId) (outcome : RunOutcome α)
  | endBatch

/-- The dirty entities a system plans from: those of its unread log and those forced back; a
system without a current cursor plans in full. -/
def BoxedSystem.planHint {α : Type} (s : BoxedSystem) (w : World α) : Option (List Entity) :=
  if s.deltaEligible = true ∧ s.planEpoch = some w.planEpoch then
    let unread := (w.writeLog.drop s.logPos).filter fun p => p.1 ∈ s.interest.getD []
    some (unread.map Prod.snd ++ s.forcedDirty).mergeSort.dedup
  else none

namespace PhaseLoop

variable {α : Type}

def enter (phase : Phase) (registry : Dict TypeId Nat) : PhaseLoop α where
  phase := phase
  reservations := .new registry
  running := []
  needsPlan := true
  deferredConflicts := false
  changed := false
  stage := .top

end PhaseLoop

/-- A phase loop with the shared state and the memo table its driver holds. -/
structure Runner (α : Type) where
  state : State α
  memo : MemoTable
  loop : PhaseLoop α

namespace Runner

variable {α : Type} (P : Program α) (r : Runner α)

/-- Start a wave if one is due and some system of the phase needs planning; wait otherwise. -/
def turn : Option (Runner α) :=
  match r.loop.stage with
  | .top =>
    if r.loop.needsPlan = false then some { r with loop := { r.loop with stage := .waiting false } }
    else if r.state.systems.any fun system =>
        system.phase = r.loop.phase ∧ system.peekNeedsPlanning r.state.world then
      some { r with loop := { r.loop with
        deferredConflicts := false
        stage := .planning ⟨r.state.world, List.range r.state.systems.length, []⟩ } }
    else some { r with loop := { r.loop with deferredConflicts := false, stage := .waiting true } }
  | _ => none

/-- Plan the next system of the wave, if it needs planning. -/
def planNext : Option (Runner α) :=
  match r.loop.stage with
  | .planning ⟨snapshot, id :: rest, []⟩ => do
    let system ← r.state.systems[id]?
    let (_, runnable) ← P.systems[id]?
    if system.phase = r.loop.phase ∧ system.peekNeedsPlanning snapshot = true then do
      let runs ← runnable.streamRuns P.components id snapshot r.memo (system.planHint snapshot)
      some { r with
        state := { r.state with
          systems := r.state.systems.modify id fun system => system.afterPlan snapshot }
        loop := { r.loop with stage := .planning ⟨snapshot, rest, runs.map fun run => (id, run)⟩ } }
    else some { r with loop := { r.loop with stage := .planning ⟨snapshot, rest, []⟩ } }
  | _ => none

/-- Admit the next planned run; one whose owner is active is dropped, and one that conflicts
forces its rows back through planning. -/
def admitNext : Option (Runner α) :=
  match r.loop.stage with
  | .planning ⟨snapshot, systems, (id, run) :: queue⟩ => do
    let (answer, reservations) ← r.loop.reservations.admitRun run.owner run.access
    let loop := { r.loop with reservations, stage := .planning ⟨snapshot, systems, queue⟩ }
    match answer with
    | .error .duplicate => some { r with loop }
    | .error (.conflict owner) =>
      some { r with
        state := { r.state with
          systems := r.state.systems.modify id (BoxedSystem.forceReplan owner.keys) }
        loop := { loop with deferredConflicts := true } }
    | .ok runId => some { r with loop := { loop with running := r.loop.running ++ [(runId, run)] } }
  | _ => none

def endWave : Option (Runner α) :=
  match r.loop.stage with
  | .planning ⟨_, [], []⟩ => some { r with loop := { r.loop with stage := .waiting false } }
  | _ => none

def interrupt : Option (Runner α) :=
  match r.loop.stage with
  | .waiting _ => some { r with loop := { r.loop with needsPlan := false, stage := .top } }
  | _ => none

/-- Drop the runs that reserve no write, and go on to drain the others. -/
def preempt : Option (Runner α) :=
  match r.loop.stage with
  | .top => do
    let reservations ← r.loop.reservations.cancelReaders
    some { r with loop := { r.loop with
      reservations
      running := r.loop.running.filter fun x => reservations.contains x.1
      stage := .draining } }
  | _ => none

/-- Commit a finished run and release what it reserved; where the stage gives a stale run back to
planning, its rows are forced. -/
def settleRun (id : RunId) (outcome : RunOutcome α) (replan : Bool)
    (onwards : CommitProgress → Stage α) : Option (Runner α) := do
  let (_, run) ← r.loop.running.find? (·.1 = id)
  if run.fits outcome ∧ r.loop.reservations.contains id = true then do
    let (memo, state, progress) ←
      commitSystemRun P.components r.memo r.state (run.finish outcome) (some r.loop.phase)
    let (owner, reservations) ← r.loop.reservations.remove id
    let owner ← owner
    some {
      state := if progress.stale ∧ replan then
          { state with systems := forceReplanOf state.systems owner }
        else state
      memo
      loop := { r.loop with
        reservations
        running := r.loop.running.filter fun x => x.1 ≠ id
        changed := r.loop.changed || progress.needsFollowup
        stage := onwards progress } }
  else none

def finish (id : RunId) (outcome : RunOutcome α) : Option (Runner α) :=
  match r.loop.stage with
  | .waiting quiet => r.settleRun P id outcome true fun progress =>
    .committing quiet progress.needsFollowup progress.stale
  | .committing quiet followup stale => r.settleRun P id outcome true fun progress =>
    .committing quiet (followup || progress.needsFollowup) (stale || progress.stale)
  | .draining => r.settleRun P id outcome false fun _ => .draining
  | _ => none

/-- After a batch, plan again if it changed the world, left a row stale or released a row that a
deferred one waits for; a quiet wait is followed by another wave in any case. -/
def endBatch : Option (Runner α) :=
  match r.loop.stage with
  | .committing quiet followup stale =>
    some { r with loop := { r.loop with
      needsPlan := if quiet then r.loop.needsPlan
        else followup || stale || r.loop.deferredConflicts
      stage := .top } }
  | _ => none

def step (r : Runner α) : PhaseStep α → Option (Runner α)
  | .turn => r.turn
  | .planNext => r.planNext P
  | .admitNext => r.admitNext
  | .endWave => r.endWave
  | .interrupt => r.interrupt
  | .preempt => r.preempt
  | .finish id outcome => r.finish P id outcome
  | .endBatch => r.endBatch

end Runner

namespace PhaseLoop

variable {α : Type}

/-- The phase is complete: nothing is in flight while the loop waits. -/
def completed (l : PhaseLoop α) : Bool := l.running.isEmpty && l.stage.isWaiting

/-- The phase is preempted: the writers have drained. -/
def preempted (l : PhaseLoop α) : Bool := l.running.isEmpty && l.stage.isDraining

end PhaseLoop
end Porridge
