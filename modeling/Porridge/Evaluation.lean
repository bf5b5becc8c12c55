import Porridge.Commit

/-! Starting a generation: compaction, queued inputs, and the removals they cause. -/
namespace Porridge

variable {α : Type} (C : Components α)

/-- Retire a write log above its budget, handing unread rows to the systems. -/
def compactPlanLog (s : State α) : State α :=
  match s.world.maybeRollPlanEpoch with
  | (none, _) => s
  | (some (epoch, log), world) =>
    { s with world, systems := s.systems.map (BoxedSystem.compactPlanLog epoch log world) }

/-- Apply the deferred `Settle` outputs and the pending inputs to the world. -/
def applyInputs (s : State α) : Option (State α) := do
  let s := compactPlanLog s
  let settled ← s.deferredSettle.foldlM
    (fun w output => w.applyCommands C output.owner output.commands) s.world
  let applied ← settled.applyBase C s.pendingInputs
  let world ← applied.flushDerivedFrom C
  return { s with world, pendingInputs := [], deferredSettle := [] }

/-- Invalidate the owners that lost a component to the inputs. -/
def reconcileInputLosers (s : State α) : State α :=
  let losers := reconcileRemovedOutputOwners none s.memo s.systems s.world.removedComponentOwners
  { s with memo := losers.1, systems := losers.2.1 }

def reconcileInputs (s : State α) : State α :=
  let s' := reconcileInputLosers s
  let r := reconcileRemovedInvocations C s.world.drainRemovals s'.memo s.world.removedEntities []
    s'.systems none
  { s with world := r.1.world, memo := r.1.memo, systems := r.2 }

/-- What a started generation takes with it, and the state it leaves. -/
structure Started (α : Type) where
  generation : Nat
  memo : MemoTable
  startup : Bool
  state : State α

/-- Mark the pending generation running and move the memo table out of the state. -/
def launch (s : State α) (generation : Nat) : Started α where
  generation := generation
  memo := s.memo
  startup := !s.startupRan || s.preemptRestart
  state := { s with
    runningGeneration := some generation
    nextGeneration := generation + 1
    normalClean := false
    startupRan := true
    preemptRestart := if s.startupRan then false else s.preemptRestart
    preemptWindow := false
    memo := ∅ }

def startEvaluation (s : State α) : Option (Option (Started α)) :=
  match s.pendingGeneration with
  | none => some none
  | some generation => do
    let applied ← applyInputs C { s with pendingGeneration := none }
    return some (launch (reconcileInputs C applied) generation)

/-- Completion: the memo table comes home and the generation counts as completed. -/
def completeEvaluation (s : State α) (generation : Nat) (memo : MemoTable) (changed : Bool) :
    State α :=
  { s with
    memo
    normalClean := !changed
    completedGeneration := generation
    runningGeneration := none }

/-- What dropping the driver of a generation leaves: the generation is pending again and every
system plans in full. -/
def abandonEvaluation (s : State α) (generation : Nat) (memo : MemoTable) : State α :=
  { s with
    memo
    runningGeneration := none
    pendingGeneration := some (s.pendingGeneration.getD generation)
    systems := s.systems.map BoxedSystem.resetFull }

end Porridge
