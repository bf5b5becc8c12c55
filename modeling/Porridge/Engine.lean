import Porridge.Cleanup
import Porridge.Emission
import Porridge.Evaluation
import Porridge.Healing

/-! The bowl as a machine over its critical sections, with one holder of the memo table. -/
namespace Porridge

/-- The shared state, the memo table that a running generation, hook pass or settle phase has
moved out of it, and the noted emissions. -/
structure Engine (α : Type) where
  state : State α
  held : Option MemoTable
  emissions : List Emission
deriving DecidableEq

/-- One critical section of the bowl. -/
inductive EngineOp (α : Type) where
  | reserve
  | reserveSingleton (key : TypeId)
  | queueInputs (commands : List (BaseCommand α))
  | update (component : TypeId) (entity : Entity) (value : Value α)
  | writeInPlace (component : TypeId) (entity : Entity) (value : Value α)
  | startEvaluation
  | completeEvaluation (changed : Bool)
  /-- The driver of the generation is dropped. -/
  | abandonEvaluation
  /-- A hook pass or settle phase takes the memo table. -/
  | takeMemo
  | putMemo
  | commit (run : SystemRun α) (phase : Option Phase)
  | heal (attempts : Dict SystemInvocation Nat)
  | takeBound (entity : Entity) (parts : List (TypeId × Bool))
  | drainBound (entities : List Entity)
  | publishSettledRevision
deriving DecidableEq

/-- Every memo update comes with an output of the same invocation. -/
def SystemRun.paired {α : Type} (run : SystemRun α) : Bool :=
  run.memoUpdates.all fun update => run.outputs.any fun output => output.owner = update.1

namespace Engine

variable {α : Type} (C : Components α)

def new (systems : List BoxedSystem) (hooked : SystemId → Bool) : Engine α :=
  ⟨State.build systems hooked, none, []⟩

def memo (g : Engine α) : MemoTable := g.held.getD g.state.memo

/-- What an invocation emitted, as the inputs of a generation are applied. -/
def noteInputs (s : State α) (emissions : List Emission) : Option (List Emission) := do
  let s := compactPlanLog s
  let settle := fun (w : World α) (output : SystemOutput α) =>
    w.applyCommands C output.owner output.commands
  let settled ← s.deferredSettle.foldlM settle s.world
  let noted := List.history settle
    (fun w output => w.noteCommands C output.owner output.commands) s.deferredSettle s.world emissions
  let applied ← settled.applyBase C s.pendingInputs
  let noted := List.history (fun w c => BaseCommand.apply C w c) (fun w c => w.noteBaseCommand C c)
    s.pendingInputs settled noted
  return applied.noteFlush C noted

/-- A bound cleanup reaches the memo table only at home: while it is held, the emissions the
cleanup swept count as disturbed. -/
def noteCleanup (held : Option MemoTable) (w : World α) (emissions : List Emission) :
    List Emission :=
  if held.isSome then
    Emission.disturb (fun m => w.owner? m.component m.entity ≠ some m.owner) emissions
  else emissions

def step (g : Engine α) : EngineOp α → Option (Engine α)
  | .reserve => some { g with state := { g.state with world := g.state.world.spawnEmpty.2 } }
  | .reserveSingleton key =>
    some { g with state := { g.state with world := (g.state.world.singletonEntityOrSpawn key).2 } }
  | .queueInputs commands =>
    some { g with state :=
      { g.state with pendingInputs := g.state.pendingInputs ++ commands }.requestGeneration }
  | .update t e v => some { g with state := g.state.mutate C t e v }
  | .writeInPlace t e v =>
    some { g with state := { g.state with world := g.state.world.writeInPlace t e v } }
  | .startEvaluation =>
    if g.held.isSome then none
    else do
      let started ← startEvaluation C g.state
      match started with
      | none => some g
      | some started =>
        let emissions ← noteInputs C { g.state with pendingGeneration := none } g.emissions
        some ⟨started.state, some started.memo, emissions⟩
  | .completeEvaluation changed => do
    let memo ← g.held
    let generation ← g.state.runningGeneration
    some { g with held := none, state := completeEvaluation g.state generation memo changed }
  | .abandonEvaluation => do
    let memo ← g.held
    let generation ← g.state.runningGeneration
    some { g with held := none, state := abandonEvaluation g.state generation memo }
  | .takeMemo =>
    if g.held.isSome then none
    else some { g with held := some g.state.memo, state := { g.state with memo := ∅ } }
  | .putMemo => g.held.map fun memo => { g with held := none, state := { g.state with memo } }
  | .commit run phase => do
    let memo ← g.held
    if run.paired = true then
      let (memo, state, progress) ← commitSystemRun C memo g.state run phase
      let emissions := if progress.stale then g.emissions
        else g.state.world.noteOutputs C run.outputs (phase = some .settle) g.emissions
      some ⟨state, some memo, emissions⟩
    else none
  | .heal attempts => do
    let healed ← healStaleAmbient attempts g.state
    some { g with state := healed.2.2 }
  | .takeBound e parts =>
    let state := takeBound C g.state e parts
    some { g with state, emissions := noteCleanup g.held state.world g.emissions }
  | .drainBound entities =>
    let state := drainBound C g.state entities
    some { g with state, emissions := noteCleanup g.held state.world g.emissions }
  | .publishSettledRevision => some { g with state := g.state.publishSettledRevision }

def machine : Machine (Engine α) (EngineOp α) where
  init g := ∃ systems hooked, g = new systems hooked
  step := step C

abbrev Reachable : Engine α → Prop := (machine C).Reachable

end Engine
end Porridge
