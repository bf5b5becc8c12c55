import Porridge.Engine.World
import Porridge.World.Landing

/-! What the settle phases leave waiting for the next start, beside the bowl. -/
namespace Porridge

/-- A deferred output, and the removed entities that later commits drained while it waits. -/
structure Waiting (α : Type) where
  output : SystemOutput α
  removed : List Entity
deriving DecidableEq

/-- The bowl with the deferred outputs that wait, and the outputs of the settle runs accepted
since the last start. -/
structure Deferral (α : Type) where
  engine : Engine α
  waiting : List (Waiting α)
  accepted : List (SystemOutput α)
deriving DecidableEq

/-- The outputs of a run come from settle systems exactly when the settle phase commits it. -/
def State.inPhase {α : Type} (s : State α) (phase : Option Phase) (run : SystemRun α) : Bool :=
  run.outputs.all fun output =>
    decide (output.owner.system ∈ s.settleSystems) == decide (phase = some .settle)

def Waiting.age {α : Type} (removed : List Entity) (p : Waiting α) : Waiting α :=
  { p with removed := p.removed ++ removed }

namespace Deferral

variable {α : Type} (C : Components α)

/-- What an accepted commit adds to the history. -/
def noteCommit (d : Deferral α) (run : SystemRun α) (phase : Option Phase) (engine : Engine α) :
    Deferral α :=
  match publishOutputs C d.engine.state run.outputs (phase = some .settle) with
  | none => { d with engine }
  | some published =>
    let aged := d.waiting.map (Waiting.age published.world.removedEntities)
    if phase = some .settle then
      { engine
        waiting := aged ++ (run.outputs.filterMap World.deferredOutput).map fun output => ⟨output, []⟩
        accepted := d.accepted ++ run.outputs }
    else { d with engine, waiting := aged }

/-- The history after a critical section that leaves the given bowl. -/
def note (d : Deferral α) (engine : Engine α) : EngineOp α → Deferral α
  | .commit run phase =>
    if (run.memoUpdates.all fun update => update.2.isCurrent d.engine.state.world) = true then
      d.noteCommit C run phase engine
    else { d with engine }
  | .startEvaluation =>
    if d.engine.state.pendingGeneration.isSome then ⟨engine, [], []⟩ else { d with engine }
  | _ => { d with engine }

/-- Settle systems commit in the settle phase and nowhere else. -/
def phased (d : Deferral α) : EngineOp α → Bool
  | .commit run phase => d.engine.state.inPhase phase run
  | _ => true

def step (d : Deferral α) (op : EngineOp α) : Option (Deferral α) :=
  if d.phased op = true then (d.engine.step C op).map fun engine => d.note C engine op else none

def machine : Machine (Deferral α) (EngineOp α) where
  init d := (∃ systems hooked, d.engine = .new systems hooked) ∧ d.waiting = [] ∧ d.accepted = []
  step := step C

abbrev Reachable : Deferral α → Prop := (machine C).Reachable

/-- The waiting outputs with the pairs each one writes, as the registry stands at its turn. -/
def landed (registry : TypeId → Option Entity) :
    List (Waiting α) → List (Waiting α × List (TypeId × Entity))
  | [] => []
  | p :: waiting => (p, landings C registry p.output.commands) ::
      landed (registersAll C registry p.output.commands) waiting

/-- What the next start writes for each waiting output. -/
def landings (d : Deferral α) : List (Waiting α × List (TypeId × Entity)) :=
  landed C d.engine.state.world.registry d.waiting

def removedSince (d : Deferral α) (p : Waiting α) : List Entity :=
  p.removed ++ d.engine.state.world.removedEntities

/-- A removal of a key that no commit has treated: the next start retires the invocation. -/
def Doomed (d : Deferral α) (o : SystemInvocation) : Prop :=
  o.touches d.engine.state.world.removedEntities = true

instance (d : Deferral α) (o : SystemInvocation) : Decidable (d.Doomed o) :=
  inferInstanceAs (Decidable (_ = true))

end Deferral
end Porridge
