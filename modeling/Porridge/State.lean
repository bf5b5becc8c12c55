import Porridge.System
import Porridge.World.Reachable

/-! The bowl's shared state. -/
namespace Porridge

structure State (α : Type) where
  world : World α
  systems : List BoxedSystem
  settledHooks : List SystemId
  settleSystems : List SystemId
  memo : MemoTable
  completedGeneration : Nat
  runningGeneration : Option Nat
  nextGeneration : Nat
  pendingGeneration : Option Nat
  pendingInputs : List (BaseCommand α)
  /-- Inputs that arrived while a settle was driving, with their arrival sequence. -/
  deferredInputs : List (Nat × List (BaseCommand α))
  /-- Inserts of `Settle` systems, applied when the next run starts. -/
  deferredSettle : List (SystemOutput α)
  inputSeq : Nat
  settling : Nat
  preemptWindow : Bool
  preemptRestart : Bool
  settleEpoch : Nat
  settledRevision : Revision
  normalClean : Bool
  startupRan : Bool
deriving DecidableEq

namespace State

variable {α : Type}

def new (α : Type) : State α where
  world := World.new
  systems := []
  settledHooks := []
  settleSystems := []
  memo := ∅
  completedGeneration := 0
  runningGeneration := none
  nextGeneration := 1
  pendingGeneration := none
  pendingInputs := []
  deferredInputs := []
  deferredSettle := []
  inputSeq := 0
  settling := 0
  preemptWindow := false
  preemptRestart := false
  settleEpoch := 0
  settledRevision := 0
  normalClean := true
  startupRan := false

/-- Make sure a generation is pending. -/
def requestGeneration (s : State α) : State α :=
  { s with pendingGeneration := some (s.pendingGeneration.getD s.nextGeneration) }

def registerSystem (s : State α) (system : BoxedSystem) : State α :=
  { s with systems := s.systems ++ [system] }.requestGeneration

/-- The state a builder hands out; `hooked` tells the systems with a settled hook. -/
def build (systems : List BoxedSystem) (hooked : SystemId → Bool) : State α :=
  let s := systems.foldl registerSystem (new α)
  let settles := fun id => (s.systems[id]?).any fun system => system.phase = .settle
  let ids := List.range s.systems.length
  { s with
    settledHooks := ids.filter fun id => !settles id && hooked id
    settleSystems := ids.filter settles }

/-- What registering a system leaves alone is as in an empty bowl. -/
theorem registered {β : Type} (f : State α → β)
    (hregister : ∀ s system, f (registerSystem s system) = f s) (systems : List BoxedSystem) :
    f (systems.foldl registerSystem (new α)) = f (new α) := by
  refine List.foldlRecOn systems _ (motive := fun s : State α => f s = f (new α)) rfl ?_
  intro s h system _
  exact (hregister s system).trans h

theorem build_world (systems : List BoxedSystem) (hooked : SystemId → Bool) :
    (build systems hooked : State α).world = World.new := registered world (fun _ _ => rfl) systems

theorem build_memo (systems : List BoxedSystem) (hooked : SystemId → Bool) :
    (build systems hooked : State α).memo = ∅ := registered memo (fun _ _ => rfl) systems

theorem build_deferredSettle (systems : List BoxedSystem) (hooked : SystemId → Bool) :
    (build systems hooked : State α).deferredSettle = [] :=
  registered deferredSettle (fun _ _ => rfl) systems

def pairBoundSystems (s : State α) : List SystemId :=
  (List.range s.systems.length).filter fun id => (s.systems[id]?).any BoxedSystem.pairBound

/-- An external mutation of one component; a tracked change asks for a generation. -/
def mutate (C : Components α) (s : State α) (t : TypeId) (e : Entity) (v : Value α) : State α :=
  let mutated := { s with world := s.world.updateComponent C t e v }
  if s.world.amends C t e v then { mutated with normalClean := false }.requestGeneration
  else mutated

/-- Nothing is pending or running and the world is the settled one. -/
def isSettled (s : State α) : Bool :=
  s.pendingGeneration.isNone && s.runningGeneration.isNone &&
    s.world.revision == s.settledRevision

/-- Publish a newly settled revision, closing the healing epoch when it advanced. -/
def publishSettledRevision (s : State α) : State α :=
  if s.settledRevision = s.world.revision then s
  else { s with settledRevision := s.world.revision, settleEpoch := s.settleEpoch + 1 }

end State
end Porridge
