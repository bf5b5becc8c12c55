import Porridge.Commit

/-! Destructive reads: taking components of a bound entity, and its cleanup. -/
namespace Porridge

variable {α : Type} (C : Components α)

namespace World

/-- Take the listed components of an entity; a missing required one ends the take. -/
def takeBundle (w : World α) (e : Entity) : List (TypeId × Bool) → World α
  | [] => w
  | (t, required) :: parts =>
    let taken := w.removeComponent C t e none
    if required = true ∧ w.has t e = false then taken else takeBundle taken e parts

def removeRoots (w : World α) : List Entity → World α × List SystemInvocation
  | [] => (w, [])
  | e :: roots =>
    let rest := removeRoots (w.removeEntity C e) roots
    (rest.1, w.ownersOn e ++ rest.2)

end World

def retireOwner (r : Retirement α) (o : SystemInvocation) : Retirement α :=
  { r with world := r.world.removeDerivedOwned C o, memo := r.memo.erase o }

/-- Retire a batch of bound entities with all outputs scoped to them. The frontier may come
back to a root once: the entities seen start out empty. -/
def cleanupRetirement (r : Retirement α) (entities : List Entity) : Retirement α :=
  let roots := entities.dedup
  let swept := Worklist.rounds (retireTouched C none) (r.world.derivedOwners.keys.length + 1) r []
    roots
  let removed := swept.world.removeRoots C roots
  removed.2.dedup.foldl (retireOwner C) { swept with world := removed.1 }

def cleanupBoundEntities (s : State α) (entities : List Entity) : State α :=
  let r := cleanupRetirement C ⟨s.world, s.memo, false⟩ entities
  { s with world := r.world, memo := r.memo }

/-- Clean up entities; a bowl that was settled stays settled. -/
def closeBound (settled : Bool) (s : State α) (entities : List Entity) : State α :=
  let cleaned := cleanupBoundEntities C s entities
  if settled then cleaned.publishSettledRevision else cleaned

def takeBound (s : State α) (e : Entity) (parts : List (TypeId × Bool)) : State α :=
  closeBound C s.isSettled { s with world := s.world.takeBundle C e parts } [e]

def drainBound (s : State α) (entities : List Entity) : State α :=
  closeBound C s.isSettled s entities

end Porridge
