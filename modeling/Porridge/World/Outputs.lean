import Porridge.World.Operations

/-! Derived outputs: replacement by diffing, retirement of owners, and spawn slots. -/
namespace Porridge.World

variable {α : Type} (C : Components α)

def takeDerivedOutputs (w : World α) (o : SystemInvocation) :
    List (TypeId × Entity) × World α :=
  (w.outputs o, { w with derivedOwners := w.derivedOwners.erase o })

/-- Remove the previous outputs that the owner did not emit again. -/
def removeDerivedStale (w : World α) (o : SystemInvocation)
    (previous : List (TypeId × Entity)) : World α :=
  previous.foldl (fun w p =>
    if p ∈ w.outputs o then w else w.removeDerivedEntry C p.1 p.2 o) w

def removeDerivedEntries (w : World α) (o : SystemInvocation)
    (pairs : List (TypeId × Entity)) : World α :=
  pairs.foldl (fun w p => w.removeDerivedEntry C p.1 p.2 o) w

/-- The entities of the listed pairs that `removeDerivedEntries` really removes. -/
def removedOutputs (w : World α) (o : SystemInvocation) : List (TypeId × Entity) → List Entity
  | [] => []
  | p :: pairs =>
    let rest := removedOutputs (w.removeDerivedEntry C p.1 p.2 o) o pairs
    if w.owner? p.1 p.2 = some o then p.2 :: rest else rest

/-- Forget the spawn slots and the index entry of an owner. -/
def forgetOwner (w : World α) (o : SystemInvocation) : World α :=
  { w with derivedSpawns := w.derivedSpawns.erase o, derivedOwners := w.derivedOwners.erase o }

def removeDerivedOwned (w : World α) (o : SystemInvocation) : World α :=
  (w.forgetOwner o).removeDerivedEntries C o (w.outputs o)

def selects (systems : Option (List SystemId)) (s : SystemId) : Bool := systems.all (s ∈ ·)

def ownersTouchedBy (w : World α) (keys : List Entity) (systems : Option (List SystemId)) :
    List SystemInvocation :=
  w.derivedOwners.keys.filter fun o => selects systems o.system && o.keys.any (· ∈ keys)

/-- Retire one owner after the other, collecting the entities whose outputs went. -/
def retireOwners (w : World α) : List SystemInvocation → World α × List Entity
  | [] => (w, [])
  | o :: owners =>
    let removed := (w.forgetOwner o).removedOutputs C o (w.outputs o)
    let rest := retireOwners (w.removeDerivedOwned C o) owners
    (rest.1, removed ++ rest.2)

/-- Remove the outputs of the selected invocations keyed in `keys`; the entities returned are
the next cleanup frontier. -/
def removeDerivedTouchedBySystems (w : World α) (keys : List Entity)
    (systems : Option (List SystemId)) : World α × List Entity :=
  w.retireOwners C (w.ownersTouchedBy keys systems)

def recordDerivedSpawn (w : World α) (o : SystemInvocation) (e : Entity) : World α :=
  let slot := Dict.getD w.spawnCursors o 0
  let spawns := Dict.getD w.derivedSpawns o []
  { w with
    spawnCursors := w.spawnCursors.insert o (slot + 1)
    derivedSpawns := w.derivedSpawns.insert o
      (if slot < spawns.length then spawns.set slot e else spawns ++ [e]) }

/-- End the spawn phase of one commit, dropping unused trailing slots. -/
def finishDerivedSpawns (w : World α) (o : SystemInvocation) : World α :=
  let spawns := (Dict.getD w.derivedSpawns o []).take (Dict.getD w.spawnCursors o 0)
  { w with
    spawnCursors := w.spawnCursors.erase o
    derivedSpawns :=
      if spawns = [] then w.derivedSpawns.erase o else w.derivedSpawns.insert o spawns }

def singletonEntityOrRegister (w : World α) (key : TypeId) (candidate : Entity) :
    Entity × World α :=
  match w.singletonEntities.lookup key with
  | some e => (e, w)
  | none =>
    (candidate, { w with singletonEntities := w.singletonEntities.insert key candidate })

def spawnEmpty (w : World α) : Entity × World α :=
  (w.nextEntity, { w with nextEntity := w.nextEntity + 1 })

def singletonEntityOrSpawn (w : World α) (key : TypeId) : Entity × World α :=
  match w.singletonEntities.lookup key with
  | some e => (e, w)
  | none => (w.nextEntity, { w.spawnEmpty.2 with
      singletonEntities := w.singletonEntities.insert key w.nextEntity })

end Porridge.World
