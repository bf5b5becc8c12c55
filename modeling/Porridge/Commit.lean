import Porridge.Lib.Worklist
import Porridge.State

/-! Publishing a finished run and treating the removals it caused. -/
namespace Porridge

/-- Outputs, memo updates and in-place writes of one finished run. -/
structure SystemRun (α : Type) where
  completed : Bool
  outputs : List (SystemOutput α)
  memoUpdates : List (SystemInvocation × MemoEntry)
  writes : List (TypeId × Entity)
deriving DecidableEq

structure CommitProgress where
  needsFollowup : Bool
  /-- The run was discarded because its deps went stale before the commit. -/
  stale : Bool
  commits : Nat
deriving DecidableEq, Repr

variable {α : Type} (C : Components α)

/-- Force the rows of an invocation back through planning. -/
def forceReplanOf (systems : List BoxedSystem) (o : SystemInvocation) : List BoxedSystem :=
  systems.modify o.system (BoxedSystem.forceReplan o.keys)

/-- Drop the memo entries of owners that lost output, forcing each one's rows. -/
def reconcileRemovedOutputOwners (selected : Option (List SystemId)) :
    MemoTable → List BoxedSystem → List SystemInvocation → MemoTable × List BoxedSystem × Bool
  | memo, systems, [] => (memo, systems, false)
  | memo, systems, o :: owners =>
    if World.selects selected o.system = true ∧ o ∈ memo then
      let r := reconcileRemovedOutputOwners selected (memo.erase o) (forceReplanOf systems o) owners
      (r.1, r.2.1, true)
    else reconcileRemovedOutputOwners selected memo systems owners

/-- A world and memo table from which invocations are being retired. -/
structure Retirement (α : Type) where
  world : World α
  memo : MemoTable
  retiredOutputs : Bool

/-- Retire the selected invocations keyed by a frontier; their output entities are next. -/
def retireTouched (selected : Option (List SystemId)) (r : Retirement α)
    (frontier : List Entity) : Retirement α × List Entity :=
  let swept := r.world.removeDerivedTouchedBySystems C frontier selected
  (⟨swept.1, removeMemoTouchedBy r.memo frontier, r.retiredOutputs || !swept.2.isEmpty⟩, swept.2)

/-- Retire to a fixed point; every round that finds an entity shrinks the ownership index. -/
def retireCascade (selected : Option (List SystemId)) (r : Retirement α)
    (seen frontier : List Entity) : Retirement α :=
  Worklist.rounds (retireTouched C selected) (r.world.derivedOwners.keys.length + 1) r seen frontier

def reconcileRemovedInvocations (w : World α) (memo : MemoTable) (removed : List Entity)
    (removedOwners : List SystemInvocation) (systems : List BoxedSystem)
    (selected : Option (List SystemId)) : Retirement α × List BoxedSystem :=
  let owners := reconcileRemovedOutputOwners selected memo systems removedOwners
  let frontier := removed.dedup
  (retireCascade C selected ⟨w, owners.1, owners.2.2⟩ frontier frontier, owners.2.1)

/-- Apply the outputs of a run in order, keeping deferred ones for the next run. -/
def publishOutputs (s : State α) (outputs : List (SystemOutput α)) (deferInserts : Bool) :
    Option (State α) :=
  outputs.foldlM (fun s output => do
    let world ← s.world.applyOutput C output deferInserts
    let deferred := if deferInserts then (World.deferredOutput output).toList else []
    return { s with world, deferredSettle := s.deferredSettle ++ deferred }) s

variable {C} in
/-- Publishing outputs publishes the first one, then the rest. -/
theorem publishOutputs_cons {s s' : State α} {output : SystemOutput α}
    {outputs : List (SystemOutput α)} {deferInserts : Bool}
    (h : publishOutputs C s (output :: outputs) deferInserts = some s') :
    ∃ w, s.world.applyOutput C output deferInserts = some w ∧
      publishOutputs C { s with
        world := w
        deferredSettle := s.deferredSettle ++
          if deferInserts then (World.deferredOutput output).toList else [] }
        outputs deferInserts = some s' := by
  obtain ⟨u, hu, hrest⟩ := Option.bind_eq_some_iff.mp h
  obtain ⟨w, hw, hs⟩ := Option.bind_eq_some_iff.mp hu
  cases hs
  exact ⟨w, hw, hrest⟩

/-- Record the memo updates of an accepted run against the published world. -/
def publishMemo (w : World α) (settleEpoch : Nat) (run : SystemRun α) (memo : MemoTable) :
    MemoTable :=
  run.memoUpdates.foldl (fun memo update =>
    memo.insert update.1 { update.2.refreshWritten w run.writes with settleEpoch }) memo

/-- Publish an accepted run: outputs, in-place writes, then memo entries. -/
def publishRun (memo : MemoTable) (s : State α) (run : SystemRun α) (deferInserts : Bool) :
    Option (MemoTable × State α) := do
  let published ← publishOutputs C s run.outputs deferInserts
  let world := published.world.reconcileWritten C run.writes
  return (publishMemo world s.settleEpoch run memo, { published with world })

/-- Treat the removals drained after a publication. -/
def reconcileCommit (memo : MemoTable) (s : State α) : MemoTable × State α :=
  let w := s.world.drainRemovals
  let removed := s.world.removedEntities
  let removedOwners := s.world.removedOwners
  let removedComponentOwners := s.world.removedComponentOwners
  if removed = [] ∧ removedOwners = [] ∧ removedComponentOwners = [] then
    (memo, { s with world := w })
  else
    let owners := reconcileRemovedOutputOwners none memo s.systems removedComponentOwners
    if owners.2.2 then
      (owners.1, { s with world := w, systems := owners.2.1, normalClean := false })
    else
      let r := reconcileRemovedInvocations C w owners.1 removed removedOwners owners.2.1
        (some s.pairBoundSystems)
      (r.1.memo, { s with
        world := r.1.world
        systems := r.2
        normalClean := if r.1.retiredOutputs then false else s.normalClean })

/-- Commit a finished run, discarding it when its deps went stale. -/
def commitSystemRun (memo : MemoTable) (s : State α) (run : SystemRun α) (phase : Option Phase) :
    Option (MemoTable × State α × CommitProgress) :=
  if run.memoUpdates.all fun update => update.2.isCurrent s.world then do
    let published ← publishRun C memo s run (phase = some .settle)
    let (memo, s') := reconcileCommit C published.1 published.2
    let needsFollowup := s'.world.revision != s.world.revision ||
      s'.world.mutations != s.world.mutations
    return (memo, s', ⟨needsFollowup, false, needsFollowup.toNat⟩)
  else
    let world := s.world.reconcileWritten C run.writes
    let needsFollowup := world.revision != s.world.revision
    some (memo, { s with world }, ⟨needsFollowup, true, needsFollowup.toNat⟩)

end Porridge
