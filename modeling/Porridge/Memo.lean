import Porridge.World.Operations

/-! Dependency records of invocations and the memo table that keeps them. -/
namespace Porridge

/-- An observation an invocation made while it was planned. -/
structure Dep where
  component : TypeId
  entity : Entity
  /-- `none` records an observed absence. -/
  revision : Option Revision
  /-- A store-scoped dep observes the store's watermark instead of one row. -/
  storeScoped : Bool
deriving DecidableEq, Repr

namespace Dep

variable {α : Type}

def isCurrent (d : Dep) (w : World α) : Bool :=
  if d.storeScoped then w.storeWatermark d.component == d.revision.getD 0
  else w.revisionByType d.component d.entity == d.revision

/-- Absorb the post-commit revision of a row the owning invocation wrote itself. -/
def refreshWritten (w : World α) (writes : List (TypeId × Entity)) (d : Dep) : Dep :=
  if (d.component, d.entity) ∈ writes ∧ d.storeScoped = false then
    { d with revision := w.revisionByType d.component d.entity }
  else d

end Dep

/-- What an invocation observed the last time it ran. -/
structure MemoEntry where
  deps : List Dep
  plannedRevision : Revision
  settleEpoch : Nat
deriving DecidableEq, Repr

namespace MemoEntry

variable {α : Type}

def isCurrent (m : MemoEntry) (w : World α) : Bool := m.deps.all (·.isCurrent w)

def refreshWritten (w : World α) (writes : List (TypeId × Entity)) (m : MemoEntry) : MemoEntry :=
  { m with deps := m.deps.map (Dep.refreshWritten w writes) }

end MemoEntry

abbrev MemoTable := Dict SystemInvocation MemoEntry

def SystemInvocation.touches (keys : List Entity) (o : SystemInvocation) : Bool :=
  o.keys.any (· ∈ keys)

theorem SystemInvocation.touches_iff {keys : List Entity} {o : SystemInvocation} :
    o.touches keys = true ↔ ∃ k ∈ o.keys, k ∈ keys := by
  simp [SystemInvocation.touches]

def removeMemoTouchedBy (memo : MemoTable) (keys : List Entity) : MemoTable :=
  Dict.retain (fun o _ => !o.touches keys) memo

theorem lookup_removeMemoTouchedBy (memo : MemoTable) (keys : List Entity)
    (o : SystemInvocation) :
    (removeMemoTouchedBy memo keys).lookup o =
      if o.touches keys = true then none else memo.lookup o := by
  rw [removeMemoTouchedBy, Dict.lookup_retain_key]
  cases o.touches keys <;> rfl

end Porridge
