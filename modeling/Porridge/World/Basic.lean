import Porridge.Lib.Index
import Porridge.World.Presence

/-! The live world and the effects every component write and removal is built from. -/
namespace Porridge

/-- Stored component value with its tracking metadata. -/
structure Entry (α : Type) where
  /-- The shared cell that holds the value; a clone of the store shares it. -/
  cell : Nat
  value : Value α
  revision : Revision
  fingerprint : Option Fingerprint
  /-- `none` is caller-owned input; `some` is the deriving invocation. -/
  owner : Option SystemInvocation
deriving DecidableEq, Repr

/-- Storage for one component type and the highest revision at which it changed. -/
structure Store (α : Type) where
  entries : Dict Entity (Entry α)
  byFingerprint : Index Fingerprint Entity
  watermark : Revision
deriving DecidableEq

/-- The stores of a cloned world, whose cells stay shared with the live one. -/
abbrev Snapshot (α : Type) := Dict TypeId (Store α)

/-- A `DerivedFrom` insert held back until its command buffer has applied. -/
structure PendingDerivedFrom where
  component : TypeId
  entity : Entity
  anchors : List DerivedAnchor
  owner : Option SystemInvocation
deriving DecidableEq, Repr

structure World (α : Type) where
  nextEntity : Entity
  nextCell : Nat
  revision : Revision
  mutations : Nat
  stores : Dict TypeId (Store α)
  singletonEntities : Dict TypeId Entity
  derivedOwners : Dict SystemInvocation (List (TypeId × Entity))
  derivedSpawns : Dict SystemInvocation (List Entity)
  spawnCursors : Dict SystemInvocation Nat
  removedEntities : List Entity
  removedOwners : List SystemInvocation
  removedComponentOwners : List SystemInvocation
  pendingDerivedFrom : List PendingDerivedFrom
  flushingAnchors : Bool
  presence : Option PresenceIndex
  writeLog : List (TypeId × Entity)
  planEpoch : Nat
deriving DecidableEq

namespace World

variable {α : Type}

def new : World α where
  nextEntity := 0
  nextCell := 0
  revision := 0
  mutations := 0
  stores := ∅
  singletonEntities := ∅
  derivedOwners := ∅
  derivedSpawns := ∅
  spawnCursors := ∅
  removedEntities := []
  removedOwners := []
  removedComponentOwners := []
  pendingDerivedFrom := []
  flushingAnchors := false
  presence := none
  writeLog := []
  planEpoch := 0

/-- An empty world; a schema closes its component universe. -/
def ofSchema (schema : Option (List TypeId)) : World α :=
  { new with presence := schema.map fun types => .new (PresenceIndex.universeOf types) }

section Reads

variable (w : World α)

def store (t : TypeId) : Store α := Dict.getD w.stores t ⟨∅, ∅, 0⟩

def cell? (t : TypeId) (e : Entity) : Option (Entry α) := (w.store t).entries.lookup e

def has (t : TypeId) (e : Entity) : Bool := (w.cell? t e).isSome

def revisionByType (t : TypeId) (e : Entity) : Option Revision :=
  (w.cell? t e).map Entry.revision

def storeWatermark (t : TypeId) : Revision := (w.store t).watermark

def owner? (t : TypeId) (e : Entity) : Option SystemInvocation := (w.cell? t e).bind Entry.owner

def outputs (o : SystemInvocation) : List (TypeId × Entity) := Dict.getD w.derivedOwners o []

def entityRevision (C : Components α) (e : Entity) : Option Revision :=
  ((w.stores.keys.filter C.tracked).filterMap fun t => w.revisionByType t e).max?

end Reads

/-- Drop one output from an invocation's ownership index. -/
def unindexDerived (w : World α) (o : SystemInvocation) (t : TypeId) (e : Entity) : World α :=
  match w.derivedOwners.lookup o with
  | none => w
  | some pairs =>
    let rest := pairs.filter (· ≠ (t, e))
    { w with derivedOwners :=
        if rest = [] then w.derivedOwners.erase o else w.derivedOwners.insert o rest }

def indexDerived (w : World α) (o : SystemInvocation) (t : TypeId) (e : Entity) : World α :=
  { w with derivedOwners := w.derivedOwners.insert o ((w.outputs o).insert (t, e)) }

def fingerprintOn (w : World α) (t : TypeId) (e : Entity) : Option Fingerprint :=
  (w.cell? t e).bind Entry.fingerprint

def presenceSet (w : World α) (t : TypeId) (e : Entity) (present : Bool) : World α :=
  { w with presence := w.presence.map (PresenceIndex.set · t e present) }

/-- Bind the entry of `t` on `e`, raise the store watermark to `mark`, and log the write. -/
def putEntry (w : World α) (t : TypeId) (e : Entity) (x : Entry α) (mark : Revision) : World α :=
  { w with
    stores := w.stores.insert t
      ⟨(w.store t).entries.insert e x,
        (w.store t).byFingerprint.move (w.fingerprintOn t e) x.fingerprint e,
        max (w.store t).watermark mark⟩
    writeLog := w.writeLog ++ [(t, e)] }

/-- What every removal path does to a present entry and its store. -/
def eraseEntry (w : World α) (t : TypeId) (e : Entity) : World α :=
  { w with
    revision := w.revision + 1
    mutations := w.mutations + 1
    stores := w.stores.insert t
      ⟨(w.store t).entries.erase e, (w.store t).byFingerprint.remove (w.fingerprintOn t e) e,
        max (w.store t).watermark (w.revision + 1)⟩
    writeLog := w.writeLog ++ [(t, e)] }

section Lemmas

variable (w : World α) (o o' : SystemInvocation) (t t' : TypeId) (e e' : Entity)

@[simp] theorem unindexDerived_stores : (w.unindexDerived o t e).stores = w.stores := by
  unfold unindexDerived
  split <;> rfl

@[simp] theorem unindexDerived_revision : (w.unindexDerived o t e).revision = w.revision := by
  unfold unindexDerived
  split <;> rfl

@[simp] theorem unindexDerived_writeLog : (w.unindexDerived o t e).writeLog = w.writeLog := by
  unfold unindexDerived
  split <;> rfl

theorem mem_outputs_unindexDerived (p : TypeId × Entity) :
    p ∈ (w.unindexDerived o t e).outputs o' ↔
      p ∈ w.outputs o' ∧ (o' = o → p ≠ (t, e)) := by
  unfold unindexDerived
  cases h : w.derivedOwners.lookup o with
  | none =>
    have hempty : w.outputs o = [] := by simp [outputs, Dict.getD, h]
    by_cases ho : o' = o
    · subst ho; simp [hempty]
    · simp [ho]
  | some pairs =>
    have hpairs : w.outputs o = pairs := by simp [outputs, Dict.getD, h]
    by_cases ho : o' = o
    · subst ho
      simp only [hpairs, true_implies]
      split_ifs with hr
      · have hp := List.filter_eq_nil_iff.mp hr p
        simp only [outputs, Dict.getD_erase, if_pos]
        simp only [ne_eq, decide_not, Bool.not_eq_true', decide_eq_false_iff_not, not_not] at hp
        constructor
        · intro hmem; cases hmem
        · intro hmem; exact absurd (hp hmem.1) hmem.2
      · simp [outputs, Dict.getD_insert]
    · simp only [ho, false_implies, and_true]
      split_ifs
      · simp [outputs, Dict.getD_erase, ho]
      · simp [outputs, Dict.getD_insert, ho]

theorem mem_outputs_indexDerived (p : TypeId × Entity) :
    p ∈ (w.indexDerived o t e).outputs o' ↔
      p ∈ w.outputs o' ∨ (o' = o ∧ p = (t, e)) := by
  by_cases ho : o' = o
  · subst ho; simp [indexDerived, outputs, Dict.getD_insert, or_comm]
  · simp [indexDerived, outputs, Dict.getD_insert, ho]

theorem cell?_putEntry (x : Entry α) (mark : Revision) :
    (w.putEntry t e x mark).cell? t' e' =
      if t' = t ∧ e' = e then some x else w.cell? t' e' := by
  by_cases ht : t' = t
  · subst ht
    simp [cell?, store, putEntry, Dict.getD_insert, Dict.lookup_insert]
  · simp [cell?, store, putEntry, Dict.getD_insert, ht]

theorem cell?_eraseEntry :
    (w.eraseEntry t e).cell? t' e' = if t' = t ∧ e' = e then none else w.cell? t' e' := by
  by_cases ht : t' = t
  · subst ht
    simp [cell?, store, eraseEntry, Dict.getD_insert, Dict.lookup_erase]
  · simp [cell?, store, eraseEntry, Dict.getD_insert, ht]

@[simp] theorem cell?_presenceSet (present : Bool) :
    (w.presenceSet t e present).cell? t' e' = w.cell? t' e' := rfl

theorem storeWatermark_putEntry (x : Entry α) (mark : Revision) :
    (w.putEntry t e x mark).storeWatermark t' =
      if t' = t then max (w.storeWatermark t) mark else w.storeWatermark t' := by
  by_cases ht : t' = t
  · subst ht; simp [storeWatermark, store, putEntry, Dict.getD_insert]
  · simp [storeWatermark, store, putEntry, Dict.getD_insert, ht]

theorem storeWatermark_eraseEntry :
    (w.eraseEntry t e).storeWatermark t' =
      if t' = t then max (w.storeWatermark t) (w.revision + 1) else w.storeWatermark t' := by
  by_cases ht : t' = t
  · subst ht; simp [storeWatermark, store, eraseEntry, Dict.getD_insert]
  · simp [storeWatermark, store, eraseEntry, Dict.getD_insert, ht]

theorem has_iff : w.has t e = true ↔ ∃ x, w.cell? t e = some x := by
  simp [has, Option.isSome_iff_exists]

end Lemmas
end World
end Porridge
