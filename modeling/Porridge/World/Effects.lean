import Porridge.World.Basic

/-! The ways a world operation touches stores: write, drop, sweep, purge, and amend. -/
namespace Porridge.World

variable {α : Type} (C : Components α)

/-- Whether the stored fingerprint is present and equal to the new one. -/
def fingerprintMatches (w : World α) (t : TypeId) (e : Entity) (v : Value α) : Bool :=
  (w.cell? t e).any fun previous =>
    previous.fingerprint.isSome && previous.fingerprint == C.fingerprint t v

/-- The revision an unchanged tracked write reuses. -/
def keptRevision (w : World α) (t : TypeId) (e : Entity) (v : Value α) : Option Revision :=
  if C.tracked t && w.fingerprintMatches C t e v then w.revisionByType t e else none

/-- Move the ownership index entry of a pair from its previous owner to the new one. -/
def reindexDerived (w : World α) (t : TypeId) (e : Entity)
    (previous owner : Option SystemInvocation) : World α :=
  let w := match previous with
    | none => w
    | some o => if owner = some o then w else w.unindexDerived o t e
  match owner with
  | none => w
  | some o => w.indexDerived o t e

/-- Store `v` on `e`; an unchanged fingerprint of a tracked type keeps the old revision. -/
def writeEntry (w : World α) (t : TypeId) (e : Entity) (v : Value α)
    (owner : Option SystemInvocation) : World α :=
  let kept := w.keptRevision C t e v
  let revision := kept.getD (w.revision + 1)
  let w' := { w with
    nextCell := w.nextCell + 1
    revision := if kept.isSome then w.revision else w.revision + 1
    presence := w.presence.map (PresenceIndex.set · t e true)
    mutations := if w.fingerprintMatches C t e v then w.mutations else w.mutations + 1 }
  (w'.putEntry t e ⟨w.nextCell, v, revision, C.fingerprint t v, owner⟩ revision).reindexDerived t e
    (w.owner? t e) owner

def unregisterSingleton (w : World α) (t : TypeId) (e : Entity) : World α :=
  match C.singletonKey t with
  | none => w
  | some key =>
    if w.singletonEntities.lookup key = some e then
      { w with singletonEntities := w.singletonEntities.erase key }
    else w

/-- Unindex a removed pair; its owner is recorded unless it removed the component itself. -/
def disownEntry (w : World α) (t : TypeId) (e : Entity)
    (owner remover : Option SystemInvocation) : World α :=
  match owner with
  | none => w
  | some o =>
    let w := w.unindexDerived o t e
    if remover = some o then w
    else { w with removedComponentOwners := w.removedComponentOwners ++ [o] }

/-- Remove one component without maintaining the edge it may carry. -/
def dropEntry (w : World α) (t : TypeId) (e : Entity) (remover : Option SystemInvocation) :
    World α :=
  if w.has t e then
    (((w.eraseEntry t e).presenceSet t e false).disownEntry t e (w.owner? t e)
      remover).unregisterSingleton C t e
  else w

/-- Remove one store entry if `o` still owns it, leaving the ownership index alone. -/
def sweepEntry (w : World α) (t : TypeId) (e : Entity) (o : SystemInvocation) : World α :=
  if w.owner? t e = some o then (w.eraseEntry t e).presenceSet t e false else w

def componentsOn (w : World α) (e : Entity) : List TypeId := w.stores.keys.filter (w.has · e)

/-- The derived components on an entity with their owners. -/
def ownedOn (w : World α) (e : Entity) : List (SystemInvocation × TypeId) :=
  (w.componentsOn e).filterMap fun t => (w.owner? t e).map (·, t)

def eraseEntries (w : World α) (types : List TypeId) (e : Entity) : World α :=
  types.foldl (fun w t => w.eraseEntry t e) w

def unindexEntries (w : World α) (pairs : List (SystemInvocation × TypeId)) (e : Entity) :
    World α :=
  pairs.foldl (fun w p => w.unindexDerived p.1 p.2 e) w

/-- Remove every component of an entity without maintaining relationships. -/
def purgeEntity (w : World α) (e : Entity) : World α :=
  let unindexed := (w.eraseEntries (w.componentsOn e) e).unindexEntries (w.ownedOn e) e
  { unindexed with
    singletonEntities := Dict.retain (fun _ singleton => singleton ≠ e) unindexed.singletonEntities
    removedEntities := unindexed.removedEntities ++ [e]
    presence := unindexed.presence.map (PresenceIndex.clearEntity · e) }

/-- Replace a present entry without logging or moving ownership. -/
def amendEntry (w : World α) (t : TypeId) (e : Entity) (x : Entry α) (mark : Revision) :
    World α :=
  { w with
    stores := w.stores.insert t
      ⟨(w.store t).entries.insert e x,
        (w.store t).byFingerprint.move (w.fingerprintOn t e) x.fingerprint e,
        max (w.store t).watermark mark⟩ }

/-- Whether storing `v` over the present component of `t` on `e` is a tracked change. -/
def amends (w : World α) (t : TypeId) (e : Entity) (v : Value α) : Bool :=
  (w.cell? t e).any fun x =>
    C.tracked t && (x.fingerprint.isNone || x.fingerprint != C.fingerprint t v)

/-- Replace the value of a present component; a tracked change gets a fresh revision. -/
def restampEntry (w : World α) (t : TypeId) (e : Entity) (v : Value α) : World α :=
  match w.cell? t e with
  | none => w
  | some x =>
    if w.amends C t e v then
      let stamp := w.revision + 1
      { w.amendEntry t e ⟨x.cell, v, stamp, C.fingerprint t v, x.owner⟩ stamp with
        revision := stamp }
    else w.amendEntry t e ⟨x.cell, v, x.revision, C.fingerprint t v, x.owner⟩ 0

/-- A `MutRef` write to the shared cell, before the commit reconciles it. -/
def writeInPlace (w : World α) (t : TypeId) (e : Entity) (v : Value α) : World α :=
  match w.cell? t e with
  | none => w
  | some x => w.amendEntry t e { x with value := v } 0

/-- What a snapshot shows after a write to a cell: the new value, if it shares the cell. -/
def showWrite (t : TypeId) (e : Entity) (cell : Nat) (v : Value α) (snapshot : Snapshot α) :
    Snapshot α :=
  match snapshot.lookup t with
  | none => snapshot
  | some store =>
    match store.entries.lookup e with
    | none => snapshot
    | some x =>
      if x.cell = cell then
        snapshot.insert t { store with entries := store.entries.insert e { x with value := v } }
      else snapshot

section Parts

variable (w : World α) (t : TypeId) (e : Entity)

/-! What each part of an effect leaves alone: everything but the fields named. -/

theorem unindexDerived_eq (o : SystemInvocation) :
    ∃ owners, w.unindexDerived o t e = { w with derivedOwners := owners } := by
  unfold unindexDerived
  split
  · exact ⟨w.derivedOwners, rfl⟩
  · exact ⟨_, rfl⟩

theorem reindexDerived_eq (previous o : Option SystemInvocation) :
    ∃ owners, w.reindexDerived t e previous o = { w with derivedOwners := owners } := by
  have hunindexed : ∃ owners, (match previous with
      | none => w
      | some p => if o = some p then w else w.unindexDerived p t e) =
        { w with derivedOwners := owners } := by
    cases previous with
    | none => exact ⟨w.derivedOwners, rfl⟩
    | some p =>
      dsimp only
      split_ifs
      · exact ⟨w.derivedOwners, rfl⟩
      · exact unindexDerived_eq w t e p
  obtain ⟨owners, howners⟩ := hunindexed
  unfold reindexDerived
  cases o with
  | none => exact ⟨owners, howners⟩
  | some o =>
    simp only [howners, indexDerived]
    exact ⟨_, rfl⟩

theorem disownEntry_eq (o remover : Option SystemInvocation) :
    ∃ owners losers, w.disownEntry t e o remover =
      { w with derivedOwners := owners, removedComponentOwners := losers } := by
  unfold disownEntry
  cases o with
  | none => exact ⟨w.derivedOwners, w.removedComponentOwners, rfl⟩
  | some o =>
    obtain ⟨owners, howners⟩ := unindexDerived_eq w t e o
    dsimp only
    rw [howners]
    split_ifs
    · exact ⟨owners, w.removedComponentOwners, rfl⟩
    · exact ⟨owners, _, rfl⟩

theorem unregisterSingleton_eq :
    ∃ singletons, w.unregisterSingleton C t e = { w with singletonEntities := singletons } := by
  unfold unregisterSingleton
  split
  · exact ⟨w.singletonEntities, rfl⟩
  · split_ifs
    · exact ⟨_, rfl⟩
    · exact ⟨w.singletonEntities, rfl⟩

theorem eraseEntries_eq : ∀ (types : List TypeId) (w : World α),
    ∃ stores revision mutations log, w.eraseEntries types e =
      { w with stores := stores, revision := revision, mutations := mutations, writeLog := log }
  | [], w => ⟨w.stores, w.revision, w.mutations, w.writeLog, rfl⟩
  | t :: types, w => by
    obtain ⟨stores, revision, mutations, log, h⟩ := eraseEntries_eq types (w.eraseEntry t e)
    exact ⟨stores, revision, mutations, log, h⟩

theorem unindexEntries_eq : ∀ (pairs : List (SystemInvocation × TypeId)) (w : World α),
    ∃ owners, w.unindexEntries pairs e = { w with derivedOwners := owners }
  | [], w => ⟨w.derivedOwners, rfl⟩
  | p :: pairs, w => by
    obtain ⟨owners, h⟩ := unindexDerived_eq w p.2 e p.1
    obtain ⟨owners', h'⟩ := unindexEntries_eq pairs (w.unindexDerived p.1 p.2 e)
    refine ⟨owners', h'.trans ?_⟩
    rw [h]

end Parts
end Porridge.World
