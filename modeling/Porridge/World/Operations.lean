import Mathlib.Data.List.Sort
import Porridge.World.Effects

/-! World operations: inserts, removals with relationship maintenance, and output replacement. -/
namespace Porridge

def Value.memberList {α : Type} : Value α → List Entity
  | .members entities => entities
  | _ => []

namespace World

variable {α : Type} (C : Components α)

def relationshipAddMember (w : World α) (inverse : TypeId) (source target : Entity) : World α :=
  let members := ((w.cell? inverse target).map fun x => x.value.memberList).getD []
  if source ∈ members then w
  else w.writeEntry C inverse target (.members (members.orderedInsert (· ≤ ·) source)) none

def relationshipRemoveMember (w : World α) (inverse : TypeId) (source target : Entity) :
    World α :=
  match w.cell? inverse target with
  | none => w
  | some x =>
    if source ∈ x.value.memberList then
      let members := x.value.memberList.erase source
      if members = [] then w.dropEntry C inverse target none
      else w.writeEntry C inverse target (.members members) none
    else w

def retractEdge (w : World α) (source : Entity) : Option (TypeId × Entity) → World α
  | none => w
  | some (inverse, target) => w.relationshipRemoveMember C inverse source target

def establishEdge (w : World α) (source : Entity) : Option (TypeId × Entity) → World α
  | none => w
  | some (inverse, target) => w.relationshipAddMember C inverse source target

def edgeOn (w : World α) (t : TypeId) (e : Entity) : Option (TypeId × Entity) :=
  (w.cell? t e).bind fun x => C.relationshipEdge t x.value

/-- Resolve `DerivedFrom` anchors against the current world. -/
def capture (w : World α) : Value α → Value α
  | .derivedFrom anchors =>
    .derivedFrom (anchors.map fun a => { a with revision := w.entityRevision C a.entity })
  | v => v

/-- Register the singleton entity of `t`; a second entity is refused with a panic. -/
def registerSingleton (w : World α) (t : TypeId) (e : Entity) : Option (World α) :=
  match C.singletonKey t with
  | none => some w
  | some key =>
    match w.singletonEntities.lookup key with
    | some existing => if existing = e then some w else none
    | none => some { w with singletonEntities := w.singletonEntities.insert key e }

/-- Write a component and keep the inverse of its relationship target current. -/
def insertEntry (w : World α) (t : TypeId) (e : Entity) (v : Value α)
    (owner : Option SystemInvocation) : World α :=
  let edge := C.relationshipEdge t v
  let previousEdge := w.edgeOn C t e
  let written := w.writeEntry C t e v owner
  if previousEdge.map Prod.snd = edge.map Prod.snd then written
  else (written.retractEdge C e previousEdge).establishEdge C e edge

/-- Register the singleton the type may be and write the component. -/
def insertNow (w : World α) (t : TypeId) (e : Entity) (v : Value α)
    (owner : Option SystemInvocation) : Option (World α) :=
  (w.registerSingleton C t e).map fun w' => w'.insertEntry C t e v owner

/-- Whether an insert waits for the end of its buffer, and the anchors it carries. -/
def deferredAnchors (w : World α) (t : TypeId) : Value α → Option (List DerivedAnchor)
  | .derivedFrom anchors =>
    if C.role t = .derivedFrom ∧ w.flushingAnchors = false then some anchors else none
  | _ => none

/-- Insert a component; `DerivedFrom` waits for the end of its buffer. -/
def insert (w : World α) (t : TypeId) (e : Entity) (v : Value α)
    (owner : Option SystemInvocation) : Option (World α) :=
  match w.deferredAnchors C t v with
  | some anchors =>
    some { w with pendingDerivedFrom := w.pendingDerivedFrom ++ [⟨t, e, anchors, owner⟩] }
  | none => w.insertNow C t e (w.capture C v) owner

/-- Apply the deferred `DerivedFrom` inserts of the buffer that just finished. -/
def flushDerivedFrom (w : World α) : Option (World α) :=
  let start := { w with pendingDerivedFrom := [], flushingAnchors := true }
  let flushed := w.pendingDerivedFrom.foldlM (fun w p =>
    w.insert C p.component p.entity (.derivedFrom p.anchors) p.owner) start
  flushed.map fun w => { w with flushingAnchors := false }

def removeComponent (w : World α) (t : TypeId) (e : Entity)
    (remover : Option SystemInvocation) : World α :=
  (w.dropEntry C t e remover).retractEdge C e (w.edgeOn C t e)

def removeDerivedEntry (w : World α) (t : TypeId) (e : Entity) (o : SystemInvocation) :
    World α :=
  if w.owner? t e = some o then (w.sweepEntry t e o).retractEdge C e (w.edgeOn C t e) else w

def edgesOn (w : World α) (e : Entity) : List (TypeId × Entity) :=
  (w.componentsOn e).filterMap fun t => w.edgeOn C t e

/-- The edge components that point at an entity, as its inverses list them. -/
def retractionsOn (w : World α) (e : Entity) : List (TypeId × Entity) :=
  (w.componentsOn e).flatMap fun t =>
    ((w.cell? t e).map fun x => C.relationshipRetractions t x.value).getD []

def ownersOn (w : World α) (e : Entity) : List SystemInvocation := (w.ownedOn e).map Prod.fst

/-- Remove an entity, retract its edges and every edge that points at it. -/
def removeEntity (w : World α) (e : Entity) : World α :=
  let purged := w.purgeEntity e
  let retracted := (w.edgesOn C e).foldl (fun w edge => w.retractEdge C e (some edge)) purged
  let freed := (w.retractionsOn C e).foldl
    (fun w edge => w.removeComponent C edge.1 edge.2 none) retracted
  { freed with removedOwners := freed.removedOwners ++ w.ownersOn e }

/-- Mutate one live component; only a tracked change is logged. -/
def updateComponent (w : World α) (t : TypeId) (e : Entity) (v : Value α) : World α :=
  if w.amends C t e v then
    let w' := w.restampEntry C t e v
    { w' with writeLog := w'.writeLog ++ [(t, e)] }
  else w.restampEntry C t e v

/-- Recompute the fingerprint of a row written in place. -/
def reconcileEntry (w : World α) (t : TypeId) (e : Entity) : World α :=
  match w.cell? t e with
  | none => w
  | some x => w.restampEntry C t e x.value

/-- Reconcile the rows a finished invocation wrote in place, logging each. -/
def reconcileWritten (w : World α) (writes : List (TypeId × Entity)) : World α :=
  writes.foldl (fun w p =>
    if p.1 ∈ w.stores then
      let w' := w.reconcileEntry C p.1 p.2
      { w' with writeLog := w'.writeLog ++ [p] }
    else w) w

end World
end Porridge
