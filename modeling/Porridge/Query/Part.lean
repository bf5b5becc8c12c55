import Porridge.Memo
import Porridge.Query.Enumeration
import Porridge.World.Relationships

/-! The parts an entity query reads, and what each observes on a row. -/
namespace Porridge

inductive AccessKind where
  | read
  | write
deriving DecidableEq, Repr

/-- A declared use of one row of a component, or of the whole store. -/
structure Access where
  kind : AccessKind
  component : TypeId
  entity : Option Entity
deriving DecidableEq, Repr

structure FacetPart where
  component : TypeId
  optional : Bool
deriving DecidableEq, Repr

/-- The components a handle names; an untyped handle names none. -/
abbrev Facet := List FacetPart

def Facet.required (h : Facet) : List TypeId :=
  (h.filter fun part => !part.optional).map FacetPart.component

/-- What a relationship projection reads on each member. -/
inductive MemberPart where
  | read (component : TypeId)
  | optional (component : TypeId)
deriving DecidableEq, Repr

inductive QueryPart where
  | read (component : TypeId)
  | optional (component : TypeId)
  /-- Depends on a whole facet; `marker` is the type id of the part itself. -/
  | tracked (marker : TypeId) (facet : Facet)
  | mutRef (component : TypeId)
  | related (inverse : TypeId) (parts : List MemberPart)
deriving DecidableEq, Repr

/-- The member list of an inverse value; no other value has one. -/
def Value.relationshipMembers {α : Type} : Value α → Option (List Entity)
  | .members entities => some entities
  | _ => none

section Facets

variable {α : Type}

/-- The entities a handle enumerates: those with every required component of its facet. -/
def facetRows (w : World α) (h : Facet) : List Entity :=
  let required := h.required
  if required = [] then w.denseIds
  else
    match w.presenceMask required with
    | some (p, mask) => p.entitiesMatching mask
    | none =>
      match required.argmin w.storeLen with
      | none => []
      | some driver => (w.entitiesWith driver).filter fun e => required.all (w.has · e)

end Facets

section Deps

variable {α : Type} (C : Components α) (w : World α)

/-- The observation of one component; a required read finds it, an optional one may not. -/
def componentDep (t : TypeId) (e : Entity) : List Dep :=
  if C.tracked t then [⟨t, e, w.revisionByType t e, false⟩] else []

def storeWatermarkDep (t : TypeId) : Dep := ⟨t, 0, some (w.storeWatermark t), true⟩

def edgeTargets (inverse : TypeId) (members : List Entity) : List Entity :=
  match C.role inverse with
  | .inverse edge => members.filterMap fun member => (w.edgeOn C edge member).map Prod.snd
  | _ => []

end Deps

namespace MemberPart

variable {α : Type}

def component : MemberPart → TypeId
  | .read t => t
  | .optional t => t

def observedMemberDeps (C : Components α) (w : World α) (part : MemberPart) (e : Entity) :
    List Dep := componentDep C w part.component e

end MemberPart

namespace QueryPart

variable {α : Type} (C : Components α) (w : World α)

/-- The size of the part's store; unbounded where the part never constrains a row. -/
def storeLen : QueryPart → WithTop Nat
  | .read t => w.storeLen t
  | .mutRef t => w.storeLen t
  | _ => ⊤

def candidates : QueryPart → List Entity
  | .read t => w.entitiesWith t
  | .mutRef t => w.entitiesWith t
  | .tracked _ h => facetRows w h
  | .optional _ => w.denseIds
  | .related _ _ => w.denseIds

/-- The component a row must carry for this part. -/
def presenceRequirement : QueryPart → Option TypeId
  | .read t => some t
  | .mutRef t => some t
  | _ => none

def matchesRow (part : QueryPart) (e : Entity) : Bool :=
  match part with
  | .read t => w.has t e
  | .mutRef t => w.has t e
  | _ => true

def interestTypes : QueryPart → List TypeId
  | .read t => [t]
  | .optional t => [t]
  | .tracked _ h => h.map FacetPart.component
  | .mutRef t => [t]
  | .related inverse parts => inverse :: parts.map MemberPart.component

/-- The owners whose rows read one of the hinted members. -/
def hintProviders (part : QueryPart) (hint : List Entity) : List Entity :=
  match part with
  | .related inverse _ => edgeTargets C w inverse hint
  | _ => []

def supportsWholeStoreView : QueryPart → Bool
  | .related _ _ => false
  | _ => true

def deps (part : QueryPart) (e : Entity) : List Dep :=
  match part with
  | .read t => componentDep C w t e
  | .optional t => componentDep C w t e
  | .tracked _ h => h.flatMap fun p => componentDep C w p.component e
  | .mutRef t => componentDep C w t e
  | .related inverse parts =>
    componentDep C w inverse e ++ (w.membersOn inverse e).flatMap fun member =>
      parts.flatMap fun p => p.observedMemberDeps C w member

def accessAll : QueryPart → Access
  | .read t => ⟨.read, t, none⟩
  | .optional t => ⟨.read, t, none⟩
  | .tracked marker _ => ⟨.read, marker, none⟩
  | .mutRef t => ⟨.write, t, none⟩
  | .related inverse _ => ⟨.read, inverse, none⟩

/-- Only a read provides a join key: the invocation it binds cannot write it. -/
def providesKey (part : QueryPart) (key : TypeId) : Bool :=
  match part with
  | .read t => key == t
  | _ => false

def providedKey (part : QueryPart) (e : Entity) (key : TypeId) : Option (Option Fingerprint) :=
  if part.providesKey key then some (w.fingerprintOn key e) else none

/-- The member list of a maintained inverse that the part reads. -/
def providedMembers (part : QueryPart) (e : Entity) (key : TypeId) : Option (List Entity) :=
  if part.providesKey key then (w.cell? key e).bind fun x => x.value.relationshipMembers
  else none

end QueryPart
end Porridge
