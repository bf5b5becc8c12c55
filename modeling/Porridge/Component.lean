import Porridge.Lib.Dict

/-! Entities, component values and what a component type declares. -/
namespace Porridge

-- Ids and counters are u64 in the source; here they do not overflow.
abbrev TypeId := Nat
abbrev Entity := Nat
abbrev SystemId := Nat
abbrev Revision := Nat
abbrev Fingerprint := Nat

/-- Identity of one memoized system invocation: the system and its query entity keys. -/
structure SystemInvocation where
  system : SystemId
  keys : List Entity
deriving DecidableEq, Repr

/-- A source entity of a `DerivedFrom` fact and the revision captured for it. -/
structure DerivedAnchor where
  entity : Entity
  revision : Option Revision
deriving DecidableEq, Repr

/-- A stored component value: user data, a maintained inverse, or captured anchors. -/
inductive Value (α : Type) where
  | data (payload : α)
  | members (entities : List Entity)
  | derivedFrom (anchors : List DerivedAnchor)
deriving DecidableEq, Repr

/-- What a component type is to the engine. -/
inductive Role where
  | plain
  | singleton (key : TypeId)
  | edge (inverse : TypeId)
  | inverse (edge : TypeId)
  | derivedFrom
deriving DecidableEq, Repr

theorem Role.plain_edgeless (t inverse : TypeId) (h : Role.plain = .edge inverse) :
    Role.plain = .inverse t := by
  cases h

/-- A row is looked for among the rows of a list by comparing. -/
instance (row : TypeId × Entity) (rows : List (TypeId × Entity)) : Decidable (row ∈ rows) :=
  List.instDecidableMemOfLawfulBEq row rows

/-- The component declarations of a program, indexed by type id. -/
structure Components (α : Type) where
  tracked : TypeId → Bool
  role : TypeId → Role
  fingerprint : TypeId → Value α → Option Fingerprint
  /-- The entity an edge component's payload points at. -/
  target : TypeId → α → Entity
  /-- An edge and the inverse maintained for it name each other. -/
  inverse_role : ∀ t inverse, role t = .edge inverse → role inverse = .inverse t

namespace Components

variable {α : Type} (C : Components α)

/-- Component types that only hold data: tracked, without fingerprints. -/
def plain (α : Type) : Components α where
  tracked _ := true
  role _ := .plain
  fingerprint _ _ := none
  target _ _ := 0
  inverse_role := Role.plain_edgeless

def IsInverse (t : TypeId) : Prop := ∃ edge, C.role t = .inverse edge

def singletonKey (t : TypeId) : Option TypeId :=
  match C.role t with
  | .singleton key => some key
  | _ => none

def relationshipEdge (t : TypeId) (v : Value α) : Option (TypeId × Entity) :=
  match C.role t, v with
  | .edge inverse, .data payload => some (inverse, C.target t payload)
  | _, _ => none

def relationshipRetractions (t : TypeId) (v : Value α) : List (TypeId × Entity) :=
  match C.role t, v with
  | .inverse edge, .members sources => sources.map fun source => (edge, source)
  | _, _ => []

theorem inverse_of_relationshipEdge {t inverse : TypeId} {v : Value α} {target : Entity}
    (h : C.relationshipEdge t v = some (inverse, target)) :
    C.role inverse = .inverse t := by
  unfold relationshipEdge at h
  split at h
  · rename_i i p hr
    simp only [Option.some.injEq, Prod.mk.injEq] at h
    exact h.1 ▸ C.inverse_role t i hr
  · cases h

end Components
end Porridge
