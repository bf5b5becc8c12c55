import Porridge.Query.Tuple

/-! The accesses a row declares to the scheduler. -/
namespace Porridge

variable {α : Type} (w : World α)

namespace QueryPart

/-- Declared also where an optional component is absent: a writer that creates it must wait. -/
def access (part : QueryPart) (e : Entity) : List Access :=
  match part with
  | .read t => [⟨.read, t, some e⟩]
  | .optional t => [⟨.read, t, some e⟩]
  | .tracked _ h => h.map fun p => ⟨.read, p.component, some e⟩
  | .mutRef t => [⟨.write, t, some e⟩]
  | .related inverse parts =>
    ⟨.read, inverse, some e⟩ :: (w.membersOn inverse e).flatMap fun member =>
      parts.map fun p => ⟨.read, p.component, some member⟩

end QueryPart

def QueryParam.access (q : QueryParam) (e : Entity) : List Access :=
  match q with
  | .entity _ => []
  | .read t => [⟨.read, t, some e⟩]
  | .mutRef t => [⟨.write, t, some e⟩]
  | .entityParts _ parts => parts.flatMap (·.access w e)

def JoinKey.access (k : JoinKey) (e : Entity) : List Access :=
  match k with
  | .eq t => [⟨.read, t, some e⟩]
  | .inMembers _ => []
  | .and l r => l.access e ++ r.access e

def QueryFilter.access (f : QueryFilter) (e : Entity) : List Access :=
  match f with
  | .unit => []
  | .withComponent t => [⟨.read, t, some e⟩]
  | .withoutComponent t => [⟨.read, t, some e⟩]
  | .whereKey k => k.access e
  | .and l r => l.access e ++ r.access e

namespace SystemParam

def access (p : SystemParam) (s : ParamState) : List Access :=
  match p, s with
  | .query q f, .row e => q.access w e ++ f.access e
  | .outer q f, .row e => q.access w e ++ f.access e
  -- a writer that creates a matching partner must wait for the unmatched row
  | .outer q f, .absent => q.accessAll ++ f.accessAll
  | .view q f, _ => q.accessAll ++ f.accessAll
  | .trackedView q f, _ => q.accessAll ++ f.accessAll
  | _, _ => []

/-- Rows of the parameter run on every plan, whatever the memo table says. -/
def alwaysRun : SystemParam → Bool
  | .worldMeta => true
  | _ => false

/-- The rows of the parameter exist only beside those they are joined to. -/
def hasPairBound : SystemParam → Bool
  | .query _ f => !f.boundKeyTypes.isEmpty || !f.inKeyTypes.isEmpty
  | .outer _ f => !f.boundKeyTypes.isEmpty || !f.inKeyTypes.isEmpty
  | _ => false

/-- The stores read ambiently. -/
def viewFreshness : SystemParam → List TypeId
  | .view q f => (q.accessAll ++ f.accessAll).map Access.component
  | _ => []

end SystemParam

namespace Params

def access (ps : Params) (state : List ParamState) : List Access :=
  (ps.zip state).flatMap fun p => p.1.access w p.2

def alwaysRun (ps : Params) : Bool := ps.any SystemParam.alwaysRun

def hasPairBound (ps : Params) : Bool := ps.any SystemParam.hasPairBound

def viewFreshness (ps : Params) : List TypeId :=
  ((ps.flatMap SystemParam.viewFreshness).insertionSort (· ≤ ·)).dedup

end Params
end Porridge
