import Porridge.Query.View

/-! External queries: filter expressions over runtime arguments. -/
namespace Porridge

/-- How component types compare their values. -/
structure Comparisons (α : Type) where
  eq : TypeId → Value α → Value α → Bool
  ge : TypeId → Value α → Value α → Bool

/-- The expression under an external `Where`. -/
inductive FilterExpr where
  | eq (component : TypeId)
  | gte (component : TypeId)
  | withComponent (component : TypeId)
  | withoutComponent (component : TypeId)
  | and (left right : FilterExpr)
  | or (left right : FilterExpr)
  | not (inner : FilterExpr)
deriving DecidableEq, Repr

inductive ExternalFilter where
  | unit
  | withComponent (component : TypeId)
  | withoutComponent (component : TypeId)
  | whereExpr (expr : FilterExpr)
deriving DecidableEq, Repr

/-- The runtime values bound to a query, by component. -/
abbrev QueryArgs (α : Type) := TypeId → Value α

section Filters

variable {α : Type} (C : Components α) (cmp : Comparisons α) (w : World α) (args : QueryArgs α)

namespace FilterExpr

def matchesRow (x : FilterExpr) (e : Entity) : Bool :=
  match x with
  | .eq t => (w.cell? t e).any fun entry => cmp.eq t entry.value (args t)
  | .gte t => (w.cell? t e).any fun entry => cmp.ge t entry.value (args t)
  | .withComponent t => w.has t e
  | .withoutComponent t => !w.has t e
  | .and l r => l.matchesRow e && r.matchesRow e
  | .or l r => l.matchesRow e || r.matchesRow e
  | .not x => !x.matchesRow e

/-- A superset of the matches, where the index narrows them. -/
def candidates : FilterExpr → Option (List Entity)
  | .eq t => (C.fingerprint t (args t)).map (w.fingerprintCandidates t)
  | .withComponent t => some (w.entitiesWith t)
  | .and l r => l.candidates <|> r.candidates
  | _ => none

end FilterExpr

namespace ExternalFilter

def matchesRow (f : ExternalFilter) (e : Entity) : Bool :=
  match f with
  | .unit => true
  | .withComponent t => w.has t e
  | .withoutComponent t => !w.has t e
  | .whereExpr x => x.matchesRow cmp w args e

def entityCandidates : ExternalFilter → Option (List Entity)
  | .withComponent t => some (w.entitiesWith t)
  | .whereExpr x => x.candidates C w args
  | _ => none

end ExternalFilter

def externalFilteredRows (q : QueryParam) (f : ExternalFilter) : List Entity :=
  (q.rowsHinted w (f.entityCandidates C w args)).filter (f.matchesRow cmp w args)

end Filters

section View

variable {α : Type} {C : Components α} {cmp : Comparisons α} {w w' : World α}
  {schema schema' : Option (List TypeId)} {args : QueryArgs α}

theorem FilterExpr.matchesRow_view (h : SameView .all w w')
    (hvalues : ∀ t e, (w'.cell? t e).map Entry.value = (w.cell? t e).map Entry.value)
    (e : Entity) : ∀ x : FilterExpr,
    x.matchesRow cmp w' args e = x.matchesRow cmp w args e
  | .eq t => by
    have hany : ∀ u : World α, (u.cell? t e).any (fun x => cmp.eq t x.value (args t)) =
        ((u.cell? t e).map Entry.value).any (cmp.eq t · (args t)) := fun u => by
      cases u.cell? t e <;> rfl
    rw [matchesRow, matchesRow, hany, hany, hvalues]
  | .gte t => by
    have hany : ∀ u : World α, (u.cell? t e).any (fun x => cmp.ge t x.value (args t)) =
        ((u.cell? t e).map Entry.value).any (cmp.ge t · (args t)) := fun u => by
      cases u.cell? t e <;> rfl
    rw [matchesRow, matchesRow, hany, hany, hvalues]
  | .withComponent t => h.has t trivial e
  | .withoutComponent t => congrArg _ (h.has t trivial e)
  | .and l r => by rw [matchesRow, matchesRow, matchesRow_view h hvalues e l, matchesRow_view h hvalues e r]
  | .or l r => by rw [matchesRow, matchesRow, matchesRow_view h hvalues e l, matchesRow_view h hvalues e r]
  | .not x => by rw [matchesRow, matchesRow, matchesRow_view h hvalues e x]

theorem FilterExpr.candidates_view (h : SameView .all w w') : ∀ x : FilterExpr,
    x.candidates C w' args = x.candidates C w args
  | .eq t => congrArg (fun bucket => (C.fingerprint t (args t)).map bucket) (funext (h.buckets t trivial))
  | .withComponent t => congrArg some (h.entitiesWith t)
  | .and l r => by rw [candidates, candidates, candidates_view h l, candidates_view h r]
  | .gte _ | .withoutComponent _ | .or _ _ | .not _ => rfl

/-- Worlds with the same view answer every external query alike. -/
theorem SameView.externalFilteredRows (h : SameView .all w w')
    (hvalues : ∀ t e, (w'.cell? t e).map Entry.value = (w.cell? t e).map Entry.value)
    (hp : w.Present schema) (hp' : w'.Present schema') (q : QueryParam) (f : ExternalFilter) :
    externalFilteredRows C cmp w' args q f = externalFilteredRows C cmp w args q f := by
  have hcandidates : f.entityCandidates C w' args = f.entityCandidates C w args := by
    cases f with
    | withComponent t => exact congrArg some (h.entitiesWith t)
    | whereExpr x => exact x.candidates_view h
    | _ => rfl
  have hmatches : ∀ e, f.matchesRow cmp w' args e = f.matchesRow cmp w args e := by
    intro e
    cases f with
    | unit => rfl
    | withComponent t => exact h.has t trivial e
    | withoutComponent t => exact congrArg not (h.has t trivial e)
    | whereExpr x => exact x.matchesRow_view h hvalues e
  unfold Porridge.externalFilteredRows
  rw [hcandidates, h.rowsHinted hp hp']
  exact List.filter_congr fun e _ => hmatches e

end View
end Porridge
