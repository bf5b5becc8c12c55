import Porridge.Lib.Branching
import Porridge.Lib.Others
import Porridge.Query.Param

/-! Tuples of parameters: validation, the product of their states, and its pruning. Planning that
panics has no result. -/
namespace Porridge

abbrev Params := List SystemParam

namespace Params

variable {α : Type} (C : Components α) (w : World α)

abbrev Picked := List (SystemParam × ParamState)

def interestTypes (ps : Params) : Option (List TypeId) :=
  (ps.mapM SystemParam.interestTypes).map List.flatten

def deltaShape (ps : Params) : DeltaShape :=
  if ps.any (·.deltaShape == .opaqueShape) then .opaqueShape
  else if ps.any (·.deltaShape == .driver) then .driver
  else .opaqueShape

def keys (state : List ParamState) : List Entity := state.flatMap ParamState.keys

def deps (ps : Params) (state : List ParamState) : List Dep :=
  (ps.zip state).flatMap fun p => p.1.deps C w p.2

/-- The rows of a joined parameter: from the pair list of the first picked provider. -/
def pairRows (p : SystemParam) (picked : Picked) : Option (List ParamState) :=
  match p.inKeyTypes, p.boundKeyTypes with
  | key :: _, _ =>
    (picked.findSome? fun other => other.1.providedMembers w other.2 key).map
      (p.statesFromCandidates w)
  | [], key :: _ =>
    match picked.findSome? fun other => other.1.providedKey w other.2 key with
    | some (some fingerprint) =>
      some (p.statesFromCandidates w (w.fingerprintCandidates key fingerprint))
    -- a provider without a fingerprint, or after the join
    | _ => none
  | [], [] => none

def pickable (p : SystemParam) (rows : List ParamState) (picked : Picked) :
    Option (List ParamState) :=
  if p.pairExpandable then pairRows w p picked else some rows

/-- The product of the rows, left to right; joins follow the states picked before them. -/
def product (picked : Picked) : List (SystemParam × List ParamState) → Option (List (List ParamState))
  | [] => some [[]]
  | (p, rows) :: rest => do
    let rows ← pickable w p rows picked
    rows.flatMap? fun s => (product (picked ++ [(p, s)]) rest).map fun tails => tails.map (s :: ·)

def provided {β : Type} (others : Picked) (provide : SystemParam → ParamState → Option β) : Option β :=
  others.findSome? fun other => provide other.1 other.2

def boundCheck (others : Picked) (key : TypeId) (fingerprint : Option Fingerprint) : Option Bool :=
  match fingerprint, provided others (fun p s => p.providedKey w s key) with
  | none, _ => none
  | some fingerprint, some (some provider) => some (provider == fingerprint)
  | some _, some none => none
  | some _, none => some false

def memberCheck (others : Picked) (key : TypeId) (member : Entity) : Option Bool :=
  match provided others (fun p s => p.providedMembers w s key) with
  | some members => some (decide (member ∈ members))
  | none => none

def absentCheck (others : Picked) (p : SystemParam) (key : TypeId) : Option Bool :=
  match provided others (fun p s => p.providedKey w s key) with
  | some (some fingerprint) => some (p.absentBindingMatches w key fingerprint)
  | _ => none

/-- The checks of a product row: equal keys, then memberships, then absences. -/
def bindingChecks (picked : Picked) : List (Option Bool) :=
  (picked.others.flatMap fun p => (p.1.1.boundKeys w p.1.2).map fun bound =>
      boundCheck w p.2 bound.1 bound.2) ++
    (picked.others.flatMap fun p => (p.1.1.inKeys p.1.2).map fun member =>
      memberCheck w p.2 member.1 member.2) ++
    picked.others.flatMap fun p => (p.1.1.absentKeys p.1.2).map fun key =>
      absentCheck w p.2 p.1.1 key

def bindingMatches (ps : Params) (state : List ParamState) : Option Bool :=
  List.checkAll (bindingChecks w (ps.zip state))

/-- Some join has several keys, so the product must be pruned. -/
def needsPrune (ps : Params) : Bool :=
  ps.any fun p => (!p.boundKeyTypes.isEmpty || !p.inKeyTypes.isEmpty) && !p.pairExpandable

def states (ps : Params) : Option (List (List ParamState)) := do
  let product ← product w [] (ps.map fun p => (p, if p.pairExpandable then [] else p.states w))
  if needsPrune ps then product.filter? (bindingMatches w ps) else some product

/-- A driver that a store size bounds by more than one row. -/
def isLarge (p : SystemParam) : Bool := p.deltaShape == .driver && decide (1 < p.rowBound w)

def expandHint (ps : Params) (hint : List Entity) : List Entity :=
  ((hint ++ ps.flatMap (·.hintProviders C w hint)).insertionSort (· ≤ ·)).dedup

def hintedRows (p : SystemParam) (hint : List Entity) : List ParamState :=
  if p.deltaShape == .pairBound then []
  else if isLarge w p then p.statesHinted w hint
  else p.states w

def tinyDirty (ps : Params) (hint : List Entity) : Bool :=
  ps.any fun p => p.deltaShape == .driver && !isLarge w p &&
    (p.states w).any fun s => s.keys.any (· ∈ hint)

def statesHinted (ps : Params) (hint : List Entity) : Option (List (List ParamState)) :=
  if 1 < ps.countP (isLarge w) then states w ps
  else
    let hint := expandHint C w ps hint
    if tinyDirty w ps hint then states w ps
    else product w [] (ps.map fun p => (p, hintedRows w p hint))

/-- Every join key has exactly one provider among the other parameters. -/
def validateBindings (ps : Params) : Except BindingError Unit := do
  ps.forM SystemParam.validateLocal
  ps.others.forM fun p => (p.1.boundKeyTypes ++ p.1.inKeyTypes).forM fun key =>
    let providers := p.2.countP (·.providesKey key)
    if providers = 1 then .ok () else .error (.providers key providers)

end Params
end Porridge
