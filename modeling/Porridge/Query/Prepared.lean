import Porridge.Query.Planned

/-! Collectors prepared once a snapshot for the rows of joined parameters, and the buffers that the
product refills from them. -/
namespace Porridge

variable {α : Type}

/-- What the rows of an entity tuple are tested by: a mask, or else the facet and the parts. -/
structure EntityRows where
  required : List TypeId
  mask : Option (List Nat)

def EntityRows.new (w : World α) (h : Facet) (parts : List QueryPart) : EntityRows :=
  let required := h.required ++ parts.filterMap QueryPart.presenceRequirement
  -- the parts are probed by their own predicates: only the facet is kept beside the mask
  ⟨required.take h.required.length, w.presence.bind (·.mask required)⟩

def EntityRows.matchesRow (rows : EntityRows) (w : World α) (parts : List QueryPart) (e : Entity) :
    Bool :=
  match rows.mask, w.presence with
  | some mask, some presence => presence.matchesMask e mask
  | _, _ => rows.required.all (w.has · e) && parts.all (·.matchesRow w e)

def QueryParam.preparedRows (w : World α) (q : QueryParam) (candidates : List Entity) : List Entity :=
  match q with
  | .read t => candidates.filter (w.has t)
  | .mutRef t => candidates.filter (w.has t)
  | .entityParts h parts =>
    let rows := EntityRows.new w h parts
    candidates.filter (rows.matchesRow w parts)
  -- a bare handle has no collector of its own
  | q => q.rowsHinted w (some candidates)

def SystemParam.preparedStates (w : World α) (p : SystemParam) (candidates : List Entity) :
    List ParamState :=
  match p with
  | .query q f => ((q.preparedRows w candidates).filter (f.matchesRow w)).map .row
  | p => p.statesFromCandidates w candidates

/-- How a parameter follows the states picked before it. -/
inductive Binding where
  | unbound
  | membership (key : TypeId)
  | equality (key : TypeId)
  | invalid
deriving DecidableEq, Repr

structure Buffer where
  rows : List ParamState
  binding : Binding
  prepared : Option (List Entity → List ParamState)

/-- The buffer of a parameter: its own rows, or what a join refills it by. -/
def SystemParam.buffer (w : World α) (p : SystemParam) (rows : List ParamState) : Buffer where
  rows := rows
  binding :=
    if p.pairExpandable = false then .unbound
    else match p.inKeyTypes.head?, p.boundKeyTypes.head? with
      | some key, _ => .membership key
      | none, some key => .equality key
      | none, none => .invalid
  prepared := if p.pairExpandable then some (p.preparedStates w) else none

/-- The rows behind the states picked so far; a join without a provider among them panics. -/
def Buffer.fill (w : World α) (head : Buffer) (picked : Params.Picked) : Option (List ParamState) :=
  match head.binding with
  | .unbound => some head.rows
  | .membership key => do
    let members ← picked.findSome? fun other => other.1.providedMembers w other.2 key
    let prepared ← head.prepared
    some (prepared members)
  | .equality key => do
    let provided ← picked.findSome? fun other => other.1.providedKey w other.2 key
    let fingerprint ← provided
    let prepared ← head.prepared
    some (prepared (w.fingerprintCandidates key fingerprint))
  | .invalid => none

namespace Params

def forEachState (w : World α) (picked : Picked) :
    List (SystemParam × Buffer) → Option (List (List ParamState))
  | [] => some [[]]
  | (p, head) :: rest => do
    let rows ← head.fill w picked
    rows.flatMap? fun s => (forEachState w (picked ++ [(p, s)]) rest).map fun tails =>
      tails.map (s :: ·)

def bufferedStates (w : World α) (ps : Params) : Option (List (List ParamState)) := do
  let buffers := ps.map fun p => (p, p.buffer w (if p.pairExpandable then [] else p.states w))
  let product ← forEachState w [] buffers
  if needsPrune ps then product.filter? (bindingMatches w ps) else some product

end Params

section Agreement

variable {w : World α} {schema : Option (List TypeId)}

theorem QueryParam.preparedRows_eq (hp : w.Present schema) (q : QueryParam)
    (candidates : List Entity) : q.preparedRows w candidates = q.rowsHinted w (some candidates) := by
  rw [q.rowsHinted_some hp]
  cases q with
  | entity h => exact (QueryParam.entity h).rowsHinted_some hp candidates
  | read t => rfl
  | mutRef t => rfl
  | entityParts h parts =>
    refine List.filter_congr fun e _ => ?_
    have hrequired : (EntityRows.new w h parts).required = h.required := List.take_left
    unfold EntityRows.matchesRow
    split
    · rename_i mask presence hmask hpresence
      have hfound : presence.mask (h.required ++
          parts.filterMap QueryPart.presenceRequirement) = some mask := by
        rw [EntityRows.new, hpresence] at hmask
        exact hmask
      rw [(hp.shows presence hpresence).1.matchesMask e hfound, List.all_append,
        all_presenceRequirement]
      rfl
    · rw [hrequired]
      rfl

theorem SystemParam.preparedStates_eq (hp : w.Present schema) (p : SystemParam)
    (candidates : List Entity) : p.preparedStates w candidates = p.statesFromCandidates w candidates := by
  cases p with
  | query q f =>
    rw [preparedStates, q.preparedRows_eq hp]
    rfl
  | _ => rfl

theorem Buffer.fill_eq (hp : w.Present schema) (p : SystemParam) (rows : List ParamState)
    (picked : Params.Picked) : (p.buffer w rows).fill w picked = Params.pickable w p rows picked := by
  unfold Params.pickable
  by_cases hexpand : p.pairExpandable = true
  · have hstates : p.preparedStates w = p.statesFromCandidates w :=
      funext fun candidates => p.preparedStates_eq hp candidates
    rw [if_pos hexpand]
    unfold Buffer.fill SystemParam.buffer Params.pairRows
    simp only [hexpand, Bool.true_eq_false, if_false, if_true, hstates]
    cases p.inKeyTypes with
    | cons key _ =>
      dsimp only [List.head?_cons]
      cases picked.findSome? fun other => other.1.providedMembers w other.2 key <;> rfl
    | nil =>
      cases p.boundKeyTypes with
      | nil => rfl
      | cons key _ =>
        dsimp only [List.head?_cons, List.head?_nil]
        cases picked.findSome? fun other => other.1.providedKey w other.2 key with
        | none => rfl
        | some found => cases found <;> rfl
  · have hunbound : p.pairExpandable = false := Bool.eq_false_iff.mpr hexpand
    rw [if_neg hexpand, fill, SystemParam.buffer, if_pos hunbound]

theorem Params.forEachState_eq (hp : w.Present schema) :
    ∀ (rest : List (SystemParam × List ParamState)) (picked : Picked),
      forEachState w picked (rest.map fun x => (x.1, x.1.buffer w x.2)) = product w picked rest
  | [], _ => rfl
  | (p, rows) :: rest, picked => by
    have hrest := forEachState_eq hp rest
    simp only [List.map_cons, forEachState, product, Buffer.fill_eq hp, hrest]

/-- The buffers hold what the pair lists offer. -/
theorem Params.bufferedStates_eq (hp : w.Present schema) (ps : Params) :
    bufferedStates w ps = states w ps := by
  have hproduct := forEachState_eq hp
    (ps.map fun p => (p, if p.pairExpandable then [] else p.states w)) []
  rw [List.map_map] at hproduct
  unfold bufferedStates states
  dsimp only
  rw [← hproduct]
  rfl

end Agreement
end Porridge
