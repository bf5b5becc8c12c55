import Porridge.Query.Shape

/-! Parameters of system functions: the states they contribute and how those join. -/
namespace Porridge

inductive DeltaShape where
  | inert
  | driver
  | pairBound
  | opaqueShape
deriving DecidableEq, Repr

inductive SystemParam where
  | query (q : QueryParam) (f : QueryFilter)
  /-- An outer join: the query or its absence. -/
  | outer (q : QueryParam) (f : QueryFilter)
  | view (q : QueryParam) (f : QueryFilter)
  | trackedView (q : QueryParam) (f : QueryFilter)
  | commands
  | worldMeta
deriving DecidableEq, Repr

inductive ParamState where
  | unit
  | row (entity : Entity)
  | absent
deriving DecidableEq, Repr

def ParamState.keys : ParamState → List Entity
  | .row e => [e]
  | _ => []

/-- Why the bindings of a system are rejected. -/
inductive BindingError where
  | viewRelated
  | viewBound (key : TypeId)
  | trackedViewRelated
  | trackedViewWrites
  | trackedViewBound (key : TypeId)
  | trackedViewIn (key : TypeId)
  | outerUnbound
  | providers (key : TypeId) (found : Nat)
deriving DecidableEq, Repr

def trackedViewTypes (q : QueryParam) (f : QueryFilter) : List TypeId :=
  (((q.accessAll ++ f.accessAll).map Access.component).insertionSort (· ≤ ·)).dedup

namespace SystemParam

variable {α : Type} (C : Components α) (w : World α)

def states : SystemParam → List ParamState
  | .query q f => (filteredRows w q f).map .row
  -- the absent placeholder is always enumerated; `bindingMatches` prunes it
  | .outer q f => (filteredRows w q f).map .row ++ [.absent]
  | _ => [.unit]

def statesHinted (p : SystemParam) (hint : List Entity) : List ParamState :=
  match p with
  | .query q f => (filteredRowsFromCandidates w q f hint).map .row
  | p => p.states w

def statesFromCandidates (p : SystemParam) (candidates : List Entity) : List ParamState :=
  match p with
  | .query q f => (filteredRowsFromCandidates w q f candidates).map .row
  | p => p.states w

/-- Whether a provider's pair list can stand in for the rows: a join with a single key. -/
def pairExpandable : SystemParam → Bool
  | .query _ f => f.inKeyTypes.length + f.boundKeyTypes.length == 1
  | _ => false

def deltaShape : SystemParam → DeltaShape
  | .query q f =>
    if f.boundKeyTypes.isEmpty && f.inKeyTypes.isEmpty then .driver
    else if (SystemParam.query q f).pairExpandable then .pairBound
    else .opaqueShape
  | .view _ _ => .inert
  | .commands => .inert
  | _ => .opaqueShape

def rowBound : SystemParam → WithTop Nat
  | .query q f => min (q.rowBound w) (f.candidateBound w)
  | _ => ⊤

def hintProviders (p : SystemParam) (hint : List Entity) : List Entity :=
  match p with
  | .query q f => q.hintProviders C w hint ++ f.hintProviders C w hint
  | _ => []

def queryInterestTypes (q : QueryParam) (f : QueryFilter) : Option (List TypeId) :=
  match q.interestTypes with
  | some interest => some (interest ++ f.interestTypes)
  | none => if f.drivesCandidates then some f.interestTypes else none

def interestTypes : SystemParam → Option (List TypeId)
  | .query q f => queryInterestTypes q f
  | .outer q f => queryInterestTypes q f
  | .view _ _ => some []
  | .trackedView q f => some (trackedViewTypes q f)
  | .commands => some []
  | .worldMeta => none

def deps (p : SystemParam) (s : ParamState) : List Dep :=
  match p, s with
  | .query q f, .row e => q.deps C w e ++ f.deps C w e
  | .outer q f, .row e => q.deps C w e ++ f.deps C w e
  | .outer q f, .absent =>
    q.accessAll.map (fun access => storeWatermarkDep w access.component) ++
      f.boundKeyTypes.map (storeWatermarkDep w)
  | .trackedView q f, _ => (trackedViewTypes q f).map (storeWatermarkDep w)
  | _, _ => []

/-- The keys by which a row must equal its providers. -/
def boundKeys (p : SystemParam) (s : ParamState) : List (TypeId × Option Fingerprint) :=
  match p, s with
  | .query _ f, .row e => f.boundKeys w e
  | .outer _ f, .row e => f.boundKeys w e
  | _, _ => []

def boundKeyTypes : SystemParam → List TypeId
  | .query _ f => f.boundKeyTypes
  | .outer _ f => f.boundKeyTypes
  | _ => []

/-- The inverses that must list a row; an outer join does not forward them. -/
def inKeys (p : SystemParam) (s : ParamState) : List (TypeId × Entity) :=
  match p, s with
  | .query _ f, .row e => f.inKeys e
  | _, _ => []

def inKeyTypes : SystemParam → List TypeId
  | .query _ f => f.inKeyTypes
  | _ => []

/-- The key types of which an absent placeholder must find no matching row. -/
def absentKeys (p : SystemParam) (s : ParamState) : List TypeId :=
  match p, s with
  | .outer _ f, .absent => f.boundKeyTypes
  | _, _ => []

/-- No row of the inner query carries an equal key. -/
def absentBindingMatches (p : SystemParam) (key : TypeId) (fingerprint : Fingerprint) : Bool :=
  match p with
  | .outer q f => !(filteredRows w q f).any fun e =>
      (f.boundKeys w e).any fun bound => bound.1 == key && bound.2 == some fingerprint
  | _ => true

def providesKey (p : SystemParam) (key : TypeId) : Bool :=
  match p with
  | .query q _ => q.providesKey key
  | _ => false

def providedKey (p : SystemParam) (s : ParamState) (key : TypeId) : Option (Option Fingerprint) :=
  match p, s with
  | .query q _, .row e => q.providedKey w e key
  | _, _ => none

def providedMembers (p : SystemParam) (s : ParamState) (key : TypeId) : Option (List Entity) :=
  match p, s with
  | .query q _, .row e => q.providedMembers w e key
  | _, _ => none

def validateLocal : SystemParam → Except BindingError Unit
  | .outer _ f => if f.boundKeyTypes.isEmpty then .error .outerUnbound else .ok ()
  | .view q f =>
    if q.supportsWholeStoreView = false then .error .viewRelated
    else match f.boundKeyTypes.head? with
      | some key => .error (.viewBound key)
      | none => .ok ()
  | .trackedView q f =>
    if q.supportsWholeStoreView = false then .error .trackedViewRelated
    else if q.accessAll.any (·.kind == .write) then .error .trackedViewWrites
    else match f.boundKeyTypes.head?, f.inKeyTypes.head? with
      | some key, _ => .error (.trackedViewBound key)
      | none, some key => .error (.trackedViewIn key)
      | none, none => .ok ()
  | _ => .ok ()

end SystemParam

/-- The dep records the revision that the world has for one tracked component of one entity. -/
structure Dep.OfRow {α : Type} (C : Components α) (w : World α) (d : Dep) : Prop where
  single : d.storeScoped = false
  tracked : C.tracked d.component = true
  revision : d.revision = w.revisionByType d.component d.entity

section Observed

variable {α : Type} {C : Components α} {w : World α} {e : Entity} {d : Dep}

theorem ofRow_of_mem_componentDep {t : TypeId} (hd : d ∈ componentDep C w t e) : d.OfRow C w := by
  unfold componentDep at hd
  split_ifs at hd with htracked
  · cases List.mem_singleton.mp hd
    exact ⟨rfl, htracked, rfl⟩
  · cases hd

theorem JoinKey.ofRow_of_mem_deps : ∀ {k : JoinKey}, d ∈ k.deps C w e → d.OfRow C w
  | .eq _, hd => ofRow_of_mem_componentDep hd
  | .inMembers _, hd => nomatch hd
  | .and _ _, hd => (List.mem_append.mp hd).elim ofRow_of_mem_deps ofRow_of_mem_deps

theorem QueryFilter.ofRow_of_mem_deps : ∀ {f : QueryFilter}, d ∈ f.deps C w e → d.OfRow C w
  | .unit, hd => nomatch hd
  | .withComponent _, hd => ofRow_of_mem_componentDep hd
  | .withoutComponent _, hd => nomatch hd
  | .whereKey _, hd => JoinKey.ofRow_of_mem_deps hd
  | .and _ _, hd => (List.mem_append.mp hd).elim ofRow_of_mem_deps ofRow_of_mem_deps

theorem QueryPart.ofRow_of_mem_deps {part : QueryPart} (hd : d ∈ part.deps C w e) : d.OfRow C w := by
  cases part with
  | read t => exact ofRow_of_mem_componentDep hd
  | optional t => exact ofRow_of_mem_componentDep hd
  | mutRef t => exact ofRow_of_mem_componentDep hd
  | tracked marker h =>
    obtain ⟨p, -, hp⟩ := List.mem_flatMap.mp hd
    exact ofRow_of_mem_componentDep hp
  | related inverse parts =>
    rcases List.mem_append.mp hd with hd | hd
    · exact ofRow_of_mem_componentDep hd
    · obtain ⟨member, -, hd⟩ := List.mem_flatMap.mp hd
      obtain ⟨p, -, hd⟩ := List.mem_flatMap.mp hd
      exact ofRow_of_mem_componentDep hd

theorem QueryParam.ofRow_of_mem_deps {q : QueryParam} (hd : d ∈ q.deps C w e) : d.OfRow C w := by
  cases q with
  | entity _ => cases hd
  | read t => exact ofRow_of_mem_componentDep hd
  | mutRef t => exact ofRow_of_mem_componentDep hd
  | entityParts facet parts =>
    obtain ⟨part, -, hd⟩ := List.mem_flatMap.mp hd
    exact part.ofRow_of_mem_deps hd

/-- A parameter records revisions of rows, or the watermark of a store. -/
theorem SystemParam.observed_of_mem_deps {p : SystemParam} {s : ParamState}
    (hd : d ∈ p.deps C w s) : d.OfRow C w ∨ ∃ t, d = storeWatermarkDep w t := by
  have hrow : ∀ {e : Entity} {q : QueryParam} {f : QueryFilter},
      d ∈ q.deps C w e ++ f.deps C w e → d.OfRow C w := by
    intro e q f hd
    exact (List.mem_append.mp hd).elim q.ofRow_of_mem_deps f.ofRow_of_mem_deps
  have hmarks : ∀ {types : List TypeId}, d ∈ types.map (storeWatermarkDep w) →
      ∃ t, d = storeWatermarkDep w t := by
    intro types hd
    obtain ⟨t, -, rfl⟩ := List.mem_map.mp hd
    exact ⟨t, rfl⟩
  cases p with
  | query q f =>
    cases s with
    | row e => exact Or.inl (hrow hd)
    | unit => cases hd
    | absent => cases hd
  | outer q f =>
    cases s with
    | row e => exact Or.inl (hrow hd)
    | unit => cases hd
    | absent =>
      refine Or.inr ((List.mem_append.mp hd).elim (fun hd => ?_) hmarks)
      obtain ⟨access, -, rfl⟩ := List.mem_map.mp hd
      exact ⟨access.component, rfl⟩
  | trackedView q f => cases s <;> exact Or.inr (hmarks hd)
  | view q f => cases s <;> cases hd
  | commands => cases s <;> cases hd
  | worldMeta => cases s <;> cases hd

end Observed
end Porridge
