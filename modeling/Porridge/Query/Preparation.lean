import Porridge.Query.Fetching
import Porridge.Query.Pairs
import Porridge.Query.Storage

/-! Parameters prepared once a snapshot: what a prepared plan observes and fetches, against the plain
path over every nesting of tuples. -/
namespace Porridge

variable {α : Type}

/-- An observation with the slot that its lookup may take. -/
structure SlottedDep where
  slot : Option Nat
  dep : Dep
deriving DecidableEq, Repr

def SlottedDep.isCurrent (d : SlottedDep) (stores : Stores α) (w : World α) : Bool :=
  d.dep.isCurrentAt stores d.slot w

/-- The plain path looks its observations up by type. -/
def Dep.unslotted (d : Dep) : SlottedDep := ⟨none, d⟩

/-- A store found once for a snapshot: its slot, and its entries where it exists. -/
structure ResolvedStore (α : Type) where
  component : TypeId
  slot : Option Nat
  entries : Option (Dict Entity (Entry α))

def Stores.resolveStore (stores : Stores α) (t : TypeId) : ResolvedStore α :=
  ⟨t, stores.slot t, (stores.get t).map Store.entries⟩

namespace ResolvedStore

variable (C : Components α) (r : ResolvedStore α) (e : Entity)

def get : Option (Entry α) := r.entries.bind (·.lookup e)

/-- The observation of a component; without a required one it panics. -/
def dependency (optional : Bool) : Option (List SlottedDep) :=
  if C.tracked r.component = true then
    let revision := (r.get e).map Entry.revision
    if !optional && revision.isNone then none
    else some [⟨r.slot, ⟨r.component, e, revision, false⟩⟩]
  else some []

end ResolvedStore

inductive PreparedPart (α : Type) where
  | fallback (part : QueryPart)
  | read (store : ResolvedStore α)
  | optional (store : ResolvedStore α)
  | mutRef (store : ResolvedStore α)

def QueryPart.prepare (stores : Stores α) : QueryPart → PreparedPart α
  | .read t => .read (stores.resolveStore t)
  | .optional t => .optional (stores.resolveStore t)
  | .mutRef t => .mutRef (stores.resolveStore t)
  | part => .fallback part

namespace PreparedPart

variable (C : Components α) (w : World α)

def deps (part : PreparedPart α) (e : Entity) : Option (List SlottedDep) :=
  match part with
  | .fallback part => some ((part.deps C w e).map Dep.unslotted)
  | .read store => store.dependency C e false
  | .optional store => store.dependency C e true
  | .mutRef store => store.dependency C e false

/-- What the part fetches; a row without a required component panics. -/
def fetch (part : PreparedPart α) (e : Entity) : Option (List (Fetched α)) :=
  match part with
  | .fallback part => some (part.fetch w e)
  | .read store => (store.get e).map fun x => [(e, [(store.component, some x)])]
  | .optional store => some [(e, [(store.component, store.get e)])]
  | .mutRef store => (store.get e).map fun x => [(e, [(store.component, some x)])]

end PreparedPart

inductive PreparedQuery (α : Type) where
  | fallback (q : QueryParam)
  | scalar (part : PreparedPart α)
  | entityParts (parts : List (PreparedPart α))

def QueryParam.prepare (stores : Stores α) : QueryParam → PreparedQuery α
  | .read t => .scalar (.read (stores.resolveStore t))
  | .mutRef t => .scalar (.mutRef (stores.resolveStore t))
  | .entityParts _ parts => .entityParts (parts.map (·.prepare stores))
  | q => .fallback q

namespace PreparedQuery

variable (C : Components α) (w : World α)

def deps (q : PreparedQuery α) (e : Entity) : Option (List SlottedDep) :=
  match q with
  | .fallback q => some ((q.deps C w e).map Dep.unslotted)
  | .scalar part => part.deps C w e
  | .entityParts parts => parts.flatMap? (·.deps C w e)

def fetch (q : PreparedQuery α) (e : Entity) : Option (List (List (Fetched α))) :=
  match q with
  | .fallback q => some (q.fetch w e)
  | .scalar part => (part.fetch w e).map fun fetched => [fetched]
  | .entityParts parts => parts.mapM (·.fetch w e)

end PreparedQuery

/-- What a parameter fetches for its state; views, commands and metadata are handles. -/
def SystemParam.fetch (w : World α) (p : SystemParam) (s : ParamState) : List (List (Fetched α)) :=
  match p, s with
  | .query q _, .row e => q.fetch w e
  | .outer q _, .row e => q.fetch w e
  | _, _ => []

inductive PreparedParam (α : Type) where
  | fallback (p : SystemParam)
  | filtered (q : PreparedQuery α) (f : QueryFilter)

/-- Only queries are prepared: outer joins, views, commands and metadata take the plain path. -/
def SystemParam.prepare (stores : Stores α) : SystemParam → PreparedParam α
  | .query q f => .filtered (q.prepare stores) f
  | p => .fallback p

namespace PreparedParam

variable (C : Components α) (w : World α)

def deps (p : PreparedParam α) (s : ParamState) : Option (List SlottedDep) :=
  match p, s with
  | .fallback p, s => some ((p.deps C w s).map Dep.unslotted)
  | .filtered q f, .row e => (q.deps C w e).map (· ++ (f.deps C w e).map Dep.unslotted)
  | .filtered _ _, _ => some []

def fetch (p : PreparedParam α) (s : ParamState) : Option (List (List (Fetched α))) :=
  match p, s with
  | .fallback p, s => some (p.fetch w s)
  | .filtered q _, .row e => q.fetch w e
  | .filtered _ _, _ => some []

end PreparedParam

inductive ParamTuple where
  | nil
  | param (p : SystemParam) (rest : ParamTuple)
  | nested (inner rest : ParamTuple)
deriving DecidableEq, Repr

inductive TupleState where
  | nil
  | param (s : ParamState) (rest : TupleState)
  | nested (inner rest : TupleState)
deriving DecidableEq, Repr

/-- The rows that one component of a tuple enters the product with. -/
inductive Column where
  | param (p : SystemParam) (rows : List ParamState)
  | nested (rows : List TupleState)

namespace ParamTuple

variable (C : Components α) (w : World α)

/-- The parameters of the tuple itself. A nested tuple takes no part in its joins. -/
def own : ParamTuple → Params
  | nil => []
  | param p rest => p :: rest.own
  | nested _ rest => rest.own

def picked : ParamTuple → TupleState → Params.Picked
  | param p rest, .param s state => (p, s) :: rest.picked state
  | nested _ rest, .nested _ state => rest.picked state
  | _, _ => []

def product (picked : Params.Picked) : List Column → Option (List TupleState)
  | [] => some [.nil]
  | .param p rows :: rest => do
    let rows ← Params.pickable w p rows picked
    rows.flatMap? fun s => (product (picked ++ [(p, s)]) rest).map fun tails =>
      tails.map (TupleState.param s)
  | .nested rows :: rest =>
    rows.flatMap? fun s => (product picked rest).map fun tails => tails.map (TupleState.nested s)

def bindingMatches (t : ParamTuple) (state : TupleState) : Option Bool :=
  List.checkAll (Params.bindingChecks w (t.picked state))

def prune (t : ParamTuple) (states : List TupleState) : Option (List TupleState) :=
  if Params.needsPrune t.own then states.filter? (t.bindingMatches w) else some states

/-- What the components enter with: a nested tuple with its own states. -/
def columns : ParamTuple → Option (List Column)
  | nil => some []
  | param p rest => do
    let columns ← rest.columns
    some (.param p (if p.pairExpandable then [] else p.states w) :: columns)
  | nested inner rest => do
    let innerColumns ← inner.columns
    let states ← product w [] innerColumns
    let rows ← inner.prune w states
    let columns ← rest.columns
    some (.nested rows :: columns)

def states (t : ParamTuple) : Option (List TupleState) := do
  let columns ← t.columns w
  let states ← product w [] columns
  t.prune w states

def deps : ParamTuple → TupleState → List Dep
  | param p rest, .param s state => p.deps C w s ++ rest.deps state
  | nested inner rest, .nested s state => inner.deps s ++ rest.deps state
  | _, _ => []

def fetch : ParamTuple → TupleState → List (List (List (Fetched α)))
  | param p rest, .param s state => p.fetch w s :: rest.fetch state
  | nested inner rest, .nested s state => inner.fetch s ++ rest.fetch state
  | _, _ => []

end ParamTuple

section Flat

variable {C : Components α} {w : World α}

def ParamTuple.ofParams : Params → ParamTuple
  | [] => .nil
  | p :: ps => .param p (ofParams ps)

def TupleState.ofStates : List ParamState → TupleState
  | [] => .nil
  | s :: state => .param s (ofStates state)

namespace ParamTuple

@[simp] theorem own_ofParams (ps : Params) : (ofParams ps).own = ps := by
  induction ps with
  | nil => rfl
  | cons p ps ih => rw [ofParams, own, ih]

@[simp] theorem picked_ofParams (ps : Params) (state : List ParamState) :
    (ofParams ps).picked (.ofStates state) = ps.zip state := by
  induction ps generalizing state with
  | nil => rfl
  | cons p ps ih =>
    cases state with
    | nil => rfl
    | cons s state => rw [ofParams, TupleState.ofStates, picked, ih, List.zip_cons_cons]

theorem columns_ofParams (ps : Params) : (ofParams ps).columns w =
    some ((Params.startRows w ps).map fun x => .param x.1 x.2) := by
  induction ps with
  | nil => rfl
  | cons p ps ih =>
    rw [ofParams, columns, ih]
    rfl

theorem product_params (picked : Params.Picked) (rows : List (SystemParam × List ParamState)) :
    product w picked (rows.map fun x => .param x.1 x.2) =
      (Params.product w picked rows).map (·.map TupleState.ofStates) := by
  induction rows generalizing picked with
  | nil => rfl
  | cons x rest ih =>
    obtain ⟨p, rows⟩ := x
    rw [List.map_cons, product, Params.product]
    cases Params.pickable w p rows picked with
    | none => rfl
    | some rows =>
      show rows.flatMap? _ = (rows.flatMap? _).map _
      rw [← List.flatMap?_map_map]
      congr 1
      funext s
      rw [ih, Option.map_map, Option.map_map]
      congr 1
      funext tails
      simp [TupleState.ofStates, Function.comp_def]

/-- Where no tuple is nested, the states are those of the parameters. -/
theorem states_ofParams (ps : Params) : (ofParams ps).states w =
    (Params.states w ps).map (·.map TupleState.ofStates) := by
  have hmatches : (fun state => (ofParams ps).bindingMatches w (.ofStates state)) =
      Params.bindingMatches w ps := by
    funext state
    rw [bindingMatches, picked_ofParams, Params.bindingMatches]
  rw [states, columns_ofParams]
  show (product w [] _).bind _ = ((Params.product w [] (Params.startRows w ps)).bind _).map _
  rw [product_params]
  cases Params.product w [] (Params.startRows w ps) with
  | none => rfl
  | some states =>
    show (ofParams ps).prune w (states.map TupleState.ofStates) = _
    rw [prune, own_ofParams]
    show _ = (if Params.needsPrune ps then _ else _ : Option (List (List ParamState))).map _
    split_ifs
    · rw [List.filter?_map, hmatches]
    · rfl

theorem deps_ofParams (ps : Params) (state : List ParamState) :
    (ofParams ps).deps C w (.ofStates state) = Params.deps C w ps state := by
  induction ps generalizing state with
  | nil => rfl
  | cons p ps ih =>
    cases state with
    | nil => rfl
    | cons s state =>
      rw [ofParams, TupleState.ofStates, deps, ih]
      rfl

end ParamTuple

end Flat

inductive PreparedTuple (α : Type) where
  | nil
  | param (p : PreparedParam α) (rest : PreparedTuple α)
  | nested (inner rest : PreparedTuple α)

def ParamTuple.prepare (stores : Stores α) : ParamTuple → PreparedTuple α
  | nil => .nil
  | param p rest => .param (p.prepare stores) (rest.prepare stores)
  | nested inner rest => .nested (inner.prepare stores) (rest.prepare stores)

namespace PreparedTuple

variable (C : Components α) (w : World α)

def deps : PreparedTuple α → TupleState → Option (List SlottedDep)
  | param p rest, .param s state => do
    let own ← p.deps C w s
    let others ← rest.deps state
    some (own ++ others)
  | nested inner rest, .nested s state => do
    let own ← inner.deps s
    let others ← rest.deps state
    some (own ++ others)
  | _, _ => some []

def fetch : PreparedTuple α → TupleState → Option (List (List (List (Fetched α))))
  | param p rest, .param s state => do
    let own ← p.fetch w s
    let others ← rest.fetch state
    some (own :: others)
  | nested inner rest, .nested s state => do
    let own ← inner.fetch s
    let others ← rest.fetch state
    some (own ++ others)
  | _, _ => some []

end PreparedTuple

section Plain

variable {C : Components α} {w : World α} {schema : Option (List TypeId)} {e : Entity}

theorem get_resolveStore (w : World α) (schema : Option (List TypeId)) (t : TypeId) (e : Entity) :
    ((w.shelves schema).resolveStore t).get e = w.cell? t e := by
  have hget := Stores.get_holding w.stores (Stores.get_ofSchema schema) t
  rw [ResolvedStore.get, Stores.resolveStore, World.shelves, hget, World.cell?, World.store,
    Dict.getD]
  cases w.stores.lookup t <;> rfl

/-- A slot only makes the lookup faster. -/
theorem SlottedDep.isCurrent_shelves (d : SlottedDep) (w : World α) (schema : Option (List TypeId)) :
    d.isCurrent (w.shelves schema) w = d.dep.isCurrent w :=
  d.dep.isCurrentAt_shelves w schema d.slot

/-- What was found is the plain observations, whatever the slots. -/
def Spells (found : Option (List SlottedDep)) (deps : List Dep) : Prop :=
  found.map (·.map SlottedDep.dep) = some deps

theorem spells_unslotted (deps : List Dep) : Spells (some (deps.map Dep.unslotted)) deps := by
  simp [Spells, Dep.unslotted, Function.comp_def]

theorem Spells.append {found found' : Option (List SlottedDep)} {deps deps' : List Dep}
    (h : Spells found deps) (h' : Spells found' deps') :
    Spells (found.bind fun own => found'.bind fun others => some (own ++ others)) (deps ++ deps') := by
  obtain ⟨own, rfl, rfl⟩ := Option.map_eq_some_iff.mp h
  obtain ⟨others, rfl, rfl⟩ := Option.map_eq_some_iff.mp h'
  simp [Spells]

/-- The prepared store observes what the plain lookup does, if a required component is there. -/
theorem spells_dependency {t : TypeId} {optional : Bool}
    (h : optional = true ∨ w.has t e = true) :
    Spells (((w.shelves schema).resolveStore t).dependency C e optional) (componentDep C w t e) := by
  have hguard : (!optional && (w.revisionByType t e).isNone) = false := by
    rcases h with rfl | hhas
    · rfl
    · rw [World.has, Option.isSome_iff_exists] at hhas
      obtain ⟨x, hx⟩ := hhas
      rw [World.revisionByType, hx]
      simp
  unfold ResolvedStore.dependency
  rw [get_resolveStore]
  show Spells (if C.tracked t = true then
    if (!optional && (w.revisionByType t e).isNone) = true then none
    else some [⟨_, ⟨t, e, w.revisionByType t e, false⟩⟩] else some []) _
  rw [hguard, componentDep, if_neg Bool.false_ne_true]
  split_ifs
  · rfl
  · rfl

theorem QueryPart.spells_prepare {part : QueryPart} (h : part.matchesRow w e = true) :
    Spells ((part.prepare (w.shelves schema)).deps C w e) (part.deps C w e) := by
  cases part with
  | read t => exact spells_dependency (Or.inr h)
  | optional t => exact spells_dependency (Or.inl rfl)
  | mutRef t => exact spells_dependency (Or.inr h)
  | _ => exact spells_unslotted _

theorem QueryPart.fetch_prepare {part : QueryPart} (h : part.matchesRow w e = true) :
    (part.prepare (w.shelves schema)).fetch w e = some (part.fetch w e) := by
  have hrequired : ∀ t, w.has t e = true →
      (((w.shelves schema).resolveStore t).get e).map (fun x => [(e, [(t, some x)])]) =
        some [(e, [(t, w.cell? t e)])] := by
    intro t hhas
    rw [get_resolveStore]
    obtain ⟨x, hx⟩ := Option.isSome_iff_exists.mp hhas
    rw [hx, Option.map_some]
  cases part with
  | read t => exact hrequired t h
  | optional t =>
    show some [(e, [(t, ((w.shelves schema).resolveStore t).get e)])] = _
    rw [get_resolveStore]
    rfl
  | mutRef t => exact hrequired t h
  | _ => rfl

/-- A row that its shape accepts is observed and fetched as on the plain path. -/
theorem QueryParam.plain_prepare {q : QueryParam} (schema : Option (List TypeId))
    (h : q.accepts w e = true) :
    Spells ((q.prepare (w.shelves schema)).deps C w e) (q.deps C w e) ∧
      (q.prepare (w.shelves schema)).fetch w e = some (q.fetch w e) := by
  cases q with
  | entity facet => exact ⟨spells_unslotted _, rfl⟩
  | read t =>
    have hfetch : ((QueryPart.read t).prepare (w.shelves schema)).fetch w e = _ :=
      QueryPart.fetch_prepare h
    exact ⟨spells_dependency (Or.inr h), congrArg (Option.map fun fetched => [fetched]) hfetch⟩
  | mutRef t =>
    have hfetch : ((QueryPart.mutRef t).prepare (w.shelves schema)).fetch w e = _ :=
      QueryPart.fetch_prepare h
    exact ⟨spells_dependency (Or.inr h), congrArg (Option.map fun fetched => [fetched]) hfetch⟩
  | entityParts facet parts =>
    have hparts : ∀ part ∈ parts, part.matchesRow w e = true := by
      rw [accepts, Bool.and_eq_true] at h
      exact List.all_eq_true.mp h.2
    clear h
    induction parts with
    | nil => exact ⟨rfl, rfl⟩
    | cons part parts ih =>
      obtain ⟨hdeps, hfetch⟩ := ih fun part hpart => hparts part (List.mem_cons_of_mem _ hpart)
      have hpart := hparts part List.mem_cons_self
      constructor
      · exact (QueryPart.spells_prepare hpart).append hdeps
      · show ((part :: parts).map (·.prepare (w.shelves schema))).mapM (·.fetch w e) =
          some ((part :: parts).map (·.fetch w e))
        have hrest : (parts.map (·.prepare (w.shelves schema))).mapM (·.fetch w e) =
            some (parts.map (·.fetch w e)) := hfetch
        rw [List.map_cons, List.mapM_cons, QueryPart.fetch_prepare hpart, hrest]
        rfl

theorem SystemParam.plain_prepare {p : SystemParam} {s : ParamState}
    (schema : Option (List TypeId)) (h : p.Held w s) :
    Spells ((p.prepare (w.shelves schema)).deps C w s) (p.deps C w s) ∧
      (p.prepare (w.shelves schema)).fetch w s = some (p.fetch w s) := by
  cases p with
  | query q f =>
    obtain ⟨e, rfl, haccepts, -⟩ := h
    obtain ⟨hdeps, hfetch⟩ := q.plain_prepare (C := C) schema haccepts
    refine ⟨?_, hfetch⟩
    obtain ⟨found, hfound, hspells⟩ := Option.map_eq_some_iff.mp hdeps
    show Spells (((q.prepare (w.shelves schema)).deps C w e).map _) _
    rw [hfound]
    simp [Spells, deps, hspells, Dep.unslotted, Function.comp_def]
  | _ => exact ⟨spells_unslotted _, rfl⟩

end Plain

namespace ParamTuple

variable {C : Components α} {w : World α} {schema : Option (List TypeId)}

def Held (w : World α) : ParamTuple → TupleState → Prop
  | nil, .nil => True
  | param p rest, .param s state => p.Held w s ∧ rest.Held w state
  | nested inner rest, .nested s state => inner.Held w s ∧ rest.Held w state
  | _, _ => False

theorem plain_prepare {t : ParamTuple} {state : TupleState} (schema : Option (List TypeId))
    (h : t.Held w state) :
    Spells ((t.prepare (w.shelves schema)).deps C w state) (t.deps C w state) ∧
      (t.prepare (w.shelves schema)).fetch w state = some (t.fetch w state) := by
  induction t generalizing state with
  | nil =>
    cases state with
    | nil => exact ⟨rfl, rfl⟩
    | _ => exact h.elim
  | param p rest ih =>
    cases state with
    | param s state =>
      obtain ⟨hown, hownFetch⟩ := p.plain_prepare (C := C) schema h.1
      obtain ⟨hdeps, hfetch⟩ := ih h.2
      refine ⟨hown.append hdeps, ?_⟩
      rw [prepare, PreparedTuple.fetch, hownFetch, hfetch]
      rfl
    | _ => exact h.elim
  | nested inner rest ihInner ih =>
    cases state with
    | nested s state =>
      obtain ⟨hown, hownFetch⟩ := ihInner h.1
      obtain ⟨hdeps, hfetch⟩ := ih h.2
      refine ⟨hown.append hdeps, ?_⟩
      rw [prepare, PreparedTuple.fetch, hownFetch, hfetch]
      rfl
    | _ => exact h.elim

theorem mem_of_prune {t : ParamTuple} {states out : List TupleState} (h : t.prune w states = some out)
    {state : TupleState} (hs : state ∈ out) : state ∈ states := by
  unfold prune at h
  split_ifs at h
  · exact ((List.mem_filter? h state).mp hs).1
  · cases h
    exact hs

/-- Whatever the product picks for a tuple is held by its parameters. -/
theorem held_of_product (hp : w.Present schema) {t : ParamTuple} {columns : List Column}
    {picked : Params.Picked} {out : List TupleState} {state : TupleState}
    (hcolumns : t.columns w = some columns) (hout : product w picked columns = some out)
    (hs : state ∈ out) : t.Held w state := by
  induction t generalizing columns picked out state with
  | nil =>
    cases hcolumns
    cases hout
    rw [List.mem_singleton.mp hs]
    exact trivial
  | param p rest ih =>
    obtain ⟨others, hothers, hcolumns⟩ := Option.bind_eq_some_iff.mp hcolumns
    cases hcolumns
    obtain ⟨rows, hrows, hout⟩ := Option.bind_eq_some_iff.mp hout
    obtain ⟨s, hmem, states, hstates, hs⟩ := (List.mem_flatMap? hout state).mp hs
    obtain ⟨tails, htails, rfl⟩ := Option.map_eq_some_iff.mp hstates
    obtain ⟨tail, htail, rfl⟩ := List.mem_map.mp hs
    refine ⟨?_, ih hothers htails htail⟩
    refine Params.held_of_pickable hp (fun hunbound s hs => ?_) hrows hmem
    rw [hunbound] at hs
    exact SystemParam.held_of_mem_states hp hs
  | nested inner rest ihInner ih =>
    obtain ⟨innerColumns, hinner, hcolumns⟩ := Option.bind_eq_some_iff.mp hcolumns
    obtain ⟨states, hstates, hcolumns⟩ := Option.bind_eq_some_iff.mp hcolumns
    obtain ⟨rows, hrows, hcolumns⟩ := Option.bind_eq_some_iff.mp hcolumns
    obtain ⟨others, hothers, hcolumns⟩ := Option.bind_eq_some_iff.mp hcolumns
    cases hcolumns
    obtain ⟨s, hmem, picks, hpicks, hs⟩ := (List.mem_flatMap? hout state).mp hs
    obtain ⟨tails, htails, rfl⟩ := Option.map_eq_some_iff.mp hpicks
    obtain ⟨tail, htail, rfl⟩ := List.mem_map.mp hs
    exact ⟨ihInner hinner hstates (mem_of_prune hrows hmem), ih hothers htails htail⟩

theorem held_of_mem_states (hp : w.Present schema) {t : ParamTuple} {out : List TupleState}
    (hout : t.states w = some out) {state : TupleState} (hs : state ∈ out) : t.Held w state := by
  obtain ⟨columns, hcolumns, hout⟩ := Option.bind_eq_some_iff.mp hout
  obtain ⟨states, hstates, hprune⟩ := Option.bind_eq_some_iff.mp hout
  exact held_of_product hp hcolumns hstates (mem_of_prune hprune hs)

/-- The prepared plan of a tuple, however nested, panics nowhere and observes and fetches what the
plain path does, in order. -/
theorem prepared_plain (hw : World.Reachable C w) (schema : Option (List TypeId)) {t : ParamTuple}
    {out : List TupleState} (hout : t.states w = some out) {state : TupleState} (hs : state ∈ out) :
    (∃ found, (t.prepare (w.shelves schema)).deps C w state = some found ∧
      found.map SlottedDep.dep = t.deps C w state ∧
      ∀ (u : World α), ∀ d ∈ found, d.isCurrent (u.shelves schema) u = d.dep.isCurrent u) ∧
    (t.prepare (w.shelves schema)).fetch w state = some (t.fetch w state) := by
  obtain ⟨declared, hp⟩ := World.present_of_reachable hw
  obtain ⟨hdeps, hfetch⟩ :=
    plain_prepare (C := C) schema (held_of_mem_states hp hout hs)
  obtain ⟨found, hfound, hspells⟩ := Option.map_eq_some_iff.mp hdeps
  exact ⟨⟨found, hfound, hspells, fun u d _ => d.isCurrent_shelves u schema⟩, hfetch⟩

/-- A nested tuple of a provider and a row, beside an outer join and commands. -/
def joinedTuple : ParamTuple :=
  .nested (.param (.query (.entityParts [] [.read 4, .optional 6]) .unit)
      (.param (.query (.entityParts [] [.read 2]) .unit) .nil))
    (.param (.outer (.entityParts [] [.read 7]) .unit) (.param .commands .nil))

def joinedState (e : Entity) : TupleState :=
  .nested (.param (.row 0) (.param (.row e) .nil)) (.param .absent (.param .unit .nil))

theorem prepared_plain_joined :
    (∃ found, (joinedTuple.prepare (Params.linked.shelves none)).deps Params.linking Params.linked
        (joinedState 4) = some found ∧
      found.map SlottedDep.dep = joinedTuple.deps Params.linking Params.linked (joinedState 4) ∧
      ∀ (u : World Nat), ∀ d ∈ found, d.isCurrent (u.shelves none) u = d.dep.isCurrent u) ∧
    (joinedTuple.prepare (Params.linked.shelves none)).fetch Params.linked
      (joinedState 4) = some (joinedTuple.fetch Params.linked (joinedState 4)) := by
  have hout : joinedTuple.states Params.linked = some [joinedState 2, joinedState 4] := by decide
  have hs : joinedState 4 ∈ [joinedState 2, joinedState 4] := by decide
  exact prepared_plain Params.reachable_linked none hout hs

end ParamTuple
end Porridge
