import Porridge.Commit
import Porridge.Query.Access

/-! What a registered system executes, and the runs it plans. -/
namespace Porridge

/-- One row of a plan. -/
structure PlannedInvocation where
  owner : SystemInvocation
  state : List ParamState
  deps : List Dep
  access : List Access
deriving DecidableEq

def writtenRows (access : List Access) : List (TypeId × Entity) :=
  (access.filter (·.kind == .write)).filterMap fun a => a.entity.map fun e => (a.component, e)

/-- A run to dispatch: what it reserves, the rows it executes together, and the hooks it runs
before and after them. -/
structure PlannedSystemRun where
  owner : SystemInvocation
  access : List Access
  rows : List PlannedInvocation
  startHooks : Nat
  completeHooks : Nat
  plannedRevision : Revision
deriving DecidableEq

/-- A function system and the hooks wrapped around it. -/
inductive Runnable where
  | function (params : Params)
  | onStart (system : Runnable)
  | onComplete (system : Runnable)
  | onSettled (system : Runnable)
deriving DecidableEq

section Planning

variable {α : Type} (C : Components α) (system : SystemId) (w : World α) (memo : MemoTable)
  (hint : Option (List Entity))

/-- The row of a state, unless the memo table has its observations. -/
def planRow (ps : Params) (state : List ParamState) : Option PlannedInvocation :=
  let owner : SystemInvocation := ⟨system, Params.keys state⟩
  let deps := ps.deps C w state
  if ps.alwaysRun = false ∧ (memo.lookup owner).map MemoEntry.deps = some deps then none
  else some ⟨owner, state, deps, ps.access w state⟩

/-- The rows of a function system that the memo table does not cover. -/
def planInvocations (ps : Params) : Option (List PlannedInvocation) := do
  let states ← match hint with
    | some hint => ps.statesHinted C w hint
    | none => ps.states w
  return states.filterMap (planRow C system w memo ps)

/-- Wrap a batch: it runs under the key of the system itself and reserves nothing. -/
def wrapRuns (startHooks completeHooks : Nat) (inner : List PlannedSystemRun) :
    List PlannedSystemRun :=
  if inner = [] then []
  else [{
    owner := ⟨system, []⟩
    access := []
    rows := inner.flatMap PlannedSystemRun.rows
    startHooks := startHooks + (inner.map PlannedSystemRun.startHooks).sum
    completeHooks := completeHooks + (inner.map PlannedSystemRun.completeHooks).sum
    plannedRevision := w.revision }]

def Runnable.streamRuns : Runnable → Option (List PlannedSystemRun)
  | .function ps => (planInvocations C system w memo hint ps).map fun rows =>
    rows.map fun row => ⟨row.owner, row.access, [row], 0, 0, w.revision⟩
  | .onStart inner => inner.streamRuns.map (wrapRuns system w 1 0)
  | .onComplete inner => inner.streamRuns.map (wrapRuns system w 0 1)
  | .onSettled inner => inner.streamRuns

end Planning

namespace Runnable

def params : Runnable → Params
  | .function ps => ps
  | .onStart system => system.params
  | .onComplete system => system.params
  | .onSettled system => system.params

/-- The rows run in batches under a zero key. -/
def wrapped : Runnable → Bool
  | .function _ => false
  | .onStart _ => true
  | .onComplete _ => true
  | .onSettled system => system.wrapped

def hasSettledHook : Runnable → Bool
  | .function _ => false
  | .onStart _ => false
  | .onComplete _ => false
  | .onSettled _ => true

def intoSystem (s : Runnable) (phase : Phase) : BoxedSystem :=
  .new phase s.params.interestTypes (s.params.deltaShape == .driver) s.params.hasPairBound
    s.params.viewFreshness

end Runnable

/-- What a builder seals: the component types, the schema, and the systems with their phases. -/
structure Program (α : Type) where
  components : Components α
  schema : Option (List TypeId)
  systems : List (Phase × Runnable)

namespace Program

variable {α : Type} (P : Program α)

def boxedSystems : List BoxedSystem := P.systems.map fun s => s.2.intoSystem s.1

/-- The system runs a callback of its own when the bowl has settled. -/
def hooked (id : SystemId) : Bool := (P.systems[id]?).any fun s => s.2.hasSettledHook

/-- The numbers of the schema's components. -/
def componentRegistry : Dict TypeId Nat :=
  match P.schema with
  | none => ∅
  | some types => (PresenceIndex.new (PresenceIndex.universeOf types)).bitFor

end Program

/-- The commands that the rows and the hooks of a run have buffered when it ends. -/
structure RunOutcome (α : Type) where
  starts : List (List (Command α))
  rows : List (List (Command α))
  completes : List (List (Command α))

/-- What a run publishes: hook outputs around those of its rows, one memo update for each row. -/
def PlannedSystemRun.finish {α : Type} (run : PlannedSystemRun) (outcome : RunOutcome α) :
    SystemRun α where
  completed := true
  outputs := outcome.starts.map (fun commands => ⟨run.owner, commands⟩) ++
    List.zipWith (fun row commands => ⟨row.owner, commands⟩) run.rows outcome.rows ++
    outcome.completes.map fun commands => ⟨run.owner, commands⟩
  memoUpdates := run.rows.map fun row => (row.owner, ⟨row.deps, run.plannedRevision, 0⟩)
  writes := run.rows.flatMap fun row => writtenRows row.access

/-- Every row and every hook of the run has buffered once. -/
def PlannedSystemRun.fits {α : Type} (run : PlannedSystemRun) (outcome : RunOutcome α) : Bool :=
  outcome.starts.length == run.startHooks && outcome.rows.length == run.rows.length &&
    outcome.completes.length == run.completeHooks

/-- The row is that of a state: it records and declares what the parameters do in the world of the
plan. -/
structure PlannedInvocation.OfState {α : Type} (C : Components α) (system : SystemId) (w : World α)
    (ps : Params) (row : PlannedInvocation) : Prop where
  owner : row.owner = ⟨system, Params.keys row.state⟩
  deps : row.deps = ps.deps C w row.state
  access : row.access = ps.access w row.state

section Rows

variable {α : Type} {C : Components α} {system : SystemId} {w : World α} {memo : MemoTable}
  {hint : Option (List Entity)}

/-- The planned rows are those of the enumerated states. -/
theorem exists_states_of_planned {ps : Params} {rows : List PlannedInvocation}
    (h : planInvocations C system w memo hint ps = some rows) :
    ∃ states, hint.elim (ps.states w) (ps.statesHinted C w) = some states ∧
      ∀ row ∈ rows, row.state ∈ states ∧ row.OfState C system w ps := by
  have hplanned : ∀ {states : List (List ParamState)},
      ∀ row ∈ states.filterMap (planRow C system w memo ps),
        row.state ∈ states ∧ row.OfState C system w ps := by
    intro states row hrow
    obtain ⟨state, hstate, hplan⟩ := List.mem_filterMap.mp hrow
    unfold planRow at hplan
    dsimp only at hplan
    split_ifs at hplan
    cases hplan
    exact ⟨hstate, rfl, rfl, rfl⟩
  unfold planInvocations at h
  cases hint with
  | none =>
    obtain ⟨states, hstates, hdone⟩ := Option.bind_eq_some_iff.mp h
    cases hdone
    exact ⟨states, hstates, hplanned⟩
  | some entities =>
    obtain ⟨states, hstates, hdone⟩ := Option.bind_eq_some_iff.mp h
    cases hdone
    exact ⟨states, hstates, hplanned⟩

/-- The runs of a wrapped function execute rows that the function planned. -/
theorem Runnable.planned_of_mem_streamRuns : ∀ {s : Runnable} {runs : List PlannedSystemRun},
    s.streamRuns C system w memo hint = some runs → ∀ run ∈ runs, ∀ row ∈ run.rows,
      ∃ rows, planInvocations C system w memo hint s.params = some rows ∧ row ∈ rows
  | .function ps, runs, h, run, hrun, row, hrow => by
    obtain ⟨rows, hrows, rfl⟩ := Option.map_eq_some_iff.mp h
    obtain ⟨planned, hplanned, rfl⟩ := List.mem_map.mp hrun
    have heq : row = planned := List.mem_singleton.mp hrow
    exact ⟨rows, hrows, heq ▸ hplanned⟩
  | .onStart inner, _, h, run, hrun, row, hrow =>
    wrapped (s := inner) (planned_of_mem_streamRuns (s := inner)) h run hrun row hrow
  | .onComplete inner, _, h, run, hrun, row, hrow =>
    wrapped (s := inner) (planned_of_mem_streamRuns (s := inner)) h run hrun row hrow
  | .onSettled inner, _, h, run, hrun, row, hrow =>
    planned_of_mem_streamRuns (s := inner) h run hrun row hrow
where
  /-- A batch executes the rows of the runs it wraps. -/
  wrapped {s : Runnable} {starts completes : Nat} {runs : List PlannedSystemRun}
      (ih : ∀ {runs : List PlannedSystemRun}, s.streamRuns C system w memo hint = some runs →
        ∀ run ∈ runs, ∀ row ∈ run.rows,
          ∃ rows, planInvocations C system w memo hint s.params = some rows ∧ row ∈ rows)
      (h : (s.streamRuns C system w memo hint).map (wrapRuns system w starts completes) = some runs)
      (run : PlannedSystemRun) (hrun : run ∈ runs) (row : PlannedInvocation)
      (hrow : row ∈ run.rows) :
      ∃ rows, planInvocations C system w memo hint s.params = some rows ∧ row ∈ rows := by
    obtain ⟨inner, hinner, rfl⟩ := Option.map_eq_some_iff.mp h
    unfold wrapRuns at hrun
    split_ifs at hrun
    · cases hrun
    · have heq := List.mem_singleton.mp hrun
      rw [heq] at hrow
      obtain ⟨planned, hplanned, hmem⟩ := List.mem_flatMap.mp hrow
      exact ih hinner planned hplanned row hmem

/-- Every row of a planned run is that of a state. -/
theorem Runnable.ofState_of_mem_streamRuns {s : Runnable} {runs : List PlannedSystemRun}
    (h : s.streamRuns C system w memo hint = some runs) : ∀ run ∈ runs, ∀ row ∈ run.rows,
      row.OfState C system w s.params := by
  intro run hrun row hrow
  obtain ⟨rows, hrows, hmem⟩ := planned_of_mem_streamRuns h run hrun row hrow
  obtain ⟨states, -, hplanned⟩ := exists_states_of_planned hrows
  exact (hplanned row hmem).2

end Rows
end Porridge
