import Porridge.PhaseLoop
import Porridge.Protocol.Driver

/-! The invocations that every caller of a bowl has in flight. -/
namespace Porridge

/-- A bowl and its callers with the loop of the phase being run and the runs that settle phases
have in flight. -/
structure Execution (α : Type) where
  drive : Drive α
  loop : Option (PhaseLoop α)
  passes : Dict PartyId (List PlannedSystemRun)

inductive ExecutionStep (α : Type) where
  /-- A section of a caller that neither plans nor commits a row. -/
  | act (action : Action α)
  | enterPhase (p : PartyId)
  | phase (p : PartyId) (step : PhaseStep α)
  | leavePhase (p : PartyId)
  /-- A settle phase plans the rows of all its systems and starts them. -/
  | startSettle (p : PartyId)
  | finishSettle (p : PartyId) (index : Nat) (outcome : RunOutcome α)

def PlannedSystemRun.writesRow (run : PlannedSystemRun) (t : TypeId) (e : Entity) : Bool :=
  run.rows.any fun row => (t, e) ∈ writtenRows row.access

/-- The rows that a settle phase starts: a full plan of every settle system. -/
def settleRuns {α : Type} (P : Program α) (s : State α) (memo : MemoTable) :
    Option (List PlannedSystemRun) :=
  s.settleSystems.flatMap? fun id => do
    let (_, runnable) ← P.systems[id]?
    runnable.streamRuns P.components id s.world memo none

namespace Execution

variable {α : Type} (P : Program α)

def new : Execution α where
  drive := ⟨({ Protocol.new P.boxedSystems P.hooked with
    state := { State.build P.boxedSystems P.hooked with world := .ofSchema P.schema } }).rest, none⟩
  loop := none
  passes := ∅

def pass (x : Execution α) (p : PartyId) : List PlannedSystemRun := Dict.getD x.passes p []

/-- The section neither commits nor writes for a row that is not in flight, and leaves no row of
its caller behind. -/
def permits (x : Execution α) : Action α → Bool
  | .commit p _ _ => !(x.drive.protocol.pc p).drives && (x.passes.lookup p).isNone
  | .writeInPlace p t e _ =>
    match x.drive.protocol.pc p with
    | .driving .. => x.loop.any fun l => l.running.any fun run => run.2.writesRow t e
    | .inSettlePhase .. => (x.pass p).any (·.writesRow t e)
    | _ => true
  | .openWindow _ => x.loop.any PhaseLoop.preempted
  | .advance p =>
    match x.drive.protocol.pc p with
    | .driving .. => x.loop.isNone
    | .inSettlePhase .. => x.passes.lookup p = some []
    | _ => true
  | _ => true

/-- What a section leaves in flight. -/
def act (x : Execution α) (a : Action α) (drive : Drive α) : Execution α :=
  match a with
  | .openWindow _ => { x with drive, loop := none }
  | .advance p => { x with drive, passes := x.passes.erase p }
  | .cancel p => {
      drive
      loop := if (x.drive.protocol.pc p).drives = true then none else x.loop
      passes := x.passes.erase p }
  | _ => { x with drive }

/-- A finished run is recorded like any other accepted commit. -/
def noteCommit (q : Protocol α) (memo after : MemoTable) (run : SystemRun α) (settle : Bool) :
    History α :=
  if run.memoUpdates.all fun update => update.2.isCurrent q.state.world then
    q.history.commit P.components memo after q.state run settle
  else q.history

def noteStep (q : Protocol α) (r r' : Runner α) : PhaseStep α → History α
  | .finish id outcome =>
    match r.loop.running.find? (·.1 = id) with
    | some (_, run) => noteCommit P q r.memo r'.memo (run.finish outcome) false
    | none => q.history
  | _ => q.history

/-- One section of the phase loop of a driver. -/
def runPhase (x : Execution α) (p : PartyId) (a : PhaseStep α) : Option (Execution α) :=
  let q := x.drive.protocol
  match q.pc p, x.drive.phase? p, x.loop with
  | .driving generation memo changed target waiter, some _, some l => do
    let r' ← Runner.step P ⟨q.state, memo, l⟩ a
    let protocol := { q with
      state := r'.state
      history := noteStep P q ⟨q.state, memo, l⟩ r' a }.goto p
        (.driving generation r'.memo (changed || r'.loop.changed) target waiter)
    some { x with drive := { x.drive with protocol }, loop := some r'.loop }
  | _, _, _ => none

def finishSettle (x : Execution α) (p : PartyId) (index : Nat) (outcome : RunOutcome α) :
    Option (Execution α) :=
  let q := x.drive.protocol
  match q.pc p, (x.pass p)[index]? with
  | .inSettlePhase epoch memo revisionBefore, some run =>
    if run.fits outcome then do
      let (after, state, _) ←
        commitSystemRun P.components memo q.state (run.finish outcome) (some .settle)
      let history := noteCommit P q memo after (run.finish outcome) true
      let protocol := { q with state, history }.goto p (.inSettlePhase epoch after revisionBefore)
      some { x with
        drive := { x.drive with protocol }
        passes := x.passes.insert p ((x.pass p).eraseIdx index) }
    else none
  | _, _ => none

def step (x : Execution α) : ExecutionStep α → Option (Execution α)
  | .act a =>
    if x.permits a = true then (x.drive.step P.components (.act a)).map (x.act a) else none
  | .enterPhase p =>
    match x.drive.phase? p, x.loop with
    | some phase, none =>
      if x.drive.protocol.state.systems.any (·.phase = phase) then
        some { x with loop := some (.enter phase P.componentRegistry) }
      -- a phase without systems is complete at once
      else (x.drive.step P.components (.finishPhase p)).map fun drive => { x with drive }
    | _, _ => none
  | .phase p a => x.runPhase P p a
  | .leavePhase p =>
    match x.loop with
    | some l =>
      if l.completed = true then
        (x.drive.step P.components (.finishPhase p)).map fun drive => { x with drive, loop := none }
      else none
    | none => none
  | .startSettle p =>
    match x.drive.protocol.pc p, x.passes.lookup p with
    | .inSettlePhase _ memo _, none => do
      let runs ← settleRuns P x.drive.protocol.state memo
      some { x with passes := x.passes.insert p runs }
    | _, _ => none
  | .finishSettle p index outcome => x.finishSettle P p index outcome

def machine : Machine (Execution α) (ExecutionStep α) where
  init x := x = new P
  step := step P

abbrev Reachable : Execution α → Prop := (machine P).Reachable

def inFlight (x : Execution α) : List PlannedInvocation :=
  (x.loop.toList.flatMap fun l => l.running.flatMap fun run => run.2.rows) ++
    x.passes.entries.flatMap fun b => b.2.flatMap PlannedSystemRun.rows

def nextPhase (x : Execution α) : Drive α :=
  { x.drive with cursor := x.drive.cursor.map fun c => { c with index := c.index + 1 } }

inductive StepCase (x : Execution α) : ExecutionStep α → Execution α → Prop where
  | act {a : Action α} {q : Protocol α} (hpermits : x.permits a = true)
      (hact : x.drive.protocol.act P.components a = some q) :
      StepCase x (.act a) (x.act a ⟨q.rest, x.drive.cursorAfter q.rest a⟩)
  | enterPhase {p : PartyId} {phase : Phase} (hphase : x.drive.phase? p = some phase)
      (hnone : x.loop = none) :
      StepCase x (.enterPhase p) { x with loop := some (.enter phase P.componentRegistry) }
  | skipPhase {p : PartyId} (hnone : x.loop = none) :
      StepCase x (.enterPhase p) { x with drive := x.nextPhase }
  | phase {p : PartyId} {a : PhaseStep α} {generation : Nat} {memo : MemoTable} {changed : Bool}
      {target : Nat} {waiter : Waiter} {l : PhaseLoop α} {r' : Runner α}
      (hpc : x.drive.protocol.pc p = .driving generation memo changed target waiter)
      (hl : x.loop = some l) (hr : Runner.step P ⟨x.drive.protocol.state, memo, l⟩ a = some r') :
      StepCase x (.phase p a) { x with
        drive := ⟨Protocol.goto { x.drive.protocol with
          state := r'.state
          history := noteStep P x.drive.protocol ⟨x.drive.protocol.state, memo, l⟩ r' a } p
            (.driving generation r'.memo (changed || r'.loop.changed) target waiter), x.drive.cursor⟩
        loop := some r'.loop }
  | leavePhase {p : PartyId} {l : PhaseLoop α} (hl : x.loop = some l)
      (hcompleted : l.completed = true) :
      StepCase x (.leavePhase p) { x with drive := x.nextPhase, loop := none }
  | startSettle {p : PartyId} {epoch : Epoch} {memo : MemoTable} {before : Revision}
      {runs : List PlannedSystemRun}
      (hpc : x.drive.protocol.pc p = .inSettlePhase epoch memo before)
      (hfirst : x.passes.lookup p = none)
      (hruns : settleRuns P x.drive.protocol.state memo = some runs) :
      StepCase x (.startSettle p) { x with passes := x.passes.insert p runs }
  | finishSettle {p : PartyId} {index : Nat} {outcome : RunOutcome α} {epoch : Epoch}
      {memo after : MemoTable} {before : Revision} {run : PlannedSystemRun} {state : State α}
      {progress : CommitProgress}
      (hpc : x.drive.protocol.pc p = .inSettlePhase epoch memo before)
      (hrun : (x.pass p)[index]? = some run)
      (hcommit : commitSystemRun P.components memo x.drive.protocol.state (run.finish outcome)
        (some .settle) = some (after, state, progress)) :
      StepCase x (.finishSettle p index outcome) { x with
        drive := ⟨Protocol.goto { x.drive.protocol with
          state
          history := noteCommit P x.drive.protocol memo after (run.finish outcome) true } p
            (.inSettlePhase epoch after before), x.drive.cursor⟩
        passes := x.passes.insert p ((x.pass p).eraseIdx index) }

variable {P} {x x' : Execution α}

theorem step_cases {a : ExecutionStep α} (hs : step P x a = some x') : StepCase P x a x' := by
  have hnext : ∀ {p : PartyId} {drive : Drive α},
      x.drive.step P.components (.finishPhase p) = some drive → drive = x.nextPhase := by
    intro p drive hstep
    simp only [Drive.step] at hstep
    split_ifs at hstep
    cases hstep
    rfl
  cases a with
  | act a =>
    simp only [step] at hs
    split_ifs at hs with hpermits
    obtain ⟨drive, hdriven, rfl⟩ := Option.map_eq_some_iff.mp hs
    simp only [Drive.step] at hdriven
    split_ifs at hdriven
    obtain ⟨q, hq, rfl⟩ := Option.map_eq_some_iff.mp hdriven
    obtain ⟨q₁, hact, rfl⟩ := Option.map_eq_some_iff.mp hq
    exact .act hpermits hact
  | enterPhase p =>
    simp only [step] at hs
    split at hs
    · rename_i phase hphase hnone
      split_ifs at hs
      · cases hs
        exact .enterPhase hphase hnone
      · obtain ⟨drive, hdriven, rfl⟩ := Option.map_eq_some_iff.mp hs
        cases hnext hdriven
        exact .skipPhase hnone
    · cases hs
  | phase p a =>
    simp only [step, runPhase] at hs
    split at hs
    · rename_i generation memo changed target waiter phase l hpc hphase hl
      obtain ⟨r', hr, hs⟩ := Option.bind_eq_some_iff.mp hs
      cases hs
      exact .phase hpc hl hr
    · cases hs
  | leavePhase p =>
    simp only [step] at hs
    split at hs
    · rename_i l hl
      split_ifs at hs with hcompleted
      obtain ⟨drive, hdriven, rfl⟩ := Option.map_eq_some_iff.mp hs
      cases hnext hdriven
      exact .leavePhase hl hcompleted
    · cases hs
  | startSettle p =>
    simp only [step] at hs
    split at hs
    · rename_i epoch memo before hpc hfirst
      obtain ⟨runs, hruns, hs⟩ := Option.bind_eq_some_iff.mp hs
      cases hs
      exact .startSettle hpc hfirst hruns
    · cases hs
  | finishSettle p index outcome =>
    simp only [step, finishSettle] at hs
    split at hs
    · rename_i epoch memo before run hpc hrun
      split_ifs at hs
      obtain ⟨⟨after, state, progress⟩, hcommit, hs⟩ := Option.bind_eq_some_iff.mp hs
      cases hs
      exact .finishSettle hpc hrun hcommit
    · cases hs

end Execution
end Porridge
