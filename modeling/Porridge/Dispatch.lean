import Porridge.Dispatch.Executor
import Porridge.PhaseLoop

/-! The phase loop as it runs: admitted rows go in batches to the queues of readers and writers,
which deliver what the workers finish. -/
namespace Porridge
namespace Dispatch

/-- An admitted run. -/
abbrev Row := RunId × PlannedSystemRun

/-- The futures of a driver without a runtime, or the streams of worker tasks. -/
inductive Queue (κ ρ : Type) where
  | cooperative (pending : List κ)
  | workers (streams : List (Runs κ ρ))

/-- Where a poll of a queue finds a result: a future that is ready, or a stream. -/
inductive Turn (ρ : Type) where
  | future (index : Nat) (result : ρ)
  | stream (index : Nat)

namespace Queue

variable {κ ρ : Type} (fits : κ → ρ → Bool)

def new (workers : Option Nat) : Queue κ ρ := if workers.isSome then .workers [] else .cooperative []

/-- One submission. -/
def push (calls : Bool) (rows : List κ) : Queue κ ρ → Queue κ ρ
  | cooperative pending => .cooperative (pending ++ rows)
  | workers streams => .workers (streams ++ [.spawn calls rows])

def work (index : Nat) (a : TaskStep ρ) : Queue κ ρ → Option (Queue κ ρ)
  | cooperative _ => none
  | workers streams => do
    let stream ← streams[index]?
    let stream ← stream.step fits a
    some (.workers (streams.set index stream))

def next : Queue κ ρ → Turn ρ → Option ((κ × ρ) × Queue κ ρ)
  | cooperative pending, .future index result => do
    let row ← pending[index]?
    if fits row result then some ((row, result), .cooperative (pending.eraseIdx index)) else none
  | workers streams, .stream index => do
    let stream ← streams[index]?
    match ← stream.pollNext with
    | (.ready (some x), stream) => some (x, .workers (streams.set index stream))
    | _ => none
  | _, _ => none

/-- A stream that has ended leaves the queue. -/
def retire (index : Nat) : Queue κ ρ → Option (Queue κ ρ)
  | cooperative _ => none
  | workers streams => do
    let stream ← streams[index]?
    match ← stream.pollNext with
    | (.ready none, _) => some (.workers (streams.eraseIdx index))
    | _ => none

/-- The queue ends when it holds nothing. -/
def exhausted : Queue κ ρ → Bool
  | cooperative pending => pending.isEmpty
  | workers streams => streams.isEmpty

def rows : Queue κ ρ → List κ
  | cooperative pending => pending
  | workers streams => streams.flatMap Runs.rows

end Queue

/-- A queue and the batch that is being filled for it. -/
structure Filling (κ ρ : Type) where
  queue : Queue κ ρ
  batch : List κ

namespace Filling

variable {κ ρ : Type}

def push (size : Nat) (calls : Bool) (row : κ) (f : Filling κ ρ) : Filling κ ρ :=
  let batch := f.batch ++ [row]
  if batch.length = size then ⟨f.queue.push calls batch, []⟩ else ⟨f.queue, batch⟩

def finish (calls : Bool) (f : Filling κ ρ) : Queue κ ρ :=
  if f.batch = [] then f.queue else f.queue.push calls f.batch

end Filling

/-- Counts saturate at the largest machine word. -/
def usizeMax : Nat := 2 ^ 64 - 1

/-- How a phase dispatches: over the workers of a runtime, if there is one. -/
structure Setting where
  workers : Option Nat
  maximum : Nat
  positive : 0 < maximum

/-- Several batches for each worker; tiny plans keep single rows. -/
def Setting.grain (s : Setting) (ready : Nat) : Nat :=
  match s.workers with
  | none => s.maximum
  | some workers =>
    let share := max (min (workers * 4) usizeMax) 1
    min (max ((ready + share - 1) / share) 1) s.maximum

structure Admission (α : Type) where
  systems : List BoxedSystem
  reservations : Reservations
  deferredConflicts : Bool
  readers : Filling Row (RunOutcome α)
  writers : Filling Row (RunOutcome α)

namespace Admission

variable {α : Type}

def admitRow (size : Nat) (calls : Bool) (a : Admission α) (planned : SystemId × PlannedSystemRun) :
    Option (Admission α) := do
  let (answer, reservations) ← a.reservations.admitRun planned.2.owner planned.2.access
  match answer with
  | .error .duplicate => some { a with reservations }
  | .error (.conflict owner) =>
    some { a with
      reservations
      deferredConflicts := true
      systems := a.systems.modify planned.1 (BoxedSystem.forceReplan owner.keys) }
  | .ok id => do
    if ← reservations.isWriter id then
      some { a with reservations, writers := a.writers.push size calls (id, planned.2) }
    else some { a with reservations, readers := a.readers.push size calls (id, planned.2) }

end Admission

/-- A phase loop over dispatch queues. The loop itself keeps no list of what is in flight: that is
what the queues still hold and the finished rows it has taken from them. -/
structure Dispatched (α : Type) where
  runner : Runner α
  readers : Queue Row (RunOutcome α)
  writers : Queue Row (RunOutcome α)
  batch : List (Row × RunOutcome α)

inductive DispatchStep (α : Type) where
  /-- A section that neither starts nor ends a run. -/
  | loop (a : PhaseStep α)
  /-- The plan of a system is dispatched, as calls or as futures. -/
  | dispatch (calls : Bool)
  | work (writer : Bool) (index : Nat) (a : TaskStep (RunOutcome α))
  | next (writer : Bool) (turn : Turn (RunOutcome α))
  | retire (writer : Bool) (index : Nat)
  /-- Commit the first of the finished rows. -/
  | commit
  | preempt

end Dispatch

/-- The sections that neither start nor end a run. -/
def PhaseStep.bare {α : Type} : PhaseStep α → Bool
  | .turn | .planNext | .endWave | .interrupt | .endBatch => true
  | .admitNext | .preempt | .finish .. => false

/-- The same loop with other runs in flight. -/
def Runner.carrying {α : Type} (r : Runner α) (running : List (RunId × PlannedSystemRun)) :
    Runner α :=
  { r with loop := { r.loop with running } }

namespace Dispatch
namespace Dispatched

variable {α : Type} (P : Program α) (setting : Setting)

def fits (row : Row) (outcome : RunOutcome α) : Bool := row.2.fits outcome

def enter (state : State α) (memo : MemoTable) (phase : Phase) : Dispatched α :=
  ⟨⟨state, memo, .enter phase P.componentRegistry⟩, .new setting.workers, .new setting.workers, []⟩

variable (d : Dispatched α)

/-- The rows of a plan are admitted one after the other, and dispatched in batches that keep
readers and writers apart. -/
def dispatchRows (calls : Bool) : Option (Dispatched α) :=
  match d.runner.loop.stage with
  | .planning ⟨snapshot, systems, queue⟩ => do
    let size := setting.grain queue.length
    let a ← queue.foldlM (Admission.admitRow size calls) {
      systems := d.runner.state.systems
      reservations := d.runner.loop.reservations
      deferredConflicts := d.runner.loop.deferredConflicts
      readers := ⟨d.readers, []⟩
      writers := ⟨d.writers, []⟩ }
    some { d with
      runner := { d.runner with
        state := { d.runner.state with systems := a.systems }
        loop := { d.runner.loop with
          reservations := a.reservations
          deferredConflicts := a.deferredConflicts
          stage := .planning ⟨snapshot, systems, []⟩ } }
      readers := a.readers.finish calls
      writers := a.writers.finish calls }
  | _ => none

/-- Finished rows are taken while the loop waits, until it commits the first of them; a loop that
drains takes one writer at a time. -/
def takes (writer : Bool) : Bool :=
  match d.runner.loop.stage with
  | .waiting _ => true
  | .draining => writer && d.batch.isEmpty
  | _ => false

def onQueue (writer : Bool) (f : Queue Row (RunOutcome α) → Option (Queue Row (RunOutcome α))) :
    Option (Dispatched α) :=
  if writer then (f d.writers).map fun writers => { d with writers }
  else (f d.readers).map fun readers => { d with readers }

def next (writer : Bool) (turn : Turn (RunOutcome α)) : Option (Dispatched α) :=
  if d.takes writer then do
    let (x, queue) ← (if writer then d.writers else d.readers).next fits turn
    let d := { d with batch := d.batch ++ [x] }
    some (if writer then { d with writers := queue } else { d with readers := queue })
  else none

/-- The loop knows of a run that it commits what its row has brought along. -/
def commit : Option (Dispatched α) :=
  match d.batch with
  | (row, outcome) :: batch => do
    let runner ← (d.runner.carrying [row]).finish P row.1 outcome
    some { d with runner := runner.carrying [], batch }
  | [] => none

def step (d : Dispatched α) : DispatchStep α → Option (Dispatched α)
  | .loop a =>
    if a.bare = true ∧ d.batch = [] then (d.runner.step P a).map fun runner => { d with runner }
    else none
  | .dispatch calls => d.dispatchRows setting calls
  | .work writer index a => d.onQueue writer (Queue.work fits index a)
  | .next writer turn => d.next writer turn
  | .retire writer index => d.onQueue writer (Queue.retire index)
  | .commit => d.commit P
  | .preempt =>
    d.runner.preempt.map fun runner => { d with runner, readers := .new setting.workers }

def machine : Machine (Dispatched α) (DispatchStep α) where
  init d := ∃ state memo phase, d = enter P setting state memo phase
  step := step P setting

/-- What the queues have not delivered, and what has not been committed of what they have. -/
def inFlight : List Row := d.readers.rows ++ d.writers.rows ++ d.batch.map Prod.fst

/-- Both queues have ended and everything they delivered is committed. -/
def drained : Bool := d.readers.exhausted && d.writers.exhausted && d.batch.isEmpty

end Dispatched
end Dispatch
end Porridge
