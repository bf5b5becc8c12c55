import Porridge.Protocol.Generations

/-! The phase loop of the caller that drives a generation: phases in order, planning, and the
windows that restart it. -/
namespace Porridge

/-- The normal phases of a generation, in order. -/
def Phase.ordered (startup : Bool) : List Phase :=
  if startup then [.startup, .evaluate, .complete] else [.evaluate, .complete]

/-- How many windows a driver opens in one generation. -/
def preemptionBudget : Nat := 4

/-- Where a driver is in its phase loop. -/
structure Cursor where
  party : PartyId
  phases : List Phase
  index : Nat
  preemptions : Nat
  /-- The driver waits in a window for the mutators to apply. -/
  paused : Bool
deriving DecidableEq

namespace Cursor

def start (party : PartyId) (startup : Bool) : Cursor := ⟨party, Phase.ordered startup, 0, 0, false⟩

/-- The phase being run, outside a window. -/
def phase? (c : Cursor) (p : PartyId) : Option Phase :=
  if c.party = p ∧ c.paused = false then c.phases[c.index]? else none

/-- Back to the head of the phase order, through the startup slot. -/
def restart (c : Cursor) : Cursor :=
  ⟨c.party, Phase.ordered true, 0, c.preemptions + 1, false⟩

end Cursor

/-- A bowl, its callers, and the phase loop of the one that drives. -/
structure Drive (α : Type) where
  protocol : Protocol α
  cursor : Option Cursor

inductive DriveAction (α : Type) where
  | act (action : Action α)
  /-- The driver plans the rows of one system of the phase it runs. -/
  | plan (p : PartyId) (s : SystemId)
  /-- The phase has converged. -/
  | finishPhase (p : PartyId)

/-- What a run of the driver shows of its inputs and its plans. -/
inductive DriveEvent where
  /-- A preempting input reached the window of a generation. -/
  | reached (generation : Nat) (input : Nat)
  /-- A generation planned a system while these inputs had been applied. -/
  | planned (generation : Nat) (s : SystemId) (applied : List Nat)
deriving DecidableEq

namespace Drive

variable {α : Type} (C : Components α)

def phase? (d : Drive α) (p : PartyId) : Option Phase := d.cursor.bind (·.phase? p)

/-- The phase loop lets its driver take the section. -/
def Permits (d : Drive α) (a : Action α) : Prop :=
  match a with
  | .openWindow p => (d.phase? p).isSome = true ∧ ∀ c ∈ d.cursor, c.preemptions < preemptionBudget
  | .closeWindow p => ∃ c ∈ d.cursor, c.party = p ∧ c.paused = true
  | .commit p _ phase => (d.protocol.pc p).drives = true → d.phase? p = some phase
  | .advance p => (d.protocol.pc p).drives = true →
    ∃ c ∈ d.cursor, c.party = p ∧ c.paused = false ∧ c.phases.length ≤ c.index
  | _ => True

instance (d : Drive α) : DecidablePred d.Permits := fun a => by
  unfold Permits
  cases a <;> infer_instance

/-- The phase loop after a section that led to `q`. -/
def cursorAfter (d : Drive α) (q : Protocol α) : Action α → Option Cursor
  | .openWindow _ => d.cursor.map fun c => { c with paused := true }
  | .closeWindow _ => d.cursor.map Cursor.restart
  | .advance p =>
    if (d.protocol.pc p).drives = true then none
    else if (q.pc p).drives = true then
      let s := d.protocol.state
      some (.start p (!s.startupRan || s.preemptRestart))
    else d.cursor
  | .cancel p => d.cursor.filter (·.party ≠ p)
  | _ => d.cursor

def step (d : Drive α) : DriveAction α → Option (Drive α)
  | .act a =>
    if d.Permits a then
      (Protocol.step C d.protocol a).map fun q => ⟨q, d.cursorAfter q a⟩
    else none
  | .plan p s =>
    match d.phase? p, d.protocol.state.systems[s]? with
    | some phase, some system => if system.phase = phase then some d else none
    | _, _ => none
  | .finishPhase p =>
    if (d.phase? p).isSome = true then
      some { d with cursor := d.cursor.map fun c => { c with index := c.index + 1 } }
    else none

def machine : Machine (Drive α) (DriveAction α) where
  init d := (Protocol.machine C).init d.protocol ∧ d.cursor = none
  step := step C

def shows (d : Drive α) : DriveAction α → List DriveEvent
  | .act (.insertPreempting _) =>
    match d.protocol.state.runningGeneration with
    | some g =>
      if d.protocol.state.settling ≠ 0 ∧ d.protocol.state.preemptWindow = true then
        [.reached g d.protocol.history.accepted]
      else []
    | none => []
  | .plan p s =>
    match (d.protocol.pc p).generation with
    | some g => [.planned g s d.protocol.history.applied]
    | none => []
  | _ => []

/-- The driver's bowl with a record of what its runs show. -/
def showing : Machine (Drive α × List DriveEvent) (DriveAction α) := (machine C).recording shows

end Drive

/-- Every input that reached the window of a generation was applied before that generation planned
anything again. -/
def InputsEnterRestart (events : List DriveEvent) : Prop :=
  events.Pairwise fun a b => ∀ g n s applied,
    a = .reached g n → b = .planned g s applied → n ∈ applied

/-- No generation planned anything after an input reached its window. -/
def NothingPlannedAfter (events : List DriveEvent) : Prop :=
  events.Pairwise fun a b => ∀ g n s applied,
    a = .reached g n → b ≠ .planned g s applied

end Porridge
