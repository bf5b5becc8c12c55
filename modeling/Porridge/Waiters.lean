import Porridge.Lib.Tally
import Porridge.Protocol

/-! Callers that sleep: until a mutation boundary, or until a generation completes. -/
namespace Porridge

/-- A oneshot channel; its number tells the order of creation. -/
abbrev Channel := Nat

abbrev MutatorId := Nat

/-- What a caller does once it is at a mutation boundary. -/
inductive Request (α : Type) where
  /-- Change a component, and only its `original` revision when one is given. -/
  | mutate (component : TypeId) (entity : Entity) (f : Value α → Value α)
      (original : Option (Option Revision))
  /-- Queue the commands of a preempting input. -/
  | queue (commands : List (BaseCommand α))

/-- The caller of a mutation or of a preempting input. -/
structure PreemptWaiter (α : Type) where
  request : Request α
  /-- The runner counts this caller. -/
  registered : Bool
  /-- The caller takes a boundary when one comes and asks for none. -/
  deferred : Bool
  /-- The channel the caller sleeps on. -/
  awaits : Option Channel

/-- A caller that found the runner lock taken. -/
structure GenerationWaiter where
  target : Nat
  awaits : Option Channel

/-- The bowl, its callers, and who sleeps on what. -/
structure Waiters (α : Type) where
  protocol : Protocol α
  /-- How many channels have been created. -/
  channels : Nat
  mutators : Dict MutatorId (PreemptWaiter α)
  preemptWaiters : Nat
  boundaryWaiters : List Channel
  callers : Dict PartyId GenerationWaiter
  /-- The senders of the callers, with the generation each asks for. -/
  waiters : List (Nat × Channel)

inductive WaiterAction (α : Type) where
  /-- A section that waits for nothing. -/
  | act (action : Action α)
  | call (m : MutatorId) (request : Request α) (deferred : Bool)
  /-- A mutator checks for a boundary; `busy` tells that a guard holds the component's cell. -/
  | poll (m : MutatorId) (busy : Bool)
  /-- The future of a mutator is dropped. -/
  | drop (m : MutatorId)
  /-- A caller that found the runner lock taken asks for its generation. -/
  | waitForGeneration (p : PartyId)

namespace PreemptWaiter

variable {α : Type}

def hear (fired : List Channel) (x : PreemptWaiter α) : PreemptWaiter α :=
  { x with awaits := x.awaits.filter (· ∉ fired) }

/-- The component is no longer the one the caller has read. -/
def outdated (w : World α) (x : PreemptWaiter α) : Bool :=
  match x.request with
  | .mutate t e _ (some original) => w.revisionByType t e != original
  | _ => false

end PreemptWaiter

namespace Waiters

variable {α : Type} (C : Components α)

def new (systems : List BoxedSystem) (hooked : SystemId → Bool) : Waiters α where
  protocol := (Protocol.new systems hooked).rest
  channels := 0
  mutators := ∅
  preemptWaiters := 0
  boundaryWaiters := []
  callers := ∅
  waiters := []

/-- Fire the channel of every caller that sleeps until a boundary. -/
def drainBoundary (w : Waiters α) : Waiters α :=
  { w with
    mutators := Dict.mapValues (PreemptWaiter.hear w.boundaryWaiters) w.mutators
    boundaryWaiters := [] }

/-- Fire the channels of the senders that `wakes` selects; their callers look again. -/
def satisfy (w : Waiters α) (wakes : Nat → Bool) : Waiters α :=
  let fired := (w.waiters.filter fun x => wakes x.1).map Prod.snd
  { w with
    callers := Dict.retain (fun _ x => x.awaits.all (· ∉ fired)) w.callers
    waiters := w.waiters.filter fun x => !wakes x.1 }

/-- Whom a caller wakes by its next section, and whether it starts to wait. -/
def rouseOn (w : Waiters α) (p : PartyId) : Pc α → Waiters α
  | .completing generation _ _ _ _ => w.drainBoundary.satisfy (decide <| · ≤ generation)
  | .leaving .. | .unwinding => w.drainBoundary
  | .ensuring target _ =>
    if w.protocol.state.completedGeneration < target ∧ w.protocol.runner ≠ none then
      { w with callers := w.callers.insert p ⟨target, none⟩ }
    else w
  | _ => w

/-- Whom the future of a caller wakes when it is dropped: a driver wakes everyone. -/
def rouseDropped (w : Waiters α) (p : PartyId) : Pc α → Waiters α
  | .driving .. => { w with callers := w.callers.erase p }.satisfy fun _ => true
  | _ => { w with callers := w.callers.erase p }

/-- Whom a section of the protocol wakes. -/
def rouse (w : Waiters α) : Action α → Waiters α
  | .openWindow _ => w.drainBoundary
  | .advance p => w.rouseOn p (w.protocol.pc p)
  | .cancel p => w.rouseDropped p (w.protocol.pc p)
  | _ => w

/-- Mutations and preempting inputs have sections of their own, a caller that waits takes none,
and the runner leaves a window when it counts nobody. -/
def Permits (w : Waiters α) : Action α → Prop
  | .mutate .. => False
  | .insertPreempting _ => w.protocol.state.settling = 0
  | .advance p => p ∉ w.callers
  | .closeWindow _ => w.preemptWaiters = 0
  | _ => True

instance (w : Waiters α) : (a : Action α) → Decidable (w.Permits a)
  | .mutate .. => instDecidableFalse
  | .insertPreempting _ => instDecidableEqNat _ _
  | .advance _ => instDecidableNot
  | .closeWindow _ => instDecidableEqNat _ _
  | .insert _ | .reserve | .reserveSingleton _ | .takeBound .. | .drainBound _ | .dropBound _
  | .callSettle .. | .awaitInsert .. | .writeInPlace .. | .commit .. | .openWindow _ | .cancel _ =>
    instDecidableTrue

/-- Whether a request goes through a boundary: an input does while a settle drives. -/
def Waits (w : Waiters α) (deferred : Bool) : Request α → Prop
  | .mutate .. => True
  | .queue _ => w.protocol.state.settling ≠ 0 ∧ deferred = false

instance (w : Waiters α) (deferred : Bool) (r : Request α) : Decidable (w.Waits deferred r) := by
  unfold Waits
  split <;> infer_instance

/-- A mutator is done, or its future is dropped. -/
def finish (w : Waiters α) (m : MutatorId) (x : PreemptWaiter α) : Waiters α :=
  { w with
    mutators := w.mutators.erase m
    preemptWaiters := if x.registered then w.preemptWaiters - 1 else w.preemptWaiters }

/-- Register unless deferred, and sleep until a boundary. -/
def sleep (w : Waiters α) (m : MutatorId) (x : PreemptWaiter α) : Waiters α :=
  { w with
    channels := w.channels + 1
    mutators := w.mutators.insert m
      { x with registered := x.registered || !x.deferred, awaits := some w.channels }
    preemptWaiters :=
      if x.registered || x.deferred then w.preemptWaiters else w.preemptWaiters + 1
    boundaryWaiters := w.boundaryWaiters ++ [w.channels] }

def inState (w : Waiters α) (s : State α) : Waiters α :=
  { w with protocol := { w.protocol with state := s }.rest }

def serve (w : Waiters α) (m : MutatorId) (x : PreemptWaiter α) (s : State α) (busy : Bool) :
    Option (Waiters α) :=
  match x.request with
  | .mutate t e f _ =>
    match s.world.cell? t e with
    | none => some ((w.inState s).finish m x)
    | some entry =>
      if busy = true then some (w.inState s)
      else (w.protocol.step C (.mutate t e (f entry.value))).map fun q =>
        { w with protocol := q }.finish m x
  | .queue commands =>
    some ({ w with protocol := { w.protocol with
      state := { s with pendingInputs := s.pendingInputs ++ commands }.requestGeneration
      history := w.protocol.history.accept 0 0 commands }.rest }.finish m x)

def poll (w : Waiters α) (m : MutatorId) (busy : Bool) : Option (Waiters α) := do
  let x ← w.mutators.lookup m
  if x.awaits.isSome = true then none
  else if x.outdated w.protocol.state.world = true then some (w.finish m x)
  else
    match w.protocol.state.reachBoundary with
    | some s => w.serve C m x s busy
    | none => some (w.sleep m x)

/-- `wait_for_generation`: a caller whose generation is still to come sleeps. -/
def waitForGeneration (w : Waiters α) (p : PartyId) : Option (Waiters α) := do
  let x ← w.callers.lookup p
  if x.awaits.isSome = true then none
  else if x.target ≤ w.protocol.state.completedGeneration then
    some { w with callers := w.callers.erase p }
  else
    some { w with
      channels := w.channels + 1
      callers := w.callers.insert p { x with awaits := some w.channels }
      waiters := w.waiters ++ [(x.target, w.channels)] }

def step (w : Waiters α) : WaiterAction α → Option (Waiters α)
  | .act a =>
    if w.Permits a then (w.protocol.step C a).map fun q => { w.rouse a with protocol := q }
    else none
  | .call m request deferred =>
    if m ∉ w.mutators ∧ w.Waits deferred request then
      some { w with mutators := w.mutators.insert m ⟨request, false, deferred, none⟩ }
    else none
  | .poll m busy => w.poll C m busy
  | .drop m => do
    let x ← w.mutators.lookup m
    some (w.finish m x)
  | .waitForGeneration p => w.waitForGeneration p

def machine : Machine (Waiters α) (WaiterAction α) where
  init w := ∃ systems hooked, w = new systems hooked
  step := step C

abbrev Reachable : Waiters α → Prop := (machine C).Reachable

end Waiters
end Porridge
