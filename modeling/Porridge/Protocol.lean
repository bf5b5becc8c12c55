import Porridge.Cleanup
import Porridge.Epoch
import Porridge.Evaluation
import Porridge.Healing

/-! Concurrent callers of one bowl, each between two sections under the state lock. -/
namespace Porridge

abbrev PartyId := Nat

/-- What a settle carries from one section to the next. -/
structure Epoch where
  /-- The input sequence when the settle entered. -/
  watermark : Nat
  /-- How many inputs had been accepted when the settle entered. -/
  accepted : Nat
  /-- The settle belongs to a scoop, which reads afterwards. -/
  scoop : Bool
  attempts : Dict SystemInvocation Nat
deriving DecidableEq

inductive Waiter where
  | insert
  | settle (epoch : Epoch)
deriving DecidableEq

/-- Where a caller is; each constructor names the section it takes next. -/
inductive Pc (α : Type) where
  | idle
  | entering (scoop : Bool)
  | loopTop (epoch : Epoch)
  | ensuring (target : Nat) (waiter : Waiter)
  /-- The runner lock is held and no generation is started yet. -/
  | starting (target : Nat) (waiter : Waiter)
  | driving (generation : Nat) (memo : MemoTable) (changed : Bool) (target : Nat) (waiter : Waiter)
  /-- The evaluation guard has given the memo table back to the driver. -/
  | completing (generation : Nat) (memo : MemoTable) (changed : Bool) (target : Nat)
      (waiter : Waiter)
  | checking (epoch : Epoch)
  | healing (epoch : Epoch)
  | startingHooks (epoch : Epoch)
  | inHooks (epoch : Epoch) (memo : MemoTable) (followup : Bool)
  | startingSettlePhase (epoch : Epoch)
  | inSettlePhase (epoch : Epoch) (memo : MemoTable) (revisionBefore : Revision)
  | healingAgain (epoch : Epoch)
  | followingUp (epoch : Epoch)
  | publishing (epoch : Epoch)
  | enqueueing (epoch : Epoch)
  /-- The settle is done; its epoch guard is about to be dropped. -/
  | leaving (accepted : Nat) (scoop : Bool)
  /-- `settle` has returned; `accepted` inputs had been accepted when it entered. -/
  | returned (accepted : Nat) (scoop : Bool)
  | draining
  | cleaning (entities : List Entity)
  | reading
  /-- The scoop materializes its rows from the snapshot. -/
  | read (snapshot : Snapshot α)
  /-- A cancelled settle whose epoch guard is about to be dropped. -/
  | unwinding
deriving DecidableEq

namespace Pc

variable {α : Type}

def held : Pc α → Option MemoTable
  | driving _ memo _ _ _ | completing _ memo _ _ _ | inHooks _ memo _ | inSettlePhase _ memo _ =>
    some memo
  | _ => none

/-- Dropping the caller here loses no memo table. -/
def guarded : Pc α → Bool
  | driving .. => true
  | pc => pc.held.isNone

/-- Normal invocations of a generation may be in flight. -/
def drives : Pc α → Bool
  | driving .. => true
  | _ => false

def showWrite (t : TypeId) (e : Entity) (cell : Nat) (v : Value α) : Pc α → Pc α
  | read snapshot => read (World.showWrite t e cell v snapshot)
  | pc => pc

def epoch : Pc α → Option Epoch
  | ensuring _ (.settle epoch) | starting _ (.settle epoch) | driving _ _ _ _ (.settle epoch)
  | completing _ _ _ _ (.settle epoch) | loopTop epoch | checking epoch | healing epoch
  | startingHooks epoch | inHooks epoch _ _ | startingSettlePhase epoch | inSettlePhase epoch _ _
  | healingAgain epoch | followingUp epoch | publishing epoch | enqueueing epoch => some epoch
  | _ => none

/-- Where a caller goes on once its target generation has completed. -/
def afterEvaluation : Waiter → Pc α
  | .insert => idle
  | .settle epoch => checking epoch

end Pc

/-- History variables, which no step of the program reads. -/
structure History (α : Type) where
  /-- How many external inputs have been accepted; an input's number is its position. -/
  accepted : Nat
  /-- The inputs in `pendingInputs`, numbered. -/
  pending : List (Nat × List (BaseCommand α))
  /-- The inputs in `deferredInputs` with their tags, numbered. -/
  deferred : List (Nat × Nat × List (BaseCommand α))
  applied : List Nat
  /-- The entry of each invocation's last accepted commit that nothing has invalidated since. -/
  expected : MemoTable
  /-- The stores at every instant when no generation was pending or running and no normal
  invocation was in flight. -/
  rests : List (Snapshot α)

/-- A bowl and its callers. -/
structure Protocol (α : Type) where
  state : State α
  parties : Dict PartyId (Pc α)
  /-- The caller that holds the runner lock. -/
  runner : Option PartyId
  deferredCleanup : List Entity
  history : History α

/-- One section of one caller, or a section of a caller that keeps nothing between sections. -/
inductive Action (α : Type) where
  | insert (commands : List (BaseCommand α))
  | insertPreempting (commands : List (BaseCommand α))
  | reserve
  | reserveSingleton (key : TypeId)
  | mutate (component : TypeId) (entity : Entity) (value : Value α)
  | takeBound (entity : Entity) (parts : List (TypeId × Bool))
  | drainBound (entities : List Entity)
  | dropBound (entity : Entity)
  | callSettle (p : PartyId) (scoop : Bool)
  | awaitInsert (p : PartyId) (generation : Nat)
  | advance (p : PartyId)
  /-- A running invocation writes a component in place. -/
  | writeInPlace (p : PartyId) (component : TypeId) (entity : Entity) (value : Value α)
  | commit (p : PartyId) (run : SystemRun α) (phase : Phase)
  | openWindow (p : PartyId)
  | closeWindow (p : PartyId)
  | cancel (p : PartyId)

/-- Forget the expected entries whose owners a section took out of the table it worked on. -/
def carry (before after expected : MemoTable) : MemoTable :=
  Dict.retain (fun o _ => o ∉ before ∨ o ∈ after) expected

namespace History

variable {α : Type}

def accept (h : History α) (settling : Nat) (tag : Nat) (commands : List (BaseCommand α)) :
    History α :=
  if settling = 0 then
    { h with accepted := h.accepted + 1, pending := h.pending ++ [(h.accepted, commands)] }
  else
    { h with accepted := h.accepted + 1, deferred := h.deferred ++ [(tag, h.accepted, commands)] }

def promote (h : History α) (watermark : Nat) : History α :=
  { h with
    pending := h.pending ++ (h.deferred.takeWhile fun input => input.1 ≤ watermark).map Prod.snd
    deferred := h.deferred.dropWhile fun input => input.1 ≤ watermark }

def apply (h : History α) : History α :=
  { h with pending := [], applied := h.applied ++ h.pending.map Prod.fst }

def carry (h : History α) (before after : MemoTable) : History α :=
  { h with expected := Porridge.carry before after h.expected }

/-- Note an accepted run that was committed against the table `memo` and left `after`. -/
def commit (C : Components α) (h : History α) (memo after : MemoTable) (s : State α)
    (run : SystemRun α) (deferInserts : Bool) : History α :=
  match publishRun C memo s run deferInserts with
  | none => h
  | some (published, s') =>
    { h with
      expected := Porridge.carry published after (publishMemo s'.world s.settleEpoch run h.expected) }

end History

namespace Protocol

variable {α : Type} (C : Components α)

def new (systems : List BoxedSystem) (hooked : SystemId → Bool) : Protocol α where
  state := State.build systems hooked
  parties := ∅
  runner := none
  deferredCleanup := []
  history := ⟨0, [], [], [], ∅, []⟩

def pc (q : Protocol α) (p : PartyId) : Pc α := Dict.getD q.parties p .idle

def goto (q : Protocol α) (p : PartyId) (pc : Pc α) : Protocol α :=
  { q with parties := q.parties.insert p pc }

/-- A write to a present component's cell reaches every snapshot that shares it. -/
def showWrite (q : Protocol α) (t : TypeId) (e : Entity) (v : Value α) : Protocol α :=
  match q.state.world.cell? t e with
  | none => q
  | some x => { q with parties := Dict.mapValues (Pc.showWrite t e x.cell v) q.parties }

def promote (q : Protocol α) (watermark : Nat) : Bool × Protocol α :=
  let r := q.state.promoteDeferredInputs watermark
  (r.1, { q with state := r.2, history := q.history.promote watermark })

/-- Work on the memo table at home. -/
def amendHome (q : Protocol α) (s : State α) : Protocol α :=
  { q with state := s, history := q.history.carry q.state.memo s.memo }

/-- The exit of a settle: another epoch when one is owed, the end otherwise. -/
def exit (q : Protocol α) (p : PartyId) (epoch : Epoch) (done : State α → State α) : Protocol α :=
  let r := q.promote epoch.watermark
  if r.1 = true then r.2.goto p (.loopTop epoch)
  else { q with state := done q.state }.goto p (.leaving epoch.accepted epoch.scoop)

def startGeneration (q : Protocol α) (p : PartyId) (target : Nat) (waiter : Waiter) :
    Option (Protocol α) := do
  match ← startEvaluation C q.state with
  | none => some ({ q with runner := none }.goto p (.ensuring target waiter))
  | some started =>
    let history := (q.history.apply).carry q.state.memo started.memo
    some ({ q with state := started.state, history }.goto p
      (.driving started.generation started.memo false target waiter))

def heal (q : Protocol α) (p : PartyId) (epoch : Epoch) (onwards : Epoch → Pc α) :
    Option (Protocol α) := do
  let (healed, attempts, s) ← healStaleAmbient epoch.attempts q.state
  let epoch := { epoch with attempts }
  some ((q.amendHome s).goto p (if healed then .enqueueing epoch else onwards epoch))

def takeMemo (q : Protocol α) (p : PartyId) (pc : MemoTable → Pc α) : Protocol α :=
  { q with state := { q.state with memo := ∅ } }.goto p (pc q.state.memo)

/-- Move the memo table back, over whatever is there. -/
def putMemo (q : Protocol α) (p : PartyId) (memo : MemoTable) (pc : Pc α) : Protocol α :=
  { q with state := { q.state with memo } }.goto p pc

def leave (q : Protocol α) : Protocol α :=
  let promoted := { q with state := { q.state with settling := q.state.settling - 1 } }
  if promoted.state.settling = 0 then (promoted.promote State.maxTag).2 else promoted

/-- The next section of a caller. -/
def advance (q : Protocol α) (p : PartyId) : Option (Protocol α) :=
  match q.pc p with
  | .idle => none
  | .entering scoop =>
    some ({ q with state := q.state.enterEpoch }.goto p
      (.loopTop ⟨q.state.inputSeq, q.history.accepted, scoop, ∅⟩))
  | .loopTop epoch =>
    if q.state.isSettled = true then some (q.exit p epoch id)
    else some (q.goto p (.ensuring q.state.evaluationTarget (.settle epoch)))
  | .ensuring target waiter =>
    if target ≤ q.state.completedGeneration then some (q.goto p (.afterEvaluation waiter))
    else if q.runner = none then
      some ({ q with runner := some p }.goto p (.starting target waiter))
    else some q
  | .starting target waiter => q.startGeneration C p target waiter
  | .driving generation memo changed target waiter =>
    some (q.goto p (.completing generation memo changed target waiter))
  | .completing generation memo changed target waiter =>
    some ({ q with
      state := completeEvaluation q.state generation memo changed
      runner := none }.goto p (.ensuring target waiter))
  | .checking epoch =>
    if q.state.isSettled = true then some (q.exit p epoch id)
    else if (q.state.isClean && q.state.normalClean) = true then some (q.goto p (.healing epoch))
    else some (q.goto p (.enqueueing epoch))
  | .healing epoch => q.heal p epoch .startingHooks
  | .startingHooks epoch =>
    if q.state.settledHooks = [] then some (q.goto p (.startingSettlePhase epoch))
    else some (q.takeMemo p fun memo => .inHooks epoch memo false)
  | .inHooks epoch memo followup =>
    some (q.putMemo p memo (if followup then .enqueueing epoch else .startingSettlePhase epoch))
  | .startingSettlePhase epoch =>
    if q.state.settleSystems = [] then some (q.goto p (.publishing epoch))
    else some (q.takeMemo p fun memo => .inSettlePhase epoch memo q.state.world.revision)
  | .inSettlePhase epoch memo revisionBefore =>
    some (q.putMemo p memo
      (if q.state.world.revision = revisionBefore then .publishing epoch else .healingAgain epoch))
  | .healingAgain epoch => q.heal p epoch .followingUp
  | .followingUp epoch =>
    some (q.goto p (if q.state.normalClean then .publishing epoch else .enqueueing epoch))
  | .publishing epoch => some (q.exit p epoch State.publishSettledRevision)
  | .enqueueing epoch =>
    some ({ q with state := q.state.requestGeneration }.goto p (.loopTop epoch))
  | .leaving accepted scoop => some (q.leave.goto p (.returned accepted scoop))
  | .returned _ scoop => some (q.goto p (if scoop then .draining else .idle))
  | .draining =>
    some ({ q with deferredCleanup := [] }.goto p
      (if q.deferredCleanup = [] then .reading else .cleaning q.deferredCleanup))
  | .cleaning entities => some ((q.amendHome (drainBound C q.state entities)).goto p .reading)
  | .reading => some (q.goto p (.read q.state.world.stores))
  | .read _ => some (q.goto p .idle)
  | .unwinding => some (q.leave.goto p .idle)

def commit (q : Protocol α) (p : PartyId) (memo : MemoTable) (run : SystemRun α)
    (phase : Option Phase) (pc : MemoTable → Bool → Pc α) : Option (Protocol α) := do
  let (after, s, progress) ← commitSystemRun C memo q.state run phase
  let history := if progress.stale then q.history
    else q.history.commit C memo after q.state run (phase = some .settle)
  some ({ q with state := s, history }.goto p (pc after progress.needsFollowup))

/-- Drop the future of a caller; only the evaluation guard saves the memo table. -/
def cancel (q : Protocol α) (p : PartyId) : Option (Protocol α) :=
  match q.pc p with
  | .idle | .leaving .. | .unwinding => none
  | pc =>
    let state := match pc with
      | .driving generation memo _ _ _ => abandonEvaluation q.state generation memo
      | _ => q.state
    let runner := if q.runner = some p then none else q.runner
    some ({ q with state, runner }.goto p (if pc.epoch.isSome then .unwinding else .idle))

def act (q : Protocol α) : Action α → Option (Protocol α)
  | .insert commands => do
    let state ← q.state.acceptInput commands
    some { q with
      state, history := q.history.accept q.state.settling (q.state.inputSeq + 1) commands }
  | .insertPreempting commands => do
    let state ← q.state.acceptPreempting commands
    some { q with state, history := q.history.accept 0 0 commands }
  | .reserve => some { q with state := { q.state with world := q.state.world.spawnEmpty.2 } }
  | .reserveSingleton key =>
    some { q with state := { q.state with world := (q.state.world.singletonEntityOrSpawn key).2 } }
  | .mutate t e v => do
    let state ← q.state.reachBoundary
    some { q.showWrite t e v with state := state.mutate C t e v }
  | .takeBound e parts => some (q.amendHome (takeBound C q.state e parts))
  | .drainBound entities => some (q.amendHome (drainBound C q.state entities))
  | .dropBound e => some { q with deferredCleanup := q.deferredCleanup ++ [e] }
  | .callSettle p scoop =>
    match q.pc p with
    | .idle =>
      if q.state.isSettled = true ∧ q.state.deferredInputs = [] then
        some (q.goto p (.returned q.history.accepted scoop))
      else some (q.goto p (.entering scoop))
    | _ => none
  | .awaitInsert p generation =>
    match q.pc p with
    | .idle => some (q.goto p (.ensuring generation .insert))
    | _ => none
  | .advance p => q.advance C p
  | .writeInPlace p t e v =>
    if (q.pc p).held.isSome = true then
      some { q.showWrite t e v with
        state := { q.state with world := q.state.world.writeInPlace t e v } }
    else none
  | .commit p run phase =>
    match q.pc p with
    | .driving generation memo changed target waiter =>
      if phase = .settle then none
      else q.commit C p memo run (some phase) fun memo followup =>
        .driving generation memo (changed || followup) target waiter
    | .inHooks epoch memo followup =>
      q.commit C p memo run none fun memo followup' => .inHooks epoch memo (followup || followup')
    | .inSettlePhase epoch memo revisionBefore =>
      q.commit C p memo run (some .settle) fun memo _ => .inSettlePhase epoch memo revisionBefore
    | _ => none
  | .openWindow p =>
    match q.pc p with
    | .driving .. => some { q with state := { q.state with preemptWindow := true } }
    | _ => none
  | .closeWindow p =>
    match q.pc p with
    | .driving .. => some { q with state := { q.state with
        preemptWindow := false
        preemptRestart := false
        systems := q.state.systems.map BoxedSystem.resetFull } }
    | _ => none
  | .cancel p => q.cancel p

/-- No generation is pending or running and no normal invocation is in flight. -/
def AtRest (q : Protocol α) : Prop :=
  q.state.isClean = true ∧ ∀ b ∈ q.parties.entries, b.2.drives = false

instance (q : Protocol α) : Decidable q.AtRest := inferInstanceAs (Decidable (_ ∧ _))

/-- Note the stores of an instant of rest. -/
def rest (q : Protocol α) : Protocol α :=
  if q.AtRest then
    { q with history := { q.history with rests := q.history.rests ++ [q.state.world.stores] } }
  else q

def step (q : Protocol α) (a : Action α) : Option (Protocol α) := (q.act C a).map rest

def machine : Machine (Protocol α) (Action α) where
  init q := ∃ systems hooked, q = (new systems hooked).rest
  step := step C

abbrev Reachable : Protocol α → Prop := (machine C).Reachable

end Protocol
end Porridge
