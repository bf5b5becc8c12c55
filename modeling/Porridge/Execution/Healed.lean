import Porridge.Execution
import Porridge.Protocol.Closing
import Porridge.Query.Observation

/-! Ambient healing is complete when a settle publishes: no entry of the epoch that is being closed
was planned before a store it views last moved. -/
namespace Porridge

variable {α : Type}

/-- What the settled hook of a system publishes: the buffer of its callback, under the key of the
system itself, or nothing. -/
def settledRun (id : SystemId) : Option (List (Command α)) → SystemRun α
  | none => ⟨false, [], [], []⟩
  | some commands => ⟨true, [⟨⟨id, []⟩, commands⟩], [], []⟩

theorem exists_settledRun_iff {id : SystemId} {run : SystemRun α} :
    (∃ emitted, run = settledRun id emitted) ↔
      run = settledRun id (run.outputs.head?.map SystemOutput.commands) := by
  constructor
  · rintro ⟨emitted, rfl⟩
    cases emitted <;> rfl
  · intro h
    exact ⟨_, h⟩

/-- No entry of epoch `n` outside the `Settle` systems was planned before a move of a store that
its system views. -/
def HealedIn (n : Nat) (s : State α) : Prop :=
  ∀ b ∈ s.memo.entries, b.2.settleEpoch = n → ∀ system ∈ s.systems[b.1.system]?,
    system.phase ≠ .settle → ∀ t ∈ system.viewFreshness,
      s.world.storeWatermark t ≤ b.2.plannedRevision

theorem AmbientFresh.healedIn {s : State α} (h : AmbientFresh s s.memo) :
    HealedIn s.settleEpoch s := by
  intro b hb
  exact isStaleAmbient_eq_false_iff.mp (h b.1 b.2 (AList.mem_lookup_iff.mpr hb))

theorem owner_of_mem_settleRuns {P : Program α} {s : State α} {memo : MemoTable}
    {runs : List PlannedSystemRun} (h : settleRuns P s memo = some runs) :
    ∀ run ∈ runs, ∀ row ∈ run.rows, row.owner.system ∈ s.settleSystems := by
  intro run hrun row hrow
  obtain ⟨id, hid, planned, hplanned, hmem⟩ := (List.mem_flatMap? h run).mp hrun
  obtain ⟨⟨phase, runnable⟩, -, hstream⟩ := Option.bind_eq_some_iff.mp hplanned
  rw [(Runnable.ofState_of_mem_streamRuns hstream run hmem row hrow).owner]
  exact hid

namespace Runner

variable {P : Program α} {r r' : Runner α}

/-- What a section of the phase loop does to the state and the memo table: it marks systems, or it
commits a run in flight. -/
inductive Works (P : Program α) (r r' : Runner α) : PhaseStep α → Prop where
  | marks {a : PhaseStep α} {systems : List BoxedSystem}
      (hstate : r'.state = { r.state with systems })
      (hambient : systems.map BoxedSystem.ambient = r.state.systems.map BoxedSystem.ambient)
      (hmemo : r'.memo = r.memo) (hnone : ∀ id outcome, a ≠ .finish id outcome) : Works P r r' a
  | commits {id : RunId} {entry : RunId × PlannedSystemRun} {outcome : RunOutcome α} {s : State α}
      {progress : CommitProgress} {systems : List BoxedSystem}
      (hfind : r.loop.running.find? (·.1 = id) = some entry)
      (hcommit : commitSystemRun P.components r.memo r.state (entry.2.finish outcome)
        (some r.loop.phase) = some (r'.memo, s, progress))
      (hstate : r'.state = { s with systems })
      (hambient : systems.map BoxedSystem.ambient = s.systems.map BoxedSystem.ambient)
      (hrunning : r'.loop.running = r.loop.running.filter fun x => x.1 ≠ id) :
      Works P r r' (.finish id outcome)

theorem works_settleRun {id : RunId} {outcome : RunOutcome α} {replan : Bool}
    {onwards : CommitProgress → Stage α} (hs : r.settleRun P id outcome replan onwards = some r') :
    Works P r r' (.finish id outcome) := by
  obtain ⟨⟨_, run⟩, hfind, hs⟩ := Option.bind_eq_some_iff.mp hs
  dsimp only at hs
  split_ifs at hs
  obtain ⟨⟨memo, state, progress⟩, hcommit, hs⟩ := Option.bind_eq_some_iff.mp hs
  obtain ⟨⟨owner, reservations⟩, -, hs⟩ := Option.bind_eq_some_iff.mp hs
  obtain ⟨owner', -, hs⟩ := Option.bind_eq_some_iff.mp hs
  cases hs
  dsimp only
  split_ifs
  · exact .commits hfind hcommit rfl (BoxedSystem.ambient_forceReplanOf _ _) rfl
  · exact .commits hfind hcommit rfl rfl rfl

theorem works_step {a : PhaseStep α} (hs : r.step P a = some r') : Works P r r' a := by
  cases a with
  | turn =>
    simp only [step, turn] at hs
    split at hs
    · split_ifs at hs <;> cases hs <;> exact .marks rfl rfl rfl (by simp)
    · cases hs
  | planNext =>
    simp only [step, planNext] at hs
    split at hs
    · obtain ⟨system, -, hs⟩ := Option.bind_eq_some_iff.mp hs
      obtain ⟨⟨phase, runnable⟩, -, hs⟩ := Option.bind_eq_some_iff.mp hs
      dsimp only at hs
      split_ifs at hs
      · obtain ⟨runs, -, hs⟩ := Option.bind_eq_some_iff.mp hs
        cases hs
        have hambient := fun s => BoxedSystem.ambient_afterPlan (α := α) ‹_› s
        exact .marks rfl (BoxedSystem.ambient_modify hambient _ _) rfl (by simp)
      · cases hs
        exact .marks rfl rfl rfl (by simp)
    · cases hs
  | admitNext =>
    simp only [step, admitNext] at hs
    split at hs
    · obtain ⟨⟨answer, reservations⟩, -, hs⟩ := Option.bind_eq_some_iff.mp hs
      dsimp only at hs
      split at hs <;> cases hs
      · exact .marks rfl rfl rfl (by simp)
      · have hambient := fun s => BoxedSystem.ambient_forceReplan ‹SystemInvocation›.keys s
        exact .marks rfl (BoxedSystem.ambient_modify hambient _ _) rfl (by simp)
      · exact .marks rfl rfl rfl (by simp)
    · cases hs
  | preempt =>
    simp only [step, preempt] at hs
    split at hs
    · obtain ⟨reservations, -, hs⟩ := Option.bind_eq_some_iff.mp hs
      cases hs
      exact .marks rfl rfl rfl (by simp)
    · cases hs
  | finish id outcome =>
    simp only [step, finish] at hs
    split at hs
    · exact works_settleRun hs
    · exact works_settleRun hs
    · exact works_settleRun hs
    · cases hs
  | endWave | interrupt | endBatch =>
    simp only [step, endWave, interrupt, endBatch] at hs
    split at hs <;> cases hs
    exact .marks rfl rfl rfl (by simp)

/-- A section of the phase loop moves the world on, and neither the queues nor the numbers. -/
theorem onward_step {a : PhaseStep α} (hs : r.step P a = some r') :
    Onward P.components r.state r'.state ∧ SameControl r.state r'.state := by
  have hsame : ∀ (s : State α) (systems : List BoxedSystem), SameControl s { s with systems } :=
    fun _ _ => ⟨rfl, rfl, rfl, rfl, rfl, rfl, rfl, rfl⟩
  cases works_step hs with
  | marks hstate hambient =>
    rw [hstate]
    exact ⟨⟨.refl _, hambient, rfl⟩, hsame _ _⟩
  | @commits id entry outcome s progress systems hfind hcommit hstate hambient =>
    rw [hstate]
    have hforced : Onward P.components s { s with systems } := ⟨.refl _, hambient, rfl⟩
    exact ⟨(steers_commitSystemRun hcommit).onward.trans hforced,
      (sameControl_commitSystemRun P.components hcommit).trans (hsame _ _)⟩

end Runner

namespace Execution

variable {P : Program α} {x x' : Execution α} {p : PartyId} {epoch : Epoch}

/-- A section commits for no row, except that a hook pass commits what hooks publish. -/
def FromHook (x : Execution α) : Action α → Prop
  | .commit p run _ =>
    match x.drive.protocol.pc p with
    | .inHooks .. => ∃ id ∈ x.drive.protocol.state.settledHooks, ∃ emitted,
      run = settledRun id emitted
    | _ => False
  | _ => True

instance [DecidableEq α] (x : Execution α) : DecidablePred x.FromHook := fun a =>
  decidable_of_iff
    ((match a with
      | .commit p run _ =>
        match x.drive.protocol.pc p with
        | .inHooks .. => decide (∃ id ∈ x.drive.protocol.state.settledHooks,
          run = settledRun id (run.outputs.head?.map SystemOutput.commands))
        | _ => false
      | _ => true) = true) (by
    unfold FromHook
    split
    · split
      · rw [decide_eq_true_iff]
        exact exists_congr fun _ => and_congr_right fun _ => exists_settledRun_iff.symm
      · simp
    · simp)

/-- One settler at a time, and nothing outside mutates the bowl while a settle closes. -/
def Undisturbed (x : Execution α) : ExecutionStep α → Prop
  | .act a => x.drive.protocol.ClosesAlone a ∧ x.FromHook a
  | _ => x.drive.protocol.OneSettler

instance [DecidableEq α] (x : Execution α) : DecidablePred x.Undisturbed := fun a =>
  decidable_of_iff
    ((match a with
      | .act a => decide (x.drive.protocol.ClosesAlone a ∧ x.FromHook a)
      | _ => decide x.drive.protocol.OneSettler) = true)
    (by unfold Undisturbed; split <;> simp)

/-- What the callers find when they close alone, with settle phases of `Settle` rows. -/
structure Closing (x : Execution α) : Prop where
  protocol : x.drive.protocol.Closing
  planned : ∀ p, ∀ run ∈ x.pass p, ∀ row ∈ run.rows,
    row.owner.system ∈ x.drive.protocol.state.settleSystems

theorem Undisturbed.commitsApart {a : Action α} (h : x.FromHook a) :
    x.drive.protocol.CommitsApart a := by
  cases a with
  | commit p run phase =>
    unfold FromHook at h
    unfold Protocol.CommitsApart
    dsimp only at h ⊢
    split
    · rename_i hpc
      rw [hpc] at h
      obtain ⟨id, -, emitted, rfl⟩ := h
      cases emitted <;> exact nofun
    · rename_i hpc
      rw [hpc] at h
      exact h.elim
    · trivial
  | _ => trivial

/-- Taking passes away leaves the rest planned as they were. -/
theorem pass_erase (x : Execution α) (drive : Drive α) (loop : Option (PhaseLoop α))
    (p p' : PartyId) : ∀ run ∈ pass ⟨drive, loop, x.passes.erase p⟩ p', run ∈ x.pass p' := by
  intro run hrun
  unfold pass at hrun ⊢
  dsimp only at hrun
  rw [Dict.getD_erase] at hrun
  split_ifs at hrun
  · cases hrun
  · exact hrun

theorem pass_act (x : Execution α) (a : Action α) (drive : Drive α) (p : PartyId) :
    ∀ run ∈ (x.act a drive).pass p, run ∈ x.pass p := by
  cases a with
  | advance p' => exact x.pass_erase drive x.loop p' p
  | cancel p' => exact x.pass_erase drive _ p' p
  | _ => exact fun _ hrun => hrun

theorem Closing.of_drive (h : x.Closing) (hq : x'.drive.protocol.Closing)
    (ho : Onward P.components x.drive.protocol.state x'.drive.protocol.state)
    (hpass : ∀ p, ∀ run ∈ x'.pass p, run ∈ x.pass p) : x'.Closing := by
  refine ⟨hq, fun p run hrun row hrow => ?_⟩
  rw [ho.settleSystems]
  exact h.planned p run (hpass p run hrun) row hrow

/-- The phase loop works while nobody closes. -/
theorem Closing.phase (h : x.Closing) {a : PhaseStep α} {generation : Nat} {memo : MemoTable}
    {changed : Bool} {target : Nat} {waiter : Waiter} {l : PhaseLoop α} {r' : Runner α}
    {history : History α}
    (hpc : x.drive.protocol.pc p = .driving generation memo changed target waiter)
    (hr : Runner.step P ⟨x.drive.protocol.state, memo, l⟩ a = some r')
    (hprotocol : x'.drive.protocol = Protocol.goto { x.drive.protocol with state := r'.state, history }
      p (.driving generation r'.memo (changed || r'.loop.changed) target waiter))
    (hpass : x'.passes = x.passes) : x'.Closing := by
  obtain ⟨honward, hcontrol⟩ := Runner.onward_step hr
  have hopen := h.protocol.open_of_driving (p := p) (by rw [hpc]; rfl)
  let q : Protocol α := { x.drive.protocol with state := r'.state, history }
  have hkept : q.Exclusive :=
    h.protocol.exclusive.keep rfl hcontrol.runningGeneration fun _ => rfl
  have hin : (q.pc p).inGeneration = true := by
    show (x.drive.protocol.pc p).inGeneration = true
    rw [hpc]
    rfl
  have hexclusive := hkept.goto (p := p)
    (x := .driving generation r'.memo (changed || r'.loop.changed) target waiter)
    (fun _ => Pc.holdsRunner_of_inGeneration hin) fun _ => hin
  have hclosing : x'.drive.protocol.Closing := by
    rw [hprotocol]
    refine h.protocol.next hexclusive honward fun p' => ?_
    refine Protocol.settled_goto q _ (h.protocol.settled_open hopen hcontrol.settling)
      (fun _ => rfl) (.of_open rfl fun hx => ?_) p'
    show r'.state.settling ≠ 0
    rw [hcontrol.settling]
    refine (h.protocol.settled p).settling ?_
    rw [hpc]
    cases waiter <;> exact hx
  refine h.of_drive (P := P) hclosing ?_ fun p run hrun => ?_
  · rw [hprotocol]
    exact honward
  · unfold pass at hrun ⊢
    rwa [hpass] at hrun

/-- A settle phase commits rows of its own systems. -/
theorem Closing.finishSettle (h : x.Closing) (ha : x.drive.protocol.OneSettler) {index : Nat}
    {outcome : RunOutcome α} {epoch : Epoch} {memo after : MemoTable} {before : Revision}
    {run : PlannedSystemRun} {state : State α} {progress : CommitProgress} {history : History α}
    (hpc : x.drive.protocol.pc p = .inSettlePhase epoch memo before)
    (hrun : (x.pass p)[index]? = some run)
    (hcommit : commitSystemRun P.components memo x.drive.protocol.state (run.finish outcome)
      (some .settle) = some (after, state, progress))
    (hprotocol : x'.drive.protocol = Protocol.goto { x.drive.protocol with state, history }
      p (.inSettlePhase epoch after before))
    (hpasses : x'.passes = x.passes.insert p ((x.pass p).eraseIdx index)) : x'.Closing := by
  have hmem : run ∈ x.pass p := List.mem_of_getElem? hrun
  have hrows : Protocol.OfSettleRows x.drive.protocol.state (run.finish outcome) := by
    intro update hupdate
    obtain ⟨row, hrow, rfl⟩ := List.mem_map.mp hupdate
    exact h.planned p run hmem row hrow
  have honward := (steers_commitSystemRun hcommit).onward
  have hcontrol := sameControl_commitSystemRun P.components hcommit
  let q : Protocol α := { x.drive.protocol with state, history }
  have hkept : q.Exclusive :=
    h.protocol.exclusive.keep rfl hcontrol.runningGeneration fun _ => rfl
  refine ⟨?_, fun p' run' hrun' row hrow => ?_⟩
  · rw [hprotocol]
    refine h.protocol.next (hkept.free rfl) honward fun p' => ?_
    exact ha.settled_goto q (.inSettlePhase epoch after before) (by rw [hpc]; rfl) (fun _ => rfl)
      (h.protocol.settled_pass hpc hrows hcommit) p'
  · have hsettles : state.settleSystems = x.drive.protocol.state.settleSystems :=
      honward.settleSystems
    rw [hprotocol]
    show row.owner.system ∈ state.settleSystems
    rw [hsettles]
    unfold pass at hrun'
    rw [hpasses, Dict.getD_insert] at hrun'
    split_ifs at hrun'
    · exact h.planned p run' (List.mem_of_mem_eraseIdx hrun') row hrow
    · exact h.planned p' run' hrun' row hrow

/-- Every undisturbed step keeps what a closing settle has found. -/
theorem Closing.step (h : x.Closing) {a : ExecutionStep α} (ha : x.Undisturbed a)
    (hs : step P x a = some x') : x'.Closing := by
  cases step_cases hs with
  | @act a q₁ hpermits hact =>
    obtain ⟨halone, hhook⟩ := ha
    have hclosing : q₁.Closing := h.protocol.act halone (Undisturbed.commitsApart hhook) hact
    have honward : Onward P.components x.drive.protocol.state q₁.rest.state := by
      rw [(Protocol.rest_frame q₁).1]
      exact Protocol.onward_act hact
    have hprotocol : (x.act a ⟨q₁.rest, x.drive.cursorAfter q₁.rest a⟩).drive.protocol = q₁.rest := by
      cases a <;> rfl
    refine h.of_drive (P := P) ?_ ?_ (x.pass_act a _)
    · rw [hprotocol]
      exact hclosing.rest
    · rw [hprotocol]
      exact honward
  | enterPhase hphase hnone => exact ⟨h.protocol, h.planned⟩
  | skipPhase hnone => exact ⟨h.protocol, h.planned⟩
  | phase hpc hl hr => exact h.phase hpc hr rfl rfl
  | leavePhase hl hcompleted => exact ⟨h.protocol, h.planned⟩
  | startSettle hpc hfirst hruns =>
    refine ⟨h.protocol, fun p' run hrun row hrow => ?_⟩
    unfold pass at hrun
    dsimp only at hrun
    rw [Dict.getD_insert] at hrun
    split_ifs at hrun
    · exact owner_of_mem_settleRuns hruns run hrun row hrow
    · exact h.planned p' run hrun row hrow
  | finishSettle hpc hrun hcommit => exact h.finishSettle ha hpc hrun hcommit rfl rfl

/-- The systems that a settle phase runs are those of the `Settle` phase. -/
theorem phases_build (systems : List BoxedSystem) (hooked : SystemId → Bool) :
    ∀ id ∈ (State.build systems hooked : State α).settleSystems,
      ∀ system ∈ (State.build systems hooked : State α).systems[id]?, system.phase = .settle := by
  intro id hid system hsystem
  have hsettles := (List.mem_filter.mp hid).2
  unfold State.build at hsystem
  dsimp only at hsystem hsettles
  rw [Option.mem_def.mp hsystem] at hsettles
  simpa using hsettles

/-- In a new bowl nobody is settling. -/
theorem closing_new (P : Program α) : (new P).Closing := by
  let q : Protocol α := { Protocol.new P.boxedSystems P.hooked with
    state := { State.build P.boxedSystems P.hooked with world := .ofSchema P.schema } }
  have hidle : ∀ p, q.pc p = .idle := fun _ => rfl
  have hq : q.Closing := by
    refine ⟨⟨fun p hp => ?_, fun p hp => ?_⟩, World.coherent_ofSchema P.schema,
      phases_build P.boxedSystems P.hooked, fun p => ?_⟩
    · rw [hidle] at hp
      cases hp
    · rw [hidle] at hp
      cases hp
    · rw [hidle]
      exact .of_open rfl nofun
  exact ⟨hq.rest, fun p run hrun => nomatch hrun⟩

theorem closing_of_reachable (h : (machine P).ReachableUnder Undisturbed x) : x.Closing := by
  refine h.invariant Closing ?_ fun x a x' hx ha hs => hx.step ha hs
  rintro x rfl
  exact closing_new P

/-- Publishing works on neither the memo table nor the world. -/
theorem frame_publish (hpc : x.drive.protocol.pc p = .publishing epoch)
    (hs : step P x (.act (.advance p)) = some x') :
    x'.drive.protocol.state.memo = x.drive.protocol.state.memo ∧
      x'.drive.protocol.state.systems = x.drive.protocol.state.systems ∧
        x'.drive.protocol.state.world = x.drive.protocol.state.world := by
  obtain @⟨_, q₁, hpermits, hact⟩ := step_cases hs
  have hexit : q₁ = x.drive.protocol.exit p epoch State.publishSettledRevision := by
    simp only [Protocol.act, Protocol.advance, hpc] at hact
    exact (Option.some.inj hact).symm
  show q₁.rest.state.memo = _ ∧ q₁.rest.state.systems = _ ∧ q₁.rest.state.world = _
  rw [(Protocol.rest_frame q₁).1, hexit]
  unfold Protocol.exit
  dsimp only
  split_ifs
  · unfold Protocol.promote State.promoteDeferredInputs
    dsimp only
    split_ifs <;> exact ⟨rfl, rfl, rfl⟩
  · unfold State.publishSettledRevision
    split_ifs <;> exact ⟨rfl, rfl, rfl⟩

/-- A settle that has closed alone publishes with no other memo table in use and no stale entry in
its epoch, and leaves none. -/
theorem reachable_healed (h : (machine P).ReachableUnder Undisturbed x)
    (hpc : x.drive.protocol.pc p = .publishing epoch) (ha : x.Undisturbed (.act (.advance p)))
    (hs : step P x (.act (.advance p)) = some x') :
    (∀ p', (x.drive.protocol.pc p').held = none) ∧
      HealedIn x.drive.protocol.state.settleEpoch x.drive.protocol.state ∧
        HealedIn x.drive.protocol.state.settleEpoch x'.drive.protocol.state := by
  have hclosing := (closing_of_reachable h).protocol
  have hp := hclosing.settled p
  rw [hpc] at hp
  have hsettling : (x.drive.protocol.pc p).settling = true := by
    rw [hpc]
    rfl
  have hhealed : HealedIn x.drive.protocol.state.settleEpoch x.drive.protocol.state :=
    AmbientFresh.healedIn hp.healed
  obtain ⟨hmemo, hsystems, hworld⟩ := frame_publish hpc hs
  refine ⟨fun p' => ?_, hhealed, ?_⟩
  · by_cases hgeneration : (x.drive.protocol.pc p').inGeneration = true
    · have hopen := hclosing.open_of_driving hgeneration p
      rw [hpc] at hopen
      cases hopen
    · by_cases hother : (x.drive.protocol.pc p').settling = true
      · rw [ha.1.alone.eq hother hsettling, hpc]
        rfl
      · cases hpc' : x.drive.protocol.pc p' <;> rw [hpc'] at hgeneration hother <;>
          first | rfl | exact absurd rfl hgeneration | exact absurd rfl hother
  · unfold HealedIn
    rw [hmemo, hsystems, hworld]
    exact hhealed

section Reaped

/-- A system over pairs of tracked rows that views another store, and a `Settle` system over that
store. -/
def reapingBowl : Program Nat :=
  ⟨Components.plain Nat, none, [
    (.evaluate, .function [.query (.read 1) .unit, .query (.read 3) .unit, .view (.read 2) .unit]),
    (.settle, .function [.query (.read 2) .unit])]⟩

/-- Caller 1 runs the evaluate phase of a generation, in which one row is planned. -/
def evaluateRow : List (ExecutionStep Nat) :=
  [.enterPhase 1, .phase 1 .turn, .phase 1 .planNext, .phase 1 .admitNext, .phase 1 .planNext,
    .phase 1 .endWave, .phase 1 (.finish ⟨0, 0⟩ ⟨[], [[]], []⟩), .phase 1 .endBatch,
    .phase 1 .turn, .leavePhase 1, .enterPhase 1]

/-- The row is committed; then the settle phase removes what it viewed, the healing pass drops the
row's entry, and another generation runs the row again. -/
def reaping : List (ExecutionStep Nat) :=
  let advance (n : Nat) := (Protocol.advances n 1).map ExecutionStep.act
  [.act (.insert [.insert 1 0 (.data 7), .insert 3 0 (.data 7), .insert 2 5 (.data 8)]),
    .act (.callSettle 1 false)] ++ advance 4 ++ .enterPhase 1 :: evaluateRow ++ advance 7 ++
      [.startSettle 1, .finishSettle 1 0 ⟨[], [[.removeComponent 2 5]], []⟩] ++
        advance 6 ++ evaluateRow ++ advance 7 ++ .startSettle 1 :: advance 1

def reaped : Execution Nat :=
  ((machine reapingBowl).run (new reapingBowl) reaping).getD (new reapingBowl)

def reapedThen : Execution Nat :=
  ((step reapingBowl reaped) (.act (.advance 1))).getD reaped

theorem reaped_healed : ((∀ p, (reaped.drive.protocol.pc p).held = none) ∧
    HealedIn 0 reaped.drive.protocol.state ∧ HealedIn 0 reapedThen.drive.protocol.state) ∧
      reapedThen.drive.protocol.state.settleEpoch = 1 ∧
        (reaped.drive.protocol.state.memo.lookup ⟨0, [0, 0]⟩).map MemoEntry.plannedRevision =
          some 4 := by
  have hrun : (machine reapingBowl).run (new reapingBowl) reaping = some reaped := rfl
  have hallowed : (machine reapingBowl).Allows Undisturbed (new reapingBowl) reaping := by decide
  have hreached := Machine.ReachableUnder.run (.init rfl) hallowed hrun
  have hpublishing : reaped.drive.protocol.pc 1 = .publishing ⟨0, 1, false, _⟩ := rfl
  exact ⟨reachable_healed hreached hpublishing (by decide) rfl, by decide, by decide⟩

end Reaped

end Execution
end Porridge
