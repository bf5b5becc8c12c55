import Porridge.Execution.Boundary
import Porridge.Execution.Exclusive
import Porridge.Protocol.Recorded
import Porridge.World.Identity

/-! In-place writes along a run: which of them reach a reconciliation, and what readers have
recorded of the rows they change. -/
namespace Porridge

variable {α : Type}

/-- The caller dispatches rows: those of a normal phase, or those of a settle phase. -/
def Pc.dispatches : Pc α → Bool
  | driving .. | inSettlePhase .. => true
  | _ => false

/-- No future of a caller is dropped. -/
def ExecutionStep.undropped : ExecutionStep α → Bool
  | .act (.cancel _) => false
  | _ => true

def PlannedSystemRun.reservesWrite (run : PlannedSystemRun) : Bool :=
  run.access.any (·.kind == .write)

def PlannedSystemRun.Bounded (r : Revision) (run : PlannedSystemRun) : Prop :=
  ∀ row ∈ run.rows, ∀ d ∈ row.deps, d.Bounded r

theorem PlannedSystemRun.Bounded.mono {run : PlannedSystemRun} {r r' : Revision}
    (h : run.Bounded r) (hr : r ≤ r') : run.Bounded r' :=
  fun row hrow d hd => (h row hrow d hd).mono hr

theorem PlannedSystemRun.writesRow_iff {run : PlannedSystemRun} {t : TypeId} {e : Entity} :
    run.writesRow t e = true ↔ (t, e) ∈ run.rows.flatMap fun row => writtenRows row.access := by
  unfold writesRow
  rw [List.any_eq_true, List.mem_flatMap]
  exact exists_congr fun row => and_congr_right fun _ => decide_eq_true_iff

section Planned

variable {P : Program α}

/-- What is planned has recorded what the world of the plan had handed out. -/
theorem Runnable.bounded_of_mem_streamRuns {C : Components α} {system : SystemId} {w : World α}
    {memo : MemoTable} {hint : Option (List Entity)} {s : Runnable} {runs : List PlannedSystemRun}
    (hw : w.Coherent) (h : s.streamRuns C system w memo hint = some runs) :
    ∀ run ∈ runs, run.Bounded w.revision := by
  intro run hrun row hrow d hd
  rw [(ofState_of_mem_streamRuns h run hrun row hrow).deps] at hd
  exact Params.bounded_of_mem_deps hw hd

theorem bounded_of_mem_settleRuns {s : State α} {memo : MemoTable} {runs : List PlannedSystemRun}
    (hw : s.world.Coherent) (h : settleRuns P s memo = some runs) :
    ∀ run ∈ runs, run.Bounded s.world.revision := by
  intro run hrun
  obtain ⟨id, -, planned, hplanned, hmem⟩ := (List.mem_flatMap? h run).mp hrun
  obtain ⟨⟨phase, runnable⟩, -, hstream⟩ := Option.bind_eq_some_iff.mp hplanned
  exact runnable.bounded_of_mem_streamRuns hw hstream run hmem

/-- No run of the loop has recorded a revision above `r`: not those in flight, and not those that
its wave plans. -/
structure PhaseLoop.Bounded (r : Revision) (l : PhaseLoop α) : Prop where
  running : ∀ x ∈ l.running, x.2.Bounded r
  wave : ∀ wave, l.stage = .planning wave → wave.snapshot.Coherent ∧ wave.snapshot.revision ≤ r ∧
    ∀ x ∈ wave.queue, x.2.Bounded r

theorem PhaseLoop.Bounded.mono {l : PhaseLoop α} {r r' : Revision} (h : l.Bounded r)
    (hr : r ≤ r') : l.Bounded r' where
  running x hx := (h.running x hx).mono hr
  wave wave hstage := by
    obtain ⟨hsnapshot, hle, hqueue⟩ := h.wave wave hstage
    exact ⟨hsnapshot, hle.trans hr, fun x hx => (hqueue x hx).mono hr⟩

/-- The runs in flight stay, or fewer do, and no wave is planned. -/
theorem PhaseLoop.Bounded.idle {l l' : PhaseLoop α} {r : Revision} (h : l.Bounded r)
    (hrunning : l'.running.Sublist l.running) (hstage : ∀ wave, l'.stage ≠ .planning wave) :
    l'.Bounded r where
  running x hx := h.running x (hrunning.mem hx)
  wave wave hwave := absurd hwave (hstage wave)

namespace Runner

variable {r r' : Runner α}

theorem bounded_settleRun {k : Revision} (h : r.loop.Bounded k) {id : RunId}
    {outcome : RunOutcome α} {replan : Bool} {onwards : CommitProgress → Stage α}
    (hqueue : ∀ progress wave, onwards progress ≠ .planning wave)
    (hs : r.settleRun P id outcome replan onwards = some r') : r'.loop.Bounded k := by
  obtain ⟨⟨_, run⟩, -, hs⟩ := Option.bind_eq_some_iff.mp hs
  dsimp only at hs
  split_ifs at hs
  obtain ⟨⟨memo, state, progress⟩, -, hs⟩ := Option.bind_eq_some_iff.mp hs
  obtain ⟨⟨owner, reservations⟩, -, hs⟩ := Option.bind_eq_some_iff.mp hs
  obtain ⟨owner', -, hs⟩ := Option.bind_eq_some_iff.mp hs
  cases hs
  exact h.idle List.filter_sublist (hqueue progress)

/-- A section of the phase loop plans from a world that it has seen. -/
theorem bounded_step {k : Revision} (h : r.loop.Bounded k) (hw : r.state.world.Coherent)
    (hk : r.state.world.revision ≤ k) {a : PhaseStep α} (hs : r.step P a = some r') :
    r'.loop.Bounded k := by
  cases a with
  | turn =>
    simp only [step, turn] at hs
    split at hs
    · split_ifs at hs <;> cases hs
      · exact h.idle (List.Sublist.refl _) (by simp)
      · refine ⟨h.running, fun wave hwave => ?_⟩
        cases hwave
        exact ⟨hw, hk, (by simp)⟩
      · exact h.idle (List.Sublist.refl _) (by simp)
    · cases hs
  | planNext =>
    simp only [step, planNext] at hs
    split at hs
    · rename_i snapshot id rest hstage
      obtain ⟨hsnapshot, hle, -⟩ := h.wave _ hstage
      obtain ⟨system, -, hs⟩ := Option.bind_eq_some_iff.mp hs
      obtain ⟨⟨phase, runnable⟩, -, hs⟩ := Option.bind_eq_some_iff.mp hs
      dsimp only at hs
      split_ifs at hs
      · obtain ⟨runs, hruns, hs⟩ := Option.bind_eq_some_iff.mp hs
        cases hs
        refine ⟨h.running, fun wave hwave => ?_⟩
        cases hwave
        refine ⟨hsnapshot, hle, fun x hx => ?_⟩
        obtain ⟨run, hrun, rfl⟩ := List.mem_map.mp hx
        exact (runnable.bounded_of_mem_streamRuns hsnapshot hruns run hrun).mono hle
      · cases hs
        refine ⟨h.running, fun wave hwave => ?_⟩
        cases hwave
        exact ⟨hsnapshot, hle, (by simp)⟩
    · cases hs
  | admitNext =>
    simp only [step, admitNext] at hs
    split at hs
    · rename_i snapshot systems id run queue hstage
      obtain ⟨hsnapshot, hle, hqueue⟩ := h.wave _ hstage
      have hrest : ∀ wave : Wave α, (Stage.planning ⟨snapshot, systems, queue⟩ = .planning wave) →
          wave.snapshot.Coherent ∧ wave.snapshot.revision ≤ k ∧
            ∀ x ∈ wave.queue, x.2.Bounded k := by
        intro wave hwave
        cases hwave
        exact ⟨hsnapshot, hle, fun x hx => hqueue x (List.mem_cons_of_mem _ hx)⟩
      obtain ⟨⟨answer, reservations⟩, -, hs⟩ := Option.bind_eq_some_iff.mp hs
      dsimp only at hs
      split at hs <;> cases hs
      · exact ⟨h.running, hrest⟩
      · exact ⟨h.running, hrest⟩
      · refine ⟨fun x hx => ?_, hrest⟩
        rcases List.mem_append.mp hx with hx | hx
        · exact h.running x hx
        · rw [List.mem_singleton.mp hx]
          exact hqueue _ List.mem_cons_self
    · cases hs
  | preempt =>
    simp only [step, preempt] at hs
    split at hs
    · obtain ⟨reservations, -, hs⟩ := Option.bind_eq_some_iff.mp hs
      cases hs
      exact h.idle List.filter_sublist (by simp)
    · cases hs
  | finish id outcome =>
    simp only [step, finish] at hs
    split at hs
    · exact bounded_settleRun h (fun _ _ => by simp) hs
    · exact bounded_settleRun h (fun _ _ => by simp) hs
    · exact bounded_settleRun h (fun _ _ => by simp) hs
    · cases hs
  | endWave | interrupt | endBatch =>
    simp only [step, endWave, interrupt, endBatch] at hs
    split at hs <;> cases hs
    exact h.idle (List.Sublist.refl _) (by simp)

/-- What is in flight stays there, unless the section preempts or commits it. -/
theorem mem_running_step {a : PhaseStep α} (hs : r.step P a = some r') (hpreempt : a ≠ .preempt)
    {x : RunId × PlannedSystemRun} (hx : x ∈ r.loop.running)
    (hfinish : ∀ id outcome, a = .finish id outcome → x.1 ≠ id) : x ∈ r'.loop.running := by
  cases works_step hs with
  | commits hfind hcommit hstate hambient hrunning =>
    rw [hrunning]
    exact List.mem_filter.mpr ⟨hx, decide_eq_true (hfinish _ _ rfl)⟩
  | marks hstate hambient hmemo hnone =>
    cases a with
    | finish id outcome => exact absurd rfl (hnone id outcome)
    | preempt => exact absurd rfl hpreempt
    | turn =>
      simp only [step, turn] at hs
      split at hs
      · split_ifs at hs <;> cases hs <;> exact hx
      · cases hs
    | planNext =>
      simp only [step, planNext] at hs
      split at hs
      · obtain ⟨system, -, hs⟩ := Option.bind_eq_some_iff.mp hs
        obtain ⟨⟨phase, runnable⟩, -, hs⟩ := Option.bind_eq_some_iff.mp hs
        dsimp only at hs
        split_ifs at hs
        · obtain ⟨runs, -, hs⟩ := Option.bind_eq_some_iff.mp hs
          cases hs
          exact hx
        · cases hs
          exact hx
      · cases hs
    | admitNext =>
      simp only [step, admitNext] at hs
      split at hs
      · obtain ⟨⟨answer, reservations⟩, -, hs⟩ := Option.bind_eq_some_iff.mp hs
        dsimp only at hs
        split at hs <;> cases hs
        · exact hx
        · exact hx
        · exact List.mem_append_left _ hx
      · cases hs
    | endWave | interrupt | endBatch =>
      simp only [step, endWave, interrupt, endBatch] at hs
      split at hs <;> cases hs
      exact hx

end Runner

end Planned

namespace Execution

def world (x : Execution α) : World α := x.drive.protocol.state.world

def loopRuns (x : Execution α) : List PlannedSystemRun :=
  x.loop.toList.flatMap fun l => l.running.map Prod.snd

def runs (x : Execution α) : List PlannedSystemRun := x.loopRuns ++ x.passes.entries.flatMap Sigma.snd

def kept (x : Execution α) : ExecutionStep α → List PlannedSystemRun
  | .phase _ .preempt =>
    x.loopRuns.filter PlannedSystemRun.reservesWrite ++ x.passes.entries.flatMap Sigma.snd
  | .act (.cancel p) =>
    (if (x.drive.protocol.pc p).drives = true then [] else x.loopRuns) ++
      (x.passes.erase p).entries.flatMap Sigma.snd
  | _ => x.runs

def finished (x : Execution α) : ExecutionStep α → Option PlannedSystemRun
  | .phase _ (.finish id _) =>
    x.loop.bind fun l => (l.running.find? (·.1 = id)).map Prod.snd
  | .finishSettle p index _ => (x.pass p)[index]?
  | _ => none

end Execution

/-- An execution with the rows that were written in place and wait for their reconciliation. -/
structure Accounting (α : Type) where
  execution : Execution α
  pending : List (TypeId × Entity)

namespace Accounting

variable (P : Program α)

/-- A write in place waits until a run that declares it is committed. -/
def pendingAfter (s : Accounting α) : ExecutionStep α → List (TypeId × Entity)
  | .act (.writeInPlace _ t e _) => (t, e) :: s.pending
  | a => s.pending.filter fun row =>
    (s.execution.finished a).all fun run => !run.writesRow row.1 row.2

def machine : Machine (Accounting α) (ExecutionStep α) where
  init s := s = ⟨.new P, []⟩
  step s a := (s.execution.step P a).map fun x' => ⟨x', s.pendingAfter a⟩

/-- Rows write in place where they are dispatched, and what a step drops has written nothing that
only it would reconcile. -/
def Accounts (s : Accounting α) (a : ExecutionStep α) : Prop :=
  (match a with
    | .act (.writeInPlace p _ _ _) => (s.execution.drive.protocol.pc p).dispatches = true
    | _ => True) ∧
    ∀ row ∈ s.pending, ∃ run ∈ s.execution.kept a, run.writesRow row.1 row.2 = true

instance (s : Accounting α) : DecidablePred s.Accounts := fun a =>
  decidable_of_iff
    ((match a with
      | .act (.writeInPlace p _ _ _) => (s.execution.drive.protocol.pc p).dispatches
      | _ => true) = true ∧
      ∀ row ∈ s.pending, ∃ run ∈ s.execution.kept a, run.writesRow row.1 row.2 = true)
    (and_congr_left' (by split <;> simp))

end Accounting

/-- What a commit writes in place is no longer pending. -/
theorem World.Identified.commit {C : Components α} {pending : List (TypeId × Entity)} {w₀ : World α}
    {s s' : State α} {memo after : MemoTable} {run : SystemRun α} {phase : Option Phase}
    {progress : CommitProgress} (h : Identified C pending w₀ s.world)
    (hc : commitSystemRun C memo s run phase = some (after, s', progress)) :
    Identified C (pending.filter (· ∉ run.writes)) w₀ s'.world := by
  unfold commitSystemRun at hc
  split_ifs at hc
  · obtain ⟨published, hpublished, hc⟩ := Option.bind_eq_some_iff.mp hc
    cases hc
    obtain ⟨u, hu, hrun⟩ := Option.bind_eq_some_iff.mp hpublished
    cases hrun
    have hout : Identified C pending w₀ u.world := h.managed (managed_publishOutputs hu)
    have htreated := tidies_reconcileCommit (C := C)
      (publishMemo (u.world.reconcileWritten C run.writes) s.settleEpoch run memo)
      { u with world := u.world.reconcileWritten C run.writes }
    exact (hout.reconcileWritten run.writes).managed htreated.managed
  · cases hc
    exact h.reconcileWritten run.writes

namespace Execution

variable {P : Program α} {x x' : Execution α} {p : PartyId}

theorem mem_passRuns {run : PlannedSystemRun} {passes : Dict PartyId (List PlannedSystemRun)} :
    run ∈ passes.entries.flatMap Sigma.snd ↔ ∃ p, run ∈ Dict.getD passes p [] := by
  constructor
  · intro h
    obtain ⟨⟨p, runs⟩, hmem, hrun⟩ := List.mem_flatMap.mp h
    refine ⟨p, ?_⟩
    rw [Dict.getD, AList.mem_lookup_iff.mpr hmem]
    exact hrun
  · rintro ⟨p, hrun⟩
    cases hlookup : passes.lookup p with
    | none =>
      rw [Dict.getD, hlookup] at hrun
      cases hrun
    | some runs =>
      rw [Dict.getD, hlookup] at hrun
      exact List.mem_flatMap.mpr ⟨⟨p, runs⟩, AList.mem_lookup_iff.mp hlookup, hrun⟩

theorem mem_loopRuns {l : PhaseLoop α} (hl : x.loop = some l) {run : PlannedSystemRun} :
    run ∈ x.loopRuns ↔ ∃ id, (id, run) ∈ l.running := by
  unfold loopRuns
  rw [hl]
  simp

theorem mem_runs {run : PlannedSystemRun} :
    run ∈ x.runs ↔ run ∈ x.loopRuns ∨ ∃ p, run ∈ x.pass p := by
  unfold runs
  rw [List.mem_append, mem_passRuns]
  rfl

theorem mem_pass_of_eraseIdx {runs : List PlannedSystemRun} {run : PlannedSystemRun} {index : Nat}
    (h : run ∈ runs) : run ∈ runs.eraseIdx index ∨ runs[index]? = some run := by
  induction runs generalizing index with
  | nil => cases h
  | cons other rest ih =>
    cases index with
    | zero =>
      rcases List.mem_cons.mp h with rfl | h
      · exact Or.inr rfl
      · exact Or.inl h
    | succ index =>
      rcases List.mem_cons.mp h with rfl | h
      · exact Or.inl List.mem_cons_self
      · exact (ih h).imp_left (List.mem_cons_of_mem other)

theorem find?_of_mem {κ υ : Type} [DecidableEq κ] {k : κ} {v : υ} {xs : List (κ × υ)}
    (hn : (xs.map Prod.fst).Nodup) (h : (k, v) ∈ xs) : xs.find? (·.1 = k) = some (k, v) := by
  induction xs with
  | nil => cases h
  | cons x rest ih =>
    obtain ⟨hnot, hrest⟩ := List.nodup_cons.mp hn
    rcases List.mem_cons.mp h with rfl | h
    · simp
    · have hne : x.1 ≠ k := fun heq => hnot (heq ▸ List.mem_map_of_mem h)
      rw [List.find?_cons_of_neg (by simpa using hne)]
      exact ih hrest h

/-- A caller with runs in its settle phase is in its settle phase. -/
def Seated (x : Execution α) : Prop :=
  ∀ p, x.passes.lookup p ≠ none → (x.drive.protocol.pc p).passing = true

theorem Seated.step (h : x.Seated) {a : ExecutionStep α} (hs : step P x a = some x') :
    x'.Seated := by
  cases step_cases hs with
  | @act a q hpermits hact =>
    intro p hp
    obtain ⟨-, hpc, -, -⟩ := Protocol.rest_frame q
    have hprotocol : (x.act a ⟨q.rest, x.drive.cursorAfter q.rest a⟩).drive.protocol = q.rest := by
      cases a <;> rfl
    have hlookup : x.passes.lookup p ≠ none ∧ a ≠ .advance p ∧ a ≠ .cancel p := by
      have herased : ∀ {p' : PartyId}, (x.passes.erase p').lookup p ≠ none →
          x.passes.lookup p ≠ none ∧ p ≠ p' := by
        intro p' hp
        rw [Dict.lookup_erase] at hp
        split_ifs at hp with hne
        · exact absurd rfl hp
        · exact ⟨hp, hne⟩
      cases a with
      | advance p' =>
        obtain ⟨hp, hne⟩ := herased hp
        exact ⟨hp, fun heq => hne (by cases heq; rfl), nofun⟩
      | cancel p' =>
        obtain ⟨hp, hne⟩ := herased hp
        exact ⟨hp, nofun, fun heq => hne (by cases heq; rfl)⟩
      | _ => exact ⟨hp, nofun, nofun⟩
    have hseated := h p hlookup.1
    have hbusy : x.drive.protocol.pc p ≠ .idle := by
      intro hidle
      rw [hidle] at hseated
      cases hseated
    rw [hprotocol, hpc]
    have hstands := (Protocol.steady_act hact).stands p hbusy hlookup.2.1 hlookup.2.2
    rw [hstands.passing]
    exact hseated
  | enterPhase hphase hnone => exact h
  | skipPhase hnone => exact h
  | @phase p a generation memo changed target waiter l r' hpc hl hr =>
    intro p' hp
    have hseated := h p' hp
    show ((Protocol.goto _ p _).pc p').passing = true
    rw [Protocol.pc_goto]
    split_ifs with heq
    · rw [heq, hpc] at hseated
      cases hseated
    · exact hseated
  | leavePhase hl hcompleted => exact h
  | @startSettle p epoch memo before runs hpc hfirst hruns =>
    intro p' hp
    by_cases heq : p' = p
    · show (x.drive.protocol.pc p').passing = true
      rw [heq, hpc]
      rfl
    · refine h p' fun hnone => hp ?_
      show (x.passes.insert p runs).lookup p' = none
      rw [AList.lookup_insert_ne heq]
      exact hnone
  | @finishSettle p index outcome epoch memo after before run state progress hpc hrun hcommit =>
    intro p' hp
    show ((Protocol.goto _ p _).pc p').passing = true
    rw [Protocol.pc_goto]
    split_ifs with heq
    · rfl
    · refine h p' fun hnone => hp ?_
      show (x.passes.insert p _).lookup p' = none
      rw [AList.lookup_insert_ne heq]
      exact hnone

/-- What a step does not drop is in flight afterwards, or the step commits it. -/
theorem mem_runs_of_kept (ht : x.Tracked) (hseated : x.Seated) {a : ExecutionStep α}
    (hs : step P x a = some x') {run : PlannedSystemRun} (hrun : run ∈ x.kept a) :
    run ∈ x'.runs ∨ x.finished a = some run := by
  cases step_cases hs with
  | @act a q hpermits hact =>
    refine Or.inl (mem_runs.mpr ?_)
    have hall : run ∈ x.runs → run ∈ x.loopRuns ∨ ∃ p, run ∈ x.pass p := mem_runs.mp
    have herased : ∀ {p' : PartyId}, (∃ p, run ∈ Dict.getD (x.passes.erase p') p []) →
        ∃ p, run ∈ Dict.getD (x.passes.erase p') p [] := id
    cases a with
    | openWindow p' =>
      rcases hall hrun with hloop | hpass
      · -- a window opens once everything in flight has drained
        have hdrained : x.loop.any PhaseLoop.preempted = true := hpermits
        obtain ⟨l, hl, hpreempted⟩ := (Option.any_eq_true _ _).mp hdrained
        obtain ⟨id, hmem⟩ := (mem_loopRuns hl).mp hloop
        have hempty := (Bool.and_eq_true_iff.mp hpreempted).1
        rw [List.isEmpty_iff.mp hempty] at hmem
        cases hmem
      · exact Or.inr hpass
    | advance p' =>
      rcases hall hrun with hloop | ⟨p, hpass⟩
      · exact Or.inl hloop
      · refine Or.inr ⟨p, ?_⟩
        show run ∈ Dict.getD (x.passes.erase p') p []
        rw [Dict.getD, Dict.lookup_erase]
        split_ifs with heq
        · -- a caller goes on from its settle phase once its runs have finished
          subst heq
          have hsome : x.passes.lookup p ≠ none := by
            intro hnone
            unfold pass at hpass
            rw [Dict.getD, hnone] at hpass
            cases hpass
          have hpassing := hseated p hsome
          unfold permits at hpermits
          dsimp only at hpermits
          cases hpc : x.drive.protocol.pc p with
          | inSettlePhase epoch memo before =>
            rw [hpc] at hpermits
            have hnone : x.passes.lookup p = some [] := of_decide_eq_true hpermits
            unfold pass at hpass
            rw [Dict.getD, hnone] at hpass
            cases hpass
          | _ =>
            rw [hpc] at hpassing
            cases hpassing
        · exact hpass
    | cancel p' =>
      rcases List.mem_append.mp hrun with hloop | hpass
      · refine Or.inl ?_
        unfold loopRuns act
        dsimp only
        split_ifs at hloop ⊢
        · cases hloop
        · exact hloop
      · exact Or.inr (mem_passRuns.mp hpass)
    | _ => exact hall hrun
  | enterPhase hphase hnone =>
    refine Or.inl (mem_runs.mpr ((mem_runs.mp hrun).imp_left fun hloop => ?_))
    unfold loopRuns at hloop
    rw [hnone] at hloop
    cases hloop
  | skipPhase hnone => exact Or.inl hrun
  | @phase p a generation memo changed target waiter l r' hpc hl hr =>
    by_cases hpreempt : a = .preempt
    · subst hpreempt
      rcases List.mem_append.mp hrun with hwrites | hpass
      · obtain ⟨hloop, hwrites⟩ := List.mem_filter.mp hwrites
        obtain ⟨id, hmem⟩ := (mem_loopRuns hl).mp hloop
        obtain ⟨-, -, hrunning⟩ := Runner.tracked_preempt (ht l hl) hr
        refine Or.inl (mem_runs.mpr (Or.inl ((mem_loopRuns rfl).mpr ⟨id, ?_⟩)))
        rw [hrunning]
        exact List.mem_filter.mpr ⟨hmem, hwrites⟩
      · exact Or.inl (List.mem_append_right _ hpass)
    · have hall : run ∈ x.runs := by
        cases a <;> first | exact hrun | exact absurd rfl hpreempt
      rcases List.mem_append.mp hall with hloop | hpass
      · obtain ⟨id, hmem⟩ := (mem_loopRuns hl).mp hloop
        by_cases hdone : ∃ outcome, a = .finish id outcome
        · obtain ⟨outcome, rfl⟩ := hdone
          refine Or.inr ?_
          have hfound := find?_of_mem (ht l hl).single hmem
          show (x.loop.bind fun l => (l.running.find? (·.1 = id)).map Prod.snd) = some run
          rw [hl, Option.bind_some, hfound, Option.map_some]
        · refine Or.inl (mem_runs.mpr (Or.inl ((mem_loopRuns rfl).mpr ⟨id, ?_⟩)))
          refine Runner.mem_running_step hr hpreempt hmem ?_
          rintro id' outcome rfl rfl
          exact hdone ⟨outcome, rfl⟩
      · exact Or.inl (List.mem_append_right _ hpass)
  | @leavePhase p l hl hcompleted =>
    refine Or.inl (mem_runs.mpr ((mem_runs.mp hrun).imp_left fun hloop => ?_))
    obtain ⟨id, hmem⟩ := (mem_loopRuns hl).mp hloop
    have hempty := (Bool.and_eq_true_iff.mp hcompleted).1
    rw [List.isEmpty_iff.mp hempty] at hmem
    cases hmem
  | @startSettle p epoch memo before runs hpc hfirst hruns =>
    refine Or.inl (mem_runs.mpr ((mem_runs.mp hrun).imp_right ?_))
    rintro ⟨p', hpass⟩
    refine ⟨p', ?_⟩
    unfold pass at hpass ⊢
    dsimp only
    rw [Dict.getD_insert]
    split_ifs with heq
    · rw [heq, Dict.getD, hfirst] at hpass
      cases hpass
    · exact hpass
  | @finishSettle p index outcome epoch memo after before run' state progress hpc hrun' hcommit =>
    rcases mem_runs.mp hrun with hloop | ⟨p', hpass⟩
    · exact Or.inl (mem_runs.mpr (Or.inl hloop))
    · by_cases heq : p' = p
      · subst heq
        refine (mem_pass_of_eraseIdx hpass).imp_left fun hleft => mem_runs.mpr (Or.inr ⟨p', ?_⟩)
        unfold pass
        dsimp only
        rw [Dict.getD_insert, if_pos rfl]
        exact hleft
      · refine Or.inl (mem_runs.mpr (Or.inr ⟨p', ?_⟩))
        unfold pass at hpass ⊢
        dsimp only
        rw [Dict.getD_insert, if_neg heq]
        exact hpass

/-- A step moves the world on. -/
theorem later_step {a : ExecutionStep α} (hs : step P x a = some x') :
    World.Later P.components x.world x'.world := by
  cases step_cases hs with
  | @act a q hpermits hact =>
    have hworld : (x.act a ⟨q.rest, x.drive.cursorAfter q.rest a⟩).world = q.state.world := by
      rw [← (Protocol.rest_frame q).1]
      cases a <;> rfl
    rw [hworld]
    exact (Protocol.onward_act hact).world
  | phase hpc hl hr => exact (Runner.onward_step hr).1.world
  | finishSettle hpc hrun hcommit => exact (steers_commitSystemRun hcommit).world.later
  | _ => exact .refl _

end Execution
end Porridge
