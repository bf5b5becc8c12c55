import Porridge.Engine
import Porridge.World.Later

/-! The critical sections of the bowl use the world only through its operations. -/
namespace Porridge

open World

variable {α : Type} {C : Components α}

/-- Nothing was inserted or deferred between the states. -/
structure Idles (C : Components α) (s s' : State α) : Prop where
  world : Wanes C s.world s'.world
  deferredSettle : s'.deferredSettle = s.deferredSettle
  settleSystems : s'.settleSystems = s.settleSystems

theorem Idles.refl (s : State α) : Idles C s s := ⟨.refl _, rfl, rfl⟩

theorem Idles.trans {a b c : State α} (hab : Idles C a b) (hbc : Idles C b c) : Idles C a c where
  world := hab.world.trans hbc.world
  deferredSettle := hbc.deferredSettle.trans hab.deferredSettle
  settleSystems := hbc.settleSystems.trans hab.settleSystems

section Sections

theorem managed_publishOutputs {deferInserts : Bool} : ∀ {outputs : List (SystemOutput α)}
    {s s' : State α}, publishOutputs C s outputs deferInserts = some s' →
      Managed C s.world s'.world
  | [], s, s', h => by
    have heq : s = s' := Option.some.inj h
    exact heq ▸ .refl _
  | output :: outputs, s, s', h => by
    obtain ⟨w, hw, hrest⟩ := publishOutputs_cons h
    have hfirst : Managed C s.world w := .of_apply (.output output deferInserts) rfl hw
    exact hfirst.trans (managed_publishOutputs hrest)

theorem tidies_retireCascade (selected : Option (List SystemId)) (r : Retirement α)
    (seen frontier : List Entity) :
    Tidies C r.world (retireCascade C selected r seen frontier).world :=
  Worklist.rounds_invariant (fun _ => True) (fun r' : Retirement α => Tidies C r.world r'.world)
    (fun _ frontier hr _ =>
      ⟨hr.trans (.of_apply (.retireTouched frontier selected) ⟨rfl, rfl⟩ rfl), fun _ _ => trivial⟩)
    _ _ _ _ (.refl _) fun _ _ => trivial

theorem tidies_reconcileWritten (w : World α) (writes : List (TypeId × Entity)) :
    Tidies C w (w.reconcileWritten C writes) := .of_apply (.reconcileWritten writes) ⟨rfl, rfl⟩ rfl

theorem tidies_drainRemovals (w : World α) : Tidies C w w.drainRemovals :=
  .of_apply .drainRemovals ⟨rfl, rfl⟩ rfl

theorem tidies_reconcileRemovedInvocations (w : World α) (memo : MemoTable) (removed : List Entity)
    (removedOwners : List SystemInvocation) (systems : List BoxedSystem)
    (selected : Option (List SystemId)) : Tidies C w
      (reconcileRemovedInvocations C w memo removed removedOwners systems selected).1.world :=
  tidies_retireCascade selected ⟨w, _, _⟩ _ _

theorem tidies_reconcileCommit (memo : MemoTable) (s : State α) :
    Tidies C s.world (reconcileCommit C memo s).2.world := by
  have hdrained : Tidies C s.world s.world.drainRemovals := tidies_drainRemovals s.world
  unfold reconcileCommit
  dsimp only
  split_ifs
  · exact hdrained
  · exact hdrained
  all_goals exact hdrained.trans (tidies_reconcileRemovedInvocations ..)

theorem idles_reconcileCommit (memo : MemoTable) (s : State α) :
    Idles C s (reconcileCommit C memo s).2 := by
  refine ⟨(tidies_reconcileCommit memo s).wanes, ?_, ?_⟩
  all_goals
    unfold reconcileCommit
    dsimp only
    split_ifs <;> rfl

/-- An accepted commit publishes its outputs, and goes on from there. -/
theorem exists_published {memo memo' : MemoTable} {s s' : State α} {run : SystemRun α}
    {phase : Option Phase} {progress : CommitProgress}
    (h : commitSystemRun C memo s run phase = some (memo', s', progress))
    (hcurrent : (run.memoUpdates.all fun update => update.2.isCurrent s.world) = true) :
    ∃ published, publishOutputs C s run.outputs (phase = some .settle) = some published ∧
      Idles C published s' := by
  unfold commitSystemRun at h
  rw [if_pos hcurrent] at h
  simp only [Option.bind_eq_bind, Option.bind_eq_some_iff, publishRun] at h
  obtain ⟨_, ⟨published, hpublished, hrun⟩, hdone⟩ := h
  cases hrun
  cases hdone
  have hreconciled : Idles C published
      { published with world := published.world.reconcileWritten C run.writes } :=
    ⟨(tidies_reconcileWritten published.world run.writes).wanes, rfl, rfl⟩
  exact ⟨published, hpublished, hreconciled.trans (idles_reconcileCommit _ _)⟩

/-- A discarded commit only keeps its in-place writes. -/
theorem idles_of_stale {memo memo' : MemoTable} {s s' : State α} {run : SystemRun α}
    {phase : Option Phase} {progress : CommitProgress}
    (h : commitSystemRun C memo s run phase = some (memo', s', progress))
    (hstale : ¬ (run.memoUpdates.all fun update => update.2.isCurrent s.world) = true) :
    Idles C s s' := by
  unfold commitSystemRun at h
  rw [if_neg hstale] at h
  cases h
  exact ⟨(tidies_reconcileWritten s.world run.writes).wanes, rfl, rfl⟩

theorem managed_applyInputs {s applied : State α} (h : applyInputs C s = some applied) :
    Managed C s.world applied.world := by
  have hcompact : Managed C s.world (compactPlanLog s).world := by
    have hroll : Managed C s.world s.world.maybeRollPlanEpoch.2 := .of_apply .rollPlanEpoch rfl rfl
    unfold compactPlanLog
    unfold maybeRollPlanEpoch at hroll ⊢
    split_ifs at hroll ⊢ with hlen
    · exact .refl _
    · exact hroll
  simp only [applyInputs, Option.bind_eq_bind, Option.bind_eq_some_iff, Option.pure_def,
    Option.some.injEq] at h
  obtain ⟨settled, hsettled, based, hbased, flushed, hflushed, rfl⟩ := h
  have hinputs : Managed C s.world settled := hcompact.trans <| .foldlM hsettled
    fun _ output _ hstep => .of_apply (.commands output.owner output.commands) rfl hstep
  have hbase : Managed C settled based :=
    .foldlM hbased fun _ c _ hstep => .of_apply (.base c) rfl hstep
  exact (hinputs.trans hbase).trans (.of_apply .flush rfl hflushed)

theorem tidies_reconcileInputs (s : State α) : Tidies C s.world (reconcileInputs C s).world :=
  (tidies_drainRemovals s.world).trans (tidies_reconcileRemovedInvocations ..)

theorem tidies_removeRoots : ∀ (roots : List Entity) (w : World α),
    Tidies C w (w.removeRoots C roots).1
  | [], w => .refl w
  | e :: roots, w =>
    .trans (.of_apply (.base (.despawn e)) ⟨rfl, rfl⟩ rfl)
      (tidies_removeRoots roots (w.removeEntity C e))

theorem tidies_retireOwner : ∀ (owners : List SystemInvocation) (r : Retirement α),
    Tidies C r.world (owners.foldl (retireOwner C) r).world
  | [], r => .refl r.world
  | o :: owners, r =>
    .trans (.of_apply (.retireOwner o) ⟨rfl, rfl⟩ rfl) (tidies_retireOwner owners (retireOwner C r o))

theorem tidies_cleanupRetirement (r : Retirement α) (entities : List Entity) :
    Tidies C r.world (cleanupRetirement C r entities).world := by
  let swept := retireCascade C none r [] entities.dedup
  let removed := swept.world.removeRoots C entities.dedup
  have hrounds : Tidies C r.world swept.world := tidies_retireCascade ..
  have hroots : Tidies C swept.world removed.1 := tidies_removeRoots _ _
  exact hrounds.trans (hroots.trans (tidies_retireOwner _ { swept with world := removed.1 }))

theorem tidies_takeBundle {e : Entity} : ∀ (parts : List (TypeId × Bool)) (w : World α),
    Tidies C w (w.takeBundle C e parts)
  | [], w => .refl w
  | (t, required) :: parts, w => by
    have htaken : Tidies C w (w.removeComponent C t e none) :=
      .of_apply (.base (.removeComponent t e)) ⟨rfl, rfl⟩ rfl
    unfold World.takeBundle
    dsimp only
    split_ifs
    · exact htaken
    · exact htaken.trans (tidies_takeBundle parts _)

theorem idles_publishSettledRevision (s : State α) : Idles C s s.publishSettledRevision := by
  unfold State.publishSettledRevision
  split_ifs
  · exact .refl s
  · exact ⟨.refl _, rfl, rfl⟩

theorem idles_closeBound (settled : Bool) (s : State α) (entities : List Entity) :
    Idles C s (closeBound C settled s entities) := by
  have hcleaned : Idles C s (cleanupBoundEntities C s entities) :=
    ⟨(tidies_cleanupRetirement ⟨s.world, s.memo, false⟩ entities).wanes, rfl, rfl⟩
  unfold closeBound
  cases settled with
  | false => exact hcleaned
  | true => exact hcleaned.trans (idles_publishSettledRevision _)

theorem tidies_mutate (s : State α) (t : TypeId) (e : Entity) (v : Value α) :
    Tidies C s.world (s.mutate C t e v).world := by
  have hupdated : Tidies C s.world (s.world.updateComponent C t e v) :=
    .of_apply (.update t e v) ⟨rfl, rfl⟩ rfl
  unfold State.mutate
  dsimp only
  split_ifs <;> exact hupdated

theorem idles_mutate (s : State α) (t : TypeId) (e : Entity) (v : Value α) :
    Idles C s (s.mutate C t e v) := by
  refine ⟨(tidies_mutate s t e v).wanes, ?_, ?_⟩
  all_goals
    unfold State.mutate
    dsimp only
    split_ifs <;> rfl

theorem idles_healStaleAmbient {attempts attempts' : Dict SystemInvocation Nat} {s s' : State α}
    {changed : Bool} (h : healStaleAmbient attempts s = some (changed, attempts', s')) :
    Idles C s s' := by
  obtain ⟨r, hr, heq⟩ := Option.map_eq_some_iff.mp h
  cases heq
  refine List.foldlM_some_induction (fun r : Dict SystemInvocation Nat × State α =>
    Idles C s r.2) _ hr (.refl s) fun r o r' _ hidles hstep => ?_
  unfold healVictim at hstep
  dsimp only at hstep
  split_ifs at hstep
  cases hstep
  exact hidles.trans ⟨.refl _, rfl, rfl⟩

end Sections

namespace Engine

variable {g g' : Engine α}

theorem exists_commit {run : SystemRun α} {phase : Option Phase}
    (h : step C g (.commit run phase) = some g') : ∃ memo memo' progress,
      commitSystemRun C memo g.state run phase = some (memo', g'.state, progress) := by
  obtain ⟨memo, -, hrun⟩ := Option.bind_eq_some_iff.mp h
  split_ifs at hrun
  obtain ⟨⟨memo', s', progress⟩, hcommit, heq⟩ := Option.bind_eq_some_iff.mp hrun
  cases heq
  exact ⟨memo, memo', progress, hcommit⟩

/-- What a critical section can do: accept a run, start a generation, or insert nothing. -/
theorem step_cases {op : EngineOp α} (h : step C g op = some g') :
    (∃ run phase published, op = .commit run phase ∧
      (run.memoUpdates.all fun update => update.2.isCurrent g.state.world) = true ∧
      publishOutputs C g.state run.outputs (phase = some .settle) = some published ∧
      Idles C published g'.state) ∨
    (∃ generation applied, op = .startEvaluation ∧ g.state.pendingGeneration = some generation ∧
      applyInputs C { g.state with pendingGeneration := none } = some applied ∧
      g'.state = (launch (reconcileInputs C applied) generation).state) ∨
    (Idles C g.state g'.state ∧ (op = .startEvaluation → g.state.pendingGeneration = none) ∧
      ∀ run phase, op = .commit run phase →
        ¬ (run.memoUpdates.all fun update => update.2.isCurrent g.state.world) = true) := by
  cases op with
  | reserve =>
    cases h
    exact Or.inr (Or.inr ⟨⟨.of_apply .spawnEmpty rfl rfl, rfl, rfl⟩, nofun, nofun⟩)
  | reserveSingleton key =>
    cases h
    exact Or.inr (Or.inr ⟨⟨.of_apply (.reserveSingleton key) rfl rfl, rfl, rfl⟩, nofun, nofun⟩)
  | queueInputs commands =>
    cases h
    exact Or.inr (Or.inr ⟨⟨.refl _, rfl, rfl⟩, nofun, nofun⟩)
  | update t e v =>
    cases h
    exact Or.inr (Or.inr ⟨idles_mutate g.state t e v, nofun, nofun⟩)
  | writeInPlace t e v =>
    cases h
    exact Or.inr (Or.inr ⟨⟨.of_apply (.writeInPlace t e v) rfl rfl, rfl, rfl⟩, nofun, nofun⟩)
  | startEvaluation =>
    simp only [step] at h
    split_ifs at h
    obtain ⟨started, hstarted, hdone⟩ := Option.bind_eq_some_iff.mp h
    unfold Porridge.startEvaluation at hstarted
    split at hstarted
    · rename_i hidle
      cases hstarted
      cases hdone
      exact Or.inr (Or.inr ⟨.refl _, fun _ => hidle, nofun⟩)
    · rename_i generation hpending
      obtain ⟨applied, happlied, heq⟩ := Option.bind_eq_some_iff.mp hstarted
      cases heq
      obtain ⟨emissions, -, heq⟩ := Option.bind_eq_some_iff.mp hdone
      cases heq
      exact Or.inr (Or.inl ⟨generation, applied, rfl, hpending, happlied, rfl⟩)
  | completeEvaluation changed =>
    simp only [step, Option.bind_eq_bind, Option.bind_eq_some_iff] at h
    obtain ⟨memo, -, generation, -, heq⟩ := h
    cases heq
    exact Or.inr (Or.inr ⟨⟨.refl _, rfl, rfl⟩, nofun, nofun⟩)
  | abandonEvaluation =>
    simp only [step, Option.bind_eq_bind, Option.bind_eq_some_iff] at h
    obtain ⟨memo, -, generation, -, heq⟩ := h
    cases heq
    exact Or.inr (Or.inr ⟨⟨.refl _, rfl, rfl⟩, nofun, nofun⟩)
  | takeMemo =>
    simp only [step] at h
    split_ifs at h
    cases h
    exact Or.inr (Or.inr ⟨⟨.refl _, rfl, rfl⟩, nofun, nofun⟩)
  | putMemo =>
    obtain ⟨memo, -, rfl⟩ := Option.map_eq_some_iff.mp h
    exact Or.inr (Or.inr ⟨⟨.refl _, rfl, rfl⟩, nofun, nofun⟩)
  | commit run phase =>
    obtain ⟨memo, memo', progress, hcommit⟩ := exists_commit h
    by_cases hcurrent : (run.memoUpdates.all fun update => update.2.isCurrent g.state.world) = true
    · obtain ⟨published, hpublished, hidles⟩ := exists_published hcommit hcurrent
      exact Or.inl ⟨run, phase, published, rfl, hcurrent, hpublished, hidles⟩
    · have hidles := idles_of_stale hcommit hcurrent
      refine Or.inr (Or.inr ⟨hidles, nofun, fun run' phase' heq => ?_⟩)
      cases heq
      exact hcurrent
  | heal attempts =>
    obtain ⟨⟨changed, attempts', s'⟩, hhealed, heq⟩ := Option.bind_eq_some_iff.mp h
    cases heq
    exact Or.inr (Or.inr ⟨idles_healStaleAmbient hhealed, nofun, nofun⟩)
  | takeBound e parts =>
    cases h
    have htaken : Idles C g.state { g.state with world := g.state.world.takeBundle C e parts } :=
      ⟨(tidies_takeBundle parts _).wanes, rfl, rfl⟩
    exact Or.inr (Or.inr ⟨htaken.trans (idles_closeBound ..), nofun, nofun⟩)
  | drainBound entities =>
    cases h
    exact Or.inr (Or.inr ⟨idles_closeBound .., nofun, nofun⟩)
  | publishSettledRevision =>
    cases h
    exact Or.inr (Or.inr ⟨idles_publishSettledRevision _, nofun, nofun⟩)

/-- A critical section leaves a later world. -/
theorem later_step {op : EngineOp α} (h : step C g op = some g') :
    Later C g.state.world g'.state.world := by
  rcases step_cases h with ⟨run, phase, published, -, -, hpublished, hidles⟩ |
    ⟨generation, applied, -, -, happlied, heq⟩ | ⟨hidles, -⟩
  · exact (managed_publishOutputs hpublished).later.trans hidles.world.later
  · rw [heq]
    exact (managed_applyInputs happlied).later.trans (tidies_reconcileInputs applied).later
  · exact hidles.world.later

theorem later_run {ops : List (EngineOp α)} (h : (machine C).run g ops = some g') :
    Later C g.state.world g'.state.world :=
  List.foldlM_some_induction (fun g' : Engine α => Later C g.state.world g'.state.world) ops h
    (.refl _) fun _ _ _ _ hlater hstep => hlater.trans (later_step hstep)

/-- The world of a reachable engine is a reachable world. -/
theorem reachable_world (h : Reachable C g) : World.Reachable C g.state.world := by
  refine Machine.ReachableUnder.invariant h (fun g => World.Reachable C g.state.world) ?_ ?_
  · rintro g ⟨systems, hooked, rfl⟩
    refine .init ⟨none, ?_⟩
    exact State.build_world systems hooked
  · exact fun g op g' hg _ hstep => (later_step hstep).reachable hg

end Engine
end Porridge
