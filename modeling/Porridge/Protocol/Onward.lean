import Porridge.Engine.World
import Porridge.Protocol.Tables

/-! What every section of a caller leaves behind: a later world, and systems that read ambiently
what they did before. -/
namespace Porridge

variable {α : Type} {C : Components α}

/-- What healing looks at in a system: its phase and the stores it views. -/
def BoxedSystem.ambient (s : BoxedSystem) : Phase × List TypeId := (s.phase, s.viewFreshness)

namespace BoxedSystem

theorem ambient_resetFull (s : BoxedSystem) : s.resetFull.ambient = s.ambient := rfl

theorem ambient_forceReplan (keys : List Entity) (s : BoxedSystem) :
    (s.forceReplan keys).ambient = s.ambient := by
  unfold forceReplan
  split_ifs <;> rfl

theorem ambient_afterPlan (w : World α) (s : BoxedSystem) : (s.afterPlan w).ambient = s.ambient := by
  unfold afterPlan advanceMark
  dsimp only
  split_ifs <;> rfl

theorem ambient_compactPlanLog (epoch : Nat) (log : List (TypeId × Entity)) (w : World α)
    (s : BoxedSystem) : (s.compactPlanLog epoch log w).ambient = s.ambient := by
  unfold compactPlanLog
  dsimp only
  split_ifs <;> rfl

variable {f : BoxedSystem → BoxedSystem}

theorem ambient_map (hf : ∀ s, (f s).ambient = s.ambient) (systems : List BoxedSystem) :
    (systems.map f).map ambient = systems.map ambient := by
  simp [Function.comp_def, hf]

theorem ambient_modify (hf : ∀ s, (f s).ambient = s.ambient) (systems : List BoxedSystem)
    (id : SystemId) : (systems.modify id f).map ambient = systems.map ambient := by
  apply List.ext_getElem?
  intro i
  simp only [List.getElem?_map, List.getElem?_modify]
  cases systems[i]? with
  | none => rfl
  | some s =>
    split_ifs
    · exact congrArg some (hf s)
    · rfl

theorem ambient_forceReplanOf (systems : List BoxedSystem) (o : SystemInvocation) :
    (forceReplanOf systems o).map ambient = systems.map ambient :=
  ambient_modify (ambient_forceReplan o.keys) systems o.system

theorem ambient_reconcileRemovedOutputOwners (selected : Option (List SystemId)) :
    ∀ (owners : List SystemInvocation) (memo : MemoTable) (systems : List BoxedSystem),
      (reconcileRemovedOutputOwners selected memo systems owners).2.1.map ambient =
        systems.map ambient
  | [], _, _ => rfl
  | o :: owners, memo, systems => by
    have ih := ambient_reconcileRemovedOutputOwners selected owners
    unfold reconcileRemovedOutputOwners
    split_ifs
    · exact (ih _ _).trans (ambient_forceReplanOf systems o)
    · exact ih memo systems

end BoxedSystem

open BoxedSystem World

/-- The world moves on, and healing finds the same systems. -/
structure Onward (C : Components α) (s s' : State α) : Prop where
  world : Later C s.world s'.world
  ambient : s'.systems.map BoxedSystem.ambient = s.systems.map BoxedSystem.ambient
  settleSystems : s'.settleSystems = s.settleSystems

/-- The world moves on without a write in place, and healing finds the same systems. -/
structure Steers (C : Components α) (s s' : State α) : Prop where
  world : Managed C s.world s'.world
  ambient : s'.systems.map BoxedSystem.ambient = s.systems.map BoxedSystem.ambient
  settleSystems : s'.settleSystems = s.settleSystems

namespace Steers

variable {s s' u : State α}

theorem onward (h : Steers C s s') : Onward C s s' := ⟨h.world.later, h.ambient, h.settleSystems⟩

theorem rfl : Steers C s s := ⟨.refl _, Eq.refl _, Eq.refl _⟩

theorem trans (h : Steers C s u) (h' : Steers C u s') : Steers C s s' where
  world := h.world.trans h'.world
  ambient := h'.ambient.trans h.ambient
  settleSystems := h'.settleSystems.trans h.settleSystems

/-- A section that works on neither the world nor the systems. -/
theorem of_same (hw : s'.world = s.world) (hs : s'.systems = s.systems)
    (hid : s'.settleSystems = s.settleSystems) : Steers C s s' :=
  ⟨hw ▸ .refl _, by rw [hs], hid⟩

end Steers

namespace Onward

variable {s s' u : State α}

theorem trans (h : Onward C s u) (h' : Onward C u s') : Onward C s s' where
  world := h.world.trans h'.world
  ambient := h'.ambient.trans h.ambient
  settleSystems := h'.settleSystems.trans h.settleSystems

end Onward

section Sections

theorem steers_publishOutputs {deferInserts : Bool} {outputs : List (SystemOutput α)}
    {s s' : State α} (h : publishOutputs C s outputs deferInserts = some s') : Steers C s s' := by
  refine List.foldlM_some_induction (Steers C s) outputs h .rfl ?_
  intro u output u' _ hu hstep
  obtain ⟨w, hw, hw'⟩ := Option.bind_eq_some_iff.mp hstep
  cases hw'
  exact hu.trans ⟨.of_apply (.output output deferInserts) rfl hw, rfl, rfl⟩

theorem steers_reconcileCommit (memo : MemoTable) (s : State α) :
    Steers C s (reconcileCommit C memo s).2 := by
  have hidles : Idles C s (reconcileCommit C memo s).2 := idles_reconcileCommit memo s
  refine ⟨(tidies_reconcileCommit memo s).managed, ?_, hidles.settleSystems⟩
  have howners := ambient_reconcileRemovedOutputOwners none s.world.removedComponentOwners memo
    s.systems
  unfold reconcileCommit
  dsimp only
  split_ifs
  · rfl
  · exact howners
  all_goals exact (ambient_reconcileRemovedOutputOwners _ _ _ _).trans howners

theorem steers_commitSystemRun {memo after : MemoTable} {s s' : State α} {run : SystemRun α}
    {phase : Option Phase} {progress : CommitProgress}
    (h : commitSystemRun C memo s run phase = some (after, s', progress)) : Steers C s s' := by
  unfold commitSystemRun at h
  split_ifs at h
  · obtain ⟨published, hpublished, h⟩ := Option.bind_eq_some_iff.mp h
    cases h
    obtain ⟨u, hu, hrun⟩ := Option.bind_eq_some_iff.mp hpublished
    cases hrun
    have hreconciled : Steers C u { u with world := u.world.reconcileWritten C run.writes } :=
      ⟨(tidies_reconcileWritten u.world run.writes).managed, rfl, rfl⟩
    exact ((steers_publishOutputs hu).trans hreconciled).trans (steers_reconcileCommit _ _)
  · cases h
    exact ⟨(tidies_reconcileWritten s.world run.writes).managed, rfl, rfl⟩

theorem steers_startEvaluation {s : State α} {started : Started α}
    (h : startEvaluation C s = some (some started)) : Steers C s started.state := by
  unfold startEvaluation at h
  split at h
  · cases h
  · obtain ⟨applied, happlied, hlaunch⟩ := Option.bind_eq_some_iff.mp h
    cases hlaunch
    have hworld := managed_applyInputs happlied
    have hcompacted : ∀ u : State α, (compactPlanLog u).systems.map BoxedSystem.ambient =
        u.systems.map BoxedSystem.ambient ∧ (compactPlanLog u).settleSystems = u.settleSystems := by
      intro u
      unfold compactPlanLog
      split
      · exact ⟨rfl, rfl⟩
      · exact ⟨ambient_map (fun _ => ambient_compactPlanLog _ _ _ _) _, rfl⟩
    simp only [applyInputs, Option.bind_eq_bind, Option.bind_eq_some_iff, Option.pure_def,
      Option.some.injEq] at happlied
    obtain ⟨settled, -, based, -, flushed, -, rfl⟩ := happlied
    obtain ⟨hambient, hsettles⟩ := hcompacted { s with pendingGeneration := none }
    refine ⟨hworld.trans (tidies_reconcileInputs _).managed, ?_, hsettles⟩
    refine (ambient_reconcileRemovedOutputOwners _ _ _ _).trans ?_
    exact (ambient_reconcileRemovedOutputOwners _ _ _ _).trans hambient

theorem steers_healStaleAmbient {attempts : Dict SystemInvocation Nat} {s : State α}
    {r : Bool × Dict SystemInvocation Nat × State α} (h : healStaleAmbient attempts s = some r) :
    Steers C s r.2.2 := by
  obtain ⟨healed, hfold, rfl⟩ := Option.map_eq_some_iff.mp h
  refine List.foldlM_some_induction (fun r : Dict SystemInvocation Nat × State α =>
    Steers C s r.2) _ hfold .rfl ?_
  intro r victim r' _ hr hstep
  simp only [healVictim] at hstep
  split_ifs at hstep
  cases hstep
  exact hr.trans ⟨.refl _, ambient_forceReplanOf _ _, rfl⟩

theorem steers_publishSettledRevision (s : State α) : Steers C s s.publishSettledRevision := by
  unfold State.publishSettledRevision
  split_ifs
  · exact .rfl
  · exact .of_same rfl rfl rfl

theorem steers_closeBound (settled : Bool) (s : State α) (entities : List Entity) :
    Steers C s (closeBound C settled s entities) := by
  have hcleaned : Steers C s (cleanupBoundEntities C s entities) :=
    ⟨(tidies_cleanupRetirement ⟨s.world, s.memo, false⟩ entities).managed, rfl, rfl⟩
  unfold closeBound
  dsimp only
  split_ifs
  · exact hcleaned.trans (steers_publishSettledRevision _)
  · exact hcleaned

theorem steers_takeBound (s : State α) (e : Entity) (parts : List (TypeId × Bool)) :
    Steers C s (takeBound C s e parts) := by
  have htaken : Steers C s { s with world := s.world.takeBundle C e parts } :=
    ⟨(tidies_takeBundle parts s.world).managed, rfl, rfl⟩
  exact htaken.trans (steers_closeBound s.isSettled _ [e])

theorem steers_mutate (s : State α) (t : TypeId) (e : Entity) (v : Value α) :
    Steers C s (s.mutate C t e v) := by
  have hidles : Idles C s (s.mutate C t e v) := idles_mutate s t e v
  refine ⟨(tidies_mutate s t e v).managed, ?_, hidles.settleSystems⟩
  unfold State.mutate
  dsimp only
  split_ifs <;> rfl

theorem steers_promoteDeferredInputs (s : State α) (watermark : Nat) :
    Steers C s (s.promoteDeferredInputs watermark).2 := by
  unfold State.promoteDeferredInputs
  dsimp only
  split_ifs
  · exact .rfl
  · exact .of_same rfl rfl rfl

end Sections

namespace Protocol

variable {q q' : Protocol α} {p : PartyId}

theorem steers_exit (q : Protocol α) (p : PartyId) (epoch : Epoch) {done : State α → State α}
    (hdone : Steers C q.state (done q.state)) : Steers C q.state (q.exit p epoch done).state := by
  unfold Protocol.exit
  dsimp only
  split_ifs
  · exact steers_promoteDeferredInputs q.state epoch.watermark
  · exact hdone

theorem steers_heal {epoch : Epoch} {onwards : Epoch → Pc α}
    (h : q.heal p epoch onwards = some q') : Steers C q.state q'.state := by
  obtain ⟨r, hr, hs⟩ := Option.bind_eq_some_iff.mp h
  cases hs
  exact steers_healStaleAmbient hr

theorem steers_leave (q : Protocol α) : Steers C q.state q.leave.state := by
  have hleft : Steers C q.state { q.state with settling := q.state.settling - 1 } :=
    .of_same rfl rfl rfl
  unfold Protocol.leave
  dsimp only
  split_ifs
  · exact hleft.trans (steers_promoteDeferredInputs _ _)
  · exact hleft

theorem steers_advance (h : q.advance C p = some q') : Steers C q.state q'.state := by
  have hsame : Steers C q.state q.state := .rfl
  unfold Protocol.advance at h
  split at h
  case h_1 => cases h
  case h_2 => cases h; exact .of_same rfl rfl rfl
  case h_3 =>
    split_ifs at h <;> cases h
    · exact steers_exit q p _ hsame
    · exact hsame
  case h_4 => split_ifs at h <;> cases h <;> exact hsame
  case h_5 =>
    obtain ⟨started, hstarted, h⟩ := Option.bind_eq_some_iff.mp h
    cases started with
    | none => cases h; exact hsame
    | some started => cases h; exact steers_startEvaluation hstarted
  case h_6 => cases h; exact hsame
  case h_7 => cases h; exact .of_same rfl rfl rfl
  case h_8 =>
    split_ifs at h <;> cases h
    · exact steers_exit q p _ hsame
    · exact hsame
    · exact hsame
  case h_9 => exact steers_heal h
  case h_10 => split_ifs at h <;> cases h <;> exact .of_same rfl rfl rfl
  case h_11 => cases h; exact .of_same rfl rfl rfl
  case h_12 => split_ifs at h <;> cases h <;> exact .of_same rfl rfl rfl
  case h_13 => cases h; exact .of_same rfl rfl rfl
  case h_14 => exact steers_heal h
  case h_15 => cases h; exact hsame
  case h_16 => cases h; exact steers_exit q p _ (steers_publishSettledRevision q.state)
  case h_17 => cases h; exact .of_same rfl rfl rfl
  case h_18 => cases h; exact steers_leave q
  case h_19 => cases h; exact hsame
  case h_20 => cases h; exact hsame
  case h_21 => cases h; exact steers_closeBound _ q.state _
  case h_22 => cases h; exact hsame
  case h_23 => cases h; exact hsame
  case h_24 => cases h; exact steers_leave q

theorem steers_cancel (h : q.cancel p = some q') : Steers C q.state q'.state := by
  unfold Protocol.cancel at h
  split at h
  · cases h
  · cases h
  · cases h
  · cases h
    split
    · exact ⟨.refl _, ambient_map ambient_resetFull _, rfl⟩
    · exact .rfl

theorem steers_commit {memo : MemoTable} {run : SystemRun α} {phase : Option Phase}
    {pc : MemoTable → Bool → Pc α} (h : q.commit C p memo run phase pc = some q') :
    Steers C q.state q'.state := by
  obtain ⟨⟨after, s, progress⟩, hcommit, h⟩ := Option.bind_eq_some_iff.mp h
  cases h
  exact steers_commitSystemRun hcommit

/-- Each action but a write in place leaves a managed world, and the systems as healing looks at
them. -/
theorem steers_act {a : Action α} (h : q.act C a = some q')
    (ha : ∀ p t e v, a ≠ .writeInPlace p t e v) : Steers C q.state q'.state := by
  cases a with
  | insert commands =>
    obtain ⟨s, hstate, h⟩ := Option.bind_eq_some_iff.mp h
    cases h
    rcases State.acceptInput_eq hstate with ⟨-, rfl⟩ | ⟨-, -, rfl⟩
    · exact .of_same rfl rfl rfl
    · exact .of_same rfl rfl rfl
  | insertPreempting commands =>
    obtain ⟨s, hstate, h⟩ := Option.bind_eq_some_iff.mp h
    cases h
    obtain ⟨restart, rfl⟩ := State.acceptPreempting_eq hstate
    exact .of_same rfl rfl rfl
  | reserve => cases h; exact ⟨.of_apply .spawnEmpty rfl rfl, rfl, rfl⟩
  | reserveSingleton key => cases h; exact ⟨.of_apply (.reserveSingleton key) rfl rfl, rfl, rfl⟩
  | mutate t e v =>
    obtain ⟨s, hstate, h⟩ := Option.bind_eq_some_iff.mp h
    cases h
    obtain ⟨restart, rfl⟩ := State.reachBoundary_eq hstate
    have hbounded : Steers C q.state { q.state with preemptRestart := restart } :=
      .of_same rfl rfl rfl
    exact hbounded.trans (steers_mutate _ t e v)
  | takeBound e parts => cases h; exact steers_takeBound q.state e parts
  | drainBound entities => cases h; exact steers_closeBound _ q.state entities
  | dropBound e => cases h; exact .rfl
  | callSettle p scoop =>
    simp only [Protocol.act] at h
    split at h
    · split_ifs at h <;> cases h <;> exact .rfl
    · cases h
  | awaitInsert p generation =>
    simp only [Protocol.act] at h
    split at h
    · cases h
      exact .rfl
    · cases h
  | advance p => exact steers_advance h
  | writeInPlace p t e v => exact absurd rfl (ha p t e v)
  | commit p run phase =>
    simp only [Protocol.act] at h
    split at h
    · split_ifs at h
      exact steers_commit h
    · exact steers_commit h
    · exact steers_commit h
    · cases h
  | openWindow p =>
    simp only [Protocol.act] at h
    split at h
    · cases h
      exact .of_same rfl rfl rfl
    · cases h
  | closeWindow p =>
    simp only [Protocol.act] at h
    split at h
    · cases h
      exact ⟨.refl _, ambient_map ambient_resetFull _, rfl⟩
    · cases h
  | cancel p => exact steers_cancel h

/-- Each action leaves a later world, and the systems as healing looks at them. -/
theorem onward_act {a : Action α} (h : q.act C a = some q') : Onward C q.state q'.state := by
  by_cases hwrites : ∃ p t e v, a = .writeInPlace p t e v
  · obtain ⟨p, t, e, v, rfl⟩ := hwrites
    simp only [Protocol.act] at h
    split_ifs at h
    cases h
    exact ⟨.of_apply (.writeInPlace t e v) rfl, rfl, rfl⟩
  · refine (steers_act h ?_).onward
    exact fun p t e v heq => hwrites ⟨p, t, e, v, heq⟩

end Protocol
end Porridge
