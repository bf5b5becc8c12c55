import Porridge.Execution.Healed
import Porridge.PhaseLoop.Admission
import Porridge.World.Audible

/-! A phase loop forgets nothing that is left to plan: when it waits with no run in flight, its
systems have nothing to plan. -/
namespace Porridge

variable {α : Type} {C : Components α}

/-- A system with a bounded interest has nothing to plan. -/
def BoxedSystem.Quiet (s : BoxedSystem) (w : World α) : Prop :=
  s.interest.isSome = true → s.peekNeedsPlanning w = false

/-- The systems of a phase have nothing to plan. -/
def State.QuietIn (s : State α) (phase : Phase) : Prop :=
  ∀ system ∈ s.systems, system.phase = phase → system.Quiet s.world

/-- No owner is recorded as a loser. -/
def World.Unlost (w : World α) : Prop := w.removedOwners = [] ∧ w.removedComponentOwners = []

theorem World.Unlost.same {w w' : World α} (h : w.Unlost) (hsame : World.SameLosers w w') :
    w'.Unlost := ⟨hsame.1.trans h.1, hsame.2.trans h.2⟩

namespace BoxedSystem

theorem peekNeedsPlanning_congr (s : BoxedSystem) {w w' : World α}
    (h : ∀ t, w'.storeWatermark t = w.storeWatermark t) :
    s.peekNeedsPlanning w' = s.peekNeedsPlanning w := by
  have hmark : ∀ types, interestMark types w' = interestMark types w := fun types => by
    unfold interestMark
    rw [funext h]
  unfold peekNeedsPlanning
  simp only [hmark]

theorem Quiet.congr {s : BoxedSystem} {w w' : World α} (hs : s.Quiet w)
    (h : ∀ t, w'.storeWatermark t = w.storeWatermark t) : s.Quiet w' := fun hbounded => by
  rw [peekNeedsPlanning_congr s h]
  exact hs hbounded

/-- A system that has planned has nothing to plan until a store moves. -/
theorem quiet_afterPlan (s : BoxedSystem) (w : World α) : (s.afterPlan w).Quiet w := by
  intro hbounded
  cases hinterest : s.interest with
  | none =>
    have hnone : (s.afterPlan w).interest = none := by
      unfold afterPlan advanceMark
      dsimp only
      split_ifs <;> exact hinterest
    rw [hnone] at hbounded
    cases hbounded
  | some types =>
    have hmark : (s.advanceMark w).plannedMark = some (interestMark types w) := by
      unfold advanceMark
      dsimp only
      split
      · rename_i hnone
        rw [hinterest] at hnone
        cases hnone
      · rename_i types' hsome
        rw [hinterest] at hsome
        cases hsome
        rfl
    have hplanned : (s.afterPlan w).forcedDirty = [] ∧ (s.afterPlan w).interest = some types ∧
        (s.afterPlan w).plannedMark = some (interestMark types w) := by
      unfold afterPlan
      dsimp only
      split_ifs
      · exact ⟨rfl, hinterest, hmark⟩
      · exact ⟨rfl, hinterest, hmark⟩
    obtain ⟨hforced, hinterest', hmark'⟩ := hplanned
    unfold peekNeedsPlanning
    rw [if_neg (not_not.mpr hforced), hinterest', hmark']
    exact decide_eq_false (lt_irrefl _)

end BoxedSystem

namespace State

variable {s s' : State α} {phase : Phase}

theorem QuietIn.congr (h : s.QuietIn phase) (hsystems : s'.systems = s.systems)
    (hmarks : ∀ t, s'.world.storeWatermark t = s.world.storeWatermark t) : s'.QuietIn phase := by
  intro system hsystem hphase
  rw [hsystems] at hsystem
  exact (h system hsystem hphase).congr hmarks

/-- Marking a system of another phase disturbs no system of this one. -/
theorem QuietIn.modify {id : SystemId} {f : BoxedSystem → BoxedSystem} (h : s.QuietIn phase)
    (hid : ∀ system, s.systems[id]? = some system → system.phase ≠ phase)
    (hf : ∀ system, (f system).phase = system.phase) :
    { s with systems := s.systems.modify id f }.QuietIn phase := by
  intro system hsystem hphase
  obtain ⟨i, hi⟩ := List.mem_iff_getElem?.mp hsystem
  rw [List.getElem?_modify] at hi
  obtain ⟨before, hbefore, hmarked⟩ := Option.map_eq_some_iff.mp hi
  split_ifs at hmarked with heq
  · subst heq
    rw [← hmarked, hf] at hphase
    exact absurd hphase (hid before hbefore)
  · have hsame : before = system := hmarked
    subst hsame
    exact h before (List.mem_of_getElem? hbefore) hphase

end State

section Commits

variable {s s' : State α} {memo after : MemoTable} {run : SystemRun α} {phase : Option Phase}
  {progress : CommitProgress}

theorem audible_publishOutputs {outputs : List (SystemOutput α)} {deferInserts : Bool}
    (h : publishOutputs C s outputs deferInserts = some s') :
    World.Audible s.world s'.world ∧ s'.systems = s.systems := by
  refine List.foldlM_some_induction (fun u : State α =>
    World.Audible s.world u.world ∧ u.systems = s.systems) outputs h ⟨.refl _, rfl⟩ ?_
  intro u output u' _ hu hstep
  obtain ⟨w, happlied, hw⟩ := Option.bind_eq_some_iff.mp hstep
  cases hw
  exact ⟨hu.1.trans (World.audible_applyOutput happlied), hu.2⟩

theorem audible_retireCascade (selected : Option (List SystemId)) (r : Retirement α)
    (seen frontier : List Entity) :
    World.Audible r.world (retireCascade C selected r seen frontier).world :=
  Worklist.rounds_invariant (fun _ => True) (fun r' => World.Audible r.world r'.world)
    (fun _ _ hr _ => ⟨hr.trans (World.audible_retireOwners _ _), fun _ _ => trivial⟩)
    _ r seen frontier (.refl _) fun _ _ => trivial

theorem audible_reconcileRemovedInvocations (w : World α) (memo : MemoTable)
    (removed : List Entity) (removedOwners : List SystemInvocation) (systems : List BoxedSystem)
    (selected : Option (List SystemId)) : World.Audible w
      (reconcileRemovedInvocations C w memo removed removedOwners systems selected).1.world :=
  audible_retireCascade selected ⟨w, _, _⟩ _ _

theorem audible_reconcileCommit (memo : MemoTable) (s : State α) :
    World.Audible s.world.drainRemovals (reconcileCommit C memo s).2.world := by
  unfold reconcileCommit
  dsimp only
  split_ifs
  · exact .refl _
  · exact .refl _
  · exact audible_reconcileRemovedInvocations ..
  · exact audible_reconcileRemovedInvocations ..

/-- Treating removals forces no row where no loser was recorded. -/
theorem systems_reconcileCommit (memo : MemoTable) (s : State α) (hw : s.world.Unlost) :
    (reconcileCommit C memo s).2.systems = s.systems := by
  unfold reconcileCommit
  dsimp only
  rw [hw.1, hw.2]
  have hnone : reconcileRemovedOutputOwners none memo s.systems [] = (memo, s.systems, false) := rfl
  rw [hnone]
  split_ifs <;> rfl

/-- A commit that keeps the revision moves no store, forces no row and leaves no loser. -/
theorem commit_mute (hw : s.world.Coherent) (hl : s.world.Unlost)
    (h : commitSystemRun C memo s run phase = some (after, s', progress))
    (hmute : progress.needsFollowup = false) :
    s'.systems = s.systems ∧ (∀ t, s'.world.storeWatermark t = s.world.storeWatermark t) ∧
      s'.world.Unlost := by
  have hrevision : s'.world.revision = s.world.revision := (commitSystemRun_table h).2.2.1 hmute
  have hmarks := (steers_commitSystemRun h).onward.world.storeWatermark_eq hw hrevision
  suffices hrest : s'.systems = s.systems ∧ s'.world.Unlost from ⟨hrest.1, hmarks, hrest.2⟩
  unfold commitSystemRun at h
  split_ifs at h
  · obtain ⟨published, hpublished, h⟩ := Option.bind_eq_some_iff.mp h
    cases h
    obtain ⟨u, hu, hrun⟩ := Option.bind_eq_some_iff.mp hpublished
    cases hrun
    obtain ⟨hpublish, hsystems⟩ := audible_publishOutputs hu
    let reconciled : State α := { u with world := u.world.reconcileWritten C run.writes }
    let table := publishMemo reconciled.world s.settleEpoch run memo
    have hreconciled : World.Audible s.world reconciled.world :=
      hpublish.trans (World.audible_reconcileWritten _ _).1
    have htreated : World.Audible reconciled.world.drainRemovals
        (reconcileCommit C table reconciled).2.world := audible_reconcileCommit table reconciled
    have hstands : reconciled.world.revision = s.world.revision :=
      le_antisymm (hrevision ▸ htreated.revision) hreconciled.revision
    have hunlost : reconciled.world.Unlost := hl.same (hreconciled.losers hstands)
    have hdrained : reconciled.world.drainRemovals.Unlost := ⟨rfl, rfl⟩
    exact ⟨(systems_reconcileCommit table reconciled hunlost).trans hsystems,
      hdrained.same (htreated.losers (hrevision.trans hstands.symm))⟩
  · cases h
    exact ⟨rfl, hl.same (World.audible_reconcileWritten _ _).2⟩

theorem World.Tended.retireCascade (selected : Option (List SystemId)) {r : Retirement α}
    (seen frontier : List Entity) (ht : r.world.Tended C) (hl : r.world.Unlost) :
    (retireCascade C selected r seen frontier).world.Tended C ∧
      (Porridge.retireCascade C selected r seen frontier).world.Unlost := by
  refine Worklist.rounds_invariant (fun _ => True)
    (fun r' : Retirement α => r'.world.Tended C ∧ r'.world.Unlost) (fun r' frontier hr _ => ?_)
    _ r seen frontier ⟨ht, hl⟩ fun _ _ => trivial
  obtain ⟨htended, hsame⟩ := World.Tended.retireOwners
    (r'.world.ownersTouchedBy frontier selected) hr.1
  exact ⟨⟨htended, hr.2.same hsame⟩, fun _ _ => trivial⟩

theorem tended_reconcileCommit (memo : MemoTable) (s : State α) (ht : s.world.Tended C) :
    (reconcileCommit C memo s).2.world.Tended C ∧ (reconcileCommit C memo s).2.world.Unlost := by
  have hdrained : s.world.drainRemovals.Tended C := ⟨ht.unowned, ht.held⟩
  unfold reconcileCommit
  dsimp only
  split_ifs
  · exact ⟨hdrained, rfl, rfl⟩
  · exact ⟨hdrained, rfl, rfl⟩
  all_goals exact World.Tended.retireCascade _ _ _ hdrained ⟨rfl, rfl⟩

/-- Where the engine owns its inverses, a commit leaves no loser. -/
theorem commit_tended (ht : s.world.Tended C) (hl : s.world.Unlost)
    (hc : ∀ output ∈ run.outputs, ∀ c ∈ output.commands, c.Tends C)
    (h : commitSystemRun C memo s run phase = some (after, s', progress)) :
    s'.world.Tended C ∧ s'.world.Unlost := by
  unfold commitSystemRun at h
  split_ifs at h
  · obtain ⟨published, hpublished, h⟩ := Option.bind_eq_some_iff.mp h
    cases h
    obtain ⟨u, hu, hrun⟩ := Option.bind_eq_some_iff.mp hpublished
    cases hrun
    have hpublish : u.world.Tended C := by
      refine List.foldlM_some_induction (fun u : State α => u.world.Tended C) run.outputs hu ht ?_
      intro u output u' hmem hu hstep
      obtain ⟨w, happlied, hw⟩ := Option.bind_eq_some_iff.mp hstep
      cases hw
      exact hu.applyOutput (hc output hmem) happlied
    exact tended_reconcileCommit _ { u with world := u.world.reconcileWritten C run.writes }
      (hpublish.reconcileWritten run.writes)
  · cases h
    exact ⟨ht.reconcileWritten run.writes, hl.same (World.audible_reconcileWritten _ _).2⟩

end Commits

namespace PhaseLoop

/-- A deferred row waits for a run in flight. -/
def Defers (l : PhaseLoop α) : Prop := l.deferredConflicts = true ∧ l.running ≠ []

/-- What is left to plan is still to be looked for: a wave is due or under way, or a batch or a
run in flight will ask for one. -/
def Heeds (l : PhaseLoop α) (s : State α) : Prop :=
  match l.stage with
  | .top => l.needsPlan = true ∨ s.QuietIn l.phase ∨ l.Defers
  | .planning wave => l.needsPlan = true ∧
      (∀ t, wave.snapshot.storeWatermark t = s.world.storeWatermark t) ∧
        (l.Defers ∨ ∀ id system, s.systems[id]? = some system → id ∉ wave.systems →
          system.phase = l.phase → system.Quiet s.world)
  | .waiting quiet => (quiet = true → l.needsPlan = true) ∧ (s.QuietIn l.phase ∨ l.Defers)
  | .committing quiet followup stale => (quiet = true → l.needsPlan = true) ∧
      (s.QuietIn l.phase ∨ followup = true ∨ stale = true ∨ l.deferredConflicts = true)
  | .draining => True

variable {l : PhaseLoop α} {s s' : State α}

theorem heeds_enter (phase : Phase) (registry : Dict TypeId Nat) (s : State α) :
    (enter phase registry).Heeds s := Or.inl rfl

/-- A complete phase has nothing left to plan. -/
theorem Heeds.quietIn (h : l.Heeds s) (hc : l.completed = true) : s.QuietIn l.phase := by
  obtain ⟨hrunning, hwaiting⟩ := Bool.and_eq_true_iff.mp hc
  have hnone : l.running = [] := List.isEmpty_iff.mp hrunning
  unfold Heeds at h
  cases hstage : l.stage with
  | waiting quiet =>
    rw [hstage] at h
    rcases h.2 with hquiet | ⟨-, hdefers⟩
    · exact hquiet
    · exact absurd hnone hdefers
  | _ =>
    rw [hstage] at hwaiting
    cases hwaiting

/-- What the loop knows survives where no store moves and the systems stay. -/
theorem Heeds.congr (h : l.Heeds s) (hsystems : s'.systems = s.systems)
    (hmarks : ∀ t, s'.world.storeWatermark t = s.world.storeWatermark t) : l.Heeds s' := by
  have hquiet : s.QuietIn l.phase → s'.QuietIn l.phase := fun hq => hq.congr hsystems hmarks
  unfold Heeds at h ⊢
  cases hstage : l.stage with
  | top =>
    rw [hstage] at h
    exact h.imp_right (Or.imp_left hquiet)
  | planning wave =>
    rw [hstage] at h
    obtain ⟨hplan, hsnapshot, hseen⟩ := h
    refine ⟨hplan, fun t => (hsnapshot t).trans (hmarks t).symm, hseen.imp_right ?_⟩
    intro hplanned id system hid hleft hphase
    rw [hsystems] at hid
    exact (hplanned id system hid hleft hphase).congr hmarks
  | waiting quiet =>
    rw [hstage] at h
    exact ⟨h.1, h.2.imp_left hquiet⟩
  | committing quiet followup stale =>
    rw [hstage] at h
    exact ⟨h.1, h.2.imp_left hquiet⟩
  | draining => trivial

end PhaseLoop

namespace Runner

variable {P : Program α} {r r' : Runner α}

theorem heeds_turn (h : r.loop.Heeds r.state) (hs : r.turn = some r') :
    r'.loop.Heeds r'.state := by
  unfold turn at hs
  split at hs
  · rename_i hstage
    unfold PhaseLoop.Heeds at h
    rw [hstage] at h
    split_ifs at hs with hplan hany
    · cases hs
      refine ⟨fun hquiet => absurd hquiet Bool.false_ne_true, h.resolve_left ?_⟩
      rw [hplan]
      exact Bool.false_ne_true
    · cases hs
      have hneeds : r.loop.needsPlan = true := by simpa using hplan
      refine ⟨hneeds, fun _ => rfl, Or.inr fun id system hid hleft => ?_⟩
      obtain ⟨hlt, -⟩ := List.getElem?_eq_some_iff.mp hid
      exact absurd (List.mem_range.mpr hlt) hleft
    · cases hs
      have hneeds : r.loop.needsPlan = true := by simpa using hplan
      refine ⟨fun _ => hneeds, Or.inl fun system hsystem hphase _ => ?_⟩
      by_contra hpeek
      exact hany (List.any_eq_true.mpr ⟨system, hsystem,
        decide_eq_true ⟨hphase, Bool.eq_true_of_not_eq_false hpeek⟩⟩)
  · cases hs

theorem heeds_planNext (h : r.loop.Heeds r.state) (hs : r.planNext P = some r') :
    r'.loop.Heeds r'.state := by
  unfold planNext at hs
  split at hs
  · rename_i snapshot id rest hstage
    unfold PhaseLoop.Heeds at h
    rw [hstage] at h
    obtain ⟨hneeds, hsnapshot, hseen⟩ := h
    obtain ⟨system, hsystem, hs⟩ := Option.bind_eq_some_iff.mp hs
    obtain ⟨⟨phase, runnable⟩, -, hs⟩ := Option.bind_eq_some_iff.mp hs
    dsimp only at hs
    split_ifs at hs with hdue
    · obtain ⟨runs, -, hs⟩ := Option.bind_eq_some_iff.mp hs
      cases hs
      refine ⟨hneeds, hsnapshot, hseen.imp_right fun hplanned => ?_⟩
      intro id' system' hid' hleft hphase
      dsimp only at hid'
      rw [List.getElem?_modify] at hid'
      obtain ⟨before, hbefore, hmarked⟩ := Option.map_eq_some_iff.mp hid'
      split_ifs at hmarked with heq
      · rw [← hmarked]
        exact (before.quiet_afterPlan snapshot).congr fun t => (hsnapshot t).symm
      · have hsame : before = system' := hmarked
        subst hsame
        refine hplanned id' before hbefore (fun hmem => ?_) hphase
        rcases List.mem_cons.mp hmem with hfirst | hrest
        · exact heq hfirst.symm
        · exact hleft hrest
    · cases hs
      refine ⟨hneeds, hsnapshot, hseen.imp_right fun hplanned => ?_⟩
      intro id' system' hid' hleft hphase
      by_cases heq : id' = id
      · subst heq
        cases hsystem.symm.trans hid'
        intro _
        rw [system.peekNeedsPlanning_congr fun t => (hsnapshot t).symm]
        exact Bool.eq_false_of_not_eq_true fun hpeek => hdue ⟨hphase, hpeek⟩
      · refine hplanned id' system' hid' (fun hmem => ?_) hphase
        exact (List.mem_cons.mp hmem).elim heq hleft
  · cases hs

/-- A run that conflicts waits for one in flight. -/
theorem heeds_admitNext (h : r.loop.Heeds r.state) (ht : r.loop.Tracked)
    (hs : r.admitNext = some r') : r'.loop.Heeds r'.state := by
  obtain ⟨-, hflies⟩ := tracked_admitNext ht hs
  unfold admitNext at hs
  split at hs
  · rename_i snapshot systems id run queue hstage
    unfold PhaseLoop.Heeds at h
    rw [hstage] at h
    obtain ⟨hneeds, hsnapshot, hseen⟩ := h
    obtain ⟨⟨answer, reservations⟩, hanswer, hs⟩ := Option.bind_eq_some_iff.mp hs
    dsimp only at hs
    split at hs
    · cases hs
      exact ⟨hneeds, hsnapshot, hseen⟩
    · cases hs
      have hflight : r.loop.running ≠ [] := by
        cases hflies with
        | admitted hstage' hadmits hrunning =>
          exact fun hnone => by simp [hnone] at hrunning
        | kept hrunning hadmits =>
          intro hnone
          refine hadmits _ _ _ _ _ hstage ⟨?_, ?_⟩
          · simp [hnone]
          · simp [hnone]
      exact ⟨hneeds, hsnapshot, Or.inl ⟨rfl, hflight⟩⟩
    · cases hs
      refine ⟨hneeds, hsnapshot, hseen.imp_left fun hdefers => ⟨hdefers.1, ?_⟩⟩
      exact List.append_ne_nil_of_right_ne_nil _ (List.cons_ne_nil _ _)
  · cases hs

/-- A batch knows of every commit that was heard. -/
theorem heeds_settleRun {id : RunId} {outcome : RunOutcome α} {quiet followup stale : Bool}
    (hw : r.state.world.Coherent) (hl : r.state.world.Unlost)
    (hplan : quiet = true → r.loop.needsPlan = true)
    (h : r.state.QuietIn r.loop.phase ∨ followup = true ∨ stale = true ∨
      r.loop.deferredConflicts = true)
    (hs : r.settleRun P id outcome true (fun progress =>
      .committing quiet (followup || progress.needsFollowup) (stale || progress.stale)) = some r') :
    r'.loop.Heeds r'.state := by
  obtain ⟨⟨_, run⟩, -, hs⟩ := Option.bind_eq_some_iff.mp hs
  dsimp only at hs
  split_ifs at hs
  obtain ⟨⟨memo, state, progress⟩, hcommit, hs⟩ := Option.bind_eq_some_iff.mp hs
  obtain ⟨⟨owner, reservations⟩, -, hs⟩ := Option.bind_eq_some_iff.mp hs
  obtain ⟨owner', -, hs⟩ := Option.bind_eq_some_iff.mp hs
  cases hs
  refine ⟨hplan, ?_⟩
  dsimp only
  by_cases hstale : progress.stale = true
  · exact Or.inr (Or.inr (Or.inl (by rw [hstale, Bool.or_true])))
  · by_cases hheard : progress.needsFollowup = true
    · exact Or.inr (Or.inl (by rw [hheard, Bool.or_true]))
    · rw [Bool.not_eq_true] at hheard
      obtain ⟨hsystems, hmarks, -⟩ := commit_mute hw hl hcommit hheard
      rw [if_neg fun hboth => hstale hboth.1]
      rcases h with hquiet | hfollowup | hsome | hdefers
      · exact Or.inl (hquiet.congr hsystems hmarks)
      · exact Or.inr (Or.inl (by rw [hfollowup, Bool.true_or]))
      · exact Or.inr (Or.inr (Or.inl (by rw [hsome, Bool.true_or])))
      · exact Or.inr (Or.inr (Or.inr hdefers))

theorem heeds_finish {id : RunId} {outcome : RunOutcome α} (hw : r.state.world.Coherent)
    (hl : r.state.world.Unlost) (h : r.loop.Heeds r.state) (hs : r.finish P id outcome = some r') :
    r'.loop.Heeds r'.state := by
  unfold PhaseLoop.Heeds at h
  unfold finish at hs
  split at hs
  · rename_i quiet hstage
    rw [hstage] at h
    have hfirst : r.settleRun P id outcome true (fun progress => .committing quiet
        (false || progress.needsFollowup) (false || progress.stale)) = some r' := by
      simpa only [Bool.false_or] using hs
    exact heeds_settleRun hw hl h.1 (h.2.imp_right fun hdefers => Or.inr (Or.inr hdefers.1)) hfirst
  · rename_i quiet followup stale hstage
    rw [hstage] at h
    exact heeds_settleRun hw hl h.1 h.2 hs
  · have hdraining : r'.loop.stage = .draining := by
      obtain ⟨⟨_, run⟩, -, hs⟩ := Option.bind_eq_some_iff.mp hs
      dsimp only at hs
      split_ifs at hs
      obtain ⟨⟨memo, state, progress⟩, -, hs⟩ := Option.bind_eq_some_iff.mp hs
      obtain ⟨⟨owner, reservations⟩, -, hs⟩ := Option.bind_eq_some_iff.mp hs
      obtain ⟨owner', -, hs⟩ := Option.bind_eq_some_iff.mp hs
      cases hs
      rfl
    unfold PhaseLoop.Heeds
    rw [hdraining]
    trivial
  · cases hs

theorem phase_settleRun {id : RunId} {outcome : RunOutcome α} {replan : Bool}
    {onwards : CommitProgress → Stage α} (hs : r.settleRun P id outcome replan onwards = some r') :
    r'.loop.phase = r.loop.phase := by
  obtain ⟨⟨_, run⟩, -, hs⟩ := Option.bind_eq_some_iff.mp hs
  dsimp only at hs
  split_ifs at hs
  obtain ⟨⟨memo, state, progress⟩, -, hs⟩ := Option.bind_eq_some_iff.mp hs
  obtain ⟨⟨owner, reservations⟩, -, hs⟩ := Option.bind_eq_some_iff.mp hs
  obtain ⟨owner', -, hs⟩ := Option.bind_eq_some_iff.mp hs
  cases hs
  rfl

theorem phase_step {a : PhaseStep α} (hs : r.step P a = some r') :
    r'.loop.phase = r.loop.phase := by
  cases a with
  | turn =>
    simp only [step, turn] at hs
    split at hs
    · split_ifs at hs <;> cases hs <;> rfl
    · cases hs
  | planNext =>
    simp only [step, planNext] at hs
    split at hs
    · obtain ⟨system, -, hs⟩ := Option.bind_eq_some_iff.mp hs
      obtain ⟨⟨phase, runnable⟩, -, hs⟩ := Option.bind_eq_some_iff.mp hs
      dsimp only at hs
      split_ifs at hs
      · obtain ⟨runs, -, hs⟩ := Option.bind_eq_some_iff.mp hs
        cases hs
        rfl
      · cases hs
        rfl
    · cases hs
  | admitNext =>
    simp only [step, admitNext] at hs
    split at hs
    · obtain ⟨⟨answer, reservations⟩, -, hs⟩ := Option.bind_eq_some_iff.mp hs
      dsimp only at hs
      split at hs <;> cases hs <;> rfl
    · cases hs
  | preempt =>
    simp only [step, preempt] at hs
    split at hs
    · obtain ⟨reservations, -, hs⟩ := Option.bind_eq_some_iff.mp hs
      cases hs
      rfl
    · cases hs
  | finish id outcome =>
    simp only [step, finish] at hs
    split at hs
    · exact phase_settleRun hs
    · exact phase_settleRun hs
    · exact phase_settleRun hs
    · cases hs
  | endWave | interrupt | endBatch =>
    simp only [step, endWave, interrupt, endBatch] at hs
    split at hs <;> cases hs
    rfl

/-- Every section goes on looking for what is left to plan. -/
theorem heeds_step {a : PhaseStep α} (hw : r.state.world.Coherent) (hl : r.state.world.Unlost)
    (ht : r.loop.Tracked) (h : r.loop.Heeds r.state) (hs : r.step P a = some r') :
    r'.loop.Heeds r'.state := by
  cases a with
  | turn => exact heeds_turn h hs
  | planNext => exact heeds_planNext h hs
  | admitNext => exact heeds_admitNext h ht hs
  | endWave =>
    simp only [step, endWave] at hs
    split at hs
    · rename_i hstage
      cases hs
      unfold PhaseLoop.Heeds at h
      rw [hstage] at h
      obtain ⟨-, -, hseen⟩ := h
      refine ⟨fun hquiet => absurd hquiet Bool.false_ne_true, hseen.symm.imp_left fun hplanned => ?_⟩
      intro system hsystem hphase
      obtain ⟨id, hid⟩ := List.mem_iff_getElem?.mp hsystem
      exact hplanned id system hid List.not_mem_nil hphase
    · cases hs
  | interrupt =>
    simp only [step, interrupt] at hs
    split at hs
    · rename_i hstage
      cases hs
      unfold PhaseLoop.Heeds at h
      rw [hstage] at h
      exact Or.inr h.2
    · cases hs
  | preempt =>
    simp only [step, preempt] at hs
    split at hs
    · obtain ⟨reservations, -, hs⟩ := Option.bind_eq_some_iff.mp hs
      cases hs
      trivial
    · cases hs
  | finish id outcome => exact heeds_finish hw hl h hs
  | endBatch =>
    simp only [step, endBatch] at hs
    split at hs
    · rename_i quiet followup stale hstage
      cases hs
      unfold PhaseLoop.Heeds at h
      rw [hstage] at h
      obtain ⟨hplan, hknown⟩ := h
      show (if quiet = true then r.loop.needsPlan
        else followup || stale || r.loop.deferredConflicts) = true ∨ _ ∨ _
      split_ifs with hquiet
      · exact Or.inl (hplan hquiet)
      · rcases hknown with hquietIn | hfollowup | hstale | hdefers
        · exact Or.inr (Or.inl hquietIn)
        · exact Or.inl (by rw [hfollowup, Bool.true_or, Bool.true_or])
        · exact Or.inl (by rw [hstale, Bool.or_true, Bool.true_or])
        · exact Or.inl (by rw [hdefers, Bool.or_true])
    · cases hs

end Runner

namespace PhaseLoop

structure Homed (l : PhaseLoop α) (systems : List BoxedSystem) : Prop where
  running : ∀ x ∈ l.running, ∀ system, systems[x.2.owner.system]? = some system →
    system.phase = l.phase
  queue : ∀ x ∈ l.queue, x.2.owner.system = x.1 ∧
    ∀ system, systems[x.1]? = some system → system.phase = l.phase

theorem homed_enter (phase : Phase) (registry : Dict TypeId Nat) (systems : List BoxedSystem) :
    (enter phase registry : PhaseLoop α).Homed systems where
  running _ hx := absurd hx List.not_mem_nil
  queue _ hx := absurd hx List.not_mem_nil

end PhaseLoop

/-- A planned run belongs to the system that planned it. -/
theorem Runnable.owner_of_mem_streamRuns {system : SystemId} {w : World α} {memo : MemoTable}
    {hint : Option (List Entity)} : ∀ {s : Runnable} {runs : List PlannedSystemRun},
    s.streamRuns C system w memo hint = some runs → ∀ run ∈ runs, run.owner.system = system
  | .function ps, runs, h, run, hrun => by
    obtain ⟨rows, hrows, rfl⟩ := Option.map_eq_some_iff.mp h
    obtain ⟨row, hrow, rfl⟩ := List.mem_map.mp hrun
    obtain ⟨states, -, hplanned⟩ := exists_states_of_planned hrows
    show row.owner.system = system
    rw [(hplanned row hrow).2.owner]
  | .onStart inner, runs, h, run, hrun => by
    obtain ⟨planned, -, rfl⟩ := Option.map_eq_some_iff.mp h
    rw [(mem_wrapRuns hrun).2.1]
  | .onComplete inner, runs, h, run, hrun => by
    obtain ⟨planned, -, rfl⟩ := Option.map_eq_some_iff.mp h
    rw [(mem_wrapRuns hrun).2.1]
  | .onSettled inner, runs, h, run, hrun => owner_of_mem_streamRuns (s := inner) h run hrun

theorem BoxedSystem.phase_of_ambient {systems systems' : List BoxedSystem} {phase : Phase}
    {id : SystemId} (hambient : systems'.map BoxedSystem.ambient = systems.map BoxedSystem.ambient)
    (h : ∀ system, systems[id]? = some system → system.phase = phase) :
    ∀ system, systems'[id]? = some system → system.phase = phase := by
  intro system hsystem
  have hsame := congrArg (fun xs : List (Phase × List TypeId) => xs[id]?) hambient
  rw [List.getElem?_map, List.getElem?_map, hsystem] at hsame
  obtain ⟨before, hbefore, hphase⟩ := Option.map_eq_some_iff.mp hsame.symm
  exact (congrArg Prod.fst hphase).symm.trans (h before hbefore)

namespace PhaseLoop

variable {l l' : PhaseLoop α} {systems systems' : List BoxedSystem}

theorem Homed.marks (h : l.Homed systems)
    (hambient : systems'.map BoxedSystem.ambient = systems.map BoxedSystem.ambient) :
    l.Homed systems' where
  running x hx := BoxedSystem.phase_of_ambient hambient (h.running x hx)
  queue x hx := ⟨(h.queue x hx).1, BoxedSystem.phase_of_ambient hambient (h.queue x hx).2⟩

theorem Homed.idle (h : l.Homed systems) (hphase : l'.phase = l.phase)
    (hrunning : l'.running ⊆ l.running) (hqueue : l'.queue = []) : l'.Homed systems where
  running x hx := hphase ▸ h.running x (hrunning hx)
  queue _ hx := absurd (hqueue ▸ hx) List.not_mem_nil

end PhaseLoop

namespace Runner

variable {P : Program α} {r r' : Runner α}

theorem homed_settleRun {systems : List BoxedSystem} (h : r.loop.Homed systems) {id : RunId}
    {outcome : RunOutcome α} {replan : Bool} {onwards : CommitProgress → Stage α}
    (hqueue : ∀ progress wave, onwards progress ≠ .planning wave)
    (hs : r.settleRun P id outcome replan onwards = some r') : r'.loop.Homed systems := by
  obtain ⟨⟨_, run⟩, -, hs⟩ := Option.bind_eq_some_iff.mp hs
  dsimp only at hs
  split_ifs at hs
  obtain ⟨⟨memo, state, progress⟩, -, hs⟩ := Option.bind_eq_some_iff.mp hs
  obtain ⟨⟨owner, reservations⟩, -, hs⟩ := Option.bind_eq_some_iff.mp hs
  obtain ⟨owner', -, hs⟩ := Option.bind_eq_some_iff.mp hs
  cases hs
  refine h.idle rfl (List.filter_subset_self _) ?_
  unfold PhaseLoop.queue
  dsimp only
  split
  · exact absurd ‹_› (hqueue _ _)
  · rfl

/-- The loop plans and admits for systems of its phase only. -/
theorem homed_step {a : PhaseStep α} (h : r.loop.Homed r.state.systems)
    (hs : r.step P a = some r') : r'.loop.Homed r'.state.systems := by
  have hambient := (onward_step hs).1.ambient
  have hmarked : r.loop.Homed r'.state.systems := h.marks hambient
  cases a with
  | turn =>
    simp only [step, turn] at hs
    split at hs
    · split_ifs at hs <;> cases hs <;> exact hmarked.idle rfl (List.Subset.refl _) rfl
    · cases hs
  | planNext =>
    simp only [step, planNext] at hs
    split at hs
    · rename_i snapshot id rest hstage
      obtain ⟨system, hsystem, hs⟩ := Option.bind_eq_some_iff.mp hs
      obtain ⟨⟨phase, runnable⟩, -, hs⟩ := Option.bind_eq_some_iff.mp hs
      dsimp only at hs
      split_ifs at hs with hdue
      · obtain ⟨runs, hruns, hs⟩ := Option.bind_eq_some_iff.mp hs
        cases hs
        refine ⟨hmarked.running, fun x hx => ?_⟩
        obtain ⟨run, hrun, rfl⟩ := List.mem_map.mp hx
        refine ⟨Runnable.owner_of_mem_streamRuns hruns run hrun, ?_⟩
        refine BoxedSystem.phase_of_ambient hambient fun system' hsystem' => ?_
        cases hsystem.symm.trans hsystem'
        exact hdue.1
      · cases hs
        exact hmarked.idle rfl (List.Subset.refl _) rfl
    · cases hs
  | admitNext =>
    simp only [step, admitNext] at hs
    split at hs
    · rename_i snapshot systems id run queue hstage
      have hqueue : ∀ x ∈ (id, run) :: queue, x ∈ r.loop.queue := fun x hx => by
        unfold PhaseLoop.queue
        rw [hstage]
        exact hx
      have hrest : ∀ x ∈ queue, x ∈ r.loop.queue := fun x hx =>
        hqueue x (List.mem_cons_of_mem _ hx)
      obtain ⟨⟨answer, reservations⟩, -, hs⟩ := Option.bind_eq_some_iff.mp hs
      dsimp only at hs
      split at hs
      · cases hs
        exact ⟨hmarked.running, fun x hx => hmarked.queue x (hrest x hx)⟩
      · cases hs
        exact ⟨hmarked.running, fun x hx => hmarked.queue x (hrest x hx)⟩
      · cases hs
        refine ⟨fun x hx => ?_, fun x hx => hmarked.queue x (hrest x hx)⟩
        rcases List.mem_append.mp hx with hx | hx
        · exact hmarked.running x hx
        · cases List.mem_singleton.mp hx
          obtain ⟨howner, hphase⟩ := hmarked.queue (id, run) (hqueue _ List.mem_cons_self)
          intro system hsystem
          rw [howner] at hsystem
          exact hphase system hsystem
    · cases hs
  | preempt =>
    simp only [step, preempt] at hs
    split at hs
    · obtain ⟨reservations, -, hs⟩ := Option.bind_eq_some_iff.mp hs
      cases hs
      exact hmarked.idle rfl (List.filter_subset_self _) rfl
    · cases hs
  | finish id outcome =>
    simp only [step, finish] at hs
    split at hs
    · exact homed_settleRun hmarked (fun _ _ => by simp) hs
    · exact homed_settleRun hmarked (fun _ _ => by simp) hs
    · exact homed_settleRun hmarked (fun _ _ => by simp) hs
    · cases hs
  | endWave | interrupt | endBatch =>
    simp only [step, endWave, interrupt, endBatch] at hs
    split at hs
    · cases hs
      exact hmarked.idle rfl (List.Subset.refl _) rfl
    · cases hs

/-- No store moves, no owner loses anything, and what other phases planned stays planned. -/
structure Mutes (r r' : Runner α) : Prop where
  silent : r.loop.changed = false
  watermarks : ∀ t, r'.state.world.storeWatermark t = r.state.world.storeWatermark t
  unlost : r'.state.world.Unlost
  others : ∀ phase, phase ≠ r.loop.phase → r.state.QuietIn phase → r'.state.QuietIn phase

theorem mutes_of_same (hl : r.state.world.Unlost) (hchanged : r.loop.changed = false)
    (hstate : r'.state = r.state) : Mutes r r' := by
  refine ⟨hchanged, fun t => by rw [hstate], hstate ▸ hl, fun phase _ hquiet => ?_⟩
  rw [hstate]
  exact hquiet

/-- Marking a system of the phase disturbs no other phase. -/
theorem mutes_of_modify {id : SystemId} {f : BoxedSystem → BoxedSystem}
    (hl : r.state.world.Unlost) (hchanged : r.loop.changed = false)
    (hid : ∀ system, r.state.systems[id]? = some system → system.phase = r.loop.phase)
    (hf : ∀ system, (f system).phase = system.phase)
    (hstate : r'.state = { r.state with systems := r.state.systems.modify id f }) :
    Mutes r r' := by
  refine ⟨hchanged, fun t => by rw [hstate], ?_, fun phase hne hquiet => ?_⟩
  · rw [hstate]
    exact hl
  · rw [hstate]
    refine hquiet.modify (fun system hsystem hphase => hne ?_) hf
    rw [← hphase, hid system hsystem]

theorem mutes_settleRun {id : RunId} {outcome : RunOutcome α} {replan : Bool}
    {onwards : CommitProgress → Stage α} (hw : r.state.world.Coherent)
    (hl : r.state.world.Unlost) (ht : r.loop.Tracked) (hhomed : r.loop.Homed r.state.systems)
    (hs : r.settleRun P id outcome replan onwards = some r') (hmute : r'.loop.changed = false) :
    Mutes r r' := by
  obtain ⟨⟨_, run⟩, -, hs⟩ := Option.bind_eq_some_iff.mp hs
  dsimp only at hs
  split_ifs at hs
  obtain ⟨⟨memo, state, progress⟩, hcommit, hs⟩ := Option.bind_eq_some_iff.mp hs
  obtain ⟨⟨owner, reservations⟩, hremove, hs⟩ := Option.bind_eq_some_iff.mp hs
  obtain ⟨owner', howner, hs⟩ := Option.bind_eq_some_iff.mp hs
  cases hs
  obtain ⟨hchanged, hheard⟩ := Bool.or_eq_false_iff.mp hmute
  obtain ⟨hsystems, hmarks, hunlost⟩ := commit_mute hw hl hcommit hheard
  -- the record that is removed is that of a run in flight
  have hflight : ∃ run', (id, run') ∈ r.loop.running ∧ owner' = run'.owner := by
    obtain ⟨ledger, hledger, hheld⟩ := ht.held
    obtain ⟨reservations', hr', -⟩ := hledger.remove id
    cases hremove.symm.trans hr'
    obtain ⟨x, hx, rfl⟩ := Option.map_eq_some_iff.mp howner
    obtain ⟨run', hrun', rfl⟩ := (hheld id x).mp hx
    exact ⟨run', hrun', rfl⟩
  obtain ⟨run', hrun', rfl⟩ := hflight
  dsimp only
  split_ifs
  · refine ⟨hchanged, hmarks, hunlost, fun phase hne hquiet => ?_⟩
    have hcommitted : state.QuietIn phase := hquiet.congr hsystems hmarks
    refine hcommitted.modify (fun system hsystem hphase => hne ?_) fun system => ?_
    · rw [hsystems] at hsystem
      rw [← hphase, hhomed.running _ hrun' system hsystem]
    · exact congrArg Prod.fst (BoxedSystem.ambient_forceReplan run'.owner.keys system)
  · exact ⟨hchanged, hmarks, hunlost, fun phase _ hquiet => hquiet.congr hsystems hmarks⟩

/-- A section that reports no change is heard by nobody. -/
theorem mutes_step {a : PhaseStep α} (hw : r.state.world.Coherent) (hl : r.state.world.Unlost)
    (ht : r.loop.Tracked) (hhomed : r.loop.Homed r.state.systems) (hs : r.step P a = some r')
    (hmute : r'.loop.changed = false) : Mutes r r' := by
  cases a with
  | turn =>
    simp only [step, turn] at hs
    split at hs
    · split_ifs at hs <;> cases hs <;> exact mutes_of_same hl hmute rfl
    · cases hs
  | planNext =>
    simp only [step, planNext] at hs
    split at hs
    · obtain ⟨system, hsystem, hs⟩ := Option.bind_eq_some_iff.mp hs
      obtain ⟨⟨phase, runnable⟩, -, hs⟩ := Option.bind_eq_some_iff.mp hs
      dsimp only at hs
      split_ifs at hs with hdue
      · obtain ⟨runs, -, hs⟩ := Option.bind_eq_some_iff.mp hs
        cases hs
        refine mutes_of_modify hl hmute (fun system' hsystem' => ?_) (fun system' => ?_) rfl
        · cases hsystem.symm.trans hsystem'
          exact hdue.1
        · exact congrArg Prod.fst (BoxedSystem.ambient_afterPlan _ system')
      · cases hs
        exact mutes_of_same hl hmute rfl
    · cases hs
  | admitNext =>
    simp only [step, admitNext] at hs
    split at hs
    · rename_i snapshot systems id run queue hstage
      obtain ⟨⟨answer, reservations⟩, -, hs⟩ := Option.bind_eq_some_iff.mp hs
      dsimp only at hs
      split at hs
      · cases hs
        exact mutes_of_same hl hmute rfl
      · cases hs
        refine mutes_of_modify hl hmute (hhomed.queue (id, run) ?_).2 (fun system => ?_) rfl
        · unfold PhaseLoop.queue
          rw [hstage]
          exact List.mem_cons_self
        · exact congrArg Prod.fst (BoxedSystem.ambient_forceReplan _ system)
      · cases hs
        exact mutes_of_same hl hmute rfl
    · cases hs
  | preempt =>
    simp only [step, preempt] at hs
    split at hs
    · obtain ⟨reservations, -, hs⟩ := Option.bind_eq_some_iff.mp hs
      cases hs
      exact mutes_of_same hl hmute rfl
    · cases hs
  | finish id outcome =>
    simp only [step, finish] at hs
    split at hs
    · exact mutes_settleRun hw hl ht hhomed hs hmute
    · exact mutes_settleRun hw hl ht hhomed hs hmute
    · exact mutes_settleRun hw hl ht hhomed hs hmute
    · cases hs
  | endWave | interrupt | endBatch =>
    simp only [step, endWave, interrupt, endBatch] at hs
    split at hs
    · cases hs
      exact mutes_of_same hl hmute rfl
    · cases hs

end Runner

/-- Nothing that was buffered writes a maintained inverse by hand. -/
structure RunOutcome.Tends (C : Components α) (outcome : RunOutcome α) : Prop where
  starts : ∀ commands ∈ outcome.starts, ∀ c ∈ commands, c.Tends C
  rows : ∀ commands ∈ outcome.rows, ∀ c ∈ commands, c.Tends C
  completes : ∀ commands ∈ outcome.completes, ∀ c ∈ commands, c.Tends C

theorem RunOutcome.Tends.finish {outcome : RunOutcome α} (h : outcome.Tends C)
    (run : PlannedSystemRun) :
    ∀ output ∈ (run.finish outcome).outputs, ∀ c ∈ output.commands, c.Tends C := by
  intro output houtput
  rcases List.mem_append.mp houtput with hbefore | hcomplete
  · rcases List.mem_append.mp hbefore with hstart | hrow
    · obtain ⟨commands, hcommands, rfl⟩ := List.mem_map.mp hstart
      exact h.starts commands hcommands
    · rw [← List.map_uncurry_zip_eq_zipWith] at hrow
      obtain ⟨⟨row, commands⟩, hpair, rfl⟩ := List.mem_map.mp hrow
      exact h.rows commands (List.of_mem_zip hpair).2
  · obtain ⟨commands, hcommands, rfl⟩ := List.mem_map.mp hcomplete
    exact h.completes commands hcommands

namespace Runner

variable {P : Program α} {r r' : Runner α}

/-- Where the engine owns its inverses, no section leaves a loser. -/
theorem tended_step {a : PhaseStep α} (ht : r.state.world.Tended P.components)
    (hl : r.state.world.Unlost)
    (ha : ∀ id outcome, a = .finish id outcome → outcome.Tends P.components)
    (hs : r.step P a = some r') :
    r'.state.world.Tended P.components ∧ r'.state.world.Unlost := by
  cases works_step hs with
  | marks hstate =>
    rw [hstate]
    exact ⟨ht, hl⟩
  | @commits id entry outcome s progress systems hfind hcommit hstate =>
    rw [hstate]
    have hcommitted := commit_tended ht hl ((ha id outcome rfl).finish entry.2) hcommit
    exact hcommitted

end Runner
end Porridge
