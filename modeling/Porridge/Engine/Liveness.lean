import Porridge.Engine.Support

/-! Output liveness: what memoized invocations emitted is still there. -/
namespace Porridge

variable {α : Type} {C : Components α}

open World

section Start

variable {memo : MemoTable} {emissions : List Emission}

theorem sameOwnership_compactPlanLog (s : State α) :
    SameOwnership s.world (compactPlanLog s).world ∧ s.world.Grows (compactPlanLog s).world ∧
      (compactPlanLog s).memo = s.memo := by
  unfold compactPlanLog maybeRollPlanEpoch
  split_ifs
  · exact ⟨⟨fun _ _ => rfl, rfl⟩, Grows.of_eq rfl rfl rfl, rfl⟩
  · exact ⟨⟨fun _ _ => rfl, rfl⟩, Grows.of_eq rfl rfl rfl, rfl⟩

theorem Supported.commands {w w' : World α} (h : Supported C memo w emissions)
    {o : SystemInvocation} {commands : List (Command α)}
    (hc : w.applyCommands C o commands = some w') :
    Supported C memo w' (w.noteCommands C o commands emissions) :=
  ⟨h.indexed.apply (show w.apply C (.commands o commands) = some w' from hc), h.live.commands hc⟩

theorem Supported.base {w w' : World α} (h : Supported C memo w emissions)
    {c : BaseCommand α} (hc : c.apply C w = some w') :
    Supported C memo w' (w.noteBaseCommand C c emissions) :=
  ⟨h.indexed.apply (show w.apply C (.base c) = some w' from hc), h.live.baseCommand hc⟩

theorem Supported.flush {w w' : World α} (h : Supported C memo w emissions)
    (hf : w.flushDerivedFrom C = some w') : Supported C memo w' (w.noteFlush C emissions) :=
  ⟨h.indexed.apply (show w.apply C .flush = some w' from hf), h.live.flush hf⟩

/-- Applying the inputs of a generation keeps the table supported. -/
theorem Supported.applyInputs {s applied : State α} (h : Supported C s.memo s.world emissions)
    (ha : Porridge.applyInputs C s = some applied) {noted : List Emission}
    (hn : Engine.noteInputs C s emissions = some noted) :
    Supported C applied.memo applied.world noted := by
  obtain ⟨hsame, hgrows, hmemo⟩ := sameOwnership_compactPlanLog s
  have hcompact := h.same hgrows hsame
  simp only [Porridge.applyInputs, Option.bind_eq_bind, Option.bind_eq_some_iff,
    Option.pure_def, Option.some.injEq] at ha
  obtain ⟨settled, hsettled, based, hbased, flushed, hflushed, rfl⟩ := ha
  simp only [Engine.noteInputs, hsettled, hbased, Option.bind_eq_bind, Option.bind_some,
    Option.pure_def, Option.some.injEq] at hn
  subst hn
  rw [← hmemo] at hcompact
  have hsettle : Supported C (compactPlanLog s).memo settled (List.history _
      (fun w output => w.noteCommands C output.owner output.commands)
      (compactPlanLog s).deferredSettle (compactPlanLog s).world emissions) :=
    List.history_induction (Supported C (compactPlanLog s).memo) _ hsettled hcompact
      fun _ _ _ _ _ hw hstep => hw.commands hstep
  have hbase : Supported C (compactPlanLog s).memo based (List.history _
      (fun w c => w.noteBaseCommand C c) (compactPlanLog s).pendingInputs settled _) :=
    List.history_induction (Supported C (compactPlanLog s).memo) _ hbased hsettle
      fun _ _ _ _ _ hw hstep => hw.base hstep
  exact hbase.flush hflushed

theorem Supported.reconcileInputs {s : State α} (h : Supported C s.memo s.world emissions) :
    Supported C (Porridge.reconcileInputs C s).memo (Porridge.reconcileInputs C s).world
      emissions := by
  have hdrained : Supported C (reconcileInputLosers s).memo s.world.drainRemovals emissions :=
    h.drain fun o ho => by
      obtain ⟨hmemo, hnot⟩ := mem_reconcileRemovedOutputOwners.mp ho
      exact ⟨hmemo, fun howner => hnot ⟨howner, rfl⟩⟩
  exact hdrained.reconcileRemovedInvocations _ _ _ _

theorem Supported.startEvaluation {s : State α} {started : Started α}
    (h : Supported C s.memo s.world emissions)
    (hs : Porridge.startEvaluation C s = some (some started)) {noted : List Emission}
    (hn : Engine.noteInputs C { s with pendingGeneration := none } emissions = some noted) :
    Supported C started.memo started.state.world noted := by
  unfold Porridge.startEvaluation at hs
  split at hs
  · cases hs
  · obtain ⟨applied, ha, hlaunch⟩ := Option.bind_eq_some_iff.mp hs
    cases hlaunch
    exact (Supported.applyInputs (s := { s with pendingGeneration := none }) h ha hn).reconcileInputs

end Start

section Cleanup

variable {memo : MemoTable} {w : World α} {emissions : List Emission}

theorem Supported.takeBundle (e : Entity) :
    ∀ (parts : List (TypeId × Bool)) {w : World α}, Supported C memo w emissions →
      Supported C memo (w.takeBundle C e parts) emissions
  | [], _, h => h
  | (t, required) :: parts, w, h => by
    have htaken : Supported C memo (w.removeComponent C t e none) emissions :=
      h.base (c := .removeComponent t e) rfl
    unfold World.takeBundle
    dsimp only
    split_ifs
    · exact htaken
    · exact Supported.takeBundle e parts htaken

/-- Removing an entity takes pairs only from the owners it reports. -/
theorem live_removeEntity {promised : SystemInvocation → Prop}
    (h : w.Live C promised emissions) (e : Entity) :
    (w.removeEntity C e).Live C (fun o => promised o ∧ o ∉ w.ownersOn e) emissions := by
  let P : Permits := { maintains C with purges := fun e' => e' = e }
  have hclosed := closed_keeps C P fun _ _ edge hr => ⟨⟨edge, hr⟩, rfl⟩
  have hkeeps : Keeps C P w (w.removeEntity C e) := hclosed.removeEntity w e rfl
  intro m hm ho hd ht
  rcases h m hm ho.1 hd ht with hheld | hrecorded
  · rcases hkeeps.holds _ _ _ ht hheld with hheld' | hrecorded | hp | hp | hp | ⟨o', ⟨hinverse, -⟩, -⟩
    · exact Or.inl hheld'
    · exact Or.inr hrecorded
    · have hentity : m.entity = e := hp
      have howner : m.owner ∈ w.ownersOn e :=
        (mem_ownersOn w e m.owner).mpr ⟨m.component, hentity ▸ hheld.1⟩
      exact absurd howner ho.2
    · exact hp.elim
    · exact hp.elim
    · exact absurd hinverse ht
  · exact Or.inr (hkeeps.grows.componentOwners.subset hrecorded)

theorem live_removeRoots : ∀ (roots : List Entity) {w : World α}
    {promised : SystemInvocation → Prop}, (w.Indexed fun _ _ => False) →
      w.Live C promised emissions →
        ((w.removeRoots C roots).1.Indexed fun _ _ => False) ∧
          (w.removeRoots C roots).1.Live C
            (fun o => promised o ∧ o ∉ (w.removeRoots C roots).2) emissions
  | [], _, _, hi, hl => ⟨hi, hl.mono fun _ ho => ho.1⟩
  | e :: roots, w, promised, hi, hl => by
    have hindexed : (w.removeEntity C e).Indexed fun _ _ => False :=
      hi.apply (show w.apply C (.base (.despawn e)) = some _ from rfl)
    obtain ⟨hindexed', hlive⟩ := live_removeRoots roots hindexed (live_removeEntity hl e)
    refine ⟨hindexed', hlive.mono fun o ho => ?_⟩
    have hnot : o ∉ w.ownersOn e ∧ o ∉ ((w.removeEntity C e).removeRoots C roots).2 := by
      simpa [World.removeRoots] using ho.2
    exact ⟨⟨ho.1, hnot.1⟩, hnot.2⟩

theorem supported_retireOwners : ∀ (owners : List SystemInvocation) {r : Retirement α},
    (r.world.Indexed fun _ _ => False) →
      r.world.Live C (fun o => o ∈ r.memo ∧ o ∉ owners) emissions →
        let r' := owners.foldl (retireOwner C) r
        Supported C r'.memo r'.world emissions
  | [], _, hi, hl => ⟨hi, hl.mono fun _ ho => ⟨ho, by simp⟩⟩
  | o :: owners, r, hi, hl => by
    have hkeeps := keeps_removeDerivedOwned (C := C) r.world o
    refine supported_retireOwners owners (r := retireOwner C r o) (hi.removeDerivedOwned C o) ?_
    intro m hm ho hd ht
    obtain ⟨hne, hmemo⟩ := AList.mem_erase.mp ho.1
    have hpromised : m.owner ∈ r.memo ∧ m.owner ∉ o :: owners :=
      ⟨hmemo, fun hmem => (List.mem_cons.mp hmem).elim hne ho.2⟩
    rcases hl m hm hpromised hd ht with hheld | hrecorded
    · rcases hkeeps.holds _ _ _ ht hheld with hheld | hrecorded | htaken
      · exact Or.inl hheld
      · exact Or.inr hrecorded
      · exact absurd (List.mem_singleton.mp ((takenBy_sweepsOf ht).mp htaken)) hne
    · exact Or.inr (hkeeps.grows.componentOwners.subset hrecorded)

/-- A bound cleanup drops the memo entry of every owner it takes a pair from. -/
theorem Supported.cleanupBoundEntities {s : State α} (h : Supported C s.memo s.world emissions)
    (entities : List Entity) :
    Supported C (Porridge.cleanupBoundEntities C s entities).memo
      (Porridge.cleanupBoundEntities C s entities).world emissions := by
  have hswept := Supported.rounds (r := ⟨s.world, s.memo, false⟩) h none
    (s.world.derivedOwners.keys.length + 1) [] entities.dedup
  obtain ⟨hindexed, hlive⟩ := live_removeRoots entities.dedup hswept.indexed hswept.live
  exact supported_retireOwners _ hindexed (hlive.mono fun o ho =>
    ⟨ho.1, fun hmem => ho.2 (List.mem_dedup.mpr hmem)⟩)

/-- Cleaning up leaves the ownership index complete, whatever table the state holds. -/
theorem indexed_cleanupBoundEntities (s : State α) (h : s.world.Indexed fun _ _ => False)
    (entities : List Entity) :
    (Porridge.cleanupBoundEntities C s entities).world.Indexed fun _ _ => False := by
  have hempty : Supported C s.memo s.world [] := ⟨h, fun _ hm => nomatch hm⟩
  exact (hempty.cleanupBoundEntities entities).indexed

end Cleanup

theorem State.publishSettledRevision_frame (s : State α) :
    s.publishSettledRevision.world = s.world ∧ s.publishSettledRevision.memo = s.memo := by
  unfold State.publishSettledRevision
  split_ifs <;> exact ⟨rfl, rfl⟩

theorem closeBound_frame (settled : Bool) (s : State α) (entities : List Entity) :
    (closeBound C settled s entities).world = (cleanupBoundEntities C s entities).world ∧
      (closeBound C settled s entities).memo = (cleanupBoundEntities C s entities).memo := by
  unfold closeBound
  dsimp only
  split_ifs
  · exact State.publishSettledRevision_frame _
  · exact ⟨rfl, rfl⟩

namespace Engine

variable (C)

/-- The memo table is supported, wherever it is. -/
def Inv (g : Engine α) : Prop := Supported C g.memo g.state.world g.emissions

/-- The memoized invocations that are not waiting to be invalidated own what they emitted, save
what others disturbed and the inverses the engine maintains. -/
def OutputsStand (g : Engine α) : Prop :=
  ∀ m ∈ g.emissions, m.owner ∈ g.memo → m.owner ∉ g.state.world.removedComponentOwners →
    m.disturbed = false → ¬ C.IsInverse m.component →
      g.state.world.owner? m.component m.entity = some m.owner

/-- What invocations with a current memo entry emitted is present. -/
def OutputsPresent (g : Engine α) : Prop :=
  ∀ m ∈ g.emissions, ∀ entry ∈ g.memo.lookup m.owner, entry.isCurrent g.state.world = true →
    g.state.world.has m.component m.entity = true

instance (g : Engine α) : Decidable g.OutputsPresent :=
  inferInstanceAs (Decidable (∀ m ∈ g.emissions, ∀ entry ∈ g.memo.lookup m.owner, _))

variable {C}

theorem Inv.outputsStand {g : Engine α} (h : Inv C g) : g.OutputsStand C := by
  intro m hm hmemo hnot hd ht
  have hheld := (h.live m hm hmemo hd ht).resolve_right hnot
  exact hheld.1

/-- Whether or not a cleanup reaches the table, what it leaves noted is supported. -/
theorem Inv.closeBound {held : Option MemoTable} {s : State α} {emissions : List Emission}
    (h : Inv C ⟨s, held, emissions⟩) (settled : Bool) (entities : List Entity) :
    let s' := Porridge.closeBound C settled s entities
    Inv C ⟨s', held, noteCleanup held s'.world emissions⟩ := by
  obtain ⟨hworld, hmemo⟩ := closeBound_frame (C := C) settled s entities
  have hindexed := indexed_cleanupBoundEntities (C := C) s h.indexed entities
  rw [← hworld] at hindexed
  cases held with
  | none =>
    have hcleaned := Supported.cleanupBoundEntities (s := s) h entities
    rw [← hworld, ← hmemo] at hcleaned
    exact hcleaned
  | some memo =>
    refine ⟨hindexed, fun m hm _ hd _ => Or.inl ?_⟩
    obtain ⟨-, hhit⟩ := Emission.mem_disturb hm hd
    exact Holds.of_owner hindexed (not_not.mp (of_decide_eq_false hhit))

theorem Inv.takeBound {held : Option MemoTable} {s : State α} {emissions : List Emission}
    (h : Inv C ⟨s, held, emissions⟩) (e : Entity) (parts : List (TypeId × Bool)) :
    let s' := Porridge.takeBound C s e parts
    Inv C ⟨s', held, noteCleanup held s'.world emissions⟩ := by
  have htaken : Inv C ⟨{ s with world := s.world.takeBundle C e parts }, held, emissions⟩ :=
    Supported.takeBundle e parts h
  exact htaken.closeBound s.isSettled [e]

theorem mem_healed {attempts : Dict SystemInvocation Nat} {s : State α}
    {r : Bool × Dict SystemInvocation Nat × State α} (h : healStaleAmbient attempts s = some r) :
    r.2.2.world = s.world ∧ ∀ o, o ∈ r.2.2.memo → o ∈ s.memo := by
  obtain ⟨healed, hfold, rfl⟩ := Option.map_eq_some_iff.mp h
  refine List.foldlM_some_induction
    (fun r : Dict SystemInvocation Nat × State α =>
      r.2.world = s.world ∧ ∀ o, o ∈ r.2.memo → o ∈ s.memo) _ hfold ⟨rfl, fun _ => id⟩ ?_
  rintro r victim r' - ⟨hworld, hmemo⟩ hr
  simp only [healVictim] at hr
  split_ifs at hr
  cases hr
  exact ⟨hworld, fun o ho => hmemo o (AList.mem_erase.mp ho).2⟩

/-- Every critical section keeps the table supported. -/
theorem Inv.step {g g' : Engine α} (h : Inv C g) {op : EngineOp α}
    (hs : g.step C op = some g') : Inv C g' := by
  have hworldOp : ∀ {w : World α}, g.state.world.Grows w → SameOwnership g.state.world w →
      Supported C g.memo w g.emissions := fun hg hsame => h.same hg hsame
  cases op with
  | reserve => cases hs; exact hworldOp (Grows.of_eq rfl rfl rfl) ⟨fun _ _ => rfl, rfl⟩
  | reserveSingleton key =>
    cases hs
    have hg : g.state.world.Grows (g.state.world.singletonEntityOrSpawn key).2 := by
      unfold singletonEntityOrSpawn
      split <;> exact Grows.of_eq rfl rfl rfl
    have hsame : SameOwnership g.state.world (g.state.world.singletonEntityOrSpawn key).2 := by
      unfold singletonEntityOrSpawn
      split <;> exact ⟨fun _ _ => rfl, rfl⟩
    exact hworldOp hg hsame
  | queueInputs commands => cases hs; exact h
  | update t e v =>
    cases hs
    have hmutated := hworldOp (grows_updateComponent C g.state.world t e v)
      (sameOwnership_updateComponent C g.state.world t e v)
    have hframe : (g.state.mutate C t e v).world = g.state.world.updateComponent C t e v ∧
        (g.state.mutate C t e v).memo = g.state.memo := by
      unfold State.mutate
      dsimp only
      split_ifs <;> exact ⟨rfl, rfl⟩
    unfold Inv memo at hmutated ⊢
    rw [hframe.1, hframe.2]
    exact hmutated
  | writeInPlace t e v =>
    cases hs
    exact hworldOp (grows_writeInPlace g.state.world t e v)
      ⟨fun t' e' => owner?_writeInPlace g.state.world t t' e e' v, by simp⟩
  | startEvaluation =>
    simp only [Engine.step] at hs
    split_ifs at hs with hheld
    have hhome : g.held = none := by simpa using hheld
    obtain ⟨started, hstarted, hs⟩ := Option.bind_eq_some_iff.mp hs
    cases started with
    | none => cases hs; exact h
    | some started =>
      obtain ⟨noted, hnoted, hs⟩ := Option.bind_eq_some_iff.mp hs
      cases hs
      rw [Inv, memo, hhome] at h
      exact Supported.startEvaluation h hstarted hnoted
  | completeEvaluation changed =>
    obtain ⟨held, hheld, hs⟩ := Option.bind_eq_some_iff.mp hs
    obtain ⟨generation, -, hs⟩ := Option.bind_eq_some_iff.mp hs
    cases hs
    rw [Inv, memo, hheld] at h
    exact h
  | abandonEvaluation =>
    obtain ⟨held, hheld, hs⟩ := Option.bind_eq_some_iff.mp hs
    obtain ⟨generation, -, hs⟩ := Option.bind_eq_some_iff.mp hs
    cases hs
    rw [Inv, memo, hheld] at h
    exact h
  | takeMemo =>
    simp only [Engine.step] at hs
    split_ifs at hs with hheld
    have hhome : g.held = none := by simpa using hheld
    cases hs
    rw [Inv, memo, hhome] at h
    exact h
  | putMemo =>
    obtain ⟨held, hheld, rfl⟩ := Option.map_eq_some_iff.mp hs
    rw [Inv, memo, hheld] at h
    exact h
  | commit run phase =>
    obtain ⟨held, hheld, hs⟩ := Option.bind_eq_some_iff.mp hs
    split_ifs at hs with hpaired
    obtain ⟨r, hr, hs⟩ := Option.bind_eq_some_iff.mp hs
    cases hs
    rw [Inv, memo, hheld] at h
    exact Supported.commitSystemRun h hpaired hr
  | heal attempts =>
    obtain ⟨healed, hhealed, hs⟩ := Option.bind_eq_some_iff.mp hs
    cases hs
    obtain ⟨hworld, hmemo⟩ := mem_healed hhealed
    have hsupported : Supported C g.memo healed.2.2.world g.emissions := by
      rw [hworld]
      exact h
    refine hsupported.mono fun o ho => ?_
    unfold memo at ho ⊢
    cases hheld : g.held with
    | none =>
      rw [hheld] at ho
      exact hmemo o ho
    | some held =>
      rw [hheld] at ho
      exact ho
  | takeBound e parts => cases hs; exact Inv.takeBound h e parts
  | drainBound entities => cases hs; exact Inv.closeBound h g.state.isSettled entities
  | publishSettledRevision =>
    cases hs
    obtain ⟨hworld, hmemo⟩ := State.publishSettledRevision_frame g.state
    unfold Inv memo at h ⊢
    rw [hworld, hmemo]
    exact h

/-- In every run with one holder of the memo table, what the memoized invocations emitted and
nobody disturbed is present and theirs. -/
theorem reachable_outputsStand {g : Engine α} (hg : Reachable C g) : g.OutputsStand C := by
  refine Inv.outputsStand (Machine.ReachableUnder.invariant hg (Inv C) ?_ ?_)
  · rintro g ⟨systems, hooked, rfl⟩
    refine ⟨?_, fun m hm => nomatch hm⟩
    have hworld : (new systems hooked : Engine α).state.world = World.new :=
      State.build_world systems hooked
    rw [hworld]
    exact World.indexed_over none
  · exact fun _ _ _ h _ hs => h.step hs

section Losses

/-- One invocation's accepted commit, in the evaluate phase. -/
def commitOf (o : SystemInvocation) (commands : List (Command Nat)) : EngineOp Nat :=
  .commit ⟨true, [⟨o, commands⟩], [(o, ⟨[], 0, 0⟩)], []⟩ (some .evaluate)

/-- A generation in which the row keyed [2] writes component 5 of entity 1. -/
def firstCommit : List (EngineOp Nat) :=
  [.startEvaluation, commitOf ⟨0, [2]⟩ [.insert 5 1 (.data 7)]]

def oneSystem : Engine Nat := new [.new .evaluate none false false []] fun _ => false

def firstState : Engine Nat :=
  ((machine (Components.plain Nat)).run oneSystem firstCommit).getD oneSystem

/-- After its commit the row is memoized and owns what it wrote. -/
theorem first_commit_outputsStand :
    firstState.OutputsStand (Components.plain Nat) ∧
      firstState.emissions = [⟨⟨0, [2]⟩, 5, 1, false⟩] ∧ ⟨0, [2]⟩ ∈ firstState.memo := by
  have hrun : (machine (Components.plain Nat)).run oneSystem firstCommit = some firstState :=
    rfl
  exact ⟨reachable_outputsStand (Machine.Reachable.run (.init ⟨_, _, rfl⟩) hrun), by decide, by decide⟩

/-- Another row overwrites the pair and then drops it by emitting nothing. -/
def overwritten : List (EngineOp Nat) :=
  firstCommit ++ [commitOf ⟨0, [3]⟩ [.insert 5 1 (.data 8)], commitOf ⟨0, [3]⟩ []]

/-- Another row removes the entity. -/
def despawned : List (EngineOp Nat) :=
  firstCommit ++ [commitOf ⟨0, [3]⟩ [.removeEntity 1]]

/-- After the generation a caller takes the component from the entity. -/
def taken : List (EngineOp Nat) :=
  firstCommit ++ [.completeEvaluation true, .takeBound 1 [(5, true)]]

/-- The entity the row is keyed by is cleaned up while the generation holds the table. -/
def cleanedUp : List (EngineOp Nat) := firstCommit ++ [.drainBound [2]]

/-- The run ends with an invocation memoized with current deps and an output of it gone. -/
def LosesOutputs (labels : List (EngineOp Nat)) : Prop :=
  ∃ g ∈ (machine (Components.plain Nat)).run oneSystem labels, ¬ g.OutputsPresent

instance (labels : List (EngineOp Nat)) : Decidable (LosesOutputs labels) :=
  inferInstanceAs (Decidable (∃ g ∈ (machine (Components.plain Nat)).run oneSystem labels, _))

theorem runs_lose_outputs :
    LosesOutputs overwritten ∧ LosesOutputs despawned ∧ LosesOutputs taken ∧
      LosesOutputs cleanedUp := by
  decide

end Losses
end Engine
end Porridge
