import Porridge.Execution.Boundary
import Porridge.Execution.Reconciled
import Porridge.PhaseLoop.Quiet

/-! A generation that reports no change leaves nothing to plan, and no phase of it is left while
one of its systems has something to plan. -/
namespace Porridge

variable {α : Type} {C : Components α}

namespace World

/-- Ownership stands, and no owner is recorded as a loser. -/
structure SameHolders (w w' : World α) : Prop where
  owners : ∀ t e, w'.owner? t e = w.owner? t e
  losers : SameLosers w w'
  pending : w'.pendingDerivedFrom = w.pendingDerivedFrom

/-- No store moves either. -/
structure Calm (w w' : World α) : Prop extends SameHolders w w' where
  watermarks : ∀ t, w'.storeWatermark t = w.storeWatermark t

theorem Calm.refl (w : World α) : Calm w w := ⟨⟨fun _ _ => rfl, ⟨rfl, rfl⟩, rfl⟩, fun _ => rfl⟩

theorem Tended.same {w w' : World α} (h : w.Tended C) (hsame : SameHolders w w') :
    w'.Tended C where
  unowned := h.unowned.disowning fun t e _ ho => hsame.owners t e ▸ ho
  held p hp := h.held p (hsame.pending ▸ hp)

theorem calm_writeInPlace (w : World α) (t : TypeId) (e : Entity) (v : Value α) :
    Calm w (w.writeInPlace t e v) := by
  unfold writeInPlace
  split
  · exact .refl w
  · rename_i x hx
    refine ⟨⟨owner?_amendEntry w hx (by rfl) 0, ⟨rfl, rfl⟩, rfl⟩, fun t' => ?_⟩
    rw [storeWatermark_amendEntry]
    split_ifs with ht
    · rw [ht]
      exact max_eq_left (Nat.zero_le _)
    · rfl

theorem sameHolders_updateComponent (w : World α) (t : TypeId) (e : Entity) (v : Value α) :
    SameHolders w (w.updateComponent C t e v) := by
  have hlosers := (audible_restampEntry (C := C) w t e v).2
  have hpending := (sameBuffers_restampEntry (C := C) w t e v).pending
  refine ⟨(sameOwnership_updateComponent C w t e v).1, ?_, ?_⟩
  · unfold updateComponent
    split_ifs
    · exact hlosers
    · exact hlosers
  · unfold updateComponent
    split_ifs
    · exact hpending
    · exact hpending

end World

/-- The section is one of the driver's own, or a mutation in a window of its. -/
def ExecutionStep.serves (p : PartyId) : ExecutionStep α → Bool
  | .enterPhase q | .phase q _ | .leavePhase q => q == p
  | .act (.writeInPlace q ..) | .act (.openWindow q) | .act (.closeWindow q)
  | .act (.advance q) => q == p
  | .act (.mutate ..) => true
  | _ => false

namespace Execution

variable {P : Program α} {x x' : Execution α} {p : PartyId}

/-- The section leaves the driver as it is, and moves no store. -/
structure Elsewhere (p : PartyId) (x x' : Execution α) : Prop where
  pc : x'.drive.protocol.pc p = x.drive.protocol.pc p
  cursor : x'.drive.cursor = x.drive.cursor
  loop : x'.loop = x.loop
  systems : x'.drive.protocol.state.systems = x.drive.protocol.state.systems
  calm : World.Calm x.world x'.world

/-- The section leaves the generation to its driver. -/
def LeavesTo (P : Program α) (p : PartyId) (x : Execution α) (a : ExecutionStep α) : Prop :=
  (a.serves p = true ∧ (x.drive.protocol.pc p).drives = true) ∨
    ∀ x', step P x a = some x' → x.Elsewhere p x'

/-- What a section that leaves the generation to its driver does. -/
inductive Serves (P : Program α) (p : PartyId) (x : Execution α) :
    ExecutionStep α → Execution α → Prop where
  | entered {c : Cursor} {phase : Phase} (hcursor : x.drive.cursor = some c)
      (hphase : c.phases[c.index]? = some phase) (hnone : x.loop = none) :
      Serves P p x (.enterPhase p) { x with loop := some (.enter phase P.componentRegistry) }
  | skipped {c : Cursor} {phase : Phase} (hcursor : x.drive.cursor = some c)
      (hphase : c.phases[c.index]? = some phase) (hnone : x.loop = none)
      (hidle : ∀ system ∈ x.drive.protocol.state.systems, system.phase ≠ phase) :
      Serves P p x (.enterPhase p) { x with drive := x.nextPhase }
  | looped {b : PhaseStep α} {generation : Nat} {memo : MemoTable} {changed : Bool} {target : Nat}
      {waiter : Waiter} {l : PhaseLoop α} {r' : Runner α} {x' : Execution α}
      (hpc : x.drive.protocol.pc p = .driving generation memo changed target waiter)
      (hl : x.loop = some l) (hr : Runner.step P ⟨x.drive.protocol.state, memo, l⟩ b = some r')
      (hstate : x'.drive.protocol.state = r'.state)
      (hpc' : x'.drive.protocol.pc p =
        .driving generation r'.memo (changed || r'.loop.changed) target waiter)
      (hcursor : x'.drive.cursor = x.drive.cursor) (hl' : x'.loop = some r'.loop) :
      Serves P p x (.phase p b) x'
  | left {l : PhaseLoop α} (hl : x.loop = some l) (hcompleted : l.completed = true) :
      Serves P p x (.leavePhase p) { x with drive := x.nextPhase, loop := none }
  | opened {x' : Execution α} (hdrives : (x.drive.protocol.pc p).drives = true) (hcursor : x'.drive.cursor =
        x.drive.cursor.map fun c => { c with paused := true }) (hloop : x'.loop = none)
      (hpc : x'.drive.protocol.pc p = x.drive.protocol.pc p)
      (hworld : x'.world = x.world) : Serves P p x (.act (.openWindow p)) x'
  | closed {x' : Execution α} (hdrives : (x.drive.protocol.pc p).drives = true)
      (hnone : x.loop = none)
      (hcursor : x'.drive.cursor = x.drive.cursor.map Cursor.restart) (hloop : x'.loop = none)
      (hpc : x'.drive.protocol.pc p = x.drive.protocol.pc p)
      (hworld : x'.world = x.world) : Serves P p x (.act (.closeWindow p)) x'
  | mutated {t : TypeId} {e : Entity} {v : Value α} {x' : Execution α}
      (hdrives : (x.drive.protocol.pc p).drives = true)
      (hpaused : ∀ c ∈ x.drive.cursor, c.paused = true) (hnone : x.loop = none)
      (hcursor : x'.drive.cursor = x.drive.cursor) (hloop : x'.loop = none)
      (hpc : x'.drive.protocol.pc p = x.drive.protocol.pc p)
      (hworld : World.SameHolders x.world x'.world) : Serves P p x (.act (.mutate t e v)) x'
  | finished {c : Cursor} {generation : Nat} {memo : MemoTable} {changed : Bool} {target : Nat}
      {waiter : Waiter} {x' : Execution α}
      (hpc : x.drive.protocol.pc p = .driving generation memo changed target waiter)
      (hcursor : x.drive.cursor = some c) (hpaused : c.paused = false)
      (hdone : c.phases.length ≤ c.index)
      (hpc' : x'.drive.protocol.pc p = .completing generation memo changed target waiter)
      (hloop : x'.loop = none)
      (hstate : x'.drive.protocol.state = x.drive.protocol.state) :
      Serves P p x (.act (.advance p)) x'
  | elsewhere {a : ExecutionStep α} {x' : Execution α} (h : x.Elsewhere p x') : Serves P p x a x'

/-- The driver's loop is that of its cursor. -/
theorem cursor_of_drives (h : x.Bounded) {c : Cursor} (hc : x.drive.cursor = some c)
    (hp : (x.drive.protocol.pc p).drives = true) : c.party = p := by
  have hholds := h.exclusive.runner p (Pc.holdsRunner_of_inGeneration (Pc.inGeneration_of_drives hp))
  have hparty := h.driver c hc
  have hholds' := h.exclusive.runner c.party
    (Pc.holdsRunner_of_inGeneration (Pc.inGeneration_of_drives hparty))
  exact Option.some.inj (hholds'.symm.trans hholds)

theorem Bounded.paused_of_boundary (h : x.Bounded)
    (hb : x.drive.protocol.state.atBoundary = true) : ∀ c ∈ x.drive.cursor, c.paused = true := by
  intro c hc
  by_contra hpaused
  have hrunning := h.exclusive.running c.party
    (Pc.inGeneration_of_drives (h.driver c hc))
  have hwindow := h.window c hc (Bool.eq_false_of_not_eq_true hpaused)
  simp only [State.atBoundary, hwindow, Bool.or_false, Option.isNone_iff_eq_none] at hb
  rw [hb] at hrunning
  cases hrunning

/-- A write in place is shown to readers only. -/
theorem pc_showWrite_of_drives {q : Protocol α} (hp : (q.pc p).drives = true) (t : TypeId)
    (e : Entity) (v : Value α) : (q.showWrite t e v).pc p = q.pc p := by
  rw [Protocol.pc_showWrite]
  cases q.state.world.cell? t e with
  | none => rfl
  | some x =>
    cases hpc : q.pc p with
    | driving _ _ _ _ _ => rfl
    | _ =>
      rw [hpc] at hp
      cases hp

theorem permits_of_step {a : Action α} (hs : step P x (.act a) = some x') : x.drive.Permits a := by
  simp only [step] at hs
  split_ifs at hs
  obtain ⟨drive, hdriven, -⟩ := Option.map_eq_some_iff.mp hs
  simp only [Drive.step] at hdriven
  split_ifs at hdriven with hpermitted
  exact hpermitted

/-- A section that leaves the generation to its driver is one of these. -/
theorem serves_of_step (h : x.Bounded) {a : ExecutionStep α} (ha : LeavesTo P p x a)
    (hs : step P x a = some x') : Serves P p x a x' := by
  obtain ⟨hserves, hp⟩ | helse := ha
  swap
  · exact .elsewhere (helse x' hs)
  have hparty := fun c hc => cursor_of_drives (c := c) h hc hp
  cases a with
  | enterPhase q =>
    have heq : q = p := eq_of_beq hserves
    subst heq
    simp only [step] at hs
    split at hs
    · rename_i phase hphase hnone
      obtain ⟨c, hc, hrun⟩ := Option.bind_eq_some_iff.mp hphase
      unfold Cursor.phase? at hrun
      split_ifs at hrun
      split_ifs at hs with hany
      · cases hs
        exact .entered hc hrun hnone
      · obtain ⟨drive, hdriven, rfl⟩ := Option.map_eq_some_iff.mp hs
        simp only [Drive.step] at hdriven
        split_ifs at hdriven
        cases hdriven
        refine .skipped hc hrun hnone fun system hsystem heq => hany ?_
        exact List.any_eq_true.mpr ⟨system, hsystem, decide_eq_true heq⟩
    · cases hs
  | phase q b =>
    have heq : q = p := eq_of_beq hserves
    subst heq
    cases step_cases hs with
    | phase hpc hl hr =>
      refine .looped hpc hl hr rfl ?_ rfl rfl
      show (Protocol.goto _ q _).pc q = _
      rw [Protocol.pc_goto, if_pos rfl]
  | leavePhase q =>
    have heq : q = p := eq_of_beq hserves
    subst heq
    cases step_cases hs with
    | leavePhase hl hcompleted => exact .left hl hcompleted
  | startSettle q => cases hserves
  | finishSettle q index outcome => cases hserves
  | act b =>
    have hpermitted := permits_of_step hs
    obtain @⟨_, q₁, hpermits, hact⟩ := step_cases hs
    obtain ⟨hstate, hpcs, -, -⟩ := Protocol.rest_frame q₁
    have hworld : q₁.rest.state.world = q₁.state.world := congrArg State.world hstate
    have hsystems : q₁.rest.state.systems = q₁.state.systems := congrArg State.systems hstate
    cases b with
    | openWindow q =>
      have heq : q = p := eq_of_beq hserves
      subst heq
      simp only [Protocol.act] at hact
      split at hact
      · cases hact
        exact .opened hp rfl rfl (hpcs q) hworld
      · cases hact
    | closeWindow q =>
      have heq : q = p := eq_of_beq hserves
      subst heq
      have hnone : x.loop = none := by
        obtain ⟨c, hc, -, hpaused⟩ := hpermitted
        cases hloop : x.loop with
        | none => rfl
        | some l =>
          obtain ⟨c', hc', hrunning⟩ := h.looping (by rw [hloop]; rfl)
          cases Option.some.inj (hc.symm.trans hc')
          rw [hpaused] at hrunning
          cases hrunning
      simp only [Protocol.act] at hact
      split at hact
      · cases hact
        exact .closed hp hnone rfl hnone (hpcs q) hworld
      · cases hact
    | writeInPlace q t e v =>
      have heq : q = p := eq_of_beq hserves
      subst heq
      have hpc : (x.drive.protocol.showWrite t e v).pc q = x.drive.protocol.pc q :=
        pc_showWrite_of_drives hp t e v
      simp only [Protocol.act] at hact
      split_ifs at hact
      cases hact
      exact .elsewhere ⟨(hpcs q).trans hpc, rfl, rfl, hsystems,
        (congrArg (World.Calm x.world) hworld).mpr (World.calm_writeInPlace x.world t e v)⟩
    | mutate t e v =>
      obtain ⟨s, hboundary, hact⟩ := Option.bind_eq_some_iff.mp hact
      have hpc : (x.drive.protocol.showWrite t e v).pc p = x.drive.protocol.pc p :=
        pc_showWrite_of_drives hp t e v
      obtain ⟨restart, rfl⟩ := State.reachBoundary_eq hboundary
      cases hact
      have hnone := h.loop_of_boundary (atBoundary_of_reachBoundary hboundary)
      have hpaused := h.paused_of_boundary (atBoundary_of_reachBoundary hboundary)
      refine .mutated hp hpaused hnone rfl hnone ((hpcs p).trans hpc) ?_
      refine (congrArg (World.SameHolders x.world) hworld).mpr ?_
      have hmutated : ∀ s : State α, (s.mutate P.components t e v).world =
          s.world.updateComponent P.components t e v := fun s => by
        unfold State.mutate
        dsimp only
        split_ifs <;> rfl
      refine (congrArg (World.SameHolders x.world) (hmutated _)).mpr ?_
      exact World.sameHolders_updateComponent x.world t e v
    | advance q =>
      have heq : q = p := eq_of_beq hserves
      subst heq
      obtain ⟨c, hc, hcparty, hpaused, hdone⟩ := hpermitted hp
      cases hpc : x.drive.protocol.pc q with
      | driving generation memo changed target waiter =>
        have hnone : x.loop = none := by
          simp only [permits, hpc] at hpermits
          exact Option.isNone_iff_eq_none.mp hpermits
        simp only [Protocol.act, Protocol.advance, hpc] at hact
        cases hact
        refine .finished hpc hc hpaused hdone ((hpcs q).trans ?_) hnone hstate
        rw [Protocol.pc_goto, if_pos rfl]
      | _ =>
        rw [hpc] at hp
        cases hp
    | _ => cases hserves

end Execution

section Start

variable {s : State α}

/-- The engine owns the inverses, and what `Settle` systems deferred leaves them alone. -/
structure State.Tended (C : Components α) (s : State α) : Prop where
  world : s.world.Tended C
  deferred : ∀ output ∈ s.deferredSettle, ∀ c ∈ output.commands, c.Tends C

theorem tended_applyInputs {s' : State α} (h : s.Tended C) (hs : applyInputs C s = some s') :
    s'.world.Tended C := by
  have hcompacted : (compactPlanLog s).Tended C := by
    have hrolled : s.world.maybeRollPlanEpoch.2.Tended C := by
      unfold World.maybeRollPlanEpoch
      split_ifs
      · exact h.world
      · exact ⟨h.world.unowned, h.world.held⟩
    unfold compactPlanLog
    split
    · exact h
    · rename_i heq
      rw [heq] at hrolled
      exact ⟨hrolled, h.deferred⟩
  obtain ⟨settled, hsettled, hs⟩ := Option.bind_eq_some_iff.mp hs
  obtain ⟨applied, happlied, hs⟩ := Option.bind_eq_some_iff.mp hs
  obtain ⟨flushed, hflushed, hs⟩ := Option.bind_eq_some_iff.mp hs
  cases hs
  have hsettle : settled.Tended C :=
    List.foldlM_some_induction (World.Tended C) _ hsettled hcompacted.world
      fun _ output _ hmem hu hstep => hu.applyCommands (hcompacted.deferred output hmem) hstep
  have happly : applied.Tended C := List.foldlM_some_induction (World.Tended C) _ happlied hsettle
    fun _ _ _ _ hu hstep => hu.baseCommand hstep
  exact happly.flushDerivedFrom hflushed

/-- A generation starts with no loser to treat. -/
theorem tended_startEvaluation {started : Started α} (h : s.Tended C)
    (hs : startEvaluation C s = some (some started)) :
    started.state.world.Tended C ∧ started.state.world.Unlost := by
  unfold startEvaluation at hs
  split at hs
  · cases hs
  · rename_i generation hpending
    obtain ⟨applied, happlied, hs⟩ := Option.bind_eq_some_iff.mp hs
    cases hs
    have hworld := tended_applyInputs (s := { s with pendingGeneration := none })
      ⟨h.world, h.deferred⟩ happlied
    have hdrained : applied.world.drainRemovals.Tended C := ⟨hworld.unowned, hworld.held⟩
    exact World.Tended.retireCascade _ _ _ hdrained ⟨rfl, rfl⟩

end Start

namespace Execution

variable {P : Program α} {x x' : Execution α} {p : PartyId}

theorem tracked_of_reachable (h : Reachable P x) : x.Tracked := by
  refine h.invariant Tracked ?_ fun x a x' hx _ hs => tracked_step hx hs
  rintro x rfl
  exact tracked_new

theorem coherent_of_reachable (h : Reachable P x) : x.world.Coherent := by
  refine h.invariant (fun x => x.world.Coherent) ?_ fun x a x' hx _ hs => (later_step hs).coherent hx
  rintro x rfl
  have hworld : (new P).world = .ofSchema P.schema := congrArg State.world (Protocol.rest_frame _).1
  rw [hworld]
  exact World.coherent_ofSchema P.schema

/-- The caller has just started a generation. -/
def Launched (P : Program α) (p : PartyId) (x : Execution α) : Prop :=
  ∃ (before : Execution α) (target : Nat) (waiter : Waiter), Reachable P before ∧
    before.drive.protocol.state.Tended P.components ∧
      before.drive.protocol.pc p = .starting target waiter ∧
        step P before (.act (.advance p)) = some x ∧ (x.drive.protocol.pc p).drives = true

def generation (P : Program α) (p : PartyId) : Machine (Execution α) (ExecutionStep α) where
  init := Launched P p
  step := step P

/-- A generation starts at the head of its phases, with no loser to treat. -/
structure Fresh (P : Program α) (p : PartyId) (x : Execution α) : Prop where
  reachable : Reachable P x
  cursor : ∃ startup, x.drive.cursor = some (.start p startup)
  loop : x.loop = none
  drives : (x.drive.protocol.pc p).drives = true
  tended : x.world.Tended P.components
  unlost : x.world.Unlost

theorem Launched.fresh (h : Launched P p x) : Fresh P p x := by
  obtain ⟨before, target, waiter, hreached, htended, hpc, hs, hdrives⟩ := h
  have hbounded := bounded_of_reachable hreached
  have hidle : (before.drive.protocol.pc p).drives = false := by
    rw [hpc]
    rfl
  have hnone : before.loop = none := by
    cases hloop : before.loop with
    | none => rfl
    | some l =>
      obtain ⟨c, hc, -⟩ := hbounded.looping (by rw [hloop]; rfl)
      have hparty := hbounded.driver c hc
      have hholds := hbounded.exclusive.runner c.party
        (Pc.holdsRunner_of_inGeneration (Pc.inGeneration_of_drives hparty))
      have hholds' := hbounded.exclusive.runner p (by rw [hpc]; rfl)
      cases Option.some.inj (hholds.symm.trans hholds')
      rw [hidle] at hparty
      cases hparty
  have hstep : (machine P).step before (.act (.advance p)) = some x := hs
  have hafter : Reachable P x := hreached.step trivial hstep
  obtain @⟨_, q₁, hpermits, hact⟩ := step_cases hs
  obtain ⟨hstate, hpcs, -, -⟩ := Protocol.rest_frame q₁
  have hdrives' : (q₁.rest.pc p).drives = true := hdrives
  have hcursor : before.drive.cursorAfter q₁.rest (.advance p) = some (.start p
      (!before.drive.protocol.state.startupRan || before.drive.protocol.state.preemptRestart)) := by
    unfold Drive.cursorAfter
    dsimp only
    rw [if_neg (by rw [hidle]; exact Bool.false_ne_true), if_pos hdrives']
  have hstarted : q₁.state.world.Tended P.components ∧ q₁.state.world.Unlost := by
    simp only [Protocol.act, Protocol.advance, hpc] at hact
    obtain ⟨answer, hanswer, hact⟩ := Option.bind_eq_some_iff.mp hact
    cases answer with
    | none =>
      cases hact
      rw [hpcs, Protocol.pc_goto, if_pos rfl] at hdrives'
      cases hdrives'
    | some started =>
      cases hact
      exact tended_startEvaluation htended hanswer
  have hworld : q₁.rest.state.world = q₁.state.world := congrArg State.world hstate
  rw [← hworld] at hstarted
  exact ⟨hafter, ⟨_, hcursor⟩, hnone, hdrives, hstarted.1, hstarted.2⟩

/-- No phase is left while one of its systems has something to plan. -/
structure Converging (P : Program α) (x : Execution α) : Prop where
  reachable : Reachable P x
  tended : x.world.Tended P.components
  unlost : x.world.Unlost
  loop : ∀ l ∈ x.loop, l.Heeds x.drive.protocol.state

theorem Converging.step (h : Converging P x) {a : ExecutionStep α} (ha : LeavesTo P p x a)
    (htends : ∀ id outcome, a = .phase p (.finish id outcome) → outcome.Tends P.components)
    (hs : Execution.step P x a = some x') : Converging P x' := by
  have hstep : (machine P).step x a = some x' := hs
  have hafter : Reachable P x' := h.reachable.step trivial hstep
  have htracked := tracked_of_reachable h.reachable
  have hcoherent := coherent_of_reachable h.reachable
  cases serves_of_step (bounded_of_reachable h.reachable) ha hs with
  | @entered c phase hcursor hphase hnone =>
    refine ⟨hafter, h.tended, h.unlost, fun l hl => ?_⟩
    cases hl
    exact PhaseLoop.heeds_enter phase P.componentRegistry _
  | skipped hcursor hphase hnone hidle => exact ⟨hafter, h.tended, h.unlost, h.loop⟩
  | @looped b generation memo changed target waiter l r' _ hpc hl hr hstate hpc' hcursor hl' =>
    have hworld : x'.world = r'.state.world := congrArg State.world hstate
    obtain ⟨htended, hunlost⟩ := Runner.tended_step h.tended h.unlost
      (fun id outcome hfinish => htends id outcome (by rw [hfinish])) hr
    refine ⟨hafter, hworld ▸ htended, hworld ▸ hunlost, fun l' hmem => ?_⟩
    cases hl'.symm.trans hmem
    rw [hstate]
    exact Runner.heeds_step hcoherent h.unlost (htracked l hl) (h.loop l hl) hr
  | left hl hcompleted => exact ⟨hafter, h.tended, h.unlost, fun l hmem => by cases hmem⟩
  | opened _ hcursor hloop hpc hworld | closed _ _ hcursor hloop hpc hworld =>
    refine ⟨hafter, hworld ▸ h.tended, hworld ▸ h.unlost, fun l hmem => ?_⟩
    cases hloop.symm.trans hmem
  | mutated _ hpaused hnone hcursor hloop hpc hworld =>
    refine ⟨hafter, h.tended.same hworld, h.unlost.same hworld.losers, fun l hmem => ?_⟩
    cases hloop.symm.trans hmem
  | finished hpc hcursor hpaused hdone hpc' hloop hstate =>
    have hworld : x'.world = x.world := congrArg State.world hstate
    refine ⟨hafter, hworld ▸ h.tended, hworld ▸ h.unlost, fun l hmem => ?_⟩
    cases hloop.symm.trans hmem
  | elsewhere helse =>
    refine ⟨hafter, h.tended.same helse.calm.toSameHolders, h.unlost.same helse.calm.losers,
      fun l hmem => ?_⟩
    rw [helse.loop] at hmem
    exact (h.loop l hmem).congr helse.systems helse.calm.watermarks

/-- The section leaves the generation to its driver, and a run that it commits writes no maintained
inverse by hand. -/
def Guided (P : Program α) (p : PartyId) (x : Execution α) (a : ExecutionStep α) : Prop :=
  LeavesTo P p x a ∧
    ∀ id outcome, a = .phase p (.finish id outcome) → outcome.Tends P.components

theorem converging_of_reachable (h : (generation P p).ReachableUnder (Guided P p) x) :
    Converging P x := by
  refine h.invariant (Converging P) (fun x hx => ?_)
    fun x a x' hx ha hs => hx.step ha.1 ha.2 hs
  have hfresh := Launched.fresh hx
  refine ⟨hfresh.reachable, hfresh.tended, hfresh.unlost, fun l hl => ?_⟩
  cases hfresh.loop.symm.trans hl

/-- Whatever its runs commit, a phase is complete only when none of its systems with a bounded
interest has anything to plan. -/
theorem quietIn_of_completed (h : (generation P p).ReachableUnder (Guided P p) x)
    {l : PhaseLoop α} (hl : x.loop = some l) (hcompleted : l.completed = true) :
    x.drive.protocol.state.QuietIn l.phase :=
  ((converging_of_reachable h).loop l hl).quietIn hcompleted

/-- What is known of a generation that has reported no change: the phases behind its cursor have
nothing to plan. -/
structure Unchanged (x : Execution α) (c : Cursor) : Prop where
  unlost : x.world.Unlost
  done : c.paused = false → ∀ i < c.index, ∀ phase, c.phases[i]? = some phase →
    x.drive.protocol.state.QuietIn phase
  loop : ∀ l ∈ x.loop, c.phases[c.index]? = some l.phase ∧
    l.Homed x.drive.protocol.state.systems ∧ l.Heeds x.drive.protocol.state

theorem nodup_ordered (startup : Bool) : (Phase.ordered startup).Nodup := by
  cases startup <;> decide

/-- A section of the loop that reports no change disturbs no earlier phase. -/
theorem Unchanged.looped {c : Cursor} {startup : Bool} (h : x.Unchanged c)
    (hphases : c.phases = Phase.ordered startup) (hw : x.world.Coherent) {b : PhaseStep α}
    {memo : MemoTable} {l : PhaseLoop α} {r' : Runner α} (hl : x.loop = some l) (ht : l.Tracked)
    (hr : Runner.step P ⟨x.drive.protocol.state, memo, l⟩ b = some r')
    (hmute : r'.loop.changed = false) (hstate : x'.drive.protocol.state = r'.state)
    (hl' : x'.loop = some r'.loop) : x'.Unchanged c := by
  obtain ⟨hphase, hhomed, hheeds⟩ := h.loop l hl
  have hmutes := Runner.mutes_step hw h.unlost ht hhomed hr hmute
  have hworld : x'.world = r'.state.world := congrArg State.world hstate
  refine ⟨hworld ▸ hmutes.unlost, fun hpaused i hi phase hi' => ?_, fun l' hmem => ?_⟩
  · rw [hstate]
    refine hmutes.others phase (fun heq => ?_) (h.done hpaused i hi phase hi')
    have hphase' : c.phases[c.index]? = some phase := by
      rw [heq]
      exact hphase
    have hnodup := nodup_ordered startup
    rw [← hphases] at hnodup
    obtain ⟨hlt, hget⟩ := List.getElem?_eq_some_iff.mp hi'
    exact absurd ((List.getElem?_inj hlt hnodup).mp (hi'.trans hphase'.symm)) hi.ne
  · cases hl'.symm.trans hmem
    rw [hstate]
    exact ⟨hphase.trans (congrArg some (Runner.phase_step hr).symm), Runner.homed_step hhomed hr,
      Runner.heeds_step hw h.unlost ht hheeds hr⟩

/-- Going on from a phase that has nothing to plan. -/
theorem Unchanged.next {c : Cursor} {phase : Phase} (h : x.Unchanged c)
    (hphase : c.phases[c.index]? = some phase)
    (hquiet : x.drive.protocol.state.QuietIn phase)
    (hstate : x'.drive.protocol.state = x.drive.protocol.state) (hnone : x'.loop = none) :
    x'.Unchanged { c with index := c.index + 1 } := by
  have hworld : x'.world = x.world := congrArg State.world hstate
  refine ⟨hworld ▸ h.unlost, fun hpaused i hi phase' hi' => ?_, fun l hl => ?_⟩
  · rw [hstate]
    rcases Nat.lt_succ_iff_lt_or_eq.mp hi with hlt | rfl
    · exact h.done hpaused i hlt phase' hi'
    · cases hphase.symm.trans hi'
      exact hquiet
  · cases hnone.symm.trans hl

/-- As long as its driver has reported no change, a generation has nothing to plan behind its
cursor, and nothing at all once it has gone through its phases. -/
structure Steady (P : Program α) (p : PartyId) (x : Execution α) : Prop where
  reachable : Reachable P x
  driving : ∀ generation memo changed target waiter,
    x.drive.protocol.pc p = .driving generation memo changed target waiter →
      ∃ c startup, x.drive.cursor = some c ∧ c.phases = Phase.ordered startup ∧
        (changed = false → x.Unchanged c)
  completing : ∀ generation memo target waiter,
    x.drive.protocol.pc p = .completing generation memo false target waiter →
      ∀ phase ∈ Phase.ordered false, x.drive.protocol.state.QuietIn phase

theorem mem_ordered {startup : Bool} {phase : Phase} (h : phase ∈ Phase.ordered false) :
    phase ∈ Phase.ordered startup := by
  cases startup with
  | false => exact h
  | true => exact List.mem_cons_of_mem _ h

/-- A section that stays with the driver. -/
theorem Steady.stay {before : Execution α} (h : Steady P p before) (hafter : Reachable P x)
    (hpc : x.drive.protocol.pc p = before.drive.protocol.pc p)
    (hdriving : ∀ c startup, before.drive.cursor = some c → c.phases = Phase.ordered startup →
      ∃ c' startup', x.drive.cursor = some c' ∧ c'.phases = Phase.ordered startup' ∧
        (before.Unchanged c → x.Unchanged c'))
    (hquiet : (before.drive.protocol.pc p).drives = false → ∀ phase,
      before.drive.protocol.state.QuietIn phase → x.drive.protocol.state.QuietIn phase) :
    Steady P p x := by
  refine ⟨hafter, fun generation memo changed target waiter hp => ?_,
    fun generation memo target waiter hp phase hphase => ?_⟩
  · rw [hpc] at hp
    obtain ⟨c, startup, hc, hphases, hunchanged⟩ := h.driving _ _ _ _ _ hp
    obtain ⟨c', startup', hc', hphases', hkept⟩ := hdriving c startup hc hphases
    exact ⟨c', startup', hc', hphases', fun hsilent => hkept (hunchanged hsilent)⟩
  · rw [hpc] at hp
    exact hquiet (by rw [hp]; rfl) phase (h.completing _ _ _ _ hp phase hphase)

theorem Steady.step (h : Steady P p x) {a : ExecutionStep α} (ha : LeavesTo P p x a)
    (hs : Execution.step P x a = some x') : Steady P p x' := by
  have hstep : (machine P).step x a = some x' := hs
  have hafter : Reachable P x' := h.reachable.step trivial hstep
  have htracked := tracked_of_reachable h.reachable
  have hcoherent := coherent_of_reachable h.reachable
  have hdriven : ∀ {x'' : Execution α}, (x.drive.protocol.pc p).drives = true →
      (x.drive.protocol.pc p).drives = false → ∀ phase,
        x.drive.protocol.state.QuietIn phase → x''.drive.protocol.state.QuietIn phase := by
    intro x'' hdrives hidle
    rw [hdrives] at hidle
    cases hidle
  cases serves_of_step (bounded_of_reachable h.reachable) ha hs with
  | @entered c phase hcursor hphase hnone =>
    refine h.stay hafter rfl (fun c' startup hc hphases => ?_) fun _ _ => id
    cases hcursor.symm.trans hc
    refine ⟨c, startup, hcursor, hphases, fun hu => ⟨hu.unlost, hu.done, fun l hl => ?_⟩⟩
    cases hl
    exact ⟨hphase, PhaseLoop.homed_enter _ _ _, PhaseLoop.heeds_enter _ _ _⟩
  | @skipped c phase hcursor hphase hnone hidle =>
    refine h.stay hafter rfl (fun c' startup hc hphases => ?_) fun _ _ => id
    cases hcursor.symm.trans hc
    have hquiet : x.drive.protocol.state.QuietIn phase := fun system hsystem heq =>
      absurd heq (hidle system hsystem)
    refine ⟨{ c with index := c.index + 1 }, startup, ?_, hphases, fun hu => ?_⟩
    · exact congrArg (Option.map fun c : Cursor => { c with index := c.index + 1 }) hcursor
    · exact hu.next hphase hquiet rfl hnone
  | @looped b generation memo changed target waiter l r' _ hpc hl hr hstate hpc' hcursor hl' =>
    refine ⟨hafter, fun _ _ _ _ _ hp => ?_, fun _ _ _ _ hp => (by cases hpc'.symm.trans hp)⟩
    cases hpc'.symm.trans hp
    obtain ⟨c, startup, hc, hphases, hunchanged⟩ := h.driving _ _ _ _ _ hpc
    refine ⟨c, startup, hcursor.trans hc, hphases, fun hsilent => ?_⟩
    obtain ⟨hbefore, hmute⟩ := Bool.or_eq_false_iff.mp hsilent
    exact (hunchanged hbefore).looped hphases hcoherent hl (htracked l hl) hr hmute hstate hl'
  | @left l hl hcompleted =>
    refine h.stay hafter rfl (fun c startup hc hphases => ?_) fun _ _ => id
    refine ⟨{ c with index := c.index + 1 }, startup, ?_, hphases, fun hu => ?_⟩
    · exact congrArg (Option.map fun c : Cursor => { c with index := c.index + 1 }) hc
    · obtain ⟨hphase, -, hheeds⟩ := hu.loop l hl
      exact hu.next hphase (hheeds.quietIn hcompleted) rfl rfl
  | opened hdrives hcursor hloop hpc hworld =>
    refine h.stay hafter hpc (fun c startup hc hphases => ?_) (hdriven hdrives)
    refine ⟨{ c with paused := true }, startup, by rw [hcursor, hc]; rfl, hphases, fun hu => ?_⟩
    exact ⟨hworld ▸ hu.unlost, fun hpaused => (by cases hpaused), fun l hl => (by
      cases hloop.symm.trans hl)⟩
  | closed hdrives hnone hcursor hloop hpc hworld =>
    refine h.stay hafter hpc (fun c startup hc hphases => ?_) (hdriven hdrives)
    refine ⟨c.restart, true, by rw [hcursor, hc]; rfl, rfl, fun hu => ?_⟩
    exact ⟨hworld ▸ hu.unlost, fun _ i hi => absurd hi (Nat.not_lt_zero i), fun l hl => (by
      cases hloop.symm.trans hl)⟩
  | mutated hdrives hpaused hnone hcursor hloop hpc hworld =>
    refine h.stay hafter hpc (fun c startup hc hphases => ?_) (hdriven hdrives)
    refine ⟨c, startup, hcursor.trans hc, hphases, fun hu => ?_⟩
    refine ⟨hu.unlost.same hworld.losers, fun hrunning => ?_, fun l hl => (by
      cases hloop.symm.trans hl)⟩
    rw [hpaused c hc] at hrunning
    cases hrunning
  | @finished c generation memo changed target waiter _ hpc hcursor hpaused hdone hpc' hloop
      hstate =>
    refine ⟨hafter, fun _ _ _ _ _ hp => (by cases hpc'.symm.trans hp), ?_⟩
    intro generation' memo' target' waiter' hp phase hphase
    cases hpc'.symm.trans hp
    obtain ⟨c', startup, hc, hphases, hunchanged⟩ := h.driving _ _ _ _ _ hpc
    cases hcursor.symm.trans hc
    have hmem : phase ∈ c.phases := hphases ▸ mem_ordered hphase
    obtain ⟨i, hi, hget⟩ := List.mem_iff_getElem.mp hmem
    rw [hstate]
    exact (hunchanged rfl).done hpaused i (hi.trans_le hdone) phase
      (List.getElem?_eq_some_iff.mpr ⟨hi, hget⟩)
  | elsewhere helse =>
    have hquiet : ∀ phase, x.drive.protocol.state.QuietIn phase →
        x'.drive.protocol.state.QuietIn phase := fun phase hq =>
      hq.congr helse.systems helse.calm.watermarks
    refine h.stay hafter helse.pc (fun c startup hc hphases => ?_) fun _ => hquiet
    refine ⟨c, startup, helse.cursor.trans hc, hphases, fun hu => ?_⟩
    refine ⟨hu.unlost.same helse.calm.losers, fun hpaused i hi phase hi' =>
      hquiet phase (hu.done hpaused i hi phase hi'), fun l hl => ?_⟩
    rw [helse.loop] at hl
    obtain ⟨hphase, hhomed, hheeds⟩ := hu.loop l hl
    rw [helse.systems]
    exact ⟨hphase, hhomed, hheeds.congr helse.systems helse.calm.watermarks⟩

theorem steady_of_reachable (h : (generation P p).ReachableUnder (LeavesTo P p) x) :
    Steady P p x := by
  refine h.invariant (Steady P p) (fun x hx => ?_) fun x a x' hx ha hs => hx.step ha hs
  have hfresh := Launched.fresh hx
  obtain ⟨startup, hcursor⟩ := hfresh.cursor
  have hdrives := hfresh.drives
  refine ⟨hfresh.reachable, fun generation memo changed target waiter hp => ?_,
    fun generation memo target waiter hp => ?_⟩
  · refine ⟨_, startup, hcursor, rfl, fun _ => ⟨hfresh.unlost, fun _ i hi => ?_, fun l hl => ?_⟩⟩
    · exact absurd hi (Nat.not_lt_zero i)
    · cases hfresh.loop.symm.trans hl
  · rw [hp] at hdrives
    cases hdrives

/-- A generation that leaves the bowl clean leaves no `Evaluate` or `Complete` system with a
bounded interest anything to plan. -/
theorem quietIn_of_normalClean (h : (generation P p).ReachableUnder (LeavesTo P p) x)
    {generation : Nat} {memo : MemoTable} {changed : Bool} {target : Nat} {waiter : Waiter}
    (hpc : x.drive.protocol.pc p = .completing generation memo changed target waiter)
    (hs : step P x (.act (.advance p)) = some x')
    (hclean : x'.drive.protocol.state.normalClean = true) :
    ∀ phase ∈ Phase.ordered false, x'.drive.protocol.state.QuietIn phase := by
  obtain @⟨_, q₁, hpermits, hact⟩ := step_cases hs
  obtain ⟨hstate, -, -, -⟩ := Protocol.rest_frame q₁
  simp only [Protocol.act, Protocol.advance, hpc] at hact
  cases hact
  have hstate' := hstate
  cases changed with
  | true =>
    have hdirty : (Protocol.rest _).state.normalClean = true := hclean
    rw [hstate] at hdirty
    cases hdirty
  | false =>
    intro phase hphase
    have hquiet := (steady_of_reachable h).completing _ _ _ _ hpc phase hphase
    show (Protocol.rest _).state.QuietIn phase
    rw [hstate]
    exact hquiet

section Runs

theorem not_isInverse_plain (t : TypeId) : ¬ (Components.plain Nat).IsInverse t := by
  rintro ⟨edge, hrole⟩
  cases hrole

/-- Caller 1 is about to start a generation over a row and another one to pair it with. -/
def startingRow : List (ExecutionStep Nat) :=
  [.act (.insert [.insert 1 0 (.data 7), .insert 3 0 (.data 7)]), .act (.callSettle 1 false)] ++
    (Protocol.advances 3 1).map ExecutionStep.act

def rowStarting : Execution Nat :=
  ((machine reapingBowl).run (new reapingBowl) startingRow).getD (new reapingBowl)

def rowLaunched : Execution Nat :=
  ((step reapingBowl rowStarting) (.act (.advance 1))).getD rowStarting

theorem launched_row : Launched reapingBowl 1 rowLaunched := by
  have hrun : (machine reapingBowl).run (new reapingBowl) startingRow = some rowStarting := rfl
  have hheld : rowStarting.world.pendingDerivedFrom = [] := by decide
  have hdeferred : rowStarting.drive.protocol.state.deferredSettle = [] := by decide
  refine ⟨rowStarting, 1, .settle ⟨0, 1, false, ∅⟩, .run (.init rfl) hrun, ⟨⟨?_, ?_⟩, ?_⟩, rfl, rfl,
    by decide⟩
  · intro t e o ht
    exact absurd ht (not_isInverse_plain t)
  · intro q hq
    rw [show rowStarting.drive.protocol.state.world.pendingDerivedFrom = [] from hheld] at hq
    cases hq
  · intro output houtput
    rw [hdeferred] at houtput
    cases houtput

/-- The driver goes on alone. -/
theorem guided_of_serves (x : Execution Nat) (a : ExecutionStep Nat)
    (h : a.serves 1 = true ∧ (x.drive.protocol.pc 1).drives = true) : Guided reapingBowl 1 x a := by
  have htends : ∀ c : Command Nat, c.Tends reapingBowl.components := fun c t ht =>
    absurd ht (not_isInverse_plain t)
  exact ⟨Or.inl h, fun _ _ _ => ⟨fun _ _ c _ => htends c, fun _ _ c _ => htends c,
    fun _ _ c _ => htends c⟩⟩

/-- The first row gives the second query another entity, and a second wave runs the new pair. -/
def secondWave : List (ExecutionStep Nat) :=
  [.enterPhase 1, .enterPhase 1, .phase 1 .turn, .phase 1 .planNext, .phase 1 .admitNext,
    .phase 1 .planNext, .phase 1 .endWave,
    .phase 1 (.finish ⟨0, 0⟩ ⟨[], [[.insert 3 4 (.data 7)]], []⟩), .phase 1 .endBatch,
    .phase 1 .turn, .phase 1 .planNext, .phase 1 .admitNext, .phase 1 .planNext, .phase 1 .endWave,
    .phase 1 (.finish ⟨0, 1⟩ ⟨[], [[]], []⟩), .phase 1 .endBatch, .phase 1 .turn]

def waved : Execution Nat :=
  ((machine reapingBowl).run rowLaunched secondWave).getD rowLaunched

theorem waved_quiet : waved.drive.protocol.state.QuietIn .evaluate ∧
    rowLaunched.world.revision < waved.world.revision := by
  have hrun : (generation reapingBowl 1).run rowLaunched secondWave = some waved := rfl
  have hserved : (generation reapingBowl 1).Allows (fun x a =>
      a.serves 1 = true ∧ (x.drive.protocol.pc 1).drives = true) rowLaunched secondWave := by decide
  have hallowed := hserved.imp guided_of_serves
  have hreached := Machine.ReachableUnder.run (.init launched_row) hallowed hrun
  have hsome : (waved.loop.any fun l => l.completed && l.phase = .evaluate) = true := by decide
  cases hloop : waved.loop with
  | none =>
    rw [hloop] at hsome
    cases hsome
  | some l =>
    rw [hloop] at hsome
    obtain ⟨hcompleted, hphase⟩ := Bool.and_eq_true_iff.mp hsome
    have hquiet := quietIn_of_completed hreached hloop hcompleted
    rw [of_decide_eq_true hphase] at hquiet
    exact ⟨hquiet, by decide⟩

/-- Caller 1 has gone through all phases, and its row has changed nothing. -/
def rowCompleting : Execution Nat :=
  ((machine reapingBowl).run rowLaunched (.enterPhase 1 :: evaluateRow ++ [.act (.advance 1)])).getD
    rowLaunched

def rowCompleted : Execution Nat :=
  ((step reapingBowl rowCompleting) (.act (.advance 1))).getD rowCompleting

theorem rowCompleted_quiet : rowCompleted.drive.protocol.state.normalClean = true ∧
    ∀ phase ∈ Phase.ordered false, rowCompleted.drive.protocol.state.QuietIn phase := by
  have hrun : (generation reapingBowl 1).run rowLaunched
      (.enterPhase 1 :: evaluateRow ++ [.act (.advance 1)]) = some rowCompleting := rfl
  have hserved : (generation reapingBowl 1).Allows (fun x a =>
      a.serves 1 = true ∧ (x.drive.protocol.pc 1).drives = true) rowLaunched
        (.enterPhase 1 :: evaluateRow ++ [.act (.advance 1)]) := by decide
  have hallowed : (generation reapingBowl 1).Allows (LeavesTo reapingBowl 1) rowLaunched _ :=
    hserved.imp fun _ _ h => Or.inl h
  have hreached := Machine.ReachableUnder.run (.init launched_row) hallowed hrun
  have hcompleting : rowCompleting.drive.protocol.pc 1 =
    .completing 1 _ false 1 (.settle ⟨0, 1, false, ∅⟩) := rfl
  have hclean : rowCompleted.drive.protocol.state.normalClean = true := by decide
  exact ⟨hclean, quietIn_of_normalClean hreached hcompleting rfl hclean⟩

end Runs

end Execution
end Porridge
