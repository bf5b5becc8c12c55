import Porridge.Protocol.Inputs
import Porridge.Protocol.Runner

/-! What one section can do to the input queues and the generation numbers. -/
namespace Porridge

variable {α : Type}

/-- The generation a caller has started and not yet completed. -/
def Pc.generation : Pc α → Option Nat
  | driving generation .. | completing generation .. => some generation
  | _ => none

theorem Pc.inGeneration_of_generation {x : Pc α} {g : Nat} (h : x.generation = some g) :
    x.inGeneration = true := by
  cases x <;> first | rfl | cases h

/-- One way to move the queues and the generation numbers. -/
inductive Move (α : Type) where
  | keep
  | request
  | accept (commands : List (BaseCommand α))
  | defer (commands : List (BaseCommand α))
  | enter
  | promote (watermark : Nat)
  | leave
  | start (p : PartyId) (generation : Nat)
  | complete (p : PartyId) (generation : Nat)
  | abandon (p : PartyId) (generation : Nat)

namespace Move

def apply (s : State α) : Move α → State α
  | keep => s
  | request => s.requestGeneration
  | accept commands =>
    { s with pendingInputs := s.pendingInputs ++ commands }.requestGeneration
  | defer commands => { s with
      inputSeq := s.inputSeq + 1
      deferredInputs := s.deferredInputs ++ [(s.inputSeq + 1, commands)] }
  | enter => s.enterEpoch
  | promote watermark => (s.promoteDeferredInputs watermark).2
  | leave => s.leaveEpoch
  | start _ generation => { s with
      pendingGeneration := none
      pendingInputs := []
      runningGeneration := some generation
      nextGeneration := generation + 1 }
  | complete _ generation => { s with
      completedGeneration := generation
      runningGeneration := none }
  | abandon _ generation => { s with
      runningGeneration := none
      pendingGeneration := some (s.pendingGeneration.getD generation) }

def note (s : State α) (h : History α) : Move α → History α
  | accept commands => h.accept 0 0 commands
  | defer commands => h.accept s.settling (s.inputSeq + 1) commands
  | promote watermark => h.promote watermark
  | leave => if s.settling - 1 = 0 then h.promote State.maxTag else h
  | start .. => h.apply
  | keep | request | enter | complete .. | abandon .. => h

end Move

/-- The action queues its input at once although a settle is driving. -/
def Action.preempts : Action α → Bool
  | insertPreempting _ => true
  | _ => false

namespace Protocol

/-- What a section that makes a move has found. -/
def Permits (C : Components α) (q : Protocol α) (a : Action α) (q' : Protocol α) :
    Move α → Prop
  | .accept _ => q.state.settling = 0 ∨ a.preempts = true
  | .defer _ => q.state.settling ≠ 0 ∧ q.state.inputSeq ≠ State.maxTag
  | .start p generation =>
    q.state.pendingGeneration = some generation ∧ (q.pc p).generation = none ∧
      (q.pc p).holdsRunner = true ∧
        ∃ started, startEvaluation C q.state = some (some started) ∧ q'.state = started.state
  | .complete p generation | .abandon p generation => (q.pc p).generation = some generation
  | .keep | .request | .enter | .promote _ | .leave => True

/-- The section moves the queues and the generation numbers by `m`. -/
structure Moves (C : Components α) (q : Protocol α) (a : Action α) (q' : Protocol α)
    (m : Move α) : Prop where
  permitted : Permits C q a q' m
  state : SameControl (m.apply q.state) q'.state
  history : SameInputs (m.note q.state q.history) q'.history
  generation : ∀ p g, (q'.pc p).generation = some g →
    (q.pc p).generation = some g ∨ m = .start p g

variable {C : Components α} {q q' q₁ : Protocol α} {a : Action α} {p : PartyId} {x : Pc α}
  {m : Move α}

theorem sameInputs_refl (h : History α) : SameInputs h h := ⟨rfl, rfl, rfl, rfl⟩

theorem Moves.stay (hp : Permits C q a q' m) (hs : SameControl (m.apply q.state) q'.state)
    (hh : SameInputs (m.note q.state q.history) q'.history)
    (hpc : ∀ p, (q'.pc p).generation = (q.pc p).generation) : Moves C q a q' m :=
  ⟨hp, hs, hh, fun p _ hg => Or.inl (hpc p ▸ hg)⟩

theorem Moves.goto (hp : Permits C q a (q₁.goto p x) m) (hs : SameControl (m.apply q.state) q₁.state)
    (hh : SameInputs (m.note q.state q.history) q₁.history) (hpc : ∀ p, q₁.pc p = q.pc p)
    (hx : ∀ g, x.generation = some g → (q.pc p).generation = some g ∨ m = .start p g) :
    Moves C q a (q₁.goto p x) m := by
  refine ⟨hp, hs, hh, fun p' g hg => ?_⟩
  rw [pc_goto] at hg
  split_ifs at hg with heq
  · exact heq ▸ hx g hg
  · exact Or.inl (hpc p' ▸ hg)

/-- A caller that goes on while neither queues nor numbers move. -/
theorem Moves.onwards (hs : SameControl q.state q₁.state) (hh : SameInputs q.history q₁.history)
    (hpc : ∀ p, q₁.pc p = q.pc p)
    (hx : ∀ g, x.generation = some g → (q.pc p).generation = some g) :
    Moves C q a (q₁.goto p x) .keep :=
  .goto trivial hs hh hpc fun g hg => Or.inl (hx g hg)

/-- A caller that goes where no generation is driven. -/
theorem Moves.free (hs : SameControl q.state q₁.state) (hh : SameInputs q.history q₁.history)
    (hpc : ∀ p, q₁.pc p = q.pc p) (hx : x.generation = none) : Moves C q a (q₁.goto p x) .keep :=
  .onwards hs hh hpc fun g hg => by rw [hx] at hg; cases hg

theorem startEvaluation_control {s : State α} {started : Started α}
    (h : startEvaluation C s = some (some started)) :
    s.pendingGeneration = some started.generation ∧
      SameControl ((Move.start 0 started.generation).apply s) started.state := by
  unfold startEvaluation at h
  split at h
  · cases h
  · rename_i generation hpending
    obtain ⟨applied, happlied, hlaunch⟩ := Option.bind_eq_some_iff.mp h
    cases hlaunch
    simp only [applyInputs, Option.bind_eq_bind, Option.bind_eq_some_iff, Option.pure_def,
      Option.some.injEq] at happlied
    obtain ⟨settled, -, based, -, flushed, -, rfl⟩ := happlied
    have hcompacted : ∀ u : State α, SameControl u (compactPlanLog u) := by
      intro u
      unfold compactPlanLog
      split
      · exact .rfl
      · exact ⟨rfl, rfl, rfl, rfl, rfl, rfl, rfl, rfl⟩
    have hsame := hcompacted { s with pendingGeneration := none }
    exact ⟨hpending, ⟨rfl, hsame.deferredInputs, hsame.inputSeq, hsame.settling,
      hsame.pendingGeneration, rfl, hsame.completedGeneration, rfl⟩⟩

theorem moves_startGeneration {target : Nat} {waiter : Waiter}
    (hp : q.pc p = .starting target waiter)
    (hs : q.startGeneration C p target waiter = some q') : ∃ m, Moves C q a q' m := by
  obtain ⟨started, hstarted, hs⟩ := Option.bind_eq_some_iff.mp hs
  cases started with
  | none =>
    cases hs
    exact ⟨.keep, .free .rfl (sameInputs_refl _) (fun _ => rfl) rfl⟩
  | some started =>
    cases hs
    obtain ⟨hpending, hcontrol⟩ := startEvaluation_control hstarted
    refine ⟨.start p started.generation,
      .goto ⟨hpending, ?_, ?_, started, hstarted, rfl⟩ ?_ ?_ (fun _ => rfl) ?_⟩
    · rw [hp]
      rfl
    · rw [hp]
      rfl
    · exact hcontrol
    · exact ⟨rfl, rfl, rfl, rfl⟩
    · intro g hg
      cases hg
      exact Or.inr rfl

theorem moves_exit {epoch : Epoch} {done : State α → State α}
    (hdone : SameControl q.state (done q.state)) : ∃ m, Moves C q a (q.exit p epoch done) m := by
  unfold Protocol.exit
  dsimp only
  split_ifs
  · refine ⟨.promote epoch.watermark, .goto trivial .rfl (sameInputs_refl _) (fun _ => rfl) ?_⟩
    exact fun _ hg => nomatch hg
  · exact ⟨.keep, .free hdone (sameInputs_refl _) (fun _ => rfl) rfl⟩

theorem moves_leave (hx : x.generation = none) : Moves C q a (q.leave.goto p x) .leave := by
  obtain ⟨hpc, -, -, -, -, -, -⟩ := leave_frame q
  have hstate : q.leave.state = q.state.leaveEpoch := by
    unfold Protocol.leave State.leaveEpoch
    dsimp only
    split_ifs <;> rfl
  have hhistory : q.leave.history = Move.leave.note q.state q.history := by
    unfold Protocol.leave Move.note
    dsimp only
    split_ifs <;> rfl
  refine .goto trivial ?_ ?_ hpc fun g hg => ?_
  · rw [hstate]
    exact .rfl
  · rw [hhistory]
    exact sameInputs_refl _
  · rw [hx] at hg
    cases hg

theorem moves_heal {epoch : Epoch} {onwards : Epoch → Pc α}
    (honwards : ∀ epoch, (onwards epoch).generation = none)
    (hs : q.heal p epoch onwards = some q') : ∃ m, Moves C q a q' m := by
  obtain ⟨⟨healed, attempts, s⟩, hhealed, hs⟩ := Option.bind_eq_some_iff.mp hs
  cases hs
  refine ⟨.keep, .free (sameControl_healStaleAmbient hhealed).1 ⟨rfl, rfl, rfl, rfl⟩
    (fun _ => rfl) ?_⟩
  cases healed
  · exact honwards _
  · rfl

theorem moves_commit {memo : MemoTable} {run : SystemRun α} {phase : Option Phase}
    {pc : MemoTable → Bool → Pc α}
    (hpc : ∀ memo changed g, (pc memo changed).generation = some g →
      (q.pc p).generation = some g)
    (hs : q.commit C p memo run phase pc = some q') : ∃ m, Moves C q a q' m := by
  obtain ⟨⟨after, s, progress⟩, hcommit, hs⟩ := Option.bind_eq_some_iff.mp hs
  cases hs
  refine ⟨.keep, .onwards (sameControl_commitSystemRun C hcommit) ?_ (fun _ => rfl) (hpc _ _)⟩
  dsimp only
  split_ifs
  · exact sameInputs_refl _
  · unfold History.commit
    split <;> exact ⟨rfl, rfl, rfl, rfl⟩

/-- Each section of a caller makes one move. -/
theorem moves_advance (hs : q.advance C p = some q') : ∃ m, Moves C q a q' m := by
  have hsame : SameControl q.state q.state := .rfl
  have hinputs := sameInputs_refl q.history
  unfold Protocol.advance at hs
  split at hs <;> rename_i hpc
  · cases hs
  · cases hs
    refine ⟨.enter, .goto trivial .rfl hinputs (fun _ => rfl) fun _ hg => nomatch hg⟩
  · split_ifs at hs <;> cases hs
    · exact moves_exit .rfl
    · exact ⟨.keep, .free hsame hinputs (fun _ => rfl) rfl⟩
  · rename_i waiter
    split_ifs at hs <;> cases hs
    · refine ⟨.keep, .free hsame hinputs (fun _ => rfl) ?_⟩
      cases waiter <;> rfl
    · exact ⟨.keep, .free hsame hinputs (fun _ => rfl) rfl⟩
    · exact ⟨.keep, .stay trivial hsame hinputs fun _ => rfl⟩
  · exact moves_startGeneration hpc hs
  · cases hs
    exact ⟨.keep, .onwards hsame hinputs (fun _ => rfl) fun g hg => by rw [hpc]; exact hg⟩
  · rename_i generation memo changed target waiter
    cases hs
    refine ⟨.complete p generation, .goto ?_ ?_ hinputs (fun _ => rfl) fun _ hg => nomatch hg⟩
    · show (q.pc p).generation = some generation
      rw [hpc]
      rfl
    · exact ⟨rfl, rfl, rfl, rfl, rfl, rfl, rfl, rfl⟩
  · split_ifs at hs <;> cases hs
    · exact moves_exit .rfl
    · exact ⟨.keep, .free hsame hinputs (fun _ => rfl) rfl⟩
    · exact ⟨.keep, .free hsame hinputs (fun _ => rfl) rfl⟩
  · exact moves_heal (fun _ => rfl) hs
  · split_ifs at hs <;> cases hs
    · exact ⟨.keep, .free hsame hinputs (fun _ => rfl) rfl⟩
    · exact ⟨.keep, .free ⟨rfl, rfl, rfl, rfl, rfl, rfl, rfl, rfl⟩ hinputs (fun _ => rfl) rfl⟩
  · rename_i followup
    cases hs
    refine ⟨.keep, .free ⟨rfl, rfl, rfl, rfl, rfl, rfl, rfl, rfl⟩ hinputs (fun _ => rfl) ?_⟩
    cases followup <;> rfl
  · split_ifs at hs <;> cases hs
    · exact ⟨.keep, .free hsame hinputs (fun _ => rfl) rfl⟩
    · exact ⟨.keep, .free ⟨rfl, rfl, rfl, rfl, rfl, rfl, rfl, rfl⟩ hinputs (fun _ => rfl) rfl⟩
  · cases hs
    refine ⟨.keep, .free ⟨rfl, rfl, rfl, rfl, rfl, rfl, rfl, rfl⟩ hinputs (fun _ => rfl) ?_⟩
    split_ifs <;> rfl
  · exact moves_heal (fun _ => rfl) hs
  · cases hs
    refine ⟨.keep, .free hsame hinputs (fun _ => rfl) ?_⟩
    split_ifs <;> rfl
  · cases hs
    exact moves_exit (sameControl_publishSettledRevision q.state)
  · cases hs
    exact ⟨.request, .goto trivial .rfl hinputs (fun _ => rfl) fun _ hg => nomatch hg⟩
  · cases hs
    exact ⟨.leave, moves_leave rfl⟩
  · rename_i scoop
    cases hs
    refine ⟨.keep, .free hsame hinputs (fun _ => rfl) ?_⟩
    cases scoop <;> rfl
  · cases hs
    refine ⟨.keep, .free hsame hinputs (fun _ => rfl) ?_⟩
    split_ifs <;> rfl
  · cases hs
    exact ⟨.keep, .free (sameControl_closeBound C _ q.state _) ⟨rfl, rfl, rfl, rfl⟩
      (fun _ => rfl) rfl⟩
  · cases hs
    exact ⟨.keep, .free hsame hinputs (fun _ => rfl) rfl⟩
  · cases hs
    exact ⟨.keep, .free hsame hinputs (fun _ => rfl) rfl⟩
  · cases hs
    exact ⟨.leave, moves_leave rfl⟩

theorem moves_cancel (hs : q.cancel p = some q') : ∃ m, Moves C q a q' m := by
  have hfree : ∀ b : Bool,
      (if b = true then Pc.unwinding else Pc.idle : Pc α).generation = none := by
    intro b
    cases b <;> rfl
  have hinputs := sameInputs_refl q.history
  unfold Protocol.cancel at hs
  split at hs
  · cases hs
  · cases hs
  · cases hs
  · cases hs
    cases hpc : q.pc p with
    | driving generation memo changed target waiter =>
      refine ⟨.abandon p generation, .goto ?_ ?_ hinputs (fun _ => rfl) fun g hg => ?_⟩
      · show (q.pc p).generation = some generation
        rw [hpc]
        rfl
      · exact ⟨rfl, rfl, rfl, rfl, rfl, rfl, rfl, rfl⟩
      · rw [hfree] at hg
        cases hg
    | _ => exact ⟨.keep, .free .rfl hinputs (fun _ => rfl) (hfree _)⟩

/-- Each action makes one move. -/
theorem moves_act (hs : q.act C a = some q') : ∃ m, Moves C q a q' m := by
  have hinputs := sameInputs_refl q.history
  cases a with
  | insert commands =>
    obtain ⟨s, hstate, hs⟩ := Option.bind_eq_some_iff.mp hs
    cases hs
    rcases State.acceptInput_eq hstate with ⟨hidle, rfl⟩ | ⟨hbusy, hroom, rfl⟩
    · refine ⟨.accept commands, .stay (Or.inl hidle) .rfl ?_ fun _ => rfl⟩
      show SameInputs (q.history.accept 0 0 commands) (q.history.accept q.state.settling _ commands)
      rw [History.accept, History.accept, if_pos rfl, if_pos hidle]
      exact sameInputs_refl _
    · exact ⟨.defer commands, .stay ⟨hbusy, hroom⟩ .rfl (sameInputs_refl _) fun _ => rfl⟩
  | insertPreempting commands =>
    obtain ⟨s, hstate, hs⟩ := Option.bind_eq_some_iff.mp hs
    cases hs
    obtain ⟨restart, rfl⟩ := State.acceptPreempting_eq hstate
    exact ⟨.accept commands, .stay (Or.inr rfl) ⟨rfl, rfl, rfl, rfl, rfl, rfl, rfl, rfl⟩
      (sameInputs_refl _) fun _ => rfl⟩
  | reserve =>
    cases hs
    exact ⟨.keep, .stay trivial ⟨rfl, rfl, rfl, rfl, rfl, rfl, rfl, rfl⟩ hinputs fun _ => rfl⟩
  | reserveSingleton key =>
    cases hs
    exact ⟨.keep, .stay trivial ⟨rfl, rfl, rfl, rfl, rfl, rfl, rfl, rfl⟩ hinputs fun _ => rfl⟩
  | mutate t e v =>
    obtain ⟨s, hstate, hs⟩ := Option.bind_eq_some_iff.mp hs
    cases hs
    obtain ⟨restart, rfl⟩ := State.reachBoundary_eq hstate
    have hpc := fun p => observe_showWrite q p Pc.generation (fun _ _ => rfl) t e v
    have hhistory : SameInputs q.history (q.showWrite t e v).history := by
      rw [(showWrite_frame q t e v).2.2]
      exact hinputs
    by_cases hamends : q.state.world.amends C t e v = true
    · refine ⟨.request, .stay trivial ?_ hhistory hpc⟩
      simp only [State.mutate, if_pos hamends]
      exact ⟨rfl, rfl, rfl, rfl, rfl, rfl, rfl, rfl⟩
    · refine ⟨.keep, .stay trivial ?_ hhistory hpc⟩
      simp only [State.mutate, if_neg hamends]
      exact ⟨rfl, rfl, rfl, rfl, rfl, rfl, rfl, rfl⟩
  | takeBound e parts =>
    cases hs
    exact ⟨.keep, .stay trivial (sameControl_takeBound C q.state e parts) ⟨rfl, rfl, rfl, rfl⟩
      fun _ => rfl⟩
  | drainBound entities =>
    cases hs
    exact ⟨.keep, .stay trivial (sameControl_closeBound C _ _ _) ⟨rfl, rfl, rfl, rfl⟩
      fun _ => rfl⟩
  | dropBound e => cases hs; exact ⟨.keep, .stay trivial .rfl hinputs fun _ => rfl⟩
  | callSettle p scoop =>
    simp only [Protocol.act] at hs
    split at hs
    · split_ifs at hs <;> cases hs <;>
        exact ⟨.keep, .free .rfl hinputs (fun _ => rfl) rfl⟩
    · cases hs
  | awaitInsert p generation =>
    simp only [Protocol.act] at hs
    split at hs
    · cases hs
      exact ⟨.keep, .free .rfl hinputs (fun _ => rfl) rfl⟩
    · cases hs
  | advance p => exact moves_advance hs
  | writeInPlace p t e v =>
    simp only [Protocol.act] at hs
    split_ifs at hs
    cases hs
    have hpc := fun p => observe_showWrite q p Pc.generation (fun _ _ => rfl) t e v
    have hhistory : SameInputs q.history (q.showWrite t e v).history := by
      rw [(showWrite_frame q t e v).2.2]
      exact hinputs
    exact ⟨.keep, .stay trivial ⟨rfl, rfl, rfl, rfl, rfl, rfl, rfl, rfl⟩ hhistory hpc⟩
  | commit p run phase =>
    simp only [Protocol.act] at hs
    split at hs
    · rename_i hpc
      split_ifs at hs
      exact moves_commit (fun _ _ g hg => by rw [hpc]; exact hg) hs
    · refine moves_commit ?_ hs
      exact fun _ _ _ hg => (by cases hg)
    · refine moves_commit ?_ hs
      exact fun _ _ _ hg => (by cases hg)
    · cases hs
  | openWindow p =>
    simp only [Protocol.act] at hs
    split at hs
    · cases hs
      exact ⟨.keep, .stay trivial ⟨rfl, rfl, rfl, rfl, rfl, rfl, rfl, rfl⟩ hinputs fun _ => rfl⟩
    · cases hs
  | closeWindow p =>
    simp only [Protocol.act] at hs
    split at hs
    · cases hs
      exact ⟨.keep, .stay trivial ⟨rfl, rfl, rfl, rfl, rfl, rfl, rfl, rfl⟩ hinputs fun _ => rfl⟩
    · cases hs
  | cancel p => exact moves_cancel hs

/-- Noting an instant of rest moves nothing. -/
theorem Moves.rest (hm : Moves C q a q' m) : Moves C q a q'.rest m := by
  obtain ⟨hstate, hpc, -, -⟩ := rest_frame q'
  have hinputs : SameInputs q'.history q'.rest.history := by
    unfold Protocol.rest
    split_ifs <;> exact ⟨rfl, rfl, rfl, rfl⟩
  refine ⟨?_, ?_, ?_, fun p g hg => hm.generation p g (hpc p ▸ hg)⟩
  · have hpermitted := hm.permitted
    cases m with
    | start p generation =>
      obtain ⟨hpending, hnone, hholds, started, hstarted, hstate'⟩ := hpermitted
      exact ⟨hpending, hnone, hholds, started, hstarted, hstate.trans hstate'⟩
    | _ => exact hpermitted
  · rw [hstate]
    exact hm.state
  · exact ⟨hinputs.accepted.trans hm.history.accepted, hinputs.pending.trans hm.history.pending,
      hinputs.deferred.trans hm.history.deferred, hinputs.applied.trans hm.history.applied⟩

/-- Each step of the bowl and its callers makes one move. -/
theorem moves_step (hs : (machine C).step q a = some q') : ∃ m, Moves C q a q' m := by
  obtain ⟨q₁, hact, rfl⟩ := Option.map_eq_some_iff.mp hs
  obtain ⟨m, hm⟩ := moves_act hact
  exact ⟨m, hm.rest⟩

end Protocol
end Porridge
