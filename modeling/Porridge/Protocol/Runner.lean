import Porridge.Protocol.Control

/-! The runner lock: one caller at a time drives, and only while its generation is running. -/
namespace Porridge

variable {α : Type}

namespace Pc

def holdsRunner : Pc α → Bool
  | starting .. | driving .. | completing .. => true
  | _ => false

/-- The caller has started a generation and not yet completed it. -/
def inGeneration : Pc α → Bool
  | driving .. | completing .. => true
  | _ => false

theorem holdsRunner_of_inGeneration {x : Pc α} (h : x.inGeneration = true) :
    x.holdsRunner = true := by
  cases x <;> first | rfl | cases h

theorem inGeneration_of_drives {x : Pc α} (h : x.drives = true) : x.inGeneration = true := by
  cases x <;> first | rfl | cases h

end Pc

namespace Protocol

/-- Whoever drives holds the runner lock, and a generation is running. -/
structure Exclusive (q : Protocol α) : Prop where
  runner : ∀ p, (q.pc p).holdsRunner = true → q.runner = some p
  running : ∀ p, (q.pc p).inGeneration = true → q.state.runningGeneration.isSome = true

variable {C : Components α} {q q' q₁ : Protocol α} {p : PartyId} {x : Pc α}

theorem Exclusive.same (h : Exclusive q) (hrunner : q'.runner = q.runner)
    (hrunning : q'.state.runningGeneration = q.state.runningGeneration)
    (hholds : ∀ p, (q'.pc p).holdsRunner = true → (q.pc p).holdsRunner = true)
    (hin : ∀ p, (q'.pc p).inGeneration = true → (q.pc p).inGeneration = true) : Exclusive q' where
  runner p hp := by
    rw [hrunner]
    exact h.runner p (hholds p hp)
  running p hp := by
    rw [hrunning]
    exact h.running p (hin p hp)

theorem Exclusive.keep (h : Exclusive q) (hrunner : q'.runner = q.runner)
    (hrunning : q'.state.runningGeneration = q.state.runningGeneration)
    (hpc : ∀ p, q'.pc p = q.pc p) : Exclusive q' :=
  h.same hrunner hrunning (fun p hp => hpc p ▸ hp) fun p hp => hpc p ▸ hp

theorem Exclusive.goto (h : Exclusive q)
    (hholds : x.holdsRunner = true → (q.pc p).holdsRunner = true)
    (hin : x.inGeneration = true → (q.pc p).inGeneration = true) : Exclusive (q.goto p x) := by
  refine h.same rfl rfl (fun p' hp' => ?_) fun p' hp' => ?_
  · rw [pc_goto] at hp'
    split_ifs at hp' with heq
    · exact heq ▸ hholds hp'
    · exact hp'
  · rw [pc_goto] at hp'
    split_ifs at hp' with heq
    · exact heq ▸ hin hp'
    · exact hp'

/-- Going where the lock is not needed. -/
theorem Exclusive.free (h : Exclusive q) (hx : x.holdsRunner = false) :
    Exclusive (q.goto p x) := by
  have hnot : x.inGeneration = true → False := fun hin => by
    rw [Pc.holdsRunner_of_inGeneration hin] at hx
    cases hx
  exact h.goto (fun hholds => by rw [hx] at hholds; cases hholds) fun hin => (hnot hin).elim

/-- When the holder of the lock gives it up nobody drives. -/
theorem Exclusive.release (h : Exclusive q) (hp : (q.pc p).holdsRunner = true)
    (hx : x.holdsRunner = false) (hpc : ∀ p', q₁.pc p' = q.pc p') : Exclusive (q₁.goto p x) := by
  have hnobody : ∀ p', ((q₁.goto p x).pc p').holdsRunner = true → False := by
    intro p' hp'
    rw [pc_goto] at hp'
    split_ifs at hp' with hne
    · rw [hx] at hp'
      cases hp'
    · rw [hpc] at hp'
      have hother := (h.runner p' hp').symm.trans (h.runner p hp)
      exact hne (Option.some.inj hother)
  exact ⟨fun p' hp' => (hnobody p' hp').elim,
    fun p' hp' => (hnobody p' (Pc.holdsRunner_of_inGeneration hp')).elim⟩

theorem Exclusive.exit (h : Exclusive q) {epoch : Epoch} {done : State α → State α}
    (hdone : (done q.state).runningGeneration = q.state.runningGeneration) :
    Exclusive (q.exit p epoch done) := by
  have hpromoted : Exclusive (q.promote epoch.watermark).2 :=
    h.keep rfl (promoteDeferredInputs_frame q.state _).2.2 fun _ => rfl
  have hfinished : Exclusive { q with state := done q.state } := h.keep rfl hdone fun _ => rfl
  unfold Protocol.exit
  dsimp only
  split_ifs
  · exact hpromoted.free rfl
  · exact hfinished.free rfl

theorem Exclusive.leave (h : Exclusive q) : Exclusive q.leave := by
  obtain ⟨hpc, -, -, hrunner, hrunning, -, -⟩ := leave_frame q
  exact h.keep hrunner hrunning hpc

theorem Exclusive.heal (h : Exclusive q) {epoch : Epoch} {onwards : Epoch → Pc α}
    (honwards : ∀ epoch, (onwards epoch).holdsRunner = false)
    (hs : q.heal p epoch onwards = some q') : Exclusive q' := by
  obtain ⟨⟨healed, attempts, s⟩, hhealed, hs⟩ := Option.bind_eq_some_iff.mp hs
  cases hs
  have hamended : Exclusive (q.amendHome s) :=
    h.keep rfl (sameControl_healStaleAmbient hhealed).1.runningGeneration fun _ => rfl
  refine hamended.free ?_
  cases healed
  · exact honwards _
  · rfl

theorem Exclusive.startGeneration (h : Exclusive q) {target : Nat} {waiter : Waiter}
    (hp : q.pc p = .starting target waiter)
    (hs : q.startGeneration C p target waiter = some q') : Exclusive q' := by
  have hholds : (q.pc p).holdsRunner = true := by rw [hp]; rfl
  obtain ⟨started, hstarted, hs⟩ := Option.bind_eq_some_iff.mp hs
  cases started with
  | none =>
    cases hs
    exact h.release hholds rfl fun _ => rfl
  | some started =>
    cases hs
    have hrunning : started.state.runningGeneration = some started.generation := by
      unfold startEvaluation at hstarted
      split at hstarted
      · cases hstarted
      · obtain ⟨applied, -, hlaunch⟩ := Option.bind_eq_some_iff.mp hstarted
        cases hlaunch
        rfl
    constructor
    · intro p' hp'
      rw [pc_goto] at hp'
      split_ifs at hp' with heq
      · exact heq ▸ h.runner p hholds
      · exact h.runner p' hp'
    · intro p' _
      show started.state.runningGeneration.isSome = true
      rw [hrunning]
      rfl

/-- Each section of a caller respects the runner lock. -/
theorem Exclusive.advance (h : Exclusive q) (hs : q.advance C p = some q') : Exclusive q' := by
  unfold Protocol.advance at hs
  split at hs <;> rename_i hpc
  · cases hs
  · cases hs
    have hentered : Exclusive { q with state := q.state.enterEpoch } := h.keep rfl rfl fun _ => rfl
    exact hentered.free rfl
  · split_ifs at hs <;> cases hs
    · exact h.exit rfl
    · exact h.free rfl
  · rename_i target waiter
    split_ifs at hs with hdone hfree <;> cases hs
    · refine h.free ?_
      cases waiter <;> rfl
    · constructor
      · intro p' hp'
        rw [pc_goto] at hp'
        split_ifs at hp' with heq
        · rw [heq]
          rfl
        · have hheld := hfree.symm.trans (h.runner p' hp')
          cases hheld
      · intro p' hp'
        rw [pc_goto] at hp'
        split_ifs at hp'
        · cases hp'
        · exact h.running p' hp'
    · exact h
  · exact h.startGeneration hpc hs
  · cases hs
    have hholds : (q.pc p).holdsRunner = true := by rw [hpc]; rfl
    have hin : (q.pc p).inGeneration = true := by rw [hpc]; rfl
    exact h.goto (fun _ => hholds) fun _ => hin
  · cases hs
    have hholds : (q.pc p).holdsRunner = true := by rw [hpc]; rfl
    exact h.release hholds rfl fun _ => rfl
  · split_ifs at hs <;> cases hs
    · exact h.exit rfl
    · exact h.free rfl
    · exact h.free rfl
  · exact h.heal (fun _ => rfl) hs
  · split_ifs at hs <;> cases hs
    · exact h.free rfl
    · have htaken : Exclusive { q with state := { q.state with memo := ∅ } } :=
        h.keep rfl rfl fun _ => rfl
      exact htaken.free rfl
  · rename_i memo followup
    cases hs
    have hput : Exclusive { q with state := { q.state with memo } } := h.keep rfl rfl fun _ => rfl
    refine hput.free ?_
    cases followup <;> rfl
  · split_ifs at hs <;> cases hs
    · exact h.free rfl
    · have htaken : Exclusive { q with state := { q.state with memo := ∅ } } :=
        h.keep rfl rfl fun _ => rfl
      exact htaken.free rfl
  · rename_i memo revisionBefore
    cases hs
    have hput : Exclusive { q with state := { q.state with memo } } := h.keep rfl rfl fun _ => rfl
    refine hput.free ?_
    split_ifs <;> rfl
  · exact h.heal (fun _ => rfl) hs
  · cases hs
    refine h.free ?_
    split_ifs <;> rfl
  · cases hs
    exact h.exit (sameControl_publishSettledRevision q.state).runningGeneration
  · cases hs
    have hrequested : Exclusive { q with state := q.state.requestGeneration } :=
      h.keep rfl rfl fun _ => rfl
    exact hrequested.free rfl
  · cases hs
    exact h.leave.free rfl
  · rename_i scoop
    cases hs
    refine h.free ?_
    cases scoop <;> rfl
  · cases hs
    have hdrained : Exclusive { q with deferredCleanup := [] } := h.keep rfl rfl fun _ => rfl
    refine hdrained.free ?_
    split_ifs <;> rfl
  · rename_i entities
    cases hs
    have hcleaned : Exclusive (q.amendHome (drainBound C q.state entities)) :=
      h.keep rfl (sameControl_closeBound C _ _ _).runningGeneration fun _ => rfl
    exact hcleaned.free rfl
  · cases hs
    exact h.free rfl
  · cases hs
    exact h.free rfl
  · cases hs
    exact h.leave.free rfl

theorem Exclusive.cancel (h : Exclusive q) (hs : q.cancel p = some q') : Exclusive q' := by
  have hfree : ∀ b : Bool,
      (if b = true then Pc.unwinding else Pc.idle : Pc α).holdsRunner = false := by
    intro b
    cases b <;> rfl
  unfold Protocol.cancel at hs
  by_cases hholds : (q.pc p).holdsRunner = true
  · split at hs
    · cases hs
    · cases hs
    · cases hs
    · cases hs
      exact h.release hholds (hfree _) fun _ => rfl
  · split at hs
    · cases hs
    · cases hs
    · cases hs
    · cases hs
      constructor
      · intro p' hp'
        rw [pc_goto] at hp'
        by_cases heq : p' = p
        · rw [if_pos heq, hfree] at hp'
          cases hp'
        · rw [if_neg heq] at hp'
          have hheld := h.runner p' hp'
          show (if q.runner = some p then none else q.runner) = some p'
          rw [hheld, if_neg fun hsame => heq (Option.some.inj hsame)]
      · intro p' hp'
        rw [pc_goto] at hp'
        by_cases heq : p' = p
        · rw [if_pos heq] at hp'
          have hx := Pc.holdsRunner_of_inGeneration hp'
          rw [hfree] at hx
          cases hx
        · rw [if_neg heq] at hp'
          have hrunning := h.running p' hp'
          unfold Protocol.goto
          dsimp only
          split
          · rename_i hpc
            rw [hpc] at hholds
            exact absurd rfl hholds
          · exact hrunning

/-- Each action respects the runner lock. -/
theorem Exclusive.act (h : Exclusive q) {a : Action α} (hs : q.act C a = some q') :
    Exclusive q' := by
  cases a with
  | insert commands =>
    obtain ⟨s, hstate, hs⟩ := Option.bind_eq_some_iff.mp hs
    cases hs
    rcases State.acceptInput_eq hstate with ⟨-, rfl⟩ | ⟨-, -, rfl⟩
    · exact h.keep rfl rfl fun _ => rfl
    · exact h.keep rfl rfl fun _ => rfl
  | insertPreempting commands =>
    obtain ⟨s, hstate, hs⟩ := Option.bind_eq_some_iff.mp hs
    cases hs
    obtain ⟨restart, rfl⟩ := State.acceptPreempting_eq hstate
    exact h.keep rfl rfl fun _ => rfl
  | reserve => cases hs; exact h.keep rfl rfl fun _ => rfl
  | reserveSingleton key => cases hs; exact h.keep rfl rfl fun _ => rfl
  | mutate t e v =>
    obtain ⟨s, hstate, hs⟩ := Option.bind_eq_some_iff.mp hs
    cases hs
    obtain ⟨restart, rfl⟩ := State.reachBoundary_eq hstate
    have hholds := fun p => observe_showWrite q p Pc.holdsRunner (fun _ _ => rfl) t e v
    have hin := fun p => observe_showWrite q p Pc.inGeneration (fun _ _ => rfl) t e v
    refine h.same (showWrite_frame q t e v).2.1 ?_ (fun p hp => hholds p ▸ hp)
      fun p hp => hin p ▸ hp
    unfold State.mutate
    dsimp only
    split_ifs <;> rfl
  | takeBound e parts =>
    cases hs
    exact h.keep rfl (sameControl_takeBound C q.state e parts).runningGeneration fun _ => rfl
  | drainBound entities =>
    cases hs
    exact h.keep rfl (sameControl_closeBound C _ _ _).runningGeneration fun _ => rfl
  | dropBound e => cases hs; exact h.keep rfl rfl fun _ => rfl
  | callSettle p scoop =>
    simp only [Protocol.act] at hs
    split at hs
    · split_ifs at hs <;> cases hs <;> exact h.free rfl
    · cases hs
  | awaitInsert p generation =>
    simp only [Protocol.act] at hs
    split at hs
    · cases hs
      exact h.free rfl
    · cases hs
  | advance p => exact h.advance hs
  | writeInPlace p t e v =>
    simp only [Protocol.act] at hs
    split_ifs at hs
    cases hs
    have hholds := fun p => observe_showWrite q p Pc.holdsRunner (fun _ _ => rfl) t e v
    have hin := fun p => observe_showWrite q p Pc.inGeneration (fun _ _ => rfl) t e v
    exact h.same (showWrite_frame q t e v).2.1 rfl (fun p hp => hholds p ▸ hp)
      fun p hp => hin p ▸ hp
  | commit p run phase =>
    have hcommit : ∀ {memo : MemoTable} {phase : Option Phase} {pc : MemoTable → Bool → Pc α},
        (∀ memo changed, (pc memo changed).holdsRunner = (q.pc p).holdsRunner ∧
          (pc memo changed).inGeneration = (q.pc p).inGeneration) →
        q.commit C p memo run phase pc = some q' → Exclusive q' := by
      intro memo phase pc hpc hs
      obtain ⟨⟨after, s, progress⟩, hcommit, hs⟩ := Option.bind_eq_some_iff.mp hs
      cases hs
      have hcommitted : Exclusive { q with
          state := s
          history := if progress.stale = true then q.history
            else q.history.commit C memo after q.state run (phase = some .settle) } :=
        h.keep rfl (sameControl_commitSystemRun C hcommit).runningGeneration fun _ => rfl
      exact hcommitted.goto (fun hx => (hpc _ _).1 ▸ hx) fun hx => (hpc _ _).2 ▸ hx
    simp only [Protocol.act] at hs
    split at hs
    · rename_i hpc
      split_ifs at hs
      exact hcommit (fun _ _ => by rw [hpc]; exact ⟨rfl, rfl⟩) hs
    · rename_i hpc
      exact hcommit (fun _ _ => by rw [hpc]; exact ⟨rfl, rfl⟩) hs
    · rename_i hpc
      exact hcommit (fun _ _ => by rw [hpc]; exact ⟨rfl, rfl⟩) hs
    · cases hs
  | openWindow p =>
    simp only [Protocol.act] at hs
    split at hs
    · cases hs
      exact h.keep rfl rfl fun _ => rfl
    · cases hs
  | closeWindow p =>
    simp only [Protocol.act] at hs
    split at hs
    · cases hs
      exact h.keep rfl rfl fun _ => rfl
    · cases hs
  | cancel p => exact h.cancel hs

theorem Exclusive.rest (h : Exclusive q) : Exclusive q.rest := by
  obtain ⟨hstate, hpc, hrunner, -⟩ := rest_frame q
  exact h.keep hrunner (congrArg State.runningGeneration hstate) hpc

/-- On a clean bowl no normal invocation is in flight. -/
theorem Exclusive.atRest (h : Exclusive q) (hclean : q.state.isClean = true) : q.AtRest := by
  refine ⟨hclean, fun b hb => ?_⟩
  by_contra hdrives
  have hdrives : (q.pc b.1).drives = true := by
    rw [pc_of_mem_parties q hb]
    exact Bool.eq_true_of_not_eq_false hdrives
  have hrunning := h.running b.1 (Pc.inGeneration_of_drives hdrives)
  unfold State.isClean at hclean
  simp only [Bool.and_eq_true] at hclean
  rw [Option.isNone_iff_eq_none.mp hclean.2] at hrunning
  cases hrunning

end Protocol
end Porridge
