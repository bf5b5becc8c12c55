import Porridge.Protocol.Generations
import Porridge.Protocol.Windows

/-! What a section does to the generations that callers wait for, and to the callers that wait. -/
namespace Porridge

variable {α : Type}

/-- The caller is about to complete its generation. -/
def Pc.completes : Pc α → Bool
  | completing .. => true
  | _ => false

/-- The caller waits for a generation to complete. -/
def Pc.waitsFor (target : Nat) (waiter : Waiter) (x : Pc α) : Prop := x = .ensuring target waiter

/-- Nobody is at a mutation boundary, or the driver was dropped and its generation is pending. -/
def State.Sealed (s : State α) : Prop :=
  (s.runningGeneration.isSome = true ∧ s.preemptWindow = false) ∨
    (s.runningGeneration = none ∧ s.pendingGeneration.isSome = true)

theorem State.Sealed.of_not_boundary {s : State α} (h : s.reachBoundary = none) : s.Sealed := by
  unfold State.reachBoundary State.atBoundary at h
  split_ifs at h with hidle hboundary
  refine Or.inl ⟨?_, ?_⟩
  · cases hr : s.runningGeneration with
    | none => simp [hr] at hboundary
    | some r => rfl
  · cases hw : s.preemptWindow with
    | false => rfl
    | true => simp [hw] at hboundary

/-- Requests open no boundary. -/
theorem Requests.sealed {s s' : State α} (h : Requests s s') (hw : s.Shuts s') (hs : s.Sealed) :
    s'.Sealed := by
  unfold State.Sealed at *
  rw [h.runningGeneration]
  rcases hs with ⟨hrunning, hshut⟩ | ⟨hnone, hpending⟩
  · exact Or.inl ⟨hrunning, hw.shut hshut⟩
  · refine Or.inr ⟨hnone, ?_⟩
    rcases h.pendingGeneration with hp | hp <;> rw [hp]
    · exact hpending
    · rfl

namespace Protocol

variable {C : Components α} {q q' q₁ : Protocol α} {p : PartyId} {x : Pc α} {a : Action α}

/-- A section completes no generation unless it is the one that does, and a caller that waits for a
generation goes on waiting unless the section is its own. -/
structure Awaits (q : Protocol α) (a : Action α) (q' : Protocol α) : Prop where
  completed : (∀ p, a = .advance p → (q.pc p).completes = false) →
    q'.state.completedGeneration = q.state.completedGeneration
  waits : ∀ p target waiter, (q.pc p).waitsFor target waiter → a ≠ .advance p → a ≠ .cancel p →
    (q'.pc p).waitsFor target waiter

theorem Awaits.stay (hs : q'.state.completedGeneration = q.state.completedGeneration)
    (hpc : ∀ p, q'.pc p = q.pc p) : Awaits q a q' := by
  refine ⟨fun _ => hs, fun p target waiter hp _ _ => ?_⟩
  rw [hpc]
  exact hp

theorem Awaits.goto (hs : q₁.state.completedGeneration = q.state.completedGeneration)
    (hpc : ∀ p, q₁.pc p = q.pc p)
    (hp : ∀ target waiter, (q.pc p).waitsFor target waiter → a = .advance p ∨ a = .cancel p) :
    Awaits q a (q₁.goto p x) := by
  refine ⟨fun _ => hs, fun p' target waiter hp' ha hc => ?_⟩
  rw [pc_goto]
  split_ifs with heq
  · subst heq
    exact ((hp target waiter hp').elim ha hc).elim
  · rw [hpc]
    exact hp'

theorem awaits_showWrite (hs : q₁.state.completedGeneration = q.state.completedGeneration)
    (t : TypeId) (e : Entity) (v : Value α) (hpc : ∀ p, q₁.pc p = (q.showWrite t e v).pc p) :
    Awaits q a q₁ := by
  refine ⟨fun _ => hs, fun p target waiter hp _ _ => ?_⟩
  have hshown := observe_showWrite q p (Pc.waitsFor target waiter)
    (fun _ _ => propext ⟨fun h => (by cases h), fun h => (by cases h)⟩) t e v
  rw [hpc, hshown]
  exact hp

/-- The sections of a caller other than the one that completes its generation. -/
theorem completed_advance (hx : (q.pc p).completes = false) (hs : q.advance C p = some q') :
    q'.state.completedGeneration = q.state.completedGeneration := by
  have hexit : ∀ (epoch : Epoch) (done : State α → State α),
      (done q.state).completedGeneration = q.state.completedGeneration →
        (q.exit p epoch done).state.completedGeneration = q.state.completedGeneration := by
    intro epoch done hdone
    unfold Protocol.exit
    dsimp only
    split_ifs
    · exact (requests_promote q.state _).completedGeneration
    · exact hdone
  have hheal : ∀ (epoch : Epoch) (onwards : Epoch → Pc α), q.heal p epoch onwards = some q' →
      q'.state.completedGeneration = q.state.completedGeneration := by
    intro epoch onwards h
    obtain ⟨r, hhealed, hs⟩ := Option.bind_eq_some_iff.mp h
    cases hs
    exact (sameControl_healStaleAmbient hhealed).1.completedGeneration
  have hleave : q.leave.state.completedGeneration = q.state.completedGeneration := by
    unfold Protocol.leave
    dsimp only
    split_ifs
    · exact (requests_promote { q.state with settling := q.state.settling - 1 } _).completedGeneration
    · rfl
  unfold Protocol.advance at hs
  split at hs <;> rename_i hpc
  · cases hs
  · cases hs
    rfl
  · split_ifs at hs <;> cases hs
    · exact hexit _ id rfl
    · rfl
  · split_ifs at hs <;> cases hs <;> rfl
  · obtain ⟨started, hstarted, hs⟩ := Option.bind_eq_some_iff.mp hs
    cases started with
    | none =>
      cases hs
      rfl
    | some started =>
      cases hs
      exact (startEvaluation_control hstarted).2.completedGeneration
  · cases hs
    rfl
  · rw [hpc] at hx
    cases hx
  · split_ifs at hs <;> cases hs
    · exact hexit _ id rfl
    · rfl
    · rfl
  · exact hheal _ _ hs
  · split_ifs at hs <;> cases hs <;> rfl
  · cases hs
    rfl
  · split_ifs at hs <;> cases hs <;> rfl
  · cases hs
    rfl
  · exact hheal _ _ hs
  · cases hs
    rfl
  · cases hs
    exact hexit _ _ (sameControl_publishSettledRevision q.state).completedGeneration
  · cases hs
    rfl
  · cases hs
    exact hleave
  · cases hs
    rfl
  · cases hs
    rfl
  · cases hs
    exact (sameControl_closeBound C _ q.state _).completedGeneration
  · cases hs
    rfl
  · cases hs
    rfl
  · cases hs
    exact hleave

theorem completed_cancel (hs : q.cancel p = some q') :
    q'.state.completedGeneration = q.state.completedGeneration := by
  unfold Protocol.cancel at hs
  split at hs
  · cases hs
  · cases hs
  · cases hs
  · cases hs
    dsimp only [Protocol.goto]
    split <;> rfl

theorem awaits_commit {memo : MemoTable} {run : SystemRun α} {phase : Option Phase}
    {pc : MemoTable → Bool → Pc α} (hp : ∀ target waiter, ¬ (q.pc p).waitsFor target waiter)
    (h : q.commit C p memo run phase pc = some q') : Awaits q a q' := by
  obtain ⟨⟨after, s, progress⟩, hcommit, hs⟩ := Option.bind_eq_some_iff.mp h
  cases hs
  exact .goto (sameControl_commitSystemRun C hcommit).completedGeneration (fun _ => rfl)
    fun target waiter hwaits => absurd hwaits (hp target waiter)

theorem awaits_act (hs : q.act C a = some q') : Awaits q a q' := by
  cases a with
  | insert commands =>
    obtain ⟨s, hstate, hs⟩ := Option.bind_eq_some_iff.mp hs
    cases hs
    rcases State.acceptInput_eq hstate with ⟨-, rfl⟩ | ⟨-, -, rfl⟩ <;> exact .stay rfl fun _ => rfl
  | insertPreempting commands =>
    obtain ⟨s, hstate, hs⟩ := Option.bind_eq_some_iff.mp hs
    cases hs
    obtain ⟨restart, rfl⟩ := State.acceptPreempting_eq hstate
    exact .stay rfl fun _ => rfl
  | reserve => cases hs; exact .stay rfl fun _ => rfl
  | reserveSingleton key => cases hs; exact .stay rfl fun _ => rfl
  | mutate t e v =>
    obtain ⟨s, hstate, hs⟩ := Option.bind_eq_some_iff.mp hs
    cases hs
    obtain ⟨restart, rfl⟩ := State.reachBoundary_eq hstate
    refine awaits_showWrite ?_ t e v fun _ => rfl
    unfold State.mutate
    dsimp only
    split_ifs <;> rfl
  | takeBound e parts =>
    cases hs
    exact .stay (sameControl_takeBound C q.state e parts).completedGeneration fun _ => rfl
  | drainBound entities =>
    cases hs
    exact .stay (sameControl_closeBound C _ q.state _).completedGeneration fun _ => rfl
  | dropBound e => cases hs; exact .stay rfl fun _ => rfl
  | callSettle p scoop =>
    simp only [Protocol.act] at hs
    split at hs
    · rename_i hpc
      have hidle : ∀ target waiter, ¬ (q.pc p).waitsFor target waiter := by
        intro target waiter hwaits
        rw [hpc] at hwaits
        cases hwaits
      split_ifs at hs <;> cases hs <;>
        exact .goto rfl (fun _ => rfl) fun target waiter hwaits => absurd hwaits (hidle target waiter)
    · cases hs
  | awaitInsert p generation =>
    simp only [Protocol.act] at hs
    split at hs
    · rename_i hpc
      cases hs
      refine .goto rfl (fun _ => rfl) fun target waiter hwaits => ?_
      rw [hpc] at hwaits
      cases hwaits
    · cases hs
  | advance p =>
    refine ⟨fun hx => completed_advance (hx p rfl) hs, fun p' target waiter hwaits ha _ => ?_⟩
    rw [(alone_advance hs).others p' fun heq => ha (heq ▸ rfl)]
    exact hwaits
  | writeInPlace p t e v =>
    simp only [Protocol.act] at hs
    split_ifs at hs
    cases hs
    exact awaits_showWrite rfl t e v fun _ => rfl
  | commit p run phase =>
    have hbusy : ∀ {x : Pc α}, q.pc p = x → (∀ target waiter, ¬ x.waitsFor target waiter) →
        ∀ target waiter, ¬ (q.pc p).waitsFor target waiter := by
      intro x hpc hx target waiter hwaits
      exact hx target waiter (hpc ▸ hwaits)
    simp only [Protocol.act] at hs
    split at hs <;> rename_i hpc
    · split_ifs at hs
      exact awaits_commit (hbusy hpc fun _ _ h => (by cases h)) hs
    · exact awaits_commit (hbusy hpc fun _ _ h => (by cases h)) hs
    · exact awaits_commit (hbusy hpc fun _ _ h => (by cases h)) hs
    · cases hs
  | openWindow p =>
    simp only [Protocol.act] at hs
    split at hs
    · cases hs
      exact .stay rfl fun _ => rfl
    · cases hs
  | closeWindow p =>
    simp only [Protocol.act] at hs
    split at hs
    · cases hs
      exact .stay rfl fun _ => rfl
    · cases hs
  | cancel p =>
    refine ⟨fun _ => completed_cancel hs, fun p' target waiter hwaits _ hc => ?_⟩
    rw [(alone_cancel hs).others p' fun heq => hc (heq ▸ rfl)]
    exact hwaits

/-- Only opening a window and completing a generation make a boundary that callers sleep for. -/
theorem sealed_act (hg : Generations q) (hs : q.act C a = some q')
    (hopen : ∀ p, a ≠ .openWindow p)
    (hx : ∀ p, a = .advance p → (q.pc p).completes = false) (hsealed : q.state.Sealed) :
    q'.state.Sealed := by
  have hwindow := (steady_act hs).window hopen
  have hcompleted := (awaits_act hs).completed hx
  obtain ⟨m, hpermitted, hstate, -, -⟩ := moves_act hs
  have hrequests : Requests q.state (m.apply q.state) → q'.state.Sealed := fun hr =>
    (hr.control hstate).sealed hwindow hsealed
  cases m with
  | keep => exact hrequests (.of_control .rfl)
  | request => exact hrequests ⟨rfl, rfl, rfl, Or.inr rfl⟩
  | accept commands => exact hrequests ⟨rfl, rfl, rfl, Or.inr rfl⟩
  | defer commands => exact hrequests ⟨rfl, rfl, rfl, Or.inl rfl⟩
  | enter => exact hrequests ⟨rfl, rfl, rfl, Or.inl rfl⟩
  | promote watermark => exact hrequests (requests_promote q.state watermark)
  | leave => exact hrequests (requests_leaveEpoch q.state)
  | start p generation =>
    obtain ⟨-, -, -, started, hstarted, hstate'⟩ := hpermitted
    refine Or.inl ⟨?_, ?_⟩
    · rw [hstate.runningGeneration]
      rfl
    · rw [hstate']
      exact shuts_startEvaluation C hstarted
  | complete p generation =>
    have hrunning := hg.driven p generation hpermitted
    have hlater := (hg.numbers.running generation hrunning).1
    have hnow : q'.state.completedGeneration = generation := hstate.completedGeneration
    omega
  | abandon p generation =>
    refine Or.inr ⟨hstate.runningGeneration, ?_⟩
    rw [hstate.pendingGeneration]
    rfl

/-- At most a generation is requested, and every caller stays where it is. -/
structure GoesOn (q q' : Protocol α) : Prop where
  requests : Requests q.state q'.state
  window : q'.state.preemptWindow = q.state.preemptWindow
  runner : q'.runner = q.runner
  observe : ∀ {β : Type} (f : Pc α → β),
    (∀ snapshot snapshot', f (.read snapshot) = f (.read snapshot')) →
      ∀ p, f (q'.pc p) = f (q.pc p)

theorem GoesOn.of_pc (hr : Requests q.state q'.state)
    (hw : q'.state.preemptWindow = q.state.preemptWindow)
    (hrunner : q'.runner = q.runner) (hpc : ∀ p, q'.pc p = q.pc p) : GoesOn q q' :=
  ⟨hr, hw, hrunner, fun f _ p => congrArg f (hpc p)⟩

theorem GoesOn.rest (h : GoesOn q q') : GoesOn q q'.rest := by
  obtain ⟨hstate, hpc, hrunner, -⟩ := rest_frame q'
  refine ⟨hstate.symm ▸ h.requests, hstate.symm ▸ h.window, hrunner.trans h.runner, ?_⟩
  intro β f hf p
  rw [hpc]
  exact h.observe f hf p

theorem GoesOn.generations (h : GoesOn q q') (hg : Generations q) : Generations q' := by
  have hexclusive : Exclusive q' := hg.exclusive.same h.runner h.requests.runningGeneration
    (fun p hp => h.observe Pc.holdsRunner (fun _ _ => rfl) p ▸ hp)
    fun p hp => h.observe Pc.inGeneration (fun _ _ => rfl) p ▸ hp
  exact hg.requests hexclusive h.requests fun p g hp =>
    h.observe Pc.generation (fun _ _ => rfl) p ▸ hp

theorem GoesOn.sealed (h : GoesOn q q') (hs : q.state.Sealed) : q'.state.Sealed :=
  h.requests.sealed (fun hopen => h.window.symm.trans hopen) hs

theorem GoesOn.waits (h : GoesOn q q') {target : Nat} {waiter : Waiter}
    (hp : (q.pc p).waitsFor target waiter) : (q'.pc p).waitsFor target waiter := by
  rw [h.observe (Pc.waitsFor target waiter)
    (fun _ _ => propext ⟨fun heq => (by cases heq), fun heq => (by cases heq)⟩) p]
  exact hp

/-- An external mutation at a boundary. -/
theorem goesOn_mutate {t : TypeId} {e : Entity} {v : Value α}
    (hs : q.act C (.mutate t e v) = some q') : GoesOn q q' := by
  obtain ⟨s, hstate, hs⟩ := Option.bind_eq_some_iff.mp hs
  cases hs
  obtain ⟨restart, rfl⟩ := State.reachBoundary_eq hstate
  have hmutated : ∀ s : State α, Requests s (s.mutate C t e v) ∧
      (s.mutate C t e v).preemptWindow = s.preemptWindow := by
    intro s
    unfold State.mutate
    dsimp only
    split_ifs
    · exact ⟨⟨rfl, rfl, rfl, Or.inr rfl⟩, rfl⟩
    · exact ⟨⟨rfl, rfl, rfl, Or.inl rfl⟩, rfl⟩
  obtain ⟨hrequests, hwindow⟩ := hmutated { q.state with preemptRestart := restart }
  exact ⟨⟨hrequests.1, hrequests.2, hrequests.3, hrequests.4⟩, hwindow,
    (showWrite_frame q t e v).2.1, fun f hf p => observe_showWrite q p f hf t e v⟩

end Protocol
end Porridge
