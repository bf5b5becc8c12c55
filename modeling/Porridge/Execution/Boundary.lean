import Porridge.Execution.Healed
import Porridge.Protocol.Moves
import Porridge.Protocol.Windows

/-! Mutation boundaries: what is in flight when an external mutation is applied. -/
namespace Porridge

variable {α : Type}

/-- The hooked systems of a settle run, and their runs are still to be committed. -/
def Pc.hooking : Pc α → Bool
  | inHooks .. => true
  | _ => false

namespace Runner

variable {P : Program α} {r r' : Runner α}

/-- The loop of a phase opens no window. -/
theorem shuts_step {a : PhaseStep α} (hs : r.step P a = some r') : r.state.Shuts r'.state := by
  cases works_step hs with
  | marks hstate =>
    rw [hstate]
    exact id
  | @commits id entry outcome s progress systems hfind hcommit hstate =>
    rw [hstate]
    have hcommitted : r.state.Shuts s := shuts_commitSystemRun P.components hcommit
    exact hcommitted

end Runner

namespace Execution

variable {P : Program α} {x x' : Execution α} {p : PartyId}

/-- No invocation is in flight: none of a normal phase, of a settled hook or of a settle phase. -/
structure Idle (x : Execution α) : Prop where
  phases : ∀ l ∈ x.loop, l.running = []
  hooks : ∀ p, (x.drive.protocol.pc p).hooking = false
  passes : ∀ p, x.pass p = []

/-- Nobody runs settled hooks or rows of a settle phase. -/
structure Unsettling (x : Execution α) : Prop where
  hooks : ∀ p, (x.drive.protocol.pc p).hooking = false
  passes : ∀ p, x.pass p = []

/-- The phase loop is that of the caller that drives, and no window is open while it runs. -/
structure Bounded (x : Execution α) : Prop where
  exclusive : x.drive.protocol.Exclusive
  driver : ∀ c ∈ x.drive.cursor, (x.drive.protocol.pc c.party).drives = true
  looping : x.loop.isSome = true → ∃ c ∈ x.drive.cursor, c.paused = false
  window : ∀ c ∈ x.drive.cursor, c.paused = false → x.drive.protocol.state.preemptWindow = false

theorem Bounded.same (h : x.Bounded) (hprotocol : x'.drive.protocol = x.drive.protocol)
    (hcursor : x'.drive.cursor = x.drive.cursor) (hloop : x'.loop.isSome = true → x.loop.isSome = true) :
    x'.Bounded := by
  refine ⟨hprotocol ▸ h.exclusive, ?_, fun hsome => ?_, ?_⟩
  · rw [hprotocol, hcursor]
    exact h.driver
  · rw [hcursor]
    exact h.looping (hloop hsome)
  · rw [hprotocol, hcursor]
    exact h.window

/-- At a boundary no phase loop has an invocation in flight. -/
theorem Bounded.loop_of_boundary (h : x.Bounded)
    (hb : x.drive.protocol.state.atBoundary = true) : x.loop = none := by
  cases hloop : x.loop with
  | none => rfl
  | some l =>
    obtain ⟨c, hc, hpaused⟩ := h.looping (by rw [hloop]; rfl)
    have hrunning := h.exclusive.running c.party
      (Pc.inGeneration_of_drives (h.driver c hc))
    have hwindow := h.window c hc hpaused
    simp only [State.atBoundary, hwindow, Bool.or_false, Option.isNone_iff_eq_none] at hb
    rw [hb] at hrunning
    cases hrunning

theorem atBoundary_of_reachBoundary {s s' : State α} (h : s.reachBoundary = some s') :
    s.atBoundary = true := by
  unfold State.reachBoundary at h
  split_ifs at h with hidle hboundary
  · simp [State.atBoundary, hidle.2]
  · exact hboundary

/-- A generation starts with its window shut. -/
theorem window_of_start {C : Components α} {q q₁ q' : Protocol α} {m : Move α}
    (hact : q.act C (.advance p) = some q₁) (hm : Protocol.Moves C q (.advance p) q' m)
    (hpc : (q'.pc p) = q₁.pc p) (hp : (q.pc p).drives = false) (hq : (q'.pc p).drives = true) :
    q'.state.preemptWindow = false := by
  obtain ⟨g, hg⟩ : ∃ g, (q'.pc p).generation = some g := by
    cases hx : q'.pc p with
    | driving g _ _ _ _ => exact ⟨g, rfl⟩
    | _ => rw [hx] at hq; cases hq
  rcases hm.generation p g hg with hold | rfl
  · -- whoever completes a generation does not drive afterwards
    cases hx : q.pc p with
    | driving _ _ _ _ _ => rw [hx] at hp; cases hp
    | completing _ _ _ _ _ =>
      simp only [Protocol.act, Protocol.advance, hx] at hact
      cases hact
      rw [hpc, Protocol.pc_goto, if_pos rfl] at hq
      cases hq
    | _ => rw [hx] at hold; cases hold
  · obtain ⟨-, -, -, started, hstarted, hstate⟩ := hm.permitted
    rw [hstate]
    exact shuts_startEvaluation C hstarted

/-- The sections of callers keep the phase loop with its driver. -/
theorem Bounded.act (h : x.Bounded) {a : Action α} {q₁ : Protocol α} (hpermits : x.permits a = true)
    (hact : x.drive.protocol.act P.components a = some q₁) :
    (x.act a ⟨q₁.rest, x.drive.cursorAfter q₁.rest a⟩).Bounded := by
  obtain ⟨hstate, hpc, -, -⟩ := Protocol.rest_frame q₁
  have hq : Protocol.step P.components x.drive.protocol a = some q₁.rest := by
    rw [Protocol.step, hact, Option.map_some]
  obtain ⟨m, hm⟩ := Protocol.moves_step hq
  have hexclusive : q₁.rest.Exclusive := (h.exclusive.act hact).rest
  have hdriven := Protocol.driven_act hact
  generalize q₁.rest = q at hstate hpc hm hexclusive ⊢
  have hdrives : ∀ p, (x.drive.protocol.pc p).drives = true → a ≠ .advance p → a ≠ .cancel p →
      (q.pc p).drives = true := fun p hp hne hne' => hpc p ▸ hdriven.drives p hp hne hne'
  have hshut : (∀ p, a ≠ .openWindow p) → ∀ c ∈ x.drive.cursor, c.paused = false →
      q.state.preemptWindow = false := by
    intro hne c hc hpaused
    have hshuts := hdriven.window hne
    rw [← hstate] at hshuts
    exact hshuts.shut (h.window c hc hpaused)
  have hstay : ∀ {x'' : Execution α}, x''.drive = ⟨q, x.drive.cursor⟩ → x''.loop = x.loop →
      (∀ p, a ≠ .openWindow p) → (∀ p, (x.drive.protocol.pc p).drives = true →
        a ≠ .advance p ∧ a ≠ .cancel p) → x''.Bounded := by
    rintro ⟨_, loop, passes⟩ rfl rfl hopen hne
    refine ⟨hexclusive, fun c hc => ?_, h.looping, hshut hopen⟩
    have hparty := h.driver c hc
    exact hdrives c.party hparty (hne c.party hparty).1 (hne c.party hparty).2
  cases a with
  | openWindow p =>
    refine ⟨hexclusive, fun c hc => ?_, fun hloop => (by cases hloop), fun c hc hpaused => ?_⟩
    · obtain ⟨c', hc', rfl⟩ := Option.mem_map.mp hc
      exact hdrives c'.party (h.driver c' hc') (by simp) (by simp)
    · obtain ⟨c', hc', rfl⟩ := Option.mem_map.mp hc
      cases hpaused
  | closeWindow p =>
    have hclosed : q.state.preemptWindow = false := by
      simp only [Protocol.act] at hact
      rw [hstate]
      split at hact
      · cases hact
        rfl
      · cases hact
    refine ⟨hexclusive, fun c hc => ?_, fun hsome => ?_, fun c hc _ => hclosed⟩
    · obtain ⟨c', hc', rfl⟩ := Option.mem_map.mp hc
      exact hdrives c'.party (h.driver c' hc') (by simp) (by simp)
    · obtain ⟨c, hc, -⟩ := h.looping hsome
      exact ⟨c.restart, Option.mem_map_of_mem _ hc, rfl⟩
  | advance p =>
    cases hp : (x.drive.protocol.pc p).drives with
    | true =>
      have hcursor : x.drive.cursorAfter q (.advance p) = none := if_pos hp
      have hnone : x.loop = none := by
        unfold permits at hpermits
        dsimp only at hpermits
        split at hpermits
        · exact Option.isNone_iff_eq_none.mp hpermits
        · rename_i hpc'
          rw [hpc'] at hp
          cases hp
        · rename_i hother _
          cases hx : x.drive.protocol.pc p with
          | driving _ _ _ _ _ => exact (hother _ _ _ _ _ hx).elim
          | _ => rw [hx] at hp; cases hp
      rw [hcursor]
      refine ⟨hexclusive, fun c hc => (by cases hc), fun hsome => ?_, fun c hc => (by cases hc)⟩
      have hsome : x.loop.isSome = true := hsome
      rw [hnone] at hsome
      cases hsome
    | false =>
      cases hq' : (q.pc p).drives with
      | true =>
        have hcursor : ∃ startup, x.drive.cursorAfter q (.advance p) = some (.start p startup) := by
          refine ⟨_, (if_neg ?_).trans (if_pos hq')⟩
          rw [hp]
          exact Bool.false_ne_true
        obtain ⟨startup, hcursor⟩ := hcursor
        have hwindow := window_of_start hact hm (hpc p) hp hq'
        rw [hcursor]
        refine ⟨hexclusive, fun c hc => ?_, fun _ => ⟨_, rfl, rfl⟩, fun c hc _ => hwindow⟩
        obtain rfl := Option.some.inj hc
        exact hq'
      | false =>
        have hcursor : x.drive.cursorAfter q (.advance p) = x.drive.cursor := by
          refine (if_neg ?_).trans (if_neg ?_)
          · rw [hp]
            exact Bool.false_ne_true
          · rw [hq']
            exact Bool.false_ne_true
        rw [hcursor]
        refine hstay rfl rfl (by simp) fun p' hp' => ⟨?_, (by simp)⟩
        rintro heq
        cases heq
        rw [hp] at hp'
        cases hp'
  | cancel p =>
    have hcursor : ∀ c, c ∈ x.drive.cursor.filter (·.party ≠ p) ↔ c ∈ x.drive.cursor ∧ c.party ≠ p := by
      intro c
      rw [Option.mem_def, Option.filter_eq_some_iff, Option.mem_def, decide_eq_true_eq]
    refine ⟨hexclusive, fun c hc => ?_, fun hsome => ?_, fun c hc hpaused => ?_⟩
    · obtain ⟨hc, hne⟩ := (hcursor c).mp hc
      refine hdrives c.party (h.driver c hc) (by simp) fun heq => hne ?_
      cases heq
      rfl
    · have hsome : (if (x.drive.protocol.pc p).drives = true then none else x.loop).isSome = true :=
        hsome
      split_ifs at hsome with hp
      · cases hsome
      · obtain ⟨c, hc, hpaused⟩ := h.looping hsome
        refine ⟨c, (hcursor c).mpr ⟨hc, fun heq => hp ?_⟩, hpaused⟩
        exact heq ▸ h.driver c hc
    · exact hshut (by simp) c ((hcursor c).mp hc).1 hpaused
  | _ => exact hstay rfl rfl (by simp) fun _ _ => ⟨(by simp), (by simp)⟩

/-- A section of the phase loop leaves its driver driving. -/
theorem Bounded.phase (h : x.Bounded) {a : PhaseStep α} {generation : Nat} {memo : MemoTable}
    {changed : Bool} {target : Nat} {waiter : Waiter} {l : PhaseLoop α} {r' : Runner α}
    {history : History α}
    (hpc : x.drive.protocol.pc p = .driving generation memo changed target waiter)
    (hl : x.loop = some l) (hr : Runner.step P ⟨x.drive.protocol.state, memo, l⟩ a = some r')
    (hprotocol : x'.drive.protocol = Protocol.goto { x.drive.protocol with state := r'.state, history }
      p (.driving generation r'.memo (changed || r'.loop.changed) target waiter))
    (hcursor : x'.drive.cursor = x.drive.cursor) : x'.Bounded := by
  let q : Protocol α := { x.drive.protocol with state := r'.state, history }
  have hrunning : q.state.runningGeneration = x.drive.protocol.state.runningGeneration :=
    (Runner.onward_step hr).2.runningGeneration
  have hshuts : x.drive.protocol.state.Shuts q.state := Runner.shuts_step hr
  have hkept : q.Exclusive := h.exclusive.keep rfl hrunning fun _ => rfl
  have hin : (q.pc p).inGeneration = true := by
    show (x.drive.protocol.pc p).inGeneration = true
    rw [hpc]
    rfl
  refine ⟨?_, fun c hc => ?_, fun _ => ?_, fun c hc hpaused => ?_⟩
  · rw [hprotocol]
    exact hkept.goto (fun _ => Pc.holdsRunner_of_inGeneration hin) fun _ => hin
  · rw [hcursor] at hc
    rw [hprotocol]
    show ((q.goto p _).pc c.party).drives = true
    rw [Protocol.pc_goto]
    split_ifs
    · rfl
    · exact h.driver c hc
  · rw [hcursor]
    exact h.looping (by rw [hl]; rfl)
  · rw [hcursor] at hc
    rw [hprotocol]
    exact hshuts.shut (h.window c hc hpaused)

/-- Going on to the next phase. -/
theorem Bounded.nextPhase (h : x.Bounded) (hdrive : x'.drive = x.nextPhase)
    (hloop : x'.loop.isSome = true → x.loop.isSome = true) : x'.Bounded := by
  refine ⟨?_, fun c hc => ?_, fun hsome => ?_, fun c hc hpaused => ?_⟩
  · rw [hdrive]
    exact h.exclusive
  · rw [hdrive] at hc ⊢
    obtain ⟨c', hc', rfl⟩ := Option.mem_map.mp hc
    exact h.driver c' hc'
  · rw [hdrive]
    obtain ⟨c, hc, hpaused⟩ := h.looping (hloop hsome)
    exact ⟨_, Option.mem_map_of_mem _ hc, hpaused⟩
  · rw [hdrive] at hc ⊢
    obtain ⟨c', hc', rfl⟩ := Option.mem_map.mp hc
    exact h.window c' hc' hpaused

theorem Bounded.step (h : x.Bounded) {a : ExecutionStep α} (hs : Execution.step P x a = some x') :
    x'.Bounded := by
  cases step_cases hs with
  | act hpermits hact => exact h.act hpermits hact
  | enterPhase hphase hnone =>
    refine ⟨h.exclusive, h.driver, fun _ => ?_, h.window⟩
    obtain ⟨c, hc, hrun⟩ := Option.bind_eq_some_iff.mp hphase
    unfold Cursor.phase? at hrun
    split_ifs at hrun with hcursor
    exact ⟨c, hc, hcursor.2⟩
  | skipPhase hnone => exact h.nextPhase rfl id
  | phase hpc hl hr => exact h.phase hpc hl hr rfl rfl
  | leavePhase hl hcompleted => exact h.nextPhase rfl nofun
  | startSettle hpc hfirst hruns => exact h.same rfl rfl id
  | @finishSettle p index outcome epoch memo after before run state progress hpc hrun hcommit =>
    let q : Protocol α := { x.drive.protocol with
      state
      history := noteCommit P x.drive.protocol memo after (run.finish outcome) true }
    have hrunning : q.state.runningGeneration = x.drive.protocol.state.runningGeneration :=
      (sameControl_commitSystemRun P.components hcommit).runningGeneration
    have hshuts : x.drive.protocol.state.Shuts q.state := shuts_commitSystemRun P.components hcommit
    have hkept : q.Exclusive := h.exclusive.keep rfl hrunning fun _ => rfl
    refine ⟨hkept.free rfl, fun c hc => ?_, h.looping, fun c hc hpaused =>
      hshuts.shut (h.window c hc hpaused)⟩
    have hparty := h.driver c hc
    have hne : c.party ≠ p := by
      rintro heq
      rw [heq, hpc] at hparty
      cases hparty
    show ((q.goto p _).pc c.party).drives = true
    rw [Protocol.pc_goto, if_neg hne]
    exact hparty

theorem bounded_new : (new P).Bounded := by
  let q : Protocol α := { Protocol.new P.boxedSystems P.hooked with
    state := { State.build P.boxedSystems P.hooked with world := .ofSchema P.schema } }
  have hidle : ∀ p, q.pc p = .idle := fun _ => rfl
  have hq : q.Exclusive := by
    refine ⟨fun p hp => ?_, fun p hp => ?_⟩
    · rw [hidle] at hp
      cases hp
    · rw [hidle] at hp
      cases hp
  exact ⟨hq.rest, nofun, nofun, nofun⟩

theorem bounded_of_reachable (h : Reachable P x) : x.Bounded := by
  refine h.invariant Bounded ?_ fun x a x' hx _ hs => hx.step hs
  rintro x rfl
  exact bounded_new

/-- Whenever an external mutation is applied, no invocation is in flight exactly when nobody runs
settled hooks or rows of a settle phase. -/
theorem idle_iff_of_mutate (h : Reachable P x) {t : TypeId} {e : Entity} {v : Value α}
    (hs : step P x (.act (.mutate t e v)) = some x') : x.Idle ↔ x.Unsettling := by
  have hboundary : x.drive.protocol.state.atBoundary = true := by
    obtain @⟨_, q₁, hpermits, hact⟩ := step_cases hs
    obtain ⟨s, hstate, -⟩ := Option.bind_eq_some_iff.mp hact
    exact atBoundary_of_reachBoundary hstate
  have hloop : x.loop = none := (bounded_of_reachable h).loop_of_boundary hboundary
  constructor
  · intro hidle
    exact ⟨hidle.hooks, hidle.passes⟩
  · intro hunsettling
    refine ⟨fun l hl => ?_, hunsettling.hooks, hunsettling.passes⟩
    rw [hloop] at hl
    cases hl

section Mutated

theorem hooking_reaped (p : PartyId) : (reaped.drive.protocol.pc p).hooking = false := by
  have hparties : reaped.drive.protocol.parties =
    AList.insert 1 (reaped.drive.protocol.pc 1) ∅ := rfl
  unfold Protocol.pc at hparties ⊢
  rw [hparties, Dict.getD_insert]
  split_ifs <;> rfl

/-- A settle about to publish is drained when a mutation comes. -/
theorem reaped_idle : ((step reapingBowl reaped) (.act (.mutate 1 0 (.data 9)))).isSome = true ∧
    reaped.Idle := by
  have hrun : (machine reapingBowl).run (new reapingBowl) reaping = some reaped := rfl
  have hreached : Reachable reapingBowl reaped := .run (.init rfl) hrun
  have hsome : ((step reapingBowl reaped) (.act (.mutate 1 0 (.data 9)))).isSome = true := by decide
  obtain ⟨x', hmutated⟩ := Option.isSome_iff_exists.mp hsome
  exact ⟨hsome, (idle_iff_of_mutate hreached hmutated).mpr ⟨hooking_reaped, fun _ => rfl⟩⟩

/-- Caller 1 has just started the row of a settle phase. -/
def settlingRow : List (ExecutionStep Nat) :=
  let advance (n : Nat) := (Protocol.advances n 1).map ExecutionStep.act
  [.act (.insert [.insert 1 0 (.data 7), .insert 3 0 (.data 7), .insert 2 5 (.data 8)]),
    .act (.callSettle 1 false)] ++ advance 4 ++ .enterPhase 1 :: evaluateRow ++ advance 7 ++
      [.startSettle 1]

def settlingBowl : Execution Nat :=
  ((machine reapingBowl).run (new reapingBowl) settlingRow).getD (new reapingBowl)

def mutatedBowl : Execution Nat :=
  ((step reapingBowl settlingBowl) (.act (.mutate 1 0 (.data 9)))).getD settlingBowl

def finishedBowl : Execution Nat :=
  ((step reapingBowl mutatedBowl)
    (.finishSettle 1 0 ⟨[], [[.removeComponent 2 5]], []⟩)).getD mutatedBowl

/-- A mutation is applied under a row of a settle phase, which still commits what it removes. -/
theorem settling_mutated : ¬ (∀ (P : Program Nat) (x x' : Execution Nat) (t : TypeId) (e : Entity)
    (v : Value Nat), Reachable P x → step P x (.act (.mutate t e v)) = some x' → x.Idle) ∧
    mutatedBowl.drive.protocol.state.world.has 2 5 = true ∧
    finishedBowl.drive.protocol.state.world.has 2 5 = false := by
  refine ⟨fun hall => ?_, by decide, by decide⟩
  have hrun : (machine reapingBowl).run (new reapingBowl) settlingRow = some settlingBowl := rfl
  have hreached : Reachable reapingBowl settlingBowl := .run (.init rfl) hrun
  have hmutated : step reapingBowl settlingBowl (.act (.mutate 1 0 (.data 9))) =
    some mutatedBowl := rfl
  have hidle := hall reapingBowl settlingBowl mutatedBowl 1 0 (.data 9) hreached hmutated
  have hpass : (settlingBowl.pass 1).length = 0 := by rw [hidle.passes 1]; rfl
  have hone : (settlingBowl.pass 1).length = 1 := rfl
  rw [hone] at hpass
  cases hpass

end Mutated

end Execution
end Porridge
