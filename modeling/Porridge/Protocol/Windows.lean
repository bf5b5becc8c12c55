import Porridge.Protocol.Control

/-! Only a driver opens a window, and a driver goes on driving until it is advanced or dropped. -/
namespace Porridge

variable {α : Type}

/-- Rows of a settle phase may be in flight. -/
def Pc.passing : Pc α → Bool
  | inSettlePhase .. => true
  | _ => false

/-- No window is open that was shut before. -/
def State.Shuts (s s' : State α) : Prop := s'.preemptWindow = true → s.preemptWindow = true

theorem State.Shuts.shut {s s' : State α} (h : s.Shuts s') (hs : s.preemptWindow = false) :
    s'.preemptWindow = false := by
  cases hopen : s'.preemptWindow with
  | false => rfl
  | true =>
    rw [h hopen] at hs
    cases hs

section Sections

variable (C : Components α)

theorem shuts_publishSettledRevision (s : State α) : s.Shuts s.publishSettledRevision := by
  unfold State.publishSettledRevision
  split_ifs <;> exact id

theorem shuts_closeBound (settled : Bool) (s : State α) (entities : List Entity) :
    s.Shuts (closeBound C settled s entities) := by
  unfold closeBound
  dsimp only
  split_ifs
  · exact shuts_publishSettledRevision (cleanupBoundEntities C s entities)
  · exact id

theorem shuts_promoteDeferredInputs (s : State α) (watermark : Nat) :
    s.Shuts (s.promoteDeferredInputs watermark).2 := by
  unfold State.promoteDeferredInputs
  dsimp only
  split_ifs <;> exact id

theorem shuts_healStaleAmbient {attempts : Dict SystemInvocation Nat} {s : State α}
    {r : Bool × Dict SystemInvocation Nat × State α} (h : healStaleAmbient attempts s = some r) :
    s.Shuts r.2.2 := by
  obtain ⟨healed, hfold, rfl⟩ := Option.map_eq_some_iff.mp h
  refine List.foldlM_some_induction (fun r : Dict SystemInvocation Nat × State α => s.Shuts r.2) _
    hfold id ?_
  intro r victim r' _ hr hstep
  simp only [healVictim] at hstep
  split_ifs at hstep
  cases hstep
  exact hr

theorem shuts_publishOutputs {deferInserts : Bool} {outputs : List (SystemOutput α)}
    {s s' : State α} (h : publishOutputs C s outputs deferInserts = some s') : s.Shuts s' := by
  refine List.foldlM_some_induction s.Shuts outputs h id ?_
  intro u output u' _ hu hstep
  obtain ⟨w, -, hw⟩ := Option.bind_eq_some_iff.mp hstep
  cases hw
  exact hu

theorem shuts_commitSystemRun {memo after : MemoTable} {s s' : State α} {run : SystemRun α}
    {phase : Option Phase} {progress : CommitProgress}
    (h : commitSystemRun C memo s run phase = some (after, s', progress)) : s.Shuts s' := by
  unfold commitSystemRun at h
  split_ifs at h
  · obtain ⟨published, hpublished, h⟩ := Option.bind_eq_some_iff.mp h
    cases h
    have hpublish : s.Shuts published.2 := by
      obtain ⟨u, hu, hrun⟩ := Option.bind_eq_some_iff.mp hpublished
      cases hrun
      have hshuts : s.Shuts u := shuts_publishOutputs C hu
      exact hshuts
    have hreconcile : published.2.Shuts (reconcileCommit C published.1 published.2).2 := by
      unfold reconcileCommit
      dsimp only
      split_ifs <;> exact id
    exact fun hopen => hpublish (hreconcile hopen)
  · cases h
    exact id

theorem shuts_startEvaluation {s : State α} {started : Started α}
    (h : startEvaluation C s = some (some started)) : started.state.preemptWindow = false := by
  unfold startEvaluation at h
  split at h
  · cases h
  · obtain ⟨applied, -, hlaunch⟩ := Option.bind_eq_some_iff.mp h
    cases hlaunch
    rfl

end Sections

namespace Protocol

variable {C : Components α} {q q' q₁ : Protocol α} {p p' : PartyId} {x : Pc α} {a : Action α}

/-- No window opens, and every caller but `p` stays where it is. -/
structure Alone (q : Protocol α) (p : PartyId) (q' : Protocol α) : Prop where
  window : q.state.Shuts q'.state
  others : ∀ p', p' ≠ p → q'.pc p' = q.pc p'

theorem Alone.goto (hw : q.state.Shuts q₁.state) (hpc : ∀ p', q₁.pc p' = q.pc p') :
    q.Alone p (q₁.goto p x) := by
  refine ⟨hw, fun p' hne => ?_⟩
  rw [pc_goto, if_neg hne, hpc]

theorem alone_exit (q : Protocol α) (p : PartyId) (epoch : Epoch) {done : State α → State α}
    (hdone : q.state.Shuts (done q.state)) : q.Alone p (q.exit p epoch done) := by
  unfold Protocol.exit
  dsimp only
  split_ifs
  · exact .goto (shuts_promoteDeferredInputs q.state _) fun _ => rfl
  · exact .goto hdone fun _ => rfl

theorem alone_heal {epoch : Epoch} {onwards : Epoch → Pc α}
    (h : q.heal p epoch onwards = some q') : q.Alone p q' := by
  obtain ⟨⟨healed, attempts, s⟩, hhealed, hs⟩ := Option.bind_eq_some_iff.mp h
  cases hs
  exact .goto (shuts_healStaleAmbient hhealed) fun _ => rfl

theorem alone_leave (q : Protocol α) (p : PartyId) (x : Pc α) : q.Alone p (q.leave.goto p x) := by
  refine .goto ?_ (leave_frame q).1
  unfold leave
  dsimp only
  split_ifs
  · exact shuts_promoteDeferredInputs { q.state with settling := q.state.settling - 1 } State.maxTag
  · exact id

/-- A caller takes its next section alone. -/
theorem alone_advance (hs : q.advance C p = some q') : q.Alone p q' := by
  unfold Protocol.advance at hs
  split at hs
  · cases hs
  · cases hs
    exact .goto id fun _ => rfl
  · split_ifs at hs <;> cases hs
    · exact alone_exit q p _ id
    · exact .goto id fun _ => rfl
  · split_ifs at hs <;> cases hs
    · exact .goto id fun _ => rfl
    · exact .goto id fun _ => rfl
    · exact ⟨id, fun _ _ => rfl⟩
  · obtain ⟨started, hstarted, hs⟩ := Option.bind_eq_some_iff.mp hs
    cases started with
    | none =>
      cases hs
      exact .goto id fun _ => rfl
    | some started =>
      cases hs
      refine .goto (fun hopen => ?_) fun _ => rfl
      rw [shuts_startEvaluation C hstarted] at hopen
      cases hopen
  · cases hs
    exact .goto id fun _ => rfl
  · cases hs
    exact .goto id fun _ => rfl
  · split_ifs at hs <;> cases hs
    · exact alone_exit q p _ id
    · exact .goto id fun _ => rfl
    · exact .goto id fun _ => rfl
  · exact alone_heal hs
  · split_ifs at hs <;> cases hs
    · exact .goto id fun _ => rfl
    · exact .goto id fun _ => rfl
  · cases hs
    exact .goto id fun _ => rfl
  · split_ifs at hs <;> cases hs
    · exact .goto id fun _ => rfl
    · exact .goto id fun _ => rfl
  · cases hs
    exact .goto id fun _ => rfl
  · exact alone_heal hs
  · cases hs
    exact .goto id fun _ => rfl
  · cases hs
    exact alone_exit q p _ (shuts_publishSettledRevision q.state)
  · cases hs
    exact .goto id fun _ => rfl
  · cases hs
    exact alone_leave q p _
  · cases hs
    exact .goto id fun _ => rfl
  · cases hs
    exact .goto id fun _ => rfl
  · cases hs
    exact .goto (shuts_closeBound C _ q.state _) fun _ => rfl
  · cases hs
    exact .goto id fun _ => rfl
  · cases hs
    exact .goto id fun _ => rfl
  · cases hs
    exact alone_leave q p _

theorem alone_cancel (hs : q.cancel p = some q') : q.Alone p q' := by
  unfold Protocol.cancel at hs
  split at hs
  · cases hs
  · cases hs
  · cases hs
  · cases hs
    refine .goto ?_ fun _ => rfl
    dsimp only
    split <;> exact id

theorem alone_commit {memo : MemoTable} {run : SystemRun α} {phase : Option Phase}
    {pc : MemoTable → Bool → Pc α} (h : q.commit C p memo run phase pc = some q') :
    q.Alone p q' := by
  obtain ⟨⟨after, s, progress⟩, hcommit, hs⟩ := Option.bind_eq_some_iff.mp h
  cases hs
  exact .goto (shuts_commitSystemRun C hcommit) fun _ => rfl

/-- A section opens no window other than its own, and a caller that drives goes on driving unless
the section is its own next one or drops it. -/
structure Driven (q : Protocol α) (a : Action α) (q' : Protocol α) : Prop where
  window : (∀ p, a ≠ .openWindow p) → q.state.Shuts q'.state
  drives : ∀ p, (q.pc p).drives = true → a ≠ .advance p → a ≠ .cancel p → (q'.pc p).drives = true

/-- The caller dispatches from the same place: a normal phase, a settle phase or neither. -/
structure Stands (x y : Pc α) : Prop where
  drives : y.drives = x.drives
  passing : y.passing = x.passing

theorem Stands.rfl : Stands x x := ⟨Eq.refl _, Eq.refl _⟩

/-- A section opens no window other than its own, and a busy caller stands where it is unless the
section is its own next one or drops it. -/
structure Steady (q : Protocol α) (a : Action α) (q' : Protocol α) : Prop where
  window : (∀ p, a ≠ .openWindow p) → q.state.Shuts q'.state
  stands : ∀ p, q.pc p ≠ .idle → a ≠ .advance p → a ≠ .cancel p → Stands (q.pc p) (q'.pc p)

theorem Steady.driven (h : Steady q a q') : Driven q a q' where
  window := h.window
  drives p hp ha hc := by
    have hbusy : q.pc p ≠ .idle := by
      intro hidle
      rw [hidle] at hp
      cases hp
    rw [(h.stands p hbusy ha hc).drives]
    exact hp

theorem Steady.keep (hw : q.state.Shuts q'.state) (hpc : ∀ p, q'.pc p = q.pc p) : Steady q a q' :=
  ⟨fun _ => hw, fun p _ _ _ => (hpc p).symm ▸ Stands.rfl⟩

theorem Alone.steady (h : q.Alone p q')
    (hp : q.pc p ≠ .idle → a ≠ .advance p → a ≠ .cancel p → Stands (q.pc p) (q'.pc p)) :
    Steady q a q' := by
  refine ⟨fun _ => h.window, fun p' hbusy ha hc => ?_⟩
  by_cases heq : p' = p
  · subst heq
    exact hp hbusy ha hc
  · rw [h.others p' heq]
    exact Stands.rfl

/-- A write that snapshots show moves nobody. -/
theorem stands_showWrite (q : Protocol α) (p : PartyId) (t : TypeId) (e : Entity) (v : Value α) :
    Stands (q.pc p) ((q.showWrite t e v).pc p) :=
  ⟨observe_showWrite q p Pc.drives (fun _ _ => rfl) t e v,
    observe_showWrite q p Pc.passing (fun _ _ => rfl) t e v⟩

theorem steady_act (hs : q.act C a = some q') : Steady q a q' := by
  cases a with
  | insert commands =>
    obtain ⟨s, hstate, hs⟩ := Option.bind_eq_some_iff.mp hs
    cases hs
    rcases State.acceptInput_eq hstate with ⟨-, rfl⟩ | ⟨-, -, rfl⟩
    · exact Steady.keep id fun _ => rfl
    · exact Steady.keep id fun _ => rfl
  | insertPreempting commands =>
    obtain ⟨s, hstate, hs⟩ := Option.bind_eq_some_iff.mp hs
    cases hs
    obtain ⟨restart, rfl⟩ := State.acceptPreempting_eq hstate
    exact Steady.keep id fun _ => rfl
  | reserve => cases hs; exact Steady.keep id fun _ => rfl
  | reserveSingleton key => cases hs; exact Steady.keep id fun _ => rfl
  | mutate t e v =>
    obtain ⟨s, hstate, hs⟩ := Option.bind_eq_some_iff.mp hs
    cases hs
    obtain ⟨restart, rfl⟩ := State.reachBoundary_eq hstate
    refine ⟨fun _ => ?_, fun p _ _ _ => stands_showWrite q p t e v⟩
    unfold State.mutate
    dsimp only
    split_ifs <;> exact id
  | takeBound e parts =>
    cases hs
    exact Steady.keep (shuts_closeBound C _ { q.state with world := q.state.world.takeBundle C e parts } _)
      fun _ => rfl
  | drainBound entities => cases hs; exact Steady.keep (shuts_closeBound C _ q.state _) fun _ => rfl
  | dropBound e => cases hs; exact Steady.keep id fun _ => rfl
  | callSettle p scoop =>
    simp only [Protocol.act] at hs
    split at hs
    · rename_i hpc
      split_ifs at hs <;> cases hs
      · exact Alone.steady (.goto id fun _ => rfl) fun hbusy => absurd hpc hbusy
      · exact Alone.steady (.goto id fun _ => rfl) fun hbusy => absurd hpc hbusy
    · cases hs
  | awaitInsert p generation =>
    simp only [Protocol.act] at hs
    split at hs
    · rename_i hpc
      cases hs
      exact Alone.steady (.goto id fun _ => rfl) fun hbusy => absurd hpc hbusy
    · cases hs
  | advance p => exact (alone_advance hs).steady fun _ ha _ => absurd rfl ha
  | writeInPlace p t e v =>
    simp only [Protocol.act] at hs
    split_ifs at hs
    cases hs
    exact ⟨fun _ => id, fun p' _ _ _ => stands_showWrite q p' t e v⟩
  | commit p run phase =>
    have hcommitted : ∀ {memo : MemoTable} {phase' : Option Phase} {pc : MemoTable → Bool → Pc α},
        (∀ after followup, Stands (q.pc p) (pc after followup)) →
          q.commit C p memo run phase' pc = some q' → Steady q (.commit p run phase) q' := by
      intro memo phase' pc hstands hs
      refine (alone_commit hs).steady fun _ _ _ => ?_
      obtain ⟨r, -, hs⟩ := Option.bind_eq_some_iff.mp hs
      cases hs
      rw [pc_goto, if_pos rfl]
      exact hstands _ _
    simp only [Protocol.act] at hs
    split at hs <;> rename_i hpc
    · split_ifs at hs
      exact hcommitted (fun _ _ => by rw [hpc]; exact ⟨rfl, rfl⟩) hs
    · exact hcommitted (fun _ _ => by rw [hpc]; exact ⟨rfl, rfl⟩) hs
    · exact hcommitted (fun _ _ => by rw [hpc]; exact ⟨rfl, rfl⟩) hs
    · cases hs
  | openWindow p =>
    simp only [Protocol.act] at hs
    split at hs
    · cases hs
      exact ⟨fun hne => absurd rfl (hne p), fun _ _ _ _ => Stands.rfl⟩
    · cases hs
  | closeWindow p =>
    simp only [Protocol.act] at hs
    split at hs
    · cases hs
      exact Steady.keep nofun fun _ => rfl
    · cases hs
  | cancel p => exact (alone_cancel hs).steady fun _ _ hc => absurd rfl hc

theorem driven_act (hs : q.act C a = some q') : Driven q a q' := (steady_act hs).driven

end Protocol
end Porridge
