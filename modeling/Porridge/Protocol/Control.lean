import Porridge.Protocol

/-! What the sections leave alone, and the runner lock: one caller at a time drives. -/
namespace Porridge

variable {α : Type}

/-- A section that only works on the world, the memo table and the systems. -/
structure SameControl (s s' : State α) : Prop where
  pendingInputs : s'.pendingInputs = s.pendingInputs
  deferredInputs : s'.deferredInputs = s.deferredInputs
  inputSeq : s'.inputSeq = s.inputSeq
  settling : s'.settling = s.settling
  pendingGeneration : s'.pendingGeneration = s.pendingGeneration
  runningGeneration : s'.runningGeneration = s.runningGeneration
  completedGeneration : s'.completedGeneration = s.completedGeneration
  nextGeneration : s'.nextGeneration = s.nextGeneration

namespace SameControl

variable {a b c : State α}

theorem rfl : SameControl a a :=
  ⟨Eq.refl _, Eq.refl _, Eq.refl _, Eq.refl _, Eq.refl _, Eq.refl _, Eq.refl _, Eq.refl _⟩

theorem trans (hab : SameControl a b) (hbc : SameControl b c) : SameControl a c where
  pendingInputs := hbc.pendingInputs.trans hab.pendingInputs
  deferredInputs := hbc.deferredInputs.trans hab.deferredInputs
  inputSeq := hbc.inputSeq.trans hab.inputSeq
  settling := hbc.settling.trans hab.settling
  pendingGeneration := hbc.pendingGeneration.trans hab.pendingGeneration
  runningGeneration := hbc.runningGeneration.trans hab.runningGeneration
  completedGeneration := hbc.completedGeneration.trans hab.completedGeneration
  nextGeneration := hbc.nextGeneration.trans hab.nextGeneration

theorem isClean (h : SameControl a b) : b.isClean = a.isClean := by
  unfold State.isClean
  rw [h.pendingGeneration, h.runningGeneration]

end SameControl

section Sections

variable (C : Components α)

theorem sameControl_publishSettledRevision (s : State α) :
    SameControl s s.publishSettledRevision := by
  unfold State.publishSettledRevision
  split_ifs <;> exact ⟨rfl, rfl, rfl, rfl, rfl, rfl, rfl, rfl⟩

theorem sameControl_closeBound (settled : Bool) (s : State α) (entities : List Entity) :
    SameControl s (closeBound C settled s entities) := by
  have hcleaned : SameControl s (cleanupBoundEntities C s entities) := ⟨rfl, rfl, rfl, rfl, rfl, rfl, rfl, rfl⟩
  unfold closeBound
  dsimp only
  split_ifs
  · exact hcleaned.trans (sameControl_publishSettledRevision _)
  · exact hcleaned

theorem sameControl_takeBound (s : State α) (e : Entity) (parts : List (TypeId × Bool)) :
    SameControl s (takeBound C s e parts) := by
  have htaken : SameControl s { s with world := s.world.takeBundle C e parts } :=
    ⟨rfl, rfl, rfl, rfl, rfl, rfl, rfl, rfl⟩
  exact htaken.trans (sameControl_closeBound C s.isSettled _ [e])

theorem sameControl_healStaleAmbient {attempts : Dict SystemInvocation Nat} {s : State α}
    {r : Bool × Dict SystemInvocation Nat × State α} (h : healStaleAmbient attempts s = some r) :
    SameControl s r.2.2 ∧ r.2.2.world = s.world := by
  obtain ⟨healed, hfold, rfl⟩ := Option.map_eq_some_iff.mp h
  refine List.foldlM_some_induction (fun r : Dict SystemInvocation Nat × State α =>
    SameControl s r.2 ∧ r.2.world = s.world) _ hfold ⟨.rfl, rfl⟩ ?_
  rintro r victim r' - ⟨hr, hworld⟩ hstep
  simp only [healVictim] at hstep
  split_ifs at hstep
  cases hstep
  exact ⟨hr.trans ⟨rfl, rfl, rfl, rfl, rfl, rfl, rfl, rfl⟩, hworld⟩

theorem sameControl_publishOutputs {deferInserts : Bool} {outputs : List (SystemOutput α)}
    {s s' : State α} (h : publishOutputs C s outputs deferInserts = some s') :
    SameControl s s' := by
  refine List.foldlM_some_induction (SameControl s) outputs h .rfl ?_
  rintro u output u' - hu hstep
  obtain ⟨w, -, hw⟩ := Option.bind_eq_some_iff.mp hstep
  cases hw
  exact hu.trans ⟨rfl, rfl, rfl, rfl, rfl, rfl, rfl, rfl⟩

theorem sameControl_reconcileCommit (memo : MemoTable) (s : State α) :
    SameControl s (reconcileCommit C memo s).2 := by
  unfold reconcileCommit
  dsimp only
  split_ifs <;> exact ⟨rfl, rfl, rfl, rfl, rfl, rfl, rfl, rfl⟩

theorem sameControl_commitSystemRun {memo after : MemoTable} {s s' : State α}
    {run : SystemRun α} {phase : Option Phase} {progress : CommitProgress}
    (h : commitSystemRun C memo s run phase = some (after, s', progress)) : SameControl s s' := by
  unfold commitSystemRun at h
  split_ifs at h
  · obtain ⟨published, hpublished, h⟩ := Option.bind_eq_some_iff.mp h
    cases h
    have hpublish : SameControl s published.2 := by
      obtain ⟨u, hu, hrun⟩ := Option.bind_eq_some_iff.mp hpublished
      cases hrun
      exact (sameControl_publishOutputs C hu).trans ⟨rfl, rfl, rfl, rfl, rfl, rfl, rfl, rfl⟩
    exact hpublish.trans (sameControl_reconcileCommit C published.1 published.2)
  · cases h
    exact ⟨rfl, rfl, rfl, rfl, rfl, rfl, rfl, rfl⟩

theorem promoteDeferredInputs_frame (s : State α) (watermark : Nat) :
    (s.promoteDeferredInputs watermark).2.memo = s.memo ∧
      (s.promoteDeferredInputs watermark).2.world = s.world ∧
        (s.promoteDeferredInputs watermark).2.runningGeneration = s.runningGeneration := by
  unfold State.promoteDeferredInputs
  dsimp only
  split_ifs <;> exact ⟨rfl, rfl, rfl⟩

end Sections

namespace Protocol

section Frame

variable (q : Protocol α) (p p' : PartyId) (x : Pc α)

theorem pc_goto : (q.goto p x).pc p' = if p' = p then x else q.pc p' :=
  Dict.getD_insert q.parties p p' x .idle

theorem pc_promote (watermark : Nat) : (q.promote watermark).2.pc p = q.pc p := rfl

theorem pc_showWrite (t : TypeId) (e : Entity) (v : Value α) :
    (q.showWrite t e v).pc p = match q.state.world.cell? t e with
      | none => q.pc p
      | some x => (q.pc p).showWrite t e x.cell v := by
  unfold showWrite
  cases q.state.world.cell? t e with
  | none => rfl
  | some x =>
    have hlookup := Dict.lookup_mapValues (Pc.showWrite t e x.cell v) q.parties p
    simp only [pc, Dict.getD, hlookup]
    cases q.parties.lookup p <;> rfl

/-- Writes to shared cells leave what does not look into a snapshot alone. -/
theorem observe_showWrite {β : Type} (f : Pc α → β)
    (hf : ∀ snapshot snapshot', f (.read snapshot) = f (.read snapshot')) (t : TypeId) (e : Entity)
    (v : Value α) : f ((q.showWrite t e v).pc p) = f (q.pc p) := by
  rw [pc_showWrite]
  cases q.state.world.cell? t e with
  | none => rfl
  | some x => cases q.pc p <;> first | rfl | exact hf _ _

theorem showWrite_frame (t : TypeId) (e : Entity) (v : Value α) :
    (q.showWrite t e v).state = q.state ∧ (q.showWrite t e v).runner = q.runner ∧
      (q.showWrite t e v).history = q.history := by
  unfold showWrite
  cases q.state.world.cell? t e <;> exact ⟨rfl, rfl, rfl⟩

theorem mem_parties_of_pc (h : q.pc p ≠ .idle) : ⟨p, q.pc p⟩ ∈ q.parties.entries := by
  unfold pc Dict.getD at h ⊢
  cases hlookup : q.parties.lookup p with
  | none => rw [hlookup] at h; exact absurd rfl h
  | some y => exact AList.mem_lookup_iff.mp hlookup

theorem pc_of_mem_parties {b : Sigma fun _ : PartyId => Pc α} (h : b ∈ q.parties.entries) :
    q.pc b.1 = b.2 := by
  have hlookup : q.parties.lookup b.1 = some b.2 := AList.mem_lookup_iff.mpr h
  rw [pc, Dict.getD, hlookup]
  rfl

theorem leave_frame : (∀ p, q.leave.pc p = q.pc p) ∧ q.leave.state.memo = q.state.memo ∧
    q.leave.state.world = q.state.world ∧ q.leave.runner = q.runner ∧
      q.leave.state.runningGeneration = q.state.runningGeneration ∧
        q.leave.history.expected = q.history.expected ∧ q.leave.history.rests = q.history.rests := by
  unfold leave
  dsimp only
  split_ifs
  · obtain ⟨hmemo, hworld, hrunning⟩ := promoteDeferredInputs_frame
      { q.state with settling := q.state.settling - 1 } State.maxTag
    exact ⟨fun _ => rfl, hmemo, hworld, rfl, hrunning, rfl, rfl⟩
  · exact ⟨fun _ => rfl, rfl, rfl, rfl, rfl, rfl, rfl⟩

theorem rest_frame : q.rest.state = q.state ∧ (∀ p, q.rest.pc p = q.pc p) ∧
    q.rest.runner = q.runner ∧ q.rest.history.expected = q.history.expected := by
  unfold rest
  split_ifs <;> exact ⟨rfl, fun _ => rfl, rfl, rfl⟩

end Frame
end Protocol
end Porridge
