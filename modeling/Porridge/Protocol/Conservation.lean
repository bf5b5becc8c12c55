import Porridge.Protocol.Moves

/-! External inputs: every accepted batch is applied once, in the order of acceptance. -/
namespace Porridge
namespace Protocol

variable {α : Type}

/-- The accepted batches, numbered in order, are the applied, the pending and the deferred ones. -/
structure InputsConserved (q : Protocol α) : Prop where
  ordered : q.history.applied ++ q.history.pending.map Prod.fst ++
    q.history.deferred.map (fun d => d.2.1) = List.range q.history.accepted
  pendingInputs : q.state.pendingInputs = q.history.pending.flatMap Prod.snd
  deferredInputs : q.state.deferredInputs = q.history.deferred.map fun d => (d.1, d.2.2)
  /-- A generation will apply what is pending. -/
  requested : q.state.pendingInputs ≠ [] → q.state.pendingGeneration.isSome = true
  /-- Somebody is settling who will promote what is deferred. -/
  deferring : q.state.deferredInputs ≠ [] → q.state.settling ≠ 0

/-- The queues are numbered in order, and the deferral tags are small enough to be promoted. -/
structure Conserved (q : Protocol α) : Prop where
  queue : QueueOk q.state q.history
  ordered : q.history.applied ++ q.history.pending.map Prod.fst ++
    q.history.deferred.map (fun d => d.2.1) = List.range q.history.accepted
  deferring : q.history.deferred ≠ [] → q.state.settling ≠ 0
  counted : q.state.inputSeq ≤ State.maxTag

variable {C : Components α} {q q' : Protocol α} {a : Action α} {m : Move α}

theorem Conserved.inputsConserved (h : Conserved q) : q.InputsConserved where
  ordered := h.ordered
  pendingInputs := h.queue.pendingInputs
  deferredInputs := h.queue.deferredInputs
  requested hne := by
    refine h.queue.requested fun hnil => hne ?_
    rw [h.queue.pendingInputs, hnil]
    rfl
  deferring hne := by
    refine h.deferring fun hnil => hne ?_
    rw [h.queue.deferredInputs, hnil]
    rfl

/-- The numbered inputs after a promotion are those before, in the same order. -/
theorem ordered_promote (h : History α) (watermark : Nat) :
    (h.promote watermark).pending.map Prod.fst ++
        (h.promote watermark).deferred.map (fun d => d.2.1) =
      h.pending.map Prod.fst ++ h.deferred.map (fun d => d.2.1) := by
  have hsplit := List.takeWhile_append_dropWhile (p := fun d => decide (d.1 ≤ watermark))
    (l := h.deferred)
  have hnumbers := congrArg (List.map fun d => d.2.1) hsplit
  rw [List.map_append] at hnumbers
  rw [← hnumbers]
  simp [History.promote]

theorem Conserved.promote (h : Conserved q) {s : State α} {watermark : Nat}
    (hs : s = { q.state with settling := s.settling })
    (hdeferring : (q.history.promote watermark).deferred ≠ [] → s.settling ≠ 0)
    (hstate : SameControl (s.promoteDeferredInputs watermark).2 q'.state)
    (hhistory : SameInputs (q.history.promote watermark) q'.history) : Conserved q' := by
  have hqueue : QueueOk s q.history := by
    rw [hs]
    exact h.queue.same ⟨rfl, rfl, rfl, id⟩
  have hframe : (s.promoteDeferredInputs watermark).2.settling = s.settling ∧
      (s.promoteDeferredInputs watermark).2.inputSeq = s.inputSeq := by
    unfold State.promoteDeferredInputs
    dsimp only
    split_ifs <;> exact ⟨rfl, rfl⟩
  have hseq : s.inputSeq = q.state.inputSeq := by rw [hs]
  constructor
  · exact ((hqueue.promote watermark).same (.of_control hstate)).sameInputs hhistory
  · rw [hhistory.applied, hhistory.pending, hhistory.deferred, hhistory.accepted,
      List.append_assoc, ordered_promote, ← List.append_assoc]
    exact h.ordered
  · rw [hhistory.deferred, hstate.settling, hframe.1]
    exact hdeferring
  · rw [hstate.inputSeq, hframe.2, hseq]
    exact h.counted

/-- Every tag is covered by the largest one. -/
theorem Conserved.promote_all (h : Conserved q) :
    (q.history.promote State.maxTag).deferred = [] := by
  refine List.dropWhile_eq_nil_iff.mpr fun d hd => ?_
  have hle := (h.queue.bounded d hd).trans h.counted
  exact decide_eq_true hle

/-- Each move but a preempting one keeps the inputs in order. -/
theorem Conserved.move (h : Conserved q) (ha : a.preempts = false) (hm : Moves C q a q' m) :
    Conserved q' := by
  obtain ⟨hpermitted, hstate, hhistory, -⟩ := hm
  have hsame : ∀ s : State α, SameQueues q.state s → s.settling = q.state.settling ∨
      s.settling = q.state.settling + 1 → SameControl s q'.state →
        SameInputs q.history q'.history → Conserved q' := by
    intro s hqueues hsettling hcontrol hinputs
    refine ⟨((h.queue.same hqueues).same (.of_control hcontrol)).sameInputs hinputs, ?_, ?_, ?_⟩
    · rw [hinputs.applied, hinputs.pending, hinputs.deferred, hinputs.accepted]
      exact h.ordered
    · intro hne
      rw [hinputs.deferred] at hne
      have hbusy := h.deferring hne
      rw [hcontrol.settling]
      rcases hsettling with hs | hs <;> omega
    · rw [hcontrol.inputSeq, hqueues.inputSeq]
      exact h.counted
  cases m with
  | keep => exact hsame q.state .rfl (Or.inl rfl) hstate hhistory
  | request => exact hsame q.state.requestGeneration ⟨rfl, rfl, rfl, fun _ => rfl⟩ (Or.inl rfl) hstate hhistory
  | enter => exact hsame q.state.enterEpoch ⟨rfl, rfl, rfl, id⟩ (Or.inr rfl) hstate hhistory
  | complete p g =>
    exact hsame ((Move.complete p g).apply q.state) ⟨rfl, rfl, rfl, id⟩ (Or.inl rfl) hstate hhistory
  | abandon p g =>
    exact hsame ((Move.abandon p g).apply q.state) ⟨rfl, rfl, rfl, fun _ => rfl⟩ (Or.inl rfl) hstate
      hhistory
  | accept commands =>
    have hidle : q.state.settling = 0 := by
      rcases hpermitted with hidle | hpreempts
      · exact hidle
      · rw [ha] at hpreempts
        cases hpreempts
    have hdeferred : q.history.deferred = [] := by
      by_contra hne
      exact h.deferring hne hidle
    have hqueue : QueueOk ((Move.accept commands).apply q.state) (q.history.accept 0 0 commands) :=
      h.queue.acceptPending commands rfl rfl rfl rfl
    refine ⟨(hqueue.same (.of_control hstate)).sameInputs hhistory, ?_, fun hne => ?_, ?_⟩
    · have hordered := h.ordered
      rw [hhistory.applied, hhistory.pending, hhistory.deferred, hhistory.accepted]
      show q.history.applied ++ (q.history.pending ++ [(q.history.accepted, commands)]).map Prod.fst ++
        q.history.deferred.map (fun d => d.2.1) = List.range (q.history.accepted + 1)
      rw [hdeferred, List.map_nil, List.append_nil] at hordered ⊢
      rw [List.range_succ, ← hordered, List.map_append, ← List.append_assoc]
      rfl
    · rw [hhistory.deferred] at hne
      exact absurd hdeferred hne
    · rw [hstate.inputSeq]
      exact h.counted
  | defer commands =>
    obtain ⟨hbusy, hroom⟩ := hpermitted
    have hnoted : (Move.defer commands).note q.state q.history = { q.history with
        accepted := q.history.accepted + 1
        deferred := q.history.deferred ++
          [(q.state.inputSeq + 1, q.history.accepted, commands)] } := if_neg hbusy
    have hqueue := h.queue.acceptDeferred commands hbusy
    refine ⟨(hqueue.same (.of_control hstate)).sameInputs hhistory, ?_, fun _ => ?_, ?_⟩
    · rw [hhistory.applied, hhistory.pending, hhistory.deferred, hhistory.accepted, hnoted]
      dsimp only
      rw [List.map_append, ← List.append_assoc, h.ordered, List.range_succ]
      rfl
    · rw [hstate.settling]
      exact hbusy
    · rw [hstate.inputSeq]
      show q.state.inputSeq + 1 ≤ State.maxTag
      have hcounted := h.counted
      omega
  | promote watermark =>
    refine h.promote (s := q.state) rfl (fun hne => h.deferring fun hnil => hne ?_) hstate hhistory
    simp [History.promote, hnil]
  | leave =>
    by_cases hlast : q.state.settling - 1 = 0
    · have hleft : q.state.leaveEpoch =
          (({ q.state with settling := q.state.settling - 1 } :
            State α).promoteDeferredInputs State.maxTag).2 := if_pos hlast
      have hnoted : Move.leave.note q.state q.history = q.history.promote State.maxTag :=
        if_pos hlast
      rw [hnoted] at hhistory
      refine h.promote (s := { q.state with settling := q.state.settling - 1 }) rfl
        (fun hne => absurd h.promote_all hne) ?_ hhistory
      rw [← hleft]
      exact hstate
    · have hleft : q.state.leaveEpoch = { q.state with settling := q.state.settling - 1 } :=
        if_neg hlast
      have hnoted : Move.leave.note q.state q.history = q.history := if_neg hlast
      have hcontrol : SameControl { q.state with settling := q.state.settling - 1 } q'.state := by
        rw [← hleft]
        exact hstate
      rw [hnoted] at hhistory
      have hqueues : SameQueues q.state { q.state with settling := q.state.settling - 1 } :=
        ⟨rfl, rfl, rfl, id⟩
      refine ⟨((h.queue.same hqueues).same (.of_control hcontrol)).sameInputs hhistory, ?_,
        fun _ => ?_, ?_⟩
      · rw [hhistory.applied, hhistory.pending, hhistory.deferred, hhistory.accepted]
        exact h.ordered
      · rw [hcontrol.settling]
        exact hlast
      · rw [hcontrol.inputSeq]
        exact h.counted
  | start p generation =>
    refine ⟨⟨?_, ?_, fun hne => ?_, ?_, ?_, ?_⟩, ?_, ?_, ?_⟩
    · rw [hstate.pendingInputs, hhistory.pending]
      rfl
    · rw [hstate.deferredInputs, hhistory.deferred]
      exact h.queue.deferredInputs
    · rw [hhistory.pending] at hne
      exact absurd rfl hne
    · rw [hhistory.accepted, hhistory.pending, hhistory.deferred, hhistory.applied]
      intro n hn
      rcases h.queue.numbered n hn with hmem | hmem | hmem
      · exact Or.inr (Or.inr (List.mem_append_right _ hmem))
      · exact Or.inr (Or.inl hmem)
      · exact Or.inr (Or.inr (List.mem_append_left _ hmem))
    · rw [hhistory.deferred]
      exact h.queue.sorted
    · rw [hhistory.deferred, hstate.inputSeq]
      exact h.queue.bounded
    · rw [hhistory.applied, hhistory.pending, hhistory.deferred, hhistory.accepted]
      show q.history.applied ++ q.history.pending.map Prod.fst ++ [] ++
        q.history.deferred.map (fun d => d.2.1) = List.range q.history.accepted
      rw [List.append_nil]
      exact h.ordered
    · rw [hhistory.deferred, hstate.settling]
      exact h.deferring
    · rw [hstate.inputSeq]
      exact h.counted

theorem conserved_new (systems : List BoxedSystem) (hooked : SystemId → Bool) :
    Conserved (new systems hooked : Protocol α).rest := by
  have hseq : (systems.foldl State.registerSystem (State.new α)).inputSeq = 0 :=
    State.registered State.inputSeq (fun _ _ => rfl) systems
  have hnew : Conserved (new systems hooked : Protocol α) :=
    ⟨(owed_new systems hooked).queue, rfl, fun hne => absurd rfl hne, hseq ▸ Nat.zero_le _⟩
  unfold rest
  split_ifs
  · exact ⟨hnew.queue.sameInputs ⟨rfl, rfl, rfl, rfl⟩, hnew.ordered, hnew.deferring, hnew.counted⟩
  · exact hnew

/-- Without preempting inputs an accepted batch waits in one queue until a start applies all that
are pending, in order. -/
theorem reachable_inputsConserved
    (hq : (machine C).ReachableUnder (fun _ a => a.preempts = false) q) :
    q.InputsConserved ∧ ∀ a q', (machine C).step q a = some q' →
      q'.history.applied = q.history.applied ∨
        (q'.history.applied = q.history.applied ++ q.history.pending.map Prod.fst ∧
          q'.history.pending = [] ∧
          ∃ started, startEvaluation C q.state = some (some started) ∧ q'.state = started.state) := by
  have hconserved : Conserved q := by
    refine Machine.ReachableUnder.invariant hq Conserved ?_ fun q a q' h ha hs => ?_
    · rintro q ⟨systems, hooked, rfl⟩
      exact conserved_new systems hooked
    · obtain ⟨m, hm⟩ := moves_step hs
      exact h.move ha hm
  refine ⟨hconserved.inputsConserved, fun a q' hs => ?_⟩
  obtain ⟨m, hpermitted, -, hhistory, -⟩ := moves_step hs
  have happlied := hhistory.applied
  cases m with
  | start p generation => exact Or.inr ⟨happlied, hhistory.pending, hpermitted.2.2.2⟩
  | keep | request | enter | complete _ _ | abandon _ _ | promote _ => exact Or.inl happlied
  | accept commands => exact Or.inl happlied
  | defer commands =>
    refine Or.inl (happlied.trans ?_)
    unfold Move.note History.accept
    split_ifs <;> rfl
  | leave =>
    refine Or.inl (happlied.trans ?_)
    unfold Move.note
    split_ifs <;> rfl

/-- Two settles are cancelled around a deferred input, and an awaited generation then applies the
inputs of both routes. -/
def cancelAround : List (Action Nat) :=
  [.insert [.insert 5 1 (.data 7)], .callSettle 1 false, .advance 1,
    .insert [.insert 5 1 (.data 8)], .callSettle 2 false, .advance 2, .cancel 1, .advance 1,
    .cancel 2, .advance 2, .awaitInsert 3 1, .advance 3, .advance 3]

def cancelledAround : Protocol Nat :=
  ((machine (Components.plain Nat)).run plainBowl cancelAround).getD plainBowl

theorem cancelledAround_inputsConserved :
    cancelledAround.InputsConserved ∧ cancelledAround.history.applied = [0, 1] := by
  have hallowed : (machine (Components.plain Nat)).Allows (fun _ a => a.preempts = false) plainBowl
      cancelAround := by decide
  have hrun : (machine (Components.plain Nat)).run plainBowl cancelAround =
      some cancelledAround := rfl
  exact ⟨(reachable_inputsConserved
    (Machine.ReachableUnder.run (.init ⟨_, _, rfl⟩) hallowed hrun)).1, by decide⟩

end Protocol
end Porridge
