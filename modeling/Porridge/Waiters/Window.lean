import Porridge.Waiters.Awake

/-! A preemption window ends: whoever the runner counts is awake and takes its turn. -/
namespace Porridge.Waiters

variable {α : Type} {C : Components α} {w w' : Waiters α} {m : MutatorId} {p : PartyId}

/-- A generation runs and its driver has opened a window. -/
def Opened (w : Waiters α) : Prop :=
  w.protocol.state.runningGeneration.isSome = true ∧ w.protocol.state.preemptWindow = true

theorem Awake.not_sleeps (h : Awake w) (ho : w.Opened) (c : Channel) : ¬ w.Sleeps c := by
  intro hc
  rcases h.sealed c hc with ⟨-, hshut⟩ | ⟨hidle, -⟩
  · rw [ho.2] at hshut
    cases hshut
  · have hrunning := ho.1
    rw [hidle] at hrunning
    cases hrunning

theorem Opened.boundary (h : w.Opened) : ∃ s, w.protocol.state.reachBoundary = some s := by
  have hboundary : w.protocol.state.atBoundary = true := by
    unfold State.atBoundary
    rw [h.2, Bool.or_true]
  unfold State.reachBoundary
  split_ifs
  · exact ⟨_, rfl⟩
  · exact ⟨_, rfl⟩

theorem Opened.goOn (h : w.Opened) {q : Protocol α} (hq : Protocol.GoesOn w.protocol q) :
    Opened { w with protocol := q } :=
  ⟨hq.requests.runningGeneration.symm ▸ h.1, hq.window.trans h.2⟩

/-- At a boundary a mutator finds its cell or misses it, and a queued input is accepted. -/
theorem exists_serve {s : State α} (hb : w.protocol.state.reachBoundary = some s)
    (x : PreemptWaiter α) : ∃ w', w.serve C m x s false = some w' := by
  unfold serve
  cases x.request with
  | mutate t e f original =>
    dsimp only
    cases s.world.cell? t e with
    | none => exact ⟨_, rfl⟩
    | some entry =>
      have hact : ∃ q, w.protocol.act C (.mutate t e (f entry.value)) = some q := by
        simp only [Protocol.act, hb]
        exact ⟨_, rfl⟩
      obtain ⟨q, hq⟩ := hact
      have hstep : w.protocol.step C (.mutate t e (f entry.value)) = some q.rest := by
        unfold Protocol.step
        rw [hq]
        rfl
      simp only [hstep, Bool.false_eq_true, if_false]
      exact ⟨_, rfl⟩
  | queue commands => exact ⟨_, rfl⟩

/-- In a window the turn of a mutator is its last, unless its cell is busy. -/
theorem exists_poll (h : Awake w) (ho : w.Opened) (hm : m ∈ w.mutators) :
    ∃ w', w.poll C m false = some w' ∧ w'.Opened ∧ w'.mutators = w.mutators.erase m ∧
      ∀ p, (w.protocol.pc p).drives = true → (w'.protocol.pc p).drives = true := by
  obtain ⟨x, hx⟩ := Option.isSome_iff_exists.mp (AList.lookup_isSome.mpr hm)
  have hawake : x.awaits.isSome = false := by
    cases hc : x.awaits with
    | none => rfl
    | some c => exact absurd ⟨m, x, hx, hc⟩ (h.not_sleeps ho c)
  unfold poll
  simp only [hx, Option.bind_eq_bind, Option.bind_some, hawake, Bool.false_eq_true, if_false]
  split_ifs
  · exact ⟨_, rfl, ho, rfl, fun _ hp => hp⟩
  · obtain ⟨s, hb⟩ := ho.boundary
    obtain ⟨w', hs⟩ := exists_serve (C := C) (m := m) hb x
    obtain ⟨q, hgoes, ⟨hbusy, -⟩ | rfl⟩ := serve_cases hb hs
    · cases hbusy
    · simp only [hb, hs]
      refine ⟨_, rfl, ho.goOn hgoes, rfl, fun p hp => ?_⟩
      have hdrives := hgoes.observe Pc.drives (fun _ _ => rfl) p
      exact hdrives.trans hp

/-- While a window is open nobody registers. -/
theorem preemptWaiters_le (ho : w.Opened) {a : WaiterAction α} (hs : w.step C a = some w') :
    w'.preemptWaiters ≤ w.preemptWaiters := by
  have hfinish : ∀ (w : Waiters α) (m : MutatorId) (x : PreemptWaiter α),
      (w.finish m x).preemptWaiters ≤ w.preemptWaiters := by
    intro w m x
    show (if x.registered = true then w.preemptWaiters - 1 else w.preemptWaiters) ≤ w.preemptWaiters
    split_ifs <;> omega
  cases a with
  | act a =>
    simp only [Waiters.step] at hs
    split_ifs at hs
    obtain ⟨q, -, rfl⟩ := Option.map_eq_some_iff.mp hs
    have hcount := (rouse_mutators w a).preemptWaiters
    have hsame : (if w.drains a = true then w.drainBoundary else w).preemptWaiters =
        w.preemptWaiters := by
      split_ifs <;> rfl
    exact le_of_eq (hcount.trans hsame)
  | call m request deferred =>
    simp only [Waiters.step] at hs
    split_ifs at hs
    cases hs
    exact le_refl _
  | poll m busy =>
    obtain ⟨x, hx, hs⟩ := Option.bind_eq_some_iff.mp hs
    split_ifs at hs
    · cases hs
      exact hfinish w m x
    · obtain ⟨s, hb⟩ := ho.boundary
      rw [hb] at hs
      obtain ⟨q, -, ⟨-, rfl⟩ | rfl⟩ := serve_cases hb hs
      · exact le_refl _
      · exact hfinish { w with protocol := q } m x
  | drop m =>
    obtain ⟨x, hx, hs⟩ := Option.bind_eq_some_iff.mp hs
    cases hs
    exact hfinish w m x
  | waitForGeneration p =>
    obtain ⟨x, hx, hs⟩ := Option.bind_eq_some_iff.mp hs
    split_ifs at hs <;> cases hs <;> exact le_refl _

/-- Once the mutators have had their turns, in whatever order, nobody is left in the window. -/
theorem exists_polls : ∀ {ms : List MutatorId} {w : Waiters α}, Awake w → w.Opened →
    ms.Perm w.mutators.keys → (w.protocol.pc p).drives = true →
      ∃ w', (machine C).run w (ms.map fun m => .poll m false) = some w' ∧ Awake w' ∧
        w'.mutators = ∅ ∧ (w'.protocol.pc p).drives = true
  | [], w, h, _, hms, hp => by
    have hempty : w.mutators = ∅ := by
      apply AList.ext
      exact List.map_eq_nil_iff.mp hms.nil_eq.symm
    exact ⟨w, rfl, h, hempty, hp⟩
  | m :: ms, w, h, ho, hms, hp => by
    have hm : m ∈ w.mutators := AList.mem_keys.mpr (hms.subset List.mem_cons_self)
    obtain ⟨w₁, hpoll, hopened, hmutators, hdrives⟩ := exists_poll (C := C) h ho hm
    have hrest : ms.Perm w₁.mutators.keys := by
      rw [hmutators, AList.keys_erase]
      exact (List.perm_cons_erase (AList.mem_keys.mp hm)).symm.trans hms.symm |>.symm.cons_inv
    obtain ⟨w', hrun, hrest⟩ := exists_polls (h.poll hpoll) hopened hrest (hdrives p hp)
    refine ⟨w', ?_, hrest⟩
    show ((machine C).step w (.poll m false)).bind _ = _
    exact Option.bind_eq_some_iff.mpr ⟨w₁, hpoll, hrun⟩

/-- The runner of a window waits for awake mutators only: nobody registers meanwhile, and once
their turns are taken it goes on. -/
theorem window_empties (h : Reachable C w) (hp : (w.protocol.pc p).drives = true)
    (hopen : w.protocol.state.preemptWindow = true) :
    (∀ c, ¬ w.Sleeps c) ∧
    (∀ a w', w.step C a = some w' → w'.preemptWaiters ≤ w.preemptWaiters) ∧
    ∀ ms : List MutatorId, ms.Perm w.mutators.keys →
      ∃ w', (machine C).run w (ms.map fun m => .poll m false) = some w' ∧ w'.preemptWaiters = 0 ∧
        w'.mutators = ∅ ∧ (w'.step C (.act (.closeWindow p))).isSome = true := by
  have hawake := awake_of_reachable h
  have hopened : w.Opened :=
    ⟨hawake.generations.exclusive.running p (Pc.inGeneration_of_drives hp), hopen⟩
  refine ⟨hawake.not_sleeps hopened, fun a w' hs => preemptWaiters_le hopened hs, fun ms hms => ?_⟩
  obtain ⟨w', hrun, hleft, hempty, hdrives⟩ := exists_polls (C := C) hawake hopened hms hp
  have hnone : w'.preemptWaiters = 0 := by
    rw [hleft.counted, hempty]
    rfl
  refine ⟨w', hrun, hnone, hempty, ?_⟩
  simp only [Waiters.step]
  rw [if_pos (show w'.Permits (.closeWindow p) from hnone)]
  cases hpc : w'.protocol.pc p with
  | driving generation memo changed target waiter =>
    simp only [Protocol.step, Protocol.act, hpc]
    rfl
  | _ =>
    rw [hpc] at hdrives
    cases hdrives

section Runs

/-- Caller 1 settles and drives generation 1; a mutation and a preempting input sleep until it opens
a window for them. -/
def windowed : Waiters Nat :=
  ((machine (Components.plain Nat)).run plainWaiters
    ([.act (.callSettle 1 false)] ++ List.replicate 4 (.act (.advance 1)) ++
      [.call 0 (.mutate 5 1 id none) false, .poll 0 false, .call 1 (.queue []) false,
        .poll 1 false, .act (.openWindow 1)])).getD plainWaiters

theorem windowed_empties : (∃ w', (machine (Components.plain Nat)).run windowed
      ([0, 1].map fun m => .poll m false) = some w' ∧ w'.preemptWaiters = 0 ∧ w'.mutators = ∅ ∧
        (w'.step (Components.plain Nat) (.act (.closeWindow 1))).isSome = true) ∧
    windowed.preemptWaiters = 2 := by
  have hrun : (machine (Components.plain Nat)).run plainWaiters
      ([.act (.callSettle 1 false)] ++ List.replicate 4 (.act (.advance 1)) ++
        [.call 0 (.mutate 5 1 id none) false, .poll 0 false, .call 1 (.queue []) false,
          .poll 1 false, .act (.openWindow 1)]) = some windowed := rfl
  have hreached : Reachable (Components.plain Nat) windowed :=
    Machine.Reachable.run (.init ⟨_, _, rfl⟩) hrun
  exact ⟨(window_empties hreached (by decide) (by decide)).2.2 [0, 1] (by decide), by decide⟩

end Runs

end Porridge.Waiters
