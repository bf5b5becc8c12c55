import Porridge.Protocol.Moves

/-! Generation numbers: how they are ordered, and that every number a caller may wait for is
completed, running or pending. -/
namespace Porridge

variable {α : Type}

/-- The generation numbers of a bowl are in order. -/
structure State.Numbers (s : State α) : Prop where
  next : s.completedGeneration < s.nextGeneration
  running : ∀ r ∈ s.runningGeneration, s.completedGeneration < r ∧ r < s.nextGeneration
  pending : ∀ g ∈ s.pendingGeneration, s.completedGeneration < g ∧ g ≤ s.nextGeneration

/-- A caller that waits for generation `t` waits for something that is done or will be driven. -/
def State.Reaches (s : State α) (t : Nat) : Prop :=
  t ≤ s.completedGeneration ∨ (∃ r ∈ s.runningGeneration, t ≤ r) ∨
    ∃ g ∈ s.pendingGeneration, t ≤ g

section Numbers

variable {s s' : State α}

theorem State.Numbers.getD (h : s.Numbers) :
    s.completedGeneration < s.pendingGeneration.getD s.nextGeneration ∧
      s.pendingGeneration.getD s.nextGeneration ≤ s.nextGeneration := by
  cases hp : s.pendingGeneration with
  | none => exact ⟨h.next, le_refl _⟩
  | some g => exact h.pending g hp

/-- A generation is requested unless one is pending, and nothing else changes. -/
structure Requests (s s' : State α) : Prop where
  completedGeneration : s'.completedGeneration = s.completedGeneration
  runningGeneration : s'.runningGeneration = s.runningGeneration
  nextGeneration : s'.nextGeneration = s.nextGeneration
  pendingGeneration : s'.pendingGeneration = s.pendingGeneration ∨
    s'.pendingGeneration = some (s.pendingGeneration.getD s.nextGeneration)

theorem Requests.of_control (h : SameControl s s') : Requests s s' :=
  ⟨h.completedGeneration, h.runningGeneration, h.nextGeneration, Or.inl h.pendingGeneration⟩

theorem Requests.control {u : State α} (h : Requests s s') (hc : SameControl s' u) :
    Requests s u where
  completedGeneration := hc.completedGeneration.trans h.completedGeneration
  runningGeneration := hc.runningGeneration.trans h.runningGeneration
  nextGeneration := hc.nextGeneration.trans h.nextGeneration
  pendingGeneration := by
    rw [hc.pendingGeneration]
    exact h.pendingGeneration

theorem requests_promote (s : State α) (watermark : Nat) :
    Requests s (s.promoteDeferredInputs watermark).2 := by
  unfold State.promoteDeferredInputs
  dsimp only
  split_ifs
  · exact ⟨rfl, rfl, rfl, Or.inl rfl⟩
  · exact ⟨rfl, rfl, rfl, Or.inr rfl⟩

theorem requests_leaveEpoch (s : State α) : Requests s s.leaveEpoch := by
  have hpromoted := requests_promote ({ s with settling := s.settling - 1 } : State α) State.maxTag
  unfold State.leaveEpoch
  dsimp only
  split_ifs
  · exact ⟨hpromoted.1, hpromoted.2, hpromoted.3, hpromoted.4⟩
  · exact ⟨rfl, rfl, rfl, Or.inl rfl⟩

theorem Requests.numbers (h : Requests s s') (hn : s.Numbers) : s'.Numbers := by
  constructor
  · rw [h.completedGeneration, h.nextGeneration]
    exact hn.next
  · rw [h.completedGeneration, h.nextGeneration, h.runningGeneration]
    exact hn.running
  · rw [h.completedGeneration, h.nextGeneration]
    intro g hg
    rcases h.pendingGeneration with hp | hp
    · exact hn.pending g (hp ▸ hg)
    · rw [hp] at hg
      cases hg
      exact hn.getD

theorem Requests.later (h : Requests s s') (hn : s.Numbers)
    (hl : ∀ r ∈ s.runningGeneration, ∀ g ∈ s.pendingGeneration, r < g) :
    ∀ r ∈ s'.runningGeneration, ∀ g ∈ s'.pendingGeneration, r < g := by
  intro r hr g hg
  rw [h.runningGeneration] at hr
  rcases h.pendingGeneration with hp | hp
  · exact hl r hr g (hp ▸ hg)
  · rw [hp] at hg
    cases hg
    cases hpending : s.pendingGeneration with
    | none => exact (hn.running r hr).2
    | some g => exact hl r hr g hpending

theorem Requests.reaches (h : Requests s s') {t : Nat} (ht : s.Reaches t) : s'.Reaches t := by
  unfold State.Reaches
  rw [h.completedGeneration, h.runningGeneration]
  rcases ht with ht | ht | ⟨g, hg, hle⟩
  · exact Or.inl ht
  · exact Or.inr (Or.inl ht)
  · refine Or.inr (Or.inr ⟨g, ?_, hle⟩)
    rcases h.pendingGeneration with hp | hp
    · rw [hp]
      exact hg
    · rw [hp, Option.mem_def.mp hg]
      rfl

end Numbers

namespace Protocol

def targets (q : Protocol α) : Action α → List Nat
  | .insert _ =>
    if q.state.settling = 0 then [q.state.pendingGeneration.getD q.state.nextGeneration]
    else [q.state.completedGeneration]
  | .insertPreempting _ => [q.state.pendingGeneration.getD q.state.nextGeneration]
  | .advance p =>
    match q.pc p with
    | .loopTop _ => if q.state.isSettled = true then [] else [q.state.evaluationTarget]
    | _ => []
  | _ => []

/-- The bowl and its callers, with every target ever handed out. -/
def targeting (C : Components α) : Machine (Protocol α × List Nat) (Action α) :=
  (machine C).recording targets

/-- The numbers are in order, a pending generation comes after the running one, and whoever drives
a generation drives the running one. -/
structure Generations (q : Protocol α) : Prop where
  exclusive : Exclusive q
  numbers : q.state.Numbers
  later : ∀ r ∈ q.state.runningGeneration, ∀ g ∈ q.state.pendingGeneration, r < g
  driven : ∀ p g, (q.pc p).generation = some g → q.state.runningGeneration = some g


variable {C : Components α} {q q' : Protocol α} {a : Action α} {m : Move α} {t : Nat}

theorem Generations.requests (h : Generations q) (he : Exclusive q')
    (hr : Requests q.state q'.state)
    (hd : ∀ p g, (q'.pc p).generation = some g → (q.pc p).generation = some g) :
    Generations q' where
  exclusive := he
  numbers := hr.numbers h.numbers
  later := hr.later h.numbers h.later
  driven p g hg := hr.runningGeneration.trans (h.driven p g (hd p g hg))

/-- Each move keeps the numbers in order, and within reach what was within reach. -/
theorem Generations.move (h : Generations q) (he : Exclusive q') (hm : Moves C q a q' m) :
    Generations q' ∧ ∀ t, q.state.Reaches t → q'.state.Reaches t := by
  obtain ⟨hpermitted, hstate, -, hgeneration⟩ := hm
  have hrequests : (∀ p g, m ≠ .start p g) → Requests q.state q'.state →
      Generations q' ∧ ∀ t, q.state.Reaches t → q'.state.Reaches t := by
    intro hne hr
    refine ⟨h.requests he hr fun p g hg => ?_, fun t ht => hr.reaches ht⟩
    exact (hgeneration p g hg).resolve_right (hne p g)
  -- once nothing is running nobody drives
  have hundriven : q'.state.runningGeneration = none → ∀ p g, (q'.pc p).generation = some g →
      q'.state.runningGeneration = some g := by
    intro hnone p g hg
    have hrunning := he.running p (Pc.inGeneration_of_generation hg)
    rw [hnone] at hrunning
    cases hrunning
  cases m with
  | keep => exact hrequests (fun _ _ => nofun) (.of_control hstate)
  | request =>
    have hr : Requests q.state q.state.requestGeneration := ⟨rfl, rfl, rfl, Or.inr rfl⟩
    exact hrequests (fun _ _ => nofun) (hr.control hstate)
  | accept commands =>
    have hr : Requests q.state ((Move.accept commands).apply q.state) :=
      ⟨rfl, rfl, rfl, Or.inr rfl⟩
    exact hrequests (fun _ _ => nofun) (hr.control hstate)
  | defer commands =>
    have hr : Requests q.state ((Move.defer commands).apply q.state) :=
      ⟨rfl, rfl, rfl, Or.inl rfl⟩
    exact hrequests (fun _ _ => nofun) (hr.control hstate)
  | enter =>
    have hr : Requests q.state q.state.enterEpoch := ⟨rfl, rfl, rfl, Or.inl rfl⟩
    exact hrequests (fun _ _ => nofun) (hr.control hstate)
  | promote watermark =>
    exact hrequests (fun _ _ => nofun) ((requests_promote q.state watermark).control hstate)
  | leave => exact hrequests (fun _ _ => nofun) ((requests_leaveEpoch q.state).control hstate)
  | start p generation =>
    obtain ⟨hpending, hidle, hholds, -⟩ := hpermitted
    have hcompleted : q'.state.completedGeneration = q.state.completedGeneration :=
      hstate.completedGeneration
    have hrunning : q'.state.runningGeneration = some generation := hstate.runningGeneration
    have hnext : q'.state.nextGeneration = generation + 1 := hstate.nextGeneration
    have hnone : q'.state.pendingGeneration = none := hstate.pendingGeneration
    obtain ⟨hlt, -⟩ := h.numbers.pending generation hpending
    refine ⟨⟨he, ⟨?_, ?_, ?_⟩, ?_, ?_⟩, ?_⟩
    · rw [hcompleted, hnext]
      omega
    · rw [hcompleted, hnext, hrunning]
      rintro r hr
      cases hr
      exact ⟨hlt, Nat.lt_succ_self _⟩
    · rw [hnone]
      exact fun _ hg => nomatch hg
    · rw [hnone]
      exact fun _ _ _ hg => nomatch hg
    · intro p' g hg
      rw [hrunning]
      rcases hgeneration p' g hg with hold | heq
      · -- whoever drove before held the lock that `p` holds
        have hother := h.exclusive.runner p'
          (Pc.holdsRunner_of_inGeneration (Pc.inGeneration_of_generation hold))
        have hsame := hother.symm.trans (h.exclusive.runner p hholds)
        cases hsame
        rw [hidle] at hold
        cases hold
      · cases heq
        rfl
    · unfold State.Reaches
      rw [hcompleted, hrunning, hnone]
      rintro t (ht | ⟨r, hr, hle⟩ | ⟨g, hg, hle⟩)
      · exact Or.inl ht
      · have hlater := h.later r hr generation hpending
        exact Or.inr (Or.inl ⟨generation, rfl, by omega⟩)
      · rw [hpending] at hg
        cases hg
        exact Or.inr (Or.inl ⟨generation, rfl, hle⟩)
  | complete p generation =>
    have hdriven := h.driven p generation hpermitted
    have hcompleted : q'.state.completedGeneration = generation := hstate.completedGeneration
    have hrunning : q'.state.runningGeneration = none := hstate.runningGeneration
    have hnext : q'.state.nextGeneration = q.state.nextGeneration := hstate.nextGeneration
    have hpending : q'.state.pendingGeneration = q.state.pendingGeneration :=
      hstate.pendingGeneration
    obtain ⟨hlt, hbound⟩ := h.numbers.running generation hdriven
    refine ⟨⟨he, ⟨?_, ?_, ?_⟩, ?_, hundriven hrunning⟩, ?_⟩
    · rw [hcompleted, hnext]
      exact hbound
    · rw [hrunning]
      exact fun _ hr => nomatch hr
    · rw [hpending, hcompleted, hnext]
      intro g hg
      exact ⟨h.later generation hdriven g hg, (h.numbers.pending g hg).2⟩
    · rw [hrunning]
      exact fun _ hr => nomatch hr
    · unfold State.Reaches
      rw [hcompleted, hrunning, hpending]
      rintro t (ht | ⟨r, hr, hle⟩ | ht)
      · exact Or.inl (by omega)
      · rw [hdriven] at hr
        cases hr
        exact Or.inl hle
      · exact Or.inr (Or.inr ht)
  | abandon p generation =>
    have hdriven := h.driven p generation hpermitted
    have hcompleted : q'.state.completedGeneration = q.state.completedGeneration :=
      hstate.completedGeneration
    have hrunning : q'.state.runningGeneration = none := hstate.runningGeneration
    have hnext : q'.state.nextGeneration = q.state.nextGeneration := hstate.nextGeneration
    have hpending : q'.state.pendingGeneration =
        some (q.state.pendingGeneration.getD generation) := hstate.pendingGeneration
    obtain ⟨hlt, hbound⟩ := h.numbers.running generation hdriven
    have hrequeued : generation ≤ q.state.pendingGeneration.getD generation ∧
        q.state.pendingGeneration.getD generation ≤ q.state.nextGeneration ∧
          ∀ g ∈ q.state.pendingGeneration, g ≤ q.state.pendingGeneration.getD generation := by
      cases hp : q.state.pendingGeneration with
      | none => exact ⟨le_refl _, by simpa using by omega, fun _ hg => nomatch hg⟩
      | some g =>
        have hlater := h.later generation hdriven g hp
        refine ⟨Nat.le_of_lt hlater, (h.numbers.pending g hp).2, fun g' hg' => ?_⟩
        cases hg'
        exact le_refl _
    refine ⟨⟨he, ⟨?_, ?_, ?_⟩, ?_, hundriven hrunning⟩, ?_⟩
    · rw [hcompleted, hnext]
      exact h.numbers.next
    · rw [hrunning]
      exact fun _ hr => nomatch hr
    · rw [hpending, hcompleted, hnext]
      intro g hg
      cases hg
      exact ⟨by omega, hrequeued.2.1⟩
    · rw [hrunning]
      exact fun _ hr => nomatch hr
    · unfold State.Reaches
      rw [hcompleted, hrunning, hpending]
      rintro t (ht | ⟨r, hr, hle⟩ | ⟨g, hg, hle⟩)
      · exact Or.inl ht
      · rw [hdriven] at hr
        cases hr
        exact Or.inr (Or.inr ⟨_, rfl, by omega⟩)
      · have hkept := hrequeued.2.2 g hg
        exact Or.inr (Or.inr ⟨_, rfl, by omega⟩)

/-- What an action hands out is within reach afterwards. -/
theorem reaches_targets (hs : (machine C).step q a = some q') :
    ∀ t ∈ targets q a, q'.state.Reaches t := by
  obtain ⟨q₁, hact, rfl⟩ := Option.map_eq_some_iff.mp hs
  rw [(rest_frame q₁).1]
  intro t ht
  cases a with
  | insert commands =>
    obtain ⟨s, hstate, hact⟩ := Option.bind_eq_some_iff.mp hact
    cases hact
    simp only [targets] at ht
    rcases State.acceptInput_eq hstate with ⟨hidle, rfl⟩ | ⟨hbusy, -, rfl⟩
    · rw [if_pos hidle] at ht
      cases List.mem_singleton.mp ht
      exact Or.inr (Or.inr ⟨_, rfl, le_refl _⟩)
    · rw [if_neg hbusy] at ht
      cases List.mem_singleton.mp ht
      exact Or.inl (le_refl _)
  | insertPreempting commands =>
    obtain ⟨s, hstate, hact⟩ := Option.bind_eq_some_iff.mp hact
    cases hact
    obtain ⟨restart, rfl⟩ := State.acceptPreempting_eq hstate
    cases List.mem_singleton.mp ht
    exact Or.inr (Or.inr ⟨_, rfl, le_refl _⟩)
  | advance p =>
    simp only [targets] at ht
    split at ht
    · rename_i epoch hpc
      split_ifs at ht with hsettled
      · cases ht
      · cases List.mem_singleton.mp ht
        have hstate : q₁.state = q.state := by
          have hadvance : q.advance C p = some q₁ := hact
          unfold Protocol.advance at hadvance
          simp only [hpc, if_neg hsettled] at hadvance
          cases hadvance
          rfl
        rw [hstate]
        unfold State.evaluationTarget
        cases hpending : q.state.pendingGeneration with
        | some g => exact Or.inr (Or.inr ⟨g, hpending, le_refl _⟩)
        | none =>
          cases hrunning : q.state.runningGeneration with
          | some r => exact Or.inr (Or.inl ⟨r, hrunning, le_refl _⟩)
          | none => exact Or.inl (le_refl _)
    · cases ht
  | _ => cases ht

theorem generations_new (systems : List BoxedSystem) (hooked : SystemId → Bool) :
    Generations (new systems hooked : Protocol α).rest := by
  have hidle : Exclusive (new systems hooked : Protocol α) :=
    ⟨fun _ hp => (nomatch hp), fun _ hp => (nomatch hp)⟩
  obtain ⟨hstate, hpc, -, -⟩ := rest_frame (new systems hooked : Protocol α)
  have hbuilt : (systems.foldl State.registerSystem (State.new α)).completedGeneration = 0 ∧
      (systems.foldl State.registerSystem (State.new α)).runningGeneration = none ∧
        (systems.foldl State.registerSystem (State.new α)).nextGeneration = 1 ∧
          ∀ g ∈ (systems.foldl State.registerSystem (State.new α)).pendingGeneration, g = 1 := by
    refine List.foldlRecOn systems _ (motive := fun s : State α => s.completedGeneration = 0 ∧
      s.runningGeneration = none ∧ s.nextGeneration = 1 ∧ ∀ g ∈ s.pendingGeneration, g = 1)
      ⟨rfl, rfl, rfl, fun _ hg => nomatch hg⟩ ?_
    rintro s ⟨hcompleted, hrunning, hnext, hpending⟩ system -
    refine ⟨hcompleted, hrunning, hnext, fun g hg => ?_⟩
    have hg : s.pendingGeneration.getD s.nextGeneration = g := Option.some.inj hg
    cases hp : s.pendingGeneration with
    | none => rw [hp] at hg; exact hg.symm.trans hnext
    | some g' => rw [hp] at hg; exact hg.symm.trans (hpending g' hp)
  obtain ⟨hcompleted, hrunning, hnext, hpending⟩ := hbuilt
  have hnumbers : (new systems hooked : Protocol α).state.Numbers := by
    refine ⟨?_, ?_, ?_⟩
    · show (systems.foldl State.registerSystem (State.new α)).completedGeneration <
        (systems.foldl State.registerSystem (State.new α)).nextGeneration
      omega
    · intro r hr
      cases hrunning.symm.trans hr
    · intro g hg
      have hg := hpending g hg
      show (systems.foldl State.registerSystem (State.new α)).completedGeneration < g ∧
        g ≤ (systems.foldl State.registerSystem (State.new α)).nextGeneration
      omega
  refine ⟨hidle.rest, ?_, ?_, ?_⟩
  · rw [hstate]
    exact hnumbers
  · rw [hstate]
    intro r hr
    cases hrunning.symm.trans hr
  · intro p g hg
    rw [hpc] at hg
    cases hg

/-- Every generation a caller was ever told to wait for is completed, running or pending, and the
numbers are in order. -/
theorem reachable_targets {s : Protocol α × List Nat} (h : (targeting C).Reachable s) :
    s.1.state.Numbers ∧ ∀ t ∈ s.2, s.1.state.Reaches t := by
  have hrecorded := Machine.ReachableUnder.recorded h Generations
    (fun q t => q.state.Reaches t) (fun q hq => ?_) fun q a q' hq hs => ?_
  · exact ⟨hrecorded.1.numbers, hrecorded.2⟩
  · obtain ⟨systems, hooked, rfl⟩ := hq
    exact generations_new systems hooked
  · obtain ⟨m, hm⟩ := moves_step hs
    obtain ⟨q₁, hact, rfl⟩ := Option.map_eq_some_iff.mp hs
    have he : Exclusive q₁.rest := (hq.exclusive.act hact).rest
    obtain ⟨hnumbers, hreaches⟩ := hq.move he hm
    exact ⟨hnumbers, hreaches, reaches_targets hs⟩

/-- A settle is cancelled while it drives a generation, and a preempting and a deferred input
arrive before another settle completes the next one. -/
def redriven : Protocol Nat × List Nat :=
  ((targeting (Components.plain Nat)).run (plainBowl, [])
    ([.insert [.insert 5 1 (.data 7)], .callSettle 1 false] ++ advances 4 1 ++
      [.insert [.insert 5 2 (.data 7)], .openWindow 1, .insertPreempting [.insert 5 3 (.data 7)],
        .cancel 1, .advance 1, .callSettle 2 false] ++ advances 7 2)).getD (plainBowl, [])

theorem redriven_targets :
    (redriven.1.state.Numbers ∧ ∀ t ∈ redriven.2, redriven.1.state.Reaches t) ∧
      redriven.2 = [1, 1, 0, 2, 2] ∧ redriven.1.state.completedGeneration = 2 := by
  have hrun : (targeting (Components.plain Nat)).run (plainBowl, [])
      ([.insert [.insert 5 1 (.data 7)], .callSettle 1 false] ++ advances 4 1 ++
        [.insert [.insert 5 2 (.data 7)], .openWindow 1, .insertPreempting [.insert 5 3 (.data 7)],
          .cancel 1, .advance 1, .callSettle 2 false] ++ advances 7 2) = some redriven := rfl
  have hinit : (machine (Components.plain Nat)).init plainBowl := ⟨_, _, rfl⟩
  exact ⟨reachable_targets (Machine.Reachable.run (.init ⟨hinit, rfl⟩) hrun), by decide,
    by decide⟩

end Protocol
end Porridge
