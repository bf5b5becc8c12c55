import Porridge.Protocol.Driver

/-! Preempting inputs wait for the generation after the one whose window they reached. -/
namespace Porridge
namespace Protocol

variable {α : Type} {C : Components α} {q q' : Protocol α} {a : Action α} {m : Move α}

/-- Every numbered input has been accepted. -/
structure Counted (q : Protocol α) : Prop where
  applied : ∀ n ∈ q.history.applied, n < q.history.accepted
  pending : ∀ x ∈ q.history.pending, x.1 < q.history.accepted
  deferred : ∀ d ∈ q.history.deferred, d.2.1 < q.history.accepted

theorem Counted.of_history (h : Counted q) (hh : SameInputs q.history q'.history) :
    Counted q' where
  applied := by
    rw [hh.applied, hh.accepted]
    exact h.applied
  pending := by
    rw [hh.pending, hh.accepted]
    exact h.pending
  deferred := by
    rw [hh.deferred, hh.accepted]
    exact h.deferred

theorem Counted.promote (h : Counted q) {watermark : Nat}
    (hh : SameInputs (q.history.promote watermark) q'.history) : Counted q' where
  applied := by
    rw [hh.applied, hh.accepted]
    exact h.applied
  pending := by
    rw [hh.pending, hh.accepted]
    intro x hx
    rcases List.mem_append.mp hx with hx | hx
    · exact h.pending x hx
    · obtain ⟨d, hd, rfl⟩ := List.mem_map.mp hx
      exact h.deferred d ((List.takeWhile_prefix _).subset hd)
  deferred := by
    rw [hh.deferred, hh.accepted]
    exact fun d hd => h.deferred d ((List.dropWhile_suffix _).subset hd)

theorem Counted.accept (h : Counted q) {settling tag : Nat} {commands : List (BaseCommand α)}
    (hh : SameInputs (q.history.accept settling tag commands) q'.history) : Counted q' := by
  have haccepted : q'.history.accepted = q.history.accepted + 1 := by
    rw [hh.accepted, History.accept]
    split_ifs <;> rfl
  have happlied : q'.history.applied = q.history.applied := by
    rw [hh.applied, History.accept]
    split_ifs <;> rfl
  constructor
  · rw [happlied, haccepted]
    exact fun n hn => Nat.lt_succ_of_lt (h.applied n hn)
  · rw [hh.pending, haccepted, History.accept]
    intro x hx
    split_ifs at hx
    · rcases List.mem_append.mp hx with hx | hx
      · exact Nat.lt_succ_of_lt (h.pending x hx)
      · cases List.mem_singleton.mp hx
        exact Nat.lt_succ_self _
    · exact Nat.lt_succ_of_lt (h.pending x hx)
  · rw [hh.deferred, haccepted, History.accept]
    intro d hd
    split_ifs at hd
    · exact Nat.lt_succ_of_lt (h.deferred d hd)
    · rcases List.mem_append.mp hd with hd | hd
      · exact Nat.lt_succ_of_lt (h.deferred d hd)
      · cases List.mem_singleton.mp hd
        exact Nat.lt_succ_self _

theorem Counted.move (h : Counted q) (hm : Moves C q a q' m) : Counted q' := by
  have hhistory := hm.history
  cases m with
  | keep | request | enter | complete p g | abandon p g => exact h.of_history hhistory
  | accept commands | defer commands => exact h.accept hhistory
  | promote watermark => exact h.promote hhistory
  | leave =>
    simp only [Move.note] at hhistory
    split_ifs at hhistory
    · exact h.promote hhistory
    · exact h.of_history hhistory
  | start p g =>
    constructor
    · rw [hhistory.applied, hhistory.accepted]
      intro n hn
      rcases List.mem_append.mp hn with hn | hn
      · exact h.applied n hn
      · obtain ⟨x, hx, rfl⟩ := List.mem_map.mp hn
        exact h.pending x hx
    · rw [hhistory.pending]
      exact fun _ hx => nomatch hx
    · rw [hhistory.deferred, hhistory.accepted]
      exact h.deferred

/-- Input `n` is left to a generation after `g`: as long as `g` may be driven, it is not applied
and a later generation is pending. -/
structure Late (q : Protocol α) (g n : Nat) : Prop where
  next : g < q.state.nextGeneration
  pending : ∀ h ∈ q.state.pendingGeneration, g < h
  driven : ∀ p h, (q.pc p).generation = some h → g ≤ h
  waiting : (n ∉ q.history.applied ∧ q.state.pendingGeneration.isSome = true) ∨
    ∀ p, (q.pc p).generation ≠ some g

theorem Late.requests {g n : Nat} (h : Late q g n) (hr : Requests q.state q'.state)
    (ha : q'.history.applied = q.history.applied)
    (hd : ∀ p h, (q'.pc p).generation = some h → (q.pc p).generation = some h) : Late q' g n where
  next := by
    rw [hr.nextGeneration]
    exact h.next
  pending := by
    rcases hr.pendingGeneration with hp | hp
    · rw [hp]
      exact h.pending
    · rw [hp]
      intro k hk
      cases hk
      cases hpending : q.state.pendingGeneration with
      | none => exact h.next
      | some k => exact h.pending k hpending
  driven p k hk := h.driven p k (hd p k hk)
  waiting := by
    rw [ha]
    rcases h.waiting with ⟨hn, hsome⟩ | hover
    · refine Or.inl ⟨hn, ?_⟩
      rcases hr.pendingGeneration with hp | hp
      · rw [hp]
        exact hsome
      · rw [hp]
        rfl
    · exact Or.inr fun p hg => hover p (hd p g hg)

/-- No move applies the input before generation `g` is over. -/
theorem Late.move {g n : Nat} (h : Late q g n) (hq : Generations q) (hm : Moves C q a q' m) :
    Late q' g n := by
  obtain ⟨hpermitted, hstate, hhistory, hgeneration⟩ := hm
  have hrequests : (∀ p k, m ≠ .start p k) → Requests q.state q'.state →
      (m.note q.state q.history).applied = q.history.applied → Late q' g n := by
    intro hne hr happlied
    refine h.requests hr (hhistory.applied.trans happlied) fun p k hk => ?_
    exact (hgeneration p k hk).resolve_right (hne p k)
  cases m with
  | keep => exact hrequests (fun _ _ => nofun) (.of_control hstate) rfl
  | request =>
    have hr : Requests q.state q.state.requestGeneration := ⟨rfl, rfl, rfl, Or.inr rfl⟩
    exact hrequests (fun _ _ => nofun) (hr.control hstate) rfl
  | accept commands =>
    have hr : Requests q.state ((Move.accept commands).apply q.state) :=
      ⟨rfl, rfl, rfl, Or.inr rfl⟩
    exact hrequests (fun _ _ => nofun) (hr.control hstate) rfl
  | defer commands =>
    have hr : Requests q.state ((Move.defer commands).apply q.state) :=
      ⟨rfl, rfl, rfl, Or.inl rfl⟩
    refine hrequests (fun _ _ => nofun) (hr.control hstate) ?_
    show (q.history.accept _ _ commands).applied = q.history.applied
    unfold History.accept
    split_ifs <;> rfl
  | enter =>
    have hr : Requests q.state q.state.enterEpoch := ⟨rfl, rfl, rfl, Or.inl rfl⟩
    exact hrequests (fun _ _ => nofun) (hr.control hstate) rfl
  | promote watermark =>
    exact hrequests (fun _ _ => nofun) ((requests_promote q.state watermark).control hstate) rfl
  | leave =>
    refine hrequests (fun _ _ => nofun) ((requests_leaveEpoch q.state).control hstate) ?_
    simp only [Move.note]
    split_ifs <;> rfl
  | start p k =>
    obtain ⟨hpending, hidle, hholds, -⟩ := hpermitted
    have hlater : g < k := h.pending k hpending
    have hover : ∀ p', (q'.pc p').generation ≠ some g := by
      intro p' hg
      rcases hgeneration p' g hg with hold | hstart
      · -- whoever drove before held the lock that `p` holds
        have hother := hq.exclusive.runner p'
          (Pc.holdsRunner_of_inGeneration (Pc.inGeneration_of_generation hold))
        have hsame := hother.symm.trans (hq.exclusive.runner p hholds)
        cases hsame
        rw [hidle] at hold
        cases hold
      · cases hstart
        exact Nat.lt_irrefl g hlater
    refine ⟨?_, ?_, fun p' j hj => ?_, Or.inr hover⟩
    · rw [show q'.state.nextGeneration = k + 1 from hstate.nextGeneration]
      omega
    · rw [show q'.state.pendingGeneration = none from hstate.pendingGeneration]
      exact fun _ hk => nomatch hk
    · rcases hgeneration p' j hj with hold | hstart
      · exact h.driven p' j hold
      · cases hstart
        exact Nat.le_of_lt hlater
  | complete p k =>
    have hdriven : ∀ p' j, (q'.pc p').generation = some j → (q.pc p').generation = some j :=
      fun p' j hj => (hgeneration p' j hj).resolve_right nofun
    have hpending : q'.state.pendingGeneration = q.state.pendingGeneration :=
      hstate.pendingGeneration
    have happlied : q'.history.applied = q.history.applied := hhistory.applied
    refine ⟨?_, ?_, fun p' j hj => h.driven p' j (hdriven p' j hj), ?_⟩
    · rw [show q'.state.nextGeneration = q.state.nextGeneration from hstate.nextGeneration]
      exact h.next
    · rw [hpending]
      exact h.pending
    · rw [hpending, happlied]
      exact h.waiting.imp_right fun hover p' hg => hover p' (hdriven p' g hg)
  | abandon p k =>
    have hdriven : ∀ p' j, (q'.pc p').generation = some j → (q.pc p').generation = some j :=
      fun p' j hj => (hgeneration p' j hj).resolve_right nofun
    have hpending : q'.state.pendingGeneration =
        some (q.state.pendingGeneration.getD k) := hstate.pendingGeneration
    have happlied : q'.history.applied = q.history.applied := hhistory.applied
    have hrequeued : g < q.state.pendingGeneration.getD k := by
      cases hp : q.state.pendingGeneration with
      | some j => exact h.pending j hp
      | none =>
        -- nothing was pending, so `g` was over and what is abandoned came after it
        have hover := h.waiting.resolve_left fun hw => by
          rw [hp] at hw
          cases hw.2
        have hle := h.driven p k hpermitted
        have hne : k ≠ g := by
          rintro rfl
          exact hover p hpermitted
        exact Nat.lt_of_le_of_ne hle (Ne.symm hne)
    refine ⟨?_, ?_, fun p' j hj => h.driven p' j (hdriven p' j hj), ?_⟩
    · rw [show q'.state.nextGeneration = q.state.nextGeneration from hstate.nextGeneration]
      exact h.next
    · rw [hpending]
      rintro j hj
      cases hj
      exact hrequeued
    · rw [hpending, happlied]
      rcases h.waiting with ⟨hn, -⟩ | hover
      · exact Or.inl ⟨hn, rfl⟩
      · exact Or.inr fun p' hg => hover p' (hdriven p' g hg)

/-- An input accepted while a generation runs is left to a later one. -/
theorem late_of_reached {commands : List (BaseCommand α)} {g : Nat} (hq : Generations q)
    (hn : Counted q) (hg : q.state.runningGeneration = some g)
    (hs : (machine C).step q (.insertPreempting commands) = some q') :
    Late q' g q.history.accepted := by
  obtain ⟨q₁, hact, rfl⟩ := Option.map_eq_some_iff.mp hs
  obtain ⟨s, hstate, hact⟩ := Option.bind_eq_some_iff.mp hact
  cases hact
  obtain ⟨restart, rfl⟩ := State.acceptPreempting_eq hstate
  set q₁ : Protocol α := ⟨_, q.parties, q.runner, q.deferredCleanup,
    q.history.accept 0 0 commands⟩ with hq₁
  obtain ⟨hstate, hpc, -, -⟩ := rest_frame q₁
  have happlied : q₁.rest.history.applied = q.history.applied := by
    unfold Protocol.rest
    split_ifs <;> rfl
  refine ⟨?_, ?_, fun p k hk => ?_, Or.inl ⟨?_, ?_⟩⟩
  · rw [hstate]
    exact (hq.numbers.running g hg).2
  · rw [hstate]
    intro k hk
    have hk : q.state.pendingGeneration.getD q.state.nextGeneration = k := Option.some.inj hk
    cases hp : q.state.pendingGeneration with
    | none =>
      rw [hp] at hk
      exact hk ▸ (hq.numbers.running g hg).2
    | some j =>
      rw [hp] at hk
      exact hk ▸ hq.later g hg j hp
  · rw [hpc] at hk
    have hrunning := hq.driven p k hk
    rw [hg] at hrunning
    exact Nat.le_of_eq (Option.some.inj hrunning)
  · rw [happlied]
    exact fun hmem => Nat.lt_irrefl _ (hn.applied _ hmem)
  · rw [hstate]
    rfl

end Protocol

namespace Drive

variable {α : Type} {C : Components α}

open Protocol

/-- What a record of plans and reached windows says of the bowl it was made on. -/
structure Recorded (x : Drive α × List DriveEvent) : Prop where
  generations : Generations x.1.protocol
  counted : Counted x.1.protocol
  late : ∀ g n, DriveEvent.reached g n ∈ x.2 → Late x.1.protocol g n
  unapplied : x.2.Pairwise fun a b => ∀ g n s applied,
    a = .reached g n → b = .planned g s applied → n ∉ applied

theorem Recorded.act {d : Drive α} {events : List DriveEvent} (h : Recorded (d, events))
    {a : Action α} {q : Protocol α} (hs : Protocol.step C d.protocol a = some q)
    {cursor : Option Cursor} : Recorded (⟨q, cursor⟩, events ++ d.shows (.act a)) := by
  obtain ⟨m, hm⟩ := moves_step hs
  obtain ⟨q₁, hact, hrest⟩ := Option.map_eq_some_iff.mp hs
  have he : Exclusive q := hrest ▸ (h.generations.exclusive.act hact).rest
  have hevents : ∀ b ∈ d.shows (.act a), ∃ g, b = .reached g d.protocol.history.accepted ∧
      d.protocol.state.runningGeneration = some g ∧ ∃ commands, a = .insertPreempting commands := by
    intro b hb
    cases a with
    | insertPreempting commands =>
      simp only [shows] at hb
      split at hb
      · rename_i g hg
        split_ifs at hb
        · exact ⟨g, List.mem_singleton.mp hb, hg, commands, rfl⟩
        · cases hb
      · cases hb
    | _ => cases hb
  refine ⟨(h.generations.move he hm).1, h.counted.move hm, fun g n hmem => ?_, ?_⟩
  · rcases List.mem_append.mp hmem with hold | hnew
    · exact (h.late g n hold).move h.generations hm
    · obtain ⟨g', heq, hg, commands, rfl⟩ := hevents _ hnew
      cases heq
      exact late_of_reached h.generations h.counted hg hs
  · refine List.pairwise_append.mpr ⟨h.unapplied, ?_, ?_⟩
    · refine List.pairwise_of_forall_mem_list fun a _ b hb g n s applied _ hplanned => ?_
      obtain ⟨g', heq, -⟩ := hevents b hb
      cases heq.symm.trans hplanned
    · intro a _ b hb g n s applied _ hplanned
      obtain ⟨g', heq, -⟩ := hevents b hb
      cases heq.symm.trans hplanned

theorem Recorded.plan {d : Drive α} {events : List DriveEvent} (h : Recorded (d, events))
    (p : PartyId) (s : SystemId) : Recorded (d, events ++ d.shows (.plan p s)) := by
  have hevents : ∀ b ∈ d.shows (.plan p s), ∃ g, (d.protocol.pc p).generation = some g ∧
      b = .planned g s d.protocol.history.applied := by
    intro b hb
    simp only [shows] at hb
    split at hb
    · rename_i g hg
      exact ⟨g, hg, List.mem_singleton.mp hb⟩
    · cases hb
  refine ⟨h.generations, h.counted, fun g n hmem => ?_, List.pairwise_append.mpr
    ⟨h.unapplied, List.pairwise_of_forall_mem_list ?_, ?_⟩⟩
  · rcases List.mem_append.mp hmem with hold | hnew
    · exact h.late g n hold
    · obtain ⟨g', -, heq⟩ := hevents _ hnew
      cases heq
  · intro a ha b _ g n s applied hreached _
    obtain ⟨g', -, heq⟩ := hevents a ha
    cases heq.symm.trans hreached
  · rintro a ha b hb g n s' applied rfl rfl
    obtain ⟨g', hg, heq⟩ := hevents _ hb
    cases heq
    rcases (h.late g n ha).waiting with ⟨hn, -⟩ | hover
    · exact hn
    · exact absurd hg (hover p)

/-- No generation plans anything with an input applied that reached its window. -/
theorem recorded_of_reachable {x : Drive α × List DriveEvent} (h : (showing C).Reachable x) :
    Recorded x := by
  refine h.invariant Recorded ?_ ?_
  · rintro ⟨d, events⟩ ⟨⟨hinit, -⟩, hnone⟩
    obtain ⟨systems, hooked, hq⟩ := hinit
    have hnone : events = [] := hnone
    subst hnone
    refine ⟨?_, ?_, fun _ _ hmem => (nomatch hmem), List.Pairwise.nil⟩
    · show Generations d.protocol
      rw [hq]
      exact generations_new systems hooked
    · have hinputs : SameInputs (⟨0, [], [], [], ∅, []⟩ : History α) d.protocol.history := by
        rw [hq]
        unfold Protocol.rest
        split_ifs <;> exact ⟨rfl, rfl, rfl, rfl⟩
      constructor
      · rw [hinputs.applied]
        exact fun _ hn => nomatch hn
      · rw [hinputs.pending]
        exact fun _ hn => nomatch hn
      · rw [hinputs.deferred]
        exact fun _ hn => nomatch hn
  · rintro ⟨d, events⟩ i x' hrecorded - hs
    obtain ⟨d', hstep, rfl⟩ := Option.map_eq_some_iff.mp hs
    cases i with
    | act a =>
      have hstep : d.step C (.act a) = some d' := hstep
      unfold Drive.step at hstep
      dsimp only at hstep
      split_ifs at hstep
      obtain ⟨q, hq, rfl⟩ := Option.map_eq_some_iff.mp hstep
      exact hrecorded.act hq
    | plan p s =>
      have hstep : d.step C (.plan p s) = some d' := hstep
      have hsame : d = d' := by
        unfold Drive.step at hstep
        dsimp only at hstep
        split at hstep
        · split_ifs at hstep
          exact Option.some.inj hstep
        · cases hstep
      exact hsame ▸ hrecorded.plan p s
    | finishPhase p =>
      have hstep : d.step C (.finishPhase p) = some d' := hstep
      have hsame : d'.protocol = d.protocol := by
        unfold Drive.step at hstep
        dsimp only at hstep
        split_ifs at hstep
        cases hstep
        rfl
      refine ⟨?_, ?_, fun g n hmem => ?_, ?_⟩
      · show Generations d'.protocol
        rw [hsame]
        exact hrecorded.generations
      · show Counted d'.protocol
        rw [hsame]
        exact hrecorded.counted
      · show Late d'.protocol g n
        rw [hsame]
        exact hrecorded.late g n (by simpa [shows] using hmem)
      · simpa [shows] using hrecorded.unapplied

/-- In every run the inputs that reach a window are applied before their generation plans again
exactly when that generation plans nothing again. -/
theorem inputsEnterRestart_iff {x : Drive α × List DriveEvent} (h : (showing C).Reachable x) :
    InputsEnterRestart x.2 ↔ NothingPlannedAfter x.2 := by
  have hunapplied := (recorded_of_reachable h).unapplied
  constructor
  · intro henter
    refine (hunapplied.and henter).imp fun hpair g n s applied hreached hplanned => ?_
    exact hpair.1 g n s applied hreached hplanned (hpair.2 g n s applied hreached hplanned)
  · intro hnothing
    exact hnothing.imp fun hpair g n s applied hreached hplanned =>
      absurd hplanned (hpair g n s applied hreached)

/-- Caller 1 drives a generation into a window, where a second input arrives. -/
def intoWindow : List (DriveAction Nat) :=
  [.act (.insert [.insert 5 1 (.data 7)]), .act (.callSettle 1 false)] ++
    (advances 4 1).map .act ++
      [.act (.openWindow 1), .act (.insertPreempting [.insert 5 3 (.data 7)])]

/-- The driver is dropped in the window, and caller 2 drives the next generation. -/
def dropped : Drive Nat × List DriveEvent :=
  ((showing (Components.plain Nat)).run (⟨plainBowl, none⟩, []) (intoWindow ++
    [.act (.cancel 1), .act (.advance 1), .act (.callSettle 2 false)] ++
      (advances 4 2).map .act ++ [.finishPhase 2, .plan 2 0])).getD (⟨plainBowl, none⟩, [])

theorem dropped_enters : (InputsEnterRestart dropped.2 ↔ NothingPlannedAfter dropped.2) ∧
    dropped.2 = [.reached 1 1, .planned 2 0 [0, 1]] := by
  have hrun : (showing (Components.plain Nat)).run (⟨plainBowl, none⟩, []) (intoWindow ++
      [.act (.cancel 1), .act (.advance 1), .act (.callSettle 2 false)] ++
        (advances 4 2).map .act ++ [.finishPhase 2, .plan 2 0]) = some dropped := rfl
  have hinit : (Protocol.machine (Components.plain Nat)).init plainBowl := ⟨_, _, rfl⟩
  exact ⟨inputsEnterRestart_iff (Machine.Reachable.run (.init ⟨⟨hinit, rfl⟩, rfl⟩) hrun),
    by decide⟩

/-- The driver closes its window, goes through the startup slot and plans the evaluate phase. -/
def restarted : Drive Nat × List DriveEvent :=
  ((showing (Components.plain Nat)).run (⟨plainBowl, none⟩, []) (intoWindow ++
    [.act (.closeWindow 1), .finishPhase 1, .plan 1 0])).getD (⟨plainBowl, none⟩, [])

/-- The restarted phase plans while the input that reached the window is still queued. -/
theorem restart_plans_without_input : (showing (Components.plain Nat)).Reachable restarted ∧
    restarted.2 = [.reached 1 1, .planned 1 0 [0]] ∧ ¬ InputsEnterRestart restarted.2 ∧
      restarted.1.protocol.state.pendingInputs = [.insert 5 3 (.data 7)] ∧
        restarted.1.protocol.state.world.has 5 3 = false := by
  have hrun : (showing (Components.plain Nat)).run (⟨plainBowl, none⟩, []) (intoWindow ++
      [.act (.closeWindow 1), .finishPhase 1, .plan 1 0]) = some restarted := rfl
  have hinit : (Protocol.machine (Components.plain Nat)).init plainBowl := ⟨_, _, rfl⟩
  have hevents : restarted.2 = [.reached 1 1, .planned 1 0 [0]] := by decide
  refine ⟨Machine.Reachable.run (.init ⟨⟨hinit, rfl⟩, rfl⟩) hrun, hevents, ?_, by decide,
    by decide⟩
  rw [hevents]
  intro henter
  have hmem : 1 ∈ [0] := List.rel_of_pairwise_cons henter List.mem_cons_self 1 1 0 [0] rfl rfl
  exact absurd hmem (by decide)

end Drive
end Porridge
