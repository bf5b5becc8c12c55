import Porridge.Waiters
import Porridge.Waiters.Sections

/-! Nobody sleeps through a boundary, and the runner counts the mutators that asked for one. -/
namespace Porridge

variable {α : Type}

/-- The caller's next section is a mutation boundary for whoever sleeps until one. -/
def Pc.drainsBoundary : Pc α → Bool
  | completing .. | leaving .. | unwinding => true
  | _ => false

namespace Waiters

def Sleeps (w : Waiters α) (c : Channel) : Prop :=
  ∃ m x, w.mutators.lookup m = some x ∧ x.awaits = some c

/-- Who sleeps is among those that the next boundary, or the completion of its generation, wakes. -/
structure Awake (w : Waiters α) : Prop where
  generations : Protocol.Generations w.protocol
  counted : w.preemptWaiters = Dict.tally PreemptWaiter.registered w.mutators
  /-- The runner counts whoever sleeps and asks for a boundary. -/
  asked : ∀ m x, w.mutators.lookup m = some x → x.awaits.isSome = true →
    x.registered = true ∨ x.deferred = true
  listed : ∀ c, w.Sleeps c → c ∈ w.boundaryWaiters
  sealed : ∀ c, w.Sleeps c → w.protocol.state.Sealed
  callers : ∀ p x c, w.callers.lookup p = some x → x.awaits = some c →
    (x.target, c) ∈ w.waiters ∧ w.protocol.state.completedGeneration < x.target
  ensuring : ∀ p x, w.callers.lookup p = some x →
    ∃ waiter, (w.protocol.pc p).waitsFor x.target waiter

variable {C : Components α} {w w' : Waiters α} {m : MutatorId} {p : PartyId} {x : PreemptWaiter α}

/-- After its boundary is drained nobody sleeps. -/
theorem not_sleeps_drainBoundary (h : Awake w) (c : Channel) : ¬ w.drainBoundary.Sleeps c := by
  rintro ⟨m, x, hx, hc⟩
  have hmapped : w.drainBoundary.mutators.lookup m =
      (w.mutators.lookup m).map (PreemptWaiter.hear w.boundaryWaiters) :=
    Dict.lookup_mapValues _ _ _
  rw [hmapped] at hx
  obtain ⟨x₀, hx₀, rfl⟩ := Option.map_eq_some_iff.mp hx
  obtain ⟨hawaits, hnot⟩ := Option.filter_eq_some_iff.mp hc
  exact absurd (h.listed c ⟨m, x₀, hx₀, hawaits⟩) (by simpa using hnot)

theorem tally_drainBoundary : Dict.tally PreemptWaiter.registered w.drainBoundary.mutators =
    Dict.tally PreemptWaiter.registered w.mutators := Dict.tally_mapValues fun _ => rfl

/-- A caller that sleeps on after some senders have fired has not been fired at. -/
theorem lookup_satisfy {wakes : Nat → Bool} {y : GenerationWaiter} {c : Channel}
    (hy : (w.satisfy wakes).callers.lookup p = some y) (hc : y.awaits = some c)
    (hlisted : (y.target, c) ∈ w.waiters) :
    w.callers.lookup p = some y ∧ wakes y.target = false ∧
      (y.target, c) ∈ (w.satisfy wakes).waiters := by
  obtain ⟨hlookup, hall⟩ := (Dict.mem_lookup_retain _ _ _ _).mp hy
  rw [hc] at hall
  have hwakes : wakes y.target = false := by
    cases hw : wakes y.target with
    | false => rfl
    | true =>
      have hfired : c ∈ (w.waiters.filter fun x => wakes x.1).map Prod.snd :=
        List.mem_map.mpr ⟨(y.target, c), List.mem_filter.mpr ⟨hlisted, hw⟩, rfl⟩
      simp [hfired] at hall
  exact ⟨hlookup, hwakes, List.mem_filter.mpr ⟨hlisted, by rw [hwakes]; rfl⟩⟩

/-- The section fires the channels of all mutators that sleep. -/
def drains (w : Waiters α) : Action α → Bool
  | .openWindow _ => true
  | .advance p => (w.protocol.pc p).drainsBoundary
  | _ => false

/-- A caller that finds the runner lock taken starts to wait. -/
theorem rouseOn_ensuring (w : Waiters α) (p : PartyId) (target : Nat) (waiter : Waiter) :
    w.rouseOn p (.ensuring target waiter) = w ∨
      w.protocol.state.completedGeneration < target ∧ w.protocol.runner ≠ none ∧
        w.rouseOn p (.ensuring target waiter) =
          { w with callers := w.callers.insert p ⟨target, none⟩ } := by
  by_cases hbusy : w.protocol.state.completedGeneration < target ∧ w.protocol.runner ≠ none
  · exact Or.inr ⟨hbusy.1, hbusy.2, if_pos hbusy⟩
  · exact Or.inl (if_neg hbusy)

structure SameMutators (w₀ w : Waiters α) : Prop where
  mutators : w.mutators = w₀.mutators
  boundaryWaiters : w.boundaryWaiters = w₀.boundaryWaiters
  preemptWaiters : w.preemptWaiters = w₀.preemptWaiters

/-- A section deals with the mutators as a whole: it drains the boundary or leaves them alone. -/
theorem rouse_mutators (w : Waiters α) (a : Action α) :
    SameMutators (if w.drains a = true then w.drainBoundary else w) (w.rouse a) := by
  have hon : ∀ (p : PartyId) (x : Pc α),
      SameMutators (if x.drainsBoundary = true then w.drainBoundary else w) (w.rouseOn p x) := by
    intro p x
    cases x with
    | ensuring target waiter =>
      show SameMutators w (w.rouseOn p (.ensuring target waiter))
      rcases rouseOn_ensuring w p target waiter with heq | ⟨-, -, heq⟩ <;> rw [heq] <;>
        exact ⟨rfl, rfl, rfl⟩
    | _ => exact ⟨rfl, rfl, rfl⟩
  have hdropped : ∀ (p : PartyId) (x : Pc α), SameMutators w (w.rouseDropped p x) := by
    intro p x
    cases x <;> exact ⟨rfl, rfl, rfl⟩
  cases a with
  | advance p => exact hon p (w.protocol.pc p)
  | cancel p => exact hdropped p (w.protocol.pc p)
  | _ => exact ⟨rfl, rfl, rfl⟩

theorem completes_of_not_drains {a : Action α} (h : w.drains a = false) (p : PartyId)
    (ha : a = .advance p) : (w.protocol.pc p).completes = false := by
  subst ha
  change (w.protocol.pc p).drainsBoundary = false at h
  cases hpc : w.protocol.pc p with
  | completing generation memo changed target waiter =>
    rw [hpc] at h
    cases h
  | _ => rfl

/-- A sleeper that a section leaves asleep has not been fired at, and its generation is still to
come. -/
theorem rouse_callers (h : Awake w) {a : Action α} {q : Protocol α}
    (hs : w.protocol.act C a = some q) {y : GenerationWaiter} {c : Channel}
    (hy : (w.rouse a).callers.lookup p = some y) (hc : y.awaits = some c) :
    (y.target, c) ∈ (w.rouse a).waiters ∧ q.state.completedGeneration < y.target := by
  have hkeep : (∀ p', a = .advance p' → (w.protocol.pc p').completes = false) →
      w.callers.lookup p = some y →
        (y.target, c) ∈ w.waiters ∧ q.state.completedGeneration < y.target := by
    intro hx hlookup
    rw [(Protocol.awaits_act hs).completed hx]
    exact h.callers p y c hlookup hc
  cases a with
  | advance p' =>
    change (w.rouseOn p' (w.protocol.pc p')).callers.lookup p = some y at hy
    show (y.target, c) ∈ (w.rouseOn p' (w.protocol.pc p')).waiters ∧ _
    cases hpc : w.protocol.pc p' with
    | completing generation memo changed target waiter =>
      rw [hpc] at hy
      have hbefore : w.callers.lookup p = some y := ((Dict.mem_lookup_retain _ _ _ _).mp hy).1
      obtain ⟨-, hlate, hmem⟩ := lookup_satisfy hy hc (h.callers p y c hbefore hc).1
      refine ⟨hmem, ?_⟩
      have hlate : generation < y.target := by simpa using hlate
      simp only [Protocol.act, Protocol.advance, hpc] at hs
      cases hs
      exact hlate
    | ensuring target waiter =>
      rw [hpc] at hy
      have hx : ∀ p'', (Action.advance p' : Action α) = .advance p'' →
          (w.protocol.pc p'').completes = false := by
        intro p'' heq
        cases heq
        rw [hpc]
        rfl
      rcases rouseOn_ensuring w p' target waiter with hrouse | ⟨-, -, hrouse⟩
      · rw [hrouse] at hy ⊢
        exact hkeep hx hy
      · rw [hrouse] at hy ⊢
        rw [Dict.lookup_insert] at hy
        split_ifs at hy with heq
        · cases hy
          cases hc
        · exact hkeep hx hy
    | _ =>
      rw [hpc] at hy
      refine hkeep (fun p'' heq => ?_) hy
      cases heq
      rw [hpc]
      rfl
  | cancel p' =>
    change (w.rouseDropped p' (w.protocol.pc p')).callers.lookup p = some y at hy
    show (y.target, c) ∈ (w.rouseDropped p' (w.protocol.pc p')).waiters ∧ _
    have hx : ∀ p'', (Action.cancel p' : Action α) = .advance p'' →
        (w.protocol.pc p'').completes = false := fun _ heq => (by cases heq)
    have herased : (w.callers.erase p').lookup p = some y → w.callers.lookup p = some y := by
      intro hy
      rw [Dict.lookup_erase] at hy
      split_ifs at hy
      exact hy
    cases hpc : w.protocol.pc p' with
    | driving generation memo changed target waiter =>
      rw [hpc] at hy
      have hbefore := herased ((Dict.mem_lookup_retain _ _ _ _).mp hy).1
      have hlisted : (y.target, c) ∈ ({ w with callers := w.callers.erase p' } : Waiters α).waiters :=
        (h.callers p y c hbefore hc).1
      obtain ⟨-, hlate, -⟩ := lookup_satisfy hy hc hlisted
      cases hlate
    | _ =>
      rw [hpc] at hy
      exact hkeep hx (herased hy)
  | _ => exact hkeep (fun _ heq => (by cases heq)) hy

/-- A caller that waits after a section is still where the section found it. -/
theorem rouse_ensuring (h : Awake w) {a : Action α} {q : Protocol α} (ha : w.Permits a)
    (hs : w.protocol.act C a = some q) {y : GenerationWaiter}
    (hy : (w.rouse a).callers.lookup p = some y) :
    ∃ waiter, (q.pc p).waitsFor y.target waiter := by
  have hkeep : a ≠ .advance p → a ≠ .cancel p → w.callers.lookup p = some y →
      ∃ waiter, (q.pc p).waitsFor y.target waiter := by
    intro hadvance hcancel hlookup
    obtain ⟨waiter, hwaits⟩ := h.ensuring p y hlookup
    exact ⟨waiter, (Protocol.awaits_act hs).waits p y.target waiter hwaits hadvance hcancel⟩
  cases a with
  | advance p' =>
    have hother : w.callers.lookup p = some y → ∃ waiter, (q.pc p).waitsFor y.target waiter := by
      intro hlookup
      refine hkeep (fun heq => ?_) (fun heq => (by cases heq)) hlookup
      cases heq
      exact ha (AList.lookup_isSome.mp (by rw [hlookup]; rfl))
    change (w.rouseOn p' (w.protocol.pc p')).callers.lookup p = some y at hy
    cases hpc : w.protocol.pc p' with
    | completing generation memo changed target waiter =>
      rw [hpc] at hy
      exact hother ((Dict.mem_lookup_retain _ _ _ _).mp hy).1
    | ensuring target waiter =>
      rw [hpc] at hy
      rcases rouseOn_ensuring w p' target waiter with hrouse | ⟨hlate, hbusy, hrouse⟩
      · rw [hrouse] at hy
        exact hother hy
      · rw [hrouse, Dict.lookup_insert] at hy
        split_ifs at hy with heq
        · cases hy
          subst heq
          have hstay : q = w.protocol := by
            simp only [Protocol.act, Protocol.advance, hpc, if_neg (Nat.not_le.mpr hlate),
              if_neg hbusy] at hs
            exact (Option.some.inj hs).symm
          rw [hstay]
          exact ⟨waiter, hpc⟩
        · exact hother hy
    | _ =>
      rw [hpc] at hy
      exact hother hy
  | cancel p' =>
    have hother : (w.callers.erase p').lookup p = some y →
        ∃ waiter, (q.pc p).waitsFor y.target waiter := by
      intro hlookup
      rw [Dict.lookup_erase] at hlookup
      split_ifs at hlookup with hne
      refine hkeep (fun heq => (by cases heq)) (fun heq => ?_) hlookup
      cases heq
      exact hne rfl
    change (w.rouseDropped p' (w.protocol.pc p')).callers.lookup p = some y at hy
    cases hpc : w.protocol.pc p' with
    | driving generation memo changed target waiter =>
      rw [hpc] at hy
      exact hother ((Dict.mem_lookup_retain _ _ _ _).mp hy).1
    | _ =>
      rw [hpc] at hy
      exact hother hy
  | _ => exact hkeep (fun heq => (by cases heq)) (fun heq => (by cases heq)) hy

/-- A section of the protocol. -/
theorem Awake.act (h : Awake w) {a : Action α} {q : Protocol α} (ha : w.Permits a)
    (hs : w.protocol.step C a = some q) : Awake { w.rouse a with protocol := q } := by
  obtain ⟨q₁, hact, rfl⟩ := Option.map_eq_some_iff.mp hs
  obtain ⟨hstate, hpc, -, -⟩ := Protocol.rest_frame q₁
  obtain ⟨hmutators, hboundary, hcount⟩ := rouse_mutators w a
  have hgenerations : Protocol.Generations q₁.rest := by
    obtain ⟨m, hm⟩ := Protocol.moves_act hact
    exact (h.generations.move (h.generations.exclusive.act hact).rest hm.rest).1
  -- a section that leaves a sleeper asleep drained nothing
  have hslept : ∀ c, Sleeps { w.rouse a with protocol := q₁.rest } c →
      w.drains a = false ∧ w.Sleeps c := by
    rintro c ⟨m, x, hx, hc⟩
    cases hd : w.drains a with
    | true =>
      rw [hd, if_pos rfl] at hmutators
      exact absurd ⟨m, x, hmutators ▸ hx, hc⟩ (not_sleeps_drainBoundary h c)
    | false =>
      rw [hd, if_neg Bool.false_ne_true] at hmutators
      exact ⟨rfl, m, x, hmutators ▸ hx, hc⟩
  refine ⟨hgenerations, ?_, fun m x hx hawaits => ?_, fun c hc => ?_, fun c hc => ?_,
    fun p y c hy hc => ?_, fun p y hy => ?_⟩
  · show (w.rouse a).preemptWaiters = Dict.tally _ (w.rouse a).mutators
    rw [hcount, hmutators]
    split_ifs
    · exact h.counted.trans tally_drainBoundary.symm
    · exact h.counted
  · obtain ⟨c, hc⟩ := Option.isSome_iff_exists.mp hawaits
    obtain ⟨hd, -⟩ := hslept c ⟨m, x, hx, hc⟩
    rw [hd, if_neg Bool.false_ne_true] at hmutators
    exact h.asked m x (hmutators ▸ hx) hawaits
  · obtain ⟨hd, hsleeps⟩ := hslept c hc
    show c ∈ (w.rouse a).boundaryWaiters
    rw [hboundary, hd]
    exact h.listed c hsleeps
  · obtain ⟨hd, hsleeps⟩ := hslept c hc
    show q₁.rest.state.Sealed
    rw [hstate]
    refine Protocol.sealed_act h.generations hact (fun p heq => ?_)
      (completes_of_not_drains hd) (h.sealed c hsleeps)
    rw [heq] at hd
    cases hd
  · show (y.target, c) ∈ (w.rouse a).waiters ∧ q₁.rest.state.completedGeneration < y.target
    rw [hstate]
    exact rouse_callers h hact hy hc
  · obtain ⟨waiter, hwaits⟩ := rouse_ensuring h ha hact hy
    exact ⟨waiter, (hpc p).symm ▸ hwaits⟩

theorem Awake.goOn (h : Awake w) {q : Protocol α} (hq : Protocol.GoesOn w.protocol q) :
    Awake { w with protocol := q } where
  generations := hq.generations h.generations
  counted := h.counted
  asked := h.asked
  listed := h.listed
  sealed c hc := hq.sealed (h.sealed c hc)
  callers p y c hy hc := by
    show _ ∧ q.state.completedGeneration < y.target
    rw [hq.requests.completedGeneration]
    exact h.callers p y c hy hc
  ensuring p y hy := by
    obtain ⟨waiter, hwaits⟩ := h.ensuring p y hy
    exact ⟨waiter, hq.waits hwaits⟩

/-- A mutator that leaves is counted no more. -/
theorem Awake.finish (h : Awake w) (hx : w.mutators.lookup m = some x) : Awake (w.finish m x) := by
  have hbefore : ∀ m' x', (w.finish m x).mutators.lookup m' = some x' →
      w.mutators.lookup m' = some x' := by
    intro m' x' hx'
    have hother : (w.mutators.erase m).lookup m' = some x' := hx'
    rw [Dict.lookup_erase] at hother
    split_ifs at hother
    exact hother
  have hslept : ∀ c, (w.finish m x).Sleeps c → w.Sleeps c := by
    rintro c ⟨m', x', hx', hc⟩
    exact ⟨m', x', hbefore m' x' hx', hc⟩
  refine ⟨h.generations, ?_, fun m' x' hx' => h.asked m' x' (hbefore m' x' hx'),
    fun c hc => h.listed c (hslept c hc), fun c hc => h.sealed c (hslept c hc), h.callers, h.ensuring⟩
  have htally := Dict.tally_erase (f := PreemptWaiter.registered) (d := w.mutators) (k := m)
  have hcounted := h.counted
  rw [hx] at htally
  show (if x.registered = true then w.preemptWaiters - 1 else w.preemptWaiters) =
    Dict.tally _ (w.mutators.erase m)
  cases hr : x.registered with
  | true =>
    simp only [Option.any_some, hr, Bool.toNat_true] at htally
    simp only [if_true]
    omega
  | false =>
    simp only [Option.any_some, hr, Bool.toNat_false] at htally
    simp only [Bool.false_eq_true, if_false]
    omega

/-- A mutator goes to sleep away from a boundary. -/
theorem Awake.sleep (h : Awake w) (hx : w.mutators.lookup m = some x)
    (hb : w.protocol.state.reachBoundary = none) : Awake (w.sleep m x) := by
  have hafter : ∀ m' x', (w.sleep m x).mutators.lookup m' = some x' →
      x' = { x with registered := x.registered || !x.deferred, awaits := some w.channels } ∨
        w.mutators.lookup m' = some x' := by
    intro m' x' hx'
    have hother : (w.mutators.insert m { x with
        registered := x.registered || !x.deferred, awaits := some w.channels }).lookup m' =
          some x' := hx'
    rw [Dict.lookup_insert] at hother
    split_ifs at hother
    · exact Or.inl (Option.some.inj hother).symm
    · exact Or.inr hother
  refine ⟨h.generations, ?_, fun m' x' hx' hawaits => ?_, ?_,
    fun c _ => State.Sealed.of_not_boundary hb, h.callers, h.ensuring⟩
  · have htally := Dict.tally_insert (f := PreemptWaiter.registered) (d := w.mutators) (k := m)
      (v := { x with registered := x.registered || !x.deferred, awaits := some w.channels })
    have hcounted := h.counted
    rw [hx] at htally
    show (if (x.registered || x.deferred) = true then w.preemptWaiters else w.preemptWaiters + 1) =
      Dict.tally PreemptWaiter.registered (w.mutators.insert m
        { x with registered := x.registered || !x.deferred, awaits := some w.channels })
    simp only [Option.any_some] at htally
    rw [hcounted]
    cases hr : x.registered <;> cases hd : x.deferred <;>
      simp only [hr, hd, Bool.or_true, Bool.or_false, Bool.not_true, Bool.not_false, Bool.toNat_true,
        Bool.toNat_false, Bool.false_eq_true, if_true, if_false] at htally ⊢ <;> omega
  · rcases hafter m' x' hx' with rfl | hold
    · cases x.registered <;> cases x.deferred <;> simp
    · exact h.asked m' x' hold hawaits
  · rintro c ⟨m', x', hx', hc⟩
    show c ∈ w.boundaryWaiters ++ [w.channels]
    rcases hafter m' x' hx' with rfl | hold
    · cases hc
      exact List.mem_append_right _ List.mem_cons_self
    · exact List.mem_append_left _ (h.listed c ⟨m', x', hold, hc⟩)

/-- The section of a mutator at a boundary, whose state is `s`. -/
theorem goesOn_boundary {s : State α} (hb : w.protocol.state.reachBoundary = some s) :
    Protocol.GoesOn w.protocol (w.inState s).protocol := by
  obtain ⟨restart, rfl⟩ := State.reachBoundary_eq hb
  exact Protocol.GoesOn.rest (.of_pc ⟨rfl, rfl, rfl, Or.inl rfl⟩ rfl rfl fun _ => rfl)

theorem goesOn_queue {s : State α} (hb : w.protocol.state.reachBoundary = some s)
    (commands : List (BaseCommand α)) (history : History α) :
    Protocol.GoesOn w.protocol ({ w.protocol with
      state := { s with pendingInputs := s.pendingInputs ++ commands }.requestGeneration
      history } : Protocol α).rest := by
  obtain ⟨restart, rfl⟩ := State.reachBoundary_eq hb
  exact Protocol.GoesOn.rest (.of_pc ⟨rfl, rfl, rfl, Or.inr rfl⟩ rfl rfl fun _ => rfl)

/-- What a mutator does at a boundary: it goes on waiting for a busy cell, or it is done. -/
theorem serve_cases {s : State α} {busy : Bool} (hb : w.protocol.state.reachBoundary = some s)
    (hs : w.serve C m x s busy = some w') :
    ∃ q, Protocol.GoesOn w.protocol q ∧
      (busy = true ∧ w' = { w with protocol := q } ∨
        w' = { w with protocol := q }.finish m x) := by
  unfold serve at hs
  cases hr : x.request with
  | mutate t e f original =>
    simp only [hr] at hs
    cases hcell : s.world.cell? t e with
    | none =>
      simp only [hcell] at hs
      cases hs
      exact ⟨_, goesOn_boundary hb, Or.inr rfl⟩
    | some entry =>
      simp only [hcell] at hs
      split_ifs at hs with hbusy
      · cases hs
        exact ⟨_, goesOn_boundary hb, Or.inl ⟨hbusy, rfl⟩⟩
      · obtain ⟨q, hstep, rfl⟩ := Option.map_eq_some_iff.mp hs
        obtain ⟨q₁, hact, rfl⟩ := Option.map_eq_some_iff.mp hstep
        exact ⟨_, (Protocol.goesOn_mutate hact).rest, Or.inr rfl⟩
  | queue commands =>
    simp only [hr] at hs
    cases hs
    exact ⟨_, goesOn_queue hb commands _, Or.inr rfl⟩

theorem Awake.poll (h : Awake w) {busy : Bool} (hs : w.poll C m busy = some w') : Awake w' := by
  obtain ⟨x, hx, hs⟩ := Option.bind_eq_some_iff.mp hs
  split_ifs at hs
  · cases hs
    exact h.finish hx
  · cases hb : w.protocol.state.reachBoundary with
    | none =>
      simp only [hb] at hs
      cases hs
      exact h.sleep hx hb
    | some s =>
      simp only [hb] at hs
      obtain ⟨q, hgoes, ⟨-, rfl⟩ | rfl⟩ := serve_cases hb hs
      · exact h.goOn hgoes
      · exact (h.goOn hgoes).finish hx

/-- A new mutator is awake and not yet counted. -/
theorem Awake.call (h : Awake w) (hm : m ∉ w.mutators) (request : Request α) (deferred : Bool) :
    Awake { w with mutators := w.mutators.insert m ⟨request, false, deferred, none⟩ } := by
  have hbefore : ∀ m' x', (w.mutators.insert m ⟨request, false, deferred, none⟩).lookup m' =
      some x' → x'.awaits.isSome = true → w.mutators.lookup m' = some x' := by
    intro m' x' hx' hawaits
    rw [Dict.lookup_insert] at hx'
    split_ifs at hx'
    · cases hx'
      cases hawaits
    · exact hx'
  have hslept : ∀ c, Sleeps { w with
      mutators := w.mutators.insert m ⟨request, false, deferred, none⟩ } c → w.Sleeps c := by
    rintro c ⟨m', x', hx', hc⟩
    exact ⟨m', x', hbefore m' x' hx' (by rw [hc]; rfl), hc⟩
  refine ⟨h.generations, ?_, fun m' x' hx' hawaits => h.asked m' x' (hbefore m' x' hx' hawaits) hawaits,
    fun c hc => h.listed c (hslept c hc), fun c hc => h.sealed c (hslept c hc), h.callers, h.ensuring⟩
  have htally := Dict.tally_insert (f := PreemptWaiter.registered) (d := w.mutators) (k := m)
    (v := ⟨request, false, deferred, none⟩)
  rw [AList.lookup_eq_none.mpr hm] at htally
  exact h.counted.trans htally.symm

theorem Awake.waitForGeneration (h : Awake w) (hs : w.waitForGeneration p = some w') :
    Awake w' := by
  obtain ⟨x, hx, hs⟩ := Option.bind_eq_some_iff.mp hs
  split_ifs at hs with _ hreached <;> cases hs
  · refine ⟨h.generations, h.counted, h.asked, h.listed, h.sealed, fun p' y c hy hc => ?_,
      fun p' y hy => ?_⟩
    all_goals
      have hother : (w.callers.erase p).lookup p' = some y := hy
      rw [Dict.lookup_erase] at hother
      split_ifs at hother
    · exact h.callers p' y c hother hc
    · exact h.ensuring p' y hother
  · refine ⟨h.generations, h.counted, h.asked, h.listed, h.sealed, fun p' y c hy hc => ?_,
      fun p' y hy => ?_⟩
    all_goals
      have hother : (w.callers.insert p { x with awaits := some w.channels }).lookup p' = some y := hy
      rw [Dict.lookup_insert] at hother
    · show (y.target, c) ∈ w.waiters ++ [(x.target, w.channels)] ∧ _
      split_ifs at hother
      · cases hother
        cases hc
        exact ⟨List.mem_append_right _ List.mem_cons_self, Nat.not_le.mp hreached⟩
      · obtain ⟨hlisted, hlate⟩ := h.callers p' y c hother hc
        exact ⟨List.mem_append_left _ hlisted, hlate⟩
    · split_ifs at hother with heq
      · cases hother
        rw [heq]
        exact h.ensuring p x hx
      · exact h.ensuring p' y hother

theorem Awake.step (h : Awake w) {a : WaiterAction α} (hs : w.step C a = some w') : Awake w' := by
  cases a with
  | act a =>
    simp only [Waiters.step] at hs
    split_ifs at hs with ha
    obtain ⟨q, hq, rfl⟩ := Option.map_eq_some_iff.mp hs
    exact h.act ha hq
  | call m request deferred =>
    simp only [Waiters.step] at hs
    split_ifs at hs with hm
    cases hs
    exact h.call hm.1 request deferred
  | poll m busy => exact h.poll hs
  | drop m =>
    obtain ⟨x, hx, hs⟩ := Option.bind_eq_some_iff.mp hs
    cases hs
    exact h.finish hx
  | waitForGeneration p => exact h.waitForGeneration hs

theorem awake_new (systems : List BoxedSystem) (hooked : SystemId → Bool) :
    Awake (new systems hooked : Waiters α) where
  generations := Protocol.generations_new systems hooked
  counted := rfl
  asked := fun _ _ hx => (by cases hx)
  listed := fun _ hc => (by obtain ⟨_, _, hx, -⟩ := hc; cases hx)
  sealed := fun _ hc => (by obtain ⟨_, _, hx, -⟩ := hc; cases hx)
  callers := fun _ _ _ hx => (by cases hx)
  ensuring := fun _ _ hx => (by cases hx)

theorem awake_of_reachable (h : Reachable C w) : Awake w := by
  refine h.invariant Awake ?_ fun w a w' hw _ hs => hw.step hs
  rintro w ⟨systems, hooked, rfl⟩
  exact awake_new systems hooked

/-- A mutator sleeps only away from a boundary, counted unless deferred, with its sender where the
next boundary drains it. -/
theorem reachable_awake (h : Reachable C w) :
    w.preemptWaiters = Dict.tally PreemptWaiter.registered w.mutators ∧
    (∀ m x c, w.mutators.lookup m = some x → x.awaits = some c →
      c ∈ w.boundaryWaiters ∧ w.protocol.state.Sealed ∧ (x.registered = true ∨ x.deferred = true)) ∧
    ∀ p x c, w.callers.lookup p = some x → x.awaits = some c →
      (x.target, c) ∈ w.waiters ∧ w.protocol.state.completedGeneration < x.target ∧
        ∃ waiter, w.protocol.pc p = .ensuring x.target waiter := by
  have hawake := awake_of_reachable h
  refine ⟨hawake.counted, fun m x c hx hc => ?_, fun p x c hx hc => ?_⟩
  · have hsleeps : w.Sleeps c := ⟨m, x, hx, hc⟩
    exact ⟨hawake.listed c hsleeps, hawake.sealed c hsleeps, hawake.asked m x hx (by rw [hc]; rfl)⟩
  · obtain ⟨hlisted, hlate⟩ := hawake.callers p x c hx hc
    exact ⟨hlisted, hlate, hawake.ensuring p x hx⟩

section Runs

def plainWaiters : Waiters Nat := new [.new .evaluate none false false []] fun _ => false

/-- Caller 0 drives generation 1; caller 1 finds the lock taken and sleeps, and so does a mutator. -/
def intoSleep : List (WaiterAction Nat) :=
  [.act (.awaitInsert 0 1), .act (.advance 0), .act (.advance 0), .act (.awaitInsert 1 1),
    .act (.advance 1), .waitForGeneration 1, .call 0 (.mutate 5 1 id none) false, .poll 0 false]

def asleep : Waiters Nat :=
  ((machine (Components.plain Nat)).run plainWaiters intoSleep).getD plainWaiters

theorem asleep_awake : (asleep.preemptWaiters = Dict.tally PreemptWaiter.registered asleep.mutators ∧
    (∀ m x c, asleep.mutators.lookup m = some x → x.awaits = some c →
      c ∈ asleep.boundaryWaiters ∧ asleep.protocol.state.Sealed ∧
        (x.registered = true ∨ x.deferred = true)) ∧
    ∀ p x c, asleep.callers.lookup p = some x → x.awaits = some c →
      (x.target, c) ∈ asleep.waiters ∧ asleep.protocol.state.completedGeneration < x.target ∧
        ∃ waiter, asleep.protocol.pc p = .ensuring x.target waiter) ∧
    asleep.preemptWaiters = 1 ∧ asleep.boundaryWaiters = [1] ∧ asleep.waiters = [(1, 0)] := by
  have hrun : (machine (Components.plain Nat)).run plainWaiters intoSleep = some asleep := rfl
  exact ⟨reachable_awake (Machine.Reachable.run (.init ⟨_, _, rfl⟩) hrun), by decide, by decide,
    by decide⟩

/-- Caller 1 asks for generation 2 while caller 0 drives generation 1; when that completes it is not
woken to drive its own, and nobody else does. -/
def strand : List (WaiterAction Nat) :=
  [.act (.awaitInsert 0 1), .act (.advance 0), .act (.advance 0), .act (.insert []),
    .act (.awaitInsert 1 2), .act (.advance 1), .waitForGeneration 1, .act (.advance 0),
    .act (.advance 0), .act (.advance 0)]

theorem strand_sleeps_on : ∃ w ∈ (machine (Components.plain Nat)).run plainWaiters strand,
    ((w.callers.lookup 1).any fun x => x.awaits.isSome) = true ∧ w.protocol.runner = none ∧
      w.protocol.state.pendingGeneration = some 2 := by decide

end Runs

end Waiters
end Porridge
