import Porridge.Healing.Fresh
import Porridge.Protocol.Moves

/-! One active settler from its healing pass to the section that publishes: what it has found
stays true as long as nothing outside mutates the bowl. -/
namespace Porridge

variable {α : Type} {C : Components α}

namespace Pc

def settling : Pc α → Bool
  | leaving .. | unwinding => true
  | x => x.epoch.isSome

/-- The settle has converged, and goes through healing, hooks and its settle phase. -/
def closes : Pc α → Bool
  | healing _ | startingHooks _ | inHooks .. | startingSettlePhase _ | inSettlePhase ..
  | healingAgain _ | followingUp _ | publishing _ => true
  | _ => false

/-- What a closing settle knows of the memo table since its last healing pass. -/
def Healed (s : State α) : Pc α → Prop
  | startingHooks _ | startingSettlePhase _ | followingUp _ | publishing _ => AmbientFresh s s.memo
  | inHooks _ memo followup => followup = false → AmbientFresh s memo
  | inSettlePhase _ memo before =>
    before ≤ s.world.revision ∧ (s.world.revision = before → AmbientFresh s memo)
  | _ => True

structure Settled (s : State α) (x : Pc α) : Prop where
  settling : x.settling = true → s.settling ≠ 0
  clean : x.closes = true → s.isClean = true
  healed : x.Healed s

theorem settling_of_closes {x : Pc α} (h : x.closes = true) : x.settling = true := by
  cases x <;> first | rfl | cases h

theorem healed_of_open {s : State α} {x : Pc α} (h : x.closes = false) : x.Healed s := by
  cases x <;> trivial

theorem Settled.of_open {s : State α} {x : Pc α} (hx : x.closes = false)
    (hs : x.settling = true → s.settling ≠ 0) : x.Settled s :=
  ⟨hs, fun h => (by rw [hx] at h; cases h), healed_of_open hx⟩

theorem Settled.showWrite {s : State α} {x : Pc α} (h : x.Settled s) (t : TypeId)
    (e : Entity) (cell : Nat) (v : Value α) : (x.showWrite t e cell v).Settled s := by
  cases x with
  | read snapshot => exact .of_open rfl nofun
  | _ => exact h

end Pc

/-- An outside caller changes the world, or queues an input that does not wait. -/
def Protocol.mutatesOutside (q : Protocol α) : Action α → Bool
  | .insertPreempting _ | .mutate .. | .takeBound .. | .drainBound .. => true
  | .advance p =>
    match q.pc p with
    | .cleaning _ => true
    | _ => false
  | _ => false

/-- The state as a closing settle looks at it. -/
structure Still (s s' : State α) : Prop where
  clean : s.isClean = true → s'.isClean = true
  settling : s.settling ≠ 0 → s'.settling ≠ 0
  memo : s'.memo = s.memo
  settleEpoch : s'.settleEpoch = s.settleEpoch
  ambient : s'.systems.map BoxedSystem.ambient = s.systems.map BoxedSystem.ambient
  revision : s'.world.revision = s.world.revision
  watermarks : ∀ t, s'.world.storeWatermark t = s.world.storeWatermark t

namespace Still

variable {s s' : State α}

theorem fresh (h : Still s s') {memo : MemoTable} (hf : AmbientFresh s memo) :
    AmbientFresh s' memo := by
  intro o m hm
  rw [isStaleAmbient_congr h.settleEpoch h.ambient h.watermarks]
  exact hf o m hm

theorem settled (h : Still s s') {x : Pc α} (hx : x.Settled s) : x.Settled s' := by
  refine ⟨fun hs => h.settling (hx.settling hs), fun hc => h.clean (hx.clean hc), ?_⟩
  have hhealed := hx.healed
  cases x with
  | startingHooks epoch | startingSettlePhase epoch | followingUp epoch | publishing epoch =>
    have hfresh : AmbientFresh s' s.memo := h.fresh hhealed
    rw [← h.memo] at hfresh
    exact hfresh
  | inHooks epoch memo followup => exact fun hf => h.fresh (hhealed hf)
  | inSettlePhase epoch memo before =>
    refine ⟨?_, fun heq => h.fresh (hhealed.2 (h.revision ▸ heq))⟩
    rw [h.revision]
    exact hhealed.1
  | _ => trivial

end Still

namespace Protocol

def OneSettler (q : Protocol α) : Prop :=
  ∀ b ∈ q.parties.entries, ∀ b' ∈ q.parties.entries, b.2.settling = true →
    b'.2.settling = true → b.1 = b'.1

instance (q : Protocol α) : Decidable q.OneSettler :=
  inferInstanceAs (Decidable (∀ b ∈ q.parties.entries, ∀ b' ∈ q.parties.entries, _))

/-- One settler at a time, and nothing outside mutates the bowl while a settle closes. -/
structure ClosesAlone (q : Protocol α) (a : Action α) : Prop where
  alone : q.OneSettler
  outside : ∀ b ∈ q.parties.entries, b.2.closes = true → q.mutatesOutside a = false

instance (q : Protocol α) (a : Action α) : Decidable (ClosesAlone q a) :=
  decidable_of_iff (q.OneSettler ∧
      ∀ b ∈ q.parties.entries, b.2.closes = true → q.mutatesOutside a = false)
    ⟨fun ⟨halone, houtside⟩ => ⟨halone, houtside⟩, fun h => ⟨h.alone, h.outside⟩⟩

def OfSettleRows (s : State α) (run : SystemRun α) : Prop :=
  ∀ update ∈ run.memoUpdates, update.1.system ∈ s.settleSystems

/-- What a closing settle commits: no memo update in its hooks, those of `Settle` rows in its
settle phase. -/
def CommitsApart (q : Protocol α) : Action α → Prop
  | .commit p run _ =>
    match q.pc p with
    | .inHooks .. | .inSettlePhase .. => OfSettleRows q.state run
    | _ => True
  | _ => True

/-- What the callers of a bowl find when they close alone. -/
structure Closing (q : Protocol α) : Prop where
  exclusive : Exclusive q
  coherent : q.state.world.Coherent
  phases : ∀ id ∈ q.state.settleSystems, ∀ system ∈ q.state.systems[id]?, system.phase = .settle
  settled : ∀ p, (q.pc p).Settled q.state

variable {q q' q₁ : Protocol α} {a : Action α} {p : PartyId} {x : Pc α}

theorem OneSettler.eq (ha : q.OneSettler) {p p' : PartyId} (hp : (q.pc p).settling = true)
    (hp' : (q.pc p').settling = true) : p = p' := by
  have hmem : ∀ {p : PartyId}, (q.pc p).settling = true → ⟨p, q.pc p⟩ ∈ q.parties.entries := by
    intro p hp
    refine mem_parties_of_pc q p fun hidle => ?_
    rw [hidle] at hp
    cases hp
  exact ha _ (hmem hp) _ (hmem hp') hp hp'

theorem ClosesAlone.open_of_outside (ha : ClosesAlone q a) (h : q.mutatesOutside a = true)
    (p : PartyId) : (q.pc p).closes = false := by
  by_contra hcloses
  have hcloses : (q.pc p).closes = true := by simpa using hcloses
  have hmem : ⟨p, q.pc p⟩ ∈ q.parties.entries := by
    refine mem_parties_of_pc q p fun hidle => ?_
    rw [hidle] at hcloses
    cases hcloses
  have hinside := ha.outside _ hmem hcloses
  rw [h] at hinside
  cases hinside

/-- While something is pending or running, no settle is closing. -/
theorem Closing.open_of_dirty (h : Closing q) (hdirty : q.state.isClean = false) (p : PartyId) :
    (q.pc p).closes = false := by
  by_contra hcloses
  have hclean := (h.settled p).clean (by simpa using hcloses)
  rw [hdirty] at hclean
  cases hclean

theorem Closing.open_of_driving (h : Closing q) (hp : (q.pc p).inGeneration = true)
    (p' : PartyId) : (q.pc p').closes = false := by
  have hrunning := h.exclusive.running p hp
  refine h.open_of_dirty ?_ p'
  unfold State.isClean
  cases hgeneration : q.state.runningGeneration with
  | none =>
    rw [hgeneration] at hrunning
    cases hrunning
  | some g => simp

/-- Nobody else is settling while a settler takes a section. -/
theorem OneSettler.others (ha : q.OneSettler) (hp : (q.pc p).settling = true) {p' : PartyId}
    (hne : p' ≠ p) : (q.pc p').settling = false := by
  by_contra hsettling
  exact hne (ha.eq (by simpa using hsettling) hp)

theorem Closing.next (h : Closing q) (hx : Exclusive q') (ho : Onward C q.state q'.state)
    (hsettled : ∀ p, (q'.pc p).Settled q'.state) : Closing q' where
  exclusive := hx
  coherent := ((World.Follows.refl (C := C) q.state.world).later h.coherent ho.world).1
  phases id hid system hsystem := by
    rw [ho.settleSystems] at hid
    have hlookup := congrArg (·[id]?) ho.ambient
    simp only [List.getElem?_map, Option.mem_def.mp hsystem, Option.map_some] at hlookup
    obtain ⟨before, hbefore, heq⟩ := Option.map_eq_some_iff.mp hlookup.symm
    have hphase : before.phase = system.phase := congrArg Prod.fst heq
    rw [← hphase]
    exact h.phases id hid before hbefore
  settled := hsettled

section Settled

/-- A caller goes on, and what the others have found stays. -/
theorem settled_goto (q₁ : Protocol α) (x : Pc α) (h : ∀ p', (q.pc p').Settled q₁.state)
    (hpc : ∀ p', q₁.pc p' = q.pc p') (hx : x.Settled q₁.state) (p' : PartyId) :
    ((q₁.goto p x).pc p').Settled (q₁.goto p x).state := by
  rw [pc_goto]
  split_ifs
  · exact hx
  · rw [hpc]
    exact h p'

/-- A settler goes on, and there is no other. -/
theorem OneSettler.settled_goto (ha : q.OneSettler) (q₁ : Protocol α)
    (x : Pc α) (hp : (q.pc p).settling = true) (hpc : ∀ p', q₁.pc p' = q.pc p')
    (hx : x.Settled q₁.state) (p' : PartyId) :
    ((q₁.goto p x).pc p').Settled (q₁.goto p x).state := by
  rw [pc_goto]
  split_ifs with hne
  · exact hx
  · have hsettling := ha.others hp hne
    rw [hpc]
    refine .of_open ?_ fun hs => ?_
    · by_contra hcloses
      rw [Pc.settling_of_closes (by simpa using hcloses)] at hsettling
      cases hsettling
    · rw [hsettling] at hs
      cases hs

/-- Where no settle is closing, a section only has to keep the settlers counted. -/
theorem Closing.settled_open (h : Closing q) {s : State α}
    (hopen : ∀ p', (q.pc p').closes = false) (hs : s.settling = q.state.settling) (p' : PartyId) :
    (q.pc p').Settled s := by
  refine .of_open (hopen p') fun hsettling => ?_
  rw [hs]
  exact (h.settled p').settling hsettling

theorem Closing.settled_still (h : Closing q) {s : State α} (hs : Still q.state s) (p' : PartyId) :
    (q.pc p').Settled s := hs.settled (h.settled p')

/-- A caller goes on from where it is without a section of its own. -/
theorem Closing.settled_stay (h : Closing q) (x : Pc α) (hopen : x.closes = false)
    (hx : x.settling = true → (q.pc p).settling = true) (p' : PartyId) :
    ((q.goto p x).pc p').Settled (q.goto p x).state :=
  settled_goto q x h.settled (fun _ => rfl)
    (.of_open hopen fun hs => (h.settled p).settling (hx hs)) p'

theorem settling_promoteDeferredInputs (s : State α) (watermark : Nat) :
    (s.promoteDeferredInputs watermark).2.settling = s.settling := by
  unfold State.promoteDeferredInputs
  dsimp only
  split_ifs <;> rfl

/-- The exit of a settle is no longer a closing one. -/
theorem Closing.settled_exit (h : Closing q) (ha : q.OneSettler) {epoch : Epoch}
    {done : State α → State α} (hp : (q.pc p).settling = true)
    (hdone : (done q.state).settling = q.state.settling) (p' : PartyId) :
    ((q.exit p epoch done).pc p').Settled (q.exit p epoch done).state := by
  have hsettling := (h.settled p).settling hp
  unfold Protocol.exit
  dsimp only
  split_ifs
  · have hcount : (q.state.promoteDeferredInputs epoch.watermark).2.settling ≠ 0 := by
      rw [settling_promoteDeferredInputs]
      exact hsettling
    have hnext : (Pc.loopTop epoch).Settled (q.promote epoch.watermark).2.state :=
      .of_open rfl fun _ => hcount
    exact ha.settled_goto (q.promote epoch.watermark).2 _ hp (fun _ => rfl) hnext p'
  · have hcount : (done q.state).settling ≠ 0 := by
      rw [hdone]
      exact hsettling
    have hnext : (Pc.leaving epoch.accepted epoch.scoop).Settled (done q.state) :=
      .of_open rfl fun _ => hcount
    exact ha.settled_goto { q with state := done q.state } _ hp (fun _ => rfl) hnext p'

/-- A healing pass that finds no victim leaves the table fresh. -/
theorem Closing.settled_heal (h : Closing q) (ha : q.OneSettler) {epoch : Epoch}
    (onwards : Epoch → Pc α) (hp : (q.pc p).closes = true)
    (honwards : ∀ epoch s, AmbientFresh s s.memo → (onwards epoch).Healed s)
    (hs : q.heal p epoch onwards = some q') (p' : PartyId) : (q'.pc p').Settled q'.state := by
  have hsettling := Pc.settling_of_closes hp
  obtain ⟨⟨healed, attempts, s⟩, hhealed, hs⟩ := Option.bind_eq_some_iff.mp hs
  cases hs
  have hcontrol := (sameControl_healStaleAmbient hhealed).1
  have hcount : s.settling ≠ 0 := by
    rw [hcontrol.settling]
    exact (h.settled p).settling hsettling
  refine ha.settled_goto (q.amendHome s) _ hsettling (fun _ => rfl) ?_ p'
  cases healed with
  | true => exact .of_open rfl fun _ => hcount
  | false =>
    obtain ⟨rfl, hfresh⟩ := fresh_of_healStaleAmbient hhealed
    exact ⟨fun _ => hcount, fun _ => (h.settled p).clean hp, honwards _ _ hfresh⟩

/-- Leaving an epoch, a settler leaves no other behind. -/
theorem settled_leave (ha : q.OneSettler) (hp : (q.pc p).settling = true)
    (hclosed : x.closes = false) (hx : x.settling = false) (p' : PartyId) :
    ((q.leave.goto p x).pc p').Settled (q.leave.goto p x).state := by
  refine ha.settled_goto q.leave x hp (leave_frame q).1 (.of_open hclosed fun hs => ?_) p'
  rw [hx] at hs
  cases hs

theorem Closing.settled_startGeneration (h : Closing q) {target : Nat} {waiter : Waiter}
    (hp : q.pc p = .starting target waiter)
    (hs : q.startGeneration C p target waiter = some q') (p' : PartyId) :
    (q'.pc p').Settled q'.state := by
  have hcount : ∀ x : Pc α, x.settling = (q.pc p).settling → x.settling = true →
      q.state.settling ≠ 0 := fun x heq hx => (h.settled p).settling (heq ▸ hx)
  obtain ⟨started, hstarted, hs⟩ := Option.bind_eq_some_iff.mp hs
  cases started with
  | none =>
    cases hs
    refine settled_goto { q with runner := none } (.ensuring target waiter) h.settled
      (fun _ => rfl) ?_ p'
    exact .of_open rfl (hcount _ (by rw [hp]; cases waiter <;> rfl))
  | some started =>
    cases hs
    obtain ⟨hpending, hcontrol⟩ := startEvaluation_control hstarted
    have hdirty : q.state.isClean = false := by
      unfold State.isClean
      rw [hpending]
      rfl
    have hsettling : started.state.settling = q.state.settling := hcontrol.settling
    refine settled_goto { q with
      state := started.state
      history := (q.history.apply).carry q.state.memo started.memo }
      (.driving started.generation started.memo false target waiter)
      (h.settled_open (h.open_of_dirty hdirty) hsettling) (fun _ => rfl) ?_ p'
    refine .of_open rfl fun hx => ?_
    show started.state.settling ≠ 0
    rw [hsettling]
    exact hcount _ (by rw [hp]; cases waiter <;> rfl) hx

/-- Each section of a caller keeps what the closing settle has found. -/
theorem Closing.settled_advance (h : Closing q) (ha : ClosesAlone q (.advance p))
    (hs : q.advance C p = some q') (p' : PartyId) : (q'.pc p').Settled q'.state := by
  have hp := h.settled p
  have hlater : ∀ x : Pc α, x.closes = false →
      (x.settling = true → (q.pc p).settling = true) →
        ((q.goto p x).pc p').Settled (q.goto p x).state :=
    fun x hopen hx => h.settled_stay x hopen hx p'
  unfold Protocol.advance at hs
  split at hs <;> rename_i hpc <;> rw [hpc] at hp
  case h_1 => cases hs
  case h_2 =>
    cases hs
    have hstill : Still q.state q.state.enterEpoch :=
      ⟨id, fun _ => Nat.succ_ne_zero _, rfl, rfl, rfl, rfl, fun _ => rfl⟩
    exact settled_goto { q with state := q.state.enterEpoch } _ (h.settled_still hstill)
      (fun _ => rfl) (.of_open rfl fun _ => Nat.succ_ne_zero _) p'
  case h_3 =>
    split_ifs at hs <;> cases hs
    · exact h.settled_exit ha.alone (by rw [hpc]; rfl) rfl p'
    · exact hlater _ rfl (fun _ => by rw [hpc]; rfl)
  case h_4 target waiter =>
    split_ifs at hs <;> cases hs
    · exact hlater (.afterEvaluation waiter) (by cases waiter <;> rfl) fun hx => by
        rw [hpc]
        cases waiter <;> exact hx
    · exact settled_goto { q with runner := some p } (.starting target waiter) h.settled
        (fun _ => rfl) (.of_open rfl fun hx => hp.settling (by cases waiter <;> exact hx)) p'
    · exact h.settled p'
  case h_5 => exact h.settled_startGeneration hpc hs p'
  case h_6 generation memo changed target waiter =>
    cases hs
    refine hlater (.completing generation memo changed target waiter) rfl fun hx => ?_
    rw [hpc]
    cases waiter <;> exact hx
  case h_7 generation memo changed target waiter =>
    cases hs
    have hopen := h.open_of_driving (p := p) (by rw [hpc]; rfl)
    exact settled_goto { q with
        state := completeEvaluation q.state generation memo changed
        runner := none }
      (.ensuring target waiter) (h.settled_open hopen rfl) (fun _ => rfl)
      (.of_open rfl fun hx => hp.settling (by cases waiter <;> exact hx)) p'
  case h_8 epoch =>
    split_ifs at hs with hdone hclean <;> cases hs
    · exact h.settled_exit ha.alone (by rw [hpc]; rfl) rfl p'
    · have hrests : q.state.isClean = true := (Bool.and_eq_true_iff.mp hclean).1
      have hnext : (Pc.healing epoch).Settled q.state :=
        ⟨fun _ => hp.settling rfl, fun _ => hrests, trivial⟩
      exact settled_goto q _ h.settled (fun _ => rfl) hnext p'
    · exact hlater _ rfl (fun _ => by rw [hpc]; rfl)
  case h_9 =>
    exact h.settled_heal ha.alone .startingHooks (by rw [hpc]; rfl) (fun _ _ hfresh => hfresh) hs p'
  case h_10 epoch =>
    split_ifs at hs <;> cases hs
    · exact settled_goto q (.startingSettlePhase epoch) h.settled (fun _ => rfl)
        ⟨fun _ => hp.settling rfl, fun _ => hp.clean rfl, hp.healed⟩ p'
    · exact ha.alone.settled_goto { q with state := { q.state with memo := ∅ } }
        (.inHooks epoch q.state.memo false) (by rw [hpc]; rfl) (fun _ => rfl)
        ⟨fun _ => hp.settling rfl, fun _ => hp.clean rfl, fun _ => hp.healed⟩ p'
  case h_11 epoch memo followup =>
    cases hs
    refine ha.alone.settled_goto { q with state := { q.state with memo } } _ (by rw [hpc]; rfl)
      (fun _ => rfl) ?_ p'
    cases followup with
    | true => exact .of_open rfl fun _ => hp.settling rfl
    | false => exact ⟨fun _ => hp.settling rfl, fun _ => hp.clean rfl, hp.healed rfl⟩
  case h_12 epoch =>
    split_ifs at hs <;> cases hs
    · exact settled_goto q (.publishing epoch) h.settled (fun _ => rfl)
        ⟨fun _ => hp.settling rfl, fun _ => hp.clean rfl, hp.healed⟩ p'
    · exact ha.alone.settled_goto { q with state := { q.state with memo := ∅ } }
        (.inSettlePhase epoch q.state.memo q.state.world.revision) (by rw [hpc]; rfl) (fun _ => rfl)
        ⟨fun _ => hp.settling rfl, fun _ => hp.clean rfl, le_rfl, fun _ => hp.healed⟩ p'
  case h_13 epoch memo before =>
    cases hs
    refine ha.alone.settled_goto { q with state := { q.state with memo } } _ (by rw [hpc]; rfl)
      (fun _ => rfl) ?_ p'
    split_ifs with hsame
    · exact ⟨fun _ => hp.settling rfl, fun _ => hp.clean rfl, hp.healed.2 hsame⟩
    · exact ⟨fun _ => hp.settling rfl, fun _ => hp.clean rfl, trivial⟩
  case h_14 =>
    exact h.settled_heal ha.alone .followingUp (by rw [hpc]; rfl) (fun _ _ hfresh => hfresh) hs p'
  case h_15 epoch =>
    cases hs
    refine settled_goto q _ h.settled (fun _ => rfl) ?_ p'
    split_ifs
    · exact ⟨fun _ => hp.settling rfl, fun _ => hp.clean rfl, hp.healed⟩
    · exact .of_open rfl fun _ => hp.settling rfl
  case h_16 =>
    cases hs
    have hcontrol := sameControl_publishSettledRevision q.state
    exact h.settled_exit ha.alone (by rw [hpc]; rfl) hcontrol.settling p'
  case h_17 epoch =>
    cases hs
    exact ha.alone.settled_goto { q with state := q.state.requestGeneration } (.loopTop epoch)
      (by rw [hpc]; rfl) (fun _ => rfl) (.of_open rfl fun _ => hp.settling rfl) p'
  case h_18 => cases hs; exact settled_leave ha.alone (by rw [hpc]; rfl) rfl rfl p'
  case h_19 scoop =>
    cases hs
    cases scoop
    · exact hlater .idle rfl nofun
    · exact hlater .draining rfl nofun
  case h_20 =>
    cases hs
    refine settled_goto { q with deferredCleanup := [] } _ h.settled (fun _ => rfl) ?_ p'
    split_ifs
    · exact .of_open rfl nofun
    · exact .of_open rfl nofun
  case h_21 entities =>
    cases hs
    have hopen := ha.open_of_outside (by simp only [mutatesOutside, hpc])
    have hcontrol := sameControl_closeBound C q.state.isSettled q.state entities
    exact settled_goto (q.amendHome (drainBound C q.state entities)) .reading
      (h.settled_open hopen hcontrol.settling) (fun _ => rfl) (.of_open rfl nofun) p'
  case h_22 => cases hs; exact hlater (.read q.state.world.stores) rfl nofun
  case h_23 => cases hs; exact hlater .idle rfl nofun
  case h_24 => cases hs; exact settled_leave ha.alone (by rw [hpc]; rfl) rfl rfl p'

/-- The rows of a hook pass or a settle phase keep a fresh table fresh unless the world moves. -/
theorem Closing.fresh_commit (h : Closing q) {memo after : MemoTable} {run : SystemRun α}
    {phase : Option Phase} {s : State α} {progress : CommitProgress}
    (hrows : OfSettleRows q.state run)
    (hc : commitSystemRun C memo q.state run phase = some (after, s, progress))
    (hr : s.world.revision = q.state.world.revision) (hfresh : AmbientFresh q.state memo) :
    AmbientFresh s after :=
  hfresh.commit h.coherent hc hr fun update hupdate => h.phases _ (hrows update hupdate)

theorem Closing.settled_hooks (h : Closing q) {epoch : Epoch} {memo after : MemoTable}
    {followup : Bool} {run : SystemRun α} {phase : Option Phase} {s : State α}
    {progress : CommitProgress} (hpc : q.pc p = .inHooks epoch memo followup)
    (hrows : OfSettleRows q.state run)
    (hc : commitSystemRun C memo q.state run phase = some (after, s, progress)) :
    (Pc.inHooks epoch after (followup || progress.needsFollowup)).Settled s := by
  have hp := h.settled p
  rw [hpc] at hp
  have hcontrol := sameControl_commitSystemRun C hc
  refine ⟨fun _ => ?_, fun _ => ?_, fun hnone => ?_⟩
  · rw [hcontrol.settling]
    exact hp.settling rfl
  · rw [hcontrol.isClean]
    exact hp.clean rfl
  · obtain ⟨hbefore, hnow⟩ := Bool.or_eq_false_iff.mp hnone
    have hrevision := (commitSystemRun_table hc).2.2.1 hnow
    exact h.fresh_commit hrows hc hrevision (hp.healed hbefore)

theorem Closing.settled_pass (h : Closing q) {epoch : Epoch} {memo after : MemoTable}
    {before : Revision} {run : SystemRun α} {phase : Option Phase} {s : State α}
    {progress : CommitProgress} (hpc : q.pc p = .inSettlePhase epoch memo before)
    (hrows : OfSettleRows q.state run)
    (hc : commitSystemRun C memo q.state run phase = some (after, s, progress)) :
    (Pc.inSettlePhase epoch after before).Settled s := by
  have hp := h.settled p
  rw [hpc] at hp
  have hcontrol := sameControl_commitSystemRun C hc
  have hlater := (steers_commitSystemRun hc).world.later
  have hmono := ((World.Follows.refl (C := C) q.state.world).later h.coherent hlater).2.revision
  obtain ⟨hbefore, hfresh⟩ := hp.healed
  refine ⟨fun _ => ?_, fun _ => ?_, hbefore.trans hmono, fun hsame => ?_⟩
  · rw [hcontrol.settling]
    exact hp.settling rfl
  · rw [hcontrol.isClean]
    exact hp.clean rfl
  · -- the revision cannot have come back
    have hstood : q.state.world.revision = before := le_antisymm (hsame ▸ hmono) hbefore
    exact h.fresh_commit hrows hc (hsame.trans hstood.symm) (hfresh hstood)

theorem settled_showWrite {s : State α} (h : ∀ p', (q.pc p').Settled s) (t : TypeId) (e : Entity)
    (v : Value α) (p' : PartyId) : ((q.showWrite t e v).pc p').Settled s := by
  rw [pc_showWrite]
  cases q.state.world.cell? t e with
  | none => exact h p'
  | some x => exact (h p').showWrite t e x.cell v

theorem Closing.settled_cancel (h : Closing q) (hs : q.cancel p = some q') (p' : PartyId) :
    (q'.pc p').Settled q'.state := by
  have hp := h.settled p
  have hnext : ∀ s : State α, s.settling = q.state.settling →
      (if (q.pc p).epoch.isSome = true then Pc.unwinding else Pc.idle).Settled s := by
    intro s heq
    split_ifs with hepoch
    · refine .of_open rfl fun _ => ?_
      rw [heq]
      refine hp.settling ?_
      cases hpc : q.pc p <;> rw [hpc] at hepoch <;> first | exact hepoch | rfl
    · exact .of_open rfl nofun
  unfold Protocol.cancel at hs
  cases hpc : q.pc p with
  | idle | leaving accepted scoop | unwinding =>
    rw [hpc] at hs
    cases hs
  | driving generation memo changed target waiter =>
    rw [hpc] at hs hnext
    cases hs
    have hopen := h.open_of_driving (p := p) (by rw [hpc]; rfl)
    exact settled_goto { q with
        state := abandonEvaluation q.state generation memo
        runner := if q.runner = some p then none else q.runner } _
      (h.settled_open hopen rfl) (fun _ => rfl) (hnext _ rfl) p'
  | _ =>
    rw [hpc] at hs hnext
    cases hs
    exact settled_goto { q with runner := if q.runner = some p then none else q.runner } _
      h.settled (fun _ => rfl) (hnext q.state rfl) p'

/-- Each action of callers that close alone keeps what a closing settle has found. -/
theorem Closing.settled_act (h : Closing q) (ha : ClosesAlone q a) (hapart : CommitsApart q a)
    (hs : q.act C a = some q') (p' : PartyId) : (q'.pc p').Settled q'.state := by
  cases a with
  | insert commands =>
    obtain ⟨s, hstate, hs⟩ := Option.bind_eq_some_iff.mp hs
    cases hs
    rcases State.acceptInput_eq hstate with ⟨hidle, rfl⟩ | ⟨-, -, rfl⟩
    · have hopen : ∀ p', (q.pc p').closes = false := by
        intro p'
        by_contra hcloses
        have hsettling := Pc.settling_of_closes (by simpa using hcloses)
        exact (h.settled p').settling hsettling hidle
      exact h.settled_open hopen (by rfl) p'
    · have hstill : Still q.state { q.state with
          inputSeq := q.state.inputSeq + 1
          deferredInputs := q.state.deferredInputs ++ [(q.state.inputSeq + 1, commands)] } :=
        ⟨id, id, rfl, rfl, rfl, rfl, fun _ => rfl⟩
      exact h.settled_still hstill p'
  | insertPreempting commands =>
    obtain ⟨s, hstate, hs⟩ := Option.bind_eq_some_iff.mp hs
    cases hs
    obtain ⟨restart, rfl⟩ := State.acceptPreempting_eq hstate
    exact h.settled_open (ha.open_of_outside rfl) (by rfl) p'
  | reserve =>
    cases hs
    have hstill : Still q.state { q.state with world := q.state.world.spawnEmpty.2 } :=
      ⟨id, id, rfl, rfl, rfl, rfl, fun _ => rfl⟩
    exact h.settled_still hstill p'
  | reserveSingleton key =>
    cases hs
    have hreserved : (q.state.world.singletonEntityOrSpawn key).2.stores = q.state.world.stores ∧
        (q.state.world.singletonEntityOrSpawn key).2.revision = q.state.world.revision := by
      unfold World.singletonEntityOrSpawn
      split <;> exact ⟨rfl, rfl⟩
    have hstill : Still q.state
        { q.state with world := (q.state.world.singletonEntityOrSpawn key).2 } := by
      refine ⟨id, id, rfl, rfl, rfl, hreserved.2, fun t => ?_⟩
      rw [World.storeWatermark, World.store_congr hreserved.1]
      rfl
    exact h.settled_still hstill p'
  | mutate t e v =>
    obtain ⟨s, hstate, hs⟩ := Option.bind_eq_some_iff.mp hs
    cases hs
    obtain ⟨restart, rfl⟩ := State.reachBoundary_eq hstate
    refine settled_showWrite (h.settled_open (ha.open_of_outside rfl) ?_) t e v p'
    unfold State.mutate
    dsimp only
    split_ifs <;> rfl
  | takeBound e parts =>
    cases hs
    have hcontrol := sameControl_takeBound C q.state e parts
    exact h.settled_open (ha.open_of_outside rfl) hcontrol.settling p'
  | drainBound entities =>
    cases hs
    have hcontrol := sameControl_closeBound C q.state.isSettled q.state entities
    exact h.settled_open (ha.open_of_outside rfl) hcontrol.settling p'
  | dropBound e => cases hs; exact h.settled p'
  | callSettle p scoop =>
    simp only [Protocol.act] at hs
    split at hs
    · split_ifs at hs <;> cases hs
      · exact h.settled_stay (.returned q.history.accepted scoop) rfl (fun hin => by cases hin) p'
      · exact h.settled_stay (.entering scoop) rfl (fun hin => by cases hin) p'
    · cases hs
  | awaitInsert p generation =>
    simp only [Protocol.act] at hs
    split at hs
    · cases hs
      exact h.settled_stay (.ensuring generation .insert) rfl (fun hin => by cases hin) p'
    · cases hs
  | advance p => exact h.settled_advance ha hs p'
  | writeInPlace p t e v =>
    simp only [Protocol.act] at hs
    split_ifs at hs
    cases hs
    have hlater : World.Later C q.state.world (q.state.world.writeInPlace t e v) :=
      .of_apply (.writeInPlace t e v) rfl
    have hrevision : (q.state.world.writeInPlace t e v).revision = q.state.world.revision := by
      unfold World.writeInPlace
      split <;> rfl
    have hstill : Still q.state { q.state with world := q.state.world.writeInPlace t e v } :=
      ⟨id, id, rfl, rfl, rfl, hrevision, hlater.storeWatermark_eq h.coherent hrevision⟩
    exact settled_showWrite (h.settled_still hstill) t e v p'
  | commit p run phase =>
    simp only [CommitsApart] at hapart
    simp only [Protocol.act] at hs
    split at hs <;> rename_i hpc
    · rename_i generation memo changed target waiter
      split_ifs at hs
      obtain ⟨⟨after, s, progress⟩, hcommit, hs⟩ := Option.bind_eq_some_iff.mp hs
      cases hs
      have hcount := (sameControl_commitSystemRun C hcommit).settling
      have hopen := h.open_of_driving (p := p) (by rw [hpc]; rfl)
      refine settled_goto { q with state := s, history := _ } _ (h.settled_open hopen hcount)
        (fun _ => rfl) (.of_open rfl fun hx => ?_) p'
      show s.settling ≠ 0
      rw [hcount]
      refine (h.settled p).settling ?_
      rw [hpc]
      cases waiter <;> exact hx
    · obtain ⟨⟨after, s, progress⟩, hcommit, hs⟩ := Option.bind_eq_some_iff.mp hs
      cases hs
      rw [hpc] at hapart
      exact ha.alone.settled_goto { q with state := s, history := _ } _ (by rw [hpc]; rfl)
        (fun _ => rfl) (h.settled_hooks hpc hapart hcommit) p'
    · obtain ⟨⟨after, s, progress⟩, hcommit, hs⟩ := Option.bind_eq_some_iff.mp hs
      cases hs
      rw [hpc] at hapart
      exact ha.alone.settled_goto { q with state := s, history := _ } _ (by rw [hpc]; rfl)
        (fun _ => rfl) (h.settled_pass hpc hapart hcommit) p'
    · cases hs
  | openWindow p =>
    simp only [Protocol.act] at hs
    split at hs <;> rename_i hpc
    · cases hs
      exact h.settled_open (h.open_of_driving (p := p) (by rw [hpc]; rfl)) (by rfl) p'
    · cases hs
  | closeWindow p =>
    simp only [Protocol.act] at hs
    split at hs <;> rename_i hpc
    · cases hs
      exact h.settled_open (h.open_of_driving (p := p) (by rw [hpc]; rfl)) (by rfl) p'
    · cases hs
  | cancel p => exact h.settled_cancel hs p'

/-- Each action of callers that close alone keeps the invariant. -/
theorem Closing.act (h : Closing q) (ha : ClosesAlone q a) (hapart : CommitsApart q a)
    (hs : q.act C a = some q') : Closing q' :=
  h.next (h.exclusive.act hs) (onward_act hs) (h.settled_act ha hapart hs)

theorem Closing.rest (h : Closing q) : Closing q.rest := by
  obtain ⟨hstate, hpc, -, -⟩ := rest_frame q
  refine ⟨h.exclusive.rest, ?_, ?_, fun p => ?_⟩
  · rw [hstate]
    exact h.coherent
  · rw [hstate]
    exact h.phases
  · rw [hpc, hstate]
    exact h.settled p

end Settled

end Protocol
end Porridge
