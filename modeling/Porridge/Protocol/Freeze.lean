import Porridge.Lib.Tally
import Porridge.Protocol.Closing
import Porridge.Protocol.Preemption

/-! The input freeze: which settle promotes a deferred input, and what is running then. -/
namespace Porridge

variable {α : Type}

/-- What the callers of a bowl do with an input that arrives during a settle. -/
inductive InputEvent where
  /-- The input is accepted while a settle is active. -/
  | frozen (n : Nat)
  /-- The input is promoted by a settle that `entered` inputs had been accepted before; `last` when
  that settle is leaving and no other is active. -/
  | released (n : Nat) (entered : Nat) (clean : Bool) (last : Bool)
deriving DecidableEq

/-- The input is freed of its freeze: no settle is active any more, or one that entered after it
was accepted promotes it while no generation is pending or running. -/
def InputEvent.frees (n : Nat) : InputEvent → Bool
  | frozen _ => false
  | released n' entered clean last => n' = n && (last || (n < entered && clean))

theorem Pc.settling_of_epoch {x : Pc α} {epoch : Epoch} (h : epoch ∈ x.epoch) :
    x.settling = true := by
  cases x with
  | leaving _ _ | unwinding => rfl
  | _ => exact Option.isSome_iff_exists.mpr ⟨epoch, h⟩

namespace Protocol

def settlers (q : Protocol α) : Nat := q.parties.tally Pc.settling

def leavesLast (q : Protocol α) (p : PartyId) : Bool :=
  (q.pc p).epoch.isNone && q.parties.entries.all fun b => b.1 = p || !b.2.settling

def inputEvents (q : Protocol α) (a : Action α) : List InputEvent :=
  match a with
  | .insert _ => if q.settlers = 0 then [] else [.frozen q.history.accepted]
  | _ =>
    match promotes q a with
    | none => []
    | some (p, watermark) =>
      (q.history.deferred.takeWhile fun d => d.1 ≤ watermark).map fun d =>
        .released d.2.1 ((q.pc p).epoch.elim 0 Epoch.accepted) q.state.isClean (q.leavesLast p)

/-- A settle that publishes promotes inputs only when no generation is pending or running. -/
def PublishesClean (q : Protocol α) : Action α → Bool
  | .advance p =>
    match q.pc p with
    | .publishing epoch =>
      !(q.state.promoteDeferredInputs epoch.watermark).1 || q.state.isClean
    | _ => true
  | _ => true

/-- What a section does to the epochs of the callers and to the pending inputs, when it promotes
up to the given tag. -/
structure Turn (q q' : Protocol α) (promoted : Option Nat) : Prop where
  epochs : ∀ p, ∀ epoch ∈ (q'.pc p).epoch,
    (∃ epoch' ∈ (q.pc p).epoch, epoch.accepted = epoch'.accepted ∧
      epoch.watermark = epoch'.watermark) ∨
    (epoch.accepted = q.history.accepted ∧ epoch.watermark = q.state.inputSeq)
  settlers : q.state.settling = q.settlers → q'.state.settling = q'.settlers
  pending : ∀ y ∈ q'.history.pending, y ∈ q.history.pending ∨ y.1 = q.history.accepted ∨
    ∃ watermark ∈ promoted, ∃ d ∈ q.history.deferred.takeWhile fun d => d.1 ≤ watermark, d.2 = y

variable {C : Components α} {q q' q₁ : Protocol α} {a : Action α} {p : PartyId} {x : Pc α}
  {promoted : Option Nat}

theorem settlers_goto (hparties : q₁.parties = q.parties) :
    (q₁.goto p x).settlers + (q.pc p).settling.toNat = q.settlers + x.settling.toNat := by
  have hcount := Dict.tally_insert (f := Pc.settling) (d := q.parties) (k := p) (v := x)
  have hpc : (q.parties.lookup p).any Pc.settling = (q.pc p).settling := by
    unfold Protocol.pc Dict.getD
    cases q.parties.lookup p with
    | none => rfl
    | some y => rfl
  rw [hpc] at hcount
  unfold settlers Protocol.goto
  rw [hparties]
  exact hcount

theorem settling_le_settlers (q : Protocol α) (p : PartyId) :
    (q.pc p).settling.toNat ≤ q.settlers := by
  have hcount : (q.goto p .idle).settlers + (q.pc p).settling.toNat =
      q.settlers + (Pc.idle : Pc α).settling.toNat := settlers_goto rfl
  have hidle : (Pc.idle : Pc α).settling.toNat = 0 := rfl
  omega

/-- A caller moves alone. -/
theorem Turn.goto (hparties : q₁.parties = q.parties)
    (hepoch : ∀ epoch ∈ x.epoch,
      (∃ epoch' ∈ (q.pc p).epoch, epoch.accepted = epoch'.accepted ∧
        epoch.watermark = epoch'.watermark) ∨
      (epoch.accepted = q.history.accepted ∧ epoch.watermark = q.state.inputSeq))
    (hsettling : (q.pc p).settling.toNat ≤ q.state.settling →
      q₁.state.settling + (q.pc p).settling.toNat = q.state.settling + x.settling.toNat)
    (hpending : ∀ y ∈ q₁.history.pending, y ∈ q.history.pending ∨ y.1 = q.history.accepted ∨
      ∃ watermark ∈ promoted, ∃ d ∈ q.history.deferred.takeWhile fun d => d.1 ≤ watermark,
        d.2 = y) : Turn q (q₁.goto p x) promoted := by
  have hpc : ∀ p', q₁.pc p' = q.pc p' := by
    intro p'
    unfold Protocol.pc
    rw [hparties]
  refine ⟨fun p' epoch he => ?_, fun hcounted => ?_, hpending⟩
  · rw [pc_goto] at he
    split_ifs at he with heq
    · rw [heq]
      exact hepoch epoch he
    · rw [hpc] at he
      exact Or.inl ⟨epoch, he, rfl, rfl⟩
  · have hcount := settlers_goto (q := q) (p := p) (x := x) hparties
    have hle := settling_le_settlers q p
    have hmoved := hsettling (hcounted ▸ hle)
    have hstate : (q₁.goto p x).state = q₁.state := rfl
    rw [hstate]
    omega

/-- A caller that stays a settler, or stays none, and keeps its epoch. -/
theorem Turn.stay (hparties : q₁.parties = q.parties)
    (hstate : q₁.state.settling = q.state.settling)
    (hhistory : q₁.history.pending = q.history.pending) (hx : x.settling = (q.pc p).settling)
    (hepoch : ∀ epoch ∈ x.epoch, ∃ epoch' ∈ (q.pc p).epoch,
      epoch.accepted = epoch'.accepted ∧ epoch.watermark = epoch'.watermark) :
    Turn q (q₁.goto p x) promoted := by
  refine .goto hparties (fun epoch he => Or.inl (hepoch epoch he)) (fun _ => ?_) fun y hy => ?_
  · rw [hstate, hx]
  · rw [hhistory] at hy
    exact Or.inl hy

/-- Nobody moves. -/
theorem Turn.keep (hpc : ∀ p, (q'.pc p).epoch = (q.pc p).epoch) (hcount : q'.settlers = q.settlers)
    (hstate : q'.state.settling = q.state.settling)
    (hpending : ∀ y ∈ q'.history.pending, y ∈ q.history.pending ∨ y.1 = q.history.accepted) :
    Turn q q' promoted := by
  refine ⟨fun p epoch he => ?_, fun h => ?_, fun y hy => ?_⟩
  · rw [hpc] at he
    exact Or.inl ⟨epoch, he, rfl, rfl⟩
  · rw [hstate, h, hcount]
  · rcases hpending y hy with hy | hy
    · exact Or.inl hy
    · exact Or.inr (Or.inl hy)

theorem pending_promote {h : History α} {watermark : Nat} {y : Nat × List (BaseCommand α)}
    (hy : y ∈ (h.promote watermark).pending) :
    y ∈ h.pending ∨ ∃ d ∈ h.deferred.takeWhile fun d => d.1 ≤ watermark, d.2 = y := by
  rcases List.mem_append.mp hy with hy | hy
  · exact Or.inl hy
  · exact Or.inr (List.mem_map.mp hy)

theorem turn_exit {epoch : Epoch} {done : State α → State α} (hepoch : epoch ∈ (q.pc p).epoch)
    (hdone : (done q.state).settling = q.state.settling) :
    Turn q (q.exit p epoch done) (some epoch.watermark) := by
  have hsettling : (q.pc p).settling = true := Pc.settling_of_epoch hepoch
  unfold Protocol.exit
  dsimp only
  split_ifs
  · refine .goto rfl (fun epoch' he => ?_) (fun _ => ?_) fun y hy => ?_
    · cases he
      exact Or.inl ⟨epoch, hepoch, rfl, rfl⟩
    · rw [hsettling]
      have hframe := settling_promoteDeferredInputs q.state epoch.watermark
      exact congrArg (· + 1) hframe
    · rcases pending_promote hy with hy | hy
      · exact Or.inl hy
      · exact Or.inr (Or.inr ⟨epoch.watermark, rfl, hy⟩)
  · exact .stay rfl hdone rfl hsettling.symm nofun

theorem turn_heal {epoch : Epoch} {onwards : Epoch → Pc α} (hepoch : epoch ∈ (q.pc p).epoch)
    (honwards : ∀ epoch, (onwards epoch).epoch = some epoch)
    (hs : q.heal p epoch onwards = some q') : Turn q q' promoted := by
  obtain ⟨⟨healed, attempts, s⟩, hhealed, hs⟩ := Option.bind_eq_some_iff.mp hs
  cases hs
  have hx : (if healed then Pc.enqueueing { epoch with attempts }
      else onwards { epoch with attempts }).epoch = some { epoch with attempts } := by
    cases healed
    · exact honwards _
    · rfl
  refine .stay rfl (sameControl_healStaleAmbient hhealed).1.settling rfl ?_ fun epoch' he => ?_
  · rw [Pc.settling_of_epoch hepoch]
    exact Pc.settling_of_epoch hx
  · have hsame := Option.some.inj (hx.symm.trans he)
    subst hsame
    exact ⟨epoch, hepoch, rfl, rfl⟩

theorem turn_leave (hx : x.settling = false) (hin : (q.pc p).settling = true) :
    Turn q (q.leave.goto p x) (if q.state.settling - 1 = 0 then some State.maxTag else none) := by
  have hparties : q.leave.parties = q.parties := by
    unfold Protocol.leave
    dsimp only
    split_ifs <;> rfl
  have hstate : q.leave.state.settling = q.state.settling - 1 := by
    unfold Protocol.leave
    dsimp only
    split_ifs with hlast
    · exact settling_promoteDeferredInputs _ State.maxTag
    · rfl
  refine .goto hparties (fun epoch he => ?_) (fun hle => ?_) fun y hy => ?_
  · rw [Pc.settling_of_epoch he] at hx
    cases hx
  · rw [hin] at hle ⊢
    rw [hstate, hx]
    have hone : true.toNat = 1 := rfl
    have hzero : false.toNat = 0 := rfl
    omega
  · unfold Protocol.leave at hy
    dsimp only at hy
    split_ifs at hy with hlast
    · rcases pending_promote hy with hy | hy
      · exact Or.inl hy
      · exact Or.inr (Or.inr ⟨State.maxTag, if_pos hlast, hy⟩)
    · exact Or.inl hy

theorem turn_commit {memo : MemoTable} {run : SystemRun α} {phase : Option Phase}
    {pc : MemoTable → Bool → Pc α}
    (hpc : ∀ memo changed, (pc memo changed).epoch = (q.pc p).epoch ∧
      (pc memo changed).settling = (q.pc p).settling)
    (hs : q.commit C p memo run phase pc = some q') : Turn q q' promoted := by
  obtain ⟨⟨after, s, progress⟩, hcommit, hs⟩ := Option.bind_eq_some_iff.mp hs
  cases hs
  refine .stay rfl (sameControl_commitSystemRun C hcommit).settling ?_ (hpc _ _).2 fun epoch he => ?_
  · dsimp only
    split_ifs
    · rfl
    · unfold History.commit
      split <;> rfl
  · exact ⟨epoch, (hpc _ _).1 ▸ he, rfl, rfl⟩

theorem turn_startGeneration {target : Nat} {waiter : Waiter}
    (hp : q.pc p = .starting target waiter)
    (hs : q.startGeneration C p target waiter = some q') : Turn q q' promoted := by
  obtain ⟨started, hstarted, hs⟩ := Option.bind_eq_some_iff.mp hs
  cases started with
  | none =>
    cases hs
    refine .stay rfl rfl rfl ?_ fun epoch he => ⟨epoch, ?_, rfl, rfl⟩
    · rw [hp]
      cases waiter <;> rfl
    · rw [hp]
      cases waiter <;> exact he
  | some started =>
    cases hs
    refine .goto rfl (fun epoch he => Or.inl ⟨epoch, ?_, rfl, rfl⟩) (fun _ => ?_) nofun
    · rw [hp]
      cases waiter <;> exact he
    · have hsettling : started.state.settling = q.state.settling :=
        (startEvaluation_control hstarted).2.settling
      rw [hp]
      cases waiter <;> exact congrArg (· + _) hsettling

/-- What each section of a caller does to the epochs and to the pending inputs. -/
theorem turn_advance (hs : q.advance C p = some q') :
    Turn q q' ((promotes q (.advance p)).map Prod.snd) := by
  have hstay : ∀ {y x : Pc α} {q₁ : Protocol α} {promoted : Option Nat}, q.pc p = y →
      q₁.parties = q.parties → q₁.state.settling = q.state.settling →
        q₁.history.pending = q.history.pending → x.settling = y.settling →
          (∀ epoch ∈ x.epoch, epoch ∈ y.epoch) → Turn q (q₁.goto p x) promoted := by
    rintro y x q₁ promoted rfl hparties hsettling hpending hx hepoch
    exact .stay hparties hsettling hpending hx fun epoch he => ⟨epoch, hepoch epoch he, rfl, rfl⟩
  unfold Protocol.advance at hs
  unfold promotes
  split at hs <;> rename_i hpc <;> simp only [hpc]
  · cases hs
  · cases hs
    refine .goto rfl (fun epoch he => ?_) (fun _ => ?_) fun y hy => Or.inl hy
    · cases he
      exact Or.inr ⟨rfl, rfl⟩
    · rw [hpc]
      rfl
  · split_ifs at hs ⊢ with hsettled <;> cases hs
    · exact turn_exit (by rw [hpc]; rfl) rfl
    · exact hstay hpc rfl rfl rfl rfl fun _ he => he
  · rename_i waiter
    split_ifs at hs <;> cases hs
    · cases waiter
      · exact hstay hpc rfl rfl rfl rfl nofun
      · exact hstay hpc rfl rfl rfl rfl fun _ he => he
    · cases waiter <;> exact hstay hpc rfl rfl rfl rfl fun _ he => he
    · exact .keep (fun _ => rfl) rfl rfl fun y hy => Or.inl hy
  · exact turn_startGeneration hpc hs
  · rename_i waiter
    cases hs
    cases waiter <;> exact hstay hpc rfl rfl rfl rfl fun _ he => he
  · rename_i waiter
    cases hs
    cases waiter <;> exact hstay hpc rfl rfl rfl rfl fun _ he => he
  · split_ifs at hs ⊢ with hsettled <;> cases hs
    · exact turn_exit (by rw [hpc]; rfl) rfl
    · exact hstay hpc rfl rfl rfl rfl fun _ he => he
    · exact hstay hpc rfl rfl rfl rfl fun _ he => he
  · exact turn_heal (by rw [hpc]; rfl) (fun _ => rfl) hs
  · split_ifs at hs <;> cases hs
    · exact hstay hpc rfl rfl rfl rfl fun _ he => he
    · exact hstay hpc rfl rfl rfl rfl fun _ he => he
  · rename_i followup
    cases hs
    cases followup <;> exact hstay hpc rfl rfl rfl rfl fun _ he => he
  · split_ifs at hs <;> cases hs
    · exact hstay hpc rfl rfl rfl rfl fun _ he => he
    · exact hstay hpc rfl rfl rfl rfl fun _ he => he
  · cases hs
    split_ifs <;> exact hstay hpc rfl rfl rfl rfl fun _ he => he
  · exact turn_heal (by rw [hpc]; rfl) (fun _ => rfl) hs
  · cases hs
    split_ifs <;> exact hstay hpc rfl rfl rfl rfl fun _ he => he
  · cases hs
    exact turn_exit (by rw [hpc]; rfl) (sameControl_publishSettledRevision q.state).settling
  · cases hs
    exact hstay hpc rfl rfl rfl rfl fun _ he => he
  · cases hs
    have hleft := turn_leave (q := q) (p := p) (x := .returned ‹_› ‹_›) rfl (by rw [hpc]; rfl)
    split_ifs at hleft ⊢ <;> exact hleft
  · rename_i scoop
    cases hs
    cases scoop <;> exact hstay hpc rfl rfl rfl rfl nofun
  · cases hs
    split_ifs <;> exact hstay hpc rfl rfl rfl rfl nofun
  · cases hs
    exact hstay hpc rfl (sameControl_closeBound C _ q.state _).settling rfl rfl nofun
  · cases hs
    exact hstay hpc rfl rfl rfl rfl nofun
  · cases hs
    exact hstay hpc rfl rfl rfl rfl nofun
  · cases hs
    have hleft := turn_leave (q := q) (p := p) (x := .idle) rfl (by rw [hpc]; rfl)
    split_ifs at hleft ⊢ <;> exact hleft

theorem turn_cancel (hs : q.cancel p = some q') : Turn q q' promoted := by
  unfold Protocol.cancel at hs
  split at hs
  · cases hs
  · cases hs
  · cases hs
  · rename_i hleaving hunwinding
    cases hs
    refine .stay rfl ?_ rfl ?_ fun epoch he => ?_
    · dsimp only
      split <;> rfl
    · cases hpc : q.pc p with
      | leaving accepted scoop => exact absurd hpc (hleaving accepted scoop)
      | unwinding => exact absurd hpc hunwinding
      | ensuring _ waiter | starting _ waiter | driving _ _ _ _ waiter
      | completing _ _ _ _ waiter => cases waiter <;> rfl
      | _ => rfl
    · split_ifs at he <;> cases he

theorem turn_act (hs : q.act C a = some q') : Turn q q' ((promotes q a).map Prod.snd) := by
  have hshow : ∀ (t : TypeId) (e : Entity) (v : Value α) (s : State α), s.settling = q.state.settling →
      Turn q { q.showWrite t e v with state := s } none := by
    intro t e v s hsettling
    refine .keep (fun p => observe_showWrite q p Pc.epoch (fun _ _ => rfl) t e v) ?_ hsettling ?_
    · unfold settlers showWrite
      dsimp only
      cases q.state.world.cell? t e with
      | none => rfl
      | some x =>
        refine Dict.tally_mapValues fun y => ?_
        cases y <;> rfl
    · rw [(showWrite_frame q t e v).2.2]
      exact fun y hy => Or.inl hy
  cases a with
  | insert commands =>
    obtain ⟨s, hstate, hs⟩ := Option.bind_eq_some_iff.mp hs
    cases hs
    refine .keep (fun _ => rfl) rfl ?_ fun y hy => ?_
    · rcases State.acceptInput_eq hstate with ⟨-, rfl⟩ | ⟨-, -, rfl⟩ <;> rfl
    · have hy : y ∈ (q.history.accept q.state.settling (q.state.inputSeq + 1) commands).pending := hy
      unfold History.accept at hy
      split_ifs at hy
      · rcases List.mem_append.mp hy with hy | hy
        · exact Or.inl hy
        · rw [List.mem_singleton.mp hy]
          exact Or.inr rfl
      · exact Or.inl hy
  | insertPreempting commands =>
    obtain ⟨s, hstate, hs⟩ := Option.bind_eq_some_iff.mp hs
    cases hs
    obtain ⟨restart, rfl⟩ := State.acceptPreempting_eq hstate
    refine .keep (fun _ => rfl) rfl rfl fun y hy => ?_
    rcases List.mem_append.mp hy with hy | hy
    · exact Or.inl hy
    · rw [List.mem_singleton.mp hy]
      exact Or.inr rfl
  | reserve => cases hs; exact .keep (fun _ => rfl) rfl rfl fun _ hy => Or.inl hy
  | reserveSingleton key => cases hs; exact .keep (fun _ => rfl) rfl rfl fun _ hy => Or.inl hy
  | mutate t e v =>
    obtain ⟨s, hstate, hs⟩ := Option.bind_eq_some_iff.mp hs
    cases hs
    obtain ⟨restart, rfl⟩ := State.reachBoundary_eq hstate
    refine hshow t e v _ ?_
    unfold State.mutate
    dsimp only
    split_ifs <;> rfl
  | takeBound e parts =>
    cases hs
    exact .keep (fun _ => rfl) rfl (sameControl_takeBound C q.state e parts).settling
      fun _ hy => Or.inl hy
  | drainBound entities =>
    cases hs
    exact .keep (fun _ => rfl) rfl (sameControl_closeBound C _ q.state _).settling
      fun _ hy => Or.inl hy
  | dropBound e => cases hs; exact .keep (fun _ => rfl) rfl rfl fun _ hy => Or.inl hy
  | callSettle p scoop =>
    simp only [Protocol.act] at hs
    split at hs
    · rename_i hpc
      split_ifs at hs <;> cases hs
      · exact .stay rfl rfl rfl (by rw [hpc]; rfl) fun _ hepoch => by cases hepoch
      · exact .stay rfl rfl rfl (by rw [hpc]; rfl) fun _ hepoch => by cases hepoch
    · cases hs
  | awaitInsert p generation =>
    simp only [Protocol.act] at hs
    split at hs
    · rename_i hpc
      cases hs
      exact .stay rfl rfl rfl (by rw [hpc]; rfl) fun _ hepoch => by cases hepoch
    · cases hs
  | advance p => exact turn_advance hs
  | writeInPlace p t e v =>
    simp only [Protocol.act] at hs
    split_ifs at hs
    cases hs
    exact hshow t e v _ rfl
  | commit p run phase =>
    simp only [Protocol.act] at hs
    split at hs
    · rename_i generation memo changed target waiter hpc
      split_ifs at hs
      refine turn_commit (fun _ _ => ?_) hs
      rw [hpc]
      cases waiter <;> exact ⟨rfl, rfl⟩
    · rename_i hpc
      exact turn_commit (fun _ _ => by rw [hpc]; exact ⟨rfl, rfl⟩) hs
    · rename_i hpc
      exact turn_commit (fun _ _ => by rw [hpc]; exact ⟨rfl, rfl⟩) hs
    · cases hs
  | openWindow p | closeWindow p =>
    simp only [Protocol.act] at hs
    split at hs
    · cases hs
      exact .keep (fun _ => rfl) rfl rfl fun _ hy => Or.inl hy
    · cases hs
  | cancel p => exact turn_cancel hs

theorem turn_step (hs : (machine C).step q a = some q') :
    Turn q q' ((promotes q a).map Prod.snd) := by
  obtain ⟨q₁, hact, rfl⟩ := Option.map_eq_some_iff.mp hs
  obtain ⟨hepochs, hsettlers, hpending⟩ := turn_act hact
  unfold Protocol.rest
  split_ifs <;> exact ⟨hepochs, hsettlers, hpending⟩

/-- The numbers of the deferred inputs agree with the epochs: a settle covers the inputs that were
accepted before it entered. -/
structure Freeze (q : Protocol α) : Prop where
  counted : Counted q
  active : q.state.settling = q.settlers
  deferredInputs : q.state.deferredInputs = q.history.deferred.map fun d => (d.1, d.2.2)
  bounded : ∀ d ∈ q.history.deferred, d.1 ≤ q.state.inputSeq
  entered : ∀ p, ∀ epoch ∈ (q.pc p).epoch, epoch.watermark ≤ q.state.inputSeq ∧
    ∀ d ∈ q.history.deferred, d.1 ≤ epoch.watermark → d.2.1 < epoch.accepted

variable {m : Move α}

theorem note_defer {s : State α} {h : History α} {commands : List (BaseCommand α)}
    (hbusy : s.settling ≠ 0) : (Move.defer commands).note s h = { h with
      accepted := h.accepted + 1
      deferred := h.deferred ++ [(s.inputSeq + 1, h.accepted, commands)] } := if_neg hbusy

/-- The deferred inputs are numbered afterwards, and those not deferred before have the next tag. -/
structure Defers (q q' : Protocol α) : Prop where
  deferredInputs : q'.state.deferredInputs = q'.history.deferred.map fun d => (d.1, d.2.2)
  grows : q.state.inputSeq ≤ q'.state.inputSeq
  tagged : ∀ d ∈ q'.history.deferred, d ∈ q.history.deferred ∨
    (d.1 = q.state.inputSeq + 1 ∧ q'.state.inputSeq = q.state.inputSeq + 1)

theorem Defers.promote {s : State α} {watermark : Nat}
    (hsame : q.state.deferredInputs = q.history.deferred.map fun d => (d.1, d.2.2))
    (hinputs : s.deferredInputs = q.state.deferredInputs) (hseq : s.inputSeq = q.state.inputSeq)
    (hs : SameControl (s.promoteDeferredInputs watermark).2 q'.state)
    (hh : SameInputs (q.history.promote watermark) q'.history) : Defers q q' := by
  have hqueue := (promoteDeferredInputs_queues (s := s) watermark).2
  have hframe : (s.promoteDeferredInputs watermark).2.inputSeq = s.inputSeq := by
    unfold State.promoteDeferredInputs
    dsimp only
    split_ifs <;> rfl
  refine ⟨?_, ?_, fun d hd => ?_⟩
  · rw [hs.deferredInputs, hqueue, hinputs, hsame, hh.deferred, List.dropWhile_map]
    rfl
  · rw [hs.inputSeq, hframe, hseq]
  · rw [hh.deferred] at hd
    exact Or.inl ((List.dropWhile_sublist _).subset hd)

theorem defers_move (hm : Moves C q a q' m)
    (hsame : q.state.deferredInputs = q.history.deferred.map fun d => (d.1, d.2.2)) :
    Defers q q' := by
  have hstate := hm.state
  have hhistory := hm.history
  have hstays : q'.state.deferredInputs = q.state.deferredInputs →
      q'.history.deferred = q.history.deferred → q'.state.inputSeq = q.state.inputSeq →
        Defers q q' := by
    intro hinputs hdeferred hseq
    refine ⟨?_, hseq.ge, fun d hd => Or.inl (hdeferred ▸ hd)⟩
    rw [hinputs, hdeferred]
    exact hsame
  cases m with
  | keep | request | enter | complete _ _ | abandon _ _ | start _ _ | accept _ =>
    exact hstays hstate.deferredInputs hhistory.deferred hstate.inputSeq
  | defer commands =>
    have hinputs : q'.state.deferredInputs =
      q.state.deferredInputs ++ [(q.state.inputSeq + 1, commands)] := hstate.deferredInputs
    have hseq : q'.state.inputSeq = q.state.inputSeq + 1 := hstate.inputSeq
    have hdeferred := hhistory.deferred
    rw [note_defer hm.permitted.1] at hdeferred
    refine ⟨?_, ?_, fun d hd => ?_⟩
    · rw [hinputs, hdeferred, hsame, List.map_append]
      rfl
    · omega
    · rw [hdeferred] at hd
      rcases List.mem_append.mp hd with hd | hd
      · exact Or.inl hd
      · rw [List.mem_singleton.mp hd]
        exact Or.inr ⟨rfl, hseq⟩
  | promote watermark => exact .promote hsame rfl rfl hstate hhistory
  | leave =>
    simp only [Move.note] at hhistory
    simp only [Move.apply, State.leaveEpoch] at hstate
    split_ifs at hstate hhistory with hlast
    · exact .promote (s := { q.state with settling := q.state.settling - 1 }) hsame rfl rfl hstate
        hhistory
    · exact hstays hstate.deferredInputs hhistory.deferred hstate.inputSeq

theorem Freeze.step (h : Freeze q) (hs : (machine C).step q a = some q') : Freeze q' := by
  obtain ⟨m, hm⟩ := moves_step hs
  have hturn := turn_step hs
  obtain ⟨hinputs, hgrows, htagged⟩ := defers_move hm h.deferredInputs
  refine ⟨h.counted.move hm, hturn.settlers h.active, hinputs, fun d hd => ?_,
    fun p epoch he => ?_⟩
  · rcases htagged d hd with hd | ⟨htag, hseq⟩
    · exact (h.bounded d hd).trans hgrows
    · rw [htag, hseq]
  · rcases hturn.epochs p epoch he with ⟨epoch', he', haccepted, hwatermark⟩ | ⟨haccepted, hwatermark⟩
    · obtain ⟨hle, hcovered⟩ := h.entered p epoch' he'
      rw [haccepted, hwatermark]
      refine ⟨hle.trans hgrows, fun d hd hlt => ?_⟩
      rcases htagged d hd with hd | ⟨htag, -⟩
      · exact hcovered d hd hlt
      · omega
    · rw [haccepted, hwatermark]
      refine ⟨hgrows, fun d hd hlt => ?_⟩
      rcases htagged d hd with hd | ⟨htag, -⟩
      · exact h.counted.deferred d hd
      · omega

theorem freeze_new (systems : List BoxedSystem) (hooked : SystemId → Bool) :
    Freeze (new systems hooked : Protocol α).rest := by
  have hsettling : (systems.foldl State.registerSystem (State.new α)).settling = 0 :=
    State.registered State.settling (fun _ _ => rfl) systems
  have hdeferred : (systems.foldl State.registerSystem (State.new α)).deferredInputs = [] :=
    State.registered State.deferredInputs (fun _ _ => rfl) systems
  have hnew : Freeze (new systems hooked : Protocol α) := by
    refine ⟨⟨nofun, nofun, nofun⟩, hsettling, hdeferred, nofun, fun p epoch he => ?_⟩
    have hidle : (new systems hooked : Protocol α).pc p = .idle := rfl
    rw [hidle] at he
    cases he
  unfold rest
  split_ifs
  · exact ⟨⟨hnew.counted.applied, hnew.counted.pending, hnew.counted.deferred⟩, hnew.active,
      hnew.deferredInputs, hnew.bounded, hnew.entered⟩
  · exact hnew

theorem leavesLast_of_settlers (hepoch : (q.pc p).epoch = none) (hin : (q.pc p).settling = true)
    (hcount : q.settlers ≤ 1) : q.leavesLast p = true := by
  have hleft : (q.goto p .idle).settlers + (q.pc p).settling.toNat =
      q.settlers + (Pc.idle : Pc α).settling.toNat := settlers_goto rfl
  rw [hin] at hleft
  have hidle : (Pc.idle : Pc α).settling.toNat = 0 := rfl
  have hone : true.toNat = 1 := rfl
  have hnone : (q.goto p .idle).settlers = 0 := by omega
  have hothers := Dict.tally_eq_zero.mp hnone
  unfold leavesLast
  rw [hepoch, Option.isNone_none, Bool.true_and, List.all_eq_true]
  intro b hb
  by_cases hp : b.1 = p
  · simp [hp]
  · have hpc : (q.goto p .idle).pc b.1 = b.2 := by
      rw [pc_goto, if_neg hp]
      exact pc_of_mem_parties q hb
    have hout : b.2.settling = false := by
      by_cases hidle : b.2 = .idle
      · rw [hidle]
        rfl
      · have hmem := mem_parties_of_pc (q.goto p .idle) b.1 (hpc ▸ hidle)
        rw [hpc] at hmem
        exact hothers _ hmem
    simp [hout]

/-- Who promotes a deferred input frees it, when a settle publishes clean. -/
theorem Freeze.frees (h : Freeze q) (ha : q.PublishesClean a = true) {watermark : Nat}
    (hp : promotes q a = some (p, watermark)) {d : Nat × Nat × List (BaseCommand α)}
    (hd : d ∈ q.history.deferred.takeWhile fun d => d.1 ≤ watermark) :
    InputEvent.frees d.2.1 (.released d.2.1 ((q.pc p).epoch.elim 0 Epoch.accepted) q.state.isClean
      (q.leavesLast p)) = true := by
  have hmem : d ∈ q.history.deferred := (List.takeWhile_sublist _).subset hd
  have hpassed : decide (d.1 ≤ watermark) = true :=
    List.mem_takeWhile_imp (p := fun d : Nat × Nat × List (BaseCommand α) => d.1 ≤ watermark) hd
  have htag : d.1 ≤ watermark := of_decide_eq_true hpassed
  have hcovered : ∀ epoch, (q.pc p).epoch = some epoch → epoch.watermark = watermark →
      q.state.isClean = true →
        InputEvent.frees d.2.1 (.released d.2.1 ((q.pc p).epoch.elim 0 Epoch.accepted)
          q.state.isClean (q.leavesLast p)) = true := by
    intro epoch he hw hclean
    have hentered := (h.entered p epoch he).2 d hmem (hw ▸ htag)
    simp [InputEvent.frees, he, hclean, hentered]
  have hlast : (q.pc p).epoch = none → (q.pc p).settling = true → q.state.settling - 1 = 0 →
      InputEvent.frees d.2.1 (.released d.2.1 ((q.pc p).epoch.elim 0 Epoch.accepted)
          q.state.isClean (q.leavesLast p)) = true := by
    intro hepoch hin hsettling
    have hactive := h.active
    have hleaves := leavesLast_of_settlers hepoch hin (by omega)
    simp [InputEvent.frees, hleaves]
  have hclean_of_settled : q.state.isSettled = true → q.state.isClean = true := by
    intro hsettled
    unfold State.isSettled at hsettled
    unfold State.isClean
    simp only [Bool.and_eq_true] at hsettled ⊢
    exact hsettled.1
  cases a with
  | advance p' =>
    unfold promotes at hp
    dsimp only at hp
    split at hp
    · rename_i epoch hpc
      split_ifs at hp with hsettled
      cases hp
      exact hcovered epoch (by rw [hpc]; rfl) rfl (hclean_of_settled hsettled)
    · rename_i epoch hpc
      split_ifs at hp with hsettled
      cases hp
      exact hcovered epoch (by rw [hpc]; rfl) rfl (hclean_of_settled hsettled)
    · rename_i epoch hpc
      cases hp
      refine hcovered epoch (by rw [hpc]; rfl) rfl ?_
      have hpromoted : (q.state.promoteDeferredInputs epoch.watermark).1 = true := by
        by_contra hnone
        have hnone := Bool.eq_false_of_not_eq_true hnone
        unfold State.promoteDeferredInputs at hnone
        dsimp only at hnone
        split_ifs at hnone with htake
        rw [h.deferredInputs, List.takeWhile_map, List.map_eq_nil_iff] at htake
        change q.history.deferred.takeWhile (fun d => decide (d.1 ≤ epoch.watermark)) = [] at htake
        rw [htake] at hd
        cases hd
      unfold PublishesClean at ha
      simp only [hpc, hpromoted, Bool.not_true, Bool.false_or] at ha
      exact ha
    · rename_i hpc
      split_ifs at hp with hsettling
      cases hp
      exact hlast (by rw [hpc]; rfl) (by rw [hpc]; rfl) hsettling
    · rename_i hpc
      split_ifs at hp with hsettling
      cases hp
      exact hlast (by rw [hpc]; rfl) (by rw [hpc]; rfl) hsettling
    · cases hp
  | _ => cases hp

structure Frozen (q : Protocol α) (events : List InputEvent) : Prop where
  freeze : Freeze q
  numbered : ∀ n, .frozen n ∈ events → n < q.history.accepted
  freed : ∀ n, .frozen n ∈ events → n ∈ q.history.applied ∨ n ∈ q.history.pending.map Prod.fst →
    ∃ event ∈ events, event.frees n = true

/-- The number of an input that is accepted now. -/
theorem frozen_of_mem_inputEvents {n : Nat} (hn : .frozen n ∈ inputEvents q a) :
    n = q.history.accepted ∧ q.settlers ≠ 0 ∧ ∃ commands, a = .insert commands := by
  unfold inputEvents at hn
  split at hn
  · split_ifs at hn with hidle
    · cases hn
    · cases List.mem_singleton.mp hn
      exact ⟨rfl, hidle, _, rfl⟩
  · split at hn
    · cases hn
    · obtain ⟨d, -, hd⟩ := List.mem_map.mp hn
      cases hd

/-- A frozen input is deferred. -/
theorem history_of_frozen {commands : List (BaseCommand α)} (hbusy : q.state.settling ≠ 0)
    (hs : (machine C).step q (.insert commands) = some q') :
    q'.history.accepted = q.history.accepted + 1 ∧ q'.history.pending = q.history.pending ∧
      q'.history.applied = q.history.applied := by
  obtain ⟨q₁, hact, rfl⟩ := Option.map_eq_some_iff.mp hs
  obtain ⟨s, -, hs⟩ := Option.bind_eq_some_iff.mp hact
  cases hs
  have hnoted : q.history.accept q.state.settling (q.state.inputSeq + 1) commands = _ :=
    note_defer (s := q.state) (h := q.history) hbusy
  unfold Protocol.rest
  split_ifs <;> rw [hnoted] <;> exact ⟨rfl, rfl, rfl⟩

theorem applied_move (hm : Moves C q a q' m) :
    q.history.accepted ≤ q'.history.accepted ∧ ∀ n ∈ q'.history.applied,
      n ∈ q.history.applied ∨ n ∈ q.history.pending.map Prod.fst := by
  have hhistory := hm.history
  cases m with
  | keep | request | enter | complete _ _ | abandon _ _ | promote _ =>
    exact ⟨hhistory.accepted.ge, fun n hn => Or.inl (hhistory.applied ▸ hn)⟩
  | accept commands =>
    have haccepted : q'.history.accepted = q.history.accepted + 1 := hhistory.accepted
    exact ⟨by omega, fun n hn => Or.inl (hhistory.applied ▸ hn)⟩
  | defer commands =>
    rw [note_defer hm.permitted.1] at hhistory
    have haccepted : q'.history.accepted = q.history.accepted + 1 := hhistory.accepted
    exact ⟨by omega, fun n hn => Or.inl (hhistory.applied ▸ hn)⟩
  | leave =>
    simp only [Move.note] at hhistory
    split_ifs at hhistory
    · exact ⟨hhistory.accepted.ge, fun n hn => Or.inl (hhistory.applied ▸ hn)⟩
    · exact ⟨hhistory.accepted.ge, fun n hn => Or.inl (hhistory.applied ▸ hn)⟩
  | start p g =>
    refine ⟨hhistory.accepted.ge, fun n hn => ?_⟩
    rw [hhistory.applied] at hn
    exact List.mem_append.mp hn

theorem Frozen.step {events : List InputEvent} (h : Frozen q events)
    (ha : q.PublishesClean a = true) (hs : (machine C).step q a = some q') :
    Frozen q' (events ++ inputEvents q a) := by
  obtain ⟨m, hm⟩ := moves_step hs
  obtain ⟨hgrows, happlied⟩ := applied_move hm
  refine ⟨h.freeze.step hs, fun n hn => ?_, fun n hn hused => ?_⟩
  · rcases List.mem_append.mp hn with hn | hn
    · exact Nat.lt_of_lt_of_le (h.numbered n hn) hgrows
    · obtain ⟨rfl, hbusy, commands, rfl⟩ := frozen_of_mem_inputEvents hn
      rw [← h.freeze.active] at hbusy
      rw [(history_of_frozen hbusy hs).1]
      exact Nat.lt_succ_self _
  · rcases List.mem_append.mp hn with hn | hn
    · have hkept : n ∈ q.history.applied ∨ n ∈ q.history.pending.map Prod.fst →
          ∃ event ∈ events ++ inputEvents q a, event.frees n = true := by
        intro hused
        obtain ⟨event, hevent, hfrees⟩ := h.freed n hn hused
        exact ⟨event, List.mem_append_left _ hevent, hfrees⟩
      rcases hused with hused | hused
      · exact hkept (happlied n hused)
      · obtain ⟨y, hy, rfl⟩ := List.mem_map.mp hused
        rcases (turn_step hs).pending y hy with hy | heq | ⟨watermark, hw, d, hd, rfl⟩
        · exact hkept (Or.inr (List.mem_map_of_mem hy))
        · exact absurd heq (Nat.ne_of_lt (h.numbered _ hn))
        · -- promoted in this section, by the settle that the event names
          obtain ⟨⟨p, w⟩, hp, rfl⟩ := Option.mem_map.mp hw
          refine ⟨_, List.mem_append_right _ ?_, h.freeze.frees ha hp hd⟩
          have hadvance : ∀ commands, a ≠ .insert commands := by
            rintro commands rfl
            cases hp
          unfold inputEvents
          split
          · exact absurd rfl (hadvance _)
          · rw [Option.mem_def.mp hp]
            exact List.mem_map_of_mem hd
    · obtain ⟨rfl, hbusy, commands, rfl⟩ := frozen_of_mem_inputEvents hn
      rw [← h.freeze.active] at hbusy
      obtain ⟨-, hpending, hdone⟩ := history_of_frozen hbusy hs
      rw [hpending, hdone] at hused
      rcases hused with hused | hused
      · exact absurd (h.freeze.counted.applied _ hused) (Nat.lt_irrefl _)
      · obtain ⟨y, hy, heq⟩ := List.mem_map.mp hused
        have hlt := h.freeze.counted.pending y hy
        omega

/-- While settles publish clean, an input accepted during a settle is not applied before the last
settle or a later one frees it. -/
theorem reachable_frozen {x : Protocol α × List InputEvent} {n : Nat}
    (h : ((machine C).recording inputEvents).ReachableUnder
      (fun x a => x.1.PublishesClean a = true) x)
    (hfrozen : .frozen n ∈ x.2) (happlied : n ∈ x.1.history.applied) :
    ∃ event ∈ x.2, event.frees n = true := by
  have hinv : Frozen x.1 x.2 := by
    refine h.invariant (fun x => Frozen x.1 x.2) ?_ fun x a x' hx ha hs => ?_
    · rintro ⟨q, events⟩ ⟨⟨systems, hooked, rfl⟩, rfl⟩
      exact ⟨freeze_new systems hooked, nofun, nofun⟩
    · obtain ⟨q', hq', rfl⟩ := Option.map_eq_some_iff.mp hs
      exact hx.step ha hq'
  exact hinv.freed n hfrozen (Or.inl happlied)

section Thawed

/-- The bowl with what its callers did with its inputs. -/
def recorded (labels : List (Action Nat)) : Option (Protocol Nat × List InputEvent) :=
  ((machine (Components.plain Nat)).recording inputEvents).run (plainBowl, []) labels

def answeredRecord : Protocol Nat × List InputEvent :=
  (recorded (insertAndSettle ++ advances 13 2)).getD (plainBowl, [])

/-- Caller 2 promotes the input that it found deferred as it enters, and then applies it. -/
theorem answered_frozen : (∃ event ∈ answeredRecord.2, event.frees 0 = true) ∧
    answeredRecord.2 = [.frozen 0, .released 0 1 true false] ∧
      answeredRecord.1.history.applied = [0] := by
  have hrun : recorded (insertAndSettle ++ advances 13 2) = some answeredRecord := rfl
  have hallowed : ((machine (Components.plain Nat)).recording inputEvents).Allows
      (fun x a => x.1.PublishesClean a = true) (plainBowl, [])
      (insertAndSettle ++ advances 13 2) := by decide
  have hinit : ((machine (Components.plain Nat)).recording inputEvents).init (plainBowl, []) :=
    ⟨⟨[.new .evaluate none false false []], fun _ => false, rfl⟩, rfl⟩
  have hreached := Machine.ReachableUnder.run (.init hinit) hallowed hrun
  exact ⟨reachable_frozen hreached (by decide) (by decide), by decide, by decide⟩

/-- Another caller's preempting input requests a generation before caller 2 publishes, and the
input it promotes then is applied by that generation. -/
def publishBusy : List (Action Nat) :=
  insertAndSettle ++ .insertPreempting [.insert 6 3 (.data 9)] :: advances 4 2

theorem publishBusy_thaws : ∃ x ∈ recorded publishBusy, .frozen 0 ∈ x.2 ∧
    x.1.history.applied = [1, 0] ∧ ¬ ∃ event ∈ x.2, event.frees 0 = true := by decide

end Thawed

end Protocol
end Porridge
