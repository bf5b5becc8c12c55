import Porridge.Protocol.Memo
import Porridge.Protocol.Runner

/-! Settled reads: the snapshot of a scoop against the instants of rest. -/
namespace Porridge

variable {α : Type}

namespace Pc

/-- A scoop between the last section of its settle and its snapshot. -/
def unread : Pc α → Bool
  | leaving _ scoop | returned _ scoop => scoop
  | draining | cleaning _ | reading => true
  | _ => false

/-- The snapshot a scoop materializes its rows from. -/
def snapshot : Pc α → Option (Snapshot α)
  | read snapshot => some snapshot
  | _ => none

def shares (t : TypeId) (e : Entity) (cell : Nat) : Pc α → Bool
  | read snapshot =>
    ((snapshot.lookup t).bind fun store => store.entries.lookup e).any fun x => x.cell == cell
  | _ => false

theorem showWrite_of_not_shares {t : TypeId} {e : Entity} {cell : Nat} {x : Pc α} (v : Value α)
    (h : x.shares t e cell = false) : x.showWrite t e cell v = x := by
  cases x with
  | read snapshot =>
    show Pc.read (World.showWrite t e cell v snapshot) = .read snapshot
    unfold World.showWrite
    unfold shares at h
    cases hstore : snapshot.lookup t with
    | none => rfl
    | some store =>
      cases hentry : store.entries.lookup e with
      | none => simp only [hentry]
      | some y =>
        have hother : y.cell ≠ cell := by simpa [hstore, hentry] using h
        simp only [hentry, if_neg hother]
  | _ => rfl

end Pc

namespace Protocol

/-- Every snapshot that is being read shows the stores of an instant of rest. -/
def SnapshotsCoherent (q : Protocol α) : Prop :=
  ∀ b ∈ q.parties.entries, ∀ snapshot ∈ b.2.snapshot, snapshot ∈ q.history.rests

/-- A section that writes the world and leaves a generation pending or running. -/
def disturbs (C : Components α) (q : Protocol α) : Action α → Bool
  | .mutate t e v => q.state.world.amends C t e v || !q.state.isClean
  | .takeBound .. | .drainBound .. | .writeInPlace .. | .commit .. => !q.state.isClean
  | .advance p =>
    match q.pc p with
    | .starting .. | .cleaning _ => !q.state.isClean
    | _ => false
  | _ => false

/-- The last section of a scoop's settle finds nothing pending or running. -/
def finishesClean (q : Protocol α) : Action α → Bool
  | .advance p =>
    match q.pc p with
    | .publishing epoch => !epoch.scoop || q.state.isClean || (q.promote epoch.watermark).1
    | _ => true
  | _ => true

def writtenInPlace : Action α → Option (TypeId × Entity)
  | .mutate t e _ | .writeInPlace _ t e _ => some (t, e)
  | _ => none

/-- While a scoop has not taken its snapshot nobody works on an unsettled world; its settle ends
with nothing pending or running; and nobody writes a cell of a snapshot that is being read. -/
structure SnapshotsApart (C : Components α) (q : Protocol α) (a : Action α) : Prop where
  unread : ∀ b ∈ q.parties.entries, b.2.unread = true → disturbs C q a = false
  finishes : finishesClean q a = true
  shared : ∀ r ∈ writtenInPlace a, ∀ x ∈ q.state.world.cell? r.1 r.2, ∀ b ∈ q.parties.entries,
    b.2.shares r.1 r.2 x.cell = false

instance (C : Components α) (q : Protocol α) (a : Action α) : Decidable (SnapshotsApart C q a) :=
  decidable_of_iff ((∀ b ∈ q.parties.entries, b.2.unread = true → disturbs C q a = false) ∧
      finishesClean q a = true ∧ ∀ r ∈ writtenInPlace a, ∀ x ∈ q.state.world.cell? r.1 r.2,
        ∀ b ∈ q.parties.entries, b.2.shares r.1 r.2 x.cell = false)
    ⟨fun ⟨hunread, hfinishes, hshared⟩ => ⟨hunread, hfinishes, hshared⟩,
      fun h => ⟨h.unread, h.finishes, h.shared⟩⟩

variable {C : Components α} {q q' q₁ : Protocol α} {p : PartyId} {x : Pc α} {a : Action α}

theorem SnapshotsApart.clean (ha : SnapshotsApart C q a) (hdisturbs : disturbs C q a = !q.state.isClean)
    {p : PartyId} (hp : (q.pc p).unread = true) : q.state.isClean = true := by
  have hmem : ⟨p, q.pc p⟩ ∈ q.parties.entries := by
    refine mem_parties_of_pc q p fun hidle => ?_
    rw [hidle] at hp
    cases hp
  have hnot := ha.unread _ hmem hp
  rw [hdisturbs] at hnot
  simpa using hnot

theorem SnapshotsApart.showWrite (ha : SnapshotsApart C q a) {t : TypeId} {e : Entity}
    (hwritten : writtenInPlace a = some (t, e)) (v : Value α) (p : PartyId) :
    (q.showWrite t e v).pc p = q.pc p := by
  rw [pc_showWrite]
  cases hcell : q.state.world.cell? t e with
  | none => rfl
  | some x =>
    refine Pc.showWrite_of_not_shares v ?_
    by_cases hidle : q.pc p = .idle
    · rw [hidle]
      rfl
    · exact ha.shared (t, e) hwritten x hcell _ (mem_parties_of_pc q p hidle)

/-- The world is that of an instant of rest while a scoop has yet to take its snapshot, and so is
every snapshot that is being read. -/
structure Coherent (q : Protocol α) : Prop where
  exclusive : Exclusive q
  clean : q.state.isClean = true → q.state.world.stores ∈ q.history.rests
  unread : ∀ p, (q.pc p).unread = true → q.state.world.stores ∈ q.history.rests
  read : ∀ p, ∀ snapshot ∈ (q.pc p).snapshot, snapshot ∈ q.history.rests

/-- What an action may do: work on the world while no scoop is about to look, let a scoop finish
on a clean bowl, or take a snapshot. -/
structure Careful (q q₁ : Protocol α) : Prop where
  rests : q₁.history.rests = q.history.rests
  unread : q₁.state.isClean = false → ∀ p, (q₁.pc p).unread = true →
    q₁.state.world.stores = q.state.world.stores ∧
      ((q.pc p).unread = true ∨ q.state.isClean = true)
  read : ∀ p, ∀ snapshot ∈ (q₁.pc p).snapshot, snapshot ∈ (q.pc p).snapshot ∨
    ((q.pc p).unread = true ∧ snapshot = q.state.world.stores)

/-- A clean bowl is noted. -/
theorem Exclusive.noted (h : Exclusive q) (hclean : q.state.isClean = true) :
    q.state.world.stores ∈ q.rest.history.rests := by
  have hrest : q.rest = { q with history := { q.history with
      rests := q.history.rests ++ [q.state.world.stores] } } := if_pos (h.atRest hclean)
  rw [hrest]
  exact List.mem_append_right _ (List.mem_singleton.mpr rfl)

theorem Coherent.rest (h : Coherent q) (hx : Exclusive q₁) (hc : Careful q q₁) :
    Coherent q₁.rest := by
  obtain ⟨hstate, hpc, -, -⟩ := rest_frame q₁
  have hsub : ∀ stores ∈ q.history.rests, stores ∈ q₁.rest.history.rests := by
    intro stores hmem
    have hmem₁ : stores ∈ q₁.history.rests := by rw [hc.rests]; exact hmem
    unfold Protocol.rest
    split_ifs
    · exact List.mem_append_left _ hmem₁
    · exact hmem₁
  constructor
  · exact hx.rest
  · rw [hstate]
    exact hx.noted
  · intro p hp
    rw [hpc] at hp
    rw [hstate]
    cases hclean : q₁.state.isClean with
    | true => exact hx.noted hclean
    | false =>
      obtain ⟨hsame, hbefore⟩ := hc.unread hclean p hp
      rw [hsame]
      rcases hbefore with hunread | hclean
      · exact hsub _ (h.unread p hunread)
      · exact hsub _ (h.clean hclean)
  · intro p snapshot hp
    rw [hpc] at hp
    rcases hc.read p snapshot hp with hread | ⟨hunread, rfl⟩
    · exact hsub _ (h.read p snapshot hread)
    · exact hsub _ (h.unread p hunread)

/-- A section that leaves the world alone and moves its caller on. -/
theorem Careful.move (hstores : q₁.state.world.stores = q.state.world.stores)
    (hrests : q₁.history.rests = q.history.rests) (hpc : ∀ p, q₁.pc p = q.pc p)
    (hx : x.unread = true → (q.pc p).unread = true ∨ q.state.isClean = true)
    (hsnapshot : x.snapshot = none) : Careful q (q₁.goto p x) where
  rests := hrests
  unread _ p' hp' := by
    refine ⟨hstores, ?_⟩
    rw [pc_goto] at hp'
    split_ifs at hp' with heq
    · rw [heq]
      exact hx hp'
    · rw [hpc] at hp'
      exact Or.inl hp'
  read p' snapshot hp' := by
    rw [pc_goto] at hp'
    split_ifs at hp' with heq
    · rw [hsnapshot] at hp'
      cases hp'
    · rw [hpc] at hp'
      exact Or.inl hp'

theorem Careful.goto (hx : x.unread = true → (q.pc p).unread = true ∨ q.state.isClean = true)
    (hsnapshot : x.snapshot = none) : Careful q (q.goto p x) :=
  .move rfl rfl (fun _ => rfl) hx hsnapshot

theorem Careful.still (hstores : q₁.state.world.stores = q.state.world.stores)
    (hrests : q₁.history.rests = q.history.rests) (hpc : ∀ p, q₁.pc p = q.pc p) :
    Careful q q₁ where
  rests := hrests
  unread _ p hp := ⟨hstores, Or.inl (hpc p ▸ hp)⟩
  read p _ hp := Or.inl (hpc p ▸ hp)

/-- A section that writes the world while every scoop about to look finds the bowl clean. -/
theorem Careful.work (hapart : ∀ p, (q.pc p).unread = true → q.state.isClean = true)
    (hclean : q.state.isClean = true → q₁.state.isClean = true)
    (hrests : q₁.history.rests = q.history.rests)
    (hunread : ∀ p, (q₁.pc p).unread = true → (q.pc p).unread = true)
    (hread : ∀ p, ∀ snapshot ∈ (q₁.pc p).snapshot, snapshot ∈ (q.pc p).snapshot) :
    Careful q q₁ where
  rests := hrests
  unread hdirty p hp := by
    have hdone := hclean (hapart p (hunread p hp))
    rw [hdirty] at hdone
    cases hdone
  read p snapshot hp := Or.inl (hread p snapshot hp)

theorem Careful.workGoto (hapart : ∀ p, (q.pc p).unread = true → q.state.isClean = true)
    (hclean : q.state.isClean = true → q₁.state.isClean = true)
    (hrests : q₁.history.rests = q.history.rests) (hpc : ∀ p, q₁.pc p = q.pc p)
    (hx : x.unread = true → (q.pc p).unread = true) (hsnapshot : x.snapshot = none) :
    Careful q (q₁.goto p x) := by
  refine .work hapart hclean hrests (fun p' hp' => ?_) fun p' snapshot hp' => ?_
  · rw [pc_goto] at hp'
    split_ifs at hp' with heq
    · exact heq ▸ hx hp'
    · exact hpc p' ▸ hp'
  · rw [pc_goto] at hp'
    split_ifs at hp'
    · rw [hsnapshot] at hp'
      cases hp'
    · exact hpc p' ▸ hp'

theorem Careful.exit {epoch : Epoch} {done : State α → State α}
    (hdone : (done q.state).world = q.state.world)
    (hclean : epoch.scoop = true → q.state.isClean = true ∨ (q.promote epoch.watermark).1 = true) :
    Careful q (q.exit p epoch done) := by
  have hworld := (promoteDeferredInputs_frame q.state epoch.watermark).2.1
  unfold Protocol.exit
  dsimp only
  split_ifs with hpromoted
  · exact .move (congrArg World.stores hworld) rfl (fun _ => rfl) (fun hx => nomatch hx) rfl
  · refine .move (congrArg World.stores hdone) rfl (fun _ => rfl) (fun hscoop => ?_) rfl
    exact Or.inr ((hclean hscoop).resolve_right hpromoted)

theorem Careful.leave (hx : x.unread = true → (q.pc p).unread = true)
    (hsnapshot : x.snapshot = none) : Careful q (q.leave.goto p x) := by
  obtain ⟨hpc, -, hworld, -, -, -, hrests⟩ := leave_frame q
  exact .move (congrArg World.stores hworld) hrests hpc (fun h => Or.inl (hx h)) hsnapshot

theorem Careful.heal {epoch : Epoch} {onwards : Epoch → Pc α}
    (honwards : ∀ epoch, (onwards epoch).unread = false ∧ (onwards epoch).snapshot = none)
    (hs : q.heal p epoch onwards = some q') : Careful q q' := by
  obtain ⟨⟨healed, attempts, s⟩, hhealed, hs⟩ := Option.bind_eq_some_iff.mp hs
  cases hs
  have hworld := (sameControl_healStaleAmbient hhealed).2
  refine .move (congrArg World.stores hworld) rfl (fun _ => rfl) (fun hx => ?_) ?_
  · cases healed
    · exact absurd hx (by rw [if_neg Bool.false_ne_true, (honwards _).1]; exact Bool.false_ne_true)
    · cases hx
  · cases healed
    · exact (honwards _).2
    · rfl

theorem Careful.startGeneration (ha : SnapshotsApart C q (.advance p)) {target : Nat}
    {waiter : Waiter} (hp : q.pc p = .starting target waiter)
    (hs : q.startGeneration C p target waiter = some q') : Careful q q' := by
  obtain ⟨started, hstarted, hs⟩ := Option.bind_eq_some_iff.mp hs
  cases started with
  | none =>
    cases hs
    exact .move rfl rfl (fun _ => rfl) (fun hx => nomatch hx) rfl
  | some started =>
    cases hs
    have hdisturbs : disturbs C q (.advance p) = !q.state.isClean := by
      unfold disturbs
      simp only [hp]
    have hdirty : q.state.isClean = true → False := by
      intro hclean
      unfold State.isClean at hclean
      simp only [Bool.and_eq_true] at hclean
      unfold startEvaluation at hstarted
      rw [Option.isNone_iff_eq_none.mp hclean.1] at hstarted
      cases hstarted
    exact .workGoto (fun p' hp' => ha.clean hdisturbs hp') (fun hclean => (hdirty hclean).elim) rfl
      (fun _ => rfl) (fun hx => nomatch hx) rfl

theorem isClean_of_isSettled {s : State α} (h : s.isSettled = true) : s.isClean = true := by
  unfold State.isSettled at h
  unfold State.isClean
  simp only [Bool.and_eq_true] at h ⊢
  exact h.1

/-- Each allowed section of a caller is careful. -/
theorem Careful.advance (ha : SnapshotsApart C q (.advance p)) (hs : q.advance C p = some q') :
    Careful q q' := by
  have hsettled : ∀ {epoch : Epoch}, q.state.isSettled = true →
      epoch.scoop = true → q.state.isClean = true ∨ (q.promote epoch.watermark).1 = true :=
    fun hs _ => Or.inl (isClean_of_isSettled hs)
  unfold Protocol.advance at hs
  split at hs <;> rename_i hpc
  · cases hs
  · cases hs
    exact .move rfl rfl (fun _ => rfl) (fun hx => nomatch hx) rfl
  · split_ifs at hs with hdone <;> cases hs
    · exact .exit rfl (hsettled hdone)
    · exact .goto (fun hx => nomatch hx) rfl
  · rename_i target waiter
    split_ifs at hs <;> cases hs
    · cases waiter <;> exact .goto (fun hx => nomatch hx) rfl
    · exact .move rfl rfl (fun _ => rfl) (fun hx => nomatch hx) rfl
    · exact .still rfl rfl fun _ => rfl
  · exact .startGeneration ha hpc hs
  · cases hs
    exact .goto (fun hx => nomatch hx) rfl
  · cases hs
    exact .move rfl rfl (fun _ => rfl) (fun hx => nomatch hx) rfl
  · split_ifs at hs with hdone <;> cases hs
    · exact .exit rfl (hsettled hdone)
    · exact .goto (fun hx => nomatch hx) rfl
    · exact .goto (fun hx => nomatch hx) rfl
  · exact .heal (fun _ => ⟨rfl, rfl⟩) hs
  · split_ifs at hs <;> cases hs
    · exact .goto (fun hx => nomatch hx) rfl
    · exact .move rfl rfl (fun _ => rfl) (fun hx => nomatch hx) rfl
  · rename_i followup
    cases hs
    cases followup <;> exact .move rfl rfl (fun _ => rfl) (fun hx => nomatch hx) rfl
  · split_ifs at hs <;> cases hs
    · exact .goto (fun hx => nomatch hx) rfl
    · exact .move rfl rfl (fun _ => rfl) (fun hx => nomatch hx) rfl
  · cases hs
    split_ifs <;> exact .move rfl rfl (fun _ => rfl) (fun hx => nomatch hx) rfl
  · exact .heal (fun _ => ⟨rfl, rfl⟩) hs
  · cases hs
    split_ifs <;> exact .goto (fun hx => nomatch hx) rfl
  · rename_i epoch
    cases hs
    have hfinishes := ha.finishes
    unfold finishesClean at hfinishes
    simp only [hpc] at hfinishes
    refine .exit ?_ fun hscoop => ?_
    · unfold State.publishSettledRevision
      split_ifs <;> rfl
    · simpa [hscoop] using hfinishes
  · cases hs
    exact .move rfl rfl (fun _ => rfl) (fun hx => nomatch hx) rfl
  · cases hs
    exact .leave (fun hx => by rw [hpc]; exact hx) rfl
  · rename_i scoop
    cases hs
    cases scoop
    · exact .goto (fun hx => nomatch hx) rfl
    · exact .goto (fun _ => Or.inl (by rw [hpc]; rfl)) rfl
  · cases hs
    refine .move rfl rfl (fun _ => rfl) (fun _ => Or.inl (by rw [hpc]; rfl)) ?_
    split_ifs <;> rfl
  · rename_i entities
    cases hs
    have hdisturbs : disturbs C q (.advance p) = !q.state.isClean := by
      unfold disturbs
      simp only [hpc]
    have hcontrol := sameControl_closeBound C q.state.isSettled q.state entities
    exact .workGoto (fun p' hp' => ha.clean hdisturbs hp')
      (fun hclean => hcontrol.isClean.trans hclean) rfl (fun _ => rfl)
      (fun _ => by rw [hpc]; rfl) rfl
  · cases hs
    constructor
    · rfl
    · intro _ p' hp'
      refine ⟨rfl, Or.inl ?_⟩
      rw [pc_goto] at hp'
      split_ifs at hp'
      · cases hp'
      · exact hp'
    · intro p' snapshot hp'
      rw [pc_goto] at hp'
      split_ifs at hp' with heq
      · refine Or.inr ⟨by rw [heq, hpc]; rfl, ?_⟩
        exact (Option.some.inj hp').symm
      · exact Or.inl hp'
  · cases hs
    exact .goto (fun hx => nomatch hx) rfl
  · cases hs
    exact .leave (fun hx => nomatch hx) rfl

theorem Careful.cancel (hs : q.cancel p = some q') : Careful q q' := by
  unfold Protocol.cancel at hs
  split at hs
  · cases hs
  · cases hs
  · cases hs
  · cases hs
    refine .move ?_ rfl (fun _ => rfl) (fun hx => ?_) ?_
    · dsimp only
      split <;> rfl
    · split_ifs at hx <;> cases hx
    · split_ifs <;> rfl

/-- Each allowed action is careful. -/
theorem Careful.act (ha : SnapshotsApart C q a) (hs : q.act C a = some q') : Careful q q' := by
  cases a with
  | insert commands =>
    obtain ⟨s, hstate, hs⟩ := Option.bind_eq_some_iff.mp hs
    cases hs
    refine .still ?_ ?_ fun _ => rfl
    · rcases State.acceptInput_eq hstate with ⟨-, rfl⟩ | ⟨-, -, rfl⟩ <;> rfl
    · unfold History.accept
      split_ifs <;> rfl
  | insertPreempting commands =>
    obtain ⟨s, hstate, hs⟩ := Option.bind_eq_some_iff.mp hs
    cases hs
    obtain ⟨restart, rfl⟩ := State.acceptPreempting_eq hstate
    exact .still rfl rfl fun _ => rfl
  | reserve => cases hs; exact .still rfl rfl fun _ => rfl
  | reserveSingleton key =>
    cases hs
    refine .still ?_ rfl fun _ => rfl
    show (q.state.world.singletonEntityOrSpawn key).2.stores = q.state.world.stores
    unfold World.singletonEntityOrSpawn
    cases q.state.world.singletonEntities.lookup key <;> rfl
  | mutate t e v =>
    obtain ⟨s, hstate, hs⟩ := Option.bind_eq_some_iff.mp hs
    cases hs
    obtain ⟨restart, rfl⟩ := State.reachBoundary_eq hstate
    have hpc := ha.showWrite rfl v
    have hhistory := (showWrite_frame q t e v).2.2
    have hnot : ∀ p, (q.pc p).unread = true →
        q.state.world.amends C t e v = false ∧ q.state.isClean = true := by
      intro p hp
      have hmem : ⟨p, q.pc p⟩ ∈ q.parties.entries := by
        refine mem_parties_of_pc q p fun hidle => ?_
        rw [hidle] at hp
        cases hp
      have hdisturbs := ha.unread _ hmem hp
      simpa [disturbs] using hdisturbs
    by_cases hamends : q.state.world.amends C t e v = true
    · constructor
      · exact congrArg History.rests hhistory
      · intro _ p hp
        have hp : ((q.showWrite t e v).pc p).unread = true := hp
        rw [hpc] at hp
        have hquiet := (hnot p hp).1
        rw [hamends] at hquiet
        cases hquiet
      · intro p snapshot hp
        have hp : snapshot ∈ ((q.showWrite t e v).pc p).snapshot := hp
        rw [hpc] at hp
        exact Or.inl hp
    · have hmutated : ({ q.state with preemptRestart := restart }.mutate C t e v).isClean =
          q.state.isClean := by
        unfold State.mutate
        rw [if_neg hamends]
        rfl
      refine .work (fun p hp => (hnot p hp).2) (fun hclean => hmutated.trans hclean)
        (congrArg History.rests hhistory) (fun p hp => ?_) fun p snapshot hp => ?_
      · have hp : ((q.showWrite t e v).pc p).unread = true := hp
        exact hpc p ▸ hp
      · have hp : snapshot ∈ ((q.showWrite t e v).pc p).snapshot := hp
        exact hpc p ▸ hp
  | takeBound e parts =>
    cases hs
    have hcontrol := sameControl_takeBound C q.state e parts
    exact .work (fun p hp => ha.clean rfl hp) (fun hclean => hcontrol.isClean.trans hclean) rfl
      (fun _ hp => hp) fun _ _ hp => hp
  | drainBound entities =>
    cases hs
    have hcontrol := sameControl_closeBound C q.state.isSettled q.state entities
    exact .work (fun p hp => ha.clean rfl hp) (fun hclean => hcontrol.isClean.trans hclean) rfl
      (fun _ hp => hp) fun _ _ hp => hp
  | dropBound e => cases hs; exact .still rfl rfl fun _ => rfl
  | callSettle p scoop =>
    simp only [Protocol.act] at hs
    split at hs
    · split_ifs at hs with hfast <;> cases hs
      · exact .goto (fun _ => Or.inr (isClean_of_isSettled hfast.1)) rfl
      · exact .goto (fun hx => by cases hx) rfl
    · cases hs
  | awaitInsert p generation =>
    simp only [Protocol.act] at hs
    split at hs
    · cases hs
      exact .goto (fun hx => by cases hx) rfl
    · cases hs
  | advance p => exact .advance ha hs
  | writeInPlace p t e v =>
    simp only [Protocol.act] at hs
    split_ifs at hs
    cases hs
    have hpc := ha.showWrite rfl v
    have hhistory := (showWrite_frame q t e v).2.2
    refine .work (fun p hp => ha.clean rfl hp) id (congrArg History.rests hhistory)
      (fun p hp => ?_) fun p snapshot hp => ?_
    · have hp : ((q.showWrite t e v).pc p).unread = true := hp
      exact hpc p ▸ hp
    · have hp : snapshot ∈ ((q.showWrite t e v).pc p).snapshot := hp
      exact hpc p ▸ hp
  | commit p run phase =>
    have hcommit : ∀ {memo : MemoTable} {ran : Option Phase} {pc : MemoTable → Bool → Pc α},
        (∀ memo changed, (pc memo changed).unread = false ∧ (pc memo changed).snapshot = none) →
        q.commit C p memo run ran pc = some q' → Careful q q' := by
      intro memo ran pc hpc hs
      obtain ⟨⟨after, s, progress⟩, hcommit, hs⟩ := Option.bind_eq_some_iff.mp hs
      cases hs
      have hcontrol := sameControl_commitSystemRun C hcommit
      refine .workGoto (fun p hp => ha.clean rfl hp)
        (fun hclean => hcontrol.isClean.trans hclean) ?_ (fun _ => rfl) (fun hx => ?_) (hpc _ _).2
      · dsimp only
        split_ifs
        · rfl
        · unfold History.commit
          split <;> rfl
      · rw [(hpc _ _).1] at hx
        cases hx
    simp only [Protocol.act] at hs
    split at hs
    · split_ifs at hs
      exact hcommit (fun _ _ => ⟨rfl, rfl⟩) hs
    · exact hcommit (fun _ _ => ⟨rfl, rfl⟩) hs
    · exact hcommit (fun _ _ => ⟨rfl, rfl⟩) hs
    · cases hs
  | openWindow p =>
    simp only [Protocol.act] at hs
    split at hs
    · cases hs
      exact .still rfl rfl fun _ => rfl
    · cases hs
  | closeWindow p =>
    simp only [Protocol.act] at hs
    split at hs
    · cases hs
      exact .still rfl rfl fun _ => rfl
    · cases hs
  | cancel p => exact .cancel hs

theorem coherent_new (systems : List BoxedSystem) (hooked : SystemId → Bool) :
    Coherent (new systems hooked : Protocol α).rest := by
  have hidle : Exclusive (new systems hooked : Protocol α) :=
    ⟨fun _ hp => (nomatch hp), fun _ hp => (nomatch hp)⟩
  obtain ⟨hstate, hpc, -, -⟩ := rest_frame (new systems hooked : Protocol α)
  constructor
  · exact hidle.rest
  · rw [hstate]
    exact hidle.noted
  · intro p hp
    rw [hpc] at hp
    cases hp
  · intro p snapshot hp
    rw [hpc] at hp
    cases hp

/-- When nobody disturbs the scoops that are about to look, a scoop reads an instant of rest. -/
theorem reachable_snapshotsCoherent (hq : (machine C).ReachableUnder (SnapshotsApart C) q) :
    q.SnapshotsCoherent := by
  have hcoherent : Coherent q := by
    refine Machine.ReachableUnder.invariant hq Coherent ?_ fun q a q' h ha hs => ?_
    · rintro q ⟨systems, hooked, rfl⟩
      exact coherent_new systems hooked
    · obtain ⟨q₁, hact, rfl⟩ := Option.map_eq_some_iff.mp hs
      exact h.rest (h.exclusive.act hact) (.act ha hact)
  intro b hb snapshot hsnapshot
  refine hcoherent.read b.1 snapshot ?_
  rw [pc_of_mem_parties q hb]
  exact hsnapshot

section Disturbed

/-- One evaluate-phase system, without hooks. -/
def readBowl : Protocol Nat := (new [.new .evaluate none false false []] fun _ => false).rest

/-- Caller 1 scoops on a bowl with one input, undisturbed. -/
def scoopAlone : List (Action Nat) :=
  .insert [.insert 6 2 (.data 8)] :: .callSettle 1 true :: advances 16 1

def readAlone : Protocol Nat :=
  ((machine (Components.plain Nat)).run readBowl scoopAlone).getD readBowl

theorem readAlone_snapshotsCoherent :
    readAlone.SnapshotsCoherent ∧ ∃ snapshot ∈ (readAlone.pc 1).snapshot, 6 ∈ snapshot := by
  have hrun : (machine (Components.plain Nat)).run readBowl scoopAlone = some readAlone := rfl
  have hallowed : (machine (Components.plain Nat)).Allows (SnapshotsApart (Components.plain Nat))
      readBowl scoopAlone := by decide
  exact ⟨reachable_snapshotsCoherent (Machine.ReachableUnder.run (.init ⟨_, _, rfl⟩) hallowed hrun),
    by decide⟩

/-- The settle of caller 1 is over; before its snapshot caller 2 inserts, starts a generation and
commits its first row. -/
def scoopDisturbed : List (Action Nat) :=
  .callSettle 1 true :: advances 11 1 ++
    .insert [.insert 6 2 (.data 8)] :: .callSettle 2 false :: advances 4 2 ++
      .commit 2 ⟨true, [⟨⟨0, [2]⟩, [.insert 5 2 (.data 7)]⟩], [(⟨0, [2]⟩, ⟨[], 0, 0⟩)], []⟩ .evaluate ::
        advances 1 1

theorem scoop_reads_running_generation :
    ∃ q ∈ (machine (Components.plain Nat)).run readBowl scoopDisturbed, ¬ q.SnapshotsCoherent := by
  have hread : ∃ q ∈ (machine (Components.plain Nat)).run readBowl scoopDisturbed,
      ∃ b ∈ q.parties.entries, ∃ snapshot ∈ b.2.snapshot,
        5 ∈ snapshot ∧ ∀ stores ∈ q.history.rests, 5 ∉ stores := by decide
  obtain ⟨q, hq, b, hb, snapshot, hsnapshot, hsees, hrests⟩ := hread
  exact ⟨q, hq, fun h => hrests snapshot (h b hb snapshot hsnapshot) hsees⟩

end Disturbed

end Protocol
end Porridge
