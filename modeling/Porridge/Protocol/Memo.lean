import Porridge.Protocol.Control
import Porridge.Protocol.Tables

/-! Memo entries under concurrent settles: who holds the table, and when entries are lost. -/
namespace Porridge.Protocol

variable {α : Type} {C : Components α}

open MemoTable

/-- One party at a time holds the memo table, and the table in use has every expected entry. -/
structure Kept (q : Protocol α) : Prop where
  unique : ∀ p p', (q.pc p).held ≠ none → (q.pc p').held ≠ none → p = p'
  away : ∀ p memo, (q.pc p).held = some memo → Within q.history.expected memo
  home : (∀ p, (q.pc p).held = none) → Within q.history.expected q.state.memo

variable {q q' : Protocol α} {p : PartyId} {x : Pc α}

/-- A section that leaves every held table alone, and the one at home good. -/
theorem Kept.amend (h : Kept q) (hheld : ∀ p, (q'.pc p).held = (q.pc p).held)
    (hless : Within q'.history.expected q.history.expected)
    (hhome : Within q.history.expected q.state.memo →
      Within q'.history.expected q'.state.memo) : Kept q' where
  unique p p' hp hp' := h.unique p p' (hheld p ▸ hp) (hheld p' ▸ hp')
  away p memo hp := hless.trans (h.away p memo (hheld p ▸ hp))
  home hnone := hhome (h.home fun p => hheld p ▸ hnone p)

theorem Kept.same (h : Kept q) (hheld : ∀ p, (q'.pc p).held = (q.pc p).held)
    (hmemo : q'.state.memo = q.state.memo)
    (hexpected : q'.history.expected = q.history.expected) : Kept q' :=
  h.amend hheld (hexpected ▸ Within.rfl) fun hw => by rw [hmemo, hexpected]; exact hw

/-- Moving on without taking or giving back a table. -/
theorem Kept.goto (h : Kept q) (hx : x.held = (q.pc p).held) : Kept (q.goto p x) := by
  refine h.same (fun p' => ?_) rfl rfl
  rw [pc_goto]
  split_ifs with hp
  · rw [hx, hp]
  · rfl

/-- A party takes the table when nobody holds it. -/
theorem Kept.take (hfree : ∀ p, (q.pc p).held = none) {memo : MemoTable}
    (hx : x.held = some memo) (hw : Within q'.history.expected memo)
    (hpc : ∀ p', q'.pc p' = if p' = p then x else q.pc p') : Kept q' where
  unique p₁ p₂ h₁ h₂ := by
    have honly : ∀ p', (q'.pc p').held ≠ none → p' = p := fun p' hp' => by
      by_contra hne
      rw [hpc, if_neg hne] at hp'
      exact hp' (hfree p')
    rw [honly p₁ h₁, honly p₂ h₂]
  away p' memo' hp' := by
    rw [hpc] at hp'
    split_ifs at hp' with heq
    · have hsame : memo = memo' := Option.some.inj (hx.symm.trans hp')
      exact hsame ▸ hw
    · rw [hfree p'] at hp'
      cases hp'
  home hnone := by
    have hnone_p := hnone p
    rw [hpc, if_pos rfl, hx] at hnone_p
    cases hnone_p

/-- The holder works on its table. -/
theorem Kept.work (h : Kept q) (hholds : (q.pc p).held ≠ none) {memo : MemoTable}
    (hx : x.held = some memo) (hw : Within q'.history.expected memo)
    (hpc : ∀ p', q'.pc p' = if p' = p then x else q.pc p') : Kept q' := by
  have hothers : ∀ p', p' ≠ p → (q.pc p').held = none := fun p' hne => by
    by_contra hsome
    exact hne (h.unique p' p hsome hholds)
  refine Kept.take (q := { q with parties := q.parties.insert p .idle }) (p := p) (fun p' => ?_)
    hx hw fun p' => ?_
  · have hgone := pc_goto q p p' .idle
    change ((q.goto p .idle).pc p').held = none
    rw [hgone]
    split_ifs with heq
    · rfl
    · exact hothers p' heq
  · have hgone := pc_goto q p p' .idle
    change q'.pc p' = if p' = p then x else (q.goto p .idle).pc p'
    rw [hpc, hgone]
    split_ifs <;> rfl

/-- The holder moves its table back home. -/
theorem Kept.put (h : Kept q) {memo : MemoTable} (hholds : (q.pc p).held = some memo)
    (hx : x.held = none) (hmemo : q'.state.memo = memo)
    (hexpected : q'.history.expected = q.history.expected)
    (hpc : ∀ p', q'.pc p' = if p' = p then x else q.pc p') : Kept q' := by
  have hnone : ∀ p', (q'.pc p').held = none := fun p' => by
    rw [hpc]
    split_ifs with heq
    · exact hx
    · by_contra hsome
      exact heq (h.unique p' p hsome (by rw [hholds]; simp))
  refine ⟨fun p₁ _ h₁ => absurd (hnone p₁) h₁, fun p' memo' hp' => ?_, fun _ => ?_⟩
  · rw [hnone p'] at hp'
    cases hp'
  · rw [hmemo, hexpected]
    exact h.away p memo hholds

/-- The next section moves the memo table out of the state. -/
def takesTable (q : Protocol α) (p : PartyId) : Bool :=
  match q.pc p with
  | .starting .. => q.state.pendingGeneration.isSome
  | .startingHooks _ => q.state.settledHooks != []
  | .startingSettlePhase _ => q.state.settleSystems != []
  | _ => false

/-- The table is taken only while nobody holds it, and no holder is dropped outside the
evaluation guard. -/
def TablesApart (q : Protocol α) : Action α → Prop
  | .advance p => q.takesTable p = true → ∀ b ∈ q.parties.entries, b.2.held = none
  | .cancel p => (q.pc p).guarded = true
  | _ => True

instance (q : Protocol α) : ∀ a, Decidable (TablesApart q a)
  | .advance p =>
    inferInstanceAs (Decidable (q.takesTable p = true → ∀ b ∈ q.parties.entries, b.2.held = none))
  | .cancel p => inferInstanceAs (Decidable ((q.pc p).guarded = true))
  | .insert _ | .insertPreempting _ | .reserve | .reserveSingleton _ | .mutate .. | .takeBound ..
  | .drainBound _ | .dropBound _ | .callSettle .. | .awaitInsert .. | .writeInPlace ..
  | .commit .. | .openWindow _ | .closeWindow _ => isTrue trivial

theorem held_of_parties (h : ∀ b ∈ q.parties.entries, b.2.held = none) (p : PartyId) :
    (q.pc p).held = none := by
  unfold pc Dict.getD
  cases hp : q.parties.lookup p with
  | none => rfl
  | some x => exact h ⟨p, x⟩ (AList.mem_lookup_iff.mp hp)

theorem Kept.exit (h : Kept q) {epoch : Epoch} {done : State α → State α}
    (hdone : (done q.state).memo = q.state.memo) (hp : (q.pc p).held = none) :
    Kept (q.exit p epoch done) := by
  unfold Protocol.exit
  dsimp only
  split_ifs
  · have hpromoted : Kept (q.promote epoch.watermark).2 :=
      h.same (fun _ => rfl) (promoteDeferredInputs_frame q.state epoch.watermark).1 rfl
    exact hpromoted.goto hp.symm
  · have hstate : Kept { q with state := done q.state } := h.same (fun _ => rfl) hdone rfl
    exact hstate.goto hp.symm

theorem Kept.heal (h : Kept q) {epoch : Epoch} {onwards : Epoch → Pc α}
    (honwards : ∀ epoch, (onwards epoch).held = none) (hp : (q.pc p).held = none)
    (hs : q.heal p epoch onwards = some q') : Kept q' := by
  obtain ⟨⟨healed, attempts, s⟩, hhealed, hs⟩ := Option.bind_eq_some_iff.mp hs
  cases hs
  have hwithin := within_healStaleAmbient hhealed
  have hamended : Kept (q.amendHome s) :=
    h.amend (fun _ => rfl) (within_carry _ _ _) fun hw => hw.carry hwithin
  refine hamended.goto ?_
  have hheld : ((q.amendHome s).pc p).held = none := hp
  rw [hheld]
  cases healed
  · exact honwards _
  · rfl

theorem Kept.startGeneration (h : Kept q) {target : Nat} {waiter : Waiter}
    (hp : q.pc p = .starting target waiter)
    (hfree : q.state.pendingGeneration.isSome = true → ∀ p, (q.pc p).held = none)
    (hs : q.startGeneration C p target waiter = some q') : Kept q' := by
  obtain ⟨started, hstarted, hs⟩ := Option.bind_eq_some_iff.mp hs
  cases started with
  | none =>
    cases hs
    have hreleased : Kept { q with runner := none } := h.same (fun _ => rfl) rfl rfl
    exact hreleased.goto (by change Pc.held _ = (q.pc p).held; rw [hp]; rfl)
  | some started =>
    cases hs
    have hpending : q.state.pendingGeneration.isSome = true := by
      unfold startEvaluation at hstarted
      split at hstarted
      · cases hstarted
      · rename_i generation hg
        rw [hg]
        rfl
    have hnone := hfree hpending
    exact Kept.take hnone rfl ((h.home hnone).carry (within_startEvaluation C hstarted))
      fun p' => pc_goto _ p p' _

theorem Kept.commit (h : Kept q) {memo : MemoTable} (hp : (q.pc p).held = some memo)
    {run : SystemRun α} {phase : Option Phase} {pc : MemoTable → Bool → Pc α}
    (hpc : ∀ memo changed, (pc memo changed).held = some memo)
    (hs : q.commit C p memo run phase pc = some q') : Kept q' := by
  obtain ⟨⟨after, s, progress⟩, hcommit, hs⟩ := Option.bind_eq_some_iff.mp hs
  cases hs
  have hholds : (q.pc p).held ≠ none := by rw [hp]; simp
  exact h.work hholds (hpc _ _) (History.within_commit C (h.away p memo hp) hcommit)
    fun p' => pc_goto _ p p' _

/-- A section of a caller that holds no table and touches none. -/
theorem Kept.move (h : Kept q) {q₁ : Protocol α} (hp : (q.pc p).held = none)
    (hx : x.held = none) (hparties : ∀ p, q₁.pc p = q.pc p)
    (hmemo : q₁.state.memo = q.state.memo)
    (hexpected : q₁.history.expected = q.history.expected) : Kept (q₁.goto p x) := by
  have hsame : Kept q₁ := h.same (fun p => by rw [hparties p]) hmemo hexpected
  refine hsame.goto ?_
  rw [hparties p, hp, hx]

/-- Every section of a caller keeps the expected entries in the table in use. -/
theorem Kept.advance (h : Kept q) (ha : TablesApart q (.advance p))
    (hs : q.advance C p = some q') : Kept q' := by
  have hfree : q.takesTable p = true → ∀ p, (q.pc p).held = none :=
    fun ht p => held_of_parties (ha ht) p
  have hmove : ∀ {x : Pc α}, (q.pc p).held = none → x.held = none → Kept (q.goto p x) :=
    fun hp hx => h.goto (hx.trans hp.symm)
  unfold takesTable at hfree
  unfold Protocol.advance at hs
  split at hs <;> rename_i hpc <;> simp only [hpc] at hfree
  · cases hs
  · cases hs
    exact h.move (by rw [hpc]; rfl) rfl (fun _ => rfl) rfl rfl
  · split_ifs at hs <;> cases hs
    · exact h.exit rfl (by rw [hpc]; rfl)
    · exact hmove (by rw [hpc]; rfl) rfl
  · rename_i target waiter
    split_ifs at hs <;> cases hs
    · cases waiter <;> exact hmove (by rw [hpc]; rfl) rfl
    · exact h.move (by rw [hpc]; rfl) rfl (fun _ => rfl) rfl rfl
    · exact h
  · exact h.startGeneration hpc hfree hs
  · cases hs
    exact h.goto (by rw [hpc]; rfl)
  · cases hs
    exact h.put (by rw [hpc]; rfl) rfl rfl rfl fun p' => pc_goto _ p p' _
  · split_ifs at hs <;> cases hs
    · exact h.exit rfl (by rw [hpc]; rfl)
    · exact hmove (by rw [hpc]; rfl) rfl
    · exact hmove (by rw [hpc]; rfl) rfl
  · exact h.heal (fun _ => rfl) (by rw [hpc]; rfl) hs
  · split_ifs at hs with hempty <;> cases hs
    · exact hmove (by rw [hpc]; rfl) rfl
    · have hnone := hfree (by simpa using hempty)
      exact Kept.take hnone rfl (h.home hnone) fun p' => pc_goto _ p p' _
  · cases hs
    exact h.put (by rw [hpc]; rfl) (by split <;> rfl) rfl rfl fun p' => pc_goto _ p p' _
  · split_ifs at hs with hempty <;> cases hs
    · exact hmove (by rw [hpc]; rfl) rfl
    · have hnone := hfree (by simpa using hempty)
      exact Kept.take hnone rfl (h.home hnone) fun p' => pc_goto _ p p' _
  · cases hs
    exact h.put (by rw [hpc]; rfl) (by split <;> rfl) rfl rfl fun p' => pc_goto _ p p' _
  · exact h.heal (fun _ => rfl) (by rw [hpc]; rfl) hs
  · cases hs
    exact hmove (by rw [hpc]; rfl) (by split <;> rfl)
  · cases hs
    refine h.exit ?_ (by rw [hpc]; rfl)
    unfold State.publishSettledRevision
    split_ifs <;> rfl
  · cases hs
    exact h.move (by rw [hpc]; rfl) rfl (fun _ => rfl) rfl rfl
  · cases hs
    obtain ⟨hparties, hmemo, -, -, -, hexpected, -⟩ := leave_frame q
    exact h.move (by rw [hpc]; rfl) rfl hparties hmemo hexpected
  · cases hs
    exact hmove (by rw [hpc]; rfl) (by split <;> rfl)
  · cases hs
    exact h.move (by rw [hpc]; rfl) (by split <;> rfl) (fun _ => rfl) rfl rfl
  · rename_i entities
    cases hs
    have hamended : Kept (q.amendHome (drainBound C q.state entities)) :=
      h.amend (fun _ => rfl) (within_carry _ _ _) fun hw => hw.carry (within_closeBound C _ _ _)
    exact hamended.goto (by change _ = (q.pc p).held; rw [hpc]; rfl)
  · cases hs
    exact hmove (by rw [hpc]; rfl) rfl
  · cases hs
    exact hmove (by rw [hpc]; rfl) rfl
  · cases hs
    obtain ⟨hparties, hmemo, -, -, -, hexpected, -⟩ := leave_frame q
    exact h.move (by rw [hpc]; rfl) rfl hparties hmemo hexpected

theorem Kept.cancel (h : Kept q) (ha : (q.pc p).guarded = true) (hs : q.cancel p = some q') :
    Kept q' := by
  unfold Protocol.cancel at hs
  have hnone : ∀ b : Bool, (if b = true then Pc.unwinding else Pc.idle : Pc α).held = none := by
    intro b
    cases b <;> rfl
  split at hs
  · cases hs
  · cases hs
  · cases hs
  · cases hs
    cases hpc : q.pc p with
    | driving generation memo changed target waiter =>
      refine h.put (x := if (q.pc p).epoch.isSome = true then .unwinding else .idle)
        (by rw [hpc]; rfl) (hnone _) rfl rfl fun p' => ?_
      rw [hpc]
      exact pc_goto _ p p' _
    | _ =>
      have hguarded : (q.pc p).held = none := by
        rw [hpc] at ha ⊢
        first | rfl | cases ha
      rw [hpc] at hguarded
      refine h.move (by rw [hpc]; exact hguarded) (hnone _) (fun _ => rfl) rfl rfl

/-- Each allowed action keeps the expected entries in the table in use. -/
theorem Kept.act (h : Kept q) {a : Action α} (ha : TablesApart q a)
    (hs : q.act C a = some q') : Kept q' := by
  cases a with
  | insert commands =>
    obtain ⟨s, hstate, hs⟩ := Option.bind_eq_some_iff.mp hs
    cases hs
    refine h.same (fun _ => rfl) ?_ ?_
    · rcases State.acceptInput_eq hstate with ⟨-, rfl⟩ | ⟨-, -, rfl⟩ <;> rfl
    · unfold History.accept
      dsimp only
      split_ifs <;> rfl
  | insertPreempting commands =>
    obtain ⟨s, hstate, hs⟩ := Option.bind_eq_some_iff.mp hs
    cases hs
    obtain ⟨restart, rfl⟩ := State.acceptPreempting_eq hstate
    exact h.same (fun _ => rfl) rfl rfl
  | reserve => cases hs; exact h.same (fun _ => rfl) rfl rfl
  | reserveSingleton key => cases hs; exact h.same (fun _ => rfl) rfl rfl
  | mutate t e v =>
    obtain ⟨s, hstate, hs⟩ := Option.bind_eq_some_iff.mp hs
    cases hs
    obtain ⟨restart, rfl⟩ := State.reachBoundary_eq hstate
    have hexpected := congrArg History.expected (showWrite_frame q t e v).2.2
    refine h.same (fun p => observe_showWrite q p Pc.held (fun _ _ => rfl) t e v) ?_ hexpected
    unfold State.mutate
    dsimp only
    split_ifs <;> rfl
  | takeBound e parts =>
    cases hs
    exact h.amend (fun _ => rfl) (within_carry _ _ _) fun hw =>
      hw.carry (within_closeBound C _ { q.state with world := _ } _)
  | drainBound entities =>
    cases hs
    exact h.amend (fun _ => rfl) (within_carry _ _ _) fun hw => hw.carry (within_closeBound C _ _ _)
  | dropBound e => cases hs; exact h.same (fun _ => rfl) rfl rfl
  | callSettle p scoop =>
    simp only [Protocol.act] at hs
    split at hs
    · rename_i hpc
      split_ifs at hs <;> cases hs <;> exact h.goto (by rw [hpc]; rfl)
    · cases hs
  | awaitInsert p generation =>
    simp only [Protocol.act] at hs
    split at hs
    · rename_i hpc
      cases hs
      exact h.goto (by rw [hpc]; rfl)
    · cases hs
  | advance p => exact h.advance ha hs
  | writeInPlace p t e v =>
    simp only [Protocol.act] at hs
    split_ifs at hs
    cases hs
    have hexpected := congrArg History.expected (showWrite_frame q t e v).2.2
    exact h.same (fun p => observe_showWrite q p Pc.held (fun _ _ => rfl) t e v) rfl hexpected
  | commit p run phase =>
    simp only [Protocol.act] at hs
    split at hs
    · rename_i hpc
      split_ifs at hs
      exact h.commit (by rw [hpc]; rfl) (fun _ _ => rfl) hs
    · rename_i hpc
      exact h.commit (by rw [hpc]; rfl) (fun _ _ => rfl) hs
    · rename_i hpc
      exact h.commit (by rw [hpc]; rfl) (fun _ _ => rfl) hs
    · cases hs
  | openWindow p =>
    simp only [Protocol.act] at hs
    split at hs
    · cases hs
      exact h.same (fun _ => rfl) rfl rfl
    · cases hs
  | closeWindow p =>
    simp only [Protocol.act] at hs
    split at hs
    · cases hs
      exact h.same (fun _ => rfl) rfl rfl
    · cases hs
  | cancel p => exact h.cancel ha hs

theorem Kept.rest (h : Kept q) : Kept q.rest := by
  obtain ⟨hstate, hpc, -, hexpected⟩ := rest_frame q
  exact h.same (fun p => by rw [hpc p]) (by rw [hstate]) hexpected

/-- No caller holds the memo table and no generation runs. -/
def Quiet (q : Protocol α) : Prop :=
  q.state.runningGeneration = none ∧ ∀ b ∈ q.parties.entries, b.2.held = none

instance (q : Protocol α) : Decidable q.Quiet := inferInstanceAs (Decidable (_ ∧ _))

/-- At home is the entry of every invocation's last accepted commit, unless invalidated since. -/
def MemoComplete (q : Protocol α) : Prop :=
  q.Quiet → ∀ b ∈ q.history.expected.entries, q.state.memo.lookup b.1 = some b.2

instance (q : Protocol α) : Decidable q.MemoComplete :=
  inferInstanceAs (Decidable (q.Quiet → ∀ b ∈ q.history.expected.entries, _))

/-- When the callers keep the memo table to one of them at a time, no entry is lost. -/
theorem reachable_memoComplete (hq : (machine C).ReachableUnder TablesApart q) :
    q.MemoComplete := by
  have hkept : Kept q := by
    refine Machine.ReachableUnder.invariant hq Kept ?_ fun q a q' h ha hs => ?_
    · rintro q ⟨systems, hooked, rfl⟩
      have hnew : Kept (new systems hooked : Protocol α) := by
        refine ⟨fun p _ hp => absurd rfl hp, fun p memo hp => ?_, fun _ o m hm => ?_⟩
        · cases hp
        · cases hm
      exact hnew.rest
    · obtain ⟨q₁, hact, rfl⟩ := Option.map_eq_some_iff.mp hs
      exact (h.act ha hact).rest
  intro hquiet b hb
  exact hkept.home (held_of_parties hquiet.2) b.1 b.2 (AList.mem_lookup_iff.mpr hb)

section Overlap

/-- One evaluate-phase system with a settled hook. -/
def hookedBowl : Protocol Nat := (new [.new .evaluate none false false []] fun _ => true).rest

def advances (n : Nat) (p : PartyId) : List (Action Nat) := List.replicate n (.advance p)

/-- Caller 1 settles: its first generation commits one row, its second nothing; then it takes
the memo table into its hooks. -/
def intoHooks : List (Action Nat) :=
  .callSettle 1 false :: advances 4 1 ++
    .commit 1 ⟨true, [⟨⟨0, [1]⟩, [.insert 5 1 (.data 7)]⟩], [(⟨0, [1]⟩, ⟨[], 0, 0⟩)], []⟩ .evaluate ::
      advances 14 1

def settledAlone : Protocol Nat :=
  ((machine (Components.plain Nat)).run hookedBowl (intoHooks ++ advances 1 1)).getD hookedBowl

/-- A settle that nobody overlaps brings the table home with the row's entry. -/
theorem settledAlone_memoComplete :
    settledAlone.MemoComplete ∧ settledAlone.Quiet ∧ ⟨0, [1]⟩ ∈ settledAlone.history.expected := by
  have hrun : (machine (Components.plain Nat)).run hookedBowl (intoHooks ++ advances 1 1) =
      some settledAlone := rfl
  have hallowed : (machine (Components.plain Nat)).Allows TablesApart hookedBowl
      (intoHooks ++ advances 1 1) := by decide
  exact ⟨reachable_memoComplete (Machine.ReachableUnder.run (.init ⟨_, _, rfl⟩) hallowed hrun),
    by decide, by decide⟩

/-- Caller 2 enters its hooks, with an empty table, while caller 1 is in its own; it moves that
table back last. -/
def overlapping : List (Action Nat) :=
  intoHooks ++ .callSettle 2 false :: advances 6 2 ++ advances 1 1 ++ advances 1 2

theorem overlapping_settles_lose_memo :
    ∃ q ∈ (machine (Components.plain Nat)).run hookedBowl overlapping, ¬ q.MemoComplete := by
  decide

end Overlap
end Porridge.Protocol
