import Porridge.PhaseLoop
import Porridge.Reservations.Ledger

/-! The runs in flight are those the reservations hold, and what each section does to them. -/
namespace Porridge

/-- A run is a single row that reserves what it declares, or a batch that reserves nothing. -/
def PlannedSystemRun.Shaped (run : PlannedSystemRun) : Prop :=
  run.access = [] ∨ ∃ row, run.rows = [row] ∧ row.access = run.access ∧ row.owner = run.owner

section Planning

variable {α : Type} {C : Components α} {system : SystemId} {w : World α} {memo : MemoTable}
  {hint : Option (List Entity)}

/-- Wrapping makes one batch of what there is to run. -/
theorem mem_wrapRuns {startHooks completeHooks : Nat} {inner : List PlannedSystemRun}
    {run : PlannedSystemRun} (h : run ∈ wrapRuns system w startHooks completeHooks inner) :
    run.access = [] ∧ run.owner = ⟨system, []⟩ ∧ run.rows = inner.flatMap PlannedSystemRun.rows := by
  unfold wrapRuns at h
  split_ifs at h
  · cases h
  · rw [List.mem_singleton] at h
    subst h
    exact ⟨rfl, rfl, rfl⟩

/-- Every planned run has the shape of a row or of a batch. -/
theorem Runnable.shaped_of_mem_streamRuns : ∀ {s : Runnable} {runs : List PlannedSystemRun},
    s.streamRuns C system w memo hint = some runs → ∀ run ∈ runs, run.Shaped
  | .function ps, runs, h, run, hrun => by
    obtain ⟨rows, -, rfl⟩ := Option.map_eq_some_iff.mp h
    obtain ⟨row, -, rfl⟩ := List.mem_map.mp hrun
    exact Or.inr ⟨row, rfl, rfl, rfl⟩
  | .onStart inner, runs, h, run, hrun => by
    obtain ⟨planned, -, rfl⟩ := Option.map_eq_some_iff.mp h
    exact Or.inl (mem_wrapRuns hrun).1
  | .onComplete inner, runs, h, run, hrun => by
    obtain ⟨planned, -, rfl⟩ := Option.map_eq_some_iff.mp h
    exact Or.inl (mem_wrapRuns hrun).1
  | .onSettled inner, runs, h, run, hrun => shaped_of_mem_streamRuns (s := inner) h run hrun

end Planning

namespace PhaseLoop

variable {α : Type}

def queue (l : PhaseLoop α) : List (SystemId × PlannedSystemRun) :=
  match l.stage with
  | .planning wave => wave.queue
  | _ => []

/-- The reservations hold exactly the runs in flight. -/
structure Tracked (l : PhaseLoop α) : Prop where
  held : ∃ ledger : Ledger, l.reservations.Represents ledger ∧
    ∀ id x, ledger id = some x ↔ ∃ run, (id, run) ∈ l.running ∧ x = ⟨run.owner, run.access⟩
  single : (l.running.map Prod.fst).Nodup
  shaped : ∀ x ∈ l.running, x.2.Shaped
  queued : ∀ x ∈ l.queue, x.2.Shaped

/-- Nothing in flight keeps the run from being admitted. -/
def Admits (l : PhaseLoop α) (run : PlannedSystemRun) : Prop :=
  (∀ x ∈ l.running, x.2.owner ≠ run.owner) ∧
    ∀ x ∈ l.running, ∀ a ∈ run.access, ∀ b ∈ x.2.access, a.conflicts b = false

instance (l : PhaseLoop α) (run : PlannedSystemRun) : Decidable (l.Admits run) :=
  inferInstanceAs (Decidable (_ ∧ _))

variable {l : PhaseLoop α}

theorem tracked_enter {phase : Phase} {registry : Dict TypeId Nat} {n : Nat}
    (h : PresenceIndex.Dense registry n) : (enter phase registry : PhaseLoop α).Tracked where
  held := by
    refine ⟨.empty, Reservations.represents_new ?_ h.inj, ?_⟩
    · intro t slot ht
      rw [h.size]
      exact h.lt t slot ht
    · intro id x
      constructor
      · exact fun hx => nomatch hx
      · rintro ⟨run, hrun, -⟩
        cases hrun
  single := List.nodup_nil
  shaped _ hx := nomatch hx
  queued _ hx := nomatch hx

end PhaseLoop

namespace Program

variable {α : Type} (P : Program α)

theorem dense_componentRegistry : ∃ n, PresenceIndex.Dense P.componentRegistry n := by
  unfold componentRegistry
  split
  · exact ⟨0, rfl, fun _ _ h => (nomatch h), fun _ _ _ h => nomatch h⟩
  · exact ⟨_, (PresenceIndex.dense_new (PresenceIndex.nodup_universeOf _)).1⟩

end Program

namespace Runner

variable {α : Type} {P : Program α} {r r' : Runner α}

/-- What a section does to the runs in flight: it admits the first queued run, or it adds none. -/
inductive Flies (r r' : Runner α) : Prop where
  | admitted {snapshot : World α} {systems : List SystemId} {system : SystemId}
      {run : PlannedSystemRun} {queue : List (SystemId × PlannedSystemRun)} {id : RunId}
      (hstage : r.loop.stage = .planning ⟨snapshot, systems, (system, run) :: queue⟩)
      (hadmits : r.loop.Admits run)
      (hrunning : r'.loop.running = r.loop.running ++ [(id, run)]) : Flies r r'
  | kept (hrunning : r'.loop.running.Sublist r.loop.running)
      (hadmits : ∀ snapshot systems system run queue,
        r.loop.stage = .planning ⟨snapshot, systems, (system, run) :: queue⟩ →
          ¬ r.loop.Admits run) : Flies r r'

theorem tracked_of_same {l : PhaseLoop α} (h : r.loop.Tracked)
    (hreservations : l.reservations = r.loop.reservations)
    (hrunning : l.running = r.loop.running) (hqueue : ∀ x ∈ l.queue, x.2.Shaped) : l.Tracked where
  held := by rw [hreservations, hrunning]; exact h.held
  single := by rw [hrunning]; exact h.single
  shaped := by rw [hrunning]; exact h.shaped
  queued := hqueue

/-- The reservations admit a run exactly where nothing in flight keeps it back. -/
theorem tracked_admitNext (h : r.loop.Tracked) (hs : r.admitNext = some r') :
    r'.loop.Tracked ∧ Flies r r' := by
  unfold admitNext at hs
  split at hs
  · rename_i snapshot systems system run queue hstage
    obtain ⟨⟨answer, reservations⟩, hanswer, hs⟩ := Option.bind_eq_some_iff.mp hs
    obtain ⟨ledger, hledger, hheld⟩ := h.held
    obtain ⟨ledger', hadmission, hledger'⟩ := hledger.admitRun hanswer
    have hqueued : ∀ x ∈ (system, run) :: queue, x.2.Shaped := by
      intro x hx
      refine h.queued x ?_
      unfold PhaseLoop.queue
      rw [hstage]
      exact hx
    have hrest : ∀ x ∈ queue, x.2.Shaped := fun x hx => hqueued x (List.mem_cons_of_mem _ hx)
    have hactive : ledger.Active run.owner ↔ ∃ x ∈ r.loop.running, x.2.owner = run.owner := by
      constructor
      · rintro ⟨id, x, hx, howner⟩
        obtain ⟨other, hother, rfl⟩ := (hheld id x).mp hx
        exact ⟨_, hother, howner⟩
      · rintro ⟨⟨id, other⟩, hother, howner⟩
        exact ⟨id, _, (hheld id _).mpr ⟨other, hother, rfl⟩, howner⟩
    have hconflict : ledger.Conflicts run.access ↔
        ∃ x ∈ r.loop.running, ∃ a ∈ run.access, ∃ b ∈ x.2.access, a.conflicts b = true := by
      constructor
      · rintro ⟨a, ha, id, x, hx, b, hb, hab⟩
        obtain ⟨other, hother, rfl⟩ := (hheld id x).mp hx
        exact ⟨_, hother, a, ha, b, hb, hab⟩
      · rintro ⟨⟨id, other⟩, hother, a, ha, b, hb, hab⟩
        exact ⟨a, ha, id, _, (hheld id _).mpr ⟨other, hother, rfl⟩, b, hb, hab⟩
    have hrefused : ∀ {l : PhaseLoop α}, ledger' = ledger → l.reservations = reservations →
        l.running = r.loop.running → (∀ x ∈ l.queue, x.2.Shaped) → l.Tracked := by
      intro l heq hreservations hrunning hqueue
      refine ⟨⟨ledger, ?_, ?_⟩, ?_, ?_, hqueue⟩
      · rw [hreservations]
        exact heq ▸ hledger'
      · rw [hrunning]
        exact hheld
      · rw [hrunning]
        exact h.single
      · rw [hrunning]
        exact h.shaped
    cases hadmission with
    | duplicate hdup =>
      cases hs
      refine ⟨hrefused rfl rfl rfl hrest, .kept (List.Sublist.refl _) ?_⟩
      intro _ _ _ _ _ hstage' hadmits
      cases hstage.symm.trans hstage'
      obtain ⟨x, hx, howner⟩ := hactive.mp hdup
      exact hadmits.1 x hx howner
    | conflict hinactive hclash =>
      cases hs
      refine ⟨hrefused rfl rfl rfl hrest, .kept (List.Sublist.refl _) ?_⟩
      intro _ _ _ _ _ hstage' hadmits
      cases hstage.symm.trans hstage'
      obtain ⟨x, hx, a, ha, b, hb, hab⟩ := hconflict.mp hclash
      rw [hadmits.2 x hx a ha b hb] at hab
      cases hab
    | @admitted id hinactive hfree hid =>
      cases hs
      have hfresh : ∀ other, (id, other) ∉ r.loop.running := by
        intro other hmem
        rw [(hheld id _).mpr ⟨other, hmem, rfl⟩] at hid
        cases hid
      refine ⟨⟨⟨_, hledger', ?_⟩, ?_, ?_, hrest⟩, .admitted hstage ⟨?_, ?_⟩ rfl⟩
      · intro id' x
        unfold Ledger.put
        dsimp only
        by_cases heq : id' = id
        · subst heq
          rw [if_pos rfl]
          constructor
          · intro hx
            cases hx
            exact ⟨run, List.mem_append_right _ (List.mem_singleton_self _), rfl⟩
          · rintro ⟨other, hother, rfl⟩
            rcases List.mem_append.mp hother with hother | hother
            · exact absurd hother (hfresh other)
            · cases List.mem_singleton.mp hother
              rfl
        · rw [if_neg heq, hheld]
          refine exists_congr fun other => and_congr_left fun _ => ?_
          rw [List.mem_append, List.mem_singleton]
          constructor
          · exact Or.inl
          · rintro (hmem | hmem)
            · exact hmem
            · exact absurd (congrArg Prod.fst hmem) heq
      · dsimp only
        rw [List.map_append]
        refine List.nodup_append.mpr ⟨h.single, List.nodup_singleton _, ?_⟩
        intro a ha b hb heq
        obtain ⟨x, hx, rfl⟩ := List.mem_map.mp ha
        have hb : b = id := List.mem_singleton.mp hb
        exact hfresh x.2 (by rw [← hb, ← heq]; exact hx)
      · intro x hx
        rcases List.mem_append.mp hx with hx | hx
        · exact h.shaped x hx
        · rw [List.mem_singleton.mp hx]
          exact hqueued _ List.mem_cons_self
      · exact fun x hx howner => hinactive (hactive.mpr ⟨x, hx, howner⟩)
      · intro x hx a ha b hb
        by_contra hne
        exact hfree (hconflict.mpr ⟨x, hx, a, ha, b, hb, Bool.eq_true_of_not_eq_false hne⟩)
  · cases hs

theorem flies_of_same (hrunning : r'.loop.running = r.loop.running)
    (hstage : ∀ snapshot systems x queue,
      r.loop.stage ≠ .planning ⟨snapshot, systems, x :: queue⟩) : Flies r r' :=
  .kept (hrunning ▸ List.Sublist.refl _) fun _ _ _ _ _ h => absurd h (hstage _ _ _ _)

theorem tracked_planNext (h : r.loop.Tracked) (hs : r.planNext P = some r') :
    r'.loop.Tracked ∧ Flies r r' := by
  unfold planNext at hs
  split at hs
  · rename_i snapshot id rest hstage
    have hnone : ∀ snapshot' systems x queue,
        r.loop.stage ≠ .planning ⟨snapshot', systems, x :: queue⟩ := by
      intro _ _ _ _ hstage'
      cases hstage.symm.trans hstage'
    obtain ⟨system, -, hs⟩ := Option.bind_eq_some_iff.mp hs
    obtain ⟨⟨phase, runnable⟩, -, hs⟩ := Option.bind_eq_some_iff.mp hs
    dsimp only at hs
    by_cases hneeds : system.phase = r.loop.phase ∧ system.peekNeedsPlanning snapshot = true
    · rw [if_pos hneeds] at hs
      obtain ⟨runs, hruns, hs⟩ := Option.bind_eq_some_iff.mp hs
      cases hs
      refine ⟨tracked_of_same h rfl rfl fun x hx => ?_, flies_of_same rfl hnone⟩
      obtain ⟨run, hrun, rfl⟩ := List.mem_map.mp hx
      exact Runnable.shaped_of_mem_streamRuns hruns run hrun
    · rw [if_neg hneeds] at hs
      cases hs
      exact ⟨tracked_of_same h rfl rfl fun _ hx => (nomatch hx), flies_of_same rfl hnone⟩
  · cases hs

theorem tracked_turn (h : r.loop.Tracked) (hs : r.turn = some r') :
    r'.loop.Tracked ∧ Flies r r' := by
  unfold turn at hs
  split at hs
  · rename_i hstage
    have hnone : ∀ snapshot systems x queue,
        r.loop.stage ≠ .planning ⟨snapshot, systems, x :: queue⟩ := by
      intro _ _ _ _ hstage'
      cases hstage.symm.trans hstage'
    split_ifs at hs <;> cases hs
    all_goals exact ⟨tracked_of_same h rfl rfl fun _ hx => (nomatch hx), flies_of_same rfl hnone⟩
  · cases hs

theorem tracked_endWave (h : r.loop.Tracked) (hs : r.endWave = some r') :
    r'.loop.Tracked ∧ Flies r r' := by
  unfold endWave at hs
  split at hs
  · rename_i hstage
    cases hs
    refine ⟨tracked_of_same h rfl rfl fun _ hx => (nomatch hx), flies_of_same rfl ?_⟩
    intro _ _ _ _ hstage'
    cases hstage.symm.trans hstage'
  · cases hs

theorem tracked_interrupt (h : r.loop.Tracked) (hs : r.interrupt = some r') :
    r'.loop.Tracked ∧ Flies r r' := by
  unfold interrupt at hs
  split at hs
  · rename_i hstage
    cases hs
    refine ⟨tracked_of_same h rfl rfl fun _ hx => (nomatch hx), flies_of_same rfl ?_⟩
    intro _ _ _ _ hstage'
    cases hstage.symm.trans hstage'
  · cases hs

theorem tracked_endBatch (h : r.loop.Tracked) (hs : r.endBatch = some r') :
    r'.loop.Tracked ∧ Flies r r' := by
  unfold endBatch at hs
  split at hs
  · rename_i hstage
    cases hs
    refine ⟨tracked_of_same h rfl rfl fun _ hx => (nomatch hx), flies_of_same rfl ?_⟩
    intro _ _ _ _ hstage'
    cases hstage.symm.trans hstage'
  · cases hs

/-- The runs that stay in flight when the table keeps the records that `keep` selects. -/
theorem tracked_of_filter {l : PhaseLoop α} {ledger ledger' : Ledger} (keep : RunId → Bool)
    (h : r.loop.Tracked)
    (hheld : ∀ id x, ledger id = some x ↔
      ∃ run, (id, run) ∈ r.loop.running ∧ x = ⟨run.owner, run.access⟩)
    (hrepresents : l.reservations.Represents ledger')
    (hkept : ∀ id, ledger' id = if keep id = true then ledger id else none)
    (hrunning : l.running = r.loop.running.filter fun x => keep x.1)
    (hqueue : ∀ x ∈ l.queue, x.2.Shaped) : l.Tracked where
  held := by
    refine ⟨ledger', hrepresents, fun id x => ?_⟩
    rw [hkept, hrunning]
    constructor
    · intro hx
      split_ifs at hx with hkeep
      obtain ⟨run, hrun, rfl⟩ := (hheld id x).mp hx
      exact ⟨run, List.mem_filter.mpr ⟨hrun, hkeep⟩, rfl⟩
    · rintro ⟨run, hrun, rfl⟩
      obtain ⟨hrun, hkeep⟩ := List.mem_filter.mp hrun
      rw [if_pos hkeep]
      exact (hheld id _).mpr ⟨run, hrun, rfl⟩
  single := by
    rw [hrunning]
    exact h.single.sublist (List.filter_sublist.map _)
  shaped x hx := by
    rw [hrunning] at hx
    exact h.shaped x (List.mem_filter.mp hx).1
  queued := hqueue

/-- The table has a record for exactly the runs that it holds. -/
theorem contains_eq {reservations : Reservations} {ledger : Ledger}
    (h : reservations.Represents ledger) (id : RunId) :
    reservations.contains id = (ledger id).isSome := by
  unfold Reservations.contains
  cases hx : ledger id with
  | none =>
    rw [h.fresh id hx]
    rfl
  | some x =>
    obtain ⟨record, hget, -⟩ := h.record id x hx
    rw [hget]
    rfl

theorem tracked_preempt (h : r.loop.Tracked) (hs : r.preempt = some r') :
    r'.loop.Tracked ∧ Flies r r' ∧
      r'.loop.running = r.loop.running.filter fun x => x.2.access.any (·.kind == .write) := by
  unfold preempt at hs
  split at hs
  · rename_i hstage
    obtain ⟨reservations, hcancelled, hs⟩ := Option.bind_eq_some_iff.mp hs
    cases hs
    obtain ⟨ledger, hledger, hheld⟩ := h.held
    obtain ⟨r', hr', hwriters⟩ := hledger.cancelReaders
    cases hcancelled.symm.trans hr'
    refine ⟨?_, .kept List.filter_sublist fun _ _ _ _ _ hstage' => ?_, ?_⟩
    · refine tracked_of_filter reservations.contains h hheld hwriters (fun id => ?_) rfl
        fun _ hx => nomatch hx
      rw [contains_eq hwriters]
      unfold Ledger.writers
      cases ledger id with
      | none => rfl
      | some x =>
        rw [Option.filter_some]
        split_ifs <;> simp_all
    · cases hstage.symm.trans hstage'
    · refine List.filter_congr fun x hx => ?_
      have hrecord : ledger x.1 = some ⟨x.2.owner, x.2.access⟩ :=
        (hheld x.1 _).mpr ⟨x.2, hx, rfl⟩
      rw [contains_eq hwriters]
      unfold Ledger.writers
      rw [hrecord, Option.filter_some]
      split_ifs with hany <;> simp [hany]
  · cases hs

theorem tracked_settleRun (h : r.loop.Tracked) {id : RunId} {outcome : RunOutcome α}
    {replan : Bool} {onwards : CommitProgress → Stage α}
    (hqueue : ∀ progress wave, onwards progress ≠ .planning wave)
    (hs : r.settleRun P id outcome replan onwards = some r') :
    r'.loop.Tracked ∧ r'.loop.running.Sublist r.loop.running := by
  obtain ⟨⟨_, run⟩, -, hs⟩ := Option.bind_eq_some_iff.mp hs
  dsimp only at hs
  split_ifs at hs with hfits
  obtain ⟨⟨memo, state, progress⟩, -, hs⟩ := Option.bind_eq_some_iff.mp hs
  obtain ⟨⟨owner, reservations⟩, hremove, hs⟩ := Option.bind_eq_some_iff.mp hs
  obtain ⟨owner', -, hs⟩ := Option.bind_eq_some_iff.mp hs
  cases hs
  obtain ⟨ledger, hledger, hheld⟩ := h.held
  obtain ⟨r', hr', hput⟩ := hledger.remove id
  cases hremove.symm.trans hr'
  refine ⟨tracked_of_filter (fun id' => decide (id' ≠ id)) h hheld hput (fun id' => ?_) rfl
    fun x hx => ?_, List.filter_sublist⟩
  · unfold Ledger.put
    by_cases heq : id' = id
    · simp [heq]
    · simp [heq]
  · unfold PhaseLoop.queue at hx
    dsimp only at hx
    split at hx
    · rename_i hstage
      exact absurd hstage (hqueue _ _)
    · cases hx

theorem tracked_finish (h : r.loop.Tracked) {id : RunId} {outcome : RunOutcome α}
    (hs : r.finish P id outcome = some r') : r'.loop.Tracked ∧ Flies r r' := by
  have hflies : ∀ {replan : Bool} {onwards : CommitProgress → Stage α},
      (∀ progress wave, onwards progress ≠ .planning wave) →
        (∀ wave, r.loop.stage ≠ .planning wave) →
          r.settleRun P id outcome replan onwards = some r' → r'.loop.Tracked ∧ Flies r r' := by
    intro replan onwards honwards hstage hs
    obtain ⟨htracked, hsub⟩ := tracked_settleRun h honwards hs
    exact ⟨htracked, .kept hsub fun _ _ _ _ _ h => absurd h (hstage _)⟩
  unfold finish at hs
  split at hs
  · rename_i hstage
    refine hflies ?_ ?_ hs <;> simp [hstage]
  · rename_i hstage
    refine hflies ?_ ?_ hs <;> simp [hstage]
  · rename_i hstage
    refine hflies ?_ ?_ hs <;> simp [hstage]
  · cases hs

/-- Every section keeps the reservations in step with what is in flight. -/
theorem tracked_step (h : r.loop.Tracked) {a : PhaseStep α} (hs : r.step P a = some r') :
    r'.loop.Tracked ∧ Flies r r' := by
  cases a with
  | turn => exact tracked_turn h hs
  | planNext => exact tracked_planNext h hs
  | admitNext => exact tracked_admitNext h hs
  | endWave => exact tracked_endWave h hs
  | interrupt => exact tracked_interrupt h hs
  | preempt =>
    obtain ⟨htracked, hflies, -⟩ := tracked_preempt h hs
    exact ⟨htracked, hflies⟩
  | finish id outcome => exact tracked_finish h hs
  | endBatch => exact tracked_endBatch h hs

end Runner
end Porridge
