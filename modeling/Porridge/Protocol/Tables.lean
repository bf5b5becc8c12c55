import Porridge.Protocol
import Porridge.Retirement

/-! Which sections take entries out of a memo table, and which only add to it. -/
namespace Porridge

variable {α : Type} (C : Components α)

/-- Every entry of the first table is in the second. -/
def MemoTable.Within (a b : MemoTable) : Prop := ∀ o m, a.lookup o = some m → b.lookup o = some m

namespace MemoTable

variable {a b c : MemoTable}

theorem Within.rfl : Within a a := fun _ _ h => h

theorem Within.trans (hab : Within a b) (hbc : Within b c) : Within a c :=
  fun o m h => hbc o m (hab o m h)

theorem Within.erase (h : Within a b) (o : SystemInvocation) : Within (a.erase o) b := by
  intro o' m hm
  rw [Dict.lookup_erase] at hm
  split_ifs at hm
  exact h o' m hm

theorem Within.insert (h : Within a b) (o : SystemInvocation) (m : MemoEntry) :
    Within (a.insert o m) (b.insert o m) := by
  intro o' m' hm
  rw [Dict.lookup_insert] at hm ⊢
  split_ifs at hm ⊢
  · exact hm
  · exact h o' m' hm

end MemoTable

open MemoTable

theorem lookup_carry (before after expected : MemoTable) (o : SystemInvocation) :
    (carry before after expected).lookup o =
      if o ∉ before ∨ o ∈ after then expected.lookup o else none := by
  unfold carry
  rw [Dict.lookup_retain_key]
  by_cases h : o ∉ before ∨ o ∈ after <;> simp [h]

theorem within_carry (before after expected : MemoTable) :
    Within (carry before after expected) expected := by
  intro o m hm
  rw [lookup_carry] at hm
  split_ifs at hm
  exact hm

/-- Carried along a section that only takes entries out, an expectation stays met. -/
theorem MemoTable.Within.carry {before after expected : MemoTable} (h : Within expected before)
    (hout : Within after before) : Within (carry before after expected) after := by
  intro o m hm
  have hexpected : expected.lookup o = some m := within_carry before after expected o m hm
  have hbefore : before.lookup o = some m := h o m hexpected
  rw [lookup_carry] at hm
  split_ifs at hm with hkept
  have hmem : o ∈ after := by
    refine hkept.resolve_left fun habsent => habsent ?_
    exact AList.lookup_isSome.mp (by rw [hbefore]; rfl)
  obtain ⟨m', hm'⟩ := Option.isSome_iff_exists.mp (AList.lookup_isSome.mpr hmem)
  have heq : m' = m := Option.some.inj ((hout o m' hm').symm.trans hbefore)
  exact heq ▸ hm'

section Sections

theorem within_reconcileRemovedOutputOwners (selected : Option (List SystemId))
    (owners : List SystemInvocation) (memo : MemoTable) (systems : List BoxedSystem) :
    Within (reconcileRemovedOutputOwners selected memo systems owners).1 memo := by
  intro o m hm
  rw [lookup_reconcileRemovedOutputOwners] at hm
  split_ifs at hm
  exact hm

theorem within_reconcileRemovedInvocations (w : World α) (memo : MemoTable)
    (removed : List Entity) (removedOwners : List SystemInvocation) (systems : List BoxedSystem)
    (selected : Option (List SystemId)) :
    Within (reconcileRemovedInvocations C w memo removed removedOwners systems selected).1.memo
      memo := by
  have hshrinks := shrinks_rounds C selected (w.derivedOwners.keys.length + 1)
    ⟨w, (reconcileRemovedOutputOwners selected memo systems removedOwners).1,
      (reconcileRemovedOutputOwners selected memo systems removedOwners).2.2⟩ removed.dedup
    removed.dedup
  have hcascade : Within (reconcileRemovedInvocations C w memo removed removedOwners systems
      selected).1.memo (reconcileRemovedOutputOwners selected memo systems removedOwners).1 :=
    hshrinks.memo
  exact hcascade.trans (within_reconcileRemovedOutputOwners selected removedOwners memo systems)

theorem within_reconcileCommit (memo : MemoTable) (s : State α) :
    Within (reconcileCommit C memo s).1 memo := by
  have howners := within_reconcileRemovedOutputOwners none s.world.removedComponentOwners memo
    s.systems
  unfold reconcileCommit
  dsimp only
  split_ifs
  · exact Within.rfl
  · exact howners
  · exact (within_reconcileRemovedInvocations C _ _ _ _ _ _).trans howners
  · exact (within_reconcileRemovedInvocations C _ _ _ _ _ _).trans howners

theorem MemoTable.Within.publishMemo {a b : MemoTable} (h : Within a b) (w : World α) (settleEpoch : Nat)
    (run : SystemRun α) :
    Within (Porridge.publishMemo w settleEpoch run a) (Porridge.publishMemo w settleEpoch run b) := by
  unfold Porridge.publishMemo
  generalize run.memoUpdates = updates
  induction updates generalizing a b with
  | nil => exact h
  | cons update updates ih => exact ih (h.insert _ _)

/-- An expectation met by the table of a commit is met after it. -/
theorem History.within_commit {h : History α} {memo after : MemoTable} {s s' : State α}
    {run : SystemRun α} {phase : Option Phase} {progress : CommitProgress}
    (hw : Within h.expected memo)
    (hc : commitSystemRun C memo s run phase = some (after, s', progress)) :
    Within (if progress.stale then h
      else h.commit C memo after s run (phase = some .settle)).expected after := by
  unfold commitSystemRun at hc
  split_ifs at hc with hcurrent
  · obtain ⟨published, hpublished, hc⟩ := Option.bind_eq_some_iff.mp hc
    cases hc
    have hafter := within_reconcileCommit C published.1 published.2
    have hmemo : published.1 = publishMemo published.2.world s.settleEpoch run memo := by
      obtain ⟨u, -, hu⟩ := Option.bind_eq_some_iff.mp hpublished
      cases hu
      rfl
    have hcommitted : Within (h.commit C memo (reconcileCommit C published.1 published.2).1 s run
        (phase = some .settle)).expected (reconcileCommit C published.1 published.2).1 := by
      unfold History.commit
      rw [hpublished]
      refine Within.carry ?_ hafter
      rw [hmemo]
      exact hw.publishMemo _ _ _
    exact hcommitted
  · cases hc
    exact hw

theorem within_startEvaluation {s : State α} {started : Started α}
    (h : startEvaluation C s = some (some started)) : Within started.memo s.memo := by
  unfold startEvaluation at h
  split at h
  · cases h
  · obtain ⟨applied, ha, hlaunch⟩ := Option.bind_eq_some_iff.mp h
    cases hlaunch
    have hmemo : applied.memo = s.memo := by
      simp only [applyInputs, Option.bind_eq_bind, Option.bind_eq_some_iff, Option.pure_def,
        Option.some.injEq] at ha
      obtain ⟨settled, -, based, -, flushed, -, rfl⟩ := ha
      change (compactPlanLog _).memo = s.memo
      unfold compactPlanLog
      split <;> rfl
    have hlosers : Within (reconcileInputLosers applied).memo applied.memo :=
      within_reconcileRemovedOutputOwners none _ applied.memo applied.systems
    have hcascade : Within (reconcileInputs C applied).memo (reconcileInputLosers applied).memo :=
      within_reconcileRemovedInvocations C _ _ _ _ _ _
    rw [← hmemo]
    exact hcascade.trans hlosers

theorem within_healStaleAmbient {attempts : Dict SystemInvocation Nat} {s : State α}
    {r : Bool × Dict SystemInvocation Nat × State α} (h : healStaleAmbient attempts s = some r) :
    Within r.2.2.memo s.memo := by
  obtain ⟨healed, hfold, rfl⟩ := Option.map_eq_some_iff.mp h
  refine List.foldlM_some_induction
    (fun r : Dict SystemInvocation Nat × State α => Within r.2.memo s.memo) _ hfold Within.rfl ?_
  rintro r victim r' - hr hstep
  simp only [healVictim] at hstep
  split_ifs at hstep
  cases hstep
  exact hr.erase victim

theorem within_cleanupBoundEntities (s : State α) (entities : List Entity) :
    Within (cleanupBoundEntities C s entities).memo s.memo := by
  have hshrinks := shrinks_rounds C none (s.world.derivedOwners.keys.length + 1)
    ⟨s.world, s.memo, false⟩ [] entities.dedup
  have hretired : ∀ (owners : List SystemInvocation) (r : Retirement α),
      Within r.memo s.memo → Within (owners.foldl (retireOwner C) r).memo s.memo := by
    intro owners
    induction owners with
    | nil => exact fun r hr => hr
    | cons o owners ih => exact fun r hr => ih (retireOwner C r o) (hr.erase o)
  exact hretired _ _ hshrinks.memo

theorem within_closeBound (settled : Bool) (s : State α) (entities : List Entity) :
    Within (closeBound C settled s entities).memo s.memo := by
  have hcleaned := within_cleanupBoundEntities C s entities
  unfold closeBound State.publishSettledRevision
  dsimp only
  split_ifs <;> exact hcleaned

end Sections
end Porridge
