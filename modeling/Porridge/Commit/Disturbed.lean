import Porridge.Commit.Closure
import Porridge.Commit.Treatment
import Porridge.World.Disturbed

/-! What a commit still does to an entity after the buffer of one of its outputs. -/
namespace Porridge

open World

variable {α : Type} {C : Components α}

section Treatment

variable {w₀ w : World α} {lost : TypeId → Entity → Prop} {o : SystemInvocation} {a : Entity}

theorem World.Sheds.removeDerivedOwned (h : Sheds C lost w₀ w)
    (hlost : ∀ t e, w₀.owner? t e = some o → lost t e) :
    Sheds C lost w₀ (w.removeDerivedOwned C o) := by
  have hforgotten : Sheds C lost w₀ (w.forgetOwner o) := h.congr rfl
  refine List.foldlRecOn (w.outputs o) _ (motive := Sheds C lost w₀) hforgotten fun u hu p _ => ?_
  exact hu.removeDerivedEntry fun howned => hlost p.1 p.2 (hu.owner p.1 p.2 o howned)

theorem World.Sheds.retireOwners : ∀ (owners : List SystemInvocation) {w : World α},
    Sheds C lost w₀ w → (∀ o ∈ owners, ∀ t e, w₀.owner? t e = some o → lost t e) →
      Sheds C lost w₀ (w.retireOwners C owners).1
  | [], _, h, _ => h
  | o :: owners, _, h, hlost => Sheds.retireOwners owners
      (h.removeDerivedOwned (hlost o List.mem_cons_self)) fun o' ho' =>
        hlost o' (List.mem_cons_of_mem o ho')

/-- The outputs of invocations that the removed entities withdraw. -/
def World.Withdrawable (w : World α) (selected : Option (List SystemId)) (removed : List Entity)
    (t : TypeId) (e : Entity) : Prop :=
  ∃ o, w.owner? t e = some o ∧ w.Withdraws selected removed o

/-- The cascade sheds outputs of withdrawn invocations. -/
theorem sheds_retireCascade (selected : Option (List SystemId)) (removed : List Entity)
    (hindexed : w.Indexed fun _ _ => False) (memo : MemoTable) (retired : Bool) :
    Sheds C (w.Withdrawable selected removed) w
      (retireCascade C selected ⟨w, memo, retired⟩ removed.dedup removed.dedup).world := by
  obtain ⟨seen, -, hend⟩ := Worklist.rounds_exhausts
    (fun r : Retirement α => r.world.derivedOwners.keys.length) (retireTouched_drops C selected)
    (fun r seen frontier => Withdrawing C w memo selected removed r seen frontier ∧
      Sheds C (w.Withdrawable selected removed) w r.world)
    (fun r seen frontier hr => ⟨hr.1.next, Sheds.retireOwners _ hr.2 fun o ho t e howned =>
      ⟨o, howned, hr.1.withdraws ho howned⟩⟩)
    (w.derivedOwners.keys.length + 1) ⟨w, memo, retired⟩ removed.dedup removed.dedup
    (Nat.lt_succ_self _) ⟨.start hindexed retired, .refl w⟩
  exact hend

/-- Treating the removals sheds outputs of withdrawn pair-bound invocations, unless an invocation that
lost a component has a memo entry. -/
theorem sheds_reconcileCommit (memo : MemoTable) (s : State α)
    (hindexed : s.world.Indexed fun _ _ => False) :
    Sheds C (fun t e => (∀ o ∈ s.world.removedComponentOwners, o ∉ memo) ∧
        s.world.Withdrawable (some s.pairBoundSystems) s.world.removedEntities t e) s.world
      (reconcileCommit C memo s).2.world := by
  set lost : TypeId → Entity → Prop := fun t e => (∀ o ∈ s.world.removedComponentOwners, o ∉ memo) ∧
    s.world.Withdrawable (some s.pairBoundSystems) s.world.removedEntities t e
  have hdrained : Sheds C lost s.world s.world.drainRemovals := (Sheds.refl _).congr rfl
  unfold reconcileCommit
  dsimp only
  by_cases hquiet : s.world.removedEntities = [] ∧ s.world.removedOwners = [] ∧
      s.world.removedComponentOwners = []
  · rw [if_pos hquiet]
    exact hdrained
  rw [if_neg hquiet]
  cases hlost : (reconcileRemovedOutputOwners none memo s.systems
      s.world.removedComponentOwners).2.2 with
  | true => exact hdrained
  | false =>
    have hunmemoized : ∀ o ∈ s.world.removedComponentOwners, o ∉ memo := by
      intro o ho hmem
      have hretired := (retired_reconcileRemovedOutputOwners none
        s.world.removedComponentOwners memo s.systems).mpr ⟨o, ho, rfl, hmem⟩
      rw [hlost] at hretired
      cases hretired
    have hwithdrawn : ∀ t e, s.world.drainRemovals.Withdrawable (some s.pairBoundSystems)
        s.world.removedEntities t e → lost t e := by
      rintro t e ⟨o, howned, hw⟩
      have hsame : ∀ t e, s.world.owner? t e = s.world.drainRemovals.owner? t e := fun _ _ => rfl
      exact ⟨hunmemoized, o, howned, hw.congr hsame⟩
    have hdrainedIndexed : s.world.drainRemovals.Indexed fun _ _ => False := hindexed
    exact hdrained.trans ((sheds_retireCascade _ _ hdrainedIndexed _ _).mono hwithdrawn)

end Treatment

/-- The treatment of the removals takes the newest tracked component of the entity, or an edge that
points at it. -/
def SystemRun.TreatmentDisturbs (C : Components α) (run : SystemRun α) (memo : MemoTable)
    (s : State α) (w : World α) (a : Entity) : Prop :=
  (∀ o ∈ w.removedComponentOwners, ¬ run.Memoizes memo o) ∧
    w.Bereaves C (w.Withdrawable (some s.pairBoundSystems) w.removedEntities) a

/-- After the buffer of the output, a step of the commit changes the revision of the entity: the sweep
of that output, a later output, the reconciliation of writes in place or the treatment of removals. -/
def SystemRun.DisturbsAfter (C : Components α) (run : SystemRun α) (memo : MemoTable) (s : State α)
    (deferInserts : Bool) (w : World α) (output : SystemOutput α) (after : List (SystemOutput α))
    (a : Entity) : Prop :=
  w.SweepDisturbs C output deferInserts a ∨
    ∃ w', w.applyOutput C output deferInserts = some w' ∧
      (w'.OutputsDisturb C after deferInserts a ∨
        ∃ published,
          after.foldlM (fun w output => w.applyOutput C output deferInserts) w' = some published ∧
            (published.WritesDisturb C run.writes a ∨
              run.TreatmentDisturbs C memo s (published.reconcileWritten C run.writes) a))

section Rest

variable {s s' : State α} {memo after : MemoTable} {run : SystemRun α} {a : Entity}

theorem entityRevision_reconcileCommit (hindexed : s.world.Indexed fun _ _ => False)
    (hmemo : ∀ o, o ∈ after ↔ run.Memoizes memo o)
    (hspared : ¬ run.TreatmentDisturbs C memo s s.world a) :
    (reconcileCommit C after s).2.world.entityRevision C a = s.world.entityRevision C a := by
  by_cases hunmemoized : ∀ o ∈ s.world.removedComponentOwners, o ∉ after
  · refine ((sheds_reconcileCommit after s hindexed).mono fun t e hlost => hlost.2).entityRevision ?_
    refine fun hbereaves => hspared ⟨fun o ho => ?_, hbereaves⟩
    rw [← hmemo]
    exact hunmemoized o ho
  · have hnone := (sheds_reconcileCommit (C := C) after s hindexed).mono
      (fun t e hlost => hunmemoized hlost.1 : ∀ t e, _ → False)
    exact hnone.entityRevision fun hbereaves => by
      obtain ⟨t, -, (⟨hlost, -⟩ | ⟨t', e', hlost, -⟩)⟩ := hbereaves
      · exact hlost
      · exact hlost

end Rest
end Porridge
