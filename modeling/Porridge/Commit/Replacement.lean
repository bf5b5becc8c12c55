import Porridge.Commit.Disturbed
import Porridge.World.Replacement

/-! An accepted commit of one output replaces what its owner emitted before. -/
namespace Porridge

variable {α : Type} (C : Components α)

namespace World

theorem reconcileWritten_removedEntities (w : World α) (writes : List (TypeId × Entity)) :
    (w.reconcileWritten C writes).removedEntities = w.removedEntities := by
  refine List.foldlRecOn writes _ (motive := fun u : World α => u.removedEntities = w.removedEntities) rfl
    fun (u : World α) hu p _ => ?_
  dsimp only
  split_ifs
  · refine Eq.trans ?_ hu
    show (u.reconcileEntry C p.1 p.2).removedEntities = u.removedEntities
    unfold reconcileEntry
    split
    · rfl
    · unfold restampEntry
      split
      · rfl
      · split_ifs <;> rfl
  · exact hu

end World

/-- The second world is the first without outputs of invocations withdrawn from it. -/
structure World.Withdrawn (C : Components α) (selected : Option (List SystemId))
    (removed : List Entity) (w w' : World α) : Prop where
  owners : ∀ t e o, w'.owner? t e = some o → w.owner? t e = some o
  plain : ∀ t e, ¬ C.IsInverse t → w'.cell? t e = w.cell? t e ∨ w'.cell? t e = none ∧
    ∃ o, w.owner? t e = some o ∧ w.Withdraws selected removed o
  quiet : removed = [] → w'.stores = w.stores

section Withdrawn

variable {C} {w w' : World α} {selected : Option (List SystemId)} {removed : List Entity}

variable (C) in
/-- Treating the removals of a commit only takes outputs of withdrawn pair-bound invocations. -/
theorem withdrawn_reconcileCommit (memo : MemoTable) (s : State α)
    (hindexed : s.world.Indexed fun _ _ => False) :
    s.world.Withdrawn C (some s.pairBoundSystems) s.world.removedEntities
      (reconcileCommit C memo s).2.world := by
  have hshed := sheds_reconcileCommit (C := C) memo s hindexed
  refine ⟨hshed.owner, fun t e ht => ?_, fun hnone => ?_⟩
  · rcases hshed.cell t e with hsame | ⟨hlost, hgone⟩ | ⟨t', e', -, hedge⟩
    · exact Or.inl hsame
    · exact Or.inr ⟨hgone, hlost.2⟩
    · exact absurd (World.isInverse_edgeOn C hedge) ht
  · unfold reconcileCommit
    dsimp only
    rw [hnone]
    split_ifs <;> rfl

end Withdrawn

/-- The pair held an output of a withdrawn invocation when its output was published, and is empty
after the commit. -/
def World.Retired (published : World α) (selected : Option (List SystemId))
    (removed : List Entity) (w : World α) (t : TypeId) (e : Entity) : Prop :=
  w.cell? t e = none ∧ ∃ o, published.owner? t e = some o ∧ published.Withdraws selected removed o

section Retired

variable {C} {w published w' : World α} {o : SystemInvocation} {edits : List (Edit α)}
  {selected : Option (List SystemId)} {removed : List Entity} {writes : List (TypeId × Entity)}

/-- Reconciling and withdrawing leave a plain pair as it was published, or retire it. -/
theorem World.Withdrawn.shown_or_retired
    (h : (published.reconcileWritten C writes).Withdrawn C selected removed w') {t : TypeId}
    {e : Entity} (ht : ¬ C.IsInverse t) :
    w'.cell? t e = (published.reconcileWritten C writes).cell? t e ∨
      published.Retired selected removed w' t e := by
  have howners := (sameOwnership_reconcileWritten C published writes).1
  refine (h.plain t e ht).imp_right fun hgone => ?_
  obtain ⟨hnone, o, ho, hw⟩ := hgone
  exact ⟨hnone, o, (howners t e).symm.trans ho, hw.congr fun t e => (howners t e).symm⟩

theorem World.Replaced.withdrawn
    (h : w.Replaced C o edits [] (fun _ _ => False) published)
    (hplain : ∀ d ∈ edits, d.Plain C)
    (hw : (published.reconcileWritten C writes).Withdrawn C selected removed w')
    (hremoved : w.removedEntities = [] → (∀ e, Edit.purge e ∉ edits) → removed = []) :
    w.Replaced C o edits writes (published.Retired selected removed w') w' := by
  have hstandalone : ∀ {t e}, (∃ v, lastEmitted edits t e = some v) → C.Standalone t := by
    rintro t e ⟨v, hv⟩
    exact (hplain _ (put_mem_of_lastEmitted hv)).1
  have hinverse : ∀ {t}, ¬ C.Related t → ¬ C.IsInverse t := fun ht hinverse =>
    ht (Or.inr (Or.inl hinverse))
  have hkept : ∀ {t e}, ¬ C.Related t → ¬ published.Retired selected removed w' t e →
      w'.cell? t e = (published.reconcileWritten C writes).cell? t e := fun ht hlost =>
    (hw.shown_or_retired (hinverse ht)).resolve_right hlost
  have howners : ∀ t e, (published.reconcileWritten C writes).owner? t e = published.owner? t e :=
    (World.sameOwnership_reconcileWritten C published writes).1
  constructor
  · intro t e
    constructor
    · intro ho
      have hpublished := (howners t e).symm.trans (hw.owners t e o ho)
      refine ⟨((h.owns t e).mp hpublished).1, fun hlost => ?_⟩
      rw [World.owner?, hlost.1] at ho
      cases ho
    · rintro ⟨hv, hlost⟩
      rw [World.owner?, hkept (hstandalone hv).not_related hlost]
      exact (howners t e).trans ((h.owns t e).mpr ⟨hv, id⟩)
  · intro t e v hv hlost
    obtain ⟨x, hx, hvalue⟩ := h.holds t e v hv id
    have hshown := World.shown_reconcileWritten C published writes t e
    rw [World.shown, ← hkept (hstandalone ⟨v, hv⟩).not_related hlost, World.shown, hx] at hshown
    obtain ⟨y, hy, hsame⟩ := Option.map_eq_some_iff.mp hshown
    exact ⟨y, hy, (congrArg Prod.fst hsame).trans hvalue⟩
  · intro t e x f hlast hlost hnot hx htracked hf hsame
    have ht := (hstandalone (Option.isSome_iff_exists.mp hlast)).not_related
    rw [World.revisionByType, hkept ht hlost, World.cell?_reconcileWritten C published hnot]
    exact h.keeps t e x f hlast id List.not_mem_nil hx htracked hf hsame
  · intro t e ht howner hnot hlost hwrites
    rw [hkept ht hlost, World.cell?_reconcileWritten C published hwrites]
    exact h.frame t e ht howner hnot id List.not_mem_nil
  · intro hdrained hpurge hedges t e howner hnot hwrites
    rw [World.cell?_congr (hw.quiet (hremoved hdrained hpurge)),
      World.cell?_reconcileWritten C published hwrites]
    exact h.edgeless hdrained hpurge hedges t e howner hnot List.not_mem_nil
  · intro t e o' ho
    exact h.others t e o' ((howners t e).symm.trans (hw.owners t e o' ho))

theorem World.Replaced.of_not_lost {lost : TypeId → Entity → Prop}
    (h : w.Replaced C o edits writes lost w') (hlost : ∀ t e, ¬ lost t e) :
    w.Replaced C o edits writes (fun _ _ => False) w' := by
  obtain rfl : lost = fun _ _ => False := funext fun t => funext fun e => eq_false (hlost t e)
  exact h

/-- Nobody is withdrawn where no removed entity keys a selected owner. -/
theorem World.Replaced.not_retired (h : w.Replaced C o edits [] (fun _ _ => False) published)
    (hkeys : ∀ o', (o' = o ∨ ∃ t e, w.owner? t e = some o') →
      World.selects selected o'.system = true → ∀ k ∈ o'.keys, k ∉ removed) (t : TypeId)
    (e : Entity) : ¬ published.Retired selected removed w' t e := by
  rintro ⟨-, o', -, hw⟩
  obtain ⟨root, hsel, ⟨t', e', howned⟩, k, hkey, hk⟩ := hw.exists_keyed
  exact hkeys root ((h.others t' e' root howned).imp_right fun ho => ⟨t', e', ho⟩) hsel k hkey hk

theorem Edit.purge_mem_edits {commands : List (Command α)} {e : Entity}
    (h : e ∈ commands.filterMap Command.removed) :
    Edit.purge e ∈ commands.flatMap Command.edits := by
  obtain ⟨c, hc, he⟩ := List.mem_filterMap.mp h
  refine List.mem_flatMap.mpr ⟨c, hc, ?_⟩
  cases c with
  | removeEntity e' =>
    cases he
    exact List.mem_singleton_self _
  | insert _ _ _ | spawn _ _ | removeComponent _ _ => cases he

end Retired

section Examples

open World

/-- Entity 1 follows entity 2, and an invocation keyed by entity 3 has emitted a component. -/
def pointed : World Nat :=
  ((machine following).run World.new [.base (.insert 5 1 (.data 2)),
    .output ⟨⟨0, [3]⟩, [.insert 7 3 (.data 8), .insert 8 3 (.data 8)]⟩ false]).getD World.new

theorem reachable_pointed : Reachable following pointed := by
  have hrun : (machine following).run World.new [.base (.insert 5 1 (.data 2)),
      .output ⟨⟨0, [3]⟩, [.insert 7 3 (.data 8), .insert 8 3 (.data 8)]⟩ false] =
      some pointed := rfl
  exact Machine.Reachable.run (.init machine_init_new) hrun

theorem following_standalone {t : TypeId} (h₅ : t ≠ 5) (h₆ : t ≠ 6) : following.Standalone t where
  role := by simp [following, h₅, h₆]
  unrelated inverse h := by
    simp only [following] at h
    split_ifs at h
    cases h
    exact h₅ rfl

/-- A run of the same invocation that emits one component again and spawns another. -/
def reemitting : SystemRun Nat :=
  ⟨true, [⟨⟨0, [3]⟩, [.insert 7 3 (.data 9), .spawn [(9, .data 4)] 4]⟩], [], []⟩

end Examples
end Porridge
