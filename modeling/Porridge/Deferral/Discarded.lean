import Porridge.Deferral.Waiting
import Porridge.Retirement
import Porridge.World.Grows

/-! What is removed or retired while an output waits, and what the next start brings back. -/
namespace Porridge

open World

variable {α : Type} {C : Components α}

section Inputs

variable {w w' : World α} {o : SystemInvocation} {t : TypeId} {e : Entity}

/-- Base commands give an invocation nothing to carry. -/
theorem carries_of_applyBase {commands : List (BaseCommand α)}
    (h : w.applyBase C commands = some w') (hc : w'.Carries o t e) : w.Carries o t e := by
  have hclosed := closed_gains C o fun _ _ => False
  have hstep : ∀ {u u' : World α} {c : BaseCommand α}, c.apply C u = some u' →
      u'.Carries o t e → u.Carries o t e := by
    intro u u' c hu hc
    rcases hc with howner | ⟨p, hp, hfields⟩
    · have hgains := hclosed.baseCommand hu (fun _ _ => nofun) (fun _ => trivial) trivial
      exact Or.inl ((hgains t e howner).resolve_right id)
    · rcases defers_baseCommand hu p hp with hold | hnone
      · exact Or.inr ⟨p, hold, hfields⟩
      · cases hnone.symm.trans hfields.1
  exact List.foldlM_some_induction (fun u : World α => u.Carries o t e → w.Carries o t e) commands
    h id (fun _ _ _ _ hu hc hcarries => hu (hstep hc hcarries)) hc

/-- Who owns a component after a flush carried it before. -/
theorem carries_of_flushDerivedFrom (h : w.flushDerivedFrom C = some w')
    (ho : w'.owner? t e = some o) : w.Carries o t e := by
  have hclosed := closed_gains C o fun t e =>
    ∃ p ∈ w.pendingDerivedFrom, p.owner = some o ∧ p.component = t ∧ p.entity = e
  have hgains := hclosed.flushDerivedFrom h (fun p hp howner => ⟨p, hp, howner, rfl, rfl⟩) trivial
  exact hgains t e ho

end Inputs

namespace Deferral

variable {d d' : Deferral α}

/-- A key of the owner was removed since the output was deferred, or carries nothing. -/
def KeyLost (d : Deferral α) (p : Waiting α) : Prop :=
  ∃ k ∈ p.output.owner.keys, k ∈ d.removedSince p ∨ d.engine.state.world.componentsOn k = []

instance (d : Deferral α) (p : Waiting α) : Decidable (d.KeyLost p) :=
  inferInstanceAs (Decidable (∃ k ∈ p.output.owner.keys, _))

/-- The next start retires the owner, or the output lands on nothing that was removed since it
was deferred and its owner keeps its memo entry when it loses a key. -/
def Spared (d : Deferral α) (p : Waiting α × List (TypeId × Entity)) : Prop :=
  d.Doomed p.1.output.owner ∨
    ((∀ x ∈ p.2, x.2 ∉ d.removedSince p.1) ∧
      (d.KeyLost p.1 → p.1.output.owner ∈ d.engine.state.memo))

instance (d : Deferral α) (p : Waiting α × List (TypeId × Entity)) : Decidable (d.Spared p) :=
  inferInstanceAs (Decidable (_ ∨ _))

def Spares (C : Components α) (d : Deferral α) : Prop := ∀ p ∈ d.landings C, d.Spared p

instance (d : Deferral α) : Decidable (d.Spares C) :=
  inferInstanceAs (Decidable (∀ p ∈ d.landings C, d.Spared p))

/-- An entity removed while an output waited carries nothing of it in the world, short of what a
later output of the same owner writes; an owner that was retired meanwhile owns nothing. -/
structure Discarded (C : Components α) (d : Deferral α) (w : World α) : Prop where
  removed : ∀ pre p post, d.landings C = pre ++ p :: post → ∀ t, ∀ e ∈ d.removedSince p.1,
    (∀ q ∈ post, q.1.output.owner = p.1.output.owner → (t, e) ∉ q.2) →
      w.owner? t e ≠ some p.1.output.owner
  retired : ∀ p ∈ d.waiting, d.KeyLost p → p.output.owner ∉ d.engine.state.memo →
    w.Dormant p.output.owner

theorem map_landed (registry : TypeId → Option Entity) (waiting : List (Waiting α)) :
    (landed C registry waiting).map Prod.fst = waiting := by
  induction waiting generalizing registry with
  | nil => rfl
  | cons p waiting ih => rw [landed, List.map_cons, ih]

/-- What an invocation carries after the waiting outputs it carried before, or is landed by an
output of its own. -/
theorem carries_of_deferred {o : SystemInvocation} {t : TypeId} {e : Entity} :
    ∀ {waiting : List (Waiting α)} {w w' : World α},
      (∀ p ∈ waiting, ∀ c ∈ p.output.commands, c.defersAtSettle = true) →
      (waiting.map Waiting.output).foldlM
        (fun w output => w.applyCommands C output.owner output.commands) w = some w' →
      w'.Carries o t e → w.Carries o t e ∨
        ∃ p ∈ landed C w.registry waiting, p.1.output.owner = o ∧ (t, e) ∈ p.2
  | [], w, w', _, h, hc => by
    cases h
    exact Or.inl hc
  | p :: waiting, w, w', hd, h, hc => by
    obtain ⟨u, hu, hrest⟩ := Option.bind_eq_some_iff.mp h
    obtain ⟨hlands, hregistry⟩ := landed_applyCommands (hd p List.mem_cons_self) hu
    have hlater := carries_of_deferred (fun q hq => hd q (List.mem_cons_of_mem _ hq)) hrest hc
    rw [hregistry] at hlater
    rcases hlater with hbefore | ⟨q, hq, hlanded⟩
    · by_cases hown : p.output.owner = o
      · rw [hown] at hlands
        rcases hlands.gains t e hbefore with hold | hmem
        · exact Or.inl hold
        · exact Or.inr ⟨_, List.mem_cons_self, hown, hmem⟩
      · exact Or.inl (carries_of_applyCommands hown hu hbefore)
    · exact Or.inr ⟨q, List.mem_cons_of_mem _ hq, hlanded⟩

/-- The owners in a started world held the component before, or a waiting output landed it. -/
theorem owned_of_started {o : SystemInvocation} {t : TypeId} {e : Entity} (hd : Sound d)
    {applied : State α}
    (h : applyInputs C { d.engine.state with pendingGeneration := none } = some applied)
    (hdormant : d.engine.state.world.Dormant o)
    (ho : (reconcileInputs C applied).world.owner? t e = some o) :
    ∃ p ∈ d.landings C, p.1.output.owner = o ∧ (t, e) ∈ p.2 := by
  obtain ⟨settled, based, flushed, hsettled, hbased, hflushed, rfl⟩ := exists_settled h
  obtain ⟨hstores, hregistry, hbuffers, -⟩ :=
    world_compactPlanLog { d.engine.state with pendingGeneration := none }
  have hflushed' : flushed.owner? t e = some o := (tidies_reconcileInputs _).wanes.disowning t e o ho
  have hcarries : settled.Carries o t e :=
    carries_of_applyBase hbased (carries_of_flushDerivedFrom hflushed hflushed')
  rw [← hd.outputs] at hsettled
  rcases carries_of_deferred (fun p hp => hd.defers hp) hsettled hcarries with hbefore | hlanded
  · rcases hbefore with howner | ⟨p, hp, -⟩
    · rw [owner?_congr hstores] at howner
      exact absurd howner (hdormant t e)
    · rw [hbuffers.pending.trans hd.rest] at hp
      cases hp
  · rw [hregistry] at hlanded
    exact hlanded

/-- A doomed owner comes out of the start with nothing. -/
theorem dormant_of_doomed {o : SystemInvocation} (hd : World.Reachable C d.engine.state.world)
    {applied : State α}
    (h : applyInputs C { d.engine.state with pendingGeneration := none } = some applied)
    (hdoomed : d.Doomed o) : (reconcileInputs C applied).world.Dormant o := by
  have hindexed : applied.world.drainRemovals.Indexed fun _ _ => False :=
    ((managed_applyInputs h).later.reachable hd).indexed
  obtain ⟨k, hk, hremoved⟩ := SystemInvocation.touches_iff.mp hdoomed
  have hkept : k ∈ applied.world.removedEntities := by
    obtain ⟨settled, based, flushed, hsettled, hbased, hflushed, rfl⟩ := exists_settled h
    obtain ⟨-, -, -, hlog, -⟩ :=
      world_compactPlanLog { d.engine.state with pendingGeneration := none }
    have hclosed := closed_grows C
    have hdeferred := hclosed.foldlM _ hsettled fun _ _ output _ hstep =>
      hclosed.applyCommands hstep (Permits.grants_all output.owner)
    have hbase := hclosed.applyBase hbased (fun _ _ => trivial) (fun _ => trivial) trivial
    have hflush := hclosed.flushDerivedFrom hflushed (fun _ _ => trivial) trivial
    refine ((hdeferred.trans hbase).trans hflush).entities.subset ?_
    rw [hlog]
    exact hremoved
  intro t e ho
  have hclear := clear_retireCascade C none (r := ⟨applied.world.drainRemovals,
    (reconcileInputLosers applied).memo, false⟩) hindexed applied.world.removedEntities.dedup
    applied.world.removedEntities.dedup
  have htouched : o.touches applied.world.removedEntities.dedup = true :=
    SystemInvocation.touches_iff.mpr ⟨k, hk, List.mem_dedup.mpr hkept⟩
  have hspared := hclear.owner t e o ho rfl
  rw [htouched] at hspared
  cases hspared

/-- A start that spares every waiting output brings back nothing that was removed or retired
while they waited. -/
theorem start_discards (h : Reachable C d) (hspares : d.Spares C)
    (hstep : step C d .startEvaluation = some d') : Discarded C d d'.engine.state.world := by
  have hsound := reachable_sound h
  have hworld := Engine.reachable_world (reachable_engine h)
  have hwaiting : ∀ p ∈ d.landings C, p.1 ∈ d.waiting := by
    intro p hp
    have hmem := List.mem_map_of_mem (f := Prod.fst) hp
    rwa [landings, map_landed] at hmem
  rcases step_cases hstep with ⟨run, phase, published, heq, -⟩ |
    ⟨generation, applied, -, -, happlied, hstate, -⟩ | ⟨hidles, -⟩
  · cases heq
  · have hafter : d'.engine.state.world = (reconcileInputs C applied).world := by
      rw [hstate]
      rfl
    rw [hafter]
    constructor
    · intro pre p post hsplit t e he hlater ho
      have hp : p ∈ d.landings C := hsplit ▸ List.mem_append_right _ List.mem_cons_self
      by_cases hdoomed : d.Doomed p.1.output.owner
      · exact dormant_of_doomed hworld happlied hdoomed t e ho
      obtain ⟨q, hq, howner, hmem⟩ := owned_of_started hsound happlied
        (hsound.dormant_waiting (hwaiting p hp)) ho
      have hspared := (hspares q hq).resolve_left (howner ▸ hdoomed)
      rw [hsplit] at hq
      rcases List.mem_append.mp hq with hq | hq
      · -- an output that waited longer saw the entity go, too
        have hpairs : (d.landings C).Pairwise fun p q => q.1.removed ⊆ p.1.removed := by
          have haged := hsound.aged
          rw [← map_landed (C := C) d.engine.state.world.registry d.waiting,
            List.pairwise_map] at haged
          exact haged
        rw [hsplit, List.pairwise_append] at hpairs
        have hsubset := hpairs.2.2 q hq p List.mem_cons_self
        refine hspared.1 _ hmem (List.mem_append.mpr ?_)
        exact (List.mem_append.mp he).imp_left fun hold => hsubset hold
      · rcases List.mem_cons.mp hq with rfl | hq
        · exact hspared.1 _ hmem he
        · exact hlater q hq howner hmem
    · intro p hp hlost hmemo
      have hlanded : p ∈ (d.landings C).map Prod.fst := by
        rw [landings, map_landed]
        exact hp
      obtain ⟨q, hq, rfl⟩ := List.mem_map.mp hlanded
      rcases hspares q hq with hdoomed | ⟨-, hkept⟩
      · exact dormant_of_doomed hworld happlied hdoomed
      · exact absurd (hkept hlost) hmemo
  · constructor
    · intro pre p post hsplit t e _ _ ho
      have hp : p ∈ d.landings C := hsplit ▸ List.mem_append_right _ List.mem_cons_self
      exact hsound.dormant_waiting (hwaiting p hp) t e (hidles.world.disowning t e _ ho)
    · exact fun p hp _ _ => (hsound.dormant_waiting hp).disowning hidles.world.disowning

section Examples

/-- The state the next start leaves. -/
def started (d : Deferral Unit) : Deferral Unit := (d.step (.plain Unit) .startEvaluation).getD d

theorem step_started {d : Deferral Unit} (h : (d.step (.plain Unit) .startEvaluation).isSome) :
    d.step (.plain Unit) .startEvaluation = some (started d) := by
  obtain ⟨d', hd'⟩ := Option.isSome_iff_exists.mp h
  rw [started, hd']
  rfl

/-- The target of a waiting insert is drained before the start. -/
def drained : Deferral Unit := after [settling 0 [.insert 5 1 (.data ())], .putMemo, .drainBound [1]]

/-- A later run of the settle phase removes the key of a waiting output. -/
def retired : Deferral Unit :=
  after [settling 0 [.insert 5 1 (.data ())], settling 2 [.removeEntity 0], .putMemo]

/-- A drained entity carries the waiting insert after the start, and a retired owner owns it. -/
theorem removed_outputs_return :
    (Reachable (.plain Unit) drained ∧
      drained.step (.plain Unit) .startEvaluation = some (started drained) ∧
      ¬ Discarded (.plain Unit) drained (started drained).engine.state.world) ∧
    (Reachable (.plain Unit) retired ∧
      retired.step (.plain Unit) .startEvaluation = some (started retired) ∧
      (started retired).engine.state.world.owner? 5 1 = some ⟨0, [0]⟩ ∧
      ⟨0, [0]⟩ ∉ (started retired).engine.memo ∧
      ¬ Discarded (.plain Unit) retired (started retired).engine.state.world) := by
  refine ⟨⟨reachable_after (by decide), step_started (by decide), fun h => ?_⟩,
    reachable_after (by decide), step_started (by decide), by decide, by decide, fun h => ?_⟩
  · have howned : (started drained).engine.state.world.owner? 5 1 = some ⟨0, [0]⟩ := by decide
    exact h.removed [] (⟨⟨⟨0, [0]⟩, [.insert 5 1 (.data ())]⟩, []⟩, [(5, 1)]) [] (by decide) 5 1
      (by decide) nofun howned
  · have howned : (started retired).engine.state.world.owner? 5 1 = some ⟨0, [0]⟩ := by decide
    exact h.retired ⟨⟨⟨0, [0]⟩, [.insert 5 1 (.data ())]⟩, [0]⟩ (by decide) (by decide) (by decide) 5 1
      howned

/-- The key of one waiting output is drained, the other one is left alone. -/
def spared : Deferral Unit :=
  after [settling 0 [.insert 5 1 (.data ())], settling 2 [.insert 5 7 (.data ())], .putMemo,
    .drainBound [2]]

theorem spared_outputs_discarded :
    spared.step (.plain Unit) .startEvaluation = some (started spared) ∧
      Discarded (.plain Unit) spared (started spared).engine.state.world ∧
      (started spared).engine.state.world.has 5 1 = true ∧
      (started spared).engine.state.world.has 5 7 = false :=
  ⟨step_started (by decide), start_discards (reachable_after (by decide)) (by decide)
    (step_started (by decide)), by decide, by decide⟩

end Examples

end Deferral
end Porridge
