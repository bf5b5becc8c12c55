import Porridge.Cleanup.Spared
import Porridge.Engine.World

/-! Destructive reads of a settled bowl: when the settled state they publish is still planned. -/
namespace Porridge

open World

variable {α : Type} (C : Components α)

inductive BoundRead where
  | take (entity : Entity) (parts : List (TypeId × Bool))
  /-- Also the deferred cleanup of dropped handles. -/
  | drain (entities : List Entity)
deriving DecidableEq

namespace BoundRead

def roots : BoundRead → List Entity
  | take e _ => [e]
  | drain entities => entities

def apply (s : State α) : BoundRead → State α
  | take e parts => takeBound C s e parts
  | drain entities => drainBound C s entities

end BoundRead

/-- A full plan of the systems finds every row memoized with the deps it has now. -/
def UpToDate (systems : List (SystemId × Params)) (s : State α) : Prop :=
  ∀ p ∈ systems, ∀ planned ∈ Params.states s.world p.2, ∀ state ∈ planned,
    ∃ m ∈ s.memo.lookup ⟨p.1, Params.keys state⟩, m.deps = Params.deps C s.world p.2 state

instance (systems : List (SystemId × Params)) (s : State α) : Decidable (UpToDate C systems s) :=
  inferInstanceAs (Decidable (∀ p ∈ systems, _))

/-- No plan of the settled state panics, no row of it that may remain reads what goes with the roots,
and each one that the roots retire goes with a component that its query demands. -/
structure Spared (systems : List (SystemId × Params)) (s : State α) (roots : List Entity) : Prop where
  planned : ∀ p ∈ systems, (Params.states s.world p.2).isSome = true
  reads : ∀ p ∈ systems, ∀ param ∈ p.2, s.world.Spares C roots param
  retired : ∀ p ∈ systems, ∀ before ∈ Params.states s.world p.2, ∀ state ∈ before,
    s.world.Retires roots ⟨p.1, Params.keys state⟩ → ∃ q f e, (.query q f, .row e) ∈ p.2.zip state ∧
      ∃ t ∈ q.demandedTypes f, s.world.Doomed C roots t e

/-- Destructive reads, one after the other, of a bowl that is settled with nothing to plan. -/
def settledReads (systems : List (SystemId × Params)) : Machine (State α) BoundRead where
  init s := World.Reachable C s.world ∧ s.isSettled = true ∧ UpToDate C systems s
  step s read := some (read.apply C s)

variable {C}

/-- A take tears the entity, and leaves the plain entries of the other ones alone. -/
theorem torn_takeBundle {w₀ : World α} {e : Entity} :
    ∀ (parts : List (TypeId × Bool)) {w : World α}, TornFrom C w₀ w [e] (fun _ _ => False) →
      TornFrom C w₀ (w.takeBundle C e parts) [e] (fun _ _ => False) ∧
        ∀ t e', ¬ C.IsInverse t → e' ≠ e → (w.takeBundle C e parts).cell? t e' = w.cell? t e'
  | [], _, h => ⟨h, fun _ _ _ _ => rfl⟩
  | (t, required) :: parts, w, h => by
    have htaken := h.removeComponent (t := t) (e := e)
      (fun hhas => ⟨h.has t e hhas, Or.inl (List.mem_singleton_self e)⟩) none
    have hcell : ∀ t' e', ¬ C.IsInverse t' → e' ≠ e →
        (w.removeComponent C t e none).cell? t' e' = w.cell? t' e' := by
      intro t' e' hplain hne
      have hedge : w.edgeOn C t e ≠ some (t', e') := fun hp => hplain (isInverse_edgeOn C hp)
      rw [World.removeComponent, cell?_retractEdge C _ e _ t' e' hedge, cell?_dropEntry,
        if_neg fun hp => hne hp.2]
    unfold World.takeBundle
    dsimp only
    split_ifs
    · exact ⟨htaken, hcell⟩
    · obtain ⟨hrest, hothers⟩ := torn_takeBundle parts htaken
      exact ⟨hrest, fun t' e' hplain hne =>
        (hothers t' e' hplain hne).trans (hcell t' e' hplain hne)⟩

/-- The outputs that hang on the roots still do so after the roots' own entries changed. -/
theorem swept_of_cells {w₀ w : World α} {roots : List Entity}
    (hcell : ∀ t e, ¬ C.IsInverse t → e ∉ roots → w.cell? t e = w₀.cell? t e) {t : TypeId}
    {e : Entity} (hplain : ¬ C.IsInverse t) (hroot : e ∉ roots)
    (h : w₀.Swept (fun t => ¬ C.IsInverse t) roots t e) :
    w.Swept (fun t => ¬ C.IsInverse t) roots t e := by
  have hreach : ∀ x, w₀.OwnershipReach (fun t => ¬ C.IsInverse t) roots x →
      w.OwnershipReach (fun t => ¬ C.IsInverse t) roots x := by
    intro x hx
    induction hx with
    | root hx => exact .root hx
    | @output k x t o _ hkey ho ht ih =>
      by_cases hmem : x ∈ roots
      · exact .root hmem
      · refine .output ih hkey ?_ ht
        rw [owner?, hcell t x ht hmem]
        exact ho
  obtain ⟨o, ho, k, hkey, hk⟩ := h
  refine ⟨o, ?_, k, hkey, hreach k hk⟩
  rw [owner?, hcell t e hplain hroot]
  exact ho

/-- A take and its cleanup lose what hangs on the entity, which carries nothing afterwards. -/
theorem loses_take {w : World α} (hw : World.Reachable C w) (memo : MemoTable) (e : Entity)
    (parts : List (TypeId × Bool)) :
    (cleanupRetirement C ⟨w.takeBundle C e parts, memo, false⟩ [e]).Loses C w memo [e]
      (w.Doomed C [e]) := by
  have hreachable : World.Reachable C (w.takeBundle C e parts) :=
    (tidies_takeBundle parts w).later.reachable hw
  obtain ⟨htorn, hcells⟩ := torn_takeBundle parts (TornFrom.refl (C := C) w [e])
  have hcells' : ∀ t e', ¬ C.IsInverse t → e' ∉ [e] →
      (w.takeBundle C e parts).cell? t e' = w.cell? t e' := fun t e' hplain hne =>
    hcells t e' hplain fun heq => hne (List.mem_singleton.mpr heq)
  have hstart : Retirement.Loses C w memo [e] (fun _ _ => False)
      ⟨w.takeBundle C e parts, memo, false⟩ := ⟨htorn, fun _ => Or.inl rfl⟩
  exact hstart.cleanup hreachable.indexed (fun _ => Iff.rfl) fun _ _ hplain hroot hswept =>
    swept_of_cells hcells' hplain hroot hswept

section Reads

variable {s : State α}

/-- What a read of a settled bowl leaves: the world without what hangs on the roots, and the memo
entries of the invocations that they do not retire. -/
theorem BoundRead.spec (hs : World.Reachable C s.world) (hsettled : s.isSettled = true)
    (read : BoundRead) :
    World.Reachable C (read.apply C s).world ∧ (read.apply C s).isSettled = true ∧
      TornFrom C s.world (read.apply C s).world read.roots (s.world.Doomed C read.roots) ∧
      ∀ i, (read.apply C s).memo.lookup i = s.memo.lookup i ∨ s.world.Retires read.roots i := by
  have hclose : ∀ (u : World α) (entities : List Entity), World.Reachable C u →
      let closed := closeBound C true { s with world := u } entities
      closed.world = (cleanupRetirement C ⟨u, s.memo, false⟩ entities).world ∧
        closed.memo = (cleanupRetirement C ⟨u, s.memo, false⟩ entities).memo ∧
          closed.isSettled = true := by
    intro u entities _
    have hidle : s.pendingGeneration.isNone = true ∧ s.runningGeneration.isNone = true := by
      unfold State.isSettled at hsettled
      rw [Bool.and_eq_true, Bool.and_eq_true] at hsettled
      exact hsettled.1
    have hpublish : ∀ t : State α, t.publishSettledRevision.world = t.world ∧
        t.publishSettledRevision.memo = t.memo ∧
          t.publishSettledRevision.settledRevision = t.world.revision ∧
            t.publishSettledRevision.pendingGeneration = t.pendingGeneration ∧
              t.publishSettledRevision.runningGeneration = t.runningGeneration := by
      intro t
      unfold State.publishSettledRevision
      split_ifs with hsame
      · exact ⟨rfl, rfl, hsame, rfl, rfl⟩
      · exact ⟨rfl, rfl, rfl, rfl, rfl⟩
    obtain ⟨hworld, hmemo, hrevision, hpending, hrunning⟩ :=
      hpublish (cleanupBoundEntities C { s with world := u } entities)
    refine ⟨hworld, hmemo, ?_⟩
    show State.isSettled (State.publishSettledRevision _) = true
    rw [State.isSettled, hworld, hrevision, hpending, hrunning, beq_self_eq_true, Bool.and_true,
      Bool.and_eq_true]
    exact hidle
  cases read with
  | take e parts =>
    have hreachable : World.Reachable C (s.world.takeBundle C e parts) :=
      (tidies_takeBundle parts s.world).later.reachable hs
    have hloses := loses_take hs s.memo e parts
    obtain ⟨hworld, hmemo, hidle⟩ := hclose _ [e] hreachable
    have happly : BoundRead.apply C s (.take e parts) =
        closeBound C true { s with world := s.world.takeBundle C e parts } [e] := by
      rw [BoundRead.apply, takeBound, hsettled]
    rw [happly, hworld, hmemo]
    exact ⟨(tidies_cleanupRetirement ⟨_, s.memo, false⟩ [e]).later.reachable hreachable, hidle, hloses.torn,
      hloses.memo⟩
  | drain entities =>
    have hsame : ∀ e, e ∈ entities ↔ e ∈ entities := fun _ => Iff.rfl
    have hstart : Retirement.Loses C s.world s.memo entities (fun _ _ => False)
        ⟨s.world, s.memo, false⟩ := ⟨TornFrom.refl s.world entities, fun _ => Or.inl rfl⟩
    have hloses := hstart.cleanup hs.indexed hsame fun _ _ _ _ hswept => hswept
    obtain ⟨hworld, hmemo, hidle⟩ := hclose s.world entities hs
    have happly : BoundRead.apply C s (.drain entities) =
        closeBound C true { s with world := s.world } entities := by
      rw [BoundRead.apply, drainBound, hsettled]
    rw [happly, hworld, hmemo]
    exact ⟨(tidies_cleanupRetirement ⟨_, s.memo, false⟩ entities).later.reachable hs, hidle, hloses.torn,
      hloses.memo⟩

/-- A plan over what a read leaves holds rows planned before, with the same deps and kept memo
entries. -/
theorem Spared.kept {systems : List (SystemId × Params)} {roots : List Entity}
    (h : Spared C systems s roots) (hs : World.Reachable C s.world) {v : World α}
    (hv : World.Reachable C v) (htorn : TornFrom C s.world v roots (s.world.Doomed C roots))
    {p : SystemId × Params} (hp : p ∈ systems) {planned : List (List ParamState)}
    (hplanned : planned ∈ Params.states v p.2) {state : List ParamState} (hstate : state ∈ planned) :
    (∃ before ∈ Params.states s.world p.2, state ∈ before) ∧
      Params.deps C v p.2 state = Params.deps C s.world p.2 state ∧
        ¬ s.world.Retires roots ⟨p.1, Params.keys state⟩ := by
  have hw := World.indicesExact_of_reachable hs
  have hv := World.indicesExact_of_reachable hv
  obtain ⟨schema, hpresent⟩ := hw.present
  obtain ⟨schema', hpresent'⟩ := hv.present
  have hfollows : ∀ param ∈ p.2, param.Follows v s.world := fun param hparam =>
    htorn.follows hw hv (h.reads p hp param hparam)
  obtain ⟨before, hbefore⟩ := Option.isSome_iff_exists.mp (h.planned p hp)
  obtain ⟨hmem, hdeps, hdrawn⟩ := Params.states_alike (C := C) hv.coherent hw.coherent hpresent'
    hpresent htorn.allocated hfollows hplanned hbefore hstate
  refine ⟨⟨before, hbefore, hmem⟩, hdeps, fun hretires => ?_⟩
  obtain ⟨q, f, e, hzip, t, ht, hdoomed⟩ := h.retired p hp before hbefore state hmem hretires
  obtain ⟨e', he, hbound⟩ := hdrawn _ hzip
  cases he
  have hthere := hbound.demanded t ht
  rw [World.has, htorn.gone t e hdoomed] at hthere
  cases hthere

end Reads

section Losses

def requests : Params := [.query (.entityParts [] [.read 7]) .unit]

/-- Reads component 5 and, where there is one, component 6. -/
def answers : Params := [.query (.entityParts [] [.read 5, .optional 6]) .unit]

/-- Entity 0 is a request; its row writes component 6 of entity 1, which has component 5. -/
def answered : List (EngineOp Nat) :=
  [.queueInputs [.insert 7 0 (.data 1), .insert 5 1 (.data 2)], .startEvaluation,
    .commit ⟨true, [⟨⟨1, [1]⟩, []⟩],
      [(⟨1, [1]⟩, ⟨[⟨5, 1, some 2, false⟩, ⟨6, 1, none, false⟩], 2, 0⟩)], []⟩ (some .evaluate),
    .commit ⟨true, [⟨⟨0, [0]⟩, [.insert 6 1 (.data 3)]⟩],
      [(⟨0, [0]⟩, ⟨[⟨7, 0, some 1, false⟩], 2, 0⟩)], []⟩ (some .evaluate),
    .commit ⟨true, [⟨⟨1, [1]⟩, []⟩],
      [(⟨1, [1]⟩, ⟨[⟨5, 1, some 2, false⟩, ⟨6, 1, some 3, false⟩], 3, 0⟩)], []⟩ (some .evaluate),
    .completeEvaluation true, .publishSettledRevision]

def twoSystems : Engine Nat :=
  .new [.new .evaluate (some [7]) true false [], .new .evaluate (some [5, 6]) true false []]
    fun _ => false

def answeredState : Engine Nat :=
  ((Engine.machine World.fingerprinted).run twoSystems answered).getD twoSystems

def carriers : Params := [.query (.entityParts [] [.read 5]) .unit]

/-- The row of request 0 notes component 8 on entity 1; entity 2 has component 5. -/
def noted : List (EngineOp Nat) :=
  [.queueInputs [.insert 7 0 (.data 1), .insert 5 2 (.data 2)], .startEvaluation,
    .commit ⟨true, [⟨⟨1, [2]⟩, []⟩], [(⟨1, [2]⟩, ⟨[⟨5, 2, some 2, false⟩], 2, 0⟩)], []⟩
      (some .evaluate),
    .commit ⟨true, [⟨⟨0, [0]⟩, [.insert 8 1 (.data 3)]⟩],
      [(⟨0, [0]⟩, ⟨[⟨7, 0, some 1, false⟩], 2, 0⟩)], []⟩ (some .evaluate),
    .completeEvaluation true, .publishSettledRevision]

def notedState : Engine Nat :=
  ((Engine.machine World.fingerprinted).run twoSystems noted).getD twoSystems

theorem reachable_noted : World.Reachable World.fingerprinted notedState.state.world := by
  have hrun : (World.machine World.fingerprinted).run World.new
      [.base (.insert 7 0 (.data 1)), .base (.insert 5 2 (.data 2)), .flush,
        .output ⟨⟨1, [2]⟩, []⟩ false, .output ⟨⟨0, [0]⟩, [.insert 8 1 (.data 3)]⟩ false] =
      some notedState.state.world := rfl
  exact Machine.Reachable.run (.init World.machine_init_new) hrun

/-- Draining the request takes its note, and the row on entity 2 is as it was. -/
theorem spared_noted : Spared World.fingerprinted [(0, requests), (1, carriers)] notedState.state [0] := by
  have hread : ∀ {t : TypeId} {ps : Params}, ps = [.query (.entityParts [] [.read t]) .unit] →
      ∀ param ∈ ps, notedState.state.world.Spares World.fingerprinted [0] param := by
    rintro t _ rfl param hparam
    cases List.mem_singleton.mp hparam
    refine fun e _ => ⟨fun t' ht' _ => ?_, fun inverse reads hpart => ?_⟩
    · have hplain : ¬ World.fingerprinted.IsInverse t' := by
        rintro ⟨_, hrole⟩
        cases hrole
      have heq : t' = t := by
        simpa [QueryParam.decisiveTypes, QueryParam.demandedTypes, QueryParam.extent,
          QueryParam.requiredTypes, QueryParam.recordedTypes, QueryPart.recordedTypes,
          QueryPart.presenceRequirement, QueryFilter.presentTypes, QueryFilter.absentTypes,
          QueryFilter.enumerates, SystemParam.pairExpandable, QueryFilter.inKeyTypes,
          QueryFilter.boundKeyTypes, Facet.required, Extent.types] using ht'
      exact ⟨QueryParam.demanded_of_required (heq ▸ List.mem_singleton_self t), hplain⟩
    · cases List.mem_singleton.mp hpart
  have hbase : ∀ e ∈ [0, 2], ∀ t, notedState.state.world.owner? t e = none := by
    intro e he t
    have hthere : ∀ e ∈ [0, 2], ∀ t ∈ notedState.state.world.componentsOn e,
        notedState.state.world.owner? t e = none := by decide
    cases ho : notedState.state.world.owner? t e with
    | none => rfl
    | some o =>
      have hmem := (World.mem_componentsOn _ t e).mpr (World.has_of_owner? ho)
      cases ho.symm.trans (hthere e he t hmem)
  have hkept : ¬ notedState.state.world.Retires [0] ⟨1, [2]⟩ := by
    rintro (⟨k, hk, hreach⟩ | ⟨t, e, he, ho⟩)
    · cases List.mem_singleton.mp hk
      cases hreach with
      | root hmem => cases List.mem_singleton.mp hmem
      | output _ _ ho _ => cases ho.symm.trans (hbase 2 (by decide) _)
    · cases List.mem_singleton.mp he
      cases ho.symm.trans (hbase 0 (by decide) t)
  refine ⟨by decide, fun p hp => ?_, fun p hp before hbefore state hstate hretires => ?_⟩
  · rcases List.mem_cons.mp hp with rfl | hp
    · exact hread rfl
    · cases List.mem_singleton.mp hp
      exact hread rfl
  · rcases List.mem_cons.mp hp with rfl | hp
    · have hplanned : Params.states notedState.state.world requests = some [[.row 0]] := by decide
      cases hplanned.symm.trans hbefore
      cases List.mem_singleton.mp hstate
      exact ⟨_, _, 0, List.mem_singleton_self _, 7, by decide, Or.inl (List.mem_singleton_self 0)⟩
    · cases List.mem_singleton.mp hp
      have hplanned : Params.states notedState.state.world carriers = some [[.row 2]] := by decide
      cases hplanned.symm.trans hbefore
      cases List.mem_singleton.mp hstate
      exact absurd hretires hkept

end Losses
end Porridge
