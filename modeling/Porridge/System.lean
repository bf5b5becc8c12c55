import Porridge.Memo

/-! Registered systems and the planning state that decides what they plan next. -/
namespace Porridge

inductive Phase where
  | startup
  | evaluate
  | complete
  | settle
deriving DecidableEq, Repr

/-- The planning-relevant part of a registered system. -/
structure BoxedSystem where
  phase : Phase
  /-- Stores whose watermark movement can change the plan; `none` plans every wave. -/
  interest : Option (List TypeId)
  /-- The system plans from a dirty-entity hint, so its interest is bounded. -/
  deltaEligible : Bool
  /-- The system's rows cease to exist with any of their key entities. -/
  pairBound : Bool
  bounded : deltaEligible = true → interest.isSome = true
  /-- Stores read ambiently, which healing compares with the planned revision. -/
  viewFreshness : List TypeId
  /-- Highest interest watermark of the last plan; `none` before one or after a reset. -/
  plannedMark : Option Revision
  /-- The plan epoch of `logPos`; `none` makes the next plan full. -/
  planEpoch : Option Nat
  logPos : Nat
  forcedDirty : List Entity
deriving DecidableEq

namespace BoxedSystem

variable {α : Type}

/-- A newly registered system; a delta shape counts only with a bounded interest. -/
def new (phase : Phase) (interest : Option (List TypeId)) (deltaShape pairBound : Bool)
    (viewFreshness : List TypeId) : BoxedSystem where
  phase := phase
  interest := interest
  deltaEligible := deltaShape && interest.isSome
  pairBound := pairBound
  bounded h := (Bool.and_eq_true_iff.mp h).2
  viewFreshness := viewFreshness
  plannedMark := none
  planEpoch := none
  logPos := 0
  forcedDirty := []

/-- The highest watermark of the interested stores. -/
def interestMark (types : List TypeId) (w : World α) : Revision :=
  (types.map w.storeWatermark).foldl max 0

def peekNeedsPlanning (s : BoxedSystem) (w : World α) : Bool :=
  if s.forcedDirty ≠ [] then true
  else
    match s.interest, s.plannedMark with
    | none, _ => true
    | some _, none => true
    | some types, some mark => mark < interestMark types w

def advanceMark (s : BoxedSystem) (w : World α) : BoxedSystem :=
  { s with plannedMark := match s.interest with
      | none => s.plannedMark
      | some types => some (interestMark types w) }

/-- The planning state once a plan over the world has been dispatched. -/
def afterPlan (s : BoxedSystem) (w : World α) : BoxedSystem :=
  let s := { s.advanceMark w with forcedDirty := [] }
  if s.deltaEligible then { s with logPos := w.writeLog.length, planEpoch := some w.planEpoch }
  else s

/-- Make the next plan a full one. -/
def resetFull (s : BoxedSystem) : BoxedSystem := { s with plannedMark := none, planEpoch := none }

/-- Force rows back through planning. -/
def forceReplan (keys : List Entity) (s : BoxedSystem) : BoxedSystem :=
  if s.deltaEligible ∧ keys ≠ [] then { s with forcedDirty := s.forcedDirty ++ keys }
  else s.resetFull

/-- Keep the unread relevant rows of a write log that is about to be reclaimed. -/
def compactPlanLog (epoch : Nat) (log : List (TypeId × Entity)) (w : World α)
    (s : BoxedSystem) : BoxedSystem :=
  if !s.deltaEligible ∨ s.phase = .startup ∨ s.planEpoch ≠ some epoch then s
  else
    let unread := (log.drop s.logPos).filter fun p => p.1 ∈ s.interest.getD []
    let s := if s.peekNeedsPlanning w then
        { s with forcedDirty := ((s.forcedDirty ++ unread.map Prod.snd).mergeSort).dedup }
      else s
    { s with logPos := 0, planEpoch := some (epoch + 1) }

def Forces (keys : List Entity) (s : BoxedSystem) : Prop :=
  (s.plannedMark = none ∧ s.planEpoch = none) ∨ (keys ≠ [] ∧ ∀ k ∈ keys, k ∈ s.forcedDirty)

instance (keys : List Entity) (s : BoxedSystem) : Decidable (s.Forces keys) :=
  inferInstanceAs (Decidable (_ ∨ _))

/-- A forced row makes the planner reconsider its system. -/
theorem Forces.peekNeedsPlanning {keys : List Entity} {s : BoxedSystem} (h : s.Forces keys)
    (w : World α) : s.peekNeedsPlanning w = true := by
  unfold BoxedSystem.peekNeedsPlanning
  split_ifs with hf
  · rfl
  · rcases h with ⟨hmark, -⟩ | ⟨hne, hall⟩
    · rw [hmark]
      cases s.interest <;> rfl
    · obtain ⟨k, hk⟩ := List.exists_mem_of_ne_nil keys hne
      have hmem := hall k hk
      rw [not_not.mp hf] at hmem
      cases hmem

@[simp] theorem forceReplan_pairBound (keys : List Entity) (s : BoxedSystem) :
    (s.forceReplan keys).pairBound = s.pairBound := by
  unfold BoxedSystem.forceReplan
  split_ifs <;> rfl

end BoxedSystem
end Porridge
