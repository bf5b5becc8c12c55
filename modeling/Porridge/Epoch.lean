import Porridge.State

/-! Epochs: which external inputs wait for the settles that are driving. -/
namespace Porridge.State

variable {α : Type}

/-- The largest deferral tag; counting beyond it panics. -/
def maxTag : Nat := 2 ^ 64 - 1

/-- Queue an external input: for the next generation on a bowl that nobody settles, for the
next epoch otherwise. -/
def acceptInput (s : State α) (commands : List (BaseCommand α)) : Option (State α) :=
  if s.settling = 0 then
    some { s with pendingInputs := s.pendingInputs ++ commands }.requestGeneration
  else if s.inputSeq = maxTag then none
  else
    some { s with
      inputSeq := s.inputSeq + 1
      deferredInputs := s.deferredInputs ++ [(s.inputSeq + 1, commands)] }

/-- A mutation boundary: no generation runs, or the driver has opened a window. -/
def atBoundary (s : State α) : Bool := s.runningGeneration.isNone || s.preemptWindow

/-- Reach a mutation boundary; on a driven bowl that restarts the phase order. -/
def reachBoundary (s : State α) : Option (State α) :=
  if s.settling = 0 ∧ s.runningGeneration = none then some s
  else if s.atBoundary = true then some { s with preemptRestart := true }
  else none

/-- Queue a preempting input, at a boundary when the bowl is being settled. -/
def acceptPreempting (s : State α) (commands : List (BaseCommand α)) : Option (State α) :=
  if s.settling = 0 then s.acceptInput commands
  else s.reachBoundary.map fun s =>
    { s with pendingInputs := s.pendingInputs ++ commands }.requestGeneration

theorem reachBoundary_eq {s s' : State α} (h : s.reachBoundary = some s') :
    ∃ restart, s' = { s with preemptRestart := restart } := by
  unfold reachBoundary at h
  split_ifs at h <;> cases h
  · exact ⟨s.preemptRestart, rfl⟩
  · exact ⟨true, rfl⟩

theorem acceptInput_eq {s s' : State α} {commands : List (BaseCommand α)}
    (h : s.acceptInput commands = some s') :
    (s.settling = 0 ∧
      s' = { s with pendingInputs := s.pendingInputs ++ commands }.requestGeneration) ∨
    (s.settling ≠ 0 ∧ s.inputSeq ≠ maxTag ∧ s' = { s with
      inputSeq := s.inputSeq + 1
      deferredInputs := s.deferredInputs ++ [(s.inputSeq + 1, commands)] }) := by
  unfold acceptInput at h
  split_ifs at h with hidle hfull <;> cases h
  · exact Or.inl ⟨hidle, rfl⟩
  · exact Or.inr ⟨hidle, hfull, rfl⟩

theorem acceptPreempting_eq {s s' : State α} {commands : List (BaseCommand α)}
    (h : s.acceptPreempting commands = some s') :
    ∃ restart, s' = { s with
      preemptRestart := restart
      pendingInputs := s.pendingInputs ++ commands }.requestGeneration := by
  unfold acceptPreempting at h
  split_ifs at h with hidle
  · rcases acceptInput_eq h with ⟨-, rfl⟩ | ⟨hbusy, -, -⟩
    · exact ⟨s.preemptRestart, rfl⟩
    · exact absurd hidle hbusy
  · obtain ⟨bounded, hbounded, rfl⟩ := Option.map_eq_some_iff.mp h
    obtain ⟨restart, rfl⟩ := reachBoundary_eq hbounded
    exact ⟨restart, rfl⟩

def promoteDeferredInputs (s : State α) (watermark : Nat) : Bool × State α :=
  let promoted := s.deferredInputs.takeWhile fun input => input.1 ≤ watermark
  let s' := { s with
    pendingInputs := s.pendingInputs ++ promoted.flatMap Prod.snd
    deferredInputs := s.deferredInputs.dropWhile fun input => input.1 ≤ watermark }
  if promoted = [] then (false, s) else (true, s'.requestGeneration)

/-- Enter an epoch; the watermark is the current input sequence. -/
def enterEpoch (s : State α) : State α := { s with settling := s.settling + 1 }

/-- Leave an epoch; the last settler to leave promotes every deferred input. -/
def leaveEpoch (s : State α) : State α :=
  let s := { s with settling := s.settling - 1 }
  if s.settling = 0 then (s.promoteDeferredInputs maxTag).2 else s

/-- Nothing is pending or running. -/
def isClean (s : State α) : Bool := s.pendingGeneration.isNone && s.runningGeneration.isNone

/-- The generation a settle drives next. -/
def evaluationTarget (s : State α) : Nat :=
  (s.pendingGeneration <|> s.runningGeneration).getD s.completedGeneration

end Porridge.State
