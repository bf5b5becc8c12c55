import Porridge.PhaseLoop.Quiet
import Porridge.World.Repeated

/-! A rerun that restates what its invocations have commits without a trace. -/
namespace Porridge

variable {α : Type} {C : Components α}

namespace World

variable {w : World α} {t : TypeId} {e : Entity}

/-- The component still is the value its fingerprint was taken of. -/
def Unedited (C : Components α) (w : World α) (t : TypeId) (e : Entity) : Prop :=
  ∀ x, w.cell? t e = some x → x.fingerprint = C.fingerprint t x.value ∧
    (C.tracked t = true → x.fingerprint.isSome = true)

theorem Unedited.silent {w' : World α} (hs : w.Unedited C t e) (h : Silent w w') :
    w'.Unedited C t e := by
  intro x' hx'
  have hvalues := h.entries.values t e
  have hfingerprints := h.entries.fingerprints t e
  rw [hx'] at hvalues
  obtain ⟨x, hx, hvalue⟩ := Option.map_eq_some_iff.mp hvalues.symm
  simp only [fingerprintOn, hx, hx', Option.bind_some] at hfingerprints
  rw [hfingerprints, ← hvalue]
  exact hs x hx

/-- Reconciling a row that was not changed is silent. -/
theorem Unedited.silent_reconcileEntry (hs : w.Unedited C t e) :
    Silent w (w.reconcileEntry C t e) := by
  unfold reconcileEntry
  cases hx : w.cell? t e with
  | none => exact .refl w
  | some x =>
    obtain ⟨hfingerprint, hsome⟩ := hs x hx
    have hamends : w.amends C t e x.value = false := by
      unfold amends
      rw [hx, Option.any_some]
      cases htracked : C.tracked t with
      | false => rfl
      | true =>
        have hstored := hsome htracked
        obtain ⟨f, hf⟩ := Option.isSome_iff_exists.mp hstored
        rw [← hfingerprint, hf]
        simp
    have hrestamped : w.restampEntry C t e x.value = w.amendEntry t e x 0 := by
      unfold restampEntry
      simp only [hx, hamends, Bool.false_eq_true, if_false, ← hfingerprint]
    dsimp only
    rw [hrestamped]
    have hcell : ∀ t' e', (w.amendEntry t e x 0).cell? t' e' = w.cell? t' e' := by
      intro t' e'
      rw [cell?_amendEntry]
      split_ifs with heq
      · obtain ⟨rfl, rfl⟩ := heq
        exact hx.symm
      · rfl
    refine ⟨⟨fun t' e' => by rw [hcell], fun t' e' => ?_, fun t' e' => ?_, fun t' => ?_⟩,
      fun t' e' => ?_, rfl, rfl, rfl, rfl, rfl, rfl, rfl, rfl⟩
    · rw [fingerprintOn, fingerprintOn, hcell]
    · rw [revisionByType, revisionByType, hcell]
    · rw [storeWatermark_amendEntry]
      split_ifs with heq
      · rw [heq]
        exact max_eq_left (Nat.zero_le _)
      · rfl
    · rw [owner?, owner?, hcell]

theorem silent_reconcileWritten {writes : List (TypeId × Entity)}
    (hs : ∀ p ∈ writes, w.Unedited C p.1 p.2) : Silent w (w.reconcileWritten C writes) := by
  refine List.foldlRecOn writes _ (motive := fun u : World α => Silent w u) (.refl w) ?_
  intro u hu p hp
  dsimp only
  split_ifs
  · have hentry := ((hs p hp).silent hu).silent_reconcileEntry
    exact (hu.trans hentry).trans (.of_stores rfl rfl rfl rfl rfl rfl rfl rfl rfl)
  · exact hu

end World

/-- Publishing outputs that restate what their invocations have changes the world silently and
nothing else. -/
theorem exists_publishOutputs : ∀ {outputs : List (SystemOutput α)} {s : State α},
    World.Reachable C s.world → s.world.pendingDerivedFrom = [] →
      (∀ output ∈ outputs, s.world.Restates C output) →
        ∃ world, publishOutputs C s outputs false = some { s with world } ∧
          World.Reachable C world ∧ World.Silent s.world world
  | [], s, hw, _, _ => ⟨s.world, rfl, hw, .refl _⟩
  | output :: outputs, s, hw, hrest, hrestates => by
    obtain ⟨w, happlied, hsilent⟩ := (hrestates output List.mem_cons_self).exists_applyOutput
      (World.coherent_of_reachable hw).dated hrest
    have hreached : World.Reachable C w := .step (i := .output output false) hw trivial happlied
    have hlater : ∀ output' ∈ outputs, w.Restates C output' := fun output' houtput' =>
      (hrestates output' (List.mem_cons_of_mem _ houtput')).silent hsilent hw hreached
    obtain ⟨world, hpublished, hreached', hsilent'⟩ := exists_publishOutputs
      (s := { s with world := w }) hreached (hsilent.pendingDerivedFrom.trans hrest) hlater
    refine ⟨world, ?_, hreached', hsilent.trans hsilent'⟩
    refine Option.bind_eq_some_iff.mpr ⟨{ s with world := w }, ?_, hpublished⟩
    dsimp only
    rw [happlied]
    simp

/-- Between commits nothing waits to be flushed and every removal has been treated. -/
structure World.Treated (w : World α) : Prop where
  pendingDerivedFrom : w.pendingDerivedFrom = []
  removedEntities : w.removedEntities = []
  removedOwners : w.removedOwners = []
  removedComponentOwners : w.removedComponentOwners = []

theorem World.Treated.drainRemovals {w : World α} (h : w.Treated) : w.drainRemovals = w := by
  obtain ⟨-, hentities, howners, hcomponents⟩ := h
  cases w
  subst hentities howners hcomponents
  rfl

/-- The world after the output that is about to be committed once more. -/
def World.recounting : World Nat :=
  (World.recalled.applyOutput World.recalling World.recounted false).getD World.new

/-- A rerun of the invocation: it read the singleton and took a write guard on it in vain. -/
def retelling : SystemRun Nat :=
  ⟨true, [World.recounted], [(⟨1, [2]⟩, ⟨[⟨7, 6, World.recounting.revisionByType 7 6, false⟩],
    World.recounting.revision, 0⟩)], [(7, 6)]⟩

end Porridge
