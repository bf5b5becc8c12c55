import Porridge.Emission.Live
import Porridge.Engine
import Porridge.Retirement

/-! Every critical section leaves the memo table supported by held outputs. -/
namespace Porridge

variable {α : Type} (C : Components α)

open World

/-- Each memoized invocation still holds what it emitted undisturbed, and the ownership index
is complete. -/
structure Supported (memo : MemoTable) (w : World α) (emissions : List Emission) : Prop where
  indexed : w.Indexed fun _ _ => False
  live : w.Live C (· ∈ memo) emissions

variable {C} {memo memo' : MemoTable} {w w' : World α} {emissions : List Emission}

theorem Supported.mono (h : Supported C memo w emissions) (hm : ∀ o, o ∈ memo' → o ∈ memo) :
    Supported C memo' w emissions :=
  ⟨h.indexed, h.live.mono hm⟩

theorem Supported.same (h : Supported C memo w emissions) (hg : w.Grows w')
    (hs : SameOwnership w w') : Supported C memo w' emissions :=
  ⟨hs.indexed h.indexed, h.live.same hg hs⟩

/-- Draining the removal lists is safe once the recorded owners have no memo entry. -/
theorem Supported.drain (h : Supported C memo w emissions)
    (hm : ∀ o, o ∈ memo' → o ∈ memo ∧ o ∉ w.removedComponentOwners) :
    Supported C memo' w.drainRemovals emissions where
  indexed := SameOwnership.indexed ⟨fun _ _ => rfl, rfl⟩ h.indexed
  live m hmem ho hd ht := by
    obtain ⟨hmemo, hnot⟩ := hm m.owner ho
    have hheld : w.Holds m.owner m.component m.entity :=
      (h.live m hmem hmemo hd ht).resolve_right hnot
    exact Or.inl (hheld.congr ⟨fun _ _ => rfl, rfl⟩)

theorem mem_removeMemoTouchedBy {keys : List Entity} {o : SystemInvocation} :
    o ∈ removeMemoTouchedBy memo keys ↔ o ∈ memo ∧ o.touches keys = false := by
  rw [← AList.lookup_isSome, lookup_removeMemoTouchedBy, ← AList.lookup_isSome]
  cases o.touches keys <;> simp

theorem mem_reconcileRemovedOutputOwners {selected : Option (List SystemId)}
    {owners : List SystemInvocation} {systems : List BoxedSystem} {o : SystemInvocation} :
    o ∈ (reconcileRemovedOutputOwners selected memo systems owners).1 ↔
      o ∈ memo ∧ ¬ (o ∈ owners ∧ selects selected o.system = true) := by
  rw [← AList.lookup_isSome, lookup_reconcileRemovedOutputOwners, ← AList.lookup_isSome]
  split_ifs with hsel <;> simp [hsel]

/-- A round of retirement drops the memo entry of every owner it sweeps. -/
theorem Supported.retireTouched {r : Retirement α} (h : Supported C r.memo r.world emissions)
    (selected : Option (List SystemId)) (frontier : List Entity) :
    Supported C (retireTouched C selected r frontier).1.memo
      (retireTouched C selected r frontier).1.world emissions where
  indexed := h.indexed.retireOwners C _
  live m hmem ho hd ht := by
    obtain ⟨hmemo, htouch⟩ := mem_removeMemoTouchedBy.mp ho
    have hkeeps := keeps_retireOwners (C := C) (r.world.ownersTouchedBy frontier selected) r.world
    have hspared : m.owner ∉ r.world.ownersTouchedBy frontier selected := by
      intro howner
      have hsel := (List.mem_filter.mp howner).2
      rw [Bool.and_eq_true] at hsel
      have htouched : m.owner.touches frontier = true := hsel.2
      rw [htouch] at htouched
      cases htouched
    rcases h.live m hmem hmemo hd ht with hheld | hrecorded
    · rcases hkeeps.holds _ _ _ ht hheld with hheld | hrecorded | htaken
      · exact Or.inl hheld
      · exact Or.inr hrecorded
      · exact absurd ((takenBy_sweepsOf ht).mp htaken) hspared
    · exact Or.inr (hkeeps.grows.componentOwners.subset hrecorded)

theorem Supported.rounds {r : Retirement α} (h : Supported C r.memo r.world emissions)
    (selected : Option (List SystemId)) (fuel : Nat) (seen frontier : List Entity) :
    let r' := Worklist.rounds (Porridge.retireTouched C selected) fuel r seen frontier
    Supported C r'.memo r'.world emissions :=
  Worklist.rounds_invariant (fun _ => True)
    (fun r : Retirement α => Supported C r.memo r.world emissions)
    (fun _ frontier hr _ => ⟨hr.retireTouched selected frontier, fun _ _ => trivial⟩)
    fuel r seen frontier h fun _ _ => trivial

theorem Supported.reconcileRemovedInvocations (h : Supported C memo w emissions)
    (removed : List Entity) (removedOwners : List SystemInvocation) (systems : List BoxedSystem)
    (selected : Option (List SystemId)) :
    let r := (Porridge.reconcileRemovedInvocations C w memo removed removedOwners systems selected).1
    Supported C r.memo r.world emissions :=
  Supported.rounds (h.mono fun _ ho => (mem_reconcileRemovedOutputOwners.mp ho).1) selected _ _ _

section Commit

/-- Publishing outputs makes the emissions of their owners live. -/
theorem supported_publishOutputs {deferInserts : Bool} :
    ∀ (outputs : List (SystemOutput α)) {s s' : State α} {emissions : List Emission}
      {promised : SystemInvocation → Prop},
      publishOutputs C s outputs deferInserts = some s' →
        (s.world.Indexed fun _ _ => False) → s.world.Live C promised emissions →
          (s'.world.Indexed fun _ _ => False) ∧
            s'.world.Live C (fun o => promised o ∨ ∃ output ∈ outputs, output.owner = o)
              (s.world.noteOutputs C outputs deferInserts emissions)
  | [], s, s', emissions, promised, h, hi, hl => by
    have heq : s = s' := Option.some.inj h
    subst heq
    exact ⟨hi, hl.mono fun o ho => ho.resolve_right (by simp)⟩
  | output :: outputs, s, s', emissions, promised, h, hi, hl => by
    obtain ⟨w, hw, hrest⟩ := publishOutputs_cons h
    have hindexed : w.Indexed fun _ _ => False := hi.applyOutput C hw
    have hlive := hl.output hw
    obtain ⟨hindexed', hlive'⟩ := supported_publishOutputs outputs hrest hindexed hlive
    refine ⟨hindexed', ?_⟩
    have hnoted : s.world.noteOutputs C (output :: outputs) deferInserts emissions =
        w.noteOutputs C outputs deferInserts
          (s.world.noteOutput C output deferInserts emissions) := by
      unfold noteOutputs
      simp only [List.history, hw]
    rw [hnoted]
    refine hlive'.mono fun o ho => ?_
    rcases ho with ho | ⟨output', hmem, ho⟩
    · exact Or.inl (Or.inl ho)
    · rcases List.mem_cons.mp hmem with rfl | hmem
      · exact Or.inl (Or.inr ho.symm)
      · exact Or.inr ⟨output', hmem, ho⟩

theorem mem_publishMemo {run : SystemRun α} {o : SystemInvocation} {settleEpoch : Nat}
    (h : o ∈ publishMemo w settleEpoch run memo) :
    o ∈ memo ∨ ∃ update ∈ run.memoUpdates, update.1 = o := by
  unfold publishMemo at h
  refine List.foldlRecOn run.memoUpdates _
    (motive := fun t : MemoTable => o ∈ t → o ∈ memo ∨ ∃ update ∈ run.memoUpdates, update.1 = o)
    Or.inl (fun t ht update hu ho => ?_) h
  rcases AList.mem_insert _ |>.mp ho with heq | ho
  · exact Or.inr ⟨update, hu, heq.symm⟩
  · exact ht ho

/-- An accepted paired run leaves the updated table supported. -/
theorem Supported.publishRun {s : State α} (h : Supported C memo s.world emissions)
    {run : SystemRun α} (hp : run.paired = true) {deferInserts : Bool}
    {published : MemoTable × State α}
    (hr : Porridge.publishRun C memo s run deferInserts = some published) :
    Supported C published.1 published.2.world
      (s.world.noteOutputs C run.outputs deferInserts emissions) := by
  obtain ⟨s', hs', hr⟩ := Option.bind_eq_some_iff.mp hr
  cases hr
  obtain ⟨hindexed, hlive⟩ := supported_publishOutputs run.outputs hs' h.indexed h.live
  have hsame := sameOwnership_reconcileWritten C s'.world run.writes
  have hgrows := grows_reconcileWritten C s'.world run.writes
  refine ⟨hsame.indexed hindexed, (hlive.same hgrows hsame).mono fun o ho => ?_⟩
  rcases mem_publishMemo ho with ho | ⟨update, hu, rfl⟩
  · exact Or.inl ho
  · obtain ⟨output, hmem, howner⟩ := List.any_eq_true.mp (List.all_eq_true.mp hp update hu)
    exact Or.inr ⟨output, hmem, of_decide_eq_true howner⟩

theorem Supported.reconcileCommit {s : State α} (h : Supported C memo s.world emissions) :
    let r := Porridge.reconcileCommit C memo s
    Supported C r.1 r.2.world emissions := by
  have hdrained : Supported C
      (reconcileRemovedOutputOwners none memo s.systems s.world.removedComponentOwners).1
      s.world.drainRemovals emissions := h.drain fun o ho => by
    obtain ⟨hmemo, hnot⟩ := mem_reconcileRemovedOutputOwners.mp ho
    exact ⟨hmemo, fun howner => hnot ⟨howner, rfl⟩⟩
  unfold Porridge.reconcileCommit
  dsimp only
  split_ifs with hempty hretired
  · exact h.drain fun o ho => ⟨ho, by simp [hempty.2.2]⟩
  · exact hdrained
  · exact hdrained.reconcileRemovedInvocations _ _ _ _
  · exact hdrained.reconcileRemovedInvocations _ _ _ _

theorem Supported.commitSystemRun {s : State α} (h : Supported C memo s.world emissions)
    {run : SystemRun α} (hp : run.paired = true) {phase : Option Phase}
    {r : MemoTable × State α × CommitProgress}
    (hr : Porridge.commitSystemRun C memo s run phase = some r) :
    Supported C r.1 r.2.1.world (if r.2.2.stale then emissions
      else s.world.noteOutputs C run.outputs (phase = some .settle) emissions) := by
  unfold Porridge.commitSystemRun at hr
  split_ifs at hr with hcurrent
  · obtain ⟨published, hpublished, hr⟩ := Option.bind_eq_some_iff.mp hr
    cases hr
    exact (h.publishRun hp hpublished).reconcileCommit
  · cases hr
    exact h.same (grows_reconcileWritten C s.world run.writes)
      (sameOwnership_reconcileWritten C s.world run.writes)

end Commit
end Porridge
