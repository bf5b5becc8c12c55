import Porridge.Protocol.Onward
import Porridge.World.Stillness

/-! What a healing pass establishes, and what keeps it: a commit that does not move the revision. -/
namespace Porridge

variable {α : Type} {C : Components α}

/-- No entry of the table is stale for a view. -/
def AmbientFresh (s : State α) (memo : MemoTable) : Prop :=
  ∀ o m, memo.lookup o = some m → isStaleAmbient s o m = false

instance (s : State α) (memo : MemoTable) : Decidable (AmbientFresh s memo) :=
  decidable_of_iff (∀ b ∈ memo.entries, isStaleAmbient s b.1 b.2 = false)
    ⟨fun h o m hm => h ⟨o, m⟩ (AList.mem_lookup_iff.mp hm),
      fun h b hb => h b.1 b.2 (AList.mem_lookup_iff.mpr hb)⟩

section Staleness

variable {s s' : State α} {o : SystemInvocation} {m : MemoEntry}

/-- Staleness looks at the phase and the views of the system, the epoch and the watermarks. -/
theorem isStaleAmbient_eq (s : State α) (o : SystemInvocation) (m : MemoEntry) :
    isStaleAmbient s o m = (m.settleEpoch == s.settleEpoch &&
      ((s.systems.map BoxedSystem.ambient)[o.system]?).any fun a =>
        a.1 != .settle && a.2.any fun t => m.plannedRevision < s.world.storeWatermark t) := by
  simp only [isStaleAmbient, List.getElem?_map, Option.any_map]
  rfl

theorem isStaleAmbient_congr (hepoch : s'.settleEpoch = s.settleEpoch)
    (hambient : s'.systems.map BoxedSystem.ambient = s.systems.map BoxedSystem.ambient)
    (hmarks : ∀ t, s'.world.storeWatermark t = s.world.storeWatermark t) :
    isStaleAmbient s' o m = isStaleAmbient s o m := by
  rw [isStaleAmbient_eq, isStaleAmbient_eq, hepoch, hambient]
  simp only [hmarks]

/-- The entries of `Settle` systems are exempt. -/
theorem isStaleAmbient_of_settle (h : ∀ system ∈ s.systems[o.system]?, system.phase = .settle) :
    isStaleAmbient s o m = false := by
  unfold isStaleAmbient
  cases hsystem : s.systems[o.system]? with
  | none => simp
  | some system => simp [h system hsystem]

theorem isStaleAmbient_eq_false_iff : isStaleAmbient s o m = false ↔
    (m.settleEpoch = s.settleEpoch → ∀ system ∈ s.systems[o.system]?, system.phase ≠ .settle →
      ∀ t ∈ system.viewFreshness, s.world.storeWatermark t ≤ m.plannedRevision) := by
  unfold isStaleAmbient
  cases hsystem : s.systems[o.system]? with
  | none => simp
  | some system =>
    by_cases hepoch : m.settleEpoch = s.settleEpoch
    · by_cases hphase : system.phase = .settle
      · simp [hphase]
      · simp [hepoch, hphase]
    · simp [hepoch]

end Staleness

/-- A pass that finds no victim changes nothing, and leaves no stale entry. -/
theorem fresh_of_healStaleAmbient {attempts attempts' : Dict SystemInvocation Nat}
    {s s' : State α} (h : healStaleAmbient attempts s = some (false, attempts', s')) :
    s' = s ∧ AmbientFresh s s.memo := by
  obtain ⟨r, hfold, hr⟩ := Option.map_eq_some_iff.mp h
  have hnone : (!(healingVictims s).isEmpty) = false := congrArg Prod.fst hr
  have hvictims : healingVictims s = [] := by simpa using hnone
  rw [hvictims] at hfold
  cases hfold
  refine ⟨(congrArg (·.2.2) hr).symm, fun o m hm => ?_⟩
  have hempty := List.map_eq_nil_iff.mp hvictims
  have hstale := List.filter_eq_nil_iff.mp hempty ⟨o, m⟩ (AList.mem_lookup_iff.mp hm)
  simpa using hstale

/-- Where no system outside the `Settle` phase has a view, a pass finds no victim. -/
theorem healStaleAmbient_of_unviewed {s : State α} (attempts : Dict SystemInvocation Nat)
    (h : ∀ system ∈ s.systems, system.phase ≠ .settle → system.viewFreshness = []) :
    healStaleAmbient attempts s = some (false, attempts, s) := by
  have hvictims : healingVictims s = [] := by
    refine List.map_eq_nil_iff.mpr (List.filter_eq_nil_iff.mpr fun b _ => ?_)
    rw [Bool.not_eq_true, isStaleAmbient_eq_false_iff]
    intro _ system hsystem hphase t ht
    rw [h system (List.mem_of_getElem? hsystem) hphase] at ht
    cases ht
  simp [healStaleAmbient, hvictims]

section Commits

variable {s s' : State α} {memo after : MemoTable} {run : SystemRun α} {phase : Option Phase}
  {progress : CommitProgress}

theorem lookup_publishMemo (w : World α) (settleEpoch : Nat) (run : SystemRun α) (memo : MemoTable)
    {o : SystemInvocation} {m : MemoEntry}
    (h : (publishMemo w settleEpoch run memo).lookup o = some m) :
    memo.lookup o = some m ∨ ∃ update ∈ run.memoUpdates, update.1 = o ∧
      m = { update.2.refreshWritten w run.writes with settleEpoch } := by
  unfold publishMemo at h
  revert h
  generalize run.memoUpdates = updates
  induction updates generalizing memo with
  | nil => exact Or.inl
  | cons update updates ih =>
    intro h
    rcases ih _ h with hm | ⟨later, hlater, ho, hm⟩
    · rw [Dict.lookup_insert] at hm
      split_ifs at hm with ho
      · exact Or.inr ⟨update, List.mem_cons_self, ho.symm, (Option.some.inj hm).symm⟩
      · exact Or.inl hm
    · exact Or.inr ⟨later, List.mem_cons_of_mem _ hlater, ho, hm⟩

theorem publishOutputs_home {outputs : List (SystemOutput α)} {deferInserts : Bool}
    (h : publishOutputs C s outputs deferInserts = some s') :
    s'.memo = s.memo ∧ s'.settleEpoch = s.settleEpoch := by
  refine List.foldlM_some_induction (fun u : State α => u.memo = s.memo ∧
    u.settleEpoch = s.settleEpoch) outputs h ⟨rfl, rfl⟩ ?_
  intro u output u' _ hu hstep
  obtain ⟨w, -, hw⟩ := Option.bind_eq_some_iff.mp hstep
  cases hw
  exact hu

theorem reconcileCommit_home (memo : MemoTable) (s : State α) :
    (reconcileCommit C memo s).2.memo = s.memo ∧
      (reconcileCommit C memo s).2.settleEpoch = s.settleEpoch := by
  unfold reconcileCommit
  dsimp only
  split_ifs <;> exact ⟨rfl, rfl⟩

/-- A commit works on the table it is given: what is there afterwards was there before, or is an
update of the run. -/
theorem commitSystemRun_table
    (h : commitSystemRun C memo s run phase = some (after, s', progress)) :
    s'.memo = s.memo ∧ s'.settleEpoch = s.settleEpoch ∧
      (progress.needsFollowup = false → s'.world.revision = s.world.revision) ∧
        ∀ o m, after.lookup o = some m → memo.lookup o = some m ∨
          ∃ update ∈ run.memoUpdates, update.1 = o ∧ update.2.isCurrent s.world = true ∧
            ∃ w, World.Managed C s.world w ∧ World.Tidies C w s'.world ∧
              m.deps = update.2.deps.map (Dep.refreshWritten w run.writes) := by
  unfold commitSystemRun at h
  split_ifs at h with hcurrent
  · obtain ⟨published, hpublished, h⟩ := Option.bind_eq_some_iff.mp h
    cases h
    obtain ⟨u, hu, hrun⟩ := Option.bind_eq_some_iff.mp hpublished
    cases hrun
    obtain ⟨hmemo, hepoch⟩ := publishOutputs_home hu
    obtain ⟨hmemo', hepoch'⟩ := reconcileCommit_home (C := C)
      (publishMemo (u.world.reconcileWritten C run.writes) s.settleEpoch run memo)
      { u with world := u.world.reconcileWritten C run.writes }
    refine ⟨hmemo'.trans hmemo, hepoch'.trans hepoch, fun hsame => ?_, fun o m hm => ?_⟩
    · have hparts := Bool.or_eq_false_iff.mp hsame
      simpa using hparts.1
    · refine (lookup_publishMemo _ _ run memo (within_reconcileCommit C _ _ o m hm)).imp_right ?_
      rintro ⟨update, hupdate, ho, rfl⟩
      have hreconciled : World.Managed C s.world (u.world.reconcileWritten C run.writes) :=
        (managed_publishOutputs hu).trans (tidies_reconcileWritten u.world run.writes).managed
      have htreated := tidies_reconcileCommit (C := C)
        (publishMemo (u.world.reconcileWritten C run.writes) s.settleEpoch run memo)
        { u with world := u.world.reconcileWritten C run.writes }
      exact ⟨update, hupdate, ho, List.all_eq_true.mp hcurrent update hupdate, _, hreconciled,
        htreated, rfl⟩
  · cases h
    refine ⟨rfl, rfl, fun hsame => ?_, fun o m hm => Or.inl hm⟩
    simpa using hsame

/-- While the revision stands no watermark moves. -/
theorem World.Later.storeWatermark_eq {w w' : World α} (h : World.Later C w w') (hw : w.Coherent)
    (hr : w'.revision = w.revision) (t : TypeId) : w'.storeWatermark t = w.storeWatermark t := by
  obtain ⟨hcoherent, hfollows⟩ := (World.Follows.refl (C := C) w).later hw h
  refine ((hfollows.stores t).resolve_left fun hlt => ?_).1
  have hle := hcoherent.watermarks t
  rw [hr] at hle
  exact absurd hlt (not_lt.mpr hle)

/-- A commit of `Settle` rows that keeps the revision leaves a fresh table fresh. -/
theorem AmbientFresh.commit (h : AmbientFresh s memo) (hw : s.world.Coherent)
    (hc : commitSystemRun C memo s run phase = some (after, s', progress))
    (hr : s'.world.revision = s.world.revision)
    (hupdates : ∀ update ∈ run.memoUpdates, ∀ system ∈ s.systems[update.1.system]?,
      system.phase = .settle) : AmbientFresh s' after := by
  obtain ⟨-, hepoch, -, htable⟩ := commitSystemRun_table hc
  have honward := (steers_commitSystemRun hc).onward
  intro o m hm
  rw [isStaleAmbient_congr hepoch honward.ambient (honward.world.storeWatermark_eq hw hr)]
  rcases htable o m hm with hbefore | ⟨update, hupdate, rfl, -⟩
  · exact h o m hbefore
  · exact isStaleAmbient_of_settle (hupdates update hupdate)

end Commits
end Porridge
