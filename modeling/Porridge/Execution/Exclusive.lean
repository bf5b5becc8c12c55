import Mathlib.Data.List.Flatten
import Porridge.Execution
import Porridge.PhaseLoop.Admission

/-! Exclusive access: what is in flight together declares no conflicting accesses, unless rows that
reserve nothing start beside each other. -/
namespace Porridge

namespace PlannedInvocation

/-- The declared accesses of the two rows do not conflict. -/
def Apart (r r' : PlannedInvocation) : Prop :=
  ∀ a ∈ r.access, ∀ b ∈ r'.access, a.conflicts b = false

instance (r r' : PlannedInvocation) : Decidable (r.Apart r') :=
  inferInstanceAs (Decidable (∀ a ∈ r.access, ∀ b ∈ r'.access, _))

theorem Apart.symm {r r' : PlannedInvocation} (h : r.Apart r') : r'.Apart r := by
  intro a ha b hb
  rw [Access.conflicts_comm]
  exact h b hb a ha

def StartApart (others rows : List PlannedInvocation) : Prop :=
  rows.Pairwise Apart ∧ ∀ r ∈ rows, ∀ r' ∈ others, r.Apart r'

instance (others rows : List PlannedInvocation) : Decidable (StartApart others rows) :=
  inferInstanceAs (Decidable (_ ∧ _))

/-- Rows that join others keep them apart exactly where they start apart. -/
theorem pairwise_join {others rows joined : List PlannedInvocation}
    (hp : joined.Perm (rows ++ others)) (h : others.Pairwise Apart) :
    joined.Pairwise Apart ↔ StartApart others rows := by
  have hperm : joined.Pairwise Apart ↔ (rows ++ others).Pairwise Apart :=
    hp.pairwise_iff fun hab => hab.symm
  rw [hperm, List.pairwise_append]
  constructor
  · rintro ⟨hrows, -, hcross⟩
    exact ⟨hrows, hcross⟩
  · rintro ⟨hrows, hcross⟩
    exact ⟨hrows, h, hcross⟩

end PlannedInvocation

open PlannedInvocation

namespace Execution

variable {α : Type} {P : Program α} {x x' : Execution α} {p : PartyId}

/-- No two rows in flight declare conflicting accesses. -/
def Exclusive (x : Execution α) : Prop := x.inFlight.Pairwise Apart

instance (x : Execution α) : Decidable x.Exclusive := inferInstanceAs (Decidable (List.Pairwise _ _))

/-- The rows in flight whose runs reserve nothing: those of wrapped batches and settle phases. -/
def unreserved (x : Execution α) : List PlannedInvocation :=
  (x.loop.toList.flatMap fun l =>
      (l.running.filter fun run => run.2.access = []).flatMap fun run => run.2.rows) ++
    x.passes.entries.flatMap fun b => b.2.flatMap PlannedSystemRun.rows

/-- The run that the phase loop is about to admit starts apart from the rows the reservations do
not know of, and from everything in flight where it reserves nothing itself. -/
def AdmitsApart (x : Execution α) (l : PhaseLoop α) : Prop :=
  match l.stage with
  | .planning ⟨_, _, (_, run) :: _⟩ =>
    l.Admits run → StartApart (if run.access = [] then x.inFlight else x.unreserved) run.rows
  | _ => True

/-- The rows that a settle phase is about to start are apart from everything in flight. -/
def SettlesApart (P : Program α) (x : Execution α) (p : PartyId) : Prop :=
  match x.drive.protocol.pc p with
  | .inSettlePhase _ memo _ => ∀ runs ∈ settleRuns P x.drive.protocol.state memo,
    StartApart x.inFlight (runs.flatMap PlannedSystemRun.rows)
  | _ => True

/-- Whatever starts without reserving what it declares starts apart. -/
def Keeps (P : Program α) (x : Execution α) : ExecutionStep α → Prop
  | .phase _ .admitNext => ∀ l ∈ x.loop, x.AdmitsApart l
  | .startSettle p => x.SettlesApart P p
  | _ => True

instance (x : Execution α) (l : PhaseLoop α) : Decidable (x.AdmitsApart l) := by
  unfold AdmitsApart
  split <;> infer_instance

instance (x : Execution α) (p : PartyId) : Decidable (x.SettlesApart P p) := by
  unfold SettlesApart
  split <;> infer_instance

instance (x : Execution α) : DecidablePred (x.Keeps P) := fun a => by
  unfold Keeps
  split <;> infer_instance

theorem exclusive_of_sublist (hx : x.Exclusive) (hsub : x'.inFlight.Sublist x.inFlight) :
    x'.Exclusive := List.Pairwise.sublist hsub hx

/-- The rows of runs in flight. -/
theorem runRows_sublist {running running' : List (RunId × PlannedSystemRun)}
    (h : running'.Sublist running) :
    (running'.flatMap fun run => run.2.rows).Sublist (running.flatMap fun run => run.2.rows) :=
  h.flatMap _

/-- The rows of settle phases once the entry of one caller has changed. -/
theorem passRows_insert (passes : Dict PartyId (List PlannedSystemRun)) (p : PartyId)
    (runs : List PlannedSystemRun) :
    ((passes.insert p runs).entries.flatMap fun b => b.2.flatMap PlannedSystemRun.rows) =
      runs.flatMap PlannedSystemRun.rows ++
        (passes.erase p).entries.flatMap fun b => b.2.flatMap PlannedSystemRun.rows := by
  rw [AList.entries_insert, List.flatMap_cons]
  rfl

/-- The rows of settle phases, those of one caller first. -/
theorem passRows_perm {passes : Dict PartyId (List PlannedSystemRun)} {p : PartyId}
    {runs : List PlannedSystemRun} (h : passes.lookup p = some runs) :
    (passes.entries.flatMap fun b => b.2.flatMap PlannedSystemRun.rows).Perm
      (runs.flatMap PlannedSystemRun.rows ++
        (passes.erase p).entries.flatMap fun b => b.2.flatMap PlannedSystemRun.rows) := by
  have hkey : p ∈ passes.entries.keys := AList.lookup_isSome.mp (by rw [h]; rfl)
  obtain ⟨runs', before, after, -, hsplit, herase⟩ := List.exists_of_kerase hkey
  have hmem : (⟨p, runs'⟩ : Sigma fun _ : PartyId => List PlannedSystemRun) ∈ passes.entries := by
    rw [hsplit]
    exact List.mem_append_right _ List.mem_cons_self
  have hruns : passes.lookup p = some runs' := AList.mem_lookup_iff.mpr hmem
  cases h.symm.trans hruns
  have hentries : passes.entries.Perm (⟨p, runs⟩ :: (passes.erase p).entries) := by
    have herase' : (passes.erase p).entries = before ++ after := herase
    rw [herase', hsplit]
    exact List.perm_middle
  have := hentries.flatMap_right fun b => b.2.flatMap PlannedSystemRun.rows
  rwa [List.flatMap_cons] at this

theorem passRows_erase_sublist (passes : Dict PartyId (List PlannedSystemRun)) (p : PartyId) :
    ((passes.erase p).entries.flatMap fun b => b.2.flatMap PlannedSystemRun.rows).Sublist
      (passes.entries.flatMap fun b => b.2.flatMap PlannedSystemRun.rows) :=
  (List.kerase_sublist p passes.entries).flatMap _

/-- Sections other than those of rows add nothing to what is in flight. -/
theorem act_sublist (a : Action α) (drive : Drive α) :
    (x.act a drive).inFlight.Sublist x.inFlight ∧ ∀ l ∈ (x.act a drive).loop, l ∈ x.loop := by
  have hloop : ∀ {loop : Option (PhaseLoop α)}, loop = x.loop ∨ loop = none →
      (loop.toList.flatMap fun l => l.running.flatMap fun run => run.2.rows).Sublist
        (x.loop.toList.flatMap fun l => l.running.flatMap fun run => run.2.rows) := by
    rintro loop (rfl | rfl)
    · exact List.Sublist.refl _
    · exact List.nil_sublist _
  unfold Execution.act
  split
  · exact ⟨(hloop (Or.inr rfl)).append (List.Sublist.refl _), fun _ h => nomatch h⟩
  · exact ⟨(List.Sublist.refl _).append (passRows_erase_sublist _ _), fun _ h => h⟩
  · rename_i p
    dsimp only
    by_cases hdrives : (x.drive.protocol.pc p).drives = true
    · rw [if_pos hdrives]
      exact ⟨(hloop (Or.inr rfl)).append (passRows_erase_sublist _ _), fun _ h => nomatch h⟩
    · rw [if_neg hdrives]
      exact ⟨(hloop (Or.inl rfl)).append (passRows_erase_sublist _ _), fun _ h => h⟩
  · exact ⟨List.Sublist.refl _, fun _ h => h⟩

/-- The run of a wave's queue is admitted next; no other section reads it. -/
theorem admitNext_of_queue {r r' : Runner α} {a : PhaseStep α} {snapshot : World α}
    {systems : List SystemId} {head : SystemId × PlannedSystemRun}
    {queue : List (SystemId × PlannedSystemRun)}
    (hstage : r.loop.stage = .planning ⟨snapshot, systems, head :: queue⟩)
    (hs : r.step P a = some r') : a = .admitNext := by
  cases a with
  | admitNext => rfl
  | turn => simp [Runner.step, Runner.turn, hstage] at hs
  | planNext => simp [Runner.step, Runner.planNext, hstage] at hs
  | endWave => simp [Runner.step, Runner.endWave, hstage] at hs
  | interrupt => simp [Runner.step, Runner.interrupt, hstage] at hs
  | preempt => simp [Runner.step, Runner.preempt, hstage] at hs
  | finish id outcome => simp [Runner.step, Runner.finish, hstage] at hs
  | endBatch => simp [Runner.step, Runner.endBatch, hstage] at hs

/-- What is in flight for the phase loop. -/
theorem inFlight_of_loop {l : PhaseLoop α} (h : x.loop = some l) :
    x.inFlight = (l.running.flatMap fun run => run.2.rows) ++
      x.passes.entries.flatMap fun b => b.2.flatMap PlannedSystemRun.rows := by
  unfold inFlight
  rw [h]
  simp

theorem unreserved_of_loop {l : PhaseLoop α} (h : x.loop = some l) :
    x.unreserved = ((l.running.filter fun run => run.2.access = []).flatMap fun run => run.2.rows) ++
      x.passes.entries.flatMap fun b => b.2.flatMap PlannedSystemRun.rows := by
  unfold unreserved
  rw [h]
  simp

/-- A run that the reservations admit is apart from the rows they know of. -/
theorem startApart_iff_unreserved {l : PhaseLoop α} {run : PlannedSystemRun} (hl : x.loop = some l)
    (htracked : l.Tracked) (hshaped : run.Shaped) (hadmits : l.Admits run)
    (hreserves : run.access ≠ []) :
    StartApart x.inFlight run.rows ↔ StartApart x.unreserved run.rows := by
  obtain hnone | ⟨row, hrows, haccess, -⟩ := hshaped
  · exact absurd hnone hreserves
  refine and_congr_right fun _ => ?_
  rw [hrows, inFlight_of_loop hl, unreserved_of_loop hl]
  constructor
  · intro h r hr r' hr'
    refine h r hr r' ?_
    rcases List.mem_append.mp hr' with hr' | hr'
    · obtain ⟨other, hother, hmem⟩ := List.mem_flatMap.mp hr'
      exact List.mem_append_left _
        (List.mem_flatMap.mpr ⟨other, (List.mem_filter.mp hother).1, hmem⟩)
    · exact List.mem_append_right _ hr'
  · intro h r hr r' hr'
    rcases List.mem_append.mp hr' with hr' | hr'
    · obtain ⟨other, hother, hmem⟩ := List.mem_flatMap.mp hr'
      by_cases hnone : other.2.access = []
      · refine h r hr r' (List.mem_append_left _ (List.mem_flatMap.mpr ⟨other, ?_, hmem⟩))
        exact List.mem_filter.mpr ⟨hother, decide_eq_true hnone⟩
      · obtain hnone' | ⟨row', hrows', haccess', -⟩ := htracked.shaped other hother
        · exact absurd hnone' hnone
        rw [hrows'] at hmem
        cases List.mem_singleton.mp hr
        cases List.mem_singleton.mp hmem
        intro a ha b hb
        rw [haccess] at ha
        rw [haccess'] at hb
        exact hadmits.2 other hother a ha b hb
    · exact h r hr r' (List.mem_append_right _ hr')

/-- The reservations of the phase loop are those of what it has in flight. -/
def Tracked (x : Execution α) : Prop := ∀ l ∈ x.loop, l.Tracked

theorem tracked_step (h : x.Tracked) {a : ExecutionStep α} (hs : step P x a = some x') :
    x'.Tracked := by
  cases step_cases hs with
  | act hpermits hact => exact fun l hl => h l ((act_sublist _ _).2 l hl)
  | enterPhase hphase hnone =>
    intro l hl
    cases hl
    obtain ⟨n, hdense⟩ := P.dense_componentRegistry
    exact PhaseLoop.tracked_enter hdense
  | skipPhase hnone => exact h
  | phase hpc hl hr =>
    intro l hmem
    cases hmem
    exact (Runner.tracked_step (h _ hl) hr).1
  | leavePhase hl hcompleted => exact fun _ hmem => nomatch hmem
  | startSettle hpc hfirst hruns => exact h
  | finishSettle hpc hrun hcommit => exact h

/-- A section that adds no row keeps what is in flight exclusive. -/
theorem exclusive_iff_of_sublist {a : ExecutionStep α} (hx : x.Exclusive)
    (hsub : x'.inFlight.Sublist x.inFlight) (hkeeps : x.Keeps P a) :
    x'.Exclusive ↔ x.Keeps P a :=
  ⟨fun _ => hkeeps, fun _ => exclusive_of_sublist hx hsub⟩

theorem exclusive_phase_iff (ht : x.Tracked) (hx : x.Exclusive) {a : PhaseStep α}
    {l : PhaseLoop α} {r r' : Runner α} (hl : x.loop = some l) (hloop : r.loop = l)
    (hr : r.step P a = some r') (hl' : x'.loop = some r'.loop) (hpasses : x'.passes = x.passes) :
    x'.Exclusive ↔ x.Keeps P (.phase p a) := by
  subst hloop
  have hinFlight := inFlight_of_loop hl
  have hinFlight' := inFlight_of_loop hl'
  rw [hpasses] at hinFlight'
  have hkeeps : x.Keeps P (.phase p .admitNext) ↔ x.AdmitsApart r.loop := by
    unfold Keeps
    dsimp only
    rw [hl]
    exact ⟨fun h => h r.loop rfl, fun h l' hmem => Option.some.inj hmem ▸ h⟩
  cases (Runner.tracked_step (ht r.loop hl) hr).2 with
  | @admitted snapshot systems system run queue id hstage hadmits hrunning =>
    cases admitNext_of_queue hstage hr
    have hperm : x'.inFlight.Perm (run.rows ++ x.inFlight) := by
      rw [hinFlight', hinFlight, hrunning, List.flatMap_append, List.flatMap_singleton,
        ← List.append_assoc]
      exact List.perm_append_comm.append_right _
    have hshaped : run.Shaped := by
      refine (ht r.loop hl).queued (system, run) ?_
      unfold PhaseLoop.queue
      rw [hstage]
      exact List.mem_cons_self
    have hapart : x.AdmitsApart r.loop ↔
        StartApart (if run.access = [] then x.inFlight else x.unreserved) run.rows := by
      unfold AdmitsApart
      rw [hstage]
      exact ⟨fun h => h hadmits, fun h _ => h⟩
    rw [hkeeps, hapart]
    refine (pairwise_join hperm hx).trans ?_
    by_cases hreserves : run.access = []
    · rw [if_pos hreserves]
    · rw [if_neg hreserves]
      exact startApart_iff_unreserved hl (ht r.loop hl) hshaped hadmits hreserves
  | kept hrunning hrefused =>
    refine exclusive_iff_of_sublist hx ?_ ?_
    · rw [hinFlight, hinFlight']
      exact (runRows_sublist hrunning).append (List.Sublist.refl _)
    · cases a with
      | admitNext =>
        rw [hkeeps]
        unfold AdmitsApart
        split
        · rename_i snapshot systems system run queue hstage
          exact fun hadmits => absurd hadmits (hrefused _ _ _ _ _ hstage)
        · trivial
      | _ => trivial

theorem exclusive_startSettle_iff (hx : x.Exclusive) {epoch : Epoch} {memo : MemoTable}
    {before : Revision} {runs : List PlannedSystemRun}
    (hpc : x.drive.protocol.pc p = .inSettlePhase epoch memo before)
    (hfirst : x.passes.lookup p = none)
    (hruns : settleRuns P x.drive.protocol.state memo = some runs) :
    Exclusive { x with passes := x.passes.insert p runs } ↔ x.Keeps P (.startSettle p) := by
  have herase : x.passes.erase p = x.passes := by
    refine AList.ext (List.kerase_of_notMem_keys ?_)
    exact fun hmem => absurd (AList.lookup_isSome.mpr hmem) (by rw [hfirst]; simp)
  have hkeeps : x.Keeps P (.startSettle p) ↔
      StartApart x.inFlight (runs.flatMap PlannedSystemRun.rows) := by
    unfold Keeps SettlesApart
    dsimp only
    rw [hpc]
    dsimp only
    rw [hruns]
    exact ⟨fun h => h runs rfl, fun h runs' hmem => Option.some.inj hmem ▸ h⟩
  rw [hkeeps]
  refine pairwise_join ?_ hx
  unfold inFlight
  dsimp only
  rw [passRows_insert, herase, ← List.append_assoc, ← List.append_assoc]
  exact List.perm_append_comm.append_right _

theorem exclusive_finishSettle (hx : x.Exclusive) {index : Nat} {run : PlannedSystemRun}
    (hrun : (x.pass p)[index]? = some run) (hloop : x'.loop = x.loop)
    (hpasses : x'.passes = x.passes.insert p ((x.pass p).eraseIdx index)) : x'.Exclusive := by
  have hpass : x.passes.lookup p = some (x.pass p) := by
    cases hlookup : x.passes.lookup p with
    | none =>
      rw [pass, Dict.getD, hlookup] at hrun
      simp at hrun
    | some runs =>
      rw [pass, Dict.getD, hlookup]
      rfl
  have hsub : (((x.pass p).eraseIdx index).flatMap PlannedSystemRun.rows).Sublist
      ((x.pass p).flatMap PlannedSystemRun.rows) :=
    (List.eraseIdx_sublist _ _).flatMap _
  have hperm := (passRows_perm hpass).append_left
    (x.loop.toList.flatMap fun l => l.running.flatMap fun run => run.2.rows)
  refine List.Pairwise.sublist ?_ ((hperm.pairwise_iff fun hab => Apart.symm hab).mp hx)
  unfold inFlight
  rw [hloop, hpasses, passRows_insert]
  exact (List.Sublist.refl _).append (hsub.append (List.Sublist.refl _))

/-- A section keeps what is in flight exclusive exactly where the rows it starts start apart. -/
theorem exclusive_step_iff (ht : x.Tracked) (hx : x.Exclusive) {a : ExecutionStep α}
    (hs : step P x a = some x') : x'.Exclusive ↔ x.Keeps P a := by
  cases step_cases hs with
  | act hpermits hact => exact exclusive_iff_of_sublist hx (act_sublist _ _).1 trivial
  | enterPhase hphase hnone =>
    refine exclusive_iff_of_sublist hx ?_ trivial
    unfold inFlight
    rw [hnone]
    exact List.Sublist.refl _
  | skipPhase hnone => exact exclusive_iff_of_sublist hx (List.Sublist.refl _) trivial
  | phase hpc hl hr => exact exclusive_phase_iff ht hx hl rfl hr rfl rfl
  | leavePhase hl hcompleted =>
    exact exclusive_iff_of_sublist hx
      ((List.nil_sublist _).append (List.Sublist.refl _)) trivial
  | startSettle hpc hfirst hruns => exact exclusive_startSettle_iff hx hpc hfirst hruns
  | finishSettle hpc hrun hcommit =>
    refine ⟨fun _ => trivial, fun _ => ?_⟩
    exact exclusive_finishSettle hx hrun rfl rfl

theorem tracked_new : (new P).Tracked := fun _ h => nomatch h

theorem exclusive_new : (new P).Exclusive := List.Pairwise.nil

/-- No two rows in flight conflict where rows that reserve nothing start apart; starting others is
the only way to break this. -/
theorem reachable_exclusive (h : (machine P).ReachableUnder (Keeps P) x) :
    x.Exclusive ∧ ∀ a x', step P x a = some x' → (x'.Exclusive ↔ x.Keeps P a) := by
  have hinv : x.Tracked ∧ x.Exclusive := by
    refine h.invariant (fun x => x.Tracked ∧ x.Exclusive) ?_ ?_
    · rintro x rfl
      exact ⟨tracked_new, exclusive_new⟩
    · rintro x a x' ⟨ht, hx⟩ hkeeps hs
      exact ⟨tracked_step ht hs, (exclusive_step_iff ht hx hs).mpr hkeeps⟩
  exact ⟨hinv.2, fun a x' hs => exclusive_step_iff hinv.1 hinv.2 hs⟩

/-- A system over the pairs of a row that it writes and a row that it reads. -/
def pairing : Runnable :=
  .function [.query (.entityParts [] [.mutRef 1]) .unit, .query (.entityParts [] [.read 2]) .unit]

/-- The system alone, with or without a hook before its batches. -/
def pairingBowl (hooked : Bool) : Program Nat :=
  ⟨Components.plain Nat, none, [(.evaluate, if hooked = true then .onStart pairing else pairing)]⟩

/-- Entity 0 pairs with entities 1 and 2; caller 1 plans the pairs and admits the first run. -/
def admitFirst : List (ExecutionStep Nat) :=
  [.act (.insert [.insert 1 0 (.data 7), .insert 2 1 (.data 8), .insert 2 2 (.data 8)]),
    .act (.callSettle 1 false)] ++ (Protocol.advances 4 1).map .act ++
      [.enterPhase 1, .enterPhase 1, .phase 1 .turn, .phase 1 .planNext, .phase 1 .admitNext]

/-- The second pair is refused while the first one is in flight. -/
def paired : Execution Nat :=
  ((machine (pairingBowl false)).run (new (pairingBowl false))
    (admitFirst ++ [.phase 1 .admitNext])).getD (new (pairingBowl false))

theorem paired_exclusive :
    (paired.Exclusive ∧ ∀ a x', step (pairingBowl false) paired a = some x' →
      (x'.Exclusive ↔ paired.Keeps (pairingBowl false) a)) ∧
      paired.inFlight.map (fun row => row.owner.keys) = [[0, 1]] := by
  have hrun : (machine (pairingBowl false)).run (new (pairingBowl false))
      (admitFirst ++ [.phase 1 .admitNext]) = some paired := rfl
  have hallowed : (machine (pairingBowl false)).Allows (Keeps (pairingBowl false))
      (new (pairingBowl false)) (admitFirst ++ [.phase 1 .admitNext]) := by decide
  exact ⟨reachable_exclusive (Machine.ReachableUnder.run (.init rfl) hallowed hrun), by decide⟩

/-- With a hook before the batch both pairs start together, and both write entity 0. -/
def batched : Execution Nat :=
  ((machine (pairingBowl true)).run (new (pairingBowl true)) admitFirst).getD
    (new (pairingBowl true))

theorem batch_writes_one_row_twice :
    Reachable (pairingBowl true) batched ∧ ¬ batched.Exclusive ∧
      batched.inFlight.map (fun row => (row.owner.keys, writtenRows row.access)) =
        [([0, 1], [(1, 0)]), ([0, 2], [(1, 0)])] := by
  have hrun : (machine (pairingBowl true)).run (new (pairingBowl true)) admitFirst =
      some batched := rfl
  exact ⟨Machine.Reachable.run (.init rfl) hrun, by decide, by decide⟩

end Execution
end Porridge
