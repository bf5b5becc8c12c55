import Porridge.Commit.Losers
import Porridge.Query.Aliasing
import Porridge.World.Fate

/-! What the memo entries of a committed run absorb of its in-place writes. -/
namespace Porridge

variable {α : Type} (C : Components α)

/-- The command writes or removes the component of `t` on `e`; a bundle lands on the entity
registered for its singleton marker. -/
def Command.touches (w : World α) (t : TypeId) (e : Entity) : Command α → Bool
  | .insert t' e' _ => t' == t && e' == e
  | .spawn bundle reserved =>
    bundle.any (·.1 == t) &&
      (match World.bundleSingletonKey C bundle with
      | some key => (w.spawnTarget reserved key).1 == e
      | none => false)
  | .removeEntity e' => e' == e
  | .removeComponent t' e' => t' == t && e' == e

namespace PlannedInvocation

/-- The row wrote the pair in place, and its buffer left the pair alone. -/
def ownWrite (w : World α) (row : PlannedInvocation) (commands : List (Command α)) (t : TypeId)
    (e : Entity) : Bool :=
  (t, e) ∈ writtenRows row.access && !commands.any (·.touches C w t e)

/-- The observation with exactly the row's own in-place writes absorbed. -/
def absorbOwn (before after : World α) (row : PlannedInvocation) (commands : List (Command α))
    (d : Dep) : Dep :=
  if row.ownWrite C before commands d.component d.entity = true then
    d.refreshWritten after [(d.component, d.entity)]
  else d

end PlannedInvocation

namespace PlannedSystemRun

variable (run : PlannedSystemRun)

/-- The row at `i` with its buffer; no later row of the run records the same invocation. -/
def Records (outcome : RunOutcome α) (i : Nat) (row : PlannedInvocation)
    (commands : List (Command α)) : Prop :=
  run.rows[i]? = some row ∧ outcome.rows[i]? = some commands ∧
    ∀ row' ∈ run.rows.drop (i + 1), row'.owner ≠ row.owner

/-- Every recorded entry absorbs the in-place writes of its own invocation and no others. -/
def AbsorbsOwn (outcome : RunOutcome α) (before after : World α) (memo : MemoTable) : Prop :=
  ∀ i row commands, run.Records outcome i row commands →
    ∃ entry, memo.lookup row.owner = some entry ∧
      entry.deps = row.deps.map (row.absorbOwn C before after commands)

/-- The run wrote the observed pair in place, but not the row itself, or not only in place. -/
def Foreign (outcome : RunOutcome α) (before : World α) (row : PlannedInvocation)
    (commands : List (Command α)) (d : Dep) : Prop :=
  d.storeScoped = false ∧ (d.component, d.entity) ∈ (run.finish outcome).writes ∧
    row.ownWrite C before commands d.component d.entity = false

instance (outcome : RunOutcome α) (before : World α) (row : PlannedInvocation)
    (commands : List (Command α)) (d : Dep) :
    Decidable (run.Foreign C outcome before row commands d) :=
  inferInstanceAs (Decidable (_ ∧ _))

/-- What the run does to each such pair leaves it the revision that the entry observes. -/
def SparesForeign (outcome : RunOutcome α) (before : World α) (deferInserts : Bool) : Prop :=
  ∀ i row commands, run.Records outcome i row commands → ∀ d ∈ row.deps,
    run.Foreign C outcome before row commands d →
      before.Outlives C (run.finish outcome).outputs deferInserts d.component d.entity

/-- The last update of an invocation is the entry it is left with. -/
theorem lookup_publishMemo (w : World α) (settleEpoch : Nat) (run : SystemRun α)
    {o : SystemInvocation} {m : MemoEntry} :
    ∀ {before after : List (SystemInvocation × MemoEntry)} {memo : MemoTable},
      run.memoUpdates = before ++ (o, m) :: after → (∀ update ∈ after, update.1 ≠ o) →
        (publishMemo w settleEpoch run memo).lookup o =
          some { m.refreshWritten w run.writes with settleEpoch } := by
  intro before after memo hsplit hlast
  unfold publishMemo
  rw [hsplit, List.foldl_append, List.foldl_cons]
  refine List.foldlRecOn after _ (motive := fun t : MemoTable => t.lookup o = _)
    (AList.lookup_insert _) fun t ht update hmem => ?_
  rw [AList.lookup_insert_ne (hlast update hmem).symm]
  exact ht

theorem refreshWritten_eq_absorbOwn {outcome : RunOutcome α} {before after : World α}
    {row : PlannedInvocation} {commands : List (Command α)} {d : Dep} {i : Nat}
    (hrecords : run.Records outcome i row commands) (hcurrent : d.isCurrent before = true) :
    d.refreshWritten after (run.finish outcome).writes =
        row.absorbOwn C before after commands d ↔
      (run.Foreign C outcome before row commands d →
        after.revisionByType d.component d.entity =
          before.revisionByType d.component d.entity) := by
  have hwrites : (d.component, d.entity) ∈ writtenRows row.access →
      (d.component, d.entity) ∈ (run.finish outcome).writes := fun hmem =>
    List.mem_flatMap.mpr ⟨row, List.mem_of_getElem? hrecords.1, hmem⟩
  unfold PlannedInvocation.absorbOwn Foreign
  by_cases hown : row.ownWrite C before commands d.component d.entity = true
  · have hmem := (Bool.and_eq_true _ _).mp hown
    have hmerged := hwrites (of_decide_eq_true hmem.1)
    rw [if_pos hown]
    constructor
    · rintro - ⟨-, -, hnot⟩
      exact absurd hown (by rw [hnot]; simp)
    · intro _
      unfold Dep.refreshWritten
      simp [hmerged]
  · rw [if_neg hown]
    by_cases hscope : d.storeScoped = false
    · by_cases hmerged : (d.component, d.entity) ∈ (run.finish outcome).writes
      · have hobserved : before.revisionByType d.component d.entity = d.revision := by
          simpa [Dep.isCurrent, hscope] using hcurrent
        have hforeign : d.storeScoped = false ∧
            (d.component, d.entity) ∈ (run.finish outcome).writes ∧
              row.ownWrite C before commands d.component d.entity = false :=
          ⟨hscope, hmerged, Bool.eq_false_of_not_eq_true hown⟩
        unfold Dep.refreshWritten
        rw [if_pos ⟨hmerged, hscope⟩, hobserved]
        constructor
        · exact fun heq _ => congrArg Dep.revision heq
        · intro h
          rw [h hforeign]
      · unfold Dep.refreshWritten
        rw [if_neg fun h => hmerged h.1]
        exact ⟨fun _ h => absurd h.2.1 hmerged, fun _ => rfl⟩
    · unfold Dep.refreshWritten
      rw [if_neg fun h => hscope h.2]
      exact ⟨fun _ h => absurd h.1 hscope, fun _ => rfl⟩

/-- The memo update that a recorded row hands to the commit. -/
theorem memoUpdates_of_records {outcome : RunOutcome α} {i : Nat} {row : PlannedInvocation}
    {commands : List (Command α)} (h : run.Records outcome i row commands) :
    ∃ before after, (run.finish outcome).memoUpdates =
        before ++ (row.owner, ⟨row.deps, run.plannedRevision, 0⟩) :: after ∧
      ∀ update ∈ after, update.1 ≠ row.owner := by
  obtain ⟨hrow, -, hlast⟩ := h
  obtain ⟨hlt, hget⟩ := List.getElem?_eq_some_iff.mp hrow
  have hsplit : run.rows = run.rows.take i ++ row :: run.rows.drop (i + 1) := by
    rw [← hget, ← List.drop_eq_getElem_cons hlt, List.take_append_drop]
  let update : PlannedInvocation → SystemInvocation × MemoEntry := fun row =>
    (row.owner, ⟨row.deps, run.plannedRevision, 0⟩)
  refine ⟨(run.rows.take i).map update, (run.rows.drop (i + 1)).map update, ?_, ?_⟩
  · show run.rows.map update = _
    conv_lhs => rw [hsplit]
    rw [List.map_append, List.map_cons]
  · intro u hu
    obtain ⟨row', hmem, rfl⟩ := List.mem_map.mp hu
    exact hlast row' hmem

section Written

variable {w : World α} {t : TypeId} {e : Entity}

theorem mem_writtenRows {access : List Access} :
    (t, e) ∈ writtenRows access ↔ ⟨.write, t, some e⟩ ∈ access := by
  simp only [writtenRows, List.mem_filterMap, List.mem_filter, beq_iff_eq, Option.map_eq_some_iff,
    Prod.mk.injEq]
  constructor
  · rintro ⟨⟨kind, component, entity⟩, ⟨hmem, rfl⟩, x, rfl, rfl, rfl⟩
    exact hmem
  · exact fun hmem => ⟨_, ⟨hmem, rfl⟩, e, rfl, rfl, rfl⟩

theorem pinned_of_mutates {q : QueryParam} (f : QueryFilter) (h : t ∈ q.mutates) :
    t ∈ pinnedTypes q f := by
  refine List.mem_append_left _ (List.mem_filter.mpr ⟨?_, decide_eq_true ?_⟩)
  all_goals
    cases q with
    | mutRef _ => exact h
    | entityParts facet parts =>
      obtain ⟨part, hpart, hmutates⟩ := List.mem_flatMap.mp h
      cases part with
      | mutRef t' =>
        cases List.mem_singleton.mp hmutates
        first
          | exact List.mem_append_right _ (List.mem_filterMap.mpr ⟨_, hpart, rfl⟩)
          | exact List.mem_flatMap.mpr ⟨_, hpart, List.mem_singleton_self _⟩
      | _ => cases hmutates
    | _ => cases h

/-- What a parameter writes on its row it requires and records. -/
theorem pinned_of_written {p : SystemParam} {s : ParamState}
    (h : ⟨.write, t, some e⟩ ∈ p.access w s) : s = .row e ∧ t ∈ p.pinnedTypes := by
  have hwrites := SystemParam.write_mem_access.mp h
  cases p with
  | query q f | outer q f =>
    cases s with
    | row e' => exact ⟨congrArg _ (Option.some.inj hwrites.1).symm, pinned_of_mutates f hwrites.2⟩
    | unit => exact hwrites.elim
    | absent => first | exact hwrites.elim | cases hwrites.1
  | view q f | trackedView q f => cases s <;> cases hwrites.1
  | commands | worldMeta => cases s <;> exact hwrites.elim

variable {C} {run} {runnable : Runnable} {system : SystemId} {held : MemoTable}
  {hint : Option (List Entity)} {runs : List PlannedSystemRun}

/-- What an accepted run has written in place is there at its commit. -/
theorem has_of_written (hw : World.Reachable C w)
    (hplan : runnable.streamRuns C system w held hint = some runs) (hrun : run ∈ runs)
    {outcome : RunOutcome α} {before : World α}
    (hcurrent : (run.finish outcome).memoUpdates.all (·.2.isCurrent before) = true)
    (hmem : (t, e) ∈ (run.finish outcome).writes) (htracked : C.tracked t = true) :
    before.has t e = true := by
  obtain ⟨schema, hpresent⟩ := World.present_of_reachable hw
  obtain ⟨row, hrow, hwritten⟩ := List.mem_flatMap.mp hmem
  rw [mem_writtenRows, (Runnable.ofState_of_mem_streamRuns hplan run hrun row hrow).access] at hwritten
  obtain ⟨⟨p, state⟩, hzip, haccess⟩ := List.mem_flatMap.mp hwritten
  obtain ⟨rfl, hpinned⟩ := pinned_of_written haccess
  obtain ⟨hhas, hdep⟩ := pinned_of_planned (World.coherent_of_reachable hw) hpresent hplan hrun hrow
    hzip hpinned htracked
  have hentry := List.all_eq_true.mp hcurrent (row.owner, ⟨row.deps, run.plannedRevision, 0⟩)
    (List.mem_map_of_mem hrow)
  have hsame : before.revisionByType t e = w.revisionByType t e := by
    simpa [Dep.isCurrent] using List.all_eq_true.mp hentry _ hdep
  obtain ⟨x, hx⟩ := (World.has_iff w t e).mp hhas
  have hrevision : before.revisionByType t e = some x.revision := by
    rw [hsame, World.revisionByType, hx]
    rfl
  obtain ⟨y, hy, -⟩ := Option.map_eq_some_iff.mp hrevision
  exact (World.has_iff before t e).mpr ⟨y, hy⟩

theorem tracked_of_mem_deps (hplan : runnable.streamRuns C system w held hint = some runs)
    (hrun : run ∈ runs) {row : PlannedInvocation} (hrow : row ∈ run.rows) {d : Dep}
    (hd : d ∈ row.deps) (hscope : d.storeScoped = false) : C.tracked d.component = true := by
  rw [(Runnable.ofState_of_mem_streamRuns hplan run hrun row hrow).deps] at hd
  obtain ⟨⟨p, state⟩, -, hd⟩ := List.mem_flatMap.mp hd
  rcases SystemParam.observed_of_mem_deps hd with hrowdep | ⟨t, rfl⟩
  · exact hrowdep.tracked
  · cases hscope

end Written

section Batches

/-- Each row writes component 1 in place and reads it on the members of its entity. -/
def gathering : Runnable :=
  .onStart (.function [.query (.entityParts [] [.mutRef 1, .related 6 [.read 1]]) .unit])

/-- Entities 0 and 1 carry component 1, and entity 1 points at `target`. -/
def gathered (target : Nat) : World Nat :=
  ((World.machine World.following).run World.new
    [.base (.insert 1 0 (.data 7)), .base (.insert 1 1 (.data 8)),
      .base (.insert 5 1 (.data target))]).getD World.new

def gatheringRun (target : Nat) : PlannedSystemRun :=
  ((gathering.streamRuns World.following 0 (gathered target) ∅ none).bind List.head?).getD
    ⟨⟨0, []⟩, [], [], 0, 0, 0⟩

/-- Both rows have written their component in place. -/
def gatheringState (target : Nat) : State Nat :=
  { State.new Nat with
    world := ((gathered target).writeInPlace 1 0 (.data 17)).writeInPlace 1 1 (.data 18) }

theorem reachable_gathered (target : Nat)
    (h : (World.machine World.following).run World.new
      [.base (.insert 1 0 (.data 7)), .base (.insert 1 1 (.data 8)),
        .base (.insert 5 1 (.data target))] = some (gathered target)) :
    World.Reachable World.following (gathered target) :=
  Machine.Reachable.run (.init World.machine_init_new) h

theorem reachable_gatheringState {target : Nat}
    (h : World.Reachable World.following (gathered target)) :
    World.Reachable World.following (gatheringState target).world := by
  have hfirst : World.Reachable World.following ((gathered target).writeInPlace 1 0 (.data 17)) :=
    .step (i := .writeInPlace 1 0 (.data 17)) h trivial rfl
  exact .step (i := .writeInPlace 1 1 (.data 18)) hfirst trivial rfl

/-- Nobody buffers a command. -/
def silent : RunOutcome Nat := ⟨[[]], [[], []], []⟩

end Batches

end PlannedSystemRun
end Porridge
