import Porridge.Engine.World
import Porridge.Query.Observation
import Porridge.World.Inverses
import Porridge.World.Rebound

/-! Removals against rows in flight: which commits a removal discards. -/
namespace Porridge

open World

variable {α : Type} {C : Components α}

/-- The command takes the component of `t` off `e`, alone or with the whole entity. -/
def Command.drops (t : TypeId) (e : Entity) : Command α → Bool
  | removeEntity e' => e' == e
  | removeComponent t' e' => t' == t && e' == e
  | _ => false

section Rebound

variable {w₀ w w' : World α} {t : TypeId} {e : Entity} {o : SystemInvocation}

theorem World.Rebound.command (hw : w.Coherent) (hfollows : Follows C w₀ w) {c : Command α}
    (hdrops : c.drops t e = true) (h : c.apply C w o = some w') : Rebound C w₀ t e w' := by
  cases c with
  | insert _ _ _ => cases hdrops
  | spawn _ _ => cases hdrops
  | removeEntity e' =>
    have he : e' = e := eq_of_beq hdrops
    cases h
    exact he ▸ .removeEntity hw hfollows t e'
  | removeComponent t' e' =>
    obtain ⟨ht, he⟩ := (Bool.and_eq_true _ _).mp hdrops
    have ht : t' = t := eq_of_beq ht
    have he : e' = e := eq_of_beq he
    cases h
    exact ht ▸ he ▸ .removeComponent hw hfollows t' e' (some o)

theorem World.Rebound.commands : ∀ {commands : List (Command α)} {w : World α}, w.Coherent →
    Follows C w₀ w → commands.any (·.drops t e) = true →
      w.applyCommands C o commands = some w' → Rebound C w₀ t e w'
  | [], _, _, _, hdrops, _ => nomatch hdrops
  | c :: commands, w, hw, hfollows, hdrops, h => by
    obtain ⟨u, hu, hrest⟩ := applyCommands_cons C |>.mp h
    by_cases hc : c.drops t e = true
    · exact closed_rebound.applyCommands hrest (Permits.grants_all o) (.command hw hfollows hc hu)
    · have hdrops : commands.any (·.drops t e) = true := by simpa [hc] using hdrops
      have hkept := (closed_follows w₀).command hu (Permits.grants_all o) ⟨hw, hfollows⟩
      exact World.Rebound.commands hkept.1 hkept.2 hdrops hrest

/-- A removal among the commands of an output takes effect whether or not inserts wait. -/
theorem World.Rebound.output (hw : w.Coherent) (hfollows : Follows C w₀ w)
    {output : SystemOutput α} {deferInserts : Bool}
    (hdrops : output.commands.any (·.drops t e) = true)
    (h : w.applyOutput C output deferInserts = some w') : Rebound C w₀ t e w' := by
  obtain ⟨applied, flushed, happly, hflush, rfl⟩ := exists_of_applyOutput h
  have himmediate : (if deferInserts = true then output.commands.filter (!·.defersAtSettle)
      else output.commands).any (·.drops t e) = true := by
    split_ifs
    · obtain ⟨c, hc, hcdrops⟩ := List.any_eq_true.mp hdrops
      have hkept : c.defersAtSettle = false := by
        cases c with
        | insert _ _ _ => cases hcdrops
        | spawn _ _ => cases hcdrops
        | removeEntity _ => rfl
        | removeComponent _ _ => rfl
      exact List.any_eq_true.mpr ⟨c, List.mem_filter.mpr ⟨hc, by rw [hkept]; rfl⟩, hcdrops⟩
    · exact hdrops
  have hcoherent : ({ w with derivedOwners := w.derivedOwners.erase output.owner } : World α).Coherent :=
    hw.congr rfl rfl
  have happlied := World.Rebound.commands hcoherent (hfollows.congr rfl rfl) himmediate happly
  have hflushed := closed_rebound.flushDerivedFrom hflush (fun _ _ => trivial) trivial happlied
  exact closed_rebound.removeDerivedStale _ _ (fun _ _ => trivial) (hflushed.congr rfl rfl)

theorem rebound_publishOutputs {deferInserts : Bool} : ∀ {outputs : List (SystemOutput α)}
    {s s' : State α}, s.world.Coherent → Follows C w₀ s.world →
      (∃ output ∈ outputs, output.commands.any (·.drops t e) = true) →
        publishOutputs C s outputs deferInserts = some s' → Rebound C w₀ t e s'.world
  | [], _, _, _, _, ⟨_, hmem, _⟩, _ => nomatch hmem
  | output :: outputs, s, s', hw, hfollows, hdrops, h => by
    obtain ⟨w, happly, hrest⟩ := publishOutputs_cons h
    by_cases hhead : output.commands.any (·.drops t e) = true
    · exact (Rebound.output hw hfollows hhead happly).later (managed_publishOutputs hrest).later
    · have htail : ∃ output ∈ outputs, output.commands.any (·.drops t e) = true := by
        obtain ⟨found, hmem, hfound⟩ := hdrops
        rcases List.mem_cons.mp hmem with rfl | hmem
        · exact absurd hfound hhead
        · exact ⟨found, hmem, hfound⟩
      have hkept := hfollows.later hw (.of_apply (.output output deferInserts) happly)
      exact rebound_publishOutputs hkept.1 hkept.2 htail hrest

end Rebound

namespace Engine

variable {g₀ g g' : Engine α} {t : TypeId} {e : Entity}

/-- Somewhere in the run the component of `t` on `e` is gone, or an accepted commit removes it,
whatever comes back after that. -/
inductive Loses (C : Components α) (t : TypeId) (e : Entity) : Engine α → List (EngineOp α) → Prop
  | gone {g : Engine α} {ops : List (EngineOp α)} (h : g.state.world.has t e = false) :
    Loses C t e g ops
  | commit {g : Engine α} {run : SystemRun α} {phase : Option Phase} {ops : List (EngineOp α)}
    (hcurrent : (run.memoUpdates.all fun update => update.2.isCurrent g.state.world) = true)
    (hdrops : ∃ output ∈ run.outputs, output.commands.any (·.drops t e) = true) :
    Loses C t e g (.commit run phase :: ops)
  | later {g g' : Engine α} {op : EngineOp α} {ops : List (EngineOp α)}
    (hstep : step C g op = some g') (hrest : Loses C t e g' ops) : Loses C t e g (op :: ops)

/-- After a removal the run shows nothing of what was there before. -/
theorem rebound_of_loses {w₀ : World α} {ops : List (EngineOp α)} (hlost : Loses C t e g ops)
    (hw : g.state.world.Coherent) (hfollows : Follows C w₀ g.state.world)
    (hops : (machine C).run g ops = some g') : Rebound C w₀ t e g'.state.world := by
  induction hlost with
  | gone habsent => exact (Rebound.of_absent hw hfollows habsent).later (later_run hops)
  | commit hcurrent hdrops =>
    obtain ⟨m, hm, hrest⟩ := Option.bind_eq_some_iff.mp hops
    obtain ⟨memo, memo', progress, hcommit⟩ := exists_commit hm
    obtain ⟨published, hpublished, hidles⟩ := exists_published hcommit hcurrent
    have hrebound := rebound_publishOutputs hw hfollows hdrops hpublished
    exact hrebound.later (hidles.world.later.trans (later_run hrest))
  | later hstep _ ih =>
    obtain ⟨m, hm, hrest⟩ := Option.bind_eq_some_iff.mp hops
    cases Option.some.inj (hstep.symm.trans hm)
    have hkept := hfollows.later hw (later_step hstep)
    exact ih hkept.1 hkept.2 hrest

end Engine

/-- What a commit leaves if it discards its run: the memo table as it was, and every component
with the value and the owner it had. -/
def Discards (memo : MemoTable) (s : State α)
    (result : Option (MemoTable × State α × CommitProgress)) : Prop :=
  ∃ w progress, result = some (memo, { s with world := w }, progress) ∧ progress.stale = true ∧
    ∀ t e, (w.cell? t e).map (fun x => (x.value, x.owner)) =
      (s.world.cell? t e).map fun x => (x.value, x.owner)

theorem discards_of_stale (memo : MemoTable) (s : State α) (run : SystemRun α)
    (phase : Option Phase)
    (h : (run.memoUpdates.all fun update => update.2.isCurrent s.world) = false) :
    Discards memo s (commitSystemRun C memo s run phase) := by
  unfold commitSystemRun
  rw [if_neg (Bool.eq_false_iff.mp h)]
  exact ⟨_, _, rfl, rfl, World.shown_reconcileWritten C s.world run.writes⟩

/-- A row in flight that records a tracked component it carries is discarded at its commit if the
component is removed in between. -/
theorem Engine.removal_discards {g₀ g : Engine α} (hg₀ : World.Reachable C g₀.state.world)
    {s : Runnable} {system : SystemId} {memo : MemoTable} {hint : Option (List Entity)}
    {runs : List PlannedSystemRun}
    (hplan : s.streamRuns C system g₀.state.world memo hint = some runs)
    {run : PlannedSystemRun} (hrun : run ∈ runs) {row : PlannedInvocation} (hrow : row ∈ run.rows)
    {p : SystemParam} {e : Entity} (hkeyed : (p, .row e) ∈ s.params.zip row.state) {t : TypeId}
    (hpinned : t ∈ p.pinnedTypes) (htracked : C.tracked t = true) {ops : List (EngineOp α)}
    (hlost : Loses C t e g₀ ops) (hops : (machine C).run g₀ ops = some g) (held : MemoTable)
    (outcome : RunOutcome α) (phase : Option Phase) :
    Discards held g.state (commitSystemRun C held g.state (run.finish outcome) phase) := by
  have hcoherent : g₀.state.world.Coherent := coherent_of_reachable hg₀
  obtain ⟨schema, hpresent⟩ := present_of_reachable hg₀
  obtain ⟨hhas, hdep⟩ := pinned_of_planned hcoherent hpresent hplan hrun hrow hkeyed hpinned htracked
  have hrebound : Rebound C g₀.state.world t e g.state.world :=
    rebound_of_loses hlost hcoherent (Follows.refl _) hops
  obtain ⟨x, hx⟩ := (has_iff _ _ _).mp hhas
  have hrevision : g₀.state.world.revisionByType t e = some x.revision := by
    rw [revisionByType, hx]
    rfl
  have hstale : Dep.isCurrent ⟨t, e, g₀.state.world.revisionByType t e, false⟩ g.state.world =
      false := by
    have hne := hrebound.revision_ne hcoherent hrevision
    rw [hrevision]
    simpa [Dep.isCurrent] using hne
  apply discards_of_stale
  refine List.all_eq_false.mpr ⟨(row.owner, ⟨row.deps, run.plannedRevision, 0⟩), ?_, ?_⟩
  · exact List.mem_map.mpr ⟨row, hrow, rfl⟩
  · have hentry : row.deps.all (·.isCurrent g.state.world) = false :=
      List.all_eq_false.mpr ⟨_, hdep, by rw [hstale]; exact Bool.false_ne_true⟩
    show ¬ row.deps.all (·.isCurrent g.state.world) = true
    rw [hentry]
    exact Bool.false_ne_true

namespace Engine
section Races

def presence : Components Nat := { Components.plain Nat with tracked := fun t => t != 1 }

/-- Rows on the entities with component `t` that do not carry component 3. -/
def uncovered (t : TypeId) : Runnable :=
  .function [.query (.entityParts [] [.read t]) (.withoutComponent 3), .commands]

/-- A generation in which entity 0 carries components 1 and 2. -/
def planning : List (EngineOp Nat) :=
  [.reserve, .queueInputs [.insert 1 0 (.data 10), .insert 2 0 (.data 20)], .startEvaluation]

def idle : Engine Nat :=
  new [(uncovered 1).intoSystem .evaluate, .new .evaluate none false false []] fun _ => false

def planned : Engine Nat := ((machine presence).run idle planning).getD idle

theorem reachable_planned : World.Reachable presence planned.state.world := by
  have hrun : (machine presence).run idle planning = some planned := rfl
  exact reachable_world (Machine.Reachable.run (.init ⟨_, _, rfl⟩) hrun)

def rowRun (t : TypeId) : PlannedSystemRun :=
  (((uncovered t).streamRuns presence 0 planned.state.world ∅ none).bind List.head?).getD
    ⟨⟨0, []⟩, [], [], 0, 0, 0⟩

def otherCommit (commands : List (Command Nat)) : EngineOp Nat :=
  .commit ⟨true, [⟨⟨1, []⟩, commands⟩], [], []⟩ (some .evaluate)

def raced (commands : List (Command Nat)) : Engine Nat :=
  ((machine presence).run planned [otherCommit commands]).getD planned

/-- The row inserts component 9 on its entity. -/
def marking : RunOutcome Nat := ⟨[], [[.insert 9 0 (.data 1)]], []⟩

/-- Tracked component 2 goes with the entity and comes back: the row is discarded. -/
theorem removed_and_reinserted_discards :
    Discards ∅ (raced [.removeEntity 0, .insert 2 0 (.data 20)]).state
      (commitSystemRun presence ∅ (raced [.removeEntity 0, .insert 2 0 (.data 20)]).state
        ((rowRun 2).finish marking) (some .evaluate)) := by
  have hplan : (uncovered 2).streamRuns presence 0 planned.state.world ∅ none =
      some [rowRun 2] := rfl
  have hrows : (rowRun 2).rows = [⟨⟨0, [0]⟩, [.row 0, .unit], [⟨2, 0, some 2, false⟩],
      [⟨.read, 2, some 0⟩, ⟨.read, 3, some 0⟩]⟩] := rfl
  have hrow := hrows.symm ▸ List.mem_singleton_self (α := PlannedInvocation) _
  have hlost : Loses presence 2 0 planned
      [otherCommit [.removeEntity 0, .insert 2 0 (.data 20)]] := .commit (by decide) (by decide)
  exact removal_discards reachable_planned hplan (List.mem_singleton_self _) hrow
    List.mem_cons_self (by decide) (by decide) hlost rfl ∅ marking (some .evaluate)

/-- The run is committed in full: it re-creates a component on entity 0 and is memoized there. -/
def Publishes (t : TypeId) (commands : List (Command Nat)) : Prop :=
  ∃ memo s progress, commitSystemRun presence ∅ (raced commands).state ((rowRun t).finish marking)
      (some .evaluate) = some (memo, s, progress) ∧
    progress.stale = false ∧ s.world.has 9 0 = true ∧ ⟨0, [0]⟩ ∈ memo

/-- The removal of the entity does not stop a row that requires an untracked component, nor does
the insert of the excluded component stop any row. -/
theorem removals_lose :
    (uncovered 1).streamRuns presence 0 planned.state.world ∅ none = some [rowRun 1] ∧
      (machine presence).run planned [otherCommit [.removeEntity 0]] =
        some (raced [.removeEntity 0]) ∧
      (raced [.removeEntity 0]).state.world.has 1 0 = false ∧
      Publishes 1 [.removeEntity 0] ∧
      (uncovered 2).streamRuns presence 0 planned.state.world ∅ none = some [rowRun 2] ∧
      (machine presence).run planned [otherCommit [.insert 3 0 (.data 30)]] =
        some (raced [.insert 3 0 (.data 30)]) ∧
      (raced [.insert 3 0 (.data 30)]).state.world.has 3 0 = true ∧
      Publishes 2 [.insert 3 0 (.data 30)] := by
  exact ⟨rfl, rfl, by decide, ⟨_, _, _, rfl, rfl, by decide, by decide⟩, rfl, rfl, by decide,
    ⟨_, _, _, rfl, rfl, by decide, by decide⟩⟩

end Races
end Engine
end Porridge
