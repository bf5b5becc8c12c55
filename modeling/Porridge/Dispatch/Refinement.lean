import Porridge.Dispatch
import Porridge.Execution.Accounting

/-! The dispatched loop does what the loop over a flat set of runs does, in batches and on workers. -/
namespace Porridge

namespace Runner

variable {α : Type} {P : Program α} {r r' : Runner α} {a : PhaseStep α}

/-- The loop of one phase, entered in any state. -/
def machine (P : Program α) : Machine (Runner α) (PhaseStep α) where
  init r := ∃ state memo phase, r = ⟨state, memo, .enter phase P.componentRegistry⟩
  step := step P

/-- A bare section does not look at what is in flight. -/
theorem step_carrying (ha : a.bare = true) (running : List (RunId × PlannedSystemRun)) :
    (r.carrying running).step P a = (r.step P a).map (·.carrying running) := by
  obtain ⟨state, memo, phase, reservations, inFlight, needsPlan, deferred, changed, stage⟩ := r
  show step P ⟨state, memo, phase, reservations, running, needsPlan, deferred, changed, stage⟩ a = _
  cases a with
  | admitNext => cases ha
  | preempt => cases ha
  | finish id outcome => cases ha
  | turn =>
    cases stage with
    | top =>
      simp only [step, turn]
      split_ifs <;> rfl
    | _ => rfl
  | planNext =>
    cases stage with
    | planning wave =>
      obtain ⟨snapshot, systems, queue⟩ := wave
      cases queue with
      | cons run queue => cases systems <;> rfl
      | nil =>
        cases systems with
        | nil => rfl
        | cons id rest =>
          simp only [step, planNext]
          cases state.systems[id]? with
          | none => rfl
          | some system =>
            cases P.systems[id]? with
            | none => rfl
            | some registered =>
              simp only [Option.bind_eq_bind, Option.bind_some]
              split_ifs
              · cases registered.2.streamRuns P.components id snapshot memo
                  (system.planHint snapshot) <;> rfl
              · rfl
    | _ => rfl
  | endWave =>
    cases stage with
    | planning wave =>
      obtain ⟨snapshot, systems, queue⟩ := wave
      cases systems <;> cases queue <;> rfl
    | _ => rfl
  | interrupt => cases stage <;> rfl
  | endBatch => cases stage <;> rfl

theorem running_of_bare (ha : a.bare = true) (hs : r.step P a = some r') :
    r'.loop.running = r.loop.running := by
  have hsame : r.step P a = (r.step P a).map (·.carrying r.loop.running) :=
    step_carrying ha r.loop.running
  rw [hs, Option.map_some] at hsame
  have heq : r' = r'.carrying r.loop.running := Option.some.inj hsame
  rw [heq]
  rfl

/-- Committing a run depends on nothing else that is in flight. -/
theorem settleRun_carrying {id : RunId} {run : PlannedSystemRun} {outcome : RunOutcome α}
    {replan : Bool} {onwards : CommitProgress → Stage α} {running : List (RunId × PlannedSystemRun)}
    (hn : (running.map Prod.fst).Nodup) (hmem : (id, run) ∈ running)
    (hs : (r.carrying [(id, run)]).settleRun P id outcome replan onwards = some r') :
    (r.carrying running).settleRun P id outcome replan onwards =
        some (r'.carrying (running.filter fun x => x.1 ≠ id)) ∧
      ∃ progress, r'.loop.stage = onwards progress := by
  obtain ⟨state, memo, phase, reservations, inFlight, needsPlan, deferred, changed, stage⟩ := r
  obtain ⟨⟨id', run'⟩, hfind, hs⟩ := Option.bind_eq_some_iff.mp hs
  have hown : [(id, run)].find? (·.1 = id) = some (id, run) := by simp
  cases hown.symm.trans hfind
  dsimp only at hs
  split_ifs at hs with hfits
  obtain ⟨⟨memo', state', progress⟩, hcommit, hs⟩ := Option.bind_eq_some_iff.mp hs
  obtain ⟨⟨owner, reservations'⟩, hremove, hs⟩ := Option.bind_eq_some_iff.mp hs
  obtain ⟨owner', howner, hs⟩ := Option.bind_eq_some_iff.mp hs
  cases hs
  refine ⟨?_, progress, rfl⟩
  refine Option.bind_eq_some_iff.mpr ⟨(id, run), Execution.find?_of_mem hn hmem, ?_⟩
  have hfits' : run.fits outcome = true ∧ reservations.contains id = true := hfits
  refine (if_pos hfits').trans ?_
  refine Option.bind_eq_some_iff.mpr ⟨_, hcommit, ?_⟩
  refine Option.bind_eq_some_iff.mpr ⟨_, hremove, ?_⟩
  exact Option.bind_eq_some_iff.mpr ⟨_, howner, rfl⟩

/-- How a stage commits a finished run does not depend on what is in flight. -/
theorem finish_eq_settleRun {id : RunId} {outcome : RunOutcome α}
    (hs : r.finish P id outcome = some r') :
    ∃ (replan : Bool) (onwards : CommitProgress → Stage α), (∀ progress, onwards progress ≠ .top) ∧
      ∀ running, (r.carrying running).finish P id outcome =
        (r.carrying running).settleRun P id outcome replan onwards := by
  unfold finish at hs
  split at hs
  · rename_i quiet hstage
    refine ⟨true, fun progress => .committing quiet progress.needsFollowup progress.stale,
      fun _ htop => (by cases htop), fun running => ?_⟩
    unfold finish
    rw [show (r.carrying running).loop.stage = .waiting quiet from hstage]
  · rename_i quiet followup stale hstage
    refine ⟨true, fun progress => .committing quiet (followup || progress.needsFollowup)
      (stale || progress.stale), fun _ htop => (by cases htop), fun running => ?_⟩
    unfold finish
    rw [show (r.carrying running).loop.stage = .committing quiet followup stale from hstage]
  · rename_i hstage
    refine ⟨false, fun _ => .draining, fun _ htop => (by cases htop), fun running => ?_⟩
    unfold finish
    rw [show (r.carrying running).loop.stage = .draining from hstage]
  · cases hs

/-- A finished run is committed like one that is alone in flight, and the loop does not start over
before its batch ends. -/
theorem finish_carrying {id : RunId} {run : PlannedSystemRun} {outcome : RunOutcome α}
    {running : List (RunId × PlannedSystemRun)} (hn : (running.map Prod.fst).Nodup)
    (hmem : (id, run) ∈ running)
    (hs : (r.carrying [(id, run)]).finish P id outcome = some r') :
    (r.carrying running).finish P id outcome =
        some (r'.carrying (running.filter fun x => x.1 ≠ id)) ∧ r'.loop.stage ≠ .top := by
  obtain ⟨replan, onwards, htop, hfinish⟩ := finish_eq_settleRun hs
  have hsettle : (r.carrying [(id, run)]).settleRun P id outcome replan onwards = some r' :=
    (hfinish [(id, run)]).symm.trans hs
  obtain ⟨hsettled, progress, honwards⟩ := settleRun_carrying hn hmem hsettle
  refine ⟨(hfinish running).trans hsettled, ?_⟩
  rw [honwards]
  exact htop progress

end Runner

namespace Dispatch

section Queues

variable {κ ρ : Type} {fits : κ → ρ → Bool}

namespace Queue

variable {q q' : Queue κ ρ}

def Sound (fits : κ → ρ → Bool) : Queue κ ρ → Prop
  | cooperative _ => True
  | workers streams => ∀ s ∈ streams, s.closed = false ∧ ∃ calls, s.Sound fits calls

theorem sound_new (workers : Option Nat) : (new workers : Queue κ ρ).Sound fits := by
  unfold new
  split_ifs
  · exact fun _ hs => (by cases hs)
  · trivial

@[simp] theorem rows_new (workers : Option Nat) : (new workers : Queue κ ρ).rows = [] := by
  unfold new
  split_ifs <;> rfl

theorem Sound.push (h : q.Sound fits) (calls : Bool) (rows : List κ) :
    (q.push calls rows).Sound fits := by
  cases q with
  | cooperative pending => trivial
  | workers streams =>
    intro s hs
    rcases List.mem_append.mp hs with hold | hnew
    · exact h s hold
    · obtain ⟨hsound, hopen, -⟩ := @Runs.sound_spawn κ ρ fits calls rows
      rw [List.mem_singleton.mp hnew]
      exact ⟨hopen, calls, hsound⟩

@[simp] theorem rows_push (q : Queue κ ρ) (calls : Bool) (rows : List κ) :
    (q.push calls rows).rows = q.rows ++ rows := by
  cases q with
  | cooperative pending => rfl
  | workers streams =>
    obtain ⟨-, -, hrows⟩ := @Runs.sound_spawn κ ρ (fun _ _ => true) calls rows
    simp [push, Queue.rows, hrows]

theorem rows_of_exhausted (h : q.exhausted = true) : q.rows = [] := by
  cases q with
  | cooperative pending => exact List.isEmpty_iff.mp h
  | workers streams =>
    have hnone : streams = [] := List.isEmpty_iff.mp h
    rw [hnone]
    rfl

/-- A queue with one of its streams replaced. -/
theorem perm_set {streams : List (Runs κ ρ)} {index : Nat} {s : Runs κ ρ}
    (hs : streams[index]? = some s) (s' : Runs κ ρ) :
    ((streams.set index s').flatMap Runs.rows).Perm
      (s'.rows ++ (streams.eraseIdx index).flatMap Runs.rows) ∧
    (streams.flatMap Runs.rows).Perm (s.rows ++ (streams.eraseIdx index).flatMap Runs.rows) := by
  obtain ⟨hindex, rfl⟩ := List.getElem?_eq_some_iff.mp hs
  have hset := List.set_perm_cons_eraseIdx hindex s'
  have hget := (List.getElem_cons_eraseIdx_perm hindex).symm
  exact ⟨hset.flatMap_right Runs.rows, hget.flatMap_right Runs.rows⟩

theorem Sound.work (h : q.Sound fits) {index : Nat} {a : TaskStep ρ}
    (hs : q.work fits index a = some q') : q'.Sound fits ∧ q'.rows.Perm q.rows := by
  cases q with
  | cooperative pending => cases hs
  | workers streams =>
    obtain ⟨s, hget, hs⟩ := Option.bind_eq_some_iff.mp hs
    obtain ⟨s', hstep, hs⟩ := Option.bind_eq_some_iff.mp hs
    cases hs
    obtain ⟨hopen, calls, hsound⟩ := h s (List.mem_of_getElem? hget)
    obtain ⟨hsound', hclosed, hrows, -⟩ := hsound.step hstep
    refine ⟨fun x hx => ?_, ?_⟩
    · rcases List.mem_or_eq_of_mem_set hx with hold | rfl
      · exact h x hold
      · exact ⟨hclosed.trans hopen, calls, hsound'⟩
    · obtain ⟨hset, hold⟩ := perm_set hget s'
      exact hset.trans (((hrows hopen).append_right _).trans hold.symm)

theorem Sound.next (h : q.Sound fits) {turn : Turn ρ} {x : κ × ρ}
    (hs : q.next fits turn = some (x, q')) :
    q'.Sound fits ∧ q.rows.Perm (x.1 :: q'.rows) ∧ fits x.1 x.2 = true := by
  cases q with
  | cooperative pending =>
    cases turn with
    | stream index => cases hs
    | future index result =>
      obtain ⟨row, hget, hs⟩ := Option.bind_eq_some_iff.mp hs
      split_ifs at hs with hfits
      cases hs
      obtain ⟨hindex, rfl⟩ := List.getElem?_eq_some_iff.mp hget
      exact ⟨trivial, (List.getElem_cons_eraseIdx_perm hindex).symm, hfits⟩
  | workers streams =>
    cases turn with
    | future index result => cases hs
    | stream index =>
      obtain ⟨s, hget, hs⟩ := Option.bind_eq_some_iff.mp hs
      obtain ⟨⟨polled, s'⟩, hpoll, hs⟩ := Option.bind_eq_some_iff.mp hs
      obtain ⟨hopen, calls, hsound⟩ := h s (List.mem_of_getElem? hget)
      obtain ⟨hsound', hclosed, hanswers⟩ := hsound.pollNext hpoll
      cases polled with
      | pending => cases hs
      | ready item =>
        cases item with
        | none => cases hs
        | some y =>
          cases hs
          obtain ⟨hrows, hfits⟩ := hanswers
          obtain ⟨hset, hold⟩ := perm_set hget s'
          refine ⟨fun z hz => ?_, ?_, hfits⟩
          · rcases List.mem_or_eq_of_mem_set hz with hz | rfl
            · exact h z hz
            · exact ⟨hclosed.trans hopen, calls, hsound'⟩
          · refine hold.trans ?_
            rw [hrows, List.cons_append]
            exact hset.symm.cons _

theorem Sound.retire (h : q.Sound fits) {index : Nat} (hs : q.retire index = some q') :
    q'.Sound fits ∧ q'.rows.Perm q.rows := by
  cases q with
  | cooperative pending => cases hs
  | workers streams =>
    obtain ⟨s, hget, hs⟩ := Option.bind_eq_some_iff.mp hs
    obtain ⟨⟨polled, s'⟩, hpoll, hs⟩ := Option.bind_eq_some_iff.mp hs
    obtain ⟨hopen, calls, hsound⟩ := h s (List.mem_of_getElem? hget)
    obtain ⟨-, -, hanswers⟩ := hsound.pollNext hpoll
    cases polled with
    | pending => cases hs
    | ready item =>
      cases item with
      | some y => cases hs
      | none =>
        cases hs
        refine ⟨fun z hz => h z (List.mem_of_mem_eraseIdx hz), ?_⟩
        have hold := (perm_set hget s).2
        rw [hanswers.2 hopen, List.nil_append] at hold
        exact hold.symm

end Queue

namespace Filling

variable {f : Filling κ ρ}

def rows (f : Filling κ ρ) : List κ := f.queue.rows ++ f.batch

theorem rows_push (f : Filling κ ρ) (size : Nat) (calls : Bool) (row : κ) :
    (f.push size calls row).rows = f.rows ++ [row] := by
  unfold push
  dsimp only
  split_ifs <;> simp [rows]

theorem Sound.push (h : f.queue.Sound fits) (size : Nat) (calls : Bool) (row : κ) :
    (f.push size calls row).queue.Sound fits := by
  unfold Filling.push
  dsimp only
  split_ifs
  · exact h.push calls _
  · exact h

theorem rows_finish (f : Filling κ ρ) (calls : Bool) : (f.finish calls).rows = f.rows := by
  unfold finish
  split_ifs with hnone
  · rw [rows, hnone, List.append_nil]
  · exact Queue.rows_push f.queue calls f.batch

theorem Sound.finish (h : f.queue.Sound fits) (calls : Bool) : (f.finish calls).Sound fits := by
  unfold Filling.finish
  split_ifs
  · exact h
  · exact h.push calls _

end Filling
end Queues

section Admissions

variable {α : Type} {P : Program α}

namespace Admission

variable {d : Dispatched α} {a a' : Admission α} {snapshot : World α} {systems : List SystemId}
  {queue : List (SystemId × PlannedSystemRun)} {planned : SystemId × PlannedSystemRun}
  {running taken : List Row} {size : Nat} {calls : Bool}

/-- The flat loop at the same point of the plan. -/
def flat (d : Dispatched α) (snapshot : World α) (systems : List SystemId)
    (queue : List (SystemId × PlannedSystemRun)) (running : List Row) (a : Admission α) :
    Runner α where
  state := { d.runner.state with systems := a.systems }
  memo := d.runner.memo
  loop := { d.runner.loop with
    reservations := a.reservations
    deferredConflicts := a.deferredConflicts
    stage := .planning ⟨snapshot, systems, queue⟩
    running }

/-- The queues and the batches being filled hold what is in flight and not taken yet, readers apart
from writers. -/
structure Fills (a : Admission α) (taken running : List Row) : Prop where
  flight : running.Perm (a.readers.rows ++ a.writers.rows ++ taken)
  reads : ∀ x ∈ a.readers.rows, x.2.reservesWrite = false
  writes : ∀ x ∈ a.writers.rows, x.2.reservesWrite = true
  readers : a.readers.queue.Sound Dispatched.fits
  writers : a.writers.queue.Sound Dispatched.fits

/-- A record is a writer's where the run in flight reserves a write. -/
theorem isWriter_of_tracked {l : PhaseLoop α} (h : l.Tracked) {row : Row} (hrow : row ∈ l.running) :
    l.reservations.isWriter row.1 = some row.2.reservesWrite := by
  obtain ⟨ledger, hledger, hheld⟩ := h.held
  obtain ⟨record, hget, hstands⟩ := hledger.record row.1 _ ((hheld row.1 _).mpr ⟨row.2, hrow, rfl⟩)
  unfold Reservations.isWriter
  rw [hget, Option.map_some, hstands.writer]
  rfl

/-- Admitting one row into its batch is one admission of the flat loop. -/
theorem admitRow_flat (h : (flat d snapshot systems (planned :: queue) running a).loop.Tracked)
    (hf : a.Fills taken running) (hs : a.admitRow size calls planned = some a') :
    ∃ running', (flat d snapshot systems (planned :: queue) running a).admitNext =
      some (flat d snapshot systems queue running' a') ∧ a'.Fills taken running' := by
  obtain ⟨⟨answer, reservations⟩, hanswer, hs⟩ := Option.bind_eq_some_iff.mp hs
  have hanswer' : (flat d snapshot systems (planned :: queue) running a).loop.reservations.admitRun
      planned.2.owner planned.2.access = some (answer, reservations) := hanswer
  cases answer with
  | error rejected =>
    cases rejected with
    | duplicate =>
      cases hs
      refine ⟨running, ?_, hf.flight, hf.reads, hf.writes, hf.readers, hf.writers⟩
      simp only [Runner.admitNext, flat, hanswer, Option.bind_eq_bind, Option.bind_some]
    | conflict owner =>
      cases hs
      refine ⟨running, ?_, hf.flight, hf.reads, hf.writes, hf.readers, hf.writers⟩
      simp only [Runner.admitNext, flat, hanswer, Option.bind_eq_bind, Option.bind_some]
  | ok id =>
    have hadmitted : (flat d snapshot systems (planned :: queue) running a).admitNext =
        some (flat d snapshot systems queue (running ++ [(id, planned.2)])
          { a with reservations }) := by
      simp only [Runner.admitNext, flat, hanswer, Option.bind_eq_bind, Option.bind_some]
    obtain ⟨htracked, -⟩ := Runner.tracked_admitNext h hadmitted
    have hlast : (id, planned.2) ∈ running ++ [(id, planned.2)] :=
      List.mem_append_right _ List.mem_cons_self
    have hwriter : reservations.isWriter id = some planned.2.reservesWrite :=
      isWriter_of_tracked htracked hlast
    simp only [hwriter, Option.bind_eq_bind, Option.bind_some] at hs
    have hflight : (running ++ [(id, planned.2)]).Perm
        ((id, planned.2) :: (a.readers.rows ++ a.writers.rows ++ taken)) :=
      List.perm_append_comm.trans (hf.flight.cons _)
    split_ifs at hs with hwrites
    · cases hs
      refine ⟨running ++ [(id, planned.2)], hadmitted, ?_, hf.reads, fun x hx => ?_, hf.readers,
        Filling.Sound.push hf.writers size calls _⟩
      · refine hflight.trans ?_
        rw [Filling.rows_push]
        simp only [List.append_assoc, List.singleton_append]
        rw [← List.append_assoc, ← List.append_assoc a.readers.rows]
        exact List.perm_middle.symm
      · rw [Filling.rows_push] at hx
        rcases List.mem_append.mp hx with hold | hnew
        · exact hf.writes x hold
        · rw [List.mem_singleton.mp hnew]
          exact hwrites
    · cases hs
      refine ⟨running ++ [(id, planned.2)], hadmitted, ?_, fun x hx => ?_, hf.writes,
        Filling.Sound.push hf.readers size calls _, hf.writers⟩
      · refine hflight.trans ?_
        rw [Filling.rows_push]
        simp only [List.append_assoc, List.singleton_append]
        exact List.perm_middle.symm
      · rw [Filling.rows_push] at hx
        rcases List.mem_append.mp hx with hold | hnew
        · exact hf.reads x hold
        · rw [List.mem_singleton.mp hnew]
          exact Bool.eq_false_iff.mpr hwrites

/-- Dispatching a plan is the flat loop's admissions of its rows in turn. -/
theorem foldlM_flat : ∀ {queue : List (SystemId × PlannedSystemRun)} {a : Admission α}
    {running : List Row}, (flat d snapshot systems queue running a).loop.Tracked →
      a.Fills taken running → queue.foldlM (admitRow size calls) a = some a' →
        ∃ running', (Runner.machine P).run (flat d snapshot systems queue running a)
          (List.replicate queue.length .admitNext) =
            some (flat d snapshot systems [] running' a') ∧ a'.Fills taken running'
  | [], a, running, _, hf, hs => by
    cases hs
    exact ⟨running, rfl, hf⟩
  | planned :: queue, a, running, h, hf, hs => by
    obtain ⟨b, hb, hrest⟩ := Option.bind_eq_some_iff.mp hs
    obtain ⟨running', hadmitted, hf'⟩ := admitRow_flat h hf hb
    obtain ⟨htracked, -⟩ := Runner.tracked_admitNext h hadmitted
    obtain ⟨running'', hrun, hfills⟩ := foldlM_flat htracked hf' hrest
    exact ⟨running'', Option.bind_eq_some_iff.mpr ⟨_, hadmitted, hrun⟩, hfills⟩

end Admission

namespace Dispatched

variable {setting : Setting} {d d' : Dispatched α} {running : List Row}

/-- The dispatched loop stands where a flat loop with `running` in flight stands. -/
structure Refines (d : Dispatched α) (running : List Row) : Prop where
  tracked : (d.runner.carrying running).loop.Tracked
  hidden : d.runner.loop.running = []
  flight : running.Perm d.inFlight
  reads : ∀ x ∈ d.readers.rows, x.2.reservesWrite = false
  writes : ∀ x ∈ d.writers.rows, x.2.reservesWrite = true
  readers : d.readers.Sound fits
  writers : d.writers.Sound fits
  /-- What has been taken is committed before the loop goes on. -/
  taken : d.runner.loop.stage = .top → d.batch = []

/-- A step of the dispatched loop is a run of the flat loop that keeps them together. -/
def Simulates (P : Program α) (d d' : Dispatched α) (running : List Row) : Prop :=
  ∃ steps running', (Runner.machine P).run (d.runner.carrying running) steps =
    some (d'.runner.carrying running') ∧ d'.Refines running'

/-- A step that the flat loop does not see. -/
theorem Refines.stutter (h : d.Refines running) (hrunner : d'.runner = d.runner)
    (hflight : d.inFlight.Perm d'.inFlight) (hreads : ∀ x ∈ d'.readers.rows, x ∈ d.readers.rows)
    (hwrites : ∀ x ∈ d'.writers.rows, x ∈ d.writers.rows) (hreaders : d'.readers.Sound fits)
    (hwriters : d'.writers.Sound fits)
    (htaken : d.runner.loop.stage = .top → d'.batch = []) : Simulates P d d' running := by
  refine ⟨[], running, ?_, ?_, ?_, h.flight.trans hflight, fun x hx => h.reads x (hreads x hx),
    fun x hx => h.writes x (hwrites x hx), hreaders, hwriters, ?_⟩
  · rw [hrunner]
    rfl
  · rw [hrunner]
    exact h.tracked
  · rw [hrunner]
    exact h.hidden
  · rw [hrunner]
    exact htaken

theorem Refines.loop (h : d.Refines running) {a : PhaseStep α}
    (hs : d.step P setting (.loop a) = some d') : Simulates P d d' running := by
  simp only [step] at hs
  split_ifs at hs with hbare
  obtain ⟨runner, hrunner, rfl⟩ := Option.map_eq_some_iff.mp hs
  have hflat : (d.runner.carrying running).step P a = some (runner.carrying running) := by
    rw [Runner.step_carrying hbare.1, hrunner]
    rfl
  obtain ⟨htracked, -⟩ := Runner.tracked_step h.tracked hflat
  have hrun : (Runner.machine P).run (d.runner.carrying running) [a] =
      some (runner.carrying running) := Option.bind_eq_some_iff.mpr ⟨_, hflat, rfl⟩
  exact ⟨[a], running, hrun, htracked, (Runner.running_of_bare hbare.1 hrunner).trans h.hidden,
    h.flight, h.reads, h.writes, h.readers, h.writers, fun _ => hbare.2⟩

theorem Refines.dispatch (h : d.Refines running) {calls : Bool}
    (hs : d.dispatchRows setting calls = some d') : Simulates P d d' running := by
  unfold dispatchRows at hs
  split at hs
  · rename_i snapshot systems queue hstage
    obtain ⟨a, ha, hs⟩ := Option.bind_eq_some_iff.mp hs
    cases hs
    let a₀ : Admission α := ⟨d.runner.state.systems, d.runner.loop.reservations,
      d.runner.loop.deferredConflicts, ⟨d.readers, []⟩, ⟨d.writers, []⟩⟩
    have hstart : Admission.flat d snapshot systems queue running a₀ = d.runner.carrying running := by
      unfold Admission.flat
      rw [← hstage]
      rfl
    have hfills : a₀.Fills (d.batch.map Prod.fst) running := by
      refine ⟨?_, fun x hx => ?_, fun x hx => ?_, h.readers, h.writers⟩
      · show running.Perm (d.readers.rows ++ [] ++ (d.writers.rows ++ []) ++ d.batch.map Prod.fst)
        rw [List.append_nil, List.append_nil]
        exact h.flight
      · have hrow : x ∈ d.readers.rows ++ [] := hx
        rw [List.append_nil] at hrow
        exact h.reads x hrow
      · have hrow : x ∈ d.writers.rows ++ [] := hx
        rw [List.append_nil] at hrow
        exact h.writes x hrow
    obtain ⟨running', hrun, hfills'⟩ := Admission.foldlM_flat (P := P) (a := a₀)
      (hstart ▸ h.tracked) hfills ha
    rw [hstart] at hrun
    have htracked : (Admission.flat d snapshot systems [] running' a).loop.Tracked :=
      List.foldlM_some_induction (fun r : Runner α => r.loop.Tracked) _ hrun h.tracked
        fun _ _ _ _ ht hstep => (Runner.tracked_step ht hstep).1
    refine ⟨_, running', hrun, htracked, h.hidden, ?_, ?_, ?_,
      Filling.Sound.finish hfills'.readers calls, Filling.Sound.finish hfills'.writers calls, ?_⟩
    · refine hfills'.flight.trans (.of_eq ?_)
      unfold inFlight
      rw [Filling.rows_finish, Filling.rows_finish]
    · intro x hx
      rw [Filling.rows_finish] at hx
      exact hfills'.reads x hx
    · intro x hx
      rw [Filling.rows_finish] at hx
      exact hfills'.writes x hx
    · intro htop
      cases htop
  · cases hs

theorem Refines.onQueue (h : d.Refines running) {writer : Bool}
    {f : Queue Row (RunOutcome α) → Option (Queue Row (RunOutcome α))}
    (hf : ∀ q q', q.Sound fits → f q = some q' → q'.Sound fits ∧ q'.rows.Perm q.rows)
    (hs : d.onQueue writer f = some d') : Simulates P d d' running := by
  unfold Dispatched.onQueue at hs
  split_ifs at hs
  · obtain ⟨writers, hq, rfl⟩ := Option.map_eq_some_iff.mp hs
    obtain ⟨hsound, hrows⟩ := hf d.writers writers h.writers hq
    refine h.stutter rfl ?_ (fun _ hx => hx) (fun x hx => hrows.mem_iff.mp hx) h.readers hsound h.taken
    exact (hrows.symm.append_left _).append_right _
  · obtain ⟨readers, hq, rfl⟩ := Option.map_eq_some_iff.mp hs
    obtain ⟨hsound, hrows⟩ := hf d.readers readers h.readers hq
    refine h.stutter rfl ?_ (fun x hx => hrows.mem_iff.mp hx) (fun _ hx => hx) hsound h.writers h.taken
    exact (hrows.symm.append_right _).append_right _

theorem perm_taken {before after rest batch : List Row} {x : Row}
    (h : before.Perm (x :: after)) :
    (before ++ rest ++ batch).Perm (after ++ rest ++ (batch ++ [x])) := by
  have hhead : (before ++ rest ++ batch).Perm (x :: (after ++ rest ++ batch)) :=
    (h.append_right rest).append_right batch
  rw [← List.append_assoc]
  exact hhead.trans (List.perm_append_singleton x _).symm

theorem Refines.next (h : d.Refines running) {writer : Bool} {turn : Turn (RunOutcome α)}
    (hs : d.next writer turn = some d') : Simulates P d d' running := by
  by_cases htakes : d.takes writer = true
  swap
  · cases (if_neg htakes).symm.trans hs
  replace hs := (if_pos htakes).symm.trans hs
  have hstage : d.runner.loop.stage ≠ .top := by
    intro htop
    unfold takes at htakes
    rw [htop] at htakes
    cases htakes
  cases writer with
  | true =>
    obtain ⟨⟨x, queue⟩, hnext, hs⟩ := Option.bind_eq_some_iff.mp hs
    cases hs
    obtain ⟨hsound, hrows, -⟩ := h.writers.next hnext
    refine h.stutter rfl ?_ (fun _ hx => hx)
      (fun y hy => hrows.mem_iff.mpr (List.mem_cons_of_mem _ hy)) h.readers hsound
      fun htop => absurd htop hstage
    show (d.readers.rows ++ d.writers.rows ++ d.batch.map Prod.fst).Perm
      (d.readers.rows ++ queue.rows ++ (d.batch ++ [x]).map Prod.fst)
    rw [List.map_append]
    have hswap : ∀ l : List Row, (d.readers.rows ++ l).Perm (l ++ d.readers.rows) := fun l =>
      List.perm_append_comm
    exact ((hswap _).append_right _).trans ((perm_taken hrows).trans ((hswap _).symm.append_right _))
  | false =>
    obtain ⟨⟨x, queue⟩, hnext, hs⟩ := Option.bind_eq_some_iff.mp hs
    cases hs
    obtain ⟨hsound, hrows, -⟩ := h.readers.next hnext
    refine h.stutter rfl ?_ (fun y hy => hrows.mem_iff.mpr (List.mem_cons_of_mem _ hy))
      (fun _ hx => hx) hsound h.writers fun htop => absurd htop hstage
    show (d.readers.rows ++ d.writers.rows ++ d.batch.map Prod.fst).Perm
      (queue.rows ++ d.writers.rows ++ (d.batch ++ [x]).map Prod.fst)
    rw [List.map_append]
    exact perm_taken hrows

/-- In a list without repeated ids, taking one entry out leaves the others. -/
theorem perm_filter_ne {rows : List Row} {id : RunId} {run : PlannedSystemRun} {others : List Row}
    (hn : (rows.map Prod.fst).Nodup) (h : rows.Perm ((id, run) :: others)) :
    (rows.filter fun x => x.1 ≠ id).Perm others := by
  have hkeys : (((id, run) :: others).map Prod.fst).Nodup := (h.map Prod.fst).nodup_iff.mp hn
  have hothers : others.filter (fun x => x.1 ≠ id) = others := by
    refine List.filter_eq_self.mpr fun x hx => decide_eq_true fun heq => ?_
    exact (List.nodup_cons.mp hkeys).1 (List.mem_map.mpr ⟨x, hx, heq⟩)
  have hfiltered := h.filter fun x => x.1 ≠ id
  rw [List.filter_cons_of_neg (by simp), hothers] at hfiltered
  exact hfiltered

theorem Refines.commit (h : d.Refines running) (hs : d.commit P = some d') :
    Simulates P d d' running := by
  unfold Dispatched.commit at hs
  split at hs
  · rename_i row outcome batch hbatch
    obtain ⟨id, run⟩ := row
    obtain ⟨runner, hfinish, hs⟩ := Option.bind_eq_some_iff.mp hs
    cases hs
    have hflight : running.Perm ((id, run) :: (d.readers.rows ++ d.writers.rows ++
        batch.map Prod.fst)) := by
      refine h.flight.trans ?_
      rw [inFlight, hbatch, List.map_cons]
      exact List.perm_middle
    have hmem : (id, run) ∈ running := hflight.mem_iff.mpr List.mem_cons_self
    have hnodup : (running.map Prod.fst).Nodup := h.tracked.single
    obtain ⟨hflat, hstage⟩ := Runner.finish_carrying hnodup hmem hfinish
    have hstep : (d.runner.carrying running).step P (.finish id outcome) =
        some (runner.carrying (running.filter fun x => x.1 ≠ id)) := hflat
    obtain ⟨htracked, -⟩ := Runner.tracked_step h.tracked hstep
    refine ⟨[.finish id outcome], running.filter fun x => x.1 ≠ id,
      Option.bind_eq_some_iff.mpr ⟨_, hstep, rfl⟩, htracked, rfl, ?_, h.reads, h.writes, h.readers,
      h.writers, fun htop => absurd htop hstage⟩
    exact perm_filter_ne hnodup hflight
  · cases hs

theorem Refines.preempt (h : d.Refines running) (hs : d.step P setting .preempt = some d') :
    Simulates P d d' running := by
  obtain ⟨runner, hpreempt, rfl⟩ := Option.map_eq_some_iff.mp hs
  unfold Runner.preempt at hpreempt
  split at hpreempt
  · rename_i hstage
    obtain ⟨reservations, hcancelled, hrunner⟩ := Option.bind_eq_some_iff.mp hpreempt
    cases hrunner
    let kept := running.filter fun x => reservations.contains x.1
    let drained : Runner α := { d.runner with loop := { d.runner.loop with
      reservations, running := kept, stage := .draining } }
    have hstep : (d.runner.carrying running).step P .preempt = some drained := by
      show Runner.preempt _ = _
      unfold Runner.preempt
      rw [show (d.runner.carrying running).loop.stage = .top from hstage]
      exact Option.bind_eq_some_iff.mpr ⟨reservations, hcancelled, rfl⟩
    obtain ⟨htracked, -, hkept⟩ := Runner.tracked_preempt h.tracked hstep
    have hbatch := h.taken hstage
    have hflight : kept.Perm (d.writers.rows ++ d.batch.map Prod.fst) := by
      have hfiltered : kept = running.filter fun x => x.2.reservesWrite := hkept
      rw [hfiltered, hbatch, List.map_nil, List.append_nil]
      refine (h.flight.filter _).trans ?_
      rw [inFlight, hbatch, List.map_nil, List.append_nil, List.filter_append]
      have hreads : d.readers.rows.filter (fun x => x.2.reservesWrite) = [] :=
        List.filter_eq_nil_iff.mpr fun x hx => by rw [h.reads x hx]; decide
      rw [hreads, List.nil_append, List.filter_eq_self.mpr h.writes]
    refine ⟨[.preempt], kept, Option.bind_eq_some_iff.mpr ⟨_, hstep, rfl⟩, htracked, ?_, ?_,
      fun x hx => ?_, h.writes, Queue.sound_new _, h.writers, fun htop => (by cases htop)⟩
    · show d.runner.loop.running.filter _ = []
      rw [h.hidden, List.filter_nil]
    · show kept.Perm ((Queue.new setting.workers).rows ++ d.writers.rows ++ d.batch.map Prod.fst)
      rw [Queue.rows_new, List.nil_append]
      exact hflight
    · rw [Queue.rows_new] at hx
      cases hx
  · cases hpreempt

theorem Refines.step (h : d.Refines running) {a : DispatchStep α}
    (hs : d.step P setting a = some d') : Simulates P d d' running := by
  cases a with
  | loop a => exact h.loop hs
  | dispatch calls => exact h.dispatch hs
  | work writer index a => exact h.onQueue (fun _ _ hq hstep => hq.work hstep) hs
  | next writer turn => exact h.next hs
  | retire writer index => exact h.onQueue (fun _ _ hq hstep => hq.retire hstep) hs
  | commit => exact h.commit hs
  | preempt => exact h.preempt hs

theorem exists_refines (h : (machine P setting).Reachable d) :
    ∃ running, (Runner.machine P).Reachable (d.runner.carrying running) ∧ d.Refines running := by
  refine h.invariant (fun d => ∃ running, (Runner.machine P).Reachable (d.runner.carrying running) ∧
    d.Refines running) ?_ ?_
  · rintro d ⟨state, memo, phase, rfl⟩
    obtain ⟨n, hdense⟩ := P.dense_componentRegistry
    refine ⟨[], .init ⟨state, memo, phase, rfl⟩, PhaseLoop.tracked_enter hdense, rfl, ?_, ?_, ?_,
      Queue.sound_new _, Queue.sound_new _, fun _ => rfl⟩
    · simp [inFlight, enter]
    · simp [enter]
    · simp [enter]
  · rintro d a d' ⟨running, hreached, hrefines⟩ - hs
    obtain ⟨steps, running', hrun, hrefines'⟩ := hrefines.step hs
    exact ⟨running', hreached.run hrun, hrefines'⟩

/-- The loop over worker queues refines the loop over a flat set of runs, with the same
reservations, state, memo table and runs in flight. -/
theorem reachable_refines (h : (machine P setting).Reachable d) :
    ∃ running, (Runner.machine P).Reachable (d.runner.carrying running) ∧
      running.Perm d.inFlight ∧ (running.map Prod.fst).Nodup ∧
      (∀ x ∈ d.readers.rows, x.2.reservesWrite = false) ∧
      (∀ x ∈ d.writers.rows, x.2.reservesWrite = true) ∧ (d.drained = true → running = []) := by
  obtain ⟨running, hreached, hrefines⟩ := exists_refines h
  refine ⟨running, hreached, hrefines.flight, hrefines.tracked.single, hrefines.reads,
    hrefines.writes, fun hdrained => ?_⟩
  obtain ⟨hqueues, hbatch⟩ := Bool.and_eq_true_iff.mp hdrained
  obtain ⟨hreaders, hwriters⟩ := Bool.and_eq_true_iff.mp hqueues
  have hnone : d.inFlight = [] := by
    rw [inFlight, Queue.rows_of_exhausted hreaders, Queue.rows_of_exhausted hwriters,
      List.isEmpty_iff.mp hbatch]
    rfl
  have hflight := hrefines.flight
  rw [hnone] at hflight
  exact hflight.eq_nil

/-- One system reads the entities with component 1, another one writes component 2 in place. -/
def mixedBowl : Program Nat :=
  ⟨Components.plain Nat, none, [(.evaluate, .function [.query (.read 1) .unit]),
    (.evaluate, .function [.query (.mutRef 2) .unit])]⟩

/-- Five entities are to be read and one is to be written. -/
def mixedState : State Nat :=
  { State.build mixedBowl.boxedSystems mixedBowl.hooked with
    world := ((World.machine (Components.plain Nat)).run World.new
      [.base (.insert 1 0 (.data 0)), .base (.insert 1 1 (.data 0)), .base (.insert 1 2 (.data 0)),
        .base (.insert 1 3 (.data 0)), .base (.insert 1 4 (.data 0)),
        .base (.insert 2 4 (.data 0))]).getD World.new }

/-- One worker. -/
def lone : Setting := ⟨some 1, 4, by decide⟩

def unheard : RunOutcome Nat := ⟨[], [[]], []⟩

/-- The readers go out in batches of two; the writer and one reader are back and committed. -/
def mixed : Dispatched Nat :=
  ((machine mixedBowl lone).run (enter mixedBowl lone mixedState ∅ .evaluate)
    [.loop .turn, .loop .planNext, .dispatch false, .loop .planNext, .dispatch true, .loop .endWave,
      .work false 0 (.ready 1 unheard), .next false (.stream 0), .work true 0 (.ready 0 unheard),
      .next true (.stream 0), .retire true 0, .commit, .commit, .loop .endBatch]).getD
    (enter mixedBowl lone mixedState ∅ .evaluate)

theorem mixed_refines : ∃ running, (Runner.machine mixedBowl).Reachable (mixed.runner.carrying running) ∧
    running.length = 4 ∧ mixed.writers.exhausted = true := by
  have hrun : (machine mixedBowl lone).run (enter mixedBowl lone mixedState ∅ .evaluate)
      [.loop .turn, .loop .planNext, .dispatch false, .loop .planNext, .dispatch true, .loop .endWave,
        .work false 0 (.ready 1 unheard), .next false (.stream 0), .work true 0 (.ready 0 unheard),
        .next true (.stream 0), .retire true 0, .commit, .commit, .loop .endBatch] =
      some mixed := rfl
  obtain ⟨running, hreached, hflight, -⟩ :=
    reachable_refines (Machine.Reachable.run (.init ⟨mixedState, ∅, .evaluate, rfl⟩) hrun)
  exact ⟨running, hreached, hflight.length_eq.trans (by decide), by decide⟩

end Dispatched
end Admissions

end Dispatch
end Porridge
