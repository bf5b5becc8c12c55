import Porridge.Execution.Accounting

/-! In-place writes are reconciled: once nothing is in flight, every entry is stamped with its own
fingerprint, and what was read before a change has recorded an older revision. -/
namespace Porridge

variable {α : Type}

/-- The dep observes the entry: its row, or the store that it is in. -/
def Dep.Observes (d : Dep) (t : TypeId) (e : Entity) : Prop :=
  d.component = t ∧ (d.storeScoped = true ∨ d.entity = e)

namespace Execution

variable {P : Program α} {x x' : Execution α} {p : PartyId}

/-- A memo entry, or a row in flight that is to leave one, has recorded revision `k` of the entry. -/
def HasRead (x : Execution α) (t : TypeId) (e : Entity) (k : Revision) : Prop :=
  ∃ deps, ((∃ o m, x.drive.protocol.Remembers o m ∧ m.deps = deps) ∨
    ∃ run ∈ x.runs, ∃ row ∈ run.rows, row.deps = deps) ∧
      ∃ d ∈ deps, d.Observes t e ∧ d.revision = some k

/-- No run in flight and no planned one has recorded a revision that the world has not reached. -/
structure Known (x : Execution α) : Prop where
  loop : ∀ l ∈ x.loop, l.Bounded x.world.revision
  passes : ∀ p, ∀ run ∈ x.pass p, run.Bounded x.world.revision

theorem Known.mono (h : x.Known) (hr : x.world.revision ≤ x'.world.revision)
    (hloop : x'.loop = x.loop ∨ x'.loop = none) (hpasses : ∀ p, x'.pass p ⊆ x.pass p) :
    x'.Known where
  loop l hl := by
    rcases hloop with hloop | hloop
    · exact (h.loop l (hloop ▸ hl)).mono hr
    · rw [hloop] at hl
      cases hl
  passes p run hrun := (h.passes p run (hpasses p hrun)).mono hr

theorem pass_erase_subset (passes : Dict PartyId (List PlannedSystemRun)) (p p' : PartyId) :
    Dict.getD (passes.erase p') p [] ⊆ Dict.getD passes p [] := by
  unfold Dict.getD
  rw [Dict.lookup_erase]
  split_ifs
  · exact fun _ hrun => absurd hrun List.not_mem_nil
  · exact List.Subset.refl _

/-- What a step plans has recorded what the world had handed out. -/
theorem Known.step (h : x.Known) (hw : x.world.Coherent) {a : ExecutionStep α}
    (hs : step P x a = some x') : x'.Known := by
  have hle := (later_step hs).revision_le hw
  cases step_cases hs with
  | @act a q hpermits hact =>
    cases a with
    | openWindow p => exact h.mono hle (Or.inr rfl) fun _ => List.Subset.refl _
    | advance p => exact h.mono hle (Or.inl rfl) fun p' => pass_erase_subset x.passes p' p
    | cancel p =>
      refine h.mono hle ?_ fun p' => pass_erase_subset x.passes p' p
      unfold Execution.act
      dsimp only
      split_ifs
      · exact Or.inr rfl
      · exact Or.inl rfl
    | _ => exact h.mono hle (Or.inl rfl) fun _ => List.Subset.refl _
  | enterPhase hphase hnone =>
    refine ⟨fun l hl => ?_, h.passes⟩
    cases hl
    exact ⟨nofun, nofun⟩
  | skipPhase hnone => exact h.mono hle (Or.inl rfl) fun _ => List.Subset.refl _
  | @phase p a generation memo changed target waiter l r' hpc hl hr =>
    have hstep := Runner.bounded_step ((h.loop l hl).mono hle) hw hle hr
    refine ⟨fun l' hl' => ?_, fun p' run hrun => (h.passes p' run hrun).mono hle⟩
    cases hl'
    exact hstep
  | leavePhase hl hcompleted => exact h.mono hle (Or.inr rfl) fun _ => List.Subset.refl _
  | @startSettle p epoch memo before runs hpc hfirst hruns =>
    refine ⟨h.loop, fun p' run hrun => ?_⟩
    unfold pass at hrun
    dsimp only at hrun
    rw [Dict.getD_insert] at hrun
    split_ifs at hrun
    · exact bounded_of_mem_settleRuns hw hruns run hrun
    · exact h.passes p' run hrun
  | @finishSettle p index outcome epoch memo after before run state progress hpc hrun hcommit =>
    refine h.mono hle (Or.inl rfl) fun p' => ?_
    unfold pass
    dsimp only
    rw [Dict.getD_insert]
    split_ifs with heq
    · rw [heq]
      exact (List.eraseIdx_sublist ..).subset
    · exact List.Subset.refl _

/-- The tables after a step have recorded what was handed out before it. -/
theorem recorded_step (h : x.drive.protocol.Recorded) (hw : x.world.Coherent)
    {a : ExecutionStep α} (hs : step P x a = some x') : x'.drive.protocol.Recorded := by
  cases step_cases hs with
  | @act a q hpermits hact =>
    have hprotocol : (x.act a ⟨q.rest, x.drive.cursorAfter q.rest a⟩).drive.protocol = q.rest := by
      cases a <;> rfl
    rw [hprotocol]
    exact (h.act hw hact).rest
  | @phase p a generation memo changed target waiter l r' hpc hl hr =>
    have hheld : (x.drive.protocol.pc p).held = some memo := by
      rw [hpc]
      rfl
    cases Runner.works_step hr with
    | @marks _ systems hstate hambient hmemo =>
      refine h.inherits (.goto (fun o m hm => Or.inl ?_) (fun _ => rfl) fun memo' hp o m hm => ?_) ?_
      · have hm : r'.state.memo.lookup o = some m := hm
        rw [hstate] at hm
        exact hm
      · cases hp
        rw [hmemo] at hm
        exact Or.inr ⟨p, memo, hheld, hm⟩
      · have hworld : r'.state.world = x.world := by
          rw [hstate]
          rfl
        show x.world.revision ≤ r'.state.world.revision
        rw [hworld]
    | commits hfind hcommit hstate =>
      exact h.commit hw hheld hcommit (by rw [hstate]; exact ⟨rfl, rfl⟩) (fun _ => rfl) rfl
  | @finishSettle p index outcome epoch memo after before run state progress hpc hrun hcommit =>
    have hheld : (x.drive.protocol.pc p).held = some memo := by
      rw [hpc]
      rfl
    exact h.commit hw hheld hcommit ⟨rfl, rfl⟩ (fun _ => rfl) rfl
  | _ => exact h

end Execution

namespace Accounting

variable {P : Program α} {s s' : Accounting α} {w₀ : World α} {t : TypeId} {e : Entity}

/-- A row stays pending unless the step commits a run that declares it. -/
theorem mem_pendingAfter {a : ExecutionStep α} (h : (t, e) ∈ s.pending)
    (hrun : ∀ run ∈ s.execution.finished a, run.writesRow t e = false) :
    (t, e) ∈ s.pendingAfter a := by
  have hfilter : (t, e) ∈ s.pending.filter fun row =>
      (s.execution.finished a).all fun run => !run.writesRow row.1 row.2 := by
    refine List.mem_filter.mpr ⟨h, ?_⟩
    rw [Option.all_eq_true]
    intro run hmem
    rw [hrun run hmem]
    rfl
  unfold pendingAfter
  split
  · exact List.mem_cons_of_mem _ h
  · exact hfilter

/-- A row is pending because the step writes it in place, or since before. -/
theorem of_mem_pendingAfter {a : ExecutionStep α} (h : (t, e) ∈ s.pendingAfter a) :
    (∃ p v, a = .act (.writeInPlace p t e v)) ∨
      (t, e) ∈ s.pending ∧ ∀ run ∈ s.execution.finished a, run.writesRow t e = false := by
  unfold pendingAfter at h
  split at h
  · rename_i p t' e' v
    rcases List.mem_cons.mp h with heq | h
    · cases heq
      exact Or.inl ⟨p, v, rfl⟩
    · exact Or.inr ⟨h, fun _ hrun => by cases hrun⟩
  · obtain ⟨h, hall⟩ := List.mem_filter.mp h
    refine Or.inr ⟨h, fun run hrun => ?_⟩
    have hnot := (Option.all_eq_true _ _).mp hall run hrun
    simpa using hnot

/-- A commit leaves only those rows pending that its run does not declare. -/
theorem Identified.finish {s₁ s₂ : State α} {memo after : MemoTable} {run : PlannedSystemRun}
    {outcome : RunOutcome α} {phase : Option Phase} {progress : CommitProgress}
    {a : ExecutionStep α} (h : World.Identified P.components s.pending w₀ s₁.world)
    (hc : commitSystemRun P.components memo s₁ (run.finish outcome) phase =
      some (after, s₂, progress)) (hfinished : s.execution.finished a = some run) :
    World.Identified P.components (s.pendingAfter a) w₀ s₂.world := by
  refine (h.commit hc).mono fun row hrow => ?_
  obtain ⟨hrow, hnot⟩ := List.mem_filter.mp hrow
  refine mem_pendingAfter hrow fun run' hrun' => ?_
  cases hfinished.symm.trans hrun'
  have hnot : (row.1, row.2) ∉ run.rows.flatMap fun row => writtenRows row.access :=
    of_decide_eq_true hnot
  rw [← PlannedSystemRun.writesRow_iff] at hnot
  exact Bool.eq_false_iff.mpr hnot

/-- Each step keeps revisions as identities: what it writes in place is pending, and what its commit
reconciles no longer is. -/
theorem identified_execution (h : World.Identified P.components s.pending w₀ s.execution.world)
    {a : ExecutionStep α} (hs : (machine P).step s a = some s') :
    World.Identified P.components s'.pending w₀ s'.execution.world := by
  obtain ⟨x', hstep, rfl⟩ := Option.map_eq_some_iff.mp hs
  have hkept : ∀ {w : World α}, World.Identified P.components s.pending w₀ w →
      s.execution.finished a = none →
        World.Identified P.components (s.pendingAfter a) w₀ w := by
    intro w hw hnone
    refine hw.mono fun row hrow => mem_pendingAfter hrow fun run hrun => ?_
    rw [hnone] at hrun
    cases hrun
  cases Execution.step_cases hstep with
  | @act a q hpermits hact =>
    have hworld : (s.execution.act a ⟨q.rest, s.execution.drive.cursorAfter q.rest a⟩).world =
        q.state.world := by
      rw [← (Protocol.rest_frame q).1]
      cases a <;> rfl
    show World.Identified P.components (s.pendingAfter (.act a)) w₀
      (s.execution.act a ⟨q.rest, s.execution.drive.cursorAfter q.rest a⟩).world
    rw [hworld]
    by_cases hwrites : ∃ p t e v, a = .writeInPlace p t e v
    · obtain ⟨p, t, e, v, rfl⟩ := hwrites
      simp only [Protocol.act] at hact
      split_ifs at hact
      cases hact
      exact h.writeInPlace t e v
    · have hsteers := Protocol.steers_act hact fun p t e v heq => hwrites ⟨p, t, e, v, heq⟩
      exact hkept (h.managed hsteers.world) rfl
  | @phase p a generation memo changed target waiter l r' hpc hl hr =>
    show World.Identified P.components (s.pendingAfter (.phase p a)) w₀ r'.state.world
    cases Runner.works_step hr with
    | @marks _ systems hstate hambient hmemo hnone =>
      rw [hstate]
      refine hkept h ?_
      cases a with
      | finish id outcome => exact absurd rfl (hnone id outcome)
      | _ => rfl
    | @commits id entry outcome state progress systems hfind hcommit hstate =>
      have hworld : r'.state.world = state.world := by rw [hstate]
      rw [hworld]
      refine Identified.finish h hcommit ?_
      show (s.execution.loop.bind fun l => (l.running.find? (·.1 = id)).map Prod.snd) = some entry.2
      rw [hl, Option.bind_some, hfind, Option.map_some]
  | @finishSettle p index outcome epoch memo after before run state progress hpc hrun hcommit =>
    have hfinished : s.execution.finished (.finishSettle p index outcome) = some run := hrun
    exact Identified.finish h hcommit hfinished
  | _ => exact hkept h rfl

/-- What waits for its reconciliation has been written by runs in flight. -/
def Covered (s : Accounting α) : Prop :=
  ∀ row ∈ s.pending, ∃ run ∈ s.execution.runs, run.writesRow row.1 row.2 = true

theorem Covered.step (ht : s.execution.Tracked) (hseated : s.execution.Seated)
    {a : ExecutionStep α} (ha : s.Accounts a) (hs : (machine P).step s a = some s') :
    s'.Covered := by
  obtain ⟨x', hstep, rfl⟩ := Option.map_eq_some_iff.mp hs
  rintro ⟨t, e⟩ hrow
  rcases of_mem_pendingAfter hrow with ⟨p, v, rfl⟩ | ⟨hrow, hdeclared⟩
  · -- a row that is written now is declared by a run in flight
    obtain @⟨_, q, hpermits, hact⟩ := Execution.step_cases hstep
    have hdispatches : (s.execution.drive.protocol.pc p).dispatches = true := ha.1
    unfold Execution.permits at hpermits
    dsimp only at hpermits
    cases hpc : s.execution.drive.protocol.pc p with
    | driving generation memo changed target waiter =>
      rw [hpc] at hpermits
      obtain ⟨l, hl, hrunning⟩ := (Option.any_eq_true _ _).mp hpermits
      obtain ⟨⟨id, run⟩, hmem, hwrites⟩ := List.any_eq_true.mp hrunning
      have hloop : run ∈ s.execution.loopRuns := (Execution.mem_loopRuns hl).mpr ⟨id, hmem⟩
      exact ⟨run, Execution.mem_runs.mpr (Or.inl hloop), hwrites⟩
    | inSettlePhase epoch memo before =>
      rw [hpc] at hpermits
      obtain ⟨run, hmem, hwrites⟩ := List.any_eq_true.mp hpermits
      exact ⟨run, Execution.mem_runs.mpr (Or.inr ⟨p, hmem⟩), hwrites⟩
    | _ =>
      rw [hpc] at hdispatches
      cases hdispatches
  · obtain ⟨run, hkept, hwrites⟩ := ha.2 _ hrow
    rcases Execution.mem_runs_of_kept ht hseated hstep hkept with hrun | hfinished
    · exact ⟨run, hrun, hwrites⟩
    · rw [hdeclared run hfinished] at hwrites
      cases hwrites

theorem Covered.settled (h : s.Covered) (hidle : s.execution.Idle) : s.pending = [] := by
  rw [List.eq_nil_iff_forall_not_mem]
  intro row hrow
  obtain ⟨run, hrun, -⟩ := h row hrow
  rcases Execution.mem_runs.mp hrun with hloop | ⟨p, hpass⟩
  · obtain ⟨l, hl, hmem⟩ := List.mem_flatMap.mp hloop
    rw [hidle.phases l (Option.mem_toList.mp hl)] at hmem
    cases hmem
  · rw [hidle.passes p] at hpass
    cases hpass

/-- From `w₀` on revisions are identities, every pending row is written by a run in flight, and
nobody has recorded a revision that the world has not reached. -/
structure Accounted (P : Program α) (w₀ : World α) (s : Accounting α) : Prop where
  tracked : s.execution.Tracked
  seated : s.execution.Seated
  identified : World.Identified P.components s.pending w₀ s.execution.world
  covered : s.Covered
  known : s.execution.Known
  recorded : s.execution.drive.protocol.Recorded

theorem Accounted.restart (h : Accounted P w₀ s) : Accounted P s.execution.world s :=
  { h with identified := h.identified.restart }

theorem Accounted.step (h : Accounted P w₀ s) {a : ExecutionStep α} (ha : s.Accounts a)
    (hs : (machine P).step s a = some s') : Accounted P w₀ s' := by
  have hcovered := Covered.step h.tracked h.seated ha hs
  have hidentified := identified_execution h.identified hs
  obtain ⟨x', hstep, rfl⟩ := Option.map_eq_some_iff.mp hs
  have hcoherent := h.identified.coherent
  exact ⟨Execution.tracked_step h.tracked hstep, h.seated.step hstep, hidentified, hcovered,
    h.known.step hcoherent hstep, Execution.recorded_step h.recorded hcoherent hstep⟩

theorem Accounted.run {labels : List (ExecutionStep α)} (h : Accounted P w₀ s)
    (ha : (machine P).Allows Accounts s labels) (hr : (machine P).run s labels = some s') :
    Accounted P w₀ s' := by
  induction labels generalizing s with
  | nil => exact Option.some.inj hr ▸ h
  | cons a labels ih =>
    obtain ⟨m, hm, hrest⟩ := Option.bind_eq_some_iff.mp hr
    exact ih (h.step ha.1 hm) (ha.2 m hm) hrest

theorem accounted_new (P : Program α) : Accounted P (World.ofSchema P.schema) ⟨.new P, []⟩ := by
  let q : Protocol α := { Protocol.new P.boxedSystems P.hooked with
    state := { State.build P.boxedSystems P.hooked with world := .ofSchema P.schema } }
  have hworld : (Execution.new P).world = .ofSchema P.schema :=
    congrArg State.world (Protocol.rest_frame q).1
  have hq : q.Recorded := by
    rintro o m (hm | ⟨p, memo, hp, -⟩)
    · have hnone : q.state.memo.lookup o = none := by
        have hempty : q.state.memo = ∅ := State.build_memo P.boxedSystems P.hooked
        rw [hempty]
        exact AList.lookup_empty o
      rw [hnone] at hm
      cases hm
    · have hidle : (q.pc p).held = none := rfl
      rw [hidle] at hp
      cases hp
  have hidentified : World.Identified P.components [] (World.ofSchema P.schema)
      (Execution.new P).world := by
    rw [hworld]
    exact ⟨World.coherent_ofSchema P.schema, le_rfl, nofun, nofun, nofun⟩
  exact ⟨Execution.tracked_new, fun p hp => absurd rfl hp, hidentified, nofun,
    ⟨nofun, fun p run hrun => nomatch hrun⟩, hq.rest⟩

theorem accounted_of_reachable (h : (machine P).ReachableUnder Accounts s) :
    Accounted P s.execution.world s := by
  have hsome : ∃ w₀, Accounted P w₀ s := by
    refine h.invariant (fun s => ∃ w₀, Accounted P w₀ s) ?_
      fun s a s' hs ha hstep => hs.imp fun w₀ hw₀ => hw₀.step ha hstep
    rintro s rfl
    exact ⟨_, accounted_new P⟩
  exact hsome.choose_spec.restart

/-- What has been read has been handed out. -/
theorem Accounted.read_le (h : Accounted P w₀ s) {k : Revision}
    (hread : s.execution.HasRead t e k) : k ≤ s.execution.world.revision := by
  obtain ⟨deps, hdeps, d, hd, -, hk⟩ := hread
  rcases hdeps with ⟨o, m, hm, rfl⟩ | ⟨run, hrun, row, hrow, rfl⟩
  · exact h.recorded o m hm d hd k hk
  · rcases Execution.mem_runs.mp hrun with hloop | ⟨p, hpass⟩
    · obtain ⟨l, hl, hmem⟩ := List.mem_flatMap.mp hloop
      obtain ⟨x, hx, rfl⟩ := List.mem_map.mp hmem
      exact (h.known.loop l (Option.mem_toList.mp hl)).running x hx row hrow d hd k hk
    · exact h.known.passes p run hpass row hrow d hd k hk

/-- Once nothing is in flight, every entry is stamped with its own fingerprint, and readers of
another version have recorded an older revision. -/
theorem reconciled_of_idle {labels : List (ExecutionStep α)}
    (h : (machine P).ReachableUnder Accounts s) (ha : (machine P).Allows Accounts s labels)
    (hr : (machine P).run s labels = some s') (hidle : s'.execution.Idle) :
    (∀ t e z, s'.execution.world.cell? t e = some z →
      z.fingerprint = P.components.fingerprint t z.value) ∧
    ∀ t e y z k, P.components.tracked t = true → (t, e) ∉ s.pending →
      s.execution.world.cell? t e = some y → s'.execution.world.cell? t e = some z →
      ¬ World.SameVersion P.components t y z → s.execution.HasRead t e k → k < z.revision := by
  have hs := accounted_of_reachable h
  have hs' := hs.run ha hr
  have hdone : s'.pending = [] := hs'.covered.settled hidle
  have hstamped : ∀ t e z, s'.execution.world.cell? t e = some z →
      z.fingerprint = P.components.fingerprint t z.value := by
    intro t e z hz
    refine hs'.identified.stamped t e z hz ?_
    rw [hdone]
    exact List.not_mem_nil
  refine ⟨hstamped, fun t e y z k htracked hsettled hy hz hchanged hread => ?_⟩
  refine (hs.read_le hread).trans_lt (not_le.mp fun hold => hchanged ?_)
  -- an entry with a revision from before is the version from before
  obtain ⟨y', hy', -, hretains⟩ := hs'.identified.old t e z hz hold
  cases hy.symm.trans hy'
  obtain ⟨hfingerprint, hentry⟩ := hretains htracked
  have hstamp : y.fingerprint = P.components.fingerprint t y.value :=
    hs.identified.stamped t e y hy hsettled
  have hsame : P.components.fingerprint t y.value = P.components.fingerprint t z.value := by
    rw [← hstamp, ← hstamped t e z hz, hfingerprint]
  refine ⟨hsame, fun hnone => (hentry ?_ ?_).symm⟩
  · rw [hstamped t e z hz, ← hsame, hnone]
  · rw [hdone]
    exact List.not_mem_nil

section Ticking

/-- A system reads a row that another one writes on every plan, also when the bowl has settled. -/
def tickingBowl : Program Nat :=
  ⟨World.fingerprinted, none, [(.evaluate, .function [.query (.read 1) .unit]),
    (.evaluate, .onSettled (.function [.query (.mutRef 1) .unit, .worldMeta]))]⟩

/-- Caller 1 commits the row of the reader in the first wave, which defers the one of the writer. -/
def readFirst : List (ExecutionStep Nat) :=
  [.act (.insert [.insert 1 0 (.data 7)]), .act (.callSettle 1 false)] ++
    (Protocol.advances 4 1).map .act ++ [.enterPhase 1, .enterPhase 1, .phase 1 .turn,
      .phase 1 .planNext, .phase 1 .admitNext, .phase 1 .planNext, .phase 1 .admitNext,
      .phase 1 .endWave, .phase 1 (.finish ⟨0, 0⟩ ⟨[], [[]], []⟩), .phase 1 .endBatch]

def admitWriter : List (ExecutionStep Nat) :=
  [.phase 1 .turn, .phase 1 .planNext, .phase 1 .planNext, .phase 1 .admitNext, .phase 1 .endWave]

/-- The second wave runs the writer, which writes the row in place. -/
def writeThen : List (ExecutionStep Nat) :=
  admitWriter ++ [.act (.writeInPlace 1 1 0 (.data 9)), .phase 1 (.finish ⟨0, 1⟩ ⟨[], [[]], []⟩)]

def readBowl : Accounting Nat :=
  ((machine tickingBowl).run ⟨.new tickingBowl, []⟩ readFirst).getD ⟨.new tickingBowl, []⟩

def writtenBowl : Accounting Nat := ((machine tickingBowl).run readBowl writeThen).getD readBowl

theorem written_reconciled :
    (∀ t e z, writtenBowl.execution.world.cell? t e = some z →
      z.fingerprint = World.fingerprinted.fingerprint t z.value) ∧
    readBowl.execution.HasRead 1 0 1 ∧ ∃ z, writtenBowl.execution.world.cell? 1 0 = some z ∧
      z.value = .data 9 ∧ 1 < z.revision := by
  have hread : (machine tickingBowl).run ⟨.new tickingBowl, []⟩ readFirst = some readBowl := rfl
  have hwritten : (machine tickingBowl).run readBowl writeThen = some writtenBowl := rfl
  have hfirst : (machine tickingBowl).Allows Accounts ⟨.new tickingBowl, []⟩ readFirst := by decide
  have hthen : (machine tickingBowl).Allows Accounts readBowl writeThen := by decide
  have hreached := Machine.ReachableUnder.run (.init rfl) hfirst hread
  have hidle : writtenBowl.execution.Idle := by
    refine ⟨fun l hl => ?_, fun p => ?_, fun _ => rfl⟩
    · cases hl
      rfl
    · have hparties : writtenBowl.execution.drive.protocol.parties =
        AList.insert 1 (writtenBowl.execution.drive.protocol.pc 1) ∅ := rfl
      unfold Protocol.pc at hparties ⊢
      rw [hparties, Dict.getD_insert]
      split_ifs <;> rfl
  obtain ⟨hstamped, hnewer⟩ := reconciled_of_idle hreached hthen hwritten hidle
  have hdep : readBowl.execution.HasRead 1 0 1 :=
    ⟨[⟨1, 0, some 1, false⟩], Or.inl ⟨⟨0, [0]⟩, ⟨[⟨1, 0, some 1, false⟩], 1, 0⟩,
      Or.inr ⟨1, _, rfl, rfl⟩, rfl⟩, _, List.mem_cons_self, ⟨rfl, Or.inr rfl⟩, rfl⟩
  refine ⟨hstamped, hdep, ⟨0, .data 9, 2, some 9, none⟩, rfl, rfl, ?_⟩
  refine hnewer 1 0 ⟨0, .data 7, 1, some 7, none⟩ _ 1 rfl (by decide) rfl rfl ?_ hdep
  rintro ⟨hsame, -⟩
  cases hsame

/-- Caller 1 goes on to the settled hooks. -/
def intoHooks : List (ExecutionStep Nat) :=
  readFirst ++ admitWriter ++ [.phase 1 (.finish ⟨0, 1⟩ ⟨[], [[]], []⟩), .phase 1 .endBatch,
    .phase 1 .turn, .leavePhase 1, .enterPhase 1] ++ (Protocol.advances 6 1).map .act

/-- The row of the writer runs again beside the hook of its system, which publishes nothing. -/
def writeInHook : List (ExecutionStep Nat) :=
  [.act (.writeInPlace 1 1 0 (.data 9)), .act (.commit 1 (settledRun 1 none) .evaluate),
    .act (.advance 1)]

def hookBowl : Execution Nat :=
  ((Execution.machine tickingBowl).run (.new tickingBowl) intoHooks).getD (.new tickingBowl)

def tickedBowl : Execution Nat :=
  ((Execution.machine tickingBowl).run hookBowl writeInHook).getD hookBowl

theorem tickedBowl_idle : tickedBowl.Idle := by
  refine ⟨nofun, fun p => ?_, fun _ => rfl⟩
  have hparties : tickedBowl.drive.protocol.parties =
    AList.insert 1 (tickedBowl.drive.protocol.pc 1) ∅ := rfl
  unfold Protocol.pc at hparties ⊢
  rw [hparties, Dict.getD_insert]
  split_ifs <;> rfl

/-- What a row writes in place beside a settled hook is not reconciled, and the entry of its reader
stays current. -/
theorem hooked_write_unreconciled :
    ¬ (∀ (P : Program Nat) (x : Execution Nat),
      (Execution.machine P).ReachableUnder (fun x a => x.Undisturbed a ∧ a.undropped = true) x →
        x.Idle → ∀ t e z, x.world.cell? t e = some z →
          z.fingerprint = P.components.fingerprint t z.value) ∧
    (hookBowl.drive.protocol.pc 1).hooking = true ∧
    ((hookBowl.drive.protocol.pc 1).held.bind fun memo =>
      (tickingBowl.systems[1]?).bind fun system =>
        system.2.streamRuns tickingBowl.components 1 hookBowl.world memo none).map
          (fun runs => runs.map fun run => run.writesRow 1 0) = some [true] ∧
    tickedBowl.world.cell? 1 0 = some ⟨0, .data 9, 1, some 7, none⟩ ∧
    (tickedBowl.drive.protocol.state.memo.lookup ⟨0, [0]⟩).map MemoEntry.deps =
      some [⟨1, 0, some 1, false⟩] := by
  have hhooks : (Execution.machine tickingBowl).run (.new tickingBowl) intoHooks =
    some hookBowl := rfl
  have hticked : (Execution.machine tickingBowl).run hookBowl writeInHook = some tickedBowl := rfl
  have hfirst : (Execution.machine tickingBowl).Allows
    (fun x a => x.Undisturbed a ∧ a.undropped = true) (.new tickingBowl) intoHooks := by decide
  have hthen : (Execution.machine tickingBowl).Allows
    (fun x a => x.Undisturbed a ∧ a.undropped = true) hookBowl writeInHook := by decide
  have hcell : tickedBowl.world.cell? 1 0 = some ⟨0, .data 9, 1, some 7, none⟩ := rfl
  refine ⟨fun hall => ?_, rfl, by decide, hcell, by decide⟩
  have hreached := Machine.ReachableUnder.run (.init rfl) hfirst hhooks
  have hstamped := hall tickingBowl tickedBowl (Machine.ReachableUnder.run hreached hthen hticked)
    tickedBowl_idle 1 0 _ hcell
  cases hstamped

/-- A system with a hook before its batches writes a row. -/
def wrappedBowl : Program Nat :=
  ⟨World.fingerprinted, none, [(.evaluate, .onStart (.function [.query (.mutRef 1) .unit]))]⟩

/-- The batch is preempted after its row has written, and before it is committed. -/
def preemptBatch : List (ExecutionStep Nat) :=
  [.act (.insert [.insert 1 0 (.data 7)]), .act (.callSettle 1 false)] ++
    (Protocol.advances 4 1).map .act ++ [.enterPhase 1, .enterPhase 1, .phase 1 .turn,
      .phase 1 .planNext, .phase 1 .admitNext, .phase 1 .endWave,
      .act (.writeInPlace 1 1 0 (.data 9)), .phase 1 .interrupt, .phase 1 .preempt]

def preemptedBowl : Execution Nat :=
  ((Execution.machine wrappedBowl).run (.new wrappedBowl) preemptBatch).getD (.new wrappedBowl)

/-- A preemption drops a batch that reserves nothing, with what its row has written. -/
theorem dropped_batch_unreconciled :
    (Execution.machine wrappedBowl).run (.new wrappedBowl) preemptBatch = some preemptedBowl ∧
      preemptedBowl.runs = [] ∧
        preemptedBowl.world.cell? 1 0 = some ⟨0, .data 9, 1, some 7, none⟩ := ⟨rfl, rfl, rfl⟩

end Ticking

end Accounting
end Porridge
