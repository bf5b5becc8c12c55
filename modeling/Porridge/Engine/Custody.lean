import Mathlib.Logic.Function.Basic
import Porridge.Deferral.Waiting
import Porridge.Engine.Liveness
import Porridge.World.Emitted

/-! Invocations hold nothing but what their last output emitted. -/
namespace Porridge

open World

/-- The bowl with a record of what the outputs of each invocation emitted last. -/
structure Custody (α : Type) where
  engine : Engine α
  emitted : SystemInvocation → Emitted

namespace Custody

variable {α : Type} (C : Components α)

/-- The record after the outputs of an accepted run. -/
def noteOutputs (w : World α) (outputs : List (SystemOutput α)) (deferInserts : Bool)
    (emitted : SystemInvocation → Emitted) : SystemInvocation → Emitted :=
  List.history (fun w output => w.applyOutput C output deferInserts)
    (fun w output emitted =>
      Function.update emitted output.owner (w.emission C output deferInserts)) outputs w emitted

def noteDeferred (w : World α) (output : SystemOutput α)
    (emitted : SystemInvocation → Emitted) : SystemInvocation → Emitted :=
  Function.update emitted output.owner
    (List.history (fun w c => c.apply C w output.owner) (Command.emit C) output.commands w
      (emitted output.owner))

def heldBack (w : World α) (o : SystemInvocation) : List (TypeId × Entity) :=
  (w.pendingDerivedFrom.filter fun p => p.owner = some o).map fun p => (p.component, p.entity)

/-- The record after the inputs of a generation have been applied. -/
def noteInputs (s : State α) (emitted : SystemInvocation → Emitted) :
    SystemInvocation → Emitted :=
  let w := (compactPlanLog s).world
  let apply := fun (w : World α) (output : SystemOutput α) =>
    w.applyCommands C output.owner output.commands
  let noted := List.history apply (noteDeferred C) s.deferredSettle w emitted
  match (s.deferredSettle.foldlM apply w).bind (·.applyBase C s.pendingInputs) with
  | none => noted
  | some based => fun o => ⟨(noted o).pairs ++ heldBack based o, (noted o).spawned⟩

def note (l : Custody α) : EngineOp α → SystemInvocation → Emitted
  | .commit run phase =>
    if (run.memoUpdates.all fun update => update.2.isCurrent l.engine.state.world) = true then
      noteOutputs C l.engine.state.world run.outputs (phase = some .settle) l.emitted
    else l.emitted
  | .startEvaluation =>
    if l.engine.state.pendingGeneration.isSome then
      noteInputs C { l.engine.state with pendingGeneration := none } l.emitted
    else l.emitted
  | _ => l.emitted

/-- Settle systems commit in the settle phase and nowhere else. -/
def phased (l : Custody α) : EngineOp α → Bool
  | .commit run phase => l.engine.state.inPhase phase run
  | _ => true

def step (l : Custody α) (op : EngineOp α) : Option (Custody α) :=
  if l.phased op = true then (l.engine.step C op).map fun engine => ⟨engine, l.note C op⟩ else none

def machine : Machine (Custody α) (EngineOp α) where
  init l := (∃ systems hooked, l.engine = .new systems hooked) ∧ ∀ o, l.emitted o = ⟨[], []⟩
  step := step C

abbrev Reachable : Custody α → Prop := (machine C).Reachable

variable {C} {l l' : Custody α} {op : EngineOp α} {o : SystemInvocation} {w w' : World α}
  {emitted : SystemInvocation → Emitted}

/-- Every output is one that the record names. -/
def Listed (emitted : SystemInvocation → Emitted) (w : World α) : Prop :=
  ∀ o, ∀ p ∈ w.outputs o, p ∈ (emitted o).pairs

/-- The spawn slots are those on record, or the invocation has been retired. -/
def Slotted (em : Emitted) (o : SystemInvocation) (w : World α) : Prop :=
  w.slots o = em.spawned ∨ (w.slots o = [] ∧ w.Dormant o)

section Outputs

variable {outputs : List (SystemOutput α)} {deferInserts : Bool}

theorem Listed.applyOutput {output : SystemOutput α} (h : Listed emitted w)
    (hw : World.Reachable C w) (hrest : w.pendingDerivedFrom = [])
    (ha : w.applyOutput C output deferInserts = some w') :
    Listed (Function.update emitted output.owner (w.emission C output deferInserts)) w' := by
  have hexact := (reachable_indexExact hw).1
  have hbacked : w.Backed := fun t e o => (hexact o t e).mp
  have hexact' := (reachable_indexExact
    (.step (i := .output output deferInserts) hw trivial ha : World.Reachable C w')).1
  intro o p hp
  by_cases hown : o = output.owner
  · subst hown
    rw [Function.update_self]
    exact (publishes_applyOutput hbacked hrest ha).listed p hp
  · rw [Function.update_of_ne hown]
    have howner := (hexact' o p.1 p.2).mp hp
    have hgains := gains_applyOutput hrest (Ne.symm hown) ha p.1 p.2 howner
    exact h o p ((hexact o p.1 p.2).mpr (hgains.resolve_right id))

theorem Slotted.applyOutput {output : SystemOutput α}
    (h : Slotted (emitted o) o w) (hw : World.Reachable C w) (hrest : w.pendingDerivedFrom = [])
    (hcursor : output.owner = o → w.cursor o = 0)
    (ha : w.applyOutput C output deferInserts = some w') :
    Slotted (Function.update emitted output.owner (w.emission C output deferInserts) o) o w' := by
  have hbacked : w.Backed := fun t e o => ((reachable_indexExact hw).1 o t e).mp
  by_cases hown : o = output.owner
  · subst hown
    rw [Function.update_self]
    have hslots := slots_applyOutput hbacked hrest ha
    rw [hcursor rfl, List.take_zero, List.nil_append] at hslots
    exact Or.inl hslots
  · rw [Function.update_of_ne hown, Slotted, slots_applyOutput_ne hown ha]
    exact h.imp_right fun hretired =>
      ⟨hretired.1, hretired.2.gains (gains_applyOutput hrest (Ne.symm hown) ha)⟩

/-- Publishing keeps the record exact, and the slots of the invocations given. -/
theorem recorded_publish {P : SystemInvocation → Prop} : ∀ {outputs : List (SystemOutput α)}
    {s s' : State α} {emitted : SystemInvocation → Emitted}, World.Reachable C s.world →
      s.world.pendingDerivedFrom = [] → Listed emitted s.world →
      (∀ o, P o → Slotted (emitted o) o s.world ∧ s.world.cursor o = 0) →
      publishOutputs C s outputs deferInserts = some s' →
        Listed (noteOutputs C s.world outputs deferInserts emitted) s'.world ∧
          ∀ o, P o → Slotted (noteOutputs C s.world outputs deferInserts emitted o) o s'.world ∧
            s'.world.cursor o = 0
  | [], s, s', emitted, _, _, hlisted, hslotted, h => by
    cases h
    exact ⟨hlisted, hslotted⟩
  | output :: outputs, s, s', emitted, hw, hrest, hlisted, hslotted, h => by
    obtain ⟨w, ha, hpublished⟩ := publishOutputs_cons h
    have hreached : World.Reachable C w := .step (i := .output output deferInserts) hw trivial ha
    have hnoted : noteOutputs C s.world (output :: outputs) deferInserts emitted =
        noteOutputs C w outputs deferInserts (Function.update emitted output.owner
          (s.world.emission C output deferInserts)) := by
      unfold noteOutputs
      rw [List.history, ha]
    rw [hnoted]
    refine recorded_publish hreached (pending_applyOutput ha) (hlisted.applyOutput hw hrest ha)
      (fun o ho => ⟨?_, ?_⟩) hpublished
    · exact (hslotted o ho).1.applyOutput hw hrest (fun _ => (hslotted o ho).2) ha
    · rw [cursor_applyOutput ha]
      split_ifs
      · rfl
      · exact (hslotted o ho).2

end Outputs

section Tidying

theorem Listed.wanes (h : Listed emitted w) (hw : World.Reachable C w) (hwanes : Wanes C w w') :
    Listed emitted w' := by
  intro o p hp
  have howner := ((reachable_indexExact (hwanes.later.reachable hw)).1 o p.1 p.2).mp hp
  exact h o p (((reachable_indexExact hw).1 o p.1 p.2).mpr (hwanes.disowning p.1 p.2 o howner))

/-- A use that forgets the slots of an invocation takes its outputs, too. -/
theorem Slotted.use {em : Emitted} {op : WorldOp α} (h : Slotted em o w)
    (hw : World.Reachable C w) (hop : op.inserts = false) (ha : w.apply C op = some w') :
    Slotted em o w' := by
  have huncommitted : op.uncommitted = true := by
    cases op with
    | output => cases hop
    | commands => cases hop
    | _ => rfl
  have hslots := (trims_apply huncommitted ha).slots o
  by_cases hforgets : o ∈ op.forgets w
  · rw [if_pos hforgets] at hslots
    refine Or.inr ⟨hslots, fun t e => ?_⟩
    have hindexed := World.Reachable.indexed hw
    cases op with
    | retireTouched keys systems =>
      cases ha
      exact owner?_retireOwners_ne C _ hindexed o hforgets t e
    | retireOwner o' =>
      cases ha
      cases List.mem_singleton.mp hforgets
      exact owner?_removeDerivedOwned_ne C hindexed o t e
    | _ => cases hforgets
  · rw [if_neg hforgets] at hslots
    rw [Slotted, hslots]
    exact h.imp_right fun hretired =>
      ⟨hretired.1, hretired.2.disowning (disowning_apply hop ha)⟩

theorem Slotted.wanes {em : Emitted} (h : Slotted em o w) (hw : World.Reachable C w)
    (hwanes : Wanes C w w') : Slotted em o w' := by
  have hboth : World.Reachable C w' ∧ Slotted em o w' :=
    hwanes.invariant (I := fun u => World.Reachable C u ∧ Slotted em o u) ⟨hw, h⟩
      fun u op u' hop ha hu => ⟨.step hu.1 trivial ha, hu.2.use hu.1 hop ha⟩
  exact hboth.2

end Tidying

section Start

theorem wanes_compactPlanLog (s : State α) : Wanes C s.world (compactPlanLog s).world := by
  have hroll : Wanes C s.world s.world.maybeRollPlanEpoch.2 := .of_apply .rollPlanEpoch rfl rfl
  unfold compactPlanLog
  unfold maybeRollPlanEpoch at hroll ⊢
  split_ifs at hroll ⊢ with hlen
  · exact .refl _
  · exact hroll

/-- The commands of one invocation list what they emit, and nothing anew for the others. -/
theorem Listed.command {c : Command α} {em : Emitted}
    (h : Listed (Function.update emitted o em) w) (hbacked : w'.Backed)
    (hc : c.apply C w o = some w') :
    Listed (Function.update emitted o (c.emit C w em)) w' := by
  intro o' p hp
  by_cases hown : o' = o
  · subst hown
    rw [Function.update_self]
    refine emit_lists (fun q hq => ?_) hbacked hc p hp
    have hold := h o' q hq
    rwa [Function.update_self] at hold
  · have hclosed := closed_listsOnly C o' fun _ _ => False
    have hold := hclosed.command hc (grants_gainsOnly _ (Ne.symm hown)) p hp
    have hlisted := h o' p (hold.resolve_right id)
    rw [Function.update_of_ne hown] at hlisted ⊢
    exact hlisted

theorem Listed.deferred {output : SystemOutput α} (h : Listed emitted w) (hbacked : w.Backed)
    (hc : w.applyCommands C output.owner output.commands = some w') :
    Listed (noteDeferred C w output emitted) w' := by
  have hboth : w'.Backed ∧ Listed (noteDeferred C w output emitted) w' := by
    refine List.history_induction (fun u em => u.Backed ∧
      Listed (Function.update emitted output.owner em) u) output.commands hc ?_ ?_
    · rw [Function.update_eq_self]
      exact ⟨hbacked, h⟩
    · intro u c u' em _ hu hstep
      have hnext : u'.Backed := (closed_backed C).command hstep
        ⟨fun _ _ => trivial, fun _ _ => trivial, fun _ => trivial, trivial⟩ hu.1
      exact ⟨hnext, hu.2.command hnext hstep⟩
  exact hboth.2

theorem Listed.inputs {s applied : State α} (h : Listed emitted s.world)
    (hw : World.Reachable C s.world) (happlied : applyInputs C s = some applied) :
    Listed (noteInputs C s emitted) applied.world := by
  obtain ⟨settled, based, flushed, hsettled, hbased, hflushed, rfl⟩ := exists_settled happlied
  have hcompact := wanes_compactPlanLog (C := C) s
  have hstart : (compactPlanLog s).world.Backed := fun t e o =>
    ((reachable_indexExact (hcompact.later.reachable hw)).1 o t e).mp
  have hissued : settled.Backed ∧ Listed (List.history
      (fun (w : World α) (output : SystemOutput α) =>
        w.applyCommands C output.owner output.commands)
      (noteDeferred C) s.deferredSettle (compactPlanLog s).world emitted) settled := by
    refine List.history_induction (fun u emitted => u.Backed ∧ Listed emitted u) s.deferredSettle
      hsettled ⟨hstart, h.wanes hw hcompact⟩ ?_
    intro u output u' emitted _ hu hstep
    refine ⟨?_, hu.2.deferred hu.1 hstep⟩
    exact (closed_backed C).applyCommands hstep
      ⟨fun _ _ => trivial, fun _ _ => trivial, fun _ => trivial, trivial⟩ hu.1
  have hnoted : ((s.deferredSettle.foldlM (fun (w : World α) (output : SystemOutput α) =>
      w.applyCommands C output.owner output.commands) (compactPlanLog s).world).bind
        (·.applyBase C s.pendingInputs)) = some based := by
    rw [hsettled]
    exact hbased
  intro o p hp
  unfold noteInputs
  rw [hnoted]
  have hclosed := closed_listsOnly C o fun _ _ => False
  have hbase := hclosed.applyBase hbased (fun _ _ ho => by cases ho) (fun _ => trivial) trivial
  have hflush := (closed_listsOnly C o fun t e => (t, e) ∈ heldBack based o).flushDerivedFrom
    hflushed (fun q hq ho => List.mem_map.mpr ⟨q, List.mem_filter.mpr ⟨hq, by simpa using ho⟩, rfl⟩)
    trivial
  rcases hflush p hp with hold | hheld
  · exact List.mem_append_left _ (hissued.2 o p ((hbase p hold).resolve_right id))
  · exact List.mem_append_right _ hheld

/-- Other invocations keep their slots and cursors while inputs are applied. -/
theorem slotted_inputs {s applied : State α} (h : Slotted (emitted o) o s.world)
    (hcursor : s.world.cursor o = 0) (hw : World.Reachable C s.world)
    (hrest : s.world.pendingDerivedFrom = []) (hne : ∀ output ∈ s.deferredSettle, output.owner ≠ o)
    (happlied : applyInputs C s = some applied) :
    Slotted (noteInputs C s emitted o) o applied.world ∧ applied.world.cursor o = 0 := by
  obtain ⟨settled, based, flushed, hsettled, hbased, hflushed, rfl⟩ := exists_settled happlied
  have hcompact := wanes_compactPlanLog (C := C) s
  obtain ⟨hpending, hcursors⟩ := hcompact.places
  have hpending : (compactPlanLog s).world.pendingDerivedFrom = [] := hpending.trans hrest
  have hsettle : settled.slots o = (compactPlanLog s).world.slots o ∧ settled.cursor o = 0 ∧
      Gains o (fun _ _ => False) (compactPlanLog s).world settled ∧
      ∀ p ∈ settled.pendingDerivedFrom, p.owner ≠ some o := by
    refine List.foldlM_some_induction (fun u : World α =>
      u.slots o = (compactPlanLog s).world.slots o ∧ u.cursor o = 0 ∧
        Gains o (fun _ _ => False) (compactPlanLog s).world u ∧
        ∀ p ∈ u.pendingDerivedFrom, p.owner ≠ some o) s.deferredSettle hsettled ?_ ?_
    · refine ⟨rfl, ?_, (closed_gains C o _).refl _, fun p hp => ?_⟩
      · rw [cursor, hcursors]
        exact hcursor
      · rw [hpending] at hp
        cases hp
    · rintro u output u' hmem ⟨hslots, hzero, hgains, hothers⟩ hstep
      obtain ⟨hslots', hcursor'⟩ := fills_applyCommands_ne (Ne.symm (hne output hmem)) hstep
      have hclosed := closed_gains C o fun _ _ => False
      refine ⟨hslots'.trans hslots, hcursor'.trans hzero, hclosed.trans hgains
        (hclosed.applyCommands hstep (grants_gainsOnly _ (hne output hmem))), fun p hp => ?_⟩
      rcases defers_applyCommands hstep p hp with hold | howner
      · exact hothers p hold
      · rw [howner]
        exact fun heq => hne output hmem (Option.some.inj heq)
  obtain ⟨hslots, hzero, hgains, hothers⟩ := hsettle
  have hclosed := closed_gains C o fun _ _ => False
  have hbase : based.slots o = settled.slots o ∧ based.cursor o = settled.cursor o ∧
      ∀ p ∈ based.pendingDerivedFrom, p.owner ≠ some o := by
    refine List.foldlM_some_induction (fun u : World α => u.slots o = settled.slots o ∧
      u.cursor o = settled.cursor o ∧ ∀ p ∈ u.pendingDerivedFrom, p.owner ≠ some o)
      s.pendingInputs hbased ⟨rfl, rfl, hothers⟩ ?_
    rintro u c u' - ⟨hslots, hcursor, hothers⟩ hstep
    have huncommitted : (WorldOp.base c).uncommitted = true := rfl
    have htrims := trims_apply huncommitted hstep
    refine ⟨(htrims.slots o).trans hslots, (htrims.cursor o).trans hcursor, fun p hp => ?_⟩
    rcases defers_baseCommand hstep p hp with hold | howner
    · exact hothers p hold
    · rw [howner]
      intro heq
      cases heq
  have hflush := trims_flush hflushed
  have hcommands := hclosed.applyBase hbased (fun _ _ ho => by cases ho) (fun _ => trivial) trivial
  have hwritten := hclosed.flushDerivedFrom hflushed
    (fun p hp ho => hbase.2.2 p hp ho) trivial
  have hkept : flushed.slots o = (compactPlanLog s).world.slots o := by
    rw [hflush.slots, if_neg List.not_mem_nil, hbase.1, hslots]
  have hspawned : (noteInputs C s emitted o).spawned = (emitted o).spawned := by
    have hissued : List.history (fun (w : World α) (output : SystemOutput α) =>
        w.applyCommands C output.owner output.commands) (noteDeferred C) s.deferredSettle
          (compactPlanLog s).world emitted o = emitted o :=
      List.history_induction (fun _ (noted : SystemInvocation → Emitted) => noted o = emitted o)
        s.deferredSettle hsettled rfl
        fun u output u' noted hmem hsame _ =>
          (Function.update_of_ne (Ne.symm (hne output hmem)) _ _).trans hsame
    have hnoted : ((s.deferredSettle.foldlM (fun (w : World α) (output : SystemOutput α) =>
        w.applyCommands C output.owner output.commands) (compactPlanLog s).world).bind
          (·.applyBase C s.pendingInputs)) = some based := by
      rw [hsettled]
      exact hbased
    unfold noteInputs
    rw [hnoted]
    have hspawned := congrArg Emitted.spawned hissued
    exact hspawned
  refine ⟨?_, ?_⟩
  · have hcompacted := h.wanes hw hcompact
    change flushed.slots o = _ ∨ flushed.slots o = [] ∧ flushed.Dormant o
    rw [hspawned, hkept]
    exact hcompacted.imp_right fun hretired => ⟨hretired.1,
      ((hretired.2.gains hgains).gains hcommands).gains hwritten⟩
  · exact (hflush.cursor o).trans (hbase.2.1.trans hzero)

end Start

/-- Between two critical sections every invocation holds what the record says, or less. -/
structure Recorded (l : Custody α) : Prop where
  listed : Listed l.emitted l.engine.state.world
  rest : l.engine.state.world.pendingDerivedFrom = []
  deferred : ∀ output ∈ l.engine.state.deferredSettle,
    output.owner.system ∈ l.engine.state.settleSystems
  slotted : ∀ o, o.system ∉ l.engine.state.settleSystems →
    Slotted (l.emitted o) o l.engine.state.world ∧ l.engine.state.world.cursor o = 0

/-- What a critical section does to the record. -/
theorem step_cases (h : step C l op = some l') :
    (∃ run phase published, op = .commit run phase ∧ l.engine.state.inPhase phase run = true ∧
      publishOutputs C l.engine.state run.outputs (phase = some .settle) = some published ∧
      Idles C published l'.engine.state ∧
      l'.emitted =
        noteOutputs C l.engine.state.world run.outputs (phase = some .settle) l.emitted) ∨
    (∃ generation applied, op = .startEvaluation ∧
      applyInputs C { l.engine.state with pendingGeneration := none } = some applied ∧
      l'.engine.state = (launch (reconcileInputs C applied) generation).state ∧
      l'.emitted = noteInputs C { l.engine.state with pendingGeneration := none } l.emitted) ∨
    (Idles C l.engine.state l'.engine.state ∧ l'.emitted = l.emitted) := by
  unfold step at h
  split_ifs at h with hphased
  obtain ⟨engine, hstep, rfl⟩ := Option.map_eq_some_iff.mp h
  rcases Engine.step_cases hstep with
    ⟨run, phase, published, rfl, hcurrent, hpublished, hidles⟩ |
    ⟨generation, applied, rfl, hpending, happlied, hstate⟩ | ⟨hidles, hstart, hcommit⟩
  · exact Or.inl ⟨run, phase, published, rfl, hphased, hpublished, hidles, if_pos hcurrent⟩
  · refine Or.inr (Or.inl ⟨generation, applied, rfl, happlied, hstate, ?_⟩)
    simp only [note, hpending, Option.isSome_some, if_true]
  · refine Or.inr (Or.inr ⟨hidles, ?_⟩)
    cases op with
    | commit run phase => exact if_neg (hcommit run phase rfl)
    | startEvaluation =>
      simp only [note, hstart rfl, Option.isSome_none, Bool.false_eq_true, if_false]
    | _ => rfl

theorem Recorded.step (h : l.Recorded) (hw : World.Reachable C l.engine.state.world)
    (hstep : step C l op = some l') : l'.Recorded := by
  rcases step_cases hstep with
    ⟨run, phase, published, -, hphase, hpublished, hidles, hemitted⟩ |
    ⟨generation, applied, -, happlied, hstate, hemitted⟩ | ⟨hidles, hemitted⟩
  · obtain ⟨hdeferred, hsettle, hpending⟩ := published_state hpublished
    obtain ⟨hlisted, hslotted⟩ := recorded_publish hw h.rest h.listed h.slotted hpublished
    have hreached : World.Reachable C published.world :=
      (managed_publishOutputs hpublished).later.reachable hw
    have hsystems := hidles.settleSystems.trans hsettle
    constructor
    · rw [hemitted]
      exact hlisted.wanes hreached hidles.world
    · exact hidles.world.places.1.trans (hpending h.rest)
    · rw [hidles.deferredSettle, hdeferred, hsystems]
      intro output hmem
      rcases List.mem_append.mp hmem with hold | hnew
      · exact h.deferred output hold
      · split_ifs at hnew with hsettles
        · obtain ⟨source, hsource, hout⟩ := List.mem_filterMap.mp hnew
          have hsame := List.all_eq_true.mp hphase source hsource
          rw [(owner_deferredOutput hout).1]
          simpa [of_decide_eq_true hsettles] using hsame
        · cases hnew
    · intro o ho
      rw [hemitted, cursor, hidles.world.places.2]
      have hkept := hslotted o (hsystems ▸ ho)
      exact ⟨hkept.1.wanes hreached hidles.world, hkept.2⟩
  · have hreached : World.Reachable C applied.world :=
      (managed_applyInputs happlied).later.reachable hw
    have hlisted := Listed.inputs (s := { l.engine.state with pendingGeneration := none })
      h.listed hw happlied
    have hslotted := fun o ho => slotted_inputs (s := { l.engine.state with pendingGeneration := none })
      (h.slotted o ho).1 (h.slotted o ho).2 hw h.rest
      (fun output hmem heq => ho (heq ▸ h.deferred output hmem)) happlied
    have hidles : Wanes C applied.world l'.engine.state.world := by
      rw [hstate]
      exact (tidies_reconcileInputs applied).wanes
    obtain ⟨settled, based, flushed, -, -, hflushed, heq⟩ := exists_settled happlied
    have hsystems : l'.engine.state.settleSystems = l.engine.state.settleSystems := by
      rw [hstate, heq]
      exact (world_compactPlanLog { l.engine.state with pendingGeneration := none }).2.2.2.2
    constructor
    · rw [hemitted]
      exact hlisted.wanes hreached hidles
    · rw [hidles.places.1, heq]
      exact (buffers_flushDerivedFrom hflushed).1
    · rw [hstate, heq]
      exact fun output hmem => by cases hmem
    · intro o ho
      rw [hemitted, cursor, hidles.places.2]
      have hkept := hslotted o (hsystems ▸ ho)
      exact ⟨hkept.1.wanes hreached hidles, hkept.2⟩
  · constructor
    · rw [hemitted]
      exact h.listed.wanes hw hidles.world
    · exact hidles.world.places.1.trans h.rest
    · rw [hidles.deferredSettle, hidles.settleSystems]
      exact h.deferred
    · intro o ho
      rw [hemitted, cursor, hidles.world.places.2]
      have hkept := h.slotted o (hidles.settleSystems ▸ ho)
      exact ⟨hkept.1.wanes hw hidles.world, hkept.2⟩

/-- An invocation owns only what its last output emitted, and its spawn slots are that output's
spawns until it is retired. -/
theorem reachable_custody (h : Reachable C l) :
    (∀ o t e, l.engine.state.world.owner? t e = some o → (t, e) ∈ (l.emitted o).pairs) ∧
    ∀ o, o.system ∉ l.engine.state.settleSystems →
      l.engine.state.world.slots o = (l.emitted o).spawned ∨
        (l.engine.state.world.slots o = [] ∧ ∀ t e, l.engine.state.world.owner? t e ≠ some o) := by
  have hboth : Engine.Reachable C l.engine ∧ l.Recorded := by
    refine Machine.ReachableUnder.invariant h (fun l => Engine.Reachable C l.engine ∧ l.Recorded)
      ?_ ?_
    · rintro l ⟨⟨systems, hooked, hengine⟩, hemitted⟩
      refine ⟨.init ⟨systems, hooked, hengine⟩, ?_⟩
      have hworld : l.engine.state.world = World.new := by
        rw [hengine]
        exact State.build_world systems hooked
      have hdeferred : l.engine.state.deferredSettle = [] := by
        rw [hengine]
        exact State.build_deferredSettle systems hooked
      constructor
      · rw [hworld]
        exact fun o p hp => by cases hp
      · rw [hworld]
        rfl
      · rw [hdeferred]
        exact fun output hmem => by cases hmem
      · rw [hworld]
        exact fun o _ => ⟨Or.inl (by rw [hemitted]; rfl), rfl⟩
    · rintro l op l' ⟨hengine, hrecorded⟩ - hstep
      have hengine' : l.engine.step C op = some l'.engine := by
        change Custody.step C l op = some l' at hstep
        unfold Custody.step at hstep
        split_ifs at hstep
        obtain ⟨engine, hengine, rfl⟩ := Option.map_eq_some_iff.mp hstep
        exact hengine
      exact ⟨.step hengine trivial hengine',
        hrecorded.step (Engine.reachable_world hengine) hstep⟩
  have hexact := (reachable_indexExact (Engine.reachable_world hboth.1)).1
  exact ⟨fun o t e ho => hboth.2.listed o (t, e) ((hexact o t e).mpr ho),
    fun o ho => (hboth.2.slotted o ho).1⟩

/-- A row writes two pairs and spawns, then runs again and writes one of them only. -/
def rerun : Custody Nat :=
  ((machine (.plain Nat)).run ⟨Engine.oneSystem, fun _ => ⟨[], []⟩⟩ [.startEvaluation,
    Engine.commitOf ⟨0, [2]⟩ [.insert 5 1 (.data 7), .insert 6 1 (.data 7), .spawn [(5, .data 8)] 3],
    Engine.commitOf ⟨0, [2]⟩ [.insert 6 1 (.data 9)]]).getD ⟨Engine.oneSystem, fun _ => ⟨[], []⟩⟩

theorem rerun_custody : (rerun.emitted ⟨0, [2]⟩).pairs = [(6, 1)] ∧
    (∀ t e, rerun.engine.state.world.owner? t e = some ⟨0, [2]⟩ → (t, e) ∈ [(6, 1)]) ∧
      rerun.engine.state.world.slots ⟨0, [2]⟩ = [] := by
  have hsome : ((machine (.plain Nat)).run ⟨Engine.oneSystem, fun _ => ⟨[], []⟩⟩ [.startEvaluation,
      Engine.commitOf ⟨0, [2]⟩ [.insert 5 1 (.data 7), .insert 6 1 (.data 7),
        .spawn [(5, .data 8)] 3], Engine.commitOf ⟨0, [2]⟩ [.insert 6 1 (.data 9)]]).isSome := by
    decide
  have hpairs : (rerun.emitted ⟨0, [2]⟩).pairs = [(6, 1)] := by decide
  have hreach : Reachable (.plain Nat) rerun := by
    obtain ⟨l, hl⟩ := Option.isSome_iff_exists.mp hsome
    have hrun := Machine.Reachable.run (M := machine (.plain Nat))
      (.init ⟨⟨_, _, rfl⟩, fun _ => rfl⟩) hl
    rwa [rerun, hl]
  obtain ⟨howners, hslots⟩ := reachable_custody hreach
  refine ⟨hpairs, fun t e ho => hpairs ▸ howners ⟨0, [2]⟩ t e ho, ?_⟩
  rcases hslots ⟨0, [2]⟩ (by decide) with heq | hretired
  · rw [heq]
    decide
  · exact hretired.1

end Custody
end Porridge
