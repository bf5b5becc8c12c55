import Porridge.Deferral
import Porridge.World.Slots

/-! The owners of waiting outputs hold nothing until the next start. -/
namespace Porridge

open World

variable {α : Type} {C : Components α}

section Publication

variable {s s' : State α} {outputs : List (SystemOutput α)} {deferInserts : Bool}

/-- A publication defers in order and leaves no insert held back. -/
theorem published_state : ∀ {outputs : List (SystemOutput α)} {s : State α},
    publishOutputs C s outputs deferInserts = some s' →
      s'.deferredSettle = s.deferredSettle ++
          (if deferInserts then outputs.filterMap deferredOutput else []) ∧
        s'.settleSystems = s.settleSystems ∧
        (s.world.pendingDerivedFrom = [] → s'.world.pendingDerivedFrom = [])
  | [], s, h => by
    cases h
    cases deferInserts <;> simp
  | output :: outputs, s, h => by
    obtain ⟨w, hw, hrest⟩ := publishOutputs_cons h
    obtain ⟨hdeferred, hsettle, hpending⟩ := published_state hrest
    refine ⟨?_, hsettle, fun _ => hpending (pending_applyOutput hw)⟩
    rw [hdeferred]
    cases deferInserts with
    | false => simp
    | true =>
      cases hout : deferredOutput output with
      | none => simp [hout]
      | some deferred => simp [hout]

/-- An invocation that owns nothing owns nothing after the outputs of others. -/
theorem Dormant.publish {o : SystemInvocation} : ∀ {outputs : List (SystemOutput α)} {s : State α},
    s.world.Dormant o → s.world.pendingDerivedFrom = [] → (∀ output ∈ outputs, output.owner ≠ o) →
      publishOutputs C s outputs deferInserts = some s' → s'.world.Dormant o
  | [], s, ho, _, _, h => by
    cases h
    exact ho
  | output :: outputs, s, ho, hrest, hne, h => by
    obtain ⟨w, hw, hpublished⟩ := publishOutputs_cons h
    have hgains := gains_applyOutput hrest (hne output List.mem_cons_self) hw
    exact Dormant.publish (ho.gains hgains) (pending_applyOutput hw)
      (fun output hmem => hne output (List.mem_cons_of_mem _ hmem)) hpublished

/-- A settle publication leaves its owners, and who owned nothing before, with nothing. -/
theorem dormant_publish {o : SystemInvocation} : ∀ {outputs : List (SystemOutput α)}
    {s : State α}, s.world.Indexed (fun _ _ => False) → s.world.pendingDerivedFrom = [] →
      s.world.Dormant o ∨ (∃ output ∈ outputs, output.owner = o) →
        publishOutputs C s outputs true = some s' → s'.world.Dormant o
  | [], s, _, _, ho, h => by
    cases h
    exact ho.resolve_right (by simp)
  | output :: outputs, s, hi, hrest, ho, h => by
    obtain ⟨w, hw, hpublished⟩ := publishOutputs_cons h
    refine dormant_publish (hi.applyOutput C hw) (pending_applyOutput hw) ?_ hpublished
    by_cases hown : output.owner = o
    · exact Or.inl (hown ▸ dormant_applyOutput hi hrest hw)
    · rcases ho with ho | ⟨other, hmem, howner⟩
      · exact Or.inl (ho.gains (gains_applyOutput hrest hown hw))
      · rcases List.mem_cons.mp hmem with rfl | hmem
        · exact absurd howner hown
        · exact Or.inr ⟨other, hmem, howner⟩

/-- After a publication the cursors of its owners are reset, and others are as before. -/
theorem cursor_publish {o : SystemInvocation} : ∀ {outputs : List (SystemOutput α)}
    {s : State α}, s.world.cursor o = 0 ∨ (∃ output ∈ outputs, output.owner = o) →
      publishOutputs C s outputs deferInserts = some s' → s'.world.cursor o = 0
  | [], s, ho, h => by
    cases h
    exact ho.resolve_right (by simp)
  | output :: outputs, s, ho, h => by
    obtain ⟨w, hw, hpublished⟩ := publishOutputs_cons h
    have hcursor := cursor_applyOutput (o := o) hw
    refine cursor_publish ?_ hpublished
    by_cases hown : o = output.owner
    · exact Or.inl (hcursor.trans (if_pos hown))
    · rw [if_neg hown] at hcursor
      rcases ho with ho | ⟨other, hmem, howner⟩
      · exact Or.inl (hcursor.trans ho)
      · rcases List.mem_cons.mp hmem with rfl | hmem
        · exact absurd howner.symm hown
        · exact Or.inr ⟨other, hmem, howner⟩

end Publication

section Start

variable {s applied : State α}

/-- Applying the inputs of a generation: the waiting outputs, the base commands, a flush. -/
theorem exists_settled (h : applyInputs C s = some applied) : ∃ settled based flushed,
    s.deferredSettle.foldlM (fun w output => w.applyCommands C output.owner output.commands)
      (compactPlanLog s).world = some settled ∧
    settled.applyBase C s.pendingInputs = some based ∧
    based.flushDerivedFrom C = some flushed ∧
    applied = { compactPlanLog s with
      world := flushed, pendingInputs := [], deferredSettle := [] } := by
  have hkept : (compactPlanLog s).deferredSettle = s.deferredSettle ∧
      (compactPlanLog s).pendingInputs = s.pendingInputs := by
    unfold compactPlanLog
    split <;> exact ⟨rfl, rfl⟩
  simp only [applyInputs, Option.bind_eq_bind, Option.bind_eq_some_iff, Option.pure_def,
    Option.some.injEq, hkept] at h
  obtain ⟨settled, hsettled, based, hbased, flushed, hflushed, heq⟩ := h
  exact ⟨settled, based, flushed, hsettled, hbased, hflushed, heq.symm⟩

/-- Compacting the write log leaves the stores, the registry and the buffers alone. -/
theorem world_compactPlanLog (s : State α) :
    (compactPlanLog s).world.stores = s.world.stores ∧
      (compactPlanLog s).world.registry = s.world.registry ∧
      SameBuffers s.world (compactPlanLog s).world ∧
      (compactPlanLog s).world.removedEntities = s.world.removedEntities ∧
      (compactPlanLog s).settleSystems = s.settleSystems := by
  unfold compactPlanLog maybeRollPlanEpoch
  split_ifs
  · exact ⟨rfl, rfl, .refl _, rfl, rfl⟩
  · exact ⟨rfl, rfl, ⟨rfl, rfl, rfl, rfl, rfl⟩, rfl, rfl⟩

end Start

namespace Deferral

variable {d d' : Deferral α} {op : EngineOp α}

theorem note_engine (d : Deferral α) (engine : Engine α) (op : EngineOp α) :
    (d.note C engine op).engine = engine := by
  cases op with
  | commit run phase =>
    unfold note noteCommit
    dsimp only
    cases publishOutputs C d.engine.state run.outputs (phase = some .settle) with
    | none => split_ifs <;> rfl
    | some published => split_ifs <;> rfl
  | startEvaluation =>
    unfold note
    dsimp only
    split_ifs
    · rfl
    · rfl
  | _ => rfl

theorem engine_step (h : step C d op = some d') : d.engine.step C op = some d'.engine := by
  unfold step at h
  split_ifs at h
  obtain ⟨engine, hengine, rfl⟩ := Option.map_eq_some_iff.mp h
  rw [note_engine]
  exact hengine

/-- What a critical section does to the waiting outputs. -/
theorem step_cases (h : step C d op = some d') :
    (∃ run phase published, op = .commit run phase ∧
      (run.memoUpdates.all fun update => update.2.isCurrent d.engine.state.world) = true ∧
      d.engine.state.inPhase phase run = true ∧
      publishOutputs C d.engine.state run.outputs (phase = some .settle) = some published ∧
      Idles C published d'.engine.state ∧
      d'.waiting = d.waiting.map (Waiting.age published.world.removedEntities) ++
        (if phase = some .settle then
          (run.outputs.filterMap deferredOutput).map fun output => ⟨output, []⟩ else []) ∧
      d'.accepted = d.accepted ++ if phase = some .settle then run.outputs else []) ∨
    (∃ generation applied, op = .startEvaluation ∧
      d.engine.state.pendingGeneration = some generation ∧
      applyInputs C { d.engine.state with pendingGeneration := none } = some applied ∧
      d'.engine.state = (launch (reconcileInputs C applied) generation).state ∧
      d'.waiting = [] ∧ d'.accepted = []) ∨
    (Idles C d.engine.state d'.engine.state ∧ d'.waiting = d.waiting ∧
      d'.accepted = d.accepted) := by
  have hengine := engine_step h
  unfold step at h
  split_ifs at h with hphased
  obtain ⟨engine, hstep, rfl⟩ := Option.map_eq_some_iff.mp h
  rcases Engine.step_cases hengine with
    ⟨run, phase, published, rfl, hcurrent, hpublished, hidles⟩ |
    ⟨generation, applied, rfl, hpending, happlied, hstate⟩ | ⟨hidles, hstart, hcommit⟩
  · refine Or.inl ⟨run, phase, published, rfl, hcurrent, hphased, hpublished, hidles, ?_, ?_⟩
    · unfold note noteCommit
      simp only [hcurrent, if_true, hpublished]
      split_ifs
      · rfl
      · exact (List.append_nil _).symm
    · unfold note noteCommit
      simp only [hcurrent, if_true, hpublished]
      split_ifs
      · rfl
      · exact (List.append_nil _).symm
  · refine Or.inr (Or.inl ⟨generation, applied, rfl, hpending, happlied, hstate, ?_, ?_⟩)
    · simp only [note, hpending, Option.isSome_some, if_true]
    · simp only [note, hpending, Option.isSome_some, if_true]
  · refine Or.inr (Or.inr ⟨hidles, ?_⟩)
    cases op with
    | commit run phase =>
      have hstale := hcommit run phase rfl
      simp only [note, if_neg hstale, and_self]
    | startEvaluation =>
      have hidle := hstart rfl
      simp only [note, hidle, Option.isSome_none, Bool.false_eq_true, if_false, and_self]
    | _ => exact ⟨rfl, rfl⟩

theorem reachable_engine (h : Reachable C d) : Engine.Reachable C d.engine := by
  refine Machine.ReachableUnder.invariant h (fun d => Engine.Reachable C d.engine) ?_ ?_
  · rintro d ⟨⟨systems, hooked, heq⟩, -⟩
    exact .init ⟨systems, hooked, heq⟩
  · exact fun d op d' hd _ hstep => .step hd trivial (engine_step hstep)

/-- What holds of the waiting outputs between two critical sections. -/
structure Sound (d : Deferral α) : Prop where
  outputs : d.waiting.map Waiting.output = d.engine.state.deferredSettle
  accepted : d.engine.state.deferredSettle = d.accepted.filterMap deferredOutput
  settle : ∀ output ∈ d.accepted, output.owner.system ∈ d.engine.state.settleSystems
  dormant : ∀ output ∈ d.accepted, d.engine.state.world.Dormant output.owner
  cursors : ∀ output ∈ d.accepted, d.engine.state.world.cursor output.owner = 0
  /-- What was removed while an output waits was removed while the earlier ones did. -/
  aged : d.waiting.Pairwise fun p q => q.removed ⊆ p.removed
  rest : d.engine.state.world.pendingDerivedFrom = []

/-- A waiting output is what an accepted one deferred. -/
theorem Sound.exists_accepted (h : Sound d) {p : Waiting α} (hp : p ∈ d.waiting) :
    ∃ output ∈ d.accepted, deferredOutput output = some p.output := by
  have hmem : p.output ∈ d.accepted.filterMap deferredOutput := by
    rw [← h.accepted, ← h.outputs]
    exact List.mem_map_of_mem hp
  exact List.mem_filterMap.mp hmem

theorem Sound.defers (h : Sound d) {p : Waiting α} (hp : p ∈ d.waiting) :
    ∀ c ∈ p.output.commands, c.defersAtSettle = true := by
  obtain ⟨output, -, hout⟩ := h.exists_accepted hp
  rw [(owner_deferredOutput hout).2]
  exact fun c hc => (List.mem_filter.mp hc).2

theorem Sound.dormant_waiting (h : Sound d) {p : Waiting α} (hp : p ∈ d.waiting) :
    d.engine.state.world.Dormant p.output.owner := by
  obtain ⟨output, hmem, hout⟩ := h.exists_accepted hp
  rw [(owner_deferredOutput hout).1]
  exact h.dormant output hmem

theorem Sound.idles (h : Sound d) (hidles : Idles C d.engine.state d'.engine.state)
    (hwaiting : d'.waiting = d.waiting) (haccepted : d'.accepted = d.accepted) : Sound d' where
  outputs := by rw [hwaiting, h.outputs, hidles.deferredSettle]
  accepted := by rw [hidles.deferredSettle, h.accepted, haccepted]
  settle output hmem := hidles.settleSystems ▸ h.settle output (haccepted ▸ hmem)
  dormant output hmem := (h.dormant output (haccepted ▸ hmem)).disowning hidles.world.disowning
  cursors output hmem := by
    rw [cursor, hidles.world.places.2]
    exact h.cursors output (haccepted ▸ hmem)
  aged := hwaiting ▸ h.aged
  rest := hidles.world.places.1.trans h.rest

theorem Sound.commit (h : Sound d) (hi : d.engine.state.world.Indexed fun _ _ => False)
    {run : SystemRun α} {phase : Option Phase} {published : State α}
    (hphase : d.engine.state.inPhase phase run = true)
    (hpublished : publishOutputs C d.engine.state run.outputs (phase = some .settle) =
      some published)
    (hidles : Idles C published d'.engine.state)
    (hwaiting : d'.waiting = d.waiting.map (Waiting.age published.world.removedEntities) ++
      (if phase = some .settle then
        (run.outputs.filterMap deferredOutput).map fun output => ⟨output, []⟩ else []))
    (haccepted : d'.accepted = d.accepted ++ if phase = some .settle then run.outputs else []) :
    Sound d' := by
  obtain ⟨hdeferred, hsettle, hpending⟩ := published_state hpublished
  have howners : ∀ output ∈ run.outputs,
      (output.owner.system ∈ d.engine.state.settleSystems ↔ phase = some .settle) := by
    intro output hmem
    have hsame := List.all_eq_true.mp hphase output hmem
    simpa using hsame
  have hsystems : d'.engine.state.settleSystems = d.engine.state.settleSystems :=
    hidles.settleSystems.trans hsettle
  have hmember : ∀ output ∈ d'.accepted,
      output ∈ d.accepted ∨ (phase = some .settle ∧ output ∈ run.outputs) := by
    intro output hmem
    rw [haccepted] at hmem
    rcases List.mem_append.mp hmem with hmem | hmem
    · exact Or.inl hmem
    · split_ifs at hmem with hsettles
      · exact Or.inr ⟨hsettles, hmem⟩
      · cases hmem
  constructor
  · rw [hwaiting, hidles.deferredSettle, hdeferred, ← h.outputs, List.map_append, List.map_map]
    have houtputs : (Waiting.output ∘ fun output : SystemOutput α => ⟨output, []⟩) = id := rfl
    by_cases hsettles : phase = some .settle
    · simp only [hsettles, if_true, decide_true, List.map_map, houtputs, List.map_id]
      rfl
    · simp only [hsettles, if_false, decide_false, Bool.false_eq_true, List.map_nil]
      rfl
  · rw [hidles.deferredSettle, hdeferred, haccepted, List.filterMap_append, h.accepted]
    by_cases hsettles : phase = some .settle
    · simp [hsettles]
    · simp [hsettles]
  · intro output hmem
    rw [hsystems]
    rcases hmember output hmem with hold | ⟨hsettles, hnew⟩
    · exact h.settle output hold
    · exact (howners output hnew).mpr hsettles
  · intro output hmem
    refine Dormant.disowning ?_ hidles.world.disowning
    by_cases hsettles : phase = some .settle
    · rw [decide_eq_true hsettles] at hpublished
      refine dormant_publish hi h.rest ?_ hpublished
      rcases hmember output hmem with hold | ⟨-, hnew⟩
      · exact Or.inl (h.dormant output hold)
      · exact Or.inr ⟨output, hnew, rfl⟩
    · rcases hmember output hmem with hold | ⟨hcontra, -⟩
      · refine Dormant.publish (h.dormant output hold) h.rest (fun other hother howner => ?_)
          hpublished
        exact hsettles ((howners other hother).mp (howner ▸ h.settle output hold))
      · exact absurd hcontra hsettles
  · intro output hmem
    rw [cursor, hidles.world.places.2]
    refine cursor_publish ?_ hpublished
    rcases hmember output hmem with hold | ⟨-, hnew⟩
    · exact Or.inl (h.cursors output hold)
    · exact Or.inr ⟨output, hnew, rfl⟩
  · rw [hwaiting, List.pairwise_append]
    refine ⟨List.pairwise_map.mpr (h.aged.imp fun hpq => ?_), ?_, ?_⟩
    · exact List.append_subset.mpr ⟨List.Subset.trans hpq (List.subset_append_left _ _),
        List.subset_append_right _ _⟩
    · split_ifs
      · exact List.pairwise_map.mpr (List.pairwise_of_forall fun _ _ => List.nil_subset _)
      · exact List.Pairwise.nil
    · intro p _ q hq
      split_ifs at hq
      · obtain ⟨deferred, -, rfl⟩ := List.mem_map.mp hq
        exact List.nil_subset _
      · cases hq
  · exact hidles.world.places.1.trans (hpending h.rest)

/-- With nothing accepted since the last start, nothing waits. -/
theorem sound_of_nil (hwaiting : d.waiting = []) (haccepted : d.accepted = [])
    (hdeferred : d.engine.state.deferredSettle = [])
    (hrest : d.engine.state.world.pendingDerivedFrom = []) : Sound d := by
  have hnone : ∀ output, output ∉ d.accepted := by
    intro output hmem
    rw [haccepted] at hmem
    cases hmem
  constructor
  · rw [hwaiting, hdeferred]
    rfl
  · rw [haccepted, hdeferred]
    rfl
  · exact fun output hmem => absurd hmem (hnone output)
  · exact fun output hmem => absurd hmem (hnone output)
  · exact fun output hmem => absurd hmem (hnone output)
  · rw [hwaiting]
    exact List.Pairwise.nil
  · exact hrest

theorem Sound.step (h : Sound d) (hi : d.engine.state.world.Indexed fun _ _ => False)
    (hstep : step C d op = some d') : Sound d' := by
  rcases step_cases hstep with
    ⟨run, phase, published, -, -, hphase, hpublished, hidles, hwaiting, haccepted⟩ |
    ⟨generation, applied, -, -, happlied, hstate, hwaiting, haccepted⟩ |
    ⟨hidles, hwaiting, haccepted⟩
  · exact h.commit hi hphase hpublished hidles hwaiting haccepted
  · obtain ⟨settled, based, flushed, -, -, hflushed, rfl⟩ := exists_settled happlied
    refine sound_of_nil hwaiting haccepted ?_ ?_
    · rw [hstate]
      rfl
    · rw [hstate]
      exact (tidies_reconcileInputs _).wanes.places.1.trans (buffers_flushDerivedFrom hflushed).1
  · exact h.idles hidles hwaiting haccepted

theorem reachable_sound (h : Reachable C d) : Sound d := by
  have hboth : Engine.Reachable C d.engine ∧ Sound d := by
    refine Machine.ReachableUnder.invariant h (fun d => Engine.Reachable C d.engine ∧ Sound d) ?_ ?_
    · rintro d ⟨⟨systems, hooked, heq⟩, hwaiting, haccepted⟩
      have hdeferred : d.engine.state.deferredSettle = [] := by
        rw [heq]
        exact State.build_deferredSettle systems hooked
      have hrest : d.engine.state.world.pendingDerivedFrom = [] := by
        rw [heq, show (Engine.new systems hooked : Engine α).state.world = World.new from
          State.build_world systems hooked]
        rfl
      exact ⟨.init ⟨systems, hooked, heq⟩, sound_of_nil hwaiting haccepted hdeferred hrest⟩
    · intro d op d' hd _ hstep
      have hindexed := (Engine.reachable_world hd.1).indexed
      exact ⟨.step hd.1 trivial (engine_step hstep), hd.2.step hindexed hstep⟩
  exact hboth.2

section Examples

/-- A bowl with one settle system, and entities 0, 1 and 2 that its rows are keyed by. -/
def idle : Deferral Unit := ⟨.new [.new .settle none false false []] fun _ => false, [], []⟩

def opening : List (EngineOp Unit) :=
  [.queueInputs [.insert 3 0 (.data ()), .insert 4 1 (.data ()), .insert 4 2 (.data ())],
    .startEvaluation, .completeEvaluation false, .takeMemo]

/-- The row on `key` commits in the settle phase, with a memo entry. -/
def settling (key : Entity) (commands : List (Command Unit)) : EngineOp Unit :=
  .commit ⟨true, [⟨⟨0, [key]⟩, commands⟩], [(⟨0, [key]⟩, ⟨[], 0, 0⟩)], []⟩ (some .settle)

/-- The opening, the listed sections, and a request for the next generation. -/
def after (ops : List (EngineOp Unit)) : Deferral Unit :=
  ((machine (.plain Unit)).run idle (opening ++ ops ++ [.queueInputs []])).getD idle

theorem reachable_after {ops : List (EngineOp Unit)}
    (h : ((machine (.plain Unit)).run idle (opening ++ ops ++ [.queueInputs []])).isSome) :
    Reachable (.plain Unit) (after ops) := by
  obtain ⟨d, hd⟩ := Option.isSome_iff_exists.mp h
  have hrun := Machine.Reachable.run (M := machine (.plain Unit)) (s := idle)
    (.init ⟨⟨_, _, rfl⟩, rfl, rfl⟩) hd
  rwa [after, hd]

end Examples

end Deferral
end Porridge
