import Porridge.Deferral.Waiting

/-! Deferred output is replaced as a unit: the next start applies the last accepted run. -/
namespace Porridge

open World

variable {α : Type} {C : Components α}

/-- The inserts and spawns of an output, which a `Settle` commit holds back. -/
def SystemOutput.deferred (output : SystemOutput α) : List (Command α) :=
  output.commands.filter Command.defersAtSettle

def World.applyDeferred (C : Components α) (w : World α) (outputs : List (SystemOutput α)) :
    Option (World α) :=
  outputs.foldlM (fun w output => w.applyCommands C output.owner output.commands) w

/-- `o` carries exactly what the commands write and its slots hold what they spawn. -/
structure World.Exactly (C : Components α) (o : SystemInvocation)
    (registry : TypeId → Option Entity) (commands : List (Command α)) (w : World α) : Prop where
  carries : ∀ t e, ¬ C.IsInverse t → (w.Carries o t e ↔ (t, e) ∈ landings C registry commands)
  slots : w.slots o = spawnedAll C registry commands

namespace Deferral

variable {d d' : Deferral α}

/-- The output of the most recent run of an invocation accepted since the last start. -/
def lastRun (d : Deferral α) (o : SystemInvocation) : Option (SystemOutput α) :=
  (d.accepted.filter fun output => output.owner = o).getLast?

/-- The world that the next start applies the deferred outputs to. -/
def opened (d : Deferral α) : World α :=
  (compactPlanLog { d.engine.state with pendingGeneration := none }).world

/-- Right after the last deferred output of an invocation is applied it carries what its most
recent accepted run emitted, and nothing when that run deferred nothing. -/
structure Reinstates (C : Components α) (d : Deferral α) : Prop where
  emitted : ∀ pre output post, d.engine.state.deferredSettle = pre ++ output :: post →
    (∀ later ∈ post, later.owner ≠ output.owner) → ∀ u w,
      d.opened.applyDeferred C pre = some u →
      u.applyCommands C output.owner output.commands = some w →
      ∀ last, d.lastRun output.owner = some last →
        w.Exactly C output.owner u.registry last.deferred
  silent : ∀ o last, d.lastRun o = some last →
    (∀ output ∈ d.engine.state.deferredSettle, output.owner ≠ o) → ∀ w,
      d.opened.applyDeferred C d.engine.state.deferredSettle = some w →
        w.Exactly C o w.registry last.deferred

/-- An accepted settle run emits nothing for an owner with an output that waits already, and a
start finds no more spawn slots of an owner than its last run spawned. -/
def Renews (d : Deferral α) : EngineOp α → Prop
  | .commit run phase =>
    phase = some .settle →
      (run.memoUpdates.all fun update => update.2.isCurrent d.engine.state.world) = true →
        (∀ waiting ∈ d.engine.state.deferredSettle, ∀ output ∈ run.outputs,
          waiting.owner ≠ output.owner) ∧
        run.outputs.Pairwise fun a b => a.owner = b.owner → deferredOutput a = none
  | .startEvaluation => ∀ output ∈ d.accepted, ∀ last ∈ d.lastRun output.owner,
      (d.engine.state.world.slots output.owner).length ≤ last.deferred.countP Command.isSpawn
  | _ => True

instance (d : Deferral α) (op : EngineOp α) : Decidable (Renews d op) := by
  cases op with
  | commit run phase => exact inferInstanceAs (Decidable (_ → _ → _ ∧ _))
  | startEvaluation => exact inferInstanceAs (Decidable (∀ output ∈ d.accepted, ∀ last ∈ _, _))
  | _ => exact inferInstanceAs (Decidable True)

theorem deferredOutput_eq_none {output : SystemOutput α} (h : deferredOutput output = none) :
    output.deferred = [] := by
  unfold deferredOutput at h
  unfold SystemOutput.deferred
  cases hcommands : output.commands.filter Command.defersAtSettle with
  | nil => rfl
  | cons c commands =>
    rw [hcommands] at h
    cases h

/-- Only the last accepted output of an owner may wait. -/
def Single (d : Deferral α) : Prop :=
  d.accepted.Pairwise fun a b => a.owner = b.owner → deferredOutput a = none

theorem reachable_single (h : (machine C).ReachableUnder Renews d) : Single d := by
  have hboth : Reachable C d ∧ Single d := by
    refine h.invariant (fun d => Reachable C d ∧ Single d) ?_ ?_
    · intro d hinit
      refine ⟨.init hinit, ?_⟩
      rw [Single, hinit.2.2]
      exact List.Pairwise.nil
    · intro d op d' hd hrenews hstep
      refine ⟨.step hd.1 trivial hstep, ?_⟩
      have hsound := reachable_sound hd.1
      rcases step_cases hstep with
        ⟨run, phase, published, rfl, hcurrent, -, -, -, -, haccepted⟩ | ⟨_, _, -, -, -, -, -, haccepted⟩ |
        ⟨-, -, haccepted⟩
      · rw [Single, haccepted]
        by_cases hsettles : phase = some .settle
        · obtain ⟨hfresh, hruns⟩ := hrenews hsettles hcurrent
          rw [if_pos hsettles, List.pairwise_append]
          refine ⟨hd.2, hruns, fun a ha b hb howner => ?_⟩
          cases hout : deferredOutput a with
          | none => rfl
          | some waiting =>
            have hwaits : waiting ∈ d.engine.state.deferredSettle := by
              rw [hsound.accepted]
              exact List.mem_filterMap.mpr ⟨a, ha, hout⟩
            exact absurd ((owner_deferredOutput hout).1.trans howner) (hfresh waiting hwaits b hb)
        · rw [if_neg hsettles, List.append_nil]
          exact hd.2
      · rw [Single, haccepted]
        exact List.Pairwise.nil
      · rw [Single, haccepted]
        exact hd.2
  exact hboth.2

/-- Deferred outputs of others leave what an invocation carries and its slots alone. -/
theorem applyDeferred_of_ne {o : SystemInvocation} : ∀ {outputs : List (SystemOutput α)}
    {w w' : World α}, (∀ output ∈ outputs, output.owner ≠ o) →
      w.applyDeferred C outputs = some w' →
        (∀ t e, w'.Carries o t e → w.Carries o t e) ∧ w'.slots o = w.slots o ∧
          w'.cursor o = w.cursor o
  | [], w, w', _, h => by
    cases h
    exact ⟨fun _ _ => id, rfl, rfl⟩
  | output :: outputs, w, w', hne, h => by
    obtain ⟨u, hu, hrest⟩ := Option.bind_eq_some_iff.mp h
    obtain ⟨hcarries, hslots, hcursor⟩ := applyDeferred_of_ne
      (fun later hmem => hne later (List.mem_cons_of_mem _ hmem)) hrest
    have hown := hne output List.mem_cons_self
    have hfills := fills_applyCommands_ne hown.symm hu
    exact ⟨fun t e hc => carries_of_applyCommands hown hu (hcarries t e hc),
      hslots.trans hfills.1, hcursor.trans hfills.2⟩

/-- An accepted owner enters the start with nothing and its cursor at the first slot. -/
theorem opened_of_accepted (hd : Sound d) {output : SystemOutput α} (hmem : output ∈ d.accepted) :
    (∀ t e, ¬ d.opened.Carries output.owner t e) ∧
      d.opened.slots output.owner = d.engine.state.world.slots output.owner ∧
      d.opened.cursor output.owner = 0 := by
  obtain ⟨hstores, -, hbuffers, -⟩ :=
    world_compactPlanLog { d.engine.state with pendingGeneration := none }
  refine ⟨fun t e hc => ?_, ?_, ?_⟩
  · rcases hc with howner | ⟨p, hp, -⟩
    · rw [opened, owner?_congr hstores] at howner
      exact hd.dormant output hmem t e howner
    · rw [opened, hbuffers.pending.trans hd.rest] at hp
      cases hp
  · rw [slots, opened, hbuffers.spawns]
    rfl
  · rw [cursor, opened, hbuffers.cursors]
    exact hd.cursors output hmem

/-- A waiting output comes from the most recent accepted run of its owner, and none of its owner
waits before it. -/
theorem exists_lastRun (hd : Sound d) (hsingle : Single d) {pre post : List (SystemOutput α)}
    {output : SystemOutput α} (hsplit : d.engine.state.deferredSettle = pre ++ output :: post) :
    ∃ last ∈ d.accepted, deferredOutput last = some output ∧
      d.lastRun output.owner = some last ∧ ∀ other ∈ pre, other.owner ≠ output.owner := by
  rw [hd.accepted, List.filterMap_eq_append_iff] at hsplit
  obtain ⟨before, rest, hrest, rfl, hsplit⟩ := hsplit
  obtain ⟨skipped, last, after, rfl, -, hout, -⟩ := List.filterMap_eq_cons_iff.mp hsplit
  have howner := (owner_deferredOutput hout).1
  rw [Single, hrest, ← List.append_assoc, List.pairwise_append] at hsingle
  obtain ⟨-, hlater, hearlier⟩ := hsingle
  refine ⟨last, by simp [hrest], hout, ?_, fun other hother heq => ?_⟩
  · have hnone : after.filter (fun output' => output'.owner = output.owner) = [] := by
      refine List.filter_eq_nil_iff.mpr fun b hb heq => ?_
      have hsame : last.owner = b.owner := howner.symm.trans (of_decide_eq_true heq).symm
      rw [(List.pairwise_cons.mp hlater).1 b hb hsame] at hout
      cases hout
    rw [lastRun, hrest, ← List.append_assoc, List.filter_append,
      List.filter_cons_of_pos (by simp [howner]), hnone, List.getLast?_append]
    simp
  · obtain ⟨b, hb, hbout⟩ := List.mem_filterMap.mp hother
    have hsame : b.owner = last.owner := by
      rw [← (owner_deferredOutput hbout).1, heq, howner]
    rw [hearlier b (List.mem_append_left _ hb) last List.mem_cons_self hsame] at hbout
    cases hbout

/-- An invocation that carries nothing carries exactly what its deferred commands emit, once
they fill its slots. -/
theorem exactly_of_applyCommands {o : SystemInvocation} {u w : World α}
    {commands : List (Command α)} (hdefers : ∀ c ∈ commands, c.defersAtSettle = true)
    (hw : u.applyCommands C o commands = some w) (hnothing : ∀ t e, ¬ u.Carries o t e)
    (hcursor : u.cursor o = 0) (hcount : (u.slots o).length ≤ commands.countP Command.isSpawn) :
    w.Exactly C o u.registry commands := by
  obtain ⟨hlands, -⟩ := landed_applyCommands hdefers hw
  have hfills := fills_applyCommands hdefers hw
  constructor
  · intro t e ht
    constructor
    · exact fun hc => (hlands.gains t e hc).resolve_left (hnothing t e)
    · exact hlands.lands t e ht
  · rw [← length_spawnedAll C u.registry] at hcount
    rw [hfills.slots, hcursor, List.take_zero, List.nil_append, Nat.zero_add,
      List.drop_of_length_le hcount, List.append_nil]

/-- In every run that renews, a start reinstates what the most recent accepted run of each
invocation emitted, and nothing of an earlier one. -/
theorem reachable_reinstates (h : (machine C).ReachableUnder Renews d)
    (hstart : Renews d .startEvaluation) : Reinstates C d := by
  have hsound := reachable_sound h.reachable
  have hsingle := reachable_single h
  constructor
  · intro pre output post hsplit _ u w hu hw last hlast
    obtain ⟨last', hmem, hout, hlast', hothers⟩ := exists_lastRun hsound hsingle hsplit
    cases hlast'.symm.trans hlast
    obtain ⟨howner, hcommands⟩ := owner_deferredOutput hout
    obtain ⟨hcarries, hslots, hcursor⟩ := applyDeferred_of_ne hothers hu
    obtain ⟨hnothing, hopened, hzero⟩ := opened_of_accepted hsound hmem
    have hcount := hstart last hmem last (howner ▸ hlast)
    rw [← howner] at hnothing hopened hzero hcount
    have hdeferred : last.deferred = output.commands := hcommands.symm
    have hdefers : ∀ c ∈ output.commands, c.defersAtSettle = true := by
      rw [hcommands]
      exact fun c hc => (List.mem_filter.mp hc).2
    rw [hdeferred] at hcount ⊢
    refine exactly_of_applyCommands hdefers hw (fun t e hc => hnothing t e (hcarries t e hc))
      (hcursor.trans hzero) ?_
    rw [hslots, hopened]
    exact hcount
  · intro o last hlast hothers w hw
    have hmem : last ∈ d.accepted ∧ last.owner = o := by
      have hfiltered := List.mem_of_getLast? hlast
      exact ⟨(List.mem_filter.mp hfiltered).1, of_decide_eq_true (List.mem_filter.mp hfiltered).2⟩
    obtain ⟨hmem, rfl⟩ := hmem
    have hnone : last.deferred = [] := by
      cases hout : deferredOutput last with
      | none => exact deferredOutput_eq_none hout
      | some waiting =>
        have hwaits : waiting ∈ d.engine.state.deferredSettle := by
          rw [hsound.accepted]
          exact List.mem_filterMap.mpr ⟨last, hmem, hout⟩
        exact absurd (owner_deferredOutput hout).1 (hothers waiting hwaits)
    obtain ⟨hcarries, hslots, -⟩ := applyDeferred_of_ne hothers hw
    obtain ⟨hnothing, hopened, -⟩ := opened_of_accepted hsound hmem
    have hcount := hstart last hmem last hlast
    rw [hnone, List.countP_nil, Nat.le_zero, List.length_eq_zero_iff] at hcount
    rw [hnone]
    constructor
    · intro t e _
      constructor
      · exact fun hc => absurd (hcarries t e hc) (hnothing t e)
      · exact fun hc => nomatch hc
    · rw [hslots, hopened, hcount]
      rfl

section Examples

/-- The same row runs twice before the next start, with another insert. -/
def rerun : Deferral Unit :=
  after [settling 0 [.insert 5 1 (.data ())], settling 0 [.insert 6 1 (.data ())], .putMemo]

/-- A generation passes between two settle phases. -/
def passing : List (EngineOp Unit) :=
  [.putMemo, .queueInputs [], .startEvaluation, .completeEvaluation false, .takeMemo]

/-- The row spawns two entities, and one in the next settle phase. -/
def shrunk : Deferral Unit :=
  after ([settling 0 [.spawn [(5, .data ())] 7, .spawn [(5, .data ())] 8]] ++ passing ++
    [settling 0 [.spawn [(5, .data ())] 7], .putMemo])

/-- A second run before the start leaves the first one's insert, and a run that spawns less
leaves a slot of an earlier one. -/
theorem earlier_runs_reinstated :
    (Reachable (.plain Unit) rerun ∧ (rerun.step (.plain Unit) .startEvaluation).isSome ∧
      ¬ Reinstates (.plain Unit) rerun) ∧
    (Reachable (.plain Unit) shrunk ∧ (shrunk.step (.plain Unit) .startEvaluation).isSome ∧
      ¬ Reinstates (.plain Unit) shrunk) := by
  refine ⟨⟨reachable_after (by decide), by decide, fun h => ?_⟩,
    reachable_after (by decide), by decide, fun h => ?_⟩
  · have hexact := h.emitted [⟨⟨0, [0]⟩, [.insert 5 1 (.data ())]⟩] ⟨⟨0, [0]⟩, [.insert 6 1 (.data ())]⟩ []
      (by decide) nofun _ _ (Option.some_get (by decide)).symm (Option.some_get (by decide)).symm
      ⟨⟨0, [0]⟩, [.insert 6 1 (.data ())]⟩ (by decide)
    have hcarried := (hexact.carries 5 1 nofun).mp (Or.inl (by decide))
    exact absurd hcarried (by decide)
  · have hexact := h.emitted [] ⟨⟨0, [0]⟩, [.spawn [(5, .data ())] 7]⟩ [] (by decide) nofun _ _
      (Option.some_get (by decide)).symm (Option.some_get (by decide)).symm
      ⟨⟨0, [0]⟩, [.spawn [(5, .data ())] 7]⟩ (by decide)
    exact absurd hexact.slots (by decide)

/-- The row spawns one entity, then two in the next settle phase. -/
def grown : List (EngineOp Unit) :=
  opening ++ ([settling 0 [.spawn [(5, .data ())] 7]] ++ passing ++
    [settling 0 [.spawn [(5, .data ())] 7, .spawn [(5, .data ())] 8], .putMemo]) ++ [.queueInputs []]

theorem grown_reinstates : ((machine (.plain Unit)).run idle grown).isSome ∧
    Reinstates (.plain Unit) (((machine (.plain Unit)).run idle grown).getD idle) := by
  have hsome : ((machine (.plain Unit)).run idle grown).isSome := by decide
  obtain ⟨d, hd⟩ := Option.isSome_iff_exists.mp hsome
  have hreach : (machine (.plain Unit)).ReachableUnder Renews d :=
    Machine.ReachableUnder.run (M := machine (.plain Unit)) (s := idle)
      (.init ⟨⟨_, _, rfl⟩, rfl, rfl⟩) (by decide) hd
  have hstart : Renews (((machine (.plain Unit)).run idle grown).getD idle) .startEvaluation := by
    decide
  rw [hd] at hstart ⊢
  exact ⟨rfl, reachable_reinstates hreach hstart⟩

end Examples

end Deferral
end Porridge
