import Porridge.PhaseLoop
import Porridge.Query.WholeStore
import Porridge.World.Logging

/-! The planning state of one system along a run: waves that capture the world and its log, rows
forced back, resets, and compactions of the log. -/
namespace Porridge

variable {α : Type}

namespace World

def pairs (w : World α) : List (TypeId × Entity) :=
  w.stores.keys.flatMap fun t => (w.store t).entries.keys.map fun e => (t, e)

/-- The pairs whose entry a use added, removed or gave a new revision. -/
def touched (w w' : World α) : List (TypeId × Entity) :=
  (w.pairs ++ w'.pairs).filter fun p =>
    w'.revisionByType p.1 p.2 ≠ w.revisionByType p.1 p.2

theorem mem_pairs {w : World α} {t : TypeId} {e : Entity} (h : (w.revisionByType t e).isSome) :
    (t, e) ∈ w.pairs := by
  rw [revisionByType, Option.isSome_map, cell?] at h
  have hentry : e ∈ (w.store t).entries.keys := AList.mem_keys.mpr (AList.lookup_isSome.mp h)
  have hstore : t ∈ w.stores.keys := by
    by_contra hnot
    have hnone : w.stores.lookup t = none := AList.lookup_eq_none.mpr fun hmem =>
      hnot (AList.mem_keys.mp hmem)
    rw [store, Dict.getD, hnone] at h
    cases h
  exact List.mem_flatMap.mpr ⟨t, hstore, List.mem_map.mpr ⟨e, hentry, rfl⟩⟩

theorem mem_touched {w w' : World α} {t : TypeId} {e : Entity} :
    (t, e) ∈ w.touched w' ↔ w'.revisionByType t e ≠ w.revisionByType t e := by
  rw [touched, List.mem_filter, decide_eq_true_eq]
  refine ⟨And.right, fun hne => ⟨?_, hne⟩⟩
  rw [List.mem_append]
  cases hbefore : w.revisionByType t e with
  | some r => exact Or.inl (mem_pairs (by rw [hbefore]; rfl))
  | none =>
    cases hafter : w'.revisionByType t e with
    | some r => exact Or.inr (mem_pairs (by rw [hafter]; rfl))
    | none => exact absurd (hafter.trans hbefore.symm) hne

end World

/-- The live world, the snapshot of the wave in progress, and one system; beside them, the history
since the system's last plan. -/
structure Planning (α : Type) where
  world : World α
  captured : Option (World α)
  system : BoxedSystem
  /-- The world of the last plan. -/
  planned : Option (World α)
  /-- The pairs touched between the last plan's world and the snapshot of the wave. -/
  changed : List (TypeId × Entity)
  /-- The pairs touched since. -/
  recent : List (TypeId × Entity)
  /-- The rows forced back since the last plan. -/
  forced : List Entity

inductive PlanningStep (α : Type) where
  | use (op : WorldOp α)
  /-- A wave takes its snapshot, and the log with it. -/
  | capture
  | plan
  | forceReplan (keys : List Entity)
  | resetFull
  /-- An evaluation starts, and reclaims a log above its budget. -/
  | compact

namespace Planning

/-- The log is rolled by a compaction only. -/
def useWorld (C : Components α) (p : Planning α) (op : WorldOp α) : Option (Planning α) :=
  match op with
  | .rollPlanEpoch => none
  | op => (p.world.apply C op).map fun w' =>
    { p with world := w', recent := p.recent ++ p.world.touched w' }

/-- Plan over the snapshot of the wave, if the system needs planning. -/
def plan (p : Planning α) : Option (Planning α) :=
  p.captured.map fun snapshot =>
    if p.system.peekNeedsPlanning snapshot then
      { p with
        system := p.system.afterPlan snapshot
        planned := some snapshot
        changed := []
        forced := [] }
    else p

def compact (p : Planning α) : Planning α :=
  match p.world.maybeRollPlanEpoch with
  | (none, _) => { p with captured := none }
  | (some (epoch, log), w') =>
    { p with world := w', captured := none, system := p.system.compactPlanLog epoch log w' }

def step (C : Components α) (p : Planning α) : PlanningStep α → Option (Planning α)
  | .use op => p.useWorld C op
  | .capture => some { p with
      captured := some p.world, changed := p.changed ++ p.recent, recent := [] }
  | .plan => p.plan
  | .forceReplan keys => some { p with
      system := p.system.forceReplan keys, forced := p.forced ++ keys }
  | .resetFull => some { p with system := p.system.resetFull }
  | .compact => some p.compact

/-- A system is registered before the first run. -/
def machine (C : Components α) : Machine (Planning α) (PlanningStep α) where
  init p := (World.machine C).init p.world ∧ p.captured = none ∧ p.planned = none ∧
    p.changed = [] ∧ p.recent = [] ∧ p.forced = [] ∧
    ∃ phase interest deltaShape pairBound freshness,
      p.system = .new phase interest deltaShape pairBound freshness
  step := step C

/-- The log that the changed pairs are in: that of the snapshot, or of the live world. -/
def seenLog (p : Planning α) : List (TypeId × Entity) := (p.captured.getD p.world).writeLog

section History

variable {C : Components α} {types : List TypeId} {p p' : Planning α} {w w' S : World α}

/-- `S` is an earlier world of the same plan epoch. -/
structure Behind (S w : World α) : Prop where
  coherent : S.Coherent
  planEpoch : S.planEpoch = w.planEpoch
  log : S.writeLog <+: w.writeLog
  revision : S.revision ≤ w.revision

theorem Behind.refl (hw : w.Coherent) : Behind w w := ⟨hw, rfl, List.prefix_rfl, le_rfl⟩

theorem mem_drop_of_isPrefix {β : Type} {l l' : List β} {n : Nat} {x : β} (h : l <+: l')
    (hn : n ≤ l.length) (hx : x ∈ l.drop n) : x ∈ l'.drop n := by
  obtain ⟨tail, rfl⟩ := h
  rw [List.drop_append_of_le_length hn]
  exact List.mem_append_left _ hx

/-- A cursor that is current has everything that changed in the interest since the last plan: in
the log from its position on, or among the rows forced back. -/
structure Current (types : List TypeId) (last : World α) (p : Planning α) : Prop where
  planned : p.planned = some last
  mark : p.system.plannedMark = some (BoxedSystem.interestMark types last)
  coherent : last.Coherent
  revision : last.revision ≤ p.world.revision
  position : p.system.logPos ≤ p.seenLog.length
  newer : ∀ q ∈ p.changed ++ p.recent, last.revision < p.world.storeWatermark q.1
  seen : ∀ q ∈ p.changed, q.1 ∈ types →
    q.2 ∈ p.system.forcedDirty ∨ q ∈ p.seenLog.drop p.system.logPos
  logged : ∀ q ∈ p.changed ++ p.recent, q.1 ∈ types →
    q.2 ∈ p.system.forcedDirty ∨ q ∈ p.world.writeLog.drop p.system.logPos

/-- What planning keeps of a delta-eligible system: the wave, the forced rows and the cursor. -/
structure Tracked (types : List TypeId) (p : Planning α) : Prop where
  coherent : p.world.Coherent
  wave : ∀ S, p.captured = some S → Behind S p.world ∧ ∀ q ∈ p.recent,
    q ∈ p.world.writeLog.drop S.writeLog.length ∧ S.revision < p.world.storeWatermark q.1
  forced : ∀ e ∈ p.forced, e ∈ p.system.forcedDirty
  epoch : ∀ k, p.system.planEpoch = some k → k ≤ p.world.planEpoch
  cursor : p.system.planEpoch = some p.world.planEpoch → ∃ last, Current types last p

theorem Tracked.seenLog_prefix (h : Tracked types p) : p.seenLog <+: p.world.writeLog := by
  unfold seenLog
  cases hcaptured : p.captured with
  | none => exact List.prefix_rfl
  | some S => exact (h.wave S hcaptured).1.log

theorem Tracked.use (h : Tracked types p) {op : WorldOp α} (hop : op ≠ .rollPlanEpoch)
    (hstep : p.world.apply C op = some w') :
    Tracked types { p with world := w', recent := p.recent ++ p.world.touched w' } := by
  obtain ⟨hcoherent, hfollows⟩ := (World.Follows.refl p.world).later h.coherent (.of_apply op hstep)
  obtain ⟨hepoch, tail, htail, hlogged⟩ := World.logs_apply hop hstep
  have hwatermark := hfollows.storeWatermark_le h.coherent
  have hgrown : p.world.writeLog <+: w'.writeLog := htail ▸ List.prefix_append _ _
  have htouched : ∀ q ∈ p.world.touched w', q ∈ tail ∧
      p.world.revision < w'.storeWatermark q.1 := fun q hq => by
    have hne := World.mem_touched.mp hq
    exact ⟨hlogged q.1 q.2 hne, World.lt_storeWatermark h.coherent hstep hne⟩
  have hin : ∀ {n : Nat} {q : TypeId × Entity}, n ≤ p.world.writeLog.length → q ∈ tail →
      q ∈ w'.writeLog.drop n := fun hn hq => by
    rw [htail, List.drop_append_of_le_length hn]
    exact List.mem_append_right _ hq
  refine ⟨hcoherent, fun S hS => ?_, h.forced, fun k hk => hepoch ▸ h.epoch k hk,
    fun hcursor => ?_⟩
  · obtain ⟨hbehind, hrecent⟩ := h.wave S hS
    have hlength := hbehind.log.length_le
    refine ⟨⟨hbehind.coherent, hbehind.planEpoch.trans hepoch.symm, hbehind.log.trans hgrown,
      hbehind.revision.trans hfollows.revision⟩, fun q hq => ?_⟩
    rcases List.mem_append.mp hq with hq | hq
    · obtain ⟨hlog, hlt⟩ := hrecent q hq
      exact ⟨mem_drop_of_isPrefix hgrown hlength hlog, lt_of_lt_of_le hlt (hwatermark q.1)⟩
    · obtain ⟨hlog, hlt⟩ := htouched q hq
      exact ⟨hin hlength hlog, lt_of_le_of_lt hbehind.revision hlt⟩
  · obtain ⟨last, hcurrent⟩ := h.cursor (hcursor.trans (congrArg some hepoch))
    have hposition := hcurrent.position.trans h.seenLog_prefix.length_le
    have hseen : p.seenLog <+: ({ p with world := w', recent := p.recent ++ p.world.touched w' } :
        Planning α).seenLog := by
      unfold seenLog
      cases p.captured with
      | none => exact hgrown
      | some S => exact List.prefix_rfl
    refine ⟨last, hcurrent.planned, hcurrent.mark, hcurrent.coherent,
      hcurrent.revision.trans hfollows.revision, hcurrent.position.trans hseen.length_le,
      fun q hq => ?_, fun q hq ht => ?_, fun q hq ht => ?_⟩
    · rw [← List.append_assoc] at hq
      rcases List.mem_append.mp hq with hq | hq
      · exact lt_of_lt_of_le (hcurrent.newer q hq) (hwatermark q.1)
      · exact lt_of_le_of_lt hcurrent.revision (htouched q hq).2
    · exact (hcurrent.seen q hq ht).imp_right (mem_drop_of_isPrefix hseen hcurrent.position)
    · rw [← List.append_assoc] at hq
      rcases List.mem_append.mp hq with hq | hq
      · exact (hcurrent.logged q hq ht).imp_right (mem_drop_of_isPrefix hgrown hposition)
      · exact Or.inr (hin hposition (htouched q hq).1)

theorem Tracked.capture (h : Tracked types p) : Tracked types
    { p with captured := some p.world, changed := p.changed ++ p.recent, recent := [] } where
  coherent := h.coherent
  wave S hS := by
    cases hS
    exact ⟨.refl h.coherent, nofun⟩
  forced := h.forced
  epoch := h.epoch
  cursor hcursor := by
    obtain ⟨last, hcurrent⟩ := h.cursor hcursor
    refine ⟨last, hcurrent.planned, hcurrent.mark, hcurrent.coherent, hcurrent.revision,
      hcurrent.position.trans h.seenLog_prefix.length_le, ?_, hcurrent.logged, ?_⟩
    · rw [List.append_nil]
      exact hcurrent.newer
    · rw [List.append_nil]
      exact hcurrent.logged

theorem Tracked.plan (h : Tracked types p) (heligible : p.system.deltaEligible = true)
    (htypes : p.system.interest = some types) (hS : p.captured = some S) :
    Tracked types { p with
      system := p.system.afterPlan S, planned := some S, changed := [], forced := [] } := by
  obtain ⟨hbehind, hrecent⟩ := h.wave S hS
  have hafter : p.system.afterPlan S = { p.system with
      plannedMark := some (BoxedSystem.interestMark types S)
      forcedDirty := []
      logPos := S.writeLog.length
      planEpoch := some S.planEpoch } := by
    simp [BoxedSystem.afterPlan, BoxedSystem.advanceMark, heligible, htypes]
  rw [hafter]
  refine ⟨h.coherent, h.wave, (by simp), fun k hk => ?_, fun _ => ⟨S, rfl, rfl, hbehind.coherent,
    hbehind.revision, ?_, fun q hq => (hrecent q hq).2, (by simp),
    fun q hq _ => Or.inr (hrecent q hq).1⟩⟩
  · cases hk
    exact hbehind.planEpoch.le
  · show S.writeLog.length ≤ (p.captured.getD p.world).writeLog.length
    rw [hS]
    exact le_rfl

theorem Tracked.resetFull (h : Tracked types p) :
    Tracked types { p with system := p.system.resetFull } :=
  ⟨h.coherent, h.wave, h.forced, nofun, nofun⟩

theorem Tracked.forceReplan (h : Tracked types p) (heligible : p.system.deltaEligible = true)
    (keys : List Entity) : Tracked types { p with
      system := p.system.forceReplan keys, forced := p.forced ++ keys } := by
  by_cases hkeys : keys = []
  · have hreset : p.system.forceReplan keys = p.system.resetFull := by
      unfold BoxedSystem.forceReplan
      rw [if_neg fun hand => hand.2 hkeys]
    rw [hreset, hkeys, List.append_nil]
    exact h.resetFull
  · have hforced : p.system.forceReplan keys =
        { p.system with forcedDirty := p.system.forcedDirty ++ keys } := by
      unfold BoxedSystem.forceReplan
      rw [if_pos ⟨heligible, hkeys⟩]
    rw [hforced]
    refine ⟨h.coherent, h.wave, fun e he => ?_, h.epoch, fun hcursor => ?_⟩
    · exact List.mem_append.mpr ((List.mem_append.mp he).imp_left (h.forced e))
    · obtain ⟨last, hcurrent⟩ := h.cursor hcursor
      exact ⟨last, hcurrent.planned, hcurrent.mark, hcurrent.coherent, hcurrent.revision,
        hcurrent.position, hcurrent.newer,
        fun q hq ht => (hcurrent.seen q hq ht).imp_left (List.mem_append_left _),
        fun q hq ht => (hcurrent.logged q hq ht).imp_left (List.mem_append_left _)⟩

/-- A compacted cursor moves to the new log; the unread relevant rows of a system that needs
planning are forced back. -/
theorem compactPlanLog_current {s : BoxedSystem} (heligible : s.deltaEligible = true)
    (hphase : s.phase ≠ .startup) (htypes : s.interest = some types) {epoch : Nat}
    (hcursor : s.planEpoch = some epoch) (log : List (TypeId × Entity)) (w : World α) :
    ∃ forced, s.compactPlanLog epoch log w =
        { s with forcedDirty := forced, logPos := 0, planEpoch := some (epoch + 1) } ∧
      (∀ e ∈ s.forcedDirty, e ∈ forced) ∧ (s.peekNeedsPlanning w = true →
        ∀ q ∈ log.drop s.logPos, q.1 ∈ types → q.2 ∈ forced) := by
  have hruns : ¬ ((!s.deltaEligible) = true ∨ s.phase = .startup ∨ s.planEpoch ≠ some epoch) := by
    simp [heligible, hphase, hcursor]
  unfold BoxedSystem.compactPlanLog
  rw [if_neg hruns]
  dsimp only
  split_ifs with hneeds
  · refine ⟨_, rfl, fun e he => ?_, fun _ q hq ht => ?_⟩
    · rw [List.mem_dedup, List.mem_mergeSort]
      exact List.mem_append_left _ he
    · rw [List.mem_dedup, List.mem_mergeSort]
      refine List.mem_append_right _ (List.mem_map_of_mem (List.mem_filter.mpr ⟨hq, ?_⟩))
      simpa [htypes] using ht
  · exact ⟨s.forcedDirty, rfl, fun _ => id, fun h => absurd h hneeds⟩

theorem compact_cases (p : Planning α) : p.compact = { p with captured := none } ∨
    ∃ w', p.world.maybeRollPlanEpoch.2 = w' ∧ w'.stores = p.world.stores ∧
      w'.revision = p.world.revision ∧ w'.planEpoch = p.world.planEpoch + 1 ∧ p.compact = { p with
        world := w', captured := none
        system := p.system.compactPlanLog p.world.planEpoch p.world.writeLog w' } := by
  unfold Planning.compact World.maybeRollPlanEpoch
  by_cases hbudget : p.world.writeLog.length ≤ World.planLogBudget
  · rw [if_pos hbudget]
    exact Or.inl rfl
  · rw [if_neg hbudget]
    exact Or.inr ⟨_, rfl, rfl, rfl, rfl, rfl⟩

/-- What was touched since the last plan makes the planner reconsider its system. -/
theorem Current.peekNeedsPlanning {last : World α} (h : Current types last p)
    (htypes : p.system.interest = some types) (hs : w.stores = p.world.stores)
    {q : TypeId × Entity} (hq : q ∈ p.changed ++ p.recent) (ht : q.1 ∈ types) :
    p.system.peekNeedsPlanning w = true := by
  have hmark : ∀ t, w.storeWatermark t = p.world.storeWatermark t := fun t => by
    rw [World.storeWatermark, World.storeWatermark, World.store_congr hs]
  unfold BoxedSystem.peekNeedsPlanning
  split_ifs
  · rfl
  · have hmoved := lt_of_lt_of_le (hmark q.1 ▸ h.newer q hq) (storeWatermark_le_interestMark ht)
    simp only [htypes, h.mark, decide_eq_true_eq]
    exact lt_of_le_of_lt (interestMark_le_revision h.coherent types) hmoved

/-- A compaction moves the unread rows of a system that needs planning to its forced rows; where
the system does not, none of its interest has changed. -/
theorem Tracked.compact (h : Tracked types p) (heligible : p.system.deltaEligible = true)
    (hphase : p.system.phase ≠ .startup) (htypes : p.system.interest = some types) :
    Tracked types p.compact := by
  rcases compact_cases p with heq | ⟨w', -, hs, hr, hepoch, heq⟩
  · rw [heq]
    refine ⟨h.coherent, (by simp), h.forced, h.epoch, fun hcursor => ?_⟩
    obtain ⟨last, hcurrent⟩ := h.cursor hcursor
    exact ⟨last, hcurrent.planned, hcurrent.mark, hcurrent.coherent, hcurrent.revision,
      hcurrent.position.trans h.seenLog_prefix.length_le, hcurrent.newer,
      fun q hq => hcurrent.logged q (List.mem_append_left _ hq), hcurrent.logged⟩
  · rw [heq]
    have hcoherent : w'.Coherent := h.coherent.congr hs hr
    by_cases hcursor : p.system.planEpoch = some p.world.planEpoch
    · obtain ⟨last, hcurrent⟩ := h.cursor hcursor
      obtain ⟨forced, hsystem, hforced, hunread⟩ := compactPlanLog_current heligible hphase htypes
        hcursor p.world.writeLog w'
      have hkept : ∀ q ∈ p.changed ++ p.recent, q.1 ∈ types → q.2 ∈ forced := by
        intro q hq ht
        rcases hcurrent.logged q hq ht with hold | hlogged
        · exact hforced q.2 hold
        · exact hunread (hcurrent.peekNeedsPlanning htypes hs hq ht) q hlogged ht
      have hmark : ∀ t, w'.storeWatermark t = p.world.storeWatermark t := fun t => by
        rw [World.storeWatermark, World.storeWatermark, World.store_congr hs]
      rw [hsystem]
      refine ⟨hcoherent, (by simp), fun e he => hforced e (h.forced e he), fun k hk => ?_, fun _ =>
        ⟨last, hcurrent.planned, hcurrent.mark, hcurrent.coherent, ?_, Nat.zero_le _,
          fun q hq => ?_, fun q hq ht => Or.inl (hkept q (List.mem_append_left _ hq) ht),
          fun q hq ht => Or.inl (hkept q hq ht)⟩⟩
      · cases hk
        exact hepoch.ge
      · show last.revision ≤ w'.revision
        rw [hr]
        exact hcurrent.revision
      · show last.revision < w'.storeWatermark q.1
        rw [hmark]
        exact hcurrent.newer q hq
    · have hsystem : p.system.compactPlanLog p.world.planEpoch p.world.writeLog w' = p.system := by
        unfold BoxedSystem.compactPlanLog
        rw [if_pos (Or.inr (Or.inr hcursor))]
      rw [hsystem]
      refine ⟨hcoherent, (by simp), h.forced, fun k hk => ?_, fun hnew => ?_⟩
      · show k ≤ w'.planEpoch
        rw [hepoch]
        exact (h.epoch k hk).trans (Nat.le_succ _)
      · -- a cursor of an older epoch stays behind
        have hbehind := h.epoch w'.planEpoch hnew
        rw [hepoch] at hbehind
        exact absurd hbehind (Nat.not_succ_le_self _)

def SameKind (s s' : BoxedSystem) : Prop :=
  s'.deltaEligible = s.deltaEligible ∧ s'.phase = s.phase ∧ s'.interest = s.interest

theorem sameKind_forceReplan (s : BoxedSystem) (keys : List Entity) :
    SameKind s (s.forceReplan keys) := by
  unfold BoxedSystem.forceReplan
  split_ifs <;> exact ⟨rfl, rfl, rfl⟩

theorem sameKind_afterPlan (s : BoxedSystem) (w : World α) : SameKind s (s.afterPlan w) := by
  unfold BoxedSystem.afterPlan
  dsimp only
  split_ifs <;> exact ⟨rfl, rfl, rfl⟩

theorem sameKind_compactPlanLog (s : BoxedSystem) (epoch : Nat) (log : List (TypeId × Entity))
    (w : World α) : SameKind s (s.compactPlanLog epoch log w) := by
  unfold BoxedSystem.compactPlanLog
  dsimp only
  split_ifs <;> exact ⟨rfl, rfl, rfl⟩

theorem useWorld_cases {op : WorldOp α} (h : p.useWorld C op = some p') :
    op ≠ .rollPlanEpoch ∧ ∃ w', p.world.apply C op = some w' ∧
      p' = { p with world := w', recent := p.recent ++ p.world.touched w' } := by
  unfold useWorld at h
  split at h
  · cases h
  · rename_i hop
    obtain ⟨w', hw', rfl⟩ := Option.map_eq_some_iff.mp h
    exact ⟨hop, w', hw', rfl⟩

theorem plan_cases (h : p.plan = some p') : p' = p ∨ ∃ S, p.captured = some S ∧
    p.system.peekNeedsPlanning S = true ∧ p' = { p with
      system := p.system.afterPlan S, planned := some S, changed := [], forced := [] } := by
  obtain ⟨S, hS, rfl⟩ := Option.map_eq_some_iff.mp h
  split_ifs with hneeds
  · exact Or.inr ⟨S, hS, hneeds, rfl⟩
  · exact Or.inl rfl

theorem sameKind_step {i : PlanningStep α} (h : step C p i = some p') :
    SameKind p.system p'.system := by
  cases i with
  | use op =>
    obtain ⟨-, w', -, rfl⟩ := useWorld_cases h
    exact ⟨rfl, rfl, rfl⟩
  | capture => cases h; exact ⟨rfl, rfl, rfl⟩
  | plan =>
    rcases plan_cases h with rfl | ⟨S, -, -, rfl⟩
    · exact ⟨rfl, rfl, rfl⟩
    · exact sameKind_afterPlan p.system S
  | forceReplan keys => cases h; exact sameKind_forceReplan p.system keys
  | resetFull => cases h; exact ⟨rfl, rfl, rfl⟩
  | compact =>
    cases h
    unfold Planning.compact
    split
    · exact ⟨rfl, rfl, rfl⟩
    · exact sameKind_compactPlanLog p.system _ _ _

theorem Tracked.step (h : Tracked types p) (heligible : p.system.deltaEligible = true)
    (hphase : p.system.phase ≠ .startup) (htypes : p.system.interest = some types)
    {i : PlanningStep α} (hstep : Planning.step C p i = some p') : Tracked types p' := by
  cases i with
  | use op =>
    obtain ⟨hop, w', hw', rfl⟩ := useWorld_cases hstep
    exact h.use hop hw'
  | capture => cases hstep; exact h.capture
  | plan =>
    rcases plan_cases hstep with rfl | ⟨S, hS, -, rfl⟩
    · exact h
    · exact h.plan heligible htypes hS
  | forceReplan keys => cases hstep; exact h.forceReplan heligible keys
  | resetFull => cases hstep; exact h.resetFull
  | compact => cases hstep; exact h.compact heligible hphase htypes

theorem tracked_of_reachable (h : (machine C).Reachable p)
    (heligible : p.system.deltaEligible = true) (hphase : p.system.phase ≠ .startup)
    (htypes : p.system.interest = some types) : Tracked types p := by
  refine h.invariant (fun p : Planning α => p.system.deltaEligible = true →
    p.system.phase ≠ .startup → p.system.interest = some types → Tracked types p) ?_ ?_
    heligible hphase htypes
  · rintro p ⟨⟨schema, hw⟩, hcaptured, -, -, -, hforced, phase, interest, delta, pair, fresh, hnew⟩ - - -
    refine ⟨?_, fun S hS => ?_, fun e he => ?_, fun k hk => ?_, fun hcursor => ?_⟩
    · rw [hw]
      exact World.coherent_ofSchema schema
    · rw [hcaptured] at hS
      cases hS
    · rw [hforced] at he
      cases he
    · rw [hnew] at hk
      cases hk
    · rw [hnew] at hcursor
      cases hcursor
  · intro p i p' htracked _ hstep heligible hphase htypes
    obtain ⟨h1, h2, h3⟩ := sameKind_step hstep
    rw [h1] at heligible
    rw [h2] at hphase
    rw [h3] at htypes
    exact (htracked heligible hphase htypes).step heligible hphase htypes hstep

/-- The record of the touched pairs covers every difference between the worlds it lies between. -/
structure Recorded (p : Planning α) : Prop where
  recent : ∀ S, p.captured = some S → ∀ t e,
    p.world.revisionByType t e ≠ S.revisionByType t e → (t, e) ∈ p.recent
  changed : ∀ S last, p.captured = some S → p.planned = some last → ∀ t e,
    S.revisionByType t e ≠ last.revisionByType t e → (t, e) ∈ p.changed
  both : ∀ last, p.planned = some last → ∀ t e,
    p.world.revisionByType t e ≠ last.revisionByType t e → (t, e) ∈ p.changed ++ p.recent

theorem Recorded.step (h : Recorded p) {i : PlanningStep α}
    (hstep : Planning.step C p i = some p') : Recorded p' := by
  cases i with
  | use op =>
    obtain ⟨-, w', -, rfl⟩ := useWorld_cases hstep
    have hgrown : ∀ {S : World α} {t : TypeId} {e : Entity} {l : List (TypeId × Entity)},
        w'.revisionByType t e ≠ S.revisionByType t e →
        (p.world.revisionByType t e ≠ S.revisionByType t e → (t, e) ∈ l) →
        (t, e) ∈ l ++ p.world.touched w' := by
      intro S t e l hne hbefore
      rw [List.mem_append, World.mem_touched]
      by_cases hsame : p.world.revisionByType t e = S.revisionByType t e
      · exact Or.inr (hsame ▸ hne)
      · exact Or.inl (hbefore hsame)
    refine ⟨fun S hS t e hne => hgrown hne (h.recent S hS t e), h.changed, fun last hlast t e hne => ?_⟩
    rw [← List.append_assoc]
    exact hgrown hne (h.both last hlast t e)
  | capture =>
    cases hstep
    refine ⟨fun S hS t e hne => ?_, fun S last hS hlast t e hne => ?_, fun last hlast t e hne => ?_⟩
    · cases hS
      exact absurd rfl hne
    · cases hS
      exact h.both last hlast t e hne
    · rw [List.append_nil]
      exact h.both last hlast t e hne
  | plan =>
    rcases plan_cases hstep with rfl | ⟨S, hS, -, rfl⟩
    · exact h
    · refine ⟨h.recent, fun S' last hS' hlast t e hne => ?_, fun last hlast t e hne => ?_⟩
      · cases hlast
        cases hS.symm.trans hS'
        exact absurd rfl hne
      · cases hlast
        exact h.recent S hS t e hne
  | forceReplan keys => cases hstep; exact ⟨h.recent, h.changed, h.both⟩
  | resetFull => cases hstep; exact ⟨h.recent, h.changed, h.both⟩
  | compact =>
    cases hstep
    rcases compact_cases p with heq | ⟨w', -, hs, -, -, heq⟩
    · rw [heq]
      exact ⟨nofun, nofun, h.both⟩
    · rw [heq]
      refine ⟨nofun, nofun, fun last hlast t e hne => h.both last hlast t e ?_⟩
      change w'.revisionByType t e ≠ _ at hne
      rwa [World.revisionByType, World.cell?_congr hs] at hne

theorem recorded_of_reachable (h : (machine C).Reachable p) : Recorded p := by
  refine h.invariant Recorded ?_ fun _ _ _ hp _ hstep => hp.step hstep
  rintro p ⟨-, hcaptured, hplanned, -⟩
  refine ⟨fun S hS => ?_, fun S last hS => ?_, fun last hlast => ?_⟩
  · rw [hcaptured] at hS
    cases hS
  · rw [hcaptured] at hS
    cases hS
  · rw [hplanned] at hlast
    cases hlast

/-- The hint of a plan with a current cursor has every row forced and every entity of the interest
touched since the last plan. -/
theorem planHint_complete (h : (machine C).Reachable p) (heligible : p.system.deltaEligible = true)
    (hphase : p.system.phase ≠ .startup) (hS : p.captured = some S) :
    (p.system.planEpoch = some S.planEpoch → ∃ hint last, p.system.planHint S = some hint ∧
      p.planned = some last ∧
      (∀ t ∈ p.system.interest.getD [], ∀ e, S.revisionByType t e ≠ last.revisionByType t e ∨
        (t, e) ∈ p.changed → e ∈ hint) ∧ ∀ e ∈ p.forced, e ∈ hint) ∧
    (p.system.planEpoch ≠ some S.planEpoch → p.system.planHint S = none) := by
  obtain ⟨types, htypes⟩ := Option.isSome_iff_exists.mp (p.system.bounded heligible)
  have htracked := tracked_of_reachable h heligible hphase htypes
  refine ⟨fun hcursor => ?_, fun hcursor => ?_⟩
  · obtain ⟨hbehind, -⟩ := htracked.wave S hS
    obtain ⟨last, hcurrent⟩ := htracked.cursor (hcursor.trans (congrArg some hbehind.planEpoch))
    refine ⟨_, last, if_pos ⟨heligible, hcursor⟩, hcurrent.planned, fun t ht e htouched => ?_,
      fun e he => ?_⟩
    · have hchanged : (t, e) ∈ p.changed := htouched.elim
        ((recorded_of_reachable h).changed S last hS hcurrent.planned t e) id
      rw [htypes, Option.getD_some] at ht
      have hseen := hcurrent.seen (t, e) hchanged ht
      rw [seenLog, hS, Option.getD_some] at hseen
      rw [List.mem_dedup, List.mem_mergeSort, List.mem_append]
      refine hseen.symm.imp_left fun hlogged => ?_
      exact List.mem_map_of_mem (List.mem_filter.mpr ⟨hlogged, by simpa [htypes] using ht⟩)
    · rw [List.mem_dedup, List.mem_mergeSort]
      exact List.mem_append_right _ (htracked.forced e he)
  · unfold BoxedSystem.planHint
    rw [if_neg fun hand => hcursor hand.2]

end History

section Runs

def registered : Planning Nat :=
  ⟨World.new, none, .new .evaluate (some [5]) true false [], none, [], [], []⟩

/-- The system has planned, and has seen an insert and a row forced back since. -/
def stirred : Planning Nat :=
  ((machine World.fingerprinted).run registered [.capture, .plan, .use .spawnEmpty,
    .use (.base (.insert 5 0 (.data 7))), .use (.base (.insert 6 1 (.data 7))),
    .forceReplan [3]]).getD registered

/-- More writes than the log may hold, to entries that are gone. -/
def strays : List (TypeId × Entity) := (List.range 4097).map fun e => (5, e + 2)

theorem strays_absent : ∀ q ∈ strays, stirred.world.cell? q.1 q.2 = none := by
  intro q hq
  obtain ⟨e, -, rfl⟩ := List.mem_map.mp hq
  by_contra hsome
  have hpairs : stirred.world.pairs = [(6, 1), (5, 0)] := by decide
  have hmem : (5, e + 2) ∈ stirred.world.pairs := World.mem_pairs (by
    rw [World.revisionByType, Option.isSome_map]
    exact Option.isSome_iff_ne_none.mpr hsome)
  rw [hpairs] at hmem
  simp at hmem

theorem strays_stored : ∀ q ∈ strays, q.1 ∈ stirred.world.stores := by
  intro q hq
  obtain ⟨e, -, rfl⟩ := List.mem_map.mp hq
  exact (by decide : (5 : TypeId) ∈ stirred.world.stores)

/-- A use that the log alone records, a compaction over the budget, and the next wave. -/
theorem run_compacting {C : Components α} {p : Planning α} {writes log : List (TypeId × Entity)}
    (hlogged : p.world.reconcileWritten C writes = { p.world with writeLog := log })
    (hover : ¬ log.length ≤ World.planLogBudget) : ∃ q rolled,
      (machine C).run p [.use (.reconcileWritten writes), .compact, .capture] = some q ∧
      q.captured = some rolled ∧ rolled.planEpoch = p.world.planEpoch + 1 ∧
      q.system = p.system.compactPlanLog p.world.planEpoch log rolled ∧ q.planned = p.planned ∧
      (∀ t e, (t, e) ∈ p.recent → (t, e) ∈ q.changed) ∧ q.forced = p.forced := by
  let logged : World α := { p.world with writeLog := log }
  let written : Planning α := { p with
    world := logged, recent := p.recent ++ p.world.touched logged }
  let rolled : World α := { p.world with planEpoch := p.world.planEpoch + 1, writeLog := [] }
  have huse : (machine C).step p (.use (.reconcileWritten writes)) = some written := by
    change (some (p.world.reconcileWritten C writes)).map (fun w' => ({ p with
      world := w', recent := p.recent ++ p.world.touched w' } : Planning α)) = _
    rw [hlogged]
    rfl
  have hcompact : (machine C).step written .compact = some { written with
      world := rolled
      captured := none
      system := p.system.compactPlanLog p.world.planEpoch log rolled } := by
    change some written.compact = _
    unfold Planning.compact World.maybeRollPlanEpoch
    rw [if_neg hover]
  refine ⟨⟨rolled, some rolled, p.system.compactPlanLog p.world.planEpoch log rolled, p.planned,
    p.changed ++ written.recent, [], p.forced⟩, rolled, ?_, rfl, rfl, rfl, rfl, fun t e he => ?_, rfl⟩
  · unfold Machine.run
    rw [List.foldlM_cons, huse, Option.bind_eq_bind, Option.bind_some, List.foldlM_cons, hcompact]
    rfl
  · exact List.mem_append_right _ (List.mem_append_left _ he)

/-- The writes push the log over its budget, and the next evaluation rolls it: the hint of its wave
still has the inserted entity and the row forced back. -/
theorem refreshed_hint : ∃ refreshed S,
    (machine World.fingerprinted).run stirred
      [.use (.reconcileWritten strays), .compact, .capture] = some refreshed ∧
    refreshed.captured = some S ∧ S.planEpoch = stirred.world.planEpoch + 1 ∧
    refreshed.system.planEpoch = some S.planEpoch ∧
    ∃ hint, refreshed.system.planHint S = some hint ∧ 0 ∈ hint ∧ 3 ∈ hint := by
  have hstirred : (machine World.fingerprinted).Reachable stirred :=
    Machine.Reachable.run (.init ⟨⟨none, rfl⟩, rfl, rfl, rfl, rfl, rfl, _, _, _, _, _, rfl⟩)
      (show (machine World.fingerprinted).run registered [.capture, .plan, .use .spawnEmpty,
        .use (.base (.insert 5 0 (.data 7))), .use (.base (.insert 6 1 (.data 7))),
        .forceReplan [3]] = some stirred from rfl)
  have hover : ¬ (stirred.world.writeLog ++ strays).length ≤ World.planLogBudget := by
    rw [List.length_append, strays, List.length_map, List.length_range]
    unfold World.planLogBudget
    omega
  obtain ⟨refreshed, S, hrun, hS, hepoch, hsystem, -, hchanged, hforced⟩ :=
    run_compacting (World.reconcileWritten_of_absent strays_stored strays_absent) hover
  have hdelta : stirred.system.deltaEligible = true := rfl
  have hinterest : stirred.system.interest = some [5] := rfl
  obtain ⟨dirty, hcompacted, -, -⟩ := compactPlanLog_current hdelta (by decide) hinterest rfl
    (stirred.world.writeLog ++ strays) S
  have hcursor : refreshed.system.planEpoch = some S.planEpoch := by
    rw [hsystem, hepoch]
    exact congrArg BoxedSystem.planEpoch hcompacted
  have heligible : refreshed.system.deltaEligible = true := by
    rw [hsystem]
    exact congrArg BoxedSystem.deltaEligible hcompacted
  have hphase : refreshed.system.phase = .evaluate := by
    rw [hsystem]
    exact congrArg BoxedSystem.phase hcompacted
  obtain ⟨hint, last, hhint, -, htouched, hrows⟩ :=
    (planHint_complete (Machine.Reachable.run hstirred hrun) heligible
      (by rw [hphase]; decide) hS).1 hcursor
  refine ⟨refreshed, S, hrun, hS, hepoch, hcursor, hint, hhint,
    htouched 5 ?_ 0 (Or.inr (hchanged 5 0 (by decide))), hrows 3 ?_⟩
  · rw [hsystem]
    exact (congrArg BoxedSystem.interest hcompacted) ▸ List.mem_singleton_self 5
  · rw [hforced]
    decide

end Runs

end Planning
end Porridge
