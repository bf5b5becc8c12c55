import Porridge.Intake.Registry
import Porridge.World.Claims

/-! Routing of singleton bundles: which steps strand an accepted input, so that applying it
panics. -/
namespace Porridge

variable {α : Type} {C : Components α}

namespace World

/-- An awaited marker may be written: its key is unregistered, or registered where it is for. -/
def Ready (w : World α) (awaited : TypeId → Entity → Prop) : Prop :=
  ∀ key e, awaited key e →
    w.singletonEntities.lookup key = none ∨ w.singletonEntities.lookup key = some e

def ClaimsFree (C : Components α) (awaited : TypeId → Entity → Prop) (o : SystemInvocation) :
    World α → List (Command α) → Prop
  | _, [] => True
  | w, c :: commands => (∀ key e, w.Claims C c key e → ∀ e', awaited key e' → e' = e) ∧
      ∀ w' ∈ c.apply C w o, ClaimsFree C awaited o w' commands

variable {w w' : World α} {awaited : TypeId → Entity → Prop}

theorem Ready.clears (h : w.Ready awaited) (hc : Clears w w') : w'.Ready awaited := by
  intro key e hawaited
  rcases hc key with hnone | hsame
  · exact Or.inl hnone
  · rw [hsame]
    exact h key e hawaited

theorem Ready.applyCommands {o : SystemInvocation} {commands : List (Command α)}
    (h : w.Ready awaited) (hw : w.Anchored C) (hrouted : ∀ c ∈ commands, c.Routed C)
    (hfree : w.ClaimsFree C awaited o commands) (ha : w.applyCommands C o commands = some w') :
    w'.Ready awaited ∧ w'.Anchored C := by
  induction commands generalizing w with
  | nil =>
    have heq : w = w' := Option.some.inj ha
    exact heq ▸ ⟨h, hw⟩
  | cons c commands ih =>
    obtain ⟨u, hu, hrest⟩ := (applyCommands_cons C).mp ha
    obtain ⟨u', hu', hanchored, hlookups⟩ := command_spec w o hw (hrouted c List.mem_cons_self)
    rw [hu] at hu'
    cases hu'
    refine ih ?_ hanchored (fun c hc => hrouted c (List.mem_cons_of_mem _ hc)) (hfree.2 u hu) hrest
    intro key e hawaited
    rcases hlookups key with hnone | hsame | ⟨e', hclaims, hclaimed⟩
    · exact Or.inl hnone
    · rw [hsame]
      exact h key e hawaited
    · rw [hfree.1 key e' hclaims e hawaited]
      exact Or.inr hclaimed

end World

namespace Intake

variable {s s' : Intake α}

/-- Singleton markers come in bundles for no entity in particular. -/
def Routed (C : Components α) : IntakeOp α → Prop
  | .insert bundle (some _) _ => ∀ p ∈ bundle, C.singletonKey p.1 = none
  | .world (.output output _) => ∀ c ∈ output.commands, c.Routed C
  | .world (.commands _ commands) => ∀ c ∈ commands, c.Routed C
  | _ => True

/-- No bundle claims an unregistered key while an accepted input awaits its marker elsewhere. -/
def Unclaimed (C : Components α) (s : Intake α) : IntakeOp α → Prop
  | .insert bundle none _ => ∀ key, World.bundleSingletonKey C bundle = some (some key) →
      s.world.singletonEntities.lookup key = none → ∀ e, ¬ s.Awaited C key e
  | .world (.output output deferInserts) =>
      (s.world.takeDerivedOutputs output.owner).2.ClaimsFree C (s.Awaited C) output.owner
        (output.immediate deferInserts)
  | .world (.commands o commands) => s.world.ClaimsFree C (s.Awaited C) o commands
  | _ => True

/-- Nothing that has been accepted, and no command buffer, is refused. -/
structure NeverPanics (C : Components α) (s : Intake α) : Prop where
  inputs : ∀ commands ∈ s.inputs, s.world.applyBase C commands ≠ none
  buffers : ∀ o commands, (∀ c ∈ commands, c.Routed C) → s.world.applyCommands C o commands ≠ none
  outputs : ∀ output deferInserts, (∀ c ∈ output.commands, c.Routed C) →
    s.world.applyOutput C output deferInserts ≠ none
  flush : s.world.flushDerivedFrom C ≠ none

/-- All that is awaited under a key is awaited on one entity, where it may be written. -/
structure Fulfillable (C : Components α) (s : Intake α) : Prop where
  ready : s.world.Ready (s.Awaited C)
  unique : ∀ key e e', s.Awaited C key e → s.Awaited C key e' → e = e'
  anchored : s.world.Anchored C

/-- Applying an input writes what it awaits, and leaves the rest ready. -/
theorem applyBase_spec {awaited : TypeId → Entity → Prop}
    (hunique : ∀ key e e', awaited key e → awaited key e' → e = e') :
    ∀ {commands : List (BaseCommand α)} {w : World α}, w.Ready awaited → w.Anchored C →
      (∀ key e, Awaits C commands key e → awaited key e) →
      ∃ w', w.applyBase C commands = some w' ∧ w'.Ready awaited ∧ w'.Anchored C
  | [], w, h, hw, _ => ⟨w, rfl, h, hw⟩
  | c :: commands, w, h, hw, hawaited => by
    have hrest : ∀ key e, Awaits C commands key e → awaited key e :=
      fun key e ⟨c', hc', hinsert⟩ => hawaited key e ⟨c', List.mem_cons_of_mem _ hc', hinsert⟩
    obtain ⟨u, hu, hready, hanchored⟩ :
        ∃ u, c.apply C w = some u ∧ u.Ready awaited ∧ u.Anchored C := by
      cases c with
      | insert t e v =>
        have hmarker : ∀ key, C.singletonKey t = some key → awaited key e := fun key hkey =>
          hawaited key e ⟨_, List.mem_cons_self, t, v, rfl, hkey⟩
        obtain ⟨u, hu, hanchored, hlookups⟩ := World.insert_spec w v none hw fun key hkey =>
          h key e (hmarker key hkey)
        refine ⟨u, hu, fun key e' hkey => ?_, hanchored⟩
        rw [hlookups]
        split_ifs with hown
        · rw [hunique key e' e hkey (hmarker key hown)]
          exact Or.inr rfl
        · exact h key e' hkey
      | removeComponent t e =>
        have hpending := (World.closed_samePending C).removeComponent w t e none nofun
        exact ⟨_, rfl, h.clears (World.clears_removeComponent w t e none),
          fun p hp => hw p (hpending ▸ hp)⟩
      | despawn e =>
        have hpending := (World.closed_samePending C).removeEntity w e trivial
        exact ⟨_, rfl, h.clears (World.clears_removeEntity w e), fun p hp => hw p (hpending ▸ hp)⟩
    obtain ⟨w', hw', hfinal⟩ := applyBase_spec hunique hready hanchored hrest
    exact ⟨w', Option.bind_eq_some_iff.mpr ⟨u, hu, hw'⟩, hfinal⟩

theorem Fulfillable.neverPanics (h : s.Fulfillable C) : NeverPanics C s where
  inputs commands hmem hnone := by
    obtain ⟨w', hw', -⟩ := applyBase_spec h.unique h.ready h.anchored
      fun key e hawaits => ⟨commands, hmem, hawaits⟩
    rw [hnone] at hw'
    cases hw'
  buffers o commands hrouted hnone := by
    obtain ⟨w', hw', -⟩ := World.exists_applyCommands o h.anchored hrouted
    rw [hnone] at hw'
    cases hw'
  outputs output deferInserts hrouted hnone := by
    have htaken : (s.world.takeDerivedOutputs output.owner).2.Anchored C := h.anchored
    have himmediate : ∀ c ∈ output.immediate deferInserts, c.Routed C :=
      fun c hc => hrouted c (mem_immediate hc)
    obtain ⟨applied, happly, happlied⟩ :=
      World.exists_applyCommands output.owner htaken himmediate
    obtain ⟨flushed, hflush, -⟩ := World.flushDerivedFrom_spec happlied
    unfold World.applyOutput at hnone
    change ((s.world.takeDerivedOutputs output.owner).2.applyCommands C output.owner
      (output.immediate deferInserts)).bind _ = none at hnone
    rw [happly, Option.bind_some] at hnone
    change (applied.flushDerivedFrom C).bind _ = none at hnone
    rw [hflush] at hnone
    cases hnone
  flush hnone := by
    obtain ⟨w', hw', -⟩ := World.flushDerivedFrom_spec h.anchored
    rw [hnone] at hw'
    cases hw'

theorem Fulfillable.of_subset (h : s.Fulfillable C) (hworld : s'.world = s.world)
    (hinputs : ∀ key e, s'.Awaited C key e → s.Awaited C key e) : s'.Fulfillable C where
  ready key e hawaited := by
    rw [hworld]
    exact h.ready key e (hinputs key e hawaited)
  unique key e e' he he' := h.unique key e e' (hinputs key e he) (hinputs key e' he')
  anchored := hworld ▸ h.anchored

theorem Fulfillable.insert (h : s.Fulfillable C) {bundle : List (TypeId × Value α)}
    {target : Option Entity} {waits : Bool} (hrouted : Routed C (.insert bundle target waits))
    (hunclaimed : Unclaimed C s (.insert bundle target waits)) {e : Entity} {w' : World α}
    (ht : insertTarget C s.world bundle target = some (e, w')) :
    (({ s with world := w' } : Intake α).submit (queueBundle e bundle) waits).Fulfillable C := by
  obtain ⟨-, hpending, hregistry⟩ := insertTarget_spec ht
  have hanchored : w'.Anchored C := fun p hp => h.anchored p (hpending ▸ hp)
  have hawaited : ∀ key e',
      (({ s with world := w' } : Intake α).submit (queueBundle e bundle) waits).Awaited C key e' ↔
        s.Awaited C key e' ∨ (e' = e ∧ ∃ p ∈ bundle, C.singletonKey p.1 = some key) :=
    fun key e' => awaited_submit.trans (or_congr_right awaits_queueBundle)
  rcases hregistry with ⟨hsame, hplain⟩ | ⟨key, rfl, hbundle, hfree, hlookups⟩
  · have hnone : ∀ p ∈ bundle, C.singletonKey p.1 = none := by
      cases target with
      | none => exact hplain rfl
      | some e' => exact hrouted
    refine Fulfillable.of_subset (s := { s with world := w' }) ⟨?_, h.unique, hanchored⟩ submit_world ?_
    · exact h.ready.clears fun key => Or.inr (congrArg (AList.lookup key) hsame)
    · intro key e' hkey
      refine ((hawaited key e').mp hkey).resolve_right ?_
      rintro ⟨-, p, hp, hown⟩
      rw [hnone p hp] at hown
      cases hown
  · obtain ⟨-, honly⟩ := World.markers_of_bundleSingletonKey hbundle
    have hunclaimed : s.world.singletonEntities.lookup key = none →
        ∀ e, ¬ s.Awaited C key e := hunclaimed key hbundle
    -- what was awaited under the bundle's key is awaited where the bundle goes
    have hagrees : ∀ e', s.Awaited C key e' → e' = e := by
      intro e' hkey
      rcases hfree with hnone | hat
      · exact absurd hkey (hunclaimed hnone e')
      · rcases h.ready key e' hkey with hnone | hat'
        · rw [hat] at hnone
          cases hnone
        · rw [hat] at hat'
          exact (Option.some.inj hat').symm
    have hbundled : ∀ own e', (e' = e ∧ ∃ p ∈ bundle, C.singletonKey p.1 = some own) →
        own = key ∧ e' = e := fun own e' ⟨he, p, hp, hown⟩ => ⟨honly p hp own hown, he⟩
    constructor
    · intro own e' hown
      rw [submit_world]
      rw [hlookups]
      rcases (hawaited own e').mp hown with hold | hnew
      · split_ifs with hkey
        · rw [hagrees e' (hkey ▸ hold)]
          exact Or.inr rfl
        · exact h.ready own e' hold
      · obtain ⟨rfl, rfl⟩ := hbundled own e' hnew
        rw [if_pos rfl]
        exact Or.inr rfl
    · intro own e₁ e₂ he₁ he₂
      rcases (hawaited own e₁).mp he₁ with hold₁ | hnew₁
      · rcases (hawaited own e₂).mp he₂ with hold₂ | hnew₂
        · exact h.unique own e₁ e₂ hold₁ hold₂
        · obtain ⟨rfl, rfl⟩ := hbundled own e₂ hnew₂
          exact hagrees e₁ hold₁
      · obtain ⟨rfl, rfl⟩ := hbundled own e₁ hnew₁
        rcases (hawaited own e₂).mp he₂ with hold₂ | hnew₂
        · exact (hagrees e₂ hold₂).symm
        · exact (hbundled own e₂ hnew₂).2.symm
    · rw [submit_world]
      exact hanchored

theorem Fulfillable.world (h : s.Fulfillable C) {op : WorldOp α}
    (hrouted : Routed C (.world op)) (hunclaimed : Unclaimed C s (.world op))
    (hdirect : op.direct = true) {w' : World α} (ha : s.world.apply C op = some w') :
    w'.Ready (s.Awaited C) ∧ w'.Anchored C := by
  have hsame : ∀ {w' : World α}, World.SameMarkers C s.world w' →
      w'.pendingDerivedFrom = s.world.pendingDerivedFrom →
        w'.Ready (s.Awaited C) ∧ w'.Anchored C :=
    fun hs hp => ⟨h.ready.clears hs.clears, fun p hmem => h.anchored p (hp ▸ hmem)⟩
  cases op with
  | base c =>
    cases c with
    | insert t e v => cases hdirect
    | removeComponent t e =>
      cases ha
      have hpending := (World.closed_samePending C).removeComponent s.world t e none nofun
      exact ⟨h.ready.clears (World.clears_removeComponent s.world t e none),
        fun p hp => h.anchored p (hpending ▸ hp)⟩
    | despawn e =>
      cases ha
      have hpending := (World.closed_samePending C).removeEntity s.world e trivial
      exact ⟨h.ready.clears (World.clears_removeEntity s.world e),
        fun p hp => h.anchored p (hpending ▸ hp)⟩
  | flush =>
    obtain ⟨u, hu, hanchored, hlookups⟩ := World.flushDerivedFrom_spec h.anchored
    cases hu.symm.trans ha
    exact ⟨h.ready.clears fun key => Or.inr (hlookups key), hanchored⟩
  | output output deferInserts =>
    obtain ⟨applied, flushed, happly, hflush, rfl⟩ := exists_of_applyOutput ha
    have htaken : (s.world.takeDerivedOutputs output.owner).2.Ready (s.Awaited C) := h.ready
    obtain ⟨hready, hanchored⟩ := htaken.applyCommands h.anchored
      (fun c hc => hrouted c (mem_immediate hc)) hunclaimed happly
    obtain ⟨u, hu, hflushed, hlookups⟩ := World.flushDerivedFrom_spec hanchored
    cases hu.symm.trans hflush
    have hfinished : (flushed.finishDerivedSpawns output.owner).Ready (s.Awaited C) :=
      hready.clears fun key => Or.inr (hlookups key)
    have hpending : (World.removeDerivedStale C (flushed.finishDerivedSpawns output.owner)
        output.owner (s.world.outputs output.owner)).pendingDerivedFrom = flushed.pendingDerivedFrom :=
      (World.closed_samePending C).removeDerivedStale (flushed.finishDerivedSpawns output.owner)
        _ fun _ _ => trivial
    exact ⟨hfinished.clears (World.clears_removeDerivedStale _ output.owner _),
      fun p hp => hflushed p (hpending ▸ hp)⟩
  | commands o commands => exact h.ready.applyCommands h.anchored hrouted hunclaimed ha
  | update t e v =>
    cases ha
    refine hsame (World.sameMarkers_updateComponent s.world t e v) ?_
    unfold World.updateComponent
    split_ifs
    · exact World.restampEntry_pendingDerivedFrom ..
    · exact World.restampEntry_pendingDerivedFrom ..
  | writeInPlace t e v =>
    cases ha
    refine hsame (World.sameMarkers_writeInPlace s.world t e v) ?_
    unfold World.writeInPlace
    split
    · rfl
    · rfl
  | reconcileWritten writes =>
    cases ha
    exact hsame (World.sameMarkers_reconcileWritten s.world writes)
      (World.reconcileWritten_pendingDerivedFrom ..)
  | retireTouched keys systems =>
    cases ha
    have hpending := World.retireOwners_pendingDerivedFrom (C := C)
      (s.world.ownersTouchedBy keys systems) s.world
    exact ⟨h.ready.clears (World.clears_retireOwners _ s.world),
      fun p hp => h.anchored p (hpending ▸ hp)⟩
  | retireOwner o =>
    cases ha
    have hpending := World.removeDerivedOwned_pendingDerivedFrom (C := C) s.world o
    exact ⟨h.ready.clears (World.clears_removeDerivedOwned s.world o),
      fun p hp => h.anchored p (hpending ▸ hp)⟩
  | drainRemovals => cases ha; exact hsame (.of_stores rfl rfl) rfl
  | rollPlanEpoch =>
    cases ha
    unfold World.maybeRollPlanEpoch
    split_ifs
    · exact hsame (.of_stores rfl rfl) rfl
    · exact hsame (.of_stores rfl rfl) rfl
  | spawnEmpty => cases ha; exact hsame (.of_stores rfl rfl) rfl
  | reserveSingleton key => cases hdirect

/-- A routed step that claims no awaited key leaves every accepted input applicable. -/
theorem Fulfillable.step (h : s.Fulfillable C) {op : IntakeOp α} (hrouted : Routed C op)
    (hunclaimed : Unclaimed C s op) (hs : (machine C).step s op = some s') : s'.Fulfillable C := by
  have hremoval : ∀ (c : BaseCommand α) waits, (∀ t e v, c ≠ .insert t e v) →
      (s.submit [c] waits).Fulfillable C := fun c waits hc =>
    h.of_subset submit_world fun key e hawaited =>
      (awaited_submit.mp hawaited).resolve_right (not_awaits_of_removal hc)
  cases op with
  | insert bundle target waits =>
    obtain ⟨⟨e, w'⟩, ht, heq⟩ := Option.bind_eq_some_iff.mp hs
    cases heq
    exact h.insert hrouted hunclaimed ht
  | remove t e waits => cases hs; exact hremoval _ waits nofun
  | despawn e waits => cases hs; exact hremoval _ waits nofun
  | deliver i =>
    obtain ⟨commands, hi, heq⟩ := Option.bind_eq_some_iff.mp hs
    cases heq
    refine h.of_subset rfl fun key e ⟨input, hmem, hawaits⟩ => ⟨input, ?_, hawaits⟩
    exact (mem_inputs_deliver hi).mp hmem
  | abandon i =>
    obtain ⟨commands, hi, heq⟩ := Option.bind_eq_some_iff.mp hs
    cases heq
    refine h.of_subset rfl fun key e ⟨input, hmem, hawaits⟩ => ⟨input, ?_, hawaits⟩
    exact ((List.Sublist.refl _).append (List.eraseIdx_sublist _ _)).subset hmem
  | apply i =>
    obtain ⟨commands, hi, hs⟩ := Option.bind_eq_some_iff.mp hs
    obtain ⟨w', ha, heq⟩ := Option.bind_eq_some_iff.mp hs
    cases heq
    have hmem : commands ∈ s.inputs := List.mem_append_left _ (List.mem_of_getElem? hi)
    obtain ⟨u, hu, hready, hanchored⟩ := applyBase_spec h.unique h.ready h.anchored
      fun key e hawaits => ⟨commands, hmem, hawaits⟩
    cases hu.symm.trans ha
    refine Fulfillable.of_subset (s := { s with world := w' }) ⟨hready, h.unique, hanchored⟩ rfl ?_
    rintro key e ⟨input, hmem, hawaits⟩
    refine ⟨input, ?_, hawaits⟩
    exact ((List.eraseIdx_sublist _ _).append (List.Sublist.refl _)).subset hmem
  | world op =>
    change (if op.direct = true then _ else none) = some s' at hs
    split_ifs at hs with hdirect
    obtain ⟨w', ha, heq⟩ := Option.bind_eq_some_iff.mp hs
    cases heq
    obtain ⟨hready, hanchored⟩ := h.world hrouted hunclaimed hdirect ha
    exact ⟨hready, h.unique, hanchored⟩

theorem fulfillable_of_init (h : (machine C).init s) : s.Fulfillable C := by
  obtain ⟨⟨schema, hworld⟩, hqueued, hwaiting⟩ := h
  have hnone : ∀ key e, ¬ s.Awaited C key e := by
    rintro key e ⟨input, hmem, -⟩
    rw [inputs, hqueued, hwaiting] at hmem
    cases hmem
  constructor
  · exact fun key e hawaited => absurd hawaited (hnone key e)
  · exact fun key e e' he _ => absurd he (hnone key e)
  · intro p hp
    rw [hworld] at hp
    cases hp

/-- In every run of routed steps that claim no awaited key, no accepted input and no command
buffer is refused. -/
theorem reachable_neverPanics
    (h : (machine C).ReachableUnder (fun s op => Routed C op ∧ Unclaimed C s op) s) :
    NeverPanics C s := by
  have hfulfillable := h.invariant (Fulfillable C) (fun _ => fulfillable_of_init)
    fun _ _ _ hinv hallowed hs => hinv.step hallowed.1 hallowed.2 hs
  exact hfulfillable.neverPanics

/-- Two callers insert the same singleton bundle before any of the inputs is applied. -/
def sharing : List (IntakeOp Nat) :=
  [.insert [(5, .data 0), (6, .data 7)] none false, .insert [(5, .data 0), (6, .data 8)] none true,
    .deliver 0]

def shared : Intake Nat :=
  ((machine marking).run ⟨World.new, [], []⟩ sharing).getD ⟨World.new, [], []⟩

theorem shared_neverPanics : shared.inputs.length = 2 ∧ NeverPanics marking shared := by
  have hrun : (machine marking).run ⟨World.new, [], []⟩ sharing = some shared := rfl
  have hallowed : (machine marking).Allows (fun s op => Routed marking op ∧ Unclaimed marking s op)
      ⟨World.new, [], []⟩ sharing := by
    refine ⟨⟨trivial, fun key _ _ e => ?_⟩, fun s hs => ⟨⟨trivial, fun key hkey hnone => ?_⟩,
      fun _ _ => ⟨⟨trivial, trivial⟩, fun _ _ => trivial⟩⟩⟩
    · rintro ⟨input, hmem, -⟩
      cases hmem
    · cases hs
      cases hkey
      cases hnone
  exact ⟨rfl, reachable_neverPanics (.run (.init ⟨⟨none, rfl⟩, rfl, rfl⟩) hallowed hrun)⟩

/-- An input for the entity of a singleton is accepted, the entity is cleaned up, and another
caller's bundle claims the key. -/
def stranding : List (IntakeOp Nat) :=
  [.insert [(5, .data 0), (6, .data 7)] none false, .apply 0,
    .insert [(5, .data 0), (6, .data 8)] none false, .world (.base (.despawn 0)),
    .insert [(5, .data 0), (6, .data 9)] none false]

def stranded : Intake Nat :=
  ((machine marking).run ⟨World.new, [], []⟩ stranding).getD ⟨World.new, [], []⟩

/-- The input of the earlier caller is then refused with a panic. -/
theorem stranded_input_panics :
    (machine marking).ReachableUnder (fun _ op => Routed marking op) stranded ∧
      stranded.queued = [queueBundle 0 [(5, .data 0), (6, .data 8)],
        queueBundle 1 [(5, .data 0), (6, .data 9)]] ∧
      stranded.world.applyBase marking (queueBundle 0 [(5, .data 0), (6, .data 8)]) = none ∧
      ¬ NeverPanics marking stranded := by
  have hrun : (machine marking).run ⟨World.new, [], []⟩ stranding = some stranded := rfl
  have hrouted : (machine marking).Allows (fun _ op => Routed marking op) ⟨World.new, [], []⟩
      stranding :=
    ⟨trivial, fun _ _ => ⟨trivial, fun _ _ => ⟨trivial, fun _ _ => ⟨trivial, fun _ _ =>
      ⟨trivial, fun _ _ => trivial⟩⟩⟩⟩⟩
  have hpanics : stranded.world.applyBase marking
      (queueBundle 0 [(5, .data 0), (6, .data 8)]) = none := rfl
  refine ⟨.run (.init ⟨⟨none, rfl⟩, rfl, rfl⟩) hrouted hrun, rfl, hpanics, fun hnever => ?_⟩
  exact hnever.inputs _ (List.mem_append_left _ List.mem_cons_self) hpanics

end Intake
end Porridge
