import Porridge.Intake
import Porridge.World.Registry

/-! The singleton registry over every run: which steps leave it naming an entity without its
marker. -/
namespace Porridge

variable {α : Type} {C : Components α}

namespace Intake

variable {s s' : Intake α}

/-- The registry maps a key to an entity exactly where its marker stands, and it stands once. -/
structure RegistryExact (C : Components α) (w : World α) : Prop where
  registered_iff : ∀ key e, w.singletonEntities.lookup key = some e ↔ w.Marked C key e
  unique : ∀ key e e', w.Marked C key e → w.Marked C key e' → e = e'

/-- The step sweeps no marker: a run reaches each marker its owner held, no retired invocation
holds one, and no caller leaves a registration behind that only its own input would fulfil. -/
def KeepsMarkers (C : Components α) (s : Intake α) : IntakeOp α → Prop
  | .world (.output output deferInserts) => ∀ p ∈ s.world.outputs output.owner,
      C.singletonKey p.1 ≠ none → (output.immediate deferInserts).any (·.reaches p) = true
  | .world (.retireTouched keys systems) => ∀ o ∈ s.world.ownersTouchedBy keys systems,
      ∀ p ∈ s.world.outputs o, C.singletonKey p.1 = none
  | .world (.retireOwner o) => ∀ p ∈ s.world.outputs o, C.singletonKey p.1 = none
  | .abandon i => ∀ commands ∈ s.waiting[i]?, ∀ key e, Awaits C commands key e →
      s.world.singletonEntities.lookup key = some e → s.world.Marked C key e ∨
        ∃ input ∈ s.queued ++ s.waiting.eraseIdx i, Awaits C input key e
  | _ => True

/-- An input fulfils what it awaits. -/
theorem registered_applyBase {expected : TypeId → Entity → Prop} (hkeys : C.DistinctKeys)
    {commands : List (BaseCommand α)} {w w' : World α}
    (h : w.Registered C fun key e => expected key e ∨ Awaits C commands key e)
    (ha : w.applyBase C commands = some w') : w'.Registered C expected := by
  induction commands generalizing w with
  | nil =>
    have heq : w = w' := Option.some.inj ha
    refine heq ▸ h.mono fun key e hexpected => hexpected.resolve_right ?_
    rintro ⟨c, hc, -⟩
    cases hc
  | cons c commands ih =>
    obtain ⟨u, hu, hrest⟩ := Option.bind_eq_some_iff.mp ha
    have hsplit : ∀ key e, Awaits C (c :: commands) key e →
        Awaits C commands key e ∨ ∃ t v, c = .insert t e v ∧ C.singletonKey t = some key := by
      rintro key e ⟨c', hc', hinsert⟩
      rcases List.mem_cons.mp hc' with rfl | hc'
      · exact Or.inr hinsert
      · exact Or.inl ⟨c', hc', hinsert⟩
    refine ih ?_ hrest
    cases c with
    | insert t e v =>
      refine World.Registered.insert (h.mono fun key e' hexpected => ?_) hu
      rcases hexpected with hexpected | hawaits
      · exact Or.inl (Or.inl hexpected)
      · rcases hsplit key e' hawaits with hawaits | ⟨t', v', heq, hkey⟩
        · exact Or.inl (Or.inr hawaits)
        · cases heq
          exact Or.inr ⟨hkey, rfl⟩
    | removeComponent t e =>
      cases hu
      refine World.Registered.removeComponent (h.mono fun key e' hexpected => ?_) hkeys t e none
      exact hexpected.imp_right fun hawaits =>
        (hsplit key e' hawaits).resolve_right fun ⟨_, _, heq, _⟩ => nomatch heq
    | despawn e =>
      cases hu
      refine World.Registered.removeEntity (h.mono fun key e' hexpected => ?_) hkeys e
      exact hexpected.imp_right fun hawaits =>
        (hsplit key e' hawaits).resolve_right fun ⟨_, _, heq, _⟩ => nomatch heq

theorem registered_world {expected : TypeId → Entity → Prop} (hkeys : C.DistinctKeys)
    (h : s.world.Registered C expected) {op : WorldOp α} {w' : World α}
    (hkeeps : KeepsMarkers C s (.world op)) (hdirect : op.direct = true)
    (ha : s.world.apply C op = some w') : w'.Registered C expected := by
  cases op with
  | base c =>
    cases c with
    | insert t e v => cases hdirect
    | removeComponent t e => cases ha; exact h.removeComponent hkeys t e none
    | despawn e => cases ha; exact h.removeEntity hkeys e
  | flush => exact h.flushDerivedFrom ha
  | output output deferInserts => exact h.applyOutput hkeys hkeeps ha
  | commands o commands => exact h.applyCommands hkeys ha
  | update t e v => cases ha; exact h.same (World.sameMarkers_updateComponent s.world t e v)
  | writeInPlace t e v => cases ha; exact h.same (World.sameMarkers_writeInPlace s.world t e v)
  | reconcileWritten writes =>
    cases ha
    exact h.same (World.sameMarkers_reconcileWritten s.world writes)
  | retireTouched keys systems => cases ha; exact h.retireOwners _ hkeeps
  | retireOwner o => cases ha; exact h.removeDerivedOwned hkeeps
  | drainRemovals => cases ha; exact h.same (.of_stores rfl rfl)
  | rollPlanEpoch =>
    cases ha
    refine h.same ?_
    unfold World.maybeRollPlanEpoch
    split_ifs
    · exact .of_stores rfl rfl
    · exact .of_stores rfl rfl
  | spawnEmpty => cases ha; exact h.same (.of_stores rfl rfl)
  | reserveSingleton key => cases hdirect

theorem registered_insert {bundle : List (TypeId × Value α)} {target : Option Entity}
    {waits : Bool} (h : s.world.Registered C (s.Awaited C)) {e : Entity} {w' : World α}
    (ht : insertTarget C s.world bundle target = some (e, w')) :
    (({ s with world := w' } : Intake α).submit (queueBundle e bundle) waits).world.Registered C
      ((({ s with world := w' } : Intake α).submit (queueBundle e bundle) waits).Awaited C) := by
  obtain ⟨hstores, -, hregistry⟩ := insertTarget_spec ht
  have hawaited : ∀ key e', s.Awaited C key e' →
      (({ s with world := w' } : Intake α).submit (queueBundle e bundle) waits).Awaited C key e' :=
    fun key e' hawaited => awaited_submit.mpr (Or.inl hawaited)
  rw [submit_world]
  rcases hregistry with ⟨hsame, -⟩ | ⟨key, -, hbundle, hfree, hlookups⟩
  · exact (h.mono hawaited).same (.of_stores hstores hsame)
  · have hmarked : ∀ own e', w'.Marked C own e' ↔ s.world.Marked C own e' := fun own e' => by
      simp only [World.Marked, World.has, World.cell?_congr hstores]
    constructor
    · intro own e' hcarries
      have hlookup := h.registered own e' ((hmarked own e').mp hcarries)
      rw [hlookups]
      split_ifs with hown
      · subst hown
        rw [hlookup] at hfree
        exact (hfree.resolve_left (by simp)).symm
      · exact hlookup
    · intro own e' hlookup
      rw [hlookups] at hlookup
      split_ifs at hlookup with hown
      · subst hown
        refine Or.inr (awaited_submit.mpr (Or.inr (awaits_queueBundle.mpr ⟨?_, ?_⟩)))
        · exact (Option.some.inj hlookup).symm
        · exact (World.markers_of_bundleSingletonKey hbundle).1
      · exact (h.marked own e' hlookup).imp (hmarked own e').mpr (hawaited own e')

/-- A step that sweeps no marker keeps every registration marked or awaited. -/
theorem registered_step (hkeys : C.DistinctKeys) (h : s.world.Registered C (s.Awaited C))
    {op : IntakeOp α} (hkeeps : KeepsMarkers C s op) (hs : (machine C).step s op = some s') :
    s'.world.Registered C (s'.Awaited C) := by
  have hsubmit : ∀ commands waits,
      (s.submit commands waits).world.Registered C ((s.submit commands waits).Awaited C) := by
    intro commands waits
    rw [submit_world]
    exact h.mono fun key e hawaited => awaited_submit.mpr (Or.inl hawaited)
  cases op with
  | insert bundle target waits =>
    obtain ⟨⟨e, w'⟩, ht, heq⟩ := Option.bind_eq_some_iff.mp hs
    cases heq
    exact registered_insert h ht
  | remove t e waits => cases hs; exact hsubmit _ _
  | despawn e waits => cases hs; exact hsubmit _ _
  | deliver i =>
    obtain ⟨commands, hi, heq⟩ := Option.bind_eq_some_iff.mp hs
    cases heq
    refine h.mono fun key e ⟨input, hmem, hawaits⟩ => ⟨input, ?_, hawaits⟩
    exact (mem_inputs_deliver hi).mpr hmem
  | abandon i =>
    obtain ⟨commands, hi, heq⟩ := Option.bind_eq_some_iff.mp hs
    cases heq
    refine ⟨h.registered, fun key e hlookup => ?_⟩
    rcases h.marked key e hlookup with hmarked | ⟨input, hmem, hawaits⟩
    · exact Or.inl hmarked
    · have hsplit := (mem_inputs_deliver (s := s) hi).mpr hmem
      rw [List.append_assoc, List.singleton_append, List.mem_append, List.mem_cons] at hsplit
      rcases hsplit with hqueued | rfl | hwaiting
      · exact Or.inr ⟨input, List.mem_append_left _ hqueued, hawaits⟩
      · exact hkeeps input hi key e hawaits hlookup
      · exact Or.inr ⟨input, List.mem_append_right _ hwaiting, hawaits⟩
  | apply i =>
    obtain ⟨commands, hi, hs⟩ := Option.bind_eq_some_iff.mp hs
    obtain ⟨w', ha, heq⟩ := Option.bind_eq_some_iff.mp hs
    cases heq
    refine registered_applyBase hkeys (h.mono fun key e ⟨input, hmem, hawaits⟩ => ?_) ha
    obtain ⟨hlt, rfl⟩ := List.getElem?_eq_some_iff.mp hi
    have hperm := List.getElem_cons_eraseIdx_perm hlt
    rcases List.mem_append.mp hmem with hqueued | hwaiting
    · rcases List.mem_cons.mp (hperm.mem_iff.mpr hqueued) with rfl | hqueued
      · exact Or.inr hawaits
      · exact Or.inl ⟨input, List.mem_append_left _ hqueued, hawaits⟩
    · exact Or.inl ⟨input, List.mem_append_right _ hwaiting, hawaits⟩
  | world op =>
    change (if op.direct = true then _ else none) = some s' at hs
    split_ifs at hs with hdirect
    obtain ⟨w', ha, heq⟩ := Option.bind_eq_some_iff.mp hs
    cases heq
    exact registered_world hkeys h hkeeps hdirect ha

theorem registered_of_init (h : (machine C).init s) : s.world.Registered C (s.Awaited C) := by
  obtain ⟨⟨schema, hworld⟩, -, -⟩ := h
  rw [hworld]
  constructor
  · rintro key e ⟨t, -, hhas⟩
    have hnone : (World.ofSchema schema : World α).has t e = false := rfl
    rw [hnone] at hhas
    cases hhas
  · intro key e hlookup
    have hnone : (World.ofSchema schema : World α).singletonEntities.lookup key = none := rfl
    rw [hnone] at hlookup
    cases hlookup

/-- In every run whose steps sweep no marker, the registry and the markers agree whenever no
input is outstanding. -/
theorem reachable_registryExact (hkeys : C.DistinctKeys)
    (h : (machine C).ReachableUnder (KeepsMarkers C) s) (hidle : s.inputs = []) :
    RegistryExact C s.world := by
  have hregistered := h.invariant (fun s => s.world.Registered C (s.Awaited C))
    (fun _ => registered_of_init) fun _ _ _ hinv hkeeps hs => registered_step hkeys hinv hkeeps hs
  have hnone : ∀ key e, ¬ s.Awaited C key e := by
    rintro key e ⟨input, hmem, -⟩
    rw [hidle] at hmem
    cases hmem
  constructor
  · intro key e
    constructor
    · exact fun hlookup => (hregistered.marked key e hlookup).resolve_right (hnone key e)
    · exact hregistered.registered key e
  · exact fun key e e' he he' => hregistered.unique he he'

/-- Component 5 is the marker of the singleton key 50; the others only hold data. -/
def marking : Components Nat where
  tracked t := t != 5
  role t := if t = 5 then .singleton 50 else .plain
  fingerprint _ _ := none
  target _ _ := 0
  inverse_role t inverse h := by
    split_ifs at h

theorem eq_of_marker {t : TypeId} (h : marking.singletonKey t ≠ none) : t = 5 := by
  by_contra hne
  exact h (by simp [Components.singletonKey, marking, hne])

theorem marking_distinctKeys : marking.DistinctKeys := by
  intro t t' key ht ht'
  have hfirst : t = 5 := eq_of_marker (by simp [ht])
  have hsecond : t' = 5 := eq_of_marker (by simp [ht'])
  rw [hfirst, hsecond]

/-- A system spawns a singleton bundle with component 6. -/
def spawning : WorldOp Nat := .output ⟨⟨0, []⟩, [.spawn [(5, .data 0), (6, .data 7)] 0]⟩ false

/-- The invocation has spawned a singleton bundle and spawned it again. -/
def respawned : Intake Nat :=
  ((machine marking).run ⟨World.new, [], []⟩
    [.world .spawnEmpty, .world spawning, .world spawning]).getD ⟨World.new, [], []⟩

theorem respawned_registryExact : RegistryExact marking respawned.world := by
  have hrun : (machine marking).run ⟨World.new, [], []⟩
      [.world .spawnEmpty, .world spawning, .world spawning] = some respawned := rfl
  have hallowed : (machine marking).Allows (KeepsMarkers marking) ⟨World.new, [], []⟩
      [.world .spawnEmpty, .world spawning, .world spawning] := by
    refine ⟨trivial, fun s hs => ⟨?_, fun s' hs' => ⟨?_, fun _ _ => trivial⟩⟩⟩
    · cases hs
      exact fun p hp => nomatch hp
    · cases hs
      cases hs'
      intro p _ hmarker
      show ([(5, Value.data 0), (6, Value.data 7)].any (·.1 == p.1) || false) = true
      rw [eq_of_marker hmarker]
      rfl
  exact reachable_registryExact marking_distinctKeys
    (Machine.ReachableUnder.run (.init ⟨⟨none, rfl⟩, rfl, rfl⟩) hallowed hrun) rfl

/-- The invocation has spawned a singleton bundle, and has then emitted nothing. -/
def swept : Intake Nat :=
  ((machine marking).run ⟨World.new, [], []⟩
    [.world .spawnEmpty, .world spawning, .world (.output ⟨⟨0, []⟩, []⟩ false)]).getD
      ⟨World.new, [], []⟩

/-- The sweep of a derived marker leaves its registration behind. -/
theorem sweep_leaves_registration :
    (machine marking).Reachable swept ∧ swept.inputs = [] ∧
      swept.world.singletonEntities.lookup 50 = some 0 ∧
      (∀ e, ¬ swept.world.Marked marking 50 e) ∧ ¬ RegistryExact marking swept.world := by
  have hrun : (machine marking).run ⟨World.new, [], []⟩
      [.world .spawnEmpty, .world spawning, .world (.output ⟨⟨0, []⟩, []⟩ false)] =
        some swept := rfl
  have hlookup : swept.world.singletonEntities.lookup 50 = some 0 := by decide
  have hunmarked : ∀ e, ¬ swept.world.Marked marking 50 e := by
    rintro e ⟨t, ht, hhas⟩
    have hmarker : t = 5 := marking_distinctKeys t 5 50 ht rfl
    subst hmarker
    have hnone : swept.world.has 5 e = false := rfl
    rw [hnone] at hhas
    cases hhas
  refine ⟨Machine.Reachable.run (.init ⟨⟨none, rfl⟩, rfl, rfl⟩) hrun, rfl, hlookup, hunmarked, ?_⟩
  exact fun hexact => hunmarked 0 ((hexact.registered_iff 50 0).mp hlookup)

end Intake
end Porridge
