import Porridge.World.Emitted
import Porridge.World.Restated

/-! Applying an output a second time restates it. -/
namespace Porridge

variable {α : Type} {C : Components α}

/-- A value that a component of type `t` can restate: tracked, with a fingerprint, no captured
anchors and nothing that the engine maintains. -/
structure Components.Restatable (C : Components α) (t : TypeId) (v : Value α) : Prop where
  tracked : C.tracked t = true
  fingerprinted : (C.fingerprint t v).isSome = true
  maintained : ¬ C.IsInverse t
  anchorless : ∀ anchors, v ≠ .derivedFrom anchors

/-- The values an insert or a spawn writes, and where. -/
def Command.puts (C : Components α) (registry : TypeId → Option Entity) :
    Command α → List (TypeId × Entity × Value α)
  | .insert t e v => [(t, e, v)]
  | .spawn bundle reserved =>
    bundle.map fun p => (p.1, spawnEntity C registry bundle reserved, p.2)
  | .removeEntity _ | .removeComponent _ _ => []

/-- The values a buffer of inserts and spawns writes. -/
def putsOf (C : Components α) (registry : TypeId → Option Entity) :
    List (Command α) → List (TypeId × Entity × Value α)
  | [] => []
  | c :: commands => c.puts C registry ++ putsOf C (c.registers C registry) commands

/-- Two writes of one pair write one value. -/
def Agree (puts : List (TypeId × Entity × Value α)) : Prop :=
  ∀ p ∈ puts, ∀ q ∈ puts, p.1 = q.1 → p.2.1 = q.2.1 → p.2.2 = q.2.2

namespace World

variable {w w' u : World α} {o : SystemInvocation} {t t' : TypeId} {e e' : Entity} {v v' : Value α}

/-- The output only inserts and spawns restatable values, one for each pair. -/
structure Repeatable (C : Components α) (w : World α) (output : SystemOutput α) : Prop where
  deferred : ∀ c ∈ output.commands, c.defersAtSettle = true
  restatable : ∀ p ∈ putsOf C w.registry output.commands, C.Restatable p.1 p.2.2
  agree : Agree (putsOf C w.registry output.commands)

def Registers (w w' : World α) : Prop :=
  ∀ key e, w.registry key = some e → w'.registry key = some e

theorem Registers.refl (w : World α) : Registers w w := fun _ _ h => h

theorem Registers.trans (h : Registers w u) (h' : Registers u w') : Registers w w' :=
  fun key e hkey => h' key e (h key e hkey)

section Inserts

/-- An insert at once writes its own cell, and inverses. -/
theorem cell?_insertNow {owner : Option SystemInvocation}
    (h : w.insertNow C t e v owner = some w') (ht : ¬ C.IsInverse t') (e' : Entity) :
    ∃ cell revision, w'.cell? t' e' = if t' = t ∧ e' = e then
      some ⟨cell, v, revision, C.fingerprint t v, owner⟩ else w.cell? t' e' := by
  obtain ⟨u, hu, rfl⟩ := Option.map_eq_some_iff.mp h
  refine ⟨u.nextCell, (u.keptRevision C t e v).getD (u.revision + 1), ?_⟩
  rw [cell?_insertEntry_eq v owner ht, cell?_writeEntry, cell?_congr (registerSingleton_eq hu).1]

theorem registers_insert {owner : Option SystemInvocation}
    (h : w.insert C t e v owner = some w') : Registers w w' := by
  intro key own hkey
  rw [registry_insert h]
  dsimp only
  split_ifs with hmarker
  · rcases insert_cases h with ⟨anchors, hrole, -, -⟩ | ⟨hnow, -⟩
    · rw [Components.singletonKey_of_derivedFrom hrole] at hmarker
      cases hmarker
    · obtain ⟨u, hu, -⟩ := Option.map_eq_some_iff.mp hnow
      have hlookup : w.singletonEntities.lookup key = some own := hkey
      unfold registerSingleton at hu
      simp only [hmarker, hlookup] at hu
      split_ifs at hu with hsame
      rw [hsame]
  · exact hkey

theorem tells_insert (h : w.insert C t e v (some o) = some w') (hr : C.Restatable t v) :
    w'.Tells C o t e v := by
  refine ⟨?_, hr.tracked, hr.fingerprinted, hr.anchorless, fun key hkey => ?_⟩
  · rw [insert_of_anchorless hr.anchorless] at h
    obtain ⟨cell, revision, hcell⟩ := cell?_insertNow h hr.maintained e
    rw [if_pos ⟨rfl, rfl⟩] at hcell
    exact ⟨_, hcell, rfl, rfl, rfl⟩
  · rw [registry_insert h]
    exact if_pos hkey

/-- What is held stays held through an insert that does not write another value there. -/
theorem Tells.insert (hh : w.Tells C o t' e' v') (hr' : C.Restatable t' v')
    (h : w.insert C t e v (some o) = some w') (hr : C.Restatable t v)
    (hagree : t' = t → e' = e → v' = v) : w'.Tells C o t' e' v' := by
  by_cases hpair : t' = t ∧ e' = e
  · obtain ⟨rfl, rfl⟩ := hpair
    rw [hagree rfl rfl]
    exact tells_insert h hr
  · refine ⟨?_, hr'.tracked, hr'.fingerprinted, hr'.anchorless, fun key hkey =>
      registers_insert h key e' (hh.registered key hkey)⟩
    rw [insert_of_anchorless hr.anchorless] at h
    obtain ⟨cell, revision, hcell⟩ := cell?_insertNow h hr'.maintained e'
    rw [if_neg hpair] at hcell
    rw [hcell]
    exact hh.entry

end Inserts

/-- The writes are restatable and agree. -/
def Sound (C : Components α) (puts : List (TypeId × Entity × Value α)) : Prop :=
  (∀ p ∈ puts, C.Restatable p.1 p.2.2) ∧ Agree puts

theorem Sound.left {puts more : List (TypeId × Entity × Value α)} (h : Sound C (puts ++ more)) :
    Sound C puts :=
  ⟨fun p hp => h.1 p (List.mem_append_left _ hp), fun p hp q hq =>
    h.2 p (List.mem_append_left _ hp) q (List.mem_append_left _ hq)⟩

theorem Sound.right {puts more : List (TypeId × Entity × Value α)} (h : Sound C (puts ++ more)) :
    Sound C more :=
  ⟨fun p hp => h.1 p (List.mem_append_right _ hp), fun p hp q hq =>
    h.2 p (List.mem_append_right _ hp) q (List.mem_append_right _ hq)⟩

/-- What a buffer that started in `w₀` has written is held and listed, its registrations stay, and
nothing was held back. -/
structure Written (C : Components α) (o : SystemInvocation) (w₀ : World α)
    (puts : List (TypeId × Entity × Value α)) (w : World α) : Prop where
  holds : ∀ p ∈ puts, w.Tells C o p.1 p.2.1 p.2.2
  lists : ∀ p ∈ puts, w.Lists o (p.1, p.2.1)
  registers : Registers w₀ w
  pending : w.pendingDerivedFrom = w₀.pendingDerivedFrom

section Buffers

variable {w₀ : World α} {puts : List (TypeId × Entity × Value α)}

theorem Written.start (w : World α) : Written C o w [] w :=
  ⟨fun _ hp => (by cases hp), fun _ hp => (by cases hp), .refl w, rfl⟩

theorem Written.insert (hw : Written C o w₀ puts w) (hs : Sound C (puts ++ [(t, e, v)]))
    (h : w.insert C t e v (some o) = some w') : Written C o w₀ (puts ++ [(t, e, v)]) w' := by
  have hlast : (t, e, v) ∈ puts ++ [(t, e, v)] := List.mem_append_right _ List.mem_cons_self
  have hr : C.Restatable t v := hs.1 _ hlast
  have hnow : w.insertNow C t e v (some o) = some w' := by
    rw [← insert_of_anchorless hr.anchorless]
    exact h
  refine ⟨fun p hp => ?_, fun p hp => ?_, hw.registers.trans (registers_insert h),
    (sameBuffers_insertNow hnow).pending.trans hw.pending⟩
  · rcases List.mem_append.mp hp with hold | hnew
    · exact (hw.holds p hold).insert (hs.1 p hp) h hr (hs.2 p hp _ hlast)
    · rw [List.mem_singleton.mp hnew]
      exact tells_insert h hr
  · rcases List.mem_append.mp hp with hold | hnew
    · exact (closed_lists C o (p.1, p.2.1)).insert h trivial trivial (hw.lists p hold)
    · rw [List.mem_singleton.mp hnew]
      exact lists_insertNow hnow

theorem Written.insertBundle : ∀ {bundle : List (TypeId × Value α)} {w : World α}
    {puts : List (TypeId × Entity × Value α)}, Written C o w₀ puts w →
      Sound C (puts ++ bundle.map fun p => (p.1, e, p.2)) →
        w.insertBundle C e bundle o = some w' →
          Written C o w₀ (puts ++ bundle.map fun p => (p.1, e, p.2)) w'
  | [], w, puts, hw, _, h => by
    cases h
    rw [List.map_nil, List.append_nil]
    exact hw
  | p :: bundle, w, puts, hw, hs, h => by
    obtain ⟨u, hu, hrest⟩ := Option.bind_eq_some_iff.mp h
    have hsplit : puts ++ (p :: bundle).map (fun q => (q.1, e, q.2)) =
        (puts ++ [(p.1, e, p.2)]) ++ bundle.map fun q => (q.1, e, q.2) := by simp
    rw [hsplit] at hs ⊢
    exact (hw.insert hs.left hu).insertBundle hs hrest

/-- A change that keeps the stores, the index and the registrations keeps what was written. -/
theorem Written.congr (hw : Written C o w₀ puts w) (hs : w'.stores = w.stores)
    (ho : w'.derivedOwners = w.derivedOwners) (hr : Registers w w')
    (hp : w'.pendingDerivedFrom = w.pendingDerivedFrom) : Written C o w₀ puts w' := by
  refine ⟨fun p hmem => ?_, fun p hmem howner => ?_, hw.registers.trans hr, hp.trans hw.pending⟩
  · obtain ⟨hentry, htracked, hfingerprinted, hanchorless, hregistered⟩ := hw.holds p hmem
    refine ⟨?_, htracked, hfingerprinted, hanchorless, fun key hkey =>
      hr key p.2.1 (hregistered key hkey)⟩
    rw [cell?_congr hs]
    exact hentry
  · rw [outputs_congr ho]
    rw [owner?_congr hs] at howner
    exact hw.lists p hmem howner

/-- A command that inserts or spawns leaves what it writes held, and what was held. -/
theorem Written.command {c : Command α} (hw : Written C o w₀ puts w)
    (hd : c.defersAtSettle = true) (hs : Sound C (puts ++ c.puts C w.registry))
    (h : c.apply C w o = some w') : Written C o w₀ (puts ++ c.puts C w.registry) w' := by
  cases c with
  | insert t e v => exact hw.insert hs h
  | removeEntity x => cases hd
  | removeComponent t e => cases hd
  | spawn bundle reserved =>
    simp only [Command.apply, Option.bind_eq_bind, Option.bind_eq_some_iff] at h
    obtain ⟨key, hkey, h⟩ := h
    obtain ⟨hstores, howners, hpending, hlookups, hentity⟩ := spawnTarget_spec w reserved key
    rw [spawnTarget_entity hkey] at h
    have htarget : Registers w ((w.spawnTarget reserved key).2.recordDerivedSpawn o
        (Command.spawnEntity C w.registry bundle reserved)) := by
      intro own e hown
      refine (hlookups own).trans ?_
      split_ifs with heq
      · have hlookup : w.singletonEntities.lookup own = some e := hown
        rw [hentity own heq, hlookup]
        rfl
      · exact hown
    have hslot : Written C o w₀ puts ((w.spawnTarget reserved key).2.recordDerivedSpawn o
        (Command.spawnEntity C w.registry bundle reserved)) :=
      hw.congr hstores howners htarget hpending
    exact hslot.insertBundle hs h

theorem Written.applyCommands : ∀ {commands : List (Command α)} {w : World α}
    {puts : List (TypeId × Entity × Value α)}, Written C o w₀ puts w →
      (∀ c ∈ commands, c.defersAtSettle = true) →
        Sound C (puts ++ putsOf C w.registry commands) → w.applyCommands C o commands = some w' →
          Written C o w₀ (puts ++ putsOf C w.registry commands) w'
  | [], w, puts, hw, _, _, h => by
    cases h
    rw [putsOf, List.append_nil]
    exact hw
  | c :: commands, w, puts, hw, hd, hs, h => by
    obtain ⟨u, hu, hrest⟩ := (applyCommands_cons C).mp h
    have hdefers := hd c List.mem_cons_self
    rw [putsOf, ← List.append_assoc] at hs ⊢
    have hcommand := hw.command hdefers hs.left hu
    rw [← (landed_command hdefers hu).2] at hs ⊢
    exact hcommand.applyCommands (fun c hc => hd c (List.mem_cons_of_mem _ hc)) hs hrest

/-- Once a spawn has landed it would land there again. -/
theorem spawnEntity_of_registers {bundle : List (TypeId × Value α)} {reserved : Entity}
    (h : (Command.spawn bundle reserved).apply C w o = some w') (hr : Registers w' u) :
    Command.spawnEntity C u.registry bundle reserved =
      Command.spawnEntity C w.registry bundle reserved := by
  have hregistry := (landed_command (c := .spawn bundle reserved) rfl h).2
  cases hjoin : (bundleSingletonKey C bundle).join with
  | none => simp [Command.spawnEntity, hjoin]
  | some key =>
    have hkey : w'.registry key = some (Command.spawnEntity C w.registry bundle reserved) := by
      rw [hregistry]
      exact if_pos hjoin
    have hlater := hr key _ hkey
    rw [Command.spawnEntity, hjoin, Option.bind_some, hlater, Option.getD_some]

/-- What a buffer has written it would write again, where it has. -/
theorem restated_of_written : ∀ {commands : List (Command α)} {w : World α},
    (∀ c ∈ commands, c.defersAtSettle = true) → Sound C (putsOf C w.registry commands) →
      w.applyCommands C o commands = some w' → Registers w' u →
        (∀ p ∈ putsOf C w.registry commands, u.Tells C o p.1 p.2.1 p.2.2) →
          (∀ c ∈ commands, u.Restated C o c) ∧
            landings C w.registry commands = commands.flatMap (Command.landing C u.registry)
  | [], _, _, _, _, _, _ => ⟨fun _ hc => (by cases hc), rfl⟩
  | c :: commands, w, hd, hs, h, hr, hh => by
    obtain ⟨x, hx, hrest⟩ := (applyCommands_cons C).mp h
    have hdefers := hd c List.mem_cons_self
    have hlater : ∀ c ∈ commands, c.defersAtSettle = true := fun c hc =>
      hd c (List.mem_cons_of_mem _ hc)
    rw [putsOf, ← (landed_command hdefers hx).2] at hs hh
    have hregisters : Registers x u :=
      ((Written.start x).applyCommands hlater hs.right hrest).registers.trans hr
    obtain ⟨hrestated, hlandings⟩ := restated_of_written hlater hs.right hrest hr fun p hp =>
      hh p (List.mem_append_right _ hp)
    have hown : ∀ p ∈ c.puts C w.registry, u.Tells C o p.1 p.2.1 p.2.2 := fun p hp =>
      hh p (List.mem_append_left _ hp)
    have hhead : u.Restated C o c ∧ c.landing C w.registry = c.landing C u.registry := by
      cases c with
      | insert t e v => exact ⟨hown _ List.mem_cons_self, rfl⟩
      | removeEntity x => cases hdefers
      | removeComponent t e => cases hdefers
      | spawn bundle reserved =>
        have hentity := spawnEntity_of_registers hx hregisters
        refine ⟨⟨?_, fun p hp => ?_⟩, ?_⟩
        · simp only [Command.apply, Option.bind_eq_bind, Option.bind_eq_some_iff] at hx
          obtain ⟨key, hkey, -⟩ := hx
          rw [hkey]
          rfl
        · rw [hentity]
          exact hown _ (List.mem_map_of_mem hp)
        · rw [Command.landing, Command.landing, hentity]
    constructor
    · intro c' hc'
      rcases List.mem_cons.mp hc' with rfl | hc'
      · exact hhead.1
      · exact hrestated c' hc'
    · rw [landings, ← (landed_command hdefers hx).2, hlandings, hhead.2, List.flatMap_cons]

/-- A buffer adds what it writes to the list of its invocation and nothing else. -/
theorem listsOnly_applyCommands : ∀ {commands : List (Command α)} {w : World α},
    (∀ c ∈ commands, c.defersAtSettle = true) → w.applyCommands C o commands = some w' →
      ∀ p ∈ w'.outputs o, p ∈ w.outputs o ∨ p ∈ landings C w.registry commands
  | [], w, _, h, p, hp => by
    cases h
    exact Or.inl hp
  | c :: commands, w, hd, h, p, hp => by
    obtain ⟨u, hu, hrest⟩ := (applyCommands_cons C).mp h
    rw [landings, ← (landed_command (hd c List.mem_cons_self) hu).2, List.mem_append]
    rcases listsOnly_applyCommands (fun c hc => hd c (List.mem_cons_of_mem _ hc)) hrest p hp with
      hold | hlater
    · exact (listsOnly_command hu p hold).imp_right Or.inl
    · exact Or.inr (Or.inr hlater)

end Buffers

section Outputs

/-- Sweeping a marker away leaves its registration. -/
theorem removeDerivedEntry_singletonEntities (w : World α) (t : TypeId) (e : Entity)
    (o : SystemInvocation) :
    (w.removeDerivedEntry C t e o).singletonEntities = w.singletonEntities := by
  unfold removeDerivedEntry
  split_ifs
  · have hretract := sameMarkers_retractEdge (C := C) (w.sweepEntry t e o) e
      (Closed.role_edgeOn (w := w) (t := t) (e := e))
    exact hretract.registry.trans (sweepEntry_singletonEntities w t e o)
  · rfl

/-- A sweep leaves what its owner lists as it is. -/
theorem Tells.removeDerivedStale (ht : ¬ C.IsInverse t) (previous : List (TypeId × Entity))
    (hh : w.Tells C o t e v) (hlists : w.Lists o (t, e)) :
    (w.removeDerivedStale C o previous).Tells C o t e v := by
  have hboth : (w.removeDerivedStale C o previous).Lists o (t, e) ∧
      (w.removeDerivedStale C o previous).Tells C o t e v := by
    refine List.foldlRecOn previous _ (motive := fun u : World α =>
      u.Lists o (t, e) ∧ u.Tells C o t e v) ⟨hlists, hh⟩ ?_
    rintro u ⟨hu, hheld⟩ p -
    split_ifs with hmem
    · exact ⟨hu, hheld⟩
    · refine ⟨(closed_lists C o (t, e)).removeDerivedEntry u p.1 p.2 (o := o) trivial hu, ?_⟩
      obtain ⟨hentry, htracked, hfingerprinted, hanchorless, hregistered⟩ := hheld
      refine ⟨?_, htracked, hfingerprinted, hanchorless, fun key hkey => ?_⟩
      · rw [cell?_removeDerivedEntry C u p.1 t p.2 e o fun _ heq => ht (isInverse_edgeOn C heq),
          if_neg]
        · exact hentry
        · rintro ⟨rfl, rfl, howner⟩
          exact hmem (hu howner)
      · rw [registry, removeDerivedEntry_singletonEntities]
        exact hregistered key hkey
  exact hboth.2

/-- An output of restatable values, once applied, restates what its invocation has: applying it
again is silent, whatever was there before it. -/
theorem restates_of_applyOutput {output : SystemOutput α} (hrest : w.pendingDerivedFrom = [])
    (hrepeat : w.Repeatable C output) (h : w.applyOutput C output false = some w') :
    w'.Restates C output := by
  obtain ⟨applied, flushed, happlied, hflushed, rfl⟩ := exists_of_applyOutput h
  have hs : Sound C (putsOf C w.registry output.commands) := ⟨hrepeat.restatable, hrepeat.agree⟩
  have happlied : (w.takeDerivedOutputs output.owner).2.applyCommands C output.owner
      output.commands = some applied := happlied
  have hwritten := (Written.start (C := C) (o := output.owner)
    (w.takeDerivedOutputs output.owner).2).applyCommands hrepeat.deferred hs happlied
  rw [List.nil_append] at hwritten
  have hempty : applied.pendingDerivedFrom = [] := hwritten.pending.trans hrest
  have hflush : flushed = { applied with pendingDerivedFrom := [], flushingAnchors := false } := by
    unfold flushDerivedFrom at hflushed
    rw [hempty] at hflushed
    exact (Option.some.inj hflushed).symm
  subst hflush
  have hswept : ∀ u : World α, (u.removeDerivedStale C output.owner
      (w.outputs output.owner)).singletonEntities = u.singletonEntities := fun u => by
    refine List.foldlRecOn _ _ (motive := fun x : World α =>
      x.singletonEntities = u.singletonEntities) rfl fun x hx p _ => ?_
    split_ifs
    · exact hx
    · exact (removeDerivedEntry_singletonEntities x p.1 p.2 output.owner).trans hx
  have hregisters : Registers applied (World.removeDerivedStale C
      (World.finishDerivedSpawns { applied with pendingDerivedFrom := [], flushingAnchors := false }
        output.owner) output.owner (w.outputs output.owner)) := by
    intro key e hkey
    rw [registry, hswept]
    exact hkey
  obtain ⟨hcommands, hlandings⟩ := restated_of_written
    (w := (w.takeDerivedOutputs output.owner).2) hrepeat.deferred hs happlied hregisters
    fun p hp => by
      have hheld : applied.Tells C output.owner p.1 p.2.1 p.2.2 := hwritten.holds p hp
      exact Tells.removeDerivedStale (hs.1 p hp).maintained _ ⟨hheld.1, hheld.2, hheld.3, hheld.4,
        hheld.5⟩ (hwritten.lists p hp)
  refine ⟨hcommands, fun p hp => ?_⟩
  have hclosed := closed_listsOnly C output.owner fun _ _ => False
  have hlisted := (hclosed.removeDerivedStale _ (w.outputs output.owner) fun _ _ => trivial) p hp
  have hbuffer := listsOnly_applyCommands hrepeat.deferred happlied p (hlisted.resolve_right id)
  have hnone : (w.takeDerivedOutputs output.owner).2.outputs output.owner = [] := by
    simp [takeDerivedOutputs, outputs, Dict.getD_erase]
  rw [hnone] at hbuffer
  have hlands : p ∈ landings C w.registry output.commands :=
    hbuffer.resolve_left List.not_mem_nil
  have hlands' : p ∈ output.commands.flatMap _ := hlandings ▸ hlands
  exact List.mem_flatMap.mp hlands'

/-- What restates once restates however often it is applied. -/
theorem Restates.exists_repeats {output : SystemOutput α} : ∀ (n : Nat) {w : World α},
    w.Restates C output → Reachable C w → w.pendingDerivedFrom = [] →
      ∃ w', (List.replicate n output).foldlM (fun u output => u.applyOutput C output false) w =
        some w' ∧ Silent w w'
  | 0, w, _, _, _ => ⟨w, rfl, .refl w⟩
  | n + 1, w, hrestates, hw, hrest => by
    obtain ⟨u, happlied, hsilent⟩ :=
      hrestates.exists_applyOutput (coherent_of_reachable hw).dated hrest
    have hreached : Reachable C u := .step (i := .output output false) hw trivial happlied
    obtain ⟨w', hrepeats, hsilent'⟩ := exists_repeats n (hrestates.silent hsilent hw hreached)
      hreached (hsilent.pendingDerivedFrom.trans hrest)
    exact ⟨w', Option.bind_eq_some_iff.mpr ⟨u, happlied, hrepeats⟩, hsilent.trans hsilent'⟩

/-- Applying an output of restatable values again succeeds however often that is done, and changes
nothing. -/
theorem applyOutput_repeats {output : SystemOutput α} (n : Nat) (hw : Reachable C w)
    (hrest : w.pendingDerivedFrom = []) (hrepeat : w.Repeatable C output)
    (h : w.applyOutput C output false = some w') :
    ∃ w'', (List.replicate n output).foldlM (fun u output => u.applyOutput C output false) w' =
      some w'' ∧ Silent w' w'' := by
  have hreached : Reachable C w' := .step (i := .output output false) hw trivial h
  have hpending : w'.pendingDerivedFrom = [] := by
    obtain ⟨applied, flushed, -, hflushed, rfl⟩ := exists_of_applyOutput h
    have hsame := sameBuffers_removeDerivedStale (C := C) (flushed.finishDerivedSpawns output.owner)
      output.owner (w.outputs output.owner)
    rw [hsame.pending]
    exact (buffers_flushDerivedFrom hflushed).1
  exact (restates_of_applyOutput hrest hrepeat h).exists_repeats n hreached hpending

/-- Type 5 is an edge at the entity its payload names with 6 as its inverse, type 9 the marker of
the key 90, and the payload of a component is its fingerprint. -/
def recalling : Components Nat where
  tracked _ := true
  role t := if t = 5 then .edge 6 else if t = 6 then .inverse 5
    else if t = 9 then .singleton 90 else .plain
  fingerprint _ v := match v with
    | .data payload => some payload
    | _ => none
  target _ payload := payload
  inverse_role t inverse h := by
    split_ifs at h with ht
    cases h
    simp [ht]

theorem recalling_restatable {t : TypeId} (payload : Nat) (ht : t ≠ 6) :
    recalling.Restatable t (.data payload) where
  tracked := rfl
  fingerprinted := rfl
  maintained := by
    rintro ⟨edge, hrole⟩
    simp only [recalling] at hrole
    split_ifs at hrole
  anchorless _ heq := by cases heq

/-- An invocation points entity 2 at entity 3 and spawns a singleton. -/
def recounted : SystemOutput Nat :=
  ⟨⟨1, [2]⟩, [.insert 5 2 (.data 3), .spawn [(9, .data 0), (7, .data 4)] 8]⟩

/-- The invocation has pointed entity 2 at entity 4 and emitted there, and another one has
registered the singleton. -/
def recalled : World Nat :=
  ((machine recalling).run World.new [.output ⟨⟨0, []⟩, [.spawn [(9, .data 1)] 6]⟩ false,
    .output ⟨⟨1, [2]⟩, [.insert 5 2 (.data 4), .insert 7 4 (.data 1)]⟩ false]).getD World.new

theorem recounted_repeatable : recalled.Repeatable recalling recounted := by
  have hputs : putsOf recalling recalled.registry recounted.commands =
      [(5, 2, .data 3), (9, 6, .data 0), (7, 6, .data 4)] := by decide
  refine ⟨by decide, ?_, ?_⟩
  · rw [hputs]
    simp only [List.forall_mem_cons]
    exact ⟨recalling_restatable 3 (by decide), recalling_restatable 0 (by decide),
      recalling_restatable 4 (by decide), fun _ hp => (by cases hp)⟩
  · rw [hputs]
    unfold Agree
    decide

theorem recounted_repeats : ∃ w', recalled.applyOutput recalling recounted false = some w' ∧
    w'.owner? 7 6 = some ⟨1, [2]⟩ ∧ (w'.cell? 6 3).map Entry.value = some (.members [2]) ∧
      ∃ w'', w'.applyOutput recalling recounted false = some w'' ∧ w''.revision = w'.revision ∧
        w''.mutations = w'.mutations := by
  have hrun : (machine recalling).run World.new
      [.output ⟨⟨0, []⟩, [.spawn [(9, .data 1)] 6]⟩ false,
        .output ⟨⟨1, [2]⟩, [.insert 5 2 (.data 4), .insert 7 4 (.data 1)]⟩ false] =
      some recalled := rfl
  have hreached : Reachable recalling recalled := .run (.init machine_init_new) hrun
  have happlied : recalled.applyOutput recalling recounted false =
      some ((recalled.applyOutput recalling recounted false).getD World.new) := rfl
  obtain ⟨w'', hrepeated, hsilent⟩ := applyOutput_repeats 1 hreached rfl recounted_repeatable happlied
  rw [List.replicate_one, List.foldlM_cons, Option.bind_eq_bind,
    Option.bind_eq_some_iff] at hrepeated
  obtain ⟨u, hu, hlast⟩ := hrepeated
  have hlast : u = w'' := Option.some.inj hlast
  rw [hlast] at hu
  exact ⟨_, happlied, by decide, by decide, w'', hu, hsilent.revision, hsilent.mutations⟩

end Outputs

end World
end Porridge
