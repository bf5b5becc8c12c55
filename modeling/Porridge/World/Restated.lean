import Porridge.SnapshotCache
import Porridge.World.Landing

/-! An output that says what its invocation has already said changes nothing that anyone reads. -/
namespace Porridge

variable {α : Type} {C : Components α}

namespace World

variable {w w' u : World α} {o : SystemInvocation} {t : TypeId} {e : Entity} {v : Value α}

/-- The invocation's own component of `t` on `e` is `v`, tracked and with a fingerprint. -/
structure Tells (C : Components α) (w : World α) (o : SystemInvocation) (t : TypeId) (e : Entity)
    (v : Value α) : Prop where
  entry : ∃ x, w.cell? t e = some x ∧ x.value = v ∧ x.fingerprint = C.fingerprint t v ∧
    x.owner = some o
  tracked : C.tracked t = true
  fingerprinted : (C.fingerprint t v).isSome = true
  anchorless : ∀ anchors, v ≠ .derivedFrom anchors
  registered : ∀ key, C.singletonKey t = some key → w.registry key = some e

def Restated (C : Components α) (w : World α) (o : SystemInvocation) : Command α → Prop
  | .insert t e v => Tells C w o t e v
  | .spawn bundle reserved => (bundleSingletonKey C bundle).isSome = true ∧
    ∀ p ∈ bundle, Tells C w o p.1 (Command.spawnEntity C w.registry bundle reserved) p.2
  | .removeEntity _ | .removeComponent _ _ => False

structure Restates (C : Components α) (w : World α) (output : SystemOutput α) : Prop where
  commands : ∀ c ∈ output.commands, w.Restated C output.owner c
  covers : ∀ p ∈ w.outputs output.owner, ∃ c ∈ output.commands, p ∈ c.landing C w.registry

/-- Everything but cells, the log, the ownership index and the spawn slots is the same. -/
structure Silent (w w' : World α) : Prop where
  entries : SameEntries w w'
  owners : ∀ t e, w'.owner? t e = w.owner? t e
  nextEntity : w'.nextEntity = w.nextEntity
  revision : w'.revision = w.revision
  mutations : w'.mutations = w.mutations
  singletonEntities : w'.singletonEntities = w.singletonEntities
  removedEntities : w'.removedEntities = w.removedEntities
  removedOwners : w'.removedOwners = w.removedOwners
  removedComponentOwners : w'.removedComponentOwners = w.removedComponentOwners
  pendingDerivedFrom : w'.pendingDerivedFrom = w.pendingDerivedFrom

theorem Silent.of_stores (hs : w'.stores = w.stores) (hn : w'.nextEntity = w.nextEntity)
    (hr : w'.revision = w.revision) (hm : w'.mutations = w.mutations)
    (hsingle : w'.singletonEntities = w.singletonEntities)
    (he : w'.removedEntities = w.removedEntities) (ho : w'.removedOwners = w.removedOwners)
    (hc : w'.removedComponentOwners = w.removedComponentOwners)
    (hp : w'.pendingDerivedFrom = w.pendingDerivedFrom) : Silent w w' where
  entries := .of_stores hs
  owners := owner?_congr hs
  nextEntity := hn
  revision := hr
  mutations := hm
  singletonEntities := hsingle
  removedEntities := he
  removedOwners := ho
  removedComponentOwners := hc
  pendingDerivedFrom := hp

theorem Silent.refl (w : World α) : Silent w w := .of_stores rfl rfl rfl rfl rfl rfl rfl rfl rfl

theorem Silent.trans (h : Silent w u) (h' : Silent u w') : Silent w w' where
  entries := h.entries.trans h'.entries
  owners t e := (h'.owners t e).trans (h.owners t e)
  nextEntity := h'.nextEntity.trans h.nextEntity
  revision := h'.revision.trans h.revision
  mutations := h'.mutations.trans h.mutations
  singletonEntities := h'.singletonEntities.trans h.singletonEntities
  removedEntities := h'.removedEntities.trans h.removedEntities
  removedOwners := h'.removedOwners.trans h.removedOwners
  removedComponentOwners := h'.removedComponentOwners.trans h.removedComponentOwners
  pendingDerivedFrom := h'.pendingDerivedFrom.trans h.pendingDerivedFrom

theorem Silent.registry (h : Silent w w') : w'.registry = w.registry := by
  unfold World.registry
  rw [h.singletonEntities]

/-- What an invocation holds it holds after a silent change. -/
theorem Tells.silent (hh : w.Tells C o t e v) (h : Silent w w') : w'.Tells C o t e v where
  entry := by
    obtain ⟨x, hx, hvalue, hfingerprint, howner⟩ := hh.entry
    have hvalues := h.entries.values t e
    rw [hx] at hvalues
    obtain ⟨x', hx', hvalue'⟩ := Option.map_eq_some_iff.mp hvalues
    have hfingerprints := h.entries.fingerprints t e
    have howners := h.owners t e
    simp only [fingerprintOn, owner?, hx, hx', Option.bind_some] at hfingerprints howners
    exact ⟨x', hx', hvalue'.trans hvalue, hfingerprints.trans hfingerprint, howners.trans howner⟩
  tracked := hh.tracked
  fingerprinted := hh.fingerprinted
  anchorless := hh.anchorless
  registered key hkey := by
    rw [h.registry]
    exact hh.registered key hkey

theorem Restated.silent {c : Command α} (hc : w.Restated C o c) (h : Silent w w') :
    w'.Restated C o c := by
  cases c with
  | insert t e v => exact Tells.silent hc h
  | spawn bundle reserved =>
    refine ⟨hc.1, ?_⟩
    rw [h.registry]
    exact fun p hp => (hc.2 p hp).silent h
  | removeEntity e => exact hc
  | removeComponent t e => exact hc

/-- No entry is newer than its store's watermark. -/
def Dated (w : World α) : Prop := ∀ t e, ∀ r ∈ w.revisionByType t e, r ≤ w.storeWatermark t

theorem Coherent.dated (h : w.Coherent) : w.Dated := by
  intro t e r hr
  obtain ⟨x, hx, rfl⟩ := Option.map_eq_some_iff.mp hr
  exact h.entries t e x hx

theorem Dated.silent (hd : w.Dated) (h : Silent w w') : w'.Dated := by
  intro t e r hr
  rw [h.entries.watermarks]
  exact hd t e r (h.entries.revisions t e ▸ hr)

/-- Writing the same value again keeps the revision and everything that depends on it. -/
theorem Tells.silent_writeEntry (hh : w.Tells C o t e v) (hd : w.Dated) :
    Silent w (w.writeEntry C t e v (some o)) := by
  obtain ⟨x, hx, hvalue, hfingerprint, howner⟩ := hh.entry
  have hmatches : w.fingerprintMatches C t e v = true := by
    unfold fingerprintMatches
    rw [hx, Option.any_some, hfingerprint, hh.fingerprinted, beq_self_eq_true, Bool.and_self]
  have hrevision : w.revisionByType t e = some x.revision := by
    unfold revisionByType
    rw [hx]
    rfl
  have hkept : w.keptRevision C t e v = some x.revision := by
    unfold keptRevision
    rw [hh.tracked, hmatches, Bool.and_self, if_pos rfl, hrevision]
  have hcell : ∀ t' e', (w.writeEntry C t e v (some o)).cell? t' e' =
      if t' = t ∧ e' = e then some ⟨w.nextCell, v, x.revision, x.fingerprint, x.owner⟩
      else w.cell? t' e' := by
    intro t' e'
    rw [cell?_writeEntry, hkept, hfingerprint, howner]
    rfl
  have hread : ∀ {β : Type} (f : Entry α → β), f ⟨w.nextCell, v, x.revision, x.fingerprint, x.owner⟩ =
      f x → ∀ t' e', ((w.writeEntry C t e v (some o)).cell? t' e').map f = (w.cell? t' e').map f := by
    intro β f hf t' e'
    rw [hcell]
    split_ifs with heq
    · obtain ⟨rfl, rfl⟩ := heq
      rw [hx, Option.map_some, Option.map_some, hf]
    · rfl
  have hbind : ∀ {β : Type} (f : Entry α → Option β),
      f ⟨w.nextCell, v, x.revision, x.fingerprint, x.owner⟩ = f x →
        ∀ t' e', ((w.writeEntry C t e v (some o)).cell? t' e').bind f = (w.cell? t' e').bind f := by
    intro β f hf t' e'
    rw [hcell]
    split_ifs with heq
    · obtain ⟨rfl, rfl⟩ := heq
      rw [hx, Option.bind_some, Option.bind_some, hf]
    · rfl
  have hwatermark : ∀ t', (w.writeEntry C t e v (some o)).storeWatermark t' = w.storeWatermark t' := by
    intro t'
    have hput : (w.writeEntry C t e v (some o)).storeWatermark t' =
        if t' = t then max (w.storeWatermark t) x.revision else w.storeWatermark t' := by
      unfold storeWatermark
      rw [store_congr (writeEntry_stores C w t e v (some o)), hkept]
      exact storeWatermark_amendEntry w t t' e _ x.revision
    rw [hput]
    split_ifs with heq
    · rw [heq]
      exact max_eq_left (hd t e x.revision hrevision)
    · rfl
  have hmutations : (w.writeEntry C t e v (some o)).mutations = w.mutations := by
    unfold writeEntry
    dsimp only
    rw [(reindexDerived_eq _ t e (w.owner? t e) (some o)).choose_spec]
    exact if_pos hmatches
  have hrevision' : (w.writeEntry C t e v (some o)).revision = w.revision := by
    rw [writeEntry_revision, hkept]
    rfl
  refine ⟨⟨hread Entry.value hvalue.symm, hbind Entry.fingerprint rfl, hread Entry.revision rfl,
    hwatermark⟩, hbind Entry.owner rfl, ?_, hrevision', hmutations,
    writeEntry_singletonEntities w t e v (some o), ?_, ?_, ?_, ?_⟩
  all_goals
    unfold writeEntry
    dsimp only
    rw [(reindexDerived_eq _ t e (w.owner? t e) (some o)).choose_spec]
    rfl

/-- A value without anchors is inserted at once, as it is. -/
theorem insert_of_anchorless (hv : ∀ anchors, v ≠ .derivedFrom anchors)
    (owner : Option SystemInvocation) : w.insert C t e v owner = w.insertNow C t e v owner := by
  cases v with
  | derivedFrom anchors => exact absurd rfl (hv anchors)
  | _ => rfl

/-- Inserting the same value again is silent, and lists the pair. -/
theorem Tells.exists_insert (hh : w.Tells C o t e v) (hd : w.Dated) :
    ∃ w', w.insert C t e v (some o) = some w' ∧ Silent w w' ∧ (t, e) ∈ w'.outputs o ∧
      ∀ p ∈ w.outputs o, p ∈ w'.outputs o := by
  obtain ⟨x, hx, hvalue, -, -⟩ := hh.entry
  have hregister : w.registerSingleton C t e = some w := by
    unfold registerSingleton
    cases hkey : C.singletonKey t with
    | none => rfl
    | some key =>
      have hregistered : w.singletonEntities.lookup key = some e := hh.registered key hkey
      dsimp only
      rw [hregistered]
      exact if_pos rfl
  have hedge : w.edgeOn C t e = C.relationshipEdge t v := by
    unfold edgeOn
    rw [hx, Option.bind_some, hvalue]
  have hwritten : w.insert C t e v (some o) = some (w.writeEntry C t e v (some o)) := by
    rw [insert_of_anchorless hh.anchorless]
    unfold insertNow insertEntry
    simp only [hregister, Option.map_some, hedge, if_true]
  refine ⟨_, hwritten, hh.silent_writeEntry hd,
    (mem_outputs_writeEntry C w t e v (some o) o (t, e)).mpr (Or.inr ⟨rfl, rfl⟩), fun p hp => ?_⟩
  refine (mem_outputs_writeEntry C w t e v (some o) o p).mpr (Or.inl ⟨hp, ?_⟩)
  exact fun hmoved => hmoved.2.2 rfl

def ListsAlso (o : SystemInvocation) (pairs : List (TypeId × Entity)) (w w' : World α) : Prop :=
  (∀ p ∈ pairs, p ∈ w'.outputs o) ∧ ∀ p ∈ w.outputs o, p ∈ w'.outputs o

theorem ListsAlso.trans {pairs pairs' : List (TypeId × Entity)} (h : ListsAlso o pairs w u)
    (h' : ListsAlso o pairs' u w') : ListsAlso o (pairs ++ pairs') w w' := by
  refine ⟨fun p hp => ?_, fun p hp => h'.2 p (h.2 p hp)⟩
  rcases List.mem_append.mp hp with hp | hp
  · exact h'.2 p (h.1 p hp)
  · exact h'.1 p hp

theorem exists_insertBundle : ∀ {bundle : List (TypeId × Value α)} {w : World α},
    (∀ p ∈ bundle, w.Tells C o p.1 e p.2) → w.Dated →
      ∃ w', w.insertBundle C e bundle o = some w' ∧ Silent w w' ∧
        ListsAlso o (bundle.map fun p => (p.1, e)) w w'
  | [], w, _, _ => ⟨w, rfl, .refl w, fun _ hp => (by cases hp), fun _ hp => hp⟩
  | p :: bundle, w, hh, hd => by
    obtain ⟨u, hinsert, hsilent, hlisted, hkept⟩ := (hh p List.mem_cons_self).exists_insert hd
    have hlater : ∀ q ∈ bundle, u.Tells C o q.1 e q.2 := fun q hq =>
      (hh q (List.mem_cons_of_mem _ hq)).silent hsilent
    obtain ⟨w', hrest, hsilent', hlists⟩ := exists_insertBundle hlater (hd.silent hsilent)
    refine ⟨w', Option.bind_eq_some_iff.mpr ⟨u, hinsert, hrest⟩, hsilent.trans hsilent', ?_⟩
    have hhead : ListsAlso o [(p.1, e)] w u :=
      ⟨fun q hq => List.mem_singleton.mp hq ▸ hlisted, hkept⟩
    exact hhead.trans hlists

/-- A spawn whose marker is there goes to the entity it is on. -/
theorem spawnTarget_of_registered {bundle : List (TypeId × Value α)} {key : Option TypeId}
    {reserved : Entity} (hkey : bundleSingletonKey C bundle = some key)
    (hh : ∀ p ∈ bundle, w.Tells C o p.1 (Command.spawnEntity C w.registry bundle reserved) p.2) :
    w.spawnTarget reserved key = (Command.spawnEntity C w.registry bundle reserved, w) := by
  have hentity := spawnTarget_entity hkey w reserved
  cases key with
  | none => exact Prod.ext hentity rfl
  | some key =>
    obtain ⟨⟨p, hp, hmarker⟩, -⟩ := markers_of_bundleSingletonKey hkey
    have hregistered : w.singletonEntities.lookup key = _ := (hh p hp).registered key hmarker
    refine Prod.ext hentity ?_
    show (w.singletonEntityOrRegister key reserved).2 = w
    unfold singletonEntityOrRegister
    rw [hregistered]

/-- A command that writes what is there is silent. -/
theorem Restated.exists_apply {c : Command α} (hc : w.Restated C o c) (hd : w.Dated) :
    ∃ w', c.apply C w o = some w' ∧ Silent w w' ∧ ListsAlso o (c.landing C w.registry) w w' := by
  cases c with
  | insert t e v =>
    obtain ⟨w', hinsert, hsilent, hlisted, hkept⟩ := Tells.exists_insert hc hd
    exact ⟨w', hinsert, hsilent, fun p hp => List.mem_singleton.mp hp ▸ hlisted, hkept⟩
  | spawn bundle reserved =>
    obtain ⟨hsome, hh⟩ := hc
    obtain ⟨key, hkey⟩ := Option.isSome_iff_exists.mp hsome
    have hslot : Silent w (w.recordDerivedSpawn o (Command.spawnEntity C w.registry bundle reserved)) :=
      .of_stores rfl rfl rfl rfl rfl rfl rfl rfl rfl
    obtain ⟨w', hbundle, hsilent, hlists⟩ :=
      exists_insertBundle (fun p hp => (hh p hp).silent hslot) (hd.silent hslot)
    refine ⟨w', ?_, hslot.trans hsilent, hlists⟩
    simp only [Command.apply, hkey, Option.bind_eq_bind, Option.bind_some,
      spawnTarget_of_registered hkey hh]
    exact hbundle
  | removeEntity e => exact hc.elim
  | removeComponent t e => exact hc.elim

theorem exists_applyCommands_restated : ∀ {commands : List (Command α)} {w : World α},
    (∀ c ∈ commands, w.Restated C o c) → w.Dated →
      ∃ w', w.applyCommands C o commands = some w' ∧ Silent w w' ∧
        ListsAlso o (commands.flatMap (Command.landing C w.registry)) w w'
  | [], w, _, _ => ⟨w, rfl, .refl w, fun _ hp => (by cases hp), fun _ hp => hp⟩
  | c :: commands, w, hc, hd => by
    obtain ⟨u, hu, hsilent, hlists⟩ := (hc c List.mem_cons_self).exists_apply hd
    have hlater : ∀ c' ∈ commands, u.Restated C o c' := fun c' hc' =>
      (hc c' (List.mem_cons_of_mem _ hc')).silent hsilent
    obtain ⟨w', hrest, hsilent', hlists'⟩ :=
      exists_applyCommands_restated hlater (hd.silent hsilent)
    rw [hsilent.registry] at hlists'
    exact ⟨w', (applyCommands_cons C).mpr ⟨u, hu, hrest⟩, hsilent.trans hsilent',
      hlists.trans hlists'⟩

/-- Nothing is stale when every previous output is listed again. -/
theorem removeDerivedStale_of_listed {previous : List (TypeId × Entity)}
    (h : ∀ p ∈ previous, p ∈ w.outputs o) : w.removeDerivedStale C o previous = w := by
  refine List.foldlRecOn previous _ (motive := fun u : World α => u = w) rfl ?_
  rintro u rfl p hp
  exact if_pos (h p hp)

/-- An output that restates what its invocation has is silent. -/
theorem Restates.exists_applyOutput {output : SystemOutput α} (h : w.Restates C output)
    (hd : w.Dated) (hrest : w.pendingDerivedFrom = []) :
    ∃ w', w.applyOutput C output false = some w' ∧ Silent w w' := by
  have htaken : Silent w (w.takeDerivedOutputs output.owner).2 :=
    .of_stores rfl rfl rfl rfl rfl rfl rfl rfl rfl
  obtain ⟨u, happlied, hsilent, hlists⟩ := exists_applyCommands_restated (o := output.owner)
    (fun c hc => (h.commands c hc).silent htaken) (hd.silent htaken)
  have hpending : u.pendingDerivedFrom = [] :=
    (hsilent.pendingDerivedFrom.trans htaken.pendingDerivedFrom).trans hrest
  have hflushed : u.flushDerivedFrom C =
      some { u with pendingDerivedFrom := [], flushingAnchors := false } := by
    unfold flushDerivedFrom
    rw [hpending]
    rfl
  have hflush : Silent u (({ u with pendingDerivedFrom := [], flushingAnchors := false } :
      World α).finishDerivedSpawns output.owner) :=
    .of_stores rfl rfl rfl rfl rfl rfl rfl rfl hpending.symm
  refine ⟨_, ?_, (htaken.trans hsilent).trans hflush⟩
  unfold applyOutput
  simp only [Bool.false_eq_true, if_false, Option.bind_eq_bind]
  rw [happlied, Option.bind_some, hflushed, Option.bind_some]
  refine congrArg some (removeDerivedStale_of_listed fun p hp => ?_)
  obtain ⟨c, hc, hland⟩ := h.covers p hp
  exact hlists.1 p (List.mem_flatMap.mpr ⟨c, hc, hland⟩)

/-- What restated an output before a silent change restates it afterwards. -/
theorem Restates.silent {output : SystemOutput α} (hr : w.Restates C output) (h : Silent w w') (hw : Reachable C w)
    (hw' : Reachable C w') : w'.Restates C output where
  commands c hc := (hr.commands c hc).silent h
  covers p hp := by
    rw [h.registry]
    refine hr.covers p (((reachable_indexExact hw).1 output.owner p.1 p.2).mpr ?_)
    rw [← h.owners]
    exact ((reachable_indexExact hw').1 output.owner p.1 p.2).mp hp

end World
end Porridge
