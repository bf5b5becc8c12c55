import Porridge.Commit
import Porridge.World.Exact
import Porridge.World.Inverses
import Porridge.World.Landing
import Porridge.World.Storage

/-! The lists of removed owners grow only with the revision. -/
namespace Porridge

variable {α : Type} {C : Components α}

/-- The command writes no maintained inverse by hand. -/
def Command.Tends (C : Components α) (c : Command α) : Prop := ∀ t, C.IsInverse t → c.Spares t

namespace World

variable {w w' : World α} {t : TypeId} {e : Entity} {o : SystemInvocation}

/-- The owners that lost a component to a removal are the same. -/
def SameLosers (w w' : World α) : Prop :=
  w'.removedOwners = w.removedOwners ∧ w'.removedComponentOwners = w.removedComponentOwners

/-- The revision does not fall, and where it stands no owner is recorded as a loser. -/
structure Audible (w w' : World α) : Prop where
  revision : w.revision ≤ w'.revision
  losers : w'.revision = w.revision → SameLosers w w'

theorem Audible.of_lt (h : w.revision < w'.revision) : Audible w w' :=
  ⟨h.le, fun heq => absurd heq h.ne'⟩

theorem Audible.of_same (hr : w.revision ≤ w'.revision) (h : SameLosers w w') : Audible w w' :=
  ⟨hr, fun _ => h⟩

theorem Audible.refl (w : World α) : Audible w w := .of_same le_rfl ⟨rfl, rfl⟩

theorem Audible.trans {a b c : World α} (hab : Audible a b) (hbc : Audible b c) : Audible a c where
  revision := hab.revision.trans hbc.revision
  losers heq := by
    have hab' : b.revision = a.revision :=
      le_antisymm (heq ▸ hbc.revision) hab.revision
    have hbc' : c.revision = b.revision := heq.trans hab'.symm
    obtain ⟨howners, hcomponents⟩ := hab.losers hab'
    obtain ⟨howners', hcomponents'⟩ := hbc.losers hbc'
    exact ⟨howners'.trans howners, hcomponents'.trans hcomponents⟩

theorem Audible.foldl {ι : Type} {f : World α → ι → World α} (xs : List ι) (w : World α)
    (step : ∀ w, ∀ x ∈ xs, Audible w (f w x)) : Audible w (xs.foldl f w) :=
  List.foldlRecOn xs f (.refl w) fun u hu x hx => hu.trans (step u x hx)

theorem Audible.foldlM {ι : Type} {f : World α → ι → Option (World α)} {xs : List ι}
    (h : xs.foldlM f w = some w') (step : ∀ w x w', f w x = some w' → Audible w w') :
    Audible w w' :=
  List.foldlM_some_induction (Audible w) xs h (.refl w) fun u x u' _ hu hx =>
    hu.trans (step u x u' hx)

section Effects

theorem audible_writeEntry (w : World α) (t : TypeId) (e : Entity) (v : Value α)
    (owner : Option SystemInvocation) : Audible w (w.writeEntry C t e v owner) := by
  unfold writeEntry
  dsimp only
  rw [(reindexDerived_eq _ t e (w.owner? t e) owner).choose_spec]
  refine .of_same ?_ ⟨rfl, rfl⟩
  show w.revision ≤ if (w.keptRevision C t e v).isSome then w.revision else w.revision + 1
  split_ifs
  · exact le_rfl
  · exact Nat.le_succ _

theorem revision_dropEntry (w : World α) (t : TypeId) (e : Entity)
    (remover : Option SystemInvocation) (h : w.has t e = true) :
    (w.dropEntry C t e remover).revision = w.revision + 1 := by
  unfold dropEntry
  obtain ⟨owners, losers, hdisown⟩ :=
    disownEntry_eq ((w.eraseEntry t e).presenceSet t e false) t e (w.owner? t e) remover
  obtain ⟨singletons, hunregister⟩ := unregisterSingleton_eq C
    (((w.eraseEntry t e).presenceSet t e false).disownEntry t e (w.owner? t e) remover) t e
  rw [if_pos h, hunregister, hdisown]
  rfl

theorem audible_dropEntry (w : World α) (t : TypeId) (e : Entity)
    (remover : Option SystemInvocation) : Audible w (w.dropEntry C t e remover) := by
  by_cases h : w.has t e = true
  · exact .of_lt (by rw [revision_dropEntry w t e remover h]; exact Nat.lt_succ_self _)
  · rw [dropEntry, if_neg h]
    exact .refl w

theorem audible_sweepEntry (w : World α) (t : TypeId) (e : Entity) (o : SystemInvocation) :
    Audible w (w.sweepEntry t e o) := by
  unfold sweepEntry
  split_ifs
  · exact .of_lt (Nat.lt_succ_self _)
  · exact .refl w

theorem revision_purgeEntity (w : World α) (e : Entity) :
    (w.purgeEntity e).revision = w.revision + (w.componentsOn e).length := by
  obtain ⟨owners, h⟩ := unindexEntries_eq e (w.ownedOn e) (w.eraseEntries (w.componentsOn e) e)
  unfold purgeEntity
  rw [h]
  exact revision_eraseEntries e (w.componentsOn e) w

theorem sameLosers_purgeEntity (w : World α) (e : Entity) : SameLosers w (w.purgeEntity e) := by
  obtain ⟨stores, revision, mutations, log, h⟩ := eraseEntries_eq e (w.componentsOn e) w
  obtain ⟨owners, h'⟩ := unindexEntries_eq e (w.ownedOn e) (w.eraseEntries (w.componentsOn e) e)
  unfold purgeEntity
  rw [h', h]
  exact ⟨rfl, rfl⟩

end Effects

section Operations

theorem audible_retractEdge (w : World α) (source : Entity)
    (edge : Option (TypeId × Entity)) : Audible w (w.retractEdge C source edge) := by
  cases edge with
  | none => exact .refl w
  | some p =>
    unfold retractEdge relationshipRemoveMember
    dsimp only
    split
    · exact .refl w
    · split_ifs
      · exact audible_dropEntry w p.1 p.2 none
      · exact audible_writeEntry w p.1 p.2 _ none
      · exact .refl w

theorem audible_establishEdge (w : World α) (source : Entity)
    (edge : Option (TypeId × Entity)) : Audible w (w.establishEdge C source edge) := by
  cases edge with
  | none => exact .refl w
  | some p =>
    unfold establishEdge relationshipAddMember
    dsimp only
    split_ifs
    · exact .refl w
    · exact audible_writeEntry w p.1 p.2 _ none

theorem audible_insertEntry (w : World α) (t : TypeId) (e : Entity) (v : Value α)
    (owner : Option SystemInvocation) : Audible w (w.insertEntry C t e v owner) := by
  have hwrite : Audible w (w.writeEntry C t e v owner) := audible_writeEntry w t e v owner
  unfold insertEntry
  dsimp only
  split_ifs
  · exact hwrite
  · exact hwrite.trans ((audible_retractEdge _ e _).trans (audible_establishEdge _ e _))

theorem audible_insert {v : Value α} {owner : Option SystemInvocation}
    (h : w.insert C t e v owner = some w') : Audible w w' := by
  rcases insert_cases h with ⟨anchors, -, -, rfl⟩ | ⟨hnow, -⟩
  · exact .of_same le_rfl ⟨rfl, rfl⟩
  · obtain ⟨u, hu, rfl⟩ := Option.map_eq_some_iff.mp hnow
    have hregister : Audible w u := by
      unfold registerSingleton at hu
      split at hu
      · cases hu
        exact .refl w
      · split at hu
        · split_ifs at hu
          cases hu
          exact .refl w
        · cases hu
          exact .of_same le_rfl ⟨rfl, rfl⟩
    exact hregister.trans (audible_insertEntry u t e _ owner)

theorem audible_removeComponent (w : World α) (t : TypeId) (e : Entity)
    (remover : Option SystemInvocation) : Audible w (w.removeComponent C t e remover) :=
  (audible_dropEntry w t e remover).trans (audible_retractEdge _ e _)

theorem audible_removeDerivedEntry (w : World α) (t : TypeId) (e : Entity)
    (o : SystemInvocation) : Audible w (w.removeDerivedEntry C t e o) := by
  unfold removeDerivedEntry
  split_ifs
  · exact (audible_sweepEntry w t e o).trans (audible_retractEdge _ e _)
  · exact .refl w

theorem audible_removeDerivedStale (w : World α) (o : SystemInvocation)
    (previous : List (TypeId × Entity)) : Audible w (w.removeDerivedStale C o previous) := by
  refine Audible.foldl previous w fun u p _ => ?_
  split_ifs
  · exact .refl u
  · exact audible_removeDerivedEntry u p.1 p.2 o

/-- Removing an entity without components records no owner. -/
theorem audible_removeEntity (w : World α) (e : Entity) : Audible w (w.removeEntity C e) := by
  have hedges : Audible (w.purgeEntity e)
      ((w.edgesOn C e).foldl (fun w edge => w.retractEdge C e (some edge)) (w.purgeEntity e)) :=
    Audible.foldl _ _ fun u edge _ => audible_retractEdge u e (some edge)
  have hretractions : ∀ u : World α, Audible u
      ((w.retractionsOn C e).foldl (fun w edge => w.removeComponent C edge.1 edge.2 none) u) :=
    fun u => Audible.foldl _ u fun u edge _ => audible_removeComponent u edge.1 edge.2 none
  have hfreed := hedges.trans (hretractions _)
  have hpurged := revision_purgeEntity w e
  have hstart : w.revision ≤ (w.purgeEntity e).revision := by
    rw [hpurged]
    exact Nat.le_add_right _ _
  refine ⟨hstart.trans hfreed.revision, fun heq => ?_⟩
  have hsame : (w.purgeEntity e).revision = w.revision :=
    le_antisymm (heq ▸ hfreed.revision) hstart
  have hnone : w.componentsOn e = [] := by
    rw [hpurged] at hsame
    exact List.length_eq_zero_iff.mp (Nat.add_left_cancel hsame)
  obtain ⟨howners, hcomponents⟩ := hfreed.losers (heq.trans hsame.symm)
  obtain ⟨howners', hcomponents'⟩ := sameLosers_purgeEntity w e
  have hunowned : w.ownersOn e = [] := by
    unfold ownersOn ownedOn
    rw [hnone]
    rfl
  refine ⟨?_, hcomponents.trans hcomponents'⟩
  show _ ++ w.ownersOn e = _
  rw [hunowned, List.append_nil]
  exact howners.trans howners'

theorem audible_command {c : Command α} (h : c.apply C w o = some w') : Audible w w' := by
  cases c with
  | insert t e v => exact audible_insert h
  | removeEntity e =>
    cases h
    exact audible_removeEntity w e
  | removeComponent t e =>
    cases h
    exact audible_removeComponent w t e (some o)
  | spawn bundle reserved =>
    simp only [Command.apply, Option.bind_eq_bind, Option.bind_eq_some_iff] at h
    obtain ⟨key, -, h⟩ := h
    have htarget : Audible w ((w.spawnTarget reserved key).2.recordDerivedSpawn o
        (w.spawnTarget reserved key).1) := by
      cases key with
      | none => exact .of_same le_rfl ⟨rfl, rfl⟩
      | some key =>
        unfold spawnTarget singletonEntityOrRegister
        dsimp only
        split
        · exact .of_same le_rfl ⟨rfl, rfl⟩
        · exact .of_same le_rfl ⟨rfl, rfl⟩
    exact htarget.trans (.foldlM h fun _ _ _ hstep => audible_insert hstep)

theorem audible_flushDerivedFrom (h : w.flushDerivedFrom C = some w') : Audible w w' := by
  obtain ⟨u, hu, rfl⟩ := Option.map_eq_some_iff.mp h
  have hflushed : Audible { w with pendingDerivedFrom := [], flushingAnchors := true } u :=
    .foldlM hu fun _ _ _ hstep => audible_insert hstep
  exact ⟨hflushed.revision, hflushed.losers⟩

theorem audible_applyOutput {output : SystemOutput α} {deferInserts : Bool}
    (h : w.applyOutput C output deferInserts = some w') : Audible w w' := by
  obtain ⟨applied, flushed, happlied, hflushed, rfl⟩ := exists_of_applyOutput h
  have htaken : Audible w (w.takeDerivedOutputs output.owner).2 := .of_same le_rfl ⟨rfl, rfl⟩
  have hcommands := htaken.trans (.foldlM happlied fun _ _ _ hstep => audible_command hstep)
  have hfinish : Audible flushed (flushed.finishDerivedSpawns output.owner) :=
    .of_same le_rfl ⟨rfl, rfl⟩
  exact hcommands.trans ((audible_flushDerivedFrom hflushed).trans
    (hfinish.trans (audible_removeDerivedStale _ output.owner _)))

theorem audible_retireOwners : ∀ (owners : List SystemInvocation) (w : World α),
    Audible w (w.retireOwners C owners).1
  | [], w => .refl w
  | o :: owners, w => by
    have hforgotten : Audible w (w.forgetOwner o) := .of_same le_rfl ⟨rfl, rfl⟩
    have hremoved : Audible (w.forgetOwner o) (w.removeDerivedOwned C o) :=
      Audible.foldl (w.outputs o) _ fun u p _ => audible_removeDerivedEntry u p.1 p.2 o
    exact hforgotten.trans (hremoved.trans (audible_retireOwners owners _))

theorem audible_restampEntry (w : World α) (t : TypeId) (e : Entity) (v : Value α) :
    Audible w (w.restampEntry C t e v) ∧ SameLosers w (w.restampEntry C t e v) := by
  suffices hrest : w.revision ≤ (w.restampEntry C t e v).revision ∧
      SameLosers w (w.restampEntry C t e v) from ⟨.of_same hrest.1 hrest.2, hrest.2⟩
  unfold restampEntry
  split
  · exact ⟨le_rfl, rfl, rfl⟩
  · split_ifs
    · exact ⟨Nat.le_succ _, rfl, rfl⟩
    · exact ⟨le_rfl, rfl, rfl⟩

/-- Reconciling writes in place records no loser. -/
theorem audible_reconcileWritten (w : World α) (writes : List (TypeId × Entity)) :
    Audible w (w.reconcileWritten C writes) ∧ SameLosers w (w.reconcileWritten C writes) := by
  refine List.foldlRecOn writes _ (motive := fun u => Audible w u ∧ SameLosers w u)
    ⟨.refl w, rfl, rfl⟩ fun u hu p _ => ?_
  have hentry : Audible u (u.reconcileEntry C p.1 p.2) ∧
      SameLosers u (u.reconcileEntry C p.1 p.2) := by
    unfold reconcileEntry
    split
    · exact ⟨.refl u, rfl, rfl⟩
    · exact audible_restampEntry u p.1 p.2 _
  obtain ⟨haudible, hsame⟩ := hentry
  dsimp only
  split_ifs
  · have hlogged : Audible (u.reconcileEntry C p.1 p.2)
        { u.reconcileEntry C p.1 p.2 with
          writeLog := (u.reconcileEntry C p.1 p.2).writeLog ++ [p] } := .of_same le_rfl ⟨rfl, rfl⟩
    exact ⟨hu.1.trans (haudible.trans hlogged), hsame.1.trans hu.2.1, hsame.2.trans hu.2.2⟩
  · exact hu

end Operations

section Inverses

/-- The engine owns every inverse it maintains. -/
def Unowned (C : Components α) (w : World α) : Prop :=
  ∀ t e o, C.IsInverse t → w.owner? t e ≠ some o

theorem Unowned.disowning (h : w.Unowned C)
    (hd : ∀ t e o, w'.owner? t e = some o → w.owner? t e = some o) : w'.Unowned C :=
  fun t e o ht ho => h t e o ht (hd t e o ho)

def unownedInverses (C : Components α) : Permits :=
  { Permits.all with writes := fun t _ o => o = none ∨ ¬ C.IsInverse t }

theorem closed_unowned (C : Components α) :
    Closed C (fun w w' : World α => w.Unowned C → w'.Unowned C) (unownedInverses C) where
  refl _ := id
  trans hab hbc := hbc ∘ hab
  bookkeeping hb _ h := h.disowning fun t e o ho => owner?_congr hb.stores t e ▸ ho
  write w t e v owner hw h t' e' o ht ho := by
    rw [owner?_writeEntry] at ho
    split_ifs at ho with hte
    · obtain ⟨rfl, rfl⟩ := hte
      rcases hw with rfl | hplain
      · cases ho
      · exact hplain ht
    · exact h t' e' o ht ho
  drop w t e remover _ h := h.disowning fun t' e' o ho => by
    rw [owner?_dropEntry] at ho
    split_ifs at ho
    exact ho
  sweep w t e o' _ h := h.disowning fun t' e' o ho => by
    rw [owner?_sweepEntry] at ho
    split_ifs at ho
    exact ho
  purge w e _ h := h.disowning fun t' e' o ho => by
    rw [owner?_purgeEntity] at ho
    split_ifs at ho
    exact ho
  inverse _ _ _ _ := Or.inl rfl

/-- No inverse is owned, and only `DerivedFrom` facts are held back. -/
structure Tended (C : Components α) (w : World α) : Prop where
  unowned : w.Unowned C
  held : ∀ p ∈ w.pendingDerivedFrom, C.role p.component = .derivedFrom

theorem not_inverse_of_derivedFrom (h : C.role t = .derivedFrom) : ¬ C.IsInverse t := by
  rintro ⟨edge, hedge⟩
  rw [h] at hedge
  cases hedge

theorem Tended.insert {v : Value α} {owner : Option SystemInvocation} (hw : w.Tended C)
    (ht : owner = none ∨ ¬ C.IsInverse t) (h : w.insert C t e v owner = some w') :
    w'.Tended C := by
  refine ⟨(closed_unowned C).insert h ht trivial hw.unowned, fun p hp => ?_⟩
  rcases insert_cases h with ⟨anchors, hrole, -, rfl⟩ | ⟨-, hsame⟩
  · rcases List.mem_append.mp hp with hp | hp
    · exact hw.held p hp
    · cases List.mem_singleton.mp hp
      exact hrole
  · rw [hsame.pending] at hp
    exact hw.held p hp

theorem Tended.command {c : Command α} (hw : w.Tended C) (hc : c.Tends C)
    (h : c.apply C w o = some w') : w'.Tended C := by
  have hclosed := closed_unowned C
  cases c with
  | insert t e v => exact hw.insert (Or.inr fun ht => hc t ht rfl) h
  | removeEntity e =>
    cases h
    refine ⟨hclosed.removeEntity w e trivial hw.unowned, fun p hp => ?_⟩
    rw [(sameBuffers_removeEntity w e).pending] at hp
    exact hw.held p hp
  | removeComponent t e =>
    cases h
    refine ⟨hclosed.removeComponent w t e (some o) (fun _ _ => trivial) hw.unowned, fun p hp => ?_⟩
    rw [(sameBuffers_removeComponent w t e (some o)).pending] at hp
    exact hw.held p hp
  | spawn bundle reserved =>
    simp only [Command.apply, Option.bind_eq_bind, Option.bind_eq_some_iff] at h
    obtain ⟨key, -, h⟩ := h
    obtain ⟨hstores, -, hpending, -⟩ := spawnTarget_spec w reserved key
    have hstart : ((w.spawnTarget reserved key).2.recordDerivedSpawn o
        (w.spawnTarget reserved key).1).Tended C := by
      refine ⟨hw.unowned.disowning fun t e o ho => owner?_congr hstores t e ▸ ho, fun p hp => ?_⟩
      exact hw.held p (hpending ▸ hp)
    exact List.foldlM_some_induction (Tended C) bundle h hstart fun _ p _ hp hu hstep =>
      hu.insert (Or.inr fun ht => hc p.1 ht p hp rfl) hstep

theorem Tended.applyCommands {commands : List (Command α)} (hw : w.Tended C)
    (hc : ∀ c ∈ commands, c.Tends C) (h : w.applyCommands C o commands = some w') :
    w'.Tended C :=
  List.foldlM_some_induction (Tended C) commands h hw fun _ c _ hmem hu hstep =>
    hu.command (hc c hmem) hstep

/-- A caller owns nothing. -/
theorem Tended.baseCommand {c : BaseCommand α} (hw : w.Tended C) (h : c.apply C w = some w') :
    w'.Tended C := by
  cases c with
  | insert t e v => exact hw.insert (Or.inl rfl) h
  | removeComponent t e =>
    cases h
    refine ⟨(closed_unowned C).removeComponent w t e none (fun _ _ => trivial) hw.unowned,
      fun p hp => ?_⟩
    rw [(sameBuffers_removeComponent w t e none).pending] at hp
    exact hw.held p hp
  | despawn e =>
    cases h
    refine ⟨(closed_unowned C).removeEntity w e trivial hw.unowned, fun p hp => ?_⟩
    rw [(sameBuffers_removeEntity w e).pending] at hp
    exact hw.held p hp

theorem Tended.flushDerivedFrom (hw : w.Tended C) (h : w.flushDerivedFrom C = some w') :
    w'.Tended C where
  unowned := (closed_unowned C).flushDerivedFrom h
    (fun p hp => Or.inr (not_inverse_of_derivedFrom (hw.held p hp))) trivial hw.unowned
  held p hp := by
    rw [(buffers_flushDerivedFrom h).1] at hp
    cases hp

theorem Tended.applyOutput {output : SystemOutput α} {deferInserts : Bool} (hw : w.Tended C)
    (hc : ∀ c ∈ output.commands, c.Tends C)
    (h : w.applyOutput C output deferInserts = some w') : w'.Tended C := by
  obtain ⟨applied, flushed, happlied, hflushed, rfl⟩ := exists_of_applyOutput h
  have hsub : ∀ c ∈ output.immediate deferInserts, c ∈ output.commands := fun c hmem => by
    unfold SystemOutput.immediate at hmem
    split_ifs at hmem
    · exact List.mem_of_mem_filter hmem
    · exact hmem
  have htaken : (w.takeDerivedOutputs output.owner).2.Tended C := ⟨hw.unowned, hw.held⟩
  have hflush : flushed.Tended C :=
    (htaken.applyCommands (fun c hmem => hc c (hsub c hmem)) happlied).flushDerivedFrom hflushed
  have hfinish : (flushed.finishDerivedSpawns output.owner).Tended C :=
    ⟨hflush.unowned, hflush.held⟩
  refine ⟨(closed_unowned C).removeDerivedStale _ _ (fun _ _ => trivial) hfinish.unowned,
    fun p hp => ?_⟩
  rw [(sameBuffers_removeDerivedStale (C := C) (flushed.finishDerivedSpawns output.owner)
    output.owner (w.outputs output.owner)).pending] at hp
  exact hfinish.held p hp

/-- Where the engine owns the inverses, a sweep records no loser. -/
theorem sameLosers_removeDerivedEntry (h : w.Unowned C) (t : TypeId) (e : Entity)
    (o : SystemInvocation) : SameLosers w (w.removeDerivedEntry C t e o) := by
  have hswept : SameLosers w (w.sweepEntry t e o) := by
    unfold sweepEntry
    split_ifs
    · exact ⟨rfl, rfl⟩
    · exact ⟨rfl, rfl⟩
  have hunowned := (closed_unowned C).sweep w t e o trivial h
  unfold removeDerivedEntry
  split_ifs
  · cases hedge : w.edgeOn C t e with
    | none => exact hswept
    | some p =>
      have hinverse : C.IsInverse p.1 := ⟨t, Closed.role_edgeOn p hedge⟩
      have hnone : (w.sweepEntry t e o).owner? p.1 p.2 = none := by
        cases howner : (w.sweepEntry t e o).owner? p.1 p.2 with
        | none => rfl
        | some o' => exact absurd howner (hunowned p.1 p.2 o' hinverse)
      have hretracted : SameLosers (w.sweepEntry t e o)
          ((w.sweepEntry t e o).retractEdge C e (some p)) := by
        unfold retractEdge relationshipRemoveMember
        dsimp only
        split
        · exact ⟨rfl, rfl⟩
        · split_ifs
          · unfold dropEntry
            rw [hnone]
            split_ifs
            · rw [(unregisterSingleton_eq C _ p.1 p.2).choose_spec]
              exact ⟨rfl, rfl⟩
            · exact ⟨rfl, rfl⟩
          · unfold writeEntry
            dsimp only
            rw [(reindexDerived_eq _ p.1 p.2 _ none).choose_spec]
            exact ⟨rfl, rfl⟩
          · exact ⟨rfl, rfl⟩
      exact ⟨hretracted.1.trans hswept.1, hretracted.2.trans hswept.2⟩
  · exact ⟨rfl, rfl⟩

theorem Tended.removeDerivedEntry (h : w.Tended C) (t : TypeId) (e : Entity)
    (o : SystemInvocation) : (w.removeDerivedEntry C t e o).Tended C := by
  refine ⟨(closed_unowned C).removeDerivedEntry w t e (o := o) trivial h.unowned, fun p hp => ?_⟩
  rw [(sameBuffers_removeDerivedEntry w t e o).pending] at hp
  exact h.held p hp

theorem Tended.retireOwners : ∀ (owners : List SystemInvocation) {w : World α}, w.Tended C →
    (w.retireOwners C owners).1.Tended C ∧ SameLosers w (w.retireOwners C owners).1
  | [], _, h => ⟨h, rfl, rfl⟩
  | o :: owners, w, h => by
    have hforgotten : (w.forgetOwner o).Tended C := ⟨h.unowned, h.held⟩
    have hremoved : (w.removeDerivedOwned C o).Tended C ∧
        SameLosers w (w.removeDerivedOwned C o) := by
      refine List.foldlRecOn (w.outputs o) _ (motive := fun u : World α =>
        u.Tended C ∧ SameLosers w u) ⟨hforgotten, rfl, rfl⟩ fun u hu p _ => ?_
      obtain ⟨howners, hcomponents⟩ := sameLosers_removeDerivedEntry hu.1.unowned p.1 p.2 o
      exact ⟨hu.1.removeDerivedEntry p.1 p.2 o, howners.trans hu.2.1, hcomponents.trans hu.2.2⟩
    obtain ⟨htended, howners, hcomponents⟩ := Tended.retireOwners owners hremoved.1
    exact ⟨htended, howners.trans hremoved.2.1, hcomponents.trans hremoved.2.2⟩

theorem Tended.reconcileWritten (h : w.Tended C) (writes : List (TypeId × Entity)) :
    (w.reconcileWritten C writes).Tended C := by
  refine ⟨h.unowned.disowning fun t e o ho => ?_, fun p hp => ?_⟩
  · rwa [(sameOwnership_reconcileWritten C w writes).1] at ho
  · rw [(sameBuffers_reconcileWritten w writes).pending] at hp
    exact h.held p hp

end Inverses

end World
end Porridge
