import Porridge.World.Ownership

/-! Every world operation keeps what the removal lists recorded. -/
namespace Porridge

variable {α : Type} (C : Components α)

/-- The removal lists of the second world extend those of the first. -/
structure World.Grows (w w' : World α) : Prop where
  entities : w.removedEntities <+: w'.removedEntities
  owners : w.removedOwners <+: w'.removedOwners
  componentOwners : w.removedComponentOwners <+: w'.removedComponentOwners

namespace World

theorem Grows.of_eq {w w' : World α} (he : w'.removedEntities = w.removedEntities)
    (ho : w'.removedOwners = w.removedOwners)
    (hc : w'.removedComponentOwners = w.removedComponentOwners) : w.Grows w' :=
  ⟨he ▸ List.prefix_rfl, ho ▸ List.prefix_rfl, hc ▸ List.prefix_rfl⟩

theorem Grows.trans {a b c : World α} (hab : a.Grows b) (hbc : b.Grows c) : a.Grows c :=
  ⟨hab.1.trans hbc.1, hab.2.trans hbc.2, hab.3.trans hbc.3⟩

theorem Grows.start {a b c : World α} (h : b.Grows c)
    (he : b.removedEntities = a.removedEntities) (ho : b.removedOwners = a.removedOwners)
    (hc : b.removedComponentOwners = a.removedComponentOwners) : a.Grows c :=
  (Grows.of_eq he ho hc).trans h

theorem grows_unindexDerived (w : World α) (o : SystemInvocation) (t : TypeId) (e : Entity) :
    w.Grows (w.unindexDerived o t e) := by
  unfold unindexDerived
  split <;> exact Grows.of_eq rfl rfl rfl

theorem grows_reindexDerived (w : World α) (t : TypeId) (e : Entity)
    (previous o : Option SystemInvocation) : w.Grows (w.reindexDerived t e previous o) := by
  unfold reindexDerived
  cases previous with
  | none => cases o <;> exact Grows.of_eq rfl rfl rfl
  | some p =>
    have hunindex : w.Grows (if o = some p then w else w.unindexDerived p t e) := by
      split_ifs
      · exact Grows.of_eq rfl rfl rfl
      · exact grows_unindexDerived w p t e
    cases o with
    | none => exact hunindex
    | some o => exact hunindex.trans (Grows.of_eq rfl rfl rfl)

theorem grows_dropEntry (w : World α) (t : TypeId) (e : Entity)
    (remover : Option SystemInvocation) : w.Grows (w.dropEntry C t e remover) := by
  have hunregister : ∀ u : World α, u.Grows (u.unregisterSingleton C t e) := by
    intro u
    unfold unregisterSingleton
    split
    · exact Grows.of_eq rfl rfl rfl
    · split_ifs <;> exact Grows.of_eq rfl rfl rfl
  have hdisown : ∀ (u : World α) (o : Option SystemInvocation),
      u.Grows (u.disownEntry t e o remover) := by
    intro u o
    cases o with
    | none => exact Grows.of_eq rfl rfl rfl
    | some o =>
      have hun := grows_unindexDerived u o t e
      unfold disownEntry
      dsimp only
      split_ifs
      · exact hun
      · exact hun.trans ⟨List.prefix_rfl, List.prefix_rfl, List.prefix_append _ _⟩
  unfold dropEntry
  split_ifs
  · exact ((hdisown ((w.eraseEntry t e).presenceSet t e false) _).trans (hunregister _)).start rfl rfl rfl
  · exact Grows.of_eq rfl rfl rfl

theorem grows_purgeEntity (w : World α) (e : Entity) : w.Grows (w.purgeEntity e) := by
  have herase : ∀ (types : List TypeId) (u : World α), u.Grows (u.eraseEntries types e) := by
    intro types
    induction types with
    | nil => exact fun u => Grows.of_eq rfl rfl rfl
    | cons t types ih => exact fun u => (ih (u.eraseEntry t e)).start rfl rfl rfl
  have hunindex : ∀ (pairs : List (SystemInvocation × TypeId)) (u : World α),
      u.Grows (u.unindexEntries pairs e) := by
    intro pairs
    induction pairs with
    | nil => exact fun u => Grows.of_eq rfl rfl rfl
    | cons p pairs ih => exact fun u => (grows_unindexDerived u p.1 p.2 e).trans (ih _)
  refine ((herase (w.componentsOn e) w).trans (hunindex (w.ownedOn e) _)).trans ?_
  exact ⟨List.prefix_append _ _, List.prefix_rfl, List.prefix_rfl⟩

/-- Every store effect keeps what the removal lists recorded. -/
theorem closed_grows : Closed C (fun w w' : World α => w.Grows w') Permits.all where
  refl _ := Grows.of_eq rfl rfl rfl
  trans hab hbc := hab.trans hbc
  bookkeeping hb _ := ⟨hb.removedEntities ▸ List.prefix_rfl, hb.removedOwners,
    hb.removedComponentOwners ▸ List.prefix_rfl⟩
  write w t e v o _ := (grows_reindexDerived _ t e _ o).start rfl rfl rfl
  drop w t e remover _ := grows_dropEntry C w t e remover
  sweep w t e o _ := by
    unfold sweepEntry
    split_ifs <;> exact Grows.of_eq rfl rfl rfl
  purge w e _ := grows_purgeEntity w e
  inverse _ _ _ _ := trivial

theorem grows_applyOutput {w w' : World α} {output : SystemOutput α} {deferInserts : Bool}
    (h : w.applyOutput C output deferInserts = some w') : w.Grows w' := by
  obtain ⟨applied, flushed, happly, hflush, rfl⟩ := exists_of_applyOutput h
  have happlied := (closed_grows C).applyCommands happly (Permits.grants_all _)
  have hflushed := (closed_grows C).flushDerivedFrom hflush (fun _ _ => trivial) trivial
  have hstale := (closed_grows C).removeDerivedStale (o := output.owner)
    (flushed.finishDerivedSpawns output.owner) (w.outputs output.owner) fun _ _ => trivial
  exact (happlied.trans (hflushed.trans (hstale.start rfl rfl rfl))).start rfl rfl rfl

theorem grows_restampEntry (w : World α) (t : TypeId) (e : Entity) (v : Value α) :
    w.Grows (w.restampEntry C t e v) := by
  unfold restampEntry
  split
  · exact Grows.of_eq rfl rfl rfl
  · split_ifs <;> exact Grows.of_eq rfl rfl rfl

theorem grows_updateComponent (w : World α) (t : TypeId) (e : Entity) (v : Value α) :
    w.Grows (w.updateComponent C t e v) := by
  have hrestamp := grows_restampEntry C w t e v
  unfold updateComponent
  split_ifs
  · exact hrestamp.trans (Grows.of_eq rfl rfl rfl)
  · exact hrestamp

theorem grows_writeInPlace (w : World α) (t : TypeId) (e : Entity) (v : Value α) :
    w.Grows (w.writeInPlace t e v) := by
  unfold writeInPlace
  split <;> exact Grows.of_eq rfl rfl rfl

theorem grows_reconcileWritten (w : World α) (writes : List (TypeId × Entity)) :
    w.Grows (w.reconcileWritten C writes) := by
  refine List.foldlRecOn writes _ (motive := w.Grows) (Grows.of_eq rfl rfl rfl)
    fun u hu p _ => hu.trans ?_
  have hreconciled : u.Grows (u.reconcileEntry C p.1 p.2) := by
    unfold reconcileEntry
    split
    · exact Grows.of_eq rfl rfl rfl
    · exact grows_restampEntry C u p.1 p.2 _
  dsimp only
  split_ifs
  · exact hreconciled.trans (Grows.of_eq rfl rfl rfl)
  · exact Grows.of_eq rfl rfl rfl

/-- Removing an entity records it and the owners of its derived components. -/
theorem recorded_removeEntity (w : World α) (e : Entity) :
    e ∈ (w.removeEntity C e).removedEntities ∧
      ∀ t o, w.owner? t e = some o → o ∈ (w.removeEntity C e).removedOwners := by
  constructor
  · have hpurged : e ∈ (w.purgeEntity e).removedEntities := by simp [purgeEntity]
    have hedges := (closed_grows C).foldl
      (f := fun w edge => w.retractEdge C e (some edge)) (w.edgesOn C e) (w.purgeEntity e)
      fun u edge hmem => by
        obtain ⟨t, -, ht⟩ := List.mem_filterMap.mp hmem
        exact (closed_grows C).retractEdge (t := t) u e fun p hp =>
          Closed.role_edgeOn p (by simp only [Option.mem_def, Option.some.injEq] at hp; exact hp ▸ ht)
    have hfreed := (closed_grows C).foldl
      (f := fun w edge => w.removeComponent C edge.1 edge.2 none) (w.retractionsOn C e)
      ((w.edgesOn C e).foldl (fun w edge => w.retractEdge C e (some edge)) (w.purgeEntity e))
      fun u edge _ => (closed_grows C).removeComponent u edge.1 edge.2 none fun _ ho => nomatch ho
    exact (hedges.trans hfreed).entities.subset hpurged
  · intro t o ho
    exact List.mem_append_right _ ((mem_ownersOn w e o).mpr ⟨t, ho⟩)

/-! ## The removed entities -/

/-- Every effect but the removal of an entity. -/
def unpurged : Permits := { Permits.all with purges := fun _ => False }

@[simp] theorem unindexDerived_removedEntities (w : World α) (o : SystemInvocation) (t : TypeId)
    (e : Entity) : (w.unindexDerived o t e).removedEntities = w.removedEntities := by
  unfold unindexDerived
  split <;> rfl

@[simp] theorem reindexDerived_removedEntities (w : World α) (t : TypeId) (e : Entity)
    (previous o : Option SystemInvocation) :
    (w.reindexDerived t e previous o).removedEntities = w.removedEntities := by
  unfold reindexDerived
  cases previous with
  | none => cases o <;> rfl
  | some p => cases o <;> dsimp only <;> split_ifs <;> simp [indexDerived]

@[simp] theorem dropEntry_removedEntities (w : World α) (t : TypeId) (e : Entity)
    (remover : Option SystemInvocation) :
    (w.dropEntry C t e remover).removedEntities = w.removedEntities := by
  have hunregister : ∀ u : World α,
      (u.unregisterSingleton C t e).removedEntities = u.removedEntities := by
    intro u
    unfold unregisterSingleton
    split
    · rfl
    · split_ifs <;> rfl
  unfold dropEntry
  split_ifs
  · rw [hunregister]
    unfold disownEntry
    cases w.owner? t e with
    | none => rfl
    | some o =>
      dsimp only
      split_ifs <;> simp [eraseEntry, presenceSet]
  · rfl

theorem purgeEntity_removedEntities (w : World α) (e : Entity) :
    (w.purgeEntity e).removedEntities = w.removedEntities ++ [e] := by
  have herase : ∀ (types : List TypeId) (u : World α),
      (u.eraseEntries types e).removedEntities = u.removedEntities := by
    intro types
    induction types with
    | nil => exact fun _ => rfl
    | cons t types ih => exact fun u => ih (u.eraseEntry t e)
  have hunindex : ∀ (pairs : List (SystemInvocation × TypeId)) (u : World α),
      (u.unindexEntries pairs e).removedEntities = u.removedEntities := by
    intro pairs
    induction pairs with
    | nil => exact fun _ => rfl
    | cons p pairs ih => exact fun u => (ih _).trans (unindexDerived_removedEntities u p.1 p.2 e)
  show ((w.eraseEntries (w.componentsOn e) e).unindexEntries (w.ownedOn e) e).removedEntities ++
    [e] = w.removedEntities ++ [e]
  rw [hunindex, herase]

theorem closed_sameRemoved :
    Closed C (fun w w' : World α => w'.removedEntities = w.removedEntities) unpurged where
  refl _ := rfl
  trans hab hbc := hbc.trans hab
  bookkeeping hb _ := hb.removedEntities
  write _ t e _ o _ := reindexDerived_removedEntities _ t e _ o
  drop w t e remover _ := dropEntry_removedEntities C w t e remover
  sweep w t e o _ := by
    unfold sweepEntry
    split_ifs <;> rfl
  purge _ _ hp := hp.elim
  inverse _ _ _ _ := trivial

end World

def Command.removed : Command α → Option Entity
  | removeEntity e => some e
  | _ => none

namespace World

theorem removedEntities_command {w w' : World α} {o : SystemInvocation} {c : Command α}
    (hc : c.apply C w o = some w') :
    w'.removedEntities = w.removedEntities ++ c.removed.toList := by
  have hsame : c.removed = none → w'.removedEntities = w.removedEntities := by
    intro hnone
    refine (closed_sameRemoved C).commandOf hc (fun _ _ => trivial) (fun _ _ => trivial) ?_ trivial
    rintro e rfl
    cases hnone
  cases c with
  | removeEntity e =>
    cases hc
    exact ((closed_sameRemoved C).unlinkEntity w e).trans (purgeEntity_removedEntities w e)
  | insert _ _ _ | spawn _ _ | removeComponent _ _ =>
    exact (hsame rfl).trans (List.append_nil _).symm

theorem removedEntities_applyCommands {o : SystemInvocation} :
    ∀ {commands : List (Command α)} {w w' : World α}, w.applyCommands C o commands = some w' →
      w'.removedEntities = w.removedEntities ++ commands.filterMap Command.removed
  | [], w, w', ha => by
    cases ha
    exact (List.append_nil _).symm
  | c :: commands, w, w', ha => by
    obtain ⟨u, hu, hrest⟩ := Option.bind_eq_some_iff.mp ha
    rw [removedEntities_applyCommands hrest, removedEntities_command C hu, List.append_assoc]
    cases hc : c.removed <;> simp [hc]

/-- A commit of an output removes the entities that its commands remove. -/
theorem removedEntities_applyOutput {w w' : World α} {output : SystemOutput α}
    (ha : w.applyOutput C output false = some w') :
    w'.removedEntities = w.removedEntities ++ output.commands.filterMap Command.removed := by
  obtain ⟨applied, flushed, happly, hflush, rfl⟩ := exists_of_applyOutput ha
  have happlied := removedEntities_applyCommands C happly
  have hflushed := (closed_sameRemoved C).flushDerivedFrom hflush (fun _ _ => trivial) trivial
  have hstale := (closed_sameRemoved C).removeDerivedStale (o := output.owner)
    (flushed.finishDerivedSpawns output.owner) (w.outputs output.owner) fun _ _ => trivial
  exact hstale.trans (hflushed.trans happlied)

end World

end Porridge
