import Porridge.World.Registry

/-! What command buffers keep in the world: deferred inserts, spawn slots and their cursors. -/
namespace Porridge

variable {α : Type} {C : Components α}

namespace World

variable {w w' : World α}

/-- The deferred inserts, the spawn slots with their cursors, and the id counter are the same. -/
structure SameBuffers (w w' : World α) : Prop where
  pending : w'.pendingDerivedFrom = w.pendingDerivedFrom
  flushing : w'.flushingAnchors = w.flushingAnchors
  spawns : w'.derivedSpawns = w.derivedSpawns
  cursors : w'.spawnCursors = w.spawnCursors
  next : w'.nextEntity = w.nextEntity

theorem SameBuffers.refl (w : World α) : SameBuffers w w := ⟨rfl, rfl, rfl, rfl, rfl⟩

theorem SameBuffers.trans {a b c : World α} (hab : SameBuffers a b) (hbc : SameBuffers b c) :
    SameBuffers a c where
  pending := hbc.pending.trans hab.pending
  flushing := hbc.flushing.trans hab.flushing
  spawns := hbc.spawns.trans hab.spawns
  cursors := hbc.cursors.trans hab.cursors
  next := hbc.next.trans hab.next

theorem SameBuffers.foldl {ι : Type} {f : World α → ι → World α} (xs : List ι) (w : World α)
    (step : ∀ w, ∀ x ∈ xs, SameBuffers w (f w x)) : SameBuffers w (xs.foldl f w) :=
  List.foldlRecOn xs f (.refl w) fun u hu x hx => hu.trans (step u x hx)

section Effects

theorem sameBuffers_writeEntry (w : World α) (t : TypeId) (e : Entity) (v : Value α)
    (owner : Option SystemInvocation) : SameBuffers w (w.writeEntry C t e v owner) := by
  unfold writeEntry
  dsimp only
  rw [(reindexDerived_eq _ t e (w.owner? t e) owner).choose_spec]
  exact ⟨rfl, rfl, rfl, rfl, rfl⟩

theorem sameBuffers_dropEntry (w : World α) (t : TypeId) (e : Entity)
    (remover : Option SystemInvocation) : SameBuffers w (w.dropEntry C t e remover) := by
  unfold dropEntry
  split_ifs
  · obtain ⟨owners, losers, h⟩ :=
      disownEntry_eq ((w.eraseEntry t e).presenceSet t e false) t e (w.owner? t e) remover
    obtain ⟨singletons, h'⟩ := unregisterSingleton_eq C
      (((w.eraseEntry t e).presenceSet t e false).disownEntry t e (w.owner? t e) remover) t e
    rw [h', h]
    exact ⟨rfl, rfl, rfl, rfl, rfl⟩
  · exact .refl w

theorem sameBuffers_sweepEntry (w : World α) (t : TypeId) (e : Entity) (o : SystemInvocation) :
    SameBuffers w (w.sweepEntry t e o) := by
  unfold sweepEntry
  split_ifs
  · exact ⟨rfl, rfl, rfl, rfl, rfl⟩
  · exact .refl w

theorem sameBuffers_purgeEntity (w : World α) (e : Entity) : SameBuffers w (w.purgeEntity e) := by
  obtain ⟨stores, revision, mutations, log, h⟩ := eraseEntries_eq e (w.componentsOn e) w
  obtain ⟨owners, h'⟩ := unindexEntries_eq e (w.ownedOn e) (w.eraseEntries (w.componentsOn e) e)
  unfold purgeEntity
  rw [h', h]
  exact ⟨rfl, rfl, rfl, rfl, rfl⟩

theorem sameBuffers_restampEntry (w : World α) (t : TypeId) (e : Entity) (v : Value α) :
    SameBuffers w (w.restampEntry C t e v) := by
  unfold restampEntry
  split
  · exact .refl w
  · split_ifs
    · exact ⟨rfl, rfl, rfl, rfl, rfl⟩
    · exact ⟨rfl, rfl, rfl, rfl, rfl⟩

end Effects

section Relationships

theorem sameBuffers_retractEdge (w : World α) (source : Entity)
    (edge : Option (TypeId × Entity)) : SameBuffers w (w.retractEdge C source edge) := by
  cases edge with
  | none => exact .refl w
  | some p =>
    unfold retractEdge relationshipRemoveMember
    dsimp only
    split
    · exact .refl w
    · split_ifs
      · exact sameBuffers_dropEntry w p.1 p.2 none
      · exact sameBuffers_writeEntry w p.1 p.2 _ none
      · exact .refl w

theorem sameBuffers_establishEdge (w : World α) (source : Entity)
    (edge : Option (TypeId × Entity)) : SameBuffers w (w.establishEdge C source edge) := by
  cases edge with
  | none => exact .refl w
  | some p =>
    unfold establishEdge relationshipAddMember
    dsimp only
    split_ifs
    · exact .refl w
    · exact sameBuffers_writeEntry w p.1 p.2 _ none

theorem sameBuffers_insertEntry (w : World α) (t : TypeId) (e : Entity) (v : Value α)
    (owner : Option SystemInvocation) : SameBuffers w (w.insertEntry C t e v owner) := by
  have hwrite : SameBuffers w (w.writeEntry C t e v owner) := sameBuffers_writeEntry w t e v owner
  unfold insertEntry
  dsimp only
  split_ifs
  · exact hwrite
  · exact hwrite.trans ((sameBuffers_retractEdge _ e _).trans (sameBuffers_establishEdge _ e _))

theorem sameBuffers_removeComponent (w : World α) (t : TypeId) (e : Entity)
    (remover : Option SystemInvocation) : SameBuffers w (w.removeComponent C t e remover) :=
  (sameBuffers_dropEntry w t e remover).trans (sameBuffers_retractEdge _ e _)

theorem sameBuffers_removeDerivedEntry (w : World α) (t : TypeId) (e : Entity)
    (o : SystemInvocation) : SameBuffers w (w.removeDerivedEntry C t e o) := by
  unfold removeDerivedEntry
  split_ifs
  · exact (sameBuffers_sweepEntry w t e o).trans (sameBuffers_retractEdge _ e _)
  · exact .refl w

theorem sameBuffers_removeDerivedStale (w : World α) (o : SystemInvocation)
    (previous : List (TypeId × Entity)) :
    SameBuffers w (w.removeDerivedStale C o previous) := by
  refine SameBuffers.foldl previous w fun u p _ => ?_
  split_ifs
  · exact .refl u
  · exact sameBuffers_removeDerivedEntry u p.1 p.2 o

theorem sameBuffers_removeDerivedEntries (w : World α) (o : SystemInvocation)
    (pairs : List (TypeId × Entity)) : SameBuffers w (w.removeDerivedEntries C o pairs) :=
  SameBuffers.foldl pairs w fun u p _ => sameBuffers_removeDerivedEntry u p.1 p.2 o

theorem sameBuffers_removeEntity (w : World α) (e : Entity) :
    SameBuffers w (w.removeEntity C e) := by
  have hedges : SameBuffers (w.purgeEntity e)
      ((w.edgesOn C e).foldl (fun w edge => w.retractEdge C e (some edge)) (w.purgeEntity e)) :=
    SameBuffers.foldl _ _ fun u edge _ => sameBuffers_retractEdge u e (some edge)
  have hretractions : ∀ u : World α, SameBuffers u
      ((w.retractionsOn C e).foldl (fun w edge => w.removeComponent C edge.1 edge.2 none) u) :=
    fun u => SameBuffers.foldl _ u fun u edge _ => sameBuffers_removeComponent u edge.1 edge.2 none
  have hfreed := (sameBuffers_purgeEntity w e).trans (hedges.trans (hretractions _))
  exact ⟨hfreed.pending, hfreed.flushing, hfreed.spawns, hfreed.cursors, hfreed.next⟩

theorem sameBuffers_reconcileWritten (w : World α) (writes : List (TypeId × Entity)) :
    SameBuffers w (w.reconcileWritten C writes) := by
  refine SameBuffers.foldl writes w fun u p _ => ?_
  have hentry : SameBuffers u (u.reconcileEntry C p.1 p.2) := by
    unfold reconcileEntry
    split
    · exact .refl u
    · exact sameBuffers_restampEntry u p.1 p.2 _
  dsimp only
  split_ifs
  · exact ⟨hentry.pending, hentry.flushing, hentry.spawns, hentry.cursors, hentry.next⟩
  · exact .refl u

end Relationships

section Inserts

theorem sameBuffers_registerSingleton {t : TypeId} {e : Entity}
    (h : w.registerSingleton C t e = some w') : SameBuffers w w' := by
  unfold registerSingleton at h
  split at h
  · cases h
    exact .refl w
  · split at h
    · split_ifs at h
      cases h
      exact .refl w
    · cases h
      exact ⟨rfl, rfl, rfl, rfl, rfl⟩

theorem sameBuffers_insertNow {t : TypeId} {e : Entity} {v : Value α}
    {owner : Option SystemInvocation} (h : w.insertNow C t e v owner = some w') :
    SameBuffers w w' := by
  obtain ⟨u, hu, rfl⟩ := Option.map_eq_some_iff.mp h
  exact (sameBuffers_registerSingleton hu).trans (sameBuffers_insertEntry u t e v owner)

/-- An insert is held back, or keeps what the buffers hold. -/
theorem insert_cases {t : TypeId} {e : Entity} {v : Value α} {owner : Option SystemInvocation}
    (h : w.insert C t e v owner = some w') :
    (∃ anchors, C.role t = .derivedFrom ∧ w.flushingAnchors = false ∧ w' =
      { w with pendingDerivedFrom := w.pendingDerivedFrom ++ [⟨t, e, anchors, owner⟩] }) ∨
    (w.insertNow C t e (w.capture C v) owner = some w' ∧ SameBuffers w w') := by
  unfold World.insert at h
  cases hdeferred : w.deferredAnchors C t v with
  | none =>
    rw [hdeferred] at h
    exact Or.inr ⟨h, sameBuffers_insertNow h⟩
  | some anchors =>
    rw [hdeferred] at h
    cases h
    unfold deferredAnchors at hdeferred
    split at hdeferred
    · split_ifs at hdeferred with hrole
      exact Or.inl ⟨anchors, hrole.1, hrole.2, rfl⟩
    · cases hdeferred

/-- A flush empties what it writes and keeps the spawn slots. -/
theorem buffers_flushDerivedFrom (h : w.flushDerivedFrom C = some w') :
    w'.pendingDerivedFrom = [] ∧ w'.flushingAnchors = false ∧
      w'.derivedSpawns = w.derivedSpawns ∧ w'.spawnCursors = w.spawnCursors ∧
      w'.nextEntity = w.nextEntity := by
  obtain ⟨u, hu, rfl⟩ := Option.map_eq_some_iff.mp h
  have hsame : SameBuffers { w with pendingDerivedFrom := [], flushingAnchors := true } u := by
    refine List.foldlM_some_induction (SameBuffers _) _ hu (.refl _) fun m p m' _ hm hstep => ?_
    rcases insert_cases hstep with ⟨anchors, -, hidle, -⟩ | ⟨-, hsame⟩
    · rw [hm.flushing] at hidle
      cases hidle
    · exact hm.trans hsame
  exact ⟨hsame.pending, rfl, hsame.spawns, hsame.cursors, hsame.next⟩

end Inserts

end World
end Porridge
