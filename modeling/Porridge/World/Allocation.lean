import Porridge.World.Trims

/-! Ids come from the allocator: whatever sits on an entity sits on an id that was handed out. -/
namespace Porridge

variable {α : Type} {C : Components α}

def PointsBelow (C : Components α) (n : Entity) (t : TypeId) (v : Value α) : Prop :=
  ∀ edge ∈ C.relationshipEdge t v, edge.2 < n

instance (n : Entity) (t : TypeId) (v : Value α) : Decidable (PointsBelow C n t v) :=
  inferInstanceAs (Decidable (∀ edge ∈ C.relationshipEdge t v, edge.2 < n))

def Command.Below (C : Components α) (n : Entity) : Command α → Prop
  | .insert t e v => e < n ∧ PointsBelow C n t v
  | .spawn bundle reserved => reserved < n ∧ ∀ p ∈ bundle, PointsBelow C n p.1 p.2
  | .removeEntity _ | .removeComponent _ _ => True

instance Command.Below.decidable (n : Entity) : ∀ c : Command α, Decidable (c.Below C n)
  | .insert t e v => inferInstanceAs (Decidable (e < n ∧ PointsBelow C n t v))
  | .spawn bundle reserved =>
    inferInstanceAs (Decidable (reserved < n ∧ ∀ p ∈ bundle, PointsBelow C n p.1 p.2))
  | .removeEntity _ | .removeComponent _ _ => inferInstanceAs (Decidable True)

/-- The use names allocated ids where it writes: a caller has no other handles. -/
def WorldOp.Allocated (C : Components α) (w : World α) : WorldOp α → Prop
  | .base (.insert t e v) => e < w.nextEntity ∧ PointsBelow C w.nextEntity t v
  | .output o _ => ∀ c ∈ o.commands, c.Below C w.nextEntity
  | .commands _ queue => ∀ c ∈ queue, c.Below C w.nextEntity
  | _ => True

instance (w : World α) (op : WorldOp α) : Decidable (op.Allocated C w) := by
  unfold WorldOp.Allocated
  split <;> infer_instance

namespace World

variable {w w' : World α} {n : Entity}

/-- Components, registrations and deferred inserts are on ids below `n`. -/
structure Below (n : Entity) (w : World α) : Prop where
  entries : ∀ t e, w.has t e = true → e < n
  registry : ∀ key e, w.registry key = some e → e < n
  pending : ∀ p ∈ w.pendingDerivedFrom, p.entity < n

abbrev Handled (C : Components α) : World α → Prop :=
  (machine C).ReachableUnder fun w op => op.Allocated C w

section Entries

/-- Every entry is on an id below `n`. -/
def Confined (n : Entity) (w : World α) : Prop := ∀ t e, w.has t e = true → e < n

theorem Confined.of_shrinks (h : w.Confined n) (hs : ∀ t e, w'.has t e = true → w.has t e = true) :
    w'.Confined n := fun t e he => h t e (hs t e he)

theorem Confined.writeEntry (h : w.Confined n) {e : Entity} (he : e < n) (t : TypeId) (v : Value α)
    (o : Option SystemInvocation) : (w.writeEntry C t e v o).Confined n := by
  intro t' e' hhas
  rw [has_writeEntry] at hhas
  split_ifs at hhas with hsame
  · rw [hsame.2]
    exact he
  · exact h t' e' hhas

theorem Confined.dropEntry (h : w.Confined n) (t : TypeId) (e : Entity)
    (remover : Option SystemInvocation) : (w.dropEntry C t e remover).Confined n := by
  refine h.of_shrinks fun t' e' hhas => ?_
  rw [has_dropEntry] at hhas
  split_ifs at hhas
  exact hhas

theorem Confined.sweepEntry (h : w.Confined n) (t : TypeId) (e : Entity) (o : SystemInvocation) :
    (w.sweepEntry t e o).Confined n := by
  refine h.of_shrinks fun t' e' hhas => ?_
  rw [has_sweepEntry] at hhas
  split_ifs at hhas
  exact hhas

theorem Confined.purgeEntity (h : w.Confined n) (e : Entity) : (w.purgeEntity e).Confined n := by
  refine h.of_shrinks fun t' e' hhas => ?_
  rw [has_purgeEntity] at hhas
  split_ifs at hhas
  exact hhas

/-- A retraction rewrites or removes an inverse that is there. -/
theorem Confined.retractEdge (h : w.Confined n) (source : Entity)
    (edge : Option (TypeId × Entity)) : (w.retractEdge C source edge).Confined n := by
  cases edge with
  | none => exact h
  | some p =>
    unfold World.retractEdge relationshipRemoveMember
    dsimp only
    cases hx : w.cell? p.1 p.2 with
    | none => exact h
    | some x =>
      have hp : p.2 < n := h p.1 p.2 ((has_iff w p.1 p.2).mpr ⟨x, hx⟩)
      dsimp only
      split_ifs
      · exact h.dropEntry p.1 p.2 none
      · exact h.writeEntry hp p.1 _ none
      · exact h

theorem Confined.establishEdge (h : w.Confined n) (source : Entity)
    {edge : Option (TypeId × Entity)} (hedge : ∀ p ∈ edge, p.2 < n) :
    (w.establishEdge C source edge).Confined n := by
  cases edge with
  | none => exact h
  | some p =>
    unfold World.establishEdge relationshipAddMember
    dsimp only
    split_ifs
    · exact h
    · exact h.writeEntry (hedge p rfl) p.1 _ none

theorem Confined.insertEntry (h : w.Confined n) {t : TypeId} {e : Entity} {v : Value α} (he : e < n)
    (hv : PointsBelow C n t v) (o : Option SystemInvocation) :
    (w.insertEntry C t e v o).Confined n := by
  have hwritten := h.writeEntry (C := C) he t v o
  unfold World.insertEntry
  dsimp only
  split_ifs
  · exact hwritten
  · exact (hwritten.retractEdge e (w.edgeOn C t e)).establishEdge e hv

theorem Confined.removeComponent (h : w.Confined n) (t : TypeId) (e : Entity)
    (remover : Option SystemInvocation) : (w.removeComponent C t e remover).Confined n :=
  (h.dropEntry t e remover).retractEdge e _

theorem Confined.removeDerivedEntry (h : w.Confined n) (t : TypeId) (e : Entity)
    (o : SystemInvocation) : (w.removeDerivedEntry C t e o).Confined n := by
  unfold World.removeDerivedEntry
  split_ifs
  · exact (h.sweepEntry t e o).retractEdge e _
  · exact h

theorem Confined.removeEntity (h : w.Confined n) (e : Entity) : (w.removeEntity C e).Confined n := by
  have hretracted : ((w.edgesOn C e).foldl (fun w edge => w.retractEdge C e (some edge))
      (w.purgeEntity e)).Confined n :=
    List.foldlRecOn (w.edgesOn C e) _ (motive := Confined n) (h.purgeEntity e)
      fun _ hu edge _ => hu.retractEdge e (some edge)
  exact List.foldlRecOn (w.retractionsOn C e)
    (fun w edge => w.removeComponent C edge.1 edge.2 none) (motive := Confined n) hretracted
    fun _ hu edge _ => hu.removeComponent edge.1 edge.2 none

end Entries

section Operations

theorem Below.of_clears (h : w.Below n) (he : w'.Confined n) (hc : Clears w w')
    (hp : w'.pendingDerivedFrom = w.pendingDerivedFrom) : w'.Below n where
  entries := he
  registry key e hkey := by
    rcases hc key with hnone | hsame
    · exact absurd (hkey.symm.trans hnone) nofun
    · exact h.registry key e (hsame.symm.trans hkey)
  pending := hp ▸ h.pending

theorem Below.removeComponent (h : w.Below n) (t : TypeId) (e : Entity)
    (remover : Option SystemInvocation) : (w.removeComponent C t e remover).Below n :=
  h.of_clears (Confined.removeComponent h.entries t e remover) (clears_removeComponent w t e remover)
    (sameBuffers_removeComponent w t e remover).pending

theorem Below.removeEntity (h : w.Below n) (e : Entity) : (w.removeEntity C e).Below n :=
  h.of_clears (Confined.removeEntity h.entries e) (clears_removeEntity w e)
    (sameBuffers_removeEntity w e).pending

theorem Below.removeDerivedEntry (h : w.Below n) (t : TypeId) (e : Entity) (o : SystemInvocation) :
    (w.removeDerivedEntry C t e o).Below n :=
  h.of_clears (Confined.removeDerivedEntry h.entries t e o) (clears_removeDerivedEntry w t e o)
    (sameBuffers_removeDerivedEntry w t e o).pending

theorem Below.removeDerivedStale (h : w.Below n) (o : SystemInvocation)
    (previous : List (TypeId × Entity)) : (w.removeDerivedStale C o previous).Below n := by
  refine List.foldlRecOn previous _ (motive := Below n) h fun u hu p _ => ?_
  split_ifs
  · exact hu
  · exact hu.removeDerivedEntry p.1 p.2 o

theorem Below.removeDerivedOwned (h : w.Below n) (o : SystemInvocation) :
    (w.removeDerivedOwned C o).Below n :=
  List.foldlRecOn (w.outputs o) (fun w p => w.removeDerivedEntry C p.1 p.2 o) (motive := Below n)
    (b := w.forgetOwner o) ⟨h.entries, h.registry, h.pending⟩
    fun _ hu p _ => hu.removeDerivedEntry p.1 p.2 o

theorem Below.retireOwners : ∀ (owners : List SystemInvocation) {w : World α}, w.Below n →
    (w.retireOwners C owners).1.Below n
  | [], _, h => h
  | o :: owners, _, h => retireOwners owners (h.removeDerivedOwned o)

theorem pointsBelow_capture {t : TypeId} {v : Value α} (h : PointsBelow C n t v) :
    PointsBelow C n t (w.capture C v) := by
  cases v with
  | data _ => exact h
  | members _ => exact h
  | derivedFrom _ =>
    intro edge hedge
    unfold Components.relationshipEdge at hedge
    split at hedge
    · rename_i hvalue
      cases hvalue
    · cases hedge

theorem Below.insert (h : w.Below n) {t : TypeId} {e : Entity} {v : Value α}
    {owner : Option SystemInvocation} (he : e < n) (hv : PointsBelow C n t v)
    (hins : w.insert C t e v owner = some w') : w'.Below n := by
  have hregistry : ∀ key e', w'.registry key = some e' → e' < n := by
    intro key e' hkey
    rw [registry_insert hins] at hkey
    dsimp only at hkey
    split_ifs at hkey
    · cases hkey
      exact he
    · exact h.registry key e' hkey
  rcases insert_cases hins with ⟨anchors, -, -, rfl⟩ | ⟨hnow, hsame⟩
  · refine ⟨h.entries, hregistry, fun p hp => ?_⟩
    rcases List.mem_append.mp hp with hp | hp
    · exact h.pending p hp
    · rw [List.mem_singleton.mp hp]
      exact he
  · obtain ⟨u, hu, rfl⟩ := Option.map_eq_some_iff.mp hnow
    have hstores : u.Confined n := by
      intro t' e' hhas
      rw [has_congr (registerSingleton_eq hu).1] at hhas
      exact h.entries t' e' hhas
    exact ⟨hstores.insertEntry he (pointsBelow_capture hv) owner, hregistry,
      hsame.pending ▸ h.pending⟩

theorem Below.insertBundle {e : Entity} {o : SystemInvocation} {bundle : List (TypeId × Value α)}
    (h : w.Below n) (he : e < n) (hbundle : ∀ p ∈ bundle, PointsBelow C n p.1 p.2)
    (hins : w.insertBundle C e bundle o = some w') : w'.Below n :=
  List.foldlM_some_induction (Below n) bundle hins h
    fun _ p _ hp hu hstep => hu.insert he (hbundle p hp) hstep

theorem Below.command (h : w.Below n) {c : Command α} {o : SystemInvocation} (hc : c.Below C n)
    (happly : c.apply C w o = some w') : w'.Below n := by
  cases c with
  | insert t e v => exact h.insert hc.1 hc.2 happly
  | removeEntity e =>
    cases happly
    exact h.removeEntity e
  | removeComponent t e =>
    cases happly
    exact h.removeComponent t e (some o)
  | spawn bundle reserved =>
    simp only [Command.apply, Option.bind_eq_bind, Option.bind_eq_some_iff] at happly
    obtain ⟨key, -, happly⟩ := happly
    have htarget : (w.spawnTarget reserved key).1 < n ∧ (w.spawnTarget reserved key).2.Below n := by
      cases key with
      | none => exact ⟨hc.1, h⟩
      | some key =>
        unfold spawnTarget singletonEntityOrRegister
        dsimp only
        cases hlookup : w.singletonEntities.lookup key with
        | some e => exact ⟨h.registry key e hlookup, h⟩
        | none =>
          refine ⟨hc.1, h.entries, fun key' e' hkey => ?_, h.pending⟩
          change (w.singletonEntities.insert key reserved).lookup key' = some e' at hkey
          rw [Dict.lookup_insert] at hkey
          split_ifs at hkey
          · cases hkey
            exact hc.1
          · exact h.registry key' e' hkey
    have hslot : ((w.spawnTarget reserved key).2.recordDerivedSpawn o
        (w.spawnTarget reserved key).1).Below n := ⟨htarget.2.entries, htarget.2.registry, htarget.2.pending⟩
    exact hslot.insertBundle htarget.1 hc.2 happly

theorem Below.applyCommands (h : w.Below n) {o : SystemInvocation} {commands : List (Command α)}
    (hc : ∀ c ∈ commands, c.Below C n) (happly : w.applyCommands C o commands = some w') :
    w'.Below n :=
  List.foldlM_some_induction (Below n) commands happly h
    fun _ c _ hmem hu hstep => hu.command (hc c hmem) hstep

theorem Below.flushDerivedFrom (h : w.Below n) (hflush : w.flushDerivedFrom C = some w') :
    w'.Below n := by
  obtain ⟨u, hu, rfl⟩ := Option.map_eq_some_iff.mp hflush
  have hstart : Below n { w with pendingDerivedFrom := [], flushingAnchors := true } :=
    ⟨h.entries, h.registry, fun _ hp => absurd hp List.not_mem_nil⟩
  have hfolded : u.Below n := by
    refine List.foldlM_some_induction (Below n) _ hu hstart fun m p m' hp hm hstep => ?_
    refine hm.insert (h.pending p hp) (fun edge hedge => ?_) hstep
    unfold Components.relationshipEdge at hedge
    split at hedge
    · rename_i hvalue
      cases hvalue
    · cases hedge
  exact ⟨hfolded.entries, hfolded.registry, hfolded.pending⟩

end Operations

section Runs

theorem Below.mono {m : Entity} (h : w.Below n) (hle : n ≤ m) : w.Below m where
  entries t e he := lt_of_lt_of_le (h.entries t e he) hle
  registry key e he := lt_of_lt_of_le (h.registry key e he) hle
  pending p hp := lt_of_lt_of_le (h.pending p hp) hle

/-- The spawn phase and the index of an owner hold no entity. -/
theorem Below.applyOutput (h : w.Below n) {o : SystemOutput α} {deferInserts : Bool}
    (hc : ∀ c ∈ o.commands, c.Below C n) (hs : w.applyOutput C o deferInserts = some w') :
    w'.Below n ∧ w'.nextEntity = w.nextEntity := by
  obtain ⟨applied, flushed, happly, hflush, rfl⟩ := exists_of_applyOutput hs
  have himmediate : ∀ c ∈ (if deferInserts then o.commands.filter (!·.defersAtSettle)
      else o.commands), c.Below C n := by
    intro c hmem
    split_ifs at hmem
    · exact hc c (List.mem_filter.mp hmem).1
    · exact hc c hmem
  have htaken : Below n { w with derivedOwners := w.derivedOwners.erase o.owner } :=
    ⟨h.entries, h.registry, h.pending⟩
  have hflushed := (htaken.applyCommands himmediate happly).flushDerivedFrom hflush
  have hfinished : (flushed.finishDerivedSpawns o.owner).Below n :=
    ⟨hflushed.entries, hflushed.registry, hflushed.pending⟩
  have hstale := sameBuffers_removeDerivedStale (C := C) (flushed.finishDerivedSpawns o.owner) o.owner
    (w.outputs o.owner)
  refine ⟨hfinished.removeDerivedStale o.owner (w.outputs o.owner), ?_⟩
  calc ((flushed.finishDerivedSpawns o.owner).removeDerivedStale C o.owner
          (w.outputs o.owner)).nextEntity
      = flushed.nextEntity := hstale.next
    _ = applied.nextEntity := (steady_flushDerivedFrom hflush).next
    _ = w.nextEntity := (steady_applyCommands happly).next

/-- A rewrite in place brings no component anywhere. -/
theorem has_restampEntry (w : World α) (t t' : TypeId) (e e' : Entity) (v : Value α) :
    (w.restampEntry C t e v).has t' e' = w.has t' e' := by
  unfold restampEntry
  cases hx : w.cell? t e with
  | none => rfl
  | some x =>
    have hhas : w.has t e = true := (w.has_iff t e).mpr ⟨x, hx⟩
    dsimp only
    split_ifs
    · exact has_amendEntry hhas _ _ t' e'
    · exact has_amendEntry hhas _ _ t' e'

theorem has_writeInPlace (w : World α) (t t' : TypeId) (e e' : Entity) (v : Value α) :
    (w.writeInPlace t e v).has t' e' = w.has t' e' := by
  unfold writeInPlace
  cases hx : w.cell? t e with
  | none => rfl
  | some x => exact has_amendEntry ((w.has_iff t e).mpr ⟨x, hx⟩) _ _ t' e'

theorem has_updateComponent (w : World α) (t t' : TypeId) (e e' : Entity) (v : Value α) :
    (w.updateComponent C t e v).has t' e' = w.has t' e' := by
  unfold updateComponent
  split_ifs
  · exact has_restampEntry w t t' e e' v
  · exact has_restampEntry w t t' e e' v

theorem has_reconcileWritten (w : World α) (writes : List (TypeId × Entity)) (t : TypeId)
    (e : Entity) : (w.reconcileWritten C writes).has t e = w.has t e := by
  refine List.foldlRecOn writes _ (motive := fun u : World α => u.has t e = w.has t e) rfl
    fun u hu p _ => ?_
  dsimp only
  split_ifs
  · refine Eq.trans ?_ hu
    show (u.reconcileEntry C p.1 p.2).has t e = u.has t e
    unfold reconcileEntry
    split
    · rfl
    · exact has_restampEntry u p.1 t p.2 e _
  · exact hu

/-- A use outside a commit that brings no component anywhere and registers nothing. -/
theorem Below.rewrite {op : WorldOp α} (h : w.Below w.nextEntity)
    (hhas : ∀ t e, w'.has t e = w.has t e) (hm : SameMarkers C w w')
    (hp : w'.pendingDerivedFrom = w.pendingDerivedFrom) (hd : op.uncommitted = true)
    (hs : w.apply C op = some w') : w'.Below w'.nextEntity := by
  have hconfined : w'.Confined w.nextEntity :=
    Confined.of_shrinks h.entries fun t e he => hhas t e ▸ he
  exact (h.of_clears hconfined hm.clears hp).mono (trims_apply hd hs).next

/-- A use by a caller with handles of its own keeps everything on allocated ids. -/
theorem Below.apply {op : WorldOp α} (h : w.Below w.nextEntity) (ha : op.Allocated C w)
    (hs : w.apply C op = some w') : w'.Below w'.nextEntity := by
  cases op with
  | output o deferInserts =>
    obtain ⟨hbelow, hnext⟩ := h.applyOutput ha hs
    exact hnext ▸ hbelow
  | commands o queue =>
    have hnext := (steady_applyCommands hs).next
    exact hnext ▸ h.applyCommands ha hs
  | base c =>
    have hnext := (trims_apply (C := C) rfl hs).next
    refine Below.mono ?_ hnext
    cases c with
    | insert t e v => exact h.insert ha.1 ha.2 hs
    | removeComponent t e =>
      cases hs
      exact h.removeComponent t e none
    | despawn e =>
      cases hs
      exact h.removeEntity e
  | flush =>
    have hnext := (trims_apply (C := C) rfl hs).next
    exact (h.flushDerivedFrom hs).mono hnext
  | update t e v =>
    have hpending : (w.updateComponent C t e v).pendingDerivedFrom = w.pendingDerivedFrom := by
      have hsame := (sameBuffers_restampEntry (C := C) w t e v).pending
      unfold updateComponent
      split_ifs
      · exact hsame
      · exact hsame
    have hmarkers := sameMarkers_updateComponent (C := C) w t e v
    have hused := hs
    cases hs
    exact h.rewrite (has_updateComponent w t · e · v) hmarkers hpending rfl hused
  | writeInPlace t e v =>
    have hpending : (w.writeInPlace t e v).pendingDerivedFrom = w.pendingDerivedFrom := by
      unfold writeInPlace
      split
      · rfl
      · rfl
    have hmarkers := sameMarkers_writeInPlace (C := C) w t e v
    have hused := hs
    cases hs
    exact h.rewrite (has_writeInPlace w t · e · v) hmarkers hpending rfl hused
  | reconcileWritten writes =>
    have hpending := (sameBuffers_reconcileWritten (C := C) w writes).pending
    have hmarkers := sameMarkers_reconcileWritten (C := C) w writes
    have hused := hs
    cases hs
    exact h.rewrite (has_reconcileWritten w writes) hmarkers hpending rfl hused
  | retireTouched keys systems =>
    have hnext := (trims_apply (C := C) rfl hs).next
    cases hs
    exact (h.retireOwners _).mono hnext
  | retireOwner o =>
    have hnext := (trims_apply (C := C) rfl hs).next
    cases hs
    exact (h.removeDerivedOwned o).mono hnext
  | drainRemovals =>
    cases hs
    exact ⟨h.entries, h.registry, h.pending⟩
  | rollPlanEpoch =>
    cases hs
    unfold maybeRollPlanEpoch
    split_ifs
    · exact h
    · exact ⟨h.entries, h.registry, h.pending⟩
  | spawnEmpty =>
    cases hs
    have hmono := h.mono (Nat.le_succ w.nextEntity)
    exact ⟨hmono.entries, hmono.registry, hmono.pending⟩
  | reserveSingleton key =>
    cases hs
    unfold singletonEntityOrSpawn
    split
    · exact h
    · have hmono := h.mono (Nat.le_succ w.nextEntity)
      refine ⟨hmono.entries, fun key' e' hkey => ?_, hmono.pending⟩
      change (w.singletonEntities.insert key w.nextEntity).lookup key' = some e' at hkey
      rw [Dict.lookup_insert] at hkey
      split_ifs at hkey
      · cases hkey
        exact Nat.lt_succ_self _
      · exact hmono.registry key' e' hkey

theorem Handled.below (h : Handled C w) : w.Below w.nextEntity := by
  refine h.invariant (fun w => w.Below w.nextEntity) ?_ fun _ _ _ hw ha hs => hw.apply ha hs
  rintro _ ⟨schema, rfl⟩
  exact ⟨nofun, nofun, nofun⟩

end Runs
end World
end Porridge
