import Porridge.World.Reachable
import Porridge.World.Twins

/-! World operations on two worlds side by side. -/
namespace Porridge.World

variable {α : Type} (C : Components α) {K : Clocks} {w w' : World α}

/-- Results of a partial operation: both refuse, or both go on as twins. -/
abbrev TwinResults (K : Clocks) : Option (World α) → Option (World α) → Prop := Option.Rel (Twins K)

theorem TwinResults.bind {r r' : Option (World α)} {f : World α → Option (World α)}
    (h : TwinResults K r r') (hf : ∀ u u', Twins K u u' → TwinResults K (f u) (f u')) :
    TwinResults K (r.bind f) (r'.bind f) := by
  cases h with
  | none => exact .none
  | some hu => exact hf _ _ hu

theorem TwinResults.map {r r' : Option (World α)} {f : World α → World α} (h : TwinResults K r r')
    (hf : ∀ u u', Twins K u u' → Twins K (f u) (f u')) : TwinResults K (r.map f) (r'.map f) := by
  cases h with
  | none => exact .none
  | some hu => exact .some (hf _ _ hu)

theorem Twins.foldl {ι : Type} {f : World α → ι → World α} (xs : List ι)
    (hf : ∀ u u', ∀ x ∈ xs, Twins K u u' → Twins K (f u x) (f u' x)) (h : Twins K w w') :
    Twins K (xs.foldl f w) (xs.foldl f w') := by
  induction xs generalizing w w' with
  | nil => exact h
  | cons x xs ih =>
    have hx := hf w w' x List.mem_cons_self h
    exact ih (fun u u' y hy => hf u u' y (List.mem_cons_of_mem x hy)) hx

theorem Twins.foldlM {ι : Type} {f : World α → ι → Option (World α)} (xs : List ι)
    (hf : ∀ u u', ∀ x ∈ xs, Twins K u u' → TwinResults K (f u x) (f u' x)) (h : Twins K w w') :
    TwinResults K (xs.foldlM f w) (xs.foldlM f w') := by
  induction xs generalizing w w' with
  | nil => exact .some h
  | cons x xs ih =>
    rw [List.foldlM_cons, List.foldlM_cons]
    refine TwinResults.bind (hf w w' x List.mem_cons_self h) fun u u' hu => ?_
    exact ih (fun v v' y hy => hf v v' y (List.mem_cons_of_mem x hy)) hu

section Relationships

theorem Twins.relationshipAddMember (h : Twins K w w') (inverse : TypeId) (source target : Entity) :
    Twins K (w.relationshipAddMember C inverse source target)
      (w'.relationshipAddMember C inverse source target) := by
  have hmembers := h.map_eq (f := fun x => x.value.memberList) (fun x y hxy => by rw [hxy.value])
    inverse target
  unfold World.relationshipAddMember
  rw [hmembers]
  dsimp only
  split_ifs
  · exact h
  · exact h.writeEntry C inverse target _ none

theorem Twins.relationshipRemoveMember (h : Twins K w w') (inverse : TypeId)
    (source target : Entity) :
    Twins K (w.relationshipRemoveMember C inverse source target)
      (w'.relationshipRemoveMember C inverse source target) := by
  unfold World.relationshipRemoveMember
  rcases h.cases inverse target with ⟨hx, hy⟩ | ⟨x, y, hx, hy, hxy⟩
  · rw [hx, hy]
    exact h
  · rw [hx, hy]
    dsimp only
    rw [hxy.value]
    split_ifs
    · exact h.dropEntry C inverse target none
    · exact h.writeEntry C inverse target _ none
    · exact h

theorem Twins.retractEdge (h : Twins K w w') (source : Entity) (edge : Option (TypeId × Entity)) :
    Twins K (w.retractEdge C source edge) (w'.retractEdge C source edge) := by
  cases edge with
  | none => exact h
  | some p => exact h.relationshipRemoveMember C p.1 source p.2

theorem Twins.establishEdge (h : Twins K w w') (source : Entity) (edge : Option (TypeId × Entity)) :
    Twins K (w.establishEdge C source edge) (w'.establishEdge C source edge) := by
  cases edge with
  | none => exact h
  | some p => exact h.relationshipAddMember C p.1 source p.2

theorem Twins.removeComponent (h : Twins K w w') (t : TypeId) (e : Entity)
    (remover : Option SystemInvocation) :
    Twins K (w.removeComponent C t e remover) (w'.removeComponent C t e remover) := by
  unfold World.removeComponent
  rw [h.edgeOn C t e]
  exact (h.dropEntry C t e remover).retractEdge C e _

theorem Twins.removeDerivedEntry (h : Twins K w w') (t : TypeId) (e : Entity)
    (o : SystemInvocation) :
    Twins K (w.removeDerivedEntry C t e o) (w'.removeDerivedEntry C t e o) := by
  unfold World.removeDerivedEntry
  rw [h.edgeOn C t e, h.owner?]
  split_ifs
  · exact (h.sweepEntry t e o).retractEdge C e _
  · exact h

end Relationships

section Inserts

theorem Twins.insertEntry (h : Twins K w w') (t : TypeId) (e : Entity) (v : Value α)
    (o : Option SystemInvocation) : Twins K (w.insertEntry C t e v o) (w'.insertEntry C t e v o) := by
  have hwritten := h.writeEntry C t e v o
  unfold World.insertEntry
  rw [h.edgeOn C t e]
  dsimp only
  split_ifs
  · exact hwritten
  · exact (hwritten.retractEdge C e _).establishEdge C e _

/-- The same singleton is registered in both worlds. -/
theorem Twins.register (h : Twins K w w') (key : TypeId) (e : Entity) :
    Twins K { w with singletonEntities := w.singletonEntities.insert key e }
      { w' with singletonEntities := w'.singletonEntities.insert key e } := by
  refine h.keep rfl rfl rfl rfl ⟨h.books.entities, fun key' => ?_, h.books.outputs, h.books.spawns,
    h.books.cursors, h.books.pending, h.books.flushing⟩
  rw [Dict.lookup_insert, Dict.lookup_insert, h.books.singletons]

theorem Twins.registerSingleton (h : Twins K w w') (t : TypeId) (e : Entity) :
    TwinResults K (w.registerSingleton C t e) (w'.registerSingleton C t e) := by
  unfold World.registerSingleton
  cases C.singletonKey t with
  | none => exact .some h
  | some key =>
    dsimp only
    rw [h.books.singletons]
    cases w.singletonEntities.lookup key with
    | none => exact .some (h.register key e)
    | some existing =>
      dsimp only
      split_ifs
      · exact .some h
      · exact .none

theorem Twins.insertNow (h : Twins K w w') (t : TypeId) (e : Entity) (v : Value α)
    (o : Option SystemInvocation) :
    TwinResults K (w.insertNow C t e v o) (w'.insertNow C t e v o) :=
  (h.registerSingleton C t e).map fun _ _ hu => hu.insertEntry C t e v o

def SameCapture (v : Value α) (w w' : World α) : Prop := w'.capture C v = w.capture C v

theorem Twins.insert (h : Twins K w w') (t : TypeId) (e : Entity) {v : Value α}
    (hv : SameCapture C v w w') (o : Option SystemInvocation) :
    TwinResults K (w.insert C t e v o) (w'.insert C t e v o) := by
  have hdeferred : w'.deferredAnchors C t v = w.deferredAnchors C t v := by
    cases v with
    | derivedFrom anchors => rw [deferredAnchors, deferredAnchors, h.books.flushing]
    | _ => rfl
  unfold World.insert
  rw [hdeferred, hv]
  cases w.deferredAnchors C t v with
  | none => exact h.insertNow C t e _ o
  | some anchors =>
    have hpending : w'.pendingDerivedFrom ++ [⟨t, e, anchors, o⟩] =
        w.pendingDerivedFrom ++ [⟨t, e, anchors, o⟩] := by rw [h.books.pending]
    exact .some (h.keep rfl rfl rfl rfl ⟨h.books.entities, h.books.singletons, h.books.outputs,
      h.books.spawns, h.books.cursors, hpending, h.books.flushing⟩)

/-- The deferred anchors of one buffer are captured alike in both worlds. -/
theorem Twins.flushDerivedFrom (h : Twins K w w')
    (hcapture : ∀ p ∈ w.pendingDerivedFrom, ∀ u u' : World α, Twins K u u' →
      SameCapture C (.derivedFrom p.anchors) u u') :
    TwinResults K (w.flushDerivedFrom C) (w'.flushDerivedFrom C) := by
  have hstart : Twins K { w with pendingDerivedFrom := [], flushingAnchors := true }
      { w' with pendingDerivedFrom := [], flushingAnchors := true } :=
    h.keep rfl rfl rfl rfl ⟨h.books.entities, h.books.singletons, h.books.outputs, h.books.spawns,
      h.books.cursors, rfl, rfl⟩
  unfold World.flushDerivedFrom
  rw [h.books.pending]
  refine TwinResults.map (Twins.foldlM _ (fun u u' p hp hu => ?_) hstart) fun u u' hu => ?_
  · exact hu.insert C p.component p.entity (hcapture p hp u u' hu) p.owner
  · exact hu.keep rfl rfl rfl rfl ⟨hu.books.entities, hu.books.singletons, hu.books.outputs,
      hu.books.spawns, hu.books.cursors, hu.books.pending, rfl⟩

end Inserts

section Outputs

theorem Twins.removeDerivedEntries (h : Twins K w w') (o : SystemInvocation)
    (pairs : List (TypeId × Entity)) :
    Twins K (w.removeDerivedEntries C o pairs) (w'.removeDerivedEntries C o pairs) :=
  Twins.foldl pairs (fun _ _ p _ hu => hu.removeDerivedEntry C p.1 p.2 o) h

theorem Twins.removeDerivedStale (h : Twins K w w') (o : SystemInvocation)
    (previous : List (TypeId × Entity)) :
    Twins K (w.removeDerivedStale C o previous) (w'.removeDerivedStale C o previous) := by
  refine Twins.foldl previous (fun u u' p _ hu => ?_) h
  rw [hu.books.outputs]
  split_ifs
  · exact hu
  · exact hu.removeDerivedEntry C p.1 p.2 o

/-- The index entry of one owner is cleared in both worlds. -/
theorem Twins.takeDerivedOutputs (h : Twins K w w') (o : SystemInvocation) :
    Twins K (w.takeDerivedOutputs o).2 (w'.takeDerivedOutputs o).2 := by
  refine h.keep rfl rfl rfl rfl (h.books.outputs_of fun o' => ?_)
  rw [Dict.getD_erase, Dict.getD_erase]
  split_ifs
  · rfl
  · exact h.books.outputs o'

/-- The spawn slots of one owner are replaced alike. -/
theorem Twins.spawns_of (h : Twins K w w') {slots slots' : Dict SystemInvocation (List Entity)}
    {cursors cursors' : Dict SystemInvocation Nat}
    (hslots : ∀ o, slots'.lookup o = slots.lookup o)
    (hcursors : ∀ o, cursors'.lookup o = cursors.lookup o) :
    Twins K { w with derivedSpawns := slots, spawnCursors := cursors }
      { w' with derivedSpawns := slots', spawnCursors := cursors' } :=
  h.keep rfl rfl rfl rfl ⟨h.books.entities, h.books.singletons, h.books.outputs, hslots, hcursors,
    h.books.pending, h.books.flushing⟩

theorem Twins.forgetOwner (h : Twins K w w') (o : SystemInvocation) :
    Twins K (w.forgetOwner o) (w'.forgetOwner o) := by
  refine Twins.spawns_of (h.takeDerivedOutputs o) (fun o' => ?_) h.books.cursors
  rw [Dict.lookup_erase, Dict.lookup_erase, h.books.spawns]

theorem Twins.removeDerivedOwned (h : Twins K w w') (o : SystemInvocation) :
    Twins K (w.removeDerivedOwned C o) (w'.removeDerivedOwned C o) := by
  unfold World.removeDerivedOwned
  rw [h.books.outputs]
  exact (h.forgetOwner o).removeDerivedEntries C o _

theorem Twins.retireOwners (owners : List SystemInvocation) (h : Twins K w w') :
    Twins K (w.retireOwners C owners).1 (w'.retireOwners C owners).1 := by
  induction owners generalizing w w' with
  | nil => exact h
  | cons o owners ih => exact ih (h.removeDerivedOwned C o)

theorem Twins.getD_spawns (h : Twins K w w') (o : SystemInvocation) :
    Dict.getD w'.derivedSpawns o [] = Dict.getD w.derivedSpawns o [] ∧
      Dict.getD w'.spawnCursors o 0 = Dict.getD w.spawnCursors o 0 := by
  rw [Dict.getD, Dict.getD, Dict.getD, Dict.getD, h.books.spawns, h.books.cursors]
  exact ⟨rfl, rfl⟩

theorem Twins.recordDerivedSpawn (h : Twins K w w') (o : SystemInvocation) (e : Entity) :
    Twins K (w.recordDerivedSpawn o e) (w'.recordDerivedSpawn o e) := by
  obtain ⟨hspawns, hcursor⟩ := h.getD_spawns o
  unfold World.recordDerivedSpawn
  rw [hspawns, hcursor]
  refine h.spawns_of (fun o' => ?_) fun o' => ?_
  · rw [Dict.lookup_insert, Dict.lookup_insert, h.books.spawns]
  · rw [Dict.lookup_insert, Dict.lookup_insert, h.books.cursors]

theorem Twins.finishDerivedSpawns (h : Twins K w w') (o : SystemInvocation) :
    Twins K (w.finishDerivedSpawns o) (w'.finishDerivedSpawns o) := by
  obtain ⟨hspawns, hcursor⟩ := h.getD_spawns o
  unfold World.finishDerivedSpawns
  rw [hspawns, hcursor]
  refine h.spawns_of (fun o' => ?_) fun o' => ?_
  · split_ifs
    · rw [Dict.lookup_erase, Dict.lookup_erase, h.books.spawns]
    · rw [Dict.lookup_insert, Dict.lookup_insert, h.books.spawns]
  · rw [Dict.lookup_erase, Dict.lookup_erase, h.books.cursors]

end Outputs

section Writes

theorem Twins.updateComponent (h : Twins K w w') (t : TypeId) (e : Entity) (v : Value α) :
    Twins K (w.updateComponent C t e v) (w'.updateComponent C t e v) := by
  have hstamped := h.restampEntry C t e v
  unfold World.updateComponent
  rw [h.amends C t e v]
  split_ifs
  · exact hstamped.keep rfl rfl rfl rfl (hstamped.books.off ..)
  · exact hstamped

theorem Twins.reconcileEntry (h : Twins K w w') (t : TypeId) (e : Entity) :
    Twins K (w.reconcileEntry C t e) (w'.reconcileEntry C t e) := by
  unfold World.reconcileEntry
  rcases h.cases t e with ⟨hx, hy⟩ | ⟨x, y, hx, hy, hxy⟩
  · rw [hx, hy]
    exact h
  · rw [hx, hy]
    dsimp only
    rw [hxy.value]
    exact h.restampEntry C t e x.value

/-- Without a store there is nothing to reconcile. -/
theorem reconcileEntry_of_notMem {t : TypeId} (ht : t ∉ w.stores) (e : Entity) :
    w.reconcileEntry C t e = w := by
  have hnone : w.cell? t e = none := by
    rw [cell?, store, Dict.getD, AList.lookup_eq_none.mpr ht]
    rfl
  rw [World.reconcileEntry, hnone]

theorem Twins.reconcileWritten (writes : List (TypeId × Entity)) (h : Twins K w w') :
    Twins K (w.reconcileWritten C writes) (w'.reconcileWritten C writes) := by
  refine Twins.foldl writes (fun u u' p _ hu => ?_) h
  have hdone := hu.reconcileEntry C p.1 p.2
  split_ifs with hstore hstore' hstore'
  · exact hdone.keep rfl rfl rfl rfl (hdone.books.off ..)
  · rw [reconcileEntry_of_notMem C hstore'] at hdone
    exact hdone.keep rfl rfl rfl rfl (hdone.books.off ..)
  · rw [reconcileEntry_of_notMem C hstore] at hdone
    exact hdone.keep rfl rfl rfl rfl (hdone.books.off ..)
  · exact hu

end Writes

section Bookkeeping

theorem Twins.spawnEmpty (h : Twins K w w') : Twins K w.spawnEmpty.2 w'.spawnEmpty.2 :=
  h.keep rfl rfl rfl rfl ⟨congrArg (· + 1) h.books.entities, h.books.singletons, h.books.outputs,
    h.books.spawns, h.books.cursors, h.books.pending, h.books.flushing⟩

theorem Twins.singletonEntityOrRegister (h : Twins K w w') (key : TypeId) (candidate : Entity) :
    Twins K (w.singletonEntityOrRegister key candidate).2
      (w'.singletonEntityOrRegister key candidate).2 := by
  unfold World.singletonEntityOrRegister
  rw [h.books.singletons]
  cases w.singletonEntities.lookup key with
  | none => exact h.register key candidate
  | some _ => exact h

theorem Twins.singletonEntityOrSpawn (h : Twins K w w') (key : TypeId) :
    Twins K (w.singletonEntityOrSpawn key).2 (w'.singletonEntityOrSpawn key).2 := by
  unfold World.singletonEntityOrSpawn
  rw [h.books.singletons]
  cases w.singletonEntities.lookup key with
  | none =>
    have hregistered := h.spawnEmpty.register key w.nextEntity
    dsimp only
    rw [h.books.entities]
    exact hregistered
  | some _ => exact h

theorem Twins.drainRemovals (h : Twins K w w') : Twins K w.drainRemovals w'.drainRemovals :=
  h.keep rfl rfl rfl rfl ⟨h.books.entities, h.books.singletons, h.books.outputs, h.books.spawns,
    h.books.cursors, h.books.pending, h.books.flushing⟩

/-- A rolled log is not what twins compare. -/
theorem Twins.maybeRollPlanEpoch (h : Twins K w w') :
    Twins K w.maybeRollPlanEpoch.2 w'.maybeRollPlanEpoch.2 := by
  have hrolled : ∀ u : World α, u.maybeRollPlanEpoch.2.stores = u.stores ∧
      u.maybeRollPlanEpoch.2.revision = u.revision ∧ SameBooks u u.maybeRollPlanEpoch.2 := by
    intro u
    unfold World.maybeRollPlanEpoch
    split_ifs
    · exact ⟨rfl, rfl, .refl u⟩
    · exact ⟨rfl, rfl, ⟨rfl, fun _ => rfl, fun _ => rfl, fun _ => rfl, fun _ => rfl, rfl, rfl⟩⟩
  obtain ⟨hs, hr, hb⟩ := hrolled w
  obtain ⟨hs', hr', hb'⟩ := hrolled w'
  exact h.keep hs hs' hr hr' ((hb.symm.trans h.books).trans hb')

end Bookkeeping
end Porridge.World
