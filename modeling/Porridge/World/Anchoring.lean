import Mathlib.Data.List.Induction
import Porridge.World.Buffers
import Porridge.World.Replacement

/-! `DerivedFrom` facts wait for the end of their buffer: what the buffer leaves behind, against
the same commands taken strictly in order. -/
namespace Porridge

variable {α : Type} (C : Components α)

/-- The value without the revisions captured for its anchors. -/
def Value.uncaptured : Value α → Value α
  | .derivedFrom anchors => .derivedFrom (anchors.map fun a => { a with revision := none })
  | v => v

def Value.isDerivedFrom : Value α → Bool
  | .derivedFrom _ => true
  | _ => false

/-- A `DerivedFrom` component holds anchors. -/
def Components.Fits (t : TypeId) (v : Value α) : Prop :=
  C.role t = .derivedFrom → v.isDerivedFrom = true

/-- The commands of one invocation, or those that callers queued. -/
inductive CommandBuffer (α : Type) where
  | derived (owner : SystemInvocation) (commands : List (Command α))
  | base (commands : List (BaseCommand α))

/-- One operation of a buffer. -/
inductive Buffered (α : Type) where
  | derived (owner : SystemInvocation) (command : Command α)
  | base (command : BaseCommand α)

namespace BaseCommand

def edits : BaseCommand α → List (Edit α)
  | insert t e v => [.put t e v]
  | removeComponent t e => [.drop t e]
  | despawn e => [.purge e]

end BaseCommand

namespace Buffered

def apply (w : World α) : Buffered α → Option (World α)
  | derived o c => c.apply C w o
  | base c => c.apply C w

/-- The edits of an operation; a spawned bundle is put on the entity it lands on. -/
def edits (w : World α) : Buffered α → List (Edit α)
  | derived _ (.spawn bundle reserved) =>
    let key := (World.bundleSingletonKey C bundle).getD none
    bundle.map fun p => .put p.1 (w.spawnTarget reserved key).1 p.2
  | derived _ c => c.edits
  | base c => c.edits

def Typed : Buffered α → Prop
  | derived _ (.insert t _ v) | base (.insert t _ v) => C.Fits t v
  | derived _ (.spawn bundle _) => ∀ p ∈ bundle, C.Fits p.1 p.2
  | _ => True

end Buffered

namespace CommandBuffer

def operations : CommandBuffer α → List (Buffered α)
  | derived o commands => commands.map (.derived o)
  | base commands => commands.map .base

def apply (w : World α) : CommandBuffer α → Option (World α)
  | derived o commands => w.applyCommands C o commands
  | base commands => w.applyBase C commands

def Typed (b : CommandBuffer α) : Prop := ∀ c ∈ b.operations, c.Typed C

end CommandBuffer

/-- The edits of the operations, each in the world that the ones before it leave. -/
def editsOf (w : World α) : List (Buffered α) → List (Edit α)
  | [] => []
  | c :: rest => c.edits C w ++
    match c.apply C w with
    | none => []
    | some w' => editsOf w' rest

def lastPut (edits : List (Edit α)) (t : TypeId) (e : Entity) : Option (Value α) :=
  edits.foldl (fun last d => if d.Touches t e then d.written.or last else last) none

/-- The pair is given a value, and a later command of the buffer removes it for good. -/
def Overtaken (edits : List (Edit α)) (t : TypeId) (e : Entity) : Prop :=
  (lastPut edits t e).isSome = true ∧ lastEmitted edits t e = none

namespace World

/-- Apply a buffer, then the `DerivedFrom` inserts it held back. -/
def applyBuffer (w : World α) (b : CommandBuffer α) : Option (World α) :=
  (b.apply C w).bind fun w => w.flushDerivedFrom C

def applyInOrder (w : World α) (b : CommandBuffer α) : Option (World α) :=
  (b.apply C { w with flushingAnchors := true }).map fun w => { w with flushingAnchors := false }

def factOn (w : World α) (t : TypeId) (e : Entity) : Option (Value α) :=
  (w.cell? t e).map fun x => x.value.uncaptured

end World

/-! ## The edits of one pair -/

section Edits

variable {edits : List (Edit α)} {t : TypeId} {e : Entity}

@[simp] theorem Value.uncaptured_uncaptured (v : Value α) :
    v.uncaptured.uncaptured = v.uncaptured := by
  cases v with
  | derivedFrom anchors => simp [uncaptured, Function.comp_def]
  | data _ => rfl
  | members _ => rfl

theorem lastPut_append (d : Edit α) : lastPut (edits ++ [d]) t e =
    if d.Touches t e then d.written.or (lastPut edits t e) else lastPut edits t e := by
  rw [lastPut, List.foldl_append]
  rfl

def Cleared (edits : List (Edit α)) (t : TypeId) (e : Entity) : Prop :=
  ∃ d ∈ edits, d.Touches t e ∧ d.written = none

/-- Holding the puts back matters for a pair exactly where a removal overtakes them. -/
theorem held_eq_iff (start : Option (Value α)) (hstart : start.map Value.uncaptured = start)
    (left : Option (Value α)) (hcleared : Cleared edits t e → left = none)
    (hkept : ¬ Cleared edits t e → left = start) :
    ((lastPut edits t e).map Value.uncaptured).or left =
      (edits.foldl (Edit.emitted t e) start).map Value.uncaptured ↔ ¬ Overtaken edits t e := by
  induction edits using List.reverseRecOn generalizing left with
  | nil =>
    rw [hkept fun ⟨_, hd, _⟩ => nomatch hd]
    exact iff_of_true hstart.symm fun h => nomatch h.1
  | append_singleton edits d ih =>
    rw [List.foldl_append, Overtaken, lastPut_append, lastEmitted_append]
    have hafter : Cleared (edits ++ [d]) t e ↔ Cleared edits t e ∨ (d.Touches t e ∧ d.written = none) := by
      simp only [Cleared, List.mem_append, List.mem_singleton, or_and_right, exists_or,
        exists_eq_left]
    show _ = (Edit.emitted t e _ d).map _ ↔ _
    unfold Edit.emitted
    by_cases htouch : d.Touches t e
    · rw [if_pos htouch, if_pos htouch, if_pos htouch]
      cases hwritten : d.written with
      | some v => exact iff_of_true rfl fun h => nomatch h.2
      | none =>
        rw [hcleared (hafter.mpr (Or.inr ⟨htouch, hwritten⟩)), Option.none_or]
        cases lastPut edits t e with
        | none => exact iff_of_true rfl fun h => nomatch h.1
        | some v => exact iff_of_false nofun fun h => h ⟨rfl, rfl⟩
    · rw [if_neg htouch, if_neg htouch, if_neg htouch]
      have hsame : Cleared (edits ++ [d]) t e ↔ Cleared edits t e :=
        hafter.trans (or_iff_left fun h => htouch h.1)
      exact ih left (fun h => hcleared (hsame.mpr h)) fun h => hkept fun hc => h (hsame.mp hc)

end Edits

/-- Every inverse is kept for an edge that names it. -/
def Components.Mutual : Prop := ∀ t edge, C.role t = .inverse edge → C.role edge = .edge t

variable {C}

theorem Components.Mutual.not_related (hC : C.Mutual) {t : TypeId} (ht : C.role t = .derivedFrom) :
    ¬ C.Related t := by
  rintro (⟨inverse, hrole⟩ | ⟨edge, hrole⟩ | ⟨inverse, hrole⟩)
  · cases ht.symm.trans hrole
  · cases ht.symm.trans hrole
  · cases ht.symm.trans (hC inverse t hrole)

theorem Components.Mutual.singletonKey_edge (hC : C.Mutual) {inverse edge : TypeId}
    (h : C.role inverse = .inverse edge) : C.singletonKey edge = none := by
  simp [Components.singletonKey, hC inverse edge h]

namespace World

variable {w w' u u' w₀ : World α} {t : TypeId} {e : Entity}

/-! ## Facts under the operations -/

section Facts

theorem factOn_of_cell (h : w'.cell? t e = w.cell? t e) : w'.factOn t e = w.factOn t e := by
  rw [factOn, factOn, h]

/-- An edge is kept in inverses only. -/
theorem cell?_insertEntry (ht : C.role t = .derivedFrom) (t' : TypeId) (e' : Entity) (v : Value α)
    (owner : Option SystemInvocation) : (w.insertEntry C t' e' v owner).cell? t e =
      (w.writeEntry C t' e' v owner).cell? t e := by
  have hinverse : ∀ {s : TypeId} {p : Option (TypeId × Entity)},
      (∀ q ∈ p, C.role q.1 = .inverse s) → p ≠ some (t, e) := by
    rintro s p hp rfl
    cases ht.symm.trans (hp (t, e) rfl)
  unfold insertEntry
  dsimp only
  split_ifs
  · rfl
  · rw [cell?_establishEdge _ _ _ _ (hinverse (s := t') fun q hq => C.inverse_of_relationshipEdge hq),
      cell?_retractEdge C _ _ _ _ _ (hinverse (s := t') Closed.role_edgeOn)]

theorem factOn_insertEntry (ht : C.role t = .derivedFrom) (t' : TypeId) (e' : Entity)
    (v : Value α) (owner : Option SystemInvocation) : (w.insertEntry C t' e' v owner).factOn t e =
      if t = t' ∧ e = e' then some v.uncaptured else w.factOn t e := by
  rw [factOn, cell?_insertEntry ht, cell?_writeEntry]
  split_ifs
  · rfl
  · rfl

theorem factOn_removeComponent (ht : C.role t = .derivedFrom) (t' : TypeId) (e' : Entity)
    (remover : Option SystemInvocation) : (w.removeComponent C t' e' remover).factOn t e =
      if t = t' ∧ e = e' then none else w.factOn t e := by
  have hedge : w.edgeOn C t' e' ≠ some (t, e) := fun heq => by
    cases ht.symm.trans (Closed.role_edgeOn _ heq)
  rw [removeComponent, factOn, cell?_retractEdge C _ _ _ _ _ hedge, cell?_dropEntry]
  split_ifs
  · rfl
  · rfl

theorem factOn_removeEntity (hC : C.Mutual) (ht : C.role t = .derivedFrom) (e' : Entity) :
    (w.removeEntity C e').factOn t e = if e = e' then none else w.factOn t e := by
  rw [factOn, (sameUnrelated_removeEntity w e').cells t e (hC.not_related ht), cell?_purgeEntity]
  split_ifs
  · rfl
  · rfl

end Facts

/-! ## Markers under the operations, in two worlds -/

section Markers

theorem SameMarkers.symm (h : SameMarkers C w u) : SameMarkers C u w :=
  ⟨h.registry.symm, fun t e ht => (h.has t e ht).symm⟩

variable (h : SameMarkers C w u)

include h

theorem SameMarkers.writeEntry (t : TypeId) (e : Entity) (v v' : Value α)
    (owner owner' : Option SystemInvocation) :
    SameMarkers C (w.writeEntry C t e v owner) (u.writeEntry C t e v' owner') where
  registry := by
    rw [writeEntry_singletonEntities, writeEntry_singletonEntities, h.registry]
  has t' e' ht' := by
    rw [has_writeEntry, has_writeEntry, h.has t' e' ht']

theorem SameMarkers.insertEntry (t : TypeId) (e : Entity) (v v' : Value α)
    (owner owner' : Option SystemInvocation) :
    SameMarkers C (w.insertEntry C t e v owner) (u.insertEntry C t e v' owner') := by
  cases hkey : C.singletonKey t with
  | some key =>
    rw [insertEntry_of_marker w e v owner hkey, insertEntry_of_marker u e v' owner' hkey]
    exact h.writeEntry t e v v' owner owner'
  | none =>
    have hw := sameMarkers_insertEntry w e v owner hkey
    have hu := sameMarkers_insertEntry u e v' owner' hkey
    exact hw.symm.trans (h.trans hu)

theorem SameMarkers.dropEntry (t : TypeId) (e : Entity) (remover remover' : Option SystemInvocation) :
    SameMarkers C (w.dropEntry C t e remover) (u.dropEntry C t e remover') := by
  cases hkey : C.singletonKey t with
  | none =>
    have hw := sameMarkers_dropEntry w e remover hkey
    have hu := sameMarkers_dropEntry u e remover' hkey
    exact hw.symm.trans (h.trans hu)
  | some key =>
    have hhas : u.has t e = w.has t e := h.has t e (by simp [hkey])
    have hregistry : ∀ (a : World α) r, (a.dropEntry C t e r).singletonEntities =
        if a.has t e = true ∧ a.singletonEntities.lookup key = some e
        then a.singletonEntities.erase key else a.singletonEntities := by
      intro a r
      unfold World.dropEntry
      by_cases hpresent : a.has t e = true
      · obtain ⟨owners, losers, hdisowned⟩ :=
          disownEntry_eq ((a.eraseEntry t e).presenceSet t e false) t e (a.owner? t e) r
        rw [if_pos hpresent, hdisowned]
        unfold unregisterSingleton
        rw [hkey]
        simp only [hpresent, true_and]
        show (if a.singletonEntities.lookup key = some e then _ else _ : World α).singletonEntities = _
        split_ifs
        · rfl
        · rfl
      · rw [if_neg hpresent, if_neg fun hboth => hpresent hboth.1]
    constructor
    · rw [hregistry, hregistry, hhas, h.registry]
    · intro t' e' ht'
      rw [has_dropEntry, has_dropEntry, h.has t' e' ht']

theorem SameMarkers.retractEdge (source : Entity) {p q : Option (TypeId × Entity)} {s s' : TypeId}
    (hp : ∀ x ∈ p, C.role x.1 = .inverse s) (hq : ∀ x ∈ q, C.role x.1 = .inverse s') :
    SameMarkers C (w.retractEdge C source p) (u.retractEdge C source q) := by
  have hw := sameMarkers_retractEdge w source hp
  have hu := sameMarkers_retractEdge u source hq
  exact hw.symm.trans (h.trans hu)

theorem SameMarkers.removeComponent (t : TypeId) (e : Entity)
    (remover remover' : Option SystemInvocation) :
    SameMarkers C (w.removeComponent C t e remover) (u.removeComponent C t e remover') :=
  (h.dropEntry t e remover remover').retractEdge e Closed.role_edgeOn Closed.role_edgeOn

omit h in
theorem purgeEntity_singletonEntities (w : World α) (e : Entity) :
    (w.purgeEntity e).singletonEntities = Dict.retain (fun _ x => x ≠ e) w.singletonEntities := by
  obtain ⟨stores, revision, mutations, log, herased⟩ := eraseEntries_eq e (w.componentsOn e) w
  obtain ⟨owners, hunindexed⟩ :=
    unindexEntries_eq e (w.ownedOn e) (w.eraseEntries (w.componentsOn e) e)
  unfold purgeEntity
  rw [hunindexed, herased]

theorem SameMarkers.purgeEntity (e : Entity) :
    SameMarkers C (w.purgeEntity e) (u.purgeEntity e) where
  registry := by rw [purgeEntity_singletonEntities, purgeEntity_singletonEntities, h.registry]
  has t' e' ht' := by rw [has_purgeEntity, has_purgeEntity, h.has t' e' ht']

omit h in
/-- Past the purge, removing an entity touches no marker. -/
theorem sameMarkers_removeEntity (hC : C.Mutual) (w : World α) (e : Entity) :
    SameMarkers C (w.purgeEntity e) (w.removeEntity C e) := by
  have hretracted := List.foldlRecOn (w.edgesOn C e)
    (fun w edge => w.retractEdge C e (some edge)) (motive := SameMarkers C (w.purgeEntity e))
    (.refl _) fun u hu edge hmem => by
      obtain ⟨t, -, ht⟩ := List.mem_filterMap.mp hmem
      refine hu.trans (sameMarkers_retractEdge (t := t) u e fun p hp => ?_)
      exact Closed.role_edgeOn p ((Option.some.inj hp) ▸ ht)
  have hfreed := List.foldlRecOn (w.retractionsOn C e)
    (fun w edge => w.removeComponent C edge.1 edge.2 none)
    (motive := SameMarkers C (w.purgeEntity e)) hretracted fun u hu edge hmem => by
      have hkey : C.singletonKey edge.1 = none := by
        obtain ⟨t, -, hlisted⟩ := List.mem_flatMap.mp hmem
        cases hx : w.cell? t e with
        | none => simp [hx] at hlisted
        | some x =>
          simp only [hx, Option.map_some, Option.getD_some] at hlisted
          unfold Components.relationshipRetractions at hlisted
          split at hlisted
          · rename_i hrole _
            obtain ⟨source, -, rfl⟩ := List.mem_map.mp hlisted
            exact hC.singletonKey_edge hrole
          · cases hlisted
      exact hu.trans ((sameMarkers_dropEntry u edge.2 none hkey).trans
        (sameMarkers_retractEdge _ edge.2 Closed.role_edgeOn))
  exact hfreed.trans (.of_stores rfl rfl)

theorem SameMarkers.removeEntity (hC : C.Mutual) (e : Entity) :
    SameMarkers C (w.removeEntity C e) (u.removeEntity C e) := by
  have hpurged := h.purgeEntity e
  have hw := sameMarkers_removeEntity hC w e
  have hu := sameMarkers_removeEntity hC u e
  exact hw.symm.trans (hpurged.trans hu)

end Markers
/-! ## A buffer beside the same commands in order -/

/-- The last `DerivedFrom` held back for the pair. -/
def waitingOn (w : World α) (t : TypeId) (e : Entity) : Option (Value α) :=
  w.pendingDerivedFrom.foldl (fun last p =>
    if t = p.component ∧ e = p.entity then some (.derivedFrom p.anchors) else last) none

variable (C) in
/-- After these edits of `w₀`, `w` has held every `DerivedFrom` back and `u` has inserted it. -/
structure Alongside (w₀ : World α) (edits : List (Edit α)) (w u : World α) : Prop where
  markers : SameMarkers C w u
  holds : w.flushingAnchors = false
  inserts : u.flushingAnchors = true
  taken : ∀ t e, C.role t = .derivedFrom →
    u.factOn t e = (edits.foldl (Edit.emitted t e) (w₀.factOn t e)).map Value.uncaptured
  cleared : ∀ t e, C.role t = .derivedFrom → Cleared edits t e → w.factOn t e = none
  kept : ∀ t e, C.role t = .derivedFrom → ¬ Cleared edits t e → w.factOn t e = w₀.factOn t e
  waiting : ∀ t e, C.role t = .derivedFrom → w.waitingOn t e = lastPut edits t e
  roles : ∀ p ∈ w.pendingDerivedFrom, C.role p.component = .derivedFrom

variable {edits : List (Edit α)} {owner : Option SystemInvocation}

/-- One more edit, by what it does to facts and to what is held back. -/
theorem Alongside.edit (h : Alongside C w₀ edits w u) (d : Edit α) (hmarkers : SameMarkers C w' u')
    (hw : w'.flushingAnchors = w.flushingAnchors) (hu : u'.flushingAnchors = u.flushingAnchors)
    (htaken : ∀ t e, C.role t = .derivedFrom → u'.factOn t e =
      if d.Touches t e then d.written.map Value.uncaptured else u.factOn t e)
    (hleft : ∀ t e, C.role t = .derivedFrom → w'.factOn t e =
      if d.Touches t e ∧ d.written = none then none else w.factOn t e)
    (hwaiting : ∀ t e, C.role t = .derivedFrom → w'.waitingOn t e =
      if d.Touches t e then d.written.or (w.waitingOn t e) else w.waitingOn t e)
    (hroles : ∀ p ∈ w'.pendingDerivedFrom, C.role p.component = .derivedFrom) :
    Alongside C w₀ (edits ++ [d]) w' u' where
  markers := hmarkers
  holds := hw.trans h.holds
  inserts := hu.trans h.inserts
  taken t e ht := by
    rw [htaken t e ht, h.taken t e ht, List.foldl_append]
    show _ = (Edit.emitted t e _ d).map _
    unfold Edit.emitted
    split_ifs
    · rfl
    · rfl
  cleared t e ht hcleared := by
    rw [hleft t e ht]
    split_ifs with hd
    · rfl
    · obtain ⟨d', hmem, htouch, hwritten⟩ := hcleared
      rcases List.mem_append.mp hmem with hmem | hmem
      · exact h.cleared t e ht ⟨d', hmem, htouch, hwritten⟩
      · obtain rfl := List.mem_singleton.mp hmem
        exact absurd ⟨htouch, hwritten⟩ hd
  kept t e ht hkept := by
    rw [hleft t e ht, if_neg fun hd => hkept ⟨d, List.mem_append_right _ (List.mem_singleton_self d), hd⟩]
    exact h.kept t e ht fun ⟨d', hmem, hd⟩ => hkept ⟨d', List.mem_append_left _ hmem, hd⟩
  waiting t e ht := by rw [hwaiting t e ht, lastPut_append, h.waiting t e ht]
  roles := hroles

/-- What neither facts nor markers show. -/
theorem Alongside.congr (h : Alongside C w₀ edits w u) (hmarkers : SameMarkers C w' u')
    (hw : w'.stores = w.stores) (hu : u'.stores = u.stores)
    (hpending : w'.pendingDerivedFrom = w.pendingDerivedFrom)
    (hheld : w'.flushingAnchors = w.flushingAnchors)
    (hstraight : u'.flushingAnchors = u.flushingAnchors) : Alongside C w₀ edits w' u' where
  markers := hmarkers
  holds := hheld.trans h.holds
  inserts := hstraight.trans h.inserts
  taken t e ht := (factOn_of_cell (cell?_congr hu t e)).trans (h.taken t e ht)
  cleared t e ht hc := (factOn_of_cell (cell?_congr hw t e)).trans (h.cleared t e ht hc)
  kept t e ht hc := (factOn_of_cell (cell?_congr hw t e)).trans (h.kept t e ht hc)
  waiting t e ht := by rw [waitingOn, hpending, ← waitingOn, h.waiting t e ht]
  roles := by
    rw [hpending]
    exact h.roles

theorem Alongside.removeComponent (h : Alongside C w₀ edits w u) (t : TypeId) (e : Entity)
    (remover : Option SystemInvocation) : Alongside C w₀ (edits ++ [.drop t e])
      (w.removeComponent C t e remover) (u.removeComponent C t e remover) := by
  have hw := sameBuffers_removeComponent (C := C) w t e remover
  have hu := sameBuffers_removeComponent (C := C) u t e remover
  refine h.edit _ (h.markers.removeComponent t e remover remover) hw.flushing hu.flushing
    (fun t' e' ht' => ?_) (fun t' e' ht' => ?_) (fun t' e' _ => ?_) (hw.pending ▸ h.roles)
  · exact factOn_removeComponent ht' t e remover
  · rw [factOn_removeComponent ht']
    exact if_congr (and_iff_left rfl).symm rfl rfl
  · rw [waitingOn, hw.pending, ← waitingOn]
    split_ifs <;> rfl

theorem Alongside.removeEntity (h : Alongside C w₀ edits w u) (hC : C.Mutual) (e : Entity) :
    Alongside C w₀ (edits ++ [.purge e]) (w.removeEntity C e) (u.removeEntity C e) := by
  have hw := sameBuffers_removeEntity (C := C) w e
  have hu := sameBuffers_removeEntity (C := C) u e
  refine h.edit _ (h.markers.removeEntity hC e) hw.flushing hu.flushing
    (fun t' e' ht' => ?_) (fun t' e' ht' => ?_) (fun t' e' _ => ?_) (hw.pending ▸ h.roles)
  · exact factOn_removeEntity hC ht' e
  · rw [factOn_removeEntity hC ht']
    exact if_congr (and_iff_left rfl).symm rfl rfl
  · rw [waitingOn, hw.pending, ← waitingOn]
    split_ifs <;> rfl

section Inserts

theorem uncaptured_capture (w : World α) (v : Value α) :
    (w.capture C v).uncaptured = v.uncaptured := by
  cases v with
  | derivedFrom anchors => simp [capture, Value.uncaptured, Function.comp_def]
  | data _ => rfl
  | members _ => rfl

/-- Registration succeeds in both worlds or in neither. -/
theorem SameMarkers.registerSingleton (h : SameMarkers C w u) (t : TypeId) (e : Entity) :
    Option.Rel (SameMarkers C) (w.registerSingleton C t e) (u.registerSingleton C t e) := by
  unfold World.registerSingleton
  rw [h.registry]
  cases C.singletonKey t with
  | none => exact .some h
  | some key =>
    dsimp only
    cases w.singletonEntities.lookup key with
    | none => exact .some ⟨rfl, h.has⟩
    | some existing =>
      dsimp only
      split_ifs
      · exact .some h
      · exact .none

theorem insert_now {v : Value α} (h : C.role t ≠ .derivedFrom ∨ w.flushingAnchors = true) :
    w.insert C t e v owner = w.insertNow C t e (w.capture C v) owner := by
  have hnone : w.deferredAnchors C t v = none := by
    unfold deferredAnchors
    cases v with
    | derivedFrom anchors =>
      refine if_neg fun hd => h.elim (fun hrole => hrole hd.1) fun hflushing => ?_
      cases hflushing.symm.trans hd.2
    | data _ => rfl
    | members _ => rfl
  rw [World.insert, hnone]

theorem insertNow_of_derivedFrom (ht : C.role t = .derivedFrom) (v : Value α) :
    w.insertNow C t e v owner = some (w.insertEntry C t e v owner) := by
  rw [insertNow, World.registerSingleton, Components.singletonKey_of_derivedFrom ht]
  rfl

theorem Alongside.hold (h : Alongside C w₀ edits w u) (ht : C.role t = .derivedFrom)
    (anchors : List DerivedAnchor) : Option.Rel
      (Alongside C w₀ (edits ++ [.put t e (.derivedFrom anchors)]))
      (w.insert C t e (.derivedFrom anchors) owner) (u.insert C t e (.derivedFrom anchors) owner) := by
  have hheld : w.insert C t e (.derivedFrom anchors) owner = some { w with
      pendingDerivedFrom := w.pendingDerivedFrom ++ [⟨t, e, anchors, owner⟩] } := by
    rw [World.insert, deferredAnchors, if_pos ⟨ht, h.holds⟩]
  rw [hheld, insert_now (Or.inr h.inserts), insertNow_of_derivedFrom ht]
  have hkey := Components.singletonKey_of_derivedFrom ht
  have hentry := sameMarkers_insertEntry u e (u.capture C (.derivedFrom anchors)) owner hkey
  have hbuffers := sameBuffers_insertEntry (C := C) u t e (u.capture C (.derivedFrom anchors)) owner
  refine .some (h.edit _ ?_ rfl hbuffers.flushing (fun t' e' ht' => ?_) (fun t' e' _ => ?_)
    (fun t' e' _ => ?_) fun p hp => ?_)
  · have hw : SameMarkers C { w with
        pendingDerivedFrom := w.pendingDerivedFrom ++ [⟨t, e, anchors, owner⟩] } w :=
      .of_stores rfl rfl
    exact hw.trans (h.markers.trans hentry)
  · rw [factOn_insertEntry ht', uncaptured_capture]
    exact if_congr Iff.rfl rfl rfl
  · rw [if_neg fun hd => nomatch hd.2]
    exact factOn_of_cell rfl
  · rw [waitingOn, List.foldl_append]
    exact if_congr Iff.rfl rfl rfl
  · rcases List.mem_append.mp hp with hp | hp
    · exact h.roles p hp
    · rw [List.mem_singleton.mp hp]
      exact ht

theorem Alongside.insert (h : Alongside C w₀ edits w u) {v : Value α} (hv : C.Fits t v) :
    Option.Rel (Alongside C w₀ (edits ++ [.put t e v])) (w.insert C t e v owner)
      (u.insert C t e v owner) := by
  by_cases ht : C.role t = .derivedFrom
  · cases v with
    | derivedFrom anchors => exact h.hold ht anchors
    | data _ => cases hv ht
    | members _ => cases hv ht
  rw [insert_now (Or.inl ht), insert_now (Or.inl ht)]
  have hregistered := h.markers.registerSingleton t e
  have hne : ∀ {t' : TypeId} {e' : Entity}, C.role t' = .derivedFrom → ¬ (t' = t ∧ e' = e) := by
    rintro t' e' ht' ⟨rfl, -⟩
    exact ht ht'
  unfold insertNow
  cases hw : w.registerSingleton C t e with
  | none =>
    rw [hw] at hregistered
    generalize u.registerSingleton C t e = y at hregistered
    cases hregistered
    exact .none
  | some a =>
    cases hu : u.registerSingleton C t e with
    | none =>
      rw [hw, hu] at hregistered
      cases hregistered
    | some b =>
      rw [hw, hu] at hregistered
      have hmarkers : SameMarkers C a b := by
        cases hregistered with
        | some hab => exact hab
      have hwb := sameBuffers_insertNow
        (show w.insertNow C t e (w.capture C v) owner = some _ by rw [insertNow, hw]; rfl)
      have hub := sameBuffers_insertNow
        (show u.insertNow C t e (u.capture C v) owner = some _ by rw [insertNow, hu]; rfl)
      refine .some (h.edit _ (hmarkers.insertEntry t e _ _ owner owner) hwb.flushing hub.flushing
        (fun t' e' ht' => ?_) (fun t' e' ht' => ?_) (fun t' e' ht' => ?_) (hwb.pending ▸ h.roles))
      · have hsame : b.factOn t' e' = u.factOn t' e' :=
          factOn_of_cell (cell?_congr (registerSingleton_eq hu).1 t' e')
        rw [factOn_insertEntry ht', if_neg (hne ht'), hsame]
        exact (if_neg (hne ht')).symm
      · have hsame : a.factOn t' e' = w.factOn t' e' :=
          factOn_of_cell (cell?_congr (registerSingleton_eq hw).1 t' e')
        rw [factOn_insertEntry ht', if_neg (hne ht'), hsame]
        exact (if_neg fun hd => hne ht' hd.1).symm
      · rw [waitingOn, hwb.pending, ← waitingOn]
        exact (if_neg (hne ht')).symm

end Inserts

section Operations

theorem SameMarkers.spawnTarget (h : SameMarkers C w u) (reserved : Entity) (key : Option TypeId) :
    (u.spawnTarget reserved key).1 = (w.spawnTarget reserved key).1 ∧
      SameMarkers C (w.spawnTarget reserved key).2 (u.spawnTarget reserved key).2 := by
  cases key with
  | none => exact ⟨rfl, h⟩
  | some key =>
    unfold World.spawnTarget singletonEntityOrRegister
    dsimp only
    rw [h.registry]
    cases w.singletonEntities.lookup key with
    | none => exact ⟨rfl, rfl, h.has⟩
    | some existing => exact ⟨rfl, h⟩

theorem spawnTarget_flushing (w : World α) (reserved : Entity) (key : Option TypeId) :
    (w.spawnTarget reserved key).2.flushingAnchors = w.flushingAnchors := by
  cases key with
  | none => rfl
  | some key =>
    unfold World.spawnTarget singletonEntityOrRegister
    dsimp only
    split
    · rfl
    · rfl

theorem Alongside.insertBundle (e : Entity) (o : SystemInvocation) :
    ∀ (bundle : List (TypeId × Value α)) {edits : List (Edit α)} {w u : World α},
      (∀ p ∈ bundle, C.Fits p.1 p.2) → Alongside C w₀ edits w u →
        Option.Rel (Alongside C w₀ (edits ++ bundle.map fun p => .put p.1 e p.2))
          (w.insertBundle C e bundle o) (u.insertBundle C e bundle o)
  | [], edits, w, u, _, h => by
    rw [List.map_nil, List.append_nil]
    exact .some h
  | p :: bundle, edits, w, u, hfits, h => by
    have hfirst : Option.Rel (Alongside C w₀ (edits ++ [.put p.1 e p.2]))
        (w.insert C p.1 e p.2 (some o)) (u.insert C p.1 e p.2 (some o)) :=
      h.insert (hfits p List.mem_cons_self)
    show Option.Rel _ ((w.insert C p.1 e p.2 (some o)).bind fun w => w.insertBundle C e bundle o)
      ((u.insert C p.1 e p.2 (some o)).bind fun u => u.insertBundle C e bundle o)
    generalize w.insert C p.1 e p.2 (some o) = x at hfirst
    generalize u.insert C p.1 e p.2 (some o) = y at hfirst
    cases hfirst with
    | none => exact .none
    | some hab =>
      have hrest := hab.insertBundle e o bundle fun q hq => hfits q (List.mem_cons_of_mem p hq)
      rw [List.append_assoc] at hrest
      exact hrest

theorem Alongside.spawn (h : Alongside C w₀ edits w u) (o : SystemInvocation)
    {bundle : List (TypeId × Value α)} (hfits : ∀ p ∈ bundle, C.Fits p.1 p.2) (reserved : Entity) :
    Option.Rel (Alongside C w₀ (edits ++ (Buffered.derived o (.spawn bundle reserved)).edits C w))
      ((Command.spawn bundle reserved).apply C w o) ((Command.spawn bundle reserved).apply C u o) := by
  have happly : ∀ a : World α, (Command.spawn bundle reserved).apply C a o =
      (World.bundleSingletonKey C bundle).bind fun key =>
        ((a.spawnTarget reserved key).2.recordDerivedSpawn o (a.spawnTarget reserved key).1).insertBundle
          C (a.spawnTarget reserved key).1 bundle o := fun _ => rfl
  have hedits : (Buffered.derived o (.spawn bundle reserved)).edits C w = bundle.map fun p => .put p.1
      (w.spawnTarget reserved ((World.bundleSingletonKey C bundle).getD none)).1 p.2 := rfl
  rw [happly, happly, hedits]
  cases World.bundleSingletonKey C bundle with
  | none => exact .none
  | some key =>
    obtain ⟨htarget, hmarkers⟩ := h.markers.spawnTarget reserved key
    obtain ⟨hw, -, hpending, -⟩ := spawnTarget_spec w reserved key
    obtain ⟨hu, -⟩ := spawnTarget_spec u reserved key
    have hrecorded : Alongside C w₀ edits
        ((w.spawnTarget reserved key).2.recordDerivedSpawn o (w.spawnTarget reserved key).1)
        ((u.spawnTarget reserved key).2.recordDerivedSpawn o (w.spawnTarget reserved key).1) :=
      h.congr ⟨hmarkers.registry, hmarkers.has⟩ hw hu hpending (spawnTarget_flushing w reserved key)
        (spawnTarget_flushing u reserved key)
    have hbundle := hrecorded.insertBundle (w.spawnTarget reserved key).1 o bundle hfits
    rw [Option.bind_some, Option.bind_some, htarget]
    exact hbundle

theorem Alongside.operation (h : Alongside C w₀ edits w u) (hC : C.Mutual) (c : Buffered α)
    (hc : c.Typed C) :
    Option.Rel (Alongside C w₀ (edits ++ c.edits C w)) (c.apply C w) (c.apply C u) := by
  cases c with
  | derived o c =>
    cases c with
    | insert t e v => exact h.insert hc
    | spawn bundle reserved => exact h.spawn o hc reserved
    | removeEntity e => exact .some (h.removeEntity hC e)
    | removeComponent t e => exact .some (h.removeComponent t e (some o))
  | base c =>
    cases c with
    | insert t e v => exact h.insert hc
    | removeComponent t e => exact .some (h.removeComponent t e none)
    | despawn e => exact .some (h.removeEntity hC e)

theorem Alongside.operations (hC : C.Mutual) : ∀ (ops : List (Buffered α)) {edits : List (Edit α)}
    {w u : World α}, (∀ c ∈ ops, c.Typed C) → Alongside C w₀ edits w u →
      Option.Rel (Alongside C w₀ (edits ++ editsOf C w ops))
        (ops.foldlM (fun w c => c.apply C w) w) (ops.foldlM (fun w c => c.apply C w) u)
  | [], edits, w, u, _, h => by
    rw [editsOf, List.append_nil]
    exact .some h
  | c :: ops, edits, w, u, hops, h => by
    have hfirst := h.operation hC c (hops c List.mem_cons_self)
    rw [editsOf, List.foldlM_cons, List.foldlM_cons]
    generalize c.apply C w = x at hfirst
    generalize c.apply C u = y at hfirst
    cases hfirst with
    | none => exact .none
    | some hab =>
      have hrest := Alongside.operations hC ops (fun d hd => hops d (List.mem_cons_of_mem c hd)) hab
      rw [List.append_assoc] at hrest
      exact hrest

theorem apply_eq_operations (b : CommandBuffer α) (w : World α) :
    b.apply C w = b.operations.foldlM (fun w c => c.apply C w) w := by
  cases b with
  | derived o commands =>
    rw [CommandBuffer.operations, List.foldlM_map]
    rfl
  | base commands =>
    rw [CommandBuffer.operations, List.foldlM_map]
    rfl

end Operations

section Flush

/-- The inserts held back are all made, the last one of a pair last. -/
theorem factOn_flushed (pending : List PendingDerivedFrom)
    (hroles : ∀ p ∈ pending, C.role p.component = .derivedFrom) (hw : w.flushingAnchors = true) :
    ∃ u, pending.foldlM (fun w p =>
        w.insert C p.component p.entity (.derivedFrom p.anchors) p.owner) w = some u ∧
      ∀ t e, C.role t = .derivedFrom → u.factOn t e = ((pending.foldl (fun last p =>
        if t = p.component ∧ e = p.entity then some (.derivedFrom p.anchors) else last)
          none).map Value.uncaptured).or (w.factOn t e) := by
  induction pending using List.reverseRecOn with
  | nil => exact ⟨w, rfl, fun _ _ _ => rfl⟩
  | append_singleton pending p ih =>
    obtain ⟨u, hu, hfacts⟩ := ih fun q hq => hroles q (List.mem_append_left _ hq)
    have hp := hroles p (List.mem_append_right _ (List.mem_singleton_self p))
    have hflushing : u.flushingAnchors = true :=
      List.foldlM_some_induction (fun u : World α => u.flushingAnchors = true) pending hu hw
        fun a q b _ ha hb => by
          rcases insert_cases hb with ⟨_, -, hidle, -⟩ | ⟨-, hsame⟩
          · cases ha.symm.trans hidle
          · exact hsame.flushing.trans ha
    refine ⟨u.insertEntry C p.component p.entity (u.capture C (.derivedFrom p.anchors)) p.owner,
      ?_, fun t e ht => ?_⟩
    · rw [List.foldlM_append, hu]
      show (u.insert C p.component p.entity (.derivedFrom p.anchors) p.owner).bind some = _
      rw [insert_now (Or.inr hflushing), insertNow_of_derivedFrom hp]
      rfl
    · rw [factOn_insertEntry ht, uncaptured_capture, List.foldl_append]
      show _ = ((if t = p.component ∧ e = p.entity then some (.derivedFrom p.anchors) else _ :
        Option (Value α)).map Value.uncaptured).or _
      split_ifs
      · rfl
      · exact hfacts t e ht

end Flush

/-- No buffer is being applied. -/
def Flushed (w : World α) : Prop := w.pendingDerivedFrom = [] ∧ w.flushingAnchors = false

theorem flushed_applyBuffer {b : CommandBuffer α} (h : w.applyBuffer C b = some w') : w'.Flushed := by
  obtain ⟨u, -, hflush⟩ := Option.bind_eq_some_iff.mp h
  obtain ⟨hpending, hidle, -⟩ := buffers_flushDerivedFrom hflush
  exact ⟨hpending, hidle⟩

variable (C) in
structure SameFacts (v u : World α) : Prop where
  facts : ∀ t e, C.role t = .derivedFrom → u.factOn t e = v.factOn t e
  present : ∀ t e, C.role t = .derivedFrom → u.has t e = v.has t e

theorem sameFacts_iff {v : World α} : SameFacts C v u ↔
    ∀ t e, C.role t = .derivedFrom → u.factOn t e = v.factOn t e := by
  refine ⟨SameFacts.facts, fun h => ⟨h, fun t e ht => ?_⟩⟩
  have hsome := congrArg Option.isSome (h t e ht)
  rwa [factOn, factOn, Option.isSome_map, Option.isSome_map] at hsome

/-- A buffer leaves the facts that its commands leave in order exactly when no removal overtakes a
`DerivedFrom` that the buffer has inserted before. -/
theorem applyBuffer_inOrder (hC : C.Mutual) (hw : w.Flushed) (b : CommandBuffer α) (hb : b.Typed C) :
    ((w.applyBuffer C b).isSome = (w.applyInOrder C b).isSome) ∧
    ∀ u v, w.applyBuffer C b = some u → w.applyInOrder C b = some v →
      (SameFacts C v u ↔
        ∀ t e, C.role t = .derivedFrom → ¬ Overtaken (editsOf C w b.operations) t e) := by
  have hstart : Alongside C w [] w { w with flushingAnchors := true } :=
    { markers := .of_stores rfl rfl
      holds := hw.2
      inserts := rfl
      taken := fun t e _ => by
        show w.factOn t e = (w.factOn t e).map Value.uncaptured
        rw [factOn, Option.map_map]
        exact congrArg (Option.map · _) (funext fun x => x.value.uncaptured_uncaptured.symm)
      cleared := fun t e _ ⟨_, hd, _⟩ => nomatch hd
      kept := fun _ _ _ _ => rfl
      waiting := fun t e _ => by rw [waitingOn, hw.1]; rfl
      roles := by rw [hw.1]; exact fun p hp => nomatch hp }
  have hrun := hstart.operations hC b.operations hb
  rw [← apply_eq_operations, ← apply_eq_operations, List.nil_append] at hrun
  unfold applyBuffer applyInOrder
  generalize b.apply C w = x at hrun
  generalize b.apply C { w with flushingAnchors := true } = y at hrun
  cases hrun with
  | none => exact ⟨rfl, nofun⟩
  | @some a c hac =>
    obtain ⟨u', hu', hfacts⟩ := factOn_flushed (C := C) (w := { a with
      pendingDerivedFrom := [], flushingAnchors := true }) a.pendingDerivedFrom hac.roles rfl
    have hflush : a.flushDerivedFrom C = some { u' with flushingAnchors := false } := by
      unfold flushDerivedFrom
      dsimp only
      rw [hu']
      rfl
    refine ⟨by rw [Option.bind_some, hflush]; rfl, fun u v hu hv => ?_⟩
    rw [Option.bind_some, hflush] at hu
    cases hu
    cases hv
    rw [sameFacts_iff]
    refine forall₂_congr fun t e => forall_congr' fun ht => ?_
    have hdeferred : u'.factOn t e =
        ((lastPut (editsOf C w b.operations) t e).map Value.uncaptured).or (a.factOn t e) := by
      rw [hfacts t e ht, ← hac.waiting t e ht]
      rfl
    show u'.factOn t e = c.factOn t e ↔ _
    rw [hdeferred, hac.taken t e ht]
    exact held_eq_iff (w.factOn t e) (hstart.taken t e ht).symm _ (hac.cleared t e ht)
      (hac.kept t e ht)

section Orders

/-- Type 5 is `DerivedFrom`, everything else is data. -/
def derivedFacts : Components Nat where
  tracked t := t != 5
  role t := if t = 5 then .derivedFrom else .plain
  fingerprint _ _ := none
  target _ _ := 0
  inverse_role t inverse h := by split_ifs at h

theorem mutual_derivedFacts : derivedFacts.Mutual := by
  intro t edge h
  have hrole : (if t = 5 then Role.derivedFrom else .plain) = .inverse edge := h
  split_ifs at hrole

/-- Two entities with a component each. -/
def sourced : World Nat :=
  (World.new.spawnEmpty.2.spawnEmpty.2.applyBase derivedFacts
    [.insert 1 0 (.data 7), .insert 1 1 (.data 8)]).getD World.new

/-- A fact is attached to entity 1 after its previous one has been removed. -/
def replacing : CommandBuffer Nat :=
  .derived ⟨0, [0]⟩ [.removeComponent 5 1, .insert 5 1 (.derivedFrom [⟨0, none⟩])]

/-- A fact is attached to entity 1, and the entity is removed. -/
def withdrawing : CommandBuffer Nat :=
  .derived ⟨0, [0]⟩ [.insert 5 1 (.derivedFrom [⟨0, none⟩]), .removeEntity 1]

/-- Nothing overtakes the fact of the first buffer. -/
theorem replacing_inOrder : ∃ u v, sourced.applyBuffer derivedFacts replacing = some u ∧
    sourced.applyInOrder derivedFacts replacing = some v ∧ u.has 5 1 = true ∧
      SameFacts derivedFacts v u := by
  have htyped : replacing.Typed derivedFacts := by
    intro c hc
    rcases List.mem_cons.mp hc with rfl | hc
    · trivial
    · obtain rfl := List.mem_singleton.mp hc
      exact fun _ => rfl
  have hflushed : sourced.Flushed := ⟨rfl, rfl⟩
  have hinOrder := (applyBuffer_inOrder mutual_derivedFacts hflushed replacing htyped).2 _ _ rfl rfl
  refine ⟨_, _, rfl, rfl, by decide, hinOrder.mpr fun t e ht => ?_⟩
  rintro ⟨hput, hlast⟩
  have hedits : editsOf derivedFacts sourced replacing.operations =
      [.drop 5 1, .put 5 1 (.derivedFrom [⟨0, none⟩])] := by decide
  rw [hedits] at hput hlast
  by_cases hpair : t = 5 ∧ e = 1
  · obtain ⟨rfl, rfl⟩ := hpair
    exact absurd hlast (by decide)
  · have hnone : ∀ v : Value Nat, lastPut [.drop 5 1, .put 5 1 v] t e = none := by
      intro v
      simp [lastPut, Edit.written, Edit.Touches, hpair]
    rw [hnone] at hput
    cases hput

/-- The removed entity is left with the fact of the second one. -/
theorem withdrawing_overtaken : ∃ u v, sourced.applyBuffer derivedFacts withdrawing = some u ∧
    sourced.applyInOrder derivedFacts withdrawing = some v ∧ u.has 5 1 = true ∧ v.has 5 1 = false ∧
      u.has 1 1 = false ∧ ¬ SameFacts derivedFacts v u := by
  refine ⟨_, _, rfl, rfl, by decide, by decide, by decide, fun h => ?_⟩
  exact absurd (h.present 5 1 rfl) (by decide)

end Orders

end World
end Porridge
