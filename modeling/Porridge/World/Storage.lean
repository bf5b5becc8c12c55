import Porridge.World.Parallel
import Porridge.World.Stores
import Porridge.World.Teardown

/-! World operations over a storage that lists its stores in an order of its own. -/
namespace Porridge

/-- The order in which a storage lists the stores it holds. -/
structure Listing (α : Type) where
  order : Dict TypeId (Store α) → List TypeId
  perm : ∀ d, (order d).Perm d.keys

namespace Listing

variable {α : Type}

/-- The slots of a schema in their order, then the other stores as a hash map lists them. -/
def ofSchema (schema : Option (List TypeId)) (hash : Listing α) : Listing α where
  order d := ((Stores.ofSchema schema).holding (Dict.arrange (hash.order d) d)).values.map Prod.fst
  perm d := by
    refine (List.perm_ext_iff_of_nodup Stores.nodup_values d.keys_nodup).mpr fun t => ?_
    have hget := Stores.get_holding (Dict.arrange (hash.order d) d) (Stores.get_ofSchema schema) t
    have hlisted : t ∈ hash.order d ↔ t ∈ d := (hash.perm d).mem_iff.trans AList.mem_keys.symm
    rw [List.mem_map, ← AList.mem_keys, ← AList.lookup_isSome]
    constructor
    · rintro ⟨⟨t', x⟩, hmem, rfl⟩
      have hx := Stores.mem_values.mp hmem
      rw [Stores.get_holding _ (Stores.get_ofSchema schema), Dict.lookup_arrange] at hx
      split_ifs at hx
      rw [hx]
      rfl
    · intro hsome
      obtain ⟨x, hx⟩ := Option.isSome_iff_exists.mp hsome
      have hthere : t ∈ hash.order d := hlisted.mpr (AList.lookup_isSome.mp hsome)
      rw [Dict.lookup_arrange, if_pos hthere, hx] at hget
      exact ⟨(t, x), Stores.mem_values.mpr hget, rfl⟩

end Listing

inductive WorldCall (α : Type) where
  | insert (component : TypeId) (entity : Entity) (value : Value α)
      (owner : Option SystemInvocation)
  | flushDerivedFrom
  | removeComponent (component : TypeId) (entity : Entity) (remover : Option SystemInvocation)
  | removeEntity (entity : Entity)
  | updateComponent (component : TypeId) (entity : Entity) (value : Value α)
  | writeInPlace (component : TypeId) (entity : Entity) (value : Value α)
  | reconcileWritten (writes : List (TypeId × Entity))
  | takeDerivedOutputs (owner : SystemInvocation)
  | removeDerivedStale (owner : SystemInvocation) (previous : List (TypeId × Entity))
  /-- Retirement in the order in which the ownership map lists the owners. -/
  | retireOwners (owners : List SystemInvocation)
  | recordDerivedSpawn (owner : SystemInvocation) (entity : Entity)
  | finishDerivedSpawns (owner : SystemInvocation)
  | singletonEntityOrRegister (key : TypeId) (candidate : Entity)
  | singletonEntityOrSpawn (key : TypeId)
  | spawnEmpty
  | drainRemovals
  | maybeRollPlanEpoch
deriving DecidableEq

namespace World

variable {α : Type} (C : Components α)

def call (w : World α) : WorldCall α → Option (World α)
  | .insert t e v o => w.insert C t e v o
  | .flushDerivedFrom => w.flushDerivedFrom C
  | .removeComponent t e remover => some (w.removeComponent C t e remover)
  | .removeEntity e => some (w.removeEntity C e)
  | .updateComponent t e v => some (w.updateComponent C t e v)
  | .writeInPlace t e v => some (w.writeInPlace t e v)
  | .reconcileWritten writes => some (w.reconcileWritten C writes)
  | .takeDerivedOutputs o => some (w.takeDerivedOutputs o).2
  | .removeDerivedStale o previous => some (w.removeDerivedStale C o previous)
  | .retireOwners owners => some (w.retireOwners C owners).1
  | .recordDerivedSpawn o e => some (w.recordDerivedSpawn o e)
  | .finishDerivedSpawns o => some (w.finishDerivedSpawns o)
  | .singletonEntityOrRegister key candidate => some (w.singletonEntityOrRegister key candidate).2
  | .singletonEntityOrSpawn key => some (w.singletonEntityOrSpawn key).2
  | .spawnEmpty => some w.spawnEmpty.2
  | .drainRemovals => some w.drainRemovals
  | .maybeRollPlanEpoch => some w.maybeRollPlanEpoch.2

def listed (w : World α) (listing : Listing α) : World α :=
  { w with stores := Dict.arrange (listing.order w.stores) w.stores }

/-- A world over a schema, or over none, whose storage lists undeclared stores by `hash`. -/
def storage (schema : Option (List TypeId)) (hash : Listing α) : Machine (World α) (WorldCall α) where
  init w := w = World.ofSchema schema
  step w c := (w.listed (.ofSchema schema hash)).call C c

def retractionsOf (w : World α) (e : Entity) (t : TypeId) : List (TypeId × Entity) :=
  ((w.cell? t e).map fun x => C.relationshipRetractions t x.value).getD []

/-- Removing the entity retracts edges of its own, and edges that point at it, for at most one
store each. -/
def OneStore (w : World α) (e : Entity) : Prop :=
  (w.edgesOn C e).length ≤ 1 ∧
    ((w.componentsOn e).filter fun t => !(w.retractionsOf C e t).isEmpty).length ≤ 1

end World

/-- No entity removal of the call has the order of the stores decide which change comes first. -/
def WorldCall.Untangled {α : Type} (C : Components α) (w : World α) : WorldCall α → Prop
  | .removeEntity e => w.OneStore C e
  | _ => True

instance WorldCall.Untangled.decidable {α : Type} (C : Components α) (w : World α) :
    ∀ c : WorldCall α, Decidable (c.Untangled C w)
  | .removeEntity _ => inferInstanceAs (Decidable (_ ∧ _))
  | .insert .. | .flushDerivedFrom | .removeComponent .. | .updateComponent .. | .writeInPlace ..
  | .reconcileWritten _ | .takeDerivedOutputs _ | .removeDerivedStale .. | .retireOwners _
  | .recordDerivedSpawn .. | .finishDerivedSpawns _ | .singletonEntityOrRegister ..
  | .singletonEntityOrSpawn _ | .spawnEmpty | .drainRemovals | .maybeRollPlanEpoch =>
    inferInstanceAs (Decidable True)

namespace World

variable {α : Type} (C : Components α) {K : Clocks} {w w' : World α}

section Listed

variable (w) (listing : Listing α)

theorem lookup_listed (t : TypeId) : (w.listed listing).stores.lookup t = w.stores.lookup t := by
  have hlisted : t ∈ listing.order w.stores ↔ t ∈ w.stores :=
    (listing.perm w.stores).mem_iff.trans AList.mem_keys.symm
  unfold listed
  rw [Dict.lookup_arrange]
  split_ifs with ht
  · rfl
  · exact (AList.lookup_eq_none.mpr fun hmem => ht (hlisted.mpr hmem)).symm

theorem store_listed (t : TypeId) : (w.listed listing).store t = w.store t := by
  rw [store, store, Dict.getD, Dict.getD, lookup_listed]

theorem cell?_listed (t : TypeId) (e : Entity) : (w.listed listing).cell? t e = w.cell? t e := by
  rw [cell?, cell?, store_listed]

theorem storeWatermark_listed (t : TypeId) :
    (w.listed listing).storeWatermark t = w.storeWatermark t := by
  rw [storeWatermark, storeWatermark, store_listed]

end Listed

/-- Twins stay twins in whatever order each lists its stores. -/
theorem Twins.listed (h : Twins K w w') (listing listing' : Listing α) :
    Twins K (w.listed listing) (w'.listed listing') where
  cells t e := by
    rw [cell?_listed, cell?_listed]
    exact h.cells t e
  marks t := by
    rw [storeWatermark_listed, storeWatermark_listed]
    exact h.marks t
  clock := h.clock
  books := ⟨h.books.entities, h.books.singletons, h.books.outputs, h.books.spawns, h.books.cursors,
    h.books.pending, h.books.flushing⟩

section Removal

theorem nodup_componentsOn (w : World α) (e : Entity) : (w.componentsOn e).Nodup :=
  w.stores.keys_nodup.filter _

/-- Twins carry the same components, in the order of their own listing. -/
theorem Twins.componentsOn (h : Twins K w w') (e : Entity) :
    (w'.componentsOn e).Perm (w.componentsOn e) := by
  refine (List.perm_ext_iff_of_nodup (nodup_componentsOn w' e) (nodup_componentsOn w e)).mpr ?_
  intro t
  rw [mem_componentsOn, mem_componentsOn, h.has]

theorem revision_eraseEntries (e : Entity) : ∀ (types : List TypeId) (w : World α),
    (w.eraseEntries types e).revision = w.revision + types.length
  | [], _ => rfl
  | t :: types, w => by
    have hrest := revision_eraseEntries e types (w.eraseEntry t e)
    have hstep : (w.eraseEntry t e).revision = w.revision + 1 := rfl
    rw [List.length_cons, Nat.add_comm types.length, ← Nat.add_assoc, ← hstep]
    exact hrest

/-- Erasing an entry raises its store's watermark past every earlier revision. -/
theorem storeWatermark_eraseEntries_mem {e : Entity} {t : TypeId} : ∀ (types : List TypeId)
    (w : World α), types.Nodup → t ∈ types → ∃ m, w.revision < m ∧
      (w.eraseEntries types e).storeWatermark t = max (w.storeWatermark t) m
  | t' :: types, w, hnodup, hmem => by
    obtain ⟨hnot, hnodup⟩ := List.nodup_cons.mp hnodup
    have hcons : w.eraseEntries (t' :: types) e = (w.eraseEntry t' e).eraseEntries types e := rfl
    rw [hcons]
    rcases List.mem_cons.mp hmem with rfl | hmem
    · refine ⟨w.revision + 1, Nat.lt_succ_self _, ?_⟩
      rw [storeWatermark_eraseEntries types _ hnot, storeWatermark_eraseEntry, if_pos rfl]
    · obtain ⟨m, hm, hmark⟩ := storeWatermark_eraseEntries_mem types (w.eraseEntry t' e) hnodup hmem
      have hne : t ≠ t' := fun heq => hnot (heq ▸ hmem)
      refine ⟨m, Nat.lt_trans (Nat.lt_succ_self _) hm, ?_⟩
      rw [hmark, storeWatermark_eraseEntry, if_neg hne]

theorem outputs_unindexEntries (e : Entity) (o : SystemInvocation) :
    ∀ (pairs : List (SystemInvocation × TypeId)) (w : World α),
      (w.unindexEntries pairs e).outputs o =
        (w.outputs o).filter fun p => ¬ (p.2 = e ∧ (o, p.1) ∈ pairs)
  | [], w => by simp [World.unindexEntries]
  | q :: pairs, w => by
    have hcons : w.unindexEntries (q :: pairs) e =
        (w.unindexDerived q.1 q.2 e).unindexEntries pairs e := rfl
    rw [hcons, outputs_unindexEntries e o pairs, outputs_unindexDerived]
    split_ifs with ho
    · subst ho
      rw [List.filter_filter]
      refine List.filter_congr fun p _ => ?_
      grind
    · refine List.filter_congr fun p _ => ?_
      grind

theorem Twins.purgeEntity (h : Twins K w w') (e : Entity) :
    Twins K (w.purgeEntity e) (w'.purgeEntity e) := by
  have hcomponents := h.componentsOn e
  have hstores : ∀ u : World α, (u.purgeEntity e).stores =
      (u.eraseEntries (u.componentsOn e) e).stores := fun u => unindexEntries_stores ..
  have hrevision : ∀ u : World α, (u.purgeEntity e).revision =
      u.revision + (u.componentsOn e).length := by
    intro u
    obtain ⟨owners, hunindexed⟩ := unindexEntries_eq e (u.ownedOn e)
      (u.eraseEntries (u.componentsOn e) e)
    unfold World.purgeEntity
    dsimp only
    rw [hunindexed]
    exact revision_eraseEntries e (u.componentsOn e) u
  refine ⟨fun t e' => ?_, fun t => ?_, ?_, ?_⟩
  · rw [cell?_purgeEntity, cell?_purgeEntity]
    split_ifs
    · exact .none
    · exact h.cells t e'
  · rw [storeWatermark, storeWatermark, store_congr (hstores w), store_congr (hstores w')]
    by_cases ht : t ∈ w.componentsOn e
    · obtain ⟨m, hm, hmark⟩ := storeWatermark_eraseEntries_mem (w.componentsOn e) w
        (nodup_componentsOn w e) ht
      obtain ⟨n, hn, hmark'⟩ := storeWatermark_eraseEntries_mem (w'.componentsOn e) w'
        (nodup_componentsOn w' e) (hcomponents.mem_iff.mpr ht)
      have hraised := K.renew h.clock (h.marks t) hm hn
      rwa [← hmark, ← hmark'] at hraised
    · have ht' : t ∉ w'.componentsOn e := fun hmem => ht (hcomponents.mem_iff.mp hmem)
      have hsame := h.marks t
      rwa [← storeWatermark_eraseEntries (w.componentsOn e) w ht,
        ← storeWatermark_eraseEntries (w'.componentsOn e) w' ht'] at hsame
  · rw [hrevision, hrevision, hcomponents.length_eq]
    exact K.ticks h.clock _
  · have houtputs : ∀ (u : World α) o, (u.purgeEntity e).outputs o =
        (u.outputs o).filter fun p => ¬ (p.2 = e ∧ (o, p.1) ∈ u.ownedOn e) := by
      intro u o
      have hpurged : (u.purgeEntity e).outputs o =
          ((u.eraseEntries (u.componentsOn e) e).unindexEntries (u.ownedOn e) e).outputs o := rfl
      rw [hpurged, outputs_unindexEntries, outputs_congr (eraseEntries_derivedOwners ..)]
    have hbooks : ∀ u : World α, ∃ owners, SameBooks
        { u with
          derivedOwners := owners
          singletonEntities := Dict.retain (fun _ singleton => singleton ≠ e) u.singletonEntities }
        (u.purgeEntity e) ∧ ∀ o, (u.purgeEntity e).outputs o = Dict.getD owners o [] := by
      intro u
      obtain ⟨stores, revision, mutations, log, herased⟩ := eraseEntries_eq e (u.componentsOn e) u
      obtain ⟨owners, hunindexed⟩ := unindexEntries_eq e (u.ownedOn e)
        (u.eraseEntries (u.componentsOn e) e)
      refine ⟨owners, ?_, fun o => ?_⟩
      · unfold World.purgeEntity
        dsimp only
        rw [hunindexed, herased]
        exact ⟨rfl, fun _ => rfl, fun _ => rfl, fun _ => rfl, fun _ => rfl, rfl, rfl⟩
      · unfold World.purgeEntity World.outputs
        dsimp only
        rw [hunindexed]
    obtain ⟨owners, hleft, howners⟩ := hbooks w
    obtain ⟨owners', hright, howners'⟩ := hbooks w'
    refine (hleft.symm.trans ?_).trans hright
    refine ⟨h.books.entities, fun key => ?_, fun o => ?_, h.books.spawns, h.books.cursors,
      h.books.pending, h.books.flushing⟩
    · rw [Dict.lookup_retain, Dict.lookup_retain, h.books.singletons]
    · show Dict.getD owners' o [] = Dict.getD owners o []
      rw [← howners, ← howners', houtputs, houtputs, h.books.outputs]
      refine List.filter_congr fun p _ => ?_
      simp only [mem_ownedOn, h.owner?]

/-- A list with at most one item has one order. -/
theorem eq_of_perm_of_length_le_one {ι : Type} {l l' : List ι} (h : l'.Perm l)
    (hone : l.length ≤ 1) : l' = l := by
  match l, hone with
  | [], _ => exact h.eq_nil
  | [x], _ => exact h.eq_singleton

theorem Twins.edgesOn (h : Twins K w w') (e : Entity) : (w'.edgesOn C e).Perm (w.edgesOn C e) := by
  have hsame : (fun t => w'.edgeOn C t e) = fun t => w.edgeOn C t e :=
    funext fun t => h.edgeOn C t e
  unfold World.edgesOn
  rw [hsame]
  exact (h.componentsOn e).filterMap _

theorem Twins.retractionsOf (h : Twins K w w') (e : Entity) :
    w'.retractionsOf C e = w.retractionsOf C e := by
  funext t
  unfold World.retractionsOf
  rw [h.map_eq (fun x y hxy => by rw [hxy.value])]

/-- Whether the order of the stores counts for a removal is the same for twins. -/
theorem Twins.oneStore (h : Twins K w w') {e : Entity} (hone : w.OneStore C e) :
    w'.OneStore C e := by
  have hretractions := (h.componentsOn e).filter fun t => !(w.retractionsOf C e t).isEmpty
  refine ⟨(h.edgesOn C e).length_eq ▸ hone.1, ?_⟩
  rw [h.retractionsOf C e, hretractions.length_eq]
  exact hone.2

theorem retractionsOn_eq (w : World α) (e : Entity) : w.retractionsOn C e =
    ((w.componentsOn e).filter fun t => !(w.retractionsOf C e t).isEmpty).flatMap
      (w.retractionsOf C e) := by
  show (w.componentsOn e).flatMap (w.retractionsOf C e) = _
  induction w.componentsOn e with
  | nil => rfl
  | cons t types ih =>
    rw [List.flatMap_cons, ih, List.filter_cons]
    cases hnone : w.retractionsOf C e t with
    | nil => simp
    | cons edge rest => simp [hnone]

theorem Twins.retractionsOn (h : Twins K w w') {e : Entity} (hone : w.OneStore C e) :
    w'.retractionsOn C e = w.retractionsOn C e := by
  have hperm := (h.componentsOn e).filter fun t => !(w.retractionsOf C e t).isEmpty
  rw [retractionsOn_eq, retractionsOn_eq, h.retractionsOf C e,
    eq_of_perm_of_length_le_one hperm hone.2]

/-- Where the order of the stores decides nothing, removing an entity keeps twins. -/
theorem Twins.removeEntity (h : Twins K w w') {e : Entity} (hone : w.OneStore C e) :
    Twins K (w.removeEntity C e) (w'.removeEntity C e) := by
  have hretracted := (h.purgeEntity e).foldl (f := fun u edge => u.retractEdge C e (some edge))
    (w.edgesOn C e) fun u u' edge _ hu => hu.retractEdge C e (some edge)
  have hfreed := hretracted.foldl (f := fun u edge => u.removeComponent C edge.1 edge.2 none)
    (w.retractionsOn C e) fun u u' edge _ hu => hu.removeComponent C edge.1 edge.2 none
  unfold World.removeEntity
  rw [eq_of_perm_of_length_le_one (h.edgesOn C e) hone.1, h.retractionsOn C hone]
  exact hfreed.keep rfl rfl rfl rfl ⟨hfreed.books.entities, hfreed.books.singletons,
    hfreed.books.outputs, hfreed.books.spawns, hfreed.books.cursors, hfreed.books.pending,
    hfreed.books.flushing⟩

end Removal
end World

def Clocks.since (r : Revision) : Clocks where
  stamps a b := a = b
  marks x y := r < x ↔ r < y
  sync a b := a = b ∧ r ≤ a
  tick := by
    rintro a b ⟨rfl, hr⟩
    exact ⟨rfl, rfl, Nat.le_succ_of_le hr⟩
  raise := by
    rintro x y m n hxy rfl
    rw [lt_max_iff, lt_max_iff, hxy]
  renew := by
    rintro a b x y m n ⟨rfl, hr⟩ - hm hn
    exact iff_of_true (lt_max_of_lt_right (lt_of_le_of_lt hr hm))
      (lt_max_of_lt_right (lt_of_le_of_lt hr hn))

namespace World

variable {α : Type} (C : Components α) {r : Revision} {w w' : World α}

theorem max?_congr_mem {l l' : List Nat} (h : ∀ a, a ∈ l ↔ a ∈ l') : l.max? = l'.max? := by
  apply Option.ext
  intro a
  rw [List.max?_eq_some_iff, List.max?_eq_some_iff, h]
  simp only [h]

theorem mem_entityRevisions (w : World α) (e : Entity) (a : Revision) :
    a ∈ (w.stores.keys.filter C.tracked).filterMap (fun t => w.revisionByType t e) ↔
      ∃ t, C.tracked t = true ∧ w.revisionByType t e = some a := by
  rw [List.mem_filterMap]
  constructor
  · rintro ⟨t, ht, ha⟩
    exact ⟨t, (List.mem_filter.mp ht).2, ha⟩
  · rintro ⟨t, ht, ha⟩
    have hhas : w.has t e = true := by
      obtain ⟨x, hx, -⟩ := Option.map_eq_some_iff.mp ha
      exact (has_iff w t e).mpr ⟨x, hx⟩
    exact ⟨t, List.mem_filter.mpr ⟨mem_keys_stores_of_has hhas, ht⟩, ha⟩

theorem Twins.revisionByType (h : Twins (.since r) w w') (t : TypeId) (e : Entity) :
    w'.revisionByType t e = w.revisionByType t e :=
  h.map_eq (fun _ _ hxy => hxy.stamp.symm) t e

theorem Twins.entityRevision (h : Twins (.since r) w w') (e : Entity) :
    w'.entityRevision C e = w.entityRevision C e := by
  refine max?_congr_mem fun a => ?_
  rw [mem_entityRevisions, mem_entityRevisions]
  simp only [h.revisionByType]

/-- Worlds with equal revisions capture equal anchors. -/
theorem Twins.sameCapture (h : Twins (.since r) w w') (v : Value α) : SameCapture C v w w' := by
  unfold SameCapture
  cases v with
  | derivedFrom anchors =>
    have hanchors : (fun a : DerivedAnchor => { a with revision := w'.entityRevision C a.entity }) =
        fun a => { a with revision := w.entityRevision C a.entity } :=
      funext fun a => by rw [h.entityRevision C]
    rw [World.capture, World.capture, hanchors]
  | data _ => rfl
  | members _ => rfl

/-- Every operation keeps twins whose revisions are equal, unless it removes an entity for which
the order of the stores counts. -/
theorem Twins.call (h : Twins (.since r) w w') {c : WorldCall α} (hc : c.Untangled C w) :
    TwinResults (.since r) (w.call C c) (w'.call C c) := by
  cases c with
  | insert t e v o => exact h.insert C t e (h.sameCapture C v) o
  | flushDerivedFrom => exact h.flushDerivedFrom C fun p _ u u' hu => hu.sameCapture C _
  | removeComponent t e remover => exact .some (h.removeComponent C t e remover)
  | removeEntity e => exact .some (h.removeEntity C hc)
  | updateComponent t e v => exact .some (h.updateComponent C t e v)
  | writeInPlace t e v => exact .some (h.writeInPlace t e v)
  | reconcileWritten writes => exact .some (h.reconcileWritten C writes)
  | takeDerivedOutputs o => exact .some (h.takeDerivedOutputs o)
  | removeDerivedStale o previous => exact .some (h.removeDerivedStale C o previous)
  | retireOwners owners => exact .some (h.retireOwners C owners)
  | recordDerivedSpawn o e => exact .some (h.recordDerivedSpawn o e)
  | finishDerivedSpawns o => exact .some (h.finishDerivedSpawns o)
  | singletonEntityOrRegister key candidate =>
    exact .some (h.singletonEntityOrRegister key candidate)
  | singletonEntityOrSpawn key => exact .some (h.singletonEntityOrSpawn key)
  | spawnEmpty => exact .some h.spawnEmpty
  | drainRemovals => exact .some h.drainRemovals
  | maybeRollPlanEpoch => exact .some h.maybeRollPlanEpoch

/-- A listing changes nothing but the order of the stores. -/
theorem twins_listed (hr : r ≤ w.revision) (listing : Listing α) :
    Twins (.since r) w (w.listed listing) where
  cells t e := by
    rw [cell?_listed]
    cases w.cell? t e with
    | none => exact .none
    | some x => exact .some ⟨rfl, rfl, rfl, rfl⟩
  marks t := by
    rw [storeWatermark_listed]
    exact Iff.rfl
  clock := ⟨rfl, hr⟩
  books := ⟨rfl, fun _ => rfl, fun _ => rfl, fun _ => rfl, fun _ => rfl, rfl, rfl⟩

/-- One operation on two storages, each listing its stores in its own order. -/
theorem Twins.step (h : Twins (.since r) w w') {schema schema' : Option (List TypeId)}
    (hash hash' : Listing α) {c : WorldCall α} (hc : c.Untangled C w) :
    TwinResults (.since r) ((storage C schema hash).step w c)
      ((storage C schema' hash').step w' c) := by
  refine (h.listed (.ofSchema schema hash) (.ofSchema schema' hash')).call C ?_
  have hsame : Twins (.since r) w (w.listed (.ofSchema schema hash)) := twins_listed h.clock.2 _
  cases c with
  | removeEntity e => exact hsame.oneStore C hc
  | _ => trivial

end World
end Porridge
