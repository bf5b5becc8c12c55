import Porridge.Query.Extent
import Porridge.Query.Access
import Porridge.World.Watermarks

/-! Whole-store access: whether the stores a view declares decide its rows and what they observe. -/
namespace Porridge

variable {α : Type} {C : Components α} {w w' : World α} {q : QueryParam} {f : QueryFilter}

def namedStores (q : QueryParam) (f : QueryFilter) : List TypeId :=
  (q.accessAll ++ f.accessAll).map Access.component

structure SameRows (C : Components α) (q : QueryParam) (f : QueryFilter) (w w' : World α) :
    Prop where
  rows : ∀ e, e ∈ filteredRows w q f ↔ e ∈ filteredRows w' q f
  deps : ∀ e ∈ filteredRows w q f,
    (SystemParam.query q f).deps C w (.row e) = (SystemParam.query q f).deps C w' (.row e)

/-- The declared stores decide the rows and what they observe: between any two worlds, and over
every run for the observations and the interest of a tracked view and for the freshness of a
view. -/
structure WholeStoreComplete (C : Components α) (q : QueryParam) (f : QueryFilter) : Prop where
  access : ∀ w w', World.Reachable C w → World.Reachable C w' →
    (∀ t ∈ namedStores q f, ∀ e, w.cell? t e = w'.cell? t e) → SameRows C q f w w'
  deps : ∀ w ops w', World.Reachable C w → (World.machine C).run w ops = some w' →
    (SystemParam.trackedView q f).deps C w .unit = (SystemParam.trackedView q f).deps C w' .unit →
      SameRows C q f w w'
  interest : ∀ w ops w', World.Reachable C w → (World.machine C).run w ops = some w' →
    (∀ types ∈ (SystemParam.trackedView q f).interestTypes,
      ¬ BoxedSystem.interestMark types w < BoxedSystem.interestMark types w') → SameRows C q f w w'
  freshness : ∀ w ops w', World.Reachable C w → (World.machine C).run w ops = some w' →
    (∀ t ∈ (SystemParam.view q f).viewFreshness, w.storeWatermark t = w'.storeWatermark t) →
      SameRows C q f w w'

/-- Some set of components makes an entity a row. -/
def Satisfiable (q : QueryParam) (f : QueryFilter) : Prop :=
  q.extent f.enumerates ≠ .nothing ∧
    ∀ t ∈ (q.extent f.enumerates).types ++ f.presentTypes, t ∉ f.absentTypes

instance (q : QueryParam) (f : QueryFilter) : Decidable (Satisfiable q f) :=
  inferInstanceAs (Decidable (_ ∧ _))

def QueryPart.facetTypes (C : Components α) : QueryPart → List TypeId
  | .tracked _ h => (h.map FacetPart.component).filter (C.tracked ·)
  | _ => []

def QueryParam.facetTypes (C : Components α) : QueryParam → List TypeId
  | .entityParts _ parts => parts.flatMap (·.facetTypes C)
  | _ => []

/-- If anything can match, then the rows are drawn from stores, and these and the stores of the
facets observed as a whole are named. -/
def Covered (C : Components α) (q : QueryParam) (f : QueryFilter) : Prop :=
  Satisfiable q f → q.extent f.enumerates ≠ .ids ∧
    ∀ t ∈ (q.extent f.enumerates).types ++ q.facetTypes C, t ∈ namedStores q f

instance (C : Components α) (q : QueryParam) (f : QueryFilter) : Decidable (Covered C q f) :=
  inferInstanceAs (Decidable (_ → _))

section Observations

theorem mem_trackedViewTypes {t : TypeId} : t ∈ trackedViewTypes q f ↔ t ∈ namedStores q f := by
  rw [trackedViewTypes, List.mem_dedup, List.mem_insertionSort]
  rfl

/-- The observation of a component is decided by its revision. -/
theorem componentDep_congr {t : TypeId} {e : Entity}
    (h : C.tracked t = true → w.revisionByType t e = w'.revisionByType t e) :
    componentDep C w t e = componentDep C w' t e := by
  unfold componentDep
  split_ifs with htracked
  · rw [h htracked]
  · rfl

theorem JoinKey.deps_of_unbound (e : Entity) : ∀ {k : JoinKey}, k.boundKeyTypes = [] →
    k.deps C w e = []
  | .eq _, h => nomatch h
  | .inMembers _, _ => rfl
  | .and l r, h => by
    obtain ⟨hl, hr⟩ := List.append_eq_nil_iff.mp h
    rw [deps, deps_of_unbound e hl, deps_of_unbound e hr, List.append_nil]

theorem QueryFilter.deps_congr {e : Entity} : ∀ {f : QueryFilter}, f.boundKeyTypes = [] →
    (∀ t ∈ f.accessAll.map Access.component, w.revisionByType t e = w'.revisionByType t e) →
      f.deps C w e = f.deps C w' e
  | .unit, _, _ => rfl
  | .withComponent t, _, h => componentDep_congr fun _ => h t (List.mem_singleton_self t)
  | .withoutComponent _, _, _ => rfl
  | .whereKey k, hnone, _ => by
    have hnone : k.boundKeyTypes = [] := hnone
    rw [deps, deps, JoinKey.deps_of_unbound e hnone, JoinKey.deps_of_unbound e hnone]
  | .and l r, hnone, h => by
    obtain ⟨hl, hr⟩ := List.append_eq_nil_iff.mp hnone
    rw [accessAll, List.map_append] at h
    rw [deps, deps, deps_congr hl fun t ht => h t (List.mem_append_left _ ht),
      deps_congr hr fun t ht => h t (List.mem_append_right _ ht)]

theorem QueryPart.deps_congr {part : QueryPart} {e : Entity}
    (hwhole : part.supportsWholeStoreView = true)
    (haccess : w.revisionByType part.accessAll.component e =
      w'.revisionByType part.accessAll.component e)
    (hfacet : ∀ t ∈ part.facetTypes C, w.revisionByType t e = w'.revisionByType t e) :
    part.deps C w e = part.deps C w' e := by
  cases part with
  | read t => exact componentDep_congr fun _ => haccess
  | optional t => exact componentDep_congr fun _ => haccess
  | mutRef t => exact componentDep_congr fun _ => haccess
  | tracked marker h =>
    refine List.flatMap_congr fun p hp => componentDep_congr fun htracked => ?_
    exact hfacet _ (List.mem_filter.mpr ⟨List.mem_map_of_mem hp, htracked⟩)
  | related _ _ => cases hwhole

theorem QueryParam.deps_congr {e : Entity} (hwhole : q.supportsWholeStoreView = true)
    (haccess : ∀ t ∈ q.accessAll.map Access.component,
      w.revisionByType t e = w'.revisionByType t e)
    (hfacet : ∀ t ∈ q.facetTypes C, w.revisionByType t e = w'.revisionByType t e) :
    q.deps C w e = q.deps C w' e := by
  cases q with
  | entity _ => rfl
  | read t => exact componentDep_congr fun _ => haccess t (List.mem_singleton_self t)
  | mutRef t => exact componentDep_congr fun _ => haccess t (List.mem_singleton_self t)
  | entityParts h parts =>
    refine List.flatMap_congr fun part hpart => ?_
    refine QueryPart.deps_congr (List.all_eq_true.mp hwhole part hpart) (haccess _ ?_)
      fun t ht => hfacet t (List.mem_flatMap.mpr ⟨part, hpart, ht⟩)
    exact List.mem_map_of_mem (List.mem_map_of_mem hpart)

theorem of_mem_componentDep {t : TypeId} {e : Entity} {d : Dep} (hd : d ∈ componentDep C w t e) :
    d.revision = w.revisionByType d.component e := by
  unfold componentDep at hd
  split_ifs at hd
  · cases List.mem_singleton.mp hd
    rfl
  · cases hd

theorem JoinKey.of_mem_deps {e : Entity} {d : Dep} : ∀ {k : JoinKey}, d ∈ k.deps C w e →
    d.revision = w.revisionByType d.component e
  | .eq _, hd => of_mem_componentDep hd
  | .inMembers _, hd => nomatch hd
  | .and _ _, hd => (List.mem_append.mp hd).elim of_mem_deps of_mem_deps

theorem QueryFilter.of_mem_deps {e : Entity} {d : Dep} : ∀ {f : QueryFilter}, d ∈ f.deps C w e →
    d.revision = w.revisionByType d.component e
  | .unit, hd => nomatch hd
  | .withComponent _, hd => of_mem_componentDep hd
  | .withoutComponent _, hd => nomatch hd
  | .whereKey _, hd => JoinKey.of_mem_deps hd
  | .and _ _, hd => (List.mem_append.mp hd).elim of_mem_deps of_mem_deps

/-- Outside relationship projections, a row observes its own entity only. -/
theorem of_mem_rowDeps {e : Entity} (hwhole : q.supportsWholeStoreView = true) {d : Dep}
    (hd : d ∈ (SystemParam.query q f).deps C w (.row e)) :
    d.revision = w.revisionByType d.component e := by
  rcases List.mem_append.mp hd with hd | hd
  · cases q with
    | entity _ => cases hd
    | read t => exact of_mem_componentDep hd
    | mutRef t => exact of_mem_componentDep hd
    | entityParts h parts =>
      obtain ⟨part, hpart, hd⟩ := List.mem_flatMap.mp hd
      have hwhole := List.all_eq_true.mp hwhole part hpart
      cases part with
      | read t => exact of_mem_componentDep hd
      | optional t => exact of_mem_componentDep hd
      | mutRef t => exact of_mem_componentDep hd
      | tracked marker h =>
        obtain ⟨p, -, hp⟩ := List.mem_flatMap.mp hd
        exact of_mem_componentDep hp
      | related _ _ => cases hwhole
  · exact QueryFilter.of_mem_deps hd

/-- A tracked component of a facet observed as a whole is observed on every row. -/
theorem mem_rowDeps_of_facetTypes {e : Entity} {t : TypeId} (ht : t ∈ q.facetTypes C) :
    (⟨t, e, w.revisionByType t e, false⟩ : Dep) ∈ (SystemParam.query q f).deps C w (.row e) := by
  refine List.mem_append_left _ ?_
  cases q with
  | entityParts h parts =>
    obtain ⟨part, hpart, ht⟩ := List.mem_flatMap.mp ht
    refine List.mem_flatMap.mpr ⟨part, hpart, ?_⟩
    cases part with
    | tracked marker h =>
      obtain ⟨ht, htracked⟩ := List.mem_filter.mp ht
      obtain ⟨p, hp, rfl⟩ := List.mem_map.mp ht
      refine List.mem_flatMap.mpr ⟨p, hp, ?_⟩
      unfold componentDep
      rw [if_pos htracked]
      exact List.mem_singleton_self _
    | _ => cases ht
  | _ => cases ht

end Observations

section Covering

/-- What a row says about its query. -/
theorem satisfiable_of_row {schema : Option (List TypeId)} (hp : w.Present schema) {e : Entity}
    (he : e ∈ filteredRows w q f) : Satisfiable q f := by
  obtain ⟨hextent, hmatches⟩ := (mem_filteredRows_extent hp q f e).mp he
  obtain ⟨hpresent, habsent⟩ := QueryFilter.matchesRow_iff.mp hmatches
  constructor
  · intro hnothing
    rw [hnothing] at hextent
    exact hextent
  · intro t ht hnot
    have hcarries : w.has t e = true := by
      rcases List.mem_append.mp ht with ht | ht
      · cases hkind : q.extent f.enumerates with
        | carriers types =>
          rw [hkind] at ht hextent
          exact hextent t ht
        | nothing => rw [hkind] at ht; cases ht
        | ids => rw [hkind] at ht; cases ht
      · exact hpresent t ht
    rw [habsent t hnot] at hcarries
    cases hcarries

/-- In a covered query, worlds that show the same in the named stores have the same rows. -/
theorem Covered.sameRows {schema schema' : Option (List TypeId)} (h : Covered C q f)
    (hwhole : q.supportsWholeStoreView = true) (hbound : f.boundKeyTypes = [])
    (hp : w.Present schema) (hp' : w'.Present schema')
    (hsame : ∀ t ∈ namedStores q f, ∀ e, w.revisionByType t e = w'.revisionByType t e) :
    SameRows C q f w w' := by
  have hhas : ∀ t ∈ namedStores q f, ∀ e, w.has t e = w'.has t e := by
    intro t ht e
    have hsome := congrArg Option.isSome (hsame t ht e)
    rwa [World.revisionByType, World.revisionByType, Option.isSome_map, Option.isSome_map] at hsome
  have hrows : Satisfiable q f → ∀ e, e ∈ filteredRows w q f ↔ e ∈ filteredRows w' q f := by
    intro hsat e
    obtain ⟨hids, hnamed⟩ := h hsat
    have hextent : (q.extent f.enumerates).Mem w e ↔ (q.extent f.enumerates).Mem w' e := by
      cases hkind : q.extent f.enumerates with
      | nothing => exact absurd hkind hsat.1
      | ids => exact absurd hkind hids
      | carriers types =>
        rw [hkind] at hnamed
        refine forall₂_congr fun t ht => ?_
        rw [hhas t (hnamed t (List.mem_append_left _ ht))]
    have hfilter : f.matchesRow w e = f.matchesRow w' e := by
      refine Bool.eq_iff_iff.mpr ?_
      rw [QueryFilter.matchesRow_iff, QueryFilter.matchesRow_iff]
      have hread : ∀ t ∈ f.presentTypes ++ f.absentTypes, w.has t e = w'.has t e := fun t ht => by
        refine hhas t ?_ e
        rw [namedStores, List.map_append]
        exact List.mem_append_right _ (QueryFilter.named_of_unbound hbound ht)
      refine and_congr (forall₂_congr fun t ht => ?_) (forall₂_congr fun t ht => ?_)
      · rw [hread t (List.mem_append_left _ ht)]
      · rw [hread t (List.mem_append_right _ ht)]
    rw [mem_filteredRows_extent hp, mem_filteredRows_extent hp', hextent, hfilter]
  constructor
  · intro e
    by_cases hsat : Satisfiable q f
    · exact hrows hsat e
    · constructor
      · exact fun he => absurd (satisfiable_of_row hp he) hsat
      · exact fun he => absurd (satisfiable_of_row hp' he) hsat
  · intro e he
    obtain ⟨-, hnamed⟩ := h (satisfiable_of_row hp he)
    have hsplit : namedStores q f =
        q.accessAll.map Access.component ++ f.accessAll.map Access.component := List.map_append ..
    have hquery : q.deps C w e = q.deps C w' e := by
      refine QueryParam.deps_congr hwhole (fun t ht => hsame t ?_ e) fun t ht => hsame t ?_ e
      · rw [hsplit]
        exact List.mem_append_left _ ht
      · exact hnamed t (List.mem_append_right _ ht)
    have hfilter : f.deps C w e = f.deps C w' e := by
      refine QueryFilter.deps_congr hbound fun t ht => hsame t ?_ e
      rw [hsplit]
      exact List.mem_append_right _ ht
    show q.deps C w e ++ f.deps C w e = q.deps C w' e ++ f.deps C w' e
    rw [hquery, hfilter]

/-- A run that moved no named watermark has left the rows as they were. -/
theorem Covered.sameRows_of_run (h : Covered C q f) (hwhole : q.supportsWholeStoreView = true)
    (hbound : f.boundKeyTypes = []) {ops : List (WorldOp α)} (hw : World.Reachable C w)
    (hrun : (World.machine C).run w ops = some w')
    (hmarks : ∀ t ∈ namedStores q f, w'.storeWatermark t = w.storeWatermark t) :
    SameRows C q f w w' := by
  have hcoherent := World.coherent_of_reachable hw
  obtain ⟨schema, hp⟩ := World.present_of_reachable hw
  obtain ⟨schema', hp'⟩ := World.present_of_reachable (Machine.Reachable.run hw hrun)
  have hfollows := World.follows_of_run hcoherent hrun
  exact h.sameRows hwhole hbound hp hp' fun t ht e =>
    ((hfollows.sameStore hcoherent (hmarks t ht)).revisions e).symm

end Covering

section Carriers

/-- A reachable world in which entity 0 carries the listed components and nothing else exists. -/
structure Carries (C : Components α) (types : List TypeId) (w : World α) : Prop where
  reachable : World.Reachable C w
  has : ∀ t e, w.has t e = true ↔ t ∈ types ∧ e = 0
  singletons : ∀ key e, w.singletonEntities.lookup key = some e → e = 0
  nextEntity : w.nextEntity = 0

theorem carries_new (C : Components α) : Carries C [] (World.new : World α) where
  reachable := .init World.machine_init_new
  has t e := by
    have hnone : (World.new : World α).has t e = false := rfl
    simp [hnone]
  singletons _ _ h := nomatch h
  nextEntity := rfl

/-- Entity 0 can be given any further component, and the other stores stay as they were. -/
theorem Carries.give {types : List TypeId} (h : Carries C types w) {t : TypeId} (ht : t ∉ types)
    (members : List Entity) :
    ∃ w', (World.machine C).step w (.base (.insert t 0 (.members members))) = some w' ∧
      Carries C (t :: types) w' ∧ w'.fingerprintOn t 0 = C.fingerprint t (.members members) ∧
      ∀ t' ≠ t, ∀ e, w'.cell? t' e = w.cell? t' e := by
  have hvacant : w.cell? t 0 = none := by
    cases hx : w.cell? t 0 with
    | none => rfl
    | some x =>
      have hhas := (World.has_iff w t 0).mpr ⟨x, hx⟩
      exact absurd ((h.has t 0).mp hhas).1 ht
  obtain ⟨registered, hregistered, hstores, hnext, hsingletons⟩ :
      ∃ u : World α, w.registerSingleton C t 0 = some u ∧ u.stores = w.stores ∧
        u.nextEntity = w.nextEntity ∧
        ∀ key e, u.singletonEntities.lookup key = some e → e = 0 := by
    unfold World.registerSingleton
    cases C.singletonKey t with
    | none => exact ⟨w, rfl, rfl, rfl, h.singletons⟩
    | some key =>
      dsimp only
      cases hlookup : w.singletonEntities.lookup key with
      | some existing =>
        rw [h.singletons key existing hlookup]
        exact ⟨w, rfl, rfl, rfl, h.singletons⟩
      | none =>
        refine ⟨_, rfl, rfl, rfl, fun key' e he => ?_⟩
        rw [Dict.lookup_insert] at he
        split_ifs at he
        · exact (Option.some.inj he).symm
        · exact h.singletons key' e he
  have hedge : C.relationshipEdge t (.members members : Value α) = none := by
    unfold Components.relationshipEdge
    split
    · rename_i heq
      cases heq
    · rfl
  have hnoEdge : registered.edgeOn C t 0 = none := by
    rw [World.edgeOn, World.cell?_congr hstores, hvacant]
    rfl
  have happly : (World.machine C).step w (.base (.insert t 0 (.members members))) =
      some (registered.writeEntry C t 0 (.members members) none) := by
    show w.insertNow C t 0 (.members members) none = _
    rw [World.insertNow, hregistered, Option.map_some, World.insertEntry, hedge, hnoEdge]
    rfl
  have hcells : ∀ t' e, (registered.writeEntry C t 0 (.members members) none).cell? t' e =
      if t' = t ∧ e = 0 then some ⟨registered.nextCell, .members members,
        (registered.keptRevision C t 0 (.members members)).getD (registered.revision + 1),
        C.fingerprint t (.members members), none⟩ else w.cell? t' e := by
    intro t' e
    rw [World.cell?_writeEntry, World.cell?_congr hstores]
  have hrest : (registered.writeEntry C t 0 (.members members) none).singletonEntities =
      registered.singletonEntities ∧
      (registered.writeEntry C t 0 (.members members) none).nextEntity = registered.nextEntity := by
    unfold World.writeEntry
    dsimp only
    rw [(World.reindexDerived_eq _ t 0 (registered.owner? t 0) none).choose_spec]
    exact ⟨rfl, rfl⟩
  refine ⟨_, happly, ⟨.step h.reachable trivial happly, fun t' e => ?_, ?_, ?_⟩, ?_,
    fun t' ht' e => ?_⟩
  · rw [World.has, hcells, List.mem_cons]
    by_cases hpair : t' = t ∧ e = 0
    · rw [if_pos hpair]
      simp [hpair]
    · rw [if_neg hpair]
      show w.has t' e = true ↔ _
      rw [h.has]
      constructor
      · rintro ⟨hmem, he⟩
        exact ⟨Or.inr hmem, he⟩
      · rintro ⟨heq | hmem, he⟩
        · exact absurd ⟨heq, he⟩ hpair
        · exact ⟨hmem, he⟩
  · rw [hrest.1]
    exact hsingletons
  · rw [hrest.2, hnext, h.nextEntity]
  · rw [World.fingerprintOn, hcells, if_pos ⟨rfl, rfl⟩]
    rfl
  · rw [hcells, if_neg fun hpair => ht' hpair.1]

theorem exists_carries (C : Components α) : ∀ {types : List TypeId}, types.Nodup →
    ∃ w : World α, Carries C types w
  | [], _ => ⟨_, carries_new C⟩
  | _ :: _, h => by
    obtain ⟨w, hw⟩ := exists_carries C (List.nodup_cons.mp h).2
    obtain ⟨w', -, hw', -⟩ := hw.give (List.nodup_cons.mp h).1 []
    exact ⟨w', hw'⟩

/-- Entity 0 is a row where it carries what the query asks for, and nothing it excludes. -/
theorem Carries.mem_filteredRows {types required : List TypeId} (h : Carries C types w)
    (hextent : q.extent f.enumerates = .carriers required) :
    0 ∈ filteredRows w q f ↔ (∀ t ∈ required ++ f.presentTypes, t ∈ types) ∧
      ∀ t ∈ f.absentTypes, t ∉ types := by
  obtain ⟨schema, hp⟩ := World.present_of_reachable h.reachable
  have hhas : ∀ t, w.has t 0 = true ↔ t ∈ types := fun t => by simp [h.has]
  have hlacks : ∀ t, w.has t 0 = false ↔ t ∉ types := fun t => by
    rw [← hhas t, Bool.not_eq_true]
  rw [mem_filteredRows_extent hp, hextent, QueryFilter.matchesRow_iff, List.forall_mem_append]
  simp only [Extent.Mem, hhas, hlacks, and_assoc]

end Carriers

section Decided

theorem storeWatermark_le_interestMark {types : List TypeId} {t : TypeId} (ht : t ∈ types) :
    w.storeWatermark t ≤ BoxedSystem.interestMark types w := by
  have hfold : ∀ (marks : List Revision) (start : Revision), start ≤ marks.foldl max start ∧
      ∀ mark ∈ marks, mark ≤ marks.foldl max start := by
    intro marks
    induction marks with
    | nil => exact fun start => ⟨le_rfl, nofun⟩
    | cons first marks ih =>
      intro start
      obtain ⟨hstart, hmarks⟩ := ih (max start first)
      refine ⟨(le_max_left _ _).trans hstart, fun mark hmark => ?_⟩
      rcases List.mem_cons.mp hmark with rfl | hmark
      · exact (le_max_right _ _).trans hstart
      · exact hmarks mark hmark
  exact (hfold (types.map w.storeWatermark) 0).2 _ (List.mem_map_of_mem ht)

theorem interestMark_le_revision (hw : w.Coherent) (types : List TypeId) :
    BoxedSystem.interestMark types w ≤ w.revision := by
  refine List.foldlRecOn (types.map w.storeWatermark) _ (motive := (· ≤ w.revision))
    (Nat.zero_le _) fun mark hle mark' hmark' => ?_
  obtain ⟨t, -, rfl⟩ := List.mem_map.mp hmark'
  exact max_le hle (hw.watermarks t)

/-- A store that has moved raises the mark of every interest it belongs to. -/
theorem interestMark_lt (hw : w.Coherent) (h : World.Follows C w w') {types : List TypeId}
    {t : TypeId} (ht : t ∈ types) (hmoved : w'.storeWatermark t ≠ w.storeWatermark t) :
    BoxedSystem.interestMark types w < BoxedSystem.interestMark types w' := by
  rcases h.stores t with hlt | ⟨hsame, -⟩
  · exact lt_of_le_of_lt (interestMark_le_revision hw types)
      (lt_of_lt_of_le hlt (storeWatermark_le_interestMark ht))
  · exact absurd hsame hmoved

theorem accepted_of_valid : (SystemParam.view q f).validateLocal = .ok () ∨
    (SystemParam.trackedView q f).validateLocal = .ok () →
      q.supportsWholeStoreView = true ∧ f.boundKeyTypes = [] := by
  have hbound : ∀ {keys : List TypeId}, keys.head? = none → keys = [] := List.head?_eq_none_iff.mp
  rintro (h | h)
  · unfold SystemParam.validateLocal at h
    dsimp only at h
    split_ifs at h with hwhole
    cases hkeys : f.boundKeyTypes.head? with
    | some key => rw [hkeys] at h; cases h
    | none => exact ⟨Bool.eq_true_of_not_eq_false hwhole, hbound hkeys⟩
  · unfold SystemParam.validateLocal at h
    dsimp only at h
    split_ifs at h with hwhole hwrites
    cases hkeys : f.boundKeyTypes.head? with
    | some key => rw [hkeys] at h; cases h
    | none => exact ⟨Bool.eq_true_of_not_eq_false hwhole, hbound hkeys⟩

/-- A store that decides the rows and is not named tells two worlds apart. -/
theorem covered_of_access (hwhole : q.supportsWholeStoreView = true)
    (hbound : f.boundKeyTypes = [])
    (h : ∀ w w' : World α, World.Reachable C w → World.Reachable C w' →
      (∀ t ∈ namedStores q f, ∀ e, w.cell? t e = w'.cell? t e) → SameRows C q f w w') :
    Covered C q f := by
  intro hsat
  have hfilter : ∀ t ∈ f.presentTypes ++ f.absentTypes, t ∈ namedStores q f := fun t ht => by
    rw [namedStores, List.map_append]
    exact List.mem_append_right _ (QueryFilter.named_of_unbound hbound ht)
  cases hkind : q.extent f.enumerates with
  | nothing => exact absurd hkind hsat.1
  | ids =>
    exfalso
    have hnone : f.presentTypes = [] := by
      refine List.eq_nil_iff_forall_not_mem.mpr fun t ht => ?_
      rw [QueryFilter.enumerates_of_present ht] at hkind
      cases hkind
    have hempty := (carries_new (α := α) C).reachable
    have hspawned : World.Reachable C (World.new : World α).spawnEmpty.2 :=
      hempty.step (i := .spawnEmpty) trivial rfl
    obtain ⟨schema, hp⟩ := World.present_of_reachable hempty
    obtain ⟨schema', hp'⟩ := World.present_of_reachable hspawned
    have hrow : 0 ∈ filteredRows (World.new : World α).spawnEmpty.2 q f := by
      refine (mem_filteredRows_extent hp' q f 0).mpr ⟨?_, QueryFilter.matchesRow_iff.mpr ⟨?_, ?_⟩⟩
      · rw [hkind]
        exact Nat.zero_lt_one
      · rw [hnone]
        exact nofun
      · exact fun _ _ => rfl
    have hrow' := ((h _ _ hspawned hempty fun _ _ _ => rfl).rows 0).mp hrow
    have hextent := ((mem_filteredRows_extent hp q f 0).mp hrow').1
    rw [hkind] at hextent
    exact absurd hextent (Nat.lt_irrefl 0)
  | carriers required =>
    have hsat' : ∀ t ∈ required ++ f.presentTypes, t ∉ f.absentTypes := by
      have hsplit := hsat.2
      rw [hkind] at hsplit
      exact hsplit
    have hrequired : ∀ t ∈ required, t ∈ namedStores q f := by
      intro t ht
      by_contra hnot
      let rest := ((required ++ f.presentTypes).dedup).filter (· ≠ t)
      have hlacks : t ∉ rest := fun hmem => absurd rfl (of_decide_eq_true (List.mem_filter.mp hmem).2)
      obtain ⟨w, hw⟩ := exists_carries (α := α) C ((List.nodup_dedup _).filter _ : rest.Nodup)
      obtain ⟨w', hstep, hw', -, hframe⟩ := hw.give hlacks []
      have hrow : 0 ∈ filteredRows w' q f := by
        refine (hw'.mem_filteredRows hkind).mpr ⟨fun t' ht' => ?_, fun t' ht' hmem => ?_⟩
        · by_cases heq : t' = t
          · exact heq ▸ List.mem_cons_self
          · exact List.mem_cons_of_mem _
              (List.mem_filter.mpr ⟨List.mem_dedup.mpr ht', decide_eq_true heq⟩)
        · rcases List.mem_cons.mp hmem with rfl | hmem
          · exact hsat' t' (List.mem_append_left _ ht) ht'
          · exact hsat' t' (List.mem_dedup.mp (List.mem_filter.mp hmem).1) ht'
      have hsame := h w w' hw.reachable hw'.reachable fun t' ht' e =>
        (hframe t' (fun heq => hnot (heq ▸ ht')) e).symm
      have hrow' := (hw.mem_filteredRows hkind).mp ((hsame.rows 0).mpr hrow)
      exact hlacks (hrow'.1 t (List.mem_append_left _ ht))
    refine ⟨nofun, fun t ht => ?_⟩
    rcases List.mem_append.mp ht with ht | ht
    · exact hrequired t ht
    · by_contra hnot
      let rest := (required ++ f.presentTypes).dedup
      have hlacks : t ∉ rest := fun hmem => by
        rcases List.mem_append.mp (List.mem_dedup.mp hmem) with hmem | hmem
        · exact hnot (hrequired t hmem)
        · exact hnot (hfilter t (List.mem_append_left _ hmem))
      obtain ⟨w, hw⟩ := exists_carries (α := α) C (List.nodup_dedup _ : rest.Nodup)
      obtain ⟨w', hstep, hw', -, hframe⟩ := hw.give hlacks []
      have hrow : 0 ∈ filteredRows w q f := by
        refine (hw.mem_filteredRows hkind).mpr ⟨fun t' ht' => List.mem_dedup.mpr ht', ?_⟩
        exact fun t' ht' hmem => hsat' t' (List.mem_dedup.mp hmem) ht'
      have hsame := h w w' hw.reachable hw'.reachable fun t' ht' e =>
        (hframe t' (fun heq => hnot (heq ▸ ht')) e).symm
      have hobserved := mem_rowDeps_of_facetTypes (w := w) (f := f) (e := 0) ht
      rw [hsame.deps 0 hrow] at hobserved
      have hrevision := of_mem_rowDeps hwhole hobserved
      have hsome := congrArg Option.isSome hrevision
      have hhas := (hw.has t 0).not.mpr fun hmem => hlacks hmem.1
      have hhas' := (hw'.has t 0).mpr ⟨List.mem_cons_self, rfl⟩
      rw [World.has, ← Option.isSome_map (f := Entry.revision)] at hhas hhas'
      exact hhas (hsome.trans hhas')

/-- The stores a view declares decide its rows, observations and replanning exactly when it covers
what its rows are drawn from. -/
theorem wholeStoreComplete_iff (haccepted : (SystemParam.view q f).validateLocal = .ok () ∨
    (SystemParam.trackedView q f).validateLocal = .ok ()) :
    WholeStoreComplete C q f ↔ Covered C q f := by
  obtain ⟨hwhole, hbound⟩ := accepted_of_valid haccepted
  constructor
  · exact fun h => covered_of_access hwhole hbound h.access
  · intro h
    constructor
    · intro w w' hw hw' hsame
      obtain ⟨schema, hp⟩ := World.present_of_reachable hw
      obtain ⟨schema', hp'⟩ := World.present_of_reachable hw'
      refine h.sameRows hwhole hbound hp hp' fun t ht e => ?_
      rw [World.revisionByType, World.revisionByType, hsame t ht e]
    · intro w ops w' hw hrun hdeps
      refine h.sameRows_of_run hwhole hbound hw hrun fun t ht => ?_
      have hdep := List.map_inj_left.mp hdeps t (mem_trackedViewTypes.mpr ht)
      have hmarks := congrArg Dep.revision hdep
      exact (Option.some.inj hmarks).symm
    · intro w ops w' hw hrun hinterest
      have hcoherent := World.coherent_of_reachable hw
      refine h.sameRows_of_run hwhole hbound hw hrun fun t ht => ?_
      by_contra hmoved
      exact hinterest _ rfl (interestMark_lt hcoherent (World.follows_of_run hcoherent hrun)
        (mem_trackedViewTypes.mpr ht) hmoved)
    · intro w ops w' hw hrun hfresh
      exact h.sameRows_of_run hwhole hbound hw hrun fun t ht => (hfresh t ht).symm

/-- Rows driven by a part and narrowed by a `Without` filter are complete. -/
theorem narrowed_wholeStoreComplete :
    WholeStoreComplete World.fingerprinted (.entityParts [] [.read 1, .tracked 3 [⟨3, true⟩]])
      (.withoutComponent 2) := by
  have hvalid : (SystemParam.trackedView (.entityParts [] [.read 1, .tracked 3 [⟨3, true⟩]])
      (.withoutComponent 2)).validateLocal = .ok () := rfl
  exact (wholeStoreComplete_iff (Or.inr hvalid)).mpr (by decide)

end Decided

/-- Entity 0 carries component 1 only. -/
def unanchored : World Nat :=
  ((World.machine World.fingerprinted).run (World.ofSchema none)
    [.base (.insert 1 0 (.data 7))]).getD World.new

/-- Entity 0 has been given component 2 as well. -/
def anchored : World Nat :=
  ((World.machine World.fingerprinted).run unanchored [.base (.insert 2 0 (.data 8))]).getD World.new

/-- Reads component 1 of the entities whose facet asks for component 2. -/
def anchoredRow : QueryParam := .entityParts [⟨2, false⟩] [.read 1]

/-- The store of the handle's facet decides the rows, and the view does not name it. -/
theorem facet_outside_access :
    (SystemParam.trackedView anchoredRow .unit).validateLocal = .ok () ∧
      World.Reachable World.fingerprinted unanchored ∧
      (World.machine World.fingerprinted).run unanchored [.base (.insert 2 0 (.data 8))] =
        some anchored ∧
      (∀ t ∈ namedStores anchoredRow .unit, ∀ e, unanchored.cell? t e = anchored.cell? t e) ∧
      filteredRows unanchored anchoredRow .unit = [] ∧
      filteredRows anchored anchoredRow .unit = [0] ∧
      (SystemParam.trackedView anchoredRow .unit).deps World.fingerprinted unanchored .unit =
        (SystemParam.trackedView anchoredRow .unit).deps World.fingerprinted anchored .unit ∧
      ¬ WholeStoreComplete World.fingerprinted anchoredRow .unit := by
  have hstart : (World.machine World.fingerprinted).run (World.ofSchema none)
      [.base (.insert 1 0 (.data 7))] = some unanchored := rfl
  have hreachable : World.Reachable World.fingerprinted unanchored :=
    Machine.Reachable.run (.init ⟨none, rfl⟩) hstart
  have hrun : (World.machine World.fingerprinted).run unanchored [.base (.insert 2 0 (.data 8))] =
      some anchored := rfl
  have hsame : ∀ t ∈ namedStores anchoredRow .unit, ∀ e,
      unanchored.cell? t e = anchored.cell? t e := by
    intro t ht e
    have ht : t = 1 := List.mem_singleton.mp ht
    subst ht
    rfl
  have hbefore : filteredRows unanchored anchoredRow .unit = [] := by decide
  have hafter : filteredRows anchored anchoredRow .unit = [0] := by decide
  refine ⟨rfl, hreachable, hrun, hsame, hbefore, hafter, by decide, fun hcomplete => ?_⟩
  have hrows := (hcomplete.access _ _ hreachable (Machine.Reachable.run hreachable hrun) hsame).rows 0
  rw [hbefore, hafter] at hrows
  exact absurd (hrows.mpr (List.mem_singleton_self 0)) (List.not_mem_nil)

end Porridge
