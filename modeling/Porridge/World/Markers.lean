import Porridge.World.Retire

/-! Singleton markers and the registry of the entities that carry them. -/
namespace Porridge

variable {α : Type} {C : Components α}

namespace Components

variable (C)

/-- A singleton key belongs to one component type. -/
def DistinctKeys : Prop :=
  ∀ t t' key, C.singletonKey t = some key → C.singletonKey t' = some key → t = t'

variable {C}

theorem singletonKey_of_inverse {t edge : TypeId} (h : C.role t = .inverse edge) :
    C.singletonKey t = none := by
  simp [singletonKey, h]

theorem singletonKey_of_derivedFrom {t : TypeId} (h : C.role t = .derivedFrom) :
    C.singletonKey t = none := by
  simp [singletonKey, h]

/-- A marker points at no other entity. -/
theorem relationshipEdge_of_marker {t key : TypeId} (h : C.singletonKey t = some key)
    (v : Value α) : C.relationshipEdge t v = none := by
  unfold relationshipEdge
  split
  · rename_i hrole
    simp [singletonKey, hrole] at h
  · rfl

end Components

namespace World

variable {w w' : World α} {expected : TypeId → Entity → Prop} {t key : TypeId} {e : Entity}
  {o : SystemInvocation}

def Marked (C : Components α) (w : World α) (key : TypeId) (e : Entity) : Prop :=
  ∃ t, C.singletonKey t = some key ∧ w.has t e = true

structure Registered (C : Components α) (expected : TypeId → Entity → Prop) (w : World α) :
    Prop where
  registered : ∀ key e, w.Marked C key e → w.singletonEntities.lookup key = some e
  marked : ∀ key e, w.singletonEntities.lookup key = some e → w.Marked C key e ∨ expected key e

structure SameMarkers (C : Components α) (w w' : World α) : Prop where
  registry : w'.singletonEntities = w.singletonEntities
  has : ∀ t e, C.singletonKey t ≠ none → w'.has t e = w.has t e

theorem SameMarkers.refl (w : World α) : SameMarkers C w w := ⟨rfl, fun _ _ _ => rfl⟩

theorem SameMarkers.trans {a b c : World α} (hab : SameMarkers C a b) (hbc : SameMarkers C b c) :
    SameMarkers C a c where
  registry := hbc.registry.trans hab.registry
  has t e ht := (hbc.has t e ht).trans (hab.has t e ht)

theorem SameMarkers.of_stores (hs : w'.stores = w.stores)
    (hr : w'.singletonEntities = w.singletonEntities) : SameMarkers C w w' where
  registry := hr
  has t e _ := by rw [World.has, World.has, cell?_congr hs]

theorem SameMarkers.marked (h : SameMarkers C w w') :
    w'.Marked C key e ↔ w.Marked C key e := by
  refine exists_congr fun t => and_congr_right fun ht => ?_
  rw [h.has t e (by simp [ht])]

theorem Registered.same (h : w.Registered C expected) (hs : SameMarkers C w w') :
    w'.Registered C expected where
  registered key e hmarked := by
    rw [hs.registry]
    exact h.registered key e (hs.marked.mp hmarked)
  marked key e hlookup := by
    rw [hs.registry] at hlookup
    exact (h.marked key e hlookup).imp_left hs.marked.mpr

theorem Registered.mono {expected' : TypeId → Entity → Prop} (h : w.Registered C expected)
    (hexpected : ∀ key e, expected key e → expected' key e) : w.Registered C expected' where
  registered := h.registered
  marked key e hlookup := (h.marked key e hlookup).imp_right (hexpected key e)

/-- No entity carries the marker of a key twice over. -/
theorem Registered.unique (h : w.Registered C expected) {e' : Entity}
    (he : w.Marked C key e) (he' : w.Marked C key e') : e = e' := by
  have hlookup := h.registered key e he
  rw [h.registered key e' he'] at hlookup
  exact (Option.some.inj hlookup).symm

section Effects

theorem writeEntry_singletonEntities (w : World α) (t : TypeId) (e : Entity) (v : Value α)
    (owner : Option SystemInvocation) :
    (w.writeEntry C t e v owner).singletonEntities = w.singletonEntities := by
  unfold writeEntry
  dsimp only
  rw [(reindexDerived_eq _ t e (w.owner? t e) owner).choose_spec]
  rfl

theorem has_writeEntry (w : World α) (t t' : TypeId) (e e' : Entity) (v : Value α)
    (owner : Option SystemInvocation) :
    (w.writeEntry C t e v owner).has t' e' = if t' = t ∧ e' = e then true else w.has t' e' := by
  rw [World.has, cell?_writeEntry]
  split_ifs
  · rfl
  · rfl

theorem sameMarkers_writeEntry (w : World α) (e : Entity) (v : Value α)
    (owner : Option SystemInvocation) (ht : C.singletonKey t = none) :
    SameMarkers C w (w.writeEntry C t e v owner) where
  registry := writeEntry_singletonEntities w t e v owner
  has t' e' ht' := by
    rw [has_writeEntry, if_neg]
    rintro ⟨rfl, -⟩
    exact ht' ht

theorem has_dropEntry (w : World α) (t t' : TypeId) (e e' : Entity)
    (remover : Option SystemInvocation) :
    (w.dropEntry C t e remover).has t' e' = if t' = t ∧ e' = e then false else w.has t' e' := by
  rw [World.has, cell?_dropEntry]
  split_ifs
  · rfl
  · rfl

/-- Dropping a component forgets the registration that a marker stands for. -/
theorem lookup_dropEntry (w : World α) (t key : TypeId) (e : Entity)
    (remover : Option SystemInvocation) :
    (w.dropEntry C t e remover).singletonEntities.lookup key =
      if w.has t e = true ∧ C.singletonKey t = some key ∧
          w.singletonEntities.lookup key = some e then none
      else w.singletonEntities.lookup key := by
  unfold dropEntry
  by_cases hhas : w.has t e = true
  · obtain ⟨owners, losers, hdisowned⟩ :=
      disownEntry_eq ((w.eraseEntry t e).presenceSet t e false) t e (w.owner? t e) remover
    rw [if_pos hhas, hdisowned]
    unfold unregisterSingleton
    cases hkey : C.singletonKey t with
    | none => simp [presenceSet, eraseEntry]
    | some own =>
      dsimp only
      show (if w.singletonEntities.lookup own = some e then _ else _ : World α).singletonEntities.lookup
        key = _
      split_ifs with hown hcond hcond
      · rw [Dict.lookup_erase, if_pos (Option.some.inj hcond.2.1).symm]
      · show (w.singletonEntities.erase own).lookup key = _
        rw [Dict.lookup_erase, if_neg]
        rintro rfl
        exact hcond ⟨hhas, rfl, hown⟩
      · obtain ⟨-, hsame, hlookup⟩ := hcond
        exact absurd (Option.some.inj hsame ▸ hlookup) hown
      · rfl
  · rw [if_neg hhas, if_neg fun h => hhas h.1]

theorem sameMarkers_dropEntry (w : World α) (e : Entity) (remover : Option SystemInvocation)
    (ht : C.singletonKey t = none) : SameMarkers C w (w.dropEntry C t e remover) where
  registry := by
    unfold dropEntry
    split_ifs with hhas
    · obtain ⟨owners, losers, hdisowned⟩ :=
        disownEntry_eq ((w.eraseEntry t e).presenceSet t e false) t e (w.owner? t e) remover
      unfold unregisterSingleton
      rw [ht, hdisowned]
      rfl
    · rfl
  has t' e' ht' := by
    rw [has_dropEntry, if_neg]
    rintro ⟨rfl, -⟩
    exact ht' ht

theorem has_sweepEntry (w : World α) (t t' : TypeId) (e e' : Entity) (o : SystemInvocation) :
    (w.sweepEntry t e o).has t' e' =
      if t' = t ∧ e' = e ∧ w.owner? t e = some o then false else w.has t' e' := by
  rw [World.has, cell?_sweepEntry]
  split_ifs
  · rfl
  · rfl

theorem sweepEntry_singletonEntities (w : World α) (t : TypeId) (e : Entity)
    (o : SystemInvocation) : (w.sweepEntry t e o).singletonEntities = w.singletonEntities := by
  unfold sweepEntry
  split_ifs
  · rfl
  · rfl

theorem has_purgeEntity (w : World α) (e e' : Entity) (t : TypeId) :
    (w.purgeEntity e).has t e' = if e' = e then false else w.has t e' := by
  rw [World.has, cell?_purgeEntity]
  split_ifs
  · rfl
  · rfl

theorem lookup_purgeEntity (w : World α) (e : Entity) (key : TypeId) :
    (w.purgeEntity e).singletonEntities.lookup key =
      (w.singletonEntities.lookup key).filter (· ≠ e) := by
  obtain ⟨stores, revision, mutations, log, herased⟩ := eraseEntries_eq e (w.componentsOn e) w
  obtain ⟨owners, hunindexed⟩ :=
    unindexEntries_eq e (w.ownedOn e) (w.eraseEntries (w.componentsOn e) e)
  unfold purgeEntity
  rw [hunindexed, herased]
  exact Dict.lookup_retain _ _ _

end Effects

section Relationships

theorem sameMarkers_relationshipRemoveMember (w : World α) {inverse edge : TypeId}
    (source target : Entity) (hr : C.role inverse = .inverse edge) :
    SameMarkers C w (w.relationshipRemoveMember C inverse source target) := by
  have hkey := Components.singletonKey_of_inverse hr
  unfold relationshipRemoveMember
  split
  · exact .refl w
  · dsimp only
    split_ifs
    · exact sameMarkers_dropEntry w target none hkey
    · exact sameMarkers_writeEntry w target _ none hkey
    · exact .refl w

theorem sameMarkers_relationshipAddMember (w : World α) {inverse edge : TypeId}
    (source target : Entity) (hr : C.role inverse = .inverse edge) :
    SameMarkers C w (w.relationshipAddMember C inverse source target) := by
  unfold relationshipAddMember
  dsimp only
  split_ifs
  · exact .refl w
  · exact sameMarkers_writeEntry w target _ none (Components.singletonKey_of_inverse hr)

theorem sameMarkers_retractEdge (w : World α) (source : Entity) {edge : Option (TypeId × Entity)}
    {t : TypeId} (hr : ∀ p ∈ edge, C.role p.1 = .inverse t) :
    SameMarkers C w (w.retractEdge C source edge) := by
  cases edge with
  | none => exact .refl w
  | some p => exact sameMarkers_relationshipRemoveMember w source p.2 (hr p rfl)

theorem sameMarkers_establishEdge (w : World α) (source : Entity)
    {edge : Option (TypeId × Entity)} {t : TypeId} (hr : ∀ p ∈ edge, C.role p.1 = .inverse t) :
    SameMarkers C w (w.establishEdge C source edge) := by
  cases edge with
  | none => exact .refl w
  | some p => exact sameMarkers_relationshipAddMember w source p.2 (hr p rfl)

theorem sameMarkers_insertEntry (w : World α) (e : Entity) (v : Value α)
    (owner : Option SystemInvocation) (ht : C.singletonKey t = none) :
    SameMarkers C w (w.insertEntry C t e v owner) := by
  have hwrite := sameMarkers_writeEntry w e v owner ht
  unfold insertEntry
  dsimp only
  split_ifs
  · exact hwrite
  · have hretract : SameMarkers C (w.writeEntry C t e v owner)
        ((w.writeEntry C t e v owner).retractEdge C e (w.edgeOn C t e)) :=
      sameMarkers_retractEdge _ e Closed.role_edgeOn
    refine hwrite.trans (hretract.trans (sameMarkers_establishEdge (t := t) _ e ?_))
    exact fun p hp => C.inverse_of_relationshipEdge hp

/-- A marker is written without relationship maintenance. -/
theorem insertEntry_of_marker (w : World α) (e : Entity) (v : Value α)
    (owner : Option SystemInvocation) (ht : C.singletonKey t = some key) :
    w.insertEntry C t e v owner = w.writeEntry C t e v owner := by
  have hprevious : w.edgeOn C t e = none := by
    unfold edgeOn
    cases w.cell? t e with
    | none => rfl
    | some x => exact Components.relationshipEdge_of_marker ht x.value
  unfold insertEntry
  rw [hprevious, Components.relationshipEdge_of_marker ht]
  rfl

end Relationships

section Removals

theorem Registered.dropEntry (h : w.Registered C expected) (hkeys : C.DistinctKeys) (t : TypeId)
    (e : Entity) (remover : Option SystemInvocation) :
    (w.dropEntry C t e remover).Registered C expected where
  registered key e' := by
    rintro ⟨t', ht', hhas⟩
    rw [has_dropEntry] at hhas
    split_ifs at hhas with hsame
    have hlookup := h.registered key e' ⟨t', ht', hhas⟩
    rw [lookup_dropEntry, if_neg, hlookup]
    rintro ⟨-, hkey, hat⟩
    rw [hlookup] at hat
    exact hsame ⟨hkeys t' t key ht' hkey, Option.some.inj hat⟩
  marked key e' hlookup := by
    rw [lookup_dropEntry] at hlookup
    split_ifs at hlookup with hcleared
    refine (h.marked key e' hlookup).imp_left fun ⟨t', ht', hhas⟩ => ⟨t', ht', ?_⟩
    rw [has_dropEntry, if_neg, hhas]
    rintro ⟨rfl, rfl⟩
    exact hcleared ⟨hhas, ht', hlookup⟩

/-- A sweep leaves the registry behind where a marker goes. -/
theorem Registered.sweepEntry (h : w.Registered C expected) (t : TypeId) (e : Entity)
    (o : SystemInvocation)
    (hs : ∀ key, C.singletonKey t = some key → w.owner? t e = some o → expected key e) :
    (w.sweepEntry t e o).Registered C expected where
  registered key e' := by
    rintro ⟨t', ht', hhas⟩
    rw [has_sweepEntry] at hhas
    split_ifs at hhas
    rw [sweepEntry_singletonEntities]
    exact h.registered key e' ⟨t', ht', hhas⟩
  marked key e' hlookup := by
    rw [sweepEntry_singletonEntities] at hlookup
    rcases h.marked key e' hlookup with ⟨t', ht', hhas⟩ | hexpected
    · by_cases hswept : t' = t ∧ e' = e ∧ w.owner? t e = some o
      · obtain ⟨rfl, rfl, howner⟩ := hswept
        exact Or.inr (hs key ht' howner)
      · refine Or.inl ⟨t', ht', ?_⟩
        rw [has_sweepEntry, if_neg hswept, hhas]
    · exact Or.inr hexpected

theorem Registered.purgeEntity (h : w.Registered C expected) (e : Entity) :
    (w.purgeEntity e).Registered C expected where
  registered key e' := by
    rintro ⟨t', ht', hhas⟩
    rw [has_purgeEntity] at hhas
    split_ifs at hhas with he
    rw [lookup_purgeEntity, h.registered key e' ⟨t', ht', hhas⟩]
    simp [he]
  marked key e' hlookup := by
    rw [lookup_purgeEntity, Option.filter_eq_some_iff] at hlookup
    obtain ⟨hlookup, he⟩ := hlookup
    refine (h.marked key e' hlookup).imp_left fun ⟨t', ht', hhas⟩ => ⟨t', ht', ?_⟩
    rw [has_purgeEntity, if_neg (by simpa using he), hhas]

theorem Registered.removeComponent (h : w.Registered C expected) (hkeys : C.DistinctKeys)
    (t : TypeId) (e : Entity) (remover : Option SystemInvocation) :
    (w.removeComponent C t e remover).Registered C expected :=
  (h.dropEntry hkeys t e remover).same (sameMarkers_retractEdge _ e Closed.role_edgeOn)

theorem Registered.removeDerivedEntry (h : w.Registered C expected) (t : TypeId) (e : Entity)
    (o : SystemInvocation)
    (hs : ∀ key, C.singletonKey t = some key → w.owner? t e = some o → expected key e) :
    (w.removeDerivedEntry C t e o).Registered C expected := by
  unfold World.removeDerivedEntry
  split_ifs
  · exact (h.sweepEntry t e o hs).same (sameMarkers_retractEdge _ e Closed.role_edgeOn)
  · exact h

theorem Registered.removeEntity (h : w.Registered C expected) (hkeys : C.DistinctKeys)
    (e : Entity) : (w.removeEntity C e).Registered C expected := by
  have hretracted : ((w.edgesOn C e).foldl (fun w edge => w.retractEdge C e (some edge))
      (w.purgeEntity e)).Registered C expected := by
    refine List.foldlRecOn (w.edgesOn C e) _ (motive := fun u => Registered C expected u)
      (h.purgeEntity e) fun u hu edge hmem => ?_
    obtain ⟨t, -, ht⟩ := List.mem_filterMap.mp hmem
    refine hu.same (sameMarkers_retractEdge (t := t) u e fun p hp => ?_)
    exact Closed.role_edgeOn p ((Option.some.inj hp) ▸ ht)
  have hfreed := List.foldlRecOn (w.retractionsOn C e)
    (fun w edge => w.removeComponent C edge.1 edge.2 none)
    (motive := fun u => Registered C expected u) hretracted
    fun u hu edge _ => hu.removeComponent hkeys edge.1 edge.2 none
  exact hfreed.same (.of_stores rfl rfl)

end Removals

section Inserts

/-- A marker may be written where its key is unregistered or registered there already. -/
theorem insertNow_eq_some {v : Value α} {owner : Option SystemInvocation} :
    w.insertNow C t e v owner = some w' ↔
      (∀ key, C.singletonKey t = some key →
        w.singletonEntities.lookup key = none ∨ w.singletonEntities.lookup key = some e) ∧
      ∃ u, w.registerSingleton C t e = some u ∧ w' = u.insertEntry C t e v owner := by
  unfold insertNow
  rw [Option.map_eq_some_iff]
  constructor
  · rintro ⟨u, hu, rfl⟩
    refine ⟨fun key hkey => ?_, u, hu, rfl⟩
    unfold registerSingleton at hu
    rw [hkey] at hu
    dsimp only at hu
    cases hlookup : w.singletonEntities.lookup key with
    | none => exact Or.inl rfl
    | some existing =>
      rw [hlookup] at hu
      dsimp only at hu
      split_ifs at hu with heq
      exact Or.inr (congrArg some heq)
  · rintro ⟨-, u, hu, rfl⟩
    exact ⟨u, hu, rfl⟩

theorem registerSingleton_eq {u : World α} (hu : w.registerSingleton C t e = some u) :
    u.stores = w.stores ∧ ∀ key, u.singletonEntities.lookup key =
      if C.singletonKey t = some key then some e else w.singletonEntities.lookup key := by
  unfold registerSingleton at hu
  cases hown : C.singletonKey t with
  | none =>
    rw [hown] at hu
    cases hu
    exact ⟨rfl, fun key => by simp⟩
  | some own =>
    rw [hown] at hu
    dsimp only at hu
    cases hlookup : w.singletonEntities.lookup own with
    | none =>
      rw [hlookup] at hu
      cases hu
      refine ⟨rfl, fun key => ?_⟩
      rw [Dict.lookup_insert]
      simp only [Option.some.injEq, eq_comm]
    | some existing =>
      rw [hlookup] at hu
      dsimp only at hu
      split_ifs at hu with heq
      cases hu
      refine ⟨rfl, fun key => ?_⟩
      split_ifs with hkey
      · rw [← Option.some.inj hkey, hlookup, heq]
      · rfl

theorem Registered.insertNow {v : Value α} {owner : Option SystemInvocation}
    (h : w.Registered C fun key e' => expected key e' ∨ (C.singletonKey t = some key ∧ e' = e))
    (hins : w.insertNow C t e v owner = some w') : w'.Registered C expected := by
  obtain ⟨hfree, u, hu, rfl⟩ := insertNow_eq_some.mp hins
  obtain ⟨hstores, hlookups⟩ := registerSingleton_eq hu
  have hhas : ∀ t' e', u.has t' e' = w.has t' e' := fun t' e' => by
    rw [World.has, World.has, cell?_congr hstores]
  cases hown : C.singletonKey t with
  | none =>
    have hsame : SameMarkers C u (u.insertEntry C t e v owner) := sameMarkers_insertEntry u e v owner hown
    have hu : u.Registered C expected := by
      constructor
      · rintro key e' ⟨t', ht', hpresent⟩
        rw [hlookups, hown, if_neg (by simp)]
        rw [hhas] at hpresent
        exact h.registered key e' ⟨t', ht', hpresent⟩
      · intro key e' hlookup
        rw [hlookups, hown, if_neg (by simp)] at hlookup
        rcases h.marked key e' hlookup with ⟨t', ht', hpresent⟩ | hexpected | ⟨hkey, -⟩
        · exact Or.inl ⟨t', ht', (hhas t' e').trans hpresent⟩
        · exact Or.inr hexpected
        · rw [hown] at hkey
          cases hkey
    exact hu.same hsame
  | some own =>
    rw [insertEntry_of_marker u e v owner hown]
    constructor
    · rintro key e' ⟨t', ht', hpresent⟩
      rw [writeEntry_singletonEntities, hlookups]
      rw [has_writeEntry] at hpresent
      split_ifs at hpresent with hsame
      · rw [← hsame.1, if_pos ht', hsame.2]
      · rw [hhas] at hpresent
        have hlookup := h.registered key e' ⟨t', ht', hpresent⟩
        split_ifs with hkey
        · rcases hfree key hkey with hnone | hat
          · rw [hlookup] at hnone
            cases hnone
          · rw [← hlookup, hat]
        · exact hlookup
    · intro key e' hlookup
      rw [writeEntry_singletonEntities, hlookups] at hlookup
      split_ifs at hlookup with hkey
      · refine Or.inl ⟨t, hkey, ?_⟩
        rw [has_writeEntry, if_pos ⟨rfl, (Option.some.inj hlookup).symm⟩]
      · rcases h.marked key e' hlookup with ⟨t', ht', hpresent⟩ | hexpected | ⟨hkey', -⟩
        · refine Or.inl ⟨t', ht', ?_⟩
          rw [has_writeEntry, hhas, hpresent, ite_self]
        · exact Or.inr hexpected
        · exact absurd hkey' hkey

/-- Writing a component settles the expectation that its marker stands on the entity. -/
theorem Registered.insert {v : Value α} {owner : Option SystemInvocation}
    (h : w.Registered C fun key e' => expected key e' ∨ (C.singletonKey t = some key ∧ e' = e))
    (hins : w.insert C t e v owner = some w') : w'.Registered C expected := by
  unfold World.insert at hins
  split at hins
  · rename_i anchors hdeferred
    cases hins
    have hkey : C.singletonKey t = none := by
      unfold deferredAnchors at hdeferred
      split at hdeferred
      · split_ifs at hdeferred with hrole
        exact Components.singletonKey_of_derivedFrom hrole.1
      · cases hdeferred
    refine (h.mono fun key e' hexpected => ?_).same (.of_stores rfl rfl)
    rw [hkey] at hexpected
    exact hexpected.resolve_right fun hnone => nomatch hnone.1
  · exact h.insertNow hins

end Inserts

end World
end Porridge
