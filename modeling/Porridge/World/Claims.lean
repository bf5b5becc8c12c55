import Porridge.World.Inverses
import Porridge.World.Registry

/-! What each use of the world does to the singleton registry, and when a write is refused. -/
namespace Porridge

variable {α : Type} {C : Components α}

/-- The command writes singleton markers through bundles only. -/
def Command.Routed (C : Components α) : Command α → Prop
  | insert t _ _ => C.singletonKey t = none
  | spawn bundle _ => World.bundleSingletonKey C bundle ≠ none
  | _ => True

instance (c : Command α) : Decidable (c.Routed C) := by
  unfold Command.Routed
  split <;> infer_instance

namespace World

variable {w w' : World α} {t key : TypeId} {e : Entity} {o : SystemInvocation}

/-- The deferred inserts are `DerivedFrom` facts. -/
def Anchored (C : Components α) (w : World α) : Prop :=
  ∀ p ∈ w.pendingDerivedFrom, C.role p.component = .derivedFrom

def Clears (w w' : World α) : Prop :=
  ∀ key, w'.singletonEntities.lookup key = none ∨
    w'.singletonEntities.lookup key = w.singletonEntities.lookup key

theorem Clears.refl (w : World α) : Clears w w := fun _ => Or.inr rfl

theorem Clears.trans {a b c : World α} (hab : Clears a b) (hbc : Clears b c) : Clears a c := by
  intro key
  rcases hbc key with hnone | hsame
  · exact Or.inl hnone
  · rw [hsame]
    exact hab key

theorem SameMarkers.clears (h : SameMarkers C w w') : Clears w w' := fun key =>
  Or.inr (congrArg (AList.lookup key) h.registry)

theorem clears_removeComponent (w : World α) (t : TypeId) (e : Entity)
    (remover : Option SystemInvocation) : Clears w (w.removeComponent C t e remover) := by
  have hdrop : Clears w (w.dropEntry C t e remover) := fun key => by
    rw [lookup_dropEntry]
    split_ifs
    · exact Or.inl rfl
    · exact Or.inr rfl
  have hretract : SameMarkers C (w.dropEntry C t e remover) (w.removeComponent C t e remover) :=
    sameMarkers_retractEdge _ e Closed.role_edgeOn
  exact hdrop.trans hretract.clears

theorem clears_removeEntity (w : World α) (e : Entity) : Clears w (w.removeEntity C e) := by
  have hpurge : Clears w (w.purgeEntity e) := fun key => by
    rw [lookup_purgeEntity]
    cases w.singletonEntities.lookup key with
    | none => exact Or.inl rfl
    | some existing =>
      by_cases heq : existing = e
      · exact Or.inl (by simp [heq])
      · exact Or.inr (by simp [heq])
  have hretracted : Clears w ((w.edgesOn C e).foldl (fun w edge => w.retractEdge C e (some edge))
      (w.purgeEntity e)) := by
    refine List.foldlRecOn (w.edgesOn C e) _ (motive := Clears w) hpurge fun u hu edge hmem => ?_
    obtain ⟨t, -, ht⟩ := List.mem_filterMap.mp hmem
    have hsame : SameMarkers C u (u.retractEdge C e (some edge)) :=
      sameMarkers_retractEdge (t := t) u e fun p hp => Closed.role_edgeOn p ((Option.some.inj hp) ▸ ht)
    exact hu.trans hsame.clears
  exact List.foldlRecOn (w.retractionsOn C e)
    (fun w edge => w.removeComponent C edge.1 edge.2 none) (motive := Clears w) hretracted
    fun u hu edge _ => hu.trans (clears_removeComponent u edge.1 edge.2 none)

theorem clears_removeDerivedEntry (w : World α) (t : TypeId) (e : Entity)
    (o : SystemInvocation) : Clears w (w.removeDerivedEntry C t e o) := by
  unfold removeDerivedEntry
  split_ifs
  · have hsweep : Clears w (w.sweepEntry t e o) := fun key =>
      Or.inr (congrArg (AList.lookup key) (sweepEntry_singletonEntities w t e o))
    have hretract : SameMarkers C (w.sweepEntry t e o)
        ((w.sweepEntry t e o).retractEdge C e (w.edgeOn C t e)) :=
      sameMarkers_retractEdge _ e Closed.role_edgeOn
    exact hsweep.trans hretract.clears
  · exact .refl w

theorem clears_removeDerivedStale (w : World α) (o : SystemInvocation)
    (previous : List (TypeId × Entity)) : Clears w (w.removeDerivedStale C o previous) := by
  refine List.foldlRecOn previous _ (motive := Clears w) (.refl w) fun u hu p _ => hu.trans ?_
  split_ifs
  · exact .refl u
  · exact clears_removeDerivedEntry u p.1 p.2 o

theorem clears_removeDerivedOwned (w : World α) (o : SystemInvocation) :
    Clears w (w.removeDerivedOwned C o) := by
  have hforget : Clears w (w.forgetOwner o) := fun _ => Or.inr rfl
  exact List.foldlRecOn (w.outputs o) _ (motive := Clears w) hforget
    fun u hu p _ => hu.trans (clears_removeDerivedEntry u p.1 p.2 o)

theorem clears_retireOwners : ∀ (owners : List SystemInvocation) (w : World α),
    Clears w (w.retireOwners C owners).1
  | [], w => .refl w
  | o :: owners, w => (clears_removeDerivedOwned w o).trans (clears_retireOwners owners _)

section Writes

/-- A write succeeds unless another entity is registered for the key of its marker. -/
theorem insertNow_spec (w : World α) (v : Value α) (owner : Option SystemInvocation)
    (hfree : ∀ key, C.singletonKey t = some key →
      w.singletonEntities.lookup key = none ∨ w.singletonEntities.lookup key = some e) :
    ∃ w', w.insertNow C t e v owner = some w' ∧
      w'.pendingDerivedFrom = w.pendingDerivedFrom ∧
      ∀ key, w'.singletonEntities.lookup key =
        if C.singletonKey t = some key then some e else w.singletonEntities.lookup key := by
  obtain ⟨u, hu⟩ : ∃ u, w.registerSingleton C t e = some u := by
    unfold registerSingleton
    cases hown : C.singletonKey t with
    | none => exact ⟨w, rfl⟩
    | some own =>
      dsimp only
      rcases hfree own hown with hnone | hat
      · rw [hnone]
        exact ⟨_, rfl⟩
      · rw [hat]
        exact ⟨w, if_pos rfl⟩
  obtain ⟨-, hlookups⟩ := registerSingleton_eq hu
  have hins : w.insertNow C t e v owner = some (u.insertEntry C t e v owner) := by
    rw [insertNow, hu]
    rfl
  have hregistry : (u.insertEntry C t e v owner).singletonEntities = u.singletonEntities := by
    cases hown : C.singletonKey t with
    | none =>
      have hsame : SameMarkers C u (u.insertEntry C t e v owner) := sameMarkers_insertEntry u e v owner hown
      exact hsame.registry
    | some own =>
      rw [insertEntry_of_marker u e v owner hown]
      exact writeEntry_singletonEntities u t e v owner
  refine ⟨_, hins, (closed_samePending C).insertNow hins trivial, fun key => ?_⟩
  rw [hregistry]
  exact hlookups key

theorem insert_spec (w : World α) (v : Value α) (owner : Option SystemInvocation)
    (hw : w.Anchored C) (hfree : ∀ key, C.singletonKey t = some key →
      w.singletonEntities.lookup key = none ∨ w.singletonEntities.lookup key = some e) :
    ∃ w', w.insert C t e v owner = some w' ∧ w'.Anchored C ∧
      ∀ key, w'.singletonEntities.lookup key =
        if C.singletonKey t = some key then some e else w.singletonEntities.lookup key := by
  unfold World.insert
  cases hdeferred : w.deferredAnchors C t v with
  | some anchors =>
    have hrole : C.role t = .derivedFrom := by
      unfold deferredAnchors at hdeferred
      split at hdeferred
      · split_ifs at hdeferred with hrole
        exact hrole.1
      · cases hdeferred
    refine ⟨_, rfl, fun p hp => ?_, fun key => ?_⟩
    · rcases List.mem_append.mp hp with hp | hp
      · exact hw p hp
      · rw [List.mem_singleton.mp hp]
        exact hrole
    · rw [Components.singletonKey_of_derivedFrom hrole, if_neg nofun]
  | none =>
    obtain ⟨w', hins, hpending, hlookups⟩ := insertNow_spec w (w.capture C v) owner hfree
    exact ⟨w', hins, fun p hp => hw p (hpending ▸ hp), hlookups⟩

/-- A bundle is written whole where its markers are registered. -/
theorem insertBundle_spec : ∀ (bundle : List (TypeId × Value α)) (w : World α), w.Anchored C →
    (∀ p ∈ bundle, ∀ key, C.singletonKey p.1 = some key →
      w.singletonEntities.lookup key = some e) →
    ∃ w', w.insertBundle C e bundle o = some w' ∧ w'.Anchored C ∧
      ∀ key, w'.singletonEntities.lookup key = w.singletonEntities.lookup key
  | [], w, hw, _ => ⟨w, rfl, hw, fun _ => rfl⟩
  | p :: bundle, w, hw, hat => by
    obtain ⟨u, hu, hanchored, hlookups⟩ := insert_spec w p.2 (some o) hw fun key hkey =>
      Or.inr (hat p List.mem_cons_self key hkey)
    have hkept : ∀ key, u.singletonEntities.lookup key = w.singletonEntities.lookup key := by
      intro key
      rw [hlookups]
      split_ifs with hkey
      · exact (hat p List.mem_cons_self key hkey).symm
      · rfl
    obtain ⟨w', hrest, hanchored', hlookups'⟩ := insertBundle_spec bundle u hanchored fun q hq key hkey => by
      rw [hkept]
      exact hat q (List.mem_cons_of_mem _ hq) key hkey
    refine ⟨w', ?_, hanchored', fun key => (hlookups' key).trans (hkept key)⟩
    exact Option.bind_eq_some_iff.mpr ⟨u, hu, hrest⟩

def Claims (C : Components α) (w : World α) (c : Command α) (key : TypeId) (e : Entity) : Prop :=
  ∃ bundle, c = .spawn bundle e ∧ bundleSingletonKey C bundle = some (some key) ∧
    w.singletonEntities.lookup key = none

/-- A routed command succeeds; it clears registrations, or claims a key for its reservation. -/
theorem command_spec (w : World α) (o : SystemInvocation) (hw : w.Anchored C) {c : Command α}
    (hc : c.Routed C) : ∃ w', c.apply C w o = some w' ∧ w'.Anchored C ∧
      ∀ key, w'.singletonEntities.lookup key = none ∨
        w'.singletonEntities.lookup key = w.singletonEntities.lookup key ∨
        ∃ e, w.Claims C c key e ∧ w'.singletonEntities.lookup key = some e := by
  have hclears : ∀ {w' : World α}, Clears w w' → ∀ key, w'.singletonEntities.lookup key = none ∨
      w'.singletonEntities.lookup key = w.singletonEntities.lookup key ∨
      ∃ e, w.Claims C c key e ∧ w'.singletonEntities.lookup key = some e :=
    fun h key => (h key).imp_right Or.inl
  cases c with
  | insert t e v =>
    have hkey : C.singletonKey t = none := hc
    obtain ⟨w', hins, hanchored, hlookups⟩ := insert_spec (t := t) (e := e) w v (some o) hw
      fun key hown => by rw [hkey] at hown; cases hown
    refine ⟨w', hins, hanchored, fun key => Or.inr (Or.inl ?_)⟩
    rw [hlookups, hkey, if_neg nofun]
  | removeEntity e =>
    have hpending := (closed_samePending C).removeEntity w e trivial
    exact ⟨_, rfl, fun p hp => hw p (hpending ▸ hp), hclears (clears_removeEntity w e)⟩
  | removeComponent t e =>
    have hpending := (closed_samePending C).removeComponent w t e (some o) fun _ _ => trivial
    exact ⟨_, rfl, fun p hp => hw p (hpending ▸ hp),
      hclears (clears_removeComponent w t e (some o))⟩
  | spawn bundle reserved =>
    obtain ⟨bundleKey, hbundle⟩ := Option.ne_none_iff_exists'.mp hc
    obtain ⟨-, -, hpending, hlookups, htarget⟩ := spawnTarget_spec w reserved bundleKey
    obtain ⟨w', hins, hanchored, hlookups'⟩ := insertBundle_spec (C := C) (o := o)
      (e := (w.spawnTarget reserved bundleKey).1) bundle
      ((w.spawnTarget reserved bundleKey).2.recordDerivedSpawn o (w.spawnTarget reserved bundleKey).1)
      (fun p hp => hw p (hpending ▸ hp)) fun p hp key hkey => by
        show (w.spawnTarget reserved bundleKey).2.singletonEntities.lookup key = _
        rw [hlookups, if_pos]
        cases bundleKey with
        | none =>
          rw [not_marker_of_bundleSingletonKey hbundle p hp] at hkey
          cases hkey
        | some own => rw [(markers_of_bundleSingletonKey hbundle).2 p hp key hkey]
    refine ⟨w', ?_, hanchored, fun key => ?_⟩
    · simp only [Command.apply, hbundle, Option.bind_eq_bind, Option.bind_some]
      exact hins
    · have hafter : w'.singletonEntities.lookup key =
          if bundleKey = some key then some (w.spawnTarget reserved bundleKey).1
          else w.singletonEntities.lookup key := (hlookups' key).trans (hlookups key)
      rw [hafter]
      split_ifs with hkey
      · cases hlookup : w.singletonEntities.lookup key with
        | none =>
          refine Or.inr (Or.inr ⟨reserved, ⟨bundle, rfl, hkey ▸ hbundle, hlookup⟩, ?_⟩)
          rw [htarget key hkey, hlookup]
          rfl
        | some existing =>
          refine Or.inr (Or.inl ?_)
          rw [htarget key hkey, hlookup]
          rfl
      · exact Or.inr (Or.inl rfl)

theorem exists_applyCommands (o : SystemInvocation) : ∀ {commands : List (Command α)}
    {w : World α}, w.Anchored C → (∀ c ∈ commands, c.Routed C) →
      ∃ w', w.applyCommands C o commands = some w' ∧ w'.Anchored C
  | [], w, hw, _ => ⟨w, rfl, hw⟩
  | c :: commands, w, hw, hrouted => by
    obtain ⟨u, hu, hanchored, -⟩ := command_spec w o hw (hrouted c List.mem_cons_self)
    obtain ⟨w', hrest, hw'⟩ := exists_applyCommands o hanchored fun c hc =>
      hrouted c (List.mem_cons_of_mem _ hc)
    exact ⟨w', (applyCommands_cons C).mpr ⟨u, hu, hrest⟩, hw'⟩

/-- Flushing the deferred facts succeeds and registers nothing. -/
theorem flushDerivedFrom_spec (hw : w.Anchored C) : ∃ w', w.flushDerivedFrom C = some w' ∧
    w'.Anchored C ∧ ∀ key, w'.singletonEntities.lookup key = w.singletonEntities.lookup key := by
  have hfold : ∀ (pending : List PendingDerivedFrom) (u : World α),
      (∀ p ∈ pending, C.role p.component = .derivedFrom) → u.Anchored C →
      ∃ u', pending.foldlM (fun w p => w.insert C p.component p.entity (.derivedFrom p.anchors) p.owner)
          u = some u' ∧ u'.Anchored C ∧
        ∀ key, u'.singletonEntities.lookup key = u.singletonEntities.lookup key := by
    intro pending
    induction pending with
    | nil => exact fun u _ hu => ⟨u, rfl, hu, fun _ => rfl⟩
    | cons p pending ih =>
      intro u hpending hu
      have hkey := Components.singletonKey_of_derivedFrom (hpending p List.mem_cons_self)
      obtain ⟨m, hm, hanchored, hlookups⟩ := insert_spec (t := p.component) (e := p.entity) u
        (.derivedFrom p.anchors) p.owner hu fun key hown => by rw [hkey] at hown; cases hown
      obtain ⟨u', hrest, hu', hlookups'⟩ := ih m (fun q hq => hpending q (List.mem_cons_of_mem _ hq))
        hanchored
      refine ⟨u', Option.bind_eq_some_iff.mpr ⟨m, hm, hrest⟩, hu', fun key => ?_⟩
      rw [hlookups', hlookups, hkey, if_neg nofun]
  obtain ⟨u', hu', hanchored, hlookups⟩ := hfold w.pendingDerivedFrom
    { w with pendingDerivedFrom := [], flushingAnchors := true } hw nofun
  exact ⟨{ u' with flushingAnchors := false }, Option.map_eq_some_iff.mpr ⟨u', hu', rfl⟩,
    hanchored, hlookups⟩

end Writes

end World
end Porridge
