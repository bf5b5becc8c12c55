import Porridge.World.Markers
import Porridge.World.Exact
import Porridge.World.Coherence

/-! The singleton registry across command buffers, output replacement and retirement. -/
namespace Porridge

variable {α : Type} {C : Components α}

/-- The command writes the marker where it stands, or takes it away. -/
def Command.reaches (p : TypeId × Entity) : Command α → Bool
  | insert t e _ => (t, e) == p
  | spawn bundle _ => bundle.any (·.1 == p.1)
  | removeEntity e => e == p.2
  | removeComponent t e => (t, e) == p

namespace World

variable {w w' : World α} {expected : TypeId → Entity → Prop} {t key : TypeId} {e : Entity}
  {o : SystemInvocation}

section Commands

theorem not_marker_of_bundleSingletonKey {bundle : List (TypeId × Value α)}
    (h : bundleSingletonKey C bundle = some none) : ∀ p ∈ bundle, C.singletonKey p.1 = none := by
  unfold bundleSingletonKey at h
  split at h
  · rename_i hnone
    exact List.filterMap_eq_nil_iff.mp hnone
  · cases h
  · cases h

theorem markers_of_bundleSingletonKey {bundle : List (TypeId × Value α)}
    (h : bundleSingletonKey C bundle = some (some key)) :
    (∃ p ∈ bundle, C.singletonKey p.1 = some key) ∧
      ∀ p ∈ bundle, ∀ key', C.singletonKey p.1 = some key' → key' = key := by
  unfold bundleSingletonKey at h
  split at h
  · cases h
  · rename_i own hown
    cases h
    constructor
    · have hmem : key ∈ bundle.filterMap fun p => C.singletonKey p.1 := by
        rw [hown]
        exact List.mem_singleton_self key
      exact List.mem_filterMap.mp hmem
    · intro p hp key' hkey'
      have hmem : key' ∈ bundle.filterMap fun p => C.singletonKey p.1 :=
        List.mem_filterMap.mpr ⟨p, hp, hkey'⟩
      rw [hown] at hmem
      exact List.mem_singleton.mp hmem
  · cases h

theorem Registered.insertBundle : ∀ {bundle : List (TypeId × Value α)} {w : World α},
    (w.Registered C fun key e' =>
      expected key e' ∨ (e' = e ∧ ∃ p ∈ bundle, C.singletonKey p.1 = some key)) →
    w.insertBundle C e bundle o = some w' → w'.Registered C expected
  | [], w, h, hins => by
    have heq : w = w' := Option.some.inj hins
    exact heq ▸ h.mono fun key e' hexpected =>
      hexpected.resolve_right fun ⟨_, p, hp, _⟩ => nomatch hp
  | p :: bundle, w, h, hins => by
    obtain ⟨u, hu, hrest⟩ := Option.bind_eq_some_iff.mp hins
    have hhead : u.Registered C fun key e' =>
        expected key e' ∨ (e' = e ∧ ∃ q ∈ bundle, C.singletonKey q.1 = some key) := by
      refine Registered.insert (t := p.1) (e := e) (h.mono fun key e' hexpected => ?_) hu
      rcases hexpected with hexpected | ⟨rfl, q, hq, hkey⟩
      · exact Or.inl (Or.inl hexpected)
      · rcases List.mem_cons.mp hq with rfl | hq
        · exact Or.inr ⟨hkey, rfl⟩
        · exact Or.inl (Or.inr ⟨rfl, q, hq, hkey⟩)
    exact Registered.insertBundle hhead hrest

/-- A spawned bundle lands where its key is registered, and registers it otherwise. -/
theorem spawnTarget_spec (w : World α) (reserved : Entity) (key : Option TypeId) :
    (w.spawnTarget reserved key).2.stores = w.stores ∧
      (w.spawnTarget reserved key).2.derivedOwners = w.derivedOwners ∧
      (w.spawnTarget reserved key).2.pendingDerivedFrom = w.pendingDerivedFrom ∧
      (∀ own, (w.spawnTarget reserved key).2.singletonEntities.lookup own =
        if key = some own then some (w.spawnTarget reserved key).1
        else w.singletonEntities.lookup own) ∧
      ∀ own ∈ key, (w.spawnTarget reserved key).1 =
        (w.singletonEntities.lookup own).getD reserved := by
  cases key with
  | none => exact ⟨rfl, rfl, rfl, fun own => by simp [spawnTarget], nofun⟩
  | some key =>
    unfold spawnTarget singletonEntityOrRegister
    dsimp only
    cases hlookup : w.singletonEntities.lookup key with
    | none =>
      refine ⟨rfl, rfl, rfl, fun own => ?_, fun own hown => ?_⟩
      · show (w.singletonEntities.insert key reserved).lookup own = _
        rw [Dict.lookup_insert]
        simp only [Option.some.injEq, eq_comm]
      · cases hown
        rw [hlookup]
        rfl
    | some existing =>
      refine ⟨rfl, rfl, rfl, fun own => ?_, fun own hown => ?_⟩
      · dsimp only
        split_ifs with hkey
        · rw [← Option.some.inj hkey, hlookup]
        · rfl
      · cases hown
        rw [hlookup]
        rfl

theorem Registered.command (h : w.Registered C expected) (hkeys : C.DistinctKeys)
    {c : Command α} (hc : c.apply C w o = some w') : w'.Registered C expected := by
  cases c with
  | insert t e v => exact Registered.insert (h.mono fun _ _ => Or.inl) hc
  | removeEntity e => cases hc; exact h.removeEntity hkeys e
  | removeComponent t e => cases hc; exact h.removeComponent hkeys t e (some o)
  | spawn bundle reserved =>
    simp only [Command.apply, Option.bind_eq_bind, Option.bind_eq_some_iff] at hc
    obtain ⟨key, hkey, hc⟩ := hc
    obtain ⟨hstores, -, -, hlookups, htarget⟩ := spawnTarget_spec w reserved key
    have hhas : ∀ t' e', (w.spawnTarget reserved key).2.has t' e' = w.has t' e' := fun t' e' => by
      rw [World.has, World.has, cell?_congr hstores]
    refine Registered.insertBundle ?_ hc
    refine Registered.same (w := (w.spawnTarget reserved key).2) ?_ (.of_stores rfl rfl)
    constructor
    · rintro own e' ⟨t', ht', hpresent⟩
      rw [hhas] at hpresent
      have hlookup := h.registered own e' ⟨t', ht', hpresent⟩
      rw [hlookups]
      split_ifs with hown
      · rw [htarget own hown, hlookup]
        rfl
      · exact hlookup
    · intro own e' hlookup
      rw [hlookups] at hlookup
      split_ifs at hlookup with hown
      · rw [hown] at hkey
        exact Or.inr (Or.inr ⟨(Option.some.inj hlookup).symm, (markers_of_bundleSingletonKey hkey).1⟩)
      · rcases h.marked own e' hlookup with ⟨t', ht', hpresent⟩ | hexpected
        · exact Or.inl ⟨t', ht', (hhas t' e').trans hpresent⟩
        · exact Or.inr (Or.inl hexpected)

theorem Registered.flushDerivedFrom (h : w.Registered C expected)
    (hf : w.flushDerivedFrom C = some w') : w'.Registered C expected := by
  obtain ⟨u, hu, rfl⟩ := Option.map_eq_some_iff.mp hf
  have hflushed : u.Registered C expected :=
    List.foldlM_some_induction (fun u : World α => u.Registered C expected) w.pendingDerivedFrom hu
      (h.same (.of_stores rfl rfl)) fun a p b _ ha hb =>
        Registered.insert (ha.mono fun _ _ => Or.inl) hb
  exact hflushed.same (.of_stores rfl rfl)

end Commands

section Listing

def Lists (o : SystemInvocation) (p : TypeId × Entity) (w : World α) : Prop :=
  w.owner? p.1 p.2 = some o → p ∈ w.outputs o

theorem lists_iff {p : TypeId × Entity} :
    w.Lists o p ↔ w.Indexed fun o' q => ¬(o' = o ∧ q = p) := by
  constructor
  · intro h t e o' howner
    by_cases heq : o' = o ∧ (t, e) = p
    · obtain ⟨rfl, rfl⟩ := heq
      exact Or.inl (h howner)
    · exact Or.inr heq
  · intro h howner
    exact (h p.1 p.2 o howner).resolve_right fun hne => hne ⟨rfl, rfl⟩

/-- Once a pair is listed, every store effect keeps it so. -/
theorem closed_lists (C : Components α) (o : SystemInvocation) (p : TypeId × Entity) :
    Closed C (fun w w' : World α => w.Lists o p → w'.Lists o p) Permits.all := by
  simp only [lists_iff]
  exact closed_indexed C _

theorem lists_insert {v : Value α} (hkey : C.singletonKey t = some key)
    (hins : w.insert C t e v (some o) = some w') : w'.Lists o (t, e) := by
  unfold World.insert at hins
  split at hins
  · rename_i anchors hdeferred
    unfold deferredAnchors at hdeferred
    split at hdeferred
    · split_ifs at hdeferred with hrole
      rw [Components.singletonKey_of_derivedFrom hrole.1] at hkey
      cases hkey
    · cases hdeferred
  · obtain ⟨-, u, -, rfl⟩ := insertNow_eq_some.mp hins
    rw [insertEntry_of_marker u e _ _ hkey]
    intro _
    exact (mem_outputs_writeEntry C u t e _ (some o) o (t, e)).mpr (Or.inr ⟨rfl, rfl⟩)

theorem lists_insertBundle (hkey : C.singletonKey t = some key) :
    ∀ {bundle : List (TypeId × Value α)} {w : World α}, (∃ p ∈ bundle, p.1 = t) →
      w.insertBundle C e bundle o = some w' → w'.Lists o (t, e)
  | [], _, ⟨_, hp, _⟩, _ => nomatch hp
  | q :: bundle, w, ⟨p, hp, hpt⟩, hins => by
    obtain ⟨u, hu, hrest⟩ := Option.bind_eq_some_iff.mp hins
    rcases List.mem_cons.mp hp with rfl | hp
    · subst hpt
      refine (closed_lists C o (p.1, e)).foldlM bundle hrest (fun a b q _ hb => ?_) (lists_insert hkey hu)
      exact (closed_lists C o (p.1, e)).insert hb trivial trivial
    · exact lists_insertBundle hkey ⟨p, hp, hpt⟩ hrest

/-- A spawned bundle with the marker lands on the entity that carries it. -/
theorem lists_spawn (h : w.Registered C expected) {p : TypeId × Entity}
    (hkey : C.singletonKey p.1 = some key) {bundle : List (TypeId × Value α)} {reserved : Entity}
    (hmarker : bundle.any (·.1 == p.1) = true)
    (hc : (Command.spawn bundle reserved).apply C w o = some w') : w'.Lists o p := by
  obtain ⟨q, hq, hqt⟩ := List.any_eq_true.mp hmarker
  have hqt : q.1 = p.1 := eq_of_beq hqt
  by_cases howner : w.owner? p.1 p.2 = some o
  · simp only [Command.apply, Option.bind_eq_bind, Option.bind_eq_some_iff] at hc
    obtain ⟨bundleKey, hbundle, hc⟩ := hc
    have hsome : bundleKey = some key := by
      cases bundleKey with
      | none =>
        have hnone := not_marker_of_bundleSingletonKey hbundle q hq
        rw [hqt, hkey] at hnone
        cases hnone
      | some own => rw [(markers_of_bundleSingletonKey hbundle).2 q hq key (by rw [hqt, hkey])]
    have hmarked : w.Marked C key p.2 := by
      obtain ⟨x, hx, -⟩ := Option.bind_eq_some_iff.mp howner
      exact ⟨p.1, hkey, (World.has_iff w p.1 p.2).mpr ⟨x, hx⟩⟩
    have htarget : (w.spawnTarget reserved bundleKey).1 = p.2 := by
      rw [(spawnTarget_spec w reserved bundleKey).2.2.2.2 key hsome, h.registered key p.2 hmarked]
      rfl
    rw [htarget] at hc
    exact lists_insertBundle hkey ⟨q, hq, hqt⟩ hc
  · exact (closed_lists C o p).command hc (Permits.grants_all o) fun hheld => absurd hheld howner

/-- A marker that a command reaches is listed afterwards, if the buffer's owner holds it. -/
theorem lists_of_reaches (h : w.Registered C expected) {p : TypeId × Entity}
    (hkey : C.singletonKey p.1 = some key) {c : Command α} (hreaches : c.reaches p = true)
    (hc : c.apply C w o = some w') : w'.Lists o p := by
  cases c with
  | insert t e v =>
    have heq : (t, e) = p := eq_of_beq hreaches
    subst heq
    exact lists_insert hkey hc
  | removeComponent t e =>
    have heq : (t, e) = p := eq_of_beq hreaches
    subst heq
    cases hc
    refine (closed_lists C o (t, e)).retractEdge _ e Closed.role_edgeOn fun howner => ?_
    rw [owner?_dropEntry, if_pos ⟨rfl, rfl⟩] at howner
    cases howner
  | removeEntity e =>
    have heq : e = p.2 := eq_of_beq hreaches
    cases hc
    have hgone : (w.purgeEntity e).Lists o p := by
      intro howner
      rw [owner?_purgeEntity, if_pos heq.symm] at howner
      cases howner
    exact (closed_lists C o p).unlinkEntity w e hgone
  | spawn bundle reserved => exact lists_spawn h hkey hreaches hc

theorem lists_of_any_reaches (hkeys : C.DistinctKeys) {p : TypeId × Entity}
    (hkey : C.singletonKey p.1 = some key) {commands : List (Command α)}
    (h : w.Registered C expected) (hany : commands.any (·.reaches p) = true)
    (hc : w.applyCommands C o commands = some w') : w'.Lists o p := by
  induction commands generalizing w with
  | nil => cases hany
  | cons c commands ih =>
    obtain ⟨u, hu, hrest⟩ := (applyCommands_cons C).mp hc
    rw [List.any_cons, Bool.or_eq_true] at hany
    rcases hany with hreaches | hany
    · exact (closed_lists C o p).applyCommands hrest (Permits.grants_all o)
        (lists_of_reaches h hkey hreaches hu)
    · exact ih (h.command hkeys hu) hany hrest

end Listing

section Outputs

theorem Registered.applyCommands (h : w.Registered C expected) (hkeys : C.DistinctKeys)
    {commands : List (Command α)} (hc : w.applyCommands C o commands = some w') :
    w'.Registered C expected :=
  List.foldlM_some_induction (fun u : World α => u.Registered C expected) commands hc h
    fun _ _ _ _ hu hstep => hu.command hkeys hstep

/-- A sweep of what was not emitted again spares the markers that the invocation lists. -/
theorem Registered.removeDerivedStale (h : w.Registered C expected)
    {previous : List (TypeId × Entity)}
    (hlists : ∀ p ∈ previous, C.singletonKey p.1 ≠ none → w.Lists o p) :
    (w.removeDerivedStale C o previous).Registered C expected := by
  have hswept : (w.removeDerivedStale C o previous).Registered C expected ∧
      ∀ p ∈ previous, C.singletonKey p.1 ≠ none → (w.removeDerivedStale C o previous).Lists o p := by
    refine List.foldlRecOn previous _ (motive := fun u : World α => u.Registered C expected ∧
      ∀ p ∈ previous, C.singletonKey p.1 ≠ none → u.Lists o p) ⟨h, hlists⟩ ?_
    rintro u ⟨hu, hlists⟩ p hp
    split_ifs with hlisted
    · exact ⟨hu, hlists⟩
    · constructor
      · refine hu.removeDerivedEntry p.1 p.2 o fun key hkey howner => ?_
        exact absurd (hlists p hp (by simp [hkey]) howner) hlisted
      · intro q hq hmarker
        exact (closed_lists C o q).removeDerivedEntry u p.1 p.2 trivial (hlists q hq hmarker)
  exact hswept.1

/-- Replacing an output keeps the registry where the run reaches every marker it held before. -/
theorem Registered.applyOutput (h : w.Registered C expected) (hkeys : C.DistinctKeys)
    {output : SystemOutput α} {deferInserts : Bool}
    (hmarkers : ∀ p ∈ w.outputs output.owner, C.singletonKey p.1 ≠ none →
      (output.immediate deferInserts).any (·.reaches p) = true)
    (ha : w.applyOutput C output deferInserts = some w') : w'.Registered C expected := by
  obtain ⟨applied, flushed, happly, hflush, rfl⟩ := exists_of_applyOutput ha
  have htaken : (w.takeDerivedOutputs output.owner).2.Registered C expected :=
    h.same (.of_stores rfl rfl)
  have hflushed := (htaken.applyCommands hkeys happly).flushDerivedFrom hflush
  have hlists : ∀ p ∈ w.outputs output.owner, C.singletonKey p.1 ≠ none →
      (flushed.finishDerivedSpawns output.owner).Lists output.owner p := by
    intro p hp hmarker
    obtain ⟨key, hkey⟩ := Option.ne_none_iff_exists'.mp hmarker
    have happlied := lists_of_any_reaches hkeys hkey htaken (hmarkers p hp hmarker) happly
    have hkept : flushed.Lists output.owner p :=
      (closed_lists C output.owner p).flushDerivedFrom hflush (fun _ _ => trivial) trivial happlied
    exact hkept
  have hfinished : (flushed.finishDerivedSpawns output.owner).Registered C expected :=
    hflushed.same (.of_stores rfl rfl)
  exact hfinished.removeDerivedStale hlists

theorem Registered.removeDerivedOwned (h : w.Registered C expected)
    (hmarkers : ∀ p ∈ w.outputs o, C.singletonKey p.1 = none) :
    (w.removeDerivedOwned C o).Registered C expected := by
  refine List.foldlRecOn (w.outputs o) _ (motive := fun u : World α => u.Registered C expected)
    (h.same (.of_stores rfl rfl)) fun u hu p hp => ?_
  refine hu.removeDerivedEntry p.1 p.2 o fun key hkey _ => ?_
  rw [hmarkers p hp] at hkey
  cases hkey

theorem Registered.retireOwners : ∀ (owners : List SystemInvocation) {w : World α},
    w.Registered C expected → (∀ o ∈ owners, ∀ p ∈ w.outputs o, C.singletonKey p.1 = none) →
      (w.retireOwners C owners).1.Registered C expected
  | [], _, h, _ => h
  | o :: owners, w, h, hmarkers => by
    refine Registered.retireOwners owners (h.removeDerivedOwned (hmarkers o List.mem_cons_self))
      fun o' ho' p hp => hmarkers o' (List.mem_cons_of_mem _ ho') p ?_
    have hforgot := (closed_unlisted C o').removeDerivedEntries (w.forgetOwner o) (w.outputs o)
      (fun _ _ => trivial) p hp
    rw [outputs, show (w.forgetOwner o).derivedOwners = w.derivedOwners.erase o from rfl,
      Dict.getD_erase] at hforgot
    split_ifs at hforgot
    · cases hforgot
    · exact hforgot

end Outputs

section Rewrites

theorem sameMarkers_restampEntry (w : World α) (t : TypeId) (e : Entity) (v : Value α) :
    SameMarkers C w (w.restampEntry C t e v) := by
  unfold restampEntry
  cases hx : w.cell? t e with
  | none => exact .refl w
  | some x =>
    have hhas : w.has t e = true := (w.has_iff t e).mpr ⟨x, hx⟩
    dsimp only
    split_ifs
    · exact ⟨rfl, fun t' e' _ => has_amendEntry hhas _ _ t' e'⟩
    · exact ⟨rfl, fun t' e' _ => has_amendEntry hhas _ _ t' e'⟩

theorem sameMarkers_writeInPlace (w : World α) (t : TypeId) (e : Entity) (v : Value α) :
    SameMarkers C w (w.writeInPlace t e v) := by
  unfold World.writeInPlace
  cases hx : w.cell? t e with
  | none => exact .refl w
  | some x =>
    have hhas : w.has t e = true := (w.has_iff t e).mpr ⟨x, hx⟩
    exact ⟨rfl, fun t' e' _ => has_amendEntry hhas _ _ t' e'⟩

theorem sameMarkers_updateComponent (w : World α) (t : TypeId) (e : Entity) (v : Value α) :
    SameMarkers C w (w.updateComponent C t e v) := by
  unfold updateComponent
  split_ifs
  · exact (sameMarkers_restampEntry w t e v).trans (.of_stores rfl rfl)
  · exact sameMarkers_restampEntry w t e v

theorem sameMarkers_reconcileWritten (w : World α) (writes : List (TypeId × Entity)) :
    SameMarkers C w (w.reconcileWritten C writes) := by
  refine List.foldlRecOn writes _ (motive := SameMarkers C w) (.refl w) fun u hu p _ => hu.trans ?_
  dsimp only
  split_ifs
  · unfold reconcileEntry
    split
    · exact .of_stores rfl rfl
    · exact (sameMarkers_restampEntry u p.1 p.2 _).trans (.of_stores rfl rfl)
  · exact .refl u

end Rewrites

end World
end Porridge
