import Porridge.Commit

/-! The retirement cascade: it ends, only takes away, and clears what its roots key. -/
namespace Porridge

variable {α : Type} (C : Components α)

namespace World

variable (w : World α)

theorem keys_unindexDerived_subset (o : SystemInvocation) (t : TypeId) (e : Entity) :
    (w.unindexDerived o t e).derivedOwners.keys ⊆ w.derivedOwners.keys := by
  unfold unindexDerived
  split
  · exact fun _ h => h
  · rename_i pairs hpairs
    have ho : o ∈ w.derivedOwners.keys :=
      AList.mem_keys.mp (AList.lookup_isSome.mp (by simp [hpairs]))
    dsimp only
    split_ifs
    · rw [AList.keys_erase]
      exact List.erase_subset
    · rw [AList.keys_insert]
      exact List.cons_subset.mpr ⟨ho, List.erase_subset⟩

/-- Effects that write base facts only add no owner to the index. -/
theorem closed_keys_subset :
    Closed C (fun w w' => w'.derivedOwners.keys ⊆ w.derivedOwners.keys) Permits.base where
  refl _ _ := id
  trans hab hbc := List.Subset.trans hbc hab
  bookkeeping hb _ := by rw [hb.derivedOwners]; exact List.Subset.refl _
  write w t e v o ho := by
    cases (show o = none from ho)
    unfold writeEntry reindexDerived
    cases w.owner? t e with
    | none => exact List.Subset.refl _
    | some previous => exact keys_unindexDerived_subset _ previous t e
  drop w t e remover _ := by
    unfold dropEntry
    split_ifs
    · rw [unregisterSingleton_derivedOwners]
      unfold disownEntry
      cases w.owner? t e with
      | none => exact List.Subset.refl _
      | some o =>
        have hkeys := keys_unindexDerived_subset ((w.eraseEntry t e).presenceSet t e false) o t e
        dsimp only
        split_ifs <;> exact hkeys
    · exact List.Subset.refl _
  sweep w t e o _ := by rw [sweepEntry_derivedOwners]; exact List.Subset.refl _
  purge w e _ := by
    change ((w.eraseEntries (w.componentsOn e) e).unindexEntries (w.ownedOn e) e).derivedOwners.keys
      ⊆ _
    have hfold : ∀ (pairs : List (SystemInvocation × TypeId)) (u : World α),
        (u.unindexEntries pairs e).derivedOwners.keys ⊆ u.derivedOwners.keys := by
      intro pairs
      induction pairs with
      | nil => exact fun u => List.Subset.refl _
      | cons p pairs ih => exact fun u => List.Subset.trans (ih _) (keys_unindexDerived_subset u p.1 p.2 e)
    exact List.Subset.trans (hfold _ _) (by rw [eraseEntries_derivedOwners]; exact List.Subset.refl _)
  inverse _ _ _ _ := rfl

theorem keys_removeDerivedOwned_subset (o : SystemInvocation) :
    (w.removeDerivedOwned C o).derivedOwners.keys ⊆ w.derivedOwners.keys.erase o :=
  List.Subset.trans ((closed_keys_subset C).removeDerivedEntries (w.forgetOwner o) (w.outputs o) fun _ _ => trivial)
    (by rw [forgetOwner, AList.keys_erase]; exact List.Subset.refl _)

theorem keys_retireOwners_subset :
    ∀ (owners : List SystemInvocation) (w : World α), ∀ o ∈ (w.retireOwners C owners).1.derivedOwners.keys,
      o ∈ w.derivedOwners.keys ∧ o ∉ owners
  | [], _, _, h => ⟨h, by simp⟩
  | o' :: owners, w, o, h => by
    obtain ⟨hkeys, hnot⟩ := keys_retireOwners_subset owners (w.removeDerivedOwned C o') o h
    have herase := (w.derivedOwners.keys_nodup.mem_erase_iff).mp
      (keys_removeDerivedOwned_subset C w o' hkeys)
    exact ⟨herase.2, by simp [herase.1, hnot]⟩

theorem retireOwners_found_nil (w : World α) : (w.retireOwners C []).2 = [] := rfl

end World

/-- A round that finds an entity retired an indexed owner. -/
theorem retireTouched_drops (selected : Option (List SystemId)) (r : Retirement α)
    (frontier : List Entity) (h : (retireTouched C selected r frontier).2 ≠ []) :
    (retireTouched C selected r frontier).1.world.derivedOwners.keys.length <
      r.world.derivedOwners.keys.length := by
  have hsub := World.keys_retireOwners_subset C (r.world.ownersTouchedBy frontier selected) r.world
  have howners : r.world.ownersTouchedBy frontier selected ≠ [] := by
    intro hnil
    apply h
    change (r.world.retireOwners C (r.world.ownersTouchedBy frontier selected)).2 = []
    rw [hnil, World.retireOwners_found_nil]
  obtain ⟨o, ho⟩ := List.exists_mem_of_ne_nil _ howners
  have hkey : o ∈ r.world.derivedOwners.keys := (List.mem_filter.mp ho).1
  have hnodup := (retireTouched C selected r frontier).1.world.derivedOwners.keys_nodup
  have hlt : (retireTouched C selected r frontier).1.world.derivedOwners.keys ⊆
      r.world.derivedOwners.keys.erase o := fun o' ho' => by
    obtain ⟨hmem, hnot⟩ := hsub o' ho'
    exact (List.mem_erase_of_ne fun heq => hnot (by rw [heq]; exact ho)).mpr hmem
  have hle := (List.subperm_of_subset hnodup hlt).length_le
  rw [List.length_erase_of_mem hkey] at hle
  have hpos := List.length_pos_of_mem hkey
  omega

/-- The fuel of the cascade suffices: more rounds change nothing. -/
theorem retireCascade_fuel (selected : Option (List SystemId)) (r : Retirement α)
    (seen frontier : List Entity) (extra : Nat) :
    Worklist.rounds (retireTouched C selected) (r.world.derivedOwners.keys.length + 1 + extra)
      r seen frontier = retireCascade C selected r seen frontier :=
  Worklist.rounds_fuel (fun r => r.world.derivedOwners.keys.length)
    (retireTouched_drops C selected) _ extra r seen frontier (Nat.lt_succ_self _)

/-- Memo entries and derived pairs of the second state come from the first. -/
structure Retirement.Shrinks (r r' : Retirement α) : Prop where
  memo : ∀ i m, r'.memo.lookup i = some m → r.memo.lookup i = some m
  owner : ∀ t e o, r'.world.owner? t e = some o → r.world.owner? t e = some o

theorem Retirement.Shrinks.refl (r : Retirement α) : r.Shrinks r := ⟨fun _ _ h => h, fun _ _ _ h => h⟩

theorem Retirement.Shrinks.trans {a b c : Retirement α} (hab : a.Shrinks b) (hbc : b.Shrinks c) :
    a.Shrinks c :=
  ⟨fun i m h => hab.memo i m (hbc.memo i m h), fun t e o h => hab.owner t e o (hbc.owner t e o h)⟩

theorem shrinks_retireTouched (selected : Option (List SystemId)) (r : Retirement α)
    (frontier : List Entity) : r.Shrinks (retireTouched C selected r frontier).1 where
  memo i m h := by
    change (removeMemoTouchedBy r.memo frontier).lookup i = some m at h
    rw [lookup_removeMemoTouchedBy] at h
    split_ifs at h
    exact h
  owner t e o h := World.closed_disowning_retireOwners C _ r.world h

theorem shrinks_rounds (selected : Option (List SystemId)) (fuel : Nat) (r : Retirement α)
    (seen frontier : List Entity) :
    r.Shrinks (Worklist.rounds (retireTouched C selected) fuel r seen frontier) :=
  Worklist.rounds_invariant (fun _ => True) r.Shrinks
    (fun _ _ h _ => ⟨h.trans (shrinks_retireTouched C selected _ _), fun _ _ => trivial⟩)
    fuel r seen frontier (.refl r) fun _ _ => trivial

/-- No memo entry and no derived pair of a selected invocation is keyed by an entity of `keys`. -/
structure Retirement.Clear (selected : Option (List SystemId)) (keys : List Entity)
    (r : Retirement α) : Prop where
  memo : ∀ i m, r.memo.lookup i = some m → i.touches keys = false
  owner : ∀ t e o, r.world.owner? t e = some o → World.selects selected o.system = true →
    o.touches keys = false

theorem Retirement.Clear.of_shrinks {selected : Option (List SystemId)} {keys : List Entity}
    {r r' : Retirement α} (h : r.Clear selected keys) (hs : r.Shrinks r') :
    r'.Clear selected keys :=
  ⟨fun i m hi => h.memo i m (hs.memo i m hi), fun t e o ho => h.owner t e o (hs.owner t e o ho)⟩

theorem clear_retireTouched (selected : Option (List SystemId)) {r : Retirement α}
    (h : r.world.Indexed fun _ _ => False) (frontier : List Entity) :
    (retireTouched C selected r frontier).1.Clear selected frontier where
  memo i m hm := by
    change (removeMemoTouchedBy r.memo frontier).lookup i = some m at hm
    rw [lookup_removeMemoTouchedBy] at hm
    split_ifs at hm with ht
    exact Bool.eq_false_iff.mpr ht
  owner t e o ho hsel := by
    by_contra htouch
    exact World.not_owned_of_removeDerivedTouchedBySystems C h ho
      ⟨hsel, SystemInvocation.touches_iff.mp (Bool.eq_true_of_not_eq_false htouch)⟩

/-- The cascade leaves nothing of a selected invocation that one of its roots keyed. -/
theorem clear_retireCascade (selected : Option (List SystemId)) {r : Retirement α}
    (h : r.world.Indexed fun _ _ => False) (seen roots : List Entity) :
    (retireCascade C selected r seen roots).Clear selected roots := by
  unfold retireCascade
  cases roots with
  | nil => exact ⟨fun i _ _ => by simp [SystemInvocation.touches], fun _ _ o _ _ => by
      simp [SystemInvocation.touches]⟩
  | cons e roots =>
    rw [Worklist.rounds]
    · exact (clear_retireTouched C selected h (e :: roots)).of_shrinks (shrinks_rounds C selected ..)
    · simp

section RemovedOwners

variable (selected : Option (List SystemId))

theorem lookup_reconcileRemovedOutputOwners (i : SystemInvocation) :
    ∀ (owners : List SystemInvocation) (memo : MemoTable) (systems : List BoxedSystem),
      (reconcileRemovedOutputOwners selected memo systems owners).1.lookup i =
        if i ∈ owners ∧ World.selects selected i.system = true then none else memo.lookup i
  | [], memo, systems => by simp [reconcileRemovedOutputOwners]
  | o :: owners, memo, systems => by
    rw [reconcileRemovedOutputOwners]
    split_ifs with hsel hi hi
    · rw [lookup_reconcileRemovedOutputOwners i owners, Dict.lookup_erase]
      by_cases hio : i = o
      · simp [hio]
      · have hmem : i ∈ owners := (List.mem_cons.mp hi.1).resolve_left hio
        simp [hmem, hi.2]
    · rw [lookup_reconcileRemovedOutputOwners i owners, Dict.lookup_erase]
      have hio : i ≠ o := fun heq => hi ⟨by simp [heq], heq ▸ hsel.1⟩
      have hmem : ¬ (i ∈ owners ∧ World.selects selected i.system = true) := fun hm =>
        hi ⟨by simp [hm.1], hm.2⟩
      simp [hio, hmem]
    · rw [lookup_reconcileRemovedOutputOwners i owners]
      by_cases hmem : i ∈ owners
      · simp [hmem, hi.2]
      · have hio : i = o := (List.mem_cons.mp hi.1).resolve_right hmem
        subst hio
        have habsent : i ∉ memo := fun hm => hsel ⟨hi.2, hm⟩
        simp [hmem, AList.lookup_eq_none.mpr habsent]
    · rw [lookup_reconcileRemovedOutputOwners i owners]
      have hmem : ¬ (i ∈ owners ∧ World.selects selected i.system = true) := fun hm =>
        hi ⟨by simp [hm.1], hm.2⟩
      simp [hmem]

theorem retired_reconcileRemovedOutputOwners :
    ∀ (owners : List SystemInvocation) (memo : MemoTable) (systems : List BoxedSystem),
      (reconcileRemovedOutputOwners selected memo systems owners).2.2 = true ↔
        ∃ o ∈ owners, World.selects selected o.system = true ∧ o ∈ memo
  | [], memo, systems => by simp [reconcileRemovedOutputOwners]
  | o :: owners, memo, systems => by
    rw [reconcileRemovedOutputOwners]
    split_ifs with hsel
    · simp only [List.exists_mem_cons_iff, true_iff]
      exact Or.inl hsel
    · rw [retired_reconcileRemovedOutputOwners owners]
      simp only [List.exists_mem_cons_iff, or_iff_right hsel]

/-- The rows of an invocation are forced: its system exists and will plan them next. -/
def Forced (systems : List BoxedSystem) (o : SystemInvocation) : Prop :=
  ∃ s, systems[o.system]? = some s ∧ s.Forces o.keys

instance (systems : List BoxedSystem) (o : SystemInvocation) : Decidable (Forced systems o) :=
  match h : systems[o.system]? with
  | none => isFalse (by simp [Forced, h])
  | some s => decidable_of_iff (s.Forces o.keys) (by simp [Forced, h])

/-- The rows of `o` are forced, or they are once those of the invocations in `F` are. -/
def ForcedWith (F : SystemInvocation → Prop) (systems : List BoxedSystem) (o : SystemInvocation) :
    Prop :=
  ∃ s, systems[o.system]? = some s ∧ (s.Forces o.keys ∨
    (∃ o', F o' ∧ o'.system = o.system ∧ ¬ (s.deltaEligible = true ∧ o'.keys ≠ [])) ∨
    (o.keys ≠ [] ∧ ∀ k ∈ o.keys, k ∈ s.forcedDirty ∨ ∃ o', F o' ∧ o'.system = o.system ∧ k ∈ o'.keys))

theorem forcedWith_congr {F F' : SystemInvocation → Prop} (h : ∀ o, F o ↔ F' o)
    (systems : List BoxedSystem) (o : SystemInvocation) :
    ForcedWith F systems o ↔ ForcedWith F' systems o := by
  rw [funext fun o => propext (h o)]

theorem forcedWith_none (systems : List BoxedSystem) (o : SystemInvocation) :
    ForcedWith (fun _ => False) systems o ↔ Forced systems o := by
  refine exists_congr fun s => and_congr_right fun _ => ⟨?_, Or.inl⟩
  rintro (hforces | ⟨_, hfalse, -⟩ | ⟨hne, hall⟩)
  · exact hforces
  · exact hfalse.elim
  · exact Or.inr ⟨hne, fun k hk => (hall k hk).resolve_right fun ⟨_, hfalse, _⟩ => hfalse⟩

/-- Forcing the rows of one invocation first is forcing them with the others. -/
theorem forcedWith_forceReplanOf {F : SystemInvocation → Prop} {systems : List BoxedSystem}
    {first o : SystemInvocation} : ForcedWith F (forceReplanOf systems first) o ↔
      ForcedWith (fun o' => o' = first ∨ F o') systems o := by
  by_cases hsystem : first.system = o.system
  · cases hs : systems[o.system]? with
    | none => simp [ForcedWith, Porridge.forceReplanOf, hsystem, hs]
    | some s =>
      have hforced : (forceReplanOf systems first)[o.system]? = some (s.forceReplan first.keys) := by
        simp [Porridge.forceReplanOf, hsystem, hs]
      simp only [ForcedWith, hforced, hs, Option.some.injEq, exists_eq_left']
      by_cases hdelta : s.deltaEligible = true ∧ first.keys ≠ []
      · have hgrown : s.forceReplan first.keys =
            { s with forcedDirty := s.forcedDirty ++ first.keys } := if_pos hdelta
        rw [hgrown]
        constructor
        · rintro (hforces | ⟨o', ho', hsame, hfull⟩ | ⟨hne, hall⟩)
          · rcases hforces with hreset | ⟨hne, hall⟩
            · exact Or.inl (Or.inl hreset)
            · refine Or.inr (Or.inr ⟨hne, fun k hk => ?_⟩)
              exact (List.mem_append.mp (hall k hk)).imp_right fun hk =>
                ⟨first, Or.inl rfl, hsystem, hk⟩
          · exact Or.inr (Or.inl ⟨o', Or.inr ho', hsame, hfull⟩)
          · refine Or.inr (Or.inr ⟨hne, fun k hk => ?_⟩)
            rcases hall k hk with hk | ⟨o', ho', hsame, hk⟩
            · exact (List.mem_append.mp hk).imp_right fun hk => ⟨first, Or.inl rfl, hsystem, hk⟩
            · exact Or.inr ⟨o', Or.inr ho', hsame, hk⟩
        · rintro (hforces | ⟨o', rfl | ho', hsame, hfull⟩ | ⟨hne, hall⟩)
          · rcases hforces with hreset | ⟨hne, hall⟩
            · exact Or.inl (Or.inl hreset)
            · exact Or.inl (Or.inr ⟨hne, fun k hk => List.mem_append_left _ (hall k hk)⟩)
          · exact absurd hdelta hfull
          · exact Or.inr (Or.inl ⟨o', ho', hsame, hfull⟩)
          · refine Or.inr (Or.inr ⟨hne, fun k hk => ?_⟩)
            rcases hall k hk with hk | ⟨o', rfl | ho', hsame, hk⟩
            · exact Or.inl (List.mem_append_left _ hk)
            · exact Or.inl (List.mem_append_right _ hk)
            · exact Or.inr ⟨o', ho', hsame, hk⟩
      · have hreset : s.forceReplan first.keys = s.resetFull := if_neg hdelta
        rw [hreset]
        exact ⟨fun _ => Or.inr (Or.inl ⟨first, Or.inl rfl, hsystem, hdelta⟩),
          fun _ => Or.inl (Or.inl ⟨rfl, rfl⟩)⟩
  · have hsame : (forceReplanOf systems first)[o.system]? = systems[o.system]? := by
      simp [Porridge.forceReplanOf, hsystem]
    have hother : ∀ P : SystemInvocation → Prop,
        (∃ o', (o' = first ∨ F o') ∧ o'.system = o.system ∧ P o') ↔
          ∃ o', F o' ∧ o'.system = o.system ∧ P o' := by
      refine fun P => ⟨?_, fun ⟨o', ho', hrest⟩ => ⟨o', Or.inr ho', hrest⟩⟩
      rintro ⟨o', rfl | ho', heq, hrest⟩
      · exact absurd heq hsystem
      · exact ⟨o', ho', heq, hrest⟩
    simp only [ForcedWith, hsame, hother]

/-- The rows that are forced afterwards are those forced with the listed owners that have an
entry. -/
theorem forced_reconcileRemovedOutputOwners {o : SystemInvocation} :
    ∀ (owners : List SystemInvocation) (memo : MemoTable) (systems : List BoxedSystem),
      Forced (reconcileRemovedOutputOwners selected memo systems owners).2.1 o ↔
        ForcedWith (fun o' => o' ∈ owners ∧ World.selects selected o'.system = true ∧ o' ∈ memo)
          systems o
  | [], memo, systems => by
    rw [reconcileRemovedOutputOwners, ← forcedWith_none]
    exact forcedWith_congr (fun o => by simp) systems o
  | first :: owners, memo, systems => by
    rw [reconcileRemovedOutputOwners]
    split_ifs with hfirst
    · rw [forced_reconcileRemovedOutputOwners owners, forcedWith_forceReplanOf]
      refine forcedWith_congr (fun o => ?_) systems o
      by_cases heq : o = first
      · simp [heq, hfirst.1, hfirst.2]
      · simp [heq, AList.mem_erase]
    · rw [forced_reconcileRemovedOutputOwners owners]
      refine forcedWith_congr (fun o => ?_) systems o
      by_cases heq : o = first
      · subst heq
        exact ⟨fun h => absurd h.2 hfirst, fun h => absurd h.2 hfirst⟩
      · simp [heq]

/-- Owners without memo entries leave everything as it was. -/
theorem reconcileRemovedOutputOwners_unmemoized {memo : MemoTable} {systems : List BoxedSystem} :
    ∀ {owners : List SystemInvocation}, (∀ o ∈ owners, o ∉ memo) →
      reconcileRemovedOutputOwners selected memo systems owners = (memo, systems, false)
  | [], _ => rfl
  | o :: owners, h => by
    rw [reconcileRemovedOutputOwners, if_neg fun hm => h o List.mem_cons_self hm.2]
    exact reconcileRemovedOutputOwners_unmemoized fun o ho => h o (List.mem_cons_of_mem _ ho)

end RemovedOwners
end Porridge
