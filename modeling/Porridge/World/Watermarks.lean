import Porridge.World.Later

/-! What a store shows changes only together with its watermark, which then passes every earlier
revision. -/
namespace Porridge.World

variable {α : Type} (C : Components α)

/-- The store of `t` shows the same revisions, and the same fingerprints where it is tracked. -/
structure SameStore (t : TypeId) (w₀ w : World α) : Prop where
  revisions : ∀ e, w.revisionByType t e = w₀.revisionByType t e
  fingerprints : C.tracked t = true → ∀ e, w.fingerprintOn t e = w₀.fingerprintOn t e

/-- Every store has a watermark from after `w₀`, or shows what it showed in `w₀`. -/
structure Follows (w₀ w : World α) : Prop where
  revision : w₀.revision ≤ w.revision
  stores : ∀ t, w₀.revision < w.storeWatermark t ∨
    (w.storeWatermark t = w₀.storeWatermark t ∧ SameStore C t w₀ w)

variable {C} {w₀ w w' : World α}

theorem Follows.refl (w : World α) : Follows C w w where
  revision := le_rfl
  stores _ := Or.inr ⟨rfl, fun _ => rfl, fun _ _ => rfl⟩

theorem Follows.congr (h : Follows C w₀ w) (hs : w'.stores = w.stores)
    (hr : w'.revision = w.revision) : Follows C w₀ w' where
  revision := hr ▸ h.revision
  stores t := by
    have hmark : w'.storeWatermark t = w.storeWatermark t := by
      rw [storeWatermark, storeWatermark, store_congr hs]
    rw [hmark]
    refine (h.stores t).imp_right fun hkept => ⟨hkept.1, fun e => ?_, fun ht e => ?_⟩
    · rw [revisionByType, cell?_congr hs]
      exact hkept.2.revisions e
    · rw [fingerprintOn_congr hs]
      exact hkept.2.fingerprints ht e

/-- One pair is rebound: with a mark from after `w`, or so that the store shows the same. -/
theorem Follows.rebind (h : Follows C w₀ w) {t : TypeId} {e : Entity}
    {x : Option (Entry α)} {mark : Revision} {store : Store α}
    (hs : w'.stores = w.stores.insert t store)
    (hcell : ∀ e', store.entries.lookup e' = if e' = e then x else w.cell? t e')
    (hwatermark : store.watermark = max (w.storeWatermark t) mark)
    (hr : w.revision ≤ w'.revision)
    (hx : w.revision < mark ∨ (mark ≤ w.storeWatermark t ∧
      x.map Entry.revision = w.revisionByType t e ∧
        (C.tracked t = true → x.bind Entry.fingerprint = w.fingerprintOn t e))) :
    Follows C w₀ w' where
  revision := h.revision.trans hr
  stores t' := by
    by_cases ht : t' = t
    · subst ht
      have hstore : w'.store t' = store := by
        rw [World.store, hs, Dict.getD_insert, if_pos rfl]
      have hcell' : ∀ e', w'.cell? t' e' = if e' = e then x else w.cell? t' e' := by
        intro e'
        rw [cell?, hstore]
        exact hcell e'
      rw [storeWatermark, hstore, hwatermark]
      rcases hx with hmark | ⟨hmark, hrevision, hfingerprint⟩
      · have hpast : w₀.revision < mark := lt_of_le_of_lt h.revision hmark
        exact Or.inl (lt_of_lt_of_le hpast (le_max_right _ _))
      · rw [max_eq_left hmark]
        refine (h.stores t').imp_right fun hkept => ⟨hkept.1, fun e' => ?_, fun htracked e' => ?_⟩
        · rw [← hkept.2.revisions e', revisionByType, hcell']
          split_ifs with he
          · rw [hrevision, he]
          · rfl
        · rw [← hkept.2.fingerprints htracked e', World.fingerprintOn, hcell']
          split_ifs with he
          · rw [hfingerprint htracked, he]
          · rfl
    · have hstore : w'.store t' = w.store t' := by
        rw [World.store, hs, Dict.getD_insert, if_neg ht]
        rfl
      have hcell' : ∀ e', w'.cell? t' e' = w.cell? t' e' := by
        intro e'
        rw [cell?, hstore]
        rfl
      rw [storeWatermark, hstore]
      refine (h.stores t').imp_right fun hkept => ⟨hkept.1, fun e' => ?_, fun htracked e' => ?_⟩
      · rw [revisionByType, hcell']
        exact hkept.2.revisions e'
      · rw [World.fingerprintOn, hcell']
        exact hkept.2.fingerprints htracked e'

/-- A write or an amendment puts an entry into the store. -/
theorem Follows.put (h : Follows C w₀ w) {t : TypeId} {e : Entity} {x : Entry α} {mark : Revision}
    (hs : w'.stores = (w.amendEntry t e x mark).stores)
    (hr : w.revision ≤ w'.revision)
    (hx : w.revision < mark ∨ (mark ≤ w.storeWatermark t ∧
      some x.revision = w.revisionByType t e ∧
        (C.tracked t = true → x.fingerprint = w.fingerprintOn t e))) : Follows C w₀ w' :=
  h.rebind (x := some x) hs (fun e' => Dict.lookup_insert _ e e' x) rfl hr hx

theorem Follows.eraseEntry (h : Follows C w₀ w) (t : TypeId) (e : Entity) :
    Follows C w₀ (w.eraseEntry t e) :=
  h.rebind (e := e) (x := none) rfl (fun e' => Dict.lookup_erase _ e e') rfl (Nat.le_succ _)
    (Or.inl (Nat.lt_succ_self _))

/-- A kept revision is the one stored, under a fingerprint that has not changed. -/
theorem of_keptRevision {t : TypeId} {e : Entity} {v : Value α} {kept : Revision}
    (h : w.keptRevision C t e v = some kept) :
    w.revisionByType t e = some kept ∧ C.fingerprint t v = w.fingerprintOn t e := by
  unfold keptRevision at h
  split_ifs at h with hmatches
  obtain ⟨x, hx, hfingerprint⟩ := (Option.any_eq_true _ _).mp ((Bool.and_eq_true _ _).mp hmatches).2
  have heq := ((Bool.and_eq_true _ _).mp hfingerprint).2
  rw [fingerprintOn, show w.cell? t e = some x from hx]
  exact ⟨h, (eq_of_beq heq).symm⟩

/-- Every store effect moves the watermark of a store it changes. -/
theorem closed_follows (w₀ : World α) : Closed C
    (fun w w' : World α => w.Coherent ∧ Follows C w₀ w → w'.Coherent ∧ Follows C w₀ w')
    Permits.all where
  refl _ := id
  trans hab hbc := hbc ∘ hab
  bookkeeping hb hd h := ⟨(closed_coherent (C := C)).bookkeeping hb hd h.1, h.2.congr hb.stores hb.revision⟩
  write w t e v o ho h := by
    refine ⟨closed_coherent.write w t e v o ho h.1, h.2.put (writeEntry_stores C w t e v o) ?_ ?_⟩
    · rw [writeEntry_revision]
      split_ifs
      · exact le_rfl
      · exact Nat.le_succ _
    · cases hk : w.keptRevision C t e v with
      | none => exact Or.inl (Nat.lt_succ_self _)
      | some kept =>
        obtain ⟨hrevision, hfingerprint⟩ := of_keptRevision hk
        obtain ⟨x, hx, rfl⟩ := Option.map_eq_some_iff.mp hrevision
        exact Or.inr ⟨h.1.entries t e x hx, hrevision.symm, fun _ => hfingerprint⟩
  drop w t e remover hd h := by
    refine ⟨closed_coherent.drop w t e remover hd h.1, ?_⟩
    unfold dropEntry
    split_ifs
    · obtain ⟨owners, losers, hdisowned⟩ :=
        disownEntry_eq ((w.eraseEntry t e).presenceSet t e false) t e (w.owner? t e) remover
      obtain ⟨singletons, hunregistered⟩ := unregisterSingleton_eq C
        (((w.eraseEntry t e).presenceSet t e false).disownEntry t e (w.owner? t e) remover) t e
      rw [hunregistered, hdisowned]
      exact (h.2.eraseEntry t e).congr rfl rfl
    · exact h.2
  sweep w t e o ho h := by
    refine ⟨(closed_coherent (C := C)).sweep w t e o ho h.1, ?_⟩
    unfold sweepEntry
    split_ifs
    · exact (h.2.eraseEntry t e).congr rfl rfl
    · exact h.2
  purge w e he h := by
    refine ⟨(closed_coherent (C := C)).purge w e he h.1, ?_⟩
    have herased : (w.eraseEntries (w.componentsOn e) e).Coherent ∧
        Follows C w₀ (w.eraseEntries (w.componentsOn e) e) :=
      List.foldlRecOn (w.componentsOn e) _ (motive := fun u => u.Coherent ∧ Follows C w₀ u) h
        fun u hu t _ => ⟨hu.1.eraseEntry t e, hu.2.eraseEntry t e⟩
    obtain ⟨owners, hunindexed⟩ :=
      unindexEntries_eq e (w.ownedOn e) (w.eraseEntries (w.componentsOn e) e)
    unfold purgeEntity
    rw [hunindexed]
    exact herased.2.congr rfl rfl
  inverse _ _ _ _ := trivial

theorem Follows.restampEntry (h : Follows C w₀ w) (t : TypeId) (e : Entity)
    (v : Value α) : Follows C w₀ (w.restampEntry C t e v) := by
  unfold World.restampEntry
  cases hx : w.cell? t e with
  | none => exact h
  | some x =>
    dsimp only
    split_ifs with hamends
    · exact h.put rfl (Nat.le_succ _) (Or.inl (Nat.lt_succ_self _))
    · refine h.put rfl le_rfl (Or.inr ⟨Nat.zero_le _, ?_, fun htracked => ?_⟩)
      · rw [revisionByType, hx]
        rfl
      · rw [fingerprintOn, hx]
        unfold amends at hamends
        rw [hx, Option.any_some, htracked, Bool.true_and, Bool.or_eq_true, not_or] at hamends
        simpa using (by simpa using hamends.2 : x.fingerprint = C.fingerprint t v).symm

theorem Follows.writeInPlace (h : Follows C w₀ w) (t : TypeId) (e : Entity)
    (v : Value α) : Follows C w₀ (w.writeInPlace t e v) := by
  unfold World.writeInPlace
  cases hx : w.cell? t e with
  | none => exact h
  | some x =>
    refine h.put rfl le_rfl (Or.inr ⟨Nat.zero_le _, ?_, fun _ => ?_⟩)
    · rw [revisionByType, hx]
      rfl
    · rw [fingerprintOn, hx]
      rfl

theorem Follows.later (h : Follows C w₀ w) (hw : w.Coherent) (hlater : Later C w w') :
    w'.Coherent ∧ Follows C w₀ w' :=
  hlater.invariant (I := fun u => u.Coherent ∧ Follows C w₀ u) ⟨hw, h⟩
    fun _ _ _ hstep => apply_of_closed C (closed_follows w₀)
      (fun _ _ hs hr _ h => ⟨h.1.congr hs hr, h.2.congr hs hr⟩)
      (fun _ t e v h => ⟨h.1.restampEntry t e v, h.2.restampEntry t e v⟩)
      (fun _ t e v h => ⟨h.1.writeInPlace t e v, h.2.writeInPlace t e v⟩) hstep

/-- After any run, a store that does not show what it showed before has a watermark above every
revision there was before. -/
theorem follows_of_run {ops : List (WorldOp α)} (hw : w.Coherent)
    (h : (machine C).run w ops = some w') : Follows C w w' :=
  ((Follows.refl w).later hw ⟨ops, h⟩).2

theorem Follows.sameStore (h : Follows C w₀ w) (hw₀ : w₀.Coherent) {t : TypeId}
    (hmark : w.storeWatermark t = w₀.storeWatermark t) : SameStore C t w₀ w := by
  rcases h.stores t with hlt | ⟨-, hsame⟩
  · have hle := hw₀.watermarks t
    rw [← hmark] at hle
    exact absurd hlt (not_lt.mpr hle)
  · exact hsame

theorem Follows.storeWatermark_le (h : Follows C w₀ w) (hw₀ : w₀.Coherent) (t : TypeId) :
    w₀.storeWatermark t ≤ w.storeWatermark t := by
  rcases h.stores t with hlt | ⟨heq, -⟩
  · exact (hw₀.watermarks t).trans hlt.le
  · exact heq.ge

theorem SameStore.has {t : TypeId} (h : SameStore C t w₀ w) (e : Entity) :
    w.has t e = w₀.has t e := by
  have hrevision := congrArg Option.isSome (h.revisions e)
  rwa [revisionByType, revisionByType, Option.isSome_map, Option.isSome_map] at hrevision

end Porridge.World
