import Porridge.World.Coherence

/-! The fingerprint buckets stay in ascending order over whole runs. -/
namespace Porridge.World

variable {α : Type} {C : Components α} {w w' : World α}

/-- Every fingerprint bucket is in ascending order. -/
def Bucketed (w : World α) : Prop := ∀ t, (w.store t).byFingerprint.Ordered

theorem Bucketed.congr (h : w.Bucketed) (hs : w'.stores = w.stores) : w'.Bucketed := by
  intro t
  rw [store_congr hs]
  exact h t

theorem Bucketed.store (h : w.Bucketed) {t : TypeId} {store : Store α}
    (hs : w'.stores = w.stores.insert t store) (hstore : store.byFingerprint.Ordered) :
    w'.Bucketed := by
  intro t'
  have heq : w'.store t' = if t' = t then store else w.store t' := by
    rw [World.store, hs, Dict.getD_insert]
    rfl
  rw [heq]
  split_ifs
  · exact hstore
  · exact h t'

theorem Bucketed.amendEntry (h : w.Bucketed) {t : TypeId} {e : Entity} {x : Entry α}
    {mark : Revision} (hs : w'.stores = (w.amendEntry t e x mark).stores) : w'.Bucketed :=
  h.store hs ((h t).move _ _ e)

theorem Bucketed.eraseEntry (h : w.Bucketed) (t : TypeId) (e : Entity) :
    (w.eraseEntry t e).Bucketed :=
  h.store rfl ((h t).remove _ e)

theorem Bucketed.restampEntry (h : w.Bucketed) (t : TypeId) (e : Entity) (v : Value α) :
    (w.restampEntry C t e v).Bucketed := by
  unfold World.restampEntry
  cases w.cell? t e with
  | none => exact h
  | some x =>
    dsimp only
    split_ifs
    · exact h.amendEntry rfl
    · exact h.amendEntry rfl

theorem Bucketed.writeInPlace (h : w.Bucketed) (t : TypeId) (e : Entity) (v : Value α) :
    (w.writeInPlace t e v).Bucketed := by
  unfold World.writeInPlace
  cases w.cell? t e with
  | none => exact h
  | some x => exact h.amendEntry rfl

/-- Every store effect keeps the buckets in order. -/
theorem closed_bucketed (C : Components α) :
    Closed C (fun w w' : World α => w.Bucketed → w'.Bucketed) Permits.all where
  refl _ := id
  trans hab hbc := hbc ∘ hab
  bookkeeping hb _ h := h.congr hb.stores
  write w t e v o _ h := h.amendEntry (writeEntry_stores C w t e v o)
  drop w t e remover _ h := by
    unfold dropEntry
    split_ifs
    · obtain ⟨owners, losers, hdisowned⟩ :=
        disownEntry_eq ((w.eraseEntry t e).presenceSet t e false) t e (w.owner? t e) remover
      obtain ⟨singletons, hunregistered⟩ := unregisterSingleton_eq C
        (((w.eraseEntry t e).presenceSet t e false).disownEntry t e (w.owner? t e) remover) t e
      rw [hunregistered, hdisowned]
      exact (h.eraseEntry t e).congr rfl
    · exact h
  sweep w t e o _ h := by
    unfold sweepEntry
    split_ifs
    · exact (h.eraseEntry t e).congr rfl
    · exact h
  purge w e _ h := by
    have herased : (w.eraseEntries (w.componentsOn e) e).Bucketed :=
      List.foldlRecOn (w.componentsOn e) _ (motive := Bucketed) h
        fun u hu t _ => hu.eraseEntry t e
    obtain ⟨owners, hunindexed⟩ :=
      unindexEntries_eq e (w.ownedOn e) (w.eraseEntries (w.componentsOn e) e)
    unfold purgeEntity
    rw [hunindexed]
    exact herased.congr rfl
  inverse _ _ _ _ := trivial

theorem Bucketed.apply {op : WorldOp α} (h : w.Bucketed) (hstep : w.apply C op = some w') :
    w'.Bucketed :=
  apply_of_closed C (closed_bucketed C) (fun _ _ hs _ _ h => h.congr hs)
    (fun _ t e v h => h.restampEntry t e v) (fun _ t e v h => h.writeInPlace t e v) hstep h

theorem bucketed_of_reachable (h : Reachable C w) : w.Bucketed := by
  refine h.invariant Bucketed ?_ fun _ _ _ hu _ hstep => hu.apply hstep
  rintro _ ⟨schema, rfl⟩ t
  exact Index.ordered_empty

/-- The fingerprint buckets and the presence bits are those of the stores. -/
structure IndicesExact (w : World α) : Prop where
  coherent : w.Coherent
  bucketed : w.Bucketed
  present : ∃ schema, w.Present schema

theorem indicesExact_of_reachable (h : Reachable C w) : w.IndicesExact :=
  ⟨coherent_of_reachable h, bucketed_of_reachable h, present_of_reachable h⟩

end Porridge.World
