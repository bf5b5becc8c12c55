import Porridge.World.Frame

/-! Owners after each store effect, and the completeness of the ownership index. -/
namespace Porridge
namespace World

variable {α : Type} (C : Components α) (w : World α)

theorem cell?_congr {w w' : World α} (h : w'.stores = w.stores) (t : TypeId) (e : Entity) :
    w'.cell? t e = w.cell? t e := by
  simp [cell?, store, h]

theorem owner?_of_cell? {w w' : World α} {t : TypeId} {e : Entity}
    (h : w'.cell? t e = w.cell? t e) : w'.owner? t e = w.owner? t e :=
  congrArg (fun x : Option (Entry α) => x.bind Entry.owner) h

theorem owner?_congr {w w' : World α} (h : w'.stores = w.stores) (t : TypeId) (e : Entity) :
    w'.owner? t e = w.owner? t e := by
  rw [owner?, owner?, cell?_congr h]

theorem outputs_congr {w w' : World α} (h : w'.derivedOwners = w.derivedOwners)
    (o : SystemInvocation) : w'.outputs o = w.outputs o := by
  rw [outputs, outputs, h]

@[simp] theorem reindexDerived_stores (t : TypeId) (e : Entity)
    (previous o : Option SystemInvocation) :
    (w.reindexDerived t e previous o).stores = w.stores := by
  unfold reindexDerived
  cases previous <;> cases o <;> dsimp only [indexDerived] <;> split_ifs <;> simp

theorem mem_outputs_reindexDerived (t : TypeId) (e : Entity)
    (previous o : Option SystemInvocation) (o' : SystemInvocation) (p : TypeId × Entity) :
    p ∈ (w.reindexDerived t e previous o).outputs o' ↔
      (p ∈ w.outputs o' ∧ ¬ (p = (t, e) ∧ previous = some o' ∧ o ≠ some o')) ∨
        (p = (t, e) ∧ o = some o') := by
  unfold reindexDerived
  cases previous with
  | none => cases o <;> simp [mem_outputs_indexDerived, and_comm, eq_comm]
  | some previous =>
    cases o with
    | none =>
      simp [mem_outputs_unindexDerived]
      grind
    | some o =>
      dsimp only
      split_ifs with ho
      · simp [mem_outputs_indexDerived]
        grind
      · simp [mem_outputs_indexDerived, mem_outputs_unindexDerived]
        grind

theorem cell?_writeEntry (t t' : TypeId) (e e' : Entity) (v : Value α)
    (o : Option SystemInvocation) :
    (w.writeEntry C t e v o).cell? t' e' =
      if t' = t ∧ e' = e then
        some ⟨w.nextCell, v, (w.keptRevision C t e v).getD (w.revision + 1), C.fingerprint t v, o⟩
      else w.cell? t' e' := by
  unfold writeEntry
  rw [cell?_congr (reindexDerived_stores ..), cell?_putEntry]
  split_ifs <;> rfl

theorem owner?_writeEntry (t t' : TypeId) (e e' : Entity) (v : Value α)
    (o : Option SystemInvocation) :
    (w.writeEntry C t e v o).owner? t' e' =
      if t' = t ∧ e' = e then o else w.owner? t' e' := by
  rw [owner?, cell?_writeEntry]
  split_ifs <;> rfl

theorem mem_outputs_writeEntry (t : TypeId) (e : Entity) (v : Value α)
    (o : Option SystemInvocation) (o' : SystemInvocation) (p : TypeId × Entity) :
    p ∈ (w.writeEntry C t e v o).outputs o' ↔
      (p ∈ w.outputs o' ∧ ¬ (p = (t, e) ∧ w.owner? t e = some o' ∧ o ≠ some o')) ∨
        (p = (t, e) ∧ o = some o') := by
  unfold writeEntry
  rw [mem_outputs_reindexDerived]
  rfl

@[simp] theorem unregisterSingleton_stores (t : TypeId) (e : Entity) :
    (w.unregisterSingleton C t e).stores = w.stores := by
  unfold unregisterSingleton
  split
  · rfl
  · split_ifs <;> rfl

@[simp] theorem unregisterSingleton_derivedOwners (t : TypeId) (e : Entity) :
    (w.unregisterSingleton C t e).derivedOwners = w.derivedOwners := by
  unfold unregisterSingleton
  split
  · rfl
  · split_ifs <;> rfl

@[simp] theorem disownEntry_stores (t : TypeId) (e : Entity)
    (o remover : Option SystemInvocation) :
    (w.disownEntry t e o remover).stores = w.stores := by
  unfold disownEntry
  cases o with
  | none => rfl
  | some o => dsimp only; split_ifs <;> simp

theorem mem_outputs_disownEntry (t : TypeId) (e : Entity) (o remover : Option SystemInvocation)
    (o' : SystemInvocation) (p : TypeId × Entity) :
    p ∈ (w.disownEntry t e o remover).outputs o' ↔
      p ∈ w.outputs o' ∧ ¬ (p = (t, e) ∧ o = some o') := by
  have hunindex : ∀ o, p ∈ (w.unindexDerived o t e).outputs o' ↔
      p ∈ w.outputs o' ∧ ¬ (p = (t, e) ∧ some o = some o') := fun o => by
    rw [mem_outputs_unindexDerived]
    grind
  unfold disownEntry
  cases o with
  | none => simp
  | some o =>
    dsimp only
    split_ifs
    · exact hunindex o
    · exact hunindex o

theorem cell?_dropEntry (t t' : TypeId) (e e' : Entity) (remover : Option SystemInvocation) :
    (w.dropEntry C t e remover).cell? t' e' =
      if t' = t ∧ e' = e then none else w.cell? t' e' := by
  unfold dropEntry
  split_ifs with hhas hte hte
  · rw [cell?_congr (unregisterSingleton_stores ..), cell?_congr (disownEntry_stores ..),
      cell?_presenceSet, cell?_eraseEntry, if_pos hte]
  · rw [cell?_congr (unregisterSingleton_stores ..), cell?_congr (disownEntry_stores ..),
      cell?_presenceSet, cell?_eraseEntry, if_neg hte]
  · obtain ⟨rfl, rfl⟩ := hte
    simpa [has] using hhas
  · rfl

theorem owner?_dropEntry (t t' : TypeId) (e e' : Entity) (remover : Option SystemInvocation) :
    (w.dropEntry C t e remover).owner? t' e' =
      if t' = t ∧ e' = e then none else w.owner? t' e' := by
  rw [owner?, cell?_dropEntry]
  split_ifs <;> rfl

theorem mem_outputs_dropEntry (t : TypeId) (e : Entity) (remover : Option SystemInvocation)
    (o : SystemInvocation) (p : TypeId × Entity) :
    p ∈ (w.dropEntry C t e remover).outputs o ↔
      p ∈ w.outputs o ∧ ¬ (p = (t, e) ∧ w.owner? t e = some o) := by
  unfold dropEntry
  split_ifs with hhas
  · rw [outputs_congr (unregisterSingleton_derivedOwners ..), mem_outputs_disownEntry]
    rfl
  · have hnone : w.owner? t e = none := by
      simp only [has, Bool.not_eq_true, Option.isSome_eq_false_iff, Option.isNone_iff_eq_none]
        at hhas
      simp [owner?, hhas]
    simp [hnone]

theorem cell?_sweepEntry (t t' : TypeId) (e e' : Entity) (o : SystemInvocation) :
    (w.sweepEntry t e o).cell? t' e' =
      if t' = t ∧ e' = e ∧ w.owner? t e = some o then none else w.cell? t' e' := by
  unfold sweepEntry
  split_ifs with ho h h
  · rw [cell?_presenceSet, cell?_eraseEntry, if_pos ⟨h.1, h.2.1⟩]
  · rw [cell?_presenceSet, cell?_eraseEntry, if_neg fun hte => h ⟨hte.1, hte.2, ho⟩]
  · exact absurd h.2.2 ho
  · rfl

theorem owner?_sweepEntry (t t' : TypeId) (e e' : Entity) (o : SystemInvocation) :
    (w.sweepEntry t e o).owner? t' e' =
      if t' = t ∧ e' = e ∧ w.owner? t e = some o then none else w.owner? t' e' := by
  rw [owner?, cell?_sweepEntry]
  split_ifs <;> rfl

@[simp] theorem sweepEntry_derivedOwners (t : TypeId) (e : Entity) (o : SystemInvocation) :
    (w.sweepEntry t e o).derivedOwners = w.derivedOwners := by
  unfold sweepEntry
  split_ifs <;> rfl

theorem mem_keys_stores_of_has {w : World α} {t : TypeId} {e : Entity} (h : w.has t e = true) :
    t ∈ w.stores.keys := by
  by_contra hk
  have hnone : w.stores.lookup t = none := AList.lookup_eq_none.mpr fun hm => hk (AList.mem_keys.mp hm)
  simp [has, cell?, store, Dict.getD, hnone] at h

theorem mem_componentsOn (t : TypeId) (e : Entity) :
    t ∈ w.componentsOn e ↔ w.has t e = true := by
  simp only [componentsOn, List.mem_filter]
  exact ⟨fun h => h.2, fun h => ⟨mem_keys_stores_of_has h, h⟩⟩

theorem mem_ownedOn (e : Entity) (p : SystemInvocation × TypeId) :
    p ∈ w.ownedOn e ↔ w.owner? p.2 e = some p.1 := by
  simp only [ownedOn, List.mem_filterMap, mem_componentsOn, Option.map_eq_some_iff]
  constructor
  · rintro ⟨t, -, o, ho, rfl⟩
    exact ho
  · intro h
    refine ⟨p.2, ?_, p.1, h, rfl⟩
    obtain ⟨x, hx, -⟩ := Option.bind_eq_some_iff.mp h
    simp [has, hx]

theorem mem_ownersOn (e : Entity) (o : SystemInvocation) :
    o ∈ w.ownersOn e ↔ ∃ t, w.owner? t e = some o := by
  simp only [ownersOn, List.mem_map, mem_ownedOn]
  exact ⟨fun ⟨p, hp, ho⟩ => ⟨p.2, ho ▸ hp⟩, fun ⟨t, ht⟩ => ⟨(o, t), ht, rfl⟩⟩

theorem cell?_eraseEntries (types : List TypeId) (e e' : Entity) (t : TypeId) :
    (w.eraseEntries types e).cell? t e' =
      if t ∈ types ∧ e' = e then none else w.cell? t e' := by
  induction types generalizing w with
  | nil => simp [eraseEntries]
  | cons t' types ih =>
    rw [show w.eraseEntries (t' :: types) e = (w.eraseEntry t' e).eraseEntries types e from rfl,
      ih, cell?_eraseEntry]
    by_cases he : e' = e <;> by_cases ht : t ∈ types <;> by_cases htt : t = t' <;>
      simp [he, ht, htt]

@[simp] theorem eraseEntries_derivedOwners (types : List TypeId) (e : Entity) :
    (w.eraseEntries types e).derivedOwners = w.derivedOwners := by
  induction types generalizing w with
  | nil => rfl
  | cons t types ih => exact ih _

@[simp] theorem unindexEntries_stores (pairs : List (SystemInvocation × TypeId)) (e : Entity) :
    (w.unindexEntries pairs e).stores = w.stores := by
  induction pairs generalizing w with
  | nil => rfl
  | cons p pairs ih => exact (ih _).trans (unindexDerived_stores ..)

theorem mem_outputs_unindexEntries (pairs : List (SystemInvocation × TypeId)) (e : Entity)
    (o : SystemInvocation) (p : TypeId × Entity) :
    p ∈ (w.unindexEntries pairs e).outputs o ↔
      p ∈ w.outputs o ∧ ¬ (p.2 = e ∧ (o, p.1) ∈ pairs) := by
  induction pairs generalizing w with
  | nil => simp [unindexEntries]
  | cons q pairs ih =>
    rw [show w.unindexEntries (q :: pairs) e = (w.unindexDerived q.1 q.2 e).unindexEntries pairs e
      from rfl, ih, mem_outputs_unindexDerived]
    grind

theorem cell?_purgeEntity (e e' : Entity) (t : TypeId) :
    (w.purgeEntity e).cell? t e' = if e' = e then none else w.cell? t e' := by
  change ((w.eraseEntries (w.componentsOn e) e).unindexEntries (w.ownedOn e) e).cell? t e' = _
  rw [cell?_congr (unindexEntries_stores ..), cell?_eraseEntries]
  by_cases he : e' = e
  · subst he
    by_cases ht : t ∈ w.componentsOn e'
    · simp [ht]
    · have hnone : w.cell? t e' = none := by simpa [mem_componentsOn, has] using ht
      simp [ht, hnone]
  · simp [he]

theorem owner?_purgeEntity (e e' : Entity) (t : TypeId) :
    (w.purgeEntity e).owner? t e' = if e' = e then none else w.owner? t e' := by
  rw [owner?, cell?_purgeEntity]
  split_ifs <;> rfl

theorem mem_outputs_purgeEntity (e : Entity) (o : SystemInvocation) (p : TypeId × Entity) :
    p ∈ (w.purgeEntity e).outputs o ↔
      p ∈ w.outputs o ∧ ¬ (p.2 = e ∧ w.owner? p.1 e = some o) := by
  change p ∈ ((w.eraseEntries (w.componentsOn e) e).unindexEntries (w.ownedOn e) e).outputs o ↔ _
  rw [mem_outputs_unindexEntries, outputs_congr (eraseEntries_derivedOwners ..), mem_ownedOn]

theorem exists_of_mem_outputs {w : World α} {o : SystemInvocation} {p : TypeId × Entity}
    (h : p ∈ w.outputs o) : ∃ pairs, ⟨o, pairs⟩ ∈ w.derivedOwners.entries ∧ p ∈ pairs := by
  unfold outputs Dict.getD at h
  cases hl : w.derivedOwners.lookup o with
  | none => simp [hl] at h
  | some pairs => exact ⟨pairs, AList.mem_lookup_iff.mp hl, by simpa [hl] using h⟩

/-- Every owned entry outside `loose` is listed under its owner. -/
def Indexed (loose : SystemInvocation → TypeId × Entity → Prop) (w : World α) : Prop :=
  ∀ t e o, w.owner? t e = some o → (t, e) ∈ w.outputs o ∨ loose o (t, e)

/-- Every store effect keeps the ownership index complete. -/
theorem closed_indexed (loose : SystemInvocation → TypeId × Entity → Prop) :
    Closed C (fun w w' => w.Indexed loose → w'.Indexed loose) Permits.all where
  refl _ := id
  trans hab hbc := hbc ∘ hab
  bookkeeping hb _ hw t e o ho := by
    rw [outputs_congr hb.derivedOwners]
    exact hw t e o (owner?_congr hb.stores t e ▸ ho)
  write w t e v o _ hw t' e' o' ho := by
    rw [owner?_writeEntry] at ho
    rw [mem_outputs_writeEntry]
    split_ifs at ho with hte
    · exact Or.inl (Or.inr ⟨by rw [hte.1, hte.2], ho⟩)
    · exact (hw t' e' o' ho).imp_left fun hmem =>
        Or.inl ⟨hmem, fun hp => hte (Prod.ext_iff.mp hp.1)⟩
  drop w t e remover _ hw t' e' o' ho := by
    rw [owner?_dropEntry] at ho
    rw [mem_outputs_dropEntry]
    split_ifs at ho with hte
    exact (hw t' e' o' ho).imp_left fun hmem => ⟨hmem, fun hp => hte (Prod.ext_iff.mp hp.1)⟩
  sweep w t e o _ hw t' e' o' ho := by
    rw [owner?_sweepEntry] at ho
    rw [outputs_congr (sweepEntry_derivedOwners ..)]
    split_ifs at ho
    exact hw t' e' o' ho
  purge w e _ hw t' e' o' ho := by
    rw [owner?_purgeEntity] at ho
    rw [mem_outputs_purgeEntity]
    split_ifs at ho with he
    exact (hw t' e' o' ho).imp_left fun hmem => ⟨hmem, fun hp => he hp.1⟩
  inverse _ _ _ _ := trivial

end World
end Porridge
