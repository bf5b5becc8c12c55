import Porridge.World.Allocation
import Porridge.World.Trims
import Porridge.World.Watermarks

/-! While a watermark stands, no fingerprint of its store changes, and while the revision stands,
no mutation is counted. -/
namespace Porridge

/-- The use takes a fresh id. -/
def WorldOp.allocates {α : Type} (w : World α) : WorldOp α → Bool
  | .spawnEmpty => true
  | .reserveSingleton key => (w.registry key).isNone
  | _ => false

namespace World

variable {α : Type} {C : Components α} {K : TypeId → Prop} {w w' u : World α}

/-- Marks only rise, and a mutation or a new fingerprint of a store of `K` shows in them. -/
structure Stands (K : TypeId → Prop) (w w' : World α) : Prop where
  revision : w.revision ≤ w'.revision
  mutations : w'.revision = w.revision → w'.mutations = w.mutations
  watermarks : ∀ t, w.storeWatermark t ≤ w'.storeWatermark t
  fingerprints : ∀ t, K t → w.revision < w'.storeWatermark t ∨
    ∀ e, w'.fingerprintOn t e = w.fingerprintOn t e

theorem Stands.refl (w : World α) : Stands K w w :=
  ⟨le_rfl, fun _ => rfl, fun _ => le_rfl, fun _ _ => Or.inr fun _ => rfl⟩

theorem Stands.trans (h : Stands K w u) (h' : Stands K u w') : Stands K w w' := by
  refine ⟨h.revision.trans h'.revision, fun heq => ?_,
    fun t => (h.watermarks t).trans (h'.watermarks t), fun t ht => ?_⟩
  · have hu : u.revision = w.revision := le_antisymm (heq ▸ h'.revision) h.revision
    rw [h'.mutations (heq.trans hu.symm), h.mutations hu]
  · rcases h.fingerprints t ht with hlt | hsame
    · exact Or.inl (lt_of_lt_of_le hlt (h'.watermarks t))
    · refine (h'.fingerprints t ht).imp (lt_of_le_of_lt h.revision) fun hsame' e => ?_
      rw [hsame', hsame]

theorem Stands.congr (h : Stands K w u) (hs : w'.stores = u.stores) (hr : w'.revision = u.revision)
    (hm : w'.mutations = u.mutations) : Stands K w w' := by
  have hmark : ∀ t, w'.storeWatermark t = u.storeWatermark t := fun t => by
    rw [storeWatermark, storeWatermark, store_congr hs]
  refine ⟨hr ▸ h.revision, fun heq => hm.trans (h.mutations (hr ▸ heq)), fun t => ?_, fun t ht => ?_⟩
  · rw [hmark]
    exact h.watermarks t
  · rw [hmark, fingerprintOn_congr hs]
    exact h.fingerprints t ht

theorem Stands.of_eq (hs : w'.stores = w.stores) (hr : w'.revision = w.revision)
    (hm : w'.mutations = w.mutations) : Stands K w w' := (Stands.refl w).congr hs hr hm

/-- One pair is rebound: under a new mark, or with the fingerprint that was there. -/
theorem Stands.of_rebind {t : TypeId} {e : Entity} {x : Option (Entry α)} {mark : Revision}
    (hcell : ∀ t' e', w'.cell? t' e' = if t' = t ∧ e' = e then x else w.cell? t' e')
    (hmark : ∀ t', w'.storeWatermark t' =
      if t' = t then max (w.storeWatermark t) mark else w.storeWatermark t')
    (hr : w.revision ≤ w'.revision) (hm : w'.revision = w.revision → w'.mutations = w.mutations)
    (hx : w.revision < mark ∨ (K t → x.bind Entry.fingerprint = w.fingerprintOn t e)) :
    Stands K w w' := by
  refine ⟨hr, hm, fun t' => ?_, fun t' ht => ?_⟩
  · rw [hmark]
    split_ifs with hthis
    · rw [hthis]
      exact le_max_left _ _
    · exact le_rfl
  · by_cases hthis : t' = t
    · subst hthis
      rw [hmark, if_pos rfl]
      refine hx.imp (fun hlt => lt_of_lt_of_le hlt (le_max_right _ _)) fun hsame e' => ?_
      rw [fingerprintOn, hcell]
      split_ifs with hpair
      · rw [hpair.2]
        exact hsame ht
      · rfl
    · refine Or.inr fun e' => ?_
      rw [fingerprintOn, hcell, if_neg fun hpair => hthis hpair.1]
      rfl

theorem storeWatermark_amendEntry (w : World α) (t t' : TypeId) (e : Entity) (x : Entry α)
    (mark : Revision) : (w.amendEntry t e x mark).storeWatermark t' =
      if t' = t then max (w.storeWatermark t) mark else w.storeWatermark t' := by
  by_cases ht : t' = t
  · subst ht
    simp [storeWatermark, store, amendEntry, Dict.getD_insert]
  · simp [storeWatermark, store, amendEntry, Dict.getD_insert, ht]

theorem stands_eraseEntry (w : World α) (t : TypeId) (e : Entity) :
    Stands K w (w.eraseEntry t e) :=
  .of_rebind (fun t' e' => cell?_eraseEntry w t t' e e') (storeWatermark_eraseEntry w t · e)
    (Nat.le_succ _) (fun heq => absurd heq (Nat.succ_ne_self _)) (Or.inl (Nat.lt_succ_self _))

theorem writeEntry_mutations (w : World α) (t : TypeId) (e : Entity) (v : Value α)
    (o : Option SystemInvocation) : (w.writeEntry C t e v o).mutations =
      if w.fingerprintMatches C t e v then w.mutations else w.mutations + 1 := by
  unfold writeEntry
  dsimp only
  rw [(reindexDerived_eq _ t e (w.owner? t e) o).choose_spec]
  rfl

/-- A write that keeps its revision has found its fingerprint. -/
theorem stands_writeEntry (w : World α) (t : TypeId) (e : Entity) (v : Value α)
    (o : Option SystemInvocation) : Stands K w (w.writeEntry C t e v o) := by
  have hmark : ∀ t', (w.writeEntry C t e v o).storeWatermark t' = if t' = t then
      max (w.storeWatermark t) ((w.keptRevision C t e v).getD (w.revision + 1))
      else w.storeWatermark t' := by
    intro t'
    rw [storeWatermark, store_congr (writeEntry_stores C w t e v o)]
    exact storeWatermark_amendEntry w t t' e _ _
  refine .of_rebind (fun t' e' => cell?_writeEntry C w t t' e e' v o) hmark ?_ ?_ ?_
  · rw [writeEntry_revision]
    split_ifs
    · exact le_rfl
    · exact Nat.le_succ _
  · rw [writeEntry_revision, writeEntry_mutations]
    split_ifs with hkept hmatches hmatches
    · exact fun _ => rfl
    · -- a kept revision has found its fingerprint
      obtain ⟨kept, hk⟩ := Option.isSome_iff_exists.mp hkept
      unfold keptRevision at hk
      split_ifs at hk with hboth
      exact absurd ((Bool.and_eq_true _ _).mp hboth).2 hmatches
    · exact fun _ => rfl
    · exact fun heq => absurd heq (Nat.succ_ne_self _)
  · cases hk : w.keptRevision C t e v with
    | none => exact Or.inl (Nat.lt_succ_self _)
    | some kept => exact Or.inr fun _ => (of_keptRevision hk).2

theorem stands_dropEntry (w : World α) (t : TypeId) (e : Entity)
    (remover : Option SystemInvocation) : Stands K w (w.dropEntry C t e remover) := by
  unfold dropEntry
  split_ifs
  · rw [(unregisterSingleton_eq C _ t e).choose_spec,
      (disownEntry_eq _ t e (w.owner? t e) remover).choose_spec.choose_spec]
    exact (stands_eraseEntry w t e).congr rfl rfl rfl
  · exact Stands.refl w

theorem stands_eraseEntries (e : Entity) : ∀ (types : List TypeId) (w : World α),
    Stands K w (w.eraseEntries types e)
  | [], w => .refl w
  | t :: types, w => (stands_eraseEntry w t e).trans (stands_eraseEntries e types _)

/-- Every store effect that changes a count or a fingerprint moves a mark. -/
theorem closed_stands (C : Components α) (K : TypeId → Prop) :
    Closed C (Stands (α := α) K) Permits.all where
  refl := Stands.refl
  trans := Stands.trans
  bookkeeping hb _ := .of_eq hb.stores hb.revision hb.mutations
  write w t e v o _ := stands_writeEntry w t e v o
  drop w t e remover _ := stands_dropEntry w t e remover
  sweep w t e o _ := by
    unfold sweepEntry
    split_ifs
    · exact (stands_eraseEntry w t e).congr rfl rfl rfl
    · exact Stands.refl w
  purge w e _ := by
    unfold purgeEntity
    dsimp only
    rw [(unindexEntries_eq e (w.ownedOn e) _).choose_spec]
    exact (stands_eraseEntries e (w.componentsOn e) w).congr rfl rfl rfl
  inverse _ _ _ _ := trivial

/-- A use that amends nothing changes no fingerprint of a store whose watermark stands. -/
theorem stands_apply {op : WorldOp α} (hop : op.amending = false) (h : w.apply C op = some w') :
    Stands K w w' := by
  refine apply_of_effects C ((closed_stands C K).after w) (fun _ _ hsame hu =>
    hu.congr hsame.stores hsame.revision hsame.mutations) (fun hroll => ?_) hop h (.refl w)
  subst hroll
  cases h
  unfold maybeRollPlanEpoch
  split_ifs
  · exact .refl w
  · exact .of_eq rfl rfl rfl

section Amendments

variable {t : TypeId} {e : Entity} {v : Value α}

theorem restampEntry_mutations (w : World α) (t : TypeId) (e : Entity) (v : Value α) :
    (w.restampEntry C t e v).mutations = w.mutations := by
  unfold restampEntry
  split
  · rfl
  · split_ifs <;> rfl

theorem value_amendEntry (w : World α) (t t' : TypeId) (e e' : Entity) (x : Entry α)
    (mark : Revision) : ((w.amendEntry t e x mark).cell? t' e').map Entry.value =
      if t' = t ∧ e' = e then some x.value else (w.cell? t' e').map Entry.value := by
  rw [cell?_amendEntry]
  split_ifs <;> rfl

theorem value_restampEntry (w : World α) (t t' : TypeId) (e e' : Entity) (v : Value α) :
    ((w.restampEntry C t e v).cell? t' e').map Entry.value =
      if t' = t ∧ e' = e then (w.cell? t e).map fun _ => v
      else (w.cell? t' e').map Entry.value := by
  unfold restampEntry
  cases hx : w.cell? t e with
  | none =>
    dsimp only
    split_ifs with hsame
    · rw [hsame.1, hsame.2, hx]
      rfl
    · rfl
  | some x =>
    dsimp only
    split_ifs with hamends hsame hsame
    · exact (value_amendEntry w t t' e e' _ _).trans (if_pos hsame)
    · exact (value_amendEntry w t t' e e' _ _).trans (if_neg hsame)
    · exact (value_amendEntry w t t' e e' _ _).trans (if_pos hsame)
    · exact (value_amendEntry w t t' e e' _ _).trans (if_neg hsame)

theorem value_updateComponent (w : World α) (t t' : TypeId) (e e' : Entity) (v : Value α) :
    ((w.updateComponent C t e v).cell? t' e').map Entry.value =
      if t' = t ∧ e' = e then (w.cell? t e).map fun _ => v
      else (w.cell? t' e').map Entry.value := by
  have hstores : (w.updateComponent C t e v).stores = (w.restampEntry C t e v).stores := by
    unfold updateComponent
    split <;> rfl
  rw [cell?_congr hstores]
  exact value_restampEntry w t t' e e' v

theorem value_writeInPlace (w : World α) (t t' : TypeId) (e e' : Entity) (v : Value α) :
    ((w.writeInPlace t e v).cell? t' e').map Entry.value =
      if t' = t ∧ e' = e then (w.cell? t e).map fun _ => v
      else (w.cell? t' e').map Entry.value := by
  unfold writeInPlace
  cases hx : w.cell? t e with
  | none =>
    dsimp only
    split_ifs with hsame
    · rw [hsame.1, hsame.2, hx]
      rfl
    · rfl
  | some x => exact value_amendEntry w t t' e e' _ _

/-- An amendment that is no tracked change leaves a tracked fingerprint as it was. -/
theorem fingerprint_of_not_amends {x : Entry α} (hx : w.cell? t e = some x)
    (htracked : C.tracked t = true) (h : w.amends C t e v = false) :
    C.fingerprint t v = x.fingerprint := by
  unfold amends at h
  rw [hx, Option.any_some, htracked, Bool.true_and, Bool.or_eq_false_iff] at h
  simpa using (by simpa using h.2 : x.fingerprint = C.fingerprint t v).symm

/-- The amendment moves the marks, or it stamps the fingerprint that was there. -/
theorem stands_restampEntry (w : World α) (h : ∀ x, w.cell? t e = some x → K t →
    C.tracked t = false → C.fingerprint t v = x.fingerprint) :
    Stands K w (w.restampEntry C t e v) := by
  unfold restampEntry
  cases hx : w.cell? t e with
  | none => exact Stands.refl w
  | some x =>
    dsimp only
    split_ifs with hamends
    · exact .of_rebind (fun t' e' => cell?_amendEntry w t t' e e' _ _)
        (fun t' => storeWatermark_amendEntry w t t' e _ _) (Nat.le_succ _)
        (fun heq => absurd heq (Nat.succ_ne_self _)) (Or.inl (Nat.lt_succ_self _))
    · refine .of_rebind (fun t' e' => cell?_amendEntry w t t' e e' _ _)
        (fun t' => storeWatermark_amendEntry w t t' e _ _) le_rfl (fun _ => rfl)
        (Or.inr fun hK => ?_)
      rw [fingerprintOn, hx]
      cases htracked : C.tracked t with
      | true => exact fingerprint_of_not_amends hx htracked (by simpa using hamends)
      | false => exact h x hx hK htracked

theorem stands_writeInPlace (w : World α) (t : TypeId) (e : Entity) (v : Value α) :
    Stands K w (w.writeInPlace t e v) := by
  unfold writeInPlace
  cases hx : w.cell? t e with
  | none => exact Stands.refl w
  | some x =>
    refine .of_rebind (fun t' e' => cell?_amendEntry w t t' e e' _ _)
      (fun t' => storeWatermark_amendEntry w t t' e _ _) le_rfl (fun _ => rfl) (Or.inr fun _ => ?_)
    rw [fingerprintOn, hx]
    rfl

theorem stands_updateComponent (w : World α) (h : ∀ x, w.cell? t e = some x → K t →
    C.tracked t = false → C.fingerprint t v = x.fingerprint) :
    Stands K w (w.updateComponent C t e v) := by
  have hstamped := stands_restampEntry w h
  unfold updateComponent
  split_ifs
  · exact hstamped.congr rfl rfl rfl
  · exact hstamped

/-- Untracked rows of `K` written in place carry the fingerprints of what was written. -/
def Stamped (C : Components α) (K : TypeId → Prop) (writes : List (TypeId × Entity))
    (w : World α) : Prop :=
  ∀ p ∈ writes, K p.1 → C.tracked p.1 = false → ∀ x, w.cell? p.1 p.2 = some x →
    C.fingerprint p.1 x.value = x.fingerprint

theorem stamp_of_reconcileEntry (w : World α) {x : Entry α} {t' : TypeId} {e' : Entity}
    (hx : (w.reconcileEntry C t e).cell? t' e' = some x) :
    C.fingerprint t' x.value = x.fingerprint ∨ w.cell? t' e' = some x := by
  unfold reconcileEntry restampEntry at hx
  cases hy : w.cell? t e with
  | none =>
    rw [hy] at hx
    exact Or.inr hx
  | some y =>
    simp only [hy] at hx
    split_ifs at hx
    · change (w.amendEntry t e _ _).cell? t' e' = some x at hx
      rw [cell?_amendEntry] at hx
      split_ifs at hx with hsame
      · cases hx
        exact Or.inl (by rw [hsame.1])
      · exact Or.inr hx
    · rw [cell?_amendEntry] at hx
      split_ifs at hx with hsame
      · cases hx
        exact Or.inl (by rw [hsame.1])
      · exact Or.inr hx

theorem value_reconcileEntry (w : World α) (t t' : TypeId) (e e' : Entity) :
    ((w.reconcileEntry C t e).cell? t' e').map Entry.value = (w.cell? t' e').map Entry.value := by
  unfold reconcileEntry
  cases hx : w.cell? t e with
  | none => rfl
  | some x =>
    dsimp only
    rw [value_restampEntry]
    split_ifs with hsame
    · rw [hsame.1, hsame.2, hx]
      rfl
    · rfl

theorem stands_reconcileEntry (w : World α)
    (h : K t → C.tracked t = false → ∀ x, w.cell? t e = some x →
      C.fingerprint t x.value = x.fingerprint) : Stands K w (w.reconcileEntry C t e) := by
  unfold reconcileEntry
  cases hx : w.cell? t e with
  | none => exact Stands.refl w
  | some x =>
    refine stands_restampEntry w fun y hy hK htracked => ?_
    cases hx.symm.trans hy
    exact h hK htracked x hx

/-- Reconciling stamped rows changes no value, and a fingerprint only with the revision. -/
theorem stands_reconcileWritten {writes : List (TypeId × Entity)} (h : w.Stamped C K writes) :
    Stands K w (w.reconcileWritten C writes) ∧ ∀ t e,
      ((w.reconcileWritten C writes).cell? t e).map Entry.value = (w.cell? t e).map Entry.value := by
  have hrows : Stands K w (w.reconcileWritten C writes) ∧
      (∀ t e, ((w.reconcileWritten C writes).cell? t e).map Entry.value =
        (w.cell? t e).map Entry.value) ∧ (w.reconcileWritten C writes).Stamped C K writes := by
    refine List.foldlRecOn writes _ (motive := fun u : World α => Stands K w u ∧
      (∀ t e, (u.cell? t e).map Entry.value = (w.cell? t e).map Entry.value) ∧
        u.Stamped C K writes) ⟨Stands.refl w, fun _ _ => rfl, h⟩ fun u hu p hp => ?_
    obtain ⟨hstands, hvalues, hstamped⟩ := hu
    dsimp only
    split_ifs
    · have hentry := stands_reconcileEntry u (hstamped p hp)
      refine ⟨(hstands.trans hentry).congr rfl rfl rfl, fun t e => ?_, fun q hq hK htracked x hx => ?_⟩
      · exact (value_reconcileEntry u p.1 t p.2 e).trans (hvalues t e)
      · rcases stamp_of_reconcileEntry u hx with hstamp | hkept
        · exact hstamp
        · exact hstamped q hq hK htracked x hkept
    · exact ⟨hstands, hvalues, hstamped⟩
  exact ⟨hrows.1, hrows.2.1⟩

/-- A tracked change moves the watermark of its store. -/
theorem lt_storeWatermark_updateComponent (w : World α) (h : w.amends C t e v = true) :
    w.revision < (w.updateComponent C t e v).storeWatermark t := by
  have hstores : (w.updateComponent C t e v).stores = (w.restampEntry C t e v).stores := by
    unfold updateComponent
    split <;> rfl
  rw [storeWatermark, store_congr hstores]
  unfold restampEntry
  cases hx : w.cell? t e with
  | none =>
    rw [amends, hx] at h
    cases h
  | some x =>
    dsimp only
    rw [if_pos h]
    have hmark := storeWatermark_amendEntry w t t e
      ⟨x.cell, v, w.revision + 1, C.fingerprint t v, x.owner⟩ (w.revision + 1)
    rw [if_pos rfl] at hmark
    show w.revision < (w.amendEntry t e
      ⟨x.cell, v, w.revision + 1, C.fingerprint t v, x.owner⟩ (w.revision + 1)).storeWatermark t
    rw [hmark]
    exact lt_of_lt_of_le (Nat.lt_succ_self _) (le_max_right _ _)

/-- No amendment counts a mutation. -/
theorem mutations_apply {op : WorldOp α} (hop : op.amending = true) (h : w.apply C op = some w') :
    w'.mutations = w.mutations := by
  cases op with
  | update t e v =>
    cases h
    have hstamped := restampEntry_mutations (C := C) w t e v
    unfold updateComponent
    split_ifs
    · exact hstamped
    · exact hstamped
  | writeInPlace t e v =>
    cases h
    unfold writeInPlace
    split <;> rfl
  | reconcileWritten writes =>
    cases h
    refine List.foldlRecOn writes _ (motive := fun u : World α => u.mutations = w.mutations) rfl
      fun u hu p _ => ?_
    have hentry : (u.reconcileEntry C p.1 p.2).mutations = u.mutations := by
      unfold reconcileEntry
      split
      · rfl
      · exact restampEntry_mutations u p.1 p.2 _
    dsimp only
    split_ifs
    · exact hentry.trans hu
    · exact hu
  | _ => cases hop

end Amendments

section Counters

/-- No use takes an id back. -/
theorem nextEntity_le {op : WorldOp α} (h : w.apply C op = some w') :
    w.nextEntity ≤ w'.nextEntity := by
  cases hd : op.uncommitted with
  | true => exact (trims_apply hd h).next
  | false =>
    cases op with
    | output o deferInserts =>
      obtain ⟨applied, happlied, hsteady, -⟩ := exists_applied h
      have hcommands := (steady_applyCommands happlied).next
      rw [hsteady.next, hcommands]
      exact le_rfl
    | commands o commands => exact (steady_applyCommands h).next.ge
    | _ => cases hd

theorem nextEntity_retireOwners : ∀ (owners : List SystemInvocation) (w : World α),
    (w.retireOwners C owners).1.nextEntity = w.nextEntity
  | [], _ => rfl
  | o :: owners, w => (nextEntity_retireOwners owners _).trans
      (sameBuffers_removeDerivedEntries (w.forgetOwner o) o (w.outputs o)).next

/-- Ids are handed out to empty entities and to fresh singletons only. -/
theorem nextEntity_eq {op : WorldOp α} (hop : op.allocates w = false)
    (h : w.apply C op = some w') : w'.nextEntity = w.nextEntity := by
  cases op with
  | base c =>
    cases c with
    | insert t e v => exact (steady_insert h).next
    | removeComponent t e =>
      cases h
      exact (sameBuffers_removeComponent w t e none).next
    | despawn e =>
      cases h
      exact (sameBuffers_removeEntity w e).next
  | flush => exact (steady_flushDerivedFrom h).next
  | output o deferInserts =>
    obtain ⟨applied, happlied, hsteady, -⟩ := exists_applied h
    exact hsteady.next.trans (steady_applyCommands happlied).next
  | commands o commands => exact (steady_applyCommands h).next
  | update t e v =>
    cases h
    have hstamp := (sameBuffers_restampEntry (C := C) w t e v).next
    unfold updateComponent
    split_ifs
    · exact hstamp
    · exact hstamp
  | writeInPlace t e v =>
    cases h
    unfold writeInPlace
    split <;> rfl
  | reconcileWritten writes =>
    cases h
    exact (sameBuffers_reconcileWritten w writes).next
  | retireTouched keys systems =>
    cases h
    exact nextEntity_retireOwners _ w
  | retireOwner o =>
    cases h
    exact (sameBuffers_removeDerivedEntries (w.forgetOwner o) o (w.outputs o)).next
  | drainRemovals =>
    cases h
    rfl
  | rollPlanEpoch =>
    cases h
    unfold maybeRollPlanEpoch
    split_ifs <;> rfl
  | spawnEmpty => cases hop
  | reserveSingleton key =>
    cases h
    unfold singletonEntityOrSpawn
    cases hlookup : w.singletonEntities.lookup key with
    | some existing => rfl
    | none => simp [WorldOp.allocates, registry, hlookup] at hop

theorem revision_le {op : WorldOp α} (hw : w.Coherent) (h : w.apply C op = some w') :
    w.revision ≤ w'.revision :=
  ((Follows.refl w).later hw (.of_apply op h)).2.revision

/-- While the revision stands, so does the count of mutations. -/
theorem mutations_eq {op : WorldOp α} (h : w.apply C op = some w')
    (hr : w'.revision = w.revision) : w'.mutations = w.mutations := by
  cases hop : op.amending with
  | true => exact mutations_apply hop h
  | false => exact (stands_apply (K := fun _ => False) hop h).mutations hr

/-- The worlds on both sides of a use at one revision show the same revisions and watermarks. -/
theorem sameStore_apply {op : WorldOp α} (hw : w.Coherent) (h : w.apply C op = some w')
    (hr : w'.revision = w.revision) (t : TypeId) :
    w'.storeWatermark t = w.storeWatermark t ∧ SameStore C t w w' := by
  obtain ⟨hcoherent, hfollows⟩ := (Follows.refl w).later hw (.of_apply op h)
  refine (hfollows.stores t).resolve_left fun hlt => ?_
  exact absurd hlt (not_lt.mpr (hr ▸ hcoherent.watermarks t))

/-- At one revision, no watermark moves, so the fingerprints are the same. -/
theorem Stands.fingerprints_eq (h : Stands K w w') (hw' : w'.Coherent)
    (hr : w'.revision = w.revision) {t : TypeId} (ht : K t) (e : Entity) :
    w'.fingerprintOn t e = w.fingerprintOn t e := by
  refine ((h.fingerprints t ht).resolve_left fun hlt => ?_) e
  exact absurd hlt (not_lt.mpr (hr ▸ hw'.watermarks t))

end Counters
end World
end Porridge
