import Porridge.World.Watermarks

/-! An entry that was absent once comes back under a revision that was not there before. -/
namespace Porridge.World

variable {α : Type} (C : Components α)

/-- `w` comes after `w₀`, and what it shows of `t` on `e` is newer than anything in `w₀`. -/
structure Rebound (w₀ : World α) (t : TypeId) (e : Entity) (w : World α) : Prop where
  coherent : w.Coherent
  follows : Follows C w₀ w
  entry : ∀ x, w.cell? t e = some x → w₀.revision < x.revision

variable {C} {w₀ w w' : World α} {t : TypeId} {e : Entity}

theorem Rebound.congr (h : Rebound C w₀ t e w) (hs : w'.stores = w.stores)
    (hr : w'.revision = w.revision) : Rebound C w₀ t e w' where
  coherent := h.coherent.congr hs hr
  follows := h.follows.congr hs hr
  entry := by
    rw [cell?_congr hs]
    exact h.entry

theorem Rebound.of_absent (hw : w.Coherent) (hfollows : Follows C w₀ w)
    (habsent : w.has t e = false) : Rebound C w₀ t e w where
  coherent := hw
  follows := hfollows
  entry x hx := by
    have hhas : w.has t e = true := (has_iff w t e).mpr ⟨x, hx⟩
    rw [habsent] at hhas
    cases hhas

/-- An entry that is put there has the newest revision, or the one that was there. -/
theorem Rebound.entry_put (h : Rebound C w₀ t e w) {t' : TypeId} {e' : Entity} {y : Entry α}
    (hcell : ∀ t₁ e₁, w'.cell? t₁ e₁ = if t₁ = t' ∧ e₁ = e' then some y else w.cell? t₁ e₁)
    (hy : y.revision = w.revision + 1 ∨ w.revisionByType t' e' = some y.revision) :
    ∀ x, w'.cell? t e = some x → w₀.revision < x.revision := by
  intro x hx
  rw [hcell] at hx
  split_ifs at hx with hsame
  · cases hx
    have hpassed : w₀.revision ≤ w.revision := h.follows.revision
    rcases hy with hnew | hkept
    · exact hnew ▸ Nat.lt_succ_of_le hpassed
    · obtain ⟨z, hz, heq⟩ := Option.map_eq_some_iff.mp hkept
      rw [← hsame.1, ← hsame.2] at hz
      exact heq ▸ h.entry z hz
  · exact h.entry x hx

/-- Every store effect keeps an entry newer. -/
theorem closed_rebound : Closed C
    (fun w w' : World α => Rebound C w₀ t e w → Rebound C w₀ t e w') Permits.all where
  refl _ := id
  trans hab hbc := hbc ∘ hab
  bookkeeping hb _ h := h.congr hb.stores hb.revision
  write w t' e' v o ho h := by
    have hkept := (closed_follows w₀).write w t' e' v o ho ⟨h.coherent, h.follows⟩
    refine ⟨hkept.1, hkept.2, h.entry_put (fun t₁ e₁ => cell?_writeEntry C w t' t₁ e' e₁ v o) ?_⟩
    cases hk : w.keptRevision C t' e' v with
    | none => exact Or.inl rfl
    | some kept => exact Or.inr (of_keptRevision hk).1
  drop w t' e' remover hd h := by
    have hkept := (closed_follows w₀).drop w t' e' remover hd ⟨h.coherent, h.follows⟩
    refine ⟨hkept.1, hkept.2, fun x hx => ?_⟩
    rw [cell?_dropEntry] at hx
    split_ifs at hx
    exact h.entry x hx
  sweep w t' e' o ho h := by
    have hkept := (closed_follows (C := C) w₀).sweep w t' e' o ho ⟨h.coherent, h.follows⟩
    refine ⟨hkept.1, hkept.2, fun x hx => ?_⟩
    rw [cell?_sweepEntry] at hx
    split_ifs at hx
    exact h.entry x hx
  purge w e' he h := by
    have hkept := (closed_follows (C := C) w₀).purge w e' he ⟨h.coherent, h.follows⟩
    refine ⟨hkept.1, hkept.2, fun x hx => ?_⟩
    rw [cell?_purgeEntity] at hx
    split_ifs at hx
    exact h.entry x hx
  inverse _ _ _ _ := trivial

theorem Rebound.restampEntry (h : Rebound C w₀ t e w) (t' : TypeId) (e' : Entity) (v : Value α) :
    Rebound C w₀ t e (w.restampEntry C t' e' v) := by
  refine ⟨h.coherent.restampEntry t' e' v, h.follows.restampEntry t' e' v, ?_⟩
  unfold World.restampEntry
  cases hx : w.cell? t' e' with
  | none => exact h.entry
  | some x =>
    dsimp only
    split_ifs
    · exact h.entry_put (fun t₁ e₁ => cell?_amendEntry w t' t₁ e' e₁ _ _) (Or.inl rfl)
    · refine h.entry_put (fun t₁ e₁ => cell?_amendEntry w t' t₁ e' e₁ _ _) (Or.inr ?_)
      rw [revisionByType, hx]
      rfl

theorem Rebound.writeInPlace (h : Rebound C w₀ t e w) (t' : TypeId) (e' : Entity) (v : Value α) :
    Rebound C w₀ t e (w.writeInPlace t' e' v) := by
  refine ⟨h.coherent.writeInPlace t' e' v, h.follows.writeInPlace t' e' v, ?_⟩
  unfold World.writeInPlace
  cases hx : w.cell? t' e' with
  | none => exact h.entry
  | some x =>
    refine h.entry_put (fun t₁ e₁ => cell?_amendEntry w t' t₁ e' e₁ _ _) (Or.inr ?_)
    rw [revisionByType, hx]
    rfl

/-- Once newer, the entry stays newer for the rest of the run. -/
theorem Rebound.later (h : Rebound C w₀ t e w) (hlater : Later C w w') : Rebound C w₀ t e w' :=
  hlater.invariant h fun _ _ _ hstep => apply_of_closed C closed_rebound
    (fun _ _ hs hr _ h => h.congr hs hr) (fun _ t' e' v h => h.restampEntry t' e' v)
    (fun _ t' e' v h => h.writeInPlace t' e' v) hstep

/-- The revision that was there is gone for good. -/
theorem Rebound.revision_ne (h : Rebound C w₀ t e w) (hw₀ : w₀.Coherent) {r : Revision}
    (hr : w₀.revisionByType t e = some r) : w.revisionByType t e ≠ some r := by
  intro hsame
  obtain ⟨x, hx, rfl⟩ := Option.map_eq_some_iff.mp hr
  obtain ⟨y, hy, heq⟩ := Option.map_eq_some_iff.mp hsame
  have hnewer : w₀.revision < y.revision := h.entry y hy
  have hold := (hw₀.entries t e x hx).trans (hw₀.watermarks t)
  exact absurd hnewer (not_lt.mpr (heq ▸ hold))

theorem Rebound.removeEntity (hw : w.Coherent) (hfollows : Follows C w₀ w) (t : TypeId)
    (e : Entity) : Rebound C w₀ t e (w.removeEntity C e) := by
  have hpurged := (closed_follows (C := C) w₀).purge w e trivial ⟨hw, hfollows⟩
  have habsent : (w.purgeEntity e).has t e = false := by
    rw [has, cell?_purgeEntity, if_pos rfl]
    rfl
  exact (closed_rebound (C := C)).unlinkEntity w e (.of_absent hpurged.1 hpurged.2 habsent)

theorem Rebound.removeComponent (hw : w.Coherent) (hfollows : Follows C w₀ w) (t : TypeId)
    (e : Entity) (remover : Option SystemInvocation) :
    Rebound C w₀ t e (w.removeComponent C t e remover) := by
  have hdropped := (closed_follows (C := C) w₀).drop w t e remover (fun _ _ => trivial) ⟨hw, hfollows⟩
  have habsent : (w.dropEntry C t e remover).has t e = false := by
    rw [has, cell?_dropEntry, if_pos ⟨rfl, rfl⟩]
    rfl
  exact (closed_rebound (C := C)).retractEdge _ e Closed.role_edgeOn
    (.of_absent hdropped.1 hdropped.2 habsent)

end Porridge.World
