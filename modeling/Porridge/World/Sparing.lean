import Porridge.World.Anchors

/-! The effects that leave the revision of an entity what it was. -/
namespace Porridge

variable {α : Type} (C : Components α)

namespace Effect

/-- None of the effects changes the revision of the row. -/
def Untouching (t : TypeId) (e : Entity) : World α → List (Effect α) → Prop
  | _, [] => True
  | w, i :: labels => (i.take C w).revisionByType t e = w.revisionByType t e ∧
      Untouching t e (i.take C w) labels

/-- If effects change the revision of the row, the last of them removes it. -/
def Passing (t : TypeId) (e : Entity) : World α → List (Effect α) → Prop
  | _, [] => True
  | w, i :: labels => Passing t e (i.take C w) labels ∧
      ((i.take C w).revisionByType t e ≠ w.revisionByType t e →
        Untouching C t e (i.take C w) labels → (i.take C w).has t e = false)

/-- The newest tracked component of the entity is left alone, and no other that is stamped stays. -/
structure Sparing (e : Entity) (w : World α) (labels : List (Effect α)) : Prop where
  newest : ∃ t r, C.tracked t = true ∧ w.entityRevision C e = some r ∧
    w.revisionByType t e = some r ∧ Untouching C t e w labels
  others : ∀ t, C.tracked t = true → Passing C t e w labels

variable {C} {t : TypeId} {e : Entity} {pending : List (TypeId × Entity)}

theorem Untouching.revision : ∀ {labels : List (Effect α)} {w : World α},
    Untouching C t e w labels →
      (labels.foldl (take C) w).revisionByType t e = w.revisionByType t e
  | [], _, _ => rfl
  | _ :: _, _, h => h.2.revision.trans h.1

/-- A row passes when it is left alone or gone in the end. -/
theorem passing_iff : ∀ (labels : List (Effect α)) (w : World α), Passing C t e w labels ↔
    Untouching C t e w labels ∨ (labels.foldl (take C) w).has t e = false
  | [], w => by simp [Passing, Untouching]
  | i :: labels, w => by
    have ih := passing_iff labels (i.take C w)
    have hgone : Untouching C t e (i.take C w) labels →
        (labels.foldl (take C) (i.take C w)).has t e = (i.take C w).has t e := by
      intro huntouched
      have hrevision := huntouched.revision
      rw [Bool.eq_iff_iff, World.has_iff, World.has_iff]
      unfold World.revisionByType at hrevision
      cases hx : (labels.foldl (take C) (i.take C w)).cell? t e with
      | none =>
        rw [hx, Option.map_none, eq_comm, Option.map_eq_none_iff] at hrevision
        rw [hrevision]
      | some x =>
        rw [hx, Option.map_some, eq_comm, Option.map_eq_some_iff] at hrevision
        obtain ⟨y, hy, -⟩ := hrevision
        rw [hy]
        simp
    rw [Passing, ih, Untouching, List.foldl_cons]
    constructor
    · rintro ⟨huntouched | hgone', hlast⟩
      · by_cases hchanged : (i.take C w).revisionByType t e = w.revisionByType t e
        · exact Or.inl ⟨hchanged, huntouched⟩
        · exact Or.inr ((hgone huntouched).trans (hlast hchanged huntouched))
      · exact Or.inr hgone'
    · rintro (⟨hkept, huntouched⟩ | hgone')
      · exact ⟨Or.inl huntouched, fun hchanged => absurd hkept hchanged⟩
      · exact ⟨Or.inr hgone', fun _ huntouched => (hgone huntouched).symm.trans hgone'⟩

end Effect

namespace World

variable {C} {w w' : World α} {t : TypeId} {e : Entity} {r : Revision}
  {pending : List (TypeId × Entity)}

/-- The revision of an entity is that of a tracked component, and bounds the others. -/
theorem entityRevision_eq_some_iff (w : World α) (e : Entity) (r : Revision) :
    w.entityRevision C e = some r ↔
      (∃ t, C.tracked t = true ∧ w.revisionByType t e = some r) ∧
        ∀ t b, C.tracked t = true → w.revisionByType t e = some b → b ≤ r := by
  constructor
  · intro h
    exact ⟨exists_of_entityRevision h, fun _ _ ht hb => le_entityRevision h ht hb⟩
  · rintro ⟨⟨t, ht, hr⟩, hle⟩
    refine List.max?_eq_some_iff.mpr ⟨(mem_entityRevisions C w e r).mpr ⟨t, ht, hr⟩, fun b hb => ?_⟩
    obtain ⟨t', ht', hb⟩ := (mem_entityRevisions C w e b).mp hb
    exact hle t' b ht' hb

/-- A row that ends with a revision from before the effects was left alone by them. -/
theorem Identified.untouching : ∀ {labels : List (Effect α)} {w : World α}
    {pending : List (TypeId × Entity)}, Identified C pending w w → r ≤ w.revision →
      (labels.foldl (Effect.take C) w).revisionByType t e = some r →
        Effect.Untouching C t e w labels ∧ w.revisionByType t e = some r
  | [], _, _, _, _, hr => ⟨trivial, hr⟩
  | i :: labels, w, pending, h, hle, hr => by
    have hstep : Identified C (i.waiting pending) w (i.take C w) :=
      Writing.identified_effect (s := ⟨w, pending⟩) h rfl
    obtain ⟨huntouched, hmiddle⟩ := hstep.restart.untouching (hle.trans hstep.revision) hr
    obtain ⟨x, hx, rfl⟩ := Option.map_eq_some_iff.mp hmiddle
    obtain ⟨y, hy, hrevision, -⟩ := hstep.old t e x hx hle
    have hkept : w.revisionByType t e = some x.revision := by
      rw [revisionByType, hy, Option.map_some, hrevision]
    exact ⟨⟨hmiddle.trans hkept.symm, huntouched⟩, hkept⟩

theorem Identified.entityRevision_le (h : Identified C pending w w)
    (hr : w.entityRevision C e = some r) : r ≤ w.revision := by
  obtain ⟨t, -, hstored⟩ := exists_of_entityRevision hr
  obtain ⟨x, hx, rfl⟩ := Option.map_eq_some_iff.mp hstored
  exact (h.coherent.entries t e x hx).trans (h.coherent.watermarks t)

/-- The entity keeps its revision through the effects exactly when they spare it. -/
theorem Identified.sparing_iff (h : Identified C pending w w) (labels : List (Effect α)) :
    Effect.Sparing C e w labels ↔ (w.entityRevision C e).isSome = true ∧
      w.entityRevision C e = (labels.foldl (Effect.take C) w).entityRevision C e := by
  constructor
  · rintro ⟨⟨t, r, ht, hr, hnewest, huntouched⟩, hothers⟩
    refine ⟨by simp [hr], ?_⟩
    rw [hr, eq_comm, entityRevision_eq_some_iff]
    refine ⟨⟨t, ht, huntouched.revision.trans hnewest⟩, fun t' b ht' hb => ?_⟩
    rcases (Effect.passing_iff labels w).mp (hothers t' ht') with hkept | hgone
    · exact le_entityRevision hr ht' (hkept.revision ▸ hb)
    · obtain ⟨x, hx, -⟩ := Option.map_eq_some_iff.mp hb
      have hhas := (has_iff _ t' e).mpr ⟨x, hx⟩
      rw [hgone] at hhas
      cases hhas
  · rintro ⟨hsome, heq⟩
    obtain ⟨r, hr⟩ := Option.isSome_iff_exists.mp hsome
    have hbelow : r ≤ w.revision := h.entityRevision_le hr
    have hend := heq.symm.trans hr
    obtain ⟨t, ht, hnewest⟩ := exists_of_entityRevision hend
    obtain ⟨huntouched, hstored⟩ := h.untouching hbelow hnewest
    refine ⟨⟨t, r, ht, hr, hstored, huntouched⟩, fun t' ht' => (Effect.passing_iff labels w).mpr ?_⟩
    cases hb : (labels.foldl (Effect.take C) w).revisionByType t' e with
    | none =>
      refine Or.inr (Bool.eq_false_iff.mpr fun hhas => ?_)
      obtain ⟨x, hx⟩ := (has_iff _ t' e).mp hhas
      rw [revisionByType, hx] at hb
      cases hb
    | some b =>
      have hb' : b ≤ r := le_entityRevision hend ht' hb
      exact Or.inl (h.untouching (hb'.trans hbelow) hb).1

/-- What was captured is current exactly when the effects since spare every anchor. -/
theorem Identified.current_iff (h : Identified C pending w w) (labels : List (Effect α))
    (anchors : List DerivedAnchor) :
    isCurrentRevision (w.captured C anchors)
        ((labels.foldl (Effect.take C) w).entityRevision C) = true ↔
      anchors ≠ [] ∧ ∀ a ∈ anchors, Effect.Sparing C a.entity w labels := by
  have hanchor : ∀ a ∈ anchors, Effect.Sparing C a.entity w labels ↔
      ((w.entityRevision C a.entity).isSome && w.entityRevision C a.entity ==
        (labels.foldl (Effect.take C) w).entityRevision C a.entity) = true := by
    intro a _
    rw [h.sparing_iff, Bool.and_eq_true, beq_iff_eq]
  unfold isCurrentRevision captured
  rw [Bool.and_eq_true, List.all_map, List.all_eq_true, List.isEmpty_map, Bool.not_eq_true',
    List.isEmpty_eq_false_iff]
  refine and_congr_right fun _ => forall₂_congr fun a ha => (hanchor a ha).symm

end World
end Porridge
