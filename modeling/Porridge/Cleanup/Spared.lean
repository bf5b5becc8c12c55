import Porridge.Cleanup.Losses
import Porridge.Query.Agreement

/-! The plans that closing entities leaves alone: no row that may remain reads an entry that goes
or changes with them. -/
namespace Porridge

open World

variable {α : Type} (C : Components α)

namespace World

/-- The entity may have a row of the query once the roots are closed. -/
structure Remains (w : World α) (roots : List Entity) (q : QueryParam) (f : QueryFilter)
    (e : Entity) : Prop where
  demanded : ∀ t ∈ q.demandedTypes f, w.has t e = true ∧ ¬ w.Doomed C roots t e
  absent : ∀ t ∈ f.absentTypes, w.has t e = true → w.Affected C roots t e

/-- What a row on the entity reads is unaffected, or it is a plain component without which there is
no row. -/
structure SparesRow (w : World α) (roots : List Entity) (q : QueryParam) (f : QueryFilter)
    (e : Entity) : Prop where
  own : ∀ t ∈ q.decisiveTypes f, w.Affected C roots t e →
    t ∈ q.demandedTypes f ∧ ¬ C.IsInverse t
  members : ∀ inverse reads, .related inverse reads ∈ q.parts → ∀ m ∈ w.membersOn inverse e,
    ∀ read ∈ reads, ¬ w.Affected C roots read.component m

def SparesStore (w : World α) (roots : List Entity) (t : TypeId) : Prop :=
  ∀ e, ¬ w.Affected C roots t e

/-- The states of the parameter that may remain read nothing that closing the roots affects. -/
def Spares (w : World α) (roots : List Entity) : SystemParam → Prop
  | .query q f => ∀ e, w.Remains C roots q f e → w.SparesRow C roots q f e
  -- an absent row depends on whole stores
  | .outer q f => ∀ t ∈ (SystemParam.outer q f).readTypes ++ (SystemParam.outer q f).watchedTypes,
      w.SparesStore C roots t
  | .trackedView q f => ∀ t ∈ trackedViewTypes q f, w.SparesStore C roots t
  | _ => True

variable {C} {w v : World α} {roots : List Entity}

/-- Every world that closing the roots may leave agrees on what the parameter reads there. -/
theorem TornFrom.follows (htorn : TornFrom C w v roots (w.Doomed C roots)) (hw : w.IndicesExact)
    (hv : v.IndicesExact) {p : SystemParam} (h : w.Spares C roots p) : p.Follows v w := by
  have hstore : ∀ t, w.SparesStore C roots t → ∀ e, v.cell? t e = w.cell? t e := fun t ht e =>
    (htorn.cell t e).resolve_right (ht e)
  cases p with
  | query q f =>
    intro e hbound
    have hremains : w.Remains C roots q f e := by
      refine ⟨fun t ht => ⟨htorn.has t e (hbound.demanded t ht), fun hdoomed => ?_⟩, fun t ht hhas => ?_⟩
      · have hthere := hbound.demanded t ht
        rw [World.has, htorn.gone t e hdoomed] at hthere
        cases hthere
      · refine (htorn.cell t e).resolve_left fun hsame => ?_
        have hgone := hbound.absent t ht
        rw [World.has, hsame, ← World.has, hhas] at hgone
        cases hgone
    have hspared := h e hremains
    constructor
    · intro t ht
      by_cases haffected : w.Affected C roots t e
      · obtain ⟨hdemanded, hplain⟩ := hspared.own t ht haffected
        refine (htorn.plain t e hplain).resolve_right fun hnone => ?_
        have hthere := hbound.demanded t hdemanded
        rw [World.has, hnone] at hthere
        cases hthere
      · exact (htorn.cell t e).resolve_right haffected
    · intro inverse reads hpart m hm t ht
      obtain ⟨read, hread, rfl⟩ := List.mem_map.mp ht
      exact (htorn.cell _ m).resolve_right (hspared.members inverse reads hpart m hm read hread)
  | outer q f =>
    have hread : ∀ t ∈ (SystemParam.outer q f).readTypes, w.SparesStore C roots t := fun t ht =>
      h t (List.mem_append_left _ ht)
    have hfingerprints : ∀ t, w.SparesStore C roots t → ∀ e,
        v.fingerprintOn t e = w.fingerprintOn t e := fun t ht e => by
      rw [World.fingerprintOn, World.fingerprintOn, hstore t ht]
    let σ : Scope := ⟨w.SparesStore C roots, w.SparesStore C roots, w.SparesStore C roots, True⟩
    have hview : SameView σ w v :=
      { allocated := fun _ => htorn.allocated
        has := fun t ht e => by rw [World.has, World.has, hstore t ht]
        fingerprints := hfingerprints
        buckets := fun t ht => hw.buckets hv (hfingerprints t ht)
        members := fun t ht e => by rw [hstore t ht] }
    refine ⟨σ, hview, ⟨hread, fun t ht => ?_, fun t ht => ?_, fun _ => trivial⟩, ?_, ?_⟩
    · exact hread t (List.mem_append_right _ (QueryFilter.boundKeyTypes_subset ht))
    · exact hread t (List.mem_append_left _ (QueryParam.read_of_related ht))
    · intro t ht e
      rw [World.revisionByType, World.revisionByType, hstore t ht]
    · exact fun t ht => htorn.watermark t (h t (List.mem_append_right _ ht))
  | trackedView q f => exact fun t ht => htorn.watermark t (h t ht)
  | _ => trivial

end World
end Porridge
