import Porridge.Query.Extent
import Porridge.World.Allocation

/-! Enumerating the rows of a query and narrowing a candidate list: where the two agree. -/
namespace Porridge

variable {α : Type} {C : Components α} {w : World α} {schema : Option (List TypeId)}

section Ascending

abbrev Ascending (entities : List Entity) : Prop := entities.Pairwise (· < ·)

theorem Ascending.eq_of_mem_iff {a b : List Entity} (ha : Ascending a) (hb : Ascending b)
    (h : ∀ e, e ∈ a ↔ e ∈ b) : a = b :=
  List.Pairwise.eq_of_mem_iff ha hb h

theorem ascending_entitiesWith (w : World α) (t : TypeId) : Ascending (w.entitiesWith t) := by
  have hsorted : (w.entitiesWith t).Pairwise (· ≤ ·) := List.pairwise_insertionSort _ _
  have hnodup : (w.entitiesWith t).Pairwise (· ≠ ·) := w.nodup_entitiesWith t
  exact (hsorted.and hnodup).imp fun h => lt_of_le_of_ne h.1 h.2

theorem ascending_denseIds (w : World α) : Ascending w.denseIds := List.pairwise_lt_range

theorem ascending_facetRows (w : World α) (h : Facet) : Ascending (facetRows w h) := by
  unfold facetRows
  dsimp only
  split_ifs
  · exact ascending_denseIds w
  · split
    · exact List.pairwise_lt_range.filter _
    · split
      · exact List.Pairwise.nil
      · exact (ascending_entitiesWith w _).filter _

theorem QueryPart.ascending_candidates (part : QueryPart) : Ascending (part.candidates w) := by
  cases part with
  | read t => exact ascending_entitiesWith w t
  | optional _ => exact ascending_denseIds w
  | tracked _ h => exact ascending_facetRows w h
  | mutRef t => exact ascending_entitiesWith w t
  | related _ _ => exact ascending_denseIds w

theorem QueryParam.ascending_retainMatchingParts (parts : List QueryPart) {candidates : List Entity}
    (h : Ascending candidates) : Ascending (retainMatchingParts w parts candidates) := by
  unfold retainMatchingParts
  split
  · exact h.filter _
  · exact h.filter _

theorem QueryParam.ascending_rows (q : QueryParam) : Ascending (q.rows w) := by
  cases q with
  | entity h => exact ascending_facetRows w h
  | read t => exact ascending_entitiesWith w t
  | mutRef t => exact ascending_entitiesWith w t
  | entityParts h parts =>
    have hfacet := ascending_facetRows w h
    unfold rows
    dsimp only
    split_ifs
    · exact ascending_retainMatchingParts parts hfacet
    · exact hfacet
    · refine ascending_retainMatchingParts parts ?_
      split
      · exact List.Pairwise.nil
      · exact QueryPart.ascending_candidates _
    · split
      · exact List.Pairwise.nil
      · exact QueryPart.ascending_candidates _

theorem ascending_conjunctCandidates {l r : Option (List Entity)} (hl : ∀ c ∈ l, Ascending c)
    (hr : ∀ c ∈ r, Ascending c) : ∀ c ∈ conjunctCandidates l r, Ascending c := by
  intro c hc
  cases l with
  | none => exact hr c (by cases r <;> exact hc)
  | some left =>
    have hleft := hl left rfl
    cases r with
    | none =>
      cases hc
      exact hleft
    | some right =>
      cases hc
      exact hleft.filter _

theorem JoinKey.ascending_entityCandidates (w : World α) : ∀ k : JoinKey,
    ∀ c ∈ k.entityCandidates w, Ascending c
  | .eq t, c, hc => by
    cases hc
    exact ascending_entitiesWith w t
  | .inMembers _, _, hc => nomatch hc
  | .and l r, c, hc => ascending_conjunctCandidates (ascending_entityCandidates w l)
      (ascending_entityCandidates w r) c hc

theorem QueryFilter.ascending_entityCandidates (w : World α) : ∀ f : QueryFilter,
    ∀ c ∈ f.entityCandidates w, Ascending c
  | .unit, _, hc => nomatch hc
  | .withComponent t, c, hc => by
    cases hc
    exact ascending_entitiesWith w t
  | .withoutComponent _, _, hc => nomatch hc
  | .whereKey k, c, hc => k.ascending_entityCandidates w c hc
  | .and l r, c, hc => ascending_conjunctCandidates (ascending_entityCandidates w l)
      (ascending_entityCandidates w r) c hc

theorem ascending_filteredRows (hp : w.Present schema) (q : QueryParam) (f : QueryFilter) :
    Ascending (filteredRows w q f) := by
  unfold filteredRows
  refine List.Pairwise.filter _ ?_
  cases hc : f.entityCandidates w with
  | none =>
    have hrows : q.rowsHinted w none = q.rows w := by cases q <;> rfl
    rw [hrows]
    exact q.ascending_rows
  | some candidates =>
    rw [q.rowsHinted_some hp]
    exact (f.ascending_entityCandidates w candidates hc).filter _

end Ascending

namespace QueryParam

/-- The shapes a query can have: an entity tuple has a part. -/
def Declared : QueryParam → Prop
  | .entityParts _ parts => parts ≠ []
  | _ => True

/-- The components that enumeration asks of a row and that candidates are not asked for: the facet
of a bare handle, and that of a `Tracked` part which drives. -/
def unchecked : QueryParam → List TypeId
  | .entity h => h.required
  | .entityParts h parts =>
    if (QueryParam.entityParts h parts).requiredTypes = [] then
      match parts.head? with
      | some (.tracked _ facet) => facet.required
      | _ => []
    else []
  | _ => []

theorem mem_facet_extent {h : Facet} {e : Entity} (he : e < w.nextEntity) :
    h.extent.Mem w e ↔ ∀ t ∈ h.required, w.has t e = true := by
  unfold Facet.extent
  split_ifs with hnone
  · rw [hnone]
    exact iff_of_true he (List.forall_mem_nil _)
  · exact Iff.rfl

/-- An allocated entity is a row if candidates accept it and it carries what they leave out. -/
theorem mem_rows_iff (hp : w.Present schema) {q : QueryParam} (hq : q.Declared) {e : Entity}
    (he : e < w.nextEntity) :
    e ∈ q.rows w ↔ q.accepts w e = true ∧ ∀ t ∈ q.unchecked, w.has t e = true := by
  rw [q.mem_rows_extent hp, accepts_iff]
  cases q with
  | entity h =>
    refine (mem_facet_extent he).trans (and_iff_right ?_).symm
    exact List.forall_mem_nil _
  | read t => exact (and_iff_left (List.forall_mem_nil _)).symm
  | mutRef t => exact (and_iff_left (List.forall_mem_nil _)).symm
  | entityParts h parts =>
    by_cases hrequired : (QueryParam.entityParts h parts).requiredTypes = []
    · have haccepts : ∀ t ∈ (QueryParam.entityParts h parts).requiredTypes, w.has t e = true := by
        rw [hrequired]
        exact List.forall_mem_nil _
      rw [and_iff_right haccepts]
      unfold extent unchecked
      rw [if_neg Bool.false_ne_true]
      dsimp only
      rw [if_neg (not_not.mpr hrequired), if_pos hrequired]
      obtain ⟨part, rest, rfl⟩ := List.exists_cons_of_ne_nil hq
      cases part with
      | tracked _ facet => exact mem_facet_extent he
      | _ => exact iff_of_true he (List.forall_mem_nil _)
    · have hnone : (QueryParam.entityParts h parts).unchecked = [] := if_neg hrequired
      have hextent : (QueryParam.entityParts h parts).extent false =
          .carriers (QueryParam.entityParts h parts).requiredTypes := by
        unfold extent
        rw [if_neg Bool.false_ne_true]
        exact if_pos hrequired
      rw [hnone, hextent]
      exact (and_iff_left (List.forall_mem_nil _)).symm

/-- A shape with something unchecked accepts every candidate. -/
theorem accepts_of_unchecked {q : QueryParam} (h : q.unchecked ≠ []) (e : Entity) :
    q.accepts w e = true := by
  refine accepts_iff.mpr ?_
  cases q with
  | entity _ => exact List.forall_mem_nil _
  | read _ => exact absurd rfl h
  | mutRef _ => exact absurd rfl h
  | entityParts facet parts =>
    have hrequired : (QueryParam.entityParts facet parts).requiredTypes = [] := by
      by_contra hne
      exact h (if_neg hne)
    rw [hrequired]
    exact List.forall_mem_nil _

/-- Narrowed to allocated candidates, a shape yields its own rows among them if and only if every
candidate it accepts carries what is left unchecked. -/
theorem rowsHinted_eq_iff (hp : w.Present schema) {q : QueryParam} (hq : q.Declared)
    {candidates : List Entity} (hc : ∀ e ∈ candidates, e < w.nextEntity) :
    q.rowsHinted w (some candidates) = candidates.filter (· ∈ q.rows w) ↔
      ∀ e ∈ candidates, ∀ t ∈ q.unchecked, w.has t e = true := by
  have hsame : q.rowsHinted w (some candidates) = candidates.filter (· ∈ q.rows w) ↔
      ∀ e ∈ candidates, q.accepts w e = true → ∀ t ∈ q.unchecked, w.has t e = true := by
    rw [q.rowsHinted_some hp]
    constructor
    · intro heq e he haccepts
      have hmem : e ∈ candidates.filter (· ∈ q.rows w) := heq ▸ List.mem_filter.mpr ⟨he, haccepts⟩
      have hrow : e ∈ q.rows w := of_decide_eq_true (List.mem_filter.mp hmem).2
      exact ((mem_rows_iff hp hq (hc e he)).mp hrow).2
    · intro h
      refine List.filter_congr fun e he => ?_
      have hrow := mem_rows_iff hp hq (hc e he)
      cases haccepts : q.accepts w e with
      | true => exact (decide_eq_true (hrow.mpr ⟨haccepts, h e he haccepts⟩)).symm
      | false =>
        refine (decide_eq_false fun hmem => ?_).symm
        exact Bool.false_ne_true (haccepts.symm.trans (hrow.mp hmem).1)
  refine hsame.trans ⟨fun h e he t ht => ?_, fun h e he _ => h e he⟩
  exact h e he (accepts_of_unchecked (List.ne_nil_of_mem ht) e) t ht

end QueryParam

theorem JoinKey.exists_bound : ∀ {k : JoinKey}, k.enumerates = true → ∃ t, t ∈ k.boundKeyTypes
  | .eq t, _ => ⟨t, List.mem_singleton_self t⟩
  | .inMembers _, h => nomatch h
  | .and l r, h => by
    rcases (Bool.or_eq_true _ _).mp h with h | h
    · obtain ⟨t, ht⟩ := exists_bound h
      exact ⟨t, List.mem_append_left _ ht⟩
    · obtain ⟨t, ht⟩ := exists_bound h
      exact ⟨t, List.mem_append_right _ ht⟩

theorem QueryFilter.exists_present : ∀ {f : QueryFilter}, f.enumerates = true →
    ∃ t, t ∈ f.presentTypes
  | .unit, h => nomatch h
  | .withComponent t, _ => ⟨t, List.mem_singleton_self t⟩
  | .withoutComponent _, h => nomatch h
  | .whereKey _, h => JoinKey.exists_bound h
  | .and l r, h => by
    rcases (Bool.or_eq_true _ _).mp h with h | h
    · obtain ⟨t, ht⟩ := exists_present h
      exact ⟨t, List.mem_append_left _ ht⟩
    · obtain ⟨t, ht⟩ := exists_present h
      exact ⟨t, List.mem_append_right _ ht⟩

/-- An enumerating filter only matches entities that carry something. -/
theorem QueryFilter.allocated_of_matches (hw : w.Confined w.nextEntity) {f : QueryFilter}
    (hf : f.enumerates = true) {e : Entity} (h : f.matchesRow w e = true) : e < w.nextEntity := by
  obtain ⟨t, ht⟩ := f.exists_present hf
  exact hw t e ((QueryFilter.matchesRow_iff.mp h).1 t ht)

/-- The filtered rows are the matching rows if and only if the filter enumerates nothing, or all
that it matches carry what is left unchecked of candidates. -/
theorem filteredRows_eq_iff (hp : w.Present schema) (hw : w.Confined w.nextEntity) {q : QueryParam}
    (hq : q.Declared) (f : QueryFilter) :
    filteredRows w q f = (q.rows w).filter (f.matchesRow w) ↔
      (f.enumerates = true → ∀ e, f.matchesRow w e = true → ∀ t ∈ q.unchecked, w.has t e = true) := by
  have hcandidates := f.isSome_eq_enumerates w
  cases hf : f.enumerates with
  | false =>
    have hnone : f.entityCandidates w = none := by
      rw [hf] at hcandidates
      exact Option.not_isSome_iff_eq_none.mp (by rw [hcandidates]; exact Bool.false_ne_true)
    have hrows : q.rowsHinted w none = q.rows w := by cases q <;> rfl
    rw [filteredRows, hnone, hrows]
    exact iff_of_true rfl fun hfalse => absurd hfalse Bool.false_ne_true
  | true =>
    rw [hf] at hcandidates
    have hmem : ∀ e, e ∈ filteredRows w q f ↔ q.accepts w e = true ∧ f.matchesRow w e = true :=
      mem_filteredRows_of_candidates hp q hcandidates
    have hrow : ∀ e, f.matchesRow w e = true →
        (e ∈ q.rows w ↔ q.accepts w e = true ∧ ∀ t ∈ q.unchecked, w.has t e = true) :=
      fun e he => q.mem_rows_iff hp hq (f.allocated_of_matches hw hf he)
    constructor
    · intro heq _ e he t ht
      have haccepts := q.accepts_of_unchecked (w := w) (List.ne_nil_of_mem ht) e
      have hin : e ∈ (q.rows w).filter (f.matchesRow w) := heq ▸ (hmem e).mpr ⟨haccepts, he⟩
      exact ((hrow e he).mp (List.mem_filter.mp hin).1).2 t ht
    · intro h
      refine (ascending_filteredRows hp q f).eq_of_mem_iff (q.ascending_rows.filter _) fun e => ?_
      rw [hmem, List.mem_filter]
      constructor
      · rintro ⟨haccepts, he⟩
        exact ⟨(hrow e he).mpr ⟨haccepts, h rfl e he⟩, he⟩
      · rintro ⟨hin, he⟩
        exact ⟨((hrow e he).mp hin).1, he⟩

/-- Candidates and enumeration agree on a query: the rows among a candidate list are its candidates
that are rows, in its order, and filtering yields the matching rows. -/
structure CandidatesAgree (w : World α) (q : QueryParam) (f : QueryFilter)
    (candidates : List Entity) : Prop where
  hinted : q.rowsHinted w (some candidates) = candidates.filter (· ∈ q.rows w)
  filtered : filteredRows w q f = (q.rows w).filter (f.matchesRow w)

/-- Whatever is left unchecked, the candidates and the matches of an enumerating filter carry. -/
structure CandidatesChecked (w : World α) (q : QueryParam) (f : QueryFilter)
    (candidates : List Entity) : Prop where
  hinted : ∀ e ∈ candidates, ∀ t ∈ q.unchecked, w.has t e = true
  filtered : f.enumerates = true → ∀ e, f.matchesRow w e = true →
    ∀ t ∈ q.unchecked, w.has t e = true

/-- Candidate-driven and plain enumeration agree exactly where nothing unchecked is missing. -/
theorem candidatesAgree_iff (hw : World.Handled C w) {q : QueryParam} (hq : q.Declared)
    (f : QueryFilter) {candidates : List Entity} (hc : ∀ e ∈ candidates, e < w.nextEntity) :
    CandidatesAgree w q f candidates ↔ CandidatesChecked w q f candidates := by
  obtain ⟨schema, hp⟩ := World.present_of_reachable hw.reachable
  have hinted := q.rowsHinted_eq_iff hp hq hc
  have hfiltered := filteredRows_eq_iff hp hw.below.entries hq f
  constructor
  · intro h
    exact ⟨hinted.mp h.hinted, hfiltered.mp h.filtered⟩
  · intro h
    exact ⟨hinted.mpr h.hinted, hfiltered.mpr h.filtered⟩

/-- Entity 0 carries component 5 alone, entity 1 also component 6. -/
def facetWorld : World Unit :=
  ((World.machine (.plain Unit)).run .new [.spawnEmpty, .spawnEmpty, .base (.insert 5 0 (.data ())),
    .base (.insert 5 1 (.data ())), .base (.insert 6 1 (.data ()))]).getD .new

theorem handled_facetWorld : World.Handled (.plain Unit) facetWorld := by
  have hrun : (World.machine (.plain Unit)).run .new
      [.spawnEmpty, .spawnEmpty, .base (.insert 5 0 (.data ())), .base (.insert 5 1 (.data ())),
        .base (.insert 6 1 (.data ()))] = some facetWorld := rfl
  exact Machine.ReachableUnder.run (.init World.machine_init_new) (by decide) hrun

/-- A tuple with a required part leaves nothing unchecked, whatever its facet and its filter. -/
theorem tuple_candidatesAgree : CandidatesAgree facetWorld
    (.entityParts [⟨6, false⟩] [.read 5, .optional 6]) (.withComponent 5) [1, 0] := by
  have hdeclared : (QueryParam.entityParts [⟨6, false⟩] [.read 5, .optional 6]).Declared :=
    List.cons_ne_nil _ _
  have hallocated : ∀ e ∈ [1, 0], e < facetWorld.nextEntity := by decide
  exact (candidatesAgree_iff handled_facetWorld hdeclared _ hallocated).mpr
    ⟨by decide, fun _ _ _ _ ht => nomatch ht⟩

/-- A bare handle of a facet that requires component 6 yields entity 0, which does not carry it.
-/
theorem bare_facet_unchecked : World.Handled (.plain Unit) facetWorld ∧
    (QueryParam.entity [⟨6, false⟩]).rows facetWorld = [1] ∧
    (QueryParam.entity [⟨6, false⟩]).rowsHinted facetWorld (some [0]) = [0] ∧
    filteredRows facetWorld (.entity [⟨6, false⟩]) (.withComponent 5) = [0, 1] ∧
    ¬ CandidatesAgree facetWorld (.entity [⟨6, false⟩]) (.withComponent 5) [0] := by
  refine ⟨handled_facetWorld, by decide, by decide, by decide, fun h => ?_⟩
  have hinted : [0] = ([0] : List Entity).filter
      (· ∈ (QueryParam.entity [⟨6, false⟩]).rows facetWorld) := h.hinted
  exact absurd hinted (by decide)
end Porridge
