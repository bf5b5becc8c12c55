import Porridge.Query.Planned

/-! The row set of an entity query: its rows are the entities it accepts, and the store sizes
bound their number. -/
namespace Porridge

variable {α : Type} {w : World α} {schema : Option (List TypeId)}

/-- The components a row must carry. -/
def QueryParam.requiredTypes : QueryParam → List TypeId
  | .entity _ => []
  | .read t => [t]
  | .mutRef t => [t]
  | .entityParts h parts => h.required ++ parts.filterMap QueryPart.presenceRequirement

/-- An entity tuple with a required part. -/
structure QueryParam.Anchored (q : QueryParam) : Prop where
  tuple : ∃ h parts, q = .entityParts h parts ∧ parts ≠ []
  required : q.requiredTypes ≠ []

theorem Facet.required_eq_nil_iff {h : Facet} :
    h.required = [] ↔ h.any (fun part => !part.optional) = false := by
  rw [Facet.required, List.map_eq_nil_iff, List.filter_eq_nil_iff, List.any_eq_false]

theorem mem_facetRows (hp : w.Present schema) {h : Facet} (hrequired : h.required ≠ [])
    (e : Entity) : e ∈ facetRows w h ↔ h.required.all (w.has · e) = true := by
  unfold facetRows
  dsimp only
  rw [if_neg hrequired]
  cases hm : w.presenceMask h.required with
  | some found =>
    obtain ⟨p, mask⟩ := found
    obtain ⟨hshows, hok, hmask⟩ := hp.of_mask hm
    exact PresenceIndex.mem_entitiesMatching hshows hok hmask hrequired e
  | none =>
    dsimp only
    cases hd : h.required.argmin w.storeLen with
    | none => exact absurd (List.argmin_eq_none.mp hd) hrequired
    | some driver =>
      have hmem : driver ∈ h.required := List.argmin_mem hd
      dsimp only
      rw [List.mem_filter, World.mem_entitiesWith]
      exact and_iff_right_of_imp fun hall => List.all_eq_true.mp hall driver hmem

namespace QueryPart

/-- A part with a bounded store requires a component and enumerates its carriers. -/
theorem of_storeLen_lt_top {part : QueryPart} (h : part.storeLen w < ⊤) :
    ∃ t, part.presenceRequirement = some t ∧ part.storeLen w = w.storeLen t ∧
      part.candidates w = w.entitiesWith t ∧ part.matchesRow w = w.has t := by
  cases part with
  | read t => exact ⟨t, rfl, rfl, rfl, rfl⟩
  | mutRef t => exact ⟨t, rfl, rfl, rfl, rfl⟩
  | optional _ => exact absurd h (lt_irrefl _)
  | tracked _ _ => exact absurd h (lt_irrefl _)
  | related _ _ => exact absurd h (lt_irrefl _)

theorem storeLen_lt_top {part : QueryPart} {t : TypeId} (h : part.presenceRequirement = some t) :
    part.storeLen w < ⊤ := by
  cases part with
  | read t => exact WithTop.coe_lt_top _
  | mutRef t => exact WithTop.coe_lt_top _
  | optional _ => cases h
  | tracked _ _ => cases h
  | related _ _ => cases h

end QueryPart

namespace QueryParam

/-- The running choice of a driver: the smallest store so far, and a part that has it. -/
theorem driver_fold (parts : List QueryPart) :
    ∀ best : WithTop Nat × Option QueryPart,
      (best.1 < ⊤ → ∃ part, best.2 = some part ∧ part.storeLen w = best.1) →
      ((∃ part ∈ parts, part.storeLen w < ⊤) ∨ best.1 < ⊤) →
      ∃ part, (parts.foldl (fun best part =>
        if part.storeLen w < best.1 then (part.storeLen w, some part) else best) best).2 =
          some part ∧ part.storeLen w < ⊤ ∧ (part ∈ parts ∨ best.2 = some part) := by
  induction parts with
  | nil =>
    rintro best hbest (⟨_, hmem, -⟩ | hlt)
    · cases hmem
    · obtain ⟨part, hpart, hlen⟩ := hbest hlt
      exact ⟨part, hpart, hlen ▸ hlt, Or.inr hpart⟩
  | cons first parts ih =>
    intro best hbest hsome
    rw [List.foldl_cons]
    by_cases hlt : first.storeLen w < best.1
    · rw [if_pos hlt]
      have hfinite : first.storeLen w < ⊤ := lt_of_lt_of_le hlt le_top
      obtain ⟨part, hpart, hlen, hmem⟩ := ih (first.storeLen w, some first)
        (fun _ => ⟨first, rfl, rfl⟩) (Or.inr hfinite)
      refine ⟨part, hpart, hlen, Or.inl ?_⟩
      rcases hmem with hmem | heq
      · exact List.mem_cons_of_mem _ hmem
      · cases heq
        exact List.mem_cons_self
    · rw [if_neg hlt]
      have hrest : (∃ part ∈ parts, part.storeLen w < ⊤) ∨ best.1 < ⊤ := by
        rcases hsome with ⟨part, hmem, hfinite⟩ | hfinite
        · rcases List.mem_cons.mp hmem with rfl | hmem
          · exact Or.inr (lt_of_le_of_lt (not_lt.mp hlt) hfinite)
          · exact Or.inl ⟨part, hmem, hfinite⟩
        · exact Or.inr hfinite
      obtain ⟨part, hpart, hlen, hmem⟩ := ih best hbest hrest
      exact ⟨part, hpart, hlen, hmem.imp_left (List.mem_cons_of_mem _)⟩

theorem exists_driver {parts : List QueryPart} {part : QueryPart} {t : TypeId}
    (hmem : part ∈ parts) (hpart : part.presenceRequirement = some t) :
    ∃ part ∈ parts, driver w parts = some part ∧ part.storeLen w < ⊤ := by
  obtain ⟨found, hfound, hlen, hin⟩ := driver_fold (w := w) parts (⊤, parts.head?)
    (fun h => absurd h (lt_irrefl _)) (Or.inl ⟨part, hmem, QueryPart.storeLen_lt_top hpart⟩)
  refine ⟨found, ?_, hfound, hlen⟩
  rcases hin with hin | hhead
  · exact hin
  · exact List.mem_of_head? hhead

/-- The rows of an anchored tuple are the entities it accepts. -/
theorem mem_rows (hp : w.Present schema) {q : QueryParam} (hq : q.Anchored) (e : Entity) :
    e ∈ q.rows w ↔ q.accepts w e = true := by
  obtain ⟨h, parts, rfl, hparts⟩ := hq.tuple
  have hpos : 0 < parts.length := List.length_pos_of_ne_nil hparts
  show e ∈ (if h.any (fun part => !part.optional) then
      if 0 < parts.length then retainMatchingParts w parts (facetRows w h) else facetRows w h
    else _) ↔ (h.required.all (w.has · e) && parts.all (·.matchesRow w e)) = true
  by_cases hfacet : h.required = []
  · have hanchor := Facet.required_eq_nil_iff.mp hfacet
    have hrequired : parts.filterMap QueryPart.presenceRequirement ≠ [] := by
      intro hnone
      refine hq.required ?_
      rw [requiredTypes, hfacet, hnone]
      rfl
    obtain ⟨t, ht⟩ := List.exists_mem_of_ne_nil _ hrequired
    obtain ⟨part, hmem, hpart⟩ := List.mem_filterMap.mp ht
    obtain ⟨part, hmem, hdriver, hlen⟩ := exists_driver (w := w) hmem hpart
    obtain ⟨t, -, -, hcandidates, hmatches⟩ := QueryPart.of_storeLen_lt_top hlen
    rw [hanchor, if_neg Bool.false_ne_true, hfacet, List.all_nil, Bool.true_and, hdriver]
    dsimp only
    rw [hcandidates]
    by_cases hone : 1 < parts.length
    · rw [if_pos hone, retainMatchingParts_eq hp, List.mem_filter, World.mem_entitiesWith]
      refine and_iff_right_of_imp fun hall => ?_
      have hthis := List.all_eq_true.mp hall part hmem
      rwa [hmatches] at hthis
    · rw [if_neg hone, World.mem_entitiesWith]
      obtain ⟨only, rfl⟩ := List.length_eq_one_iff.mp (by omega : parts.length = 1)
      rw [List.mem_singleton] at hmem
      subst hmem
      simp [hmatches]
  · have hanchor : h.any (fun part => !part.optional) = true := by
      by_contra hnone
      exact hfacet (Facet.required_eq_nil_iff.mpr (Bool.eq_false_iff.mpr hnone))
    rw [if_pos hanchor, if_pos hpos, retainMatchingParts_eq hp, List.mem_filter,
      mem_facetRows hp hfacet, Bool.and_eq_true]

theorem accepts_requiredTypes {q : QueryParam} {e : Entity} (h : q.accepts w e = true) {t : TypeId}
    (ht : t ∈ q.requiredTypes) : w.has t e = true := by
  cases q with
  | entity _ => cases ht
  | read t' => exact List.mem_singleton.mp ht ▸ h
  | mutRef t' => exact List.mem_singleton.mp ht ▸ h
  | entityParts facet parts =>
    obtain ⟨hfacet, hparts⟩ := (Bool.and_eq_true _ _).mp h
    rcases List.mem_append.mp ht with ht | ht
    · exact List.all_eq_true.mp hfacet t ht
    · rw [← all_presenceRequirement] at hparts
      exact List.all_eq_true.mp hparts t ht

section Bounds

theorem foldl_min_le {σ : Type} {len : σ → WithTop Nat} {n : WithTop Nat} : ∀ {xs : List σ}
    {start : WithTop Nat}, xs.foldl (fun bound x => min bound (len x)) start ≤ n →
      start ≤ n ∨ ∃ x ∈ xs, len x ≤ n
  | [], _, h => Or.inl h
  | x :: xs, start, h => by
    have htail : xs.foldl (fun bound x => min bound (len x)) (min start (len x)) ≤ n := h
    rcases foldl_min_le htail with hmin | ⟨y, hy, hlen⟩
    · rcases min_le_iff.mp hmin with hstart | hlen
      · exact Or.inl hstart
      · exact Or.inr ⟨x, List.mem_cons_self, hlen⟩
    · exact Or.inr ⟨y, List.mem_cons_of_mem _ hy, hlen⟩

/-- A bound on the rows is the size of a store that every row is in. -/
theorem exists_storeLen_le {q : QueryParam} {n : Nat} (h : q.rowBound w ≤ n) :
    ∃ t ∈ q.requiredTypes, w.storeLen t ≤ n := by
  cases q with
  | entityParts facet parts =>
    rcases foldl_min_le h with hparts | ⟨t, ht, hlen⟩
    · rcases foldl_min_le hparts with htop | ⟨part, hmem, hlen⟩
      · exact absurd htop (not_le.mpr (WithTop.coe_lt_top n))
      · have hfinite : part.storeLen w < ⊤ := lt_of_le_of_lt hlen (WithTop.coe_lt_top n)
        obtain ⟨t, hrequires, hsame, -, -⟩ := QueryPart.of_storeLen_lt_top hfinite
        rw [hsame] at hlen
        have ht : t ∈ parts.filterMap QueryPart.presenceRequirement :=
          List.mem_filterMap.mpr ⟨part, hmem, hrequires⟩
        exact ⟨t, List.mem_append_right _ ht, WithTop.coe_le_coe.mp hlen⟩
    · exact ⟨t, List.mem_append_left _ ht, WithTop.coe_le_coe.mp hlen⟩
  | _ => exact absurd h (not_le.mpr (WithTop.coe_lt_top n))

end Bounds
end QueryParam

/-- A store of one entity has no two. -/
theorem eq_of_storeLen_le_one {t : TypeId} (h : w.storeLen t ≤ 1) {e e' : Entity}
    (he : w.has t e = true) (he' : w.has t e' = true) : e = e' := by
  have hkeys : ∀ e, w.has t e = true → e ∈ (w.store t).entries.keys := fun e he =>
    AList.mem_keys.mp (AList.lookup_isSome.mp he)
  unfold World.storeLen at h
  have hmem := hkeys e he
  have hmem' := hkeys e' he'
  cases hlist : (w.store t).entries.keys with
  | nil =>
    rw [hlist] at hmem
    cases hmem
  | cons first rest =>
    rw [hlist] at h hmem hmem'
    have hnone : rest = [] := List.length_eq_zero_iff.mp (by rw [List.length_cons] at h; omega)
    rw [hnone, List.mem_singleton] at hmem hmem'
    rw [hmem, hmem']

/-- The filtered rows of an anchored query are what its shape accepts and its filter matches. -/
theorem mem_filteredRows (hp : w.Present schema) {q : QueryParam} (hq : q.Anchored)
    (f : QueryFilter) (e : Entity) :
    e ∈ filteredRows w q f ↔ q.accepts w e = true ∧ f.matchesRow w e = true := by
  cases hc : f.entityCandidates w with
  | some candidates => exact mem_filteredRows_of_candidates hp q (by rw [hc]; rfl) e
  | none =>
    rw [filteredRows, hc, List.mem_filter]
    have hrows : q.rowsHinted w none = q.rows w := by cases q <;> rfl
    rw [hrows, q.mem_rows hp hq]

/-- A driver that is not large has at most one row. -/
theorem Params.eq_of_not_large (hp : w.Present schema) {q : QueryParam} (hq : q.Anchored)
    {f : QueryFilter} (hdriver : (SystemParam.query q f).deltaShape = .driver)
    (h : isLarge w (.query q f) = false) {e e' : Entity} (he : e ∈ filteredRows w q f)
    (he' : e' ∈ filteredRows w q f) : e = e' := by
  obtain ⟨haccepts, hmatches⟩ := (mem_filteredRows hp hq f e).mp he
  obtain ⟨haccepts', hmatches'⟩ := (mem_filteredRows hp hq f e').mp he'
  have hbound : min (q.rowBound w) (f.candidateBound w) ≤ (1 : Nat) := by
    rw [isLarge, hdriver, beq_self_eq_true, Bool.true_and, decide_eq_false_iff_not] at h
    exact not_lt.mp h
  rcases min_le_iff.mp hbound with hrows | hcandidates
  · obtain ⟨t, ht, hlen⟩ := QueryParam.exists_storeLen_le hrows
    exact eq_of_storeLen_le_one hlen (QueryParam.accepts_requiredTypes haccepts ht)
      (QueryParam.accepts_requiredTypes haccepts' ht)
  · cases f with
    | withComponent t =>
      exact eq_of_storeLen_le_one (WithTop.coe_le_coe.mp hcandidates) hmatches hmatches'
    | _ => exact absurd hcandidates (not_le.mpr (WithTop.coe_lt_top 1))

end Porridge
