import Porridge.Query.Locality

/-! Which stores decide the rows of any query shape under any filter. -/
namespace Porridge

variable {α : Type} {w : World α} {schema : Option (List TypeId)}

/-- What the rows of a query shape are drawn from. -/
inductive Extent where
  | nothing
  /-- Every allocated id. -/
  | ids
  /-- The entities with all the components. -/
  | carriers (types : List TypeId)
deriving DecidableEq, Repr

namespace Extent

def Mem (w : World α) (e : Entity) : Extent → Prop
  | nothing => False
  | ids => e < w.nextEntity
  | carriers types => ∀ t ∈ types, w.has t e = true

def types : Extent → List TypeId
  | carriers types => types
  | _ => []

end Extent

/-- The entities a handle enumerates. -/
def Facet.extent (h : Facet) : Extent := if h.required = [] then .ids else .carriers h.required

theorem mem_facetRows_extent (hp : w.Present schema) (h : Facet) (e : Entity) :
    e ∈ facetRows w h ↔ h.extent.Mem w e := by
  unfold Facet.extent
  split_ifs with hnone
  · unfold facetRows
    dsimp only
    rw [if_pos hnone]
    exact List.mem_range
  · rw [mem_facetRows hp hnone]
    exact List.all_eq_true

namespace JoinKey

def enumerates : JoinKey → Bool
  | .eq _ => true
  | .inMembers _ => false
  | .and l r => l.enumerates || r.enumerates

theorem isSome_eq_enumerates (w : World α) : ∀ k : JoinKey,
    (k.entityCandidates w).isSome = k.enumerates
  | .eq _ => rfl
  | .inMembers _ => rfl
  | .and l r => by
    have hl := isSome_eq_enumerates w l
    have hr := isSome_eq_enumerates w r
    rw [enumerates, ← hl, ← hr, entityCandidates, isSome_conjunctCandidates]

theorem matchesRow_iff {e : Entity} : ∀ {k : JoinKey},
    k.matchesRow w e = true ↔ ∀ t ∈ k.boundKeyTypes, w.has t e = true
  | .eq t => by simp [matchesRow, boundKeyTypes]
  | .inMembers _ => by simp [matchesRow, boundKeyTypes]
  | .and l r => by
    rw [matchesRow, boundKeyTypes, Bool.and_eq_true, l.matchesRow_iff, r.matchesRow_iff,
      List.forall_mem_append]

end JoinKey

namespace QueryFilter

def enumerates : QueryFilter → Bool
  | .withComponent _ => true
  | .whereKey k => k.enumerates
  | .and l r => l.enumerates || r.enumerates
  | _ => false

/-- The components a row must carry for the filter. -/
def presentTypes : QueryFilter → List TypeId
  | .withComponent t => [t]
  | .whereKey k => k.boundKeyTypes
  | .and l r => l.presentTypes ++ r.presentTypes
  | _ => []

/-- The components a row must not carry for the filter. -/
def absentTypes : QueryFilter → List TypeId
  | .withoutComponent t => [t]
  | .and l r => l.absentTypes ++ r.absentTypes
  | _ => []

theorem isSome_eq_enumerates (w : World α) : ∀ f : QueryFilter,
    (f.entityCandidates w).isSome = f.enumerates
  | .unit => rfl
  | .withComponent _ => rfl
  | .withoutComponent _ => rfl
  | .whereKey k => k.isSome_eq_enumerates w
  | .and l r => by
    have hl := isSome_eq_enumerates w l
    have hr := isSome_eq_enumerates w r
    rw [enumerates, ← hl, ← hr, entityCandidates, isSome_conjunctCandidates]

theorem matchesRow_iff {e : Entity} : ∀ {f : QueryFilter}, f.matchesRow w e = true ↔
    (∀ t ∈ f.presentTypes, w.has t e = true) ∧ ∀ t ∈ f.absentTypes, w.has t e = false
  | .unit => by simp [matchesRow, presentTypes, absentTypes]
  | .withComponent t => by simp [matchesRow, presentTypes, absentTypes]
  | .withoutComponent t => by simp [matchesRow, presentTypes, absentTypes]
  | .whereKey k => by simp [matchesRow, presentTypes, absentTypes, k.matchesRow_iff]
  | .and l r => by
    rw [matchesRow, presentTypes, absentTypes, Bool.and_eq_true, l.matchesRow_iff,
      r.matchesRow_iff, List.forall_mem_append, List.forall_mem_append]
    constructor
    · rintro ⟨⟨hl, hl'⟩, hr, hr'⟩
      exact ⟨⟨hl, hr⟩, hl', hr'⟩
    · rintro ⟨⟨hl, hr⟩, hl', hr'⟩
      exact ⟨⟨hl, hl'⟩, hr, hr'⟩

theorem bound_subset_present {t : TypeId} : ∀ {f : QueryFilter}, t ∈ f.boundKeyTypes →
    t ∈ f.presentTypes
  | .whereKey _, h => h
  | .and _ _, h => List.mem_append.mpr
      ((List.mem_append.mp h).imp bound_subset_present bound_subset_present)

theorem enumerates_of_present {t : TypeId} : ∀ {f : QueryFilter}, t ∈ f.presentTypes →
    f.enumerates = true
  | .unit, h => nomatch h
  | .withComponent _, _ => rfl
  | .withoutComponent _, h => nomatch h
  | .whereKey k, h => by
    have hsome := JoinKey.isSome_entityCandidates (w := (World.new : World Unit)) h
    rwa [k.isSome_eq_enumerates] at hsome
  | .and l r, h => by
    rw [enumerates, Bool.or_eq_true]
    exact (List.mem_append.mp h).imp enumerates_of_present enumerates_of_present

theorem enumerates_of_bound {f : QueryFilter} {t : TypeId} (h : t ∈ f.boundKeyTypes) :
    f.enumerates = true := enumerates_of_present (bound_subset_present h)

/-- The interest of a filter includes every store that decides a match. -/
theorem interest_of_decides {t : TypeId} : ∀ {f : QueryFilter},
    t ∈ f.presentTypes ++ f.absentTypes → t ∈ f.interestTypes
  | .unit, h => h
  | .withComponent _, h => by simpa [presentTypes, absentTypes, interestTypes] using h
  | .withoutComponent _, h => by simpa [presentTypes, absentTypes, interestTypes] using h
  | .whereKey k, h => by
    have h : t ∈ k.boundKeyTypes ++ [] := h
    rw [List.append_nil] at h
    exact JoinKey.boundKeyTypes_subset h
  | .and l r, h => by
    simp only [presentTypes, absentTypes, List.mem_append] at h
    rw [interestTypes, List.mem_append]
    rcases h with (h | h) | h | h
    · exact Or.inl (interest_of_decides (List.mem_append_left _ h))
    · exact Or.inr (interest_of_decides (List.mem_append_left _ h))
    · exact Or.inl (interest_of_decides (List.mem_append_right _ h))
    · exact Or.inr (interest_of_decides (List.mem_append_right _ h))

/-- Without a bound key, the filter names every store it reads. -/
theorem named_of_unbound {t : TypeId} : ∀ {f : QueryFilter}, f.boundKeyTypes = [] →
    t ∈ f.presentTypes ++ f.absentTypes → t ∈ f.accessAll.map Access.component
  | .unit, _, h => h
  | .withComponent _, _, h => by simpa [presentTypes, absentTypes, accessAll] using h
  | .withoutComponent _, _, h => by simpa [presentTypes, absentTypes, accessAll] using h
  | .whereKey k, hnone, h => by
    have hpresent : (whereKey k).presentTypes = [] := hnone
    rw [hpresent] at h
    cases h
  | .and l r, hnone, h => by
    obtain ⟨hl, hr⟩ := List.append_eq_nil_iff.mp (show l.boundKeyTypes ++ r.boundKeyTypes = [] from hnone)
    rw [accessAll, List.map_append, List.mem_append]
    rw [presentTypes, absentTypes] at h
    simp only [List.mem_append] at h
    rcases h with (h | h) | h | h
    · exact Or.inl (named_of_unbound hl (List.mem_append_left _ h))
    · exact Or.inr (named_of_unbound hr (List.mem_append_left _ h))
    · exact Or.inl (named_of_unbound hl (List.mem_append_right _ h))
    · exact Or.inr (named_of_unbound hr (List.mem_append_right _ h))

end QueryFilter

namespace QueryParam

theorem accepts_iff {q : QueryParam} {e : Entity} :
    q.accepts w e = true ↔ ∀ t ∈ q.requiredTypes, w.has t e = true := by
  refine ⟨fun h t ht => accepts_requiredTypes h ht, fun h => ?_⟩
  cases q with
  | entity _ => rfl
  | read t => exact h t (List.mem_singleton_self t)
  | mutRef t => exact h t (List.mem_singleton_self t)
  | entityParts facet parts =>
    have hparts : parts.all (·.matchesRow w e) = true := by
      rw [← all_presenceRequirement]
      exact List.all_eq_true.mpr fun t ht => h t (List.mem_append_right _ ht)
    rw [accepts, hparts, Bool.and_true]
    exact List.all_eq_true.mpr fun t ht => h t (List.mem_append_left _ ht)

/-- What the rows are drawn from where the filter enumerates candidates, and where it does not. -/
def extent (q : QueryParam) (enumerated : Bool) : Extent :=
  if enumerated = true then .carriers q.requiredTypes
  else match q with
    | .entity h => h.extent
    | .read t => .carriers [t]
    | .mutRef t => .carriers [t]
    | .entityParts h parts =>
      if (QueryParam.entityParts h parts).requiredTypes ≠ [] then
        .carriers (QueryParam.entityParts h parts).requiredTypes
      else match parts.head? with
        | none => .nothing
        | some (.tracked _ facet) => facet.extent
        | some _ => .ids

/-- Parts without a store to drive from leave the choice to the first of them. -/
theorem driver_of_unbounded {parts : List QueryPart}
    (h : parts.filterMap QueryPart.presenceRequirement = []) : driver w parts = parts.head? := by
  have htop : ∀ part ∈ parts, part.storeLen w = ⊤ := by
    intro part hpart
    cases part with
    | read t => exact absurd (List.filterMap_eq_nil_iff.mp h _ hpart) (by simp [QueryPart.presenceRequirement])
    | mutRef t => exact absurd (List.filterMap_eq_nil_iff.mp h _ hpart) (by simp [QueryPart.presenceRequirement])
    | optional _ => rfl
    | tracked _ _ => rfl
    | related _ _ => rfl
  have hkept : parts.foldl (fun best part =>
      if part.storeLen w < best.1 then (part.storeLen w, some part) else best)
      ((⊤ : WithTop Nat), parts.head?) = (⊤, parts.head?) := by
    refine List.foldlRecOn parts _
      (motive := fun best : WithTop Nat × Option QueryPart => best = (⊤, parts.head?)) rfl ?_
    rintro _ rfl part hpart
    rw [htop part hpart, if_neg (lt_irrefl _)]
  unfold driver
  rw [hkept]

theorem mem_rows_extent (hp : w.Present schema) (q : QueryParam) (e : Entity) :
    e ∈ q.rows w ↔ (q.extent false).Mem w e := by
  cases q with
  | entity h => exact mem_facetRows_extent hp h e
  | read t =>
    rw [rows, World.mem_entitiesWith]
    simp [extent, Extent.Mem]
  | mutRef t =>
    rw [rows, World.mem_entitiesWith]
    simp [extent, Extent.Mem]
  | entityParts h parts =>
    by_cases hrequired : (QueryParam.entityParts h parts).requiredTypes = []
    · obtain ⟨hfacet, hparts⟩ := List.append_eq_nil_iff.mp hrequired
      have hall : ∀ e, parts.all (·.matchesRow w e) = true := by
        intro e
        rw [← all_presenceRequirement, hparts]
        rfl
      have hretained : ∀ candidates, retainMatchingParts w parts candidates = candidates := by
        intro candidates
        rw [retainMatchingParts_eq hp]
        exact List.filter_eq_self.mpr fun e _ => hall e
      have hextent : (QueryParam.entityParts h parts).extent false =
          match parts.head? with
          | none => .nothing
          | some (.tracked _ facet) => facet.extent
          | some _ => .ids := by
        unfold extent
        rw [if_neg Bool.false_ne_true]
        dsimp only
        rw [if_neg (not_not.mpr hrequired)]
      rw [hextent, rows, Facet.required_eq_nil_iff.mp hfacet, if_neg Bool.false_ne_true,
        driver_of_unbounded hparts]
      dsimp only
      rw [hretained, ite_self]
      cases parts with
      | nil => simp [Extent.Mem]
      | cons part rest =>
        cases part with
        | tracked marker facet => exact mem_facetRows_extent hp facet e
        | optional t => exact List.mem_range
        | related inverse members => exact List.mem_range
        | read t => simp [QueryPart.presenceRequirement] at hparts
        | mutRef t => simp [QueryPart.presenceRequirement] at hparts
    · have hextent : (QueryParam.entityParts h parts).extent false =
          .carriers (QueryParam.entityParts h parts).requiredTypes := by
        unfold extent
        rw [if_neg Bool.false_ne_true]
        dsimp only
        rw [if_pos hrequired]
      rw [hextent]
      cases hparts : parts with
      | nil =>
        have hfacet : h.required ≠ [] := by
          rw [hparts] at hrequired
          simpa [requiredTypes] using hrequired
        have hanchor : h.any (fun part => !part.optional) = true := by
          by_contra hnone
          exact hfacet (Facet.required_eq_nil_iff.mpr (Bool.eq_false_iff.mpr hnone))
        rw [rows, if_pos hanchor, List.length_nil, if_neg (Nat.lt_irrefl 0), mem_facetRows hp hfacet]
        simp [Extent.Mem, requiredTypes]
      | cons part rest =>
        rw [← hparts]
        have hanchored : (QueryParam.entityParts h parts).Anchored :=
          ⟨⟨h, parts, rfl, by rw [hparts]; simp⟩, hrequired⟩
        rw [mem_rows hp hanchored, accepts_iff]
        rfl

end QueryParam

/-- The filtered rows of any query are the matches within its extent. -/
theorem mem_filteredRows_extent (hp : w.Present schema) (q : QueryParam) (f : QueryFilter)
    (e : Entity) :
    e ∈ filteredRows w q f ↔ (q.extent f.enumerates).Mem w e ∧ f.matchesRow w e = true := by
  cases hc : f.entityCandidates w with
  | some candidates =>
    have hsome : (f.entityCandidates w).isSome = true := by rw [hc]; rfl
    rw [mem_filteredRows_of_candidates hp q hsome, QueryParam.accepts_iff,
      (f.isSome_eq_enumerates w).symm.trans hsome]
    rfl
  | none =>
    have hnone : f.enumerates = false := by
      rw [← f.isSome_eq_enumerates w, hc]
      rfl
    have hrows : q.rowsHinted w none = q.rows w := by cases q <;> rfl
    rw [filteredRows, hc, List.mem_filter, hrows, q.mem_rows_extent hp, hnone]

end Porridge
