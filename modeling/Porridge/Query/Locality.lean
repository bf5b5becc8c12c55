import Porridge.Query.RowSet

/-! What a row depends on: the entries of the interest types on its entity and, for a relationship
projection, on the members it lists. -/
namespace Porridge

variable {α : Type} {C : Components α}

def SameOn (w₀ w : World α) (types : List TypeId) (e : Entity) : Prop :=
  ∀ t ∈ types, w₀.cell? t e = w.cell? t e

variable {w₀ w : World α} {types types' : List TypeId} {e : Entity}

theorem SameOn.mono (h : SameOn w₀ w types e) (hsub : ∀ t ∈ types', t ∈ types) :
    SameOn w₀ w types' e := fun t ht => h t (hsub t ht)

theorem SameOn.has (h : SameOn w₀ w types e) {t : TypeId} (ht : t ∈ types) :
    w₀.has t e = w.has t e := by
  rw [World.has, World.has, h t ht]

theorem SameOn.fingerprintOn (h : SameOn w₀ w types e) {t : TypeId} (ht : t ∈ types) :
    w₀.fingerprintOn t e = w.fingerprintOn t e := by
  rw [World.fingerprintOn, World.fingerprintOn, h t ht]

theorem SameOn.componentDep (h : SameOn w₀ w types e) {t : TypeId} (ht : t ∈ types) :
    componentDep C w₀ t e = componentDep C w t e := by
  simp only [Porridge.componentDep, World.revisionByType, h t ht]

theorem SameOn.membersOn (h : SameOn w₀ w types e) {t : TypeId} (ht : t ∈ types) :
    w₀.membersOn t e = w.membersOn t e := World.membersOn_congr (h t ht)

theorem SameOn.append (h : SameOn w₀ w (types ++ types') e) :
    SameOn w₀ w types e ∧ SameOn w₀ w types' e :=
  ⟨h.mono fun _ ht => List.mem_append_left _ ht, h.mono fun _ ht => List.mem_append_right _ ht⟩

namespace JoinKey

theorem matchesRow_same : ∀ {k : JoinKey}, SameOn w₀ w k.interestTypes e →
    k.matchesRow w₀ e = k.matchesRow w e
  | .eq _, h => h.has (List.mem_singleton_self _)
  | .inMembers _, _ => rfl
  | .and l r, h => by
    rw [matchesRow, matchesRow, matchesRow_same h.append.1, matchesRow_same h.append.2]

theorem deps_same : ∀ {k : JoinKey}, SameOn w₀ w k.interestTypes e →
    k.deps C w₀ e = k.deps C w e
  | .eq _, h => h.componentDep (List.mem_singleton_self _)
  | .inMembers _, _ => rfl
  | .and l r, h => by rw [deps, deps, deps_same h.append.1, deps_same h.append.2]

theorem boundKeyTypes_subset {key : TypeId} : ∀ {k : JoinKey}, key ∈ k.boundKeyTypes →
    key ∈ k.interestTypes
  | .eq _, h => h
  | .inMembers _, h => nomatch h
  | .and _ _, h => List.mem_append.mpr
    ((List.mem_append.mp h).imp boundKeyTypes_subset boundKeyTypes_subset)

end JoinKey

namespace QueryFilter

theorem matchesRow_same : ∀ {f : QueryFilter}, SameOn w₀ w f.interestTypes e →
    f.matchesRow w₀ e = f.matchesRow w e
  | .unit, _ => rfl
  | .withComponent _, h => h.has (List.mem_singleton_self _)
  | .withoutComponent _, h => congrArg not (h.has (List.mem_singleton_self _))
  | .whereKey _, h => JoinKey.matchesRow_same h
  | .and l r, h => by
    rw [matchesRow, matchesRow, matchesRow_same h.append.1, matchesRow_same h.append.2]

theorem deps_same : ∀ {f : QueryFilter}, SameOn w₀ w f.interestTypes e →
    f.deps C w₀ e = f.deps C w e
  | .unit, _ => rfl
  | .withComponent _, h => h.componentDep (List.mem_singleton_self _)
  | .withoutComponent _, _ => rfl
  | .whereKey _, h => JoinKey.deps_same h
  | .and l r, h => by rw [deps, deps, deps_same h.append.1, deps_same h.append.2]

theorem boundKeyTypes_subset {key : TypeId} : ∀ {f : QueryFilter}, key ∈ f.boundKeyTypes →
    key ∈ f.interestTypes
  | .unit, h => nomatch h
  | .withComponent _, h => nomatch h
  | .withoutComponent _, h => nomatch h
  | .whereKey _, h => JoinKey.boundKeyTypes_subset h
  | .and _ _, h => List.mem_append.mpr
    ((List.mem_append.mp h).imp boundKeyTypes_subset boundKeyTypes_subset)

end QueryFilter

namespace QueryPart

theorem matchesRow_same {part : QueryPart} (h : SameOn w₀ w part.interestTypes e) :
    part.matchesRow w₀ e = part.matchesRow w e := by
  cases part with
  | read t => exact h.has (List.mem_singleton_self t)
  | mutRef t => exact h.has (List.mem_singleton_self t)
  | optional _ => rfl
  | tracked _ _ => rfl
  | related _ _ => rfl

theorem interest_of_providesKey {part : QueryPart} {key : TypeId}
    (h : part.providesKey key = true) : key ∈ part.interestTypes := by
  cases part with
  | read t => exact List.mem_singleton.mpr (beq_iff_eq.mp h)
  | _ => cases h

theorem provided_same {part : QueryPart} (h : SameOn w₀ w part.interestTypes e) (key : TypeId) :
    part.providedKey w₀ e key = part.providedKey w e key ∧
      part.providedMembers w₀ e key = part.providedMembers w e key := by
  unfold providedKey providedMembers
  by_cases hkey : part.providesKey key = true
  · have hmem := interest_of_providesKey hkey
    rw [if_pos hkey, if_pos hkey, if_pos hkey, if_pos hkey, h.fingerprintOn hmem, h key hmem]
    exact ⟨rfl, rfl⟩
  · rw [if_neg hkey, if_neg hkey, if_neg hkey, if_neg hkey]
    exact ⟨rfl, rfl⟩

/-- The members that a relationship projection lists on `e` are the same in both worlds. -/
def MembersSame (w₀ w : World α) (types : List TypeId) (part : QueryPart) (e : Entity) : Prop :=
  match part with
  | .related inverse _ => ∀ m ∈ w.membersOn inverse e, SameOn w₀ w types m
  | _ => True

theorem deps_same {part : QueryPart} (h : SameOn w₀ w types e)
    (hsub : ∀ t ∈ part.interestTypes, t ∈ types) (hmembers : part.MembersSame w₀ w types e) :
    part.deps C w₀ e = part.deps C w e := by
  cases part with
  | read t => exact h.componentDep (hsub t (List.mem_singleton_self t))
  | optional t => exact h.componentDep (hsub t (List.mem_singleton_self t))
  | mutRef t => exact h.componentDep (hsub t (List.mem_singleton_self t))
  | tracked _ facet =>
    refine List.flatMap_congr fun p hp => ?_
    exact h.componentDep (hsub _ (List.mem_map.mpr ⟨p, hp, rfl⟩))
  | related inverse parts =>
    have hinverse : inverse ∈ types := hsub inverse List.mem_cons_self
    show componentDep C w₀ inverse e ++ _ = componentDep C w inverse e ++ _
    rw [h.componentDep hinverse, h.membersOn hinverse]
    refine congrArg _ (List.flatMap_congr fun m hm => ?_)
    refine List.flatMap_congr fun p hp => ?_
    have hcomponent : p.component ∈ types :=
      hsub _ (List.mem_cons_of_mem _ (List.mem_map.mpr ⟨p, hp, rfl⟩))
    exact (hmembers m hm).componentDep hcomponent

end QueryPart

namespace SystemParam

/-- An anchored query has bounded interest. -/
theorem queryInterestTypes_anchored {q : QueryParam} (hq : q.Anchored) (f : QueryFilter) :
    ∃ h parts, q = .entityParts h parts ∧ queryInterestTypes q f =
      some (h.map FacetPart.component ++ parts.flatMap QueryPart.interestTypes ++
        f.interestTypes) := by
  obtain ⟨h, parts, rfl, hparts⟩ := hq.tuple
  refine ⟨h, parts, rfl, ?_⟩
  have hne : ¬ (parts = [] ∧ h = []) := fun hboth => hparts hboth.1
  rw [queryInterestTypes, QueryParam.interestTypes, if_neg hne]

variable {q : QueryParam} {f : QueryFilter}

/-- A row whose interest entries are unchanged is accepted and matched as before. -/
theorem row_same (hq : q.Anchored) (hinterest : queryInterestTypes q f = some types)
    (h : SameOn w₀ w types e) :
    q.accepts w₀ e = q.accepts w e ∧ f.matchesRow w₀ e = f.matchesRow w e := by
  obtain ⟨facet, parts, rfl, hsome⟩ := queryInterestTypes_anchored hq f
  cases Option.some.inj (hinterest.symm.trans hsome)
  obtain ⟨hshape, hfilter⟩ := h.append
  obtain ⟨hfacet, hparts⟩ := hshape.append
  refine ⟨?_, QueryFilter.matchesRow_same hfilter⟩
  show (facet.required.all (w₀.has · e) && parts.all (·.matchesRow w₀ e)) =
    (facet.required.all (w.has · e) && parts.all (·.matchesRow w e))
  congr 1
  · refine List.all_congr_mem fun t ht => hfacet.has ?_
    obtain ⟨part, hpart, rfl⟩ := List.mem_map.mp ht
    exact List.mem_map.mpr ⟨part, (List.mem_filter.mp hpart).1, rfl⟩
  · refine List.all_congr_mem fun part hpart => QueryPart.matchesRow_same ?_
    exact hparts.mono fun t ht => List.mem_flatMap.mpr ⟨part, hpart, ht⟩

/-- A row whose interest entries are unchanged provides what it provided before. -/
theorem provided_same (hq : q.Anchored) (hinterest : queryInterestTypes q f = some types)
    (h : SameOn w₀ w types e) (key : TypeId) :
    (query q f).providedKey w₀ (.row e) key = (query q f).providedKey w (.row e) key ∧
      (query q f).providedMembers w₀ (.row e) key =
        (query q f).providedMembers w (.row e) key := by
  obtain ⟨facet, parts, rfl, hsome⟩ := queryInterestTypes_anchored hq f
  cases Option.some.inj (hinterest.symm.trans hsome)
  obtain ⟨-, hparts⟩ := h.append.1.append
  have hpart : ∀ part ∈ parts, SameOn w₀ w part.interestTypes e := fun part hp =>
    hparts.mono fun t ht => List.mem_flatMap.mpr ⟨part, hp, ht⟩
  constructor
  · exact List.findSome?_congr_mem fun part hp => (QueryPart.provided_same (hpart part hp) key).1
  · exact List.findSome?_congr_mem fun part hp => (QueryPart.provided_same (hpart part hp) key).2

/-- A row whose interest entries, and those of the members it lists, are unchanged observes what
it observed before. -/
theorem deps_same (hq : q.Anchored) (hinterest : queryInterestTypes q f = some types)
    (h : SameOn w₀ w types e)
    (hmembers : ∀ facet parts, q = .entityParts facet parts →
      ∀ part ∈ parts, part.MembersSame w₀ w types e) :
    (query q f).deps C w₀ (.row e) = (query q f).deps C w (.row e) := by
  obtain ⟨facet, parts, rfl, hsome⟩ := queryInterestTypes_anchored hq f
  cases Option.some.inj (hinterest.symm.trans hsome)
  show parts.flatMap (·.deps C w₀ e) ++ f.deps C w₀ e =
    parts.flatMap (·.deps C w e) ++ f.deps C w e
  rw [QueryFilter.deps_same h.append.2]
  refine congrArg (· ++ f.deps C w e) (List.flatMap_congr fun part hp => ?_)
  refine QueryPart.deps_same h (fun t ht => ?_) (hmembers facet parts rfl part hp)
  exact List.mem_append_left _ (List.mem_append_right _ (List.mem_flatMap.mpr ⟨part, hp, ht⟩))

end SystemParam

/-- The interest of a tuple covers that of each parameter. -/
theorem Params.interest_of_mem : ∀ {ps : Params} {types : List TypeId},
    ps.interestTypes = some types → ∀ {p : SystemParam}, p ∈ ps →
      ∃ own, p.interestTypes = some own ∧ ∀ t ∈ own, t ∈ types
  | [], _, _, _, hmem => nomatch hmem
  | first :: ps, types, h, p, hmem => by
    rw [Params.interestTypes, List.mapM_cons] at h
    obtain ⟨lists, hlists, rfl⟩ := Option.map_eq_some_iff.mp h
    obtain ⟨own, hown, hlists⟩ := Option.bind_eq_some_iff.mp hlists
    obtain ⟨rest, hrest, hlists⟩ := Option.bind_eq_some_iff.mp hlists
    cases hlists
    rcases List.mem_cons.mp hmem with rfl | hmem
    · exact ⟨own, hown, fun t ht => by simp [ht]⟩
    · have htail : Params.interestTypes ps = some rest.flatten := by
        rw [Params.interestTypes, hrest]
        rfl
      obtain ⟨own', hown', hsub⟩ := interest_of_mem htail hmem
      refine ⟨own', hown', fun t ht => ?_⟩
      rw [List.flatten_cons]
      exact List.mem_append_right _ (hsub t ht)

end Porridge
