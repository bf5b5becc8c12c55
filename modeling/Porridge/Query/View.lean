import Porridge.Query.Access
import Porridge.Query.Candidates
import Porridge.World.Buckets

/-! Worlds that show a query the same: the same presence, keys and members, whatever cells,
revisions and presence bits stand behind them. -/
namespace Porridge

variable {α : Type}

/-- What two worlds show alike: stores by presence, keys by fingerprint, inverses by members, and
the allocated ids. -/
structure Scope where
  stores : TypeId → Prop
  keys : TypeId → Prop
  inverses : TypeId → Prop
  ids : Prop

def Scope.all : Scope := ⟨fun _ => True, fun _ => True, fun _ => True, True⟩

structure SameView (σ : Scope) (w w' : World α) : Prop where
  allocated : σ.ids → w'.nextEntity = w.nextEntity
  has : ∀ t, σ.stores t → ∀ e, w'.has t e = w.has t e
  fingerprints : ∀ t, σ.keys t → ∀ e, w'.fingerprintOn t e = w.fingerprintOn t e
  buckets : ∀ t, σ.keys t → ∀ v, w'.fingerprintCandidates t v = w.fingerprintCandidates t v
  members : ∀ t, σ.inverses t → ∀ e, ((w'.cell? t e).bind fun x => x.value.relationshipMembers) =
    (w.cell? t e).bind fun x => x.value.relationshipMembers

variable {σ : Scope} {w w' : World α} {schema schema' : Option (List TypeId)}

/-- The buckets of a store follow from its fingerprints where the index is exact. -/
theorem World.IndicesExact.buckets (hw : w.IndicesExact) (hw' : w'.IndicesExact) {t : TypeId}
    (h : ∀ e, w'.fingerprintOn t e = w.fingerprintOn t e) (v : Fingerprint) :
    w'.fingerprintCandidates t v = w.fingerprintCandidates t v := by
  refine Ascending.eq_of_mem_iff (hw'.bucketed t v) (hw.bucketed t v) fun e => ?_
  have hleft := hw'.coherent.mem_fingerprintCandidates t v e
  have hright := hw.coherent.mem_fingerprintCandidates t v e
  rw [h] at hleft
  exact hleft.trans hright.symm

/-- Worlds with the same values and fingerprints show everything alike. -/
theorem SameView.of_values (hw : w.IndicesExact) (hw' : w'.IndicesExact)
    (hallocated : w'.nextEntity = w.nextEntity)
    (hvalues : ∀ t e, (w'.cell? t e).map Entry.value = (w.cell? t e).map Entry.value)
    (hfingerprints : ∀ t e, w'.fingerprintOn t e = w.fingerprintOn t e) : SameView σ w w' where
  allocated _ := hallocated
  has t _ e := by
    have hvalue := congrArg Option.isSome (hvalues t e)
    rwa [Option.isSome_map, Option.isSome_map] at hvalue
  fingerprints t _ := hfingerprints t
  buckets t _ := hw.buckets hw' (hfingerprints t)
  members t _ e := by
    have hbind : ∀ u : World α, ((u.cell? t e).bind fun x => x.value.relationshipMembers) =
        ((u.cell? t e).map Entry.value).bind Value.relationshipMembers := by
      intro u
      cases u.cell? t e <;> rfl
    rw [hbind, hbind, hvalues]

namespace QueryParam

/-- The stores that rows and observations of the shape are read from. -/
def readTypes : QueryParam → List TypeId
  | .entity h => h.map FacetPart.component
  | .read t => [t]
  | .mutRef t => [t]
  | .entityParts h parts => h.map FacetPart.component ++ parts.flatMap QueryPart.interestTypes

/-- The inverses whose members the shape projects. -/
def relatedTypes : QueryParam → List TypeId
  | .entityParts _ parts => parts.filterMap fun part => match part with
    | .related inverse _ => some inverse
    | _ => none
  | _ => []

theorem required_subset {h : Facet} {t : TypeId} (ht : t ∈ h.required) :
    t ∈ h.map FacetPart.component := by
  obtain ⟨part, hpart, rfl⟩ := List.mem_map.mp ht
  exact List.mem_map_of_mem (List.mem_filter.mp hpart).1

theorem read_of_related {q : QueryParam} {t : TypeId} (ht : t ∈ q.relatedTypes) :
    t ∈ q.readTypes := by
  cases q with
  | entityParts h parts =>
    obtain ⟨part, hpart, hrelated⟩ := List.mem_filterMap.mp ht
    refine List.mem_append_right _ (List.mem_flatMap.mpr ⟨part, hpart, ?_⟩)
    cases part with
    | related inverse members =>
      cases hrelated
      exact List.mem_cons_self
    | _ => cases hrelated
  | _ => cases ht

theorem read_of_required {q : QueryParam} {t : TypeId} (ht : t ∈ q.requiredTypes) :
    t ∈ q.readTypes := by
  cases q with
  | entity h => cases ht
  | read _ => exact ht
  | mutRef _ => exact ht
  | entityParts h parts =>
    refine List.mem_append.mpr ((List.mem_append.mp ht).imp required_subset fun ht => ?_)
    obtain ⟨part, hpart, hreq⟩ := List.mem_filterMap.mp ht
    refine List.mem_flatMap.mpr ⟨part, hpart, ?_⟩
    cases part with
    | read _ => cases hreq; exact List.mem_singleton_self _
    | mutRef _ => cases hreq; exact List.mem_singleton_self _
    | _ => cases hreq

theorem read_of_extent {q : QueryParam} {enumerated : Bool} {t : TypeId}
    (ht : t ∈ (q.extent enumerated).types) : t ∈ q.readTypes := by
  have hfacet : ∀ h : Facet, t ∈ h.extent.types → t ∈ h.map FacetPart.component := by
    intro h ht
    unfold Facet.extent at ht
    split_ifs at ht
    · cases ht
    · exact required_subset ht
  unfold extent at ht
  split_ifs at ht
  · exact read_of_required ht
  · cases q with
    | entity h => exact hfacet h ht
    | read _ => exact ht
    | mutRef _ => exact ht
    | entityParts h parts =>
      dsimp only at ht
      split_ifs at ht
      · exact read_of_required ht
      · cases parts with
        | nil => cases ht
        | cons part rest =>
          cases part with
          | tracked marker facet =>
            exact List.mem_append_right _ (List.mem_flatMap.mpr
              ⟨.tracked marker facet, List.mem_cons_self, hfacet facet ht⟩)
          | _ => cases ht

/-- A shape lists what it reads, or it has no interest: nothing to read, or a sole `MutRef`. -/
theorem interestTypes_cases (q : QueryParam) : q.interestTypes = some q.readTypes ∨
    q.interestTypes = none ∧ (q.readTypes = [] ∨ ∃ t, q = .mutRef t) := by
  cases q with
  | entity h =>
    by_cases hnone : h = []
    · subst hnone
      exact Or.inr ⟨rfl, Or.inl rfl⟩
    · exact Or.inl (if_neg hnone)
  | read t => exact Or.inl rfl
  | mutRef t => exact Or.inr ⟨rfl, Or.inr ⟨t, rfl⟩⟩
  | entityParts h parts =>
    by_cases hnone : parts = [] ∧ h = []
    · obtain ⟨rfl, rfl⟩ := hnone
      exact Or.inr ⟨rfl, Or.inl rfl⟩
    · exact Or.inl (if_neg hnone)

end QueryParam

namespace SystemParam

def readTypes : SystemParam → List TypeId
  | .query q f => q.readTypes ++ f.interestTypes
  | .outer q f => q.readTypes ++ f.interestTypes
  | _ => []

/-- The inverses whose members a parameter reads. -/
def listTypes : SystemParam → List TypeId
  | .query q f => q.relatedTypes ++ f.inKeyTypes
  | .outer q _ => q.relatedTypes
  | _ => []

/-- The stores a parameter observes as a whole. -/
def watchedTypes : SystemParam → List TypeId
  | .outer q f => q.accessAll.map Access.component ++ f.boundKeyTypes
  | .trackedView q f => trackedViewTypes q f
  | _ => []

def drawsIds : SystemParam → Bool
  | .query q f => !(SystemParam.query q f).pairExpandable && decide (q.extent f.enumerates = .ids)
  | .outer q f => decide (q.extent f.enumerates = .ids)
  | _ => false

/-- A bounded interest lists what the filter reads, and what the shape reads beside a `MutRef`. -/
theorem queryInterestTypes_cases {q : QueryParam} {f : QueryFilter} {types : List TypeId}
    (h : queryInterestTypes q f = some types) :
    types = q.readTypes ++ f.interestTypes ∨ types = f.interestTypes ∧ ∃ t, q = .mutRef t := by
  unfold queryInterestTypes at h
  rcases q.interestTypes_cases with hsome | ⟨hnone, hread⟩
  · rw [hsome] at h
    exact Or.inl (Option.some.inj h).symm
  · rw [hnone] at h
    dsimp only at h
    split_ifs at h
    cases h
    rcases hread with hread | hmut
    · rw [hread]
      exact Or.inl rfl
    · exact Or.inr ⟨rfl, hmut⟩

theorem subset_queryInterestTypes {q : QueryParam} {f : QueryFilter} {types : List TypeId}
    (h : queryInterestTypes q f = some types) : ∀ t ∈ f.interestTypes, t ∈ types := by
  rcases queryInterestTypes_cases h with rfl | ⟨rfl, -⟩
  · exact fun t => List.mem_append_right _
  · exact fun t => id

structure Within (σ : Scope) (p : SystemParam) : Prop where
  stores : ∀ t ∈ p.readTypes, σ.stores t
  keys : ∀ t ∈ p.boundKeyTypes, σ.keys t
  inverses : ∀ t ∈ p.listTypes, σ.inverses t
  ids : p.drawsIds = true → σ.ids

theorem within_all (p : SystemParam) : p.Within .all :=
  ⟨fun _ _ => trivial, fun _ _ => trivial, fun _ _ => trivial, fun _ => trivial⟩

end SystemParam

namespace SameView

variable (h : SameView σ w w')

include h

section Rows

theorem extent {x : Extent} (hstores : ∀ t ∈ x.types, σ.stores t) (hids : x = .ids → σ.ids)
    (e : Entity) : x.Mem w' e ↔ x.Mem w e := by
  cases x with
  | nothing => exact Iff.rfl
  | ids =>
    show e < w'.nextEntity ↔ e < w.nextEntity
    rw [h.allocated (hids rfl)]
  | carriers types =>
    show (∀ t ∈ types, w'.has t e = true) ↔ ∀ t ∈ types, w.has t e = true
    refine forall₂_congr fun t ht => ?_
    rw [h.has t (hstores t ht)]

variable {q : QueryParam} {f : QueryFilter}

theorem accepts (hq : ∀ t ∈ q.readTypes, σ.stores t) (e : Entity) :
    q.accepts w' e = q.accepts w e := by
  rw [Bool.eq_iff_iff, QueryParam.accepts_iff, QueryParam.accepts_iff]
  refine forall₂_congr fun t ht => ?_
  rw [h.has t (hq t (QueryParam.read_of_required ht))]

theorem matchesRow (hf : ∀ t ∈ f.interestTypes, σ.stores t) (e : Entity) :
    f.matchesRow w' e = f.matchesRow w e := by
  have hdecided : ∀ t ∈ f.presentTypes ++ f.absentTypes, w'.has t e = w.has t e := fun t ht =>
    h.has t (hf t (QueryFilter.interest_of_decides ht)) e
  rw [Bool.eq_iff_iff, QueryFilter.matchesRow_iff, QueryFilter.matchesRow_iff]
  refine and_congr (forall₂_congr fun t ht => ?_) (forall₂_congr fun t ht => ?_)
  · rw [hdecided t (List.mem_append_left _ ht)]
  · rw [hdecided t (List.mem_append_right _ ht)]

theorem rows (hp : w.Present schema) (hp' : w'.Present schema')
    (hq : ∀ t ∈ q.readTypes, σ.stores t) (hids : q.extent false = .ids → σ.ids) :
    q.rows w' = q.rows w := by
  refine q.ascending_rows.eq_of_mem_iff q.ascending_rows fun e => ?_
  rw [q.mem_rows_extent hp', q.mem_rows_extent hp]
  exact h.extent (fun t ht => hq t (QueryParam.read_of_extent ht)) hids e

theorem filteredRows (hp : w.Present schema) (hp' : w'.Present schema')
    (hq : ∀ t ∈ q.readTypes, σ.stores t) (hf : ∀ t ∈ f.interestTypes, σ.stores t)
    (hids : q.extent f.enumerates = .ids → σ.ids) : filteredRows w' q f = filteredRows w q f := by
  refine (ascending_filteredRows hp' q f).eq_of_mem_iff (ascending_filteredRows hp q f) fun e => ?_
  rw [mem_filteredRows_extent hp', mem_filteredRows_extent hp, h.matchesRow hf,
    h.extent (fun t ht => hq t (QueryParam.read_of_extent ht)) hids]

theorem filteredRowsFromCandidates (hp : w.Present schema) (hp' : w'.Present schema')
    (hq : ∀ t ∈ q.readTypes, σ.stores t) (hf : ∀ t ∈ f.interestTypes, σ.stores t)
    (candidates : List Entity) :
    filteredRowsFromCandidates w' q f candidates = filteredRowsFromCandidates w q f candidates := by
  unfold Porridge.filteredRowsFromCandidates
  rw [q.rowsHinted_some hp', q.rowsHinted_some hp, List.filter_filter, List.filter_filter]
  refine List.filter_congr fun e _ => ?_
  rw [h.accepts hq, h.matchesRow hf]

end Rows

section Parameters

theorem membersOn {t : TypeId} (ht : σ.inverses t) (e : Entity) :
    w'.membersOn t e = w.membersOn t e := by
  have hlist : ∀ u : World α, u.membersOn t e =
      ((u.cell? t e).bind fun x => x.value.relationshipMembers).getD [] := by
    intro u
    unfold World.membersOn
    cases u.cell? t e with
    | none => rfl
    | some x =>
      rw [Option.map_some, Option.bind_some, Option.getD_some]
      cases x.value <;> rfl
  rw [hlist, hlist, h.members t ht]

/-- The accesses of a row follow the members of its inverses. -/
theorem access {p : SystemParam} (hlists : ∀ t ∈ p.listTypes, σ.inverses t) (s : ParamState) :
    p.access w' s = p.access w s := by
  have hquery : ∀ (q : QueryParam) e, (∀ t ∈ q.relatedTypes, σ.inverses t) →
      q.access w' e = q.access w e := by
    intro q e hq
    cases q with
    | entityParts facet parts =>
      refine List.flatMap_congr fun part hpart => ?_
      cases part with
      | related inverse members =>
        have hinverse : σ.inverses inverse :=
          hq inverse (List.mem_filterMap.mpr ⟨.related inverse members, hpart, rfl⟩)
        simp only [QueryPart.access, h.membersOn hinverse]
      | _ => rfl
    | _ => rfl
  cases p with
  | query q f =>
    cases s with
    | row e =>
      exact congrArg (· ++ f.access e) (hquery q e fun t ht => hlists t (List.mem_append_left _ ht))
    | _ => rfl
  | outer q f =>
    cases s with
    | row e => exact congrArg (· ++ f.access e) (hquery q e hlists)
    | _ => rfl
  | _ => rfl

theorem providedKey (p : SystemParam) (s : ParamState) {key : TypeId} (hkey : σ.keys key) :
    p.providedKey w' s key = p.providedKey w s key := by
  have hpart : ∀ (part : QueryPart) e, part.providedKey w' e key = part.providedKey w e key := by
    intro part e
    rw [QueryPart.providedKey, QueryPart.providedKey, h.fingerprints key hkey]
  cases p with
  | query q f =>
    cases s with
    | row e =>
      cases q with
      | read t =>
        show (if key = t then some (w'.fingerprintOn t e) else none) =
          if key = t then some (w.fingerprintOn t e) else none
        split_ifs with hread
        · rw [← hread, h.fingerprints key hkey]
        · rfl
      | entityParts facet parts => exact List.findSome?_congr_mem fun part _ => hpart part e
      | _ => rfl
    | _ => rfl
  | _ => rfl

theorem providedMembers (p : SystemParam) (s : ParamState) {key : TypeId}
    (hkey : σ.inverses key) : p.providedMembers w' s key = p.providedMembers w s key := by
  have hpart : ∀ (part : QueryPart) e,
      part.providedMembers w' e key = part.providedMembers w e key := by
    intro part e
    rw [QueryPart.providedMembers, QueryPart.providedMembers, h.members key hkey]
  cases p with
  | query q f =>
    cases s with
    | row e =>
      cases q with
      | read t =>
        show (if key = t then (w'.cell? t e).bind fun x => x.value.relationshipMembers else none) =
          if key = t then (w.cell? t e).bind fun x => x.value.relationshipMembers else none
        split_ifs with hread
        · rw [← hread, h.members key hkey]
        · rfl
      | entityParts facet parts => exact List.findSome?_congr_mem fun part _ => hpart part e
      | _ => rfl
    | _ => rfl
  | _ => rfl

theorem boundKeys {f : QueryFilter} (hf : ∀ t ∈ f.boundKeyTypes, σ.keys t) (e : Entity) :
    f.boundKeys w' e = f.boundKeys w e := by
  have hkey : ∀ k : JoinKey, (∀ t ∈ k.boundKeyTypes, σ.keys t) →
      k.boundKeys w' e = k.boundKeys w e := by
    intro k hk
    induction k with
    | eq t =>
      have ht : σ.keys t := hk t (List.mem_singleton_self t)
      rw [JoinKey.boundKeys, JoinKey.boundKeys, h.fingerprints t ht]
    | inMembers t => rfl
    | and l r hl hr =>
      rw [JoinKey.boundKeys, JoinKey.boundKeys, hl fun t ht => hk t (List.mem_append_left _ ht),
        hr fun t ht => hk t (List.mem_append_right _ ht)]
  induction f with
  | whereKey k => exact hkey k hf
  | and l r hl hr =>
    rw [QueryFilter.boundKeys, QueryFilter.boundKeys,
      hl fun t ht => hf t (List.mem_append_left _ ht), hr fun t ht => hf t (List.mem_append_right _ ht)]
  | _ => rfl

variable (hp : w.Present schema) (hp' : w'.Present schema') {p : SystemParam} (hσ : p.Within σ)

include hp hp' hσ

theorem states (hexpand : p.pairExpandable = false) : p.states w' = p.states w := by
  have hids : p.drawsIds = true → σ.ids := hσ.ids
  cases p with
  | query q f =>
    refine congrArg _ (h.filteredRows hp hp' (fun t ht => hσ.stores t (List.mem_append_left _ ht))
      (fun t ht => hσ.stores t (List.mem_append_right _ ht)) fun hextent => hids ?_)
    rw [SystemParam.drawsIds, hexpand, decide_eq_true hextent]
    rfl
  | outer q f =>
    show (Porridge.filteredRows w' q f).map ParamState.row ++ [.absent] = _
    rw [h.filteredRows hp hp' (fun t ht => hσ.stores t (List.mem_append_left _ ht))
      (fun t ht => hσ.stores t (List.mem_append_right _ ht)) fun hextent =>
        hids (decide_eq_true hextent)]
    rfl
  | _ => rfl

theorem statesFromCandidates (candidates : List Entity) :
    p.statesFromCandidates w' candidates = p.statesFromCandidates w candidates := by
  cases p with
  | query q f =>
    exact congrArg _ (h.filteredRowsFromCandidates hp hp'
      (fun t ht => hσ.stores t (List.mem_append_left _ ht))
      (fun t ht => hσ.stores t (List.mem_append_right _ ht)) candidates)
  | outer q f => exact h.states hp hp' hσ rfl
  | _ => rfl

theorem absentBindingMatches (key : TypeId) (v : Fingerprint) :
    p.absentBindingMatches w' key v = p.absentBindingMatches w key v := by
  have hkeys : ∀ t ∈ p.boundKeyTypes, σ.keys t := hσ.keys
  cases p with
  | outer q f =>
    show (!(Porridge.filteredRows w' q f).any fun e => (f.boundKeys w' e).any _) =
      !(Porridge.filteredRows w q f).any fun e => (f.boundKeys w e).any _
    rw [h.filteredRows hp hp' (fun t ht => hσ.stores t (List.mem_append_left _ ht))
      (fun t ht => hσ.stores t (List.mem_append_right _ ht)) fun hextent =>
        hσ.ids (decide_eq_true hextent)]
    simp only [h.boundKeys hkeys]
  | _ => rfl

theorem pickable (rows : List ParamState) (picked : Params.Picked) :
    Params.pickable w' p rows picked = Params.pickable w p rows picked := by
  have hfrom : p.statesFromCandidates w' = p.statesFromCandidates w :=
    funext (h.statesFromCandidates hp hp' hσ)
  have hlists : ∀ t ∈ p.inKeyTypes, σ.inverses t := by
    cases p with
    | query q f => exact fun t ht => hσ.inverses t (List.mem_append_right _ ht)
    | _ => nofun
  have hkeys : ∀ t ∈ p.boundKeyTypes, σ.keys t := hσ.keys
  unfold Params.pickable Params.pairRows
  cases hin : p.inKeyTypes with
  | cons key keys =>
    have hkey : σ.inverses key := hlists key (hin ▸ List.mem_cons_self)
    simp only [h.providedMembers _ _ hkey, hfrom]
  | nil =>
    cases hbound : p.boundKeyTypes with
    | cons key keys =>
      have hkey : σ.keys key := hkeys key (hbound ▸ List.mem_cons_self)
      simp only [h.providedKey _ _ hkey, h.buckets key hkey, hfrom]
    | nil => rfl

omit hσ

theorem product : ∀ (rest : List (SystemParam × List ParamState)) (picked : Params.Picked),
    (∀ q ∈ rest, q.1.Within σ) → Params.product w' picked rest = Params.product w picked rest
  | [], _, _ => rfl
  | (p, rows) :: rest, picked, hσ => by
    have hrest : ∀ picked, Params.product w' picked rest = Params.product w picked rest :=
      fun picked => product rest picked fun q hq => hσ q (List.mem_cons_of_mem _ hq)
    simp only [Params.product, h.pickable hp hp' (hσ (p, rows) List.mem_cons_self), hrest]

theorem bindingMatches {ps : Params} (hσ : ∀ p ∈ ps, p.Within σ) (state : List ParamState) :
    Params.bindingMatches w' ps state = Params.bindingMatches w ps state := by
  have hzip : ∀ q ∈ (ps.zip state).others, q.1.1.Within σ := fun q hq =>
    hσ q.1.1 (List.of_mem_zip (List.mem_of_mem_others hq)).1
  have hkeyed : ∀ {key}, σ.keys key →
      (fun (p : SystemParam) s => p.providedKey w' s key) = fun p s => p.providedKey w s key :=
    fun hkey => funext fun p => funext fun s => h.providedKey p s hkey
  have hlisted : ∀ {key}, σ.inverses key →
      (fun (p : SystemParam) s => p.providedMembers w' s key) =
        fun p s => p.providedMembers w s key :=
    fun hkey => funext fun p => funext fun s => h.providedMembers p s hkey
  have hfiltered : ∀ (f : QueryFilter), (∀ t ∈ f.boundKeyTypes, σ.keys t) → ∀ e,
      f.boundKeys w' e = f.boundKeys w e ∧ ∀ bound ∈ f.boundKeys w e, σ.keys bound.1 := by
    intro f hf e
    exact ⟨h.boundKeys hf e, fun bound hbound => hf _ (QueryFilter.mem_boundKeys.mp hbound).1⟩
  have hbound : ∀ (p : SystemParam) s, p.Within σ → p.boundKeys w' s = p.boundKeys w s ∧
      ∀ bound ∈ p.boundKeys w s, σ.keys bound.1 := by
    intro p s hp
    cases p with
    | query q f =>
      cases s with
      | row e => exact hfiltered f hp.keys e
      | _ => exact ⟨rfl, nofun⟩
    | outer q f =>
      cases s with
      | row e => exact hfiltered f hp.keys e
      | _ => exact ⟨rfl, nofun⟩
    | _ => exact ⟨rfl, nofun⟩
  have hmembers : ∀ (p : SystemParam) s, p.Within σ → ∀ member ∈ p.inKeys s,
      σ.inverses member.1 := by
    intro p s hp member hmember
    cases p with
    | query q f =>
      cases s with
      | row e =>
        obtain ⟨t, ht, rfl⟩ := List.mem_map.mp hmember
        exact hp.inverses t (List.mem_append_right _ ht)
      | _ => cases hmember
    | _ => cases hmember
  have habsent : ∀ (p : SystemParam) s, p.Within σ → ∀ key ∈ p.absentKeys s, σ.keys key := by
    intro p s hp key hkey
    cases p with
    | outer q f =>
      cases s with
      | absent => exact hp.keys key hkey
      | _ => cases hkey
    | _ => cases hkey
  unfold Params.bindingMatches Params.bindingChecks
  congr 1
  congr 1
  · congr 1
    · refine List.flatMap_congr fun q hq => ?_
      obtain ⟨hkeys, hscope⟩ := hbound q.1.1 q.1.2 (hzip q hq)
      rw [hkeys]
      refine List.map_congr_left fun bound hmem => ?_
      unfold Params.boundCheck
      rw [hkeyed (hscope bound hmem)]
    · refine List.flatMap_congr fun q hq => List.map_congr_left fun member hmem => ?_
      unfold Params.memberCheck
      rw [hlisted (hmembers q.1.1 q.1.2 (hzip q hq) member hmem)]
  · refine List.flatMap_congr fun q hq => List.map_congr_left fun key hmem => ?_
    have hmatches : q.1.1.absentBindingMatches w' key = q.1.1.absentBindingMatches w key :=
      funext (h.absentBindingMatches hp hp' (hzip q hq) key)
    unfold Params.absentCheck
    rw [hkeyed (habsent q.1.1 q.1.2 (hzip q hq) key hmem), hmatches]

/-- Full planning yields the same states. -/
theorem planned {ps : Params} (hσ : ∀ p ∈ ps, p.Within σ) :
    Params.states w' ps = Params.states w ps := by
  have hmatches : Params.bindingMatches w' ps = Params.bindingMatches w ps :=
    funext (h.bindingMatches hp hp' hσ)
  have hrows : (ps.map fun p => (p, if p.pairExpandable then [] else p.states w')) =
      ps.map fun p => (p, if p.pairExpandable then [] else p.states w) := by
    refine List.map_congr_left fun p hmem => ?_
    cases hexpand : p.pairExpandable with
    | true => rfl
    | false => rw [h.states hp hp' (hσ p hmem) hexpand]
  have hproduct := h.product hp hp' (ps.map fun p => (p, if p.pairExpandable then [] else p.states w))
    [] fun q hq => by
      obtain ⟨p, hmem, rfl⟩ := List.mem_map.mp hq
      exact hσ p hmem
  simp only [Params.states, hrows, hproduct, hmatches]

end Parameters

section Dependencies

variable (C : Components α)
  (hrevisions : ∀ t, σ.stores t → ∀ e, w'.revisionByType t e = w.revisionByType t e)

include hrevisions

omit h in
theorem componentDep {t : TypeId} (ht : σ.stores t) (e : Entity) :
    componentDep C w' t e = componentDep C w t e := by
  rw [Porridge.componentDep, Porridge.componentDep, hrevisions t ht]

theorem partDeps {part : QueryPart} (hpart : ∀ t ∈ part.interestTypes, σ.stores t)
    (hlists : ∀ inverse parts, part = .related inverse parts → σ.inverses inverse) (e : Entity) :
    part.deps C w' e = part.deps C w e := by
  have hdep : ∀ t ∈ part.interestTypes, ∀ e, Porridge.componentDep C w' t e =
      Porridge.componentDep C w t e := fun t ht => componentDep C hrevisions (hpart t ht)
  cases part with
  | tracked marker facet =>
    exact List.flatMap_congr fun p hp => hdep _ (List.mem_map_of_mem hp) e
  | related inverse parts =>
    have hmembers := h.membersOn (hlists inverse parts rfl) e
    simp only [QueryPart.deps, hmembers, hdep inverse List.mem_cons_self]
    refine congrArg _ (List.flatMap_congr fun m _ => List.flatMap_congr fun p hp => ?_)
    exact hdep _ (List.mem_cons_of_mem _ (List.mem_map_of_mem hp)) m
  | read t => exact hdep t (List.mem_singleton_self t) e
  | optional t => exact hdep t (List.mem_singleton_self t) e
  | mutRef t => exact hdep t (List.mem_singleton_self t) e

variable {q : QueryParam} {f : QueryFilter}

theorem queryDeps (hq : ∀ t ∈ q.readTypes, σ.stores t) (hlists : ∀ t ∈ q.relatedTypes, σ.inverses t)
    (e : Entity) : q.deps C w' e = q.deps C w e := by
  cases q with
  | entity _ => rfl
  | read t => exact componentDep C hrevisions (hq t (List.mem_singleton_self t)) e
  | mutRef t => exact componentDep C hrevisions (hq t (List.mem_singleton_self t)) e
  | entityParts facet parts =>
    refine List.flatMap_congr fun part hpart => h.partDeps C hrevisions (fun t ht => hq t ?_)
      (fun inverse members hrelated => hlists inverse ?_) e
    · exact List.mem_append_right _ (List.mem_flatMap.mpr ⟨part, hpart, ht⟩)
    · exact List.mem_filterMap.mpr ⟨part, hpart, by rw [hrelated]⟩

omit h in
theorem filterDeps (hf : ∀ t ∈ f.interestTypes, σ.stores t) (e : Entity) :
    f.deps C w' e = f.deps C w e := by
  have hkey : ∀ k : JoinKey, (∀ t ∈ k.interestTypes, σ.stores t) →
      k.deps C w' e = k.deps C w e := by
    intro k hk
    induction k with
    | eq t => exact componentDep C hrevisions (hk t (List.mem_singleton_self t)) e
    | inMembers t => rfl
    | and l r hl hr =>
      rw [JoinKey.deps, JoinKey.deps, hl fun t ht => hk t (List.mem_append_left _ ht),
        hr fun t ht => hk t (List.mem_append_right _ ht)]
  induction f with
  | withComponent t => exact componentDep C hrevisions (hf t (List.mem_singleton_self t)) e
  | whereKey k => exact hkey k hf
  | and l r hl hr =>
    rw [QueryFilter.deps, QueryFilter.deps, hl fun t ht => hf t (List.mem_append_left _ ht),
      hr fun t ht => hf t (List.mem_append_right _ ht)]
  | _ => rfl

/-- Every state observes the same. -/
theorem deps {p : SystemParam} (hσ : p.Within σ) (hwatermarks : ∀ t ∈ p.watchedTypes,
    w'.storeWatermark t = w.storeWatermark t) (s : ParamState) : p.deps C w' s = p.deps C w s := by
  have hmark : ∀ t ∈ p.watchedTypes, storeWatermarkDep w' t = storeWatermarkDep w t := fun t ht => by
    rw [storeWatermarkDep, storeWatermarkDep, hwatermarks t ht]
  have hrow : ∀ (q : QueryParam) (f : QueryFilter) e,
      (∀ t ∈ q.readTypes ++ f.interestTypes, σ.stores t) →
      (∀ t ∈ q.relatedTypes, σ.inverses t) →
      q.deps C w' e ++ f.deps C w' e = q.deps C w e ++ f.deps C w e := by
    intro q f e hstores hlists
    rw [h.queryDeps C hrevisions (fun t ht => hstores t (List.mem_append_left _ ht)) hlists,
      filterDeps C hrevisions fun t ht => hstores t (List.mem_append_right _ ht)]
  cases p with
  | query q f =>
    cases s with
    | row e =>
      exact hrow q f e hσ.stores fun t ht => hσ.inverses t (List.mem_append_left _ ht)
    | _ => rfl
  | outer q f =>
    cases s with
    | row e => exact hrow q f e hσ.stores hσ.inverses
    | absent =>
      show q.accessAll.map _ ++ f.boundKeyTypes.map _ = q.accessAll.map _ ++ f.boundKeyTypes.map _
      rw [List.map_congr_left fun access haccess => hmark access.component
          (List.mem_append_left _ (List.mem_map_of_mem haccess)),
        List.map_congr_left fun key hkey => hmark key (List.mem_append_right _ hkey)]
    | unit => rfl
  | trackedView q f => exact List.map_congr_left fun t ht => hmark t ht
  | _ => rfl

end Dependencies

end SameView

/-! ## Hints, between worlds that show everything alike -/

namespace SameView

variable (h : SameView .all w w')

include h

theorem rowsHinted (hp : w.Present schema) (hp' : w'.Present schema') (q : QueryParam)
    (hint : Option (List Entity)) : q.rowsHinted w' hint = q.rowsHinted w hint := by
  cases hint with
  | none =>
    have hrows : ∀ u : World α, q.rowsHinted u none = q.rows u := by
      intro u
      cases q <;> rfl
    rw [hrows, hrows]
    exact h.rows hp hp' (fun _ _ => trivial) fun _ => trivial
  | some candidates =>
    rw [q.rowsHinted_some hp', q.rowsHinted_some hp]
    exact List.filter_congr fun e _ => h.accepts (fun _ _ => trivial) e

theorem entitiesWith (t : TypeId) : w'.entitiesWith t = w.entitiesWith t := by
  refine (ascending_entitiesWith w' t).eq_of_mem_iff (ascending_entitiesWith w t) fun e => ?_
  rw [World.mem_entitiesWith, World.mem_entitiesWith, h.has t trivial]

theorem storeLen (t : TypeId) : w'.storeLen t = w.storeLen t := by
  have hlength : ∀ u : World α, (u.entitiesWith t).length = u.storeLen t := fun u =>
    List.length_insertionSort _ _
  rw [← hlength, ← hlength, h.entitiesWith]

theorem isLarge (p : SystemParam) : Params.isLarge w' p = Params.isLarge w p := by
  have hlen : w'.storeLen = w.storeLen := funext h.storeLen
  have hpart : QueryPart.storeLen w' = QueryPart.storeLen w := by
    funext part
    cases part <;> simp only [QueryPart.storeLen, hlen]
  have hbound : p.rowBound w' = p.rowBound w := by
    cases p with
    | query q f =>
      have hrows : q.rowBound w' = q.rowBound w := by
        cases q <;> simp only [QueryParam.rowBound, hlen, hpart]
      have hcandidates : f.candidateBound w' = f.candidateBound w := by
        cases f <;> simp only [QueryFilter.candidateBound, hlen]
      simp only [SystemParam.rowBound, hrows, hcandidates]
    | _ => rfl
  rw [Params.isLarge, Params.isLarge, hbound]

variable (C : Components α) (hedges : ∀ t e, w'.edgeOn C t e = w.edgeOn C t e)

include hedges

theorem hintProviders (p : SystemParam) (hint : List Entity) :
    p.hintProviders C w' hint = p.hintProviders C w hint := by
  have htargets : ∀ t members, edgeTargets C w' t members = edgeTargets C w t members := by
    intro t members
    unfold edgeTargets
    cases C.role t with
    | inverse edge => simp only [hedges]
    | _ => rfl
  have hpart : ∀ part : QueryPart, part.hintProviders C w' hint = part.hintProviders C w hint := by
    intro part
    cases part with
    | related inverse _ => exact htargets inverse hint
    | _ => rfl
  have hquery : ∀ q : QueryParam, q.hintProviders C w' hint = q.hintProviders C w hint := by
    intro q
    cases q with
    | entityParts _ parts => exact List.flatMap_congr fun part _ => hpart part
    | _ => rfl
  have hkey : ∀ k : JoinKey, k.hintProviders C w' hint = k.hintProviders C w hint := by
    intro k
    cases k with
    | eq t =>
      simp only [JoinKey.hintProviders, h.fingerprints t trivial, h.buckets t trivial]
    | inMembers inverse => exact htargets inverse hint
    | and _ _ => rfl
  have hfilter : ∀ f : QueryFilter, f.hintProviders C w' hint = f.hintProviders C w hint := by
    intro f
    induction f with
    | whereKey k => exact hkey k
    | and l r hl hr => rw [QueryFilter.hintProviders, QueryFilter.hintProviders, hl, hr]
    | _ => rfl
  cases p with
  | query q f => rw [SystemParam.hintProviders, SystemParam.hintProviders, hquery, hfilter]
  | _ => rfl

/-- Hinted planning yields the same states. -/
theorem plannedHinted (hp : w.Present schema) (hp' : w'.Present schema') (ps : Params)
    (hint : List Entity) : Params.statesHinted C w' ps hint = Params.statesHinted C w ps hint := by
  have hall : ∀ p ∈ ps, p.Within .all := fun p _ => p.within_all
  have hstates : ∀ p : SystemParam, p.states w' = p.states w := by
    intro p
    cases p with
    | query q f =>
      exact congrArg _ (h.filteredRows hp hp' (fun _ _ => trivial) (fun _ _ => trivial)
        fun _ => trivial)
    | outer q f => exact h.states hp hp' (SystemParam.within_all _) rfl
    | _ => rfl
  have hlarge : Params.isLarge w' = Params.isLarge w := funext h.isLarge
  have hexpand : Params.expandHint C w' ps hint = Params.expandHint C w ps hint := by
    unfold Params.expandHint
    simp only [h.hintProviders C hedges]
  have hhinted : ∀ (p : SystemParam) hint, p.statesHinted w' hint = p.statesHinted w hint := by
    intro p hint
    cases p with
    | query q f =>
      exact h.statesFromCandidates hp hp' (SystemParam.within_all (.query q f)) hint
    | outer q f => exact hstates (.outer q f)
    | _ => rfl
  have hdirty : ∀ hint, Params.tinyDirty w' ps hint = Params.tinyDirty w ps hint := by
    intro hint
    unfold Params.tinyDirty
    simp only [hlarge, hstates]
  have hrows : ∀ p hint, Params.hintedRows w' p hint = Params.hintedRows w p hint := by
    intro p hint
    unfold Params.hintedRows
    simp only [hlarge, hstates, hhinted]
  have hproduct := fun hint => h.product hp hp'
    (ps.map fun p => (p, Params.hintedRows w p hint)) [] fun q _ => q.1.within_all
  simp only [Params.statesHinted, hlarge, hexpand, hdirty, hrows, h.planned hp hp' hall, hproduct]

end SameView
end Porridge
