import Porridge.Query.Locality
import Porridge.World.Inverses

/-! Joined rows before and after a change: which of them one round of provider translation covers,
and which hang on a chain of joins. -/
namespace Porridge

variable {α : Type}

namespace SystemParam

def joinKeys (p : SystemParam) : List TypeId := p.inKeyTypes ++ p.boundKeyTypes

def projectsMembers : SystemParam → Bool
  | .query q _ => !q.supportsWholeStoreView
  | _ => false

end SystemParam

namespace Params

open SystemParam

/-- The provider of a join: the first parameter before it that reads the key. -/
def providerOf (before : Params) (p : SystemParam) : Option SystemParam :=
  p.joinKeys.head?.bind fun key => before.find? (·.providesKey key)

/-- A join beyond one round of translation: its provider is a join, or its rows read members. -/
def chained (before : Params) (p : SystemParam) : Bool :=
  p.pairExpandable && (p.projectsMembers || (providerOf before p).any pairExpandable)

/-- The chained states are offered in the world as well, after the states picked before them. -/
def ChainOffered (w : World α) : Picked → Picked → Prop
  | _, [] => True
  | before, (p, s) :: rest =>
    (chained (before.map Prod.fst) p = true →
      ∃ offered, pairRows w p before = some offered ∧ s ∈ offered) ∧
    ChainOffered w (before ++ [(p, s)]) rest

/-- What picked states observe when the chained ones are read in the earlier world. -/
def chainDeps (C : Components α) (w₀ w : World α) : Picked → Picked → List Dep
  | _, [] => []
  | before, (p, s) :: rest =>
    (if chained (before.map Prod.fst) p then p.deps C w₀ s else p.deps C w s) ++
      chainDeps C w₀ w (before ++ [(p, s)]) rest

def Reached (C : Components α) (w : World α) (ps : Params) (hint : List Entity) (e : Entity) : Prop :=
  e ∈ hint ∨ ∃ p ∈ ps, e ∈ p.hintProviders C w hint

def Unreached (C : Components α) (w : World α) (ps : Params) (hint : List Entity)
    (x : SystemParam × ParamState) : Prop :=
  x.1.deltaShape = .driver → ∀ e ∈ x.2.keys, ¬ Reached C w ps hint e

/-- The tuples that delta planning covers, over anchored shapes and maintained inverses. -/
structure DeltaEligible (C : Components α) (ps : Params) : Prop where
  shape : ps.deltaShape = .driver
  anchored : ∀ q f, .query q f ∈ ps → q.Anchored
  memberships : ∀ q f, .query q f ∈ ps → ∀ t ∈ f.inKeyTypes, ∃ edge, C.role t = .inverse edge
  projections : ∀ h parts f, .query (.entityParts h parts) f ∈ ps →
    ∀ inverse members, .related inverse members ∈ parts → ∃ edge, C.role inverse = .inverse edge

/-- The second world comes later in a run, its inverses are exact, and the hint names every entity
with a changed entry in an interest store. -/
structure Changes (C : Components α) (w₀ w : World α) (ps : Params) (hint : List Entity) : Prop where
  reachable : World.Reachable C w₀
  later : ∃ ops, (World.machine C).run w₀ ops = some w
  inverses : ∀ edge inverse, C.role inverse = .inverse edge → w.InversesExact C edge inverse
  unchanged : ∀ types, ps.interestTypes = some types → ∀ e, e ∉ hint → SameOn w₀ w types e

section Shapes

variable {C : Components α} {ps : Params}

/-- An eligible parameter contributes one unit state, or rows as a driver or a single-key join. -/
theorem DeltaEligible.cases (h : DeltaEligible C ps) {p : SystemParam} (hp : p ∈ ps) :
    (p.deltaShape = .inert ∧ p.pairExpandable = false ∧ (∀ w : World α, p.states w = [.unit]) ∧
        (∀ key, p.providesKey key = false) ∧ ∀ w : World α, ∀ s, p.deps C w s = []) ∨
      ∃ q f, p = .query q f ∧ ((p.deltaShape = .driver ∧ p.pairExpandable = false) ∨
        (p.deltaShape = .pairBound ∧ p.pairExpandable = true)) := by
  have hnone : p.deltaShape ≠ .opaqueShape := by
    intro hunshaped
    have hany : ps.any (·.deltaShape == .opaqueShape) = true :=
      List.any_eq_true.mpr ⟨p, hp, by rw [hunshaped]; rfl⟩
    have hshape := h.shape
    rw [deltaShape, if_pos hany] at hshape
    cases hshape
  cases p with
  | query q f =>
    refine Or.inr ⟨q, f, rfl, ?_⟩
    unfold SystemParam.deltaShape at hnone ⊢
    dsimp only at hnone ⊢
    by_cases hunbound : (f.boundKeyTypes.isEmpty && f.inKeyTypes.isEmpty) = true
    · rw [if_pos hunbound]
      refine Or.inl ⟨rfl, ?_⟩
      obtain ⟨hb, hi⟩ := (Bool.and_eq_true _ _).mp hunbound
      simp [pairExpandable, List.isEmpty_iff.mp hb, List.isEmpty_iff.mp hi]
    · rw [if_neg hunbound] at hnone ⊢
      by_cases hexpand : (SystemParam.query q f).pairExpandable = true
      · rw [if_pos hexpand]
        exact Or.inr ⟨rfl, hexpand⟩
      · rw [if_neg hexpand] at hnone
        exact absurd rfl hnone
  | outer => exact absurd rfl hnone
  | trackedView => exact absurd rfl hnone
  | worldMeta => exact absurd rfl hnone
  | view => exact Or.inl ⟨rfl, rfl, fun _ => rfl, fun _ => rfl, fun _ _ => rfl⟩
  | commands => exact Or.inl ⟨rfl, rfl, fun _ => rfl, fun _ => rfl, fun _ _ => rfl⟩

theorem DeltaEligible.interest (h : DeltaEligible C ps) : ∃ types, ps.interestTypes = some types := by
  have hall : ∀ p ∈ ps, ∃ types, p.interestTypes = some types := by
    intro p hp
    rcases h.cases hp with ⟨hinert, -⟩ | ⟨q, f, rfl, -⟩
    · cases p with
      | view => exact ⟨[], rfl⟩
      | commands => exact ⟨[], rfl⟩
      | query q f =>
        obtain ⟨facet, parts, -, hsome⟩ := queryInterestTypes_anchored (h.anchored q f hp) f
        exact ⟨_, hsome⟩
      | _ => cases hinert
    · obtain ⟨facet, parts, -, hsome⟩ := queryInterestTypes_anchored (h.anchored q f hp) f
      exact ⟨_, hsome⟩
  clear h
  induction ps with
  | nil => exact ⟨[], rfl⟩
  | cons p ps ih =>
    obtain ⟨own, hown⟩ := hall p List.mem_cons_self
    obtain ⟨types, htypes⟩ := ih fun p hp => hall p (List.mem_cons_of_mem _ hp)
    obtain ⟨lists, hlists, rfl⟩ := Option.map_eq_some_iff.mp htypes
    refine ⟨(own :: lists).flatten, ?_⟩
    rw [Params.interestTypes, List.mapM_cons, hown, hlists]
    rfl

theorem Changes.same {w₀ w : World α} {hint : List Entity} (he : DeltaEligible C ps)
    (hc : Changes C w₀ w ps hint) {q : QueryParam} {f : QueryFilter} (hmem : .query q f ∈ ps) :
    ∃ own, queryInterestTypes q f = some own ∧ ∀ e, e ∉ hint → SameOn w₀ w own e := by
  obtain ⟨types, htypes⟩ := he.interest
  obtain ⟨own, hown, hsub⟩ := interest_of_mem htypes hmem
  exact ⟨own, hown, fun e hnot => (hc.unchanged types htypes e hnot).mono hsub⟩

end Shapes

section Translation

variable {C : Components α} {w : World α} {hint : List Entity} {e m : Entity}

/-- A listed member is translated to the entity that lists it. -/
theorem mem_edgeTargets {edge inverse : TypeId} (hrole : C.role inverse = .inverse edge)
    (hexact : w.InversesExact C edge inverse) (hm : m ∈ hint) (hlisted : m ∈ w.membersOn inverse e) :
    e ∈ edgeTargets C w inverse hint := by
  have hedge := (hexact.mem_membersOn e m).mp hlisted
  unfold edgeTargets
  rw [hrole]
  dsimp only
  exact List.mem_filterMap.mpr ⟨m, hm, by rw [hedge]; rfl⟩

theorem keys_pos : ∀ k : JoinKey, 1 ≤ k.boundKeyTypes.length + k.inKeyTypes.length
  | .eq _ => Nat.le_refl 1
  | .inMembers _ => Nat.le_refl 1
  | .and l r => by
    have hl := keys_pos l
    rw [JoinKey.boundKeyTypes, JoinKey.inKeyTypes, List.length_append, List.length_append]
    omega

/-- A single-key join translates each hinted row to the entities that share its key. -/
theorem mem_hintProviders_eq {key : TypeId} {v : Fingerprint} : ∀ {f : QueryFilter},
    f.inKeyTypes.length + f.boundKeyTypes.length ≤ 1 → key ∈ f.boundKeyTypes → m ∈ hint →
      w.fingerprintOn key m = some v → e ∈ w.fingerprintCandidates key v →
        e ∈ f.hintProviders C w hint
  | .unit, _, hkey, _, _, _ => nomatch hkey
  | .withComponent _, _, hkey, _, _, _ => nomatch hkey
  | .withoutComponent _, _, hkey, _, _, _ => nomatch hkey
  | .whereKey (.eq t), _, hkey, hm, hv, he => by
    have ht : key = t := List.mem_singleton.mp hkey
    subst ht
    exact List.mem_flatMap.mpr ⟨m, hm, by rw [hv]; exact he⟩
  | .whereKey (.inMembers _), _, hkey, _, _, _ => nomatch hkey
  | .whereKey (.and l r), hone, _, _, _, _ => by
    have hl := keys_pos l
    have hr := keys_pos r
    simp only [QueryFilter.boundKeyTypes, QueryFilter.inKeyTypes, JoinKey.boundKeyTypes,
      JoinKey.inKeyTypes, List.length_append] at hone
    omega
  | .and l r, hone, hkey, hm, hv, he => by
    simp only [QueryFilter.boundKeyTypes, QueryFilter.inKeyTypes, List.length_append] at hone
    rcases List.mem_append.mp hkey with hkey | hkey
    · exact List.mem_append_left _ (mem_hintProviders_eq (by omega) hkey hm hv he)
    · exact List.mem_append_right _ (mem_hintProviders_eq (by omega) hkey hm hv he)

/-- A single membership join translates each hinted row to the entity that lists it. -/
theorem mem_hintProviders_in {key : TypeId} : ∀ {f : QueryFilter},
    f.inKeyTypes.length + f.boundKeyTypes.length ≤ 1 → key ∈ f.inKeyTypes →
      e ∈ edgeTargets C w key hint → e ∈ f.hintProviders C w hint
  | .unit, _, hkey, _ => nomatch hkey
  | .withComponent _, _, hkey, _ => nomatch hkey
  | .withoutComponent _, _, hkey, _ => nomatch hkey
  | .whereKey (.eq _), _, hkey, _ => nomatch hkey
  | .whereKey (.inMembers t), _, hkey, he => by
    have ht : key = t := List.mem_singleton.mp hkey
    subst ht
    exact he
  | .whereKey (.and l r), hone, _, _ => by
    have hl := keys_pos l
    have hr := keys_pos r
    simp only [QueryFilter.boundKeyTypes, QueryFilter.inKeyTypes, JoinKey.boundKeyTypes,
      JoinKey.inKeyTypes, List.length_append] at hone
    omega
  | .and l r, hone, hkey, he => by
    simp only [QueryFilter.boundKeyTypes, QueryFilter.inKeyTypes, List.length_append] at hone
    rcases List.mem_append.mp hkey with hkey | hkey
    · exact List.mem_append_left _ (mem_hintProviders_in (by omega) hkey he)
    · exact List.mem_append_right _ (mem_hintProviders_in (by omega) hkey he)

end Translation

section Frame

variable {C : Components α} {ps : Params} {w₀ w : World α} {hint : List Entity}

/-- A state picked in the later world that the hint does not reach; a query picked a row that its
shape accepts. -/
structure Untouched (C : Components α) (w : World α) (ps : Params) (hint : List Entity)
    (x : SystemParam × ParamState) : Prop where
  mem : x.1 ∈ ps
  row : ∀ q f, x.1 = .query q f → ∃ e, x.2 = .row e ∧ q.accepts w e = true
  unreached : Unreached C w ps hint x

theorem providesKey_anchored {q : QueryParam} (hq : q.Anchored) {key : TypeId}
    (h : q.providesKey key = true) : ∃ facet parts, q = .entityParts facet parts ∧
      .read key ∈ parts := by
  obtain ⟨facet, parts, rfl, -⟩ := hq.tuple
  obtain ⟨part, hmem, hkey⟩ := List.any_eq_true.mp h
  refine ⟨facet, parts, rfl, ?_⟩
  cases part with
  | read t => exact beq_iff_eq.mp hkey ▸ hmem
  | _ => cases hkey

/-- An accepted row provides every key that its shape reads. -/
theorem provided_of_accepts {q : QueryParam} (hq : q.Anchored) {key : TypeId}
    (h : q.providesKey key = true) {e : Entity} (ha : q.accepts w e = true) :
    w.has key e = true ∧ q.providedKey w e key = some (w.fingerprintOn key e) ∧
      q.providedMembers w e key = (w.cell? key e).bind fun x => x.value.relationshipMembers := by
  obtain ⟨facet, parts, rfl, hread⟩ := providesKey_anchored hq h
  have hhas : w.has key e = true := by
    refine QueryParam.accepts_requiredTypes ha (List.mem_append_right _ ?_)
    exact List.mem_filterMap.mpr ⟨.read key, hread, rfl⟩
  have hany : parts.any (·.providesKey key) = true := h
  refine ⟨hhas, ?_, ?_⟩
  · have hfound := List.findSome?_ite (·.providesKey key) (some (w.fingerprintOn key e)) parts
    rw [hany, if_pos rfl] at hfound
    exact hfound
  · have hfound := List.findSome?_ite (·.providesKey key)
      ((w.cell? key e).bind fun x => x.value.relationshipMembers) parts
    rw [hany, if_pos rfl] at hfound
    exact hfound

/-- A parameter that provides a key is a query. -/
theorem query_of_providesKey {p : SystemParam} {key : TypeId} (h : p.providesKey key = true) :
    ∃ q f, p = .query q f ∧ q.providesKey key = true := by
  cases p with
  | query q f => exact ⟨q, f, rfl, h⟩
  | _ => cases h

/-- A maintained inverse on an entity that carries it is its member list. -/
theorem relationshipMembers_of_has {edge inverse : TypeId}
    (hexact : w.InversesExact C edge inverse) {e : Entity} (hhas : w.has inverse e = true) :
    (w.cell? inverse e).bind (fun x => x.value.relationshipMembers) =
      some (w.membersOn inverse e) := by
  obtain ⟨x, hx⟩ := (World.has_iff w inverse e).mp hhas
  obtain ⟨members, hvalue, -⟩ := hexact.members e x hx
  rw [World.membersOn, hx]
  simp [hvalue, Value.relationshipMembers, Value.memberList]

/-- What the first untouched reader of a key provides, it provided in the earlier world as well,
where it is a driver. -/
theorem exists_provider {β : Type} (he : DeltaEligible C ps)
    {g : World α → SystemParam → ParamState → Option β} {key : TypeId} {p : SystemParam}
    (hkey : p.joinKeys.head? = some key) {before : Picked}
    (hsilent : ∀ w' other s, other.providesKey key = false → g w' other s = none)
    (hprovides : ∀ q f, .query q f ∈ ps → q.providesKey key = true → ∀ e, q.accepts w e = true →
      ∃ b, g w (.query q f) (.row e) = some b)
    (hsame : ∀ q f, .query q f ∈ ps → ∀ e, e ∉ hint →
      g w₀ (.query q f) (.row e) = g w (.query q f) (.row e))
    (hbefore : ∀ x ∈ before, Untouched C w ps hint x)
    (hchained : chained (before.map Prod.fst) p = false) (hexpand : p.pairExpandable = true)
    {b : β} (h : provided before (g w) = some b) :
    provided before (g w₀) = some b ∧ ∃ q f e, .query q f ∈ ps ∧ q.accepts w e = true ∧
      q.providesKey key = true ∧ g w (.query q f) (.row e) = some b ∧
        ¬ Reached C w ps hint e := by
  obtain ⟨l, ⟨other, s⟩, r, rfl, hfound, hnone⟩ := List.findSome?_eq_some_iff.mp h
  have hskip : ∀ x ∈ l, x.1.providesKey key = false := by
    intro x hx
    by_contra hreads
    obtain ⟨q, f, hq, hreads⟩ := query_of_providesKey (Bool.eq_true_of_not_eq_false hreads)
    have huntouched := hbefore x (List.mem_append_left _ hx)
    obtain ⟨e, hrow, haccepts⟩ := huntouched.row q f hq
    obtain ⟨b', hb'⟩ := hprovides q f (hq ▸ huntouched.mem) hreads e haccepts
    have hthis := hnone x hx
    rw [hq, hrow, hb'] at hthis
    cases hthis
  have hreads : other.providesKey key = true := by
    by_contra hnot
    rw [hsilent w other s (Bool.eq_false_iff.mpr hnot)] at hfound
    cases hfound
  obtain ⟨q, f, rfl, hreads⟩ := query_of_providesKey hreads
  have huntouched := hbefore (.query q f, s) (by simp)
  obtain ⟨e, hrow, haccepts⟩ := huntouched.row q f rfl
  have hrow : s = .row e := hrow
  subst hrow
  have hprovider : providerOf ((l ++ (query q f, ParamState.row e) :: r).map Prod.fst) p =
      some (.query q f) := by
    rw [providerOf, hkey, Option.bind_some, List.map_append, List.map_cons, List.find?_append,
      List.find?_eq_none.mpr, Option.none_or, List.find?_cons_of_pos]
    · exact hreads
    · intro other' hmem
      obtain ⟨x, hx, rfl⟩ := List.mem_map.mp hmem
      rw [hskip x hx]
      exact Bool.false_ne_true
  have hdriver : (query q f).deltaShape = .driver := by
    rcases he.cases huntouched.mem with ⟨-, -, -, hsilent, -⟩ | ⟨q', f', -, ⟨hdriver, -⟩ | ⟨-, hjoin⟩⟩
    · have hthis : q.providesKey key = false := hsilent key
      cases (show q.providesKey key = true from hreads).symm.trans hthis
    · exact hdriver
    · rw [chained, hexpand, hprovider, Option.any_some, hjoin, Bool.or_true] at hchained
      cases hchained
  have hunreached : ¬ Reached C w ps hint e :=
    huntouched.unreached hdriver e (List.mem_singleton_self e)
  have hnot : e ∉ hint := fun hmem => hunreached (Or.inl hmem)
  refine ⟨?_, q, f, e, huntouched.mem, haccepts, hreads, hfound, hunreached⟩
  rw [provided, List.findSome?_append, List.findSome?_eq_none_iff.mpr, Option.none_or,
    List.findSome?_cons, hsame q f huntouched.mem e hnot, hfound]
  exact fun x hx => hsilent w₀ x.1 x.2 (hskip x hx)

/-- The rows of a start in the product are states of the parameter. -/
theorem mem_filteredRows_of_start {schema : Option (List TypeId)} (hpresent : w.Present schema)
    (he : DeltaEligible C ps) {q : QueryParam} {f : QueryFilter} (hmem : .query q f ∈ ps)
    {s : ParamState} : s ∈ (query q f).states w ↔
      ∃ e, s = .row e ∧ q.accepts w e = true ∧ f.matchesRow w e = true := by
  show s ∈ (filteredRows w q f).map ParamState.row ↔ _
  simp only [List.mem_map, mem_filteredRows hpresent (he.anchored q f hmem)]
  constructor
  · rintro ⟨e, hrow, rfl⟩
    exact ⟨e, rfl, hrow⟩
  · rintro ⟨e, rfl, hrow⟩
    exact ⟨e, hrow, rfl⟩

/-- The members that an unreached row reads are unchanged. -/
theorem membersSame_of_unreached (he : DeltaEligible C ps) (hc : Changes C w₀ w ps hint)
    {q : QueryParam} {f : QueryFilter} (hmem : .query q f ∈ ps) {own : List TypeId}
    (hown : ∀ e, e ∉ hint → SameOn w₀ w own e) {e : Entity} (hunreached : ¬ Reached C w ps hint e) :
    ∀ facet parts, q = .entityParts facet parts →
      ∀ part ∈ parts, part.MembersSame w₀ w own e := by
  rintro facet parts rfl part hpart
  cases part with
  | related inverse members =>
    obtain ⟨edge, hrole⟩ := he.projections facet parts f hmem inverse members hpart
    intro m hm
    refine hown m fun hhint => hunreached (Or.inr ⟨_, hmem, ?_⟩)
    have htarget := mem_edgeTargets hrole (hc.inverses edge inverse hrole) hhint hm
    exact List.mem_append_left _ (List.mem_flatMap.mpr ⟨.related inverse members, hpart, htarget⟩)
  | _ => trivial

/-- A row of a shape without projections reads no members. -/
theorem membersSame_of_unprojected {q : QueryParam} {f : QueryFilter}
    (h : (query q f).projectsMembers = false) (own : List TypeId) (e : Entity) :
    ∀ facet parts, q = .entityParts facet parts →
      ∀ part ∈ parts, part.MembersSame w₀ w own e := by
  rintro facet parts rfl part hpart
  cases part with
  | related inverse members =>
    have hall : parts.all QueryPart.supportsWholeStoreView = true := by
      simpa [projectsMembers, QueryParam.supportsWholeStoreView] using h
    exact absurd (List.all_eq_true.mp hall _ hpart) Bool.false_ne_true
  | _ => trivial

/-- What a step of the product offered and observed in the later world, the same step offered and
observed in the earlier one. -/
def Kept (C : Components α) (w₀ w : World α) (p : SystemParam) (before : Picked)
    (s : ParamState) : Prop :=
  (∃ offered, pickable w₀ p (if p.pairExpandable then [] else p.states w₀) before = some offered ∧
    s ∈ offered) ∧ p.deps C w₀ s = p.deps C w s

theorem kept_driver {schema₀ schema : Option (List TypeId)} (hpresent₀ : w₀.Present schema₀)
    (hpresent : w.Present schema) (he : DeltaEligible C ps) (hc : Changes C w₀ w ps hint)
    {q : QueryParam} {f : QueryFilter} (hmem : .query q f ∈ ps)
    (hexpand : (query q f).pairExpandable = false) {s : ParamState}
    (hs : s ∈ (query q f).states w) (hunreached : ∀ e ∈ s.keys, ¬ Reached C w ps hint e)
    (before : Picked) : Kept C w₀ w (.query q f) before s := by
  obtain ⟨e, rfl, haccepts, hmatches⟩ := (mem_filteredRows_of_start hpresent he hmem).mp hs
  have hnot : ¬ Reached C w ps hint e := hunreached e (List.mem_singleton_self e)
  obtain ⟨own, hinterest, hown⟩ := hc.same he hmem
  have hsame : SameOn w₀ w own e := hown e fun hhint => hnot (Or.inl hhint)
  have hanchored := he.anchored q f hmem
  obtain ⟨haccepts₀, hmatches₀⟩ := row_same hanchored hinterest hsame
  constructor
  · refine ⟨(query q f).states w₀, ?_, ?_⟩
    · rw [pickable, hexpand, if_neg Bool.false_ne_true, if_neg Bool.false_ne_true]
    · exact (mem_filteredRows_of_start hpresent₀ he hmem).mpr
        ⟨e, rfl, haccepts₀.trans haccepts, hmatches₀.trans hmatches⟩
  · exact deps_same hanchored hinterest hsame (membersSame_of_unreached he hc hmem hown hnot)

/-- A joined row beside an untouched driver is kept where the hint does not name it. -/
theorem kept_joined {schema₀ : Option (List TypeId)} (hpresent₀ : w₀.Present schema₀)
    (he : DeltaEligible C ps) (hc : Changes C w₀ w ps hint) {q : QueryParam} {f : QueryFilter}
    (hmem : .query q f ∈ ps) (hexpand : (query q f).pairExpandable = true)
    (hunprojected : (query q f).projectsMembers = false) {e : Entity} (hnot : e ∉ hint)
    (haccepts : q.accepts w e = true) (hmatches : f.matchesRow w e = true) {before : Picked}
    {candidates : List Entity} (hcandidates : e ∈ candidates)
    (hpairs : pairRows w₀ (.query q f) before =
      some ((query q f).statesFromCandidates w₀ candidates)) :
    Kept C w₀ w (.query q f) before (.row e) := by
  obtain ⟨own, hinterest, hown⟩ := hc.same he hmem
  have hsame : SameOn w₀ w own e := hown e hnot
  have hanchored := he.anchored q f hmem
  obtain ⟨haccepts₀, hmatches₀⟩ := row_same hanchored hinterest hsame
  constructor
  · refine ⟨_, ?_, (mem_statesFromCandidates hpresent₀).mpr
      ⟨e, rfl, hcandidates, haccepts₀.trans haccepts, hmatches₀.trans hmatches⟩⟩
    rw [pickable, if_pos hexpand, hpairs]
  · exact deps_same hanchored hinterest hsame (membersSame_of_unprojected hunprojected own e)

theorem kept_equality {schema₀ schema : Option (List TypeId)} (hw₀ : w₀.Coherent)
    (hw : w.Coherent) (hpresent₀ : w₀.Present schema₀) (hpresent : w.Present schema)
    (he : DeltaEligible C ps) (hc : Changes C w₀ w ps hint) {q : QueryParam} {f : QueryFilter}
    (hmem : .query q f ∈ ps) {key : TypeId} (hin : f.inKeyTypes = [])
    (hbound : f.boundKeyTypes = [key]) {before : Picked}
    (hbefore : ∀ x ∈ before, Untouched C w ps hint x)
    (hchained : chained (before.map Prod.fst) (.query q f) = false) {rows offered : List ParamState}
    (hoffered : pickable w (.query q f) rows before = some offered) {s : ParamState}
    (hs : s ∈ offered) : Kept C w₀ w (.query q f) before s := by
  have hexpand : (query q f).pairExpandable = true := by simp [pairExpandable, hin, hbound]
  have hunprojected : (query q f).projectsMembers = false := by
    rw [chained, hexpand, Bool.true_and] at hchained
    exact (Bool.or_eq_false_iff.mp hchained).1
  have hkey : key ∈ f.boundKeyTypes := by rw [hbound]; exact List.mem_singleton_self key
  have hhead : (query q f).joinKeys.head? = some key := by
    simp [joinKeys, SystemParam.inKeyTypes, SystemParam.boundKeyTypes, hin, hbound]
  obtain ⟨v, hprovided, rfl⟩ := pickable_equality hin hbound hoffered
  obtain ⟨e, rfl, hbucket, haccepts, hmatches⟩ := (mem_statesFromCandidates hpresent).mp hs
  obtain ⟨hprovided₀, q', f', e', hmem', haccepts', hreads, hfound, hunreached⟩ :=
    exists_provider he (g := fun w p s => p.providedKey w s key) hhead
      (fun _ _ _ hnot => (provided_eq_none hnot).1)
      (fun q f hmem hreads e ha =>
        ⟨_, (provided_of_accepts (he.anchored q f hmem) hreads ha).2.1⟩)
      (fun q f hmem e hnot => by
        obtain ⟨own, hinterest, hown⟩ := hc.same he hmem
        exact (SystemParam.provided_same (he.anchored q f hmem) hinterest (hown e hnot) key).1)
      hbefore hchained hexpand hprovided
  have hv' : w.fingerprintOn key e' = some v := by
    have hstamp := (provided_of_accepts (he.anchored q' f' hmem') hreads haccepts').2.1
    exact Option.some.inj (hstamp.symm.trans hfound)
  have hv : w.fingerprintOn key e = some v := (hw.mem_fingerprintCandidates key v e).mp hbucket
  have hnot : e ∉ hint := by
    intro hhint
    have hone : f.inKeyTypes.length + f.boundKeyTypes.length ≤ 1 := by simp [hin, hbound]
    have hprovider := mem_hintProviders_eq (C := C) hone hkey hhint hv
      ((hw.mem_fingerprintCandidates key v e').mpr hv')
    exact hunreached (Or.inr ⟨_, hmem, List.mem_append_right _ hprovider⟩)
  obtain ⟨own, hinterest, hown⟩ := hc.same he hmem
  have hown_key : key ∈ own := by
    obtain ⟨facet, parts, -, hsome⟩ := queryInterestTypes_anchored (he.anchored q f hmem) f
    cases Option.some.inj (hinterest.symm.trans hsome)
    exact List.mem_append_right _ (QueryFilter.boundKeyTypes_subset hkey)
  have hbucket₀ : e ∈ w₀.fingerprintCandidates key v := by
    rw [hw₀.mem_fingerprintCandidates, (hown e hnot).fingerprintOn hown_key]
    exact hv
  exact kept_joined hpresent₀ he hc hmem hexpand hunprojected hnot haccepts hmatches hbucket₀
    (pairRows_equality hin hbound hprovided₀)

theorem kept_membership {schema₀ schema : Option (List TypeId)} (hpresent₀ : w₀.Present schema₀)
    (hpresent : w.Present schema) (he : DeltaEligible C ps) (hc : Changes C w₀ w ps hint)
    {q : QueryParam} {f : QueryFilter} (hmem : .query q f ∈ ps) {key : TypeId}
    (hin : f.inKeyTypes = [key]) (hbound : f.boundKeyTypes = []) {before : Picked}
    (hbefore : ∀ x ∈ before, Untouched C w ps hint x)
    (hchained : chained (before.map Prod.fst) (.query q f) = false) {rows offered : List ParamState}
    (hoffered : pickable w (.query q f) rows before = some offered) {s : ParamState}
    (hs : s ∈ offered) : Kept C w₀ w (.query q f) before s := by
  have hexpand : (query q f).pairExpandable = true := by simp [pairExpandable, hin, hbound]
  have hunprojected : (query q f).projectsMembers = false := by
    rw [chained, hexpand, Bool.true_and] at hchained
    exact (Bool.or_eq_false_iff.mp hchained).1
  have hkey : key ∈ f.inKeyTypes := by rw [hin]; exact List.mem_singleton_self key
  have hhead : (query q f).joinKeys.head? = some key := by
    simp [joinKeys, SystemParam.inKeyTypes, hin]
  obtain ⟨edge, hrole⟩ := he.memberships q f hmem key hkey
  have hexact := hc.inverses edge key hrole
  have hlist : ∀ q f, .query q f ∈ ps → q.providesKey key = true → ∀ e, q.accepts w e = true →
      q.providedMembers w e key = some (w.membersOn key e) := by
    intro q f hmem hreads e ha
    obtain ⟨hhas, -, hfound⟩ := provided_of_accepts (he.anchored q f hmem) hreads ha
    rw [hfound, relationshipMembers_of_has hexact hhas]
  obtain ⟨members, hprovided, rfl⟩ := pickable_membership hin hbound hoffered
  obtain ⟨e, rfl, hlisted, haccepts, hmatches⟩ := (mem_statesFromCandidates hpresent).mp hs
  obtain ⟨hprovided₀, q', f', e', hmem', haccepts', hreads, hfound, hunreached⟩ :=
    exists_provider he (g := fun w p s => p.providedMembers w s key) hhead
      (fun _ _ _ hnot => (provided_eq_none hnot).2)
      (fun q f hmem hreads e ha => ⟨_, hlist q f hmem hreads e ha⟩)
      (fun q f hmem e hnot => by
        obtain ⟨own, hinterest, hown⟩ := hc.same he hmem
        exact (SystemParam.provided_same (he.anchored q f hmem) hinterest (hown e hnot) key).2)
      hbefore hchained hexpand hprovided
  have hmembers : members = w.membersOn key e' :=
    (Option.some.inj ((hlist q' f' hmem' hreads e' haccepts').symm.trans hfound)).symm
  have hnot : e ∉ hint := by
    intro hhint
    have hone : f.inKeyTypes.length + f.boundKeyTypes.length ≤ 1 := by simp [hin, hbound]
    have htarget := mem_edgeTargets hrole hexact hhint (hmembers ▸ hlisted)
    exact hunreached (Or.inr ⟨_, hmem, List.mem_append_right _
      (mem_hintProviders_in hone hkey htarget)⟩)
  exact kept_joined hpresent₀ he hc hmem hexpand hunprojected hnot haccepts hmatches hlisted
    (pairRows_membership hin hprovided₀)

end Frame
end Params
end Porridge
