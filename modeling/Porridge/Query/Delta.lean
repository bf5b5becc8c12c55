import Porridge.Query.Chains

/-! Delta planning against the full plan: what the hinted states leave out was planned before the
change. -/
namespace Porridge
namespace Params

open SystemParam

variable {α : Type} {C : Components α} {ps : Params} {w₀ w : World α} {hint : List Entity}

section Steps

variable {schema₀ schema : Option (List TypeId)} {before : Picked} {p : SystemParam}
  {s : ParamState}

/-- A step outside the chains is kept beside untouched ones. -/
theorem kept_unchained (hw₀ : w₀.Coherent) (hw : w.Coherent) (hpresent₀ : w₀.Present schema₀)
    (hpresent : w.Present schema) (he : DeltaEligible C ps) (hc : Changes C w₀ w ps hint)
    (hmem : p ∈ ps) (hbefore : ∀ x ∈ before, Untouched C w ps hint x)
    (hchained : chained (before.map Prod.fst) p = false) {offered : List ParamState}
    (hoffered : pickable w p (if p.pairExpandable then [] else p.states w) before = some offered)
    (hs : s ∈ offered) (hunreached : Unreached C w ps hint (p, s)) : Kept C w₀ w p before s := by
  rcases he.cases hmem with ⟨-, hexpand, hunit, -, hdeps⟩ | ⟨q, f, rfl, ⟨hdriver, hexpand⟩ | ⟨-, hexpand⟩⟩
  · rw [pickable, hexpand, if_neg Bool.false_ne_true, if_neg Bool.false_ne_true, hunit] at hoffered
    cases hoffered
    constructor
    · refine ⟨[.unit], ?_, hs⟩
      rw [pickable, hexpand, if_neg Bool.false_ne_true, if_neg Bool.false_ne_true, hunit]
    · rw [hdeps, hdeps]
  · rw [pickable, hexpand, if_neg Bool.false_ne_true, if_neg Bool.false_ne_true] at hoffered
    cases hoffered
    exact kept_driver hpresent₀ hpresent he hc hmem hexpand hs (hunreached hdriver) before
  · obtain ⟨key, hkey⟩ := singleKey_of_pairExpandable hexpand
    cases hkey with
    | membership hin hbound =>
      exact kept_membership hpresent₀ hpresent he hc hmem hin hbound hbefore hchained hoffered hs
    | equality hin hbound =>
      exact kept_equality hw₀ hw hpresent₀ hpresent he hc hmem hin hbound hbefore hchained hoffered hs

/-- What a query is offered are rows that its shape accepts. -/
theorem row_of_offered (hpresent : w.Present schema) (he : DeltaEligible C ps) {q : QueryParam}
    {f : QueryFilter} (hmem : .query q f ∈ ps) {offered : List ParamState}
    (hoffered : pickable w (.query q f)
      (if (query q f).pairExpandable then [] else (query q f).states w) before = some offered)
    (hs : s ∈ offered) : ∃ e, s = .row e ∧ q.accepts w e = true := by
  by_cases hexpand : (query q f).pairExpandable = true
  · obtain ⟨key, hkey⟩ := singleKey_of_pairExpandable hexpand
    cases hkey with
    | membership hin hbound =>
      obtain ⟨members, -, rfl⟩ := pickable_membership hin hbound hoffered
      obtain ⟨e, rfl, -, haccepts, -⟩ := (mem_statesFromCandidates hpresent).mp hs
      exact ⟨e, rfl, haccepts⟩
    | equality hin hbound =>
      obtain ⟨v, -, rfl⟩ := pickable_equality hin hbound hoffered
      obtain ⟨e, rfl, -, haccepts, -⟩ := (mem_statesFromCandidates hpresent).mp hs
      exact ⟨e, rfl, haccepts⟩
  · rw [pickable, if_neg hexpand, if_neg hexpand] at hoffered
    cases hoffered
    obtain ⟨e, rfl, haccepts, -⟩ := (mem_filteredRows_of_start hpresent he hmem).mp hs
    exact ⟨e, rfl, haccepts⟩

/-- Where no driver is reached, the chained steps decide whether the earlier world joined the same
state with the same observations. -/
theorem joined_iff_chainOffered (hw₀ : w₀.Coherent) (hw : w.Coherent)
    (hpresent₀ : w₀.Present schema₀) (hpresent : w.Present schema) (he : DeltaEligible C ps)
    (hc : Changes C w₀ w ps hint) : ∀ {rest : Params} {before : Picked} {state : List ParamState},
    (∀ p ∈ rest, p ∈ ps) → (∀ x ∈ before, Untouched C w ps hint x) →
      Joined w before (startRows w rest) state → (∀ x ∈ rest.zip state, Unreached C w ps hint x) →
        (Joined w₀ before (startRows w₀ rest) state ↔ ChainOffered w₀ before (rest.zip state)) ∧
          chainDeps C w₀ w before (rest.zip state) = deps C w₀ rest state
  | [], before, state, _, _, hjoined, _ => by
    have hnil : state = [] := hjoined
    subst hnil
    exact ⟨⟨fun _ => trivial, fun _ => rfl⟩, rfl⟩
  | p :: rest, before, state, hsub, hbefore, ⟨s, tail, offered, heq, hoffered, hs, htail⟩, hreach => by
    subst heq
    have hmem : p ∈ ps := hsub p List.mem_cons_self
    have hunreached : Unreached C w ps hint (p, s) := hreach (p, s) List.mem_cons_self
    have huntouched : Untouched C w ps hint (p, s) := by
      refine ⟨hmem, fun q f hq => ?_, hunreached⟩
      have hq : p = .query q f := hq
      subst hq
      exact row_of_offered hpresent he hmem hoffered hs
    have hbefore' : ∀ x ∈ before ++ [(p, s)], Untouched C w ps hint x := by
      intro x hx
      rcases List.mem_append.mp hx with hx | hx
      · exact hbefore x hx
      · exact List.mem_singleton.mp hx ▸ huntouched
    obtain ⟨hoff, hdeps⟩ := joined_iff_chainOffered hw₀ hw hpresent₀ hpresent he hc
      (fun p hp => hsub p (List.mem_cons_of_mem _ hp)) hbefore' htail
      fun x hx => hreach x (List.mem_cons_of_mem _ hx)
    have hunfold : Joined w₀ before (startRows w₀ (p :: rest)) (s :: tail) ↔
        (∃ offered, pickable w₀ p (if p.pairExpandable then [] else p.states w₀) before =
          some offered ∧ s ∈ offered) ∧ Joined w₀ (before ++ [(p, s)]) (startRows w₀ rest) tail := by
      constructor
      · rintro ⟨s', tail', offered', heq, hoffered', hs', htail'⟩
        obtain ⟨rfl, rfl⟩ := List.cons.inj heq
        exact ⟨⟨offered', hoffered', hs'⟩, htail'⟩
      · rintro ⟨⟨offered', hoffered', hs'⟩, htail'⟩
        exact ⟨s, tail, offered', rfl, hoffered', hs', htail'⟩
    rw [hunfold, hoff, List.zip_cons_cons]
    by_cases hchained : chained (before.map Prod.fst) p = true
    · have hexpand : p.pairExpandable = true := ((Bool.and_eq_true _ _).mp hchained).1
      constructor
      · rw [ChainOffered, pickable, if_pos hexpand]
        exact and_congr_left fun _ => ⟨fun h _ => h, fun h => h hchained⟩
      · rw [chainDeps, if_pos hchained, hdeps]
        rfl
    · obtain ⟨hkept, hsame⟩ := kept_unchained hw₀ hw hpresent₀ hpresent he hc hmem hbefore
        (Bool.eq_false_iff.mpr hchained) hoffered hs hunreached
      constructor
      · rw [ChainOffered]
        exact and_congr_left fun _ => ⟨fun _ h => absurd h hchained, fun _ => hkept⟩
      · rw [chainDeps, if_neg hchained, hdeps, ← hsame]
        rfl

end Steps

section Hinted

variable {p : SystemParam}

/-- A driver has no join key, and each of its states is a row. -/
theorem query_of_driver (he : DeltaEligible C ps) (hmem : p ∈ ps) (h : p.deltaShape = .driver) :
    p.pairExpandable = false ∧ ∃ q f, p = .query q f := by
  rcases he.cases hmem with ⟨hinert, -⟩ | ⟨q, f, rfl, ⟨-, hexpand⟩ | ⟨hbound, -⟩⟩
  · cases h.symm.trans hinert
  · exact ⟨hexpand, q, f, rfl⟩
  · cases h.symm.trans hbound

theorem isLarge_eq_true : isLarge w p = true ↔ p.deltaShape = .driver ∧ 1 < p.rowBound w := by
  rw [isLarge, Bool.and_eq_true, beq_iff_eq, decide_eq_true_iff]

theorem mem_expandHint {e : Entity} :
    e ∈ expandHint C w ps hint ↔ Reached C w ps hint e := by
  rw [expandHint, List.mem_dedup, List.mem_insertionSort, List.mem_append, List.mem_flatMap]
  rfl

/-- Every join of an eligible tuple follows a pair list. -/
theorem states_eq_product (he : DeltaEligible C ps) (w : World α) :
    states w ps = product w [] (startRows w ps) := by
  have hprune : needsPrune ps = false := by
    refine List.any_eq_false.mpr fun p hmem => ?_
    rw [Bool.not_eq_true]
    rcases he.cases hmem with ⟨hinert, -⟩ | ⟨q, f, rfl, ⟨hdriver, -⟩ | ⟨-, hexpand⟩⟩
    · cases p with
      | view => rfl
      | commands => rfl
      | query q f =>
        unfold SystemParam.deltaShape at hinert
        dsimp only at hinert
        split_ifs at hinert
      | _ => cases hinert
    · unfold SystemParam.deltaShape at hdriver
      dsimp only at hdriver
      split_ifs at hdriver with hnone
      obtain ⟨hbound, hin⟩ := (Bool.and_eq_true _ _).mp hnone
      simp [SystemParam.boundKeyTypes, SystemParam.inKeyTypes, hbound, hin]
    · rw [hexpand, Bool.not_true, Bool.and_false]
  rw [states, hprune]
  exact Option.bind_fun_some _

/-- Hinted planning narrows the rows of the large driver and leaves the other ones. -/
theorem pickable_hinted {schema : Option (List TypeId)} (hpresent : w.Present schema)
    (he : DeltaEligible C ps) (hmem : p ∈ ps) {before : Picked} {offered : List ParamState}
    (h : pickable w p (if p.pairExpandable then [] else p.states w) before = some offered)
    (entities : List Entity) :
    ∃ kept, pickable w p (hintedRows w p entities) before = some kept ∧
      ∀ s, s ∈ kept ↔ s ∈ offered ∧ (isLarge w p = true → ∀ e ∈ s.keys, e ∈ entities) := by
  by_cases hexpand : p.pairExpandable = true
  · have hsmall : ¬ isLarge w p = true := by
      intro hlarge
      have hnone := (query_of_driver he hmem (isLarge_eq_true.mp hlarge).1).1
      cases hexpand.symm.trans hnone
    rw [pickable, if_pos hexpand] at h
    refine ⟨offered, by rw [pickable, if_pos hexpand, h], fun s => ?_⟩
    exact (and_iff_left fun hlarge => absurd hlarge hsmall).symm
  · have hunbound : (p.deltaShape == .pairBound) = false := by
      rw [beq_eq_false_iff_ne]
      intro hbound
      rcases he.cases hmem with ⟨hinert, -⟩ | ⟨q, f, rfl, ⟨hdriver, -⟩ | ⟨-, hjoin⟩⟩
      · cases hbound.symm.trans hinert
      · cases hbound.symm.trans hdriver
      · exact hexpand hjoin
    rw [pickable, if_neg hexpand, if_neg hexpand] at h
    cases h
    refine ⟨hintedRows w p entities, by rw [pickable, if_neg hexpand], fun s => ?_⟩
    rw [hintedRows, hunbound, if_neg Bool.false_ne_true]
    by_cases hlarge : isLarge w p = true
    · obtain ⟨-, q, f, rfl⟩ := query_of_driver he hmem (isLarge_eq_true.mp hlarge).1
      rw [if_pos hlarge, mem_filteredRows_of_start hpresent he hmem]
      show s ∈ (query q f).statesFromCandidates w entities ↔ _
      rw [mem_statesFromCandidates hpresent]
      constructor
      · rintro ⟨e, rfl, hin, hrow⟩
        exact ⟨⟨e, rfl, hrow⟩, fun _ e' he' => List.mem_singleton.mp he' ▸ hin⟩
      · rintro ⟨⟨e, rfl, hrow⟩, hall⟩
        exact ⟨e, rfl, hall hlarge e (List.mem_singleton_self e), hrow⟩
    · rw [if_neg hlarge]
      exact (and_iff_left fun h => absurd h hlarge).symm

/-- The hinted product is the part of the full one whose large drivers picked given entities. -/
theorem product_hinted {schema : Option (List TypeId)} (hpresent : w.Present schema)
    (he : DeltaEligible C ps) (entities : List Entity) :
    ∀ {rest : Params} {before : Picked} {full : List (List ParamState)}, (∀ p ∈ rest, p ∈ ps) →
      product w before (startRows w rest) = some full →
        ∃ hinted, product w before (rest.map fun p => (p, hintedRows w p entities)) = some hinted ∧
          ∀ state, state ∈ hinted ↔ state ∈ full ∧ ∀ x ∈ rest.zip state, isLarge w x.1 = true →
            ∀ e ∈ x.2.keys, e ∈ entities
  | [], before, full, _, hfull => by
    cases hfull
    exact ⟨[[]], rfl, fun state => (and_iff_left fun _ hx => nomatch hx).symm⟩
  | p :: rest, before, full, hsub, hfull => by
    obtain ⟨offered, hoffered, hflat⟩ := product_cons.mp hfull
    obtain ⟨kept, hkept, hmem⟩ :=
      pickable_hinted hpresent he (hsub p List.mem_cons_self) hoffered entities
    have htails : ∀ s ∈ offered, ∃ tails kepts,
        product w (before ++ [(p, s)]) (startRows w rest) = some tails ∧
          product w (before ++ [(p, s)]) (rest.map fun p => (p, hintedRows w p entities)) =
            some kepts ∧
          ∀ tail, tail ∈ kepts ↔ tail ∈ tails ∧ ∀ x ∈ rest.zip tail, isLarge w x.1 = true →
            ∀ e ∈ x.2.keys, e ∈ entities := by
      intro s hs
      obtain ⟨lists, hlists⟩ := List.eq_some_of_flatMap? hflat s hs
      obtain ⟨tails, htails, rfl⟩ := Option.map_eq_some_iff.mp hlists
      obtain ⟨kepts, hkepts, hiff⟩ := product_hinted hpresent he entities
        (fun p hp => hsub p (List.mem_cons_of_mem _ hp)) htails
      exact ⟨tails, kepts, htails, hkepts, hiff⟩
    have hall : ∀ s ∈ kept, ∃ lists,
        ((product w (before ++ [(p, s)]) (rest.map fun p => (p, hintedRows w p entities))).map
          fun tails => tails.map (s :: ·)) = some lists := by
      intro s hs
      obtain ⟨_, kepts, -, hkepts, -⟩ := htails s ((hmem s).mp hs).1
      exact ⟨kepts.map (s :: ·), Option.map_eq_some_iff.mpr ⟨kepts, hkepts, rfl⟩⟩
    obtain ⟨hinted, hout⟩ := List.flatMap?_eq_some hall
    refine ⟨hinted, product_cons.mpr ⟨kept, hkept, hout⟩, fun state => ?_⟩
    rw [List.mem_flatMap? hout, List.mem_flatMap? hflat]
    constructor
    · rintro ⟨s, hs, lists, hlists, hin⟩
      obtain ⟨hs, hlarge⟩ := (hmem s).mp hs
      obtain ⟨tails, kepts, htails, hkepts, hiff⟩ := htails s hs
      obtain ⟨kepts', hkepts', rfl⟩ := Option.map_eq_some_iff.mp hlists
      cases hkepts.symm.trans hkepts'
      obtain ⟨tail, htail, rfl⟩ := List.mem_map.mp hin
      obtain ⟨htail, hrest⟩ := (hiff tail).mp htail
      refine ⟨⟨s, hs, _, Option.map_eq_some_iff.mpr ⟨tails, htails, rfl⟩,
        List.mem_map.mpr ⟨tail, htail, rfl⟩⟩, ?_⟩
      intro x hx
      rcases List.mem_cons.mp hx with rfl | hx
      · exact hlarge
      · exact hrest x hx
    · rintro ⟨⟨s, hs, lists, hlists, hin⟩, hall⟩
      obtain ⟨tails, kepts, htails, hkepts, hiff⟩ := htails s hs
      obtain ⟨tails', htails', rfl⟩ := Option.map_eq_some_iff.mp hlists
      cases htails.symm.trans htails'
      obtain ⟨tail, htail, rfl⟩ := List.mem_map.mp hin
      have hkeep := (hmem s).mpr ⟨hs, hall (p, s) List.mem_cons_self⟩
      refine ⟨s, hkeep, _, Option.map_eq_some_iff.mpr ⟨kepts, hkepts, rfl⟩, ?_⟩
      have hrest := (hiff tail).mpr ⟨htail, fun x hx => hall x (List.mem_cons_of_mem _ hx)⟩
      exact List.mem_map.mpr ⟨tail, hrest, rfl⟩

/-- An unjoined parameter picked one of its states. -/
theorem Joined.exists_picked : ∀ {rest : Params} {before : Picked} {state : List ParamState},
    Joined w before (startRows w rest) state → p ∈ rest → p.pairExpandable = false →
      ∃ s ∈ p.states w, (p, s) ∈ rest.zip state
  | other :: rest, before, _, ⟨s, tail, offered, rfl, hoffered, hs, htail⟩, hmem, hexpand => by
    rcases List.mem_cons.mp hmem with rfl | hmem
    · rw [pickable, hexpand, if_neg Bool.false_ne_true, if_neg Bool.false_ne_true] at hoffered
      cases hoffered
      exact ⟨s, hs, List.mem_cons_self⟩
    · obtain ⟨s', hs', hzip⟩ := htail.exists_picked hmem hexpand
      exact ⟨s', hs', List.mem_cons_of_mem _ hzip⟩

theorem Joined.mem_states {x : SystemParam × ParamState} :
    ∀ {rest : Params} {before : Picked} {state : List ParamState},
      Joined w before (startRows w rest) state → x ∈ rest.zip state → x.1.pairExpandable = false →
        x.2 ∈ x.1.states w
  | other :: rest, before, _, ⟨s, tail, offered, rfl, hoffered, hs, htail⟩, hmem, hexpand => by
    rcases List.mem_cons.mp hmem with rfl | hmem
    · rw [pickable, hexpand, if_neg Bool.false_ne_true, if_neg Bool.false_ne_true] at hoffered
      cases hoffered
      exact hs
    · exact htail.mem_states hmem hexpand

end Hinted

/-- The hinted states are planned states, and each state they leave out was planned before the
change with the same observations. -/
structure DeltaComplete (C : Components α) (w₀ w : World α) (ps : Params)
    (previous full hinted : List (List ParamState)) : Prop where
  sound : ∀ state ∈ hinted, state ∈ full
  complete : ∀ state ∈ full, state ∉ hinted →
    state ∈ previous ∧ deps C w₀ ps state = deps C w ps state

/-- Beside a single large driver, a choice of states that the hint does not reach has its chained
joins from before the change. -/
def ChainsSettled (C : Components α) (w₀ w : World α) (ps : Params) (hint : List Entity) : Prop :=
  ps.countP (isLarge w) = 1 → ∀ state, Joined w [] (startRows w ps) state →
    (∀ x ∈ ps.zip state, Unreached C w ps hint x) →
      ChainOffered w₀ [] (ps.zip state) ∧
        chainDeps C w₀ w [] (ps.zip state) = deps C w ps state

section Plan

variable {schema : Option (List TypeId)} {state : List ParamState}

/-- Where a tiny driver is dirty, the hint reaches a driver of every state. -/
theorem not_unreached_of_tinyDirty (hpresent : w.Present schema) (he : DeltaEligible C ps)
    (htiny : tinyDirty w ps (expandHint C w ps hint) = true)
    (hjoined : Joined w [] (startRows w ps) state)
    (hunreached : ∀ x ∈ ps.zip state, Unreached C w ps hint x) : False := by
  obtain ⟨p, hmem, hp⟩ := List.any_eq_true.mp htiny
  simp only [Bool.and_eq_true, beq_iff_eq, Bool.not_eq_true', List.any_eq_true,
    decide_eq_true_eq] at hp
  obtain ⟨⟨hdriver, hsmall⟩, s, hs, e, he', hhint⟩ := hp
  obtain ⟨hexpand, q, f, rfl⟩ := query_of_driver he hmem hdriver
  obtain ⟨s', hs', hzip⟩ := hjoined.exists_picked hmem hexpand
  obtain ⟨m, hm, rfl⟩ := List.mem_map.mp hs
  obtain ⟨m', hm', rfl⟩ := List.mem_map.mp hs'
  have hsame : m = m' := eq_of_not_large hpresent (he.anchored q f hmem) hdriver hsmall hm hm'
  subst hsame
  exact hunreached _ hzip hdriver e he' (mem_expandHint.mp hhint)

/-- Beside a single large driver and clean tiny ones, the hinted plan leaves out the states that
the hint does not reach. -/
theorem unreached_iff_not_mem (hpresent : w.Present schema) (he : DeltaEligible C ps)
    (hone : ps.countP (isLarge w) = 1)
    (htiny : ¬ tinyDirty w ps (expandHint C w ps hint) = true)
    (hjoined : Joined w [] (startRows w ps) state) :
    (∀ x ∈ ps.zip state, Unreached C w ps hint x) ↔
      ¬ ∀ x ∈ ps.zip state, isLarge w x.1 = true →
        ∀ e ∈ x.2.keys, e ∈ expandHint C w ps hint := by
  have hlen : state.length = ps.length := by
    rw [hjoined.length_eq, startRows, List.length_map]
  have hfst : (ps.zip state).map Prod.fst = ps := List.map_fst_zip (Nat.le_of_eq hlen.symm)
  have hcount : ((ps.zip state).filter fun x => isLarge w x.1).length = 1 := by
    rw [← List.countP_eq_length_filter, ← hone]
    conv_rhs => rw [← hfst, List.countP_map]
    rfl
  obtain ⟨large, hlarge⟩ := List.length_eq_one_iff.mp hcount
  have hfilter : ∀ x, x ∈ ps.zip state ∧ isLarge w x.1 = true ↔ x = large := by
    intro x
    have hone : x ∈ [large] ↔ x = large := List.mem_singleton
    rw [← hone, ← hlarge, List.mem_filter]
  obtain ⟨hzip, his⟩ := (hfilter large).mpr rfl
  have hdriver := (isLarge_eq_true.mp his).1
  have hmem : large.1 ∈ ps := (List.of_mem_zip hzip).1
  obtain ⟨hexpand, q, f, hq⟩ := query_of_driver he hmem hdriver
  have hstate := hjoined.mem_states hzip hexpand
  rw [hq] at hmem hstate
  obtain ⟨e, he', -⟩ := (mem_filteredRows_of_start hpresent he hmem).mp hstate
  constructor
  · intro hunreached hall
    have hkey : e ∈ large.2.keys := by rw [he']; exact List.mem_singleton_self e
    exact hunreached large hzip hdriver e hkey (mem_expandHint.mp (hall large hzip his e hkey))
  · intro hnot x hx hxdriver e' hkey hreached
    by_cases hxlarge : isLarge w x.1 = true
    · have hsame : x = large := (hfilter x).mp ⟨hx, hxlarge⟩
      subst hsame
      refine hnot fun y hy hylarge e'' hkey' => ?_
      have hsame : y = x := (hfilter y).mp ⟨hy, hylarge⟩
      subst hsame
      rw [he'] at hkey hkey'
      rw [List.mem_singleton.mp hkey', ← List.mem_singleton.mp hkey]
      exact mem_expandHint.mpr hreached
    · refine htiny (List.any_eq_true.mpr ⟨x.1, (List.of_mem_zip hx).1, ?_⟩)
      have hxexpand := (query_of_driver he (List.of_mem_zip hx).1 hxdriver).1
      simp only [Bool.and_eq_true, beq_iff_eq, Bool.not_eq_true', List.any_eq_true,
        decide_eq_true_eq]
      exact ⟨⟨hxdriver, Bool.eq_false_iff.mpr hxlarge⟩, x.2, hjoined.mem_states hx hxexpand, e',
        hkey, mem_expandHint.mpr hreached⟩

/-- Delta planning is complete exactly where the chained joins beside unreached drivers are those
from before the change. -/
theorem deltaComplete_iff (he : DeltaEligible C ps) (hc : Changes C w₀ w ps hint)
    {previous full : List (List ParamState)} (hprevious : states w₀ ps = some previous)
    (hfull : states w ps = some full) :
    ∃ hinted, statesHinted C w ps hint = some hinted ∧
      (DeltaComplete C w₀ w ps previous full hinted ↔ ChainsSettled C w₀ w ps hint) := by
  obtain ⟨ops, hops⟩ := hc.later
  have hreachable : World.Reachable C w := Machine.Reachable.run hc.reachable hops
  have hw₀ : w₀.Coherent := World.coherent_of_reachable hc.reachable
  have hw : w.Coherent := World.coherent_of_reachable hreachable
  obtain ⟨schema₀, hpresent₀⟩ := World.present_of_reachable hc.reachable
  obtain ⟨schema, hpresent⟩ := World.present_of_reachable hreachable
  have hproduct : product w [] (startRows w ps) = some full := by
    rw [← states_eq_product he, hfull]
  have hproduct₀ : product w₀ [] (startRows w₀ ps) = some previous := by
    rw [← states_eq_product he, hprevious]
  have hfallback : ChainsSettled C w₀ w ps hint →
      (DeltaComplete C w₀ w ps previous full full ↔ ChainsSettled C w₀ w ps hint) := fun h =>
    ⟨fun _ => h, fun _ => ⟨fun _ hmem => hmem, fun _ hmem hnot => absurd hmem hnot⟩⟩
  unfold statesHinted
  by_cases hmany : 1 < ps.countP (isLarge w)
  · rw [if_pos hmany]
    exact ⟨full, hfull, hfallback fun hone => absurd hone (by omega)⟩
  rw [if_neg hmany]
  by_cases htiny : tinyDirty w ps (expandHint C w ps hint) = true
  · dsimp only
    rw [if_pos htiny]
    refine ⟨full, hfull, hfallback fun _ state hjoined hunreached => ?_⟩
    exact (not_unreached_of_tinyDirty hpresent he htiny hjoined hunreached).elim
  dsimp only
  rw [if_neg htiny]
  obtain ⟨hinted, hout, hmem⟩ :=
    product_hinted hpresent he (expandHint C w ps hint) (fun _ hp => hp) hproduct
  refine ⟨hinted, hout, ?_⟩
  by_cases hone : ps.countP (isLarge w) = 1
  · have hstep : ∀ state, state ∈ full → (∀ x ∈ ps.zip state, Unreached C w ps hint x) →
        ((state ∈ previous ∧ deps C w₀ ps state = deps C w ps state) ↔
          ChainOffered w₀ [] (ps.zip state) ∧
            chainDeps C w₀ w [] (ps.zip state) = deps C w ps state) := by
      intro state hin hunreached
      have hjoined := (mem_product hproduct state).mp hin
      obtain ⟨hoff, hdeps⟩ := joined_iff_chainOffered hw₀ hw hpresent₀ hpresent he hc
        (fun _ hp => hp) (fun _ hx => absurd hx List.not_mem_nil) hjoined hunreached
      rw [mem_product hproduct₀, hoff, hdeps]
    constructor
    · intro hcomplete _ state hjoined hunreached
      have hin : state ∈ full := (mem_product hproduct state).mpr hjoined
      have hnot : state ∉ hinted := fun hh =>
        (unreached_iff_not_mem hpresent he hone htiny hjoined).mp hunreached ((hmem state).mp hh).2
      exact (hstep state hin hunreached).mp (hcomplete.complete state hin hnot)
    · intro hsettled
      constructor
      · exact fun state hh => ((hmem state).mp hh).1
      · intro state hin hnot
        have hjoined := (mem_product hproduct state).mp hin
        have hunreached := (unreached_iff_not_mem hpresent he hone htiny hjoined).mpr fun hall =>
          hnot ((hmem state).mpr ⟨hin, hall⟩)
        exact (hstep state hin hunreached).mpr (hsettled hone state hjoined hunreached)
  · have hnone : ∀ p ∈ ps, ¬ isLarge w p = true := List.countP_eq_zero.mp (by omega)
    constructor
    · exact fun _ h => absurd h hone
    · intro _
      constructor
      · exact fun state hh => ((hmem state).mp hh).1
      · intro state hin hnot
        refine absurd ((hmem state).mpr ⟨hin, fun x hx hlarge => ?_⟩) hnot
        exact absurd hlarge (hnone x.1 (List.of_mem_zip hx).1)

/-- Tuples without chained joins are always settled. -/
theorem chainsSettled_of_unchained
    (h : ∀ before p after, ps = before ++ p :: after → chained before p = false) :
    ChainsSettled C w₀ w ps hint := by
  have hrest : ∀ {rest : Params} {before : Picked} {state : List ParamState},
      before.map Prod.fst ++ rest = ps → state.length = rest.length →
        ChainOffered w₀ before (rest.zip state) ∧
          chainDeps C w₀ w before (rest.zip state) = deps C w rest state := by
    intro rest
    induction rest with
    | nil => exact fun _ _ => ⟨trivial, rfl⟩
    | cons p rest ih =>
      intro before state hsplit hlen
      obtain ⟨s, tail, rfl⟩ := List.exists_cons_of_length_eq_add_one hlen
      have hunchained := h (before.map Prod.fst) p rest hsplit.symm
      have hlen : tail.length = rest.length := by simpa using hlen
      have hsplit' : (before ++ [(p, s)]).map Prod.fst ++ rest = ps := by simp [← hsplit]
      obtain ⟨hoffered, hdeps⟩ := ih hsplit' hlen
      rw [List.zip_cons_cons]
      constructor
      · rw [ChainOffered, hunchained]
        exact ⟨fun h => absurd h Bool.false_ne_true, hoffered⟩
      · rw [chainDeps, hunchained, if_neg Bool.false_ne_true, hdeps]
        rfl
  intro _ state hjoined _
  have hlen : state.length = ps.length := by
    rw [hjoined.length_eq, startRows, List.length_map]
  have hwhole : ([] : Picked).map Prod.fst ++ ps = ps := rfl
  exact hrest hwhole hlen

end Plan

/-- Two drivers on keys 10 and 11, a partner of each, and a partner of the first one's partner. -/
def paired : World Nat :=
  ((World.machine World.fingerprinted).run (World.ofSchema none)
    [.base (.insert 4 0 (.data 0)), .base (.insert 1 0 (.data 10)),
      .base (.insert 4 1 (.data 0)), .base (.insert 1 1 (.data 11)),
      .base (.insert 1 2 (.data 10)), .base (.insert 2 2 (.data 20)),
      .base (.insert 2 3 (.data 20)), .base (.insert 3 3 (.data 1)),
      .base (.insert 1 4 (.data 11)), .base (.insert 2 4 (.data 22))]).getD World.new

theorem reachable_paired : World.Reachable World.fingerprinted paired := by
  have hrun : (World.machine World.fingerprinted).run (World.ofSchema none)
      [.base (.insert 4 0 (.data 0)), .base (.insert 1 0 (.data 10)),
        .base (.insert 4 1 (.data 0)), .base (.insert 1 1 (.data 11)),
        .base (.insert 1 2 (.data 10)), .base (.insert 2 2 (.data 20)),
        .base (.insert 2 3 (.data 20)), .base (.insert 3 3 (.data 1)),
        .base (.insert 1 4 (.data 11)), .base (.insert 2 4 (.data 22))] = some paired := rfl
  exact Machine.Reachable.run (.init ⟨none, rfl⟩) hrun

def rewritten (t : TypeId) (e : Entity) (payload : Nat) : World Nat :=
  paired.writeEntry World.fingerprinted t e (.data payload) none

def driverRow : SystemParam := .query (.entityParts [] [.read 4, .read 1]) .unit

def partnerRow : SystemParam := .query (.entityParts [] [.read 2]) (.whereKey (.eq 1))

/-- Joins a partner's own partner. -/
def farRow : SystemParam := .query (.entityParts [] [.read 3]) (.whereKey (.eq 2))

theorem deltaEligible_of_subset {ps : Params} (hshape : ps.deltaShape = .driver)
    (hsub : ∀ p ∈ ps, p = driverRow ∨ p = partnerRow ∨ p = farRow) :
    DeltaEligible World.fingerprinted ps := by
  refine ⟨hshape, ?_, ?_, ?_⟩
  · intro q f hmem
    rcases hsub _ hmem with hq | hq | hq
    all_goals
      cases hq
      exact ⟨⟨_, _, rfl, by decide⟩, by decide⟩
  · intro q f hmem t ht
    rcases hsub _ hmem with hq | hq | hq
    all_goals
      cases hq
      cases ht
  · intro facet parts f hmem inverse members hpart
    rcases hsub _ hmem with hq | hq | hq
    all_goals
      cases hq
      simp at hpart

theorem changes_rewritten {t : TypeId} {e : Entity} {payload : Nat} (ps : Params)
    (hrun : (World.machine World.fingerprinted).run paired [.base (.insert t e (.data payload))] =
      some (rewritten t e payload)) :
    Changes World.fingerprinted paired (rewritten t e payload) ps [e] := by
  refine ⟨reachable_paired, ⟨_, hrun⟩, fun _ _ hrole => (nomatch hrole), ?_⟩
  intro _ _ e' hnot t' _
  rw [rewritten, World.cell?_writeEntry, if_neg]
  rintro ⟨-, rfl⟩
  exact hnot (List.mem_singleton_self _)

/-- A rewritten partner is replanned through its driver, and the other pair is left alone. -/
theorem partner_deltaComplete :
    ∃ hinted, statesHinted World.fingerprinted (rewritten 2 2 21) [driverRow, partnerRow] [2] =
        some hinted ∧
      DeltaComplete World.fingerprinted paired (rewritten 2 2 21) [driverRow, partnerRow]
        [[.row 0, .row 2], [.row 1, .row 4]] [[.row 0, .row 2], [.row 1, .row 4]] hinted := by
  have hmem : ∀ p ∈ [driverRow, partnerRow], p = driverRow ∨ p = partnerRow ∨ p = farRow := by
    simp
  have hunchained : ∀ before p after, [driverRow, partnerRow] = before ++ p :: after →
      chained before p = false := by
    intro before p after hsplit
    match before, hsplit with
    | [], hsplit =>
      cases hsplit
      rfl
    | [_], hsplit =>
      cases hsplit
      rfl
    | _ :: _ :: _, hsplit => simp at hsplit
  obtain ⟨hinted, hplan, hiff⟩ := deltaComplete_iff (deltaEligible_of_subset rfl hmem)
    (changes_rewritten [driverRow, partnerRow] (t := 2) (e := 2) rfl)
    (show states paired [driverRow, partnerRow] = some [[.row 0, .row 2], [.row 1, .row 4]] by decide)
    (show states (rewritten 2 2 21) [driverRow, partnerRow] =
      some [[.row 0, .row 2], [.row 1, .row 4]] by decide)
  exact ⟨hinted, hplan, hiff.mpr (chainsSettled_of_unchained hunchained)⟩

/-- A rewrite behind a partner reaches that partner, not its driver: the joined state is left out
with an observation from before the rewrite. -/
theorem far_rewrite_not_replanned :
    DeltaEligible World.fingerprinted [driverRow, partnerRow, farRow] ∧
      Changes World.fingerprinted paired (rewritten 3 3 2) [driverRow, partnerRow, farRow] [3] ∧
      (∃ types, Params.interestTypes [driverRow, partnerRow, farRow] = some types ∧
        ¬ SameOn paired (rewritten 3 3 2) types 3) ∧
      states paired [driverRow, partnerRow, farRow] = some [[.row 0, .row 2, .row 3]] ∧
      states (rewritten 3 3 2) [driverRow, partnerRow, farRow] = some [[.row 0, .row 2, .row 3]] ∧
      statesHinted World.fingerprinted (rewritten 3 3 2) [driverRow, partnerRow, farRow] [3] =
        some [] ∧
      ¬ DeltaComplete World.fingerprinted paired (rewritten 3 3 2) [driverRow, partnerRow, farRow]
        [[.row 0, .row 2, .row 3]] [[.row 0, .row 2, .row 3]] [] := by
  have hmem : ∀ p ∈ [driverRow, partnerRow, farRow],
      p = driverRow ∨ p = partnerRow ∨ p = farRow := by
    simp
  refine ⟨deltaEligible_of_subset rfl hmem, changes_rewritten _ rfl,
    ⟨_, rfl, fun hsame => ?_⟩, by decide, by decide, by decide, fun hcomplete => ?_⟩
  · have hcell := hsame 3 (by decide)
    exact absurd hcell (by decide)
  · have hdeps := (hcomplete.complete _ List.mem_cons_self List.not_mem_nil).2
    exact absurd hdeps (by decide)

end Params
end Porridge
