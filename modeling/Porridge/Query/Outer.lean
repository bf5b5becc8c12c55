import Porridge.Query.Planned

/-! The outer join: the rows and the absence planned beside each choice of the other states. -/
namespace Porridge
namespace Params

open SystemParam

variable {α : Type} {C : Components α}

section Conditions

variable (w : World α) (q : QueryParam) (f : QueryFilter) (choice : Picked) (e : Entity)

/-- The inner join pairs the row on `e` with the states picked for the other parameters. -/
def InnerPairs : Prop := e ∈ filteredRows w q f ∧ Passes w choice (.query q f) (.row e)

/-- The row on `e` and the provider of `key` carry the same fingerprint. -/
def SharesKey (key : TypeId) : Prop :=
  ∃ v, w.fingerprintOn key e = some v ∧
    provided choice (fun p s => p.providedKey w s key) = some (some v)

def KeysAgree : Prop := ∀ key ∈ f.boundKeyTypes, SharesKey w choice e key

/-- Every inverse that the filter names lists `e`. -/
def Listed : Prop :=
  ∀ key ∈ f.inKeyTypes, ∃ members,
    provided choice (fun p s => p.providedMembers w s key) = some members ∧ e ∈ members

/-- One shared key brings a row that shares them all, and rows that share them all are members. -/
structure KeysDecide : Prop where
  listed : ∀ e ∈ filteredRows w q f, KeysAgree w f choice e → Listed w f choice e
  whole : ∀ e ∈ filteredRows w q f, ∀ key ∈ f.boundKeyTypes, SharesKey w choice e key →
    ∃ e ∈ filteredRows w q f, KeysAgree w f choice e

/-- Beside the states `l` and `r` of the other parameters, the planned states have the rows that
the inner join pairs, or the absence where there are none, as often as `l ++ r` is chosen. -/
structure OuterExact (planned choices : List (List ParamState)) (l r : List ParamState) : Prop where
  rows : ∀ e, l ++ .row e :: r ∈ planned ↔ InnerPairs w q f choice e
  matched : (∃ e, InnerPairs w q f choice e) → l ++ .absent :: r ∉ planned
  unmatched : (¬ ∃ e, InnerPairs w q f choice e) →
    planned.count (l ++ .absent :: r) = choices.count (l ++ r)

end Conditions

variable {w : World α} {q : QueryParam} {f : QueryFilter} {choice : Picked} {e : Entity}

theorem innerPairs_iff : InnerPairs w q f choice e ↔
    e ∈ filteredRows w q f ∧ KeysAgree w f choice e ∧ Listed w f choice e := by
  refine and_congr_right fun _ => ?_
  constructor
  · intro h
    constructor
    · intro key hkey
      have hbound := h.bound (key, w.fingerprintOn key e) (QueryFilter.mem_boundKeys.mpr ⟨hkey, rfl⟩)
      exact boundCheck_eq_true.mp hbound
    · intro key hkey
      exact memberCheck_eq_true.mp (h.members (key, e) (List.mem_map.mpr ⟨key, hkey, rfl⟩))
  · rintro ⟨hkeys, hlisted⟩
    constructor
    · rintro ⟨key, fingerprint⟩ hb
      obtain ⟨hkey, rfl⟩ := QueryFilter.mem_boundKeys.mp hb
      exact boundCheck_eq_true.mpr (hkeys key hkey)
    · intro m hm
      obtain ⟨key, hkey, rfl⟩ := List.mem_map.mp hm
      exact memberCheck_eq_true.mpr (hlisted key hkey)
    · exact fun _ hkey => nomatch hkey

/-- An outer join checks the keys of its rows only. -/
theorem passes_outer_row : Passes w choice (.outer q f) (.row e) ↔ KeysAgree w f choice e := by
  constructor
  · intro h key hkey
    have hbound := h.bound (key, w.fingerprintOn key e) (QueryFilter.mem_boundKeys.mpr ⟨hkey, rfl⟩)
    exact boundCheck_eq_true.mp hbound
  · intro h
    refine ⟨?_, fun _ hm => (nomatch hm), fun _ hkey => (nomatch hkey)⟩
    rintro ⟨key, fingerprint⟩ hb
    obtain ⟨hkey, rfl⟩ := QueryFilter.mem_boundKeys.mp hb
    exact boundCheck_eq_true.mpr (h key hkey)

theorem absentBindingMatches_eq_false {key : TypeId} {v : Fingerprint} :
    (outer q f).absentBindingMatches w key v = false ↔
      ∃ e ∈ filteredRows w q f, key ∈ f.boundKeyTypes ∧ w.fingerprintOn key e = some v := by
  simp only [absentBindingMatches, Bool.not_eq_false', List.any_eq_true, Bool.and_eq_true,
    beq_iff_eq, Prod.exists]
  constructor
  · rintro ⟨e, he, key', fingerprint, hb, rfl, rfl⟩
    obtain ⟨hkey, hfingerprint⟩ := QueryFilter.mem_boundKeys.mp hb
    exact ⟨e, he, hkey, hfingerprint.symm⟩
  · rintro ⟨e, he, hkey, hfingerprint⟩
    exact ⟨e, he, key, some v, QueryFilter.mem_boundKeys.mpr ⟨hkey, hfingerprint.symm⟩, rfl, rfl⟩

/-- The absence is checked key by key: no row shares any of them. -/
theorem not_sharesKey_of_passes_absent (h : Passes w choice (.outer q f) .absent) {key : TypeId}
    (hkey : key ∈ f.boundKeyTypes) (he : e ∈ filteredRows w q f) : ¬ SharesKey w choice e key := by
  rintro ⟨v, hv, hprovided⟩
  obtain ⟨v', hprovided', hmatches⟩ := absentCheck_eq_some.mp (h.absences key hkey)
  have hsame : v' = v := by
    rw [hprovided] at hprovided'
    cases hprovided'
    rfl
  rw [hsame, absentBindingMatches_eq_false.mpr ⟨e, he, hkey, hv⟩] at hmatches
  cases hmatches

section Planned

variable {before after : Params} {schema : Option (List TypeId)} {l r : List ParamState}

theorem zip_insert {p : SystemParam} {s : ParamState} (hl : l.length = before.length) :
    (before ++ p :: after).zip (l ++ s :: r) = before.zip l ++ (p, s) :: after.zip r := by
  rw [List.zip_append hl.symm]
  rfl

theorem allPass_insert {p : SystemParam} {s : ParamState} (hl : l.length = before.length)
    (hsilent : ∀ other ∈ before ++ after, p.SilentFor other) :
    AllPass w (before ++ p :: after) (l ++ s :: r) ↔
      Passes w (before.zip l ++ after.zip r) p s ∧ AllPass w (before ++ after) (l ++ r) := by
  unfold AllPass
  rw [zip_insert hl, List.zip_append hl.symm]
  refine List.forall_others_insert
    (P := fun (x : SystemParam × ParamState) others => Passes w others x.1 x.2) ?_
  rintro x hx a b
  refine passes_insert (hsilent x.1 ?_)
  rcases List.mem_append.mp hx with hx | hx
  · exact List.mem_append_left _ (List.of_mem_zip hx).1
  · exact List.mem_append_right _ (List.of_mem_zip hx).1

/-- Beside a planned choice of the others, the product holds every state offered to a silent
parameter. -/
theorem count_full_insert (hw : w.Coherent) (hp : w.Present schema) {p : SystemParam}
    {full choices : List (List ParamState)} (hsilent : ∀ other ∈ before ++ after, p.SilentFor other)
    (hfull : product w [] (startRows w (before ++ p :: after)) = some full)
    (hchoices : states w (before ++ after) = some choices) (hl : l.length = before.length)
    (hchoice : l ++ r ∈ choices) (s : ParamState) :
    ∃ offered, pickable w p (if p.pairExpandable then [] else p.states w) (before.zip l) =
        some offered ∧ full.count (l ++ s :: r) = offered.count s * choices.count (l ++ r) := by
  obtain ⟨full', hfull', hspec'⟩ := states_spec hw hp hchoices
  obtain ⟨hchosen, hothers⟩ := (hspec' (l ++ r)).2.mp hchoice
  have hsame : choices.count (l ++ r) = full'.count (l ++ r) := (hspec' (l ++ r)).1 hothers
  rw [startRows, List.map_append, List.map_cons] at hfull
  rw [startRows, List.map_append] at hfull'
  have hafter : ∀ x ∈ after.map fun p => (p, if p.pairExpandable then [] else p.states w),
      p.SilentFor x.1 := by
    intro x hx
    obtain ⟨other, hother, rfl⟩ := List.mem_map.mp hx
    exact hsilent other (List.mem_append_right _ hother)
  have hlen : l.length =
      (before.map fun p => (p, if p.pairExpandable then [] else p.states w)).length := by
    rw [List.length_map, hl]
  obtain ⟨offered, hoffered, hcount⟩ :=
    count_product_insert (s := s) hafter hfull hfull' hlen hchosen
  rw [List.map_map, List.nil_append] at hoffered
  have hmap : before.map (Prod.fst ∘ fun p => (p, if p.pairExpandable then [] else p.states w)) =
      before := List.map_id before
  rw [hmap] at hoffered
  exact ⟨offered, hoffered, hsame ▸ hcount⟩

/-- Beside a planned choice of the others, a silent parameter's planned states are those offered
to it that pass their checks. -/
theorem count_states_insert (hw : w.Coherent) (hp : w.Present schema) {p : SystemParam}
    {planned choices : List (List ParamState)} (hsilent : ∀ other ∈ before ++ after, p.SilentFor other)
    (hplan : states w (before ++ p :: after) = some planned)
    (hchoices : states w (before ++ after) = some choices) (hl : l.length = before.length)
    (hchoice : l ++ r ∈ choices) (s : ParamState) :
    ∃ offered, pickable w p (if p.pairExpandable then [] else p.states w) (before.zip l) =
        some offered ∧
      (l ++ s :: r ∈ planned ↔ s ∈ offered ∧ Passes w (before.zip l ++ after.zip r) p s) ∧
      (Passes w (before.zip l ++ after.zip r) p s →
        planned.count (l ++ s :: r) = offered.count s * choices.count (l ++ r)) := by
  obtain ⟨full, hfull, hspec⟩ := states_spec hw hp hplan
  obtain ⟨_, _, hspec'⟩ := states_spec hw hp hchoices
  have hothers : AllPass w (before ++ after) (l ++ r) := ((hspec' (l ++ r)).2.mp hchoice).2
  have hpass : AllPass w (before ++ p :: after) (l ++ s :: r) ↔
      Passes w (before.zip l ++ after.zip r) p s :=
    (allPass_insert hl hsilent).trans (and_iff_left hothers)
  obtain ⟨offered, hoffered, hcount⟩ :=
    count_full_insert hw hp hsilent hfull hchoices hl hchoice s
  have hpos : 0 < choices.count (l ++ r) := List.count_pos_iff.mpr hchoice
  have hmem : l ++ s :: r ∈ full ↔ s ∈ offered := by
    rw [← List.count_pos_iff, hcount, ← List.count_pos_iff (l := offered)]
    exact Nat.mul_pos_iff_of_pos_right hpos
  refine ⟨offered, hoffered, ?_, fun h => ?_⟩
  · rw [(hspec _).2, hmem, hpass]
  · rw [(hspec _).1 (hpass.mpr h), hcount]

/-- An absence that is pruned beside a planned choice has a row that shares one of the keys. -/
theorem exists_sharesKey_of_absent_pruned (hw : w.Coherent) (hp : w.Present schema)
    {planned choices : List (List ParamState)} (hf : f.boundKeyTypes ≠ [])
    (hplan : states w (before ++ .outer q f :: after) = some planned)
    (hchoices : states w (before ++ after) = some choices) (hl : l.length = before.length)
    (hchoice : l ++ r ∈ choices) (hpruned : l ++ .absent :: r ∉ planned) :
    ∃ e ∈ filteredRows w q f, ∃ key ∈ f.boundKeyTypes,
      SharesKey w (before.zip l ++ after.zip r) e key := by
  have hsilent : ∀ other ∈ before ++ after, (outer q f).SilentFor other :=
    fun other _ => silentFor_outer q f other
  obtain ⟨full, hfull, hout⟩ := Option.bind_eq_some_iff.mp hplan
  have hprune : needsPrune (before ++ .outer q f :: after) = true := by
    refine List.any_eq_true.mpr ⟨.outer q f, by simp, ?_⟩
    simpa [SystemParam.boundKeyTypes, SystemParam.inKeyTypes, pairExpandable] using hf
  rw [if_pos hprune] at hout
  obtain ⟨offered, hoffered, hcount⟩ :=
    count_full_insert hw hp hsilent hfull hchoices hl hchoice .absent
  have hoffered : offered = (outer q f).states w := (Option.some.inj hoffered).symm
  have habsent : ParamState.absent ∈ offered := by
    rw [hoffered]
    exact List.mem_append_right _ (List.mem_singleton_self _)
  have hmem : l ++ .absent :: r ∈ full := by
    rw [← List.count_pos_iff, hcount]
    exact Nat.mul_pos (List.count_pos_iff.mpr habsent) (List.count_pos_iff.mpr hchoice)
  obtain ⟨kept, hkept⟩ := List.eq_some_of_filter? hout _ hmem
  cases kept with
  | true => exact absurd ((List.mem_filter? hout _).mpr ⟨hmem, hkept⟩) hpruned
  | false =>
    obtain ⟨_, _, hspec⟩ := states_spec hw hp hchoices
    have hothers : AllPass w (before ++ after) (l ++ r) := ((hspec (l ++ r)).2.mp hchoice).2
    obtain ⟨x, others, hx, hfails⟩ := exists_fails_of_bindingMatches_eq_false hkept
    rw [zip_insert hl] at hx
    rcases List.of_mem_others_insert hx with ⟨rfl, rfl⟩ | ⟨c, d, rfl, hrest⟩
    · rcases hfails with ⟨b, hb, -⟩ | ⟨m, hm, -⟩ | ⟨key, hkey, hcheck⟩
      · cases hb
      · cases hm
      · obtain ⟨v, hprovided, hmatches⟩ := absentCheck_eq_some.mp hcheck
        obtain ⟨e, he, -, hv⟩ := absentBindingMatches_eq_false.mp hmatches
        exact ⟨e, he, key, hkey, v, hv, hprovided⟩
    · rw [← List.zip_append hl.symm] at hrest
      have hpass : Passes w (c ++ (outer q f, .absent) :: d) x.1 x.2 :=
        (passes_insert (silentFor_outer q f x.1)).mpr (hothers x _ hrest)
      exact absurd hpass hfails.not_passes

/-- Validation accepts an outer join only with a bound key. -/
theorem boundKeyTypes_ne_nil_of_valid
    (h : validateBindings (before ++ .outer q f :: after) = .ok ()) : f.boundKeyTypes ≠ [] := by
  intro hnone
  have hlocal : (outer q f).validateLocal = .error .outerUnbound := by
    simp [validateLocal, hnone]
  have herror : ∃ error, (before ++ outer q f :: after).forM SystemParam.validateLocal =
      Except.error error := by
    clear h
    induction before with
    | nil =>
      refine ⟨.outerUnbound, ?_⟩
      show (do (outer q f).validateLocal; after.forM SystemParam.validateLocal) = _
      rw [hlocal]
      rfl
    | cons p before ih =>
      obtain ⟨error, ih⟩ := ih
      show ∃ error, (do
        p.validateLocal
        (before ++ outer q f :: after).forM SystemParam.validateLocal) = Except.error error
      cases hp : p.validateLocal with
      | error other => exact ⟨other, rfl⟩
      | ok _ => exact ⟨error, ih⟩
  obtain ⟨error, herror⟩ := herror
  rw [validateBindings, herror] at h
  cases h

/-- The inner join in the same place pairs its rows with the planned choices of the others. -/
theorem mem_states_inner_iff (hr : World.Reachable C w) (hf : f.boundKeyTypes ≠ [])
    {planned choices : List (List ParamState)}
    (hsilent : ∀ other ∈ before ++ after, (query q f).SilentFor other)
    (hplan : states w (before ++ .query q f :: after) = some planned)
    (hchoices : states w (before ++ after) = some choices) (hl : l.length = before.length)
    (hchoice : l ++ r ∈ choices) (e : Entity) :
    l ++ .row e :: r ∈ planned ↔ InnerPairs w q f (before.zip l ++ after.zip r) e := by
  have hw : w.Coherent := World.coherent_of_reachable hr
  obtain ⟨schema, hp⟩ := World.present_of_reachable hr
  obtain ⟨offered, hoffered, hmem, -⟩ :=
    count_states_insert hw hp hsilent hplan hchoices hl hchoice (.row e)
  rw [hmem]
  refine and_congr_left fun hpass => ?_
  obtain ⟨bound, hbound⟩ := List.exists_mem_of_ne_nil _ hf
  have hrows := mem_filteredRows_of_candidates hp q (QueryFilter.isSome_entityCandidates hbound) e
  by_cases hexpand : (query q f).pairExpandable = true
  · obtain ⟨key, hkey⟩ := singleKey_of_pairExpandable hexpand
    cases hkey with
    | membership hin hnone => exact absurd hnone hf
    | equality hin hone =>
      obtain ⟨v, hprovided, rfl⟩ := pickable_equality hin hone hoffered
      have hkey : key ∈ f.boundKeyTypes := by rw [hone]; exact List.mem_singleton_self key
      have hbound := hpass.bound (key, w.fingerprintOn key e)
        (QueryFilter.mem_boundKeys.mpr ⟨hkey, rfl⟩)
      obtain ⟨v', hv', hprovided'⟩ := boundCheck_eq_true.mp hbound
      have hfound : provided (before.zip l ++ after.zip r) (fun p s => p.providedKey w s key) =
          some (some v) := findSome?_picked hprovided
      have hsame : v = v' := by
        rw [hfound] at hprovided'
        cases hprovided'
        rfl
      have hbucket : e ∈ w.fingerprintCandidates key v := by
        rw [hw.mem_fingerprintCandidates, hsame]
        exact hv'
      rw [mem_statesFromCandidates hp, hrows]
      constructor
      · rintro ⟨e', heq, -, haccepts⟩
        cases heq
        exact haccepts
      · intro haccepts
        exact ⟨e, rfl, hbucket, haccepts⟩
  · rw [pickable, if_neg hexpand, if_neg hexpand] at hoffered
    cases hoffered
    show ParamState.row e ∈ (filteredRows w q f).map ParamState.row ↔ _
    rw [List.mem_map]
    constructor
    · rintro ⟨e', he', heq⟩
      cases heq
      exact he'
    · intro he
      exact ⟨e, he, rfl⟩

/-- Beside each choice of the other parameters' states, the outer join plans what the inner join
decides exactly where its keys decide together. -/
theorem outerExact_iff (hr : World.Reachable C w)
    (hv : validateBindings (before ++ .outer q f :: after) = .ok ())
    {planned choices : List (List ParamState)}
    (hplan : states w (before ++ .outer q f :: after) = some planned)
    (hchoices : states w (before ++ after) = some choices) (hl : l.length = before.length)
    (hchoice : l ++ r ∈ choices) :
    OuterExact w q f (before.zip l ++ after.zip r) planned choices l r ↔
      KeysDecide w q f (before.zip l ++ after.zip r) := by
  have hw : w.Coherent := World.coherent_of_reachable hr
  obtain ⟨schema, hp⟩ := World.present_of_reachable hr
  have hf : f.boundKeyTypes ≠ [] := boundKeyTypes_ne_nil_of_valid hv
  have hsilent : ∀ other ∈ before ++ after, (outer q f).SilentFor other :=
    fun other _ => silentFor_outer q f other
  have hinsert := count_states_insert hw hp hsilent hplan hchoices hl hchoice
  set choice := before.zip l ++ after.zip r with hset
  have hrow : ∀ e, l ++ .row e :: r ∈ planned ↔ e ∈ filteredRows w q f ∧ KeysAgree w f choice e := by
    intro e
    obtain ⟨offered, hoffered, hmem, -⟩ := hinsert (.row e)
    cases hoffered
    rw [hmem, passes_outer_row]
    refine and_congr_left fun _ => ?_
    show ParamState.row e ∈ (filteredRows w q f).map ParamState.row ++ [.absent] ↔ _
    simp
  have habsent : l ++ .absent :: r ∈ planned ↔ Passes w choice (.outer q f) .absent := by
    obtain ⟨offered, hoffered, hmem, -⟩ := hinsert .absent
    cases hoffered
    rw [hmem]
    exact and_iff_right (List.mem_append_right _ (List.mem_singleton_self _))
  have honce : Passes w choice (.outer q f) .absent →
      planned.count (l ++ .absent :: r) = choices.count (l ++ r) := by
    intro hpass
    obtain ⟨offered, hoffered, -, hcount⟩ := hinsert .absent
    cases hoffered
    have hone : ((outer q f).states w).count .absent = 1 := by
      show ((filteredRows w q f).map ParamState.row ++ [ParamState.absent]).count ParamState.absent = 1
      rw [List.count_append, List.count_singleton_self, List.count_eq_zero.mpr (by simp)]
    have hstates := hcount hpass
    rw [show (if (outer q f).pairExpandable then [] else (outer q f).states w) =
      (outer q f).states w from rfl, hone, Nat.one_mul] at hstates
    exact hstates
  constructor
  · intro hexact
    constructor
    · intro e he hkeys
      exact (innerPairs_iff.mp ((hexact.rows e).mp ((hrow e).mpr ⟨he, hkeys⟩))).2.2
    · intro e he key hkey hshares
      by_contra hnone
      have hunmatched : ¬ ∃ e, InnerPairs w q f choice e := by
        rintro ⟨e, hpairs⟩
        obtain ⟨he, hkeys, -⟩ := innerPairs_iff.mp hpairs
        exact hnone ⟨e, he, hkeys⟩
      have hcount := hexact.unmatched hunmatched
      have hplanned : l ++ .absent :: r ∈ planned := by
        rw [← List.count_pos_iff, hcount]
        exact List.count_pos_iff.mpr hchoice
      exact not_sharesKey_of_passes_absent (habsent.mp hplanned) hkey he hshares
  · intro hdecide
    constructor
    · intro e
      rw [hrow, innerPairs_iff]
      refine and_congr_right fun he => ?_
      exact (and_iff_left_of_imp (hdecide.listed e he)).symm
    · rintro ⟨e, hpairs⟩ hplanned
      obtain ⟨he, hkeys, -⟩ := innerPairs_iff.mp hpairs
      obtain ⟨key, hkey⟩ := List.exists_mem_of_ne_nil _ hf
      exact not_sharesKey_of_passes_absent (habsent.mp hplanned) hkey he (hkeys key hkey)
    · intro hunmatched
      by_cases hplanned : l ++ .absent :: r ∈ planned
      · exact honce (habsent.mp hplanned)
      · obtain ⟨e, he, key, hkey, hshares⟩ :=
          exists_sharesKey_of_absent_pruned hw hp hf hplan hchoices hl hchoice hplanned
        obtain ⟨e', he', hkeys⟩ := hdecide.whole e he key hkey hshares
        have hlisted := hdecide.listed e' he' hkeys
        exact absurd ⟨e', innerPairs_iff.mpr ⟨he', hkeys, hlisted⟩⟩ hunmatched

/-- A single key without memberships always decides. -/
theorem keysDecide_of_single {key : TypeId} (hbound : f.boundKeyTypes = [key])
    (hin : f.inKeyTypes = []) (choice : Picked) : KeysDecide w q f choice := by
  constructor
  · intro e he hkeys key hkey
    rw [hin] at hkey
    cases hkey
  · intro e he key' hkey hshares
    refine ⟨e, he, fun key'' hkey' => ?_⟩
    rw [hbound, List.mem_singleton] at hkey hkey'
    rw [hkey', ← hkey]
    exact hshares

end Planned

/-- Two providers with keys 1 and 3, and a row that shares one key with each of them. -/
def keyed : World Nat :=
  ((World.machine World.fingerprinted).run (World.ofSchema none)
    [.base (.insert 4 0 (.data 0)), .base (.insert 1 0 (.data 10)), .base (.insert 3 0 (.data 20)),
      .base (.insert 4 1 (.data 0)), .base (.insert 1 1 (.data 11)), .base (.insert 3 1 (.data 21)),
      .base (.insert 2 2 (.data 0)), .base (.insert 1 2 (.data 10)),
      .base (.insert 3 2 (.data 21))]).getD World.new

theorem reachable_keyed : World.Reachable World.fingerprinted keyed := by
  have hrun : (World.machine World.fingerprinted).run (World.ofSchema none)
      [.base (.insert 4 0 (.data 0)), .base (.insert 1 0 (.data 10)), .base (.insert 3 0 (.data 20)),
        .base (.insert 4 1 (.data 0)), .base (.insert 1 1 (.data 11)), .base (.insert 3 1 (.data 21)),
        .base (.insert 2 2 (.data 0)), .base (.insert 1 2 (.data 10)),
        .base (.insert 3 2 (.data 21))] = some keyed := rfl
  exact Machine.Reachable.run (.init ⟨none, rfl⟩) hrun

def keyProvider : SystemParam := .query (.entityParts [] [.read 4, .read 1, .read 3]) .unit

def joinedRow : QueryParam := .entityParts [] [.read 2]

theorem unmatched_outerExact :
    OuterExact keyed joinedRow (.whereKey (.eq 1)) [(keyProvider, .row 1)]
      [[.row 0, .row 2], [.row 1, .absent]] [[.row 0], [.row 1]] [.row 1] [] := by
  have hvalid : validateBindings ([keyProvider] ++ .outer joinedRow (.whereKey (.eq 1)) :: []) =
      .ok () := rfl
  have hplan : states keyed ([keyProvider] ++ .outer joinedRow (.whereKey (.eq 1)) :: []) =
      some [[.row 0, .row 2], [.row 1, .absent]] := by decide
  have hchoices : states keyed ([keyProvider] ++ []) = some [[.row 0], [.row 1]] := by decide
  have hlength : [ParamState.row 1].length = [keyProvider].length := rfl
  have hchoice : [ParamState.row 1] ++ [] ∈ [[ParamState.row 0], [ParamState.row 1]] := by decide
  exact (outerExact_iff reachable_keyed hvalid hplan hchoices hlength hchoice).mpr
    (keysDecide_of_single rfl rfl _)

/-- Under a compound key neither provider has a partner, yet neither runs with the absence. -/
theorem shared_key_loses_provider :
    World.Reachable World.fingerprinted keyed ∧
      validateBindings [keyProvider, .outer joinedRow (.whereKey (.and (.eq 1) (.eq 3)))] = .ok () ∧
      states keyed [keyProvider, .outer joinedRow (.whereKey (.and (.eq 1) (.eq 3)))] = some [] ∧
      states keyed [keyProvider] = some [[.row 0], [.row 1]] ∧
      (∀ e, ¬ InnerPairs keyed joinedRow (.whereKey (.and (.eq 1) (.eq 3)))
        [(keyProvider, .row 0)] e) ∧
      ¬ OuterExact keyed joinedRow (.whereKey (.and (.eq 1) (.eq 3))) [(keyProvider, .row 0)]
        [] [[.row 0], [.row 1]] [.row 0] [] := by
  have hnone : ∀ e, ¬ InnerPairs keyed joinedRow (.whereKey (.and (.eq 1) (.eq 3)))
      [(keyProvider, .row 0)] e := by
    intro e hpairs
    obtain ⟨he, hkeys, -⟩ := innerPairs_iff.mp hpairs
    have hrows : filteredRows keyed joinedRow (.whereKey (.and (.eq 1) (.eq 3))) = [2] := by decide
    rw [hrows, List.mem_singleton] at he
    subst he
    obtain ⟨v, hv, hprovided⟩ := hkeys 3 (by decide)
    have hown : keyed.fingerprintOn 3 2 = some 21 := by decide
    have hprovider : provided [(keyProvider, .row 0)] (fun p s => p.providedKey keyed s 3) =
        some (some 20) := by decide
    rw [hown] at hv
    cases hv
    rw [hprovider] at hprovided
    cases hprovided
  refine ⟨reachable_keyed, rfl, by decide, by decide, hnone, fun hexact => ?_⟩
  have hcount := hexact.unmatched fun ⟨e, hpairs⟩ => hnone e hpairs
  exact absurd hcount (by decide)

end Params
end Porridge
