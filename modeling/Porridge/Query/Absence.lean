import Porridge.Query.Locality
import Porridge.Query.Outer
import Porridge.Query.View
import Porridge.Query.WholeStore

/-! The absence of an outer join between two plannings: what it records, and what decides it. -/
namespace Porridge

open Params World

variable {α : Type} {C : Components α} {w w' : World α} {q : QueryParam} {f : QueryFilter}

namespace Params

def Plans (w : World α) (ps : Params) (state : List ParamState) : Prop :=
  ∃ planned, states w ps = some planned ∧ state ∈ planned

/-- An inner row that shares a key with its provider. -/
def InnerMatches (w : World α) (q : QueryParam) (f : QueryFilter) (choice : Picked) (e : Entity) :
    Prop := e ∈ filteredRows w q f ∧ ∃ key ∈ f.boundKeyTypes, SharesKey w choice e key

/-- In every tuple with the outer join and beside every choice of the other states, an absence
that is planned again after an inner row matched in between observes something else, and an
absence that comes or goes raises the mark of the tuple's interest. -/
structure OuterTracked (C : Components α) (q : QueryParam) (f : QueryFilter) : Prop where
  deps : ∀ (before after : Params) (l r : List ParamState) (w₁ w₂ w₃ : World α),
    validateBindings (before ++ .outer q f :: after) = .ok () → l.length = before.length →
      Reachable C w₁ → Later C w₁ w₂ → Later C w₂ w₃ →
        Plans w₁ (before ++ .outer q f :: after) (l ++ .absent :: r) →
          (∃ e, InnerMatches w₂ q f (before.zip l ++ after.zip r) e) →
            Plans w₃ (before ++ .outer q f :: after) (l ++ .absent :: r) →
              Params.deps C w₁ (before ++ .outer q f :: after) (l ++ .absent :: r) ≠
                Params.deps C w₃ (before ++ .outer q f :: after) (l ++ .absent :: r)
  interest : ∀ (before after : Params) (l r : List ParamState) (w₁ w₃ : World α)
    (planned₁ planned₃ : List (List ParamState)),
    validateBindings (before ++ .outer q f :: after) = .ok () → l.length = before.length →
      Reachable C w₁ → Later C w₁ w₃ →
        Plans w₁ (before ++ after) (l ++ r) → Plans w₃ (before ++ after) (l ++ r) →
          states w₁ (before ++ .outer q f :: after) = some planned₁ →
            states w₃ (before ++ .outer q f :: after) = some planned₃ →
              ¬ (l ++ .absent :: r ∈ planned₁ ↔ l ++ .absent :: r ∈ planned₃) →
                ∀ types ∈ Params.interestTypes (before ++ .outer q f :: after),
                  BoxedSystem.interestMark types w₁ < BoxedSystem.interestMark types w₃

end Params

def absenceStores (q : QueryParam) (f : QueryFilter) : List TypeId :=
  q.accessAll.map Access.component ++ f.boundKeyTypes

def innerStores (q : QueryParam) (f : QueryFilter) : List TypeId :=
  q.requiredTypes ++ f.presentTypes ++ f.absentTypes

/-- An entity that provides a key need not be an inner row itself. -/
def Discerning (q : QueryParam) (f : QueryFilter) : Prop :=
  f.absentTypes ≠ [] ∨ ∀ key ∈ f.boundKeyTypes, ∃ t ∈ q.requiredTypes ++ f.presentTypes, t ≠ key

instance (q : QueryParam) (f : QueryFilter) : Decidable (Discerning q f) :=
  inferInstanceAs (Decidable (_ ∨ _))

/-- If inner rows can come and go beside their providers, then the absence records every store
that decides them, a bounded interest lists it, and the keys are tracked. -/
def AbsenceCovered (tracked : TypeId → Bool) (q : QueryParam) (f : QueryFilter) : Prop :=
  Satisfiable q f → Discerning q f →
    (∀ t ∈ innerStores q f, t ∈ absenceStores q f) ∧
      (∀ types ∈ SystemParam.queryInterestTypes q f, ∀ t ∈ innerStores q f, t ∈ types) ∧
        ∀ key ∈ f.boundKeyTypes, tracked key = true

instance (tracked : TypeId → Bool) (q : QueryParam) (f : QueryFilter) :
    Decidable (AbsenceCovered tracked q f) := inferInstanceAs (Decidable (_ → _ → _))

section Observations

/-- What is recorded of a whole store is its watermark. -/
theorem SystemParam.revision_of_storeScoped {p : SystemParam} {s : ParamState} {d : Dep}
    (hd : d ∈ p.deps C w s) (hscoped : d.storeScoped = true) :
    d.revision = some (w.storeWatermark d.component) := by
  rcases observed_of_mem_deps hd with hrow | ⟨t, rfl⟩
  · exact absurd hscoped (Bool.eq_false_iff.mp hrow.single)
  · rfl

theorem SystemParam.mem_absentDeps {t : TypeId} (ht : t ∈ absenceStores q f) :
    storeWatermarkDep w t ∈ (SystemParam.outer q f).deps C w .absent := by
  rcases List.mem_append.mp ht with ht | ht
  · obtain ⟨access, haccess, rfl⟩ := List.mem_map.mp ht
    exact List.mem_append_left _ (List.mem_map_of_mem haccess)
  · exact List.mem_append_right _ (List.mem_map_of_mem ht)

/-- An absence that observes the same finds every store it records where it was. -/
theorem Params.storeWatermark_of_deps {before after : Params} {l r : List ParamState}
    (hl : l.length = before.length)
    (h : Params.deps C w (before ++ .outer q f :: after) (l ++ .absent :: r) =
      Params.deps C w' (before ++ .outer q f :: after) (l ++ .absent :: r)) {t : TypeId}
    (ht : t ∈ absenceStores q f) : w.storeWatermark t = w'.storeWatermark t := by
  have hmem : storeWatermarkDep w t ∈
      Params.deps C w (before ++ .outer q f :: after) (l ++ .absent :: r) := by
    refine List.mem_flatMap.mpr ⟨(.outer q f, .absent), ?_, SystemParam.mem_absentDeps ht⟩
    rw [zip_insert hl]
    exact List.mem_append_right _ List.mem_cons_self
  rw [h] at hmem
  obtain ⟨p, -, hd⟩ := List.mem_flatMap.mp hmem
  exact Option.some.inj (SystemParam.revision_of_storeScoped hd rfl)

end Observations

section Deciding

theorem extent_of_bound (h : f.boundKeyTypes ≠ []) :
    q.extent f.enumerates = .carriers q.requiredTypes := by
  obtain ⟨key, hkey⟩ := List.exists_mem_of_ne_nil _ h
  rw [QueryFilter.enumerates_of_bound hkey]
  rfl

theorem mem_filteredRows_bound {schema : Option (List TypeId)} (hp : w.Present schema)
    (h : f.boundKeyTypes ≠ []) {e : Entity} : e ∈ filteredRows w q f ↔
      (∀ t ∈ q.requiredTypes ++ f.presentTypes, w.has t e = true) ∧
        ∀ t ∈ f.absentTypes, w.has t e = false := by
  rw [mem_filteredRows_extent hp, extent_of_bound h, QueryFilter.matchesRow_iff,
    List.forall_mem_append, and_assoc]
  rfl

/-- Worlds that show the same in the deciding stores have the same inner rows. -/
theorem mem_filteredRows_congr {schema schema' : Option (List TypeId)} (hp : w.Present schema)
    (hp' : w'.Present schema') (h : f.boundKeyTypes ≠ [])
    (hsame : ∀ t ∈ innerStores q f, ∀ e, w.has t e = w'.has t e) (e : Entity) :
    e ∈ filteredRows w q f ↔ e ∈ filteredRows w' q f := by
  rw [mem_filteredRows_bound hp h, mem_filteredRows_bound hp' h]
  refine and_congr (forall₂_congr fun t ht => ?_) (forall₂_congr fun t ht => ?_)
  · rw [hsame t (List.mem_append_left _ ht)]
  · rw [hsame t (List.mem_append_right _ ht)]

theorem QueryParam.providedKey_congr {key : TypeId} {e : Entity}
    (h : w.fingerprintOn key e = w'.fingerprintOn key e) :
    q.providedKey w e key = q.providedKey w' e key := by
  cases q with
  | entity _ => rfl
  | mutRef _ => rfl
  | read t =>
    show (if key = t then some (w.fingerprintOn t e) else none) =
      if key = t then some (w'.fingerprintOn t e) else none
    split_ifs with hkey
    · rw [← hkey, h]
    · rfl
  | entityParts facet parts =>
    refine List.findSome?_congr_mem fun part _ => ?_
    rw [QueryPart.providedKey, QueryPart.providedKey, h]

theorem provided_congr {key : TypeId} (h : ∀ e, w.fingerprintOn key e = w'.fingerprintOn key e)
    (choice : Picked) : provided choice (fun p s => p.providedKey w s key) =
      provided choice fun p s => p.providedKey w' s key := by
  refine List.findSome?_congr_mem fun x _ => ?_
  obtain ⟨p, s⟩ := x
  cases p with
  | query q f =>
    cases s with
    | row e => exact QueryParam.providedKey_congr (h e)
    | _ => rfl
  | _ => cases s <;> rfl

theorem sharesKey_congr {key : TypeId} (h : ∀ e, w.fingerprintOn key e = w'.fingerprintOn key e)
    {choice : Picked} {e : Entity} : SharesKey w choice e key ↔ SharesKey w' choice e key := by
  unfold SharesKey
  rw [h e, provided_congr h]

/-- A bounded interest lists the deciding stores of every shape but a sole `MutRef`. -/
theorem innerStores_listed (hq : ∀ t, q ≠ .mutRef t) :
    ∀ types ∈ SystemParam.queryInterestTypes q f, ∀ t ∈ innerStores q f, t ∈ types := by
  intro types h t ht
  unfold innerStores at ht
  rw [List.append_assoc] at ht
  have hfilter : t ∈ f.presentTypes ++ f.absentTypes → t ∈ types := fun hmem =>
    SystemParam.subset_queryInterestTypes h t (QueryFilter.interest_of_decides hmem)
  rcases List.mem_append.mp ht with hrequired | hdecides
  · rcases SystemParam.queryInterestTypes_cases h with rfl | ⟨-, t', rfl⟩
    · exact List.mem_append_left _ (QueryParam.read_of_required hrequired)
    · exact absurd rfl (hq t')
  · exact hfilter hdecides

/-- The interest of a tuple includes that of each of its parameters. -/
theorem Params.interest_subset {before after : Params} {p : SystemParam} {all : List TypeId}
    (hall : Params.interestTypes (before ++ p :: after) = some all) :
    ∃ types, p.interestTypes = some types ∧ ∀ t ∈ types, t ∈ all := by
  obtain ⟨lists, hlists, rfl⟩ := Option.map_eq_some_iff.mp hall
  rw [List.mapM_append] at hlists
  obtain ⟨left, -, hlists⟩ := Option.bind_eq_some_iff.mp hlists
  obtain ⟨right, hright, hlists⟩ := Option.bind_eq_some_iff.mp hlists
  cases hlists
  rw [List.mapM_cons] at hright
  obtain ⟨types, htypes, hright⟩ := Option.bind_eq_some_iff.mp hright
  obtain ⟨rest, -, hright⟩ := Option.bind_eq_some_iff.mp hright
  cases hright
  refine ⟨types, htypes, fun t ht => List.mem_flatten.mpr ⟨types, ?_, ht⟩⟩
  exact List.mem_append_right _ List.mem_cons_self

end Deciding

section Covering

variable {before after : Params} {l r : List ParamState} {choice : Picked}

theorem exists_fingerprintOn_of_provided {key : TypeId} {v : Fingerprint}
    (h : provided choice (fun p s => p.providedKey w s key) = some (some v)) :
    ∃ e, w.fingerprintOn key e = some v := by
  obtain ⟨x, -, hx⟩ := List.exists_of_findSome?_eq_some h
  obtain ⟨p, s⟩ := x
  cases p with
  | query q f =>
    cases s with
    | row e =>
      refine ⟨e, ?_⟩
      cases q with
      | entity _ => cases hx
      | mutRef _ => cases hx
      | read t =>
        have hx : (if key = t then some (w.fingerprintOn t e) else none) = some (some v) := hx
        split_ifs at hx with hkey
        rw [hkey]
        exact Option.some.inj hx
      | entityParts facet parts =>
        obtain ⟨part, -, hpart⟩ := List.exists_of_findSome?_eq_some hx
        unfold QueryPart.providedKey at hpart
        split_ifs at hpart
        exact Option.some.inj hpart
    | _ => cases hx
  | _ => cases s <;> cases hx

/-- Where a provider is an inner row itself, some inner row always matches. -/
theorem exists_innerMatches_of_not_discerning {schema : Option (List TypeId)} (hp : w.Present schema)
    (h : f.boundKeyTypes ≠ []) (hnot : ¬ Discerning q f)
    (hprovided : ∀ key ∈ f.boundKeyTypes, ∃ v,
      provided choice (fun p s => p.providedKey w s key) = some (some v)) :
    ∃ e, InnerMatches w q f choice e := by
  unfold Discerning at hnot
  push Not at hnot
  obtain ⟨habsent, key, hkey, honly⟩ := hnot
  obtain ⟨v, hv⟩ := hprovided key hkey
  obtain ⟨e, he⟩ := exists_fingerprintOn_of_provided hv
  have hcarries : w.has key e = true := has_of_fingerprintOn he
  refine ⟨e, (mem_filteredRows_bound hp h).mpr ⟨fun t ht => ?_, ?_⟩, key, hkey, v, he, hv⟩
  · rw [honly t ht]
    exact hcarries
  · rw [habsent]
    exact nofun

/-- A planned absence has a key from its providers, and no inner row matches it. -/
theorem passes_of_plans (hr : World.Reachable C w) (hl : l.length = before.length)
    (h : Plans w (before ++ .outer q f :: after) (l ++ .absent :: r)) :
    Passes w (before.zip l ++ after.zip r) (.outer q f) .absent := by
  obtain ⟨schema, hp⟩ := present_of_reachable hr
  obtain ⟨planned, hplanned, hmem⟩ := h
  obtain ⟨_, _, hspec⟩ := states_spec (coherent_of_reachable hr) hp hplanned
  have hpass := ((hspec _).2.mp hmem).2
  exact ((allPass_insert hl fun other _ => SystemParam.silentFor_outer q f other).mp hpass).1

theorem not_innerMatches_of_passes (h : Passes w choice (.outer q f) .absent) (e : Entity) :
    ¬ InnerMatches w q f choice e := by
  rintro ⟨he, key, hkey, hshares⟩
  exact not_sharesKey_of_passes_absent h hkey he hshares

/-- An absence is planned only if providers and inner rows can be told apart. -/
theorem discerning_of_passes {schema : Option (List TypeId)} (hp : w.Present schema)
    (hf : f.boundKeyTypes ≠ []) (h : Passes w choice (.outer q f) .absent) : Discerning q f := by
  by_contra hnot
  obtain ⟨e, he⟩ := exists_innerMatches_of_not_discerning hp hf hnot fun key hkey => by
    obtain ⟨v, hv, -⟩ := absentCheck_eq_some.mp (h.absences key hkey)
    exact ⟨v, hv⟩
  exact not_innerMatches_of_passes h e he

/-- Worlds that show the same in the deciding stores have the same matches. -/
theorem innerMatches_congr (hr : World.Reachable C w) (hr' : World.Reachable C w')
    (hf : f.boundKeyTypes ≠ []) (htracked : ∀ key ∈ f.boundKeyTypes, C.tracked key = true)
    (hsame : ∀ t ∈ innerStores q f, SameStore C t w w') (e : Entity) :
    InnerMatches w q f choice e ↔ InnerMatches w' q f choice e := by
  obtain ⟨schema, hp⟩ := present_of_reachable hr
  obtain ⟨schema', hp'⟩ := present_of_reachable hr'
  have hkeys : ∀ key ∈ f.boundKeyTypes, ∀ e, w.fingerprintOn key e = w'.fingerprintOn key e := by
    intro key hkey e
    have hinner : key ∈ innerStores q f := List.mem_append_left _
      (List.mem_append_right _ (QueryFilter.bound_subset_present hkey))
    exact ((hsame key hinner).fingerprints (htracked key hkey) e).symm
  refine and_congr ?_ (exists_congr fun key => and_congr_right fun hkey => ?_)
  · exact mem_filteredRows_congr hp hp' hf (fun t ht e => ((hsame t ht).has e).symm) e
  · exact sharesKey_congr (hkeys key hkey)

/-- What a match and an absence beside the same choice say about a covered join. -/
theorem AbsenceCovered.covers (h : AbsenceCovered C.tracked q f) (hf : f.boundKeyTypes ≠ [])
    (hr : World.Reachable C w) (hr' : World.Reachable C w')
    (hpass : Passes w choice (.outer q f) .absent) {e : Entity}
    (he : InnerMatches w' q f choice e) :
    (∀ t ∈ innerStores q f, t ∈ absenceStores q f) ∧
      (∀ types ∈ SystemParam.queryInterestTypes q f, ∀ t ∈ innerStores q f, t ∈ types) ∧
        ∀ key ∈ f.boundKeyTypes, C.tracked key = true := by
  obtain ⟨schema, hp⟩ := present_of_reachable hr
  obtain ⟨schema', hp'⟩ := present_of_reachable hr'
  exact h (satisfiable_of_row hp' he.1) (discerning_of_passes hp hf hpass)

/-- An absence and a match are told apart by a deciding store that has moved. -/
theorem AbsenceCovered.moved (h : AbsenceCovered C.tracked q f) (hf : f.boundKeyTypes ≠ [])
    (hr : World.Reachable C w) (hr' : World.Reachable C w')
    (hpass : Passes w choice (.outer q f) .absent) {e : Entity}
    (he : InnerMatches w' q f choice e) : ¬ ∀ t ∈ innerStores q f, SameStore C t w w' := by
  intro hsame
  obtain ⟨-, -, htracked⟩ := h.covers hf hr hr' hpass he
  have hmatch : InnerMatches w q f choice e :=
    (innerMatches_congr hr hr' hf htracked hsame e).mpr he
  exact not_innerMatches_of_passes hpass e hmatch

theorem AbsenceCovered.deps_ne (h : AbsenceCovered C.tracked q f) (hf : f.boundKeyTypes ≠ [])
    (hl : l.length = before.length) {w₁ w₂ w₃ : World α} (hr : World.Reachable C w₁)
    (h₁₂ : Later C w₁ w₂) (h₂₃ : Later C w₂ w₃)
    (hpass : Passes w₁ (before.zip l ++ after.zip r) (.outer q f) .absent) {e : Entity}
    (he : InnerMatches w₂ q f (before.zip l ++ after.zip r) e) :
    Params.deps C w₁ (before ++ .outer q f :: after) (l ++ .absent :: r) ≠
      Params.deps C w₃ (before ++ .outer q f :: after) (l ++ .absent :: r) := by
  intro hdeps
  have hr₂ := h₁₂.reachable hr
  have hw₁ := coherent_of_reachable hr
  have hw₂ := coherent_of_reachable hr₂
  obtain ⟨hstores, -⟩ := h.covers hf hr hr₂ hpass he
  have h₁ := (Follows.refl (C := C) w₁).later hw₁ h₁₂
  have h₂ := (Follows.refl (C := C) w₂).later hw₂ h₂₃
  refine h.moved hf hr hr₂ hpass he fun t ht => h₁.2.sameStore hw₁ ?_
  have hends : w₁.storeWatermark t = w₃.storeWatermark t :=
    storeWatermark_of_deps hl hdeps (hstores t ht)
  have hup := h₁.2.storeWatermark_le hw₁ t
  have hup' := h₂.2.storeWatermark_le hw₂ t
  exact le_antisymm (hends ▸ hup') hup

/-- A pruned absence has an inner row that matches its providers. -/
theorem exists_innerMatches_of_pruned (hr : World.Reachable C w) (hf : f.boundKeyTypes ≠ [])
    (hl : l.length = before.length) {planned : List (List ParamState)}
    (hplanned : states w (before ++ .outer q f :: after) = some planned)
    (hchoice : Plans w (before ++ after) (l ++ r)) (hpruned : l ++ .absent :: r ∉ planned) :
    ∃ e, InnerMatches w q f (before.zip l ++ after.zip r) e := by
  obtain ⟨schema, hp⟩ := present_of_reachable hr
  obtain ⟨choices, hchoices, hmem⟩ := hchoice
  obtain ⟨e, he, key, hkey, hshares⟩ := exists_sharesKey_of_absent_pruned (coherent_of_reachable hr)
    hp hf hplanned hchoices hl hmem hpruned
  exact ⟨e, he, key, hkey, hshares⟩

/-- Two verdicts that differ are those of an absence and of a match. -/
theorem exists_of_verdicts_ne {w₁ w₃ : World α} (hr₁ : World.Reachable C w₁)
    (hr₃ : World.Reachable C w₃) (hf : f.boundKeyTypes ≠ []) (hl : l.length = before.length)
    {planned₁ planned₃ : List (List ParamState)}
    (h₁ : states w₁ (before ++ .outer q f :: after) = some planned₁)
    (h₃ : states w₃ (before ++ .outer q f :: after) = some planned₃)
    (hchoice₁ : Plans w₁ (before ++ after) (l ++ r))
    (hchoice₃ : Plans w₃ (before ++ after) (l ++ r))
    (hne : ¬ (l ++ .absent :: r ∈ planned₁ ↔ l ++ .absent :: r ∈ planned₃)) :
    (Passes w₁ (before.zip l ++ after.zip r) (.outer q f) .absent ∧
      ∃ e, InnerMatches w₃ q f (before.zip l ++ after.zip r) e) ∨
    (Passes w₃ (before.zip l ++ after.zip r) (.outer q f) .absent ∧
      ∃ e, InnerMatches w₁ q f (before.zip l ++ after.zip r) e) := by
  by_cases hmem₁ : l ++ .absent :: r ∈ planned₁
  · have hpruned₃ : l ++ .absent :: r ∉ planned₃ := fun hmem₃ =>
      hne ⟨fun _ => hmem₃, fun _ => hmem₁⟩
    refine Or.inl ⟨passes_of_plans hr₁ hl ⟨planned₁, h₁, hmem₁⟩, ?_⟩
    exact exists_innerMatches_of_pruned hr₃ hf hl h₃ hchoice₃ hpruned₃
  · have hmem₃ : l ++ .absent :: r ∈ planned₃ := by
      by_contra hmem₃
      exact hne ⟨fun h => absurd h hmem₁, fun h => absurd h hmem₃⟩
    refine Or.inr ⟨passes_of_plans hr₃ hl ⟨planned₃, h₃, hmem₃⟩, ?_⟩
    exact exists_innerMatches_of_pruned hr₁ hf hl h₁ hchoice₁ hmem₁

theorem AbsenceCovered.interest_lt (h : AbsenceCovered C.tracked q f) (hf : f.boundKeyTypes ≠ [])
    (hl : l.length = before.length) {w₁ w₃ : World α} (hr : World.Reachable C w₁)
    (hlater : Later C w₁ w₃) {planned₁ planned₃ : List (List ParamState)}
    (h₁ : states w₁ (before ++ .outer q f :: after) = some planned₁)
    (h₃ : states w₃ (before ++ .outer q f :: after) = some planned₃)
    (hchoice₁ : Plans w₁ (before ++ after) (l ++ r))
    (hchoice₃ : Plans w₃ (before ++ after) (l ++ r))
    (hne : ¬ (l ++ .absent :: r ∈ planned₁ ↔ l ++ .absent :: r ∈ planned₃)) :
    ∀ types ∈ Params.interestTypes (before ++ .outer q f :: after),
      BoxedSystem.interestMark types w₁ < BoxedSystem.interestMark types w₃ := by
  intro all hall
  by_contra hstill
  have hr₃ := hlater.reachable hr
  have hw := coherent_of_reachable hr
  have hfollows := ((Follows.refl (C := C) w₁).later hw hlater).2
  obtain ⟨types, htypes, hsub⟩ := interest_subset hall
  have hsame : (∀ own ∈ SystemParam.queryInterestTypes q f, ∀ t ∈ innerStores q f, t ∈ own) →
      ∀ t ∈ innerStores q f, SameStore C t w₁ w₃ := by
    intro hlisted t ht
    refine hfollows.sameStore hw ?_
    by_contra hmoved
    exact hstill (interestMark_lt hw hfollows (hsub t (hlisted types htypes t ht)) hmoved)
  rcases exists_of_verdicts_ne hr hr₃ hf hl h₁ h₃ hchoice₁ hchoice₃ hne with
    ⟨hpass, e, he⟩ | ⟨hpass, e, he⟩
  · obtain ⟨-, hlisted, -⟩ := h.covers hf hr hr₃ hpass he
    exact h.moved hf hr hr₃ hpass he (hsame hlisted)
  · obtain ⟨-, hlisted, htracked⟩ := h.covers hf hr₃ hr hpass he
    have hmatch := (innerMatches_congr hr hr₃ hf htracked (hsame hlisted) e).mp he
    exact not_innerMatches_of_passes hpass e hmatch

/-- A covered absence is tracked. -/
theorem AbsenceCovered.outerTracked (h : AbsenceCovered C.tracked q f) : OuterTracked C q f where
  deps before after l r w₁ w₂ w₃ hvalid hl hr h₁₂ h₂₃ hplans hmatch _ := by
    obtain ⟨e, he⟩ := hmatch
    exact h.deps_ne (boundKeyTypes_ne_nil_of_valid hvalid) hl hr h₁₂ h₂₃
      (passes_of_plans hr hl hplans) he
  interest before after l r w₁ w₃ planned₁ planned₃ hvalid hl hr hlater hchoice₁ hchoice₃ h₁ h₃
      hne :=
    h.interest_lt (boundKeyTypes_ne_nil_of_valid hvalid) hl hr hlater h₁ h₃ hchoice₁ hchoice₃ hne

end Covering
end Porridge
