import Porridge.Query.Absence.Staged

/-! An absence that does not record what decides it is planned again as if nothing had matched. -/
namespace Porridge

open Params World

variable {α : Type} {tracked : TypeId → Bool} {q : QueryParam} {f : QueryFilter}

section Validation

theorem countP_providers {keys : List TypeId} (h : keys.Nodup) {key : TypeId} (hkey : key ∈ keys) :
    (providers keys).countP (·.providesKey key) = 1 := by
  rw [providers, List.countP_map, ← List.count_eq_one_of_mem h hkey, List.count]
  refine List.countP_congr fun other _ => ?_
  have hread : (keyProvider other).providesKey key = (key == other) := Bool.or_false _
  rw [Function.comp_apply, hread, beq_iff_eq, beq_iff_eq]
  exact eq_comm

/-- The staged tuple is accepted. -/
theorem validateBindings_stagedTuple (h : (SystemParam.outer q f).validateLocal = .ok ()) :
    validateBindings (stagedTuple q f) = .ok () := by
  have hlocal : (stagedTuple q f).forM SystemParam.validateLocal = .ok () := by
    refine List.forM_eq_ok.mpr fun p hp => ?_
    rcases List.mem_append.mp hp with hp | hp
    · obtain ⟨key, -, rfl⟩ := List.mem_map.mp hp
      rfl
    · rw [List.mem_singleton.mp hp]
      exact h
  rw [validateBindings, hlocal]
  refine List.forM_eq_ok.mpr fun p hp => List.forM_eq_ok.mpr fun key hkey => ?_
  obtain ⟨x, rest⟩ := p
  have hothers : x = .outer q f ∧ rest = providers f.boundKeyTypes.dedup ++ [] := by
    rcases List.of_mem_others_insert hp with heq | ⟨_, _, -, hx⟩
    · exact heq
    · have hmem := List.mem_of_mem_others hx
      rw [List.append_nil] at hmem
      obtain ⟨provided, -, rfl⟩ := List.mem_map.mp hmem
      cases hkey
  obtain ⟨rfl, rfl⟩ := hothers
  have hbound : key ∈ f.boundKeyTypes := by
    have hkey : key ∈ f.boundKeyTypes ++ [] := hkey
    rwa [List.append_nil] at hkey
  dsimp only
  rw [List.append_nil, countP_providers (List.nodup_dedup _) (List.mem_dedup.mpr hbound), if_pos rfl]

/-- The interest of the staged tuple is that of the outer join and of its providers. -/
theorem interestTypes_stagedTuple {types : List TypeId}
    (h : SystemParam.queryInterestTypes q f = some types) :
    ∃ all, Params.interestTypes (stagedTuple q f) = some all ∧
      ∀ t ∈ all, t ∈ f.boundKeyTypes ∨ t ∈ types := by
  have hproviders : ∀ keys : List TypeId, (providers keys).mapM SystemParam.interestTypes =
      some (keys.map fun key => [key]) := by
    intro keys
    induction keys with
    | nil => rfl
    | cons key keys ih =>
      rw [providers, List.map_cons, List.mapM_cons, ← providers, ih]
      rfl
  have houter : [SystemParam.outer q f].mapM SystemParam.interestTypes = some [types] := by
    rw [List.mapM_cons, SystemParam.interestTypes, h]
    rfl
  refine ⟨_, by rw [Params.interestTypes, stagedTuple, List.mapM_append, hproviders, houter]; rfl,
    fun t ht => ?_⟩
  obtain ⟨own, hown, ht⟩ := List.mem_flatten.mp ht
  rcases List.mem_append.mp hown with hown | hown
  · obtain ⟨key, hkey, rfl⟩ := List.mem_map.mp hown
    rw [List.mem_singleton.mp ht]
    exact Or.inl (List.mem_dedup.mp hkey)
  · rw [List.mem_singleton.mp hown] at ht
    exact Or.inr ht

end Validation

section Untracked

variable {C : Components α} {w w' : World α}

/-- The absence observes the same where the providers and the recorded watermarks are the same. -/
theorem deps_stagedAbsence
    (hcells : ∀ t key, w.cell? t (key + 1) = w'.cell? t (key + 1))
    (hmarks : ∀ t ∈ absenceStores q f, w.storeWatermark t = w'.storeWatermark t) :
    Params.deps C w (stagedTuple q f) (stagedAbsence f) =
      Params.deps C w' (stagedTuple q f) (stagedAbsence f) := by
  refine List.flatMap_congr fun x hx => ?_
  rw [stagedTuple, stagedAbsence, zip_insert (length_provision _), List.zip_nil_left] at hx
  rcases List.mem_append.mp hx with hx | hx
  · rw [providers, provision, List.zip_map'] at hx
    obtain ⟨key, -, rfl⟩ := List.mem_map.mp hx
    show componentDep C w key (key + 1) ++ [] ++ [] = componentDep C w' key (key + 1) ++ [] ++ []
    unfold componentDep revisionByType
    rw [hcells]
  · cases List.mem_singleton.mp hx
    refine congrArg₂ _ (List.map_congr_left fun access haccess => ?_)
      (List.map_congr_left fun key hkey => ?_)
    · rw [storeWatermarkDep, hmarks _ (List.mem_append_left _ (List.mem_map_of_mem haccess))]
      rfl
    · rw [storeWatermarkDep, hmarks _ (List.mem_append_right _ hkey)]
      rfl

/-- Entity 0 matches the providers of the stage where it is an inner row with one of their keys. -/
theorem innerMatches_staged {row : TypeId → Option Fingerprint} (h : Shows tracked (f.stage row) w)
    (hdiscerning : Discerning q f) (hinner : IsInner q f row)
    (hkey : ∃ key ∈ f.boundKeyTypes, row key = some 0) :
    InnerMatches w q f ((providers f.boundKeyTypes.dedup).zip
      (provision f.boundKeyTypes.dedup) ++ List.zip [] []) 0 := by
  obtain ⟨key, hmem, hv⟩ := hkey
  have hf : f.boundKeyTypes ≠ [] := List.ne_nil_of_mem hmem
  refine ⟨(h.mem_filteredRows hf hdiscerning 0).mpr ⟨rfl, hinner⟩, key, hmem, 0, ?_, ?_⟩
  · rw [h.fingerprint]
    exact hv
  · rw [List.zip_nil_left, List.append_nil, provided_provision w (List.mem_dedup.mpr hmem),
      fingerprintOn_provider h hmem]

/-- Entity 0 becomes an inner row with the provided keys and stops being one; where no recorded
watermark tells, the absence is not tracked. -/
theorem not_outerTracked_of_passing {row : TypeId → Option Fingerprint} {t : TypeId}
    {w₁ w₂ w₃ : World α} (hlocal : (SystemParam.outer q f).validateLocal = .ok ())
    (hdiscerning : Discerning q f) (hw₁ : Shows tracked (f.stage row) w₁)
    (hnone : IsInner q f row → ∀ key ∈ f.boundKeyTypes, row key ≠ some 0)
    (h₁₂ : Touches tracked t 0 w₁ w₂) {v : Option Fingerprint}
    (hw₂ : Shows tracked (f.stage (Function.update row t v)) w₂)
    (hinner : IsInner q f (Function.update row t v))
    (hkey : ∃ key ∈ f.boundKeyTypes, Function.update row t v key = some 0)
    (h₂₃ : Touches tracked t 0 w₂ w₃) (hw₃ : Shows tracked (f.stage row) w₃)
    (hmarks : t ∈ absenceStores q f → w₃.storeWatermark t = w₁.storeWatermark t) :
    ¬ OuterTracked (.numbered α tracked) q f := by
  intro htracked
  have hf : f.boundKeyTypes ≠ [] := by
    obtain ⟨key, hmem, -⟩ := hkey
    exact List.ne_nil_of_mem hmem
  have hmatch := innerMatches_staged hw₂ hdiscerning hinner hkey
  refine htracked.deps (providers f.boundKeyTypes.dedup) [] (provision f.boundKeyTypes.dedup) []
    w₁ w₂ w₃ (validateBindings_stagedTuple hlocal) (length_provision _) hw₁.reachable h₁₂.later
    h₂₃.later (plans_stagedAbsence hw₁ hf hdiscerning hnone) ⟨0, hmatch⟩
    (plans_stagedAbsence hw₃ hf hdiscerning hnone) ?_
  refine deps_stagedAbsence (fun t' key => ?_) fun t' ht' => ?_
  · have hother : ¬ (t' = t ∧ key + 1 = 0) := fun h => Nat.succ_ne_zero key h.2
    rw [h₂₃.cell t' _ hother, h₁₂.cell t' _ hother]
  · by_cases ht : t' = t
    · rw [ht] at ht' ⊢
      exact (hmarks ht').symm
    · rw [h₂₃.watermark t' ht, h₁₂.watermark t' ht]

def innerRow (q : QueryParam) (f : QueryFilter) (n : Fingerprint) (t : TypeId) :
    Option Fingerprint := if t ∈ q.requiredTypes ++ f.presentTypes then some n else none

theorem isInner_innerRow (hsat : ∀ t ∈ q.requiredTypes ++ f.presentTypes, t ∉ f.absentTypes)
    (n : Fingerprint) : IsInner q f (innerRow q f n) := by
  constructor
  · intro t ht
    rw [innerRow, if_pos ht]
    exact Option.some_ne_none n
  · intro t ht
    exact if_neg fun hmem => hsat t hmem ht

theorem innerRow_of_bound {key : TypeId} (hkey : key ∈ f.boundKeyTypes) (n : Fingerprint) :
    innerRow q f n key = some n :=
  if_pos (List.mem_append_right _ (QueryFilter.bound_subset_present hkey))

variable (α tracked) in
/-- A deciding store can be all that keeps entity 0 from being an inner row. -/
theorem exists_unmatched {t : TypeId}
    (ht : t ∈ innerStores q f) : ∃ (row : TypeId → Option Fingerprint) (w : World α),
      Shows tracked (f.stage row) w ∧ ¬ IsInner q f row ∧
        Function.update row t (innerRow q f 0 t) = innerRow q f 0 := by
  let other : Option Fingerprint := if t ∈ f.absentTypes then some 0 else none
  let row := Function.update (innerRow q f 0) t other
  have hnone : ¬ IsInner q f row := by
    rintro ⟨hpresent, habsent⟩
    by_cases habsents : t ∈ f.absentTypes
    · have hlacks := habsent t habsents
      rw [show row t = some 0 from (Function.update_self ..).trans (if_pos habsents)] at hlacks
      cases hlacks
    · have hrequired : t ∈ q.requiredTypes ++ f.presentTypes :=
        (List.mem_append.mp ht).resolve_right habsents
      exact hpresent t hrequired ((Function.update_self ..).trans (if_neg habsents))
  have hsupport : ∀ t', row t' ≠ none → t' ∈ t :: (q.requiredTypes ++ f.presentTypes) := by
    intro t' hne
    by_cases heq : t' = t
    · exact heq ▸ List.mem_cons_self
    · rw [show row t' = innerRow q f 0 t' from Function.update_of_ne heq ..] at hne
      refine List.mem_cons_of_mem _ ?_
      by_contra hnot
      exact hne (if_neg hnot)
  obtain ⟨w, hw⟩ : ∃ w : World α, Shows tracked (f.stage row) w :=
    exists_staged tracked _ _ _ hsupport
  refine ⟨row, w, hw, hnone, ?_⟩
  rw [Function.update_idem, Function.update_eq_self]

/-- A deciding store that is not recorded lets an inner row come and go unseen. -/
theorem not_outerTracked_of_unrecorded {t : TypeId}
    (hlocal : (SystemParam.outer q f).validateLocal = .ok ()) (hf : f.boundKeyTypes ≠ [])
    (hdiscerning : Discerning q f)
    (hsat : ∀ t ∈ q.requiredTypes ++ f.presentTypes, t ∉ f.absentTypes)
    (ht : t ∈ innerStores q f) (hunrecorded : t ∉ absenceStores q f) :
    ¬ OuterTracked (.numbered α tracked) q f := by
  obtain ⟨row, w₁, hw₁, hnone, hback⟩ := exists_unmatched α tracked ht
  obtain ⟨w₂, h₁₂, hw₂⟩ := hw₁.put t 0 (innerRow q f 0 t)
  rw [QueryFilter.stage, assign_stage] at hw₂
  obtain ⟨w₃, h₂₃, hw₃⟩ := hw₂.put t 0 (row t)
  rw [assign_stage, Function.update_idem, Function.update_eq_self] at hw₃
  obtain ⟨key, hkey⟩ := List.exists_mem_of_ne_nil _ hf
  refine not_outerTracked_of_passing hlocal hdiscerning hw₁ (fun h => absurd h hnone) h₁₂ hw₂ ?_
    ⟨key, hkey, ?_⟩ h₂₃ hw₃ fun hrecorded => absurd hrecorded hunrecorded
  · rw [hback]
    exact isInner_innerRow hsat 0
  · rw [hback]
    exact innerRow_of_bound hkey 0

/-- A deciding store outside a bounded interest ends an absence without raising the mark. -/
theorem not_outerTracked_of_unlisted {t : TypeId} {types : List TypeId}
    (hlocal : (SystemParam.outer q f).validateLocal = .ok ()) (hf : f.boundKeyTypes ≠ [])
    (hdiscerning : Discerning q f)
    (hsat : ∀ t ∈ q.requiredTypes ++ f.presentTypes, t ∉ f.absentTypes)
    (ht : t ∈ innerStores q f) (htypes : SystemParam.queryInterestTypes q f = some types)
    (hunlisted : t ∉ types) : ¬ OuterTracked (.numbered α tracked) q f := by
  intro htracked
  obtain ⟨row, w₁, hw₁, hnone, hback⟩ := exists_unmatched α tracked ht
  obtain ⟨w₂, h₁₂, hw₂⟩ := hw₁.put t 0 (innerRow q f 0 t)
  rw [QueryFilter.stage, assign_stage, hback] at hw₂
  obtain ⟨key, hkey⟩ := List.exists_mem_of_ne_nil _ hf
  have hmatch : InnerMatches w₂ q f ((providers f.boundKeyTypes.dedup).zip
      (provision f.boundKeyTypes.dedup) ++ List.zip [] []) 0 :=
    innerMatches_staged hw₂ hdiscerning (isInner_innerRow hsat 0)
      ⟨key, hkey, innerRow_of_bound hkey 0⟩
  have hplans : Plans w₁ (stagedTuple q f) (stagedAbsence f) :=
    plans_stagedAbsence hw₁ hf hdiscerning fun h => absurd h hnone
  obtain ⟨planned₁, h₁, hmem⟩ := hplans
  obtain ⟨schema, hp⟩ := present_of_reachable hw₂.reachable
  obtain ⟨planned₂, h₂⟩ := exists_states_stagedTuple (q := q) hp hf (stamped_of_shows hw₂)
  have hpruned : stagedAbsence f ∉ planned₂ := fun hplanned =>
    not_innerMatches_of_passes
      (passes_of_plans hw₂.reachable (length_provision _) ⟨planned₂, h₂, hplanned⟩) 0 hmatch
  obtain ⟨all, hall, hsub⟩ := interestTypes_stagedTuple htypes
  have hrisen : BoxedSystem.interestMark all w₁ < BoxedSystem.interestMark all w₂ := by
    refine htracked.interest (providers f.boundKeyTypes.dedup) []
      (provision f.boundKeyTypes.dedup) [] w₁ w₂ planned₁ planned₂
      (validateBindings_stagedTuple hlocal) (length_provision _) hw₁.reachable h₁₂.later ?_ ?_
      h₁ h₂ (fun hiff => hpruned (hiff.mp hmem)) all hall
    · rw [List.append_nil, List.append_nil]
      exact plans_provision hw₁
    · rw [List.append_nil, List.append_nil]
      exact plans_provision hw₂
  -- the mark of the staged interest leaves the store out
  have hsame : BoxedSystem.interestMark all w₂ = BoxedSystem.interestMark all w₁ := by
    unfold BoxedSystem.interestMark
    congr 1
    refine List.map_congr_left fun t' ht' => h₁₂.watermark t' ?_
    rintro rfl
    rcases hsub t' ht' with hbound | hlisted
    · exact hunlisted
        (SystemParam.subset_queryInterestTypes htypes t' (QueryFilter.boundKeyTypes_subset hbound))
    · exact hunlisted hlisted
  exact absurd hrisen (hsame ▸ lt_irrefl _)

/-- An untracked key lets an inner row match and stop matching unseen. -/
theorem not_outerTracked_of_untracked {key : TypeId}
    (hlocal : (SystemParam.outer q f).validateLocal = .ok ()) (hdiscerning : Discerning q f)
    (hsat : ∀ t ∈ q.requiredTypes ++ f.presentTypes, t ∉ f.absentTypes)
    (hkey : key ∈ f.boundKeyTypes) (huntracked : tracked key = false) :
    ¬ OuterTracked (.numbered α tracked) q f := by
  have hsupport : ∀ t, innerRow q f 1 t ≠ none → t ∈ q.requiredTypes ++ f.presentTypes := by
    intro t hne
    by_contra hnot
    exact hne (if_neg hnot)
  obtain ⟨w₁, hw₁⟩ : ∃ w : World α, Shows tracked (f.stage (innerRow q f 1)) w :=
    exists_staged tracked _ _ _ hsupport
  have hcarries : innerRow q f 1 key = some 1 := innerRow_of_bound hkey 1
  obtain ⟨w₂, h₁₂, hmark, hw₂⟩ := hw₁.amend (t := key) (e := 0) (by
    rw [show f.stage (innerRow q f 1) key 0 = some 1 from hcarries]
    rfl) huntracked 0
  rw [QueryFilter.stage, assign_stage] at hw₂
  obtain ⟨w₃, h₂₃, hmark', hw₃⟩ := hw₂.amend (t := key) (e := 0) (by
    rw [show stage f.boundKeyTypes f.absentTypes (Function.update (innerRow q f 1) key (some 0)) key
      0 = some 0 from Function.update_self ..]
    rfl) huntracked 1
  rw [assign_stage, Function.update_idem, ← hcarries, Function.update_eq_self] at hw₃
  have hinner : IsInner q f (Function.update (innerRow q f 1) key (some 0)) := by
    obtain ⟨hpresent, habsent⟩ := isInner_innerRow hsat 1
    constructor
    · intro t ht
      by_cases heq : t = key
      · rw [heq, Function.update_self]
        exact Option.some_ne_none 0
      · rw [Function.update_of_ne heq]
        exact hpresent t ht
    · intro t ht
      have hne : t ≠ key := fun heq => hsat key
        (List.mem_append_right _ (QueryFilter.bound_subset_present hkey)) (heq ▸ ht)
      rw [Function.update_of_ne hne]
      exact habsent t ht
  refine not_outerTracked_of_passing hlocal hdiscerning hw₁ (fun _ other hother heq => ?_) h₁₂ hw₂
    hinner ⟨key, hkey, Function.update_self ..⟩ h₂₃ hw₃ fun _ => hmark'.trans hmark
  rw [innerRow_of_bound hother] at heq
  cases heq

end Untracked

/-- The absence of an outer join is tracked in every tuple and every run exactly where it records
what decides its inner rows and its interest lists it. -/
theorem outerTracked_iff (hlocal : (SystemParam.outer q f).validateLocal = .ok ()) :
    (∀ C : Components α, C.tracked = tracked → OuterTracked C q f) ↔
      AbsenceCovered tracked q f := by
  constructor
  · intro h hsat hdiscerning
    have htracked : OuterTracked (.numbered α tracked) q f := h _ rfl
    have hf : f.boundKeyTypes ≠ [] := fun hnone => by
      simp [SystemParam.validateLocal, hnone] at hlocal
    have hrows : ∀ t ∈ q.requiredTypes ++ f.presentTypes, t ∉ f.absentTypes := by
      have hsplit := hsat.2
      rw [extent_of_bound hf] at hsplit
      exact hsplit
    refine ⟨?_, ?_, ?_⟩
    · intro t ht
      by_contra hunrecorded
      exact not_outerTracked_of_unrecorded hlocal hf hdiscerning hrows ht hunrecorded htracked
    · intro types htypes t ht
      by_contra hunlisted
      exact not_outerTracked_of_unlisted hlocal hf hdiscerning hrows ht htypes hunlisted htracked
    · intro key hkey
      by_contra huntracked
      exact not_outerTracked_of_untracked hlocal hdiscerning hrows hkey
        (Bool.eq_false_iff.mpr huntracked) htracked
  · rintro h C rfl
    exact h.outerTracked

/-- An absence that joins on a key and reads a component is tracked. -/
theorem joined_outerTracked : OuterTracked World.fingerprinted (.entityParts [] [.read 1])
    (.whereKey (.eq 2)) := by
  have hlocal : (SystemParam.outer (.entityParts [] [.read 1]) (.whereKey (.eq 2))).validateLocal =
      .ok () := rfl
  have hcovered : AbsenceCovered World.fingerprinted.tracked (.entityParts [] [.read 1])
      (.whereKey (.eq 2)) := by decide
  exact (outerTracked_iff hlocal).mpr hcovered _ rfl

/-- Joins component 1 of the entities that carry the marker 3 on the key 2. -/
def markedJoin : QueryFilter := .and (.withComponent 3) (.whereKey (.eq 2))

/-- Each entity with the key, beside its marked partner or none. -/
def markedTuple : Params := [.query (.entityParts [] [.read 2]) .unit,
  .outer (.entityParts [] [.read 1]) markedJoin]

/-- Entities 0 and 1 carry the same key, and entity 0 could be the partner of entity 1. -/
def unmarked : World Nat :=
  ((World.machine World.fingerprinted).run (World.ofSchema none) [.base (.insert 1 0 (.data 5)),
    .base (.insert 2 0 (.data 7)), .base (.insert 2 1 (.data 7))]).getD World.new

def marked : World Nat :=
  ((World.machine World.fingerprinted).run unmarked [.base (.insert 3 0 (.data 8))]).getD World.new

/-- Entity 0 is no longer marked. -/
def remarked : World Nat :=
  ((World.machine World.fingerprinted).run marked [.base (.removeComponent 3 0)]).getD World.new

/-- A marker comes and goes, and the absence that missed the match observes what it observed. -/
theorem marker_unseen :
    validateBindings markedTuple = .ok () ∧ World.Reachable World.fingerprinted unmarked ∧
      Later World.fingerprinted unmarked marked ∧ Later World.fingerprinted marked remarked ∧
      states unmarked markedTuple = some [[.row 0, .absent], [.row 1, .absent]] ∧
      states marked markedTuple = some [[.row 0, .row 0], [.row 1, .row 0]] ∧
      states remarked markedTuple = some [[.row 0, .absent], [.row 1, .absent]] ∧
      Params.deps World.fingerprinted unmarked markedTuple [.row 1, .absent] =
        Params.deps World.fingerprinted remarked markedTuple [.row 1, .absent] ∧
      ¬ OuterTracked World.fingerprinted (.entityParts [] [.read 1]) markedJoin := by
  have hvalid : validateBindings markedTuple = .ok () := by decide
  have hreachable : World.Reachable World.fingerprinted unmarked :=
    Machine.Reachable.run (.init ⟨none, rfl⟩) (show (World.machine World.fingerprinted).run
      (World.ofSchema none) [.base (.insert 1 0 (.data 5)), .base (.insert 2 0 (.data 7)),
        .base (.insert 2 1 (.data 7))] = some unmarked from rfl)
  have hmarked : Later World.fingerprinted unmarked marked := ⟨[.base (.insert 3 0 (.data 8))], rfl⟩
  have hremarked : Later World.fingerprinted marked remarked := ⟨[.base (.removeComponent 3 0)], rfl⟩
  have hbefore : states unmarked markedTuple = some [[.row 0, .absent], [.row 1, .absent]] := by
    decide
  have hbetween : states marked markedTuple = some [[.row 0, .row 0], [.row 1, .row 0]] := by
    decide
  have hafter : states remarked markedTuple = some [[.row 0, .absent], [.row 1, .absent]] := by
    decide
  have hdeps : Params.deps World.fingerprinted unmarked markedTuple [.row 1, .absent] =
      Params.deps World.fingerprinted remarked markedTuple [.row 1, .absent] := by decide
  refine ⟨hvalid, hreachable, hmarked, hremarked, hbefore, hbetween, hafter, hdeps, fun h => ?_⟩
  have hmatch : InnerMatches marked (.entityParts [] [.read 1]) markedJoin
      [(.query (.entityParts [] [.read 2]) .unit, .row 1)] 0 :=
    ⟨by decide, 2, by decide, 7, by decide, by decide⟩
  exact h.deps [.query (.entityParts [] [.read 2]) .unit] [] [.row 1] [] unmarked marked remarked
    hvalid rfl hreachable hmarked hremarked ⟨_, hbefore, by decide⟩ ⟨0, hmatch⟩
    ⟨_, hafter, by decide⟩ hdeps

end Porridge
