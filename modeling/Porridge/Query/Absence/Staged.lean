import Porridge.Query.Absence
import Porridge.World.Showing

/-! Staged worlds: one entity provides each key, and entity 0 is the only one that can be an inner
row. -/
namespace Porridge

open Params World

variable {α : Type} {C : Components α} {tracked : TypeId → Bool} {w w' : World α} {q : QueryParam}
  {f : QueryFilter} {t : TypeId} {row : TypeId → Option Fingerprint}

section Stage

/-- The content of entity 0, beside a provider for each key that an inner row may not resemble. -/
def stage (keys absent : List TypeId) (row : TypeId → Option Fingerprint) (t : TypeId) :
    Entity → Option Fingerprint
  | 0 => row t
  | key + 1 => if key ∈ keys ∧ (t = key ∨ t ∈ absent) then some 0 else none

abbrev QueryFilter.stage (f : QueryFilter) : (TypeId → Option Fingerprint) → TypeId → Entity →
    Option Fingerprint := Porridge.stage f.boundKeyTypes f.absentTypes

theorem assign_stage (keys absent : List TypeId) (row : TypeId → Option Fingerprint) (t : TypeId)
    (v : Option Fingerprint) :
    assign (stage keys absent row) t 0 v = stage keys absent (Function.update row t v) := by
  funext t' e
  unfold assign
  cases e with
  | zero =>
    by_cases ht : t' = t
    · simp [stage, ht]
    · simp [stage, ht]
  | succ e => simp [stage]

theorem exists_staged (tracked : TypeId → Bool) (keys absent types : List TypeId)
    (h : ∀ t, row t ≠ none → t ∈ types) :
    ∃ w : World α, Shows tracked (stage keys absent row) w := by
  refine exists_shows tracked _ (types.map (·, 0) ++
    keys.flatMap fun key => (key :: absent).map (·, key + 1)) fun t e hne => ?_
  rw [List.mem_append]
  cases e with
  | zero => exact Or.inl (List.mem_map_of_mem (h t hne))
  | succ key =>
    unfold stage at hne
    dsimp only at hne
    split_ifs at hne with hkey
    · refine Or.inr (List.mem_flatMap.mpr ⟨key, hkey.1, List.mem_map_of_mem ?_⟩)
      exact List.mem_cons.mpr hkey.2
    · exact absurd rfl hne

def IsInner (q : QueryParam) (f : QueryFilter) (row : TypeId → Option Fingerprint) : Prop :=
  (∀ t ∈ q.requiredTypes ++ f.presentTypes, row t ≠ none) ∧ ∀ t ∈ f.absentTypes, row t = none

/-- No provider is an inner row. -/
theorem World.Shows.mem_filteredRows (h : Shows tracked (f.stage row) w) (hf : f.boundKeyTypes ≠ [])
    (hdiscerning : Discerning q f) (e : Entity) :
    e ∈ filteredRows w q f ↔ e = 0 ∧ IsInner q f row := by
  obtain ⟨schema, hp⟩ := present_of_reachable h.reachable
  rw [mem_filteredRows_bound hp hf]
  simp only [h.has]
  cases e with
  | zero => simp [stage, IsInner, Option.isSome_iff_ne_none]
  | succ key =>
    refine iff_of_false ?_ fun h => absurd h.1 (Nat.succ_ne_zero key)
    rintro ⟨hpresent, habsent⟩
    have hcarries : ∀ t ∈ q.requiredTypes ++ f.presentTypes,
        key ∈ f.boundKeyTypes ∧ (t = key ∨ t ∈ f.absentTypes) := by
      intro t ht
      by_contra hnot
      have hsome := hpresent t ht
      rw [show f.stage row t (key + 1) = none from if_neg hnot] at hsome
      cases hsome
    obtain ⟨bound, hbound⟩ := List.exists_mem_of_ne_nil _ hf
    have hprovides : key ∈ f.boundKeyTypes :=
      (hcarries bound (List.mem_append_right _ (QueryFilter.bound_subset_present hbound))).1
    have hnone : f.absentTypes = [] := by
      refine List.eq_nil_iff_forall_not_mem.mpr fun t ht => ?_
      have hlacks := habsent t ht
      rw [show f.stage row t (key + 1) = some 0 from if_pos ⟨hprovides, Or.inr ht⟩] at hlacks
      cases hlacks
    rcases hdiscerning with hsome | hother
    · exact hsome hnone
    · obtain ⟨t, ht, hne⟩ := hother key hprovides
      rcases (hcarries t ht).2 with heq | hmem
      · exact hne heq
      · rw [hnone] at hmem
        cases hmem

end Stage

section Providers

def keyProvider (key : TypeId) : SystemParam := .query (.entityParts [] [.read key]) .unit

def providers (keys : List TypeId) : Params := keys.map keyProvider

/-- The rows chosen on the stage. -/
def provision (keys : List TypeId) : List ParamState := keys.map fun key => .row (key + 1)

theorem length_provision (keys : List TypeId) : (provision keys).length = (providers keys).length := by
  rw [provision, providers, List.length_map, List.length_map]

theorem providedKey_keyProvider (w : World α) (key key' : TypeId) (e : Entity) :
    (keyProvider key).providedKey w (.row e) key' =
      if key' = key then some (w.fingerprintOn key' e) else none := by
  show ([QueryPart.read key].findSome? fun part => part.providedKey w e key') = _
  rw [List.findSome?_singleton, QueryPart.providedKey, QueryPart.providesKey]
  by_cases hkey : key' = key
  · rw [if_pos hkey, if_pos (beq_iff_eq.mpr hkey)]
  · rw [if_neg hkey, if_neg (by simpa using hkey)]

theorem provided_cons {β : Type} (y : SystemParam × ParamState) (others : Picked)
    (provide : SystemParam → ParamState → Option β) :
    provided (y :: others) provide = (provide y.1 y.2).or (provided others provide) := by
  rw [provided, List.findSome?_cons]
  cases provide y.1 y.2 <;> rfl

/-- The choices among the rows of the providers. -/
abbrev Provision (w : World α) : List TypeId → List ParamState → Prop :=
  List.Forall₂ fun key s => ∃ e, s = .row e ∧ w.has key e = true

theorem Provision.exists_provided {keys : List TypeId} {l : List ParamState}
    (h : Provision w keys l) {key : TypeId} (hkey : key ∈ keys) : ∃ e, w.has key e = true ∧
      provided ((providers keys).zip l) (fun p s => p.providedKey w s key) =
        some (w.fingerprintOn key e) := by
  induction h with
  | nil => cases hkey
  | @cons first s keys l hs _ ih =>
    obtain ⟨e, rfl, he⟩ := hs
    rw [providers, List.map_cons, List.zip_cons_cons, provided_cons]
    dsimp only
    rw [providedKey_keyProvider]
    by_cases hsame : key = first
    · refine ⟨e, hsame ▸ he, ?_⟩
      rw [if_pos hsame]
      rfl
    · rw [if_neg hsame, Option.none_or]
      exact ih (List.mem_of_ne_of_mem hsame hkey)

theorem provided_provision (w : World α) {keys : List TypeId} {key : TypeId} (hkey : key ∈ keys) :
    provided ((providers keys).zip (provision keys)) (fun p s => p.providedKey w s key) =
      some (w.fingerprintOn key (key + 1)) := by
  induction keys with
  | nil => cases hkey
  | cons first keys ih =>
    rw [providers, provision, List.map_cons, List.map_cons, List.zip_cons_cons, provided_cons]
    dsimp only
    rw [providedKey_keyProvider]
    by_cases hsame : key = first
    · rw [if_pos hsame, hsame]
      rfl
    · rw [if_neg hsame, Option.none_or]
      exact ih (List.mem_of_ne_of_mem hsame hkey)

end Providers

section Plans

theorem exists_product_of_plain {rest : List (SystemParam × List ParamState)} {picked : Picked}
    (h : ∀ x ∈ rest, x.1.pairExpandable = false) : ∃ out, product w picked rest = some out := by
  induction rest generalizing picked with
  | nil => exact ⟨_, rfl⟩
  | cons x rest ih =>
    obtain ⟨p, rows⟩ := x
    have hpick : pickable w p rows picked = some rows := by
      rw [pickable, if_neg (by simpa using h _ List.mem_cons_self)]
    have htails : ∀ s ∈ rows, ∃ lists, ((product w (picked ++ [(p, s)]) rest).map fun tails =>
        tails.map (s :: ·)) = some lists := by
      intro s _
      obtain ⟨tails, htails⟩ : ∃ tails, product w (picked ++ [(p, s)]) rest = some tails :=
        ih fun y hy => h y (List.mem_cons_of_mem _ hy)
      exact ⟨_, by rw [htails, Option.map_some]⟩
    obtain ⟨out, hout⟩ := List.flatMap?_eq_some htails
    exact ⟨out, product_cons.mpr ⟨rows, hpick, hout⟩⟩

/-- Without pair lists, a choice takes each parameter's rows as they are. -/
theorem joined_iff_forall₂ {rest : List (SystemParam × List ParamState)} {picked : Picked}
    (h : ∀ x ∈ rest, x.1.pairExpandable = false) {state : List ParamState} :
    Joined w picked rest state ↔ List.Forall₂ (fun x s => s ∈ x.2) rest state := by
  induction rest generalizing picked state with
  | nil => exact List.forall₂_nil_left_iff.symm
  | cons x rest ih =>
    obtain ⟨p, rows⟩ := x
    have hpick : pickable w p rows picked = some rows := by
      rw [pickable, if_neg (by simpa using h _ List.mem_cons_self)]
    have hrest := fun y hy => h y (List.mem_cons_of_mem _ hy)
    rw [List.forall₂_cons_left_iff]
    constructor
    · rintro ⟨s, tail, offered, rfl, hoffered, hs, htail⟩
      cases hpick.symm.trans hoffered
      exact ⟨s, tail, hs, (ih hrest).mp htail, rfl⟩
    · rintro ⟨s, tail, hs, htail, rfl⟩
      exact ⟨s, tail, rows, rfl, hpick, hs, (ih hrest).mpr htail⟩

def stagedTuple (q : QueryParam) (f : QueryFilter) : Params :=
  providers f.boundKeyTypes.dedup ++ [.outer q f]

def stagedAbsence (f : QueryFilter) : List ParamState :=
  provision f.boundKeyTypes.dedup ++ [.absent]

theorem mem_states_keyProvider {schema : Option (List TypeId)} (hp : w.Present schema)
    {key : TypeId} {s : ParamState} :
    s ∈ (keyProvider key).states w ↔ ∃ e, s = .row e ∧ w.has key e = true := by
  have hrows : ∀ e, e ∈ filteredRows w (.entityParts [] [.read key]) .unit ↔
      w.has key e = true := by
    intro e
    have hextent : (QueryParam.entityParts [] [.read key]).extent QueryFilter.unit.enumerates =
        .carriers [key] := rfl
    rw [mem_filteredRows_extent hp, hextent]
    exact (and_iff_left rfl).trans List.forall_mem_singleton
  show s ∈ (filteredRows w (.entityParts [] [.read key]) .unit).map ParamState.row ↔ _
  rw [List.mem_map]
  constructor
  · rintro ⟨e, he, rfl⟩
    exact ⟨e, rfl, (hrows e).mp he⟩
  · rintro ⟨e, rfl, he⟩
    exact ⟨e, (hrows e).mpr he, rfl⟩

theorem not_pairExpandable_of_mem_stagedTuple {p : SystemParam} (h : p ∈ stagedTuple q f) :
    p.pairExpandable = false := by
  rcases List.mem_append.mp h with h | h
  · obtain ⟨key, -, rfl⟩ := List.mem_map.mp h
    rfl
  · cases List.mem_singleton.mp h
    rfl

theorem forall₂_startRows_providers {schema : Option (List TypeId)} (hp : w.Present schema)
    (keys : List TypeId) (l : List ParamState) :
    List.Forall₂ (fun x s => s ∈ x.2) (startRows w (providers keys)) l ↔ Provision w keys l := by
  rw [startRows, providers, List.map_map, List.forall₂_map_left_iff]
  have hrow : ∀ key s, s ∈ (keyProvider key).states w ↔ ∃ e, s = .row e ∧ w.has key e = true :=
    fun key s => mem_states_keyProvider hp
  constructor
  · exact fun h => h.imp fun key s hs => (hrow key s).mp hs
  · exact fun h => h.imp fun key s hs => (hrow key s).mpr hs

theorem mem_product_stagedTuple {schema : Option (List TypeId)} (hp : w.Present schema) :
    ∃ full, product w [] (startRows w (stagedTuple q f)) = some full ∧ ∀ state, state ∈ full ↔
      ∃ l s, state = l ++ [s] ∧ Provision w f.boundKeyTypes.dedup l ∧
        s ∈ (SystemParam.outer q f).states w := by
  have hplain : ∀ x ∈ startRows w (stagedTuple q f), x.1.pairExpandable = false := by
    intro x hx
    obtain ⟨p, hp, rfl⟩ := List.mem_map.mp hx
    exact not_pairExpandable_of_mem_stagedTuple hp
  obtain ⟨full, hfull⟩ : ∃ full, product w [] (startRows w (stagedTuple q f)) = some full :=
    exists_product_of_plain hplain
  refine ⟨full, hfull, fun state => ?_⟩
  rw [mem_product hfull, joined_iff_forall₂ hplain]
  have hsplit : startRows w (stagedTuple q f) = startRows w (providers f.boundKeyTypes.dedup) ++
      [(.outer q f, (SystemParam.outer q f).states w)] := by
    rw [startRows, stagedTuple, List.map_append]
    rfl
  rw [hsplit]
  constructor
  · intro h
    have hl := (List.forall₂_take_append _ _ _ h.flip).flip
    have hs := (List.forall₂_drop_append _ _ _ h.flip).flip
    obtain ⟨s, rest, hs, hrest, hdrop⟩ := List.forall₂_cons_left_iff.mp hs
    rw [List.forall₂_nil_left_iff.mp hrest] at hdrop
    refine ⟨_, s, ?_, (forall₂_startRows_providers hp _ _).mp hl, hs⟩
    rw [← hdrop, List.take_append_drop]
  · rintro ⟨l, s, rfl, hl, hs⟩
    exact List.rel_append ((forall₂_startRows_providers hp _ _).mpr hl) (.cons hs .nil)

theorem of_mem_others_stagedTuple {l : List ParamState} {s : ParamState}
    {x : SystemParam × ParamState} {rest : Picked}
    (hl : l.length = (providers f.boundKeyTypes.dedup).length)
    (h : (x, rest) ∈ ((stagedTuple q f).zip (l ++ [s])).others) :
    (x = (.outer q f, s) ∧ rest = (providers f.boundKeyTypes.dedup).zip l) ∨
      ∃ key, x.1 = keyProvider key := by
  rw [stagedTuple, zip_insert hl] at h
  rcases List.of_mem_others_insert h with ⟨hx, hrest⟩ | ⟨_, _, -, hx⟩
  · exact Or.inl ⟨hx, hrest.trans (List.append_nil _)⟩
  · have hmem := List.mem_of_mem_others hx
    rw [List.zip_nil_left, List.append_nil] at hmem
    obtain ⟨key, -, hkey⟩ := List.mem_map.mp (List.of_mem_zip hmem).1
    exact Or.inr ⟨key, hkey.symm⟩

/-- Every check of the outer join beside fingerprinted providers decides. -/
theorem checks_decide {schema : Option (List TypeId)} (hp : w.Present schema)
    (hf : f.boundKeyTypes ≠ [])
    (hstamped : ∀ t e, w.has t e = true → ∃ v, w.fingerprintOn t e = some v) {choice : Picked}
    (hprovided : ∀ key ∈ f.boundKeyTypes, ∃ v,
      provided choice (fun p s => p.providedKey w s key) = some (some v))
    {s : ParamState} (hs : s ∈ (SystemParam.outer q f).states w) :
    (∀ b ∈ (SystemParam.outer q f).boundKeys w s, boundCheck w choice b.1 b.2 ≠ none) ∧
      ∀ key ∈ (SystemParam.outer q f).absentKeys s,
        absentCheck w choice (.outer q f) key ≠ none := by
  rcases List.mem_append.mp hs with hs | hs
  · obtain ⟨e, he, rfl⟩ := List.mem_map.mp hs
    refine ⟨?_, fun _ hkey => nomatch hkey⟩
    rintro ⟨key, fingerprint⟩ hb
    obtain ⟨hkey, rfl⟩ := QueryFilter.mem_boundKeys.mp hb
    have hcarries : w.has key e = true := ((mem_filteredRows_bound hp hf).mp he).1 key
      (List.mem_append_right _ (QueryFilter.bound_subset_present hkey))
    obtain ⟨v, hv⟩ := hstamped key e hcarries
    obtain ⟨v', hv'⟩ := hprovided key hkey
    unfold boundCheck
    rw [hv, hv']
    exact nofun
  · cases List.mem_singleton.mp hs
    refine ⟨fun _ hb => (nomatch hb), fun key hkey => ?_⟩
    obtain ⟨v, hv⟩ := hprovided key hkey
    unfold absentCheck
    rw [hv]
    exact nofun

/-- Planning the staged tuple never panics where every component is fingerprinted. -/
theorem exists_states_stagedTuple {schema : Option (List TypeId)} (hp : w.Present schema)
    (hf : f.boundKeyTypes ≠ [])
    (hstamped : ∀ t e, w.has t e = true → ∃ v, w.fingerprintOn t e = some v) :
    ∃ planned, states w (stagedTuple q f) = some planned := by
  obtain ⟨full, hfull, hspec⟩ := mem_product_stagedTuple (q := q) (f := f) hp
  have hchecked : ∀ state ∈ full, ∃ b, bindingMatches w (stagedTuple q f) state = some b := by
    intro state hstate
    obtain ⟨l, s, rfl, hl, hs⟩ := (hspec state).mp hstate
    have hlen : l.length = (providers f.boundKeyTypes.dedup).length := by
      rw [providers, List.length_map, hl.length_eq]
    obtain ⟨hbound, habsent⟩ := checks_decide (q := q) hp hf hstamped (fun key hkey => by
      obtain ⟨e, he, hfound⟩ := hl.exists_provided (List.mem_dedup.mpr hkey)
      obtain ⟨v, hv⟩ := hstamped key e he
      exact ⟨v, hv ▸ hfound⟩) hs
    refine List.exists_checkAll fun check hcheck => ?_
    simp only [bindingChecks, List.mem_append, List.mem_flatMap, List.mem_map] at hcheck
    rcases hcheck with (⟨⟨x, rest⟩, hx, b, hb, rfl⟩ | ⟨⟨x, rest⟩, hx, m, hm, rfl⟩) |
      ⟨⟨x, rest⟩, hx, key, hkey, rfl⟩
    all_goals rcases of_mem_others_stagedTuple hlen hx with ⟨rfl, rfl⟩ | ⟨key', hprovider⟩
    · exact hbound b hb
    · have hnone := SystemParam.mem_boundKeyTypes hb
      dsimp only at hnone
      rw [hprovider] at hnone
      cases hnone
    · cases hm
    · have hnone := SystemParam.mem_inKeyTypes hm
      dsimp only at hnone
      rw [hprovider] at hnone
      cases hnone
    · exact habsent key hkey
    · have hnone := SystemParam.absentKeys_subset hkey
      dsimp only at hnone
      rw [hprovider] at hnone
      cases hnone
  by_cases hprune : needsPrune (stagedTuple q f) = true
  · obtain ⟨planned, hplanned⟩ := List.filter?_eq_some hchecked
    refine ⟨planned, ?_⟩
    rw [states, ← startRows, hfull, Option.bind_eq_bind, Option.bind_some, if_pos hprune, hplanned]
  · refine ⟨full, ?_⟩
    rw [states, ← startRows, hfull, Option.bind_eq_bind, Option.bind_some, if_neg hprune]

theorem stamped_of_shows {content : TypeId → Entity → Option Fingerprint}
    (h : Shows tracked content w) (t : TypeId) (e : Entity) (he : w.has t e = true) :
    ∃ v, w.fingerprintOn t e = some v := by
  rw [h.fingerprint]
  exact Option.isSome_iff_exists.mp ((h.has t e).symm.trans he)

theorem fingerprintOn_provider (h : Shows tracked (f.stage row) w) {key : TypeId}
    (hkey : key ∈ f.boundKeyTypes) : w.fingerprintOn key (key + 1) = some 0 := by
  rw [h.fingerprint]
  exact if_pos ⟨hkey, Or.inl rfl⟩

theorem provision_of_shows (h : Shows tracked (f.stage row) w) :
    Provision w f.boundKeyTypes.dedup (provision f.boundKeyTypes.dedup) := by
  refine List.forall₂_map_right_iff.mpr (List.forall₂_same.mpr fun key hkey => ⟨_, rfl, ?_⟩)
  exact has_of_fingerprintOn (fingerprintOn_provider h (List.mem_dedup.mp hkey))

/-- The providers by themselves plan the rows chosen on the stage. -/
theorem plans_provision (h : Shows tracked (f.stage row) w) :
    Plans w (providers f.boundKeyTypes.dedup) (provision f.boundKeyTypes.dedup) := by
  obtain ⟨schema, hp⟩ := present_of_reachable h.reachable
  have hunbound : ∀ p ∈ providers f.boundKeyTypes.dedup,
      ((!p.boundKeyTypes.isEmpty || !p.inKeyTypes.isEmpty) && !p.pairExpandable) = false := by
    intro p hp
    obtain ⟨key, -, rfl⟩ := List.mem_map.mp hp
    rfl
  have hplain : ∀ x ∈ startRows w (providers f.boundKeyTypes.dedup),
      x.1.pairExpandable = false := by
    intro x hx
    obtain ⟨p, hp, rfl⟩ := List.mem_map.mp hx
    obtain ⟨key, -, rfl⟩ := List.mem_map.mp hp
    rfl
  obtain ⟨full, hfull⟩ : ∃ full, product w [] (startRows w (providers f.boundKeyTypes.dedup)) =
      some full := exists_product_of_plain hplain
  have hkept : needsPrune (providers f.boundKeyTypes.dedup) = false := by
    rw [needsPrune, List.any_eq_false]
    exact fun p hp => ne_true_of_eq_false (hunbound p hp)
  refine ⟨full, ?_, ?_⟩
  · rw [states, ← startRows, hfull, Option.bind_eq_bind, Option.bind_some, if_neg (by simp [hkept])]
  · rw [mem_product hfull, joined_iff_forall₂ hplain]
    exact (forall₂_startRows_providers hp _ _).mpr (provision_of_shows h)

/-- The absence is planned on the stage where entity 0 is no inner row with the provided keys. -/
theorem plans_stagedAbsence (h : Shows tracked (f.stage row) w) (hf : f.boundKeyTypes ≠ [])
    (hdiscerning : Discerning q f)
    (hnone : IsInner q f row → ∀ key ∈ f.boundKeyTypes, row key ≠ some 0) :
    Plans w (stagedTuple q f) (stagedAbsence f) := by
  obtain ⟨schema, hp⟩ := present_of_reachable h.reachable
  obtain ⟨planned, hplanned⟩ := exists_states_stagedTuple (q := q) hp hf (stamped_of_shows h)
  obtain ⟨full, hfull, hspec⟩ := states_spec (coherent_of_reachable h.reachable) hp hplanned
  refine ⟨planned, hplanned, (hspec _).2.mpr ⟨?_, ?_⟩⟩
  · obtain ⟨full', hfull', hmem⟩ := mem_product_stagedTuple (q := q) (f := f) hp
    cases hfull.symm.trans hfull'
    exact (hmem _).mpr ⟨_, .absent, rfl, provision_of_shows h,
      List.mem_append_right _ (List.mem_singleton_self _)⟩
  · refine (allPass_insert (length_provision _)
      fun other _ => SystemParam.silentFor_outer q f other).mpr ⟨?_, ?_⟩
    · refine ⟨fun _ hb => (nomatch hb), fun _ hm => (nomatch hm), fun key hkey => ?_⟩
      have hkey : key ∈ f.boundKeyTypes := hkey
      refine absentCheck_eq_some.mpr ⟨0, ?_, ?_⟩
      · rw [List.zip_nil_left, List.append_nil,
          provided_provision w (List.mem_dedup.mpr hkey), fingerprintOn_provider h hkey]
      · by_contra hmatches
        obtain ⟨e, he, -, hv⟩ := absentBindingMatches_eq_false.mp (Bool.eq_false_iff.mpr hmatches)
        obtain ⟨rfl, hinner⟩ := (h.mem_filteredRows hf hdiscerning e).mp he
        rw [h.fingerprint] at hv
        exact hnone hinner key hkey hv
    · rintro x others hx
      rw [List.append_nil, List.append_nil] at hx
      obtain ⟨key, -, hkey⟩ := List.mem_map.mp (List.of_mem_zip (List.mem_of_mem_others hx)).1
      rw [← hkey]
      exact passes_of_unbound rfl rfl others x.2

end Plans
end Porridge
