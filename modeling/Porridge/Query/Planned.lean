import Porridge.Query.Product

/-! The states of a tuple: joined choices that pass their checks, whether pruned or expanded. -/
namespace Porridge

variable {α : Type} {C : Components α} {w : World α}

theorem isSome_conjunctCandidates {l r : Option (List Entity)} :
    (conjunctCandidates l r).isSome = (l.isSome || r.isSome) := by
  cases l <;> cases r <;> rfl

/-- A join on equal keys enumerates its candidates. -/
theorem JoinKey.isSome_entityCandidates {key : TypeId} : ∀ {k : JoinKey}, key ∈ k.boundKeyTypes →
    (k.entityCandidates w).isSome = true
  | .eq _, _ => rfl
  | .inMembers _, h => nomatch h
  | .and l r, h => by
    rw [entityCandidates, isSome_conjunctCandidates, Bool.or_eq_true]
    rcases List.mem_append.mp h with h | h
    · exact Or.inl (isSome_entityCandidates h)
    · exact Or.inr (isSome_entityCandidates h)

theorem QueryFilter.isSome_entityCandidates {key : TypeId} : ∀ {f : QueryFilter},
    key ∈ f.boundKeyTypes → (f.entityCandidates w).isSome = true
  | .unit, h => nomatch h
  | .withComponent _, _ => rfl
  | .withoutComponent _, h => nomatch h
  | .whereKey _, h => JoinKey.isSome_entityCandidates h
  | .and l r, h => by
    rw [entityCandidates, isSome_conjunctCandidates, Bool.or_eq_true]
    rcases List.mem_append.mp h with h | h
    · exact Or.inl (isSome_entityCandidates h)
    · exact Or.inr (isSome_entityCandidates h)

namespace SystemParam

inductive SingleKey (key : TypeId) : SystemParam → Prop where
  | membership {q : QueryParam} {f : QueryFilter} (hin : f.inKeyTypes = [key])
      (hbound : f.boundKeyTypes = []) : SingleKey key (.query q f)
  | equality {q : QueryParam} {f : QueryFilter} (hin : f.inKeyTypes = [])
      (hbound : f.boundKeyTypes = [key]) : SingleKey key (.query q f)

theorem singleKey_of_pairExpandable {p : SystemParam} (h : p.pairExpandable = true) :
    ∃ key, p.SingleKey key := by
  cases p with
  | query q f =>
    have hsum : f.inKeyTypes.length + f.boundKeyTypes.length = 1 := by simpa [pairExpandable] using h
    rcases Nat.eq_zero_or_pos f.inKeyTypes.length with hin | hin
    · have hone : f.boundKeyTypes.length = 1 := by omega
      obtain ⟨key, hkey⟩ := List.length_eq_one_iff.mp hone
      exact ⟨key, .equality (List.length_eq_zero_iff.mp hin) hkey⟩
    · have hone : f.inKeyTypes.length = 1 := by omega
      have hnone : f.boundKeyTypes.length = 0 := by omega
      obtain ⟨key, hkey⟩ := List.length_eq_one_iff.mp hone
      exact ⟨key, .membership hkey (List.length_eq_zero_iff.mp hnone)⟩
  | _ => cases h

end SystemParam

namespace Params

open SystemParam

theorem findSome?_picked {σ τ : Type} {f : σ → Option τ} {a b : List σ} {y : τ}
    (h : a.findSome? f = some y) : (a ++ b).findSome? f = some y := by
  rw [List.findSome?_append, h]
  rfl

theorem mem_statesFromCandidates {q : QueryParam} {f : QueryFilter} {candidates : List Entity}
    {schema : Option (List TypeId)} (hp : w.Present schema) {s : ParamState} :
    s ∈ (query q f).statesFromCandidates w candidates ↔
      ∃ e, s = .row e ∧ e ∈ candidates ∧ q.accepts w e = true ∧ f.matchesRow w e = true := by
  show s ∈ (filteredRowsFromCandidates w q f candidates).map ParamState.row ↔ _
  simp only [List.mem_map, mem_filteredRowsFromCandidates hp]
  constructor
  · rintro ⟨e, he, rfl⟩
    exact ⟨e, rfl, he⟩
  · rintro ⟨e, rfl, he⟩
    exact ⟨e, he, rfl⟩

/-- The rows offered to a join on a membership are those that its provider lists. -/
theorem pickable_membership {q : QueryParam} {f : QueryFilter} {key : TypeId}
    {rows offered : List ParamState} {picked : Picked} (hin : f.inKeyTypes = [key])
    (hbound : f.boundKeyTypes = []) (h : pickable w (query q f) rows picked = some offered) :
    ∃ members, provided picked (fun p s => p.providedMembers w s key) = some members ∧
      offered = (query q f).statesFromCandidates w members := by
  have hexpand : (query q f).pairExpandable = true := by simp [pairExpandable, hin, hbound]
  have hkeys : (query q f).inKeyTypes = [key] := hin
  rw [pickable, if_pos hexpand, pairRows, hkeys] at h
  obtain ⟨members, hmembers, rfl⟩ := Option.map_eq_some_iff.mp h
  exact ⟨members, hmembers, rfl⟩

/-- The rows offered to a join on one key are those with the fingerprint of its provider. -/
theorem pickable_equality {q : QueryParam} {f : QueryFilter} {key : TypeId}
    {rows offered : List ParamState} {picked : Picked} (hin : f.inKeyTypes = [])
    (hbound : f.boundKeyTypes = [key]) (h : pickable w (query q f) rows picked = some offered) :
    ∃ fingerprint, provided picked (fun p s => p.providedKey w s key) = some (some fingerprint) ∧
      offered = (query q f).statesFromCandidates w (w.fingerprintCandidates key fingerprint) := by
  have hexpand : (query q f).pairExpandable = true := by simp [pairExpandable, hin, hbound]
  have hnone : (query q f).inKeyTypes = [] := hin
  have hkeys : (query q f).boundKeyTypes = [key] := hbound
  rw [pickable, if_pos hexpand, pairRows, hnone, hkeys] at h
  dsimp only at h
  split at h
  · rename_i fingerprint hfound
    cases h
    exact ⟨fingerprint, hfound, rfl⟩
  · cases h

theorem pairRows_membership {q : QueryParam} {f : QueryFilter} {key : TypeId} {picked : Picked}
    {members : List Entity} (hin : f.inKeyTypes = [key])
    (h : provided picked (fun p s => p.providedMembers w s key) = some members) :
    pairRows w (query q f) picked = some ((query q f).statesFromCandidates w members) := by
  have hkeys : (query q f).inKeyTypes = [key] := hin
  have hfound : (picked.findSome? fun other => other.1.providedMembers w other.2 key) =
      some members := h
  rw [pairRows, hkeys]
  dsimp only
  rw [hfound]
  rfl

theorem pairRows_equality {q : QueryParam} {f : QueryFilter} {key : TypeId} {picked : Picked}
    {v : Fingerprint} (hin : f.inKeyTypes = []) (hbound : f.boundKeyTypes = [key])
    (h : provided picked (fun p s => p.providedKey w s key) = some (some v)) :
    pairRows w (query q f) picked =
      some ((query q f).statesFromCandidates w (w.fingerprintCandidates key v)) := by
  have hnone : (query q f).inKeyTypes = [] := hin
  have hkeys : (query q f).boundKeyTypes = [key] := hbound
  have hfound : (picked.findSome? fun other => other.1.providedKey w other.2 key) =
      some (some v) := h
  rw [pairRows, hnone, hkeys]
  dsimp only
  rw [hfound]

section Passing

variable {schema : Option (List TypeId)}

/-- A parameter without join keys has nothing to check. -/
theorem passes_of_unbound {p : SystemParam} (hbound : p.boundKeyTypes = [])
    (hin : p.inKeyTypes = []) (others : Picked) (s : ParamState) : Passes w others p s := by
  constructor
  · intro b hb
    have hmem := mem_boundKeyTypes hb
    rw [hbound] at hmem
    cases hmem
  · intro m hm
    have hmem := mem_inKeyTypes hm
    rw [hin] at hmem
    cases hmem
  · intro key hkey
    have hmem := absentKeys_subset hkey
    rw [hbound] at hmem
    cases hmem

/-- A row taken from its provider's pair list passes its own check. -/
theorem passes_of_offered (hw : w.Coherent) (hp : w.Present schema) {p : SystemParam}
    {key : TypeId} (hkey : p.SingleKey key) {rows offered : List ParamState} {picked : Picked}
    (h : pickable w p rows picked = some offered) {s : ParamState} (hs : s ∈ offered)
    (after : Picked) : Passes w (picked ++ after) p s := by
  cases hkey with
  | membership hin hbound =>
    obtain ⟨members, hmembers, rfl⟩ := pickable_membership hin hbound h
    obtain ⟨e, rfl, he, -⟩ := (mem_statesFromCandidates hp).mp hs
    constructor
    · intro b hb
      have hmem := mem_boundKeyTypes hb
      rw [SystemParam.boundKeyTypes, hbound] at hmem
      cases hmem
    · intro m hm
      have hm' : m = (key, e) := by simpa [inKeys, QueryFilter.inKeys, hin] using hm
      have hfound : provided (picked ++ after) (fun p s => p.providedMembers w s key) =
          some members := findSome?_picked hmembers
      rw [hm']
      exact memberCheck_eq_true.mpr ⟨members, hfound, he⟩
    · exact fun _ hmem => nomatch hmem
  | @equality q f hin hbound =>
    obtain ⟨fingerprint, hfingerprint, rfl⟩ := pickable_equality hin hbound h
    obtain ⟨e, rfl, he, -⟩ := (mem_statesFromCandidates hp).mp hs
    constructor
    · intro b hb
      obtain ⟨hb₁, hb₂⟩ := QueryFilter.mem_boundKeys (f := f) (w := w) (e := e) |>.mp hb
      rw [hbound, List.mem_singleton] at hb₁
      have hstamped := (hw.mem_fingerprintCandidates key fingerprint e).mp he
      have hfound : provided (picked ++ after) (fun p s => p.providedKey w s key) =
          some (some fingerprint) := findSome?_picked hfingerprint
      rw [hb₂, hb₁, hstamped]
      exact boundCheck_eq_true.mpr ⟨fingerprint, rfl, hfound⟩
    · intro m hm
      have hmem := mem_inKeyTypes hm
      rw [SystemParam.inKeyTypes, hin] at hmem
      cases hmem
    · exact fun _ hmem => nomatch hmem

/-- The checks of a product row all pass. -/
def AllPass (w : World α) (ps : Params) (state : List ParamState) : Prop :=
  ∀ x others, (x, others) ∈ (ps.zip state).others → Passes w others x.1 x.2

/-- The product needs no pruning where every join follows a pair list. -/
theorem joined_passes (hw : w.Coherent) (hp : w.Present schema) :
    ∀ {rest : List (SystemParam × List ParamState)} {picked : Picked} {state : List ParamState},
      needsPrune (rest.map Prod.fst) = false → Joined w picked rest state →
        ∀ a x b, (rest.map Prod.fst).zip state = a ++ x :: b → Passes w (picked ++ a ++ b) x.1 x.2
  | [], _, _, _, _, [], _, _, h => nomatch h
  | [], _, _, _, _, _ :: _, _, _, h => nomatch h
  | (p, rows) :: rest, picked, _, hprune, ⟨s, tail, offered, rfl, hoffered, hs, htail⟩, a, x, b, h => by
    have hhead := List.any_eq_false.mp hprune p List.mem_cons_self
    have hrest : needsPrune (rest.map Prod.fst) = false :=
      List.any_eq_false.mpr fun p hp => List.any_eq_false.mp hprune p (List.mem_cons_of_mem _ hp)
    cases a with
    | nil =>
      obtain ⟨rfl, rfl⟩ := List.cons.inj h
      rw [List.append_nil]
      by_cases hexpand : p.pairExpandable = true
      · obtain ⟨key, hkey⟩ := singleKey_of_pairExpandable hexpand
        exact passes_of_offered hw hp hkey hoffered hs _
      · have hunbound : p.boundKeyTypes = [] ∧ p.inKeyTypes = [] := by simpa [hexpand] using hhead
        exact passes_of_unbound hunbound.1 hunbound.2 _ _
    | cons y a =>
      obtain ⟨rfl, hsplit⟩ := List.cons.inj h
      have htailPasses := joined_passes hw hp hrest htail a x b hsplit
      rwa [List.append_assoc picked, List.singleton_append] at htailPasses

def startRows (w : World α) (ps : Params) : List (SystemParam × List ParamState) :=
  ps.map fun p => (p, if p.pairExpandable then [] else p.states w)

theorem map_fst_startRows (ps : Params) : (startRows w ps).map Prod.fst = ps := by
  rw [startRows, List.map_map]
  exact List.map_id ps

/-- The planned states are the product's rows that pass, as often as the product holds them. -/
theorem states_spec (hw : w.Coherent) (hp : w.Present schema) {ps : Params}
    {out : List (List ParamState)} (h : states w ps = some out) :
    ∃ full, product w [] (startRows w ps) = some full ∧
      ∀ state, (AllPass w ps state → out.count state = full.count state) ∧
        (state ∈ out ↔ state ∈ full ∧ AllPass w ps state) := by
  obtain ⟨full, hfull, hout⟩ := Option.bind_eq_some_iff.mp h
  refine ⟨full, hfull, fun state => ?_⟩
  by_cases hprune : needsPrune ps = true
  · rw [if_pos hprune] at hout
    have hmem := List.mem_filter? hout state
    rw [bindingMatches_eq_true] at hmem
    refine ⟨fun hpass => ?_, hmem⟩
    rw [List.filter?_eq_filter hout, List.count_filter]
    exact beq_iff_eq.mpr (bindingMatches_eq_true.mpr hpass)
  · rw [if_neg hprune] at hout
    cases hout
    refine ⟨fun _ => rfl, (and_iff_left_of_imp fun hmem => ?_).symm⟩
    have hjoined : Joined w [] (startRows w ps) state := (mem_product hfull state).mp hmem
    have hnone : needsPrune ((startRows w ps).map Prod.fst) = false := by
      rw [map_fst_startRows]
      exact Bool.eq_false_iff.mpr hprune
    intro x others hx
    obtain ⟨a, b, hsplit, rfl⟩ := List.mem_others.mp hx
    rw [← map_fst_startRows (w := w) ps] at hsplit
    exact joined_passes hw hp hnone hjoined a x b hsplit

end Passing
end Params
end Porridge
