import Porridge.Query.Extent
import Porridge.Runnable

/-! The components that a planned row carries and whose revisions it records. -/
namespace Porridge

variable {α : Type} {C : Components α} {w : World α} {schema : Option (List TypeId)}

/-- The components on the row itself that a part records, present or not. -/
def QueryPart.recordedTypes : QueryPart → List TypeId
  | .read t => [t]
  | .optional t => [t]
  | .tracked _ h => h.map FacetPart.component
  | .mutRef t => [t]
  | .related inverse _ => [inverse]

/-- The components on the row that a query records; the handle alone records none. -/
def QueryParam.recordedTypes : QueryParam → List TypeId
  | .entity _ => []
  | .read t => [t]
  | .mutRef t => [t]
  | .entityParts _ parts => parts.flatMap QueryPart.recordedTypes

/-- The components that a row of the query must carry and that it records. -/
def pinnedTypes (q : QueryParam) (f : QueryFilter) : List TypeId :=
  q.requiredTypes.filter (· ∈ q.recordedTypes) ++ f.presentTypes

def SystemParam.pinnedTypes : SystemParam → List TypeId
  | .query q f => Porridge.pinnedTypes q f
  | .outer q f => Porridge.pinnedTypes q f
  | _ => []

section Recorded

variable {t : TypeId} {e : Entity}

theorem mem_componentDep (ht : C.tracked t = true) :
    ⟨t, e, w.revisionByType t e, false⟩ ∈ componentDep C w t e := by
  rw [componentDep, if_pos ht]
  exact List.mem_singleton_self _

theorem QueryPart.mem_deps {part : QueryPart} (h : t ∈ part.recordedTypes)
    (ht : C.tracked t = true) : ⟨t, e, w.revisionByType t e, false⟩ ∈ part.deps C w e := by
  cases part with
  | read t' => exact List.mem_singleton.mp h ▸ mem_componentDep ht
  | optional t' => exact List.mem_singleton.mp h ▸ mem_componentDep ht
  | mutRef t' => exact List.mem_singleton.mp h ▸ mem_componentDep ht
  | tracked marker facet =>
    obtain ⟨p, hp, rfl⟩ := List.mem_map.mp h
    exact List.mem_flatMap.mpr ⟨p, hp, mem_componentDep ht⟩
  | related inverse parts =>
    have hinverse : t = inverse := List.mem_singleton.mp h
    exact List.mem_append_left _ (hinverse ▸ mem_componentDep ht)

theorem QueryParam.mem_deps {q : QueryParam} (h : t ∈ q.recordedTypes)
    (ht : C.tracked t = true) : ⟨t, e, w.revisionByType t e, false⟩ ∈ q.deps C w e := by
  cases q with
  | entity _ => cases h
  | read t' => exact List.mem_singleton.mp h ▸ mem_componentDep ht
  | mutRef t' => exact List.mem_singleton.mp h ▸ mem_componentDep ht
  | entityParts _ parts =>
    obtain ⟨part, hpart, hrecorded⟩ := List.mem_flatMap.mp h
    exact List.mem_flatMap.mpr ⟨part, hpart, QueryPart.mem_deps hrecorded ht⟩

theorem JoinKey.mem_deps (ht : C.tracked t = true) : ∀ {k : JoinKey}, t ∈ k.boundKeyTypes →
    ⟨t, e, w.revisionByType t e, false⟩ ∈ k.deps C w e
  | .eq _, h => List.mem_singleton.mp h ▸ mem_componentDep ht
  | .inMembers _, h => nomatch h
  | .and _ _, h => List.mem_append.mpr
    ((List.mem_append.mp h).imp (JoinKey.mem_deps ht) (JoinKey.mem_deps ht))

/-- A filter records every component that it requires. -/
theorem QueryFilter.mem_deps (ht : C.tracked t = true) : ∀ {f : QueryFilter},
    t ∈ f.presentTypes → ⟨t, e, w.revisionByType t e, false⟩ ∈ f.deps C w e
  | .unit, h => nomatch h
  | .withComponent _, h => List.mem_singleton.mp h ▸ mem_componentDep ht
  | .withoutComponent _, h => nomatch h
  | .whereKey _, h => JoinKey.mem_deps ht h
  | .and _ _, h => List.mem_append.mpr
    ((List.mem_append.mp h).imp (QueryFilter.mem_deps ht) (QueryFilter.mem_deps ht))

theorem mem_deps_of_pinned {q : QueryParam} {f : QueryFilter} (h : t ∈ pinnedTypes q f)
    (ht : C.tracked t = true) :
    ⟨t, e, w.revisionByType t e, false⟩ ∈ q.deps C w e ++ f.deps C w e := by
  rcases List.mem_append.mp h with h | h
  · have hrecorded : t ∈ q.recordedTypes := by simpa using (List.mem_filter.mp h).2
    exact List.mem_append_left _ (QueryParam.mem_deps hrecorded ht)
  · exact List.mem_append_right _ (QueryFilter.mem_deps ht h)

theorem SystemParam.mem_deps {p : SystemParam} (h : t ∈ p.pinnedTypes) (ht : C.tracked t = true) :
    ⟨t, e, w.revisionByType t e, false⟩ ∈ p.deps C w (.row e) := by
  cases p with
  | query q f => exact mem_deps_of_pinned h ht
  | outer q f => exact mem_deps_of_pinned h ht
  | _ => cases h

end Recorded

section Carried

variable {t : TypeId} {e : Entity}

theorem QueryParam.has_of_mem_extent {q : QueryParam} {enumerated : Bool}
    (h : (q.extent enumerated).Mem w e) (ht : t ∈ q.requiredTypes) : w.has t e = true := by
  unfold extent at h
  split_ifs at h
  · exact h t ht
  · cases q with
    | entity _ => cases ht
    | read t' => exact h t ht
    | mutRef t' => exact h t ht
    | entityParts facet parts =>
      have hsome : (QueryParam.entityParts facet parts).requiredTypes ≠ [] := List.ne_nil_of_mem ht
      dsimp only at h
      rw [if_pos hsome] at h
      exact h t ht

theorem has_of_pinned {q : QueryParam} {f : QueryFilter} (h : t ∈ pinnedTypes q f)
    (hq : ∀ t ∈ q.requiredTypes, w.has t e = true) (hf : f.matchesRow w e = true) :
    w.has t e = true := by
  rcases List.mem_append.mp h with h | h
  · exact hq t (List.mem_filter.mp h).1
  · exact (QueryFilter.matchesRow_iff.mp hf).1 t h

/-- The row carries what its parameter pins. -/
def Bears (w : World α) (p : SystemParam) (s : ParamState) : Prop :=
  ∀ e, s = .row e → ∀ t ∈ p.pinnedTypes, w.has t e = true

theorem bears_of_filtered (hp : w.Present schema) {q : QueryParam} {f : QueryFilter}
    {t : TypeId} (he : e ∈ filteredRows w q f) (ht : t ∈ pinnedTypes q f) : w.has t e = true := by
  obtain ⟨hextent, hmatches⟩ := (mem_filteredRows_extent hp q f e).mp he
  exact has_of_pinned ht (fun _ hrequired => QueryParam.has_of_mem_extent hextent hrequired) hmatches

theorem bears_states (hp : w.Present schema) (p : SystemParam) : ∀ s ∈ p.states w,
    Bears w p s := by
  intro s hs e he t ht
  subst he
  cases p with
  | query q f =>
    obtain ⟨e', he', heq⟩ := List.mem_map.mp hs
    exact ParamState.row.inj heq ▸ bears_of_filtered hp he' ht
  | outer q f =>
    rcases List.mem_append.mp hs with hs | hs
    · obtain ⟨e', he', heq⟩ := List.mem_map.mp hs
      exact ParamState.row.inj heq ▸ bears_of_filtered hp he' ht
    · cases List.mem_singleton.mp hs
  | _ => cases ht

theorem bears_fromCandidates (hp : w.Present schema) (p : SystemParam)
    (candidates : List Entity) : ∀ s ∈ p.statesFromCandidates w candidates, Bears w p s := by
  intro s hs e he t ht
  cases p with
  | query q f =>
    obtain ⟨e', rfl, -, haccepts, hmatches⟩ := (Params.mem_statesFromCandidates hp).mp hs
    cases he
    exact has_of_pinned ht (fun t => QueryParam.accepts_iff.mp haccepts t) hmatches
  | outer q f => exact bears_states hp (.outer q f) s hs e he t ht
  | _ => cases ht

theorem bears_hinted (hp : w.Present schema) (p : SystemParam) (hint : List Entity) :
    ∀ s ∈ p.statesHinted w hint, Bears w p s := by
  intro s hs
  cases p with
  | query q f => exact bears_fromCandidates hp (.query q f) hint s hs
  | _ => exact bears_states hp _ s hs

end Carried

namespace Params

theorem bears_pickable (hp : w.Present schema) {p : SystemParam} {rows offered : List ParamState}
    {picked : Picked} (hrows : ∀ s ∈ rows, Bears w p s)
    (h : pickable w p rows picked = some offered) : ∀ s ∈ offered, Bears w p s := by
  unfold pickable at h
  split_ifs at h
  · have hcandidates : ∃ candidates, offered = p.statesFromCandidates w candidates := by
      unfold pairRows at h
      split at h
      · obtain ⟨members, -, heq⟩ := Option.map_eq_some_iff.mp h
        exact ⟨members, heq.symm⟩
      · split at h
        · cases h
          exact ⟨_, rfl⟩
        · cases h
      · cases h
    obtain ⟨candidates, rfl⟩ := hcandidates
    exact bears_fromCandidates hp p candidates
  · cases h
    exact hrows

/-- In a joined choice every row carries what its parameter pins. -/
theorem bears_joined (hp : w.Present schema) :
    ∀ {rest : List (SystemParam × List ParamState)} {picked : Picked} {state : List ParamState},
      (∀ x ∈ rest, ∀ s ∈ x.2, Bears w x.1 s) → Joined w picked rest state →
        ∀ x ∈ (rest.map Prod.fst).zip state, Bears w x.1 x.2
  | [], _, _, _, _, _, hx => nomatch hx
  | (p, rows) :: rest, picked, _, hrows, ⟨s, tail, offered, rfl, hoffered, hs, htail⟩, x, hx => by
    rcases List.mem_cons.mp hx with rfl | hx
    · exact bears_pickable hp (hrows _ List.mem_cons_self) hoffered s hs
    · exact bears_joined hp (fun y hy => hrows y (List.mem_cons_of_mem _ hy)) htail x hx

theorem bears_planned (hw : w.Coherent) (hp : w.Present schema) {ps : Params}
    {out : List (List ParamState)} (h : states w ps = some out) {state : List ParamState}
    (hmem : state ∈ out) : ∀ x ∈ ps.zip state, Bears w x.1 x.2 := by
  obtain ⟨full, hfull, hspec⟩ := states_spec hw hp h
  have hjoined : Joined w [] (startRows w ps) state :=
    (mem_product hfull state).mp ((hspec state).2.mp hmem).1
  have hrows : ∀ x ∈ startRows w ps, ∀ s ∈ x.2, Bears w x.1 s := by
    intro x hx s hs
    obtain ⟨p, -, rfl⟩ := List.mem_map.mp hx
    dsimp only at hs
    split_ifs at hs
    · cases hs
    · exact bears_states hp p s hs
  have hcarries := bears_joined hp hrows hjoined
  rwa [map_fst_startRows] at hcarries

theorem bears_planned_hinted (hw : w.Coherent) (hp : w.Present schema) {ps : Params}
    {hint : List Entity} {out : List (List ParamState)} (h : statesHinted C w ps hint = some out)
    {state : List ParamState} (hmem : state ∈ out) : ∀ x ∈ ps.zip state, Bears w x.1 x.2 := by
  unfold statesHinted at h
  dsimp only at h
  split_ifs at h
  · exact bears_planned hw hp h hmem
  · exact bears_planned hw hp h hmem
  · have hjoined := (mem_product h state).mp hmem
    have hrows : ∀ x ∈ ps.map fun p => (p, hintedRows w p (expandHint C w ps hint)),
        ∀ s ∈ x.2, Bears w x.1 s := by
      intro x hx s hs
      obtain ⟨p, -, rfl⟩ := List.mem_map.mp hx
      unfold hintedRows at hs
      split_ifs at hs
      · cases hs
      · exact bears_hinted hp p _ s hs
      · exact bears_states hp p s hs
    have hcarries := bears_joined hp hrows hjoined
    rw [List.map_map] at hcarries
    have hfst : ps.map (Prod.fst ∘ fun p => (p, hintedRows w p (expandHint C w ps hint))) = ps :=
      List.map_id ps
    rwa [hfst] at hcarries

end Params

section Rows

variable {system : SystemId} {memo : MemoTable} {hint : Option (List Entity)}

/-- The planned rows are those of enumerated states that carry what their parameters pin. -/
theorem bears_planInvocations (hw : w.Coherent) (hp : w.Present schema) {ps : Params}
    {rows : List PlannedInvocation} (h : planInvocations C system w memo hint ps = some rows)
    {row : PlannedInvocation} (hrow : row ∈ rows) :
    row.deps = ps.deps C w row.state ∧ ∀ x ∈ ps.zip row.state, Bears w x.1 x.2 := by
  obtain ⟨states, hstates, hplanned⟩ := exists_states_of_planned h
  obtain ⟨hstate, hof⟩ := hplanned row hrow
  cases hint with
  | none => exact ⟨hof.deps, Params.bears_planned hw hp hstates hstate⟩
  | some entities => exact ⟨hof.deps, Params.bears_planned_hinted hw hp hstates hstate⟩

/-- A planned row records what its parameters pin, and carries it when it is planned. -/
theorem pinned_of_planned (hw : w.Coherent) (hp : w.Present schema) {s : Runnable}
    {runs : List PlannedSystemRun} (h : s.streamRuns C system w memo hint = some runs)
    {run : PlannedSystemRun} (hrun : run ∈ runs) {row : PlannedInvocation} (hrow : row ∈ run.rows)
    {p : SystemParam} {e : Entity} (hmem : (p, .row e) ∈ s.params.zip row.state) {t : TypeId}
    (ht : t ∈ p.pinnedTypes) (htracked : C.tracked t = true) :
    w.has t e = true ∧ ⟨t, e, w.revisionByType t e, false⟩ ∈ row.deps := by
  obtain ⟨rows, hrows, hin⟩ := Runnable.planned_of_mem_streamRuns h run hrun row hrow
  obtain ⟨hdeps, hcarries⟩ := bears_planInvocations hw hp hrows hin
  refine ⟨hcarries _ hmem e rfl t ht, ?_⟩
  rw [hdeps]
  exact List.mem_flatMap.mpr ⟨_, hmem, SystemParam.mem_deps ht htracked⟩

end Rows
end Porridge
