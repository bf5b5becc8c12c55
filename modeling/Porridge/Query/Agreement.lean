import Porridge.Query.Observation
import Porridge.Query.Pairing
import Porridge.Query.View

/-! When a plan over one world holds nothing that a plan over another one does not, with the same
deps: the first one draws no row on whose entries the two worlds differ. -/
namespace Porridge

variable {α : Type} {C : Components α} {v w : World α}

namespace QueryParam

def parts : QueryParam → List QueryPart
  | .entityParts _ parts => parts
  | _ => []

/-- The components that an entity carries where the query has a row on it. -/
def demandedTypes (q : QueryParam) (f : QueryFilter) : List TypeId :=
  (if (SystemParam.query q f).pairExpandable then [] else (q.extent f.enumerates).types) ++
    (q.requiredTypes ++ f.presentTypes)

/-- The components on the entity that decide whether it has a row, and what the row records. -/
def decisiveTypes (q : QueryParam) (f : QueryFilter) : List TypeId :=
  q.demandedTypes f ++ (q.recordedTypes ++ f.absentTypes)

/-- The entity carries what the query demands and nothing that its filter excludes. -/
structure Bound (w : World α) (q : QueryParam) (f : QueryFilter) (e : Entity) : Prop where
  demanded : ∀ t ∈ q.demandedTypes f, w.has t e = true
  absent : ∀ t ∈ f.absentTypes, w.has t e = false

/-- The worlds agree on all that a row of the query on the entity reads. -/
structure SameRow (v w : World α) (q : QueryParam) (f : QueryFilter) (e : Entity) : Prop where
  own : SameOn v w (q.decisiveTypes f) e
  members : ∀ inverse reads, .related inverse reads ∈ q.parts → ∀ m ∈ w.membersOn inverse e,
    SameOn v w (reads.map MemberPart.component) m

variable {q : QueryParam} {f : QueryFilter} {e : Entity} {t : TypeId}

theorem demanded_of_required (ht : t ∈ q.requiredTypes) : t ∈ q.demandedTypes f :=
  List.mem_append_right _ (List.mem_append_left _ ht)

theorem demanded_of_present (ht : t ∈ f.presentTypes) : t ∈ q.demandedTypes f :=
  List.mem_append_right _ (List.mem_append_right _ ht)

/-- A key is provided by a part that the rows must carry. -/
theorem required_of_providesKey {key : TypeId} (h : q.providesKey key = true) :
    key ∈ q.requiredTypes := by
  cases q with
  | read t => exact List.mem_singleton.mpr (beq_iff_eq.mp h)
  | entityParts facet parts =>
    obtain ⟨part, hmem, hkey⟩ := List.any_eq_true.mp h
    refine List.mem_append_right _ (List.mem_filterMap.mpr ⟨part, hmem, ?_⟩)
    cases part with
    | read t => exact congrArg some (beq_iff_eq.mp hkey).symm
    | _ => cases hkey
  | _ => cases h

theorem decisive_of_demanded (ht : t ∈ q.demandedTypes f) : t ∈ q.decisiveTypes f :=
  List.mem_append_left _ ht

theorem decisive_of_recorded (ht : t ∈ q.recordedTypes) : t ∈ q.decisiveTypes f :=
  List.mem_append_right _ (List.mem_append_left _ ht)

theorem decisive_of_absent (ht : t ∈ f.absentTypes) : t ∈ q.decisiveTypes f :=
  List.mem_append_right _ (List.mem_append_right _ ht)

theorem Bound.accepts (h : Bound w q f e) : q.accepts w e = true :=
  accepts_iff.mpr fun t ht => h.demanded t (demanded_of_required ht)

theorem Bound.matchesRow (h : Bound w q f e) : f.matchesRow w e = true :=
  QueryFilter.matchesRow_iff.mpr ⟨fun t ht => h.demanded t (demanded_of_present ht), h.absent⟩

/-- Rows of a pair list need only what the shape and the filter ask of a candidate. -/
theorem Bound.of_candidate (hexpand : (SystemParam.query q f).pairExpandable = true)
    (ha : q.accepts w e = true) (hm : f.matchesRow w e = true) : Bound w q f e := by
  obtain ⟨hpresent, habsent⟩ := QueryFilter.matchesRow_iff.mp hm
  refine ⟨fun t ht => ?_, habsent⟩
  rw [demandedTypes, if_pos hexpand, List.nil_append] at ht
  exact (List.mem_append.mp ht).elim (fun ht => accepts_iff.mp ha t ht) fun ht => hpresent t ht

theorem Bound.of_row {schema : Option (List TypeId)} (hp : w.Present schema)
    (he : e ∈ filteredRows w q f) : Bound w q f e := by
  obtain ⟨hextent, hm⟩ := (mem_filteredRows_extent hp q f e).mp he
  obtain ⟨hpresent, habsent⟩ := QueryFilter.matchesRow_iff.mp hm
  have hdrawn : ∀ t ∈ (q.extent f.enumerates).types, w.has t e = true := by
    cases hx : q.extent f.enumerates with
    | carriers types =>
      rw [hx] at hextent
      exact hextent
    | _ => nofun
  refine ⟨fun t ht => ?_, habsent⟩
  rcases List.mem_append.mp ht with ht | ht
  · split_ifs at ht
    · cases ht
    · exact hdrawn t ht
  · rcases List.mem_append.mp ht with ht | ht
    · exact has_of_mem_extent hextent ht
    · exact hpresent t ht

namespace SameRow

variable (h : SameRow v w q f e)

include h

theorem bound (hb : Bound v q f e) : Bound w q f e := by
  constructor
  · intro t ht
    rw [← h.own.has (decisive_of_demanded ht)]
    exact hb.demanded t ht
  · intro t ht
    rw [← h.own.has (decisive_of_absent ht)]
    exact hb.absent t ht

/-- A bound entity of a query without a pair list is one of its rows. -/
theorem row {schema schema' : Option (List TypeId)} (hp : v.Present schema) (hp' : w.Present schema')
    (hids : v.nextEntity = w.nextEntity) (hexpand : (SystemParam.query q f).pairExpandable = false)
    (he : e ∈ filteredRows v q f) : e ∈ filteredRows w q f := by
  have hbound := h.bound (Bound.of_row hp he)
  obtain ⟨hextent, -⟩ := (mem_filteredRows_extent hp q f e).mp he
  refine (mem_filteredRows_extent hp' q f e).mpr ⟨?_, hbound.matchesRow⟩
  cases hx : q.extent f.enumerates with
  | nothing =>
    rw [hx] at hextent
    exact hextent
  | ids =>
    rw [hx] at hextent
    exact lt_of_lt_of_eq hextent hids
  | carriers types =>
    intro t ht
    refine hbound.demanded t (List.mem_append_left _ ?_)
    rw [hexpand, if_neg Bool.false_ne_true, hx]
    exact ht

theorem boundKeys : f.boundKeys v e = f.boundKeys w e := by
  have hkey : ∀ k : JoinKey, (∀ t ∈ k.boundKeyTypes, t ∈ q.decisiveTypes f) →
      k.boundKeys v e = k.boundKeys w e := by
    intro k hk
    induction k with
    | eq t =>
      rw [JoinKey.boundKeys, JoinKey.boundKeys, h.own.fingerprintOn (hk t (List.mem_singleton_self t))]
    | inMembers t => rfl
    | and l r hl hr =>
      rw [JoinKey.boundKeys, JoinKey.boundKeys, hl fun t ht => hk t (List.mem_append_left _ ht),
        hr fun t ht => hk t (List.mem_append_right _ ht)]
  have hfilter : ∀ g : QueryFilter, (∀ t ∈ g.boundKeyTypes, t ∈ q.decisiveTypes f) →
      g.boundKeys v e = g.boundKeys w e := by
    intro g hg
    induction g with
    | whereKey k => exact hkey k hg
    | and l r hl hr =>
      rw [QueryFilter.boundKeys, QueryFilter.boundKeys, hl fun t ht => hg t (List.mem_append_left _ ht),
        hr fun t ht => hg t (List.mem_append_right _ ht)]
    | _ => rfl
  exact hfilter f fun t ht => decisive_of_demanded (demanded_of_present (QueryFilter.bound_subset_present ht))

theorem partDeps {part : QueryPart} (hpart : part ∈ q.parts)
    (hrecorded : ∀ t ∈ part.recordedTypes, t ∈ q.decisiveTypes f) :
    part.deps C v e = part.deps C w e := by
  cases part with
  | read t => exact h.own.componentDep (hrecorded t (List.mem_singleton_self t))
  | optional t => exact h.own.componentDep (hrecorded t (List.mem_singleton_self t))
  | mutRef t => exact h.own.componentDep (hrecorded t (List.mem_singleton_self t))
  | tracked marker facet =>
    exact List.flatMap_congr fun p hp => h.own.componentDep (hrecorded _ (List.mem_map_of_mem hp))
  | related inverse reads =>
    have hinverse : inverse ∈ q.decisiveTypes f := hrecorded inverse (List.mem_singleton_self inverse)
    show componentDep C v inverse e ++ _ = componentDep C w inverse e ++ _
    rw [h.own.componentDep hinverse, h.own.membersOn hinverse]
    refine congrArg _ (List.flatMap_congr fun m hm => List.flatMap_congr fun read hread => ?_)
    exact (h.members inverse reads hpart m hm).componentDep (List.mem_map_of_mem hread)

/-- A row on which the worlds agree records the same in both. -/
theorem deps : q.deps C v e ++ f.deps C v e = q.deps C w e ++ f.deps C w e := by
  have hfilter : ∀ g : QueryFilter, (∀ t ∈ g.presentTypes, t ∈ q.decisiveTypes f) →
      g.deps C v e = g.deps C w e := by
    have hkey : ∀ k : JoinKey, (∀ t ∈ k.boundKeyTypes, t ∈ q.decisiveTypes f) →
        k.deps C v e = k.deps C w e := by
      intro k hk
      induction k with
      | eq t => exact h.own.componentDep (hk t (List.mem_singleton_self t))
      | inMembers t => rfl
      | and l r hl hr =>
        rw [JoinKey.deps, JoinKey.deps, hl fun t ht => hk t (List.mem_append_left _ ht),
          hr fun t ht => hk t (List.mem_append_right _ ht)]
    intro g hg
    induction g with
    | withComponent t => exact h.own.componentDep (hg t (List.mem_singleton_self t))
    | whereKey k => exact hkey k hg
    | and l r hl hr =>
      rw [QueryFilter.deps, QueryFilter.deps, hl fun t ht => hg t (List.mem_append_left _ ht),
        hr fun t ht => hg t (List.mem_append_right _ ht)]
    | _ => rfl
  have hquery : q.deps C v e = q.deps C w e := by
    cases q with
    | entity _ => rfl
    | read t => exact h.own.componentDep (decisive_of_recorded (List.mem_singleton_self t))
    | mutRef t => exact h.own.componentDep (decisive_of_recorded (List.mem_singleton_self t))
    | entityParts facet parts =>
      refine List.flatMap_congr fun part hpart => h.partDeps hpart fun t ht => ?_
      exact decisive_of_recorded (List.mem_flatMap.mpr ⟨part, hpart, ht⟩)
  rw [hquery, hfilter f fun t ht => decisive_of_demanded (demanded_of_present ht)]

theorem provided (hb : Bound v q f e) (key : TypeId) :
    q.providedKey v e key = q.providedKey w e key ∧
      q.providedMembers v e key = q.providedMembers w e key := by
  cases hkey : q.providesKey key with
  | false =>
    have hv := provided_eq_none (w := v) hkey e
    have hw := provided_eq_none (w := w) hkey e
    exact ⟨hv.1.trans hw.1.symm, hv.2.trans hw.2.symm⟩
  | true =>
    obtain ⟨-, hkeyed, hlisted⟩ := provides_of_accepts hkey hb.accepts
    obtain ⟨-, hkeyed', hlisted'⟩ := provides_of_accepts hkey (h.bound hb).accepts
    have hdecisive : key ∈ q.decisiveTypes f :=
      decisive_of_demanded (demanded_of_required (required_of_providesKey hkey))
    rw [hkeyed, hlisted, hkeyed', hlisted', h.own.fingerprintOn hdecisive, h.own key hdecisive]
    exact ⟨rfl, rfl⟩

end SameRow
end QueryParam

namespace SystemParam

/-- A row of the parameter carries what its query demands. -/
def Drawn (w : World α) : SystemParam → ParamState → Prop
  | .query q f, s => ∃ e, s = .row e ∧ q.Bound w f e
  | _, _ => True

/-- The worlds agree on all that the states of the parameter over the first one read. -/
def Follows (v w : World α) : SystemParam → Prop
  | .query q f => ∀ e, q.Bound v f e → q.SameRow v w f e
  | .outer q f => ∃ σ, SameView σ w v ∧ (SystemParam.outer q f).Within σ ∧
      (∀ t, σ.stores t → ∀ e, v.revisionByType t e = w.revisionByType t e) ∧
        ∀ t ∈ (SystemParam.outer q f).watchedTypes, v.storeWatermark t = w.storeWatermark t
  | .trackedView q f => ∀ t ∈ trackedViewTypes q f, v.storeWatermark t = w.storeWatermark t
  | _ => True

/-- Both worlds show the state alike. -/
structure Alike (C : Components α) (v w : World α) (p : SystemParam) (s : ParamState) : Prop where
  deps : p.deps C v s = p.deps C w s
  boundKeys : p.boundKeys v s = p.boundKeys w s
  providedKey : ∀ key, p.providedKey v s key = p.providedKey w s key
  providedMembers : ∀ key, p.providedMembers v s key = p.providedMembers w s key
  absences : ∀ key fingerprint,
    p.absentBindingMatches v key fingerprint = p.absentBindingMatches w key fingerprint

variable {p : SystemParam} {s : ParamState} {schema schema' : Option (List TypeId)}

theorem Drawn.of_states (hp : w.Present schema) (h : s ∈ p.states w) : p.Drawn w s := by
  cases p with
  | query q f =>
    obtain ⟨e, he, rfl⟩ := List.mem_map.mp h
    exact ⟨e, rfl, QueryParam.Bound.of_row hp he⟩
  | _ => trivial

theorem Drawn.of_candidates (hp : w.Present schema) (hexpand : p.pairExpandable = true)
    {candidates : List Entity} (h : s ∈ p.statesFromCandidates w candidates) : p.Drawn w s := by
  cases p with
  | query q f =>
    obtain ⟨e, rfl, -, haccepts, hmatches⟩ := (Params.mem_statesFromCandidates hp).mp h
    exact ⟨e, rfl, QueryParam.Bound.of_candidate hexpand haccepts hmatches⟩
  | _ => trivial

namespace Follows

variable (h : p.Follows v w)

include h

theorem alike (hp : v.Present schema) (hp' : w.Present schema') (hs : p.Drawn v s) :
    p.Alike C v w s := by
  cases p with
  | query q f =>
    obtain ⟨e, rfl, hbound⟩ := hs
    have hrow := h e hbound
    exact ⟨hrow.deps, hrow.boundKeys, fun key => (hrow.provided hbound key).1,
      fun key => (hrow.provided hbound key).2, fun _ _ => rfl⟩
  | outer q f =>
    obtain ⟨σ, hview, hwithin, hrevisions, hmarks⟩ := h
    refine ⟨hview.deps C hrevisions hwithin hmarks s, ?_, fun _ => rfl, fun _ => rfl,
      fun key v => hview.absentBindingMatches hp' hp hwithin key v⟩
    cases s with
    | row e => exact hview.boundKeys hwithin.keys e
    | _ => rfl
  | trackedView q f =>
    refine ⟨List.map_congr_left fun t ht => ?_, rfl, fun _ => rfl, fun _ => rfl, fun _ _ => rfl⟩
    rw [storeWatermarkDep, storeWatermarkDep, h t ht]
  | _ => exact ⟨rfl, rfl, fun _ => rfl, fun _ => rfl, fun _ _ => rfl⟩

theorem states (hp : v.Present schema) (hp' : w.Present schema') (hids : v.nextEntity = w.nextEntity)
    (hexpand : p.pairExpandable = false) (hs : s ∈ p.states v) : s ∈ p.states w := by
  cases p with
  | query q f =>
    obtain ⟨e, he, rfl⟩ := List.mem_map.mp hs
    have hrow := h e (QueryParam.Bound.of_row hp he)
    exact List.mem_map.mpr ⟨e, hrow.row hp hp' hids hexpand he, rfl⟩
  | outer q f =>
    obtain ⟨σ, hview, hwithin, -⟩ := h
    rwa [hview.states hp' hp hwithin rfl] at hs
  | _ => exact hs

end Follows
end SystemParam

namespace Params

open SystemParam

variable {schema schema' : Option (List TypeId)}

theorem providedKey_alike {others : Picked} (h : ∀ x ∈ others, x.1.Alike C v w x.2) (key : TypeId) :
    provided others (fun p s => p.providedKey v s key) =
      provided others fun p s => p.providedKey w s key :=
  List.findSome?_congr_mem fun x hx => (h x hx).providedKey key

theorem providedMembers_alike {others : Picked} (h : ∀ x ∈ others, x.1.Alike C v w x.2)
    (key : TypeId) : provided others (fun p s => p.providedMembers v s key) =
      provided others fun p s => p.providedMembers w s key :=
  List.findSome?_congr_mem fun x hx => (h x hx).providedMembers key

/-- A state passes in both worlds where both show it and the others alike. -/
theorem Passes.alike {others : Picked} {p : SystemParam} {s : ParamState}
    (hs : p.Alike C v w s) (hothers : ∀ x ∈ others, x.1.Alike C v w x.2)
    (h : Passes v others p s) : Passes w others p s := by
  constructor
  · intro b hb
    rw [← hs.boundKeys] at hb
    have hcheck := h.bound b hb
    unfold boundCheck at hcheck ⊢
    rwa [providedKey_alike hothers] at hcheck
  · intro m hm
    have hcheck := h.members m hm
    rw [memberCheck] at hcheck ⊢
    rwa [providedMembers_alike hothers] at hcheck
  · intro key hkey
    obtain ⟨found, hfound, hmatches⟩ := absentCheck_eq_some.mp (h.absences key hkey)
    rw [providedKey_alike hothers] at hfound
    exact absentCheck_eq_some.mpr ⟨found, hfound, (hs.absences key found).symm.trans hmatches⟩

section Following

variable (hv : v.Coherent) (hw : w.Coherent) (hp : v.Present schema) (hp' : w.Present schema')
  (hids : v.nextEntity = w.nextEntity)

include hv hw hp hp'

/-- A state offered by a pair list of the first world is offered by that of the second. -/
theorem offered_alike {p : SystemParam} (hexpand : p.pairExpandable = true) (hfollows : p.Follows v w)
    {picked : Picked} (hpicked : ∀ x ∈ picked, x.1.Alike C v w x.2) {rows offered : List ParamState}
    (h : pickable v p rows picked = some offered) {s : ParamState} (hs : s ∈ offered) :
    p.Drawn v s ∧ ∃ offered', pickable w p rows picked = some offered' ∧ s ∈ offered' := by
  obtain ⟨key, hkey⟩ := singleKey_of_pairExpandable hexpand
  cases hkey with
  | @membership q f hin hbound =>
    obtain ⟨members, hmembers, rfl⟩ := pickable_membership hin hbound h
    have hdrawn := Drawn.of_candidates hp hexpand hs
    refine ⟨hdrawn, (query q f).statesFromCandidates w members, ?_, ?_⟩
    · rw [providedMembers_alike hpicked] at hmembers
      rw [pickable, if_pos hexpand, pairRows_membership hin hmembers]
    · obtain ⟨e, rfl, he, haccepts, hmatches⟩ := (mem_statesFromCandidates hp).mp hs
      have hthere := (hfollows e (.of_candidate hexpand haccepts hmatches)).bound
        (.of_candidate hexpand haccepts hmatches)
      exact (mem_statesFromCandidates hp').mpr ⟨e, rfl, he, hthere.accepts, hthere.matchesRow⟩
  | @equality q f hin hbound =>
    obtain ⟨found, hfound, rfl⟩ := pickable_equality hin hbound h
    have hdrawn := Drawn.of_candidates hp hexpand hs
    refine ⟨hdrawn, (query q f).statesFromCandidates w (w.fingerprintCandidates key found), ?_, ?_⟩
    · rw [providedKey_alike hpicked] at hfound
      rw [pickable, if_pos hexpand, pairRows_equality hin hbound hfound]
    · obtain ⟨e, rfl, he, haccepts, hmatches⟩ := (mem_statesFromCandidates hp).mp hs
      have hrow := hfollows e (.of_candidate hexpand haccepts hmatches)
      have hthere := hrow.bound (.of_candidate hexpand haccepts hmatches)
      have hkey : key ∈ q.decisiveTypes f := by
        have hmem : key ∈ f.boundKeyTypes := hbound ▸ List.mem_singleton_self key
        exact QueryParam.decisive_of_demanded (QueryParam.demanded_of_present
          (QueryFilter.bound_subset_present hmem))
      have hcandidate : e ∈ w.fingerprintCandidates key found := by
        refine (hw.mem_fingerprintCandidates key found e).mpr ?_
        rw [← hrow.own.fingerprintOn hkey]
        exact (hv.mem_fingerprintCandidates key found e).mp he
      exact (mem_statesFromCandidates hp').mpr
        ⟨e, rfl, hcandidate, hthere.accepts, hthere.matchesRow⟩

include hids

/-- The choices of the first world are choices of the second, which shows them alike. -/
theorem joined_alike : ∀ {rest : Params} {picked : Picked} {state : List ParamState},
    (∀ p ∈ rest, p.Follows v w) → (∀ x ∈ picked, x.1.Alike C v w x.2) →
      Joined v picked (startRows v rest) state →
        Joined w picked (startRows w rest) state ∧
          ∀ x ∈ rest.zip state, x.1.Drawn v x.2 ∧ x.1.Alike C v w x.2
  | [], _, _, _, _, hjoined => ⟨hjoined, fun _ hx => nomatch hx⟩
  | p :: rest, picked, _, hrest, hpicked, ⟨s, tail, offered, rfl, hoffered, hs, htail⟩ => by
    have hfollows := hrest p List.mem_cons_self
    have hhead : p.Drawn v s ∧
        ∃ offered', pickable w p (if p.pairExpandable then [] else p.states w) picked =
          some offered' ∧ s ∈ offered' := by
      cases hexpand : p.pairExpandable with
      | true =>
        rw [hexpand] at hoffered
        exact offered_alike hv hw hp hp' hexpand hfollows hpicked hoffered hs
      | false =>
        rw [hexpand, if_neg Bool.false_ne_true, pickable, hexpand, if_neg Bool.false_ne_true]
          at hoffered
        cases hoffered
        refine ⟨.of_states hp hs, p.states w, ?_, hfollows.states hp hp' hids hexpand hs⟩
        rw [if_neg Bool.false_ne_true, pickable, hexpand, if_neg Bool.false_ne_true]
    obtain ⟨hdrawn, offered', hoffered', hs'⟩ := hhead
    have halike : p.Alike C v w s := hfollows.alike hp hp' hdrawn
    have hnext : ∀ x ∈ picked ++ [(p, s)], x.1.Alike C v w x.2 := by
      intro x hx
      rcases List.mem_append.mp hx with hx | hx
      · exact hpicked x hx
      · rw [List.mem_singleton.mp hx]
        exact halike
    obtain ⟨hjoined, hall⟩ :=
      joined_alike (fun p hp => hrest p (List.mem_cons_of_mem _ hp)) hnext htail
    refine ⟨⟨s, tail, offered', rfl, hoffered', hs', hjoined⟩, fun x hx => ?_⟩
    rcases List.mem_cons.mp hx with rfl | hx
    · exact ⟨hdrawn, halike⟩
    · exact hall x hx

/-- A planned state of the first world is one of the second, with the same deps. -/
theorem states_alike {ps : Params} (hfollows : ∀ p ∈ ps, p.Follows v w)
    {out before : List (List ParamState)} (hout : states v ps = some out)
    (hbefore : states w ps = some before) {state : List ParamState} (hstate : state ∈ out) :
    state ∈ before ∧ deps C v ps state = deps C w ps state ∧ ∀ x ∈ ps.zip state, x.1.Drawn v x.2 := by
  obtain ⟨full, hfull, hspec⟩ := states_spec hv hp hout
  obtain ⟨full', hfull', hspec'⟩ := states_spec hw hp' hbefore
  obtain ⟨hmem, hpass⟩ := (hspec state).2.mp hstate
  obtain ⟨hjoined, hall⟩ := joined_alike (C := C) hv hw hp hp' hids hfollows
    (fun _ hx => absurd hx List.not_mem_nil) ((mem_product hfull state).mp hmem)
  refine ⟨(hspec' state).2.mpr ⟨(mem_product hfull' state).mpr hjoined, fun x others hx => ?_⟩, ?_,
    fun x hx => (hall x hx).1⟩
  · obtain ⟨a, b, hsplit, rfl⟩ := List.mem_others.mp hx
    have hzip : ∀ y ∈ a ++ b, y ∈ ps.zip state := by
      intro y hy
      rw [hsplit]
      exact (List.mem_append.mp hy).elim (List.mem_append_left _)
        fun hy => List.mem_append_right _ (List.mem_cons_of_mem _ hy)
    have hx' : x ∈ ps.zip state := hsplit ▸ List.mem_append_right _ List.mem_cons_self
    exact Passes.alike (hall x hx').2 (fun y hy => (hall y (hzip y hy)).2) (hpass x _ hx)
  · exact List.flatMap_congr fun x hx => (hall x hx).2.deps

end Following
end Params
end Porridge
