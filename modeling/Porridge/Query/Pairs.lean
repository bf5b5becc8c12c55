import Mathlib.Data.List.Sections
import Porridge.Query.Candidates
import Porridge.Query.Pairing
import Porridge.Query.Prepared
import Porridge.World.Buckets

/-! Planning by pair lists against the pruned product of all filtered rows. -/

/-- The sections of duplicate-free lists are distinct. -/
theorem List.nodup_sections {σ : Type} : ∀ {lists : List (List σ)}, (∀ l ∈ lists, l.Nodup) →
    lists.sections.Nodup
  | [], _ => List.nodup_singleton []
  | l :: lists, h => by
    have hrest := nodup_sections fun l' hl' => h l' (List.mem_cons_of_mem l hl')
    have hhead : l.Nodup := h l List.mem_cons_self
    rw [List.sections, List.nodup_flatMap]
    constructor
    · intro tail _
      exact hhead.map fun _ _ heq => (List.cons.inj heq).1
    · refine hrest.imp fun hne => ?_
      intro state hstate hstate'
      obtain ⟨_, -, rfl⟩ := List.mem_map.mp hstate
      obtain ⟨_, -, heq⟩ := List.mem_map.mp hstate'
      exact hne (List.cons.inj heq).2.symm

namespace Porridge

variable {α : Type} {C : Components α} {w : World α} {schema : Option (List TypeId)}

/-- Narrowed to a candidate list, the shape yields its own rows among it. -/
def QueryParam.Narrows (w : World α) (q : QueryParam) (candidates : List Entity) : Prop :=
  q.rowsHinted w (some candidates) = candidates.filter (· ∈ q.rows w)

/-- A tuple that requires a component narrows every list. -/
theorem QueryParam.Anchored.narrows (hp : w.Present schema) {q : QueryParam} (hq : q.Anchored)
    (candidates : List Entity) : q.Narrows w candidates := by
  rw [Narrows, q.rowsHinted_some hp]
  refine List.filter_congr fun e _ => ?_
  exact Bool.eq_iff_iff.mpr ((mem_rows hp hq e).symm.trans decide_eq_true_iff.symm)

theorem SystemParam.nodup_states (hp : w.Present schema) (p : SystemParam) : (p.states w).Nodup := by
  have hrows : ∀ q f, ((filteredRows w q f).map ParamState.row).Nodup := by
    intro q f
    have hnodup : (filteredRows w q f).Nodup := (ascending_filteredRows hp q f).imp ne_of_lt
    exact hnodup.map fun _ _ heq => ParamState.row.inj heq
  cases p with
  | query q f => exact hrows q f
  | outer q f =>
    refine (hrows q f).append (List.nodup_singleton _) fun s hs habsent => ?_
    obtain ⟨e, -, rfl⟩ := List.mem_map.mp hs
    cases List.mem_singleton.mp habsent
  | _ => exact List.nodup_singleton _

namespace Params

open SystemParam

section Agreement

variable {picked after : Picked} {p : SystemParam} {rows offered : List ParamState} {s : ParamState}

/-- A listed member of a shape that narrows the list is a filtered row if candidates accept it. -/
theorem mem_filteredRows_of_member (hp : w.Present schema) {q : QueryParam} {f : QueryFilter}
    {members : List Entity} (hnarrows : q.Narrows w members) {e : Entity} (he : e ∈ members) :
    e ∈ filteredRows w q f ↔ q.accepts w e = true ∧ f.matchesRow w e = true := by
  cases hc : f.entityCandidates w with
  | some candidates => exact mem_filteredRows_of_candidates hp q (by rw [hc]; rfl) e
  | none =>
    have hrows : q.rowsHinted w none = q.rows w := by cases q <;> rfl
    rw [QueryParam.Narrows, q.rowsHinted_some hp] at hnarrows
    have haccepts : q.accepts w e = true ↔ e ∈ q.rows w := by
      have hmem : e ∈ members.filter (q.accepts w) ↔ e ∈ members.filter (· ∈ q.rows w) := by
        rw [hnarrows]
      simpa [List.mem_filter, he] using hmem
    rw [filteredRows, hc, hrows, List.mem_filter, haccepts]

/-- A provided list is the member list of an entity. -/
theorem exists_membersOn {key : TypeId} {others : Picked} {members : List Entity}
    (h : provided others (fun p s => p.providedMembers w s key) = some members) :
    ∃ e, members = w.membersOn key e := by
  have hlist : ∀ e, (w.cell? key e).bind (fun x => x.value.relationshipMembers) = some members →
      members = w.membersOn key e := by
    intro e hmembers
    obtain ⟨x, hx, hvalue⟩ := Option.bind_eq_some_iff.mp hmembers
    rw [World.membersOn, hx]
    cases hx : x.value with
    | members entities =>
      rw [hx] at hvalue
      cases hvalue
      simp [Value.memberList, hx]
    | _ =>
      rw [hx] at hvalue
      cases hvalue
  obtain ⟨⟨p, s⟩, -, hfound⟩ := List.exists_of_findSome?_eq_some h
  cases p with
  | query q f =>
    cases s with
    | row e =>
      refine ⟨e, hlist e ?_⟩
      cases q with
      | read t =>
        have hkey : key = t := by
          by_contra hne
          exact absurd (hfound.symm.trans (if_neg hne)) (Option.some_ne_none _)
        subst hkey
        exact (if_pos rfl).symm.trans hfound
      | entityParts facet parts =>
        obtain ⟨part, -, hpart⟩ := List.exists_of_findSome?_eq_some hfound
        rw [QueryPart.providedMembers] at hpart
        split_ifs at hpart
        exact hpart
      | _ => cases hfound
    | _ => cases hfound
  | _ => cases hfound

/-- A parameter is offered those of its filtered rows that pass beside the picked states. -/
theorem mem_offered_iff (hw : w.Coherent) (hp : w.Present schema)
    (hnarrows : ∀ q f, p = .query q f → ∀ key ∈ f.inKeyTypes, ∀ e, q.Narrows w (w.membersOn key e))
    (h : pickable w p rows picked = some offered)
    (hrows : p.pairExpandable = false → rows = p.states w)
    (hpass : Passes w (picked ++ after) p s) : s ∈ offered ↔ s ∈ p.states w := by
  by_cases hexpand : p.pairExpandable = true
  · obtain ⟨key, hkey⟩ := singleKey_of_pairExpandable hexpand
    cases hkey with
    | @membership q f hin hbound =>
      obtain ⟨members, hmembers, rfl⟩ := pickable_membership hin hbound h
      have hpicked : provided (picked ++ after) (fun p s => p.providedMembers w s key) =
          some members := findSome?_picked hmembers
      have hlisted : ∀ e, s = .row e → e ∈ members := by
        rintro e rfl
        have hcheck := hpass.members (key, e) (by simp [inKeys, QueryFilter.inKeys, hin])
        obtain ⟨members', hmembers', he⟩ := memberCheck_eq_true.mp hcheck
        rw [hpicked] at hmembers'
        cases hmembers'
        exact he
      obtain ⟨provider, hprovider⟩ := exists_membersOn hmembers
      have hnarrow : q.Narrows w members := by
        rw [hprovider]
        exact hnarrows q f rfl key (by rw [hin]; exact List.mem_singleton_self key) provider
      rw [mem_statesFromCandidates hp]
      constructor
      · rintro ⟨e, rfl, he, hheld⟩
        exact List.mem_map_of_mem ((mem_filteredRows_of_member hp hnarrow he).mpr hheld)
      · intro hs
        obtain ⟨e, he, rfl⟩ := List.mem_map.mp hs
        have hmember := hlisted e rfl
        exact ⟨e, rfl, hmember, (mem_filteredRows_of_member hp hnarrow hmember).mp he⟩
    | @equality q f hin hbound =>
      obtain ⟨v, hv, rfl⟩ := pickable_equality hin hbound h
      have hpicked : provided (picked ++ after) (fun p s => p.providedKey w s key) =
          some (some v) := findSome?_picked hv
      have hstamped : ∀ e, s = .row e → e ∈ w.fingerprintCandidates key v := by
        rintro e rfl
        have hown : (key, w.fingerprintOn key e) ∈ f.boundKeys w e :=
          QueryFilter.mem_boundKeys.mpr ⟨by rw [hbound]; exact List.mem_singleton_self key, rfl⟩
        obtain ⟨v', hv', hfound⟩ := boundCheck_eq_true.mp (hpass.bound _ hown)
        rw [hpicked] at hfound
        cases hfound
        exact (hw.mem_fingerprintCandidates key v e).mpr hv'
      have henumerates : (f.entityCandidates w).isSome = true :=
        QueryFilter.isSome_entityCandidates (hbound ▸ List.mem_singleton_self key)
      rw [mem_statesFromCandidates hp]
      constructor
      · rintro ⟨e, rfl, -, hheld⟩
        exact List.mem_map_of_mem ((mem_filteredRows_of_candidates hp q henumerates e).mpr hheld)
      · intro hs
        obtain ⟨e, he, rfl⟩ := List.mem_map.mp hs
        exact ⟨e, rfl, hstamped e rfl, (mem_filteredRows_of_candidates hp q henumerates e).mp he⟩
  · rw [pickable, if_neg hexpand] at h
    cases h
    rw [hrows (Bool.eq_false_iff.mpr hexpand)]

end Agreement

section Planning

variable {ps : Params}

/-- Every shape narrows the member lists of the inverses that its filter joins on. -/
def MembersNarrowed (w : World α) (ps : Params) : Prop :=
  ∀ q f, .query q f ∈ ps → ∀ key ∈ f.inKeyTypes, ∀ e, q.Narrows w (w.membersOn key e)

/-- States that pass their checks are joined if and only if each is a filtered row. -/
theorem joined_iff (hw : w.Coherent) (hp : w.Present schema) (hj : Joinable w ps)
    (hnarrows : MembersNarrowed w ps) : ∀ {rest : Params} {picked : Picked}
    {state : List ParamState}, (∀ p ∈ rest, p ∈ ps) → (∀ x ∈ picked, x.1.Held w x.2) →
      (∀ a p b, rest = a ++ p :: b → Provided (picked.map Prod.fst ++ a) p) →
      (∀ a x b, rest.zip state = a ++ x :: b → Passes w (picked ++ a ++ b) x.1 x.2) →
      (Joined w picked (startRows w rest) state ↔
        List.Forall₂ (fun s p => s ∈ p.states w) state rest)
  | [], _, _, _, _, _, _ => List.forall₂_nil_right_iff.symm
  | _ :: _, _, [], _, _, _, _ => by
    constructor
    · rintro ⟨_, _, _, h, -⟩
      cases h
    · intro h
      cases h
  | p :: rest, picked, s :: tail, hmem, hheld, hprovided, hpass => by
    have hhead : p ∈ ps := hmem p List.mem_cons_self
    have hfirst : Passes w (picked ++ rest.zip tail) p s := by
      have hsplit := hpass [] (p, s) (rest.zip tail) rfl
      rwa [List.append_nil] at hsplit
    have hproviders := hprovided [] p rest rfl
    rw [List.append_nil] at hproviders
    obtain ⟨offered, hoffered⟩ := exists_pickable hj hhead
      (if p.pairExpandable then [] else p.states w) hheld fun _ => hproviders
    have hagree : s ∈ offered ↔ s ∈ p.states w := by
      refine mem_offered_iff hw hp (fun q f heq => hnarrows q f (heq ▸ hhead)) hoffered ?_ hfirst
      exact fun hunbound => if_neg (Bool.eq_false_iff.mp hunbound)
    have hrest : s ∈ p.states w → (Joined w (picked ++ [(p, s)]) (startRows w rest) tail ↔
        List.Forall₂ (fun s p => s ∈ p.states w) tail rest) := by
      intro hs
      refine joined_iff hw hp hj hnarrows (fun p hp => hmem p (List.mem_cons_of_mem _ hp)) ?_ ?_ ?_
      · intro x hx
        rcases List.mem_append.mp hx with hx | hx
        · exact hheld x hx
        · rw [List.mem_singleton.mp hx]
          exact held_of_mem_states hp hs
      · intro a p' b hsplit
        have hnext := hprovided (p :: a) p' b (congrArg _ hsplit)
        rwa [List.map_append, List.append_assoc]
      · intro a x b hsplit
        have hnext := hpass ((p, s) :: a) x b (congrArg _ hsplit)
        rwa [List.append_assoc picked]
    constructor
    · rintro ⟨_, _, offered', heq, hoffered', hs, htail⟩
      obtain ⟨rfl, rfl⟩ := List.cons.inj heq
      cases hoffered.symm.trans hoffered'
      have hstate := hagree.mp hs
      exact List.Forall₂.cons hstate ((hrest hstate).mp htail)
    · intro h
      cases h with
      | cons hs htail => exact ⟨s, tail, offered, rfl, hoffered, hagree.mpr hs, (hrest hs).mpr htail⟩

/-- Rows of a parameter without a pair list: each is held, and none comes twice. -/
structure Entering (w : World α) (p : SystemParam) (rows : List ParamState) : Prop where
  nodup : rows.Nodup
  held : ∀ s ∈ rows, p.Held w s

/-- What a join is offered holds no state twice. -/
theorem nodup_offered (hp : w.Present schema) (hb : w.Bucketed) (hj : Joinable w ps)
    {p : SystemParam} (hmem : p ∈ ps) {picked : Picked} (hheld : ∀ x ∈ picked, x.1.Held w x.2)
    {rows offered : List ParamState} (hrows : p.pairExpandable = false → Entering w p rows)
    (h : pickable w p rows picked = some offered) : offered.Nodup := by
  have hnarrowed : ∀ q f (candidates : List Entity), candidates.Nodup →
      ((query q f).statesFromCandidates w candidates).Nodup := by
    intro q f candidates hcandidates
    have hrows : (filteredRowsFromCandidates w q f candidates).Nodup := by
      rw [filteredRowsFromCandidates, q.rowsHinted_some hp]
      exact (hcandidates.filter _).filter _
    exact hrows.map fun _ _ heq => ParamState.row.inj heq
  by_cases hexpand : p.pairExpandable = true
  · obtain ⟨key, hkey⟩ := singleKey_of_pairExpandable hexpand
    have hproviders := exists_provider_of_provided (provided_of_pickable h hexpand)
      (by rw [hkey.joins]; exact List.mem_singleton_self key)
    cases hkey with
    | @membership q f hin hbound =>
      obtain ⟨members, hmembers, rfl⟩ := pickable_membership hin hbound h
      obtain ⟨members', hmembers', hsorted⟩ := hj.providedMembers hmem
        (by rw [inKeyTypes, hin]; exact List.mem_singleton_self key) hheld hproviders
      cases hmembers.symm.trans hmembers'
      exact hnarrowed q f members (hsorted.imp ne_of_lt)
    | @equality q f hin hbound =>
      obtain ⟨v, -, rfl⟩ := pickable_equality hin hbound h
      exact hnarrowed q f _ ((hb key v).imp ne_of_lt)
  · rw [pickable, if_neg hexpand] at h
    cases h
    exact (hrows (Bool.eq_false_iff.mpr hexpand)).nodup

theorem nodup_product (hp : w.Present schema) (hb : w.Bucketed) (hj : Joinable w ps)
    {rows : SystemParam → List ParamState}
    (hrows : ∀ p ∈ ps, p.pairExpandable = false → Entering w p (rows p)) :
    ∀ {rest : Params} {picked : Picked} {out : List (List ParamState)}, (∀ p ∈ rest, p ∈ ps) →
      (∀ x ∈ picked, x.1.Held w x.2) →
        product w picked (rest.map fun p => (p, rows p)) = some out → out.Nodup
  | [], _, _, _, _, h => by
    cases h
    exact List.nodup_singleton _
  | p :: rest, picked, out, hmem, hheld, h => by
    obtain ⟨offered, hoffered, hflat⟩ := product_cons.mp h
    have hhead : p ∈ ps := hmem p List.mem_cons_self
    have hoffers := nodup_offered hp hb hj hhead hheld (hrows p hhead) hoffered
    rw [List.nodup_iff_count_le_one]
    intro state
    by_cases hin : state ∈ out
    · obtain ⟨s, hs, lists, hlists, hstate⟩ := (List.mem_flatMap? hflat state).mp hin
      obtain ⟨tails, htails, rfl⟩ := Option.map_eq_some_iff.mp hlists
      obtain ⟨tail, -, rfl⟩ := List.mem_map.mp hstate
      have hpicked : p.Held w s :=
        held_of_pickable hp (fun hunbound s hs => (hrows p hhead hunbound).held s hs) hoffered hs
      have htail : tails.Nodup := by
        refine nodup_product hp hb hj hrows (fun p hp => hmem p (List.mem_cons_of_mem _ hp)) ?_ htails
        intro x hx
        rcases List.mem_append.mp hx with hx | hx
        · exact hheld x hx
        · rw [List.mem_singleton.mp hx]
          exact hpicked
      rw [List.count_cons_flatMap? hflat s tail tails htails]
      have hone := List.nodup_iff_count_le_one.mp hoffers s
      have htailOne := List.nodup_iff_count_le_one.mp htail tail
      calc offered.count s * tails.count tail ≤ 1 * 1 := Nat.mul_le_mul hone htailOne
        _ = 1 := rfl
    · rw [List.count_eq_zero_of_not_mem hin]
      exact Nat.zero_le 1

theorem entering_states (hp : w.Present schema) (p : SystemParam) :
    p.pairExpandable = false → Entering w p (if p.pairExpandable then [] else p.states w) := by
  intro hunbound
  rw [hunbound, if_neg Bool.false_ne_true]
  exact ⟨p.nodup_states hp, fun s hs => held_of_mem_states hp hs⟩

/-- Pruning takes states away and adds none. -/
theorem nodup_states_of_some (hp : w.Present schema) (hw : w.Coherent) (hb : w.Bucketed)
    (hj : Joinable w ps) {out : List (List ParamState)} (h : states w ps = some out) : out.Nodup := by
  obtain ⟨full, hfull, hspec⟩ := states_spec hw hp h
  have hproduct := nodup_product hp hb hj (fun p _ => entering_states hp p) (fun _ hp => hp)
    (List.forall_mem_nil _) hfull
  rw [List.nodup_iff_count_le_one]
  intro state
  by_cases hin : state ∈ out
  · have hpass := ((hspec state).2.mp hin).2
    rw [(hspec state).1 hpass]
    exact List.nodup_iff_count_le_one.mp hproduct state
  · rw [List.count_eq_zero_of_not_mem hin]
    exact Nat.zero_le 1

theorem held_of_chosen (hp : w.Present schema) : ∀ {ps : Params} {state : List ParamState},
    List.Forall₂ (fun s p => s ∈ p.states w) state ps → ∀ x ∈ ps.zip state, x.1.Held w x.2
  | p :: ps, s :: state, .cons hs hrest, x, hx => by
    rcases List.mem_cons.mp hx with rfl | hx
    · exact held_of_mem_states hp hs
    · exact held_of_chosen hp hrest x hx

/-- Planning by pair lists yields, each once, the choices of one filtered row for every parameter
that pass the checks of the product. -/
theorem bufferedStates_perm (hw : w.IndicesExact) (hj : Joinable w ps) (hfirst : ProvidersFirst ps)
    (hnarrows : MembersNarrowed w ps) :
    ∃ out, bufferedStates w ps = some out ∧ out.Nodup ∧
      (∀ state ∈ (ps.map (·.states w)).sections, ∃ b, bindingMatches w ps state = some b) ∧
      out.Perm ((ps.map (·.states w)).sections.filter
        fun state => bindingMatches w ps state == some true) := by
  obtain ⟨schema, hp⟩ := hw.present
  have hsections : ∀ state, state ∈ (ps.map (·.states w)).sections ↔
      List.Forall₂ (fun s p => s ∈ p.states w) state ps := by
    intro state
    rw [List.mem_sections, List.forall₂_map_right_iff]
  obtain ⟨full, hfull⟩ := exists_product hp hj hfirst (map_fst_startRows ps) (enters_startRows hp ps)
  have hjoined : ∀ state, state ∈ full ↔ Joined w [] (startRows w ps) state :=
    fun state => mem_product hfull state
  have hpruned : ∃ out, states w ps = some out :=
    (exists_states_iff hp hj fun _ _ hmem => hfirst.others hmem).mpr ⟨full, hfull⟩
  obtain ⟨out, hout⟩ := hpruned
  obtain ⟨full', hfull', hspec⟩ := states_spec hw.coherent hp hout
  cases hfull.symm.trans hfull'
  have hmem : ∀ state, state ∈ out ↔ state ∈ (ps.map (·.states w)).sections ∧
      bindingMatches w ps state = some true := by
    intro state
    rw [(hspec state).2, hjoined, hsections, bindingMatches_eq_true]
    refine and_congr_left fun hpass => ?_
    refine joined_iff hw.coherent hp hj hnarrows (fun _ hp => hp) (List.forall_mem_nil _) ?_ ?_
    · exact fun a p b hsplit => hfirst a p b hsplit
    · intro a x b hsplit
      rw [List.nil_append]
      exact hpass x (a ++ b) (List.mem_others.mpr ⟨a, b, hsplit, rfl⟩)
  have hnodup : out.Nodup := nodup_states_of_some hp hw.coherent hw.bucketed hj hout
  have hchoices : (ps.map (·.states w)).sections.Nodup := by
    refine List.nodup_sections fun l hl => ?_
    obtain ⟨p, -, rfl⟩ := List.mem_map.mp hl
    exact p.nodup_states hp
  refine ⟨out, (bufferedStates_eq hp ps).trans hout, hnodup, ?_, ?_⟩
  · intro state hstate
    have hchosen := (hsections state).mp hstate
    exact hj.exists_bindingMatches hchosen.length_eq.symm.le (held_of_chosen hp hchosen)
      fun _ _ hmem => hfirst.others hmem
  · rw [List.perm_ext_iff_of_nodup hnodup (hchoices.filter _)]
    intro state
    rw [hmem, List.mem_filter, beq_iff_eq]

end Planning

theorem linking_inverses (t inverse : TypeId)
    (h : (if t = 5 then Role.edge 6 else if t = 6 then .inverse 5 else .plain) = .edge inverse) :
    (if inverse = 5 then Role.edge 6 else if inverse = 6 then .inverse 5 else .plain) =
      .inverse t := by
  split_ifs at h with ht
  cases h
  simp [ht]

/-- Data carries its payload as the fingerprint; component 5 points at an entity, which lists its
sources as component 6. -/
def linking : Components Nat where
  tracked _ := true
  role t := if t = 5 then .edge 6 else if t = 6 then .inverse 5 else .plain
  fingerprint _ v := match v with
    | .data payload => some payload
    | _ => none
  target _ payload := payload
  inverse_role := linking_inverses

/-- Entity 0 has key 10 and lists entity 3, entity 2 shares its key and has the further key 20,
which entity 4 shares. -/
def linked : World Nat :=
  ((World.machine linking).run (World.ofSchema none)
    [.base (.insert 4 0 (.data 0)), .base (.insert 1 0 (.data 10)),
      .base (.insert 1 2 (.data 10)), .base (.insert 2 2 (.data 20)),
      .base (.insert 5 3 (.data 0)), .base (.insert 2 4 (.data 20)),
      .base (.insert 3 4 (.data 0))]).getD World.new

/-- A provider, a join on its key, a join on the key of that join, a member, and an outer join. -/
def linkedTuple : Params :=
  [.query (.entityParts [] [.read 4, .read 1, .read 6]) .unit,
    .query (.entityParts [] [.read 2]) (.whereKey (.eq 1)),
    .query (.entityParts [] [.read 3]) (.whereKey (.eq 2)),
    .query (.entityParts [] [.read 5]) (.whereKey (.inMembers 6)),
    .outer (.entityParts [] [.read 7]) (.whereKey (.eq 1))]

theorem reachable_linked : World.Reachable linking linked := by
  have hrun : (World.machine linking).run (World.ofSchema none)
      [.base (.insert 4 0 (.data 0)), .base (.insert 1 0 (.data 10)),
        .base (.insert 1 2 (.data 10)), .base (.insert 2 2 (.data 20)),
        .base (.insert 5 3 (.data 0)), .base (.insert 2 4 (.data 20)),
        .base (.insert 3 4 (.data 0))] = some linked := rfl
  exact Machine.Reachable.run (.init ⟨none, rfl⟩) hrun

theorem joinable_linked : Joinable linked linkedTuple := by
  have hkeys : ∀ p ∈ linkedTuple, ∀ key ∈ p.boundKeyTypes, ∀ e ∈ linked.entitiesWith key,
      (linked.fingerprintOn key e).isSome = true := by decide
  have hlists : ∀ p ∈ linkedTuple, ∀ key ∈ p.inKeyTypes, ∀ e ∈ linked.entitiesWith key,
      linked.cell? key e = some ⟨5, .members [3], 6, none, none⟩ := by decide
  constructor
  · intro p hp key hkey e hhas
    exact Option.isSome_iff_exists.mp (hkeys p hp key hkey e ((linked.mem_entitiesWith key e).mpr hhas))
  · intro p hp key hkey e x hx
    have hhas : linked.has key e = true := (World.has_iff linked key e).mpr ⟨x, hx⟩
    have hcell := hlists p hp key hkey e ((linked.mem_entitiesWith key e).mpr hhas)
    rw [hx] at hcell
    cases hcell
    exact ⟨[3], rfl, List.pairwise_singleton _ _⟩

theorem linked_bufferedStates_perm : ∃ out, bufferedStates linked linkedTuple = some out ∧
    out.Nodup ∧ (∀ state ∈ (linkedTuple.map (·.states linked)).sections,
      ∃ b, bindingMatches linked linkedTuple state = some b) ∧
    out.Perm ((linkedTuple.map (·.states linked)).sections.filter
      fun state => bindingMatches linked linkedTuple state == some true) := by
  have hw := World.indicesExact_of_reachable reachable_linked
  obtain ⟨schema, hp⟩ := hw.present
  have hfirst : ProvidersFirst linkedTuple := by decide
  refine bufferedStates_perm hw joinable_linked hfirst fun q f hmem key _ e => ?_
  have hanchored : q.Anchored := by
    simp only [linkedTuple, List.mem_cons, SystemParam.query.injEq, reduceCtorEq, List.not_mem_nil,
      or_false] at hmem
    rcases hmem with ⟨rfl, -⟩ | ⟨rfl, -⟩ | ⟨rfl, -⟩ | ⟨rfl, -⟩
    all_goals exact ⟨⟨_, _, rfl, by decide⟩, by decide⟩
  exact hanchored.narrows hp _

example : bufferedStates linked linkedTuple =
    some [[.row 0, .row 2, .row 4, .row 3, .absent]] := by decide

end Params
end Porridge
