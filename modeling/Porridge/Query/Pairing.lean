import Porridge.Query.Extent
import Porridge.Query.Planned

/-! Picked rows carry what their shapes read: what they provide to a join, and when a product of
parameters is built without a panic. -/
namespace Porridge

variable {α : Type} {w : World α} {schema : Option (List TypeId)}

theorem QueryParam.accepts_of_mem_filteredRows (hp : w.Present schema) {q : QueryParam}
    {f : QueryFilter} {e : Entity} (h : e ∈ filteredRows w q f) : q.accepts w e = true := by
  obtain ⟨hextent, -⟩ := (mem_filteredRows_extent hp q f e).mp h
  refine QueryParam.accepts_iff.mpr fun t ht => ?_
  have hcarriers : q.extent f.enumerates = .carriers q.requiredTypes := by
    unfold QueryParam.extent
    split_ifs
    · rfl
    · cases q with
      | entity _ => cases ht
      | read _ => rfl
      | mutRef _ => rfl
      | entityParts _ _ => exact if_pos (List.ne_nil_of_mem ht)
  rw [hcarriers] at hextent
  exact hextent t ht

/-- A row that its shape accepts provides every key that the shape reads. -/
theorem QueryParam.provides_of_accepts {q : QueryParam} {key : TypeId}
    (h : q.providesKey key = true) {e : Entity} (ha : q.accepts w e = true) :
    w.has key e = true ∧ q.providedKey w e key = some (w.fingerprintOn key e) ∧
      q.providedMembers w e key = (w.cell? key e).bind fun x => x.value.relationshipMembers := by
  cases q with
  | entity _ => cases h
  | mutRef _ => cases h
  | read t =>
    have hkey : key = t := beq_iff_eq.mp h
    subst hkey
    exact ⟨ha, if_pos rfl, if_pos rfl⟩
  | entityParts facet parts =>
    have hany : parts.any (·.providesKey key) = true := h
    have hhas : w.has key e = true := by
      obtain ⟨part, hmem, hkey⟩ := List.any_eq_true.mp hany
      have hread : part = .read key := by
        cases part with
        | read t => exact congrArg QueryPart.read (beq_iff_eq.mp hkey).symm
        | _ => cases hkey
      subst hread
      refine accepts_iff.mp ha key (List.mem_append_right _ ?_)
      exact List.mem_filterMap.mpr ⟨_, hmem, rfl⟩
    have hfound : ∀ {β : Type} (y : Option β),
        parts.findSome? (fun part => if part.providesKey key then y else none) = y := by
      intro β y
      rw [List.findSome?_ite, hany, if_pos rfl]
    exact ⟨hhas, hfound _, hfound _⟩

namespace SystemParam

/-- A row of a query, plain or outer, carries what its shape and its filter ask for. -/
def Held (w : World α) : SystemParam → ParamState → Prop
  | .query q f, s => ∃ e, s = .row e ∧ q.accepts w e = true ∧ f.matchesRow w e = true
  | .outer q f, s => ∀ e, s = .row e → q.accepts w e = true ∧ f.matchesRow w e = true
  | _, _ => True

def Provided (before : Params) (p : SystemParam) : Prop :=
  ∀ key ∈ p.boundKeyTypes ++ p.inKeyTypes, ∃ other ∈ before, other.providesKey key = true

theorem held_of_mem_states (hp : w.Present schema) {p : SystemParam} {s : ParamState}
    (h : s ∈ p.states w) : p.Held w s := by
  cases p with
  | query q f =>
    obtain ⟨e, he, rfl⟩ := List.mem_map.mp h
    have hmatches := ((mem_filteredRows_extent hp q f e).mp he).2
    exact ⟨e, rfl, q.accepts_of_mem_filteredRows hp he, hmatches⟩
  | outer q f =>
    rintro e rfl
    have he : e ∈ filteredRows w q f := by simpa [states] using h
    have hmatches := ((mem_filteredRows_extent hp q f e).mp he).2
    exact ⟨q.accepts_of_mem_filteredRows hp he, hmatches⟩
  | _ => trivial

theorem held_of_mem_statesFromCandidates (hp : w.Present schema) {q : QueryParam} {f : QueryFilter}
    {candidates : List Entity} {s : ParamState}
    (h : s ∈ (query q f).statesFromCandidates w candidates) : (query q f).Held w s := by
  obtain ⟨e, rfl, -, haccepts, hmatches⟩ := (Params.mem_statesFromCandidates hp).mp h
  exact ⟨e, rfl, haccepts, hmatches⟩

theorem Held.provides {p : SystemParam} {s : ParamState} (h : p.Held w s) {key : TypeId}
    (hkey : p.providesKey key = true) : ∃ e, w.has key e = true ∧
      p.providedKey w s key = some (w.fingerprintOn key e) ∧
      p.providedMembers w s key = (w.cell? key e).bind fun x => x.value.relationshipMembers := by
  cases p with
  | query q f =>
    obtain ⟨e, rfl, haccepts, -⟩ := h
    exact ⟨e, QueryParam.provides_of_accepts hkey haccepts⟩
  | _ => cases hkey

theorem SingleKey.joins {p : SystemParam} {key : TypeId} (h : p.SingleKey key) :
    p.boundKeyTypes ++ p.inKeyTypes = [key] := by
  cases h with
  | membership hin hbound =>
    rw [boundKeyTypes, inKeyTypes, hin, hbound]
    rfl
  | equality hin hbound =>
    rw [boundKeyTypes, inKeyTypes, hin, hbound]
    rfl

theorem SingleKey.provided_iff {p : SystemParam} {key : TypeId} (h : p.SingleKey key)
    {before : Params} : Provided before p ↔ ∃ other ∈ before, other.providesKey key = true := by
  rw [Provided, h.joins]
  constructor
  · exact fun hall => hall key (List.mem_singleton_self key)
  · intro hprovider key' hkey'
    rwa [List.mem_singleton.mp hkey']

end SystemParam

namespace Params

open SystemParam

/-- What the joins of a tuple read of the world: a fingerprint on every key that must be equal, and
a strictly ascending member list on every inverse. -/
structure Joinable (w : World α) (ps : Params) : Prop where
  fingerprinted : ∀ p ∈ ps, ∀ key ∈ p.boundKeyTypes, ∀ e, w.has key e = true →
    ∃ v, w.fingerprintOn key e = some v
  listed : ∀ p ∈ ps, ∀ key ∈ p.inKeyTypes, ∀ e x, w.cell? key e = some x →
    ∃ members, x.value = .members members ∧ members.Pairwise (· < ·)

section Lookups

variable {others : Picked} {key : TypeId}

theorem provided_eq_none_of_silent {β : Type} {provide : SystemParam → ParamState → Option β}
    (hprovide : ∀ p s, p.providesKey key = false → provide p s = none)
    (h : ∀ x ∈ others, x.1.providesKey key = false) : provided others provide = none :=
  List.findSome?_eq_none_iff.mpr fun x hx => hprovide x.1 x.2 (h x hx)

/-- The first held row whose shape reads the key decides what is provided. -/
theorem exists_provided (hheld : ∀ x ∈ others, x.1.Held w x.2)
    (hprovider : ∃ x ∈ others, x.1.providesKey key = true) : ∃ e, w.has key e = true ∧
      provided others (fun p s => p.providedKey w s key) = some (w.fingerprintOn key e) ∧
      ((∃ members, (w.cell? key e).bind (fun x => x.value.relationshipMembers) = some members) →
        provided others (fun p s => p.providedMembers w s key) =
          (w.cell? key e).bind fun x => x.value.relationshipMembers) := by
  induction others with
  | nil =>
    obtain ⟨x, hx, -⟩ := hprovider
    cases hx
  | cons y others ih =>
    by_cases hy : y.1.providesKey key = true
    · obtain ⟨e, hhas, hkey, hmembers⟩ := (hheld y List.mem_cons_self).provides hy
      refine ⟨e, hhas, ?_, ?_⟩
      · rw [provided, List.findSome?_cons, hkey]
      · rintro ⟨members, hlist⟩
        rw [provided, List.findSome?_cons, hmembers, hlist]
    · have hsilent := provided_eq_none (w := w) (s := y.2) (Bool.eq_false_iff.mpr hy)
      have hrest : ∃ x ∈ others, x.1.providesKey key = true := by
        obtain ⟨x, hx, hkey⟩ := hprovider
        rcases List.mem_cons.mp hx with rfl | hx
        · exact absurd hkey hy
        · exact ⟨x, hx, hkey⟩
      obtain ⟨e, hhas, hkey, hmembers⟩ := ih (fun x hx => hheld x (List.mem_cons_of_mem _ hx)) hrest
      refine ⟨e, hhas, ?_, fun hlist => ?_⟩
      · rw [provided, List.findSome?_cons, hsilent.1]
        exact hkey
      · rw [provided, List.findSome?_cons, hsilent.2]
        exact hmembers hlist

variable {ps : Params} {p : SystemParam}

theorem Joinable.providedKey (hj : Joinable w ps) (hmem : p ∈ ps) (hkey : key ∈ p.boundKeyTypes)
    (hheld : ∀ x ∈ others, x.1.Held w x.2)
    (hprovider : ∃ x ∈ others, x.1.providesKey key = true) :
    ∃ v, provided others (fun p s => p.providedKey w s key) = some (some v) := by
  obtain ⟨e, hhas, hfound, -⟩ := exists_provided hheld hprovider
  obtain ⟨v, hv⟩ := hj.fingerprinted p hmem key hkey e hhas
  exact ⟨v, by rw [hfound, hv]⟩

theorem Joinable.providedMembers (hj : Joinable w ps) (hmem : p ∈ ps) (hkey : key ∈ p.inKeyTypes)
    (hheld : ∀ x ∈ others, x.1.Held w x.2)
    (hprovider : ∃ x ∈ others, x.1.providesKey key = true) :
    ∃ members, provided others (fun p s => p.providedMembers w s key) = some members ∧
      members.Pairwise (· < ·) := by
  obtain ⟨e, hhas, -, hfound⟩ := exists_provided hheld hprovider
  obtain ⟨x, hx⟩ := (World.has_iff w key e).mp hhas
  obtain ⟨members, hvalue, hsorted⟩ := hj.listed p hmem key hkey e x hx
  have hlist : (w.cell? key e).bind (fun x => x.value.relationshipMembers) = some members := by
    rw [hx, Option.bind_some, hvalue]
    rfl
  exact ⟨members, (hfound ⟨members, hlist⟩).trans hlist, hsorted⟩

end Lookups

section Checks

variable {ps : Params} {p : SystemParam} {s : ParamState} {others : Picked}

theorem exists_provider_of_provided {key : TypeId} (h : Provided (others.map Prod.fst) p)
    (hkey : key ∈ p.boundKeyTypes ++ p.inKeyTypes) : ∃ x ∈ others, x.1.providesKey key = true := by
  obtain ⟨_, hother, hprovides⟩ := h key hkey
  obtain ⟨x, hx, rfl⟩ := List.mem_map.mp hother
  exact ⟨x, hx, hprovides⟩

/-- A held row carries a fingerprint for each of its keys. -/
theorem Joinable.boundKeys (hj : Joinable w ps) (hmem : p ∈ ps) (hheld : p.Held w s)
    {b : TypeId × Option Fingerprint} (hb : b ∈ p.boundKeys w s) : ∃ v, b.2 = some v := by
  have hkeys := hj.fingerprinted p hmem b.1 (mem_boundKeyTypes hb)
  have hmatched : ∀ {f : QueryFilter} {e : Entity}, f.matchesRow w e = true →
      b ∈ f.boundKeys w e → w.has b.1 e = true ∧ b.2 = w.fingerprintOn b.1 e := by
    intro f e hmatches hb
    obtain ⟨hkey, hfingerprint⟩ := QueryFilter.mem_boundKeys.mp hb
    have hpresent := QueryFilter.bound_subset_present hkey
    exact ⟨(QueryFilter.matchesRow_iff.mp hmatches).1 _ hpresent, hfingerprint⟩
  have hrow : ∃ e, w.has b.1 e = true ∧ b.2 = w.fingerprintOn b.1 e := by
    cases p with
    | query q f =>
      obtain ⟨e, rfl, -, hmatches⟩ := hheld
      exact ⟨e, hmatched hmatches hb⟩
    | outer q f =>
      cases s with
      | row e => exact ⟨e, hmatched (hheld e rfl).2 hb⟩
      | _ => cases hb
    | _ => cases hb
  obtain ⟨e, hhas, hfingerprint⟩ := hrow
  obtain ⟨v, hv⟩ := hkeys e hhas
  exact ⟨v, hfingerprint.trans hv⟩

/-- The checks of a held row beside the held providers of its keys are decided. -/
theorem Joinable.exists_bindingMatches (hj : Joinable w ps) {state : List ParamState}
    (hlength : ps.length ≤ state.length) (hheld : ∀ x ∈ ps.zip state, x.1.Held w x.2)
    (hproviders : ∀ p others, (p, others) ∈ ps.others → Provided others p) :
    ∃ b, bindingMatches w ps state = some b := by
  have hprovided : ∀ x others, (x, others) ∈ (ps.zip state).others →
      Provided (others.map Prod.fst) x.1 := by
    intro x others hx
    obtain ⟨a, b, hsplit, rfl⟩ := List.mem_others.mp hx
    have hps : ps = a.map Prod.fst ++ x.1 :: b.map Prod.fst := by
      rw [← List.map_fst_zip hlength, hsplit, List.map_append]
      rfl
    rw [List.map_append]
    exact hproviders x.1 _ (List.mem_others.mpr ⟨_, _, hps, rfl⟩)
  refine List.exists_checkAll fun check hcheck => ?_
  have hothers : ∀ x others, (x, others) ∈ (ps.zip state).others → x.1 ∈ ps ∧ x.1.Held w x.2 ∧
      ∀ y ∈ others, y.1.Held w y.2 := by
    intro x others hx
    obtain ⟨a, b, hsplit, rfl⟩ := List.mem_others.mp hx
    have hin : x ∈ ps.zip state := List.mem_of_mem_others hx
    refine ⟨(List.of_mem_zip hin).1, hheld x hin, fun y hy => hheld y ?_⟩
    rw [hsplit]
    rcases List.mem_append.mp hy with hy | hy
    · exact List.mem_append_left _ hy
    · exact List.mem_append_right _ (List.mem_cons_of_mem _ hy)
  simp only [bindingChecks, List.mem_append, List.mem_flatMap, List.mem_map] at hcheck
  rcases hcheck with (⟨⟨x, others⟩, hx, b, hb, rfl⟩ | ⟨⟨x, others⟩, hx, m, hm, rfl⟩) |
    ⟨⟨x, others⟩, hx, key, hkey, rfl⟩
  all_goals
    obtain ⟨hmem, hrow, hrest⟩ := hothers x others hx
    have hproviders := hprovided x others hx
  · obtain ⟨own, hown⟩ := hj.boundKeys hmem hrow hb
    have hkey := mem_boundKeyTypes hb
    have hprovider := exists_provider_of_provided hproviders (List.mem_append_left _ hkey)
    obtain ⟨v, hv⟩ := hj.providedKey hmem hkey hrest hprovider
    simp [boundCheck, hown, hv]
  · have hkey := mem_inKeyTypes hm
    have hprovider := exists_provider_of_provided hproviders (List.mem_append_right _ hkey)
    obtain ⟨members, hmembers, -⟩ := hj.providedMembers hmem hkey hrest hprovider
    simp [memberCheck, hmembers]
  · have hbound := absentKeys_subset hkey
    have hprovider := exists_provider_of_provided hproviders (List.mem_append_left _ hbound)
    obtain ⟨v, hv⟩ := hj.providedKey hmem hbound hrest hprovider
    simp [absentCheck, hv]

end Checks

section Totality

variable {picked : Picked} {p : SystemParam}

theorem exists_pickable {ps : Params} (hj : Joinable w ps) (hmem : p ∈ ps) (rows : List ParamState)
    (hheld : ∀ x ∈ picked, x.1.Held w x.2)
    (hprovided : p.pairExpandable = true → Provided (picked.map Prod.fst) p) :
    ∃ offered, pickable w p rows picked = some offered := by
  by_cases hexpand : p.pairExpandable = true
  · obtain ⟨key, hkey⟩ := singleKey_of_pairExpandable hexpand
    have hjoin : key ∈ p.boundKeyTypes ++ p.inKeyTypes := by
      rw [hkey.joins]
      exact List.mem_singleton_self key
    have hprovider := exists_provider_of_provided (hprovided hexpand) hjoin
    rw [pickable, if_pos hexpand]
    cases hkey with
    | @membership q f hin hbound =>
      have hjoins : key ∈ (query q f).inKeyTypes := by rw [inKeyTypes, hin]; exact List.mem_cons_self
      obtain ⟨members, hmembers, -⟩ := hj.providedMembers hmem hjoins hheld hprovider
      exact ⟨_, pairRows_membership hin hmembers⟩
    | @equality q f hin hbound =>
      have hjoins : key ∈ (query q f).boundKeyTypes := by
        rw [boundKeyTypes, hbound]
        exact List.mem_cons_self
      obtain ⟨v, hv⟩ := hj.providedKey hmem hjoins hheld hprovider
      exact ⟨_, pairRows_equality hin hbound hv⟩
  · exact ⟨rows, if_neg hexpand⟩

/-- A join that is offered rows follows a parameter that reads its key. -/
theorem provided_of_pickable {rows offered : List ParamState}
    (h : pickable w p rows picked = some offered) (hexpand : p.pairExpandable = true) :
    Provided (picked.map Prod.fst) p := by
  obtain ⟨key, hkey⟩ := singleKey_of_pairExpandable hexpand
  rw [hkey.provided_iff]
  by_contra hnone
  have hsilent : ∀ x ∈ picked, x.1.providesKey key = false := by
    intro x hx
    by_contra hprovides
    exact hnone ⟨x.1, List.mem_map_of_mem hx, by simpa using hprovides⟩
  cases hkey with
  | membership hin hbound =>
    obtain ⟨members, hmembers, -⟩ := pickable_membership hin hbound h
    rw [provided_eq_none_of_silent (fun _ _ hkey => (provided_eq_none hkey).2) hsilent] at hmembers
    cases hmembers
  | equality hin hbound =>
    obtain ⟨v, hv, -⟩ := pickable_equality hin hbound h
    rw [provided_eq_none_of_silent (fun _ _ hkey => (provided_eq_none hkey).1) hsilent] at hv
    cases hv

/-- A parameter enters the product with rows that carry what it asks for. -/
def Enters (w : World α) (x : SystemParam × List ParamState) : Prop :=
  x.1.pairExpandable = false → ∀ s ∈ x.2, x.1.Held w s

theorem held_of_pickable (hp : w.Present schema) {rows offered : List ParamState}
    (henters : Enters w (p, rows)) (h : pickable w p rows picked = some offered) {s : ParamState}
    (hs : s ∈ offered) : p.Held w s := by
  by_cases hexpand : p.pairExpandable = true
  · obtain ⟨key, hkey⟩ := singleKey_of_pairExpandable hexpand
    cases hkey with
    | membership hin hbound =>
      obtain ⟨members, -, rfl⟩ := pickable_membership hin hbound h
      exact held_of_mem_statesFromCandidates hp hs
    | equality hin hbound =>
      obtain ⟨v, -, rfl⟩ := pickable_equality hin hbound h
      exact held_of_mem_statesFromCandidates hp hs
  · rw [pickable, if_neg hexpand] at h
    cases h
    exact henters (Bool.eq_false_iff.mpr hexpand) s hs

theorem Joined.held (hp : w.Present schema) : ∀ {rest : List (SystemParam × List ParamState)}
    {picked : Picked} {state : List ParamState}, (∀ x ∈ rest, Enters w x) →
      Joined w picked rest state → ∀ x ∈ (rest.map Prod.fst).zip state, x.1.Held w x.2
  | [], _, _, _, _, _, hx => nomatch hx
  | (p, rows) :: rest, picked, _, henters, ⟨s, tail, offered, rfl, hoffered, hs, htail⟩, x, hx => by
    rcases List.mem_cons.mp hx with rfl | hx
    · exact held_of_pickable hp (henters _ List.mem_cons_self) hoffered hs
    · exact htail.held hp (fun x hx => henters x (List.mem_cons_of_mem _ hx)) x hx

/-- A product is built exactly if every parameter is offered rows after whatever is picked before
it. -/
theorem isSome_product_iff {rest : List (SystemParam × List ParamState)} {picked : Picked} :
    (∃ out, product w picked rest = some out) ↔ ∀ a p rows b, rest = a ++ (p, rows) :: b →
      ∀ state, Joined w picked a state →
        ∃ offered, pickable w p rows (picked ++ (a.map Prod.fst).zip state) = some offered := by
  induction rest generalizing picked with
  | nil =>
    constructor
    · intro _ a p rows b h
      exact absurd h.symm (List.append_ne_nil_of_right_ne_nil _ (List.cons_ne_nil _ _))
    · exact fun _ => ⟨[[]], rfl⟩
  | cons x rest ih =>
    obtain ⟨p₀, rows₀⟩ := x
    constructor
    · rintro ⟨out, hout⟩ a p rows b h state hjoined
      obtain ⟨offered₀, hoffered₀, hflat⟩ := product_cons.mp hout
      cases a with
      | nil =>
        obtain ⟨heq, -⟩ := List.cons.inj h
        cases heq
        exact ⟨offered₀, by simpa using hoffered₀⟩
      | cons y a =>
        obtain ⟨rfl, rfl⟩ := List.cons.inj h
        obtain ⟨s, tail, offered, rfl, hoffered, hs, htail⟩ := hjoined
        cases hoffered₀.symm.trans hoffered
        obtain ⟨lists, hlists⟩ := List.eq_some_of_flatMap? hflat s hs
        obtain ⟨tails, htails, -⟩ := Option.map_eq_some_iff.mp hlists
        have hpicked := ih.mp ⟨tails, htails⟩ a p rows b rfl tail htail
        rwa [List.append_assoc] at hpicked
    · intro h
      obtain ⟨offered, hoffered⟩ := h [] p₀ rows₀ rest rfl [] rfl
      have hhead : pickable w p₀ rows₀ picked = some offered := by simpa using hoffered
      have htails : ∀ s ∈ offered, ∃ lists,
          ((product w (picked ++ [(p₀, s)]) rest).map fun tails => tails.map (s :: ·)) =
            some lists := by
        intro s hs
        have hrest : ∃ out, product w (picked ++ [(p₀, s)]) rest = some out := by
          refine ih.mpr fun a p rows b hsplit state hjoined => ?_
          have hpicked := h ((p₀, rows₀) :: a) p rows b (congrArg _ hsplit) (s :: state)
            ⟨s, state, offered, rfl, hhead, hs, hjoined⟩
          rwa [List.append_assoc]
        obtain ⟨out, hout⟩ := hrest
        exact ⟨_, by rw [hout]; rfl⟩
      obtain ⟨out, hout⟩ := List.flatMap?_eq_some htails
      exact ⟨out, product_cons.mpr ⟨offered, hhead, hout⟩⟩

theorem enters_startRows (hp : w.Present schema) (ps : Params) : ∀ x ∈ startRows w ps, Enters w x := by
  intro x hx hunbound s hs
  obtain ⟨p, -, rfl⟩ := List.mem_map.mp hx
  dsimp only at hunbound hs
  rw [hunbound, if_neg Bool.false_ne_true] at hs
  exact held_of_mem_states hp hs

def ProvidersFirst (ps : Params) : Prop :=
  ∀ before p after, ps = before ++ p :: after → Provided before p

/-- Where every key has a provider among the other parameters, planning in full fails in the product
or not at all. -/
theorem exists_states_iff (hp : w.Present schema) {ps : Params} (hj : Joinable w ps)
    (hproviders : ∀ p others, (p, others) ∈ ps.others → Provided others p) :
    (∃ out, states w ps = some out) ↔ ∃ out, product w [] (startRows w ps) = some out := by
  constructor
  · rintro ⟨out, hout⟩
    obtain ⟨full, hfull, -⟩ := Option.bind_eq_some_iff.mp hout
    exact ⟨full, hfull⟩
  · rintro ⟨full, hfull⟩
    by_cases hprune : needsPrune ps = true
    · have hdecided : ∀ state ∈ full, ∃ b, bindingMatches w ps state = some b := by
        intro state hstate
        have hjoined := (mem_product hfull state).mp hstate
        have hlength : ps.length ≤ state.length := by
          rw [hjoined.length_eq, startRows, List.length_map]
        have hheld := hjoined.held hp (enters_startRows hp ps)
        rw [map_fst_startRows] at hheld
        exact hj.exists_bindingMatches hlength hheld hproviders
      obtain ⟨out, hout⟩ := List.filter?_eq_some hdecided
      exact ⟨out, Option.bind_eq_some_iff.mpr ⟨full, hfull, by rw [if_pos hprune]; exact hout⟩⟩
    · exact ⟨full, Option.bind_eq_some_iff.mpr ⟨full, hfull, if_neg hprune⟩⟩

theorem ProvidersFirst.others {ps : Params} (h : ProvidersFirst ps) {p : SystemParam}
    {others : List SystemParam} (hmem : (p, others) ∈ ps.others) : Provided others p := by
  obtain ⟨before, after, hps, rfl⟩ := List.mem_others.mp hmem
  intro key hkey
  obtain ⟨other, hother, hprovides⟩ := h before p after hps key hkey
  exact ⟨other, List.mem_append_left _ hother, hprovides⟩

instance (before : Params) (p : SystemParam) : Decidable (Provided before p) :=
  inferInstanceAs (Decidable (∀ key ∈ p.boundKeyTypes ++ p.inKeyTypes,
    ∃ other ∈ before, other.providesKey key = true))

theorem providersFirst_iff {ps : Params} : ProvidersFirst ps ↔
    ∀ i < ps.length, ∀ p ∈ ps[i]?, Provided (ps.take i) p := by
  constructor
  · intro h i hi p hp
    obtain ⟨_, rfl⟩ := List.getElem?_eq_some_iff.mp hp
    refine h (ps.take i) ps[i] (ps.drop (i + 1)) ?_
    rw [← List.drop_eq_getElem_cons hi, List.take_append_drop]
  · rintro h before p after rfl
    have hlength : before.length < (before ++ p :: after).length := by simp
    have hprovided := h before.length hlength p (by simp)
    rwa [List.take_left] at hprovided

instance (ps : Params) : Decidable (ProvidersFirst ps) := decidable_of_iff _ providersFirst_iff.symm

/-- A tuple whose providers come first is planned without a panic. -/
theorem exists_product (hp : w.Present schema) {ps : Params} (hj : Joinable w ps)
    (hfirst : ProvidersFirst ps) {rest : List (SystemParam × List ParamState)}
    (hrest : rest.map Prod.fst = ps) (henters : ∀ x ∈ rest, Enters w x) :
    ∃ out, product w [] rest = some out := by
  refine isSome_product_iff.mpr fun a p rows b hsplit state hjoined => ?_
  have hps : ps = a.map Prod.fst ++ p :: b.map Prod.fst := by
    rw [← hrest, hsplit, List.map_append]
    rfl
  have hbefore : ((a.map Prod.fst).zip state).map Prod.fst = a.map Prod.fst := by
    refine List.map_fst_zip ?_
    rw [hjoined.length_eq, List.length_map]
  have hheld := hjoined.held hp fun x hx => henters x (hsplit ▸ List.mem_append_left _ hx)
  refine exists_pickable hj ?_ rows hheld fun _ => ?_
  · rw [hps]
    exact List.mem_append_right _ List.mem_cons_self
  · rw [List.nil_append, hbefore]
    exact hfirst _ p _ hps

end Totality
end Params
end Porridge
