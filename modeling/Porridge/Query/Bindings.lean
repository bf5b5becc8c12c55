import Porridge.Query.Pairs

/-! Bindings that registration accepts: when planning gets past the joins of a tuple. -/
namespace Porridge

variable {α : Type} {C : Components α} {w : World α} {schema : Option (List TypeId)}

namespace Params

open SystemParam

/-- Accepted parameters find one provider of each key among the others. -/
theorem one_provider_of_valid {ps : Params} (h : validateBindings ps = .ok ()) {p : SystemParam}
    {others : List SystemParam} (hmem : (p, others) ∈ ps.others) {key : TypeId}
    (hkey : key ∈ p.boundKeyTypes ++ p.inKeyTypes) : others.countP (·.providesKey key) = 1 := by
  have hproviders : ps.others.forM (fun p => (p.1.boundKeyTypes ++ p.1.inKeyTypes).forM fun key =>
      if p.2.countP (·.providesKey key) = 1 then Except.ok ()
      else Except.error (BindingError.providers key (p.2.countP (·.providesKey key)))) =
        Except.ok () := by
    unfold validateBindings at h
    cases hlocal : List.forM ps SystemParam.validateLocal with
    | ok _ =>
      rw [hlocal] at h
      exact h
    | error error =>
      rw [hlocal] at h
      cases h
  have hone := List.forM_eq_ok.mp (List.forM_eq_ok.mp hproviders _ hmem) key hkey
  split_ifs at hone with hcount
  exact hcount

theorem provided_of_valid {ps : Params} (h : validateBindings ps = .ok ()) {p : SystemParam}
    {others : List SystemParam} (hmem : (p, others) ∈ ps.others) : Provided others p := by
  intro key hkey
  have hone := one_provider_of_valid h hmem hkey
  exact List.countP_pos_iff.mp (by rw [hone]; exact Nat.one_pos)

/-- A single-key join that no parameter before it provides for. -/
def Misplaced (before : Params) (p : SystemParam) : Prop :=
  p.pairExpandable = true ∧ ¬ Provided before p

/-- A choice of states: for a join a row that its provider pairs with, for any other parameter one
of the rows it enters with. -/
def Chosen (w : World α) (rows : SystemParam → List ParamState) :
    Picked → Params → List ParamState → Prop
  | _, [], state => state = []
  | picked, p :: ps, state => ∃ s tail, state = s :: tail ∧
      (if p.pairExpandable then p.Held w s ∧ Passes w picked p s else s ∈ rows p) ∧
      Chosen w rows (picked ++ [(p, s)]) ps tail

/-- Planning, over a hint or in full. -/
def planned (C : Components α) (w : World α) (ps : Params) :
    Option (List Entity) → Option (List (List ParamState))
  | none => states w ps
  | some hint => statesHinted C w ps hint

def entering (C : Components α) (w : World α) (ps : Params) (hint : Option (List Entity))
    (p : SystemParam) : List ParamState :=
  match hint with
  | none => p.states w
  | some hint =>
    if 1 < ps.countP (isLarge w) ∨ tinyDirty w ps (expandHint C w ps hint) = true then p.states w
    else hintedRows w p (expandHint C w ps hint)

section Offers

variable {picked : Picked} {p : SystemParam} {rows : List ParamState} {s : ParamState}

/-- What a parameter is offered, said without its pair list. -/
theorem exists_offered_iff (hw : w.Coherent) (hp : w.Present schema) :
    (∃ offered, pickable w p rows picked = some offered ∧ s ∈ offered) ↔
      if p.pairExpandable then p.Held w s ∧ Passes w picked p s else s ∈ rows := by
  by_cases hexpand : p.pairExpandable = true
  · rw [if_pos hexpand]
    obtain ⟨key, hkey⟩ := singleKey_of_pairExpandable hexpand
    constructor
    · rintro ⟨offered, hoffered, hs⟩
      have hpass := passes_of_offered hw hp hkey hoffered hs []
      rw [List.append_nil] at hpass
      refine ⟨held_of_pickable hp (fun hnone => ?_) hoffered hs, hpass⟩
      cases hexpand.symm.trans hnone
    · rintro ⟨hheld, hpass⟩
      rw [pickable, if_pos hexpand]
      cases hkey with
      | @membership q f hin hbound =>
        obtain ⟨e, rfl, hrow⟩ := hheld
        have hcheck := hpass.members (key, e) (by simp [inKeys, QueryFilter.inKeys, hin])
        obtain ⟨members, hmembers, he⟩ := memberCheck_eq_true.mp hcheck
        exact ⟨_, pairRows_membership hin hmembers,
          (mem_statesFromCandidates hp).mpr ⟨e, rfl, he, hrow⟩⟩
      | @equality q f hin hbound =>
        obtain ⟨e, rfl, hrow⟩ := hheld
        have hown : (key, w.fingerprintOn key e) ∈ f.boundKeys w e :=
          QueryFilter.mem_boundKeys.mpr ⟨by rw [hbound]; exact List.mem_singleton_self key, rfl⟩
        obtain ⟨v, hv, hfound⟩ := boundCheck_eq_true.mp (hpass.bound _ hown)
        have he := (hw.mem_fingerprintCandidates key v e).mpr hv
        exact ⟨_, pairRows_equality hin hbound hfound,
          (mem_statesFromCandidates hp).mpr ⟨e, rfl, he, hrow⟩⟩
  · rw [if_neg hexpand, pickable, if_neg hexpand]
    simp

theorem joined_iff_chosen (hw : w.Coherent) (hp : w.Present schema)
    {rows enter : SystemParam → List ParamState}
    (henter : ∀ p, p.pairExpandable = false → rows p = enter p) :
    ∀ {ps : Params} {picked : Picked} {state : List ParamState},
      Joined w picked (ps.map fun p => (p, rows p)) state ↔ Chosen w enter picked ps state
  | [], _, _ => Iff.rfl
  | p :: ps, picked, state => by
    have hoffered : ∀ s, (∃ offered, pickable w p (rows p) picked = some offered ∧ s ∈ offered) ↔
        if p.pairExpandable then p.Held w s ∧ Passes w picked p s else s ∈ enter p := by
      intro s
      rw [exists_offered_iff hw hp]
      split_ifs with hexpand
      · exact Iff.rfl
      · rw [henter p (Bool.eq_false_iff.mpr hexpand)]
    constructor
    · rintro ⟨s, tail, offered, rfl, hpicked, hs, htail⟩
      exact ⟨s, tail, rfl, (hoffered s).mp ⟨offered, hpicked, hs⟩,
        (joined_iff_chosen hw hp henter).mp htail⟩
    · rintro ⟨s, tail, rfl, hs, htail⟩
      obtain ⟨offered, hpicked, hin⟩ := (hoffered s).mpr hs
      exact ⟨s, tail, offered, rfl, hpicked, hin, (joined_iff_chosen hw hp henter).mpr htail⟩

end Offers

section Plans

variable {ps : Params}

/-- No choice of the parameters before a misplaced join reaches it. -/
def JoinsUnreached (w : World α) (rows : SystemParam → List ParamState) (ps : Params) : Prop :=
  ∀ before p after, ps = before ++ p :: after → Misplaced before p →
    ∀ state, ¬ Chosen w rows [] before state

/-- A product is built exactly if no choice reaches a misplaced join. -/
theorem exists_product_iff (hw : w.Coherent) (hp : w.Present schema) (hj : Joinable w ps)
    {rows enter : SystemParam → List ParamState}
    (henter : ∀ p, p.pairExpandable = false → rows p = enter p)
    (hheld : ∀ p ∈ ps, ∀ s ∈ enter p, p.Held w s) :
    (∃ out, product w [] (ps.map fun p => (p, rows p)) = some out) ↔ JoinsUnreached w enter ps := by
  have hfst : ∀ before : Params, (before.map fun p => (p, rows p)).map Prod.fst = before := by
    intro before
    rw [List.map_map]
    exact List.map_id before
  have hpicked : ∀ {before : Params} {state : List ParamState},
      Joined w [] (before.map fun p => (p, rows p)) state → (∀ p ∈ before, p ∈ ps) →
        (before.zip state).map Prod.fst = before ∧ ∀ x ∈ before.zip state, x.1.Held w x.2 := by
    intro before state hjoined hsub
    have hlength := hjoined.length_eq
    rw [List.length_map] at hlength
    have hrows := hjoined.held hp fun x hx hunbound s hs => by
      obtain ⟨p, hmem, rfl⟩ := List.mem_map.mp hx
      dsimp only at hunbound hs
      rw [henter p hunbound] at hs
      exact hheld p (hsub p hmem) s hs
    rw [hfst before] at hrows
    exact ⟨List.map_fst_zip hlength.symm.le, hrows⟩
  rw [isSome_product_iff]
  constructor
  · intro h before p after hsplit hmisplaced state hchosen
    have hjoined := (joined_iff_chosen hw hp henter).mpr hchosen
    obtain ⟨hbefore, -⟩ := hpicked hjoined fun p hp => hsplit ▸ List.mem_append_left _ hp
    obtain ⟨offered, hoffered⟩ := h (before.map fun p => (p, rows p)) p (rows p)
      (after.map fun p => (p, rows p)) (by rw [hsplit, List.map_append]; rfl) state hjoined
    have hprovided := provided_of_pickable hoffered hmisplaced.1
    rw [hfst before, List.nil_append, hbefore] at hprovided
    exact hmisplaced.2 hprovided
  · intro h a p _ b hsplit state hjoined
    obtain ⟨before, rest, hps, rfl, hrest⟩ := List.map_eq_append_iff.mp hsplit
    obtain ⟨p', after, rfl, heq, rfl⟩ := List.map_eq_cons_iff.mp hrest
    cases heq
    have hsub : ∀ p ∈ before, p ∈ ps := fun p hp => hps ▸ List.mem_append_left _ hp
    obtain ⟨hbefore, hrows⟩ := hpicked hjoined hsub
    rw [hfst before, List.nil_append]
    refine exists_pickable hj ?_ _ hrows fun hexpand => ?_
    · rw [hps]
      exact List.mem_append_right _ List.mem_cons_self
    · rw [hbefore]
      by_contra hnone
      exact h before p after hps ⟨hexpand, hnone⟩ state ((joined_iff_chosen hw hp henter).mp hjoined)

theorem held_of_mem_entering (hp : w.Present schema) {hint : Option (List Entity)}
    {p : SystemParam} {s : ParamState} (h : s ∈ entering C w ps hint p) : p.Held w s := by
  have hhinted : ∀ entities, s ∈ hintedRows w p entities → p.Held w s := by
    intro entities hs
    unfold hintedRows at hs
    split_ifs at hs
    · cases hs
    · cases p with
      | query q f => exact held_of_mem_statesFromCandidates hp hs
      | _ => exact held_of_mem_states hp hs
    · exact held_of_mem_states hp hs
  cases hint with
  | none => exact held_of_mem_states hp h
  | some hint =>
    unfold entering at h
    dsimp only at h
    split_ifs at h
    · exact held_of_mem_states hp h
    · exact hhinted _ h

/-- Accepted bindings are planned, in full or over a hint, exactly where no choice of the
parameters before a misplaced join reaches it. -/
theorem exists_planned_iff (hw : World.Reachable C w) (hj : Joinable w ps)
    (hvalid : validateBindings ps = .ok ()) (hint : Option (List Entity)) :
    (∃ out, planned C w ps hint = some out) ↔ JoinsUnreached w (entering C w ps hint) ps := by
  have hcoherent := World.coherent_of_reachable hw
  obtain ⟨schema, hp⟩ := World.present_of_reachable hw
  have hfull : ∀ enter : SystemParam → List ParamState, (∀ p, enter p = p.states w) →
      ((∃ out, states w ps = some out) ↔ JoinsUnreached w enter ps) := by
    intro enter henter
    rw [exists_states_iff hp hj fun p others hmem => provided_of_valid hvalid hmem]
    refine exists_product_iff hcoherent hp hj (fun p hunbound => ?_) fun p _ s hs => ?_
    · rw [hunbound, if_neg Bool.false_ne_true, henter]
    · rw [henter] at hs
      exact held_of_mem_states hp hs
  cases hint with
  | none => exact hfull _ fun _ => rfl
  | some hint =>
    unfold planned statesHinted
    dsimp only
    split_ifs with hlarge hdirty
    · refine hfull _ fun p => ?_
      rw [entering, if_pos (Or.inl hlarge)]
    · refine hfull _ fun p => ?_
      rw [entering, if_pos (Or.inr hdirty)]
    · have henter : ∀ p, hintedRows w p (expandHint C w ps hint) =
          entering C w ps (some hint) p := by
        intro p
        rw [entering, if_neg]
        exact not_or.mpr ⟨hlarge, hdirty⟩
      refine exists_product_iff hcoherent hp hj (fun p _ => henter p) fun p _ s hs => ?_
      exact held_of_mem_entering hp hs

/-- Without a misplaced join there is nothing to reach. -/
theorem joinsUnreached_of_providersFirst (h : ProvidersFirst ps) (rows : SystemParam → List ParamState) :
    JoinsUnreached w rows ps :=
  fun before p after hsplit hmisplaced => absurd (h before p after hsplit) hmisplaced.2

end Plans

theorem linked_planned : ∃ out, planned linking linked linkedTuple (some [3]) = some out := by
  have hvalid : validateBindings linkedTuple = .ok () := by decide
  have hfirst : ProvidersFirst linkedTuple := by decide
  exact (exists_planned_iff reachable_linked joinable_linked hvalid (some [3])).mpr
    (joinsUnreached_of_providersFirst hfirst _)

/-- A join ahead of its provider, and two joins that wait for each other. -/
def waitingTuple : Params :=
  [.query (.entityParts [] [.read 2]) (.whereKey (.eq 1)), .query (.entityParts [] [.read 1]) .unit]

def cyclicTuple : Params :=
  [.query (.entityParts [] [.read 2]) (.whereKey (.eq 1)),
    .query (.entityParts [] [.read 1]) (.whereKey (.eq 2))]

/-- Registration accepts both, and planning them panics even in an empty world. -/
theorem misplaced_accepted : World.Reachable linking World.new ∧
    (Joinable (World.new : World Nat) waitingTuple ∧ validateBindings waitingTuple = .ok () ∧
      states (World.new : World Nat) waitingTuple = none ∧
      statesHinted linking .new waitingTuple [] = none) ∧
    Joinable (World.new : World Nat) cyclicTuple ∧ validateBindings cyclicTuple = .ok () ∧
      states (World.new : World Nat) cyclicTuple = none ∧
      statesHinted linking .new cyclicTuple [] = none := by
  have hjoinable : ∀ ps, Joinable (World.new : World Nat) ps := by
    intro ps
    constructor
    · intro _ _ _ _ _ hhas
      cases hhas
    · intro _ _ _ _ _ _ hcell
      cases hcell
  exact ⟨.init World.machine_init_new, ⟨hjoinable _, by decide, by decide, by decide⟩,
    hjoinable _, by decide, by decide, by decide⟩

end Params
end Porridge
