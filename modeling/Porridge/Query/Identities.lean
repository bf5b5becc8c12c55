import Porridge.Lib.Codes
import Porridge.Query.Bindings
import Porridge.Query.Outer

/-! Invocation identities within one plan: when its states have different key lists. -/
namespace Porridge

variable {α : Type} {C : Components α} {w : World α}

namespace SystemParam

/-- The states that the parameter can have in a plan, by their kind. -/
def Shaped : SystemParam → ParamState → Prop
  | .query _ _, s => ∃ e, s = .row e
  | .outer _ _, s => s = .absent ∨ ∃ e, s = .row e
  | _, s => s = .unit

theorem Shaped.eq {p : SystemParam} {s t : ParamState} (hs : p.Shaped s) (ht : p.Shaped t)
    (h : s.keys = t.keys) : s = t := by
  cases p with
  | query q f =>
    obtain ⟨e, rfl⟩ := hs
    obtain ⟨e', rfl⟩ := ht
    exact congrArg _ (List.singleton_injective h)
  | outer q f =>
    rcases hs with rfl | ⟨e, rfl⟩ <;> rcases ht with rfl | ⟨e', rfl⟩
    · rfl
    · cases h
    · cases h
    · exact congrArg _ (List.singleton_injective h)
  | _ => exact Eq.trans hs (Eq.symm ht)

/-- Only an outer join can have states with key lists of different lengths. -/
theorem Shaped.outer {p : SystemParam} {s t : ParamState} (hs : p.Shaped s) (ht : p.Shaped t)
    (h : s.keys.length ≠ t.keys.length) : (∃ q f, p = .outer q f) ∧
      ((s = .absent ∧ ∃ e, t = .row e) ∨ (t = .absent ∧ ∃ e, s = .row e)) := by
  cases p with
  | query q f =>
    obtain ⟨e, rfl⟩ := hs
    obtain ⟨e', rfl⟩ := ht
    exact absurd rfl h
  | outer q f =>
    refine ⟨⟨q, f, rfl⟩, ?_⟩
    rcases hs with rfl | ⟨e, rfl⟩ <;> rcases ht with rfl | ⟨e', rfl⟩
    · exact absurd rfl h
    · exact .inl ⟨rfl, e', rfl⟩
    · exact .inr ⟨rfl, e, rfl⟩
    · exact absurd rfl h
  | _ =>
    cases hs
    cases ht
    exact absurd rfl h

end SystemParam

namespace Params

open SystemParam

/-- A choice of one of the world's rows for each query, and of a row or the absence for each outer
join, that agrees on every key. -/
def Fits (w : World α) (ps : Params) (state : List ParamState) : Prop :=
  Chosen w (·.states w) [] ps state ∧ AllPass w ps state

/-- One of the two picks has the outer join's row, and the other its absence. -/
def Clash (x y : SystemParam × ParamState) : Prop :=
  x.1 = y.1 ∧ ((x.2 = .absent ∧ ∃ e, y.2 = .row e) ∨ (y.2 = .absent ∧ ∃ e, x.2 = .row e))

/-- The choices name the same entities in the same order, and have different absences: they part at
an outer join and meet again after another one, and only parameters between the two provide keys
of either. -/
structure Shifted (ps : Params) (state state' : List ParamState) : Prop where
  keys : Params.keys state = Params.keys state'
  parts : ∃ l x m z r y m' z', ps.zip state = l ++ x :: (m ++ z :: r) ∧
    ps.zip state' = l ++ y :: (m' ++ z' :: r) ∧ Clash x y ∧ Clash z z' ∧
      ∀ key ∈ x.1.boundKeyTypes ++ z.1.boundKeyTypes, ∀ other ∈ l ++ r,
        other.1.providesKey key = false

section Choices

variable {schema : Option (List TypeId)} {rows : SystemParam → List ParamState}

theorem Chosen.forall₂ : ∀ {ps : Params} {picked : Picked} {state : List ParamState},
    Chosen w rows picked ps state → List.Forall₂ (fun p s =>
      if p.pairExpandable then p.Held w s else s ∈ rows p) ps state
  | [], _, _, h => by
    cases h
    exact .nil
  | p :: ps, picked, _, ⟨s, tail, rfl, hs, htail⟩ => by
    refine .cons ?_ (Chosen.forall₂ htail)
    split_ifs at hs ⊢ with hexpand
    · exact hs.1
    · exact hs

theorem shaped_of_mem_states {p : SystemParam} {s : ParamState} (h : s ∈ p.states w) :
    p.Shaped s := by
  cases p with
  | query q f =>
    obtain ⟨e, -, rfl⟩ := List.mem_map.mp h
    exact ⟨e, rfl⟩
  | outer q f =>
    rcases List.mem_append.mp h with hrow | habsent
    · obtain ⟨e, -, rfl⟩ := List.mem_map.mp hrow
      exact .inr ⟨e, rfl⟩
    · exact .inl (List.mem_singleton.mp habsent)
  | _ => exact List.mem_singleton.mp h

theorem Chosen.shaped (hrows : ∀ p, p.pairExpandable = false → ∀ s ∈ rows p, p.Shaped s)
    {ps : Params} {picked : Picked} {state : List ParamState} (h : Chosen w rows picked ps state) :
    List.Forall₂ Shaped ps state := by
  refine h.forall₂.imp fun p s hs => ?_
  split_ifs at hs with hexpand
  · cases p with
    | query q f =>
      obtain ⟨e, rfl, -⟩ := hs
      exact ⟨e, rfl⟩
    | _ => cases hexpand
  · exact hrows p (Bool.eq_false_iff.mpr hexpand) s hs

/-- Different choices with one key list clash at two outer joins at least. -/
theorem exists_clashes {ps : Params} {state state' : List ParamState}
    (hs : List.Forall₂ Shaped ps state) (hs' : List.Forall₂ Shaped ps state')
    (hkeys : keys state = keys state') (hne : state ≠ state') :
    ∃ l x m z r y m' z', ps.zip state = l ++ x :: (m ++ z :: r) ∧
      ps.zip state' = l ++ y :: (m' ++ z' :: r) ∧ Clash x y ∧ Clash z z' ∧
        (∃ q f, x.1 = .outer q f) ∧ ∃ q f, z.1 = .outer q f := by
  have hzip : ∀ {ps : Params} {state : List ParamState}, List.Forall₂ Shaped ps state →
      (ps.zip state).flatMap (fun x => x.2.keys) = keys state ∧ (ps.zip state).map Prod.snd = state := by
    intro ps state h
    induction h with
    | nil => exact ⟨rfl, rfl⟩
    | cons _ _ ih =>
      constructor
      · rw [List.zip_cons_cons, List.flatMap_cons, ih.1]
        rfl
      · rw [List.zip_cons_cons, List.map_cons, ih.2]
  have hrelated : List.Forall₂ (fun x y : SystemParam × ParamState =>
      x.1 = y.1 ∧ x.1.Shaped x.2 ∧ y.1.Shaped y.2) (ps.zip state) (ps.zip state') := by
    clear hkeys hne
    induction hs generalizing state' with
    | nil =>
      cases hs'
      exact .nil
    | cons hshaped _ ih =>
      cases hs' with
      | cons hshaped' hrest' => exact .cons ⟨rfl, hshaped, hshaped'⟩ (ih hrest')
  have hdiffer : ps.zip state ≠ ps.zip state' := by
    intro heq
    apply hne
    rw [← (hzip hs).2, heq, (hzip hs').2]
  obtain ⟨l, x, m, z, r, y, m', z', hl, hl', hxy, hzz, -, hx, hz⟩ :=
    List.exists_clashes (k := fun x : SystemParam × ParamState => x.2.keys)
      (fun x y hxy hcode => by
        obtain ⟨p, s⟩ := x
        obtain ⟨p', t⟩ := y
        obtain ⟨hp, hs, ht⟩ := hxy
        dsimp only at hp hs ht
        subst hp
        exact congrArg (Prod.mk p) (hs.eq ht hcode))
      hrelated ((hzip hs).1.trans (hkeys.trans (hzip hs').1.symm)) hdiffer
  have hclash : ∀ {x y : SystemParam × ParamState}, x.1 = y.1 ∧ x.1.Shaped x.2 ∧ y.1.Shaped y.2 →
      x.2.keys.length ≠ y.2.keys.length → Clash x y ∧ ∃ q f, x.1 = .outer q f := by
    rintro ⟨p, s⟩ ⟨p', t⟩ ⟨hp, hs, ht⟩ hlength
    dsimp only at hp hs ht hlength
    subst hp
    obtain ⟨houter, hstates⟩ := hs.outer ht hlength
    exact ⟨⟨rfl, hstates⟩, houter⟩
  obtain ⟨hclash₁, houter₁⟩ := hclash hxy hx
  obtain ⟨hclash₂, houter₂⟩ := hclash hzz hz
  exact ⟨l, x, m, z, r, y, m', z', hl, hl', hclash₁, hclash₂, houter₁, houter₂⟩

end Choices

section Providers

variable {ps : Params} {state state' : List ParamState}

/-- The only provider of a key decides what the others provide. -/
theorem provided_eq_of_mem {others : Picked} {key : TypeId}
    (hcount : (others.map Prod.fst).countP (·.providesKey key) = 1)
    {x : SystemParam × ParamState} (hx : x ∈ others) (hkey : x.1.providesKey key = true) :
    provided others (fun p s => p.providedKey w s key) = x.1.providedKey w x.2 key := by
  obtain ⟨a, b, rfl⟩ := List.append_of_mem hx
  rw [List.map_append, List.map_cons, List.countP_append, List.countP_cons, if_pos hkey] at hcount
  have hsilent : ∀ y ∈ a ++ b, y.1.providesKey key = false := by
    intro y hy
    have hzero : ((a ++ b).map Prod.fst).countP (·.providesKey key) = 0 := by
      rw [List.map_append, List.countP_append]
      omega
    exact Bool.eq_false_iff.mpr (List.countP_eq_zero.mp hzero y.1 (List.mem_map_of_mem hy))
  have hnone : ∀ c : Picked, (∀ y ∈ c, y ∈ a ++ b) →
      c.findSome? (fun y => y.1.providedKey w y.2 key) = none := fun c hc =>
    List.findSome?_eq_none_iff.mpr fun y hy => (provided_eq_none (hsilent y (hc y hy))).1
  show (a ++ x :: b).findSome? (fun y => y.1.providedKey w y.2 key) = _
  rw [List.findSome?_append, hnone a fun y hy => List.mem_append_left _ hy, Option.none_or,
    List.findSome?_cons]
  cases hprovided : x.1.providedKey w x.2 key with
  | some v => rfl
  | none => exact hnone b fun y hy => List.mem_append_right _ hy

theorem others_of_zip (hs : List.Forall₂ Shaped ps state) {a b : Picked}
    {x : SystemParam × ParamState} (hsplit : ps.zip state = a ++ x :: b) :
    (x.1, (a ++ b).map Prod.fst) ∈ ps.others := by
  have hps : ps = (a ++ x :: b).map Prod.fst := by
    rw [← hsplit, List.map_fst_zip hs.length_eq.le]
  rw [hps]
  exact List.mem_others.mpr ⟨a.map Prod.fst, b.map Prod.fst, by simp, by simp⟩

theorem mem_filteredRows_of_chosen {rows : SystemParam → List ParamState}
    (hrows : ∀ p, rows p = p.states w) (h : Chosen w rows [] ps state) {q : QueryParam}
    {f : QueryFilter} {e : Entity} (hx : (outer q f, ParamState.row e) ∈ ps.zip state) :
    e ∈ filteredRows w q f := by
  have hmem := List.forall₂_zip h.forall₂ hx
  have hunbound : ¬ (outer q f).pairExpandable = true := Bool.false_ne_true
  rw [if_neg hunbound, hrows] at hmem
  rcases List.mem_append.mp hmem with hrow | habsent
  · obtain ⟨e', he', heq⟩ := List.mem_map.mp hrow
    cases heq
    exact he'
  · cases List.mem_singleton.mp habsent

/-- A join's row and its absence cannot both be chosen beside the same provider of one of its
keys. -/
theorem not_provides_of_clash (hvalid : validateBindings ps = .ok ()) (hs : Fits w ps state)
    (hs' : Fits w ps state') {a b a' b' : Picked} {x y : SystemParam × ParamState}
    (hx : ps.zip state = a ++ x :: b) (hy : ps.zip state' = a' ++ y :: b') (hclash : Clash x y)
    {other : SystemParam × ParamState} (hother : other ∈ a ++ b) (hother' : other ∈ a' ++ b')
    {key : TypeId} (hkey : key ∈ x.1.boundKeyTypes) : other.1.providesKey key = false := by
  have hshaped : ∀ {state}, Fits w ps state → List.Forall₂ Shaped ps state := fun h =>
    h.1.shaped fun p _ s hs => shaped_of_mem_states hs
  -- what the row shares with the provider, the absence finds shared
  have hdecide : ∀ {state state' : List ParamState} {a b a' b' : Picked} {q : QueryParam}
      {f : QueryFilter} {e : Entity}, Fits w ps state → Fits w ps state' →
      ps.zip state = a ++ (outer q f, .row e) :: b → ps.zip state' = a' ++ (outer q f, .absent) :: b' →
      other ∈ a ++ b → other ∈ a' ++ b' → key ∈ f.boundKeyTypes →
        other.1.providesKey key = false := by
    intro state state' a b a' b' q f e hs hs' hx hy hother hother' hkey
    by_contra hprovides
    rw [Bool.not_eq_false] at hprovides
    have hin : key ∈ (outer q f).boundKeyTypes ++ (outer q f).inKeyTypes :=
      List.mem_append_left _ hkey
    have hone := one_provider_of_valid hvalid (others_of_zip (hshaped hs) hx) hin
    have hone' := one_provider_of_valid hvalid (others_of_zip (hshaped hs') hy) hin
    have hrow : Passes w (a ++ b) (outer q f) (.row e) :=
      hs.2 (outer q f, .row e) (a ++ b) (List.mem_others.mpr ⟨a, b, hx, rfl⟩)
    have habsent : Passes w (a' ++ b') (outer q f) .absent :=
      hs'.2 (outer q f, .absent) (a' ++ b') (List.mem_others.mpr ⟨a', b', hy, rfl⟩)
    obtain ⟨v, hv, hprovided⟩ := passes_outer_row.mp hrow key hkey
    have he : e ∈ filteredRows w q f :=
      mem_filteredRows_of_chosen (fun _ => rfl) hs.1 (hx ▸ by simp)
    refine not_sharesKey_of_passes_absent habsent hkey he ⟨v, hv, ?_⟩
    rw [provided_eq_of_mem hone' hother' hprovides, ← provided_eq_of_mem hone hother hprovides]
    exact hprovided
  obtain ⟨p, s⟩ := x
  obtain ⟨p', t⟩ := y
  obtain ⟨hp, hstates⟩ := hclash
  dsimp only at hp hstates hkey
  subst hp
  have houter : ∃ q f, p = outer q f := by
    have hmem : (p, s) ∈ ps.zip state := hx ▸ by simp
    have hmem' : (p, t) ∈ ps.zip state' := hy ▸ by simp
    refine ((List.forall₂_zip (hshaped hs) hmem).outer (List.forall₂_zip (hshaped hs') hmem') ?_).1
    rcases hstates with ⟨rfl, e, rfl⟩ | ⟨rfl, e, rfl⟩
    · exact Nat.zero_ne_one
    · exact Nat.one_ne_zero
  obtain ⟨q, f, rfl⟩ := houter
  rcases hstates with ⟨rfl, e, rfl⟩ | ⟨rfl, e, rfl⟩
  · exact hdecide hs' hs hy hx hother' hother hkey
  · exact hdecide hs hs' hx hy hother hother' hkey

end Providers

section Plans

variable {ps : Params} {state state' : List ParamState}

/-- Choices that agree on every key have one key list exactly where one is the other shifted, unless
they are the same. -/
theorem shifted_of_fits (hvalid : validateBindings ps = .ok ()) (hs : Fits w ps state)
    (hs' : Fits w ps state') (hkeys : keys state = keys state') (hne : state ≠ state') :
    Shifted ps state state' := by
  have hshaped : ∀ {state}, Fits w ps state → List.Forall₂ Shaped ps state := fun h =>
    h.1.shaped fun p _ s hs => shaped_of_mem_states hs
  obtain ⟨l, x, m, z, r, y, m', z', hl, hl', hxy, hzz, -, -⟩ :=
    exists_clashes (hshaped hs) (hshaped hs') hkeys hne
  refine ⟨hkeys, l, x, m, z, r, y, m', z', hl, hl', hxy, hzz, fun key hkey other hother => ?_⟩
  have hlast : ps.zip state = (l ++ x :: m) ++ z :: r := by rw [hl]; simp
  have hlast' : ps.zip state' = (l ++ y :: m') ++ z' :: r := by rw [hl']; simp
  rcases List.mem_append.mp hkey with hkey | hkey
  · refine not_provides_of_clash hvalid hs hs' hl hl' hxy ?_ ?_ hkey
    · rcases List.mem_append.mp hother with hother | hother <;> simp [hother]
    · rcases List.mem_append.mp hother with hother | hother <;> simp [hother]
  · refine not_provides_of_clash hvalid hs hs' hlast hlast' hzz ?_ ?_ hkey
    · rcases List.mem_append.mp hother with hother | hother <;> simp [hother]
    · rcases List.mem_append.mp hother with hother | hother <;> simp [hother]

theorem Shifted.ne (h : Shifted ps state state') : state ≠ state' := by
  rintro rfl
  obtain ⟨l, x, m, z, r, y, m', z', hl, hl', hxy, -⟩ := h.parts
  rw [hl] at hl'
  obtain ⟨rfl, -⟩ := List.cons.inj (List.append_cancel_left hl')
  rcases hxy.2 with ⟨habsent, e, hrow⟩ | ⟨habsent, e, hrow⟩
  · cases habsent.symm.trans hrow
  · cases habsent.symm.trans hrow

/-- The states of a plan in full are the choices that agree on every key. -/
theorem mem_states_iff_fits (hw : w.Coherent) {schema : Option (List TypeId)} (hp : w.Present schema)
    {out : List (List ParamState)} (h : states w ps = some out) : state ∈ out ↔ Fits w ps state := by
  obtain ⟨full, hfull, hspec⟩ := states_spec hw hp h
  rw [(hspec state).2, mem_product hfull state]
  exact and_congr_left fun _ => joined_iff_chosen hw hp fun p hunbound =>
    if_neg (Bool.eq_false_iff.mp hunbound)

theorem shaped_of_mem_hintedRows {p : SystemParam} {hint : List Entity} {s : ParamState}
    (h : s ∈ hintedRows w p hint) : p.Shaped s := by
  unfold hintedRows at h
  split_ifs at h
  · cases h
  · cases p with
    | query q f =>
      obtain ⟨e, -, rfl⟩ := List.mem_map.mp h
      exact ⟨e, rfl⟩
    | _ => exact shaped_of_mem_states (w := w) h
  · exact shaped_of_mem_states h

theorem entering_hintedRows {schema : Option (List TypeId)} (hp : w.Present schema)
    (p : SystemParam) {hint : List Entity} (hhint : hint.Nodup) :
    Entering w p (hintedRows w p hint) := by
  have hstates : Entering w p (p.states w) := ⟨p.nodup_states hp, fun s hs => held_of_mem_states hp hs⟩
  unfold hintedRows
  split_ifs
  · exact ⟨List.nodup_nil, fun s hs => nomatch hs⟩
  · cases p with
    | query q f =>
      refine ⟨?_, fun s hs => held_of_mem_statesFromCandidates hp hs⟩
      have hrows : (filteredRowsFromCandidates w q f hint).Nodup := by
        rw [filteredRowsFromCandidates, q.rowsHinted_some hp]
        exact (hhint.filter _).filter _
      exact hrows.map fun _ _ heq => ParamState.row.inj heq
    | _ => exact hstates
  · exact hstates

/-- A tuple that is planned over hints has no outer join. -/
theorem outer_not_mem_of_driver (hshape : ps.deltaShape = .driver) (q : QueryParam)
    (f : QueryFilter) : outer q f ∉ ps := by
  intro hmem
  have hany : ps.any (·.deltaShape == .opaqueShape) = true :=
    List.any_eq_true.mpr ⟨outer q f, hmem, rfl⟩
  rw [deltaShape, if_pos hany] at hshape
  cases hshape

/-- The states of one plan have different key lists if and only if no choice of rows that agrees on
every key is another one shifted. -/
theorem keys_nodup_iff (hw : World.Reachable C w) (hj : Joinable w ps)
    (hvalid : validateBindings ps = .ok ()) {hint : Option (List Entity)}
    (hhint : hint.isSome → ps.deltaShape = .driver) {out : List (List ParamState)}
    (h : planned C w ps hint = some out) :
    (out.map keys).Nodup ↔
      ¬ ∃ state state', Fits w ps state ∧ Fits w ps state' ∧ Shifted ps state state' := by
  have hcoherent := World.coherent_of_reachable hw
  have hbucketed := World.bucketed_of_reachable hw
  obtain ⟨schema, hp⟩ := World.present_of_reachable hw
  have hfull : states w ps = some out → ((out.map keys).Nodup ↔
      ¬ ∃ state state', Fits w ps state ∧ Fits w ps state' ∧ Shifted ps state state') := by
    intro hstates
    rw [List.nodup_map_iff_inj_on (nodup_states_of_some hp hcoherent hbucketed hj hstates)]
    constructor
    · rintro hinj ⟨state, state', hs, hs', hshifted⟩
      have hsame := hinj state ((mem_states_iff_fits hcoherent hp hstates).mpr hs) state'
        ((mem_states_iff_fits hcoherent hp hstates).mpr hs') hshifted.keys
      exact hshifted.ne hsame
    · intro hnone state hs state' hs' hkeys
      by_contra hne
      rw [mem_states_iff_fits hcoherent hp hstates] at hs hs'
      exact hnone ⟨state, state', hs, hs', shifted_of_fits hvalid hs hs' hkeys hne⟩
  cases hint with
  | none => exact hfull h
  | some hint =>
    unfold planned statesHinted at h
    dsimp only at h
    split_ifs at h with hlarge hdirty
    · exact hfull h
    · exact hfull h
    · -- a hinted plan has no outer joins, so its states can be read off their key lists
      have hnoOuter := outer_not_mem_of_driver (hhint rfl)
      have hnodup : (expandHint C w ps hint).Nodup := List.nodup_dedup _
      have hout := nodup_product hp hbucketed hj
        (fun p _ _ => entering_hintedRows hp p hnodup) (fun _ hp => hp) (List.forall_mem_nil _) h
      have hchosen : ∀ state ∈ out, List.Forall₂ Shaped ps state := by
        intro state hstate
        have hjoined := (mem_product h state).mp hstate
        have hchoice : Chosen w (hintedRows w · (expandHint C w ps hint)) [] ps state :=
          (joined_iff_chosen hcoherent hp fun p _ => rfl).mp hjoined
        exact hchoice.shaped fun p _ s hs => shaped_of_mem_hintedRows hs
      refine iff_of_true ?_ ?_
      · rw [List.nodup_map_iff_inj_on hout]
        intro state hs state' hs' hkeys
        by_contra hne
        obtain ⟨l, x, m, z, r, y, m', z', hl, -, -, -, ⟨q, f, houter⟩, -⟩ :=
          exists_clashes (hchosen state hs) (hchosen state' hs') hkeys hne
        have hmem : x ∈ ps.zip state := hl ▸ by simp
        exact hnoOuter q f (houter ▸ (List.of_mem_zip hmem).1)
      · rintro ⟨state, state', hs, hs', hshifted⟩
        have hshaped : ∀ {state}, Fits w ps state → List.Forall₂ Shaped ps state := fun h =>
          h.1.shaped fun p _ s hs => shaped_of_mem_states hs
        obtain ⟨l, x, m, z, r, y, m', z', hl, -, -, -, ⟨q, f, houter⟩, -⟩ :=
          exists_clashes (hshaped hs) (hshaped hs') hshifted.keys hshifted.ne
        have hmem : x ∈ ps.zip state := hl ▸ by simp
        exact hnoOuter q f (houter ▸ (List.of_mem_zip hmem).1)

/-- Where every outer join follows a provider of one of its keys, no choice is another one
shifted. -/
theorem not_shifted_of_providersFirst (hfirst : ∀ before q f after, ps = before ++ .outer q f :: after →
      ∃ key ∈ f.boundKeyTypes, ∃ other ∈ before, other.providesKey key = true)
    (hs : Fits w ps state) (hs' : Fits w ps state') : ¬ Shifted ps state state' := by
  intro h
  have hshaped : ∀ {state}, Fits w ps state → List.Forall₂ Shaped ps state := fun h =>
    h.1.shaped fun p _ s hs => shaped_of_mem_states hs
  obtain ⟨l, x, m, z, r, y, m', z', hl, hl', hxy, -, hbetween⟩ := h.parts
  have hps : ps = l.map Prod.fst ++ x.1 :: (m ++ z :: r).map Prod.fst := by
    rw [← List.map_cons (f := Prod.fst), ← List.map_append, ← hl,
      List.map_fst_zip (hshaped hs).length_eq.le]
  have houter : ∃ q f, x.1 = outer q f := by
    have hmem : (x.1, x.2) ∈ ps.zip state := hl ▸ by simp
    have hmem' : (x.1, y.2) ∈ ps.zip state' := by
      rw [hxy.1, hl']
      simp
    refine ((List.forall₂_zip (hshaped hs) hmem).outer (List.forall₂_zip (hshaped hs') hmem') ?_).1
    rcases hxy.2 with ⟨habsent, e, hrow⟩ | ⟨habsent, e, hrow⟩
    · rw [habsent, hrow]
      exact Nat.zero_ne_one
    · rw [habsent, hrow]
      exact Nat.one_ne_zero
  obtain ⟨q, f, houter⟩ := houter
  rw [houter] at hps
  obtain ⟨key, hkey, other, hother, hprovides⟩ := hfirst _ q f _ hps
  obtain ⟨pick, hpick, rfl⟩ := List.mem_map.mp hother
  have hsilent := hbetween key (List.mem_append_left _ (houter ▸ hkey)) pick
    (List.mem_append_left _ hpick)
  rw [hsilent] at hprovides
  cases hprovides

end Plans

section Collision

/-- Entities 0 and 2 share the keys 1 and 2, entity 1 has others; 0 carries component 3, 2 carries
component 4. -/
def aligned : World Nat :=
  ((World.machine World.fingerprinted).run (World.ofSchema none)
    [.base (.insert 1 0 (.data 1)), .base (.insert 2 0 (.data 1)), .base (.insert 3 0 (.data 0)),
      .base (.insert 1 1 (.data 2)), .base (.insert 2 1 (.data 2)),
      .base (.insert 1 2 (.data 1)), .base (.insert 2 2 (.data 1)),
      .base (.insert 4 2 (.data 0))]).getD World.new

theorem reachable_aligned : World.Reachable World.fingerprinted aligned := by
  have hrun : (World.machine World.fingerprinted).run (World.ofSchema none)
      [.base (.insert 1 0 (.data 1)), .base (.insert 2 0 (.data 1)), .base (.insert 3 0 (.data 0)),
        .base (.insert 1 1 (.data 2)), .base (.insert 2 1 (.data 2)),
        .base (.insert 1 2 (.data 1)), .base (.insert 2 2 (.data 1)),
        .base (.insert 4 2 (.data 0))] = some aligned := rfl
  exact Machine.Reachable.run (.init ⟨none, rfl⟩) hrun

/-- Two outer joins around the providers of their keys. -/
def straddling : Params :=
  [.outer (.entityParts [] [.read 3]) (.whereKey (.eq 1)), .query (.read 2) .unit,
    .query (.read 1) .unit, .outer (.entityParts [] [.read 4]) (.whereKey (.eq 2))]

theorem joinable_aligned (ps : Params) (hbound : ∀ p ∈ ps, ∀ key ∈ p.boundKeyTypes, key = 1 ∨ key = 2)
    (hin : ∀ p ∈ ps, p.inKeyTypes = []) : Joinable aligned ps := by
  have hkeys : ∀ key, key = 1 ∨ key = 2 → ∀ e ∈ aligned.entitiesWith key,
      (aligned.fingerprintOn key e).isSome = true := by
    rintro key (rfl | rfl) <;> decide
  constructor
  · intro p hp key hkey e hhas
    exact Option.isSome_iff_exists.mp
      (hkeys key (hbound p hp key hkey) e ((aligned.mem_entitiesWith key e).mpr hhas))
  · intro p hp key hkey
    rw [hin p hp] at hkey
    cases hkey

/-- The same joins behind the providers. -/
def following : Params :=
  [.query (.read 2) .unit, .query (.read 1) .unit,
    .outer (.entityParts [] [.read 3]) (.whereKey (.eq 1)),
    .outer (.entityParts [] [.read 4]) (.whereKey (.eq 2))]

theorem following_keys_nodup : ∃ out, planned World.fingerprinted aligned following none = some out ∧
    ((out.map keys).Nodup ↔ ¬ ∃ state state', Fits aligned following state ∧
      Fits aligned following state' ∧ Shifted following state state') := by
  have hvalid : validateBindings following = .ok () := by decide
  have hsome : (planned World.fingerprinted aligned following none).isSome := by decide
  obtain ⟨out, hout⟩ := Option.isSome_iff_exists.mp hsome
  have hjoinable : Joinable aligned following := joinable_aligned _ (by decide) (by decide)
  have hunhinted : (none : Option (List Entity)).isSome → following.deltaShape = .driver := by
    intro h
    cases h
  exact ⟨out, hout, keys_nodup_iff reachable_aligned hjoinable hvalid hunhinted hout⟩

/-- Two rows of an accepted tuple are planned under one identity. -/
theorem straddling_collides : World.Reachable World.fingerprinted aligned ∧
    Joinable aligned straddling ∧ validateBindings straddling = .ok () ∧
      ∃ out, planned World.fingerprinted aligned straddling none = some out ∧
        ∃ state ∈ out, ∃ state' ∈ out, state ≠ state' ∧ keys state = keys state' := by
  have hvalid : validateBindings straddling = .ok () := by decide
  have hjoinable : Joinable aligned straddling := joinable_aligned _ (by decide) (by decide)
  have hplanned : (planned World.fingerprinted aligned straddling none).any fun out =>
      decide ([.row 0, .row 1, .row 2, .absent] ∈ out) &&
        decide ([.absent, .row 0, .row 1, .row 2] ∈ out) := by decide
  obtain ⟨out, hout, hmem⟩ := (Option.any_eq_true _ _).mp hplanned
  obtain ⟨hfirst, hsecond⟩ := (Bool.and_eq_true _ _).mp hmem
  exact ⟨reachable_aligned, hjoinable, hvalid, out, hout, _, of_decide_eq_true hfirst, _,
    of_decide_eq_true hsecond, by decide, by decide⟩

end Collision
end Params
end Porridge
