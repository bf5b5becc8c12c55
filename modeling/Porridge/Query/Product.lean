import Porridge.Query.Tuple

/-! What the product of a tuple holds, and how one more parameter changes it. -/
namespace Porridge

variable {α : Type} {C : Components α} {w : World α}

theorem QueryPart.providedKey_eq_none {part : QueryPart} {key : TypeId}
    (h : part.providesKey key = false) (e : Entity) : part.providedKey w e key = none := by
  rw [providedKey, h]
  rfl

theorem QueryPart.providedMembers_eq_none {part : QueryPart} {key : TypeId}
    (h : part.providesKey key = false) (e : Entity) : part.providedMembers w e key = none := by
  rw [providedMembers, h]
  rfl

theorem QueryParam.provided_eq_none {q : QueryParam} {key : TypeId}
    (h : q.providesKey key = false) (e : Entity) :
    q.providedKey w e key = none ∧ q.providedMembers w e key = none := by
  cases q with
  | entity _ => exact ⟨rfl, rfl⟩
  | mutRef _ => exact ⟨rfl, rfl⟩
  | read t =>
    have hne : key ≠ t := by simpa [providesKey] using h
    exact ⟨if_neg hne, if_neg hne⟩
  | entityParts _ parts =>
    have hparts : ∀ part ∈ parts, part.providesKey key = false := by
      simpa [providesKey] using h
    exact ⟨List.findSome?_eq_none_iff.mpr fun part hp => part.providedKey_eq_none (hparts part hp) e,
      List.findSome?_eq_none_iff.mpr fun part hp => part.providedMembers_eq_none (hparts part hp) e⟩

namespace SystemParam

variable {p : SystemParam} {s : ParamState} {key : TypeId}

theorem provided_eq_none (h : p.providesKey key = false) :
    p.providedKey w s key = none ∧ p.providedMembers w s key = none := by
  cases p with
  | query q f =>
    cases s with
    | row e => exact QueryParam.provided_eq_none h e
    | unit => exact ⟨rfl, rfl⟩
    | absent => exact ⟨rfl, rfl⟩
  | outer => exact ⟨rfl, rfl⟩
  | view => exact ⟨rfl, rfl⟩
  | trackedView => exact ⟨rfl, rfl⟩
  | commands => exact ⟨rfl, rfl⟩
  | worldMeta => exact ⟨rfl, rfl⟩

theorem mem_boundKeyTypes {bound : TypeId × Option Fingerprint} (h : bound ∈ p.boundKeys w s) :
    bound.1 ∈ p.boundKeyTypes := by
  cases p <;> cases s <;> first
    | cases h
    | exact (QueryFilter.mem_boundKeys.mp h).1

theorem mem_inKeyTypes {member : TypeId × Entity} (h : member ∈ p.inKeys s) :
    member.1 ∈ p.inKeyTypes := by
  cases p <;> cases s <;> first
    | cases h
    | (obtain ⟨t, ht, rfl⟩ := List.mem_map.mp h
       exact ht)

theorem absentKeys_subset (h : key ∈ p.absentKeys s) : key ∈ p.boundKeyTypes := by
  cases p <;> cases s <;> first
    | cases h
    | exact h

/-- The parameter provides none of the keys that the other one joins on. -/
def SilentFor (p other : SystemParam) : Prop :=
  ∀ key ∈ other.boundKeyTypes ++ other.inKeyTypes, p.providesKey key = false

theorem silentFor_outer (q : QueryParam) (f : QueryFilter) (other : SystemParam) :
    (outer q f).SilentFor other := fun _ _ => rfl

end SystemParam

namespace Params

open SystemParam

theorem boundCheck_eq_true {others : Picked} {key : TypeId} {fingerprint : Option Fingerprint} :
    boundCheck w others key fingerprint = some true ↔ ∃ v, fingerprint = some v ∧
      provided others (fun p s => p.providedKey w s key) = some (some v) := by
  unfold boundCheck
  constructor
  · intro h
    split at h
    · cases h
    · rename_i own provider hprovided
      have heq : provider = own := by simpa using h
      exact ⟨own, rfl, heq ▸ hprovided⟩
    · cases h
    · cases h
  · rintro ⟨v, rfl, hprovided⟩
    simp [hprovided]

theorem memberCheck_eq_true {others : Picked} {key : TypeId} {member : Entity} :
    memberCheck w others key member = some true ↔ ∃ members,
      provided others (fun p s => p.providedMembers w s key) = some members ∧ member ∈ members := by
  unfold memberCheck
  constructor
  · intro h
    split at h
    · rename_i members hprovided
      exact ⟨members, hprovided, by simpa using h⟩
    · cases h
  · rintro ⟨members, hprovided, hmem⟩
    simp [hprovided, hmem]

theorem absentCheck_eq_some {others : Picked} {p : SystemParam} {key : TypeId} {b : Bool} :
    absentCheck w others p key = some b ↔ ∃ v,
      provided others (fun p s => p.providedKey w s key) = some (some v) ∧
        p.absentBindingMatches w key v = b := by
  unfold absentCheck
  constructor
  · intro h
    split at h
    · rename_i v hprovided
      exact ⟨v, hprovided, by simpa using h⟩
    · cases h
  · rintro ⟨v, hprovided, hmatches⟩
    simp [hprovided, hmatches]

structure Passes (w : World α) (others : Picked) (p : SystemParam) (s : ParamState) : Prop where
  bound : ∀ b ∈ p.boundKeys w s, boundCheck w others b.1 b.2 = some true
  members : ∀ m ∈ p.inKeys s, memberCheck w others m.1 m.2 = some true
  absences : ∀ key ∈ p.absentKeys s, absentCheck w others p key = some true

theorem bindingMatches_eq_true {ps : Params} {state : List ParamState} :
    bindingMatches w ps state = some true ↔
      ∀ x others, (x, others) ∈ (ps.zip state).others → Passes w others x.1 x.2 := by
  rw [bindingMatches, List.checkAll_eq_true]
  simp only [bindingChecks, List.mem_append, List.mem_flatMap, List.mem_map]
  constructor
  · intro h x others hx
    constructor
    · intro b hb
      exact h _ (Or.inl (Or.inl ⟨(x, others), hx, b, hb, rfl⟩))
    · intro m hm
      exact h _ (Or.inl (Or.inr ⟨(x, others), hx, m, hm, rfl⟩))
    · intro key hkey
      exact h _ (Or.inr ⟨(x, others), hx, key, hkey, rfl⟩)
  · rintro h check ((⟨p, hp, b, hb, rfl⟩ | ⟨p, hp, m, hm, rfl⟩) | ⟨p, hp, key, hkey, rfl⟩)
    · exact (h p.1 p.2 hp).bound b hb
    · exact (h p.1 p.2 hp).members m hm
    · exact (h p.1 p.2 hp).absences key hkey

/-- A check of the state decides against it. -/
def Fails (w : World α) (others : Picked) (p : SystemParam) (s : ParamState) : Prop :=
  (∃ b ∈ p.boundKeys w s, boundCheck w others b.1 b.2 = some false) ∨
    (∃ m ∈ p.inKeys s, memberCheck w others m.1 m.2 = some false) ∨
      ∃ key ∈ p.absentKeys s, absentCheck w others p key = some false

theorem Fails.not_passes {others : Picked} {p : SystemParam} {s : ParamState}
    (h : Fails w others p s) : ¬ Passes w others p s := by
  intro hp
  rcases h with ⟨b, hb, hcheck⟩ | ⟨m, hm, hcheck⟩ | ⟨key, hkey, hcheck⟩
  · have hpass := hp.bound b hb
    rw [hcheck] at hpass
    cases hpass
  · have hpass := hp.members m hm
    rw [hcheck] at hpass
    cases hpass
  · have hpass := hp.absences key hkey
    rw [hcheck] at hpass
    cases hpass

theorem exists_fails_of_bindingMatches_eq_false {ps : Params} {state : List ParamState}
    (h : bindingMatches w ps state = some false) :
    ∃ x others, (x, others) ∈ (ps.zip state).others ∧ Fails w others x.1 x.2 := by
  have hmem := List.mem_of_checkAll_eq_false h
  simp only [bindingChecks, List.mem_append, List.mem_flatMap, List.mem_map] at hmem
  rcases hmem with (⟨p, hp, b, hb, hcheck⟩ | ⟨p, hp, m, hm, hcheck⟩) | ⟨p, hp, key, hkey, hcheck⟩
  · exact ⟨p.1, p.2, hp, Or.inl ⟨b, hb, hcheck⟩⟩
  · exact ⟨p.1, p.2, hp, Or.inr (Or.inl ⟨m, hm, hcheck⟩)⟩
  · exact ⟨p.1, p.2, hp, Or.inr (Or.inr ⟨key, hkey, hcheck⟩)⟩

section Silent

variable {y : SystemParam × ParamState} {key : TypeId} {a b : Picked}

theorem providedKey_insert (h : y.1.providesKey key = false) :
    provided (a ++ y :: b) (fun p s => p.providedKey w s key) =
      provided (a ++ b) fun p s => p.providedKey w s key := by
  have hnone : y.1.providedKey w y.2 key = none := (provided_eq_none h).1
  exact List.findSome?_insert (f := fun x : SystemParam × ParamState => x.1.providedKey w x.2 key)
    hnone a b

theorem providedMembers_insert (h : y.1.providesKey key = false) :
    provided (a ++ y :: b) (fun p s => p.providedMembers w s key) =
      provided (a ++ b) fun p s => p.providedMembers w s key := by
  have hnone : y.1.providedMembers w y.2 key = none := (provided_eq_none h).2
  exact List.findSome?_insert
    (f := fun x : SystemParam × ParamState => x.1.providedMembers w x.2 key) hnone a b

/-- A silent parameter takes no part in the checks of another. -/
theorem passes_insert {p : SystemParam} {s : ParamState} (h : y.1.SilentFor p) :
    Passes w (a ++ y :: b) p s ↔ Passes w (a ++ b) p s := by
  have hbound : ∀ x ∈ p.boundKeys w s, boundCheck w (a ++ y :: b) x.1 x.2 =
      boundCheck w (a ++ b) x.1 x.2 := by
    intro x hx
    have hkey := h x.1 (List.mem_append_left _ (mem_boundKeyTypes hx))
    simp only [boundCheck, providedKey_insert hkey]
  have hmembers : ∀ x ∈ p.inKeys s, memberCheck w (a ++ y :: b) x.1 x.2 =
      memberCheck w (a ++ b) x.1 x.2 := by
    intro x hx
    have hkey := h x.1 (List.mem_append_right _ (mem_inKeyTypes hx))
    simp only [memberCheck, providedMembers_insert hkey]
  have habsent : ∀ key ∈ p.absentKeys s, absentCheck w (a ++ y :: b) p key =
      absentCheck w (a ++ b) p key := by
    intro key hmem
    have hkey := h key (List.mem_append_left _ (absentKeys_subset hmem))
    simp only [absentCheck, providedKey_insert hkey]
  constructor
  · intro hp
    exact ⟨fun x hx => hbound x hx ▸ hp.bound x hx, fun x hx => hmembers x hx ▸ hp.members x hx,
      fun x hx => habsent x hx ▸ hp.absences x hx⟩
  · intro hp
    exact ⟨fun x hx => (hbound x hx).trans (hp.bound x hx),
      fun x hx => (hmembers x hx).trans (hp.members x hx),
      fun x hx => (habsent x hx).trans (hp.absences x hx)⟩

theorem pickable_insert {p : SystemParam} (h : y.1.SilentFor p) (rows : List ParamState) :
    pickable w p rows (a ++ y :: b) = pickable w p rows (a ++ b) := by
  unfold pickable pairRows
  split_ifs
  · split
    · rename_i key _ hin
      have hkey := h key (by simp [hin])
      have hsame := providedMembers_insert (w := w) (a := a) (b := b) hkey
      rw [provided, provided] at hsame
      rw [hsame]
    · rename_i key _ hin hbound
      have hkey := h key (by simp [hbound])
      have hsame := providedKey_insert (w := w) (a := a) (b := b) hkey
      rw [provided, provided] at hsame
      rw [hsame]
    · rfl
  · rfl

/-- Picking a silent parameter first leaves the product of the rest alone. -/
theorem product_insert : ∀ {rest : List (SystemParam × List ParamState)} {b : Picked},
    (∀ p ∈ rest, y.1.SilentFor p.1) → product w (a ++ y :: b) rest = product w (a ++ b) rest
  | [], _, _ => rfl
  | (p, rows) :: rest, b, h => by
    have hpick := pickable_insert (w := w) (a := a) (b := b) (h _ List.mem_cons_self) rows
    have hrest : ∀ s, product w (a ++ y :: b ++ [(p, s)]) rest =
        product w (a ++ b ++ [(p, s)]) rest := by
      intro s
      rw [List.append_assoc, List.cons_append, List.append_assoc]
      exact product_insert fun p hp => h p (List.mem_cons_of_mem _ hp)
    rw [product, product, hpick]
    simp only [hrest]

end Silent

theorem product_cons {picked : Picked} {p : SystemParam} {rows : List ParamState}
    {rest : List (SystemParam × List ParamState)} {out : List (List ParamState)} :
    product w picked ((p, rows) :: rest) = some out ↔
      ∃ offered, pickable w p rows picked = some offered ∧
        (offered.flatMap? fun s => (product w (picked ++ [(p, s)]) rest).map fun tails =>
          tails.map (s :: ·)) = some out := by
  rw [product, Option.bind_eq_bind, Option.bind_eq_some_iff]

/-- Choices of states, each offered after the states before it. -/
def Joined (w : World α) : Picked → List (SystemParam × List ParamState) → List ParamState → Prop
  | _, [], state => state = []
  | picked, (p, rows) :: rest, state => ∃ s tail offered, state = s :: tail ∧
      pickable w p rows picked = some offered ∧ s ∈ offered ∧ Joined w (picked ++ [(p, s)]) rest tail

/-- The product holds exactly the joined choices. -/
theorem mem_product : ∀ {rest : List (SystemParam × List ParamState)} {picked : Picked}
    {out : List (List ParamState)}, product w picked rest = some out →
      ∀ state, state ∈ out ↔ Joined w picked rest state
  | [], picked, out, h, state => by
    cases h
    exact List.mem_singleton
  | (p, rows) :: rest, picked, out, h, state => by
    obtain ⟨offered, hoffered, hout⟩ := product_cons.mp h
    rw [List.mem_flatMap? hout]
    constructor
    · rintro ⟨s, hs, lists, hlists, hmem⟩
      obtain ⟨tails, htails, rfl⟩ := Option.map_eq_some_iff.mp hlists
      obtain ⟨tail, htail, rfl⟩ := List.mem_map.mp hmem
      exact ⟨s, tail, offered, rfl, hoffered, hs, (mem_product htails tail).mp htail⟩
    · rintro ⟨s, tail, offered', rfl, hoffered', hs, htail⟩
      cases hoffered.symm.trans hoffered'
      obtain ⟨lists, hlists⟩ := List.eq_some_of_flatMap? hout s hs
      obtain ⟨tails, htails, rfl⟩ := Option.map_eq_some_iff.mp hlists
      have hmem : tail ∈ tails := (mem_product htails tail).mpr htail
      exact ⟨s, hs, _, hlists, List.mem_map.mpr ⟨tail, hmem, rfl⟩⟩

theorem Joined.length_eq : ∀ {rest : List (SystemParam × List ParamState)} {picked : Picked}
    {state : List ParamState}, Joined w picked rest state → state.length = rest.length
  | [], _, _, h => by
    rw [h]
    rfl
  | _ :: _, _, _, ⟨_, _, _, rfl, _, _, htail⟩ => by
    rw [List.length_cons, List.length_cons, htail.length_eq]

/-- One more silent parameter multiplies each choice of the others by its own states. -/
theorem count_product_insert {p : SystemParam} {rows : List ParamState} :
    ∀ {before : List (SystemParam × List ParamState)} {picked : Picked}
      {after : List (SystemParam × List ParamState)} {out out' : List (List ParamState)},
      (∀ x ∈ after, p.SilentFor x.1) →
      product w picked (before ++ (p, rows) :: after) = some out →
      product w picked (before ++ after) = some out' →
      ∀ {l r : List ParamState} {s : ParamState}, l.length = before.length → l ++ r ∈ out' →
        ∃ offered, pickable w p rows (picked ++ (before.map Prod.fst).zip l) = some offered ∧
          out.count (l ++ s :: r) = offered.count s * out'.count (l ++ r)
  | [], picked, after, out, out', hsilent, hout, hout', [], r, s, _, _ => by
    obtain ⟨offered, hoffered, hflat⟩ := product_cons.mp hout
    have hsame : product w (picked ++ [(p, s)]) after = product w picked after := by
      have hinsert := product_insert (w := w) (a := picked) (y := (p, s)) (b := []) hsilent
      rwa [List.append_nil] at hinsert
    refine ⟨offered, by simpa using hoffered, ?_⟩
    exact List.count_cons_flatMap? hflat s r out' (hsame.trans hout')
  | (p₀, rows₀) :: before, picked, after, out, out', hsilent, hout, hout', s₀ :: l, r, s, hlen,
    hmem => by
    obtain ⟨offered₀, hoffered₀, hflat⟩ := product_cons.mp hout
    obtain ⟨offered₀', hoffered₀', hflat'⟩ := product_cons.mp hout'
    cases hoffered₀.symm.trans hoffered₀'
    obtain ⟨s', hs', lists, hlists, hin⟩ := (List.mem_flatMap? hflat' _).mp hmem
    obtain ⟨tails', htails', rfl⟩ := Option.map_eq_some_iff.mp hlists
    obtain ⟨tail, htail, heq⟩ := List.mem_map.mp hin
    obtain ⟨rfl, rfl⟩ := List.cons.inj heq
    obtain ⟨lists, hlists⟩ := List.eq_some_of_flatMap? hflat s' hs'
    obtain ⟨tails, htails, rfl⟩ := Option.map_eq_some_iff.mp hlists
    obtain ⟨offered, hoffered, hcount⟩ := count_product_insert (s := s) hsilent htails htails'
      (Nat.succ.inj hlen) htail
    refine ⟨offered, by simpa using hoffered, ?_⟩
    have hfull := List.count_cons_flatMap? hflat s' (l ++ s :: r) tails htails
    have hrest := List.count_cons_flatMap? hflat' s' (l ++ r) tails' htails'
    rw [List.cons_append, List.cons_append, hfull, hrest, hcount]
    exact Nat.mul_left_comm _ _ _

end Params
end Porridge
