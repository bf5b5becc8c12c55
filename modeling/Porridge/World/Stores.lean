import Porridge.World.Basic

/-! Where component stores are kept: a dense slot for each type of a schema, and a hash map for the
types outside it. -/
namespace Porridge

theorem PresenceIndex.lookup_number (types : List TypeId) (start : Nat)
    (bitFor : Dict TypeId Nat) (hnodup : types.Nodup) (hfresh : ∀ t ∈ types, t ∉ bitFor)
    (t : TypeId) (i : Nat) : (number types start bitFor).lookup t = some i ↔
      bitFor.lookup t = some i ∨ (start ≤ i ∧ types[i - start]? = some t) := by
  induction types generalizing start bitFor with
  | nil => simp [number]
  | cons t' types ih =>
    obtain ⟨hnot, hnodup⟩ := List.nodup_cons.mp hnodup
    have ht' : t' ∉ bitFor := hfresh t' List.mem_cons_self
    have hrest : ∀ t ∈ types, t ∉ bitFor.insert t' start := by
      intro t ht hmem
      rcases (AList.mem_insert _).mp hmem with rfl | hmem
      · exact hnot ht
      · exact hfresh t (List.mem_cons_of_mem t' ht) hmem
    have hih := ih (start + 1) (bitFor.insert t' start) hnodup hrest
    have hcons : number (t' :: types) start bitFor =
        number types (start + 1) (bitFor.insert t' start) := rfl
    rw [hcons, hih, Dict.lookup_insert]
    have hnone : bitFor.lookup t' = none := AList.lookup_eq_none.mpr ht'
    rcases Nat.lt_trichotomy i start with hlt | heq | hgt
    · have hno : ¬ start ≤ i := by omega
      have hno' : ¬ start + 1 ≤ i := by omega
      by_cases htt : t = t'
      · subst htt
        simp only [if_pos, hnone, hno, hno', false_and, or_false]
        constructor
        · intro h
          cases h
          omega
        · simp
      · simp [htt, hno, hno']
    · subst heq
      by_cases htt : t = t'
      · subst htt
        simp
      · have hne : ¬ t' = t := fun h => htt h.symm
        have hno : ¬ i + 1 ≤ i := by omega
        simp [htt, hne]
    · obtain ⟨k, rfl⟩ : ∃ k, i = start + 1 + k := ⟨i - (start + 1), by omega⟩
      have hle : start ≤ start + 1 + k := by omega
      have hindex : start + 1 + k - start = k + 1 := by omega
      have hindex' : start + 1 + k - (start + 1) = k := by omega
      rw [hindex, hindex', List.getElem?_cons_succ]
      by_cases htt : t = t'
      · subst htt
        have hout : types[k]? ≠ some t := fun h => hnot (List.mem_of_getElem? h)
        simp only [if_pos, hnone, hout, and_false, or_false]
        constructor
        · intro h
          have := Option.some.inj h
          omega
        · simp
      · simp [htt, hle]

/-- Storage of a world: schema slots by number, undeclared stores by type. -/
structure Stores (α : Type) where
  slots : List (TypeId × Option (Store α))
  registry : Dict TypeId Nat
  fallback : Dict TypeId (Store α)
  /-- The registry names the slot of each declared type. -/
  placed : ∀ t i, registry.lookup t = some i ↔ (slots[i]?).map Prod.fst = some t
  /-- Only undeclared stores are kept by their type. -/
  undeclared : ∀ t ∈ fallback, t ∉ registry

namespace Stores

variable {α : Type}

def withRegistry (types : List TypeId) (h : types.Nodup) : Stores α where
  slots := types.map fun t => (t, none)
  registry := (PresenceIndex.new types).bitFor
  fallback := ∅
  placed t i := by
    have hnumber := PresenceIndex.lookup_number types 0 ∅ h
      (fun _ _ hmem => AList.notMem_empty _ hmem) t i
    have hslot : ((types.map fun t => (t, (none : Option (Store α))))[i]?).map Prod.fst =
        types[i]? := by
      rw [List.getElem?_map, Option.map_map]
      exact Option.map_id'
    rw [hslot]
    exact hnumber.trans (by simp)
  undeclared _ hmem := absurd hmem (AList.notMem_empty _)

/-- The storage of an empty world over a schema. -/
def ofSchema (schema : Option (List TypeId)) : Stores α :=
  withRegistry (PresenceIndex.universeOf (schema.getD [])) (PresenceIndex.nodup_universeOf _)

variable (s : Stores α)

def slot (t : TypeId) : Option Nat := s.registry.lookup t

def get (t : TypeId) : Option (Store α) :=
  match s.registry.lookup t with
  | some i => (s.slots[i]?).bind Prod.snd
  | none => s.fallback.lookup t

/-- Read through a handle; one from another layout never reads the wrong type. -/
def getSlot (i : Nat) (t : TypeId) : Option (Store α) :=
  match s.slots[i]? with
  | some (actual, store) => if actual = t then store else s.get t
  | none => s.get t

def put (t : TypeId) (x : Store α) : Stores α :=
  match h : s.registry.lookup t with
  | some i =>
    { s with
      slots := s.slots.set i (t, some x)
      placed := fun t' j => by
        rw [s.placed t' j, List.getElem?_set]
        split_ifs with hij hlen
        · subst hij
          rw [(s.placed t i).mp h]
          rfl
        · subst hij
          rw [List.getElem?_eq_none (by omega)]
        · rfl }
  | none =>
    { s with
      fallback := s.fallback.insert t x
      undeclared := fun t' ht' => by
        rcases (AList.mem_insert _).mp ht' with rfl | ht'
        · exact AList.lookup_eq_none.mp h
        · exact s.undeclared t' ht' }

/-- All stores: the slots in their order, then the hash map. -/
def values : List (TypeId × Store α) :=
  s.slots.filterMap (fun p => p.2.map fun x => (p.1, x)) ++
    s.fallback.entries.map fun b => (b.1, b.2)

/-- A component's revision, found by its slot where a handle has one. -/
def revisionAt (handle : Option Nat) (t : TypeId) (e : Entity) : Option Revision :=
  let store := match handle with
    | some i => s.getSlot i t
    | none => s.get t
  (store.bind fun x => x.entries.lookup e).map Entry.revision

section Lemmas

variable {s} {t t' : TypeId} {x : Store α}

theorem getSlot_eq (i : Nat) (t : TypeId) : s.getSlot i t = s.get t := by
  unfold getSlot
  cases hslot : s.slots[i]? with
  | none => rfl
  | some p =>
    obtain ⟨actual, store⟩ := p
    dsimp only
    split_ifs with ht
    · subst ht
      have hregistered : s.registry.lookup actual = some i := by
        rw [s.placed, hslot]
        rfl
      rw [get, hregistered]
      dsimp only
      rw [hslot]
      rfl
    · rfl

theorem get_put (t' : TypeId) : (s.put t x).get t' = if t' = t then some x else s.get t' := by
  unfold put
  split
  · rename_i i hi
    have hin : i < s.slots.length := by
      obtain ⟨p, hp, -⟩ := Option.map_eq_some_iff.mp ((s.placed t i).mp hi)
      exact (List.getElem?_eq_some_iff.mp hp).1
    unfold get
    dsimp only
    by_cases ht : t' = t
    · subst ht
      rw [if_pos rfl, hi]
      dsimp only
      rw [List.getElem?_set_self hin]
      rfl
    · rw [if_neg ht]
      cases hj : s.registry.lookup t' with
      | none => rfl
      | some j =>
        have hne : i ≠ j := by
          rintro rfl
          have hthere := (s.placed t' i).mp hj
          rw [(s.placed t i).mp hi] at hthere
          exact ht (Option.some.inj hthere).symm
        dsimp only
        rw [List.getElem?_set_ne hne]
  · rename_i hnone
    unfold get
    dsimp only
    by_cases ht : t' = t
    · subst ht
      rw [hnone, if_pos rfl]
      exact AList.lookup_insert _
    · rw [if_neg ht]
      cases s.registry.lookup t' with
      | none => exact AList.lookup_insert_ne ht
      | some j => rfl

theorem mem_values : (t, x) ∈ s.values ↔ s.get t = some x := by
  have hslots : (t, x) ∈ s.slots.filterMap (fun p => p.2.map fun x => (p.1, x)) ↔
      ∃ i : Nat, s.slots[i]? = some (t, some x) := by
    rw [List.mem_filterMap]
    constructor
    · rintro ⟨⟨actual, store⟩, hp, hx⟩
      obtain ⟨y, hy, heq⟩ := Option.map_eq_some_iff.mp hx
      cases heq
      obtain ⟨i, hi⟩ := List.mem_iff_getElem?.mp hp
      have hstore : store = some x := hy
      exact ⟨i, by rw [hi, hstore]⟩
    · rintro ⟨i, hi⟩
      exact ⟨(t, some x), List.mem_of_getElem? hi, rfl⟩
  have hfallback : (t, x) ∈ s.fallback.entries.map (fun b => (b.1, b.2)) ↔
      s.fallback.lookup t = some x := by
    have hlookup : s.fallback.lookup t = some x ↔
        (⟨t, x⟩ : Sigma fun _ : TypeId => Store α) ∈ s.fallback.entries := AList.mem_lookup_iff
    rw [hlookup, List.mem_map]
    constructor
    · rintro ⟨⟨t', y⟩, hb, heq⟩
      cases heq
      exact hb
    · intro hb
      exact ⟨⟨t, x⟩, hb, rfl⟩
  rw [values, List.mem_append, hslots, hfallback, get]
  cases hi : s.registry.lookup t with
  | none =>
    constructor
    · rintro (⟨i, hslot⟩ | hx)
      · have hregistered : s.registry.lookup t = some i := by
          rw [s.placed, hslot]
          rfl
        rw [hi] at hregistered
        cases hregistered
      · exact hx
    · exact Or.inr
  | some i =>
    dsimp only
    constructor
    · rintro (⟨j, hslot⟩ | hx)
      · have hregistered : s.registry.lookup t = some j := by
          rw [s.placed, hslot]
          rfl
        rw [hi] at hregistered
        cases hregistered
        rw [hslot]
        rfl
      · have hmem : t ∈ s.fallback := AList.lookup_isSome.mp (by rw [hx]; rfl)
        have hdeclared : t ∈ s.registry := AList.lookup_isSome.mp (by rw [hi]; rfl)
        exact absurd hdeclared (s.undeclared t hmem)
    · intro hx
      obtain ⟨⟨actual, store⟩, hslot, hstore⟩ := Option.bind_eq_some_iff.mp hx
      have hthere := (s.placed t i).mp hi
      rw [hslot] at hthere
      have hactual : actual = t := Option.some.inj hthere
      have hstore : store = some x := hstore
      exact Or.inl ⟨i, by rw [hslot, hactual, hstore]⟩

/-- Every type is listed once. -/
theorem nodup_values : (s.values.map Prod.fst).Nodup := by
  have hslots : ((s.slots.filterMap fun p => p.2.map fun x => (p.1, x)).map Prod.fst).Sublist
      (s.slots.map Prod.fst) := by
    induction s.slots with
    | nil => exact List.Sublist.slnil
    | cons p slots ih =>
      obtain ⟨actual, store⟩ := p
      cases store with
      | none => exact ih.cons actual
      | some y => exact ih.cons_cons actual
  have hdistinct : (s.slots.map Prod.fst).Nodup := by
    rw [List.nodup_iff_getElem?_ne_getElem?]
    intro i j hij hj heq
    rw [List.getElem?_map, List.getElem?_map] at heq
    rw [List.length_map] at hj
    obtain ⟨p, hp⟩ : ∃ p, s.slots[j]? = some p := ⟨_, List.getElem?_eq_getElem hj⟩
    have hi : s.registry.lookup p.1 = some i := by
      rw [s.placed, heq, hp]
      rfl
    have hj : s.registry.lookup p.1 = some j := by
      rw [s.placed, hp]
      rfl
    rw [hi] at hj
    have := Option.some.inj hj
    omega
  have hfallback : (s.fallback.entries.map fun b => (b.1, b.2)).map Prod.fst = s.fallback.keys := by
    rw [List.map_map]
    rfl
  rw [values, List.map_append, hfallback, List.nodup_append]
  refine ⟨hdistinct.sublist hslots, s.fallback.keys_nodup, fun t ht t' ht' heq => ?_⟩
  subst heq
  obtain ⟨i, hi⟩ := List.mem_iff_getElem?.mp (hslots.subset ht)
  rw [List.getElem?_map] at hi
  have hdeclared : t ∈ s.registry :=
    AList.lookup_isSome.mp (by rw [(s.placed t i).mpr hi]; rfl)
  exact s.undeclared t (AList.mem_keys.mpr ht') hdeclared

theorem get_ofSchema (schema : Option (List TypeId)) (t : TypeId) :
    (ofSchema schema : Stores α).get t = none := by
  unfold get
  split
  · rename_i i hi
    cases hslot : (ofSchema schema : Stores α).slots[i]? with
    | none => rfl
    | some p =>
      obtain ⟨t', -, rfl⟩ := List.mem_map.mp (List.mem_of_getElem? hslot)
      rfl
  · rfl

end Lemmas

/-- Storage that holds the bindings of a dictionary. -/
def holding (s : Stores α) (d : Dict TypeId (Store α)) : Stores α :=
  d.entries.foldr (fun b s => s.put b.1 b.2) s

theorem get_holding (d : Dict TypeId (Store α)) {s : Stores α} (hs : ∀ t, s.get t = none)
    (t : TypeId) : (s.holding d).get t = d.lookup t := by
  have hfold : ∀ entries : List (Sigma fun _ : TypeId => Store α),
      (entries.foldr (fun b s => s.put b.1 b.2) s).get t = entries.dlookup t := by
    intro entries
    induction entries with
    | nil => exact hs t
    | cons b entries ih =>
      obtain ⟨t', x⟩ := b
      rw [List.foldr_cons, get_put, ih]
      by_cases ht : t = t'
      · subst ht
        rw [if_pos rfl, List.dlookup_cons_eq]
      · rw [if_neg ht, List.dlookup_cons_ne _ _ ht]
  exact hfold d.entries

/-- However a revision is looked up, by a slot of any layout or by type, it is the stored one. -/
theorem revisionAt_eq (s : Stores α) (handle : Option Nat) (t : TypeId) (e : Entity) :
    s.revisionAt handle t e = ((s.get t).bind fun x => x.entries.lookup e).map Entry.revision := by
  unfold revisionAt
  cases handle with
  | none => rfl
  | some i =>
    dsimp only
    rw [getSlot_eq]

end Stores
end Porridge
