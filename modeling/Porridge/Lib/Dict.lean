import Mathlib.Data.List.AList

/-! Finite maps with a value type that does not depend on the key. -/

/-- A finite map from `κ` to `υ`, without duplicate keys. -/
abbrev Dict (κ υ : Type) := AList fun _ : κ => υ

namespace Dict

variable {κ υ : Type} [DecidableEq κ]

/-- Keep the bindings whose key and value satisfy `keep`. -/
def retain (keep : κ → υ → Bool) (d : Dict κ υ) : Dict κ υ where
  entries := d.entries.filter fun binding => keep binding.1 binding.2
  nodupKeys := List.NodupKeys.sublist List.filter_sublist d.nodupKeys

theorem mem_lookup_retain (keep : κ → υ → Bool) (d : Dict κ υ) (k : κ) (v : υ) :
    (retain keep d).lookup k = some v ↔ d.lookup k = some v ∧ keep k v = true := by
  have hkeep := @AList.mem_lookup_iff _ _ _ k v (retain keep d)
  have hd := @AList.mem_lookup_iff _ _ _ k v d
  simp only [Option.mem_def] at hkeep hd
  rw [hkeep, hd]
  simp [retain, List.mem_filter]

theorem lookup_retain (keep : κ → υ → Bool) (d : Dict κ υ) (k : κ) :
    (retain keep d).lookup k = (d.lookup k).filter (keep k) := by
  apply Option.ext
  intro v
  rw [mem_lookup_retain]
  simp [Option.filter_eq_some_iff]

/-- Retention by a predicate of the key only. -/
theorem lookup_retain_key (keep : κ → Bool) (d : Dict κ υ) (k : κ) :
    (retain (fun k _ => keep k) d).lookup k = if keep k then d.lookup k else none := by
  rw [lookup_retain]
  cases h : keep k <;> cases d.lookup k <;> simp

/-- Replace every value. -/
def mapValues (f : υ → υ) (d : Dict κ υ) : Dict κ υ where
  entries := d.entries.map fun binding => ⟨binding.1, f binding.2⟩
  nodupKeys := by
    have hkeys : (d.entries.map fun binding => (⟨binding.1, f binding.2⟩ : Sigma fun _ : κ => υ)).keys =
        d.entries.keys := by
      simp [List.keys, Function.comp_def]
    rw [List.NodupKeys, hkeys]
    exact d.nodupKeys

theorem lookup_mapValues (f : υ → υ) (d : Dict κ υ) (k : κ) :
    (mapValues f d).lookup k = (d.lookup k).map f := by
  apply Option.ext
  intro v
  have hmapped := @AList.mem_lookup_iff _ _ _ k v (mapValues f d)
  simp only [Option.mem_def] at hmapped
  rw [hmapped, Option.map_eq_some_iff]
  constructor
  · intro hmem
    obtain ⟨binding, hb, heq⟩ := List.mem_map.mp hmem
    cases heq
    exact ⟨binding.2, AList.mem_lookup_iff.mpr hb, rfl⟩
  · rintro ⟨v', hv', rfl⟩
    exact List.mem_map.mpr ⟨⟨k, v'⟩, AList.mem_lookup_iff.mp hv', rfl⟩

def arrange (order : List κ) (d : Dict κ υ) : Dict κ υ :=
  order.foldr (fun k rest =>
    match d.lookup k with
    | some v => rest.insert k v
    | none => rest) ∅

theorem lookup_arrange (order : List κ) (d : Dict κ υ) (k : κ) :
    (arrange order d).lookup k = if k ∈ order then d.lookup k else none := by
  induction order with
  | nil => rfl
  | cons k' order ih =>
    have hcons : arrange (k' :: order) d = match d.lookup k' with
        | some v => (arrange order d).insert k' v
        | none => arrange order d := rfl
    rw [hcons]
    by_cases hk : k = k'
    · subst hk
      cases hv : d.lookup k with
      | none => simp [ih, hv]
      | some v => simp
    · cases hv : d.lookup k' with
      | none => simp [ih, hk]
      | some v => simp [AList.lookup_insert_ne hk, ih, hk]

def getD (d : Dict κ υ) (k : κ) (v₀ : υ) : υ := (d.lookup k).getD v₀

theorem getD_insert (d : Dict κ υ) (k k' : κ) (v v₀ : υ) :
    getD (d.insert k v) k' v₀ = if k' = k then v else getD d k' v₀ := by
  by_cases h : k' = k
  · subst h; simp [getD]
  · simp [h, getD, AList.lookup_insert_ne h]

theorem getD_erase (d : Dict κ υ) (k k' : κ) (v₀ : υ) :
    getD (d.erase k) k' v₀ = if k' = k then v₀ else getD d k' v₀ := by
  by_cases h : k' = k
  · subst h; simp [getD]
  · simp [h, getD, AList.lookup_erase_ne h]

theorem lookup_insert (d : Dict κ υ) (k k' : κ) (v : υ) :
    (d.insert k v).lookup k' = if k' = k then some v else d.lookup k' := by
  by_cases h : k' = k
  · subst h; simp
  · simp [h, AList.lookup_insert_ne h]

theorem lookup_erase (d : Dict κ υ) (k k' : κ) :
    (d.erase k).lookup k' = if k' = k then none else d.lookup k' := by
  by_cases h : k' = k
  · subst h; simp
  · simp [h, AList.lookup_erase_ne h]

end Dict
