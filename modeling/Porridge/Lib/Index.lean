import Mathlib.Data.List.Sort
import Porridge.Lib.Dict

/-! Inverted indices: from each key to the nonempty, ordered bucket of the items that carry it. -/

/-- Buckets of items by key. -/
abbrev Index (κ ι : Type) := Dict κ (List ι)

namespace Index

variable {κ ι : Type} [DecidableEq κ]

def bucket (d : Index κ ι) (k : κ) : List ι := Dict.getD d k []

/-- The buckets hold exactly the items by their keys, and none is empty. -/
structure Inverts (d : Index κ ι) (key : ι → Option κ) : Prop where
  mem : ∀ k i, i ∈ d.bucket k ↔ key i = some k
  nonempty : ∀ k items, d.lookup k = some items → items ≠ []

variable {d : Index κ ι} {key key' : ι → Option κ} {i : ι} {k : Option κ}

theorem inverts_empty (hkey : ∀ i, key i = none) : Inverts (∅ : Index κ ι) key where
  mem k i := by
    rw [hkey]
    exact ⟨fun h => (nomatch h), fun h => (nomatch h)⟩
  nonempty _ _ h := nomatch h

theorem bucket_insert (k k' : κ) (items : List ι) :
    bucket (d.insert k items) k' = if k' = k then items else d.bucket k' :=
  Dict.getD_insert d k k' items []

theorem bucket_erase (k k' : κ) :
    bucket (d.erase k) k' = if k' = k then [] else d.bucket k' :=
  Dict.getD_erase d k k' []

theorem Inverts.congr (h : d.Inverts key) (hkey : ∀ i, key' i = key i) : d.Inverts key' := by
  have heq : key' = key := funext hkey
  rw [heq]
  exact h

section Updates

variable [LinearOrder ι]

/-- Put an item into the bucket of `k`, if there is a key. -/
def add (d : Index κ ι) (k : Option κ) (i : ι) : Index κ ι :=
  match k with
  | none => d
  | some k =>
    if i ∈ bucket d k then d else d.insert k ((bucket d k).orderedInsert (· ≤ ·) i)

/-- Take an item out of the bucket of `k`, and the bucket away when it empties. -/
def remove (d : Index κ ι) (k : Option κ) (i : ι) : Index κ ι :=
  match k with
  | none => d
  | some k =>
    match d.lookup k with
    | none => d
    | some items =>
      let rest := items.filter (· ≠ i)
      if rest = [] then d.erase k else d.insert k rest

/-- Follow an item from one key to another. -/
def move (d : Index κ ι) (old new : Option κ) (i : ι) : Index κ ι :=
  if old = new then d else (d.remove old i).add new i

/-- Following an item to no key takes it out of its bucket. -/
theorem move_none (d : Index κ ι) (old : Option κ) (i : ι) : d.move old none i = d.remove old i := by
  cases old with
  | none => rfl
  | some k => rfl

/-- An item without a key gets one. -/
theorem Inverts.add (h : d.Inverts key) (hi : key i = none)
    (hkey : ∀ j, key' j = if j = i then k else key j) : (d.add k i).Inverts key' := by
  cases k with
  | none =>
    refine h.congr fun j => ?_
    rw [hkey]
    split_ifs with hj
    · rw [hj, hi]
    · rfl
  | some k =>
    have hnot : i ∉ d.bucket k := by
      rw [h.mem, hi]
      exact nofun
    unfold Index.add
    dsimp only
    rw [if_neg hnot]
    constructor
    · intro k' j
      rw [bucket_insert, hkey]
      by_cases hk : k' = k
      · subst hk
        rw [if_pos rfl, List.mem_orderedInsert, h.mem]
        by_cases hj : j = i
        · simp [hj]
        · simp [hj]
      · rw [if_neg hk, h.mem]
        by_cases hj : j = i
        · rw [if_pos hj, hj, hi]
          simp [Ne.symm hk]
        · rw [if_neg hj]
    · intro k' items hitems
      rw [Dict.lookup_insert] at hitems
      split_ifs at hitems
      · cases hitems
        exact List.ne_nil_of_mem ((List.mem_orderedInsert _).mpr (Or.inl rfl))
      · exact h.nonempty k' items hitems

/-- An item loses its key. -/
theorem Inverts.remove (h : d.Inverts key) (hi : key i = k)
    (hkey : ∀ j, key' j = if j = i then none else key j) : (d.remove k i).Inverts key' := by
  cases k with
  | none =>
    refine h.congr fun j => ?_
    rw [hkey]
    split_ifs with hj
    · rw [hj, hi]
    · rfl
  | some k =>
    have hmem : i ∈ d.bucket k := (h.mem k i).mpr hi
    cases hlookup : d.lookup k with
    | none =>
      have hempty : d.bucket k = [] := by
        unfold bucket Dict.getD
        rw [hlookup]
        rfl
      rw [hempty] at hmem
      cases hmem
    | some items =>
      have hitems : d.bucket k = items := by
        unfold bucket Dict.getD
        rw [hlookup]
        rfl
      have hbucket : bucket (d.remove (some k) i) k = items.filter (· ≠ i) ∧
          ∀ k' ≠ k, bucket (d.remove (some k) i) k' = d.bucket k' := by
        unfold Index.remove
        simp only [hlookup]
        split_ifs with hrest
        · exact ⟨by rw [bucket_erase, if_pos rfl, hrest],
            fun k' hk => by rw [bucket_erase, if_neg hk]⟩
        · exact ⟨by rw [bucket_insert, if_pos rfl],
            fun k' hk => by rw [bucket_insert, if_neg hk]⟩
      constructor
      · intro k' j
        rw [hkey]
        by_cases hk : k' = k
        · subst hk
          rw [hbucket.1, List.mem_filter, ← hitems, h.mem]
          by_cases hj : j = i
          · simp [hj]
          · simp [hj]
        · rw [hbucket.2 k' hk, h.mem]
          by_cases hj : j = i
          · rw [if_pos hj, hj, hi]
            simp [Ne.symm hk]
          · rw [if_neg hj]
      · intro k' rest hrest
        unfold Index.remove at hrest
        simp only [hlookup] at hrest
        split_ifs at hrest with hempty
        · rw [Dict.lookup_erase] at hrest
          split_ifs at hrest
          exact h.nonempty k' rest hrest
        · rw [Dict.lookup_insert] at hrest
          split_ifs at hrest
          · cases hrest
            exact hempty
          · exact h.nonempty k' rest hrest

/-- An item moves to another key. -/
theorem Inverts.move (h : d.Inverts key) (hkey : ∀ j, key' j = if j = i then k else key j) :
    (d.move (key i) k i).Inverts key' := by
  unfold Index.move
  split_ifs with hsame
  · refine h.congr fun j => ?_
    rw [hkey]
    split_ifs with hj
    · rw [hj, hsame]
    · rfl
  · have hremoved : (d.remove (key i) i).Inverts fun j => if j = i then none else key j :=
      h.remove rfl fun _ => rfl
    refine hremoved.add (if_pos rfl) fun j => ?_
    rw [hkey]
    split_ifs <;> rfl

/-- Every bucket lists its items in ascending order, each once. -/
def Ordered (d : Index κ ι) : Prop := ∀ k, (d.bucket k).Pairwise (· < ·)

theorem ordered_empty : Ordered (∅ : Index κ ι) := fun _ => List.Pairwise.nil

theorem Ordered.insert (h : d.Ordered) {k : κ} {items : List ι} (hitems : items.Pairwise (· < ·)) :
    Ordered (d.insert k items) := by
  intro k'
  rw [bucket_insert]
  split_ifs
  · exact hitems
  · exact h k'

theorem Ordered.add (h : d.Ordered) (k : Option κ) (i : ι) : (d.add k i).Ordered := by
  unfold Index.add
  cases k with
  | none => exact h
  | some k =>
    dsimp only
    split_ifs with hmem
    · exact h
    · have hle : (bucket d k).Pairwise (· ≤ ·) := (h k).imp le_of_lt
      have hnodup : (i :: bucket d k).Nodup := List.nodup_cons.mpr ⟨hmem, (h k).imp ne_of_lt⟩
      have hsorted := hle.orderedInsert i
      have hdistinct := ((List.perm_orderedInsert (· ≤ ·) i (bucket d k)).nodup_iff).mpr hnodup
      exact h.insert ((hsorted.and hdistinct).imp fun hlt => lt_of_le_of_ne hlt.1 hlt.2)

theorem Ordered.remove (h : d.Ordered) (k : Option κ) (i : ι) : (d.remove k i).Ordered := by
  unfold Index.remove
  cases k with
  | none => exact h
  | some k =>
    dsimp only
    cases hitems : d.lookup k with
    | none => exact h
    | some items =>
      have hbucket : d.bucket k = items := by
        unfold bucket Dict.getD
        rw [hitems]
        rfl
      have hrest : (items.filter (· ≠ i)).Pairwise (· < ·) := hbucket ▸ (h k).filter _
      dsimp only
      split_ifs
      · intro k'
        rw [bucket_erase]
        split_ifs
        · exact List.Pairwise.nil
        · exact h k'
      · exact h.insert hrest

theorem Ordered.move (h : d.Ordered) (old new : Option κ) (i : ι) : (d.move old new i).Ordered := by
  unfold Index.move
  split_ifs
  · exact h
  · exact (h.remove old i).add new i

end Updates
end Index
