import Mathlib.Data.List.Perm.Basic

/-! Slots reused under a new generation, so that an id outlives what it named without naming
anything else. -/

structure SlotId where
  slot : Nat
  generation : Nat
deriving DecidableEq, Repr

structure Slot (υ : Type) where
  generation : Nat
  value : Option υ

/-- Slots, and the indices of those free for reuse, the next one first. -/
structure Arena (υ : Type) where
  slots : List (Slot υ)
  free : List Nat

namespace Arena

variable {υ : Type}

def empty : Arena υ := ⟨[], []⟩

def get (a : Arena υ) (id : SlotId) : Option υ :=
  (a.slots[id.slot]?).bind fun s => if s.generation = id.generation then s.value else none

/-- The values in use, in slot order. -/
def values (a : Arena υ) : List υ := a.slots.filterMap Slot.value

/-- Put a value into a free slot or a new one; `limit` bounds the number of slots. -/
def insert (limit : Nat) (a : Arena υ) (v : υ) : Option (SlotId × Arena υ) :=
  match a.free with
  | index :: free => do
    let s ← a.slots[index]?
    some (⟨index, s.generation⟩, ⟨a.slots.set index ⟨s.generation, some v⟩, free⟩)
  | [] =>
    if a.slots.length < limit then
      some (⟨a.slots.length, 0⟩, ⟨a.slots ++ [⟨0, some v⟩], []⟩)
    else none

/-- Take a value out; a slot in its last generation below `limit` is not reused. -/
def remove (limit : Nat) (a : Arena υ) (id : SlotId) : Option (υ × Arena υ) := do
  let s ← a.slots[id.slot]?
  if s.generation = id.generation then do
    let v ← s.value
    if s.generation + 1 < limit then
      some (v, ⟨a.slots.set id.slot ⟨s.generation + 1, none⟩, id.slot :: a.free⟩)
    else some (v, ⟨a.slots.set id.slot ⟨s.generation, none⟩, a.free⟩)
  else none

def idsWhere (a : Arena υ) (p : υ → Bool) : List SlotId :=
  a.slots.zipIdx.filterMap fun x =>
    (x.1.value.filter p).map fun _ => ⟨x.2, x.1.generation⟩

/-- Free slots are empty, and each is free once. -/
structure Ok (a : Arena υ) : Prop where
  nodup : a.free.Nodup
  vacant : ∀ i ∈ a.free, ∃ s, a.slots[i]? = some s ∧ s.value = none

theorem ok_empty : (empty : Arena υ).Ok := ⟨List.nodup_nil, fun _ h => nomatch h⟩

variable {a a' : Arena υ} {id : SlotId} {v : υ} {limit : Nat}

theorem get_eq_some : a.get id = some v ↔ a.slots[id.slot]? = some ⟨id.generation, some v⟩ := by
  unfold get
  rw [Option.bind_eq_some_iff]
  constructor
  · rintro ⟨⟨generation, value⟩, hs, hv⟩
    split_ifs at hv with hg
    rw [hs]
    exact congrArg some (by cases hg; cases hv; rfl)
  · intro hs
    exact ⟨_, hs, if_pos rfl⟩

theorem mem_values : v ∈ a.values ↔ ∃ id, a.get id = some v := by
  unfold values
  rw [List.mem_filterMap]
  constructor
  · rintro ⟨s, hs, hv⟩
    obtain ⟨i, hi⟩ := List.mem_iff_getElem?.mp hs
    refine ⟨⟨i, s.generation⟩, get_eq_some.mpr ?_⟩
    rw [hi, ← hv]
  · rintro ⟨id, hid⟩
    exact ⟨_, List.mem_of_getElem? (get_eq_some.mp hid), rfl⟩

/-- A slot holds one generation at a time. -/
theorem get_same_slot {id' : SlotId} {v' : υ} (h : a.get id = some v) (h' : a.get id' = some v')
    (hslot : id.slot = id'.slot) : id = id' := by
  have hs := get_eq_some.mp h
  rw [hslot, get_eq_some.mp h'] at hs
  cases id
  cases id'
  cases hs
  exact congrArg (SlotId.mk · _) hslot

/-- What a slot holds once it has been set. -/
theorem get_set {s : Slot υ} {i : Nat} {free : List Nat} (hi : i < a.slots.length) (id' : SlotId) :
    (Arena.mk (a.slots.set i s) free).get id' =
      if id'.slot = i then (if s.generation = id'.generation then s.value else none)
      else a.get id' := by
  unfold get
  rw [List.getElem?_set]
  by_cases hslot : id'.slot = i
  · rw [if_pos hslot, if_pos hslot.symm, if_pos hi]
    rfl
  · rw [if_neg hslot, if_neg fun h => hslot h.symm]

theorem filterMap_set_perm {i : Nat} {s : Slot υ} (s' : Slot υ) : ∀ {slots : List (Slot υ)},
    slots[i]? = some s → s.value = none → s'.value = some v →
      ((slots.set i s').filterMap Slot.value).Perm (v :: slots.filterMap Slot.value) := by
  induction i with
  | zero =>
    intro slots hs hnone hsome
    cases slots with
    | nil => cases hs
    | cons x rest =>
      cases hs
      rw [List.set_cons_zero, List.filterMap_cons_some hsome, List.filterMap_cons_none hnone]
  | succ i ih =>
    intro slots hs hnone hsome
    cases slots with
    | nil => cases hs
    | cons x rest =>
      have hget : rest[i]? = some s := by simpa using hs
      have hrest := ih hget hnone hsome
      rw [List.set_cons_succ]
      cases hx : x.value with
      | none =>
        rw [List.filterMap_cons_none hx, List.filterMap_cons_none hx]
        exact hrest
      | some y =>
        rw [List.filterMap_cons_some hx, List.filterMap_cons_some hx]
        exact (hrest.cons y).trans (List.Perm.swap v y _)

/-- An insertion names a fresh id and leaves every other one as it was. -/
theorem insert_spec (h : a.Ok) (hi : a.insert limit v = some (id, a')) :
    a'.Ok ∧ (∀ id', a'.get id' = if id' = id then some v else a.get id') ∧ a.get id = none ∧
      a'.values.Perm (v :: a.values) := by
  unfold insert at hi
  split at hi
  · rename_i index free hfree
    obtain ⟨s, hs, hi⟩ := Option.bind_eq_some_iff.mp hi
    cases hi
    obtain ⟨hnotin, hnodup⟩ := List.nodup_cons.mp (hfree ▸ h.nodup)
    obtain ⟨s', hs', hvacant⟩ := h.vacant index (hfree ▸ List.mem_cons_self)
    cases hs.symm.trans hs'
    have hlt : index < a.slots.length := (List.getElem?_eq_some_iff.mp hs).1
    have hnone : ∀ generation, a.get ⟨index, generation⟩ = none := by
      intro generation
      simp [get, hs, hvacant]
    refine ⟨⟨hnodup, fun i hmem => ?_⟩, fun id' => ?_, hnone _, ?_⟩
    · obtain ⟨s', hs', hv⟩ := h.vacant i (hfree ▸ List.mem_cons_of_mem _ hmem)
      have hne : index ≠ i := fun heq => hnotin (heq ▸ hmem)
      exact ⟨s', by rw [List.getElem?_set_ne hne, hs'], hv⟩
    · rw [get_set hlt]
      by_cases hslot : id'.slot = index
      · rw [if_pos hslot]
        by_cases hgen : s.generation = id'.generation
        · have heq : id' = ⟨index, s.generation⟩ := by
            cases id'
            exact congrArg₂ SlotId.mk hslot hgen.symm
          rw [if_pos hgen, if_pos heq]
        · have hne : id' ≠ ⟨index, s.generation⟩ := fun heq => hgen (by rw [heq])
          rw [if_neg hgen, if_neg hne]
          cases id'
          cases hslot
          exact (hnone _).symm
      · have hne : id' ≠ ⟨index, s.generation⟩ := fun heq => hslot (by rw [heq])
        rw [if_neg hslot, if_neg hne]
    · exact filterMap_set_perm _ hs hvacant rfl
  · rename_i hfree
    split_ifs at hi
    cases hi
    have hnone : ∀ generation, a.get ⟨a.slots.length, generation⟩ = none := by
      intro generation
      simp [get]
    refine ⟨⟨List.nodup_nil, fun _ hmem => nomatch hmem⟩, fun id' => ?_, hnone _, ?_⟩
    · unfold get
      by_cases hslot : id'.slot = a.slots.length
      · rw [hslot, List.getElem?_concat_length]
        by_cases hgen : 0 = id'.generation
        · have heq : id' = ⟨a.slots.length, 0⟩ := by
            cases id'
            exact congrArg₂ SlotId.mk hslot hgen.symm
          rw [if_pos heq]
          exact if_pos hgen
        · have hne : id' ≠ ⟨a.slots.length, 0⟩ := fun heq => hgen (by rw [heq])
          rw [if_neg hne, List.getElem?_eq_none (Nat.le_refl _)]
          exact if_neg hgen
      · have hne : id' ≠ ⟨a.slots.length, 0⟩ := fun heq => hslot (by rw [heq])
        rw [if_neg hne, List.getElem?_append]
        split_ifs with hlt
        · rfl
        · have hbeyond : 0 < id'.slot - a.slots.length := by omega
          have hshort : [(⟨0, some v⟩ : Slot υ)].length ≤ id'.slot - a.slots.length := hbeyond
          rw [List.getElem?_eq_none hshort, List.getElem?_eq_none (by omega)]
    · have happend : (a.slots ++ [(⟨0, some v⟩ : Slot υ)]).filterMap Slot.value =
          a.slots.filterMap Slot.value ++ [v] := by
        rw [List.filterMap_append]
        rfl
      show ((a.slots ++ [(⟨0, some v⟩ : Slot υ)]).filterMap Slot.value).Perm _
      rw [happend]
      exact List.perm_append_singleton v _

/-- A removal ends the life of its id and leaves every other one as it was. -/
theorem remove_spec (h : a.Ok) (hr : a.remove limit id = some (v, a')) :
    a'.Ok ∧ (∀ id', a'.get id' = if id' = id then none else a.get id') ∧ a.get id = some v ∧
      a.values.Perm (v :: a'.values) := by
  obtain ⟨s, hs, hr⟩ := Option.bind_eq_some_iff.mp hr
  by_cases hgen : s.generation = id.generation
  swap
  · rw [if_neg hgen] at hr
    cases hr
  rw [if_pos hgen] at hr
  obtain ⟨v', hv, hr⟩ := Option.bind_eq_some_iff.mp hr
  have hget : a.get id = some v' := get_eq_some.mpr (by rw [hs, ← hv, ← hgen])
  have hlt : id.slot < a.slots.length := (List.getElem?_eq_some_iff.mp hs).1
  have hnotfree : id.slot ∉ a.free := by
    intro hmem
    obtain ⟨s', hs', hnone⟩ := h.vacant _ hmem
    cases hs.symm.trans hs'
    rw [hv] at hnone
    cases hnone
  have hgone : ∀ (generation : Nat) (free : List Nat) (id' : SlotId),
      (Arena.mk (a.slots.set id.slot ⟨generation, none⟩) free).get id' =
        if id' = id then none else a.get id' := by
    intro generation free id'
    rw [get_set hlt]
    by_cases hslot : id'.slot = id.slot
    · rw [if_pos hslot, ite_self]
      by_cases heq : id' = id
      · rw [if_pos heq]
      · rw [if_neg heq]
        cases hother : a.get id' with
        | none => rfl
        | some v'' => exact absurd (get_same_slot hother hget hslot) heq
    · rw [if_neg hslot, if_neg fun heq => hslot (by rw [heq])]
  have hperm : ∀ (generation : Nat) (free : List Nat),
      a.values.Perm (v' :: (Arena.mk (a.slots.set id.slot ⟨generation, none⟩) free).values) := by
    intro generation free
    have hset : (a.slots.set id.slot (⟨generation, none⟩ : Slot υ))[id.slot]? =
        some ⟨generation, none⟩ := List.getElem?_set_self hlt
    have hback := filterMap_set_perm s hset rfl hv
    rw [List.set_set] at hback
    have hsame : a.slots.set id.slot s = a.slots := by
      rw [← Option.some.inj ((List.getElem?_eq_getElem hlt).symm.trans hs)]
      exact List.set_getElem_self hlt
    rwa [hsame] at hback
  have hstill : ∀ (generation : Nat), ∀ i ∈ a.free,
      ∃ s', (a.slots.set id.slot ⟨generation, none⟩)[i]? = some s' ∧ s'.value = none := by
    intro generation i hi
    obtain ⟨s', hs', hnone⟩ := h.vacant i hi
    have hne : id.slot ≠ i := fun heq => hnotfree (heq ▸ hi)
    exact ⟨s', by rw [List.getElem?_set_ne hne, hs'], hnone⟩
  split_ifs at hr
  · cases hr
    refine ⟨⟨List.nodup_cons.mpr ⟨hnotfree, h.nodup⟩, fun i hi => ?_⟩, hgone _ _, hget, hperm _ _⟩
    rcases List.mem_cons.mp hi with rfl | hi
    · exact ⟨_, List.getElem?_set_self hlt, rfl⟩
    · exact hstill _ i hi
  · cases hr
    exact ⟨⟨h.nodup, hstill _⟩, hgone _ _, hget, hperm _ _⟩

/-- What an id names can be taken out. -/
theorem exists_remove (limit : Nat) (h : a.get id = some v) : ∃ a', a.remove limit id = some (v, a') := by
  have hs := get_eq_some.mp h
  unfold remove
  rw [hs]
  show ∃ a', (if id.generation = id.generation then _ else none) = some (v, a')
  rw [if_pos rfl]
  show ∃ a', (if id.generation + 1 < limit then _ else _) = some (v, a')
  split_ifs
  · exact ⟨_, rfl⟩
  · exact ⟨_, rfl⟩

theorem mem_idsWhere {p : υ → Bool} :
    id ∈ a.idsWhere p ↔ ∃ v, a.get id = some v ∧ p v = true := by
  unfold idsWhere
  rw [List.mem_filterMap]
  constructor
  · rintro ⟨⟨s, i⟩, hmem, hid⟩
    obtain ⟨v, hv, rfl⟩ := Option.map_eq_some_iff.mp hid
    obtain ⟨hvalue, hp⟩ := Option.filter_eq_some_iff.mp hv
    have hs : a.slots[i]? = some s := List.mk_mem_zipIdx_iff_getElem?.mp hmem
    exact ⟨v, get_eq_some.mpr (by rw [hs, ← hvalue]), hp⟩
  · rintro ⟨v, hget, hp⟩
    refine ⟨(⟨id.generation, some v⟩, id.slot), ?_, ?_⟩
    · exact List.mk_mem_zipIdx_iff_getElem?.mpr (get_eq_some.mp hget)
    · show ((some v).filter p).map _ = some id
      rw [Option.filter_some, if_pos hp]
      rfl

/-- No slot is free, and no further one may be added. -/
def Full (limit : Nat) (a : Arena υ) : Prop := a.free = [] ∧ limit ≤ a.slots.length

/-- An insertion fails only for want of a slot. -/
theorem insert_eq_none_iff (h : a.Ok) : a.insert limit v = none ↔ a.Full limit := by
  unfold insert Full
  cases hfree : a.free with
  | nil =>
    dsimp only
    split_ifs with hlt
    · exact iff_of_false nofun fun hfull => absurd hlt (Nat.not_lt.mpr hfull.2)
    · exact iff_of_true rfl ⟨rfl, Nat.not_lt.mp hlt⟩
  | cons index free =>
    obtain ⟨s, hs, -⟩ := h.vacant index (hfree ▸ List.mem_cons_self)
    refine iff_of_false ?_ fun hfull => nomatch hfull.1
    dsimp only
    rw [hs]
    exact nofun

section Enumeration

theorem nodup_idsWhere (a : Arena υ) (p : υ → Bool) : (a.idsWhere p).Nodup := by
  unfold idsWhere List.Nodup
  rw [List.pairwise_filterMap]
  have hindices : a.slots.zipIdx.Pairwise fun x y => x.2 ≠ y.2 := by
    have hrange : (a.slots.zipIdx.map Prod.snd).Nodup := by
      rw [List.zipIdx_map_snd]
      exact List.nodup_range'
    exact List.pairwise_map.mp hrange
  refine hindices.imp fun {x y} hne id hx id' hy heq => hne ?_
  obtain ⟨_, -, rfl⟩ := Option.map_eq_some_iff.mp hx
  obtain ⟨_, -, rfl⟩ := Option.map_eq_some_iff.mp hy
  exact congrArg SlotId.slot heq

theorem values_eq (a : Arena υ) : a.values = (a.idsWhere fun _ => true).filterMap a.get := by
  unfold values idsWhere
  rw [List.filterMap_filterMap]
  have hslots : a.slots.filterMap Slot.value = a.slots.zipIdx.filterMap fun x => x.1.value := by
    conv_lhs => rw [← List.zipIdx_map_fst 0 a.slots]
    rw [List.filterMap_map]
    rfl
  rw [hslots]
  refine List.filterMap_congr fun x hx => ?_
  have hs : a.slots[x.2]? = some x.1 := List.mk_mem_zipIdx_iff_getElem?.mp hx
  cases hvalue : x.1.value with
  | none => rfl
  | some v =>
    have hget : a.get ⟨x.2, x.1.generation⟩ = some v := get_eq_some.mpr (by rw [hs, ← hvalue])
    exact hget.symm

/-- The values in use, by any list of their ids. -/
theorem values_perm {ids : List SlotId} (hnodup : ids.Nodup)
    (hids : ∀ id, id ∈ ids ↔ (a.get id).isSome = true) : a.values.Perm (ids.filterMap a.get) := by
  rw [values_eq]
  refine List.Perm.filterMap _ ((List.perm_ext_iff_of_nodup (nodup_idsWhere a _) hnodup).mpr ?_)
  intro id
  rw [mem_idsWhere, hids, Option.isSome_iff_exists]
  simp only [and_true]

end Enumeration

/-! ## Arenas whose slots are in step -/

section Alike

variable {ω : Type} {b b' : Arena ω} {u : ω}

/-- The slots are in the same generations, and the same ones are free. -/
structure InStep (a : Arena υ) (b : Arena ω) : Prop where
  free : b.free = a.free
  generations : b.slots.map Slot.generation = a.slots.map Slot.generation

theorem InStep.generation (h : a.InStep b) (i : Nat) :
    (b.slots[i]?).map Slot.generation = (a.slots[i]?).map Slot.generation := by
  rw [← List.getElem?_map, ← List.getElem?_map, h.generations]

theorem InStep.length (h : a.InStep b) : b.slots.length = a.slots.length := by
  have hlength := congrArg List.length h.generations
  rwa [List.length_map, List.length_map] at hlength

theorem InStep.set (h : a.InStep b) {free : List Nat} (i generation : Nat) (x : Option υ)
    (y : Option ω) : InStep ⟨a.slots.set i ⟨generation, x⟩, free⟩
      ⟨b.slots.set i ⟨generation, y⟩, free⟩ where
  free := rfl
  generations := by
    rw [List.map_set, List.map_set, h.generations]

/-- Insertions into slots in step get the same id. -/
theorem InStep.insert (h : a.InStep b) (hi : a.insert limit v = some (id, a')) :
    ∃ b', b.insert limit u = some (id, b') ∧ a'.InStep b' := by
  unfold Arena.insert at hi ⊢
  rw [h.free]
  cases hfree : a.free with
  | nil =>
    rw [hfree] at hi
    dsimp only at hi ⊢
    rw [h.length]
    split_ifs at hi with hlt
    cases hi
    refine ⟨_, if_pos hlt, rfl, ?_⟩
    rw [List.map_append, List.map_append, h.generations]
    rfl
  | cons index free =>
    rw [hfree] at hi
    obtain ⟨s, hs, hi⟩ := Option.bind_eq_some_iff.mp hi
    cases hi
    have hgeneration := h.generation index
    rw [hs] at hgeneration
    obtain ⟨s', hs', hsame⟩ := Option.map_eq_some_iff.mp hgeneration
    refine ⟨⟨b.slots.set index ⟨s'.generation, some u⟩, free⟩, ?_, ?_⟩
    · dsimp only
      rw [hs', ← hsame]
      rfl
    · rw [hsame]
      exact h.set index s.generation (some v) (some u)

/-- Removals of an id in use on both sides leave the slots in step. -/
theorem InStep.remove (h : a.InStep b) (ha : a.remove limit id = some (v, a'))
    (hb : b.remove limit id = some (u, b')) : a'.InStep b' := by
  obtain ⟨s, hs, ha⟩ := Option.bind_eq_some_iff.mp ha
  obtain ⟨s', hs', hb⟩ := Option.bind_eq_some_iff.mp hb
  have hsame : s'.generation = s.generation := by
    have hgeneration := h.generation id.slot
    rw [hs, hs'] at hgeneration
    exact Option.some.inj hgeneration
  rw [hsame] at hb
  by_cases hgen : s.generation = id.generation
  swap
  · rw [if_neg hgen] at ha
    cases ha
  rw [if_pos hgen] at ha hb
  obtain ⟨x, -, ha⟩ := Option.bind_eq_some_iff.mp ha
  obtain ⟨y, -, hb⟩ := Option.bind_eq_some_iff.mp hb
  by_cases hlast : s.generation + 1 < limit
  · rw [if_pos hlast] at ha hb
    cases ha
    cases hb
    rw [h.free]
    exact h.set id.slot (s.generation + 1) none none
  · rw [if_neg hlast] at ha hb
    cases ha
    cases hb
    rw [h.free]
    exact h.set id.slot s.generation none none

/-- Where the same ids are in use, and satisfy the same, they are listed alike. -/
theorem InStep.idsWhere (h : a.InStep b) {p : υ → Bool} {q : ω → Bool}
    (hpq : ∀ id, (b.get id).any q = (a.get id).any p) : b.idsWhere q = a.idsWhere p := by
  have hids : ∀ {τ : Type} (c : Arena τ) (p : τ → Bool), c.idsWhere p =
      (c.slots.map Slot.generation).zipIdx.filterMap fun x =>
        if (c.get ⟨x.2, x.1⟩).any p then some ⟨x.2, x.1⟩ else none := by
    intro τ c p
    unfold Arena.idsWhere
    rw [List.zipIdx_map, List.filterMap_map]
    refine List.filterMap_congr fun x hx => ?_
    have hs : c.slots[x.2]? = some x.1 := List.mk_mem_zipIdx_iff_getElem?.mp hx
    have hget : c.get ⟨x.2, x.1.generation⟩ = x.1.value := by
      rw [Arena.get, hs]
      exact if_pos rfl
    show _ = if (c.get ⟨x.2, x.1.generation⟩).any p then some _ else none
    rw [hget]
    cases x.1.value with
    | none => rfl
    | some v => cases hv : p v <;> simp [hv]
  rw [hids, hids, h.generations]
  simp only [hpq]

end Alike

/-! ## The ids handed out -/

section Issued

variable {issued : List SlotId}

/-- The ids handed out are those of earlier generations, and of the current one unless the slot is
free; an empty slot that is not free is in its last generation. -/
structure Numbered (limit : Nat) (issued : List SlotId) (a : Arena υ) : Prop where
  ok : a.Ok
  distinct : issued.Nodup
  mem_iff : ∀ id, id ∈ issued ↔ ∃ s : Slot υ, a.slots[id.slot]? = some s ∧
    (id.generation < s.generation ∨ id.generation = s.generation ∧ id.slot ∉ a.free)
  bounded : ∀ (i : Nat) (s : Slot υ), a.slots[i]? = some s → s.generation < limit
  retired : ∀ (i : Nat) (s : Slot υ), a.slots[i]? = some s → s.value = none → i ∉ a.free → s.generation + 1 = limit

theorem numbered_empty (limit : Nat) : (empty : Arena υ).Numbered limit [] where
  ok := ok_empty
  distinct := List.nodup_nil
  mem_iff id := by simp [empty]
  bounded _ _ h := nomatch h
  retired _ _ h := nomatch h

/-- The free list holds the empty slots whose id has not been handed out. -/
theorem Numbered.mem_free (h : a.Numbered limit issued) (i : Nat) : i ∈ a.free ↔
    ∃ s, a.slots[i]? = some s ∧ s.value = none ∧ ⟨i, s.generation⟩ ∉ issued := by
  constructor
  · intro hi
    obtain ⟨s, hs, hvacant⟩ := h.ok.vacant i hi
    refine ⟨s, hs, hvacant, fun hissued => ?_⟩
    obtain ⟨s', hs', hearlier | ⟨-, hnot⟩⟩ := (h.mem_iff _).mp hissued
    · cases hs.symm.trans hs'
      exact Nat.lt_irrefl _ hearlier
    · exact hnot hi
  · rintro ⟨s, hs, -, hissued⟩
    by_contra hnot
    exact hissued ((h.mem_iff _).mpr ⟨s, hs, Or.inr ⟨rfl, hnot⟩⟩)

/-- What an id names has been handed out. -/
theorem Numbered.issued_of_get (h : a.Numbered limit issued) (hget : a.get id = some v) :
    id ∈ issued := by
  have hs := get_eq_some.mp hget
  refine (h.mem_iff id).mpr ⟨_, hs, Or.inr ⟨rfl, fun hfree => ?_⟩⟩
  obtain ⟨s, hs', hvacant⟩ := h.ok.vacant _ hfree
  cases hs.symm.trans hs'
  cases hvacant

/-- An insertion hands out an id for the first time. -/
theorem Numbered.insert (h : a.Numbered limit issued) (hlimit : 0 < limit)
    (hi : a.insert limit v = some (id, a')) : id ∉ issued ∧ a'.Numbered limit (issued ++ [id]) := by
  have hok := (insert_spec h.ok hi).1
  have hjoin : id ∉ issued → (issued ++ [id]).Nodup := fun hnew =>
    List.nodup_append.mpr ⟨h.distinct, List.pairwise_singleton _ id, fun x hx y hy heq =>
      hnew (List.mem_singleton.mp hy ▸ heq ▸ hx)⟩
  unfold Arena.insert at hi
  split at hi
  · rename_i index free hfree
    obtain ⟨s, hs, hi⟩ := Option.bind_eq_some_iff.mp hi
    cases hi
    have hlt : index < a.slots.length := (List.getElem?_eq_some_iff.mp hs).1
    have hmem : index ∈ a.free := hfree ▸ List.mem_cons_self
    have hnot : index ∉ free := (List.nodup_cons.mp (hfree ▸ h.ok.nodup)).1
    have hself : (a.slots.set index ⟨s.generation, some v⟩)[index]? = some ⟨s.generation, some v⟩ :=
      List.getElem?_set_self hlt
    have hother : ∀ i, i ≠ index → (a.slots.set index ⟨s.generation, some v⟩)[i]? = a.slots[i]? :=
      fun i hi => List.getElem?_set_ne (Ne.symm hi)
    have hold : ∀ i, i ≠ index → (i ∈ free ↔ i ∈ a.free) := fun i hi => by simp [hfree, hi]
    have hnew : (⟨index, s.generation⟩ : SlotId) ∉ issued := by
      intro hissued
      obtain ⟨s', hs', hearlier | ⟨-, hnot'⟩⟩ := (h.mem_iff _).mp hissued
      · cases hs.symm.trans hs'
        exact Nat.lt_irrefl _ hearlier
      · exact hnot' hmem
    refine ⟨hnew, ⟨hok, hjoin hnew, fun id' => ?_, fun i s' hs' => ?_, fun i s' hs' hnone hi => ?_⟩⟩
    · obtain ⟨i, generation⟩ := id'
      rw [List.mem_append, List.mem_singleton, h.mem_iff]
      by_cases heq : i = index
      · subst heq
        dsimp only
        rw [hself]
        simp only [hs, Option.some.injEq, exists_eq_left', hmem, hnot, not_true_eq_false, and_false,
          or_false, SlotId.mk.injEq, true_and, not_false_eq_true, and_true]
      · dsimp only
        rw [hother i heq]
        simp only [SlotId.mk.injEq, heq, false_and, or_false, hold i heq]
    · by_cases heq : i = index
      · subst heq
        cases hself.symm.trans hs'
        exact h.bounded i s hs
      · exact h.bounded i s' ((hother i heq).symm.trans hs')
    · by_cases heq : i = index
      · subst heq
        cases hself.symm.trans hs'
        cases hnone
      · refine h.retired i s' ((hother i heq).symm.trans hs') hnone ?_
        exact fun hmem' => hi ((hold i heq).mpr hmem')
  · rename_i hfree
    split_ifs at hi
    cases hi
    have hslots : ∀ i (s' : Slot υ), (a.slots ++ [⟨0, some v⟩])[i]? = some s' ↔
        a.slots[i]? = some s' ∨ i = a.slots.length ∧ s' = ⟨0, some v⟩ := by
      intro i s'
      rw [List.getElem?_append]
      split_ifs with hlt
      · simp [Nat.ne_of_lt hlt]
      · rw [List.getElem?_eq_none (Nat.not_lt.mp hlt), List.getElem?_singleton]
        split_ifs with hzero
        · have hlast : i = a.slots.length := by omega
          simp [hlast, eq_comm]
        · have hlast : i ≠ a.slots.length := by omega
          simp [hlast]
    have hnew : (⟨a.slots.length, 0⟩ : SlotId) ∉ issued := by
      intro hissued
      obtain ⟨s', hs', -⟩ := (h.mem_iff _).mp hissued
      exact Nat.lt_irrefl _ (List.getElem?_eq_some_iff.mp hs').1
    refine ⟨hnew, ⟨hok, hjoin hnew, fun id' => ?_, fun i s' hs' => ?_, fun i s' hs' hnone hi => ?_⟩⟩
    · obtain ⟨i, generation⟩ := id'
      rw [List.mem_append, List.mem_singleton, h.mem_iff]
      simp only [hslots, hfree, List.not_mem_nil, not_false_eq_true, and_true]
      constructor
      · rintro (⟨s', hs', hle⟩ | heq)
        · exact ⟨s', Or.inl hs', hle⟩
        · cases heq
          exact ⟨_, Or.inr ⟨rfl, rfl⟩, Or.inr rfl⟩
      · rintro ⟨s', hs' | ⟨rfl, rfl⟩, hle⟩
        · exact Or.inl ⟨s', hs', hle⟩
        · rcases hle with hlt | rfl
          · exact absurd hlt (Nat.not_lt_zero _)
          · exact Or.inr rfl
    · rcases (hslots i s').mp hs' with hs' | ⟨-, rfl⟩
      · exact h.bounded i s' hs'
      · exact hlimit
    · rcases (hslots i s').mp hs' with hs' | ⟨-, rfl⟩
      · exact h.retired i s' hs' hnone (by simp [hfree])
      · cases hnone

/-- A removal hands out nothing. -/
theorem Numbered.remove (h : a.Numbered limit issued) (hr : a.remove limit id = some (v, a')) :
    a'.Numbered limit issued := by
  have hok := (remove_spec h.ok hr).1
  obtain ⟨s, hs, hr⟩ := Option.bind_eq_some_iff.mp hr
  by_cases hgen : s.generation = id.generation
  swap
  · rw [if_neg hgen] at hr
    cases hr
  rw [if_pos hgen] at hr
  obtain ⟨v', hv, hr⟩ := Option.bind_eq_some_iff.mp hr
  have hlt : id.slot < a.slots.length := (List.getElem?_eq_some_iff.mp hs).1
  have hnotfree : id.slot ∉ a.free := by
    intro hmem
    obtain ⟨s', hs', hnone⟩ := h.ok.vacant _ hmem
    cases hs.symm.trans hs'
    rw [hv] at hnone
    cases hnone
  have hself : ∀ generation, (a.slots.set id.slot (⟨generation, none⟩ : Slot υ))[id.slot]? =
      some ⟨generation, none⟩ := fun _ => List.getElem?_set_self hlt
  have hother : ∀ generation i, i ≠ id.slot →
      (a.slots.set id.slot (⟨generation, none⟩ : Slot υ))[i]? = a.slots[i]? :=
    fun _ i hi => List.getElem?_set_ne (Ne.symm hi)
  split_ifs at hr with hlast
  · cases hr
    have hold : ∀ i, i ≠ id.slot → (i ∈ id.slot :: a.free ↔ i ∈ a.free) := fun i hi => by simp [hi]
    refine ⟨hok, h.distinct, fun id' => ?_, fun i s' hs' => ?_, fun i s' hs' hnone hi => ?_⟩
    · obtain ⟨i, generation⟩ := id'
      rw [h.mem_iff]
      by_cases heq : i = id.slot
      · subst heq
        dsimp only
        rw [hself]
        simp only [hs, Option.some.injEq, exists_eq_left', hnotfree, List.mem_cons_self,
          not_true_eq_false, and_false, or_false, not_false_eq_true, and_true]
        omega
      · dsimp only
        rw [hother _ i heq]
        simp only [hold i heq]
    · by_cases heq : i = id.slot
      · subst heq
        cases (hself _).symm.trans hs'
        exact hlast
      · exact h.bounded i s' ((hother _ i heq).symm.trans hs')
    · have heq : i ≠ id.slot := fun heq => hi (heq ▸ List.mem_cons_self)
      refine h.retired i s' ((hother _ i heq).symm.trans hs') hnone ?_
      exact fun hmem => hi (List.mem_cons_of_mem _ hmem)
  · cases hr
    have hbound := h.bounded _ s hs
    refine ⟨hok, h.distinct, fun id' => ?_, fun i s' hs' => ?_, fun i s' hs' hnone hi => ?_⟩
    · obtain ⟨i, generation⟩ := id'
      rw [h.mem_iff]
      by_cases heq : i = id.slot
      · subst heq
        dsimp only
        rw [hself]
        simp only [hs, Option.some.injEq, exists_eq_left']
      · dsimp only
        rw [hother _ i heq]
    · by_cases heq : i = id.slot
      · subst heq
        cases (hself _).symm.trans hs'
        exact hbound
      · exact h.bounded i s' ((hother _ i heq).symm.trans hs')
    · by_cases heq : i = id.slot
      · subst heq
        cases (hself _).symm.trans hs'
        dsimp only
        omega
      · exact h.retired i s' ((hother _ i heq).symm.trans hs') hnone hi

end Issued

end Arena
