import Porridge.Component
import Porridge.Lib.BitMatrix

/-! Presence bits: which components of a closed universe each entity carries. -/
namespace Porridge

/-- One bit per entity and universe component. -/
structure PresenceIndex where
  bitFor : Dict TypeId Nat
  bits : BitMatrix
deriving DecidableEq

namespace PresenceIndex

/-- The component types of a schema, each once. -/
def universeOf (schema : List TypeId) : List TypeId :=
  schema.foldl (fun types t => if t ∈ types then types else types ++ [t]) []

/-- Number the types of a universe; a row of bits has room for every number. -/
def number (types : List TypeId) (start : Nat) (bitFor : Dict TypeId Nat) : Dict TypeId Nat :=
  (types.zipIdx start).foldl (fun bitFor p => bitFor.insert p.1 p.2) bitFor

def new (types : List TypeId) : PresenceIndex :=
  let bitFor := number types 0 ∅
  ⟨bitFor, .empty (max ((bitFor.entries.length + 63) / 64) 1)⟩

variable (p : PresenceIndex)

def set (t : TypeId) (e : Entity) (present : Bool) : PresenceIndex :=
  match p.bitFor.lookup t with
  | none => p
  | some bit => { p with bits := p.bits.set e bit present }

def clearEntity (e : Entity) : PresenceIndex := { p with bits := p.bits.clearRow e }

/-- Every component of the universe has a bit of its own in each row. -/
structure Ok : Prop where
  whole : p.bits.Whole
  fits : ∀ t bit, p.bitFor.lookup t = some bit → bit < 64 * p.bits.stride
  inj : ∀ t t' bit, p.bitFor.lookup t = some bit → p.bitFor.lookup t' = some bit → t = t'

def Shows (carries : TypeId → Entity → Bool) : Prop :=
  ∀ t bit, p.bitFor.lookup t = some bit → ∀ e, p.bits.get e bit = carries t e

theorem nodup_universeOf (schema : List TypeId) : (universeOf schema).Nodup := by
  refine List.foldlRecOn schema _ (motive := List.Nodup) List.nodup_nil fun types h t _ => ?_
  split_ifs with hmem
  · exact h
  · refine List.nodup_append.mpr ⟨h, List.nodup_singleton t, fun a ha b hb heq => hmem ?_⟩
    rw [← List.mem_singleton.mp hb, ← heq]
    exact ha

theorem mem_universeOf {schema : List TypeId} {t : TypeId} : t ∈ universeOf schema ↔ t ∈ schema := by
  have hfold : ∀ (types : List TypeId),
      t ∈ schema.foldl (fun types t => if t ∈ types then types else types ++ [t]) types ↔
        t ∈ types ∨ t ∈ schema := by
    induction schema with
    | nil => simp
    | cons t' schema ih =>
      intro types
      rw [List.foldl_cons, ih, List.mem_cons]
      by_cases hmem : t' ∈ types
      · rw [if_pos hmem]
        constructor
        · tauto
        · rintro (h | rfl | h)
          · exact Or.inl h
          · exact Or.inl hmem
          · exact Or.inr h
      · rw [if_neg hmem, List.mem_append, List.mem_singleton]
        tauto
  rw [universeOf, hfold]
  simp

theorem set_bitFor (t : TypeId) (e : Entity) (present : Bool) :
    (p.set t e present).bitFor = p.bitFor := by
  unfold PresenceIndex.set
  split
  · rfl
  · rfl

/-- The numbers given out are those below `n`, one to each type. -/
structure Dense (bitFor : Dict TypeId Nat) (n : Nat) : Prop where
  size : bitFor.entries.length = n
  lt : ∀ t bit, bitFor.lookup t = some bit → bit < n
  inj : ∀ t t' bit, bitFor.lookup t = some bit → bitFor.lookup t' = some bit → t = t'

theorem Dense.number : ∀ (types : List TypeId) {n : Nat} {bitFor : Dict TypeId Nat},
    Dense bitFor n → types.Nodup → (∀ t ∈ types, t ∉ bitFor) →
      Dense (number types n bitFor) (n + types.length) ∧
        ∀ t, t ∈ PresenceIndex.number types n bitFor ↔ t ∈ bitFor ∨ t ∈ types
  | [], n, bitFor, h, _, _ => ⟨h, fun t => by simp [PresenceIndex.number]⟩
  | t :: types, n, bitFor, h, hnodup, hfresh => by
    obtain ⟨hnot, hnodup⟩ := List.nodup_cons.mp hnodup
    have ht : t ∉ bitFor := hfresh t List.mem_cons_self
    have hnone : bitFor.lookup t = none := AList.lookup_eq_none.mpr ht
    have hinserted : Dense (bitFor.insert t n) (n + 1) := by
      constructor
      · rw [AList.entries_insert_of_notMem ht, List.length_cons, h.size]
      · intro t' bit hbit
        rw [Dict.lookup_insert] at hbit
        split_ifs at hbit
        · cases hbit
          omega
        · have hlt := h.lt t' bit hbit
          omega
      · intro t' t'' bit hbit hbit'
        rw [Dict.lookup_insert] at hbit hbit'
        split_ifs at hbit hbit' with h₁ h₂ h₂
        · rw [h₁, h₂]
        · cases hbit
          exact absurd (h.lt t'' n hbit') (Nat.lt_irrefl n)
        · cases hbit'
          exact absurd (h.lt t' n hbit) (Nat.lt_irrefl n)
        · exact h.inj t' t'' bit hbit hbit'
    have hrest : ∀ t' ∈ types, t' ∉ bitFor.insert t n := by
      intro t' ht' hmem
      rcases (AList.mem_insert _).mp hmem with rfl | hmem
      · exact hnot ht'
      · exact hfresh t' (List.mem_cons_of_mem t ht') hmem
    obtain ⟨hdense, hmem⟩ := Dense.number types hinserted hnodup hrest
    rw [List.length_cons, Nat.add_comm types.length, ← Nat.add_assoc]
    refine ⟨hdense, fun t' => (hmem t').trans ?_⟩
    rw [AList.mem_insert, List.mem_cons]
    tauto

theorem dense_new {types : List TypeId} (h : types.Nodup) :
    Dense (new types).bitFor types.length ∧ ∀ t, t ∈ (new types).bitFor ↔ t ∈ types := by
  have hempty : Dense ∅ 0 := ⟨rfl, fun _ _ hbit => (nomatch hbit), fun _ _ _ hbit => (nomatch hbit)⟩
  obtain ⟨hdense, hmem⟩ := hempty.number types h fun _ _ hmem => AList.notMem_empty _ hmem
  rw [Nat.zero_add] at hdense
  refine ⟨hdense, fun t => (hmem t).trans ?_⟩
  simp

theorem ok_new {types : List TypeId} (h : types.Nodup) : (new types).Ok := by
  obtain ⟨hdense, -⟩ := dense_new h
  refine ⟨BitMatrix.whole_empty (by omega), fun t bit hbit => ?_, hdense.inj⟩
  have hlt := hdense.lt t bit hbit
  have hsize := hdense.size
  show bit < 64 * max (((new types).bitFor.entries.length + 63) / 64) 1
  omega

theorem shows_new (types : List TypeId) : (new types).Shows fun _ _ => false :=
  fun _ _ _ _ => BitMatrix.get_empty _

variable {p} {carries carries' : TypeId → Entity → Bool}

theorem Shows.set (h : p.Shows carries) (hp : p.Ok) {t : TypeId} {e : Entity} {present : Bool}
    (hcarries : ∀ t' e', carries' t' e' = if t' = t ∧ e' = e then present else carries t' e') :
    (p.set t e present).Shows carries' ∧ (p.set t e present).Ok := by
  unfold PresenceIndex.set
  cases hbit : p.bitFor.lookup t with
  | none =>
    refine ⟨fun t' bit hbit' e' => ?_, hp⟩
    rw [hcarries, if_neg, h t' bit hbit' e']
    rintro ⟨rfl, -⟩
    rw [hbit] at hbit'
    cases hbit'
  | some bit =>
    have hfits := hp.fits t bit hbit
    constructor
    · intro t' bit' hbit' e'
      show (p.bits.set e bit present).get e' bit' = carries' t' e'
      rw [BitMatrix.get_set hp.whole hfits (hp.fits t' bit' hbit'), hcarries, h t' bit' hbit']
      have hsame : (e' = e ∧ bit' = bit) ↔ (t' = t ∧ e' = e) := by
        constructor
        · rintro ⟨he, rfl⟩
          exact ⟨hp.inj t' t bit' hbit' hbit, he⟩
        · rintro ⟨rfl, he⟩
          exact ⟨he, Option.some.inj (hbit'.symm.trans hbit)⟩
      simp only [hsame]
    · have hstride : (p.bits.set e bit present).stride = p.bits.stride := by
        unfold BitMatrix.set
        dsimp only
        split_ifs <;> rfl
      refine ⟨BitMatrix.whole_set hp.whole present, fun t' bit' hbit' => ?_, hp.inj⟩
      show bit' < 64 * (p.bits.set e bit present).stride
      rw [hstride]
      exact hp.fits t' bit' hbit'

theorem Shows.clearEntity (h : p.Shows carries) (hp : p.Ok) {e : Entity}
    (hcarries : ∀ t e', carries' t e' = if e' = e then false else carries t e') :
    (p.clearEntity e).Shows carries' ∧ (p.clearEntity e).Ok := by
  have hstride : (p.bits.clearRow e).stride = p.bits.stride := by
    unfold BitMatrix.clearRow
    split_ifs <;> rfl
  constructor
  · intro t bit hbit e'
    show (p.bits.clearRow e).get e' bit = carries' t e'
    rw [BitMatrix.get_clearRow hp.whole (hp.fits t bit hbit), hcarries, h t bit hbit]
  · refine ⟨BitMatrix.whole_clearRow hp.whole, fun t bit hbit => ?_, hp.inj⟩
    show bit < 64 * (p.bits.clearRow e).stride
    rw [hstride]
    exact hp.fits t bit hbit

end PresenceIndex
end Porridge
