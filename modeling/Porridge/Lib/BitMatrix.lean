import Mathlib.Algebra.Order.Ring.Nat
import Mathlib.Data.List.GetD

/-! Growable bit matrices, stored row by row in 64-bit words. -/

/-- Rows of `stride` words; rows beyond the stored words are zero. -/
structure BitMatrix where
  stride : Nat
  words : List (BitVec 64)
deriving DecidableEq

namespace BitMatrix

def empty (stride : Nat) : BitMatrix := ⟨stride, []⟩

variable (m : BitMatrix) (row bit row' bit' : Nat)

def get : Bool := (m.words.getD (row * m.stride + bit / 64) 0).getLsbD (bit % 64)

/-- The words, extended with zeros to cover `row`. -/
def cover : List (BitVec 64) :=
  m.words ++ List.replicate (row * m.stride + m.stride - m.words.length) 0

/-- Set or clear one bit; clearing a bit of a row that is not stored changes nothing. -/
def set (present : Bool) : BitMatrix :=
  if m.words.length < row * m.stride + m.stride ∧ present = false then m
  else
    let words := m.cover row
    let index := row * m.stride + bit / 64
    let flag := 1#64 <<< (bit % 64)
    let word := words.getD index 0
    { m with words := words.set index (if present then word ||| flag else word &&& ~~~flag) }

def clearRow : BitMatrix :=
  if m.words.length ≤ row * m.stride then m
  else { m with words := m.words.mapIdx fun index word =>
    if row * m.stride ≤ index ∧ index < row * m.stride + m.stride then 0 else word }

structure Whole : Prop where
  stride_pos : 0 < m.stride
  rows : m.stride ∣ m.words.length

variable {m row bit row' bit'}

theorem whole_empty {stride : Nat} (h : 0 < stride) : (empty stride).Whole :=
  ⟨h, Nat.dvd_zero stride⟩

theorem get_empty (stride : Nat) : (empty stride).get row bit = false := by
  simp [get, empty]

/-- A word belongs to one row and one column only. -/
theorem index_inj {stride q q' : Nat} (hq : q < stride) (hq' : q' < stride)
    (h : row * stride + q = row' * stride + q') : row = row' ∧ q = q' := by
  have hrow := congrArg (· / stride) h
  have hcolumn := congrArg (· % stride) h
  have hpos : 0 < stride := Nat.zero_lt_of_lt hq
  simp only [Nat.mul_comm row stride, Nat.mul_comm row' stride, Nat.mul_add_div hpos,
    Nat.div_eq_of_lt hq, Nat.div_eq_of_lt hq', Nat.mul_add_mod, Nat.mod_eq_of_lt hq,
    Nat.mod_eq_of_lt hq'] at hrow hcolumn
  exact ⟨by omega, hcolumn⟩

theorem length_cover : (m.cover row).length = max m.words.length (row * m.stride + m.stride) := by
  simp only [cover, List.length_append, List.length_replicate]
  omega

theorem getD_cover (index : Nat) : (m.cover row).getD index 0 = m.words.getD index 0 := by
  unfold cover
  by_cases h : index < m.words.length
  · rw [List.getD_append _ _ _ _ h]
  · have hle : m.words.length ≤ index := by omega
    rw [List.getD_append_right _ _ _ _ hle, List.getD_eq_default _ _ hle]
    rw [List.getD_eq_getElem?_getD]
    exact List.getElem?_getD_replicate_default_eq _ _ _

/-- The last word of a row is stored or the whole row is missing. -/
theorem Whole.stored_or_missing (h : m.Whole) :
    row * m.stride + m.stride ≤ m.words.length ∨ m.words.length ≤ row * m.stride := by
  obtain ⟨rows, hrows⟩ := h.rows
  rw [hrows, Nat.mul_comm row]
  rcases Nat.lt_or_ge row rows with hlt | hge
  · exact Or.inl (Nat.mul_succ m.stride row ▸ Nat.mul_le_mul_left m.stride hlt)
  · exact Or.inr (Nat.mul_le_mul_left m.stride hge)

theorem Whole.get_missing (h : m.Whole)
    (hmissing : m.words.length < row * m.stride + m.stride) : m.get row bit = false := by
  have hrow : row * m.stride + m.stride ≤ m.words.length ∨ m.words.length ≤ row * m.stride :=
    h.stored_or_missing
  have hindex : m.words.length ≤ row * m.stride + bit / 64 := by omega
  rw [get, List.getD_eq_default _ _ hindex]
  exact BitVec.getLsbD_zero

theorem whole_set (h : m.Whole) (present : Bool) : (m.set row bit present).Whole := by
  unfold set
  by_cases hskip : m.words.length < row * m.stride + m.stride ∧ present = false
  · rw [if_pos hskip]
    exact h
  · rw [if_neg hskip]
    refine ⟨h.stride_pos, ?_⟩
    dsimp only
    rw [List.length_set, length_cover]
    rcases Nat.le_total m.words.length (row * m.stride + m.stride) with hle | hle
    · rw [Nat.max_eq_right hle, ← Nat.succ_mul]
      exact Nat.dvd_mul_left m.stride (row + 1)
    · rw [Nat.max_eq_left hle]
      exact h.rows

theorem getLsbD_flag (word : BitVec 64) {i j : Nat} (hi : i < 64) (hj : j < 64) (present : Bool) :
    (if present then word ||| (1#64 <<< j) else word &&& ~~~(1#64 <<< j)).getLsbD i =
      if i = j then present else word.getLsbD i := by
  have hflag : (1#64 <<< j).getLsbD i = decide (i = j) := by
    simp only [BitVec.getLsbD_shiftLeft, BitVec.getLsbD_one]
    by_cases hij : i = j
    · subst hij
      simp [hi]
    · rw [decide_eq_false hij]
      simp only [Bool.and_eq_false_iff, decide_eq_false_iff_not, Bool.not_eq_false',
        decide_eq_true_eq]
      omega
  cases present
  · simp only [Bool.false_eq_true, if_false, BitVec.getLsbD_and, BitVec.getLsbD_not, hflag, hi]
    by_cases hij : i = j <;> simp [hij]
  · simp only [if_true, BitVec.getLsbD_or, hflag]
    by_cases hij : i = j <;> simp [hij]

/-- Setting a bit changes that bit only. -/
theorem get_set (h : m.Whole) (hb : bit < 64 * m.stride) (hb' : bit' < 64 * m.stride)
    (present : Bool) : (m.set row bit present).get row' bit' =
      if row' = row ∧ bit' = bit then present else m.get row' bit' := by
  have hq : bit / 64 < m.stride := by omega
  have hq' : bit' / 64 < m.stride := by omega
  unfold set
  by_cases hskip : m.words.length < row * m.stride + m.stride ∧ present = false
  · rw [if_pos hskip]
    split_ifs with hsame
    · -- clearing a bit of a row that is not stored
      obtain ⟨rfl, rfl⟩ := hsame
      rw [h.get_missing hskip.1, hskip.2]
    · rfl
  · rw [if_neg hskip]
    have hlt : row * m.stride + bit / 64 < (m.cover row).length := by
      rw [length_cover]
      omega
    have hmod : ∀ n, n % 64 < 64 := fun n => Nat.mod_lt n (by decide)
    unfold get
    dsimp only
    by_cases hindex : row * m.stride + bit / 64 = row' * m.stride + bit' / 64
    · obtain ⟨rfl, hword⟩ := index_inj hq hq' hindex
      rw [← hindex, List.getD_eq_getElem?_getD, List.getElem?_set_self hlt, Option.getD_some,
        getLsbD_flag _ (hmod bit') (hmod bit), getD_cover]
      have hbits : bit' % 64 = bit % 64 ↔ row = row ∧ bit' = bit := by
        constructor
        · intro heq
          exact ⟨rfl, by omega⟩
        · rintro ⟨-, rfl⟩
          rfl
      simp only [hbits]
    · have hother : ¬ (row' = row ∧ bit' = bit) := by
        rintro ⟨rfl, rfl⟩
        exact hindex rfl
      rw [if_neg hother, List.getD_eq_getElem?_getD, List.getElem?_set_ne hindex,
        ← List.getD_eq_getElem?_getD, getD_cover]

theorem whole_clearRow (h : m.Whole) : (m.clearRow row).Whole := by
  unfold clearRow
  split_ifs
  · exact h
  · exact ⟨h.stride_pos, by simpa using h.rows⟩

theorem get_clearRow (h : m.Whole) (hb : bit < 64 * m.stride) :
    (m.clearRow row).get row' bit = if row' = row then false else m.get row' bit := by
  have hq : bit / 64 < m.stride := by omega
  unfold clearRow
  split_ifs with hskip hsame hsame
  · subst hsame
    have hpos := h.stride_pos
    exact h.get_missing (by omega)
  · rfl
  · subst hsame
    unfold get
    dsimp only
    rw [List.getD_eq_getElem?_getD, List.getElem?_mapIdx]
    cases m.words[row' * m.stride + bit / 64]? with
    | none => simp
    | some word => simp [hq]
  · unfold get
    dsimp only
    rw [List.getD_eq_getElem?_getD, List.getElem?_mapIdx, List.getD_eq_getElem?_getD]
    cases m.words[row' * m.stride + bit / 64]? with
    | none => rfl
    | some word =>
      have houtside : ¬ (row * m.stride ≤ row' * m.stride + bit / 64 ∧
          row' * m.stride + bit / 64 < row * m.stride + m.stride) := by
        rintro ⟨hle, hlt⟩
        refine hsame ?_
        have hindex : row * m.stride + (row' * m.stride + bit / 64 - row * m.stride) =
            row' * m.stride + bit / 64 := by omega
        exact (index_inj (by omega) hq hindex).1.symm
      rw [Option.map_some, if_neg houtside]

end BitMatrix
