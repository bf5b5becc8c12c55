import Mathlib.Data.List.Flatten
import Mathlib.Data.List.Count

/-! Concatenations of blocks: when equal concatenations are made of equal blocks. -/
namespace List

variable {σ τ : Type} {f g : σ → List τ}

/-- Blocks whose lengths agree wherever both lists begin with them are equal one by one. -/
theorem blocks_eq : ∀ {l : List σ} {r r' : List τ},
    (∀ x ∈ l, ∀ r r', f x ++ r = g x ++ r' → (f x).length = (g x).length) →
      l.flatMap f ++ r = l.flatMap g ++ r' → ∀ x ∈ l, f x = g x
  | [], _, _, _, _ => nofun
  | y :: l, r, r', hlength, h => by
    rw [flatMap_cons, flatMap_cons, append_assoc, append_assoc] at h
    obtain ⟨hhead, htail⟩ := append_inj h (hlength y mem_cons_self _ _ h)
    intro x hx
    rcases mem_cons.mp hx with rfl | hx
    · exact hhead
    · exact blocks_eq (fun x hx => hlength x (mem_cons_of_mem _ hx)) htail x hx

/-- Where the total is the same and at most one block may vary in length, none does. -/
theorem length_blocks_eq {vary : σ → Bool} : ∀ {l : List σ},
    (∀ x ∈ l, vary x = false → (f x).length = (g x).length) → l.countP vary ≤ 1 →
      (l.flatMap f).length = (l.flatMap g).length → ∀ x ∈ l, (f x).length = (g x).length
  | [], _, _, _ => nofun
  | y :: l, hfixed, hone, h => by
    have hrest : ∀ x ∈ l, vary x = false → (f x).length = (g x).length := fun x hx =>
      hfixed x (mem_cons_of_mem _ hx)
    rw [flatMap_cons, flatMap_cons, length_append, length_append] at h
    rw [countP_cons] at hone
    have hhead : (f y).length = (g y).length := by
      cases hy : vary y with
      | false => exact hfixed y mem_cons_self hy
      | true =>
        -- no other block varies
        rw [hy, if_pos rfl] at hone
        have hnone : l.countP vary = 0 := by omega
        have hsame : (l.flatMap f).length = (l.flatMap g).length := by
          rw [length_flatMap, length_flatMap]
          refine congrArg sum (map_congr_left fun x hx => hrest x hx ?_)
          simpa using countP_eq_zero.mp hnone x hx
        omega
    intro x hx
    rcases mem_cons.mp hx with rfl | hx
    · exact hhead
    · exact length_blocks_eq hrest (by omega) (by omega) x hx

theorem length_blocks {n : Nat} (hf : ∀ x, (f x).length = n) (l : List σ) :
    (l.flatMap f).length = l.length * n := by
  induction l with
  | nil => simp
  | cons x l ih => rw [flatMap_cons, length_append, hf, ih, length_cons, Nat.succ_mul, Nat.add_comm]

/-- Nonempty blocks of one length that name their elements. -/
theorem eq_of_blocks_eq {n : Nat} (hpos : 0 < n) (hf : ∀ x, (f x).length = n)
    (hg : ∀ x, (g x).length = n) (hname : ∀ x y, f x = g y → x = y) : ∀ {l l' : List σ},
      l.flatMap f = l'.flatMap g → l = l' ∧ ∀ x ∈ l, f x = g x
  | [], [], _ => ⟨rfl, nofun⟩
  | [], y :: l', h => by
    have hlength := congrArg length h
    rw [flatMap_cons, length_append, hg, flatMap_nil, length_nil] at hlength
    omega
  | x :: l, [], h => by
    have hlength := congrArg length h
    rw [flatMap_cons, length_append, hf, flatMap_nil, length_nil] at hlength
    omega
  | x :: l, y :: l', h => by
    rw [flatMap_cons, flatMap_cons] at h
    obtain ⟨hhead, htail⟩ := append_inj h ((hf x).trans (hg y).symm)
    obtain ⟨rfl, hrest⟩ := eq_of_blocks_eq hpos hf hg hname htail
    obtain rfl := hname x y hhead
    refine ⟨rfl, fun z hz => ?_⟩
    rcases mem_cons.mp hz with rfl | hz
    · exact hhead
    · exact hrest z hz

end List
