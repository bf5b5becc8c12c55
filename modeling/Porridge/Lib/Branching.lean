import Mathlib.Data.List.Count
import Mathlib.Data.List.Basic

/-! Lists built by steps that may fail; one failure fails the whole list. -/
namespace List

variable {σ τ : Type}

def flatMap? (f : σ → Option (List τ)) : List σ → Option (List τ)
  | [] => some []
  | x :: xs => do
    let ys ← f x
    let zs ← flatMap? f xs
    some (ys ++ zs)

/-- Keep the elements that pass a check. -/
def filter? (keep : σ → Option Bool) : List σ → Option (List σ)
  | [] => some []
  | x :: xs => do
    let kept ← keep x
    let ys ← filter? keep xs
    some (if kept then x :: ys else ys)

/-- Run checks in order; the first that does not pass decides. -/
def checkAll : List (Option Bool) → Option Bool
  | [] => some true
  | some true :: checks => checkAll checks
  | check :: _ => check

variable {f : σ → Option (List τ)} {keep : σ → Option Bool}

theorem flatMap?_cons {x : σ} {xs : List σ} {out : List τ} :
    (x :: xs).flatMap? f = some out ↔
      ∃ ys zs, f x = some ys ∧ xs.flatMap? f = some zs ∧ out = ys ++ zs := by
  simp only [flatMap?, Option.bind_eq_bind, Option.bind_eq_some_iff, Option.some.injEq]
  constructor
  · rintro ⟨ys, hys, zs, hzs, rfl⟩
    exact ⟨ys, zs, hys, hzs, rfl⟩
  · rintro ⟨ys, zs, hys, hzs, rfl⟩
    exact ⟨ys, hys, zs, hzs, rfl⟩

theorem eq_some_of_flatMap? : ∀ {xs : List σ} {out : List τ}, xs.flatMap? f = some out →
    ∀ x ∈ xs, ∃ ys, f x = some ys
  | [], _, _, _, hx => nomatch hx
  | y :: xs, out, h, x, hx => by
    obtain ⟨ys, zs, hys, hzs, -⟩ := flatMap?_cons.mp h
    rcases mem_cons.mp hx with rfl | hx
    · exact ⟨ys, hys⟩
    · exact eq_some_of_flatMap? hzs x hx

theorem flatMap?_eq_some : ∀ {xs : List σ}, (∀ x ∈ xs, ∃ ys, f x = some ys) →
    ∃ out, xs.flatMap? f = some out
  | [], _ => ⟨[], rfl⟩
  | x :: xs, h => by
    obtain ⟨ys, hys⟩ := h x mem_cons_self
    obtain ⟨zs, hzs⟩ := flatMap?_eq_some fun x hx => h x (mem_cons_of_mem _ hx)
    exact ⟨ys ++ zs, flatMap?_cons.mpr ⟨ys, zs, hys, hzs, rfl⟩⟩

theorem mem_flatMap? : ∀ {xs : List σ} {out : List τ}, xs.flatMap? f = some out →
    ∀ y, y ∈ out ↔ ∃ x ∈ xs, ∃ ys, f x = some ys ∧ y ∈ ys
  | [], out, h, y => by
    cases h
    simp
  | x :: xs, out, h, y => by
    obtain ⟨ys, zs, hys, hzs, rfl⟩ := flatMap?_cons.mp h
    have hrest := mem_flatMap? hzs y
    rw [mem_append, hrest]
    constructor
    · rintro (hy | ⟨x', hx', hy⟩)
      · exact ⟨x, mem_cons_self, ys, hys, hy⟩
      · exact ⟨x', mem_cons_of_mem _ hx', hy⟩
    · rintro ⟨x', hx', ys', hys', hy⟩
      rcases mem_cons.mp hx' with rfl | hx'
      · cases hys.symm.trans hys'
        exact Or.inl hy
      · exact Or.inr ⟨x', hx', ys', hys', hy⟩

theorem flatMap?_map_map {ρ : Type} (g : τ → ρ) (xs : List σ) :
    (xs.flatMap? fun x => (f x).map (·.map g)) = (xs.flatMap? f).map (·.map g) := by
  induction xs with
  | nil => rfl
  | cons x xs ih =>
    rw [flatMap?, flatMap?, ih]
    cases f x with
    | none => rfl
    | some ys =>
      cases flatMap? f xs with
      | none => rfl
      | some zs => simp

theorem filter?_cons {x : σ} {xs out : List σ} :
    (x :: xs).filter? keep = some out ↔
      ∃ kept ys, keep x = some kept ∧ xs.filter? keep = some ys ∧
        out = if kept then x :: ys else ys := by
  simp only [filter?, Option.bind_eq_bind, Option.bind_eq_some_iff, Option.some.injEq]
  constructor
  · rintro ⟨kept, hkept, ys, hys, rfl⟩
    exact ⟨kept, ys, hkept, hys, rfl⟩
  · rintro ⟨kept, ys, hkept, hys, rfl⟩
    exact ⟨kept, hkept, ys, hys, rfl⟩

theorem eq_some_of_filter? : ∀ {xs out : List σ}, xs.filter? keep = some out →
    ∀ x ∈ xs, ∃ kept, keep x = some kept
  | [], _, _, _, hx => nomatch hx
  | y :: xs, out, h, x, hx => by
    obtain ⟨kept, ys, hkept, hys, -⟩ := filter?_cons.mp h
    rcases mem_cons.mp hx with rfl | hx
    · exact ⟨kept, hkept⟩
    · exact eq_some_of_filter? hys x hx

theorem filter?_eq_some : ∀ {xs : List σ}, (∀ x ∈ xs, ∃ kept, keep x = some kept) →
    ∃ out, xs.filter? keep = some out
  | [], _ => ⟨[], rfl⟩
  | x :: xs, h => by
    obtain ⟨kept, hkept⟩ := h x mem_cons_self
    obtain ⟨ys, hys⟩ := filter?_eq_some fun x hx => h x (mem_cons_of_mem _ hx)
    exact ⟨_, filter?_cons.mpr ⟨kept, ys, hkept, hys, rfl⟩⟩

theorem filter?_eq_filter : ∀ {xs out : List σ}, xs.filter? keep = some out →
    out = xs.filter fun x => keep x == some true
  | [], out, h => by
    cases h
    rfl
  | x :: xs, out, h => by
    obtain ⟨kept, ys, hkept, hys, rfl⟩ := filter?_cons.mp h
    have hrest := filter?_eq_filter hys
    rw [filter_cons, hkept, ← hrest]
    cases kept <;> rfl

theorem mem_filter? {xs out : List σ} (h : xs.filter? keep = some out) (x : σ) :
    x ∈ out ↔ x ∈ xs ∧ keep x = some true := by
  rw [filter?_eq_filter h, mem_filter, beq_iff_eq]

theorem filter?_map {ρ : Type} (g : ρ → σ) (xs : List ρ) :
    (xs.map g).filter? keep = (xs.filter? fun x => keep (g x)).map (·.map g) := by
  induction xs with
  | nil => rfl
  | cons x xs ih =>
    rw [map_cons, filter?, filter?, ih]
    cases keep (g x) with
    | none => rfl
    | some kept =>
      cases filter? (fun x => keep (g x)) xs with
      | none => rfl
      | some ys => cases kept <;> rfl

theorem checkAll_eq_true : ∀ {checks : List (Option Bool)},
    checkAll checks = some true ↔ ∀ check ∈ checks, check = some true
  | [] => by simp [checkAll]
  | none :: checks => by simp [checkAll]
  | some false :: checks => by simp [checkAll]
  | some true :: checks => by simp [checkAll, checkAll_eq_true]

theorem exists_checkAll : ∀ {checks : List (Option Bool)}, (∀ check ∈ checks, check ≠ none) →
    ∃ b, checkAll checks = some b
  | [], _ => ⟨true, rfl⟩
  | none :: checks, h => absurd rfl (h none mem_cons_self)
  | some false :: checks, _ => ⟨false, rfl⟩
  | some true :: checks, h => by
    rw [checkAll]
    exact exists_checkAll fun check hc => h check (mem_cons_of_mem _ hc)

theorem mem_of_checkAll_eq_false : ∀ {checks : List (Option Bool)},
    checkAll checks = some false → some false ∈ checks
  | [], h => by cases h
  | none :: checks, h => by cases h
  | some false :: checks, _ => mem_cons_self
  | some true :: checks, h => mem_cons_of_mem _ (mem_of_checkAll_eq_false h)

section Branches

variable [DecidableEq σ] [DecidableEq τ] {g : σ → Option (List (List σ))}

/-- Below each element hang the lists that start with it. -/
theorem count_cons_flatMap? : ∀ {xs : List σ} {out : List (List σ)},
    (xs.flatMap? fun x => (g x).map fun tails => tails.map (x :: ·)) = some out →
      ∀ x tail tails, g x = some tails → out.count (x :: tail) = xs.count x * tails.count tail
  | [], out, h, x, tail, tails, _ => by
    cases h
    simp
  | y :: xs, out, h, x, tail, tails, hg => by
    obtain ⟨ys, zs, hys, hzs, rfl⟩ := flatMap?_cons.mp h
    obtain ⟨bs, hbs, rfl⟩ := Option.map_eq_some_iff.mp hys
    have hrest : zs.count (x :: tail) = xs.count x * tails.count tail :=
      count_cons_flatMap? hzs x tail tails hg
    rw [count_append, hrest, count_cons]
    by_cases hxy : y = x
    · subst hxy
      have hsame : bs = tails := Option.some.inj (hbs.symm.trans hg)
      have hinj : (bs.map (y :: ·)).count (y :: tail) = bs.count tail :=
        count_map_of_injective bs (y :: ·) (fun _ _ heq => (cons.inj heq).2) tail
      rw [hinj, hsame, beq_self_eq_true, if_pos rfl, Nat.add_mul, Nat.one_mul, Nat.add_comm]
    · have hnone : (bs.map (y :: ·)).count (x :: tail) = 0 := by
        refine count_eq_zero.mpr fun hmem => ?_
        obtain ⟨t, -, ht⟩ := mem_map.mp hmem
        exact hxy (cons.inj ht).1
      rw [hnone, if_neg (by simpa using hxy), Nat.zero_add, Nat.add_zero]

end Branches
end List
