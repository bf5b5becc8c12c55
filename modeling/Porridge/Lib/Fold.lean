import Mathlib.Data.List.Basic

/-! Invariants of partial folds. -/

/-- A property that every successful step keeps holds after a successful fold. -/
theorem List.foldlM_some_induction {σ ι : Type} {f : σ → ι → Option σ} (motive : σ → Prop) :
    ∀ (xs : List ι) {s s' : σ}, xs.foldlM f s = some s' → motive s →
      (∀ s x s', x ∈ xs → motive s → f s x = some s' → motive s') → motive s'
  | [], s, s', h, hs, _ => by
    simp only [List.foldlM_nil, Option.pure_def, Option.some.injEq] at h
    exact h ▸ hs
  | x :: xs, s, s', h, hs, step => by
    simp only [List.foldlM_cons, Option.bind_eq_bind, Option.bind_eq_some_iff] at h
    obtain ⟨m, hm, hrest⟩ := h
    exact List.foldlM_some_induction motive xs hrest (step s x m (by simp) hs hm)
      fun s y s' hy => step s y s' (by simp [hy])

/-- A successful fold over a concatenation passes through a middle state. -/
theorem List.foldlM_append_some {σ ι : Type} {f : σ → ι → Option σ} {xs ys : List ι} {s s' : σ} :
    (xs ++ ys).foldlM f s = some s' ↔
      ∃ m, xs.foldlM f s = some m ∧ ys.foldlM f m = some s' := by
  simp [List.foldlM_append, Option.bind_eq_some_iff]

section History

variable {σ ι η : Type} (f : σ → ι → Option σ) (note : σ → ι → η → η)

/-- Carry a history along the steps of a partial fold, as far as they succeed. -/
def List.history : List ι → σ → η → η
  | [], _, h => h
  | x :: xs, s, h =>
    match f s x with
    | none => h
    | some s' => List.history xs s' (note s x h)

variable {f note}

/-- What every noted step keeps of a state and its history holds after a successful fold. -/
theorem List.history_induction (motive : σ → η → Prop) :
    ∀ (xs : List ι) {s s' : σ} {h : η}, xs.foldlM f s = some s' → motive s h →
      (∀ s x s' h, x ∈ xs → motive s h → f s x = some s' → motive s' (note s x h)) →
        motive s' (List.history f note xs s h)
  | [], s, s', h, hf, hs, _ => by
    have heq : s = s' := Option.some.inj hf
    exact heq ▸ hs
  | x :: xs, s, s', h, hf, hs, step => by
    obtain ⟨m, hm, hrest⟩ := Option.bind_eq_some_iff.mp hf
    have hnext : motive m (note s x h) := step s x m h (by simp) hs hm
    simp only [List.history, hm]
    exact List.history_induction motive xs hrest hnext fun s y s' h hy => step s y s' h (by simp [hy])

end History
