import Mathlib.Data.List.Forall2

/-! Lists whose concatenated codes agree although the lists do not: where they part, and where they
meet again. -/
namespace List

variable {σ τ : Type} {k : σ → List τ} {R : σ → σ → Prop}

/-- Codes of one length decide between related elements, so the first place where the lists differ
has codes of different length. -/
theorem exists_first_clash (hcode : ∀ s t, R s t → k s = k t → s = t) {S T : List σ}
    (h : Forall₂ R S T) {a b : List τ} (hk : S.flatMap k ++ a = T.flatMap k ++ b) (hne : S ≠ T) :
    ∃ l s r t r', S = l ++ s :: r ∧ T = l ++ t :: r' ∧ R s t ∧ Forall₂ R r r' ∧
      (k s).length ≠ (k t).length ∧ k s ++ (r.flatMap k ++ a) = k t ++ (r'.flatMap k ++ b) := by
  induction h with
  | nil => exact absurd rfl hne
  | @cons s t S T hst hrest ih =>
    rw [flatMap_cons, flatMap_cons, append_assoc, append_assoc] at hk
    by_cases hlength : (k s).length = (k t).length
    · obtain ⟨hsame, htail⟩ := append_inj hk hlength
      obtain rfl := hcode s t hst hsame
      have hdiffer : S ≠ T := fun heq => hne (congrArg _ heq)
      obtain ⟨l, s', r, t', r', rfl, rfl, hclash⟩ := ih htail hdiffer
      exact ⟨s :: l, s', r, t', r', rfl, rfl, hclash⟩
    · exact ⟨[], s, S, t, T, rfl, rfl, hst, hrest, hlength, hk⟩

theorem exists_last_clash (hcode : ∀ s t, R s t → k s = k t → s = t) {S T : List σ}
    (h : Forall₂ R S T) {a b : List τ} (hk : a ++ S.flatMap k = b ++ T.flatMap k) (hne : S ≠ T) :
    ∃ l s r l' t, S = l ++ s :: r ∧ T = l' ++ t :: r ∧ R s t ∧ Forall₂ R l l' ∧
      (k s).length ≠ (k t).length := by
  have hback : S.reverse.flatMap (reverse ∘ k) ++ a.reverse =
      T.reverse.flatMap (reverse ∘ k) ++ b.reverse := by
    rw [← reverse_flatMap, ← reverse_flatMap, ← reverse_append, ← reverse_append, hk]
  obtain ⟨r, s, l, t, l', hS, hT, hst, hrest, hlength, -⟩ :=
    exists_first_clash (fun s t hst hsame => hcode s t hst (reverse_injective hsame))
      (forall₂_reverse_iff.mpr h) hback fun heq => hne (reverse_injective heq)
  refine ⟨l.reverse, s, r.reverse, l'.reverse, t, ?_, ?_, hst, forall₂_reverse_iff.mpr hrest, ?_⟩
  · rw [← reverse_reverse S, hS]
    simp
  · rw [← reverse_reverse T, hT]
    simp
  · simpa using hlength

/-- Lists with one code have two places of different length at least, and agree around the outermost
two. -/
theorem exists_clashes (hcode : ∀ s t, R s t → k s = k t → s = t) {S T : List σ}
    (h : Forall₂ R S T) (hk : S.flatMap k = T.flatMap k) (hne : S ≠ T) :
    ∃ l s m z r t m' z', S = l ++ s :: (m ++ z :: r) ∧ T = l ++ t :: (m' ++ z' :: r) ∧
      R s t ∧ R z z' ∧ Forall₂ R m m' ∧ (k s).length ≠ (k t).length ∧
        (k z).length ≠ (k z').length := by
  obtain ⟨l, s, r₁, t, r₂, rfl, rfl, hst, hrest, hlength, hafter⟩ :=
    exists_first_clash hcode h (a := []) (b := []) (by rw [append_nil, append_nil, hk]) hne
  rw [append_nil, append_nil] at hafter
  have hdiffer : r₁ ≠ r₂ := by
    rintro rfl
    exact hlength (congrArg length (append_cancel_right hafter))
  obtain ⟨m, z, r, m', z', rfl, rfl, hzz, hmm, hlast⟩ :=
    exists_last_clash hcode hrest hafter hdiffer
  exact ⟨l, s, m, z, r, t, m', z', rfl, rfl, hst, hzz, hmm, hlength, hlast⟩

end List
