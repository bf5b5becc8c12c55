import Mathlib.Data.List.Basic

/-! Checks of each element of a list against the others. -/
namespace List

variable {σ τ : Type}

def others (l : List σ) : List (σ × List σ) := l.zipIdx.map fun p => (p.1, l.eraseIdx p.2)

theorem mem_others {l rest : List σ} {x : σ} :
    (x, rest) ∈ l.others ↔ ∃ a b, l = a ++ x :: b ∧ rest = a ++ b := by
  simp only [others, mem_map, Prod.mk.injEq, Prod.exists, mem_zipIdx_iff_getElem?]
  constructor
  · rintro ⟨y, i, hy, rfl, rfl⟩
    obtain ⟨hi, rfl⟩ := getElem?_eq_some_iff.mp hy
    refine ⟨l.take i, l.drop (i + 1), ?_, eraseIdx_eq_take_drop_succ l i⟩
    rw [← drop_eq_getElem_cons hi, take_append_drop]
  · rintro ⟨a, b, rfl, rfl⟩
    refine ⟨x, a.length, ?_, rfl, ?_⟩
    · rw [getElem?_append_right (Nat.le_refl _), Nat.sub_self]
      rfl
    · rw [eraseIdx_append_of_length_le (Nat.le_refl _), Nat.sub_self]
      rfl

theorem mem_of_mem_others {l rest : List σ} {x : σ} (h : (x, rest) ∈ l.others) : x ∈ l := by
  obtain ⟨a, b, rfl, -⟩ := mem_others.mp h
  simp

theorem of_mem_others_insert {a b rest : List σ} {x y : σ} (h : (x, rest) ∈ (a ++ y :: b).others) :
    (x = y ∧ rest = a ++ b) ∨ ∃ c d, rest = c ++ y :: d ∧ (x, c ++ d) ∈ (a ++ b).others := by
  obtain ⟨c, d, hsplit, rfl⟩ := mem_others.mp h
  rcases append_eq_append_iff.mp hsplit with ⟨e, rfl, he⟩ | ⟨e, rfl, he⟩
  · cases e with
    | nil =>
      obtain ⟨rfl, rfl⟩ := cons.inj he
      exact Or.inl ⟨rfl, by rw [append_nil]⟩
    | cons z e =>
      obtain ⟨rfl, rfl⟩ := cons.inj he
      have hothers : (x, a ++ (e ++ d)) ∈ (a ++ (e ++ x :: d)).others :=
        mem_others.mpr ⟨a ++ e, d, by simp, by simp⟩
      exact Or.inr ⟨a, e ++ d, by simp, hothers⟩
  · cases e with
    | nil =>
      obtain ⟨rfl, rfl⟩ := cons.inj he
      exact Or.inl ⟨rfl, by rw [append_nil]⟩
    | cons z e =>
      obtain ⟨rfl, rfl⟩ := cons.inj he
      have hothers : (x, c ++ e ++ b) ∈ (c ++ x :: e ++ b).others :=
        mem_others.mpr ⟨c, e ++ b, by simp, by simp⟩
      exact Or.inr ⟨c ++ e, b, by simp, hothers⟩

theorem mem_others_insert {a b rest : List σ} {x : σ} (h : (x, rest) ∈ (a ++ b).others) (y : σ) :
    ∃ c d, rest = c ++ d ∧ (x, c ++ y :: d) ∈ (a ++ y :: b).others := by
  obtain ⟨c, d, hsplit, rfl⟩ := mem_others.mp h
  rcases append_eq_append_iff.mp hsplit with ⟨e, rfl, rfl⟩ | ⟨e, rfl, he⟩
  · exact ⟨a, e ++ d, by simp, mem_others.mpr ⟨a ++ y :: e, d, by simp, by simp⟩⟩
  · cases e with
    | nil =>
      rw [nil_append] at he
      subst he
      exact ⟨c, d, rfl, mem_others.mpr ⟨c ++ [y], d, by simp, by simp⟩⟩
    | cons z e =>
      obtain ⟨rfl, rfl⟩ := cons.inj he
      exact ⟨c ++ e, b, by simp, mem_others.mpr ⟨c, e ++ y :: b, by simp, by simp⟩⟩

/-- An element that no check looks at may be left out. -/
theorem forall_others_insert {P : σ → List σ → Prop} {a b : List σ} {y : σ}
    (hP : ∀ x ∈ a ++ b, ∀ c d, P x (c ++ y :: d) ↔ P x (c ++ d)) :
    (∀ x rest, (x, rest) ∈ (a ++ y :: b).others → P x rest) ↔
      P y (a ++ b) ∧ ∀ x rest, (x, rest) ∈ (a ++ b).others → P x rest := by
  constructor
  · intro h
    refine ⟨h y _ (mem_others.mpr ⟨a, b, rfl, rfl⟩), fun x rest hmem => ?_⟩
    obtain ⟨c, d, rfl, hfull⟩ := mem_others_insert hmem y
    exact (hP x (mem_of_mem_others hmem) c d).mp (h x _ hfull)
  · rintro ⟨hy, h⟩ x rest hmem
    rcases of_mem_others_insert hmem with ⟨rfl, rfl⟩ | ⟨c, d, rfl, hrest⟩
    · exact hy
    · exact (hP x (mem_of_mem_others hrest) c d).mpr (h x _ hrest)

/-- An element that provides nothing does not change what is found first. -/
theorem findSome?_insert {f : σ → Option τ} {y : σ} (hy : f y = none) (a b : List σ) :
    (a ++ y :: b).findSome? f = (a ++ b).findSome? f := by
  rw [findSome?_append, findSome?_append, findSome?_cons, hy]

theorem findSome?_congr_mem {f g : σ → Option τ} : ∀ {l : List σ}, (∀ x ∈ l, f x = g x) →
    l.findSome? f = l.findSome? g
  | [], _ => rfl
  | x :: l, h => by
    have hrest := findSome?_congr_mem fun y hy => h y (mem_cons_of_mem x hy)
    rw [findSome?_cons, findSome?_cons, h x mem_cons_self, hrest]

theorem findSome?_ite (c : σ → Bool) (y : Option τ) : ∀ l : List σ,
    l.findSome? (fun x => if c x then y else none) = if l.any c then y else none
  | [] => rfl
  | x :: l => by
    rw [findSome?_cons, any_cons, findSome?_ite c y l]
    cases y with
    | none => simp
    | some y => cases c x <;> simp

theorem all_congr_mem {p q : σ → Bool} : ∀ {l : List σ}, (∀ x ∈ l, p x = q x) → l.all p = l.all q
  | [], _ => rfl
  | x :: l, h => by
    have hrest := all_congr_mem fun y hy => h y (mem_cons_of_mem x hy)
    rw [all_cons, all_cons, h x mem_cons_self, hrest]

/-- A list passes checks that stop at the first error if every element does. -/
theorem forM_eq_ok {ε : Type} {check : σ → Except ε Unit} :
    ∀ {l : List σ}, l.forM check = .ok () ↔ ∀ x ∈ l, check x = .ok ()
  | [] => iff_of_true rfl (forall_mem_nil _)
  | x :: l => by
    have hrest : l.forM check = .ok () ↔ ∀ x ∈ l, check x = .ok () := forM_eq_ok
    have hcons : (x :: l).forM check = (check x >>= fun _ => l.forM check) := rfl
    rw [forall_mem_cons, ← hrest, hcons]
    cases hx : check x with
    | ok _ => exact ⟨fun h => ⟨rfl, h⟩, fun h => h.2⟩
    | error error =>
      refine iff_of_false (fun h => ?_) fun h => ?_
      · cases h
      · cases h.1

end List
