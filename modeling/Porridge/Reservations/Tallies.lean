import Porridge.Reservations

/-! The counters of a component against the accesses they count. -/
namespace Porridge

namespace Counts

def of (l : List ResolvedAccess) : Counts :=
  ⟨l.countP (·.kind == .read), l.countP (·.kind == .write)⟩

/-- Counts as a row stores them: a row without accesses is not stored. -/
def held (c : Counts) : Option Counts := if c.any then some c else none

@[simp] theorem of_nil : of [] = ⟨0, 0⟩ := rfl

theorem of_cons (a : ResolvedAccess) (l : List ResolvedAccess) : of (a :: l) = (of l).add a.kind := by
  cases ha : a.kind <;> simp [of, add, ha]

theorem of_perm {l l' : List ResolvedAccess} (h : l.Perm l') : of l = of l' := by
  simp [of, h.countP_eq]

theorem remove_add (c : Counts) (kind : AccessKind) : (c.add kind).remove kind = some c := by
  cases kind <;> simp [add, remove]

@[simp] theorem any_add (c : Counts) (kind : AccessKind) : (c.add kind).any = true := by
  cases kind <;> simp [add, any]

theorem any_of {l : List ResolvedAccess} : (of l).any = true ↔ l ≠ [] := by
  cases l with
  | nil => simp [any]
  | cons a l => simp [of_cons]

/-- A use conflicts with the counts exactly where it conflicts with something counted. -/
theorem conflicts_of {l : List ResolvedAccess} {kind : AccessKind} :
    (of l).conflicts kind = true ↔ ∃ b ∈ l, kind = .write ∨ b.kind = .write := by
  cases kind with
  | read => simp [conflicts, of, List.countP_eq_zero]
  | write =>
    rw [conflicts, any_of]
    cases l with
    | nil => simp
    | cons b l => simp

end Counts

/-- The two accesses exclude each other, on the same component. -/
def ResolvedAccess.Clashes (a b : ResolvedAccess) : Prop :=
  (a.kind = .write ∨ b.kind = .write) ∧ (a.entity = none ∨ b.entity = none ∨ a.entity = b.entity)

namespace ComponentAccess

structure Tallies (x : ComponentAccess) (l : List ResolvedAccess) : Prop where
  total : x.total = .of l
  wholeStore : x.wholeStore = .of (l.filter (·.entity == none))
  rows : ∀ e, x.rows.lookup e = (Counts.of (l.filter (·.entity == some e))).held

variable {x : ComponentAccess} {l l' : List ResolvedAccess} {a : ResolvedAccess}

theorem tallies_new : Tallies .new [] := ⟨rfl, rfl, fun _ => rfl⟩

theorem Tallies.perm (h : x.Tallies l) (hp : l.Perm l') : x.Tallies l' where
  total := h.total.trans (Counts.of_perm hp)
  wholeStore := h.wholeStore.trans (Counts.of_perm (hp.filter _))
  rows e := by rw [h.rows, Counts.of_perm (hp.filter _)]

/-- The counters find a conflict exactly where the accesses have one. -/
theorem Tallies.conflicts (h : x.Tallies l) :
    x.conflicts a = true ↔ ∃ b ∈ l, a.Clashes b := by
  unfold ComponentAccess.conflicts
  cases he : a.entity with
  | none =>
    rw [h.total, Counts.conflicts_of]
    simp [ResolvedAccess.Clashes, he]
  | some e =>
    have hrow : (x.rows.lookup e).any (·.conflicts a.kind) = true ↔
        ∃ b ∈ l, b.entity = some e ∧ (a.kind = .write ∨ b.kind = .write) := by
      rw [h.rows, Counts.held]
      split_ifs with hany
      · rw [Option.any_some, Counts.conflicts_of]
        simp [and_assoc]
      · have hnone : l.filter (·.entity == some e) = [] := by
          rw [Counts.any_of, not_not] at hany
          exact hany
        have habsent : ∀ b ∈ l, b.entity ≠ some e := by simpa using hnone
        constructor
        · exact fun hfalse => nomatch hfalse
        · rintro ⟨b, hb, hentity, -⟩
          exact absurd hentity (habsent b hb)
    rw [Bool.or_eq_true, h.wholeStore, Counts.conflicts_of, hrow]
    constructor
    · rintro (⟨b, hb, hkind⟩ | ⟨b, hb, hentity, hkind⟩)
      · obtain ⟨hb, hentity⟩ := List.mem_filter.mp hb
        exact ⟨b, hb, hkind, Or.inr (Or.inl (by simpa using hentity))⟩
      · exact ⟨b, hb, hkind, Or.inr (Or.inr (by rw [he, hentity]))⟩
    · rintro ⟨b, hb, hkind, hentity⟩
      rw [he] at hentity
      rcases hentity with hentity | hentity | hentity
      · cases hentity
      · exact Or.inl ⟨b, List.mem_filter.mpr ⟨hb, by simpa using hentity⟩, hkind⟩
      · exact Or.inr ⟨b, hb, hentity.symm, hkind⟩

theorem Tallies.add (h : x.Tallies l) : (x.add a).Tallies (a :: l) := by
  unfold ComponentAccess.add
  cases he : a.entity with
  | none =>
    constructor
    · rw [Counts.of_cons, ← h.total]
    · rw [List.filter_cons_of_pos (by simp [he]), Counts.of_cons, ← h.wholeStore]
    · intro e
      rw [List.filter_cons_of_neg (by simp [he])]
      exact h.rows e
  | some e =>
    constructor
    · rw [Counts.of_cons, ← h.total]
    · rw [List.filter_cons_of_neg (by simp [he])]
      exact h.wholeStore
    · intro e'
      dsimp only
      rw [Dict.lookup_insert]
      by_cases heq : e' = e
      · subst heq
        have hrow : Dict.getD x.rows e' ⟨0, 0⟩ = .of (l.filter (·.entity == some e')) := by
          rw [Dict.getD, h.rows, Counts.held]
          split_ifs with hany
          · rfl
          · rw [Counts.any_of, not_not] at hany
            rw [hany]
            rfl
        rw [if_pos rfl, hrow, List.filter_cons_of_pos (by simp [he]), Counts.of_cons, Counts.held,
          if_pos (Counts.any_add _ _)]
      · rw [if_neg heq, h.rows, List.filter_cons_of_neg]
        simp [he, Ne.symm heq]

/-- What is counted can be released. -/
theorem Tallies.remove (h : x.Tallies (a :: l)) : ∃ x', x.remove a = some x' ∧ x'.Tallies l := by
  have htotal : x.total.remove a.kind = some (.of l) := by
    rw [h.total, Counts.of_cons, Counts.remove_add]
  unfold ComponentAccess.remove
  rw [htotal]
  cases he : a.entity with
  | none =>
    have hwhole : x.wholeStore.remove a.kind = some (.of (l.filter (·.entity == none))) := by
      rw [h.wholeStore, List.filter_cons_of_pos (by simp [he]), Counts.of_cons, Counts.remove_add]
    refine ⟨{ x with total := _, wholeStore := _ }, by rw [hwhole]; rfl, rfl, rfl, fun e => ?_⟩
    have hrow := h.rows e
    rwa [List.filter_cons_of_neg (by simp [he])] at hrow
  | some e =>
    have hstored : x.rows.lookup e =
        some ((Counts.of (l.filter (·.entity == some e))).add a.kind) := by
      rw [h.rows, List.filter_cons_of_pos (by simp [he]), Counts.of_cons, Counts.held,
        if_pos (Counts.any_add _ _)]
    have hothers : ∀ e', e' ≠ e → x.rows.lookup e' =
        (Counts.of (l.filter (·.entity == some e'))).held := by
      intro e' hne
      rw [h.rows, List.filter_cons_of_neg]
      simp [he, Ne.symm hne]
    have hrow : ((Counts.of (l.filter (·.entity == some e))).add a.kind).remove a.kind =
        some (.of (l.filter (·.entity == some e))) := Counts.remove_add _ _
    dsimp only [Option.bind_eq_bind, Option.bind_some]
    rw [hstored]
    dsimp only [Option.bind_some]
    rw [hrow]
    refine ⟨_, rfl, rfl, ?_, fun e' => ?_⟩
    · have hwhole := h.wholeStore
      rwa [List.filter_cons_of_neg (by simp [he])] at hwhole
    · dsimp only
      by_cases heq : e' = e
      · subst heq
        rw [Counts.held]
        split_ifs
        · rw [Dict.lookup_insert, if_pos rfl]
        · rw [Dict.lookup_erase, if_pos rfl]
      · rw [← hothers e' heq]
        split_ifs
        · rw [Dict.lookup_insert, if_neg heq]
        · rw [Dict.lookup_erase, if_neg heq]

end ComponentAccess
end Porridge
