import Porridge.Cleanup
import Porridge.Evaluation.Cascade
import Porridge.World.Teardown

/-! What a destructive read loses: entries that hang on the closed entities, and the memo entries
of the invocations it retires. -/
namespace Porridge

open World

variable {α : Type} {C : Components α}

/-- The entry certainly goes with the roots. -/
def World.Doomed (C : Components α) (w : World α) (roots : List Entity) (t : TypeId) (e : Entity) :
    Prop := e ∈ roots ∨ (¬ C.IsInverse t ∧ w.Swept (fun t => ¬ C.IsInverse t) roots t e)

/-- A retirement loses what the roots of `w₀` affect, and the memo entries of what they retire. -/
structure Retirement.Loses (C : Components α) (w₀ : World α) (memo : MemoTable)
    (roots : List Entity) (gone : TypeId → Entity → Prop) (r : Retirement α) : Prop where
  torn : TornFrom C w₀ r.world roots gone
  memo : ∀ i, r.memo.lookup i = memo.lookup i ∨ w₀.Retires roots i

section Steps

variable {w₀ : World α} {memo : MemoTable} {roots : List Entity} {gone : TypeId → Entity → Prop}
  {r : Retirement α}

theorem Retirement.Loses.retireTouched (h : r.Loses C w₀ memo roots gone) {frontier : List Entity}
    (hreach : ∀ x ∈ frontier, w₀.OwnershipReach (fun _ => True) roots x) :
    (retireTouched C none r frontier).1.Loses C w₀ memo roots gone ∧
      ∀ x ∈ (Porridge.retireTouched C none r frontier).2,
        w₀.OwnershipReach (fun _ => True) roots x := by
  have htouched : ∀ o : SystemInvocation, o.touches frontier = true →
      w₀.Reaches (fun _ => True) roots o := by
    intro o ho
    obtain ⟨k, hk, hmem⟩ := SystemInvocation.touches_iff.mp ho
    exact ⟨k, hk, hreach k hmem⟩
  have hentries : ∀ {o : SystemInvocation}, w₀.Reaches (fun _ => True) roots o →
      ∀ (pairs : List (TypeId × Entity)) {u : World α}, TornFrom C w₀ u roots gone →
        TornFrom C w₀ (u.removeDerivedEntries C o pairs) roots gone ∧
          ∀ x ∈ u.removedOutputs C o pairs, w₀.OwnershipReach (fun _ => True) roots x := by
    intro o ho pairs
    induction pairs with
    | nil => exact fun hu => ⟨hu, fun x hx => (by cases hx)⟩
    | cons p pairs ih =>
      intro u hu
      obtain ⟨htorn, hfound⟩ := ih (hu.removeDerivedEntry (Or.inl ho) p.1 p.2)
      refine ⟨htorn, fun x hx => ?_⟩
      unfold removedOutputs at hx
      dsimp only at hx
      split_ifs at hx with howned
      · rcases List.mem_cons.mp hx with rfl | hx
        · obtain ⟨k, hk, hkreach⟩ := ho
          exact .output hkreach hk (hu.owner _ _ _ howned) trivial
        · exact hfound x hx
      · exact hfound x hx
  have howners : ∀ (owners : List SystemInvocation) {u : World α}, TornFrom C w₀ u roots gone →
      (∀ o ∈ owners, w₀.Reaches (fun _ => True) roots o) →
        TornFrom C w₀ (u.retireOwners C owners).1 roots gone ∧
          ∀ x ∈ (u.retireOwners C owners).2, w₀.OwnershipReach (fun _ => True) roots x := by
    intro owners
    induction owners with
    | nil => exact fun hu _ => ⟨hu, fun x hx => (by cases hx)⟩
    | cons o owners ih =>
      intro u hu hall
      have hforgot : TornFrom C w₀ (u.forgetOwner o) roots gone := hu.congr rfl rfl
      obtain ⟨htorn, hfound⟩ := hentries (hall o List.mem_cons_self) (u.outputs o) hforgot
      obtain ⟨hrest, hothers⟩ := ih htorn fun o' ho' => hall o' (List.mem_cons_of_mem _ ho')
      refine ⟨hrest, fun x hx => ?_⟩
      rcases List.mem_append.mp hx with hx | hx
      · exact hfound x hx
      · exact hothers x hx
  have hselected : ∀ o ∈ r.world.ownersTouchedBy frontier none,
      w₀.Reaches (fun _ => True) roots o := fun o ho => by
    have hsel := (List.mem_filter.mp ho).2
    rw [Bool.and_eq_true] at hsel
    exact htouched o hsel.2
  obtain ⟨htorn, hfound⟩ := howners _ h.torn hselected
  refine ⟨⟨htorn, fun i => ?_⟩, hfound⟩
  show (removeMemoTouchedBy r.memo frontier).lookup i = memo.lookup i ∨ _
  rw [lookup_removeMemoTouchedBy]
  split_ifs with ht
  · exact Or.inr (Or.inl (htouched i ht))
  · exact h.memo i

theorem Retirement.Loses.cascade (h : r.Loses C w₀ memo roots gone) (seen : List Entity)
    {frontier : List Entity} (hroots : ∀ x ∈ frontier, x ∈ roots) :
    (retireCascade C none r seen frontier).Loses C w₀ memo roots gone :=
  Worklist.rounds_invariant (w₀.OwnershipReach (fun _ => True) roots)
    (fun r : Retirement α => r.Loses C w₀ memo roots gone)
    (fun _ _ hr hreach => hr.retireTouched hreach) _ _ _ _ h fun x hx => .root (hroots x hx)

/-- The roots go, and the owners collected from them are retired. -/
theorem TornFrom.removeRoots : ∀ (entities : List Entity) {u : World α}
    {gone : TypeId → Entity → Prop}, TornFrom C w₀ u roots gone → (∀ e ∈ entities, e ∈ roots) →
      TornFrom C w₀ (u.removeRoots C entities).1 roots (fun t e => gone t e ∨ e ∈ entities) ∧
        ∀ o ∈ (u.removeRoots C entities).2, w₀.Retires roots o
  | [], u, gone, hu, _ => by
    refine ⟨hu.mono fun t e hg => hu.gone t e (hg.resolve_right List.not_mem_nil), ?_⟩
    exact fun o ho => nomatch ho
  | e :: entities, u, gone, hu, hall => by
    have he : e ∈ roots := hall e List.mem_cons_self
    obtain ⟨htorn, howners⟩ := TornFrom.removeRoots entities (hu.removeEntity he)
      fun e' he' => hall e' (List.mem_cons_of_mem _ he')
    constructor
    · refine htorn.mono fun t e' hg => htorn.gone t e' ?_
      rcases hg with hg | hg
      · exact Or.inl (Or.inl hg)
      · exact (List.mem_cons.mp hg).imp Or.inr id
    · intro o ho
      rcases List.mem_append.mp ho with ho | ho
      · obtain ⟨t, ht⟩ := (mem_ownersOn u e o).mp ho
        exact Or.inr ⟨t, e, he, hu.owner t e o ht⟩
      · exact howners o ho

theorem Retirement.Loses.retireOwner (h : r.Loses C w₀ memo roots gone) {o : SystemInvocation}
    (ho : w₀.Retires roots o) : (Porridge.retireOwner C r o).Loses C w₀ memo roots gone := by
  refine ⟨h.torn.removeDerivedOwned ho, fun i => ?_⟩
  show (r.memo.erase o).lookup i = memo.lookup i ∨ _
  by_cases hi : i = o
  · exact Or.inr (hi ▸ ho)
  · rw [AList.lookup_erase_ne hi]
    exact h.memo i

/-- A cleanup loses what hangs on its entities, and what certainly does so is gone. -/
theorem Retirement.Loses.cleanup (h : r.Loses C w₀ memo roots fun _ _ => False)
    (hindexed : r.world.Indexed fun _ _ => False) {entities : List Entity}
    (hentities : ∀ e, e ∈ entities ↔ e ∈ roots)
    (hreach : ∀ t e, ¬ C.IsInverse t → e ∉ roots →
      w₀.Swept (fun t => ¬ C.IsInverse t) roots t e →
        r.world.Swept (fun t => ¬ C.IsInverse t) roots t e) :
    (cleanupRetirement C r entities).Loses C w₀ memo roots (w₀.Doomed C roots) := by
  have hroots : ∀ x ∈ entities.dedup, x ∈ roots := fun x hx =>
    (hentities x).mp (List.mem_dedup.mp hx)
  have hswept := h.cascade [] hroots
  have hgone : ∀ t e, (e ∉ roots ∧ ¬ C.IsInverse t ∧
      w₀.Swept (fun t => ¬ C.IsInverse t) roots t e) →
        (retireCascade C none r [] entities.dedup).world.cell? t e = none := by
    rintro t e ⟨hroot, hplain, hdoomed⟩
    have hback : ∀ x ∈ roots, x ∈ entities.dedup := fun x hx =>
      List.mem_dedup.mpr ((hentities x).mpr hx)
    have hnone : ∀ x ∈ ([] : List Entity), x ∈ entities.dedup := fun _ hx => nomatch hx
    have hthere := (hreach t e hplain hroot hdoomed).mono (fun _ _ _ ho => ho) hback
    have habsent := retireCascade_complete C hindexed r.memo r.retiredOutputs
      hnone hplain hthere
    simpa [World.has] using habsent
  obtain ⟨htorn, howners⟩ := TornFrom.removeRoots entities.dedup (hswept.torn.mono hgone) hroots
  have hfold : ∀ (owners : List SystemInvocation) {r' : Retirement α},
      (∀ o ∈ owners, w₀.Retires roots o) → r'.Loses C w₀ memo roots (w₀.Doomed C roots) →
        (owners.foldl (Porridge.retireOwner C) r').Loses C w₀ memo roots (w₀.Doomed C roots) := by
    intro owners
    induction owners with
    | nil => exact fun _ hr => hr
    | cons o owners ih =>
      intro r' hall hr
      exact ih (fun o' ho' => hall o' (List.mem_cons_of_mem _ ho'))
        (hr.retireOwner (hall o List.mem_cons_self))
  refine hfold _ (fun o ho => howners o (List.mem_dedup.mp ho)) ⟨?_, hswept.memo⟩
  refine htorn.mono fun t e hdoomed => htorn.gone t e ?_
  rcases hdoomed with hroot | ⟨hplain, hdoomed⟩
  · exact Or.inr (List.mem_dedup.mpr ((hentities e).mpr hroot))
  · by_cases hroot : e ∈ roots
    · exact Or.inr (List.mem_dedup.mpr ((hentities e).mpr hroot))
    · exact Or.inl ⟨hroot, hplain, hdoomed⟩

end Steps
end Porridge
