import Porridge.Retirement

/-! Which pairs a retirement cascade takes away, bounded from both sides. -/
namespace Porridge

variable {α : Type} (C : Components α)

namespace World

inductive OwnershipReach (w : World α) (through : TypeId → Prop) (roots : List Entity) :
    Entity → Prop
  | root {e : Entity} (h : e ∈ roots) : OwnershipReach w through roots e
  | output {k e : Entity} {t : TypeId} {o : SystemInvocation}
      (hk : OwnershipReach w through roots k) (hkey : k ∈ o.keys)
      (ho : w.owner? t e = some o) (ht : through t) : OwnershipReach w through roots e

def Reaches (w : World α) (through : TypeId → Prop) (roots : List Entity)
    (o : SystemInvocation) : Prop :=
  ∃ k ∈ o.keys, w.OwnershipReach through roots k

/-- The pair is an output of an invocation keyed by a reached entity. -/
def Swept (w : World α) (through : TypeId → Prop) (roots : List Entity) (t : TypeId)
    (e : Entity) : Prop :=
  ∃ o, w.owner? t e = some o ∧ w.Reaches through roots o

theorem OwnershipReach.mono {w w' : World α} {through : TypeId → Prop} {roots roots' : List Entity}
    (hw : ∀ t e o, w.owner? t e = some o → w'.owner? t e = some o)
    (hr : ∀ x ∈ roots, x ∈ roots') {e : Entity} (h : w.OwnershipReach through roots e) :
    w'.OwnershipReach through roots' e := by
  induction h with
  | root h => exact .root (hr _ h)
  | output _ hkey ho ht ih => exact .output ih hkey (hw _ _ _ ho) ht

theorem Reaches.mono {w w' : World α} {through : TypeId → Prop} {roots roots' : List Entity}
    (hw : ∀ t e o, w.owner? t e = some o → w'.owner? t e = some o)
    (hr : ∀ x ∈ roots, x ∈ roots') {o : SystemInvocation} (h : w.Reaches through roots o) :
    w'.Reaches through roots' o := by
  obtain ⟨k, hk, hreach⟩ := h
  exact ⟨k, hk, hreach.mono hw hr⟩

theorem Swept.mono {w w' : World α} {through : TypeId → Prop} {roots roots' : List Entity}
    (hw : ∀ t e o, w.owner? t e = some o → w'.owner? t e = some o)
    (hr : ∀ x ∈ roots, x ∈ roots') {t : TypeId} {e : Entity} (h : w.Swept through roots t e) :
    w'.Swept through roots' t e := by
  obtain ⟨o, ho, hreach⟩ := h
  exact ⟨o, hw t e o ho, hreach.mono hw hr⟩

theorem cell?_retractEdge (w : World α) (source : Entity) (edge : Option (TypeId × Entity))
    (t : TypeId) (e : Entity) (h : edge ≠ some (t, e)) :
    (w.retractEdge C source edge).cell? t e = w.cell? t e := by
  cases edge with
  | none => rfl
  | some p =>
    have hne : ¬ (t = p.1 ∧ e = p.2) := fun hp => h (by rw [hp.1, hp.2])
    unfold retractEdge relationshipRemoveMember
    dsimp only
    split
    · rfl
    · split_ifs
      · rw [cell?_dropEntry, if_neg hne]
      · rw [cell?_writeEntry, if_neg hne]
      · rfl

theorem isInverse_edgeOn {w : World α} {t t' : TypeId} {e e' : Entity}
    (h : w.edgeOn C t e = some (t', e')) : C.IsInverse t' :=
  ⟨t, Closed.role_edgeOn _ h⟩

/-- Sweeping one output only touches that pair and the inverse its edge is listed in. -/
theorem cell?_removeDerivedEntry (w : World α) (t t' : TypeId) (e e' : Entity)
    (o : SystemInvocation) (h : w.owner? t e = some o → w.edgeOn C t e ≠ some (t', e')) :
    (w.removeDerivedEntry C t e o).cell? t' e' =
      if t' = t ∧ e' = e ∧ w.owner? t e = some o then none else w.cell? t' e' := by
  unfold removeDerivedEntry
  by_cases ho : w.owner? t e = some o
  · rw [if_pos ho, cell?_retractEdge C _ e _ t' e' (h ho), cell?_sweepEntry]
  · rw [if_neg ho]
    simp [ho]

/-- No removal path adds a cell. -/
theorem has_of_has_removeDerivedEntry {w : World α} {t t' : TypeId} {e e' : Entity}
    {o : SystemInvocation} (h : (w.removeDerivedEntry C t e o).has t' e' = true) :
    w.has t' e' = true := by
  have hswept : ∀ {u : World α}, u.has t' e' = true →
      (∀ x, u.cell? t' e' = some x → ∃ y, w.cell? t' e' = some y) → w.has t' e' = true := by
    intro u hu hcells
    obtain ⟨x, hx⟩ := (has_iff u t' e').mp hu
    exact (has_iff w t' e').mpr (hcells x hx)
  by_cases ho : w.owner? t e = some o
  · by_cases hedge : w.edgeOn C t e = some (t', e')
    · -- the retracted inverse is only rewritten where it was present
      have hne : ¬ (t' = t ∧ e' = e) := by
        rintro ⟨rfl, rfl⟩
        obtain ⟨edge, hrole⟩ := isInverse_edgeOn C hedge
        obtain ⟨x, -, hx⟩ := Option.bind_eq_some_iff.mp hedge
        unfold Components.relationshipEdge at hx
        rw [hrole] at hx
        cases hx
      unfold removeDerivedEntry at h
      rw [if_pos ho, hedge] at h
      unfold retractEdge relationshipRemoveMember at h
      dsimp only at h
      split at h
      · rename_i hnone
        simp [has, hnone] at h
      · rename_i x hx
        rw [cell?_sweepEntry, if_neg fun hp => hne ⟨hp.1, hp.2.1⟩] at hx
        exact (has_iff w t' e').mpr ⟨x, hx⟩
    · refine hswept h fun x hx => ⟨x, ?_⟩
      rw [cell?_removeDerivedEntry C w t t' e e' o fun _ => hedge] at hx
      split_ifs at hx
      exact hx
  · unfold removeDerivedEntry at h
    rwa [if_neg ho] at h

/-- `w` is `w₀` with some outputs taken away that invocations reached from `roots` own. -/
structure SweptFrom (w₀ w : World α) (roots : List Entity) : Prop where
  disowns : ∀ t e o, w.owner? t e = some o → w₀.owner? t e = some o
  has : ∀ t e, w.has t e = true → w₀.has t e = true
  plain : ∀ t e, ¬ C.IsInverse t →
    w.cell? t e = w₀.cell? t e ∨ (w.cell? t e = none ∧ w₀.Swept (fun _ => True) roots t e)
  /-- An owned pair goes with its owner, or as the inverse of an edge that goes. -/
  owned : ∀ t e i, w₀.owner? t e = some i → w.owner? t e = some i ∨
    w₀.Reaches (fun _ => True) roots i ∨
      ∃ t' e', w₀.Swept (fun _ => True) roots t' e' ∧ w₀.edgeOn C t' e' = some (t, e)

variable {C}

theorem SweptFrom.refl (w : World α) (roots : List Entity) : SweptFrom C w w roots :=
  ⟨fun _ _ _ h => h, fun _ _ h => h, fun _ _ _ => Or.inl rfl, fun _ _ _ h => Or.inl h⟩

theorem not_isInverse_of_edgeOn {w : World α} {t t' : TypeId} {e e' : Entity}
    (h : w.edgeOn C t e = some (t', e')) : ¬ C.IsInverse t := by
  rintro ⟨edge, hrole⟩
  obtain ⟨x, -, hx⟩ := Option.bind_eq_some_iff.mp h
  unfold Components.relationshipEdge at hx
  rw [hrole] at hx
  cases hx

theorem SweptFrom.removeDerivedEntry {w₀ w : World α} {roots : List Entity}
    (h : SweptFrom C w₀ w roots) {o : SystemInvocation}
    (ho : w₀.Reaches (fun _ => True) roots o) (t : TypeId) (e : Entity) :
    SweptFrom C w₀ (w.removeDerivedEntry C t e o) roots where
  disowns t' e' o' ho' := h.disowns t' e' o'
    ((closed_disowning C).removeDerivedEntry w t e trivial t' e' o' ho')
  has t' e' hhas := h.has t' e' (has_of_has_removeDerivedEntry C hhas)
  plain t' e' ht := by
    have hedge : w.edgeOn C t e ≠ some (t', e') := fun hp => ht (isInverse_edgeOn C hp)
    rw [cell?_removeDerivedEntry C w t t' e e' o fun _ => hedge]
    split_ifs with hp
    · obtain ⟨rfl, rfl, howned⟩ := hp
      exact Or.inr ⟨rfl, o, h.disowns t' e' o howned, ho⟩
    · exact h.plain t' e' ht
  owned t' e' i hi := by
    rcases h.owned t' e' i hi with howned | hgone
    · by_cases hedge : w.owner? t e = some o ∧ w.edgeOn C t e = some (t', e')
      · have hswept : w₀.Swept (fun _ => True) roots t e := ⟨o, h.disowns t e o hedge.1, ho⟩
        have hcell : w.cell? t e = w₀.cell? t e := by
          rcases h.plain t e (not_isInverse_of_edgeOn hedge.2) with hc | ⟨hnone, -⟩
          · exact hc
          · simp [owner?, hnone] at hedge
        refine Or.inr (Or.inr ⟨t, e, hswept, ?_⟩)
        rw [edgeOn, ← hcell]
        exact hedge.2
      · have hcell := cell?_removeDerivedEntry C w t t' e e' o fun hw hp => hedge ⟨hw, hp⟩
        by_cases hp : t' = t ∧ e' = e ∧ w.owner? t e = some o
        · obtain ⟨rfl, rfl, how⟩ := hp
          have heq : i = o := Option.some.inj (howned.symm.trans how)
          exact Or.inr (Or.inl (heq ▸ ho))
        · rw [if_neg hp] at hcell
          exact Or.inl (by rw [owner?, hcell]; exact howned)
    · exact Or.inr hgone

theorem SweptFrom.removeDerivedEntries {w₀ : World α} {roots : List Entity}
    {o : SystemInvocation} (ho : w₀.Reaches (fun _ => True) roots o) :
    ∀ (pairs : List (TypeId × Entity)) {w : World α}, SweptFrom C w₀ w roots →
      SweptFrom C w₀ (w.removeDerivedEntries C o pairs) roots ∧
        ∀ x ∈ w.removedOutputs C o pairs, w₀.OwnershipReach (fun _ => True) roots x
  | [], _, h => ⟨h, fun x hx => by cases hx⟩
  | p :: pairs, w, h => by
    obtain ⟨hswept, hfound⟩ := SweptFrom.removeDerivedEntries ho pairs
      (h.removeDerivedEntry ho p.1 p.2)
    refine ⟨hswept, fun x hx => ?_⟩
    unfold removedOutputs at hx
    dsimp only at hx
    split_ifs at hx with howned
    · rcases List.mem_cons.mp hx with rfl | hx
      · obtain ⟨k, hk, hreach⟩ := ho
        exact .output hreach hk (h.disowns _ _ _ howned) trivial
      · exact hfound x hx
    · exact hfound x hx

theorem SweptFrom.forgetOwner {w₀ w : World α} {roots : List Entity}
    (h : SweptFrom C w₀ w roots) (o : SystemInvocation) :
    SweptFrom C w₀ (w.forgetOwner o) roots := ⟨h.disowns, h.has, h.plain, h.owned⟩

theorem SweptFrom.retireOwners {w₀ : World α} {roots : List Entity} :
    ∀ (owners : List SystemInvocation) {w : World α}, SweptFrom C w₀ w roots →
      (∀ o ∈ owners, w₀.Reaches (fun _ => True) roots o) →
        SweptFrom C w₀ (w.retireOwners C owners).1 roots ∧
          ∀ x ∈ (w.retireOwners C owners).2, w₀.OwnershipReach (fun _ => True) roots x
  | [], _, h, _ => ⟨h, fun x hx => by cases hx⟩
  | o :: owners, w, h, hreach => by
    obtain ⟨howned, hfound⟩ := SweptFrom.removeDerivedEntries (hreach o (by simp))
      (w.outputs o) (h.forgetOwner o)
    obtain ⟨hrest, hothers⟩ := SweptFrom.retireOwners owners howned fun o' ho' =>
      hreach o' (by simp [ho'])
    refine ⟨hrest, fun x hx => ?_⟩
    rcases List.mem_append.mp hx with hx | hx
    · exact hfound x hx
    · exact hothers x hx

section Found

variable (C)

/-- A pair of a plain type that a sweep takes away has its entity among those found. -/
theorem owned_or_found_removeDerivedEntries {t : TypeId} {e : Entity} {o' : SystemInvocation}
    (ht : ¬ C.IsInverse t) (o : SystemInvocation) :
    ∀ (pairs : List (TypeId × Entity)) {w : World α}, w.owner? t e = some o' →
      (w.removeDerivedEntries C o pairs).owner? t e = some o' ∨
        e ∈ w.removedOutputs C o pairs
  | [], _, h => Or.inl h
  | p :: pairs, w, h => by
    unfold removedOutputs
    dsimp only
    have hcell := cell?_removeDerivedEntry C w p.1 t p.2 e o fun _ hp =>
      ht (isInverse_edgeOn C hp)
    by_cases hp : t = p.1 ∧ e = p.2 ∧ w.owner? p.1 p.2 = some o
    · refine Or.inr ?_
      rw [if_pos hp.2.2]
      exact List.mem_cons.mpr (Or.inl hp.2.1)
    · have hkept : (w.removeDerivedEntry C p.1 p.2 o).owner? t e = some o' := by
        rw [owner?, hcell, if_neg hp]
        exact h
      rcases owned_or_found_removeDerivedEntries ht o pairs hkept with hrest | hrest
      · exact Or.inl hrest
      · refine Or.inr ?_
        split_ifs
        · exact List.mem_cons_of_mem _ hrest
        · exact hrest

theorem owned_or_found_retireOwners {t : TypeId} {e : Entity} {o' : SystemInvocation}
    (ht : ¬ C.IsInverse t) :
    ∀ (owners : List SystemInvocation) {w : World α}, w.owner? t e = some o' →
      (w.retireOwners C owners).1.owner? t e = some o' ∨ e ∈ (w.retireOwners C owners).2
  | [], _, h => Or.inl h
  | o :: owners, w, h => by
    rcases owned_or_found_removeDerivedEntries C ht o (w.outputs o)
      (w := w.forgetOwner o) h with hkept | hfound
    · rcases owned_or_found_retireOwners ht owners hkept with hrest | hrest
      · exact Or.inl hrest
      · exact Or.inr (List.mem_append_right _ hrest)
    · exact Or.inr (List.mem_append_left _ hfound)

end Found
end World
end Porridge
