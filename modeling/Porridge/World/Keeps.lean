import Porridge.World.Grows
import Porridge.World.Reachable

/-! Which held outputs a world operation can take from their owner. -/
namespace Porridge
namespace World

variable {α : Type} (C : Components α)

/-- The invocation owns the pair and its index lists it. -/
def Holds (w : World α) (o : SystemInvocation) (t : TypeId) (e : Entity) : Prop :=
  w.owner? t e = some o ∧ (t, e) ∈ w.outputs o

theorem Holds.of_owner {w : World α} (h : w.Indexed fun _ _ => False) {o : SystemInvocation}
    {t : TypeId} {e : Entity} (ho : w.owner? t e = some o) : w.Holds o t e :=
  ⟨ho, (h t e o ho).resolve_right id⟩

theorem Holds.congr {w w' : World α} (h : SameOwnership w w') {o : SystemInvocation} {t : TypeId}
    {e : Entity} (hh : w.Holds o t e) : w'.Holds o t e :=
  ⟨(h.1 t e).trans hh.1, by rw [outputs_congr h.2]; exact hh.2⟩

def TakenBy (P : Permits) (o : SystemInvocation) (t : TypeId) (e : Entity) : Prop :=
  P.purges e ∨ P.sweeps t e o ∨ P.drops t e o ∨ ∃ o', P.writes t e o' ∧ o' ≠ some o

/-- A held output stays held, its owner is recorded as having lost a component, or a permitted
effect takes it. Inverses are the engine's own and left out. -/
structure Keeps (P : Permits) (w w' : World α) : Prop where
  grows : w.Grows w'
  holds : ∀ o t e, ¬ C.IsInverse t → w.Holds o t e →
    w'.Holds o t e ∨ o ∈ w'.removedComponentOwners ∨ TakenBy P o t e

variable {C}

theorem Keeps.trans {P : Permits} {a b c : World α} (hab : Keeps C P a b) (hbc : Keeps C P b c) :
    Keeps C P a c where
  grows := hab.grows.trans hbc.grows
  holds o t e ht h := by
    rcases hab.holds o t e ht h with hb | hrecorded | htaken
    · exact hbc.holds o t e ht hb
    · exact Or.inr (Or.inl (hbc.grows.componentOwners.subset hrecorded))
    · exact Or.inr (Or.inr htaken)

theorem Keeps.of_same {P : Permits} {w w' : World α} (hg : w.Grows w')
    (hs : SameOwnership w w') : Keeps C P w w' :=
  ⟨hg, fun _ _ _ _ h => Or.inl (h.congr hs)⟩

theorem Keeps.of_stores {P : Permits} {w w' : World α} (hg : w.Grows w')
    (hs : w'.stores = w.stores) (ho : w'.derivedOwners = w.derivedOwners) : Keeps C P w w' :=
  .of_same hg ⟨fun t e => owner?_congr hs t e, ho⟩

/-- Dropping an owned component records its owner unless the owner drops it. -/
theorem mem_removedComponentOwners_dropEntry {w : World α} {t : TypeId} {e : Entity}
    {o : SystemInvocation} (remover : Option SystemInvocation) (h : w.owner? t e = some o) :
    o ∈ (w.dropEntry C t e remover).removedComponentOwners ∨ remover = some o := by
  have hhas : w.has t e = true := by
    obtain ⟨x, hx, -⟩ := Option.bind_eq_some_iff.mp h
    exact (has_iff w t e).mpr ⟨x, hx⟩
  have hunregister : ∀ u : World α,
      (u.unregisterSingleton C t e).removedComponentOwners = u.removedComponentOwners := by
    intro u
    unfold unregisterSingleton
    split
    · rfl
    · split_ifs <;> rfl
  unfold dropEntry
  rw [if_pos hhas, hunregister, h]
  unfold disownEntry
  dsimp only
  split_ifs with hremover
  · exact Or.inr hremover
  · exact Or.inl (by simp)

variable (C)

/-- Every store effect keeps the held outputs it is not permitted to take. -/
theorem closed_keeps (P : Permits)
    (hinverse : ∀ t e edge, C.role t = .inverse edge → P.writes t e none) :
    Closed C (Keeps C P) P where
  refl w := Keeps.of_stores (Grows.of_eq rfl rfl rfl) rfl rfl
  trans := Keeps.trans
  bookkeeping hb _ := Keeps.of_stores ((closed_grows C).bookkeeping hb (Or.inl trivial)) hb.stores
    hb.derivedOwners
  write w t e v o hw := by
    refine ⟨(closed_grows C).write w t e v o trivial, fun o' t' e' _ hh => ?_⟩
    by_cases hp : t' = t ∧ e' = e
    · obtain ⟨rfl, rfl⟩ := hp
      by_cases ho : o = some o'
      · refine Or.inl ⟨?_, (mem_outputs_writeEntry C w t' e' v o o' (t', e')).mpr (Or.inr ⟨rfl, ho⟩)⟩
        rw [owner?_writeEntry, if_pos ⟨rfl, rfl⟩, ho]
      · exact Or.inr (Or.inr (Or.inr (Or.inr (Or.inr ⟨o, hw, ho⟩))))
    · refine Or.inl ⟨?_, (mem_outputs_writeEntry C w t e v o o' (t', e')).mpr (Or.inl ⟨hh.2, ?_⟩)⟩
      · rw [owner?_writeEntry, if_neg hp]
        exact hh.1
      · exact fun hq => hp (Prod.ext_iff.mp hq.1)
  drop w t e remover hd := by
    refine ⟨grows_dropEntry C w t e remover, fun o' t' e' _ hh => ?_⟩
    by_cases hp : t' = t ∧ e' = e
    · obtain ⟨rfl, rfl⟩ := hp
      rcases mem_removedComponentOwners_dropEntry (C := C) remover hh.1 with hrecorded | hself
      · exact Or.inr (Or.inl hrecorded)
      · exact Or.inr (Or.inr (Or.inr (Or.inr (Or.inl (hd o' hself)))))
    · refine Or.inl ⟨?_, (mem_outputs_dropEntry C w t e remover o' (t', e')).mpr ⟨hh.2, ?_⟩⟩
      · rw [owner?_dropEntry, if_neg hp]
        exact hh.1
      · exact fun hq => hp (Prod.ext_iff.mp hq.1)
  sweep w t e o hs := by
    refine ⟨(closed_grows C).sweep w t e o trivial, fun o' t' e' _ hh => ?_⟩
    by_cases hp : t' = t ∧ e' = e ∧ w.owner? t e = some o
    · obtain ⟨rfl, rfl, ho⟩ := hp
      have heq : o = o' := Option.some.inj (ho.symm.trans hh.1)
      exact Or.inr (Or.inr (Or.inr (Or.inl (heq ▸ hs))))
    · refine Or.inl ⟨?_, by rw [outputs_congr (sweepEntry_derivedOwners ..)]; exact hh.2⟩
      rw [owner?_sweepEntry, if_neg hp]
      exact hh.1
  purge w e hp := by
    refine ⟨grows_purgeEntity w e, fun o' t' e' _ hh => ?_⟩
    by_cases he : e' = e
    · exact Or.inr (Or.inr (Or.inl (he ▸ hp)))
    · refine Or.inl ⟨?_, (mem_outputs_purgeEntity w e o' (t', e')).mpr ⟨hh.2, fun hq => he hq.1⟩⟩
      rw [owner?_purgeEntity, if_neg he]
      exact hh.1
  inverse t e edge h := hinverse t e edge h

/-- What the engine does besides the writes, removals and sweeps asked for: it maintains the
inverses as base facts. -/
def maintains : Permits where
  writes t _ o := C.IsInverse t ∧ o = none
  drops _ _ _ := False
  sweeps _ _ _ := False
  purges _ := False
  defers := True

/-- Maintenance takes no pair of a type that is not an inverse. -/
theorem not_takenBy_maintains {o : SystemInvocation} {t : TypeId} {e : Entity}
    (ht : ¬ C.IsInverse t) : ¬ TakenBy (maintains C) o t e := by
  rintro (h | h | h | ⟨o', h, -⟩)
  · exact h
  · exact h
  · exact h
  · exact ht h.1

theorem closed_maintains : Closed C (Keeps C (maintains C)) (maintains C) :=
  closed_keeps C (maintains C) fun _ _ edge h => ⟨⟨edge, h⟩, rfl⟩

variable {C}

theorem Keeps.weaken {P Q : Permits} {w w' : World α} (h : Keeps C P w w')
    (hpq : ∀ o t e, ¬ C.IsInverse t → w.Holds o t e → TakenBy P o t e → TakenBy Q o t e) :
    Keeps C Q w w' where
  grows := h.grows
  holds o t e ht hh := by
    rcases h.holds o t e ht hh with hheld | hrecorded | htaken
    · exact Or.inl hheld
    · exact Or.inr (Or.inl hrecorded)
    · exact Or.inr (Or.inr (hpq o t e ht hh htaken))

def sweepsOf (C : Components α) (owners : List SystemInvocation) : Permits :=
  { maintains C with sweeps := fun _ _ o => o ∈ owners }

theorem takenBy_sweepsOf {owners : List SystemInvocation} {o : SystemInvocation} {t : TypeId}
    {e : Entity} (ht : ¬ C.IsInverse t) : TakenBy (sweepsOf C owners) o t e ↔ o ∈ owners := by
  constructor
  · rintro (h | h | h | ⟨o', h, -⟩)
    · exact h.elim
    · exact h
    · exact h.elim
    · exact absurd h.1 ht
  · exact fun h => Or.inr (Or.inl h)

/-- Clearing the index entry of an owner only loosens what that owner holds. -/
theorem keeps_eraseOwner {w w' : World α} (o : SystemInvocation) (hg : w.Grows w')
    (hs : w'.stores = w.stores) (ho : w'.derivedOwners = w.derivedOwners.erase o) :
    Keeps C (sweepsOf C [o]) w w' where
  grows := hg
  holds o' t e ht hh := by
    by_cases heq : o' = o
    · exact Or.inr (Or.inr ((takenBy_sweepsOf ht).mpr (by simp [heq])))
    · have hindex : (t, e) ∈ w'.outputs o' := by
        rw [outputs, ho, Dict.getD_erase, if_neg heq]
        exact hh.2
      exact Or.inl ⟨(owner?_congr hs t e).trans hh.1, hindex⟩

theorem keeps_removeDerivedOwned (w : World α) (o : SystemInvocation) :
    Keeps C (sweepsOf C [o]) w (w.removeDerivedOwned C o) := by
  have hforget : Keeps C (sweepsOf C [o]) w (w.forgetOwner o) :=
    keeps_eraseOwner o (Grows.of_eq rfl rfl rfl) rfl rfl
  have hclosed := closed_keeps C (sweepsOf C [o]) fun _ _ edge h => ⟨⟨edge, h⟩, rfl⟩
  have hsweep := hclosed.removeDerivedEntries (o := o) (w.forgetOwner o) (w.outputs o)
    fun _ _ => List.mem_singleton.mpr rfl
  exact hforget.trans hsweep

theorem keeps_retireOwners : ∀ (owners : List SystemInvocation) (w : World α),
    Keeps C (sweepsOf C owners) w (w.retireOwners C owners).1
  | [], w => .of_stores (Grows.of_eq rfl rfl rfl) rfl rfl
  | o :: owners, w => by
    have hfirst : Keeps C (sweepsOf C (o :: owners)) w (w.removeDerivedOwned C o) :=
      (keeps_removeDerivedOwned w o).weaken fun o' t e ht _ htaken => by
        have hmem := (takenBy_sweepsOf ht).mp htaken
        exact (takenBy_sweepsOf ht).mpr (by simp [List.mem_singleton.mp hmem])
    have hrest : Keeps C (sweepsOf C (o :: owners)) (w.removeDerivedOwned C o)
        ((w.removeDerivedOwned C o).retireOwners C owners).1 :=
      (keeps_retireOwners owners _).weaken fun o' t e ht _ htaken =>
        (takenBy_sweepsOf ht).mpr (List.mem_cons_of_mem o ((takenBy_sweepsOf ht).mp htaken))
    exact hfirst.trans hrest

/-- A stale sweep spares what its owner holds. -/
theorem keeps_removeDerivedStale (w : World α) (o : SystemInvocation)
    (previous : List (TypeId × Entity)) :
    Keeps C (maintains C) w (w.removeDerivedStale C o previous) := by
  refine (closed_maintains C).foldl previous w fun u p _ => ?_
  split_ifs with hmem
  · exact (closed_maintains C).refl u
  · let P : Permits := { maintains C with sweeps := fun t e o' => o' = o ∧ (t, e) = p }
    have hclosed := closed_keeps C P fun _ _ edge h => ⟨⟨edge, h⟩, rfl⟩
    refine (hclosed.removeDerivedEntry u p.1 p.2 ⟨rfl, rfl⟩).weaken fun o' t e ht hh htaken => ?_
    rcases htaken with h | ⟨rfl, rfl⟩ | h | ⟨o'', h, -⟩
    · exact h.elim
    · exact absurd hh.2 hmem
    · exact h.elim
    · exact absurd h.1 ht

/-- A fresh write is held by its owner, or the owner is recorded at once. -/
theorem holds_insertEntry (w : World α) {t : TypeId} (e : Entity) (v : Value α)
    {o : SystemInvocation} (ht : ¬ C.IsInverse t) :
    (w.insertEntry C t e v (some o)).Holds o t e ∨
      o ∈ (w.insertEntry C t e v (some o)).removedComponentOwners := by
  have hwritten : (w.writeEntry C t e v (some o)).Holds o t e := by
    refine ⟨by rw [owner?_writeEntry, if_pos ⟨rfl, rfl⟩], ?_⟩
    exact (mem_outputs_writeEntry C w t e v (some o) o (t, e)).mpr (Or.inr ⟨rfl, rfl⟩)
  have hclosed := closed_maintains C
  unfold insertEntry
  dsimp only
  split_ifs
  · exact Or.inl hwritten
  · have hretract := hclosed.retractEdge (w.writeEntry C t e v (some o)) e
      (Closed.role_edgeOn (w := w) (t := t) (e := e))
    have hestablish : Keeps C (maintains C)
        ((w.writeEntry C t e v (some o)).retractEdge C e (w.edgeOn C t e))
        (((w.writeEntry C t e v (some o)).retractEdge C e (w.edgeOn C t e)).establishEdge C e
          (C.relationshipEdge t v)) :=
      hclosed.establishEdge (t := t) _ e fun p hp => C.inverse_of_relationshipEdge hp
    rcases (hretract.trans hestablish).holds o t e ht hwritten with hheld | hrecorded | htaken
    · exact Or.inl hheld
    · exact Or.inr hrecorded
    · exact absurd htaken (not_takenBy_maintains C ht)

end World
end Porridge
