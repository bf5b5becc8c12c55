import Porridge.World.Ownership

/-! Replacing and retiring outputs leaves no derived entry outside the ownership index. -/
namespace Porridge
namespace World

variable {α : Type} (C : Components α)

/-- Effects that write base facts only hand no pair to an owner. -/
theorem closed_disowning :
    Closed C (fun w w' => ∀ t e o, w'.owner? t e = some o → w.owner? t e = some o)
      Permits.base where
  refl _ _ _ _ := id
  trans hab hbc t e o ho := hab t e o (hbc t e o ho)
  bookkeeping hb _ t e _ ho := owner?_congr hb.stores t e ▸ ho
  write w t e v o hw t' e' o' ho := by
    rw [owner?_writeEntry] at ho
    split_ifs at ho
    · cases hw.symm.trans ho
    · exact ho
  drop w t e remover _ t' e' o' ho := by
    rw [owner?_dropEntry] at ho
    split_ifs at ho
    exact ho
  sweep w t e o _ t' e' o' ho := by
    rw [owner?_sweepEntry] at ho
    split_ifs at ho
    exact ho
  purge w e _ t' e' o' ho := by
    rw [owner?_purgeEntity] at ho
    split_ifs at ho
    exact ho
  inverse _ _ _ _ := rfl

theorem owner?_removeDerivedEntry_ne (w : World α) (t : TypeId) (e : Entity)
    (o : SystemInvocation) : (w.removeDerivedEntry C t e o).owner? t e ≠ some o := by
  intro ho
  unfold removeDerivedEntry at ho
  split_ifs at ho with howned
  · have hswept := (closed_disowning C).retractEdge (w.sweepEntry t e o) e
      Closed.role_edgeOn t e o ho
    simp [owner?_sweepEntry, howned] at hswept
  · exact howned ho

/-- Removing a loose pair settles it: afterwards its owner no longer holds it. -/
theorem Indexed.settle {w : World α} {o : SystemInvocation} {p : TypeId × Entity}
    {pairs : List (TypeId × Entity)}
    (h : w.Indexed fun o' q => o' = o ∧ q ∈ p :: pairs) :
    (w.removeDerivedEntry C p.1 p.2 o).Indexed fun o' q => o' = o ∧ q ∈ pairs := by
  intro t e o' ho'
  rcases (closed_indexed C _).removeDerivedEntry w p.1 p.2 trivial h t e o' ho' with hmem | ⟨rfl, hq⟩
  · exact Or.inl hmem
  · rcases List.mem_cons.mp hq with rfl | hrest
    · exact absurd ho' (owner?_removeDerivedEntry_ne C w t e o')
    · exact Or.inr ⟨rfl, hrest⟩

theorem Indexed.removeDerivedEntries {o : SystemInvocation} :
    ∀ (pairs : List (TypeId × Entity)) {w : World α},
      w.Indexed (fun o' q => o' = o ∧ q ∈ pairs) →
        (w.removeDerivedEntries C o pairs).Indexed fun _ _ => False
  | [], w, h => fun t e o' ho => (h t e o' ho).imp_right fun hq => by simp at hq
  | _ :: pairs, _, h => Indexed.removeDerivedEntries pairs (h.settle C)

theorem Indexed.removeDerivedStale {o : SystemInvocation} :
    ∀ (previous : List (TypeId × Entity)) {w : World α},
      w.Indexed (fun o' q => o' = o ∧ q ∈ previous) →
        (w.removeDerivedStale C o previous).Indexed fun _ _ => False
  | [], w, h => fun t e o' ho => (h t e o' ho).imp_right fun hq => by simp at hq
  | p :: previous, w, h => by
    apply Indexed.removeDerivedStale previous
    dsimp only
    split_ifs with hmem
    · intro t e o' ho
      rcases h t e o' ho with hi | ⟨rfl, hq⟩
      · exact Or.inl hi
      · rcases List.mem_cons.mp hq with rfl | hrest
        · exact Or.inl hmem
        · exact Or.inr ⟨rfl, hrest⟩
    · exact h.settle C

/-- Clearing an index entry makes exactly its pairs loose. -/
theorem Indexed.eraseOwner {w : World α} (h : w.Indexed fun _ _ => False)
    (o : SystemInvocation) (w' : World α) (hs : w'.stores = w.stores)
    (ho : w'.derivedOwners = w.derivedOwners.erase o) :
    w'.Indexed fun o' q => o' = o ∧ q ∈ w.outputs o := by
  intro t e o' howner
  rw [owner?_congr hs] at howner
  have hmem : (t, e) ∈ w.outputs o' := (h t e o' howner).resolve_right id
  by_cases heq : o' = o
  · exact Or.inr ⟨heq, heq ▸ hmem⟩
  · refine Or.inl ?_
    rwa [outputs, ho, Dict.getD_erase, if_neg heq]

theorem Indexed.removeDerivedOwned {w : World α} (h : w.Indexed fun _ _ => False)
    (o : SystemInvocation) : (w.removeDerivedOwned C o).Indexed fun _ _ => False :=
  Indexed.removeDerivedEntries C _ (h.eraseOwner o (w.forgetOwner o) rfl rfl)

theorem Indexed.retireOwners :
    ∀ (owners : List SystemInvocation) {w : World α}, w.Indexed (fun _ _ => False) →
      (w.retireOwners C owners).1.Indexed fun _ _ => False
  | [], _, h => h
  | o :: owners, _, h => Indexed.retireOwners owners (h.removeDerivedOwned C o)

/-- Applying an output leaves every derived entry listed under its owner. -/
theorem Indexed.applyOutput {w w' : World α} (h : w.Indexed fun _ _ => False)
    {output : SystemOutput α} {deferInserts : Bool}
    (ha : w.applyOutput C output deferInserts = some w') : w'.Indexed fun _ _ => False := by
  obtain ⟨applied, flushed, happly, hflush, rfl⟩ := exists_of_applyOutput ha
  have htaken := h.eraseOwner output.owner (w.takeDerivedOutputs output.owner).2 rfl rfl
  have happlied := (closed_indexed C _).applyCommands happly (Permits.grants_all _) htaken
  have hflushed := (closed_indexed C _).flushDerivedFrom hflush (fun _ _ => trivial) trivial happlied
  apply Indexed.removeDerivedStale
  exact (closed_indexed C _).bookkeeping { Bookkeeping.rfl with } (Or.inr rfl) hflushed

theorem closed_disowning_removeDerivedOwned (w : World α) (o : SystemInvocation) {t : TypeId}
    {e : Entity} {o' : SystemInvocation} (h : (w.removeDerivedOwned C o).owner? t e = some o') :
    w.owner? t e = some o' :=
  (closed_disowning C).removeDerivedEntries (w.forgetOwner o) (w.outputs o) (fun _ _ => trivial) t e o' h

theorem owner?_removeDerivedEntries_ne {o : SystemInvocation} {p : TypeId × Entity} :
    ∀ (pairs : List (TypeId × Entity)) (w : World α), p ∈ pairs →
      (w.removeDerivedEntries C o pairs).owner? p.1 p.2 ≠ some o
  | q :: pairs, w, hp => by
    intro ho
    rcases List.mem_cons.mp hp with rfl | hrest
    · exact owner?_removeDerivedEntry_ne C w p.1 p.2 o
        ((closed_disowning C).removeDerivedEntries (w.removeDerivedEntry C p.1 p.2 o) pairs
          (fun _ _ => trivial)
          p.1 p.2 o ho)
    · exact owner?_removeDerivedEntries_ne pairs _ hrest ho

/-- A retired owner holds nothing afterwards. -/
theorem owner?_removeDerivedOwned_ne {w : World α} (h : w.Indexed fun _ _ => False)
    (o : SystemInvocation) (t : TypeId) (e : Entity) :
    (w.removeDerivedOwned C o).owner? t e ≠ some o := by
  intro ho
  have hmem := (h t e o (closed_disowning_removeDerivedOwned C w o ho)).resolve_right id
  exact owner?_removeDerivedEntries_ne C (w.outputs o) (w.forgetOwner o) hmem ho

theorem closed_disowning_retireOwners :
    ∀ (owners : List SystemInvocation) (w : World α) {t : TypeId} {e : Entity}
      {o : SystemInvocation}, (w.retireOwners C owners).1.owner? t e = some o →
        w.owner? t e = some o
  | [], _, _, _, _, h => h
  | o :: owners, w, _, _, _, h =>
    closed_disowning_removeDerivedOwned C w o
      (closed_disowning_retireOwners owners (w.removeDerivedOwned C o) h)

theorem owner?_retireOwners_ne :
    ∀ (owners : List SystemInvocation) {w : World α}, w.Indexed (fun _ _ => False) →
      ∀ o ∈ owners, ∀ t e, (w.retireOwners C owners).1.owner? t e ≠ some o
  | o' :: owners, w, h, o, ho, t, e => by
    intro howner
    rcases List.mem_cons.mp ho with rfl | hrest
    · exact owner?_removeDerivedOwned_ne C h o t e
        (closed_disowning_retireOwners C owners (w.removeDerivedOwned C o) howner)
    · exact owner?_retireOwners_ne owners (h.removeDerivedOwned C o') o hrest t e howner

/-- After a sweep by keys, no selected invocation keyed in them holds a derived entry. -/
theorem not_owned_of_removeDerivedTouchedBySystems {w : World α}
    (h : w.Indexed fun _ _ => False) {keys : List Entity} {systems : Option (List SystemId)}
    {t : TypeId} {e : Entity} {o : SystemInvocation}
    (howner : (w.removeDerivedTouchedBySystems C keys systems).1.owner? t e = some o) :
    ¬ (selects systems o.system = true ∧ ∃ k ∈ o.keys, k ∈ keys) := by
  rintro ⟨hsel, k, hk, hkeys⟩
  have hmem := (h t e o (closed_disowning_retireOwners C _ w howner)).resolve_right id
  have hkey : o ∈ w.derivedOwners.keys := by
    by_contra hn
    have hnone := AList.lookup_eq_none.mpr fun hm => hn (AList.mem_keys.mp hm)
    simp [outputs, Dict.getD, hnone] at hmem
  have htouched : o ∈ w.ownersTouchedBy keys systems := by
    simp only [ownersTouchedBy, List.mem_filter, Bool.and_eq_true, List.any_eq_true,
      decide_eq_true_eq]
    exact ⟨hkey, hsel, k, hk, hkeys⟩
  exact owner?_retireOwners_ne C _ h o htouched t e howner

end World
end Porridge
