import Porridge.World.Reachable

/-! The ownership index lists exactly what each invocation owns. -/
namespace Porridge
namespace World

variable {α : Type} (C : Components α)

/-- The index lists nothing but what is owned. -/
def Backed (w : World α) : Prop := ∀ t e o, (t, e) ∈ w.outputs o → w.owner? t e = some o

/-- No invocation is mapped to an empty set. -/
def NoEmptyOwner (w : World α) : Prop := ∀ b ∈ w.derivedOwners.entries, b.2 ≠ []

structure IndexExact (w : World α) : Prop where
  listed : ∀ o t e, (t, e) ∈ w.outputs o ↔ w.owner? t e = some o
  nonempty : w.NoEmptyOwner

/-- Every effect but a sweep, which leaves the index alone. -/
def unswept : Permits := { Permits.all with sweeps := fun _ _ _ => False }

theorem closed_backed : Closed C (fun w w' => w.Backed → w'.Backed) unswept where
  refl _ := id
  trans hab hbc := hbc ∘ hab
  bookkeeping hb _ hw t e o hmem := by
    rw [outputs_congr hb.derivedOwners] at hmem
    exact (owner?_congr hb.stores t e).trans (hw t e o hmem)
  write w t e v o _ hw t' e' o' hmem := by
    rw [owner?_writeEntry]
    rcases (mem_outputs_writeEntry C w t e v o o' (t', e')).mp hmem with ⟨hold, hkept⟩ | ⟨hp, ho⟩
    · have howner := hw t' e' o' hold
      split_ifs with hte
      · obtain ⟨rfl, rfl⟩ := hte
        by_contra hne
        exact hkept ⟨rfl, howner, hne⟩
      · exact howner
    · rw [if_pos (Prod.ext_iff.mp hp)]
      exact ho
  drop w t e remover _ hw t' e' o' hmem := by
    obtain ⟨hold, hkept⟩ := (mem_outputs_dropEntry C w t e remover o' (t', e')).mp hmem
    have howner := hw t' e' o' hold
    rw [owner?_dropEntry, if_neg]
    · exact howner
    · rintro ⟨rfl, rfl⟩
      exact hkept ⟨rfl, howner⟩
  sweep _ _ _ _ hs := hs.elim
  purge w e _ hw t' e' o' hmem := by
    obtain ⟨hold, hkept⟩ := (mem_outputs_purgeEntity w e o' (t', e')).mp hmem
    have howner := hw t' e' o' hold
    rw [owner?_purgeEntity, if_neg]
    · exact howner
    · rintro rfl
      exact hkept ⟨rfl, howner⟩
  inverse _ _ _ _ := trivial

/-- Effects on base facts list no new pair. -/
theorem closed_unlisted (o : SystemInvocation) :
    Closed C (fun w w' => ∀ p, p ∈ w'.outputs o → p ∈ w.outputs o) Permits.base where
  refl _ _ := id
  trans hab hbc p hp := hab p (hbc p hp)
  bookkeeping hb _ p hp := outputs_congr hb.derivedOwners o ▸ hp
  write w t e v o' ho p hp := by
    rcases (mem_outputs_writeEntry C w t e v o' o p).mp hp with ⟨hold, -⟩ | ⟨-, hnew⟩
    · exact hold
    · cases ho.symm.trans hnew
  drop w t e remover _ p hp := ((mem_outputs_dropEntry C w t e remover o p).mp hp).1
  sweep w t e o' _ p hp := by rwa [outputs_congr (sweepEntry_derivedOwners ..)] at hp
  purge w e _ p hp := ((mem_outputs_purgeEntity w e o p).mp hp).1
  inverse _ _ _ _ := rfl

section NoEmpty

variable {w : World α}

theorem NoEmptyOwner.congr {w' : World α} (h : w.NoEmptyOwner)
    (ho : w'.derivedOwners = w.derivedOwners) : w'.NoEmptyOwner := by
  unfold NoEmptyOwner
  rw [ho]
  exact h

theorem NoEmptyOwner.erase {w' : World α} (h : w.NoEmptyOwner) {o : SystemInvocation}
    (ho : w'.derivedOwners = w.derivedOwners.erase o) : w'.NoEmptyOwner := by
  intro b hb
  rw [ho] at hb
  have hlookup : (w.derivedOwners.erase o).lookup b.1 = some b.2 := AList.mem_lookup_iff.mpr hb
  rw [Dict.lookup_erase] at hlookup
  split_ifs at hlookup
  exact h b (AList.mem_lookup_iff.mp hlookup)

theorem NoEmptyOwner.insert {w' : World α} (h : w.NoEmptyOwner) {o : SystemInvocation}
    {pairs : List (TypeId × Entity)} (hpairs : pairs ≠ [])
    (ho : w'.derivedOwners = w.derivedOwners.insert o pairs) : w'.NoEmptyOwner := by
  intro b hb
  rw [ho] at hb
  have hlookup : (w.derivedOwners.insert o pairs).lookup b.1 = some b.2 :=
    AList.mem_lookup_iff.mpr hb
  rw [Dict.lookup_insert] at hlookup
  split_ifs at hlookup
  · have heq : pairs = b.2 := Option.some.inj hlookup
    exact heq ▸ hpairs
  · exact h b (AList.mem_lookup_iff.mp hlookup)

theorem NoEmptyOwner.unindexDerived (h : w.NoEmptyOwner) (o : SystemInvocation) (t : TypeId)
    (e : Entity) : (w.unindexDerived o t e).NoEmptyOwner := by
  unfold World.unindexDerived
  split
  · exact h
  · rename_i pairs _
    by_cases hrest : pairs.filter (· ≠ (t, e)) = []
    · exact h.erase (if_pos hrest)
    · exact h.insert hrest (if_neg hrest)

theorem NoEmptyOwner.indexDerived (h : w.NoEmptyOwner) (o : SystemInvocation) (t : TypeId)
    (e : Entity) : (w.indexDerived o t e).NoEmptyOwner := by
  have hmem : (t, e) ∈ (w.outputs o).insert (t, e) := List.mem_insert_self
  exact h.insert (List.ne_nil_of_mem hmem) rfl

theorem NoEmptyOwner.reindexDerived (h : w.NoEmptyOwner) (t : TypeId) (e : Entity)
    (previous o : Option SystemInvocation) : (w.reindexDerived t e previous o).NoEmptyOwner := by
  unfold World.reindexDerived
  cases previous with
  | none =>
    cases o with
    | none => exact h
    | some o => exact h.indexDerived o t e
  | some o' =>
    have hold : NoEmptyOwner (if o = some o' then w else w.unindexDerived o' t e) := by
      split_ifs
      · exact h
      · exact h.unindexDerived o' t e
    cases o with
    | none => exact hold
    | some o => exact hold.indexDerived o t e

theorem NoEmptyOwner.disownEntry (h : w.NoEmptyOwner) (t : TypeId) (e : Entity)
    (o remover : Option SystemInvocation) : (w.disownEntry t e o remover).NoEmptyOwner := by
  unfold World.disownEntry
  cases o with
  | none => exact h
  | some o =>
    have hunindexed := h.unindexDerived o t e
    dsimp only
    split_ifs
    · exact hunindexed
    · exact hunindexed.congr rfl

theorem NoEmptyOwner.unindexEntries :
    ∀ (pairs : List (SystemInvocation × TypeId)) {w : World α} (e : Entity), w.NoEmptyOwner →
      (w.unindexEntries pairs e).NoEmptyOwner
  | [], _, _, h => h
  | p :: pairs, _, e, h => NoEmptyOwner.unindexEntries pairs e (h.unindexDerived p.1 p.2 e)

/-- No effect maps an invocation to an empty set. -/
theorem closed_noEmptyOwner :
    Closed C (fun w w' => w.NoEmptyOwner → w'.NoEmptyOwner) Permits.all where
  refl _ := id
  trans hab hbc := hbc ∘ hab
  bookkeeping hb _ h := h.congr hb.derivedOwners
  write w t e v o _ h := by
    unfold writeEntry
    dsimp only
    refine NoEmptyOwner.reindexDerived ?_ t e _ _
    exact h.congr rfl
  drop w t e remover _ h := by
    unfold dropEntry
    split_ifs
    · have herased : ((w.eraseEntry t e).presenceSet t e false).NoEmptyOwner := h.congr rfl
      have hdisowned := herased.disownEntry t e (w.owner? t e) remover
      exact hdisowned.congr (unregisterSingleton_derivedOwners ..)
    · exact h
  sweep w t e o _ h := h.congr (sweepEntry_derivedOwners ..)
  purge w e _ h := by
    have herased : (w.eraseEntries (w.componentsOn e) e).NoEmptyOwner :=
      h.congr (eraseEntries_derivedOwners ..)
    exact (NoEmptyOwner.unindexEntries (w.ownedOn e) e herased).congr rfl
  inverse _ _ _ _ := trivial

end NoEmpty

variable {C}

/-- A sweep of a pair its owner's index no longer lists. -/
theorem Backed.removeDerivedEntry {w : World α} (h : w.Backed) {o : SystemInvocation}
    {t : TypeId} {e : Entity} (hnot : (t, e) ∉ w.outputs o) :
    (w.removeDerivedEntry C t e o).Backed := by
  unfold World.removeDerivedEntry
  split_ifs with howner
  · have hswept : (w.sweepEntry t e o).Backed := by
      intro t' e' o' hmem
      rw [outputs_congr (sweepEntry_derivedOwners ..)] at hmem
      have howner' := h t' e' o' hmem
      rw [owner?_sweepEntry, if_neg]
      · exact howner'
      · rintro ⟨rfl, rfl, -⟩
        have heq : o = o' := Option.some.inj (howner.symm.trans howner')
        exact hnot (heq ▸ hmem)
    exact (closed_backed C).retractEdge (w.sweepEntry t e o) e Closed.role_edgeOn hswept
  · exact h

theorem Backed.removeDerivedEntries {o : SystemInvocation} :
    ∀ (pairs : List (TypeId × Entity)) {w : World α}, w.Backed → w.outputs o = [] →
      (w.removeDerivedEntries C o pairs).Backed
  | [], _, h, _ => h
  | p :: pairs, w, h, hempty => by
    have hremoved : (w.removeDerivedEntry C p.1 p.2 o).Backed :=
      h.removeDerivedEntry (by rw [hempty]; exact List.not_mem_nil)
    have hstill : (w.removeDerivedEntry C p.1 p.2 o).outputs o = [] := by
      refine List.eq_nil_iff_forall_not_mem.mpr fun q hq => ?_
      have hold := (closed_unlisted C o).removeDerivedEntry w p.1 p.2 (o := o) trivial q hq
      rw [hempty] at hold
      cases hold
    exact Backed.removeDerivedEntries pairs hremoved hstill

theorem Backed.removeDerivedStale {o : SystemInvocation} :
    ∀ (previous : List (TypeId × Entity)) {w : World α}, w.Backed →
      (w.removeDerivedStale C o previous).Backed
  | [], _, h => h
  | p :: previous, w, h => by
    apply Backed.removeDerivedStale previous
    dsimp only
    split_ifs with hmem
    · exact h
    · exact h.removeDerivedEntry hmem

theorem Backed.eraseOwner {w : World α} (h : w.Backed) (o : SystemInvocation) (w' : World α)
    (hs : w'.stores = w.stores) (ho : w'.derivedOwners = w.derivedOwners.erase o) :
    w'.Backed ∧ w'.outputs o = [] := by
  have herased : ∀ o', w'.outputs o' = if o' = o then [] else w.outputs o' := fun o' => by
    rw [outputs, ho, Dict.getD_erase]
    rfl
  constructor
  · intro t e o' hmem
    rw [herased] at hmem
    split_ifs at hmem
    · cases hmem
    · exact (owner?_congr hs t e).trans (h t e o' hmem)
  · rw [herased, if_pos rfl]

theorem Backed.removeDerivedOwned {w : World α} (h : w.Backed) (o : SystemInvocation) :
    (w.removeDerivedOwned C o).Backed := by
  have hforgotten : (w.forgetOwner o).Backed ∧ (w.forgetOwner o).outputs o = [] :=
    h.eraseOwner o _ rfl rfl
  exact hforgotten.1.removeDerivedEntries (w.outputs o) hforgotten.2

theorem Backed.retireOwners :
    ∀ (owners : List SystemInvocation) {w : World α}, w.Backed →
      (w.retireOwners C owners).1.Backed
  | [], _, h => h
  | o :: owners, _, h => Backed.retireOwners owners (h.removeDerivedOwned o)

theorem Backed.applyOutput {w w' : World α} (h : w.Backed) {output : SystemOutput α}
    {deferInserts : Bool} (ha : w.applyOutput C output deferInserts = some w') : w'.Backed := by
  have hg : unswept.Grants output.owner :=
    ⟨fun _ _ => trivial, fun _ _ => trivial, fun _ => trivial, trivial⟩
  obtain ⟨applied, flushed, happly, hflush, rfl⟩ := exists_of_applyOutput ha
  have htaken : (w.takeDerivedOutputs output.owner).2.Backed :=
    (h.eraseOwner output.owner (w.takeDerivedOutputs output.owner).2 rfl rfl).1
  have happlied := (closed_backed C).applyCommands happly hg htaken
  have hflushed := (closed_backed C).flushDerivedFrom hflush (fun _ _ => trivial) trivial happlied
  have hfinished : (flushed.finishDerivedSpawns output.owner).Backed :=
    (closed_backed C).bookkeeping { Bookkeeping.rfl with } (Or.inr rfl) hflushed
  exact hfinished.removeDerivedStale _

theorem Backed.same {w w' : World α} (h : w.Backed) (hs : SameOwnership w w') : w'.Backed := by
  intro t e o hmem
  rw [outputs_congr hs.2] at hmem
  exact (hs.1 t e).trans (h t e o hmem)

/-- The uses of the world that only read or amend it leave ownership alone. -/
theorem sameOwnership_apply {w w' : World α} {op : WorldOp α} (ha : w.apply C op = some w')
    (hop : match op with
      | .update .. | .writeInPlace .. | .reconcileWritten .. | .drainRemovals | .rollPlanEpoch
      | .spawnEmpty | .reserveSingleton .. => True
      | _ => False) : SameOwnership w w' := by
  cases op with
  | update t e v => cases ha; exact sameOwnership_updateComponent C w t e v
  | writeInPlace t e v =>
    cases ha
    exact ⟨fun t' e' => owner?_writeInPlace w t t' e e' v, writeInPlace_derivedOwners w t e v⟩
  | reconcileWritten writes => cases ha; exact sameOwnership_reconcileWritten C w writes
  | drainRemovals => cases ha; exact ⟨fun _ _ => rfl, rfl⟩
  | rollPlanEpoch =>
    cases ha
    unfold maybeRollPlanEpoch
    split_ifs <;> exact ⟨fun _ _ => rfl, rfl⟩
  | spawnEmpty => cases ha; exact ⟨fun _ _ => rfl, rfl⟩
  | reserveSingleton key =>
    cases ha
    unfold singletonEntityOrSpawn
    split <;> exact ⟨fun _ _ => rfl, rfl⟩
  | base _ | flush | output _ _ | commands _ _ | retireTouched _ _ | retireOwner _ => exact hop.elim

/-- Every engine use of the world lists only what is owned. -/
theorem Backed.apply {w w' : World α} (h : w.Backed) {op : WorldOp α}
    (ha : w.apply C op = some w') : w'.Backed := by
  have hclosed := closed_backed C
  cases op with
  | base c => exact hclosed.baseCommand ha (fun _ _ => trivial) (fun _ => trivial) trivial h
  | flush => exact hclosed.flushDerivedFrom ha (fun _ _ => trivial) trivial h
  | output o deferInserts => exact h.applyOutput ha
  | commands o commands =>
    have hg : unswept.Grants o :=
      ⟨fun _ _ => trivial, fun _ _ => trivial, fun _ => trivial, trivial⟩
    exact hclosed.applyCommands ha hg h
  | retireTouched keys systems => cases ha; exact h.retireOwners _
  | retireOwner o => cases ha; exact h.removeDerivedOwned o
  | update _ _ _ | writeInPlace _ _ _ | reconcileWritten _ | drainRemovals | rollPlanEpoch
  | spawnEmpty | reserveSingleton _ => exact h.same (sameOwnership_apply ha trivial)

theorem NoEmptyOwner.retireOwners :
    ∀ (owners : List SystemInvocation) {w : World α}, w.NoEmptyOwner →
      (w.retireOwners C owners).1.NoEmptyOwner
  | [], _, h => h
  | o :: owners, w, h => by
    have hforgotten : (w.forgetOwner o).NoEmptyOwner := h.erase rfl
    have hremoved : (w.removeDerivedOwned C o).NoEmptyOwner :=
      (closed_noEmptyOwner C).removeDerivedEntries _ (w.outputs o) (fun _ _ => trivial) hforgotten
    exact NoEmptyOwner.retireOwners owners hremoved

/-- No engine use of the world maps an invocation to an empty set. -/
theorem NoEmptyOwner.apply {w w' : World α} (h : w.NoEmptyOwner) {op : WorldOp α}
    (ha : w.apply C op = some w') : w'.NoEmptyOwner := by
  have hclosed := closed_noEmptyOwner C
  cases op with
  | base c => exact hclosed.baseCommand ha (fun _ _ => trivial) (fun _ => trivial) trivial h
  | flush => exact hclosed.flushDerivedFrom ha (fun _ _ => trivial) trivial h
  | output o deferInserts =>
    obtain ⟨applied, flushed, happly, hflush, rfl⟩ := exists_of_applyOutput ha
    have htaken : (w.takeDerivedOutputs o.owner).2.NoEmptyOwner := h.erase rfl
    have happlied := hclosed.applyCommands happly (Permits.grants_all _) htaken
    have hflushed := hclosed.flushDerivedFrom hflush (fun _ _ => trivial) trivial happlied
    have hfinished : (flushed.finishDerivedSpawns o.owner).NoEmptyOwner := hflushed.congr rfl
    exact hclosed.removeDerivedStale _ _ (fun _ _ => trivial) hfinished
  | commands o commands => exact hclosed.applyCommands ha (Permits.grants_all o) h
  | retireTouched keys systems => cases ha; exact h.retireOwners _
  | retireOwner o =>
    cases ha
    have hforgotten : (w.forgetOwner o).NoEmptyOwner := h.erase rfl
    exact hclosed.removeDerivedEntries _ (w.outputs o) (fun _ _ => trivial) hforgotten
  | update _ _ _ | writeInPlace _ _ _ | reconcileWritten _ | drainRemovals | rollPlanEpoch
  | spawnEmpty | reserveSingleton _ => exact h.congr (sameOwnership_apply ha trivial).2

/-- In every reachable world the index of an invocation lists exactly what it owns. -/
theorem reachable_indexExact {w : World α} (h : Reachable C w) : w.IndexExact := by
  have hlisted := Reachable.indexed h
  obtain ⟨hbacked, hnonempty⟩ : w.Backed ∧ w.NoEmptyOwner := by
    refine Machine.ReachableUnder.invariant h (fun w => w.Backed ∧ w.NoEmptyOwner) ?_ ?_
    · rintro w ⟨schema, rfl⟩
      exact ⟨fun _ _ _ hmem => (nomatch hmem), fun _ hb => (nomatch hb)⟩
    · rintro w op w' ⟨hbacked, hnonempty⟩ - hs
      exact ⟨hbacked.apply hs, hnonempty.apply hs⟩
  exact ⟨fun o t e => ⟨hbacked t e o, fun ho => (hlisted t e o ho).resolve_right id⟩, hnonempty⟩

/-- One invocation's output is overwritten by another's, which then emits nothing. -/
def overwritten : World Nat :=
  ((machine (Components.plain Nat)).run World.new
    [.output ⟨⟨0, [1]⟩, [.insert 5 1 (.data 7), .insert 6 1 (.data 7)]⟩ false,
      .output ⟨⟨1, [1]⟩, [.insert 5 1 (.data 8)]⟩ false, .output ⟨⟨1, [1]⟩, []⟩ false]).getD World.new

theorem overwritten_indexExact :
    overwritten.IndexExact ∧ overwritten.outputs ⟨0, [1]⟩ = [(6, 1)] := by
  have hrun : (machine (Components.plain Nat)).run World.new
      [.output ⟨⟨0, [1]⟩, [.insert 5 1 (.data 7), .insert 6 1 (.data 7)]⟩ false,
        .output ⟨⟨1, [1]⟩, [.insert 5 1 (.data 8)]⟩ false, .output ⟨⟨1, [1]⟩, []⟩ false] =
      some overwritten := rfl
  exact ⟨reachable_indexExact (Machine.Reachable.run (.init machine_init_new) hrun), by decide⟩

end World
end Porridge
