import Porridge.World.Buffers
import Porridge.World.Later

/-! Owners that hold nothing, and what may hand them a component again. -/
namespace Porridge

variable {α : Type} {C : Components α}

namespace World

variable {w w' : World α} {o : SystemInvocation}

/-- What `o` owns in the second world it owned in the first, or lies within the pairs. -/
def Gains (o : SystemInvocation) (pairs : TypeId → Entity → Prop) (w w' : World α) : Prop :=
  ∀ t e, w'.owner? t e = some o → w.owner? t e = some o ∨ pairs t e

def gainsOnly (o : SystemInvocation) (pairs : TypeId → Entity → Prop) : Permits :=
  { Permits.all with writes := fun t e owner => owner = some o → pairs t e }

theorem closed_gains (C : Components α) (o : SystemInvocation) (pairs : TypeId → Entity → Prop) :
    Closed C (Gains o pairs) (gainsOnly o pairs) where
  refl _ _ _ := Or.inl
  trans hab hbc t e ho := (hbc t e ho).elim (hab t e) Or.inr
  bookkeeping hb _ t e ho := Or.inl (owner?_congr hb.stores t e ▸ ho)
  write w t e v owner hw t' e' ho := by
    rw [owner?_writeEntry] at ho
    split_ifs at ho with hte
    · obtain ⟨rfl, rfl⟩ := hte
      exact Or.inr (hw ho)
    · exact Or.inl ho
  drop w t e remover _ t' e' ho := by
    rw [owner?_dropEntry] at ho
    split_ifs at ho
    exact Or.inl ho
  sweep w t e o' _ t' e' ho := by
    rw [owner?_sweepEntry] at ho
    split_ifs at ho
    exact Or.inl ho
  purge w e _ t' e' ho := by
    rw [owner?_purgeEntity] at ho
    split_ifs at ho
    exact Or.inl ho
  inverse _ _ _ _ := nofun

theorem grants_gainsOnly {o' : SystemInvocation} (pairs : TypeId → Entity → Prop) (hne : o' ≠ o) :
    (gainsOnly o pairs).Grants o' where
  writes _ _ heq := absurd (Option.some.inj heq) hne
  drops _ _ := trivial
  purges _ := trivial
  defers := trivial

def Dormant (o : SystemInvocation) (w : World α) : Prop := ∀ t e, w.owner? t e ≠ some o

theorem Dormant.gains (h : w.Dormant o) (hg : Gains o (fun _ _ => False) w w') : w'.Dormant o :=
  fun t e ho => (hg t e ho).elim (h t e) id

theorem Dormant.disowning (h : w.Dormant o)
    (hd : ∀ t e o, w'.owner? t e = some o → w.owner? t e = some o) : w'.Dormant o :=
  fun t e ho => h t e (hd t e o ho)

section Wanes

/-- A use without an insert hands nothing to an owner. -/
theorem disowning_apply {op : WorldOp α} (hop : op.inserts = false)
    (ha : w.apply C op = some w') :
    ∀ t e o, w'.owner? t e = some o → w.owner? t e = some o := by
  intro t e o ho
  have hclosed := closed_disowning C
  cases op with
  | base c =>
    cases c with
    | insert => cases hop
    | removeComponent t' e' =>
      cases ha
      exact hclosed.removeComponent w t' e' none nofun t e o ho
    | despawn e' =>
      cases ha
      exact hclosed.removeEntity w e' trivial t e o ho
  | flush => cases hop
  | output => cases hop
  | commands => cases hop
  | update t' e' v =>
    cases ha
    rwa [(sameOwnership_updateComponent C w t' e' v).1 t e] at ho
  | writeInPlace t' e' v =>
    cases ha
    rwa [owner?_writeInPlace] at ho
  | reconcileWritten writes =>
    cases ha
    rwa [(sameOwnership_reconcileWritten C w writes).1 t e] at ho
  | retireTouched keys systems =>
    cases ha
    exact closed_disowning_retireOwners C _ w ho
  | retireOwner o' =>
    cases ha
    exact closed_disowning_removeDerivedOwned C w o' ho
  | drainRemovals => cases ha; exact ho
  | rollPlanEpoch =>
    cases ha
    unfold maybeRollPlanEpoch at ho
    split_ifs at ho
    · exact ho
    · exact ho
  | spawnEmpty => cases ha; exact ho
  | reserveSingleton key =>
    cases ha
    unfold singletonEntityOrSpawn at ho
    split at ho
    · exact ho
    · exact ho

theorem Wanes.disowning (h : Wanes C w w') :
    ∀ t e o, w'.owner? t e = some o → w.owner? t e = some o :=
  h.invariant (I := fun u => ∀ t e o, u.owner? t e = some o → w.owner? t e = some o)
    (fun _ _ _ => id) fun _ _ _ hop ha hu t e o ho => hu t e o (disowning_apply hop ha t e o ho)

/-- The deferred inserts and the spawn cursors are the same. -/
def SamePlaces (w w' : World α) : Prop :=
  w'.pendingDerivedFrom = w.pendingDerivedFrom ∧ w'.spawnCursors = w.spawnCursors

theorem SameBuffers.places (h : SameBuffers w w') : SamePlaces w w' := ⟨h.pending, h.cursors⟩

theorem SamePlaces.trans {a b c : World α} (hab : SamePlaces a b) (hbc : SamePlaces b c) :
    SamePlaces a c := ⟨hbc.1.trans hab.1, hbc.2.trans hab.2⟩

theorem samePlaces_removeDerivedOwned (w : World α) (o : SystemInvocation) :
    SamePlaces w (w.removeDerivedOwned C o) :=
  (sameBuffers_removeDerivedEntries (w.forgetOwner o) o (w.outputs o)).places

theorem samePlaces_retireOwners (owners : List SystemInvocation) (w : World α) :
    SamePlaces w (w.retireOwners C owners).1 := by
  induction owners generalizing w with
  | nil => exact ⟨rfl, rfl⟩
  | cons o owners ih => exact (samePlaces_removeDerivedOwned w o).trans (ih _)

/-- A use without an insert leaves the deferred inserts and the cursors alone. -/
theorem samePlaces_apply {op : WorldOp α} (hop : op.inserts = false)
    (ha : w.apply C op = some w') : SamePlaces w w' := by
  cases op with
  | base c =>
    cases c with
    | insert => cases hop
    | removeComponent t e =>
      cases ha
      exact (sameBuffers_removeComponent w t e none).places
    | despawn e =>
      cases ha
      exact (sameBuffers_removeEntity w e).places
  | flush => cases hop
  | output => cases hop
  | commands => cases hop
  | update t e v =>
    cases ha
    have hsame : SameBuffers w (w.restampEntry C t e v) := sameBuffers_restampEntry w t e v
    unfold updateComponent
    split_ifs
    · exact ⟨hsame.pending, hsame.cursors⟩
    · exact hsame.places
  | writeInPlace t e v =>
    cases ha
    unfold writeInPlace
    split
    · exact ⟨rfl, rfl⟩
    · exact ⟨rfl, rfl⟩
  | reconcileWritten writes =>
    cases ha
    exact (sameBuffers_reconcileWritten w writes).places
  | retireTouched keys systems =>
    cases ha
    exact samePlaces_retireOwners _ w
  | retireOwner o =>
    cases ha
    exact samePlaces_removeDerivedOwned w o
  | drainRemovals => cases ha; exact ⟨rfl, rfl⟩
  | rollPlanEpoch =>
    cases ha
    unfold maybeRollPlanEpoch
    split_ifs
    · exact ⟨rfl, rfl⟩
    · exact ⟨rfl, rfl⟩
  | spawnEmpty => cases ha; exact ⟨rfl, rfl⟩
  | reserveSingleton key =>
    cases ha
    unfold singletonEntityOrSpawn
    split
    · exact ⟨rfl, rfl⟩
    · exact ⟨rfl, rfl⟩

theorem Wanes.places (h : Wanes C w w') : SamePlaces w w' :=
  h.invariant (I := SamePlaces w) ⟨rfl, rfl⟩ fun _ _ _ hop ha hu => hu.trans (samePlaces_apply hop ha)

end Wanes

section Pending

/-- The inserts held back in the second world were held back before, or are of `owner`. -/
def Defers (owner : Option SystemInvocation) (w w' : World α) : Prop :=
  ∀ p ∈ w'.pendingDerivedFrom, p ∈ w.pendingDerivedFrom ∨ p.owner = owner

theorem Defers.of_eq {owner : Option SystemInvocation}
    (h : w'.pendingDerivedFrom = w.pendingDerivedFrom) : Defers owner w w' :=
  fun _ hp => Or.inl (h ▸ hp)

theorem Defers.trans {owner : Option SystemInvocation} {a b c : World α}
    (hab : Defers owner a b) (hbc : Defers owner b c) : Defers owner a c :=
  fun p hp => (hbc p hp).elim (hab p) Or.inr

theorem defers_insert {t : TypeId} {e : Entity} {v : Value α} {owner : Option SystemInvocation}
    (h : w.insert C t e v owner = some w') : Defers owner w w' := by
  rcases insert_cases h with ⟨anchors, -, -, rfl⟩ | ⟨-, hsame⟩
  · intro p hp
    rcases List.mem_append.mp hp with hp | hp
    · exact Or.inl hp
    · rw [List.mem_singleton.mp hp]
      exact Or.inr rfl
  · exact .of_eq hsame.pending

theorem defers_command {c : Command α} (h : c.apply C w o = some w') :
    Defers (some o) w w' := by
  cases c with
  | insert t e v => exact defers_insert h
  | removeEntity e =>
    cases h
    exact .of_eq (sameBuffers_removeEntity w e).pending
  | removeComponent t e =>
    cases h
    exact .of_eq (sameBuffers_removeComponent w t e (some o)).pending
  | spawn bundle reserved =>
    simp only [Command.apply, Option.bind_eq_bind, Option.bind_eq_some_iff] at h
    obtain ⟨key, -, h⟩ := h
    have htarget : Defers (some o) w ((w.spawnTarget reserved key).2.recordDerivedSpawn o
        (w.spawnTarget reserved key).1) := .of_eq (spawnTarget_spec w reserved key).2.2.1
    exact List.foldlM_some_induction (Defers (some o) w) bundle h htarget
      fun _ _ _ _ hu hstep => hu.trans (defers_insert hstep)

theorem defers_applyCommands {commands : List (Command α)}
    (h : w.applyCommands C o commands = some w') : Defers (some o) w w' :=
  List.foldlM_some_induction (Defers (some o) w) commands h (.of_eq rfl)
    fun _ _ _ _ hu hstep => hu.trans (defers_command hstep)

theorem defers_baseCommand {c : BaseCommand α} (h : c.apply C w = some w') :
    Defers none w w' := by
  cases c with
  | insert t e v => exact defers_insert h
  | removeComponent t e =>
    cases h
    exact .of_eq (sameBuffers_removeComponent w t e none).pending
  | despawn e =>
    cases h
    exact .of_eq (sameBuffers_removeEntity w e).pending

end Pending

section Outputs

variable {output : SystemOutput α} {deferInserts : Bool}

/-- The output of another invocation hands nothing to `o`. -/
theorem gains_applyOutput (hrest : w.pendingDerivedFrom = []) (hne : output.owner ≠ o)
    (ha : w.applyOutput C output deferInserts = some w') :
    Gains o (fun _ _ => False) w w' := by
  obtain ⟨applied, flushed, happlied, hflushed, rfl⟩ := exists_of_applyOutput ha
  have hclosed := closed_gains C o fun _ _ => False
  have htaken : Gains o (fun _ _ => False) w (w.takeDerivedOutputs output.owner).2 :=
    fun _ _ => Or.inl
  have hcommands := hclosed.applyCommands happlied (grants_gainsOnly _ hne)
  have hflush : Gains o (fun _ _ => False) applied flushed := by
    refine hclosed.flushDerivedFrom hflushed (fun p hp heq => ?_) trivial
    rcases defers_applyCommands happlied p hp with hold | howner
    · rw [show (w.takeDerivedOutputs output.owner).2.pendingDerivedFrom = [] from hrest] at hold
      cases hold
    · exact hne (Option.some.inj (howner.symm.trans heq))
  have hfinish : Gains o (fun _ _ => False) flushed (flushed.finishDerivedSpawns output.owner) :=
    fun _ _ => Or.inl
  have hstale := hclosed.removeDerivedStale (flushed.finishDerivedSpawns output.owner)
    (w.takeDerivedOutputs output.owner).1 (o := output.owner) fun _ _ => trivial
  exact hclosed.trans htaken (hclosed.trans hcommands (hclosed.trans hflush
    (hclosed.trans hfinish hstale)))

/-- The commands a `Settle` commit applies at once list nothing for their owner. -/
theorem unlisted_immediate {commands : List (Command α)}
    (h : ∀ c ∈ commands, c.defersAtSettle = false) (ha : w.applyCommands C o commands = some w') :
    (∀ p, p ∈ w'.outputs o → p ∈ w.outputs o) ∧
      w'.pendingDerivedFrom = w.pendingDerivedFrom := by
  have hclosed := closed_unlisted C o
  refine List.foldlM_some_induction (fun u : World α => (∀ p, p ∈ u.outputs o → p ∈ w.outputs o) ∧
    u.pendingDerivedFrom = w.pendingDerivedFrom) commands ha ⟨fun _ => id, rfl⟩
    fun u c u' hc hu hstep => ?_
  have hdefers := h c hc
  cases c with
  | insert => cases hdefers
  | spawn => cases hdefers
  | removeEntity e =>
    cases hstep
    exact ⟨fun p hp => hu.1 p (hclosed.removeEntity u e trivial p hp),
      (sameBuffers_removeEntity u e).pending.trans hu.2⟩
  | removeComponent t e =>
    cases hstep
    exact ⟨fun p hp => hu.1 p (hclosed.removeComponent u t e (some o) (fun _ _ => trivial) p hp),
      (sameBuffers_removeComponent u t e (some o)).pending.trans hu.2⟩

/-- A `Settle` commit leaves its owner with nothing: what it emits waits for the next start. -/
theorem dormant_applyOutput (hi : w.Indexed fun _ _ => False) (hrest : w.pendingDerivedFrom = [])
    (ha : w.applyOutput C output true = some w') : w'.Dormant output.owner := by
  have hindexed := hi.applyOutput C ha
  simp only [applyOutput, Option.bind_eq_bind, Option.bind_eq_some_iff, Option.pure_def,
    Option.some.injEq, if_true] at ha
  obtain ⟨applied, happlied, flushed, hflushed, rfl⟩ := ha
  have hremovals : ∀ c ∈ output.commands.filter (!·.defersAtSettle), c.defersAtSettle = false :=
    fun c hc => by simpa using (List.mem_filter.mp hc).2
  obtain ⟨hunlisted, hpending⟩ := unlisted_immediate hremovals happlied
  have hnone : (w.takeDerivedOutputs output.owner).2.outputs output.owner = [] := by
    simp [takeDerivedOutputs, outputs, Dict.getD_erase]
  have hclosed := closed_unlisted C output.owner
  have hflush := hclosed.flushDerivedFrom hflushed (fun p hp => by
    rw [hpending, show (w.takeDerivedOutputs output.owner).2.pendingDerivedFrom = [] from hrest] at hp
    cases hp) trivial
  have hstale := hclosed.removeDerivedStale (flushed.finishDerivedSpawns output.owner)
    (w.takeDerivedOutputs output.owner).1 (o := output.owner) fun _ _ => trivial
  intro t e ho
  have hlisted := (hindexed t e output.owner ho).resolve_right id
  have hmem := hunlisted _ (hflush _ (hstale _ hlisted))
  rw [hnone] at hmem
  cases hmem

theorem pending_applyOutput (ha : w.applyOutput C output deferInserts = some w') :
    w'.pendingDerivedFrom = [] := by
  obtain ⟨applied, flushed, happlied, hflushed, rfl⟩ := exists_of_applyOutput ha
  exact (sameBuffers_removeDerivedStale _ output.owner _).pending.trans
    (buffers_flushDerivedFrom hflushed).1

end Outputs

end World
end Porridge
