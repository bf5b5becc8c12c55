import Porridge.World.Seats

/-! The spawn slots and the registry over the uses of a world: commits record, the rest trims. -/
namespace Porridge

variable {α : Type} {C : Components α}

namespace WorldOp

/-- The use is not one that applies buffered commands. -/
def uncommitted : WorldOp α → Bool
  | .output .. | .commands .. => false
  | _ => true

/-- The owners whose spawn slots the use forgets. -/
def forgets (w : World α) : WorldOp α → List SystemInvocation
  | .retireTouched keys systems => w.ownersTouchedBy keys systems
  | .retireOwner o => [o]
  | _ => []

/-- The entities the use may register that were not registered before it. -/
def claims (C : Components α) (w : World α) : WorldOp α → List Entity
  | .base (.insert t e _) => if C.singletonKey t = none then [] else [e]
  | .reserveSingleton key => if w.registry key = none then [w.nextEntity] else []
  | _ => []

end WorldOp

namespace World

variable {w w' : World α} {o : SystemInvocation} {named : Entity → Prop}

/-- Slots are forgotten for the listed owners and kept for the others; the listed entities may
become registered. -/
structure Trims (C : Components α) (gone : List SystemInvocation) (claimed : List Entity)
    (w w' : World α) : Prop where
  cursor : ∀ o, w'.cursor o = w.cursor o
  slots : ∀ o, w'.slots o = if o ∈ gone then [] else w.slots o
  next : w.nextEntity ≤ w'.nextEntity
  anchored : w.Anchored C → w'.Anchored C
  registry : w.Anchored C → ∀ key e, w'.registry key = some e → w.registry key = some e ∨ e ∈ claimed

theorem SameBuffers.trims (h : SameBuffers w w') (hc : Clears w w') : Trims C [] [] w w' where
  cursor o := by rw [World.cursor, h.cursors]; rfl
  slots o := by simp [World.slots, h.spawns]
  next := h.next.ge
  anchored := h.steady.anchored
  registry _ key e hkey := by
    rcases hc key with hnone | hsame
    · exact absurd (hkey.symm.trans hnone) (by simp)
    · exact Or.inl (hsame.symm.trans hkey)

theorem Trims.trans {gone gone' : List SystemInvocation} {claimed : List Entity} {a b c : World α}
    (hab : Trims C gone claimed a b) (hbc : Trims C gone' claimed b c) :
    Trims C (gone ++ gone') claimed a c where
  cursor o := (hbc.cursor o).trans (hab.cursor o)
  slots o := by
    rw [hbc.slots, hab.slots]
    by_cases hgone : o ∈ gone
    · simp [hgone]
    · simp [hgone]
  next := Nat.le_trans hab.next hbc.next
  anchored h := hbc.anchored (hab.anchored h)
  registry h key e hkey := (hbc.registry (hab.anchored h) key e hkey).elim
    (hab.registry h key e) Or.inr

theorem trims_forgetOwner (w : World α) (o : SystemInvocation) :
    Trims C [o] [] w (w.forgetOwner o) where
  cursor _ := rfl
  slots o' := by simp [World.slots, forgetOwner, Dict.getD_erase]
  next := Nat.le_refl _
  anchored := id
  registry _ _ _ := Or.inl

theorem trims_removeDerivedOwned (w : World α) (o : SystemInvocation) :
    Trims C [o] [] w (w.removeDerivedOwned C o) := by
  refine (trims_forgetOwner w o).trans (SameBuffers.trims ?_ ?_)
  · exact sameBuffers_removeDerivedEntries (w.forgetOwner o) o (w.outputs o)
  · exact clears_removeDerivedOwned w o

theorem trims_retireOwners : ∀ (owners : List SystemInvocation) (w : World α),
    Trims C owners [] w (w.retireOwners C owners).1
  | [], w => (SameBuffers.refl w).trims (.refl w)
  | o :: owners, w => (trims_removeDerivedOwned w o).trans (trims_retireOwners owners _)

section Uses

theorem trims_insert {t : TypeId} {e : Entity} {v : Value α}
    (h : w.insert C t e v none = some w') :
    Trims C [] (if C.singletonKey t = none then [] else [e]) w w' := by
  have hbuffers : w'.derivedSpawns = w.derivedSpawns ∧ w'.spawnCursors = w.spawnCursors := by
    rcases insert_cases h with ⟨anchors, -, -, rfl⟩ | ⟨-, hsame⟩
    · exact ⟨rfl, rfl⟩
    · exact ⟨hsame.spawns, hsame.cursors⟩
  refine ⟨fun o => ?_, fun o => ?_, (steady_insert h).next.ge, (steady_insert h).anchored,
    fun _ key e' hkey => ?_⟩
  · rw [World.cursor, hbuffers.2]
    rfl
  · simp [World.slots, hbuffers.1]
  · rw [registry_insert h] at hkey
    dsimp only at hkey
    split_ifs at hkey with hmarker
    · cases hkey
      exact Or.inr (by simp [hmarker])
    · exact Or.inl hkey

theorem trims_flush (h : w.flushDerivedFrom C = some w') : Trims C [] [] w w' where
  cursor o := by rw [World.cursor, (buffers_flushDerivedFrom h).2.2.2.1]; rfl
  slots o := by simp [World.slots, (buffers_flushDerivedFrom h).2.2.1]
  next := (steady_flushDerivedFrom h).next.ge
  anchored := (steady_flushDerivedFrom h).anchored
  registry ha key e hkey := by
    obtain ⟨u, hu, -, hlookup⟩ := flushDerivedFrom_spec ha
    cases hu.symm.trans h
    exact Or.inl ((hlookup key).symm.trans hkey)

/-- What a use outside a commit does to the slots, the ids and the registry. -/
theorem trims_apply {op : WorldOp α} (hd : op.uncommitted = true) (h : w.apply C op = some w') :
    Trims C (op.forgets w) (op.claims C w) w w' := by
  cases op with
  | output => cases hd
  | commands => cases hd
  | flush => exact trims_flush h
  | base c =>
    cases c with
    | insert t e v => exact trims_insert h
    | removeComponent t e =>
      cases h
      exact (sameBuffers_removeComponent w t e none).trims (clears_removeComponent w t e none)
    | despawn e =>
      cases h
      exact (sameBuffers_removeEntity w e).trims (clears_removeEntity w e)
  | update t e v =>
    cases h
    have hsame : SameBuffers w (w.updateComponent C t e v) := by
      have hstamp := sameBuffers_restampEntry (C := C) w t e v
      unfold updateComponent
      split_ifs
      · exact ⟨hstamp.pending, hstamp.flushing, hstamp.spawns, hstamp.cursors, hstamp.next⟩
      · exact hstamp
    exact hsame.trims (sameMarkers_updateComponent w t e v).clears
  | writeInPlace t e v =>
    cases h
    have hsame : SameBuffers w (w.writeInPlace t e v) := by
      unfold writeInPlace
      split
      · exact .refl w
      · exact ⟨rfl, rfl, rfl, rfl, rfl⟩
    exact hsame.trims (sameMarkers_writeInPlace (C := C) w t e v).clears
  | reconcileWritten writes =>
    cases h
    exact (sameBuffers_reconcileWritten w writes).trims
      (sameMarkers_reconcileWritten w writes).clears
  | retireTouched keys systems =>
    cases h
    exact trims_retireOwners _ w
  | retireOwner o =>
    cases h
    exact trims_removeDerivedOwned w o
  | drainRemovals =>
    cases h
    exact SameBuffers.trims ⟨rfl, rfl, rfl, rfl, rfl⟩ (.refl _)
  | rollPlanEpoch =>
    cases h
    unfold maybeRollPlanEpoch
    split_ifs
    · exact (SameBuffers.refl w).trims (.refl w)
    · exact SameBuffers.trims ⟨rfl, rfl, rfl, rfl, rfl⟩ (.refl _)
  | spawnEmpty =>
    cases h
    exact ⟨fun _ => rfl, fun o => by simp [WorldOp.forgets, spawnEmpty, World.slots],
      Nat.le_succ _, id,
      fun _ _ _ => Or.inl⟩
  | reserveSingleton key =>
    cases h
    unfold singletonEntityOrSpawn
    cases hlookup : w.singletonEntities.lookup key with
    | some existing => exact ⟨fun _ => rfl, fun o => by simp [WorldOp.forgets], Nat.le_refl _, id,
        fun _ _ _ => Or.inl⟩
    | none =>
      refine ⟨fun _ => rfl, fun o => by simp [WorldOp.forgets, spawnEmpty, World.slots],
        Nat.le_succ _, id, fun _ own e hkey => ?_⟩
      have hclaims : WorldOp.claims C w (.reserveSingleton key) = [w.nextEntity] := by
        simp [WorldOp.claims, registry, hlookup]
      rw [hclaims]
      change (w.singletonEntities.insert key w.nextEntity).lookup own = some e at hkey
      rw [Dict.lookup_insert] at hkey
      split_ifs at hkey with hown
      · cases hkey
        exact Or.inr List.mem_cons_self
      · exact Or.inl hkey

end Uses
section Commits

variable {output : SystemOutput α}

theorem slots_finishDerivedSpawns (w : World α) (o o' : SystemInvocation) :
    (w.finishDerivedSpawns o).slots o' =
      if o' = o then (w.slots o).take (w.cursor o) else w.slots o' := by
  have hdef : (w.finishDerivedSpawns o).derivedSpawns =
      if (w.slots o).take (w.cursor o) = [] then w.derivedSpawns.erase o
      else w.derivedSpawns.insert o ((w.slots o).take (w.cursor o)) := rfl
  rw [World.slots, hdef]
  by_cases hnone : (w.slots o).take (w.cursor o) = []
  · rw [if_pos hnone, Dict.getD_erase, hnone]
    rfl
  · rw [if_neg hnone, Dict.getD_insert]
    rfl

/-- The worlds between the commands of a commit and its end. -/
theorem exists_applied {deferInserts : Bool} (h : w.applyOutput C output deferInserts = some w') :
    ∃ applied, (w.takeDerivedOutputs output.owner).2.applyCommands C output.owner
        (output.immediate deferInserts) = some applied ∧
      Steady C applied w' ∧
      (∀ o, w'.slots o = if o = output.owner then
        (applied.slots output.owner).take (applied.cursor output.owner) else applied.slots o) ∧
      (applied.Anchored C → ∀ key e, w'.registry key = some e →
        applied.registry key = some e) := by
  obtain ⟨applied, flushed, happlied, hflushed, rfl⟩ := exists_of_applyOutput h
  have hflush := trims_flush hflushed
  have hstale := sameBuffers_removeDerivedStale (C := C)
    (flushed.finishDerivedSpawns output.owner) output.owner (w.outputs output.owner)
  have hfinish : Steady C flushed (flushed.finishDerivedSpawns output.owner) := ⟨rfl, id⟩
  refine ⟨applied, happlied, (steady_flushDerivedFrom hflushed).trans
    (hfinish.trans hstale.steady), fun o => ?_, fun ha key e hkey => ?_⟩
  · have hslots : ∀ o, flushed.slots o = applied.slots o := fun o => by
      rw [hflush.slots, if_neg List.not_mem_nil]
    rw [show (removeDerivedStale C _ output.owner _).slots o = _ from
      congrArg (fun spawns => Dict.getD spawns o []) hstale.spawns]
    change (flushed.finishDerivedSpawns output.owner).slots o = _
    rw [slots_finishDerivedSpawns, hslots, hslots, hflush.cursor]
  · have hkept : flushed.registry key = some e := by
      rcases clears_removeDerivedStale (C := C) (flushed.finishDerivedSpawns output.owner)
        output.owner (w.outputs output.owner) key with hnone | hsame
      · exact absurd (hkey.symm.trans hnone) nofun
      · exact hsame.symm.trans hkey
    exact (hflush.registry ha key e hkept).resolve_right List.not_mem_nil

/-- A commit records its spawns in place of the slots its owner had. -/
theorem seated_applyOutput (named : Entity → Prop)
    (hregistry : ∀ key e, w.registry key = some e → named e)
    (hclaims : ∀ c ∈ output.commands, ∀ e ∈ c.claims C, named e) (ha : w.Anchored C)
    (hcursor : w.cursor output.owner = 0) (h : w.applyOutput C output false = some w') :
    (∃ es, List.Forall₂ (Seat.Fits named) (seats C output.commands) es ∧
      w'.slots output.owner = es) ∧ (∀ o, o ≠ output.owner → w'.slots o = w.slots o) ∧
      Steady C w w' ∧ ∀ key e, w'.registry key = some e → named e := by
  obtain ⟨applied, happlied, hsteady, hslots, hkept⟩ := exists_applied h
  have htaken : Steady C w (w.takeDerivedOutputs output.owner).2 := ⟨rfl, id⟩
  have hcommands := htaken.trans (steady_applyCommands happlied)
  obtain ⟨⟨es, hfills, hfits⟩, hnamed⟩ := seated_applyCommands
    (w := (w.takeDerivedOutputs output.owner).2) hregistry hclaims happlied
  have hstart : (w.takeDerivedOutputs output.owner).2.cursor output.owner = 0 := hcursor
  refine ⟨⟨es, hfits, ?_⟩, fun o hne => ?_, hcommands.trans hsteady, fun key e hkey =>
    hnamed key e (hkept (hcommands.anchored ha) key e hkey)⟩
  · rw [hslots, if_pos rfl, hfills.slots, hfills.cursor, hstart]
    simp
  · rw [hslots, if_neg hne, (hfills.others o hne).1]
    rfl

/-- A settle commit registers nothing and gives its owner no slot. -/
theorem slots_deferring (ha : w.Anchored C) (h : w.applyOutput C output true = some w') :
    (∀ o, w'.slots o = if o = output.owner then (w.slots o).take (w.cursor o) else w.slots o) ∧
      Steady C w w' ∧ ∀ key e, w'.registry key = some e → w.registry key = some e := by
  obtain ⟨applied, happlied, hsteady, hslots, hkept⟩ := exists_applied h
  have hremovals : ∀ c ∈ output.immediate true, c.defersAtSettle = false := fun c hc => by
    simpa using (List.mem_filter.mp hc).2
  have hsame : SameBuffers w applied ∧
      ∀ key e, applied.registry key = some e → w.registry key = some e := by
    refine List.foldlM_some_induction (fun u : World α => SameBuffers w u ∧
      ∀ key e, u.registry key = some e → w.registry key = some e) _ happlied
      ⟨⟨rfl, rfl, rfl, rfl, rfl⟩, fun _ _ => id⟩ fun u c u' hc hu hstep => ?_
    have hstays := hremovals c hc
    have hclaims : c.claims C = [] := by
      cases c with
      | insert => cases hstays
      | spawn => cases hstays
      | _ => rfl
    refine ⟨hu.1.trans ?_, fun key e hkey => hu.2 key e ?_⟩
    · cases c with
      | insert => cases hstays
      | spawn => cases hstays
      | removeEntity e =>
        cases hstep
        exact sameBuffers_removeEntity u e
      | removeComponent t e =>
        cases hstep
        exact sameBuffers_removeComponent u t e (some output.owner)
    · have hold := registry_command hstep hkey
      rw [hclaims] at hold
      exact hold.resolve_right List.not_mem_nil
  refine ⟨fun o => ?_, hsame.1.steady.trans hsteady, fun key e hkey =>
    hsame.2 key e (hkept (hsame.1.steady.anchored ha) key e hkey)⟩
  have hcursor : applied.cursor output.owner = w.cursor output.owner := by
    rw [World.cursor, hsame.1.cursors]
    rfl
  have hsame' : ∀ o, applied.slots o = w.slots o := fun o => by
    rw [World.slots, hsame.1.spawns]
    rfl
  rw [hslots, hcursor, hsame', hsame']
  split_ifs with hown
  · rw [hown]
  · rfl

end Commits

end World
end Porridge
