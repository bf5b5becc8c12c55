import Porridge.Commit.Disturbed
import Porridge.Engine.World

/-! `DerivedFrom` facts at the end of the commit that wrote them: their anchors are captured when
their buffer has been applied, and the commit goes on from there. -/
namespace Porridge

variable {α : Type} {C : Components α}

namespace World

variable {w w' u v : World α} {t : TypeId} {e : Entity} {o : SystemInvocation}

def KeepsFacts (C : Components α) (w w' : World α) : Prop :=
  ∀ t e x, C.role t = .derivedFrom → w'.cell? t e = some x →
    ∃ y, w.cell? t e = some y ∧ y.cell = x.cell ∧ y.value = x.value

theorem KeepsFacts.of_cells (h : ∀ t e x, C.role t = .derivedFrom → w'.cell? t e = some x →
    w.cell? t e = some x) : KeepsFacts C w w' :=
  fun t e x ht hx => ⟨x, h t e x ht hx, rfl, rfl⟩

theorem KeepsFacts.of_stores (h : w'.stores = w.stores) : KeepsFacts C w w' :=
  .of_cells fun t e x _ hx => by rwa [cell?_congr h] at hx

theorem KeepsFacts.trans (h : KeepsFacts C w u) (h' : KeepsFacts C u w') : KeepsFacts C w w' := by
  intro t e x ht hx
  obtain ⟨y, hy, hcell, hvalue⟩ := h' t e x ht hx
  obtain ⟨z, hz, hcell', hvalue'⟩ := h t e y ht hy
  exact ⟨z, hz, hcell'.trans hcell, hvalue'.trans hvalue⟩

/-- Everything but writes of `DerivedFrom` facts is permitted. -/
def factless (C : Components α) : Permits :=
  { Permits.all with writes := fun t _ _ => C.role t ≠ .derivedFrom }

theorem closed_keepsFacts (C : Components α) : Closed C (KeepsFacts C) (factless C) where
  refl _ := .of_stores rfl
  trans := KeepsFacts.trans
  bookkeeping hb _ := .of_stores hb.stores
  write w t e v o ht := by
    refine .of_cells fun t' e' x ht' hx => ?_
    rw [cell?_writeEntry, if_neg] at hx
    · exact hx
    · rintro ⟨rfl, -⟩
      exact ht ht'
  drop w t e remover _ := by
    refine .of_cells fun t' e' x _ hx => ?_
    rw [cell?_dropEntry] at hx
    split_ifs at hx
    exact hx
  sweep w t e o _ := by
    refine .of_cells fun t' e' x _ hx => ?_
    rw [cell?_sweepEntry] at hx
    split_ifs at hx
    exact hx
  purge w e _ := by
    refine .of_cells fun t' e' x _ hx => ?_
    rw [cell?_purgeEntity] at hx
    split_ifs at hx
    exact hx
  inverse t _ edge hrole ht := by
    rw [hrole] at ht
    cases ht

theorem keepsFacts_retireOwners : ∀ (owners : List SystemInvocation) (w : World α),
    KeepsFacts C w (w.retireOwners C owners).1
  | [], w => .of_stores rfl
  | o :: owners, w => by
    have hforgotten : KeepsFacts C w (w.forgetOwner o) := .of_stores rfl
    have hremoved : KeepsFacts C (w.forgetOwner o) (w.removeDerivedOwned C o) :=
      (closed_keepsFacts C).removeDerivedEntries _ _ fun _ _ => trivial
    exact hforgotten.trans (hremoved.trans (keepsFacts_retireOwners owners _))

theorem keepsFacts_restampEntry (w : World α) (t : TypeId) (e : Entity) {x : Entry α}
    (hx : w.cell? t e = some x) : KeepsFacts C w (w.restampEntry C t e x.value) := by
  intro t' e' x' _ hx'
  have hcells : ∀ (stamp mark : Revision),
      (w.amendEntry t e ⟨x.cell, x.value, stamp, C.fingerprint t x.value, x.owner⟩ mark).cell?
        t' e' = some x' →
          ∃ y, w.cell? t' e' = some y ∧ y.cell = x'.cell ∧ y.value = x'.value := by
    intro stamp mark hamended
    rw [cell?_amendEntry] at hamended
    split_ifs at hamended with hpair
    · cases hamended
      rw [hpair.1, hpair.2]
      exact ⟨x, hx, rfl, rfl⟩
    · exact ⟨x', hamended, rfl, rfl⟩
  unfold restampEntry at hx'
  rw [hx] at hx'
  dsimp only at hx'
  split_ifs at hx'
  · exact hcells (w.revision + 1) (w.revision + 1) hx'
  · exact hcells x.revision 0 hx'

theorem keepsFacts_reconcileWritten (w : World α) (writes : List (TypeId × Entity)) :
    KeepsFacts C w (w.reconcileWritten C writes) := by
  refine List.foldlRecOn writes _ (motive := KeepsFacts C w) (.of_stores rfl) fun u hu p _ => ?_
  refine hu.trans ?_
  split_ifs
  · have hlogged : KeepsFacts C (u.reconcileEntry C p.1 p.2)
        { u.reconcileEntry C p.1 p.2 with
          writeLog := (u.reconcileEntry C p.1 p.2).writeLog ++ [p] } := .of_stores rfl
    refine KeepsFacts.trans ?_ hlogged
    unfold reconcileEntry
    split
    · exact .of_stores rfl
    · rename_i x hx
      exact keepsFacts_restampEntry u p.1 p.2 hx
  · exact .of_stores rfl

section Flush

theorem relationshipEdge_of_derivedFrom (ht : C.role t = .derivedFrom) (x : Value α) :
    C.relationshipEdge t x = none := by
  unfold Components.relationshipEdge
  rw [ht]

theorem insertEntry_of_derivedFrom (ht : C.role t = .derivedFrom) (w : World α) (e : Entity)
    (x : Value α) (owner : Option SystemInvocation) :
    w.insertEntry C t e x owner = w.writeEntry C t e x owner := by
  have hprevious : w.edgeOn C t e = none := by
    unfold edgeOn
    rw [Option.bind_eq_none_iff]
    exact fun y _ => relationshipEdge_of_derivedFrom ht y.value
  unfold insertEntry
  rw [hprevious, relationshipEdge_of_derivedFrom ht]
  exact if_pos rfl

/-- Writing an untracked component moves no entity. -/
theorem entityRevision_writeEntry (ht : C.tracked t = false) (w : World α) (e e' : Entity)
    (x : Value α) (owner : Option SystemInvocation) :
    (w.writeEntry C t e x owner).entityRevision C e' = w.entityRevision C e' := by
  refine entityRevision_congr fun t' ht' => ?_
  rw [revisionByType, cell?_writeEntry, if_neg, revisionByType]
  rintro ⟨rfl, -⟩
  rw [ht] at ht'
  cases ht'

def Captures (C : Components α) (w u w' : World α) : Prop :=
  ∀ t e x, C.role t = .derivedFrom → w'.cell? t e = some x →
    (∃ y, w.cell? t e = some y ∧ y.cell = x.cell ∧ y.value = x.value) ∨
      ∃ p ∈ u.pendingDerivedFrom, p.component = t ∧ p.entity = e ∧
        x.value = .derivedFrom (u.captured C p.anchors)

/-- What a flush inserts has the revisions that the anchors had before it. -/
theorem captures_flushDerivedFrom
    (hC : ∀ t, C.role t = .derivedFrom → C.tracked t = false) (hu : u.Anchored C)
    (hf : u.flushDerivedFrom C = some w') : Captures C u u w' := by
  obtain ⟨b, hb, rfl⟩ := Option.map_eq_some_iff.mp hf
  have hinserted : ∀ (pending : List PendingDerivedFrom), pending ⊆ u.pendingDerivedFrom →
      ∀ a : World α, a.flushingAnchors = true →
        (∀ e, a.entityRevision C e = u.entityRevision C e) → Captures C u u a →
        ∀ b, pending.foldlM (fun w p =>
          w.insert C p.component p.entity (.derivedFrom p.anchors) p.owner) a = some b →
          Captures C u u b := by
    intro pending
    induction pending with
    | nil =>
      intro _ a _ _ ha b hb
      cases hb
      exact ha
    | cons p pending ih =>
      intro hsub a hflushing hrevision ha b hb
      obtain ⟨a', ha', hrest⟩ := Option.bind_eq_some_iff.mp hb
      dsimp only at ha'
      obtain ⟨hp, hsub⟩ := List.cons_subset.mp hsub
      have hrole := hu p hp
      rw [insert_now (Or.inr hflushing), insertNow_of_derivedFrom hrole,
        insertEntry_of_derivedFrom hrole] at ha'
      cases ha'
      refine ih hsub _ ((sameBuffers_writeEntry ..).flushing.trans hflushing) (fun e => ?_) ?_ b hrest
      · rw [entityRevision_writeEntry (hC _ hrole), hrevision]
      · intro t e x ht hx
        rw [cell?_writeEntry] at hx
        split_ifs at hx with hpair
        · cases hx
          refine Or.inr ⟨p, hp, hpair.1.symm, hpair.2.symm, ?_⟩
          rw [capture_derivedFrom]
          refine congrArg Value.derivedFrom (List.map_congr_left fun a _ => ?_)
          rw [hrevision]
        · exact ha t e x ht hx
  have hstart : Captures C u u { u with pendingDerivedFrom := [], flushingAnchors := true } :=
    fun t e x _ hx => Or.inl ⟨x, hx, rfl, rfl⟩
  exact hinserted u.pendingDerivedFrom (List.Subset.refl _)
    { u with pendingDerivedFrom := [], flushingAnchors := true } rfl (fun _ => rfl) hstart b hb

end Flush

section Buffer

/-- A buffer is being applied, and what it defers are facts. -/
structure Buffering (C : Components α) (w w' : World α) : Prop where
  facts : KeepsFacts C w w'
  idle : w.flushingAnchors = false → w'.flushingAnchors = false
  anchored : w.flushingAnchors = false → w.Anchored C → w'.Anchored C

theorem Buffering.of_same (hfacts : KeepsFacts C w w') (hsame : SameBuffers w w') :
    Buffering C w w' where
  facts := hfacts
  idle h := hsame.flushing.trans h
  anchored _ h p hp := h p (hsame.pending ▸ hp)

theorem Buffering.trans (h : Buffering C w u) (h' : Buffering C u w') : Buffering C w w' where
  facts := h.facts.trans h'.facts
  idle hw := h'.idle (h.idle hw)
  anchored hw ha := h'.anchored (h.idle hw) (h.anchored hw ha)

theorem buffering_insert {x : Value α} {owner : Option SystemInvocation} (hx : C.Fits t x)
    (hw : w.flushingAnchors = false) (hins : w.insert C t e x owner = some w') :
    Buffering C w w' := by
  by_cases hrole : C.role t = .derivedFrom
  · cases x with
    | derivedFrom anchors =>
      have hheld : w.insert C t e (.derivedFrom anchors) owner = some { w with
          pendingDerivedFrom := w.pendingDerivedFrom ++ [⟨t, e, anchors, owner⟩] } := by
        rw [World.insert, deferredAnchors, if_pos ⟨hrole, hw⟩]
      rw [hheld] at hins
      cases hins
      refine ⟨.of_stores rfl, id, fun _ ha p hp => ?_⟩
      rcases List.mem_append.mp hp with hp | hp
      · exact ha p hp
      · rw [List.mem_singleton.mp hp]
        exact hrole
    | data payload => cases hx hrole
    | members entities => cases hx hrole
  · rw [insert_now (Or.inl hrole)] at hins
    exact .of_same ((closed_keepsFacts C).insertNow hins hrole) (sameBuffers_insertNow hins)

theorem buffering_insertBundle : ∀ (bundle : List (TypeId × Value α)) {w : World α},
    (∀ p ∈ bundle, C.Fits p.1 p.2) → w.flushingAnchors = false →
      w.insertBundle C e bundle o = some w' → Buffering C w w'
  | [], w, _, _, h => by
    cases h
    exact .of_same (.of_stores rfl) (.refl _)
  | p :: bundle, w, hfits, hw, h => by
    obtain ⟨u, hu, hrest⟩ := Option.bind_eq_some_iff.mp h
    have hfirst := buffering_insert (hfits p List.mem_cons_self) hw hu
    have hlater := fun q hq => hfits q (List.mem_cons_of_mem p hq)
    exact hfirst.trans (buffering_insertBundle bundle hlater (hfirst.idle hw) hrest)

theorem buffering_command {c : Command α} (hc : (Buffered.derived o c).Typed C)
    (hw : w.flushingAnchors = false) (h : c.apply C w o = some w') : Buffering C w w' := by
  cases c with
  | insert t e x => exact buffering_insert hc hw h
  | removeEntity e =>
    cases h
    exact .of_same ((closed_keepsFacts C).removeEntity w e trivial) (sameBuffers_removeEntity w e)
  | removeComponent t e =>
    cases h
    exact .of_same ((closed_keepsFacts C).removeComponent w t e (some o) fun _ _ => trivial)
      (sameBuffers_removeComponent w t e (some o))
  | spawn bundle reserved =>
    simp only [Command.apply, Option.bind_eq_bind, Option.bind_eq_some_iff] at h
    obtain ⟨key, -, h⟩ := h
    obtain ⟨hstores, -, hpending, -, -⟩ := spawnTarget_spec w reserved key
    have hflushing := spawnTarget_flushing w reserved key
    have hspawned : Buffering C w
        ((w.spawnTarget reserved key).2.recordDerivedSpawn o (w.spawnTarget reserved key).1) :=
      ⟨.of_stores hstores, fun hw => hflushing.trans hw, fun _ ha p hp => ha p (hpending ▸ hp)⟩
    exact hspawned.trans (buffering_insertBundle bundle hc (hspawned.idle hw) h)

theorem buffering_applyCommands : ∀ {commands : List (Command α)} {w : World α},
    (∀ c ∈ commands, (Buffered.derived o c).Typed C) → w.flushingAnchors = false →
      w.applyCommands C o commands = some w' → Buffering C w w'
  | [], w, _, _, h => by
    cases h
    exact .of_same (.of_stores rfl) (.refl _)
  | c :: commands, w, htyped, hw, h => by
    obtain ⟨u, hu, hrest⟩ := (applyCommands_cons C).mp h
    have hfirst := buffering_command (htyped c List.mem_cons_self) hw hu
    have hlater := fun c' hc' => htyped c' (List.mem_cons_of_mem c hc')
    exact hfirst.trans (buffering_applyCommands hlater (hfirst.idle hw) hrest)

end Buffer

end World

/-- The outputs before `output` lead from the state to `w`, and the buffer of `output` from there to
`u`. -/
def SystemRun.BufferEnd (C : Components α) (s : State α) (run : SystemRun α) (deferInserts : Bool)
    (w : World α) (output : SystemOutput α) (after : List (SystemOutput α)) (u : World α) : Prop :=
  ∃ before s₁, run.outputs = before ++ output :: after ∧
    publishOutputs C s before deferInserts = some s₁ ∧ s₁.world = w ∧
      (w.takeDerivedOutputs output.owner).2.applyCommands C output.owner
        (output.immediate deferInserts) = some u

section Commit

variable {w w' u : World α} {s s' : State α} {run : SystemRun α} {deferInserts : Bool}
  {output : SystemOutput α} {pending : List (TypeId × Entity)} {w₀ : World α}
  {later : List (SystemOutput α)}

open World

/-- The facts that an output leaves were there before, or its flush has captured them. -/
theorem captures_applyOutput (hC : ∀ t, C.role t = .derivedFrom → C.tracked t = false)
    (hw : w.Flushed) (htyped : (CommandBuffer.derived output.owner output.commands).Typed C)
    (hu : (w.takeDerivedOutputs output.owner).2.applyCommands C output.owner
      (output.immediate deferInserts) = some u)
    (h : w.applyOutput C output deferInserts = some w') : Captures C w u w' ∧ w'.Flushed := by
  obtain ⟨u', flushed, hu', hflushed, rfl⟩ := exists_of_applyOutput h
  cases hu.symm.trans hu'
  have hcommands : ∀ c ∈ output.immediate deferInserts, (Buffered.derived output.owner c).Typed C :=
    fun c hc => htyped _ (List.mem_map_of_mem (mem_immediate hc))
  have hbuffered : Buffering C (w.takeDerivedOutputs output.owner).2 u :=
    buffering_applyCommands hcommands hw.2 hu
  have hanchored : u.Anchored C := hbuffered.anchored hw.2 fun p hp => by
    have hp : p ∈ w.pendingDerivedFrom := hp
    rw [hw.1] at hp
    cases hp
  have htaken : KeepsFacts C w u := KeepsFacts.trans (.of_stores rfl) hbuffered.facts
  have hcaptured := captures_flushDerivedFrom hC hanchored hflushed
  have hfinished : KeepsFacts C flushed (flushed.finishDerivedSpawns output.owner) := .of_stores rfl
  have hswept : KeepsFacts C flushed ((flushed.finishDerivedSpawns output.owner).removeDerivedStale C
      output.owner (w.outputs output.owner)) :=
    hfinished.trans ((closed_keepsFacts C).removeDerivedStale _ _ fun _ _ => trivial)
  refine ⟨fun t e x ht hx => ?_, ?_⟩
  · obtain ⟨y, hy, hcell, hvalue⟩ := hswept t e x ht hx
    rcases hcaptured t e y ht hy with ⟨z, hz, hcell', hvalue'⟩ | ⟨p, hp, hcomponent, hentity, hp'⟩
    · obtain ⟨z', hz', hcell'', hvalue''⟩ := htaken t e z ht hz
      exact Or.inl ⟨z', hz', hcell''.trans (hcell'.trans hcell), hvalue''.trans (hvalue'.trans hvalue)⟩
    · exact Or.inr ⟨p, hp, hcomponent, hentity, hvalue ▸ hp'⟩
  · obtain ⟨hpending, hidle, -⟩ := buffers_flushDerivedFrom hflushed
    have hsame := sameBuffers_removeDerivedStale (C := C)
      (flushed.finishDerivedSpawns output.owner) output.owner (w.outputs output.owner)
    exact ⟨hsame.pending.trans hpending, hsame.flushing.trans hidle⟩

/-- The facts that outputs leave were there before, or the flush of one of them has captured them. -/
theorem captured_publishOutputs (hC : ∀ t, C.role t = .derivedFrom → C.tracked t = false) :
    ∀ {outputs : List (SystemOutput α)} {s s' : State α},
      publishOutputs C s outputs deferInserts = some s' → s.world.Flushed →
      (∀ output ∈ outputs, (CommandBuffer.derived output.owner output.commands).Typed C) →
      ∀ t e x, C.role t = .derivedFrom → s'.world.cell? t e = some x →
        (∃ y, s.world.cell? t e = some y ∧ y.cell = x.cell ∧ y.value = x.value) ∨
          ∃ before output after s₁ u p, outputs = before ++ output :: after ∧
            publishOutputs C s before deferInserts = some s₁ ∧
            (s₁.world.takeDerivedOutputs output.owner).2.applyCommands C output.owner
              (output.immediate deferInserts) = some u ∧
            p ∈ u.pendingDerivedFrom ∧ p.component = t ∧ p.entity = e ∧
              x.value = .derivedFrom (u.captured C p.anchors)
  | [], s, s', h, _, _ => by
    intro t e x _ hx
    cases h
    exact Or.inl ⟨x, hx, rfl, rfl⟩
  | output :: outputs, s, s', h, hs, htyped => by
    intro t e x ht hx
    obtain ⟨w, hw, hrest⟩ := publishOutputs_cons h
    obtain ⟨u, -, hu, -⟩ := exists_of_applyOutput hw
    obtain ⟨hcaptures, hflushed⟩ :=
      captures_applyOutput hC hs (htyped output List.mem_cons_self) hu hw
    have hlater := fun output' h' => htyped output' (List.mem_cons_of_mem output h')
    rcases captured_publishOutputs hC hrest hflushed hlater t e x ht hx with
      ⟨y, hy, hcell, hvalue⟩ | ⟨before, output', after, s₁, u', p, hsplit, hpublished, hbuffer⟩
    · rcases hcaptures t e y ht hy with ⟨z, hz, hcell', hvalue'⟩ | ⟨p, hp, hcomponent, hentity, hp'⟩
      · exact Or.inl ⟨z, hz, hcell'.trans hcell, hvalue'.trans hvalue⟩
      · exact Or.inr ⟨[], output, outputs, s, u, p, rfl, rfl, hu, hp, hcomponent, hentity,
          hvalue ▸ hp'⟩
    · refine Or.inr ⟨output :: before, output', after, s₁, u', p, ?_, ?_, hbuffer⟩
      · rw [hsplit, List.cons_append]
      · unfold publishOutputs at hpublished ⊢
        rw [List.foldlM_cons]
        dsimp only
        rw [hw]
        exact hpublished

theorem keepsFacts_retireCascade (selected : Option (List SystemId)) (r : Retirement α)
    (seen frontier : List Entity) :
    KeepsFacts C r.world (retireCascade C selected r seen frontier).world :=
  Worklist.rounds_invariant (fun _ => True)
    (fun r' : Retirement α => KeepsFacts C r.world r'.world)
    (fun _ _ hr _ => ⟨hr.trans (keepsFacts_retireOwners _ _), fun _ _ => trivial⟩)
    _ _ _ _ (.of_stores rfl) fun _ _ => trivial

theorem keepsFacts_reconcileRemovedInvocations (w : World α) (memo : MemoTable)
    (removed : List Entity) (removedOwners : List SystemInvocation) (systems : List BoxedSystem)
    (selected : Option (List SystemId)) : KeepsFacts C w
      (reconcileRemovedInvocations C w memo removed removedOwners systems selected).1.world :=
  keepsFacts_retireCascade selected ⟨w, _, _⟩ _ _

theorem keepsFacts_reconcileCommit (memo : MemoTable) (s : State α) :
    KeepsFacts C s.world (reconcileCommit C memo s).2.world := by
  have hdrained : KeepsFacts C s.world s.world.drainRemovals := .of_stores rfl
  unfold reconcileCommit
  dsimp only
  split_ifs
  · exact hdrained
  · exact hdrained
  all_goals
    refine hdrained.trans ?_
    apply keepsFacts_reconcileRemovedInvocations

/-- Uses without a write in place are a run of effects. -/
theorem effects_of_managed (h : Managed C w w') (pending : List (TypeId × Entity)) :
    ∃ pending', Writing.Traced C ⟨w, pending⟩ ⟨w', pending'⟩ := by
  refine h.invariant (I := fun u => ∃ pending', Writing.Traced C ⟨w, pending⟩ ⟨u, pending'⟩)
    ⟨pending, .refl _⟩ fun u op u' _ hstep hu => ?_
  obtain ⟨waiting, htraced⟩ := hu
  have huse : (Writing.machine C).step ⟨u, waiting⟩ op =
      some ⟨u', Writing.pendingAfter waiting op⟩ := by
    unfold Writing.machine
    dsimp only
    rw [hstep]
    rfl
  exact ⟨_, htraced.trans (Writing.traced_step huse)⟩

theorem publishOutputs_split {s₁ : State α} {outputs before rest : List (SystemOutput α)}
    (hsplit : outputs = before ++ rest) (hbefore : publishOutputs C s before deferInserts = some s₁)
    (h : publishOutputs C s outputs deferInserts = some s') :
    publishOutputs C s₁ rest deferInserts = some s' := by
  unfold publishOutputs at h hbefore ⊢
  rw [hsplit, List.foldlM_append, hbefore] at h
  exact h

/-- The end of a buffer identifies its entries, and effects lead from it to the published world. -/
theorem traced_of_bufferEnd (h : Identified C pending s.world s.world)
    (hend : run.BufferEnd C s deferInserts w output later u)
    (hpublished : publishOutputs C s run.outputs deferInserts = some s') :
    Identified C pending u u ∧
      ∃ pending', Writing.Traced C ⟨u, pending⟩ ⟨s'.world, pending'⟩ := by
  obtain ⟨before, s₁, hsplit, hbefore, rfl, hu⟩ := hend
  have hs₁ : Identified C pending s.world s₁.world := h.managed (managed_publishOutputs hbefore)
  have htaken : Identified C pending s.world (s₁.world.takeDerivedOutputs output.owner).2 :=
    hs₁.congr rfl rfl
  have hcaptured : Identified C pending u u :=
    ((closed_identified C pending s.world).applyCommands hu (Permits.grants_all _) htaken).restart
  refine ⟨hcaptured, ?_⟩
  obtain ⟨w, hw, hafter⟩ := publishOutputs_cons (publishOutputs_split hsplit hbefore hpublished)
  obtain ⟨u', flushed, hu', hflushed, rfl⟩ := exists_of_applyOutput hw
  cases hu.symm.trans hu'
  have hclosed := closed_traced C
  have hflush : World.Traced C u flushed :=
    hclosed.flushDerivedFrom hflushed (fun _ _ => trivial) trivial
  have hfinished : World.Traced C flushed (flushed.finishDerivedSpawns output.owner) :=
    .of_eq rfl rfl
  have hswept : World.Traced C _ _ := hclosed.removeDerivedStale (o := output.owner)
    (flushed.finishDerivedSpawns output.owner) (s₁.world.outputs output.owner) fun _ _ => trivial
  have hworld := (hflush.trans hfinished).trans hswept
  obtain ⟨pending', hlater⟩ := effects_of_managed (managed_publishOutputs hafter) pending
  have houtput : Writing.Traced C ⟨u, pending⟩ ⟨_, pending⟩ :=
    Writing.traced_of_world (s := ⟨u, pending⟩) hworld
  exact ⟨pending', houtput.trans hlater⟩

/-- An accepted commit publishes the run and treats its removals. -/
theorem published_of_accepted {memo after : MemoTable} {phase : Option Phase} {progress : CommitProgress}
    (hcommit : commitSystemRun C memo s run phase = some (after, s', progress))
    (haccepted : progress.stale = false) :
    ∃ s₁, publishOutputs C s run.outputs (phase = some .settle) = some s₁ ∧
      s' = (reconcileCommit C
        (publishMemo (s₁.world.reconcileWritten C run.writes) s.settleEpoch run memo)
        { s₁ with world := s₁.world.reconcileWritten C run.writes }).2 := by
  unfold commitSystemRun at hcommit
  split_ifs at hcommit with hcurrent
  · obtain ⟨published, hpublished, hrest⟩ := Option.bind_eq_some_iff.mp hcommit
    unfold publishRun at hpublished
    obtain ⟨s₁, hs₁, hmemo⟩ := Option.bind_eq_some_iff.mp hpublished
    cases hmemo
    cases hrest
    exact ⟨s₁, hs₁, rfl⟩
  · cases hcommit
    cases haccepted

/-- A fact that a run leaves was there before, or its buffer's end has captured it. -/
theorem exists_writer (hC : ∀ t, C.role t = .derivedFrom → C.tracked t = false)
    (hflushed : s.world.Flushed)
    (htyped : ∀ output ∈ run.outputs,
      (CommandBuffer.derived output.owner output.commands).Typed C) {s₁ : State α} {memo : MemoTable}
    (hs₁ : publishOutputs C s run.outputs deferInserts = some s₁) {t : TypeId} {e : Entity}
    {x : Entry α} (ht : C.role t = .derivedFrom)
    (hx : (reconcileCommit C memo
      { s₁ with world := s₁.world.reconcileWritten C run.writes }).2.world.cell? t e = some x)
    (hnew : ∀ y, s.world.cell? t e = some y → y.cell ≠ x.cell) :
    ∃ w output later u p, run.BufferEnd C s deferInserts w output later u ∧
      p ∈ u.pendingDerivedFrom ∧ p.component = t ∧ p.entity = e ∧
        x.value = .derivedFrom (u.captured C p.anchors) := by
  have hwritten := keepsFacts_reconcileWritten (C := C) s₁.world run.writes
  have htreated := hwritten.trans (keepsFacts_reconcileCommit memo
    { s₁ with world := s₁.world.reconcileWritten C run.writes })
  obtain ⟨y, hy, hcell, hvalue⟩ := htreated t e x ht hx
  rcases captured_publishOutputs hC hs₁ hflushed htyped t e y ht hy with
    ⟨z, hz, hcell', -⟩ | ⟨before, output, later, s₂, u, p, hsplit, hbefore, hu, hp, hcomponent,
      hentity, hcaptured⟩
  · exact absurd (hcell'.trans hcell) (hnew z hz)
  · exact ⟨s₂.world, output, later, u, p, ⟨before, s₂, hsplit, hbefore, rfl, hu⟩, hp, hcomponent,
      hentity, hvalue ▸ hcaptured⟩

/-- What the rest of a commit does not disturb keeps the revision that it has at the end of a buffer. -/
theorem entityRevision_committed (hC : ∀ t, C.role t = .derivedFrom → C.tracked t = false)
    (hs : World.Reachable C s.world) (hflushed : s.world.Flushed) {s₁ : State α} {memo : MemoTable}
    (hs₁ : publishOutputs C s run.outputs deferInserts = some s₁)
    (hend : run.BufferEnd C s deferInserts w output later u) {a : Entity}
    (hspared : ¬ run.DisturbsAfter C memo s deferInserts w output later a) :
    (reconcileCommit C (publishMemo (s₁.world.reconcileWritten C run.writes) s.settleEpoch run memo)
      { s₁ with world := s₁.world.reconcileWritten C run.writes }).2.world.entityRevision C a =
        u.entityRevision C a := by
  obtain ⟨before, s₂, hsplit, hbefore, rfl, hu⟩ := hend
  obtain ⟨hsweep, hrest⟩ := not_or.mp hspared
  obtain ⟨w', hw', hlater⟩ := publishOutputs_cons (publishOutputs_split hsplit hbefore hs₁)
  have hpublished := worlds_publishOutputs hlater
  obtain ⟨houtputs, hfinish⟩ := not_or.mp fun h => hrest ⟨w', hw', h⟩
  obtain ⟨hwrites, htreatment⟩ := not_or.mp fun h => hfinish ⟨s₁.world, hpublished, h⟩
  have hstart : s.world.Anchored C := fun p hp => by
    rw [hflushed.1] at hp
    cases hp
  have hanchored : s₂.world.Anchored C :=
    List.foldlM_some_induction (World.Anchored C) before (worlds_publishOutputs hbefore) hstart
      fun _ _ _ _ _ hstep => anchored_applyOutput hstep
  have htaken : (s₂.world.takeDerivedOutputs output.owner).2.Anchored C := hanchored
  have hindexed : (s₁.world.reconcileWritten C run.writes).Indexed fun _ _ => False :=
    (sameOwnership_reconcileWritten C s₁.world run.writes).indexed
      (publishOutputs_indexed hs₁ hs.indexed)
  have hpair : State.pairBoundSystems
      { s₁ with world := s₁.world.reconcileWritten C run.writes } = s.pairBoundSystems := by
    simp only [State.pairBoundSystems, (publishOutputs_frame hs₁).1]
  have htreated : ¬ run.TreatmentDisturbs C memo
      { s₁ with world := s₁.world.reconcileWritten C run.writes }
      (s₁.world.reconcileWritten C run.writes) a := by
    unfold SystemRun.TreatmentDisturbs
    rw [hpair]
    exact htreatment
  calc _ = (s₁.world.reconcileWritten C run.writes).entityRevision C a :=
        entityRevision_reconcileCommit hindexed (fun o => mem_publishMemo_iff _ _ run) htreated
    _ = s₁.world.entityRevision C a := entityRevision_reconcileWritten hwrites
    _ = w'.entityRevision C a :=
        entityRevision_outputs hC (anchored_applyOutput hw') hpublished houtputs
    _ = u.entityRevision C a :=
        entityRevision_finish hC ((steady_applyCommands hu).anchored htaken) hu hw' hsweep

/-- Such a fact is current exactly when the effects from the end of its buffer on spare its anchors. -/
theorem arrival_current_iff (hC : ∀ t, C.role t = .derivedFrom → C.tracked t = false)
    {memo after : MemoTable} {phase : Option Phase} {progress : CommitProgress}
    (hreach : (Writing.machine C).Reachable ⟨s.world, pending⟩) (hflushed : s.world.Flushed)
    (htyped : ∀ output ∈ run.outputs,
      (CommandBuffer.derived output.owner output.commands).Typed C)
    (hcommit : commitSystemRun C memo s run phase = some (after, s', progress))
    (haccepted : progress.stale = false) {t : TypeId} {e : Entity} {x : Entry α}
    (ht : C.role t = .derivedFrom) (hx : s'.world.cell? t e = some x)
    (hnew : ∀ y, s.world.cell? t e = some y → y.cell ≠ x.cell) :
    ∃ w output later u anchors, run.BufferEnd C s (phase = some .settle) w output later u ∧
      x.value = .derivedFrom (u.captured C anchors) ∧
      (∃ labels : List (Effect α), labels.foldl (Effect.take C) u = s'.world) ∧
      ∀ labels : List (Effect α), labels.foldl (Effect.take C) u = s'.world →
        (isCurrentRevision (u.captured C anchors) (s'.world.entityRevision C) = true ↔
          anchors ≠ [] ∧ ∀ a ∈ anchors, Effect.Sparing C a.entity u labels) := by
  obtain ⟨s₁, hs₁, rfl⟩ := published_of_accepted hcommit haccepted
  obtain ⟨w, output, later, u, p, hend, -, -, -, hcaptured⟩ :=
    exists_writer hC hflushed htyped hs₁ ht hx hnew
  obtain ⟨hstart, pending', houtputs⟩ :=
    traced_of_bufferEnd (Writing.identified_of_reachable hreach) hend hs₁
  have hreconciled := tidies_reconcileWritten (C := C) s₁.world run.writes
  have hmanaged := (hreconciled.trans (tidies_reconcileCommit
    (publishMemo (s₁.world.reconcileWritten C run.writes) s.settleEpoch run memo)
    { s₁ with world := s₁.world.reconcileWritten C run.writes })).managed
  obtain ⟨pending'', hrest⟩ := effects_of_managed hmanaged pending'
  obtain ⟨labels, hlabels⟩ := houtputs.trans hrest
  refine ⟨w, output, later, u, p.anchors, hend, hcaptured, ⟨labels, ?_⟩, fun labels' hlabels' => ?_⟩
  · exact Writing.world_of_effects hlabels
  · have hiff := hstart.current_iff labels' p.anchors
    rwa [hlabels'] at hiff

end Commit

section Examples

open World

/-- Entity 0 carries a component, and a newer one that an invocation has derived. -/
def twofold : World Nat :=
  ((World.machine derivedFacts).run World.new [.base (.insert 2 0 (.data 7)),
    .output ⟨⟨0, [3]⟩, [.insert 1 0 (.data 8)]⟩ false]).getD World.new

theorem reachable_twofold : World.Reachable derivedFacts twofold := by
  have hrun : (World.machine derivedFacts).run World.new [.base (.insert 2 0 (.data 7)),
    .output ⟨⟨0, [3]⟩, [.insert 1 0 (.data 8)]⟩ false] = some twofold := rfl
  exact Machine.Reachable.run (.init machine_init_new) hrun

/-- An output that derives a fact about entity 0, and derives the component there again. -/
def renewal : SystemOutput Nat :=
  ⟨⟨0, [3]⟩, [.insert 5 1 (.derivedFrom [⟨0, none⟩]), .insert 1 0 (.data 9)]⟩

def renewed : MemoTable × State Nat × CommitProgress :=
  (commitSystemRun derivedFacts ∅ { State.new Nat with world := twofold } ⟨true, [renewal], [], []⟩
    (some .evaluate)).getD (∅, State.new Nat, ⟨false, true, 0⟩)

/-- Nothing is left to do to entity 0 when the buffer has been applied. -/
theorem renewal_spares (memo : MemoTable) (s : State Nat) :
    ¬ SystemRun.DisturbsAfter derivedFacts ⟨true, [renewal], [], []⟩ memo s false twofold renewal []
      0 := by
  let flushed : World Nat := (((twofold.takeDerivedOutputs ⟨0, [3]⟩).2.applyCommands derivedFacts
    ⟨0, [3]⟩ renewal.commands).bind (World.flushDerivedFrom derivedFacts)).getD World.new
  rintro (⟨applied, flushed', happlied, hflushed, hbereaves⟩ | ⟨w', hw', hrest⟩)
  · have hsame : flushed' = flushed := by
      have hbind : ((twofold.takeDerivedOutputs ⟨0, [3]⟩).2.applyCommands derivedFacts ⟨0, [3]⟩
          renewal.commands).bind (World.flushDerivedFrom derivedFacts) = some flushed' :=
        Option.bind_eq_some_iff.mpr ⟨applied, happlied, hflushed⟩
      exact (congrArg (Option.getD · World.new) hbind).symm
    have hlisted : ∀ p ∈ twofold.outputs ⟨0, [3]⟩, p ∈ flushed.outputs ⟨0, [3]⟩ := by decide
    subst hsame
    obtain ⟨t, -, hlost | ⟨t', e', hlost, -⟩⟩ := hbereaves
    · exact hlost.1.2.1 (hlisted _ hlost.1.1)
    · exact hlost.2.1 (hlisted _ hlost.1)
  · have hremoved : (twofold.applyOutput derivedFacts renewal false).map World.removedEntities =
        some [] := by decide
    rw [hw', Option.map_some, Option.some.injEq] at hremoved
    rcases hrest with hlater | ⟨published, hpublished, ⟨t, hmem, -⟩ | ⟨-, hbereaves⟩⟩
    · exact hlater
    · cases hmem
    · cases hpublished
      have hkept : ∀ selected t e, ¬ (w'.reconcileWritten derivedFacts []).Withdrawable selected
          (w'.reconcileWritten derivedFacts []).removedEntities t e := by
        rintro selected t e ⟨o, -, hw⟩
        obtain ⟨-, -, -, k, -, hk⟩ := hw.exists_keyed
        have hk : k ∈ w'.removedEntities := hk
        rw [hremoved] at hk
        cases hk
      obtain ⟨t, -, hlost | ⟨t', e', hlost, -⟩⟩ := hbereaves
      · exact hkept _ _ _ hlost.1
      · exact hkept _ _ _ hlost

/-- Whether a commit discards the run, the anchors of the fact on entity 1, whether each of them carries
a tracked component, and whether the fact is current. -/
def arrival (w : World Nat) (run : SystemRun Nat) :
    Option (Bool × List DerivedAnchor × Bool × Bool) :=
  (commitSystemRun derivedFacts ∅ { State.new Nat with world := w } run (some .evaluate)).map fun r =>
    let revision := r.2.1.world.entityRevision derivedFacts
    let anchors := match (r.2.1.world.cell? 5 1).map Entry.value with
      | some (.derivedFrom anchors) => anchors
      | _ => []
    (r.2.2.stale, anchors, anchors.all fun a => (revision a.entity).isSome,
      isCurrentRevision anchors revision)

end Examples
end Porridge
