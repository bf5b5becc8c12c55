import Porridge.World.Relationships

/-! Inverses over whole runs: every use of the world that leaves the inverse type alone and
retargets edges by inserting them keeps the inverses exact. -/
namespace Porridge
namespace World

variable {α : Type} (C : Components α)

/-- An inverse is present exactly on the targets of some edge, and its member list is the strictly
ascending list of the edges' sources. -/
structure InversesExact (edge inverse : TypeId) (w : World α) : Prop where
  present : ∀ e, w.has inverse e = true ↔ ∃ source, w.edgeOn C edge source = some (inverse, e)
  members : ∀ e x, w.cell? inverse e = some x →
    ∃ members, x.value = .members members ∧ members.Pairwise (· < ·) ∧
      ∀ source, source ∈ members ↔ w.edgeOn C edge source = some (inverse, e)

theorem Agrees.exact {C : Components α} {edge inverse : TypeId} {w : World α}
    (hw : w.Agrees C edge inverse fun _ => False) : w.InversesExact C edge inverse := by
  have hlisted : ∀ e s, s ∈ w.membersOn inverse e ↔ w.edgeOn C edge s = some (inverse, e) :=
    fun e s => (hw.listed e s).trans (and_iff_right not_false)
  constructor
  · intro e
    rw [has_iff]
    constructor
    · rintro ⟨x, hx⟩
      obtain ⟨s, hs⟩ := List.exists_mem_of_ne_nil _ (members_of_tidy hw.tidy hx).2.1
      exact ⟨s, (hlisted e s).mp hs⟩
    · rintro ⟨s, hs⟩
      have hmem := (hlisted e s).mpr hs
      cases hx : w.cell? inverse e with
      | none =>
        rw [membersOn, hx] at hmem
        cases hmem
      | some x => exact ⟨x, rfl⟩
  · intro e x hx
    obtain ⟨hvalue, -, hsorted⟩ := members_of_tidy hw.tidy hx
    exact ⟨w.membersOn inverse e, hvalue, hsorted, hlisted e⟩

end World

def Command.Spares {α : Type} (t : TypeId) : Command α → Prop
  | insert component _ _ | removeComponent component _ => component ≠ t
  | spawn bundle _ => ∀ p ∈ bundle, p.1 ≠ t
  | removeEntity _ => True

def BaseCommand.Spares {α : Type} (t : TypeId) : BaseCommand α → Prop
  | insert component _ _ | removeComponent component _ => component ≠ t
  | despawn _ => True

def WorldOp.Spares {α : Type} (C : Components α) (edge inverse : TypeId) (w : World α) :
    WorldOp α → Prop
  | .base command => command.Spares inverse
  | .output o _ => ∀ c ∈ o.commands, c.Spares inverse
  | .commands _ issued => ∀ c ∈ issued, c.Spares inverse
  | .update t e v | .writeInPlace t e v =>
    t ≠ inverse ∧ (t = edge → w.has t e = true → C.relationshipEdge t v = w.edgeOn C t e)
  | .flush | .reconcileWritten _ | .retireTouched _ _ | .retireOwner _ | .drainRemovals
  | .rollPlanEpoch | .spawnEmpty | .reserveSingleton _ => True

namespace World

variable {α : Type} (C : Components α)

/-- Effects other than deferring a `DerivedFrom` insert keep the deferred inserts. -/
theorem closed_samePending : Closed C
    (fun w w' : World α => w'.pendingDerivedFrom = w.pendingDerivedFrom)
    { Permits.all with defers := False } where
  refl _ := rfl
  trans hab hbc := hbc.trans hab
  bookkeeping _ hp := hp.resolve_left id
  write w t e v o _ := by
    unfold writeEntry
    dsimp only
    rw [(reindexDerived_eq _ t e (w.owner? t e) o).choose_spec]
    rfl
  drop w t e remover _ := by
    unfold dropEntry
    split_ifs
    · obtain ⟨owners, losers, h⟩ :=
        disownEntry_eq ((w.eraseEntry t e).presenceSet t e false) t e (w.owner? t e) remover
      obtain ⟨singletons, h'⟩ := unregisterSingleton_eq C
        (((w.eraseEntry t e).presenceSet t e false).disownEntry t e (w.owner? t e) remover) t e
      rw [h', h]
      rfl
    · rfl
  sweep w t e o _ := by
    unfold sweepEntry
    split_ifs <;> rfl
  purge w e _ := by
    obtain ⟨stores, revision, mutations, log, h⟩ := eraseEntries_eq e (w.componentsOn e) w
    obtain ⟨owners, h'⟩ :=
      unindexEntries_eq e (w.ownedOn e) (w.eraseEntries (w.componentsOn e) e)
    unfold purgeEntity
    rw [h', h]
  inverse _ _ _ _ := trivial

variable {C} {edge inverse : TypeId}

/-- The inverses are exact and no deferred insert is about to write one. -/
structure Maintained (C : Components α) (edge inverse : TypeId) (w : World α) : Prop where
  agrees : w.Agrees C edge inverse fun _ => False
  pending : ∀ p ∈ w.pendingDerivedFrom, C.role p.component = .derivedFrom

theorem Maintained.congr {w w' : World α} (h : w.Maintained C edge inverse)
    (hs : w'.stores = w.stores) (hp : w'.pendingDerivedFrom = w.pendingDerivedFrom) :
    w'.Maintained C edge inverse :=
  ⟨h.agrees.congr hs, fun p hmem => h.pending p (hp ▸ hmem)⟩

theorem ne_inverse_of_derivedFrom (hp : C.Paired edge inverse) {t : TypeId}
    (ht : C.role t = .derivedFrom) : t ≠ inverse := by
  rintro rfl
  rw [hp.inverse_role] at ht
  cases ht

theorem Maintained.insert (hp : C.Paired edge inverse) {w w' : World α}
    (h : w.Maintained C edge inverse) {t : TypeId} {e : Entity} {v : Value α}
    {o : Option SystemInvocation} (ht : t ≠ inverse) (hi : w.insert C t e v o = some w') :
    w'.Maintained C edge inverse := by
  unfold World.insert at hi
  split at hi
  · rename_i anchors hdeferred
    cases hi
    refine ⟨h.agrees.congr rfl, fun p hmem => ?_⟩
    rcases List.mem_append.mp hmem with hold | hnew
    · exact h.pending p hold
    · cases List.mem_singleton.mp hnew
      unfold deferredAnchors at hdeferred
      split at hdeferred
      · split_ifs at hdeferred with hrole
        exact hrole.1
      · cases hdeferred
  · have hpending := (closed_samePending C).insertNow hi trivial
    obtain ⟨u, hu, rfl⟩ := Option.map_eq_some_iff.mp hi
    have hstores : u.stores = w.stores := by
      unfold registerSingleton at hu
      split at hu
      · cases hu; rfl
      · split at hu
        · split_ifs at hu
          cases hu; rfl
        · cases hu; rfl
    have hu : u.Agrees C edge inverse fun _ => False := h.agrees.congr hstores
    exact ⟨hu.insertEntry hp ht _ o, fun p hmem => h.pending p (hpending ▸ hmem)⟩

theorem Maintained.removeComponent (hp : C.Paired edge inverse) {w : World α}
    (h : w.Maintained C edge inverse) {t : TypeId} {e : Entity} (ht : t ≠ inverse)
    (remover : Option SystemInvocation) :
    (w.removeComponent C t e remover).Maintained C edge inverse := by
  have hpending := (closed_samePending C).removeComponent w t e remover fun _ _ => trivial
  exact ⟨h.agrees.removeComponent hp ht remover, fun p hmem => h.pending p (hpending ▸ hmem)⟩

theorem Maintained.removeEntity (hp : C.Paired edge inverse) {w : World α}
    (h : w.Maintained C edge inverse) (e : Entity) :
    (w.removeEntity C e).Maintained C edge inverse := by
  have hpending := (closed_samePending C).removeEntity w e trivial
  exact ⟨(h.agrees.removeEntity hp e).1, fun p hmem => h.pending p (hpending ▸ hmem)⟩

theorem Maintained.flushDerivedFrom (hp : C.Paired edge inverse) {w w' : World α}
    (h : w.Maintained C edge inverse) (hf : w.flushDerivedFrom C = some w') :
    w'.Maintained C edge inverse := by
  obtain ⟨u, hu, rfl⟩ := Option.map_eq_some_iff.mp hf
  have hstart : ({ w with pendingDerivedFrom := [], flushingAnchors := true } :
      World α).Maintained C edge inverse :=
    ⟨h.agrees.congr rfl, fun _ hmem => nomatch hmem⟩
  have hflushed : u.Maintained C edge inverse :=
    List.foldlM_some_induction (Maintained C edge inverse) w.pendingDerivedFrom hu hstart
      fun a p b hmem ha hb =>
        ha.insert hp (ne_inverse_of_derivedFrom hp (h.pending p hmem)) hb
  exact hflushed.congr rfl rfl

theorem Maintained.command (hp : C.Paired edge inverse) {w w' : World α}
    (h : w.Maintained C edge inverse) {o : SystemInvocation} {c : Command α}
    (hc : c.Spares inverse) (ha : c.apply C w o = some w') : w'.Maintained C edge inverse := by
  cases c with
  | insert t e v => exact h.insert hp hc ha
  | removeEntity e => cases ha; exact h.removeEntity hp e
  | removeComponent t e => cases ha; exact h.removeComponent hp hc (some o)
  | spawn bundle reserved =>
    simp only [Command.apply, Option.bind_eq_bind, Option.bind_eq_some_iff] at ha
    obtain ⟨key, -, ha⟩ := ha
    have htarget : (w.spawnTarget reserved key).2.Maintained C edge inverse := by
      cases key with
      | none => exact h
      | some key =>
        unfold spawnTarget singletonEntityOrRegister
        dsimp only
        split
        · exact h
        · exact h.congr rfl rfl
    have hslot : ((w.spawnTarget reserved key).2.recordDerivedSpawn o
        (w.spawnTarget reserved key).1).Maintained C edge inverse := htarget.congr rfl rfl
    exact List.foldlM_some_induction (Maintained C edge inverse) bundle ha hslot
      fun a p b hmem hm hb => hm.insert hp (hc p hmem) hb

theorem Maintained.applyCommands (hp : C.Paired edge inverse) {w w' : World α}
    (h : w.Maintained C edge inverse) {o : SystemInvocation} {commands : List (Command α)}
    (hc : ∀ c ∈ commands, c.Spares inverse) (ha : w.applyCommands C o commands = some w') :
    w'.Maintained C edge inverse :=
  List.foldlM_some_induction (Maintained C edge inverse) commands ha h
    fun _ c _ hmem hm hs => hm.command hp (hc c hmem) hs

theorem Maintained.baseCommand (hp : C.Paired edge inverse) {w w' : World α}
    (h : w.Maintained C edge inverse) {c : BaseCommand α} (hc : c.Spares inverse)
    (ha : c.apply C w = some w') : w'.Maintained C edge inverse := by
  cases c with
  | insert t e v => exact h.insert hp hc ha
  | removeComponent t e => cases ha; exact h.removeComponent hp hc none
  | despawn e => cases ha; exact h.removeEntity hp e

theorem Maintained.applyOutput (hp : C.Paired edge inverse) {w w' : World α}
    (h : w.Maintained C edge inverse) {output : SystemOutput α} {deferInserts : Bool}
    (hc : ∀ c ∈ output.commands, c.Spares inverse)
    (ha : w.applyOutput C output deferInserts = some w') : w'.Maintained C edge inverse := by
  obtain ⟨applied, flushed, happly, hflush, rfl⟩ := exists_of_applyOutput ha
  have htaken : (w.takeDerivedOutputs output.owner).2.Maintained C edge inverse :=
    h.congr rfl rfl
  have hsub : ∀ c ∈ (if deferInserts = true then
      output.commands.filter fun c => !c.defersAtSettle else output.commands),
      c.Spares inverse := by
    intro c hmem
    split_ifs at hmem
    · exact hc c (List.mem_filter.mp hmem).1
    · exact hc c hmem
  have happlied := htaken.applyCommands hp hsub happly
  have hflushed := happlied.flushDerivedFrom hp hflush
  have hfinished : (flushed.finishDerivedSpawns output.owner).Maintained C edge inverse :=
    hflushed.congr rfl rfl
  have hpending := (closed_samePending C).removeDerivedStale
    (flushed.finishDerivedSpawns output.owner) (w.outputs output.owner) (o := output.owner)
    fun _ _ => trivial
  exact ⟨hfinished.agrees.removeDerivedStale hp _,
    fun p hmem => hfinished.pending p (hpending ▸ hmem)⟩

section InPlace

/-- What relationship maintenance reads of a component: its value and its owner. -/
def shown (w : World α) (t : TypeId) (e : Entity) : Option (Value α × Option SystemInvocation) :=
  (w.cell? t e).map fun x => (x.value, x.owner)

variable {w w' : World α}

theorem shown_amendEntry (w : World α) (t : TypeId) (e : Entity) (x : Entry α) (mark : Revision)
    (t' : TypeId) (e' : Entity) : (w.amendEntry t e x mark).shown t' e' =
      if t' = t ∧ e' = e then some (x.value, x.owner) else w.shown t' e' := by
  rw [shown, cell?_amendEntry]
  split_ifs <;> rfl

theorem shown_absent {t : TypeId} {e : Entity} (hx : w.cell? t e = none) (v : Value α)
    (t' : TypeId) (e' : Entity) : w.shown t' e' =
      if t' = t ∧ e' = e then (w.cell? t e).map fun x => (v, x.owner) else w.shown t' e' := by
  split_ifs with hte
  · rw [shown, hte.1, hte.2, hx]
    rfl
  · rfl

theorem shown_restampEntry (C : Components α) (w : World α) (t : TypeId) (e : Entity)
    (v : Value α) (t' : TypeId) (e' : Entity) : (w.restampEntry C t e v).shown t' e' =
      if t' = t ∧ e' = e then (w.cell? t e).map fun x => (v, x.owner) else w.shown t' e' := by
  cases hx : w.cell? t e with
  | none =>
    have habsent : w.restampEntry C t e v = w := by simp [restampEntry, hx]
    rw [habsent, ← hx]
    exact shown_absent hx v t' e'
  | some x =>
    simp only [restampEntry, hx, Option.map_some]
    by_cases hamends : w.amends C t e v = true
    · rw [if_pos hamends]
      exact shown_amendEntry w t e ⟨x.cell, v, w.revision + 1, C.fingerprint t v, x.owner⟩ _ t' e'
    · rw [if_neg hamends]
      exact shown_amendEntry w t e ⟨x.cell, v, x.revision, C.fingerprint t v, x.owner⟩ 0 t' e'

theorem shown_writeInPlace (w : World α) (t : TypeId) (e : Entity) (v : Value α) (t' : TypeId)
    (e' : Entity) : (w.writeInPlace t e v).shown t' e' =
      if t' = t ∧ e' = e then (w.cell? t e).map fun x => (v, x.owner) else w.shown t' e' := by
  cases hx : w.cell? t e with
  | none =>
    have habsent : w.writeInPlace t e v = w := by simp [writeInPlace, hx]
    rw [habsent, ← hx]
    exact shown_absent hx v t' e'
  | some x =>
    simp only [writeInPlace, hx, Option.map_some]
    exact shown_amendEntry w t e { x with value := v } 0 t' e'

theorem shown_reconcileEntry (C : Components α) (w : World α) (t : TypeId) (e : Entity)
    (t' : TypeId) (e' : Entity) : (w.reconcileEntry C t e).shown t' e' = w.shown t' e' := by
  unfold reconcileEntry
  split
  · rfl
  · rename_i x hx
    rw [shown_restampEntry]
    split_ifs with hte
    · rw [shown, hte.1, hte.2, hx]
      rfl
    · rfl

theorem shown_reconcileWritten (C : Components α) (w : World α) (writes : List (TypeId × Entity))
    (t : TypeId) (e : Entity) : (w.reconcileWritten C writes).shown t e = w.shown t e := by
  refine List.foldlRecOn writes _ (motive := fun u : World α => u.shown t e = w.shown t e) rfl
    fun u hu p _ => ?_
  dsimp only
  split_ifs
  · exact (shown_reconcileEntry C u p.1 p.2 t e).trans hu
  · exact hu

theorem shown_updateComponent (C : Components α) (w : World α) (t : TypeId) (e : Entity)
    (v : Value α) (t' : TypeId) (e' : Entity) : (w.updateComponent C t e v).shown t' e' =
      if t' = t ∧ e' = e then (w.cell? t e).map fun x => (v, x.owner) else w.shown t' e' := by
  unfold updateComponent
  by_cases hamends : w.amends C t e v = true
  · rw [if_pos hamends]
    exact shown_restampEntry C w t e v t' e'
  · rw [if_neg hamends]
    exact shown_restampEntry C w t e v t' e'

theorem edgeOn_eq_shown (C : Components α) (w : World α) (t : TypeId) (e : Entity) :
    w.edgeOn C t e = (w.shown t e).bind fun x => C.relationshipEdge t x.1 := by
  unfold edgeOn shown
  cases w.cell? t e <;> rfl

theorem membersOn_eq_shown (w : World α) (t : TypeId) (e : Entity) :
    w.membersOn t e = ((w.shown t e).map fun x => x.1.memberList).getD [] := by
  unfold membersOn shown
  cases w.cell? t e <;> rfl

/-- Exactness depends on the inverses' values and owners and on the edges only. -/
theorem Agrees.of_shown {gone : Entity → Prop} (hw : w.Agrees C edge inverse gone)
    (hshown : ∀ e, w'.shown inverse e = w.shown inverse e)
    (hedges : ∀ e, w'.edgeOn C edge e = w.edgeOn C edge e) : w'.Agrees C edge inverse gone := by
  constructor
  · intro e x hx
    have hx' := hshown e
    rw [shown, hx] at hx'
    obtain ⟨y, hy, hxy⟩ := Option.map_eq_some_iff.mp hx'.symm
    obtain ⟨hvalue, howner⟩ := Prod.ext_iff.mp hxy
    obtain ⟨hbase, members, hmembers, hrest⟩ := hw.tidy e y hy
    exact ⟨howner.symm.trans hbase, members, hvalue.symm.trans hmembers, hrest⟩
  · intro e s
    rw [membersOn_eq_shown, hshown, ← membersOn_eq_shown, hedges]
    exact hw.listed e s

end InPlace

theorem Maintained.of_shown {w w' : World α} (h : w.Maintained C edge inverse)
    (hshown : ∀ e, w'.shown inverse e = w.shown inverse e)
    (hedges : ∀ e, w'.edgeOn C edge e = w.edgeOn C edge e)
    (hp : w'.pendingDerivedFrom = w.pendingDerivedFrom) : w'.Maintained C edge inverse :=
  ⟨h.agrees.of_shown hshown hedges, fun p hmem => h.pending p (hp ▸ hmem)⟩

theorem removeDerivedOwned_pendingDerivedFrom (w : World α) (o : SystemInvocation) :
    (w.removeDerivedOwned C o).pendingDerivedFrom = w.pendingDerivedFrom :=
  (closed_samePending C).removeDerivedEntries (w.forgetOwner o) (w.outputs o) (o := o)
    fun _ _ => trivial

theorem retireOwners_pendingDerivedFrom (owners : List SystemInvocation) (w : World α) :
    (w.retireOwners C owners).1.pendingDerivedFrom = w.pendingDerivedFrom := by
  induction owners generalizing w with
  | nil => rfl
  | cons o owners ih =>
    exact (ih (w.removeDerivedOwned C o)).trans (removeDerivedOwned_pendingDerivedFrom w o)

@[simp] theorem restampEntry_pendingDerivedFrom (w : World α) (t : TypeId) (e : Entity)
    (v : Value α) : (w.restampEntry C t e v).pendingDerivedFrom = w.pendingDerivedFrom := by
  unfold restampEntry
  split
  · rfl
  · split_ifs <;> rfl

@[simp] theorem reconcileWritten_pendingDerivedFrom (w : World α)
    (writes : List (TypeId × Entity)) :
    (w.reconcileWritten C writes).pendingDerivedFrom = w.pendingDerivedFrom := by
  refine List.foldlRecOn writes _
    (motive := fun u : World α => u.pendingDerivedFrom = w.pendingDerivedFrom) rfl
    fun u hu p _ => ?_
  dsimp only
  split_ifs
  · unfold reconcileEntry
    split
    · exact hu
    · exact (restampEntry_pendingDerivedFrom u p.1 p.2 _).trans hu
  · exact hu

/-- A value of `t` on `e` changes in place and carries the same edge. -/
theorem Maintained.rewrite {w w' : World α} (h : w.Maintained C edge inverse) {t : TypeId}
    {e : Entity} {v : Value α} (ht : t ≠ inverse)
    (hedge : t = edge → w.has t e = true → C.relationshipEdge t v = w.edgeOn C t e)
    (hshown : ∀ t' e', w'.shown t' e' =
      if t' = t ∧ e' = e then (w.cell? t e).map fun x => (v, x.owner) else w.shown t' e')
    (hp : w'.pendingDerivedFrom = w.pendingDerivedFrom) : w'.Maintained C edge inverse := by
  refine h.of_shown (fun e' => ?_) (fun e' => ?_) hp
  · rw [hshown, if_neg]
    exact fun hte => ht hte.1.symm
  · rw [edgeOn_eq_shown, hshown]
    split_ifs with hte
    · obtain ⟨rfl, rfl⟩ := hte
      cases hx : w.cell? edge e' with
      | none => simp [edgeOn, hx]
      | some x =>
        have hsame := hedge rfl ((has_iff w edge e').mpr ⟨x, hx⟩)
        exact hsame
    · exact (edgeOn_eq_shown C w edge e').symm

/-- Every use of the world that spares the inverse type keeps the inverses exact. -/
theorem Maintained.apply (hp : C.Paired edge inverse) {w w' : World α}
    (h : w.Maintained C edge inverse) {op : WorldOp α} (hop : op.Spares C edge inverse w)
    (ha : w.apply C op = some w') : w'.Maintained C edge inverse := by
  have hpending : ∀ p ∈ w.pendingDerivedFrom, C.role p.component = .derivedFrom := h.pending
  cases op with
  | base c => exact h.baseCommand hp hop ha
  | flush => exact h.flushDerivedFrom hp ha
  | output o deferInserts => exact h.applyOutput hp hop ha
  | commands o commands => exact h.applyCommands hp hop ha
  | update t e v =>
    cases ha
    refine h.rewrite hop.1 hop.2 (shown_updateComponent C w t e v) ?_
    unfold updateComponent
    split_ifs <;> exact restampEntry_pendingDerivedFrom w t e v
  | writeInPlace t e v =>
    cases ha
    refine h.rewrite hop.1 hop.2 (shown_writeInPlace w t e v) ?_
    unfold writeInPlace
    split <;> rfl
  | reconcileWritten writes =>
    cases ha
    have hshown := shown_reconcileWritten C w writes
    refine h.of_shown (hshown inverse) (fun e => ?_) (reconcileWritten_pendingDerivedFrom w writes)
    rw [edgeOn_eq_shown, hshown, ← edgeOn_eq_shown]
  | retireTouched keys systems =>
    cases ha
    have hsame := retireOwners_pendingDerivedFrom (C := C) (w.ownersTouchedBy keys systems) w
    exact ⟨h.agrees.retireOwners hp _, fun p hmem => hpending p (hsame ▸ hmem)⟩
  | retireOwner o =>
    cases ha
    have hsame := removeDerivedOwned_pendingDerivedFrom (C := C) w o
    exact ⟨h.agrees.removeDerivedOwned hp o, fun p hmem => hpending p (hsame ▸ hmem)⟩
  | drainRemovals => cases ha; exact h.congr rfl rfl
  | rollPlanEpoch =>
    cases ha
    unfold maybeRollPlanEpoch
    split_ifs <;> exact h.congr rfl rfl
  | spawnEmpty => cases ha; exact h.congr rfl rfl
  | reserveSingleton key =>
    cases ha
    unfold singletonEntityOrSpawn
    split <;> exact h.congr rfl rfl

theorem reachable_maintained (hp : C.Paired edge inverse) {w : World α}
    (h : (machine C).ReachableUnder (fun w op => op.Spares C edge inverse w) w) :
    w.Maintained C edge inverse := by
  refine Machine.ReachableUnder.invariant h (Maintained C edge inverse) ?_ ?_
  · rintro w ⟨schema, rfl⟩
    refine ⟨⟨fun e x hx => (nomatch hx), fun e s => ?_⟩, fun p hmem => (nomatch hmem)⟩
    exact ⟨fun hmem => (nomatch hmem), fun h => (nomatch h.2)⟩
  · exact fun w op w' hw hop hs => hw.apply hp hop hs

/-- In every world reached without touching the inverse type by hand the inverses are exact, and
removing an entity leaves no edge at it. -/
theorem reachable_inversesExact (hp : C.Paired edge inverse) {w : World α}
    (h : (machine C).ReachableUnder (fun w op => op.Spares C edge inverse w) w) :
    w.InversesExact C edge inverse ∧
      ∀ e source, (w.removeEntity C e).edgeOn C edge source ≠ some (inverse, e) := by
  have hmaintained := reachable_maintained hp h
  exact ⟨hmaintained.agrees.exact, fun e => (hmaintained.agrees.removeEntity hp e).2⟩

/-- Type 5 is an edge at the entity its payload names, and type 6 the inverse kept for it. -/
def following : Components Nat where
  tracked _ := true
  role t := if t = 5 then .edge 6 else if t = 6 then .inverse 5 else .plain
  fingerprint _ _ := none
  target _ payload := payload
  inverse_role t inverse h := by
    split_ifs at h with ht
    cases h
    simp [ht]

theorem following_paired : following.Paired 5 6 where
  role := rfl
  unretracted t h := by
    simp only [following] at h
    split_ifs at h
    cases h

/-- Edges from 1, 2 and 3 at 3; the one from 1 is moved to itself, then 3 is removed. -/
def retargeted : World Nat :=
  ((machine following).run World.new
    [.base (.insert 5 1 (.data 3)), .output ⟨⟨0, [1]⟩, [.insert 5 2 (.data 3)]⟩ false,
      .base (.insert 5 3 (.data 3)), .base (.insert 5 1 (.data 1)),
      .base (.despawn 3)]).getD World.new

theorem retargeted_inversesExact :
    (retargeted.InversesExact following 5 6 ∧
      ∀ e source, (retargeted.removeEntity following e).edgeOn following 5 source ≠ some (6, e)) ∧
      (retargeted.cell? 6 1).map Entry.value = some (.members [1]) ∧
        retargeted.has 5 2 = false := by
  have hallowed : (machine following).Allows (fun w op => op.Spares following 5 6 w) World.new
      [.base (.insert 5 1 (.data 3)), .output ⟨⟨0, [1]⟩, [.insert 5 2 (.data 3)]⟩ false,
        .base (.insert 5 3 (.data 3)), .base (.insert 5 1 (.data 1)), .base (.despawn 3)] := by
    simp only [Machine.Allows, WorldOp.Spares, BaseCommand.Spares, Command.Spares,
      List.mem_singleton, forall_eq]
    exact ⟨by decide, fun _ _ => ⟨by decide, fun _ _ => ⟨by decide, fun _ _ => ⟨by decide,
      fun _ _ => ⟨trivial, fun _ _ => trivial⟩⟩⟩⟩⟩
  have hrun : (machine following).run World.new
      [.base (.insert 5 1 (.data 3)), .output ⟨⟨0, [1]⟩, [.insert 5 2 (.data 3)]⟩ false,
        .base (.insert 5 3 (.data 3)), .base (.insert 5 1 (.data 1)), .base (.despawn 3)] =
      some retargeted := rfl
  exact ⟨reachable_inversesExact following_paired
    (Machine.ReachableUnder.run (.init machine_init_new) hallowed hrun), by decide, by decide⟩

section Retargeting

theorem InversesExact.mem_membersOn {w : World α} (hw : w.InversesExact C edge inverse)
    (e source : Entity) :
    source ∈ w.membersOn inverse e ↔ w.edgeOn C edge source = some (inverse, e) := by
  unfold membersOn
  cases hx : w.cell? inverse e with
  | none =>
    refine ⟨fun hmem => (nomatch hmem), fun hedge => ?_⟩
    obtain ⟨x, hx'⟩ := (has_iff w inverse e).mp ((hw.present e).mpr ⟨source, hedge⟩)
    rw [hx] at hx'
    cases hx'
  | some x =>
    obtain ⟨members, hvalue, -, hmembers⟩ := hw.members e x hx
    simpa [hvalue, Value.memberList] using hmembers source

/-- The inverses two worlds list alike are exact in both only if the edges are the same. -/
theorem InversesExact.edgeOn_eq (hp : C.Paired edge inverse) {w w' : World α}
    (hw : w.InversesExact C edge inverse) (hw' : w'.InversesExact C edge inverse)
    (hshown : ∀ e, w'.shown inverse e = w.shown inverse e) (e : Entity) :
    w'.edgeOn C edge e = w.edgeOn C edge e := by
  have hsame : ∀ target, w'.edgeOn C edge e = some (inverse, target) ↔
      w.edgeOn C edge e = some (inverse, target) := by
    intro target
    rw [← hw'.mem_membersOn, ← hw.mem_membersOn, membersOn_eq_shown, membersOn_eq_shown, hshown]
  have hinverse : ∀ {u : World α} {q : TypeId × Entity}, u.edgeOn C edge e = some q →
      q.1 = inverse := by
    intro u q hq
    have hrole := Closed.role_edgeOn q hq
    obtain ⟨x, -, hx⟩ := Option.bind_eq_some_iff.mp hq
    unfold Components.relationshipEdge at hx
    rw [hp.role] at hx
    split at hx
    · rename_i inverse' payload hroles _
      cases hx
      exact (Role.edge.inj hroles).symm
    · cases hx
  cases hnew : w'.edgeOn C edge e with
  | some q =>
    obtain rfl := hinverse hnew
    exact ((hsame q.2).mp hnew).symm
  | none =>
    cases hold : w.edgeOn C edge e with
    | none => rfl
    | some q =>
      obtain rfl := hinverse hold
      rw [(hsame q.2).mpr hold] at hnew
      cases hnew

/-- Moving an edge in place, through a shared cell or the live world, leaves no world exact. -/
theorem not_inversesExact_retargetInPlace (hp : C.Paired edge inverse) {w : World α}
    (hw : w.InversesExact C edge inverse) {e : Entity} {v : Value α}
    (hpresent : w.has edge e = true) (hmoved : C.relationshipEdge edge v ≠ w.edgeOn C edge e)
    (writes : List (TypeId × Entity)) :
    ¬ ((w.writeInPlace edge e v).reconcileWritten C writes).InversesExact C edge inverse ∧
      ¬ (w.updateComponent C edge e v).InversesExact C edge inverse := by
  have hne : inverse ≠ edge := by
    rintro rfl
    have hroles := hp.role.symm.trans hp.inverse_role
    cases hroles
  obtain ⟨x, hx⟩ := (has_iff w edge e).mp hpresent
  -- either path shows the new value on the edge and the old inverses
  have hstale : ∀ w' : World α, (∀ t' e', w'.shown t' e' =
      if t' = edge ∧ e' = e then (w.cell? edge e).map fun x => (v, x.owner)
      else w.shown t' e') → ¬ w'.InversesExact C edge inverse := by
    intro w' hshown hw'
    have hinverses : ∀ e', w'.shown inverse e' = w.shown inverse e' := by
      intro e'
      rw [hshown, if_neg]
      exact fun h => hne h.1
    have hsame := hw.edgeOn_eq hp hw' hinverses e
    rw [edgeOn_eq_shown, hshown, if_pos ⟨rfl, rfl⟩, hx] at hsame
    exact hmoved hsame
  constructor
  · refine hstale _ fun t' e' => ?_
    rw [shown_reconcileWritten, shown_writeInPlace]
  · exact hstale _ (shown_updateComponent C w edge e v)

/-- An edge from 1 at 3. -/
def followed : World Nat :=
  ((machine following).run World.new [.base (.insert 5 1 (.data 3))]).getD World.new

theorem followed_inversesExact : followed.InversesExact following 5 6 := by
  have hallowed : (machine following).Allows (fun w op => op.Spares following 5 6 w) World.new
      [.base (.insert 5 1 (.data 3))] := by
    simp only [Machine.Allows, WorldOp.Spares, BaseCommand.Spares]
    exact ⟨by decide, fun _ _ => trivial⟩
  have hrun : (machine following).run World.new [.base (.insert 5 1 (.data 3))] =
      some followed := rfl
  have hreach := Machine.ReachableUnder.run (.init machine_init_new) hallowed hrun
  exact (reachable_maintained following_paired hreach).agrees.exact

theorem followed_retargetInPlace :
    ¬ ((followed.writeInPlace 5 1 (.data 4)).reconcileWritten following [(5, 1)]).InversesExact
        following 5 6 ∧
      ¬ (followed.updateComponent following 5 1 (.data 4)).InversesExact following 5 6 :=
  not_inversesExact_retargetInPlace following_paired followed_inversesExact (by decide) (by decide)
    [(5, 1)]

/-- The edge from 1 moved to 4 through its cell, and reconciled. -/
def writtenInPlace : World Nat :=
  (followed.writeInPlace 5 1 (.data 4)).reconcileWritten following [(5, 1)]

def updatedLive : World Nat := followed.updateComponent following 5 1 (.data 4)

/-- The inverse of the entity the edge no longer points at still lists its source. -/
theorem retargetInPlace_keeps_stale_member :
    followed.InversesExact following 5 6 ∧
      (writtenInPlace.edgeOn following 5 1 = some (6, 4) ∧ writtenInPlace.membersOn 6 3 = [1] ∧
        writtenInPlace.membersOn 6 4 = [] ∧ ¬ writtenInPlace.InversesExact following 5 6) ∧
      updatedLive.edgeOn following 5 1 = some (6, 4) ∧ updatedLive.membersOn 6 3 = [1] ∧
        updatedLive.membersOn 6 4 = [] ∧ ¬ updatedLive.InversesExact following 5 6 := by
  have hstale : ∀ w : World Nat, w.edgeOn following 5 1 = some (6, 4) →
      w.membersOn 6 3 = [1] → ¬ w.InversesExact following 5 6 := by
    intro w hedge hmembers hexact
    have hlisted := (hexact.mem_membersOn 3 1).mp (by rw [hmembers]; decide)
    rw [hedge] at hlisted
    cases hlisted
  exact ⟨followed_inversesExact,
    ⟨by decide, by decide, by decide, hstale _ (by decide) (by decide)⟩,
    by decide, by decide, by decide, hstale _ (by decide) (by decide)⟩

end Retargeting

end World
end Porridge
