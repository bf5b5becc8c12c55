import Porridge.World.Later
import Porridge.World.Stillness

/-! Revisions as version identities: along a run, an entry with a revision from before has the
fingerprint it had then, and its value where it has none. -/
namespace Porridge

variable {α : Type}

namespace World

variable {C : Components α} {w₀ w w' : World α} {pending pending' : List (TypeId × Entity)}

structure Retains (pending : List (TypeId × Entity)) (t : TypeId) (e : Entity) (y x : Entry α) :
    Prop where
  fingerprint : x.fingerprint = y.fingerprint
  entry : x.fingerprint = none → (t, e) ∉ pending → x = y

/-- What revisions identify from `w₀` on: none is shared, an entry that is not pending is stamped with
its own fingerprint, and an entry with an old revision is the old entry. -/
structure Identified (C : Components α) (pending : List (TypeId × Entity)) (w₀ w : World α) :
    Prop where
  coherent : w.Coherent
  revision : w₀.revision ≤ w.revision
  stamped : ∀ t e x, w.cell? t e = some x → (t, e) ∉ pending →
    x.fingerprint = C.fingerprint t x.value
  distinct : ∀ t e x t' e' x', w.cell? t e = some x → w.cell? t' e' = some x' →
    x.revision = x'.revision → t = t' ∧ e = e'
  old : ∀ t e x, w.cell? t e = some x → x.revision ≤ w₀.revision → ∃ y, w₀.cell? t e = some y ∧
    y.revision = x.revision ∧ (C.tracked t = true → Retains pending t e y x)

theorem Identified.restart (h : Identified C pending w₀ w) : Identified C pending w w where
  coherent := h.coherent
  revision := le_rfl
  stamped := h.stamped
  distinct := h.distinct
  old _ _ x hx _ := ⟨x, hx, rfl, fun _ => ⟨rfl, fun _ _ => rfl⟩⟩

theorem Identified.congr (h : Identified C pending w₀ w) (hs : w'.stores = w.stores)
    (hr : w'.revision = w.revision) : Identified C pending w₀ w' where
  coherent := h.coherent.congr hs hr
  revision := hr ▸ h.revision
  stamped t e x hx := h.stamped t e x (by rwa [cell?_congr hs] at hx)
  distinct t e x t' e' x' hx hx' := by
    rw [cell?_congr hs] at hx hx'
    exact h.distinct t e x t' e' x' hx hx'
  old t e x hx := h.old t e x (by rwa [cell?_congr hs] at hx)

/-- More rows may be pending. -/
theorem Identified.mono (h : Identified C pending w₀ w) (hsub : ∀ p ∈ pending, p ∈ pending') :
    Identified C pending' w₀ w where
  coherent := h.coherent
  revision := h.revision
  stamped t e x hx hp := h.stamped t e x hx fun hmem => hp (hsub _ hmem)
  distinct := h.distinct
  old t e x hx hle := by
    obtain ⟨y, hy, hrevision, hretains⟩ := h.old t e x hx hle
    refine ⟨y, hy, hrevision, fun htracked => ⟨(hretains htracked).fingerprint, fun hnone hp => ?_⟩⟩
    exact (hretains htracked).entry hnone fun hmem => hp (hsub _ hmem)

/-- One pair is rebound: it is cleared, or gets a fresh revision, or keeps that of the entry there. -/
theorem Identified.rebind (h : Identified C pending w₀ w) (hw' : w'.Coherent)
    (hr : w.revision ≤ w'.revision) {t : TypeId} {e : Entity} {m : Option (Entry α)}
    (hcell : ∀ t' e', w'.cell? t' e' = if t' = t ∧ e' = e then m else w.cell? t' e')
    (hpending : ∀ p ∈ pending, p ∈ pending' ∨ p = (t, e))
    (hstamped : ∀ x ∈ m, (t, e) ∉ pending' → x.fingerprint = C.fingerprint t x.value)
    (hm : ∀ x ∈ m, w.revision < x.revision ∨ ∃ y, w.cell? t e = some y ∧
      y.revision = x.revision ∧ (C.tracked t = true → x.fingerprint = y.fingerprint ∧
        (x.fingerprint = none → (t, e) ∉ pending' → (t, e) ∉ pending ∧ x = y))) :
    Identified C pending' w₀ w' := by
  have helsewhere : ∀ {t' e'}, ¬ (t' = t ∧ e' = e) → (t', e') ∉ pending' → (t', e') ∉ pending := by
    intro t' e' hne hp hmem
    rcases hpending _ hmem with hmem | heq
    · exact hp hmem
    · cases heq
      exact hne ⟨rfl, rfl⟩
  have hbelow : ∀ t' e' y, w.cell? t' e' = some y → y.revision ≤ w.revision := fun t' e' y hy =>
    (h.coherent.entries t' e' y hy).trans (h.coherent.watermarks t')
  -- a rebound pair shares its revision with no other
  have hapart : ∀ x ∈ m, ∀ t' e' y, w.cell? t' e' = some y → x.revision = y.revision →
      t = t' ∧ e = e' := by
    intro x hx t' e' y hy heq
    rcases hm x hx with hfresh | ⟨z, hz, hkept, -⟩
    · rw [heq] at hfresh
      exact absurd (hbelow t' e' y hy) (not_le.mpr hfresh)
    · exact h.distinct t e z t' e' y hz hy (hkept.trans heq)
  refine ⟨hw', h.revision.trans hr, fun t' e' x hx hp => ?_, fun t₁ e₁ x₁ t₂ e₂ x₂ hx₁ hx₂ heq => ?_,
    fun t' e' x hx hle => ?_⟩
  · rw [hcell] at hx
    split_ifs at hx with hpair
    · obtain ⟨rfl, rfl⟩ := hpair
      exact hstamped x hx hp
    · exact h.stamped t' e' x hx (helsewhere hpair hp)
  · rw [hcell] at hx₁ hx₂
    split_ifs at hx₁ hx₂ with h₁ h₂ h₂
    · exact ⟨h₁.1.trans h₂.1.symm, h₁.2.trans h₂.2.symm⟩
    · obtain ⟨ht, he⟩ := hapart x₁ hx₁ t₂ e₂ x₂ hx₂ heq
      exact ⟨h₁.1.trans ht, h₁.2.trans he⟩
    · obtain ⟨ht, he⟩ := hapart x₂ hx₂ t₁ e₁ x₁ hx₁ heq.symm
      exact ⟨(h₂.1.trans ht).symm, (h₂.2.trans he).symm⟩
    · exact h.distinct t₁ e₁ x₁ t₂ e₂ x₂ hx₁ hx₂ heq
  · rw [hcell] at hx
    split_ifs at hx with hpair
    · obtain ⟨rfl, rfl⟩ := hpair
      rcases hm x hx with hfresh | ⟨y, hy, hkept, hsame⟩
      · exact absurd (hle.trans h.revision) (not_le.mpr hfresh)
      · obtain ⟨y₀, hy₀, hrevision, hretains⟩ := h.old t' e' y hy (hkept ▸ hle)
        refine ⟨y₀, hy₀, hrevision.trans hkept, fun htracked => ?_⟩
        obtain ⟨hfingerprint, hentry⟩ := hsame htracked
        refine ⟨hfingerprint.trans (hretains htracked).fingerprint, fun hnone hp => ?_⟩
        obtain ⟨hbefore, hxy⟩ := hentry hnone hp
        exact hxy.trans ((hretains htracked).entry (hfingerprint ▸ hnone) hbefore)
    · obtain ⟨y, hy, hrevision, hretains⟩ := h.old t' e' x hx hle
      refine ⟨y, hy, hrevision, fun htracked => ⟨(hretains htracked).fingerprint, fun hnone hp => ?_⟩⟩
      exact (hretains htracked).entry hnone (helsewhere hpair hp)

section Effects

theorem Identified.eraseEntry (h : Identified C pending w₀ w) (t : TypeId) (e : Entity) :
    Identified C pending w₀ (w.eraseEntry t e) :=
  h.rebind (h.coherent.eraseEntry t e) (Nat.le_succ _)
    (fun t' e' => cell?_eraseEntry w t t' e e') (fun _ => Or.inl) nofun nofun

theorem Identified.writeEntry (h : Identified C pending w₀ w) (t : TypeId) (e : Entity) (v : Value α)
    (o : Option SystemInvocation) : Identified C pending w₀ (w.writeEntry C t e v o) := by
  have hcoherent := (closed_coherent (C := C)).write w t e v o trivial h.coherent
  have hr : w.revision ≤ (w.writeEntry C t e v o).revision := by
    rw [writeEntry_revision]
    split_ifs
    · exact le_rfl
    · exact Nat.le_succ _
  refine h.rebind hcoherent hr (fun t' e' => cell?_writeEntry C w t t' e e' v o)
    (fun _ => Or.inl) ?_ ?_
  · intro x hx _
    cases hx
    rfl
  · intro x hx
    cases hx
    cases hk : w.keptRevision C t e v with
    | none => exact Or.inl (Nat.lt_succ_self _)
    | some kept =>
      -- a kept revision has found its fingerprint
      have hmatches : w.fingerprintMatches C t e v = true := by
        unfold keptRevision at hk
        split_ifs at hk with hboth
        exact ((Bool.and_eq_true _ _).mp hboth).2
      obtain ⟨y, hy, hfound⟩ := (Option.any_eq_true _ _).mp hmatches
      obtain ⟨hsome, heq⟩ := (Bool.and_eq_true _ _).mp hfound
      obtain ⟨hrevision, -⟩ := of_keptRevision hk
      have hcell : w.cell? t e = some y := hy
      rw [revisionByType, hcell] at hrevision
      have hsame : C.fingerprint t v = y.fingerprint := (eq_of_beq heq).symm
      refine Or.inr ⟨y, hcell, Option.some.inj hrevision, fun _ => ⟨hsame, fun hnone => ?_⟩⟩
      rw [← hsame, show C.fingerprint t v = none from hnone] at hsome
      cases hsome

theorem Identified.eraseEntries (e : Entity) : ∀ (types : List TypeId) {w : World α},
    Identified C pending w₀ w → Identified C pending w₀ (w.eraseEntries types e)
  | [], _, h => h
  | t :: types, _, h => eraseEntries e types (h.eraseEntry t e)

theorem closed_identified (C : Components α) (pending : List (TypeId × Entity)) (w₀ : World α) :
    Closed C (fun w w' => Identified C pending w₀ w → Identified C pending w₀ w') Permits.all where
  refl _ := id
  trans hab hbc := hbc ∘ hab
  bookkeeping hb _ h := h.congr hb.stores hb.revision
  write _ t e v o _ h := h.writeEntry t e v o
  drop w t e remover _ h := by
    unfold dropEntry
    split_ifs
    · rw [(unregisterSingleton_eq C _ t e).choose_spec,
        (disownEntry_eq _ t e (w.owner? t e) remover).choose_spec.choose_spec]
      exact (h.eraseEntry t e).congr rfl rfl
    · exact h
  sweep w t e o _ h := by
    unfold sweepEntry
    split_ifs
    · exact (h.eraseEntry t e).congr rfl rfl
    · exact h
  purge w e _ h := by
    unfold purgeEntity
    dsimp only
    rw [(unindexEntries_eq e (w.ownedOn e) _).choose_spec]
    exact (h.eraseEntries e (w.componentsOn e)).congr rfl rfl
  inverse _ _ _ _ := trivial

/-- The stamp of a restamped row is its own; it may have been pending. -/
theorem Identified.restampEntry (h : Identified C pending w₀ w) (t : TypeId) (e : Entity)
    (v : Value α) (hpending : ∀ p ∈ pending, p ∈ pending' ∨ p = (t, e)) :
    Identified C pending' w₀ (w.restampEntry C t e v) := by
  have hcoherent := h.coherent.restampEntry (C := C) t e v
  cases hx : w.cell? t e with
  | none =>
    have heq : w.restampEntry C t e v = w := by rw [World.restampEntry, hx]
    rw [heq]
    refine h.rebind (m := none) h.coherent le_rfl (fun t' e' => ?_) hpending (by simp) (by simp)
    split_ifs with hpair
    · rw [hpair.1, hpair.2, hx]
    · rfl
  | some x =>
    cases hamends : w.amends C t e v with
    | true =>
      have heq : w.restampEntry C t e v = { w.amendEntry t e
          ⟨x.cell, v, w.revision + 1, C.fingerprint t v, x.owner⟩ (w.revision + 1) with
            revision := w.revision + 1 } := by
        unfold World.restampEntry
        rw [hx]
        exact if_pos hamends
      rw [heq] at hcoherent ⊢
      refine h.rebind hcoherent (Nat.le_succ _) (fun t' e' => cell?_amendEntry w t t' e e' _ _)
        hpending ?_ ?_
      · intro x' hx' _
        cases hx'
        rfl
      · intro x' hx'
        cases hx'
        exact Or.inl (Nat.lt_succ_self _)
    | false =>
      have heq : w.restampEntry C t e v = w.amendEntry t e
          ⟨x.cell, v, x.revision, C.fingerprint t v, x.owner⟩ 0 := by
        unfold World.restampEntry
        rw [hx]
        exact if_neg (by rw [hamends]; exact Bool.false_ne_true)
      rw [heq] at hcoherent ⊢
      refine h.rebind hcoherent le_rfl (fun t' e' => cell?_amendEntry w t t' e e' _ _)
        hpending ?_ ?_
      · intro x' hx' _
        cases hx'
        rfl
      · intro x' hx'
        cases hx'
        refine Or.inr ⟨x, hx, rfl, fun htracked => ?_⟩
        have hkept := fingerprint_of_not_amends hx htracked hamends
        refine ⟨hkept, fun hnone => ?_⟩
        -- a tracked row without a fingerprint is amended
        have hfingerprint : x.fingerprint = none := hkept ▸ hnone
        rw [amends, hx, Option.any_some, htracked, hfingerprint] at hamends
        cases hamends

theorem Identified.writeInPlace (h : Identified C pending w₀ w) (t : TypeId) (e : Entity)
    (v : Value α) : Identified C ((t, e) :: pending) w₀ (w.writeInPlace t e v) := by
  have hcoherent := h.coherent.writeInPlace t e v
  cases hx : w.cell? t e with
  | none =>
    have heq : w.writeInPlace t e v = w := by rw [World.writeInPlace, hx]
    rw [heq]
    exact h.mono fun _ => List.mem_cons_of_mem _
  | some x =>
    have heq : w.writeInPlace t e v = w.amendEntry t e { x with value := v } 0 := by
      rw [World.writeInPlace, hx]
    rw [heq] at hcoherent ⊢
    refine h.rebind hcoherent le_rfl (fun t' e' => cell?_amendEntry w t t' e e' _ _)
      (fun p hp => Or.inl (List.mem_cons_of_mem _ hp)) ?_ ?_
    · exact fun x' _ hp => absurd List.mem_cons_self hp
    · intro x' hx'
      cases hx'
      exact Or.inr ⟨x, hx, rfl, fun _ => ⟨rfl, fun _ hp => absurd List.mem_cons_self hp⟩⟩

theorem Identified.updateComponent (h : Identified C pending w₀ w) (t : TypeId) (e : Entity)
    (v : Value α) : Identified C pending w₀ (w.updateComponent C t e v) := by
  have hstamped := h.restampEntry t e v fun _ => Or.inl
  unfold World.updateComponent
  split_ifs
  · exact hstamped.congr rfl rfl
  · exact hstamped

theorem Identified.reconcileEntry (h : Identified C pending w₀ w) (t : TypeId) (e : Entity)
    (hpending : ∀ p ∈ pending, p ∈ pending' ∨ p = (t, e)) :
    Identified C pending' w₀ (w.reconcileEntry C t e) := by
  unfold World.reconcileEntry
  cases hx : w.cell? t e with
  | none =>
    refine h.rebind (m := none) h.coherent le_rfl (fun t' e' => ?_) hpending nofun nofun
    split_ifs with hpair
    · rw [hpair.1, hpair.2, hx]
    · rfl
  | some x => exact h.restampEntry t e x.value hpending

/-- What was written in place is pending until it is reconciled. -/
theorem Identified.reconcileWritten : ∀ (writes : List (TypeId × Entity))
    {pending : List (TypeId × Entity)} {w : World α}, Identified C pending w₀ w →
      Identified C (pending.filter (· ∉ writes)) w₀ (w.reconcileWritten C writes)
  | [], _, _, h => h.mono fun p hp => List.mem_filter.mpr ⟨hp, by simp⟩
  | (t, e) :: writes, pending, w, h => by
    have hrow : Identified C (pending.filter (· ≠ (t, e))) w₀
        (if t ∈ w.stores then
          { w.reconcileEntry C t e with
            writeLog := (w.reconcileEntry C t e).writeLog ++ [(t, e)] } else w) := by
      have hrest : ∀ p ∈ pending, p ∈ pending.filter (· ≠ (t, e)) ∨ p = (t, e) := by
        intro p hp
        by_cases heq : p = (t, e)
        · exact Or.inr heq
        · exact Or.inl (List.mem_filter.mpr ⟨hp, by simpa using heq⟩)
      have hdone := h.reconcileEntry t e hrest
      split_ifs with hstore
      · exact hdone.congr rfl rfl
      · -- without a store there is no row
        have hnone : w.cell? t e = none := by
          rw [cell?, store, Dict.getD, AList.lookup_eq_none.mpr hstore]
          rfl
        rwa [World.reconcileEntry, hnone] at hdone
    have hrest := reconcileWritten writes hrow
    refine hrest.mono fun p hp => ?_
    obtain ⟨hp, hnot⟩ := List.mem_filter.mp hp
    obtain ⟨hp, hne⟩ := List.mem_filter.mp hp
    refine List.mem_filter.mpr ⟨hp, ?_⟩
    simp only [decide_eq_true_eq] at hnot hne ⊢
    exact fun hmem => (List.mem_cons.mp hmem).elim hne hnot

end Effects

theorem Identified.use (h : Identified C pending w₀ w) {op : WorldOp α}
    (hop : op.amending = false) (hstep : w.apply C op = some w') : Identified C pending w₀ w' := by
  refine apply_of_effects C (closed_identified C pending w₀)
    (fun _ _ hsame hu => hu.congr hsame.stores hsame.revision) (fun hroll => ?_) hop hstep h
  subst hroll
  cases hstep
  unfold maybeRollPlanEpoch
  split_ifs
  · exact h
  · exact h.congr rfl rfl

/-- What is not written in place keeps its identity. -/
theorem Identified.managed (h : Identified C pending w₀ w) (hm : Managed C w w') :
    Identified C pending w₀ w' := by
  refine hm.invariant h fun u op u' hop hstep hu => ?_
  cases hamends : op.amending with
  | false => exact hu.use hamends hstep
  | true =>
    cases op with
    | update t e v =>
      cases hstep
      exact hu.updateComponent t e v
    | writeInPlace t e v => cases hop
    | reconcileWritten writes =>
      cases hstep
      exact (hu.reconcileWritten writes).mono fun p hp => (List.mem_filter.mp hp).1
    | _ => cases hamends

/-- A revision of the later world is one of the earlier, or it was handed out since and is above
them all; no two entries share one. -/
structure FreshRevisions (w w' : World α) : Prop where
  bounded : ∀ t e x, w.cell? t e = some x → x.revision ≤ w.revision
  fresh : ∀ t e x, w'.cell? t e = some x → w.revisionByType t e = some x.revision ∨
    w.revision < x.revision
  distinct : ∀ t e x t' e' x', w'.cell? t e = some x → w'.cell? t' e' = some x' →
    x.revision = x'.revision → t = t' ∧ e = e'

theorem Identified.freshRevisions (h : Identified C pending w w') (hw : w.Coherent) :
    FreshRevisions w w' where
  bounded t e x hx := (hw.entries t e x hx).trans (hw.watermarks t)
  fresh t e x hx := by
    by_cases hold : x.revision ≤ w.revision
    · obtain ⟨y, hy, hrevision, -⟩ := h.old t e x hx hold
      refine Or.inl ?_
      rw [revisionByType, hy, Option.map_some, hrevision]
    · exact Or.inr (not_le.mp hold)
  distinct := h.distinct

/-- Where nothing is pending, entries at one revision have values with one fingerprint, and are the
same entry where they have none. -/
structure SameVersion (C : Components α) (t : TypeId) (x y : Entry α) : Prop where
  fingerprint : C.fingerprint t x.value = C.fingerprint t y.value
  entry : C.fingerprint t x.value = none → x = y

theorem Identified.sameVersion (h : Identified C [] w w') (hw : Identified C [] w₀ w) {t : TypeId}
    {e : Entity} (htracked : C.tracked t = true)
    (hrevision : w.revisionByType t e = w'.revisionByType t e) :
    Option.Rel (SameVersion C t) (w.cell? t e) (w'.cell? t e) := by
  rw [revisionByType, revisionByType] at hrevision
  cases hx : w'.cell? t e with
  | none =>
    rw [hx, Option.map_none, Option.map_eq_none_iff] at hrevision
    rw [hrevision]
    exact .none
  | some x =>
    obtain ⟨y, hy, hyx⟩ := Option.map_eq_some_iff.mp (hrevision.trans (congrArg _ hx))
    have hbelow : x.revision ≤ w.revision := hyx ▸
      (hw.coherent.entries t e y hy).trans (hw.coherent.watermarks t)
    obtain ⟨y', hy', -, hretains⟩ := h.old t e x hx hbelow
    cases hy.symm.trans hy'
    obtain ⟨hfingerprint, hentry⟩ := hretains htracked
    have hstamp : x.fingerprint = C.fingerprint t x.value :=
      h.stamped t e x hx List.not_mem_nil
    have hstamp' : y.fingerprint = C.fingerprint t y.value :=
      hw.stamped t e y hy List.not_mem_nil
    rw [hy]
    refine .some ⟨?_, fun hnone => ?_⟩
    · rw [← hstamp', ← hstamp, hfingerprint]
    · refine (hentry ?_ List.not_mem_nil).symm
      rw [hfingerprint, hstamp', hnone]

end World

/-- The live world beside the rows written in place that wait for their reconciliation; a commit
boundary is where none waits. -/
structure Writing (α : Type) where
  world : World α
  pending : List (TypeId × Entity)

namespace Writing

def pendingAfter (pending : List (TypeId × Entity)) : WorldOp α → List (TypeId × Entity)
  | .writeInPlace t e _ => (t, e) :: pending
  | .reconcileWritten writes => pending.filter (· ∉ writes)
  | _ => pending

def machine (C : Components α) : Machine (Writing α) (WorldOp α) where
  init s := (World.machine C).init s.world ∧ s.pending = []
  step s op := (s.world.apply C op).map fun w' => ⟨w', pendingAfter s.pending op⟩

variable {C : Components α} {w₀ : World α} {s s' : Writing α}

theorem identified_step (h : World.Identified C s.pending w₀ s.world) {op : WorldOp α}
    (hstep : (machine C).step s op = some s') : World.Identified C s'.pending w₀ s'.world := by
  obtain ⟨w', hw', rfl⟩ := Option.map_eq_some_iff.mp hstep
  cases hop : op.amending with
  | false =>
    have hkept : pendingAfter s.pending op = s.pending := by
      cases op <;> first | rfl | cases hop
    dsimp only
    rw [hkept]
    exact h.use hop hw'
  | true =>
    cases op with
    | update t e v =>
      cases hw'
      exact h.updateComponent t e v
    | writeInPlace t e v =>
      cases hw'
      exact h.writeInPlace t e v
    | reconcileWritten writes =>
      cases hw'
      exact World.Identified.reconcileWritten writes h
    | _ => cases hop

theorem identified_of_run {ops : List (WorldOp α)} (h : World.Identified C s.pending w₀ s.world)
    (hrun : (machine C).run s ops = some s') : World.Identified C s'.pending w₀ s'.world :=
  List.foldlM_some_induction (fun s => World.Identified C s.pending w₀ s.world) ops hrun h
    fun _ _ _ _ hs hstep => identified_step hs hstep

/-- Every reachable state identifies its own entries. -/
theorem identified_of_reachable (h : (machine C).Reachable s) :
    World.Identified C s.pending s.world s.world := by
  have hsome : ∃ w₀, World.Identified C s.pending w₀ s.world := by
    refine h.invariant (fun s => ∃ w₀, World.Identified C s.pending w₀ s.world) ?_
      fun s op s' hs _ hstep => hs.imp fun w₀ hw₀ => identified_step hw₀ hstep
    intro s hinit
    obtain ⟨⟨schema, hw⟩, hpending⟩ := hinit
    refine ⟨s.world, ?_⟩
    rw [hw]
    exact ⟨World.coherent_ofSchema schema, le_rfl, nofun, nofun, nofun⟩
  exact hsome.choose_spec.restart

end Writing
end Porridge
