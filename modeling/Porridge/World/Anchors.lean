import Porridge.World.Anchoring
import Porridge.World.Storage
import Porridge.World.Traces

/-! What a captured `DerivedFrom` fact can tell about its anchors. -/
namespace Porridge

variable {α : Type} (C : Components α)

def isCurrentRevision (anchors : List DerivedAnchor) (revision : Entity → Option Revision) : Bool :=
  !anchors.isEmpty && anchors.all fun a => a.revision.isSome && a.revision == revision a.entity

namespace Effect

/-- The row an effect removes on its own: a purge takes every component of its entity. -/
def removes (w : World α) : Effect α → Option (TypeId × Entity)
  | drop t e _ => if w.has t e = true then some (t, e) else none
  | sweep t e o => if w.owner? t e = some o then some (t, e) else none
  | _ => none

def puts : Effect α → Option (TypeId × Entity × Value α)
  | write t e v _ | restamp t e v | writeInPlace t e v => some (t, e, v)
  | _ => none

end Effect

namespace World

/-- The anchors with the revisions their entities have now. -/
def captured (w : World α) (anchors : List DerivedAnchor) : List DerivedAnchor :=
  anchors.map fun a => { a with revision := w.entityRevision C a.entity }

theorem capture_derivedFrom (w : World α) (anchors : List DerivedAnchor) :
    w.capture C (.derivedFrom anchors) = .derivedFrom (w.captured C anchors) := rfl

/-- The newest revision among the other tracked components of an entity. -/
def revisionWithout (w : World α) (t : TypeId) (e : Entity) : Option Revision :=
  (((w.stores.keys.filter C.tracked).filter (· ≠ t)).filterMap fun t' => w.revisionByType t' e).max?

/-- Another value than the one that is stored, with its fingerprint. -/
def Collides (w : World α) (t : TypeId) (e : Entity) (v : Value α) : Prop :=
  ∃ y, w.cell? t e = some y ∧ v ≠ y.value ∧ (C.fingerprint t v).isSome = true ∧
    C.fingerprint t v = C.fingerprint t y.value

/-- A removal from `e` leaves a newest revision that was not captured in `w₀`, and a new value shares
no fingerprint with the captured one. -/
structure Telling (w₀ : World α) (e : Entity) (w : World α) (i : Effect α) : Prop where
  removed : ∀ t, i.removes w = some (t, e) → C.tracked t = true →
    ∀ r, w₀.entityRevision C e = some r → w.revisionWithout C t e ≠ some r
  written : ∀ t v, i.puts = some (t, e, v) → C.tracked t = true → ¬ w₀.Collides C t e v

end World

/-- The tracked components of `e` are those of the first state; their values are, where neither
state has a write in place waiting. -/
structure Writing.SameComponents (s u : Writing α) (e : Entity) : Prop where
  present : ∀ t, C.tracked t = true → u.world.has t e = s.world.has t e
  fingerprint : ∀ t, C.tracked t = true → u.world.fingerprintOn t e = s.world.fingerprintOn t e
  value : ∀ t, C.tracked t = true → (t, e) ∉ s.pending → (t, e) ∉ u.pending →
    (u.world.cell? t e).map Entry.value = (s.world.cell? t e).map Entry.value

namespace World

variable {C} {w₀ w w' : World α} {t : TypeId} {e a : Entity} {r : Revision}

section Newest

theorem mem_revisionsWithout (w : World α) (t : TypeId) (e : Entity) (r : Revision) :
    r ∈ ((w.stores.keys.filter C.tracked).filter (· ≠ t)).filterMap (fun t' => w.revisionByType t' e) ↔
      ∃ t', C.tracked t' = true ∧ t' ≠ t ∧ w.revisionByType t' e = some r := by
  rw [List.mem_filterMap]
  constructor
  · rintro ⟨t', ht', hr⟩
    obtain ⟨ht', hne⟩ := List.mem_filter.mp ht'
    exact ⟨t', (List.mem_filter.mp ht').2, of_decide_eq_true hne, hr⟩
  · rintro ⟨t', htracked, hne, hr⟩
    obtain ⟨x, hx, -⟩ := Option.map_eq_some_iff.mp hr
    have hkey := mem_keys_stores_of_has ((has_iff w t' e).mpr ⟨x, hx⟩)
    exact ⟨t', List.mem_filter.mpr ⟨List.mem_filter.mpr ⟨hkey, htracked⟩, decide_eq_true hne⟩, hr⟩

/-- The entity revision bounds the revision of every tracked component. -/
theorem le_entityRevision (h : w.entityRevision C e = some r) (ht : C.tracked t = true)
    {b : Revision} (hb : w.revisionByType t e = some b) : b ≤ r :=
  (List.max?_eq_some_iff.mp h).2 b ((mem_entityRevisions C w e b).mpr ⟨t, ht, hb⟩)

theorem exists_of_entityRevision (h : w.entityRevision C e = some r) :
    ∃ t, C.tracked t = true ∧ w.revisionByType t e = some r :=
  (mem_entityRevisions C w e r).mp (List.max?_mem h)

theorem entityRevision_congr (h : ∀ t, C.tracked t = true →
    w'.revisionByType t e = w.revisionByType t e) : w'.entityRevision C e = w.entityRevision C e := by
  refine max?_congr_mem fun b => ?_
  rw [mem_entityRevisions, mem_entityRevisions]
  refine exists_congr fun t => and_congr_right fun ht => ?_
  rw [h t ht]

/-- Without the component, the entity has the revision of the others. -/
theorem entityRevision_removed (hgone : w'.revisionByType t e = none)
    (hothers : ∀ t', t' ≠ t → w'.revisionByType t' e = w.revisionByType t' e) :
    w'.entityRevision C e = w.revisionWithout C t e := by
  refine max?_congr_mem fun b => ?_
  rw [mem_entityRevisions, mem_revisionsWithout]
  constructor
  · rintro ⟨t', htracked, hb⟩
    have hne : t' ≠ t := by
      rintro rfl
      rw [hgone] at hb
      cases hb
    exact ⟨t', htracked, hne, hothers t' hne ▸ hb⟩
  · rintro ⟨t', htracked, hne, hb⟩
    exact ⟨t', htracked, (hothers t' hne).trans hb⟩

end Newest

end World

namespace Effect

variable {C} {w w' : World α} {t : TypeId} {e : Entity}

inductive OnRow (C : Components α) (w : World α) (i : Effect α) (t : TypeId) (e : Entity) : Prop where
  | untouched (h : (i.take C w).cell? t e = w.cell? t e)
  | purged (h : i = .purge e)
  | removed (h : i.removes w = some (t, e)) (hgone : (i.take C w).cell? t e = none)
      (hothers : ∀ t', t' ≠ t → (i.take C w).cell? t' e = w.cell? t' e)
  | rewritten {x : Entry α} (h : (i.take C w).cell? t e = some x)
      (hrevision : w.revisionByType t e = some x.revision ∨ x.revision = w.revision + 1)
      (hvalue : (w.cell? t e).map Entry.value = some x.value ∨ i.puts = some (t, e, x.value))

theorem onRow_restampEntry (w : World α) (t' t : TypeId) (e' e : Entity) (v : Value α) :
    (w.restampEntry C t' e' v).cell? t e = w.cell? t e ∨ (t = t' ∧ e = e' ∧
      ∃ x, (w.restampEntry C t' e' v).cell? t e = some x ∧ x.value = v ∧
        (w.revisionByType t e = some x.revision ∨ x.revision = w.revision + 1)) := by
  unfold World.restampEntry
  cases hx : w.cell? t' e' with
  | none => exact Or.inl rfl
  | some x =>
    dsimp only
    by_cases hrow : t = t' ∧ e = e'
    · obtain ⟨rfl, rfl⟩ := hrow
      refine Or.inr ⟨rfl, rfl, ?_⟩
      split_ifs
      · exact ⟨_, (World.cell?_amendEntry w t t e e _ _).trans (if_pos ⟨rfl, rfl⟩), rfl, Or.inr rfl⟩
      · refine ⟨_, (World.cell?_amendEntry w t t e e _ _).trans (if_pos ⟨rfl, rfl⟩), rfl, Or.inl ?_⟩
        rw [World.revisionByType, hx]
        rfl
    · left
      split_ifs
      · exact (World.cell?_amendEntry w t' t e' e _ _).trans (if_neg hrow)
      · exact (World.cell?_amendEntry w t' t e' e _ _).trans (if_neg hrow)

theorem onRow (C : Components α) (w : World α) (i : Effect α) (t : TypeId) (e : Entity) :
    OnRow C w i t e := by
  cases i with
  | write t' e' v o =>
    have hcell := World.cell?_writeEntry C w t' t e' e v o
    by_cases hrow : t = t' ∧ e = e'
    · rw [if_pos hrow] at hcell
      obtain ⟨rfl, rfl⟩ := hrow
      refine .rewritten hcell ?_ (Or.inr rfl)
      cases hk : w.keptRevision C t e v with
      | none => exact Or.inr rfl
      | some kept => exact Or.inl (World.of_keptRevision hk).1
    · rw [if_neg hrow] at hcell
      exact .untouched hcell
  | drop t' e' remover =>
    have hcell := fun t => World.cell?_dropEntry C w t' t e' e remover
    by_cases hrow : t = t' ∧ e = e'
    · obtain ⟨rfl, rfl⟩ := hrow
      have hgone := (hcell t).trans (if_pos ⟨rfl, rfl⟩)
      cases hhas : w.has t e with
      | true =>
        refine .removed (if_pos hhas) hgone fun t' hne => (hcell t').trans (if_neg ?_)
        exact fun hsame => hne hsame.1
      | false =>
        have hnone : w.cell? t e = none := by simpa [World.has] using hhas
        exact .untouched (hgone.trans hnone.symm)
    · exact .untouched ((hcell t).trans (if_neg hrow))
  | sweep t' e' o =>
    have hcell := fun t => World.cell?_sweepEntry w t' t e' e o
    by_cases hrow : t = t' ∧ e = e' ∧ w.owner? t' e' = some o
    · obtain ⟨rfl, rfl, ho⟩ := hrow
      refine .removed (if_pos ho) ((hcell t).trans (if_pos ⟨rfl, rfl, ho⟩)) fun t' hne =>
        (hcell t').trans (if_neg ?_)
      exact fun hsame => hne hsame.1
    · exact .untouched ((hcell t).trans (if_neg hrow))
  | purge e' =>
    have hcell := World.cell?_purgeEntity w e' e t
    by_cases he : e = e'
    · exact .purged (by rw [he])
    · exact .untouched (hcell.trans (if_neg he))
  | restamp t' e' v =>
    rcases onRow_restampEntry (C := C) w t' t e' e v with hsame | ⟨rfl, rfl, x, hx, hv, hrevision⟩
    · exact .untouched hsame
    · exact .rewritten hx hrevision (Or.inr (by rw [puts, hv]))
  | reconcile t' e' =>
    cases hx : w.cell? t' e' with
    | none => exact .untouched (by rw [take, World.reconcileEntry, hx])
    | some y =>
      have heq : (reconcile t' e').take C w = w.restampEntry C t' e' y.value := by
        rw [take, World.reconcileEntry, hx]
      rcases onRow_restampEntry (C := C) w t' t e' e y.value with
        hsame | ⟨rfl, rfl, x, hcell, hv, hrevision⟩
      · exact .untouched (heq ▸ hsame)
      · exact .rewritten (heq ▸ hcell) hrevision (Or.inl (by rw [hx, hv]; rfl))
  | writeInPlace t' e' v =>
    cases hx : w.cell? t' e' with
    | none => exact .untouched (by rw [take, World.writeInPlace, hx])
    | some y =>
      have heq : (writeInPlace t' e' v).take C w = w.amendEntry t' e' { y with value := v } 0 := by
        rw [take, World.writeInPlace, hx]
      have hcell := World.cell?_amendEntry w t' t e' e { y with value := v } 0
      rw [← heq] at hcell
      by_cases hrow : t = t' ∧ e = e'
      · rw [if_pos hrow] at hcell
        obtain ⟨rfl, rfl⟩ := hrow
        exact .rewritten hcell (Or.inl (by rw [World.revisionByType, hx]; rfl)) (Or.inr rfl)
      · rw [if_neg hrow] at hcell
        exact .untouched hcell
  | books u => exact .untouched rfl

end Effect

namespace World

variable {C}

/-- An effect that leaves the captured revision the newest of the entity has moved no tracked
component of it. -/
theorem revisions_of_take {w₀ w : World α} {e : Entity} {i : Effect α} {r : Revision}
    (hr : w₀.entityRevision C e = some r) (hbelow : r ≤ w.revision)
    (htelling : Telling C w₀ e w i) (hnow : (i.take C w).entityRevision C e = some r)
    {t : TypeId} (ht : C.tracked t = true) :
    (i.take C w).revisionByType t e = w.revisionByType t e := by
  cases Effect.onRow C w i t e with
  | untouched h => rw [revisionByType, h, revisionByType]
  | purged h =>
    obtain ⟨t', -, hr'⟩ := exists_of_entityRevision hnow
    rw [h, revisionByType, Effect.take, cell?_purgeEntity, if_pos rfl] at hr'
    cases hr'
  | removed h hgone hothers =>
    have hleft : (i.take C w).entityRevision C e = w.revisionWithout C t e := by
      apply entityRevision_removed
      · rw [revisionByType, hgone, Option.map_none]
      · intro t' hne
        rw [revisionByType, hothers t' hne, revisionByType]
    exact absurd (hleft.symm.trans hnow) (htelling.removed t h ht r hr)
  | @rewritten x h hrevision _ =>
    have hstored : (i.take C w).revisionByType t e = some x.revision := by
      rw [revisionByType, h, Option.map_some]
    rcases hrevision with hkept | hfresh
    · rw [hstored, hkept]
    · have hle := le_entityRevision hnow ht hstored
      have hlt : r < x.revision := hfresh ▸ Nat.lt_succ_of_le hbelow
      exact absurd hle (not_le.mpr hlt)

/-- What is stored on `e` shares no fingerprint with another captured value. -/
def Distinguished (C : Components α) (w₀ : World α) (e : Entity) (w : World α) : Prop :=
  ∀ t x, C.tracked t = true → w.cell? t e = some x → ¬ w₀.Collides C t e x.value

theorem Distinguished.refl (w : World α) (e : Entity) : Distinguished C w e w := by
  rintro t x - hx ⟨y, hy, hne, -⟩
  cases hx.symm.trans hy
  exact hne rfl

theorem Distinguished.take {w₀ w : World α} {e : Entity} {i : Effect α}
    (h : Distinguished C w₀ e w) (htelling : Telling C w₀ e w i) :
    Distinguished C w₀ e (i.take C w) := by
  intro t x ht hx
  cases Effect.onRow C w i t e with
  | untouched hsame => exact h t x ht (hsame ▸ hx)
  | purged hpurge =>
    rw [hpurge, Effect.take, cell?_purgeEntity, if_pos rfl] at hx
    cases hx
  | removed _ hgone _ =>
    rw [hgone] at hx
    cases hx
  | rewritten hcell _ hvalue =>
    cases hcell.symm.trans hx
    rcases hvalue with hkept | hput
    · obtain ⟨y, hy, heq⟩ := Option.map_eq_some_iff.mp hkept
      exact heq ▸ h t y ht hy
    · exact htelling.written t x.value hput ht

end World

namespace Writing

variable {C} {s₀ s u : Writing α} {w₀ : World α} {e : Entity} {r : Revision}

/-- Along a run that ends with the captured revision, no tracked component of the entity moves. -/
theorem revisions_of_run (hr : w₀.entityRevision C e = some r) : ∀ {labels : List (Effect α)}
    {u : Writing α}, World.Identified C u.pending w₀ u.world → r ≤ w₀.revision →
    (effects C).Allows (fun u i => World.Telling C w₀ e u.world i) u labels →
    (effects C).run u labels = some s → s.world.entityRevision C e = some r →
      u.world.entityRevision C e = some r ∧
        ∀ t, C.tracked t = true → s.world.revisionByType t e = u.world.revisionByType t e
  | [], u, _, _, _, hrun, hnow => by
    cases hrun
    exact ⟨hnow, fun _ _ => rfl⟩
  | i :: labels, u, hu, hbelow, hallowed, hrun, hnow => by
    have hrest : (effects C).run ⟨i.take C u.world, i.waiting u.pending⟩ labels = some s := hrun
    obtain ⟨hnewest, hkept⟩ := revisions_of_run hr (identified_effect hu rfl) hbelow
      (hallowed.2 _ rfl) hrest hnow
    have hstep := fun t (ht : C.tracked t = true) =>
      World.revisions_of_take hr (hbelow.trans hu.revision) hallowed.1 hnewest ht
    refine ⟨(World.entityRevision_congr hstep).symm.trans hnewest, fun t ht => ?_⟩
    exact (hkept t ht).trans (hstep t ht)

theorem distinguished_of_run : ∀ {labels : List (Effect α)} {u : Writing α},
    World.Distinguished C w₀ e u.world →
    (effects C).Allows (fun u i => World.Telling C w₀ e u.world i) u labels →
    (effects C).run u labels = some s → World.Distinguished C w₀ e s.world
  | [], _, h, _, hrun => by
    cases hrun
    exact h
  | i :: labels, u, h, hallowed, hrun => by
    have hrest : (effects C).run ⟨i.take C u.world, i.waiting u.pending⟩ labels = some s := hrun
    exact distinguished_of_run (h.take hallowed.1) (hallowed.2 _ rfl) hrest

/-- Rows at one revision are the same component, where no write in place waits. -/
theorem sameComponents_of_revisions (hu : World.Identified C u.pending s.world u.world)
    (hs : World.Identified C s.pending s.world s.world)
    (hdistinct : World.Distinguished C s.world e u.world)
    (h : ∀ t, C.tracked t = true → u.world.revisionByType t e = s.world.revisionByType t e) :
    SameComponents C s u e := by
  have hrow : ∀ t, C.tracked t = true →
      (u.world.cell? t e = none ∧ s.world.cell? t e = none) ∨
        ∃ x y, u.world.cell? t e = some x ∧ s.world.cell? t e = some y ∧
          World.Retains u.pending t e y x := by
    intro t ht
    have hrevision := h t ht
    rw [World.revisionByType, World.revisionByType] at hrevision
    cases hx : u.world.cell? t e with
    | none =>
      rw [hx, Option.map_none, eq_comm, Option.map_eq_none_iff] at hrevision
      exact Or.inl ⟨rfl, hrevision⟩
    | some x =>
      rw [hx, Option.map_some, eq_comm] at hrevision
      obtain ⟨y, hy, hyx⟩ := Option.map_eq_some_iff.mp hrevision
      have hold : x.revision ≤ s.world.revision := hyx ▸
        (hs.coherent.entries t e y hy).trans (hs.coherent.watermarks t)
      obtain ⟨y', hy', -, hretains⟩ := hu.old t e x hx hold
      cases hy.symm.trans hy'
      exact Or.inr ⟨x, y, rfl, hy, hretains ht⟩
  refine ⟨fun t ht => ?_, fun t ht => ?_, fun t ht hwaits hwaits' => ?_⟩
  · rcases hrow t ht with ⟨hx, hy⟩ | ⟨x, y, hx, hy, -⟩
    · rw [World.has, hx, World.has, hy]
    · rw [World.has, hx, World.has, hy]
      rfl
  · rcases hrow t ht with ⟨hx, hy⟩ | ⟨x, y, hx, hy, hretains⟩
    · rw [World.fingerprintOn, hx, World.fingerprintOn, hy]
    · rw [World.fingerprintOn, hx, World.fingerprintOn, hy]
      exact hretains.fingerprint
  · rcases hrow t ht with ⟨hx, hy⟩ | ⟨x, y, hx, hy, hretains⟩
    · rw [hx, hy]
    · have hstamp : x.fingerprint = C.fingerprint t x.value := hu.stamped t e x hx hwaits'
      have hstamp' : y.fingerprint = C.fingerprint t y.value := hs.stamped t e y hy hwaits
      rw [hx, hy, Option.map_some, Option.map_some]
      cases hf : x.fingerprint with
      | none => rw [hretains.entry hf hwaits']
      | some f =>
        by_contra hne
        refine hdistinct t x ht hx ⟨y, hy, fun heq => hne (congrArg some heq), ?_, ?_⟩
        · rw [← hstamp, hf]
          rfl
        · rw [← hstamp, hretains.fingerprint, hstamp']

/-- While removals from an anchor leave newest revisions that were not captured, no effect has
touched the anchors of a current fact. -/
theorem current_unchanged {anchors : List DerivedAnchor} {labels : List (Effect α)}
    (hs₀ : (effects C).Reachable s₀) (hrun : (effects C).run s₀ labels = some s)
    (hallowed : (effects C).Allows
      (fun u i => ∀ a ∈ anchors, World.Telling C s₀.world a.entity u.world i) s₀ labels)
    (hcurrent : isCurrentRevision (s₀.world.captured C anchors) (s.world.entityRevision C) = true) :
    ∀ a ∈ anchors, ∀ before after u, labels = before ++ after →
      (effects C).run s₀ before = some u → SameComponents C s₀ u a.entity := by
  intro a ha before after u hlabels hbefore
  have hidentified := identified_of_traced hs₀
  obtain ⟨hsome, heq⟩ : (s₀.world.entityRevision C a.entity).isSome = true ∧
      s₀.world.entityRevision C a.entity = s.world.entityRevision C a.entity := by
    have hall := List.all_eq_true.mp ((Bool.and_eq_true _ _).mp hcurrent).2
    have hone := hall _ (List.mem_map_of_mem ha)
    obtain ⟨hsome, heq⟩ := (Bool.and_eq_true _ _).mp hone
    exact ⟨hsome, eq_of_beq heq⟩
  obtain ⟨r, hr⟩ := Option.isSome_iff_exists.mp hsome
  have hbelow : r ≤ s₀.world.revision := by
    obtain ⟨t, -, hstored⟩ := World.exists_of_entityRevision hr
    obtain ⟨x, hx, rfl⟩ := Option.map_eq_some_iff.mp hstored
    exact (hidentified.coherent.entries t a.entity x hx).trans (hidentified.coherent.watermarks t)
  have htelling := Machine.Allows.imp (fun _ _ h => h a ha) hallowed
  subst hlabels
  obtain ⟨hfirst, hsecond⟩ := htelling.split
  have hu := identified_of_effects hidentified hbefore
  have hafter : (effects C).run u after = some s := by
    rw [Machine.run_append, hbefore, Option.bind_some] at hrun
    exact hrun
  obtain ⟨hmiddle, -⟩ := revisions_of_run hr hu hbelow (hsecond u hbefore) hafter (heq ▸ hr)
  obtain ⟨-, hkept⟩ := revisions_of_run hr hidentified hbelow hfirst hbefore hmiddle
  exact sameComponents_of_revisions hu hidentified
    (distinguished_of_run (.refl _ _) hfirst hbefore) hkept

/-- Two components on entity 0. -/
def anchored : Writing Nat :=
  ((effects World.derivedFacts).run ⟨World.new, []⟩
    [.write 1 0 (.data 7) none, .write 2 0 (.data 8) none]).getD ⟨World.new, []⟩

/-- A component of entity 1 comes and goes. -/
def passing : List (Effect Nat) := [.write 1 1 (.data 9) none, .drop 1 1 none]

/-- A fact about entity 0 stays current while nothing there changes. -/
theorem passing_unchanged : ∃ s, (effects World.derivedFacts).run anchored passing = some s ∧
    isCurrentRevision (anchored.world.captured World.derivedFacts [⟨0, none⟩])
      (s.world.entityRevision World.derivedFacts) = true ∧
      SameComponents World.derivedFacts anchored s 0 := by
  have hreached : (effects World.derivedFacts).Reachable anchored := by
    have hstart : (effects World.derivedFacts).Reachable ⟨World.new, []⟩ :=
      .init ⟨World.machine_init_new, rfl⟩
    have hrun : (effects World.derivedFacts).run ⟨World.new, []⟩
        [.write 1 0 (.data 7) none, .write 2 0 (.data 8) none] = some anchored := rfl
    exact Machine.Reachable.run hstart hrun
  have htelling : ∀ (w : World Nat), ∀ i ∈ passing, ∀ a ∈ [(⟨0, none⟩ : DerivedAnchor)],
      World.Telling World.derivedFacts anchored.world a.entity w i := by
    intro w i hi a ha
    obtain rfl := List.mem_singleton.mp ha
    constructor
    · intro t ht
      have hother : i.removes w ≠ some (t, 0) := by
        rcases List.mem_cons.mp hi with rfl | hi
        · nofun
        · obtain rfl := List.mem_singleton.mp hi
          simp [Effect.removes]
      exact absurd ht hother
    · rintro t v - - ⟨y, -, -, hsome, -⟩
      cases hsome
  have hallowed : (effects World.derivedFacts).Allows (fun u i => ∀ a ∈ [(⟨0, none⟩ : DerivedAnchor)],
      World.Telling World.derivedFacts anchored.world a.entity u.world i) anchored passing :=
    ⟨htelling _ _ List.mem_cons_self, fun s' _ =>
      ⟨htelling _ _ (List.mem_cons_of_mem _ List.mem_cons_self), fun _ _ => trivial⟩⟩
  refine ⟨_, rfl, by decide, ?_⟩
  exact current_unchanged hreached rfl hallowed (by decide) ⟨0, none⟩ List.mem_cons_self passing [] _
    rfl rfl

/-- The fact about entity 0, whose newest component stays, is current after the older one is removed;
and after another one has come and gone. -/
theorem removal_unnoticed :
    let facts : List (WorldOp Nat) := [.base (.insert 1 0 (.data 7)), .base (.insert 2 0 (.data 8)),
      .base (.insert 5 1 (.derivedFrom [⟨0, none⟩])), .flush]
    ∃ w u v, (World.machine World.derivedFacts).run World.new facts = some w ∧
      (w.cell? 5 1).map Entry.value = some (.derivedFrom [⟨0, some 2⟩]) ∧
      (World.machine World.derivedFacts).run w [.base (.removeComponent 1 0)] = some u ∧
      isCurrentRevision [⟨0, some 2⟩] (u.entityRevision World.derivedFacts) = true ∧
      w.has 1 0 = true ∧ u.has 1 0 = false ∧
      (World.machine World.derivedFacts).run w
        [.base (.insert 3 0 (.data 9)), .base (.removeComponent 3 0)] = some v ∧
      isCurrentRevision [⟨0, some 2⟩] (v.entityRevision World.derivedFacts) = true :=
  ⟨_, _, _, rfl, by decide, rfl, by decide, by decide, by decide, rfl, by decide⟩

end Writing
end Porridge
