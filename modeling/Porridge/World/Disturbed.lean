import Porridge.World.Fate
import Porridge.World.Sparing
import Porridge.World.Teardown

/-! What changes the revision of an entity: a stamp on one of its tracked components, or the loss of
the newest of them. -/
namespace Porridge

variable {α : Type} (C : Components α)

namespace World

/-- `w` is `w₀` without some of the entries that may be lost, their inverses adjusted. -/
structure Sheds (lost : TypeId → Entity → Prop) (w₀ w : World α) : Prop where
  cell : ∀ t e, w.cell? t e = w₀.cell? t e ∨ (lost t e ∧ w.cell? t e = none) ∨
    ∃ t' e', lost t' e' ∧ w₀.edgeOn C t' e' = some (t, e)
  plain : ∀ t e, ¬ C.IsInverse t → w.cell? t e = w₀.cell? t e ∨ w.cell? t e = none
  has : ∀ t e, w.has t e = true → w₀.has t e = true
  owner : ∀ t e o, w.owner? t e = some o → w₀.owner? t e = some o

/-- Losing the entries takes the newest tracked component of the entity, or an edge that a tracked
inverse of it lists. -/
def Bereaves (w : World α) (lost : TypeId → Entity → Prop) (a : Entity) : Prop :=
  ∃ t, C.tracked t = true ∧
    ((lost t a ∧ ∃ r, w.revisionByType t a = some r ∧ w.entityRevision C a = some r) ∨
      ∃ t' e', lost t' e' ∧ w.edgeOn C t' e' = some (t, a))

/-- Inserting the value stamps a tracked component of the entity, or moves an edge that points at it. -/
def InsertDisturbs (w : World α) (t : TypeId) (e : Entity) (v : Value α) (a : Entity) : Prop :=
  (e = a ∧ C.tracked t = true ∧ w.keptRevision C t e (w.capture C v) = none) ∨
    let edge := C.relationshipEdge t (w.capture C v)
    (w.edgeOn C t e).map Prod.snd ≠ edge.map Prod.snd ∧
      ∃ t', C.tracked t' = true ∧ (w.edgeOn C t e = some (t', a) ∨ edge = some (t', a))

def BundleDisturbs (w : World α) (o : SystemInvocation) (target : Entity)
    (bundle : List (TypeId × Value α)) (a : Entity) : Prop :=
  List.history (fun w p => w.insert C p.1 target p.2 (some o))
    (fun w p disturbed => disturbed ∨ w.InsertDisturbs C p.1 target p.2 a) bundle w False

end World

/-- The command changes the revision of the entity when its turn comes. -/
def Command.Disturbs (w : World α) (o : SystemInvocation) (a : Entity) : Command α → Prop
  | .insert t e v => w.InsertDisturbs C t e v a
  | .spawn bundle reserved =>
    match World.bundleSingletonKey C bundle with
    | none => False
    | some key =>
      let (target, w) := w.spawnTarget reserved key
      (w.recordDerivedSpawn o target).BundleDisturbs C o target bundle a
  | .removeEntity x => w.Bereaves C (fun t e => e = x ∨ (t, e) ∈ w.retractionsOn C x) a
  | .removeComponent t e => w.Bereaves C (fun t' e' => t' = t ∧ e' = e) a

namespace World

def CommandsDisturb (w : World α) (o : SystemInvocation) (commands : List (Command α)) (a : Entity) :
    Prop :=
  List.history (fun w c => c.apply C w o) (fun w c disturbed => disturbed ∨ c.Disturbs C w o a)
    commands w False

/-- The sweep after the buffer of an output takes the newest component of the entity, or an edge that
points at it. -/
def SweepDisturbs (w : World α) (output : SystemOutput α) (deferInserts : Bool) (a : Entity) : Prop :=
  ∃ applied flushed, (w.takeDerivedOutputs output.owner).2.applyCommands C output.owner
      (output.immediate deferInserts) = some applied ∧ applied.flushDerivedFrom C = some flushed ∧
    flushed.Bereaves C (fun t e => (t, e) ∈ w.outputs output.owner ∧
      (t, e) ∉ flushed.outputs output.owner ∧ flushed.owner? t e = some output.owner) a

def OutputsDisturb (w : World α) (outputs : List (SystemOutput α)) (deferInserts : Bool)
    (a : Entity) : Prop :=
  List.history (fun w output => w.applyOutput C output deferInserts)
    (fun w output disturbed => disturbed ∨
      (w.takeDerivedOutputs output.owner).2.CommandsDisturb C output.owner
        (output.immediate deferInserts) a ∨
      w.SweepDisturbs C output deferInserts a) outputs w False

/-- A run has changed in place what a tracked component of the entity holds. -/
def WritesDisturb (w : World α) (writes : List (TypeId × Entity)) (a : Entity) : Prop :=
  ∃ t, (t, a) ∈ writes ∧ (w.cell? t a).any (fun x => w.amends C t a x.value) = true

variable {C} {w₀ w w' u : World α} {t : TypeId} {e a : Entity} {o : SystemInvocation}
  {lost : TypeId → Entity → Prop}

section Losses

theorem Sheds.refl (w : World α) : Sheds C lost w w :=
  ⟨fun _ _ => Or.inl rfl, fun _ _ _ => Or.inl rfl, fun _ _ => id, fun _ _ _ => id⟩

/-- Taking entries that may be lost sheds them. -/
theorem Sheds.erase (h : Sheds C lost w₀ w)
    (hcell : ∀ t e, w'.cell? t e = w.cell? t e ∨ (lost t e ∧ w'.cell? t e = none)) :
    Sheds C lost w₀ w' := by
  constructor
  · intro t e
    rcases hcell t e with hsame | hgone
    · rw [hsame]
      exact h.cell t e
    · exact Or.inr (Or.inl hgone)
  · intro t e ht
    rcases hcell t e with hsame | hgone
    · rw [hsame]
      exact h.plain t e ht
    · exact Or.inr hgone.2
  · intro t e hhas
    rcases hcell t e with hsame | hgone
    · rw [World.has, hsame] at hhas
      exact h.has t e hhas
    · rw [World.has, hgone.2] at hhas
      cases hhas
  · intro t e o ho
    rcases hcell t e with hsame | hgone
    · rw [owner?, hsame] at ho
      exact h.owner t e o ho
    · rw [owner?, hgone.2] at ho
      cases ho

theorem Sheds.congr (h : Sheds C lost w₀ w) (hs : w'.stores = w.stores) : Sheds C lost w₀ w' :=
  h.erase fun t e => Or.inl (cell?_congr hs t e)

theorem Sheds.mono {lost' : TypeId → Entity → Prop} (h : Sheds C lost w₀ w)
    (hlost : ∀ t e, lost t e → lost' t e) : Sheds C lost' w₀ w where
  cell t e := (h.cell t e).imp_right fun hgone => hgone.imp (And.imp_left (hlost t e))
    fun ⟨t', e', hedge⟩ => ⟨t', e', hlost t' e' hedge.1, hedge.2⟩
  plain := h.plain
  has := h.has
  owner := h.owner

/-- Edges that are left are edges from before. -/
theorem Sheds.edgeOn (h : Sheds C lost w₀ w) {p : TypeId × Entity} (hp : w.edgeOn C t e = some p) :
    w₀.edgeOn C t e = some p := by
  rcases h.plain t e (not_isInverse_of_edgeOn hp) with hsame | hnone
  · rw [World.edgeOn, ← hsame]
    exact hp
  · rw [World.edgeOn, hnone] at hp
    cases hp

theorem Sheds.trans (h : Sheds C lost w₀ w) (h' : Sheds C lost w w') : Sheds C lost w₀ w' := by
  constructor
  · intro t e
    rcases h'.cell t e with hsame | hgone | ⟨t', e', hlost, hedge⟩
    · rw [hsame]
      exact h.cell t e
    · exact Or.inr (Or.inl hgone)
    · exact Or.inr (Or.inr ⟨t', e', hlost, h.edgeOn hedge⟩)
  · intro t e ht
    rcases h'.plain t e ht with hsame | hnone
    · rw [hsame]
      exact h.plain t e ht
    · exact Or.inr hnone
  · exact fun t e hhas => h.has t e (h'.has t e hhas)
  · exact fun t e o ho => h.owner t e o (h'.owner t e o ho)

/-- Retracting the edge of a lost entry sheds it. -/
theorem Sheds.retractEdge (h : Sheds C lost w₀ w) (source : Entity)
    {edge : Option (TypeId × Entity)}
    (hedge : ∀ p ∈ edge, ∃ t e, lost t e ∧ w₀.edgeOn C t e = some p) :
    Sheds C lost w₀ (w.retractEdge C source edge) := by
  cases edge with
  | none => exact h
  | some p =>
    obtain ⟨t', e', hlost, hp⟩ := hedge p rfl
    have hinverse : C.IsInverse p.1 := isInverse_edgeOn C hp
    have hcut := curtails_retractEdge (w := w) source hinverse (e := p.2)
    constructor
    · intro t e
      by_cases hpair : t = p.1 ∧ e = p.2
      · obtain ⟨rfl, rfl⟩ := hpair
        exact Or.inr (Or.inr ⟨t', e', hlost, hp⟩)
      · rw [hcut.cell t e hpair]
        exact h.cell t e
    · intro t e ht
      rw [hcut.cell t e fun hpair => ht (hpair.1 ▸ hinverse)]
      exact h.plain t e ht
    · intro t e hhas
      by_cases hpair : t = p.1 ∧ e = p.2
      · obtain ⟨rfl, rfl⟩ := hpair
        rcases hcut.entry with hnone | hsame | ⟨-, hbefore, -⟩
        · rw [World.has, hnone] at hhas
          cases hhas
        · rw [World.has, hsame] at hhas
          exact h.has _ _ hhas
        · exact h.has _ _ hbefore
      · rw [World.has, hcut.cell t e hpair] at hhas
        exact h.has t e hhas
    · intro t e o ho
      by_cases hpair : t = p.1 ∧ e = p.2
      · obtain ⟨rfl, rfl⟩ := hpair
        rcases hcut.entry with hnone | hsame | ⟨-, -, hbase, -⟩
        · rw [owner?, hnone] at ho
          cases ho
        · rw [owner?, hsame] at ho
          exact h.owner _ _ o ho
        · cases hbase.symm.trans ho
      · rw [owner?, hcut.cell t e hpair] at ho
        exact h.owner t e o ho

theorem Sheds.removeComponent (h : Sheds C lost w₀ w) (hlost : lost t e)
    (remover : Option SystemInvocation) : Sheds C lost w₀ (w.removeComponent C t e remover) := by
  have hdropped : Sheds C lost w₀ (w.dropEntry C t e remover) := by
    refine h.erase fun t' e' => ?_
    rw [cell?_dropEntry]
    split_ifs with hpair
    · obtain ⟨rfl, rfl⟩ := hpair
      exact Or.inr ⟨hlost, rfl⟩
    · exact Or.inl rfl
  exact hdropped.retractEdge e fun p hp => ⟨t, e, hlost, h.edgeOn hp⟩

theorem Sheds.removeDerivedEntry (h : Sheds C lost w₀ w) (hlost : w.owner? t e = some o → lost t e) :
    Sheds C lost w₀ (w.removeDerivedEntry C t e o) := by
  unfold World.removeDerivedEntry
  split_ifs with howned
  · have hswept : Sheds C lost w₀ (w.sweepEntry t e o) := by
      refine h.erase fun t' e' => ?_
      rw [cell?_sweepEntry]
      split_ifs with hpair
      · obtain ⟨rfl, rfl, -⟩ := hpair
        exact Or.inr ⟨hlost howned, rfl⟩
      · exact Or.inl rfl
    exact hswept.retractEdge e fun p hp => ⟨t, e, hlost howned, h.edgeOn hp⟩
  · exact h

/-- A removed entity sheds what it carries and the edges that point at it. -/
theorem sheds_removeEntity (w : World α) (x : Entity) :
    Sheds C (fun t e => e = x ∨ (t, e) ∈ w.retractionsOn C x) w (w.removeEntity C x) := by
  set lost : TypeId → Entity → Prop := fun t e => e = x ∨ (t, e) ∈ w.retractionsOn C x
  have hpurged : Sheds C lost w (w.purgeEntity x) := by
    refine (Sheds.refl w).erase fun t e => ?_
    rw [cell?_purgeEntity]
    split_ifs with heq
    · exact Or.inr ⟨Or.inl heq, rfl⟩
    · exact Or.inl rfl
  have hunlinked : Sheds C lost w
      ((w.edgesOn C x).foldl (fun w edge => w.retractEdge C x (some edge)) (w.purgeEntity x)) := by
    refine List.foldlRecOn (w.edgesOn C x) _ (motive := Sheds C lost w) hpurged fun u hu edge hedge => ?_
    obtain ⟨t, -, ht⟩ := List.mem_filterMap.mp hedge
    refine hu.retractEdge x fun p hp => ?_
    cases hp
    exact ⟨t, x, Or.inl rfl, ht⟩
  have hfreed := List.foldlRecOn (w.retractionsOn C x)
    (fun w edge => w.removeComponent C edge.1 edge.2 none) (motive := Sheds C lost w) hunlinked
    fun u hu edge hedge => hu.removeComponent (t := edge.1) (e := edge.2) (Or.inr hedge) none
  exact hfreed.congr rfl

/-- A sweep sheds the owner's outputs that it has not listed again. -/
theorem sheds_removeDerivedStale (w : World α) (o : SystemInvocation)
    (previous : List (TypeId × Entity)) :
    Sheds C (fun t e => (t, e) ∈ previous ∧ (t, e) ∉ w.outputs o ∧ w.owner? t e = some o) w
      (w.removeDerivedStale C o previous) := by
  set lost : TypeId → Entity → Prop :=
    fun t e => (t, e) ∈ previous ∧ (t, e) ∉ w.outputs o ∧ w.owner? t e = some o
  have hboth : (∀ p ∈ w.outputs o, (w.removeDerivedStale C o previous).Lists o p) ∧
      Sheds C lost w (w.removeDerivedStale C o previous) := by
    refine List.foldlRecOn previous _
      (motive := fun u : World α => (∀ p ∈ w.outputs o, u.Lists o p) ∧ Sheds C lost w u)
      ⟨fun p hp _ => hp, .refl w⟩ ?_
    rintro u ⟨hlists, hu⟩ p hp
    split_ifs with hmem
    · exact ⟨hlists, hu⟩
    · refine ⟨fun q hq => ?_, hu.removeDerivedEntry fun howned => ?_⟩
      · exact (closed_lists C o q).removeDerivedEntry u p.1 p.2 (o := o) trivial (hlists q hq)
      · exact ⟨hp, fun hlisted => hmem (hlists p hlisted howned), hu.owner p.1 p.2 o howned⟩
  exact hboth.2

/-- What does not bereave an entity leaves it its revision. -/
theorem Sheds.entityRevision (h : Sheds C lost w w') (hspared : ¬ w.Bereaves C lost a) :
    w'.entityRevision C a = w.entityRevision C a := by
  have hcell : ∀ t, C.tracked t = true → w'.cell? t a = w.cell? t a ∨ (lost t a ∧ w'.cell? t a = none) :=
    fun t ht => (h.cell t a).imp_right fun hlost => hlost.resolve_right fun hedge =>
      hspared ⟨t, ht, Or.inr hedge⟩
  cases hr : w.entityRevision C a with
  | none =>
    cases hr' : w'.entityRevision C a with
    | none => rfl
    | some r =>
      obtain ⟨t, ht, hstored⟩ := exists_of_entityRevision hr'
      rcases hcell t ht with hsame | hgone
      · rw [revisionByType, hsame, ← revisionByType] at hstored
        have hmem := (mem_entityRevisions C w a r).mpr ⟨t, ht, hstored⟩
        rw [List.max?_eq_none_iff.mp hr] at hmem
        cases hmem
      · rw [revisionByType, hgone.2] at hstored
        cases hstored
  | some r =>
    obtain ⟨⟨t, ht, hnewest⟩, hbound⟩ := (entityRevision_eq_some_iff w a r).mp hr
    refine (entityRevision_eq_some_iff w' a r).mpr ⟨⟨t, ht, ?_⟩, fun t' b ht' hb => ?_⟩
    · rcases hcell t ht with hsame | hgone
      · rw [revisionByType, hsame]
        exact hnewest
      · exact absurd ⟨t, ht, Or.inl ⟨hgone.1, r, hnewest, hr⟩⟩ hspared
    · rcases hcell t' ht' with hsame | hgone
      · rw [revisionByType, hsame] at hb
        exact hbound t' b ht' hb
      · rw [revisionByType, hgone.2] at hb
        cases hb

end Losses

section Inserts

theorem entityRevision_of_stores (hs : w'.stores = w.stores) (a : Entity) :
    w'.entityRevision C a = w.entityRevision C a := by
  refine entityRevision_congr fun t _ => ?_
  rw [revisionByType, cell?_congr hs, ← revisionByType]

/-- An insert that neither stamps a component of the entity nor moves an edge there leaves it alone. -/
theorem entityRevision_insertEntry {v : Value α} (owner : Option SystemInvocation)
    (hstamps : ¬ (e = a ∧ C.tracked t = true ∧ w.keptRevision C t e v = none))
    (hedges : (w.edgeOn C t e).map Prod.snd ≠ (C.relationshipEdge t v).map Prod.snd →
      ∀ t', C.tracked t' = true →
        w.edgeOn C t e ≠ some (t', a) ∧ C.relationshipEdge t v ≠ some (t', a)) :
    (w.insertEntry C t e v owner).entityRevision C a = w.entityRevision C a := by
  have hwritten : ∀ t', C.tracked t' = true →
      (w.writeEntry C t e v owner).revisionByType t' a = w.revisionByType t' a := by
    intro t' ht'
    rw [revisionByType, cell?_writeEntry]
    split_ifs with hpair
    · obtain ⟨rfl, rfl⟩ := hpair
      obtain ⟨kept, hkept⟩ := Option.ne_none_iff_exists'.mp fun hnone => hstamps ⟨rfl, ht', hnone⟩
      rw [(of_keptRevision hkept).1, hkept]
      rfl
    · rfl
  refine entityRevision_congr fun t' ht' => ?_
  rw [← hwritten t' ht']
  unfold insertEntry
  dsimp only
  split_ifs with hsame
  · rfl
  · obtain ⟨hprevious, hedge⟩ := hedges hsame t' ht'
    rw [revisionByType, cell?_establishEdge _ _ _ _ hedge, cell?_retractEdge C _ _ _ _ _ hprevious]
    rfl

theorem entityRevision_insert {v : Value α} {owner : Option SystemInvocation}
    (h : w.insert C t e v owner = some w') (hspared : ¬ w.InsertDisturbs C t e v a) :
    w'.entityRevision C a = w.entityRevision C a := by
  rcases insert_cases h with ⟨anchors, -, -, rfl⟩ | ⟨hnow, -⟩
  · exact entityRevision_of_stores rfl a
  · obtain ⟨u, hu, rfl⟩ := Option.map_eq_some_iff.mp hnow
    have hstores := (registerSingleton_eq hu).1
    have hedge : u.edgeOn C t e = w.edgeOn C t e := by
      rw [edgeOn, cell?_congr hstores, ← edgeOn]
    rw [← entityRevision_of_stores hstores a]
    refine entityRevision_insertEntry owner (fun hstamps => hspared (Or.inl ?_)) fun hmoves t' ht' => ?_
    · rwa [keptRevision_congr hstores] at hstamps
    · rw [hedge] at hmoves ⊢
      refine ⟨fun heq => hspared (Or.inr ?_), fun heq => hspared (Or.inr ?_)⟩
      · exact ⟨hmoves, t', ht', Or.inl heq⟩
      · exact ⟨hmoves, t', ht', Or.inr heq⟩

theorem entityRevision_insertBundle {target : Entity} {bundle : List (TypeId × Value α)}
    (h : w.insertBundle C target bundle o = some w') (hspared : ¬ w.BundleDisturbs C o target bundle a) :
    w'.entityRevision C a = w.entityRevision C a := by
  refine List.history_induction (fun u (disturbed : Prop) =>
    ¬ disturbed → u.entityRevision C a = w.entityRevision C a) bundle h (fun _ => rfl) ?_ hspared
  intro u p u' disturbed _ hu hstep hspared
  obtain ⟨hbefore, hinsert⟩ := not_or.mp hspared
  exact (entityRevision_insert hstep hinsert).trans (hu hbefore)

end Inserts

section Steps

theorem entityRevision_command {c : Command α} (h : c.apply C w o = some w')
    (hspared : ¬ c.Disturbs C w o a) : w'.entityRevision C a = w.entityRevision C a := by
  cases c with
  | insert t e v => exact entityRevision_insert h hspared
  | spawn bundle reserved =>
    simp only [Command.apply, Option.bind_eq_bind, Option.bind_eq_some_iff] at h
    obtain ⟨key, hkey, h⟩ := h
    simp only [Command.Disturbs, hkey] at hspared
    rw [entityRevision_insertBundle h hspared]
    exact entityRevision_of_stores (spawnTarget_spec w reserved key).1 a
  | removeEntity x =>
    cases h
    exact (sheds_removeEntity w x).entityRevision hspared
  | removeComponent t e =>
    cases h
    have hshed : Sheds C (fun t' e' => t' = t ∧ e' = e) w (w.removeComponent C t e (some o)) :=
      (Sheds.refl w).removeComponent ⟨rfl, rfl⟩ (some o)
    exact hshed.entityRevision hspared

theorem entityRevision_applyCommands {commands : List (Command α)}
    (h : w.applyCommands C o commands = some w') (hspared : ¬ w.CommandsDisturb C o commands a) :
    w'.entityRevision C a = w.entityRevision C a := by
  refine List.history_induction (fun u (disturbed : Prop) =>
    ¬ disturbed → u.entityRevision C a = w.entityRevision C a) commands h (fun _ => rfl) ?_ hspared
  intro u c u' disturbed _ hu hstep hspared
  obtain ⟨hbefore, hcommand⟩ := not_or.mp hspared
  exact (entityRevision_command hstep hcommand).trans (hu hbefore)

/-- A flush writes untracked facts only. -/
theorem entityRevision_flushDerivedFrom
    (hC : ∀ t, C.role t = .derivedFrom → C.tracked t = false) (hw : w.Anchored C)
    (h : w.flushDerivedFrom C = some w') (a : Entity) :
    w'.entityRevision C a = w.entityRevision C a := by
  obtain ⟨u, hu, rfl⟩ := Option.map_eq_some_iff.mp h
  have hflushed : u.entityRevision C a = w.entityRevision C a := by
    refine List.foldlM_some_induction (fun u : World α =>
      u.entityRevision C a = w.entityRevision C a) w.pendingDerivedFrom hu
        (entityRevision_of_stores rfl a) fun u p u' hmem hu hstep => ?_
    refine (entityRevision_insert hstep ?_).trans hu
    have hedge : ∀ v : Value α, C.relationshipEdge p.component v = none := fun v => by
      unfold Components.relationshipEdge
      rw [hw p hmem]
    rintro (⟨-, htracked, -⟩ | ⟨-, t', -, hprevious | hnext⟩)
    · rw [hC _ (hw p hmem)] at htracked
      cases htracked
    · obtain ⟨x, -, hx⟩ := Option.bind_eq_some_iff.mp hprevious
      rw [hedge] at hx
      cases hx
    · rw [hedge] at hnext
      cases hnext
  exact hflushed

/-- After the buffer of an output has been applied, only the sweep changes an entity. -/
theorem entityRevision_finish {output : SystemOutput α} {deferInserts : Bool} {applied : World α}
    (hC : ∀ t, C.role t = .derivedFrom → C.tracked t = false) (hanchored : applied.Anchored C)
    (happlied : (w.takeDerivedOutputs output.owner).2.applyCommands C output.owner
      (output.immediate deferInserts) = some applied)
    (h : w.applyOutput C output deferInserts = some w')
    (hspared : ¬ w.SweepDisturbs C output deferInserts a) :
    w'.entityRevision C a = applied.entityRevision C a := by
  obtain ⟨applied', flushed, happlied', hflushed, rfl⟩ := exists_of_applyOutput h
  cases happlied.symm.trans happlied'
  rw [← entityRevision_flushDerivedFrom hC hanchored hflushed a]
  have hfinished : (flushed.finishDerivedSpawns output.owner).entityRevision C a =
      flushed.entityRevision C a := entityRevision_of_stores rfl a
  rw [← hfinished]
  refine (sheds_removeDerivedStale (C := C) (flushed.finishDerivedSpawns output.owner) output.owner
    (w.outputs output.owner)).entityRevision fun hbereaves => hspared ?_
  exact ⟨applied, flushed, happlied, hflushed, hbereaves⟩

theorem anchored_applyOutput {output : SystemOutput α} {deferInserts : Bool}
    (h : w.applyOutput C output deferInserts = some w') : w'.Anchored C := by
  obtain ⟨applied, flushed, -, hflushed, rfl⟩ := exists_of_applyOutput h
  have hsame := sameBuffers_removeDerivedStale (C := C) (flushed.finishDerivedSpawns output.owner)
    output.owner (w.outputs output.owner)
  refine hsame.steady.anchored fun p hp => ?_
  have hp : p ∈ flushed.pendingDerivedFrom := hp
  rw [(buffers_flushDerivedFrom hflushed).1] at hp
  cases hp

/-- Outputs that do not disturb an entity leave it its revision. -/
theorem entityRevision_outputs {outputs : List (SystemOutput α)} {deferInserts : Bool}
    (hC : ∀ t, C.role t = .derivedFrom → C.tracked t = false) (hw : w.Anchored C)
    (h : outputs.foldlM (fun w output => w.applyOutput C output deferInserts) w = some w')
    (hspared : ¬ w.OutputsDisturb C outputs deferInserts a) :
    w'.entityRevision C a = w.entityRevision C a := by
  refine (List.history_induction (fun u (disturbed : Prop) => u.Anchored C ∧
    (¬ disturbed → u.entityRevision C a = w.entityRevision C a)) outputs h ⟨hw, fun _ => rfl⟩ ?_).2
      hspared
  rintro u output u' disturbed - ⟨hanchored, hu⟩ hstep
  refine ⟨anchored_applyOutput hstep, fun hspared => ?_⟩
  obtain ⟨hbefore, hthis⟩ := not_or.mp hspared
  obtain ⟨hcommands, hsweep⟩ := not_or.mp hthis
  obtain ⟨applied, flushed, happlied, -, -⟩ := exists_of_applyOutput hstep
  have htaken : (u.takeDerivedOutputs output.owner).2.Anchored C := hanchored
  rw [entityRevision_finish hC ((steady_applyCommands happlied).anchored htaken) happlied hstep hsweep,
    entityRevision_applyCommands happlied hcommands, ← hu hbefore]
  exact entityRevision_of_stores rfl a

theorem entityRevision_reconcileWritten {writes : List (TypeId × Entity)}
    (hspared : ¬ w.WritesDisturb C writes a) :
    (w.reconcileWritten C writes).entityRevision C a = w.entityRevision C a := by
  refine entityRevision_congr fun t _ => ?_
  by_cases hmem : (t, a) ∈ writes
  · cases hx : w.cell? t a with
    | none =>
      have hshown := shown_reconcileWritten C w writes t a
      rw [shown, shown, hx, Option.map_none, Option.map_eq_none_iff] at hshown
      rw [revisionByType, hshown, revisionByType, hx]
    | some x =>
      have hamends : w.amends C t a x.value = false := by
        by_contra hamends
        exact hspared ⟨t, hmem, by rw [hx]; simpa using hamends⟩
      rw [revisionByType_reconcileWritten_of_recorded writes hx hamends, revisionByType, hx]
      rfl
  · rw [revisionByType, cell?_reconcileWritten C w hmem, ← revisionByType]

end Steps

end World
end Porridge
