import Mathlib.Data.List.Induction
import Porridge.World.Emitted

/-! What the commit of one output leaves behind: the last emission of every pair, and the rest of
the world as it was. -/
namespace Porridge

variable {α : Type} (C : Components α)

/-- One change a command makes on purpose. -/
inductive Edit (α : Type) where
  | put (component : TypeId) (entity : Entity) (value : Value α)
  | drop (component : TypeId) (entity : Entity)
  | purge (entity : Entity)
deriving DecidableEq

namespace Edit

def Touches (t : TypeId) (e : Entity) : Edit α → Prop
  | put t' e' _ | drop t' e' => t = t' ∧ e = e'
  | purge e' => e = e'

instance (t : TypeId) (e : Entity) : ∀ d : Edit α, Decidable (d.Touches t e)
  | put t' e' _ | drop t' e' => inferInstanceAs (Decidable (t = t' ∧ e = e'))
  | purge e' => inferInstanceAs (Decidable (e = e'))

/-- What the edit gives the pairs it names. -/
def written : Edit α → Option (Value α)
  | put _ _ v => some v
  | drop .. | purge _ => none

def emitted (t : TypeId) (e : Entity) (last : Option (Value α)) (d : Edit α) :
    Option (Value α) :=
  if d.Touches t e then d.written else last

theorem eq_put {d : Edit α} {t : TypeId} {e : Entity} {v : Value α} (hd : d.Touches t e)
    (hv : d.written = some v) : d = .put t e v := by
  cases d with
  | put t' e' v' =>
    obtain ⟨rfl, rfl⟩ := hd
    rw [Option.some.inj hv]
  | drop t' e' => cases hv
  | purge e' => cases hv

end Edit

namespace Command

def edits : Command α → List (Edit α)
  | insert t e v => [.put t e v]
  | spawn bundle e => bundle.map fun p => .put p.1 e p.2
  | removeEntity e => [.purge e]
  | removeComponent t e => [.drop t e]

end Command

/-- The last value a pair is given by an insert or spawn that no removal follows. -/
def lastEmitted (edits : List (Edit α)) (t : TypeId) (e : Entity) : Option (Value α) :=
  edits.foldl (Edit.emitted t e) none

theorem lastEmitted_append (edits : List (Edit α)) (d : Edit α) (t : TypeId) (e : Entity) :
    lastEmitted (edits ++ [d]) t e = d.emitted t e (lastEmitted edits t e) := by
  rw [lastEmitted, List.foldl_append]
  rfl

/-- A value emitted last has been put on the pair. -/
theorem put_mem_of_lastEmitted {edits : List (Edit α)} {t : TypeId} {e : Entity} {v : Value α}
    (h : lastEmitted edits t e = some v) : Edit.put t e v ∈ edits := by
  induction edits using List.reverseRecOn with
  | nil => cases h
  | append_singleton edits d ih =>
    rw [lastEmitted_append, Edit.emitted] at h
    split_ifs at h with htouches
    · exact List.mem_append_right _ (List.mem_singleton.mpr (Edit.eq_put htouches h).symm)
    · exact List.mem_append_left _ (ih h)

/-- The type takes part in a relationship, as an edge or as an inverse. -/
def Components.Related (t : TypeId) : Prop :=
  (∃ inverse, C.role t = .edge inverse) ∨ C.IsInverse t ∨ ∃ inverse, C.role inverse = .inverse t

theorem Components.relationshipEdge_of_plain {t : TypeId} (ht : C.role t = .plain) (v : Value α) :
    C.relationshipEdge t v = none := by
  unfold relationshipEdge
  rw [ht]

/-- The type holds user data outside every relationship, on any number of entities. -/
structure Components.Standalone (t : TypeId) : Prop where
  role : C.role t = .plain
  unrelated : ∀ inverse, C.role inverse ≠ .inverse t

theorem Components.Standalone.not_related {C : Components α} {t : TypeId} (h : C.Standalone t) :
    ¬ C.Related t := by
  rintro (⟨inverse, hrole⟩ | ⟨edge, hrole⟩ | ⟨inverse, hrole⟩)
  · cases h.role.symm.trans hrole
  · cases h.role.symm.trans hrole
  · exact h.unrelated inverse hrole

/-- The edit only writes user data or removes it. -/
def Edit.Plain : Edit α → Prop
  | put t _ v => C.Standalone t ∧ ∃ payload, v = .data payload
  | drop t _ => C.Standalone t
  | purge _ => True

namespace World

/-- Entries of types outside every relationship and their places in the ownership index agree. -/
structure SameUnrelated (w w' : World α) : Prop where
  cells : ∀ t e, ¬ C.Related t → w'.cell? t e = w.cell? t e
  outputs : ∀ t e o, ¬ C.Related t → ((t, e) ∈ w'.outputs o ↔ (t, e) ∈ w.outputs o)

section Unrelated

variable {C} {a b c : World α}

theorem SameUnrelated.rfl {w : World α} : w.SameUnrelated C w :=
  ⟨fun _ _ _ => Eq.refl _, fun _ _ _ _ => Iff.rfl⟩

theorem SameUnrelated.trans (hab : a.SameUnrelated C b) (hbc : b.SameUnrelated C c) :
    a.SameUnrelated C c :=
  ⟨fun t e ht => (hbc.cells t e ht).trans (hab.cells t e ht),
    fun t e o ht => (hbc.outputs t e o ht).trans (hab.outputs t e o ht)⟩

theorem SameUnrelated.of_eq (hs : b.stores = a.stores) (ho : b.derivedOwners = a.derivedOwners) :
    a.SameUnrelated C b :=
  ⟨fun t e _ => cell?_congr hs t e, fun _ _ o _ => by rw [outputs_congr ho]⟩

variable (w : World α) {t : TypeId} (ht : C.Related t)
include ht

theorem sameUnrelated_writeEntry (e : Entity) (v : Value α) (o : Option SystemInvocation) :
    w.SameUnrelated C (w.writeEntry C t e v o) where
  cells t' e' ht' := by
    rw [cell?_writeEntry, if_neg]
    rintro ⟨rfl, -⟩
    exact ht' ht
  outputs t' e' o' ht' := by
    have hne : (t', e') ≠ (t, e) := by
      rintro ⟨⟩
      exact ht' ht
    simp [mem_outputs_writeEntry, hne]

theorem sameUnrelated_dropEntry (e : Entity) (remover : Option SystemInvocation) :
    w.SameUnrelated C (w.dropEntry C t e remover) where
  cells t' e' ht' := by
    rw [cell?_dropEntry, if_neg]
    rintro ⟨rfl, -⟩
    exact ht' ht
  outputs t' e' o' ht' := by
    have hne : (t', e') ≠ (t, e) := by
      rintro ⟨⟩
      exact ht' ht
    simp [mem_outputs_dropEntry, hne]

theorem sameUnrelated_removeMember (source target : Entity) :
    w.SameUnrelated C (w.relationshipRemoveMember C t source target) := by
  unfold relationshipRemoveMember
  split
  · exact .rfl
  · dsimp only
    split_ifs
    · exact sameUnrelated_dropEntry w ht target none
    · exact sameUnrelated_writeEntry w ht target _ none
    · exact .rfl

omit ht in
theorem sameUnrelated_retractEdge (source : Entity) {edge : Option (TypeId × Entity)}
    (hedge : ∀ p ∈ edge, C.IsInverse p.1) : w.SameUnrelated C (w.retractEdge C source edge) := by
  cases edge with
  | none => exact .rfl
  | some p => exact sameUnrelated_removeMember w (Or.inr (Or.inl (hedge p rfl))) source p.2

theorem sameUnrelated_removeComponent (e : Entity) (remover : Option SystemInvocation) :
    w.SameUnrelated C (w.removeComponent C t e remover) := by
  have hdropped := sameUnrelated_dropEntry w ht e remover
  refine hdropped.trans (sameUnrelated_retractEdge _ e fun p hp => ?_)
  exact ⟨t, Closed.role_edgeOn p hp⟩

omit ht in
/-- Past the purge, removing an entity only touches edges and inverses. -/
theorem sameUnrelated_removeEntity (e : Entity) :
    (w.purgeEntity e).SameUnrelated C (w.removeEntity C e) := by
  have hedges : (w.purgeEntity e).SameUnrelated C
      ((w.edgesOn C e).foldl (fun w edge => w.retractEdge C e (some edge)) (w.purgeEntity e)) := by
    refine List.foldlRecOn (w.edgesOn C e) _ (motive := (w.purgeEntity e).SameUnrelated C) .rfl
      fun u hu edge hmem => hu.trans ?_
    obtain ⟨t, -, hedge⟩ := List.mem_filterMap.mp hmem
    refine sameUnrelated_retractEdge u e fun p hp => ?_
    cases hp
    exact isInverse_edgeOn C hedge
  have hretractions : ∀ u, (w.purgeEntity e).SameUnrelated C u →
      (w.purgeEntity e).SameUnrelated C ((w.retractionsOn C e).foldl
        (fun w edge => w.removeComponent C edge.1 edge.2 none) u) := by
    intro u hu
    refine List.foldlRecOn (w.retractionsOn C e) _
      (motive := (w.purgeEntity e).SameUnrelated C) hu fun u hu edge hmem => hu.trans ?_
    refine sameUnrelated_removeComponent u ?_ edge.2 none
    obtain ⟨t, -, hlisted⟩ := List.mem_flatMap.mp hmem
    cases hx : w.cell? t e with
    | none => simp [hx] at hlisted
    | some x =>
      simp only [hx, Option.map_some, Option.getD_some] at hlisted
      unfold Components.relationshipRetractions at hlisted
      split at hlisted
      · rename_i hrole _
        obtain ⟨source, -, rfl⟩ := List.mem_map.mp hlisted
        exact Or.inr (Or.inr ⟨t, hrole⟩)
      · cases hlisted
  exact (hretractions _ hedges).trans (.of_eq rfl rfl)

end Unrelated
end World

namespace Edit

variable {C} (w : World α) (o : SystemInvocation)

variable (C) in
def apply : Edit α → World α
  | put t e v => w.writeEntry C t e v (some o)
  | drop t e => w.dropEntry C t e (some o)
  | purge e => w.removeEntity C e

/-- An edit leaves unrelated pairs that it does not name alone. -/
theorem untouched {d : Edit α} {t : TypeId} {e : Entity} (ht : ¬ C.Related t)
    (hd : ¬ d.Touches t e) :
    (d.apply C w o).cell? t e = w.cell? t e ∧
      ((t, e) ∈ (d.apply C w o).outputs o ↔ (t, e) ∈ w.outputs o) := by
  cases d with
  | put t' e' v =>
    have hne : (t, e) ≠ (t', e') := fun heq => hd (Prod.ext_iff.mp heq)
    constructor
    · exact (World.cell?_writeEntry ..).trans (if_neg hd)
    · simp [apply, World.mem_outputs_writeEntry, hne]
  | drop t' e' =>
    have hne : (t, e) ≠ (t', e') := fun heq => hd (Prod.ext_iff.mp heq)
    constructor
    · exact (World.cell?_dropEntry ..).trans (if_neg hd)
    · simp [apply, World.mem_outputs_dropEntry, hne]
  | purge e' =>
    have hrest := World.sameUnrelated_removeEntity (C := C) w e'
    have hne : e ≠ e' := hd
    constructor
    · rw [apply, hrest.cells t e ht, World.cell?_purgeEntity, if_neg hne]
    · rw [apply, hrest.outputs t e o ht, World.mem_outputs_purgeEntity]
      simp [hne]

/-- Only a put lists a pair under the owner. -/
theorem listed {d : Edit α} {p : TypeId × Entity} (hp : p ∈ (d.apply C w o).outputs o) :
    p ∈ w.outputs o ∨ ∃ v, d = .put p.1 p.2 v := by
  cases d with
  | put t e v =>
    rcases (World.mem_outputs_writeEntry C w t e v (some o) o p).mp hp with ⟨hold, -⟩ | ⟨rfl, -⟩
    · exact Or.inl hold
    · exact Or.inr ⟨v, rfl⟩
  | drop t e => exact Or.inl ((World.mem_outputs_dropEntry C w t e (some o) o p).mp hp).1
  | purge e => exact Or.inl ((World.closed_unlisted C o).removeEntity w e trivial p hp)

/-- A removal takes away the pairs it names. -/
theorem removed {d : Edit α} {t : TypeId} {e : Entity} (ht : ¬ C.Related t) (hd : d.Touches t e)
    (hput : ∀ v, d ≠ .put t e v) : (d.apply C w o).cell? t e = none ∧
      (w.owner? t e = some o → (t, e) ∉ (d.apply C w o).outputs o) := by
  cases d with
  | put t' e' v =>
    obtain ⟨rfl, rfl⟩ := hd
    exact absurd rfl (hput v)
  | drop t' e' =>
    obtain ⟨rfl, rfl⟩ := hd
    constructor
    · exact (World.cell?_dropEntry ..).trans (if_pos ⟨rfl, rfl⟩)
    · intro ho hmem
      exact ((World.mem_outputs_dropEntry C w t e (some o) o (t, e)).mp hmem).2 ⟨rfl, ho⟩
  | purge e' =>
    have he : e = e' := hd
    subst he
    have hrest := World.sameUnrelated_removeEntity (C := C) w e
    constructor
    · rw [apply, hrest.cells t e ht, World.cell?_purgeEntity, if_pos rfl]
    · intro ho hmem
      rw [apply, hrest.outputs t e o ht, World.mem_outputs_purgeEntity] at hmem
      exact hmem.2 ⟨rfl, ho⟩

end Edit

namespace World

structure Emitting (w₀ : World α) (o : SystemInvocation) (edits : List (Edit α)) (w : World α) :
    Prop where
  emitted : ∀ t e v, lastEmitted edits t e = some v → C.Standalone t ∧ (t, e) ∈ w.outputs o ∧
    ∃ x, w.cell? t e = some x ∧ x.value = v ∧ x.owner = some o
  unlisted : ∀ t e, lastEmitted edits t e = none → (t, e) ∉ w.outputs o
  kept : ∀ t e, ¬ C.Related t → (∀ d ∈ edits, ¬ d.Touches t e) → w.cell? t e = w₀.cell? t e
  /-- A tracked entry only ever emitted with its own fingerprint keeps its revision. -/
  revised : ∀ t e x f, ¬ C.Related t → w₀.cell? t e = some x → C.tracked t = true →
    x.fingerprint = some f →
    (∀ d ∈ edits, d.Touches t e → ∃ v, d = .put t e v ∧ C.fingerprint t v = some f) →
      ∃ y, w.cell? t e = some y ∧ y.revision = x.revision ∧ y.fingerprint = some f
  /-- Without a purge no relationship is maintained. -/
  spared : ∀ t e, (∀ d ∈ edits, ¬ d.Touches t e) → (∀ e', Edit.purge e' ∉ edits) →
    w.cell? t e = w₀.cell? t e
  pending : w.pendingDerivedFrom = w₀.pendingDerivedFrom
  others : ∀ t e o', w.owner? t e = some o' → o' = o ∨ w₀.owner? t e = some o'

variable {C} {o : SystemInvocation} {w₀ w : World α} {edits : List (Edit α)}

theorem emitting_start (h : w₀.outputs o = []) : w₀.Emitting C o [] w₀ where
  emitted _ _ _ hv := nomatch hv
  unlisted _ _ _ hmem := by
    rw [h] at hmem
    cases hmem
  kept _ _ _ _ := rfl
  revised _ _ x _ _ hx _ hf _ := ⟨x, hx, rfl, hf⟩
  spared _ _ _ _ := rfl
  pending := rfl
  others _ _ _ ho := Or.inr ho

theorem Emitting.congr {w' : World α} (h : w₀.Emitting C o edits w) (hs : w'.stores = w.stores)
    (ho : w'.derivedOwners = w.derivedOwners)
    (hp : w'.pendingDerivedFrom = w.pendingDerivedFrom) : w₀.Emitting C o edits w' where
  emitted t e v hv := by
    rw [cell?_congr hs, outputs_congr ho]
    exact h.emitted t e v hv
  unlisted t e hv := by
    rw [outputs_congr ho]
    exact h.unlisted t e hv
  kept t e ht hd := (cell?_congr hs t e).trans (h.kept t e ht hd)
  revised t e := by
    rw [cell?_congr hs]
    exact h.revised t e
  spared t e hd hpurge := (cell?_congr hs t e).trans (h.spared t e hd hpurge)
  pending := hp.trans h.pending
  others t e o' ho := h.others t e o' ((owner?_congr hs t e).symm.trans ho)

theorem Emitting.step (h : w₀.Emitting C o edits w) {d : Edit α} (hd : d.Plain C) :
    w₀.Emitting C o (edits ++ [d]) (d.apply C w o) where
  emitted t e v hv := by
    rw [lastEmitted_append, Edit.emitted] at hv
    split_ifs at hv with htouches
    · obtain rfl := Edit.eq_put htouches hv
      refine ⟨hd.1, ?_, _, (cell?_writeEntry ..).trans (if_pos ⟨rfl, rfl⟩), rfl, rfl⟩
      exact (mem_outputs_writeEntry ..).mpr (Or.inr ⟨rfl, rfl⟩)
    · obtain ⟨ht, hlisted, hcell⟩ := h.emitted t e v hv
      obtain ⟨hsame, houtputs⟩ := Edit.untouched w o ht.not_related htouches
      rw [hsame, houtputs]
      exact ⟨ht, hlisted, hcell⟩
  unlisted t e hv hmem := by
    rw [lastEmitted_append, Edit.emitted] at hv
    rcases Edit.listed w o hmem with hold | ⟨v, rfl⟩
    · cases hlast : lastEmitted edits t e with
      | none => exact h.unlisted t e hlast hold
      | some v =>
        -- the pair was listed, so the last edit must be the removal that silenced it
        obtain ⟨ht, -, x, hx, -, howner⟩ := h.emitted t e v hlast
        have howned : w.owner? t e = some o := by
          rw [owner?, hx]
          exact howner
        rw [hlast] at hv
        split_ifs at hv with htouches
        have hput : ∀ v, d ≠ .put t e v := by
          rintro v rfl
          cases hv
        exact (Edit.removed w o ht.not_related htouches hput).2 howned hmem
    · rw [if_pos ⟨rfl, rfl⟩] at hv
      cases hv
  kept t e ht hnot := by
    have hlast : ¬ d.Touches t e := hnot d (by simp)
    rw [(Edit.untouched w o ht hlast).1]
    exact h.kept t e ht fun d' hd' => hnot d' (by simp [hd'])
  revised t e x f ht hx htracked hf hsame := by
    obtain ⟨y, hy, hrevision, hfingerprint⟩ := h.revised t e x f ht hx htracked hf fun d' hd' =>
      hsame d' (by simp [hd'])
    by_cases htouches : d.Touches t e
    · obtain ⟨v, rfl, hv⟩ := hsame d (by simp) htouches
      refine ⟨_, (cell?_writeEntry ..).trans (if_pos ⟨rfl, rfl⟩), ?_, hv⟩
      have hmatches : w.fingerprintMatches C t e v = true := by
        simp [fingerprintMatches, hy, hfingerprint, hv]
      have hkept : w.keptRevision C t e v = some y.revision := by
        simp [keptRevision, htracked, hmatches, revisionByType, hy]
      rw [← hrevision, hkept]
      rfl
    · rw [(Edit.untouched w o ht htouches).1]
      exact ⟨y, hy, hrevision, hfingerprint⟩
  spared t e hnot hpurge := by
    have hlast : ¬ d.Touches t e := hnot d (by simp)
    have hcell : (d.apply C w o).cell? t e = w.cell? t e := by
      cases d with
      | put t' e' v => exact (cell?_writeEntry ..).trans (if_neg hlast)
      | drop t' e' => exact (cell?_dropEntry ..).trans (if_neg hlast)
      | purge e' => exact absurd (by simp) (hpurge e')
    rw [hcell]
    exact h.spared t e (fun d' hd' => hnot d' (by simp [hd'])) fun e' hmem =>
      hpurge e' (by simp [hmem])
  pending := by
    have hpending := closed_samePending C
    refine Eq.trans ?_ h.pending
    cases d with
    | put t e v => exact hpending.write w t e v (some o) trivial
    | drop t e => exact hpending.drop w t e (some o) fun _ _ => trivial
    | purge e => exact hpending.removeEntity w e trivial
  others t e o' ho := by
    have hbefore : o' = o ∨ w.owner? t e = some o' := by
      cases d with
      | put t' e' v =>
        rw [Edit.apply, owner?_writeEntry] at ho
        split_ifs at ho
        · exact Or.inl (Option.some.inj ho).symm
        · exact Or.inr ho
      | drop t' e' => exact Or.inr ((closed_disowning C).drop w t' e' _ (fun _ _ => trivial) t e o' ho)
      | purge e' => exact Or.inr ((closed_disowning C).removeEntity w e' trivial t e o' ho)
    exact hbefore.elim Or.inl (h.others t e o')

theorem edgeOn_of_plain {t : TypeId} (ht : C.role t = .plain) (e : Entity) :
    w.edgeOn C t e = none := by
  unfold edgeOn
  cases w.cell? t e with
  | none => rfl
  | some x => exact C.relationshipEdge_of_plain ht x.value

theorem insert_of_plain {t : TypeId} (ht : C.role t = .plain) (e : Entity) (payload : α)
    (owner : Option SystemInvocation) : w.insert C t e (.data payload) owner =
      some (w.writeEntry C t e (.data payload) owner) := by
  have hregistered : w.registerSingleton C t e = some w := by
    unfold registerSingleton Components.singletonKey
    rw [ht]
  have hentry : w.insertEntry C t e (.data payload) owner =
      w.writeEntry C t e (.data payload) owner := by
    unfold insertEntry
    rw [edgeOn_of_plain ht, C.relationshipEdge_of_plain ht]
    exact if_pos rfl
  unfold World.insert insertNow
  rw [hregistered, ← hentry]
  rfl

theorem removeComponent_of_plain {t : TypeId} (ht : C.role t = .plain) (e : Entity)
    (remover : Option SystemInvocation) :
    w.removeComponent C t e remover = w.dropEntry C t e remover := by
  unfold removeComponent
  rw [edgeOn_of_plain ht]
  rfl

theorem Emitting.insertBundle {e : Entity} : ∀ {bundle : List (TypeId × Value α)}
    {edits : List (Edit α)} {w w' : World α}, w₀.Emitting C o edits w →
      (∀ p ∈ bundle, (Edit.put p.1 e p.2).Plain C) → w.insertBundle C e bundle o = some w' →
        w₀.Emitting C o (edits ++ bundle.map fun p => .put p.1 e p.2) w'
  | [], edits, w, w', h, _, ha => by
    cases ha
    rwa [List.map_nil, List.append_nil]
  | (t, v) :: bundle, edits, w, w', h, hb, ha => by
    obtain ⟨ht, payload, hv⟩ := hb (t, v) List.mem_cons_self
    obtain ⟨u, hu, hrest⟩ := Option.bind_eq_some_iff.mp ha
    dsimp only at ht hv hu
    subst hv
    rw [insert_of_plain ht.role] at hu
    cases hu
    have hput : (Edit.put t e (.data payload)).Plain C := ⟨ht, payload, rfl⟩
    have hrest := (h.step hput).insertBundle (fun p hp => hb p (List.mem_cons_of_mem _ hp)) hrest
    rwa [List.append_assoc] at hrest

theorem bundleSingletonKey_of_plain {bundle : List (TypeId × Value α)}
    (h : ∀ p ∈ bundle, C.role p.1 = .plain) : bundleSingletonKey C bundle = some none := by
  have hnone : bundle.filterMap (fun p => C.singletonKey p.1) = [] := by
    refine List.filterMap_eq_nil_iff.mpr fun p hp => ?_
    unfold Components.singletonKey
    rw [h p hp]
  unfold bundleSingletonKey
  rw [hnone]

/-- A command on user data performs its edits. -/
theorem Emitting.command {w' : World α} (h : w₀.Emitting C o edits w) {c : Command α}
    (hc : ∀ d ∈ c.edits, d.Plain C) (ha : c.apply C w o = some w') :
    w₀.Emitting C o (edits ++ c.edits) w' := by
  cases c with
  | insert t e v =>
    have hput : (Edit.put t e v).Plain C := hc _ List.mem_cons_self
    obtain ⟨ht, payload, rfl⟩ := hput
    have hwritten := (insert_of_plain (w := w) ht.role e payload (some o)).symm.trans ha
    cases hwritten
    exact h.step (hc _ List.mem_cons_self)
  | spawn bundle reserved =>
    have hput : ∀ p ∈ bundle, (Edit.put p.1 reserved p.2).Plain C := fun p hp =>
      hc _ (List.mem_map_of_mem hp)
    have hkey : bundleSingletonKey C bundle = some none :=
      bundleSingletonKey_of_plain fun p hp => (hput p hp).1.role
    simp only [Command.apply, hkey, spawnTarget, Option.bind_eq_bind, Option.bind_some] at ha
    have hslot : w₀.Emitting C o edits (w.recordDerivedSpawn o reserved) :=
      h.congr rfl rfl rfl
    exact hslot.insertBundle hput ha
  | removeEntity e =>
    cases ha
    have hpurge : (Edit.purge e : Edit α).Plain C := trivial
    exact h.step hpurge
  | removeComponent t e =>
    cases ha
    have hdrop : (Edit.drop t e : Edit α).Plain C := hc _ List.mem_cons_self
    rw [removeComponent_of_plain (Components.Standalone.role hdrop)]
    exact h.step hdrop

theorem Emitting.applyCommands : ∀ {commands : List (Command α)} {edits : List (Edit α)}
    {w w' : World α}, w₀.Emitting C o edits w →
      (∀ d ∈ commands.flatMap Command.edits, d.Plain C) →
        w.applyCommands C o commands = some w' →
          w₀.Emitting C o (edits ++ commands.flatMap Command.edits) w'
  | [], edits, w, w', h, _, ha => by
    cases ha
    rwa [List.flatMap_nil, List.append_nil]
  | c :: commands, edits, w, w', h, hc, ha => by
    obtain ⟨u, hu, hrest⟩ := (applyCommands_cons C).mp ha
    rw [List.flatMap_cons] at hc ⊢
    have hcommand := h.command (fun d hd => hc d (List.mem_append_left _ hd)) hu
    rw [← List.append_assoc]
    exact hcommand.applyCommands (fun d hd => hc d (List.mem_append_right _ hd)) hrest

section Sweep

variable {t : TypeId} {e : Entity}

/-- An owner without edges takes no other pair away with its stale outputs. -/
theorem cell?_removeDerivedStale_of_edgeless :
    ∀ (previous : List (TypeId × Entity)) {w : World α},
      (∀ t e, w.owner? t e = some o → w.edgeOn C t e = none) → w.owner? t e ≠ some o →
        (w.removeDerivedStale C o previous).cell? t e = w.cell? t e
  | [], _, _, _ => rfl
  | p :: previous, w, hedges, howner => by
    rw [removeDerivedStale, List.foldl_cons]
    by_cases hp : p ∈ w.outputs o
    · rw [if_pos hp]
      exact cell?_removeDerivedStale_of_edgeless previous hedges howner
    · rw [if_neg hp]
      have hcell : ∀ t' e', (w.removeDerivedEntry C p.1 p.2 o).cell? t' e' =
          if t' = p.1 ∧ e' = p.2 ∧ w.owner? p.1 p.2 = some o then none else w.cell? t' e' :=
        fun t' e' => cell?_removeDerivedEntry C w p.1 t' p.2 e' o fun hown hedge => by
          rw [hedges p.1 p.2 hown] at hedge
          cases hedge
      have hsame : (w.removeDerivedEntry C p.1 p.2 o).cell? t e = w.cell? t e := by
        rw [hcell, if_neg]
        rintro ⟨rfl, rfl, hown⟩
        exact howner hown
      refine Eq.trans (cell?_removeDerivedStale_of_edgeless previous ?_ ?_) hsame
      · intro t' e' hown
        rw [owner?, hcell] at hown
        by_cases hgone : t' = p.1 ∧ e' = p.2 ∧ w.owner? p.1 p.2 = some o
        · rw [if_pos hgone] at hown
          cases hown
        · rw [if_neg hgone] at hown
          rw [edgeOn, hcell, if_neg hgone]
          exact hedges t' e' hown
      · rwa [owner?, hsame]

end Sweep

/-- What the commit of an output makes of the world before it. Pairs in `writes` are left out of
what is said of revisions, and those in `lost` have been taken away since. -/
structure Replaced (C : Components α) (w : World α) (o : SystemInvocation)
    (edits : List (Edit α)) (writes : List (TypeId × Entity)) (lost : TypeId → Entity → Prop)
    (w' : World α) : Prop where
  owns : ∀ t e, w'.owner? t e = some o ↔ (∃ v, lastEmitted edits t e = some v) ∧ ¬ lost t e
  holds : ∀ t e v, lastEmitted edits t e = some v → ¬ lost t e →
    ∃ x, w'.cell? t e = some x ∧ x.value = v
  /-- A tracked entry emitted throughout with its own fingerprint keeps its revision. -/
  keeps : ∀ t e x f, (lastEmitted edits t e).isSome → ¬ lost t e → (t, e) ∉ writes →
    w.cell? t e = some x → C.tracked t = true → x.fingerprint = some f →
    (∀ d ∈ edits, d.Touches t e → ∃ v, d = .put t e v ∧ C.fingerprint t v = some f) →
      w'.revisionByType t e = some x.revision
  frame : ∀ t e, ¬ C.Related t → w.owner? t e ≠ some o → (∀ d ∈ edits, ¬ d.Touches t e) →
    ¬ lost t e → (t, e) ∉ writes → w'.cell? t e = w.cell? t e
  /-- Edges and inverses are only touched through removed entities and stale edges. -/
  edgeless : w.removedEntities = [] → (∀ e, Edit.purge e ∉ edits) →
    (∀ t e, w.owner? t e = some o → w.edgeOn C t e = none) → ∀ t e, w.owner? t e ≠ some o →
      (∀ d ∈ edits, ¬ d.Touches t e) → (t, e) ∉ writes → w'.cell? t e = w.cell? t e
  others : ∀ t e o', w'.owner? t e = some o' → o' = o ∨ w.owner? t e = some o'

/-- Committing the output of an owner replaces what it emitted before by what it emits now. -/
theorem applyOutput_replaced {w' : World α} (hi : w.Indexed fun _ _ => False)
    (hpending : w.pendingDerivedFrom = []) {commands : List (Command α)}
    (hplain : ∀ d ∈ commands.flatMap Command.edits, d.Plain C)
    (ha : w.applyOutput C ⟨o, commands⟩ false = some w') :
    w.Replaced C o (commands.flatMap Command.edits) [] (fun _ _ => False) w' := by
  have hindexed := hi.applyOutput C ha
  simp only [World.applyOutput, takeDerivedOutputs, Option.bind_eq_bind,
    Option.bind_eq_some_iff, Option.pure_def, Option.some.injEq, Bool.false_eq_true,
    if_false] at ha
  obtain ⟨applied, happly, flushed, hflush, rfl⟩ := ha
  generalize hedits : commands.flatMap Command.edits = edits at hplain ⊢
  have hempty : (w.takeDerivedOutputs o).2.outputs o = [] := by
    show Dict.getD (w.derivedOwners.erase o) o [] = []
    rw [Dict.getD_erase, if_pos rfl]
  have happlied : (w.takeDerivedOutputs o).2.Emitting C o edits applied := by
    have hrun := (emitting_start (C := C) hempty).applyCommands (hedits ▸ hplain) happly
    rwa [List.nil_append, hedits] at hrun
  have hflushed : flushed.stores = applied.stores ∧
      flushed.derivedOwners = applied.derivedOwners := by
    unfold flushDerivedFrom at hflush
    rw [happlied.pending, show (w.takeDerivedOutputs o).2.pendingDerivedFrom = [] from hpending]
      at hflush
    cases hflush
    exact ⟨rfl, rfl⟩
  generalize hfinished : flushed.finishDerivedSpawns o = u at *
  have hstores : u.stores = applied.stores := hfinished ▸ hflushed.1
  have howners : u.derivedOwners = applied.derivedOwners := hfinished ▸ hflushed.2
  have hbefore : ∀ t e, (w.takeDerivedOutputs o).2.cell? t e = w.cell? t e := cell?_congr rfl
  have hemitted : ∀ t e v, lastEmitted edits t e = some v → ¬ C.Related t ∧
      (u.removeDerivedStale C o (w.outputs o)).cell? t e = applied.cell? t e := by
    intro t e v hv
    obtain ⟨ht, hlisted, -⟩ := happlied.emitted t e v hv
    refine ⟨ht.not_related, ?_⟩
    have hinverse : ¬ C.IsInverse t := fun h => ht.not_related (Or.inr (Or.inl h))
    rw [cell?_removeDerivedStale_of_lists hinverse _ fun _ => ?_, cell?_congr hstores]
    rwa [outputs_congr howners]
  constructor
  · intro t e
    constructor
    · intro howner
      have hmem := (hindexed t e o howner).resolve_right id
      have hkept : (t, e) ∈ u.outputs o :=
        (closed_unlisted C o).removeDerivedStale u (w.outputs o) (fun _ _ => trivial) (t, e) hmem
      rw [outputs_congr howners] at hkept
      cases hlast : lastEmitted edits t e with
      | none => exact absurd hkept (happlied.unlisted t e hlast)
      | some v => exact ⟨⟨v, rfl⟩, id⟩
    · rintro ⟨⟨v, hv⟩, -⟩
      obtain ⟨-, -, x, hx, -, howner⟩ := happlied.emitted t e v hv
      rw [owner?, (hemitted t e v hv).2, hx]
      exact howner
  · intro t e v hv _
    obtain ⟨-, -, x, hx, hvalue, -⟩ := happlied.emitted t e v hv
    exact ⟨x, (hemitted t e v hv).2.trans hx, hvalue⟩
  · intro t e x f hlast _ _ hx htracked hf hsame
    obtain ⟨v, hv⟩ := Option.isSome_iff_exists.mp hlast
    obtain ⟨ht, hcell⟩ := hemitted t e v hv
    obtain ⟨y, hy, hrevision, -⟩ :=
      happlied.revised t e x f ht ((hbefore t e).trans hx) htracked hf hsame
    rw [revisionByType, hcell, hy, Option.map_some, hrevision]
  · intro t e ht howner hnot _ _
    have hkept := (happlied.kept t e ht hnot).trans (hbefore t e)
    have hinverse : ¬ C.IsInverse t := fun h => ht (Or.inr (Or.inl h))
    rw [cell?_removeDerivedStale_of_lists hinverse _ fun hown => absurd hown ?_, cell?_congr hstores,
      hkept]
    rwa [owner?, cell?_congr hstores, hkept]
  · intro _ hpurge hedges t e howner hnot _
    have hspared := (happlied.spared t e hnot hpurge).trans (hbefore t e)
    rw [cell?_removeDerivedStale_of_edgeless _ ?_ ?_, cell?_congr hstores, hspared]
    · intro t' e' hown
      by_cases htouched : ∃ d ∈ edits, d.Touches t' e'
      · obtain ⟨d, hd, htouches⟩ := htouched
        have hstandalone : C.Standalone t' := by
          have hd' := hplain d hd
          cases d with
          | put t'' e'' v =>
            obtain ⟨rfl, rfl⟩ := htouches
            exact hd'.1
          | drop t'' e'' =>
            obtain ⟨rfl, rfl⟩ := htouches
            exact hd'
          | purge e'' => exact absurd hd (hpurge e'')
        exact edgeOn_of_plain hstandalone.role e'
      · have hsame : u.cell? t' e' = w.cell? t' e' := by
          have hnot' : ∀ d ∈ edits, ¬ d.Touches t' e' := fun d hd htouches =>
            htouched ⟨d, hd, htouches⟩
          rw [cell?_congr hstores, happlied.spared t' e' hnot' hpurge, hbefore]
        rw [owner?, hsame] at hown
        rw [edgeOn, hsame]
        exact hedges t' e' hown
    · rwa [owner?, cell?_congr hstores, hspared]
  · intro t e o' ho
    have hkept := (closed_disowning C).removeDerivedStale (o := o) u (w.outputs o)
      (fun _ _ => trivial) t e o' ho
    rw [owner?_congr hstores] at hkept
    exact (happlied.others t e o' hkept).imp_right fun ho => (owner?_congr rfl t e).symm.trans ho

end World
end Porridge
