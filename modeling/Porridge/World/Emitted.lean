import Porridge.World.Exact
import Porridge.World.Inverses
import Porridge.World.Reach
import Porridge.World.Trims

/-! What the buffer of one invocation leaves it with, and what it takes from others. -/
namespace Porridge

/-- The pairs that a buffer wrote and did not take back, and the entities it spawned. -/
structure Emitted where
  pairs : List (TypeId × Entity)
  spawned : List Entity
deriving DecidableEq, Repr

variable {α : Type} (C : Components α)

namespace Command

/-- The command takes the component of `t` off `e`, also as an edge to an entity it removes. -/
def takes (w : World α) (t : TypeId) (e : Entity) : Command α → Bool
  | insert .. | spawn .. => false
  | removeEntity x => decide (x = e ∨ (t, e) ∈ w.retractionsOn C x)
  | removeComponent t' e' => decide (t' = t ∧ e' = e)

def moves (w : World α) (t : TypeId) (e : Entity) (c : Command α) : Bool :=
  decide ((t, e) ∈ c.landing C w.registry) || c.takes C w t e

/-- What a buffer has emitted once it reaches past the command. -/
def emit (w : World α) (c : Command α) (em : Emitted) : Emitted where
  pairs := (em.pairs.filter fun p => !c.takes C w p.1 p.2) ++ c.landing C w.registry
  spawned := em.spawned ++ c.spawned C w.registry

end Command

namespace World

/-- What the commands of the output emit one after the other. -/
def issued (w : World α) (output : SystemOutput α) (deferInserts : Bool) : Emitted :=
  List.history (fun w c => c.apply C w output.owner) (Command.emit C)
    (output.immediate deferInserts) (w.takeDerivedOutputs output.owner).2 ⟨[], []⟩

/-- What the output emits when it is applied. An insert that waits for the end of the buffer
lands after every removal. -/
def emission (w : World α) (output : SystemOutput α) (deferInserts : Bool) : Emitted :=
  let issued := w.issued C output deferInserts
  match (w.takeDerivedOutputs output.owner).2.applyCommands C output.owner
      (output.immediate deferInserts) with
  | none => issued
  | some applied => { issued with
      pairs := issued.pairs ++ applied.pendingDerivedFrom.map fun p => (p.component, p.entity) }

/-- A command of the output moves the component of `t` on `e` when its turn comes. -/
def movedBy (w : World α) (output : SystemOutput α) (deferInserts : Bool) (t : TypeId)
    (e : Entity) : Bool :=
  List.history (fun w c => c.apply C w output.owner)
    (fun w c found => found || c.moves C w t e) (output.immediate deferInserts)
    (w.takeDerivedOutputs output.owner).2 false

variable {C} {w w' : World α} {o : SystemInvocation} {t t' : TypeId} {e e' : Entity}

section Removals

theorem cell?_removeComponent (w : World α) (t : TypeId) (e : Entity)
    (remover : Option SystemInvocation) (ht : ¬ C.IsInverse t') :
    (w.removeComponent C t e remover).cell? t' e' =
      if t' = t ∧ e' = e then none else w.cell? t' e' := by
  have hedge : w.edgeOn C t e ≠ some (t', e') := fun heq => ht (isInverse_edgeOn C heq)
  rw [← cell?_dropEntry C w t t' e e' remover]
  exact cell?_retractEdge C _ e _ t' e' hedge

theorem cell?_removeComponents (ht : ¬ C.IsInverse t) :
    ∀ (pairs : List (TypeId × Entity)) (w : World α),
      (pairs.foldl (fun w p => w.removeComponent C p.1 p.2 none) w).cell? t e =
        if (t, e) ∈ pairs then none else w.cell? t e
  | [], w => by simp
  | p :: pairs, w => by
    rw [List.foldl_cons, cell?_removeComponents ht pairs, cell?_removeComponent w p.1 p.2 none ht]
    by_cases hrest : (t, e) ∈ pairs
    · simp [hrest]
    · simp [hrest, Prod.ext_iff]

theorem cell?_removeEntity (w : World α) (x : Entity) (ht : ¬ C.IsInverse t) :
    (w.removeEntity C x).cell? t e =
      if x = e ∨ (t, e) ∈ w.retractionsOn C x then none else w.cell? t e := by
  have hretracted : ((w.edgesOn C x).foldl (fun w edge => w.retractEdge C x (some edge))
      (w.purgeEntity x)).cell? t e = (w.purgeEntity x).cell? t e := by
    refine List.foldlRecOn (w.edgesOn C x) _
      (motive := fun u : World α => u.cell? t e = (w.purgeEntity x).cell? t e) rfl
      fun u hu edge hedge => ?_
    obtain ⟨t', -, hon⟩ := List.mem_filterMap.mp hedge
    rw [cell?_retractEdge C u x (some edge) t e, hu]
    exact fun heq => ht (isInverse_edgeOn C (hon.trans heq))
  show ((w.retractionsOn C x).foldl (fun w p => w.removeComponent C p.1 p.2 none)
    ((w.edgesOn C x).foldl (fun w edge => w.retractEdge C x (some edge)) (w.purgeEntity x))).cell?
      t e = _
  rw [cell?_removeComponents ht, hretracted, cell?_purgeEntity]
  by_cases hedge : (t, e) ∈ w.retractionsOn C x
  · simp [hedge]
  · simp [hedge, eq_comm]

/-- A removed component belongs to nobody afterwards. -/
theorem owner?_removeComponent_ne (w : World α) (t : TypeId) (e : Entity)
    (remover : Option SystemInvocation) : (w.removeComponent C t e remover).owner? t e ≠ some o := by
  intro ho
  have hretract := (closed_disowning C).retractEdge (w.dropEntry C t e remover) e
    (Closed.role_edgeOn (w := w) (t := t) (e := e))
  have hdropped := hretract t e o ho
  rw [owner?_dropEntry, if_pos ⟨rfl, rfl⟩] at hdropped
  cases hdropped

/-- Whatever a list of removals names belongs to nobody afterwards. -/
theorem owner?_removeComponents_ne {p : TypeId × Entity} (pairs : List (TypeId × Entity))
    (w : World α) (hp : p ∈ pairs) :
    (pairs.foldl (fun w p => w.removeComponent C p.1 p.2 none) w).owner? p.1 p.2 ≠ some o := by
  induction pairs generalizing w with
  | nil => cases hp
  | cons q pairs ih =>
    rcases List.mem_cons.mp hp with rfl | hrest
    · intro ho
      have hclosed := closed_disowning C
      have hlater : ∀ t e o, (pairs.foldl (fun w p => w.removeComponent C p.1 p.2 none)
          (w.removeComponent C p.1 p.2 none)).owner? t e = some o →
            (w.removeComponent C p.1 p.2 none).owner? t e = some o :=
        hclosed.foldl pairs _ fun u q _ => hclosed.removeComponent u q.1 q.2 none nofun
      exact owner?_removeComponent_ne w p.1 p.2 none (hlater p.1 p.2 o ho)
    · exact ih _ hrest

/-- What a command takes belongs to nobody afterwards. -/
theorem owner?_of_takes {c : Command α} {o' : SystemInvocation} (htakes : c.takes C w t e = true)
    (h : c.apply C w o' = some w') : w'.owner? t e ≠ some o := by
  have hclosed := closed_disowning C
  cases c with
  | insert => cases htakes
  | spawn => cases htakes
  | removeComponent t' e' =>
    obtain ⟨rfl, rfl⟩ := of_decide_eq_true htakes
    cases h
    exact owner?_removeComponent_ne w t' e' (some o')
  | removeEntity x =>
    cases h
    intro ho
    rcases of_decide_eq_true htakes with rfl | hedge
    · have hpurged := hclosed.unlinkEntity w x t x o ho
      rw [owner?_purgeEntity, if_pos rfl] at hpurged
      cases hpurged
    · exact owner?_removeComponents_ne (p := (t, e)) (w.retractionsOn C x) _ hedge ho

end Removals

section Untouched

theorem cell?_insert {v : Value α} {owner : Option SystemInvocation}
    (h : w.insert C t e v owner = some w') (ht : ¬ C.IsInverse t') (hne : (t', e') ≠ (t, e)) :
    w'.cell? t' e' = w.cell? t' e' := by
  rcases insert_cases h with ⟨anchors, -, -, rfl⟩ | ⟨hnow, -⟩
  · rfl
  · obtain ⟨u, hu, rfl⟩ := Option.map_eq_some_iff.mp hnow
    rw [cell?_insertEntry_eq _ owner ht, cell?_writeEntry, if_neg fun hp => hne (Prod.ext hp.1 hp.2),
      cell?_congr (registerSingleton_eq hu).1]

theorem cell?_insertBundle {bundle : List (TypeId × Value α)}
    (h : w.insertBundle C e bundle o = some w') (ht : ¬ C.IsInverse t')
    (hnot : (t', e') ∉ bundle.map fun p => (p.1, e)) : w'.cell? t' e' = w.cell? t' e' :=
  List.foldlM_some_induction (fun u : World α => u.cell? t' e' = w.cell? t' e') bundle h rfl
    fun _ _ _ hp hu hstep => (cell?_insert hstep ht fun heq =>
      hnot (heq ▸ List.mem_map_of_mem hp)).trans hu

/-- A command leaves what it does not move alone, inverses aside. -/
theorem cell?_command {c : Command α} (h : c.apply C w o = some w') (ht : ¬ C.IsInverse t)
    (hc : c.moves C w t e = false) : w'.cell? t e = w.cell? t e := by
  obtain ⟨hland, htakes⟩ := Bool.or_eq_false_iff.mp hc
  have hland : (t, e) ∉ c.landing C w.registry := of_decide_eq_false hland
  cases c with
  | insert t' e' v => exact cell?_insert h ht fun heq => hland (heq ▸ List.mem_singleton_self _)
  | removeEntity x =>
    cases h
    rw [cell?_removeEntity w x ht, if_neg (of_decide_eq_false htakes)]
  | removeComponent t' e' =>
    cases h
    have hne : ¬ (t' = t ∧ e' = e) := of_decide_eq_false htakes
    rw [cell?_removeComponent w t' e' (some o) ht, if_neg fun heq => hne ⟨heq.1.symm, heq.2.symm⟩]
  | spawn bundle reserved =>
    simp only [Command.apply, Option.bind_eq_bind, Option.bind_eq_some_iff] at h
    obtain ⟨key, hkey, h⟩ := h
    have htarget := spawnTarget_entity hkey w reserved
    rw [htarget] at h
    refine (cell?_insertBundle h ht hland).trans ?_
    exact cell?_congr (spawnTarget_spec w reserved key).1 t e

/-- A command leaves the ownership of what it does not move alone, inverses aside. -/
theorem owner?_command {c : Command α} (h : c.apply C w o = some w') (ht : ¬ C.IsInverse t)
    (hc : c.moves C w t e = false) : w'.owner? t e = w.owner? t e :=
  owner?_of_cell? (cell?_command h ht hc)

end Untouched

section Own

/-- What a command takes from its own invocation it carried, and the rest it keeps. -/
theorem Carries.command {c : Command α} (hc : w.Carries o t e) (ht : ¬ C.IsInverse t)
    (htakes : c.takes C w t e = false) (h : c.apply C w o = some w') : w'.Carries o t e := by
  cases c with
  | insert t' e' v => exact (landed_command (c := .insert t' e' v) rfl h).1.keeps t e ht hc
  | spawn bundle reserved => exact (landed_command (c := .spawn bundle reserved) rfl h).1.keeps t e ht hc
  | removeEntity x =>
    cases h
    refine hc.congr (owner?_of_cell? ?_) (sameBuffers_removeEntity w x).pending
    rw [cell?_removeEntity w x ht, if_neg (of_decide_eq_false htakes)]
  | removeComponent t' e' =>
    cases h
    have hne : ¬ (t' = t ∧ e' = e) := of_decide_eq_false htakes
    refine hc.congr (owner?_of_cell? ?_) (sameBuffers_removeComponent w t' e' (some o)).pending
    rw [cell?_removeComponent w t' e' (some o) ht, if_neg fun heq => hne ⟨heq.1.symm, heq.2.symm⟩]

theorem carries_landing {c : Command α} (hland : (t, e) ∈ c.landing C w.registry)
    (ht : ¬ C.IsInverse t) (h : c.apply C w o = some w') : w'.Carries o t e := by
  have hdefers : c.defersAtSettle = true := by
    cases c with
    | insert => rfl
    | spawn => rfl
    | removeEntity => cases hland
    | removeComponent => cases hland
  exact (landed_command hdefers h).1.lands t e ht hland

/-- A command gives its invocation what it lands only. -/
theorem carries_of_command {c : Command α} (h : c.apply C w o = some w') (hc : w'.Carries o t e) :
    w.Carries o t e ∨ (t, e) ∈ c.landing C w.registry := by
  cases c with
  | insert t' e' v => exact (landed_command (c := .insert t' e' v) rfl h).1.gains t e hc
  | spawn bundle reserved => exact (landed_command (c := .spawn bundle reserved) rfl h).1.gains t e hc
  | removeEntity x =>
    cases h
    have hdisowns := (closed_disowning C).removeEntity w x trivial
    rw [Carries, (sameBuffers_removeEntity w x).pending] at hc
    exact Or.inl (hc.imp_left (hdisowns t e o))
  | removeComponent t' e' =>
    cases h
    have hdisowns := (closed_disowning C).removeComponent w t' e' (some o) fun _ _ => trivial
    rw [Carries, (sameBuffers_removeComponent w t' e' (some o)).pending] at hc
    exact Or.inl (hc.imp_left (hdisowns t e o))

/-- What the index lists for `o` in the second world it listed in the first, or is a pair. -/
def ListsOnly (o : SystemInvocation) (pairs : TypeId → Entity → Prop) (w w' : World α) : Prop :=
  ∀ p ∈ w'.outputs o, p ∈ w.outputs o ∨ pairs p.1 p.2

theorem closed_listsOnly (C : Components α) (o : SystemInvocation) (pairs : TypeId → Entity → Prop) :
    Closed C (ListsOnly o pairs) (gainsOnly o pairs) where
  refl _ _ := Or.inl
  trans hab hbc p hp := (hbc p hp).elim (hab p) Or.inr
  bookkeeping hb _ p hp := Or.inl (outputs_congr hb.derivedOwners o ▸ hp)
  write w t e v owner hw p hp := by
    rcases (mem_outputs_writeEntry C w t e v owner o p).mp hp with ⟨hold, -⟩ | ⟨rfl, howner⟩
    · exact Or.inl hold
    · exact Or.inr (hw howner)
  drop w t e remover _ p hp := Or.inl ((mem_outputs_dropEntry C w t e remover o p).mp hp).1
  sweep w t e o' _ p hp := Or.inl (outputs_congr (sweepEntry_derivedOwners ..) o ▸ hp)
  purge w e _ p hp := Or.inl ((mem_outputs_purgeEntity w e o p).mp hp).1
  inverse _ _ _ _ := nofun

theorem listsOnly_command {c : Command α} (h : c.apply C w o = some w') :
    ListsOnly o (fun t e => (t, e) ∈ c.landing C w.registry) w w' := by
  have hclosed := closed_listsOnly C o fun t e => (t, e) ∈ c.landing C w.registry
  cases c with
  | insert t e v => exact hclosed.insert h (fun _ => List.mem_singleton_self _) trivial
  | removeEntity x =>
    cases h
    exact hclosed.removeEntity w x trivial
  | removeComponent t e =>
    cases h
    exact hclosed.removeComponent w t e (some o) fun _ _ => trivial
  | spawn bundle reserved =>
    simp only [Command.apply, Option.bind_eq_bind, Option.bind_eq_some_iff] at h
    obtain ⟨key, hkey, h⟩ := h
    have htarget := spawnTarget_entity hkey w reserved
    rw [htarget] at h
    have hbundle := hclosed.foldlM bundle h fun _ _ p hp hstep =>
      hclosed.insert hstep (fun _ => List.mem_map_of_mem hp) trivial
    have hslot : ListsOnly o (fun t e => (t, e) ∈ (Command.spawn bundle reserved).landing C w.registry)
        w ((w.spawnTarget reserved key).2.recordDerivedSpawn o
          (Command.spawnEntity C w.registry bundle reserved)) := fun p hp =>
      Or.inl (outputs_congr (spawnTarget_spec w reserved key).2.1 o ▸ hp)
    exact hclosed.trans hslot hbundle

end Own

section Placed

/-- The invocation lists the pair if it owns it, or holds an insert of it back. -/
def Placed (o : SystemInvocation) (p : TypeId × Entity) (w : World α) : Prop :=
  w.Lists o p ∨ ∃ q ∈ w.pendingDerivedFrom, q.owner = some o ∧ (q.component, q.entity) = p

theorem lists_insertNow {v : Value α} (h : w.insertNow C t e v (some o) = some w') :
    w'.Lists o (t, e) := by
  obtain ⟨u, -, rfl⟩ := Option.map_eq_some_iff.mp h
  have hclosed := closed_lists C o (t, e)
  have hwritten : (u.writeEntry C t e v (some o)).Lists o (t, e) := fun _ =>
    (mem_outputs_writeEntry C u t e v (some o) o (t, e)).mpr (Or.inr ⟨rfl, rfl⟩)
  unfold insertEntry
  dsimp only
  split_ifs
  · exact hwritten
  · have hretracted := hclosed.retractEdge (u.writeEntry C t e v (some o)) e
      (Closed.role_edgeOn (w := u) (t := t) (e := e)) hwritten
    refine hclosed.establishEdge (t := t) _ e ?_ hretracted
    exact fun p hp => C.inverse_of_relationshipEdge hp

theorem placed_insert {v : Value α} (h : w.insert C t e v (some o) = some w') :
    w'.Placed o (t, e) := by
  rcases insert_cases h with ⟨anchors, -, -, rfl⟩ | ⟨hnow, -⟩
  · exact Or.inr ⟨_, List.mem_append_right _ (List.mem_singleton_self _), rfl, rfl⟩
  · exact Or.inl (lists_insertNow hnow)

theorem Placed.insert {p : TypeId × Entity} {v : Value α} {owner : Option SystemInvocation}
    (hp : w.Placed o p) (h : w.insert C t e v owner = some w') : w'.Placed o p := by
  refine hp.imp ((closed_lists C o p).insert h trivial trivial) ?_
  rintro ⟨q, hq, hfields⟩
  refine ⟨q, ?_, hfields⟩
  rcases insert_cases h with ⟨anchors, -, -, rfl⟩ | ⟨-, hsame⟩
  · exact List.mem_append_left _ hq
  · exact hsame.pending ▸ hq

theorem Placed.insertBundle {p : TypeId × Entity} {bundle : List (TypeId × Value α)}
    {o' : SystemInvocation} (hp : w.Placed o p) (h : w.insertBundle C e bundle o' = some w') :
    w'.Placed o p :=
  List.foldlM_some_induction (Placed o p) bundle h hp fun _ _ _ _ hu hstep => hu.insert hstep

theorem placed_insertBundle : ∀ {bundle : List (TypeId × Value α)} {w : World α},
    (t, e) ∈ bundle.map (fun p => (p.1, e')) → w.insertBundle C e' bundle o = some w' →
      w'.Placed o (t, e)
  | q :: bundle, w, hmem, h => by
    obtain ⟨u, hu, hrest⟩ := Option.bind_eq_some_iff.mp h
    rcases List.mem_cons.mp hmem with heq | hmem
    · cases heq
      exact (placed_insert hu).insertBundle hrest
    · exact placed_insertBundle hmem hrest

/-- Effects on the stores keep a pair placed, whoever applies the command. -/
theorem Placed.command {p : TypeId × Entity} {c : Command α} {o' : SystemInvocation}
    (hp : w.Placed o p) (h : c.apply C w o' = some w') : w'.Placed o p := by
  have hclosed := closed_lists C o p
  cases c with
  | insert t e v => exact hp.insert h
  | removeEntity x =>
    cases h
    refine hp.imp (hclosed.removeEntity w x trivial) ?_
    rw [(sameBuffers_removeEntity w x).pending]
    exact id
  | removeComponent t e =>
    cases h
    refine hp.imp (hclosed.removeComponent w t e (some o') fun _ _ => trivial) ?_
    rw [(sameBuffers_removeComponent w t e (some o')).pending]
    exact id
  | spawn bundle reserved =>
    simp only [Command.apply, Option.bind_eq_bind, Option.bind_eq_some_iff] at h
    obtain ⟨key, -, h⟩ := h
    obtain ⟨hstores, houtputs, hpending, -⟩ := spawnTarget_spec w reserved key
    have hslot : ((w.spawnTarget reserved key).2.recordDerivedSpawn o'
        (w.spawnTarget reserved key).1).Placed o p := by
      refine hp.imp (fun hlists howner => ?_) ?_
      · have houtput : p ∈ (w.spawnTarget reserved key).2.outputs o :=
          outputs_congr houtputs o ▸ hlists (owner?_congr hstores p.1 p.2 ▸ howner)
        exact houtput
      · exact hpending ▸ id
    exact hslot.insertBundle h

/-- A command places what it lands. -/
theorem placed_landing {c : Command α} (hland : (t, e) ∈ c.landing C w.registry)
    (h : c.apply C w o = some w') : w'.Placed o (t, e) := by
  cases c with
  | removeEntity => cases hland
  | removeComponent => cases hland
  | insert t' e' v =>
    cases List.mem_singleton.mp hland
    exact placed_insert h
  | spawn bundle reserved =>
    simp only [Command.apply, Option.bind_eq_bind, Option.bind_eq_some_iff] at h
    obtain ⟨key, hkey, h⟩ := h
    rw [spawnTarget_entity hkey] at h
    exact placed_insertBundle hland h

/-- A flush lists what is placed. -/
theorem Placed.flush {p : TypeId × Entity} (hp : w.Placed o p)
    (h : w.flushDerivedFrom C = some w') : w'.Lists o p := by
  have hempty := (buffers_flushDerivedFrom h).1
  rcases hp with hlists | ⟨q, hq, howner, rfl⟩
  · exact (closed_lists C o p).flushDerivedFrom h (fun _ _ => trivial) trivial hlists
  · obtain ⟨u, hu, rfl⟩ := Option.map_eq_some_iff.mp h
    have hplaced : ∀ {pending : List PendingDerivedFrom} {w : World α}, q ∈ pending →
        pending.foldlM (fun w p => w.insert C p.component p.entity (.derivedFrom p.anchors)
          p.owner) w = some u → u.Placed o (q.component, q.entity) := by
      intro pending
      induction pending with
      | nil => exact fun hmem => by cases hmem
      | cons p pending ih =>
        intro w hmem hfold
        obtain ⟨m, hm, hrest⟩ := Option.bind_eq_some_iff.mp hfold
        rcases List.mem_cons.mp hmem with rfl | hmem
        · change w.insert C q.component q.entity (.derivedFrom q.anchors) q.owner = some m at hm
          rw [howner] at hm
          exact List.foldlM_some_induction (Placed o (q.component, q.entity)) pending hrest
            (placed_insert hm) fun _ _ _ _ hu hstep => hu.insert hstep
        · exact ih hmem hrest
    rcases hplaced hq hu with hlists | ⟨r, hr, -⟩
    · exact hlists
    · rw [show u.pendingDerivedFrom = [] from hempty] at hr
      cases hr

end Placed

section Buffers

/-- The invocation `o` has applied commands since `w₀` that emitted `em`. -/
structure Emits (C : Components α) (o : SystemInvocation) (w₀ : World α) (em : Emitted)
    (w : World α) : Prop where
  backed : w.Backed
  carried : ∀ t e, ¬ C.IsInverse t → (t, e) ∈ em.pairs → w.Carries o t e
  placed : ∀ p ∈ em.pairs, w.Placed o p
  listed : ∀ p ∈ w.outputs o, p ∈ em.pairs
  pending : ∀ p ∈ w.pendingDerivedFrom, p.owner = some o
  fills : Fills o em.spawned w₀ w

/-- What an invocation lists after a command of its own is what the command has it emit. -/
theorem emit_lists {c : Command α} {em : Emitted} (h : ∀ p ∈ w.outputs o, p ∈ em.pairs)
    (hbacked : w'.Backed) (hc : c.apply C w o = some w') :
    ∀ p ∈ w'.outputs o, p ∈ (c.emit C w em).pairs := by
  intro p hp
  rcases listsOnly_command hc p hp with hold | hnew
  · refine List.mem_append_left _ (List.mem_filter.mpr ⟨h p hold, ?_⟩)
    by_contra htakes
    exact owner?_of_takes (by simpa using htakes) hc (hbacked p.1 p.2 o hp)
  · exact List.mem_append_right _ hnew

theorem Emits.command {w₀ : World α} {em : Emitted} (h : Emits C o w₀ em w) {c : Command α}
    (hc : c.apply C w o = some w') : Emits C o w₀ (c.emit C w em) w' := by
  have hbacked : w'.Backed := (closed_backed C).command hc
    ⟨fun _ _ => trivial, fun _ _ => trivial, fun _ => trivial, trivial⟩ h.backed
  refine ⟨hbacked, fun t e ht hmem => ?_, fun p hp => ?_, emit_lists h.listed hbacked hc,
    fun p hp => ?_, h.fills.trans (fills_command hc)⟩
  · rcases List.mem_append.mp hmem with hold | hnew
    · obtain ⟨hmem, htakes⟩ := List.mem_filter.mp hold
      exact (h.carried t e ht hmem).command ht (by simpa using htakes) hc
    · exact carries_landing hnew ht hc
  · rcases List.mem_append.mp hp with hold | hnew
    · exact (h.placed p (List.mem_of_mem_filter hold)).command hc
    · exact placed_landing hnew hc
  · exact (defers_command hc p hp).elim (h.pending p) id

theorem Emits.commands {w₀ : World α} {commands : List (Command α)} {em : Emitted}
    (h : Emits C o w₀ em w) (hc : w.applyCommands C o commands = some w') :
    Emits C o w₀ (List.history (fun w c => c.apply C w o) (Command.emit C) commands w em) w' :=
  List.history_induction (fun u em => Emits C o w₀ em u) commands hc h
    fun _ _ _ _ _ hu hstep => hu.command hstep

theorem lands_pending : ∀ {pending : List PendingDerivedFrom} {w : World α},
    (∀ p ∈ pending, p.owner = some o) →
      pending.foldlM (fun w p => w.insert C p.component p.entity (.derivedFrom p.anchors) p.owner) w =
        some w' → Lands C o (pending.map fun p => (p.component, p.entity)) w w'
  | [], w, _, h => by
    cases h
    exact .of_eq rfl rfl
  | p :: pending, w, hall, h => by
    obtain ⟨u, hu, hrest⟩ := Option.bind_eq_some_iff.mp h
    change w.insert C p.component p.entity (.derivedFrom p.anchors) p.owner = some u at hu
    rw [hall p List.mem_cons_self] at hu
    exact (lands_insert_own hu).trans
      (lands_pending (fun q hq => hall q (List.mem_cons_of_mem _ hq)) hrest)

/-- After a flush of its own deferred inserts an invocation owns what it carried. -/
theorem owner?_flush_own (hall : ∀ p ∈ w.pendingDerivedFrom, p.owner = some o)
    (h : w.flushDerivedFrom C = some w') (ht : ¬ C.IsInverse t) (hc : w.Carries o t e) :
    w'.owner? t e = some o := by
  have hempty := (buffers_flushDerivedFrom h).1
  obtain ⟨u, hu, rfl⟩ := Option.map_eq_some_iff.mp h
  have hlands := lands_pending hall hu
  have hcarried : u.Carries o t e := by
    rcases hc with howner | ⟨p, hp, -, rfl, rfl⟩
    · exact hlands.keeps t e ht (Or.inl howner)
    · exact hlands.lands _ _ ht (List.mem_map.mpr ⟨p, hp, rfl⟩)
  refine hcarried.resolve_right ?_
  rintro ⟨p, hp, -⟩
  rw [show u.pendingDerivedFrom = [] from hempty] at hp
  cases hp

/-- A flush leaves a component without a deferred insert where it is. -/
theorem cell?_flush_ne (h : w.flushDerivedFrom C = some w') (ht : ¬ C.IsInverse t)
    (hnot : ∀ p ∈ w.pendingDerivedFrom, (t, e) ≠ (p.component, p.entity)) :
    w'.cell? t e = w.cell? t e := by
  obtain ⟨u, hu, rfl⟩ := Option.map_eq_some_iff.mp h
  have hflushed : u.cell? t e = w.cell? t e :=
    List.foldlM_some_induction (fun u : World α => u.cell? t e = w.cell? t e) _ hu rfl
      fun _ p _ hp hsame hstep => (cell?_insert hstep ht (hnot p hp)).trans hsame
  exact hflushed

/-- A sweep leaves what its owner lists, and what is not its owner's. -/
theorem cell?_removeDerivedStale_of_lists (ht : ¬ C.IsInverse t) (previous : List (TypeId × Entity))
    (hlisted : w.Lists o (t, e)) :
    (w.removeDerivedStale C o previous).cell? t e = w.cell? t e := by
  have hclosed := closed_lists C o (t, e)
  have hboth : (w.removeDerivedStale C o previous).Lists o (t, e) ∧
      (w.removeDerivedStale C o previous).cell? t e = w.cell? t e := by
    refine List.foldlRecOn previous _ (motive := fun u : World α =>
      u.Lists o (t, e) ∧ u.cell? t e = w.cell? t e) ⟨hlisted, rfl⟩ fun u hu p _ => ?_
    split_ifs with hmem
    · exact hu
    · refine ⟨hclosed.removeDerivedEntry u p.1 p.2 (o := o) trivial hu.1, ?_⟩
      rw [cell?_removeDerivedEntry C u p.1 t p.2 e o fun _ heq => ht (isInverse_edgeOn C heq),
        if_neg, hu.2]
      rintro ⟨rfl, rfl, howner⟩
      exact hmem (hu.1 howner)
  exact hboth.2

/-- A sweep adds nothing. -/
theorem cell?_of_removeDerivedStale (ht : ¬ C.IsInverse t) (previous : List (TypeId × Entity))
    {x : Entry α} (hx : (w.removeDerivedStale C o previous).cell? t e = some x) :
    w.cell? t e = some x := by
  refine List.foldlRecOn previous _ (motive := fun u : World α =>
    u.cell? t e = some x → w.cell? t e = some x) id (fun u hu p _ hcell => hu ?_) hx
  split_ifs at hcell with hmem
  · exact hcell
  · rw [cell?_removeDerivedEntry C u p.1 t p.2 e o fun _ heq => ht (isInverse_edgeOn C heq)] at hcell
    split_ifs at hcell
    exact hcell

/-- A sweep takes what its owner does not list again. -/
theorem cell?_removeDerivedStale_of_stale (ht : ¬ C.IsInverse t) :
    ∀ (previous : List (TypeId × Entity)) {w : World α}, (t, e) ∉ w.outputs o →
      w.cell? t e = none ∨ ((t, e) ∈ previous ∧ w.owner? t e = some o) →
        (w.removeDerivedStale C o previous).cell? t e = none
  | [], w, _, h => h.resolve_right fun hmem => nomatch hmem.1
  | p :: previous, w, hnot, h => by
    have hcell := cell?_removeDerivedEntry C w p.1 t p.2 e o fun _ heq =>
      ht (isInverse_edgeOn C heq)
    have hlists := (closed_listsOnly C o fun _ _ => False).removeDerivedEntry w p.1 p.2 (o := o) trivial
    rw [removeDerivedStale, List.foldl_cons]
    by_cases hmem : p ∈ w.outputs o
    · rw [if_pos hmem]
      refine cell?_removeDerivedStale_of_stale ht previous hnot (h.imp_right fun hstale => ?_)
      refine ⟨(List.mem_cons.mp hstale.1).resolve_left fun heq => hnot ?_, hstale.2⟩
      rwa [heq]
    · rw [if_neg hmem]
      refine cell?_removeDerivedStale_of_stale ht previous
        (fun hlisted => (hlists _ hlisted).elim hnot id) ?_
      rw [owner?, hcell]
      split_ifs with hthis
      · exact Or.inl rfl
      · refine h.imp_right fun hstale => ?_
        refine ⟨(List.mem_cons.mp hstale.1).resolve_left fun heq => hthis ?_, hstale.2⟩
        rw [← heq]
        exact ⟨rfl, rfl, hstale.2⟩

/-- A sweep leaves what belongs to others. -/
theorem owner?_removeDerivedStale_ne {o' : SystemInvocation} (ht : ¬ C.IsInverse t)
    (hne : o ≠ o') (previous : List (TypeId × Entity)) :
    (w.removeDerivedStale C o' previous).owner? t e = some o ↔ w.owner? t e = some o := by
  refine List.foldlRecOn previous _ (motive := fun u : World α =>
    u.owner? t e = some o ↔ w.owner? t e = some o) Iff.rfl fun u hu p _ => ?_
  split_ifs with hmem
  · exact hu
  · rw [← hu, owner?, cell?_removeDerivedEntry C u p.1 t p.2 e o' fun _ heq =>
      ht (isInverse_edgeOn C heq)]
    by_cases hpair : t = p.1 ∧ e = p.2 ∧ u.owner? p.1 p.2 = some o'
    · obtain ⟨rfl, rfl, howner⟩ := hpair
      rw [if_pos ⟨rfl, rfl, howner⟩, howner]
      constructor
      · intro hnone
        cases hnone
      · exact fun heq => absurd (Option.some.inj heq).symm hne
    · rw [if_neg hpair]
      rfl

/-- The component is `o`'s, and no held back insert of another invocation is to take it. -/
def Stays (o o' : SystemInvocation) (t : TypeId) (e : Entity) (w : World α) : Prop :=
  w.owner? t e = some o ∧ ¬ w.Carries o' t e

theorem stays_command {o' : SystemInvocation} {c : Command α} (ht : ¬ C.IsInverse t)
    (h : c.apply C w o' = some w') :
    w'.Stays o o' t e ↔ w.Stays o o' t e ∧ c.moves C w t e = false := by
  constructor
  · rintro ⟨howner, hnot⟩
    have hmoves : c.moves C w t e = false := by
      refine Bool.or_eq_false_iff.mpr ⟨decide_eq_false fun hland => ?_, ?_⟩
      · exact hnot (carries_landing hland ht h)
      · exact Bool.eq_false_iff.mpr fun htakes => owner?_of_takes htakes h howner
    refine ⟨⟨(owner?_command h ht hmoves).symm.trans howner, fun hcarries => hnot ?_⟩, hmoves⟩
    exact hcarries.command ht (Bool.or_eq_false_iff.mp hmoves).2 h
  · rintro ⟨⟨howner, hnot⟩, hmoves⟩
    refine ⟨(owner?_command h ht hmoves).trans howner, fun hcarries => ?_⟩
    rcases carries_of_command h hcarries with hold | hland
    · exact hnot hold
    · exact of_decide_eq_false (Bool.or_eq_false_iff.mp hmoves).1 hland

theorem stays_flush {o' : SystemInvocation} (hne : o ≠ o')
    (hall : ∀ p ∈ w.pendingDerivedFrom, p.owner = some o')
    (h : w.flushDerivedFrom C = some w') (ht : ¬ C.IsInverse t) :
    w'.owner? t e = some o ↔ w.Stays o o' t e := by
  have hleft : ¬ w.Carries o' t e → w'.owner? t e = w.owner? t e := fun hnot =>
    owner?_of_cell? <| cell?_flush_ne h ht fun p hp heq => hnot <| by
      obtain ⟨rfl, rfl⟩ := Prod.ext_iff.mp heq
      exact Or.inr ⟨p, hp, hall p hp, rfl, rfl⟩
  constructor
  · intro howner
    have hnot : ¬ w.Carries o' t e := fun hcarries =>
      hne (Option.some.inj (howner.symm.trans (owner?_flush_own hall h ht hcarries)))
    exact ⟨(hleft hnot).symm.trans howner, hnot⟩
  · rintro ⟨howner, hnot⟩
    exact (hleft hnot).trans howner

end Buffers

section Outputs

variable {output : SystemOutput α} {deferInserts : Bool}

structure Publishes (C : Components α) (o : SystemInvocation) (em : Emitted) (w : World α) :
    Prop where
  kept : ∀ t e, ¬ C.IsInverse t → (t, e) ∈ em.pairs → w.owner? t e = some o
  listed : ∀ p ∈ w.outputs o, p ∈ em.pairs

theorem emission_of_applied {applied : World α} (happlied : (w.takeDerivedOutputs output.owner).2.applyCommands
    C output.owner (output.immediate deferInserts) = some applied) :
    w.emission C output deferInserts = { w.issued C output deferInserts with
      pairs := (w.issued C output deferInserts).pairs ++
        applied.pendingDerivedFrom.map fun p => (p.component, p.entity) } := by
  unfold emission
  rw [happlied]

/-- The commands of an output emit from an empty record, whatever its invocation had before. -/
theorem emits_issued {applied : World α} (hbacked : w.Backed) (hrest : w.pendingDerivedFrom = [])
    (happlied : (w.takeDerivedOutputs output.owner).2.applyCommands C output.owner
      (output.immediate deferInserts) = some applied) :
    Emits C output.owner (w.takeDerivedOutputs output.owner).2 (w.issued C output deferInserts)
      applied := by
  obtain ⟨htaken, hnone⟩ := hbacked.eraseOwner output.owner (w.takeDerivedOutputs output.owner).2
    rfl rfl
  have hstart : Emits C output.owner (w.takeDerivedOutputs output.owner).2 ⟨[], []⟩
      (w.takeDerivedOutputs output.owner).2 := by
    refine ⟨htaken, ?_, ?_, fun p hp => ?_, fun p hp => ?_, .of_eq rfl rfl⟩
    · rintro t e - ⟨⟩
    · rintro p ⟨⟩
    · rw [hnone] at hp
      cases hp
    · rw [show (w.takeDerivedOutputs output.owner).2.pendingDerivedFrom = [] from hrest] at hp
      cases hp
  exact hstart.commands happlied

/-- An output leaves its invocation with what it emits, whatever that had before. -/
theorem publishes_applyOutput (hbacked : w.Backed) (hrest : w.pendingDerivedFrom = [])
    (h : w.applyOutput C output deferInserts = some w') :
    Publishes C output.owner (w.emission C output deferInserts) w' := by
  obtain ⟨applied, flushed, happlied, hflushed, rfl⟩ := exists_of_applyOutput h
  have hemits := emits_issued hbacked hrest happlied
  rw [emission_of_applied happlied]
  have hlater : ListsOnly output.owner
      (fun t e => (t, e) ∈ applied.pendingDerivedFrom.map fun p => (p.component, p.entity)) applied
      ((flushed.finishDerivedSpawns output.owner).removeDerivedStale C output.owner
        (w.outputs output.owner)) := by
    have hclosed := closed_listsOnly C output.owner fun t e =>
      (t, e) ∈ applied.pendingDerivedFrom.map fun p => (p.component, p.entity)
    have hflush := hclosed.flushDerivedFrom hflushed
      (fun p hp _ => List.mem_map.mpr ⟨p, hp, rfl⟩) trivial
    exact hclosed.trans hflush (hclosed.removeDerivedStale (flushed.finishDerivedSpawns output.owner)
      _ fun _ _ => trivial)
  refine ⟨fun t e ht hmem => ?_, fun p hp => ?_⟩
  · have hcarried : applied.Carries output.owner t e ∧ applied.Placed output.owner (t, e) := by
      rcases List.mem_append.mp hmem with hold | hnew
      · exact ⟨hemits.carried t e ht hold, hemits.placed (t, e) hold⟩
      · obtain ⟨p, hp, heq⟩ := List.mem_map.mp hnew
        have howner := hemits.pending p hp
        obtain ⟨rfl, rfl⟩ := Prod.ext_iff.mp heq
        exact ⟨Or.inr ⟨p, hp, howner, rfl, rfl⟩, Or.inr ⟨p, hp, howner, rfl⟩⟩
    have hflushes : flushed.Lists output.owner (t, e) := hcarried.2.flush hflushed
    have hlists : (flushed.finishDerivedSpawns output.owner).Lists output.owner (t, e) := hflushes
    have howner : flushed.owner? t e = some output.owner :=
      owner?_flush_own hemits.pending hflushed ht hcarried.1
    rw [owner?_of_cell? (cell?_removeDerivedStale_of_lists ht _ hlists)]
    exact howner
  · rcases hlater p hp with hold | hnew
    · exact List.mem_append_left _ (hemits.listed p hold)
    · exact List.mem_append_right _ hnew

/-- The spawn slots of an output's invocation are what it spawns, after the slots that its cursor
has passed. -/
theorem slots_applyOutput (hbacked : w.Backed) (hrest : w.pendingDerivedFrom = [])
    (h : w.applyOutput C output deferInserts = some w') : w'.slots output.owner =
      (w.slots output.owner).take (w.cursor output.owner) ++
        (w.emission C output deferInserts).spawned := by
  obtain ⟨applied, happlied, -, hslots, -⟩ := exists_applied h
  have hfills := (emits_issued hbacked hrest happlied).fills
  have hstart : (w.takeDerivedOutputs output.owner).2.cursor output.owner =
      w.cursor output.owner := rfl
  have hheld : (w.takeDerivedOutputs output.owner).2.slots output.owner =
      w.slots output.owner := rfl
  rw [hslots, if_pos rfl, emission_of_applied happlied, hfills.slots, hfills.cursor, hstart, hheld]
  rcases le_or_gt (w.cursor output.owner) (w.slots output.owner).length with hroom | hpast
  · refine List.take_left' ?_
    rw [List.length_append, List.length_take, Nat.min_eq_left hroom]
  · rw [List.drop_eq_nil_of_le (by omega), List.append_nil]
    refine List.take_of_length_le ?_
    rw [List.length_append, List.length_take, Nat.min_eq_right hpast.le]
    omega

theorem slots_applyOutput_ne (hne : o ≠ output.owner)
    (h : w.applyOutput C output deferInserts = some w') : w'.slots o = w.slots o := by
  obtain ⟨applied, happlied, -, hslots, -⟩ := exists_applied h
  rw [hslots, if_neg hne, (fills_applyCommands_ne hne happlied).1]
  rfl

/-- Another invocation keeps what the output does not move, and nothing else. -/
theorem owner?_applyOutput_ne (hbacked : w.Backed) (hrest : w.pendingDerivedFrom = [])
    (h : w.applyOutput C output deferInserts = some w') (ht : ¬ C.IsInverse t)
    (hne : o ≠ output.owner) : w'.owner? t e = some o ↔
      w.owner? t e = some o ∧ w.movedBy C output deferInserts t e = false := by
  obtain ⟨applied, flushed, happlied, hflushed, rfl⟩ := exists_of_applyOutput h
  have hpending := (emits_issued hbacked hrest happlied).pending
  have hstart : (w.takeDerivedOutputs output.owner).2.Stays o output.owner t e ↔
      w.owner? t e = some o := by
    refine ⟨And.left, fun howner => ⟨howner, ?_⟩⟩
    rintro (hother | ⟨p, hp, -⟩)
    · exact hne (Option.some.inj (howner.symm.trans hother))
    · rw [show (w.takeDerivedOutputs output.owner).2.pendingDerivedFrom = [] from hrest] at hp
      cases hp
  have happly : applied.Stays o output.owner t e ↔ w.owner? t e = some o ∧
      w.movedBy C output deferInserts t e = false := by
    refine List.history_induction (fun (u : World α) found => u.Stays o output.owner t e ↔
      w.owner? t e = some o ∧ found = false) _ happlied (by simp [hstart]) ?_
    intro u c u' found _ hu hstep
    rw [stays_command ht hstep, hu, Bool.or_eq_false_iff, and_assoc]
  have hflush : flushed.owner? t e = some o ↔ applied.Stays o output.owner t e :=
    stays_flush hne hpending hflushed ht
  rw [owner?_removeDerivedStale_ne ht hne, ← happly]
  exact hflush

/-- Applying an output leaves its invocation with what the buffer emits and spawns, and the others
with what the buffer leaves. -/
theorem applyOutput_moves (hw : Reachable C w) (hrest : w.pendingDerivedFrom = [])
    (h : w.applyOutput C output deferInserts = some w') :
    (∀ o t e, ¬ C.IsInverse t → (w'.owner? t e = some o ↔
      if o = output.owner then (t, e) ∈ (w.emission C output deferInserts).pairs
      else w.owner? t e = some o ∧ w.movedBy C output deferInserts t e = false)) ∧
    ∀ o, w'.slots o = if o = output.owner then
        (w.slots o).take (w.cursor o) ++ (w.emission C output deferInserts).spawned
      else w.slots o := by
  have hbacked : w.Backed := fun t e o hmem => ((reachable_indexExact hw).1 o t e).mp hmem
  have hreached : Reachable C w' := .step (i := .output output deferInserts) hw trivial h
  have hpublishes := publishes_applyOutput hbacked hrest h
  refine ⟨fun o t e ht => ?_, fun o => ?_⟩
  · split_ifs with hown
    · subst hown
      exact ⟨fun howner => hpublishes.listed (t, e)
        (((reachable_indexExact hreached).1 output.owner t e).mpr howner), hpublishes.kept t e ht⟩
    · exact owner?_applyOutput_ne hbacked hrest h ht hown
  · split_ifs with hown
    · subst hown
      exact slots_applyOutput hbacked hrest h
    · exact slots_applyOutput_ne hown h

/-- An invocation has pointed entity 2 at entity 3, and another one has emitted on entity 4. -/
def watched : World Nat :=
  ((machine following).run World.new [.output ⟨⟨0, [2]⟩, [.insert 5 2 (.data 3)]⟩ false,
    .output ⟨⟨1, [4]⟩, [.insert 7 4 (.data 8)]⟩ false]).getD World.new

/-- The second invocation removes what entity 2 points at, emits elsewhere and spawns. -/
def clearing : SystemOutput Nat :=
  ⟨⟨1, [4]⟩, [.removeEntity 3, .insert 8 4 (.data 9), .spawn [(7, .data 1)] 5]⟩

theorem clearing_moves : ∃ w', watched.applyOutput following clearing false = some w' ∧
    watched.owner? 5 2 = some ⟨0, [2]⟩ ∧ w'.owner? 5 2 ≠ some ⟨0, [2]⟩ ∧
      w'.owner? 7 4 ≠ some ⟨1, [4]⟩ ∧ w'.owner? 8 4 = some ⟨1, [4]⟩ ∧ w'.slots ⟨1, [4]⟩ = [5] := by
  have hrun : (machine following).run World.new
      [.output ⟨⟨0, [2]⟩, [.insert 5 2 (.data 3)]⟩ false,
        .output ⟨⟨1, [4]⟩, [.insert 7 4 (.data 8)]⟩ false] = some watched := rfl
  have hreached : Reachable following watched := .run (.init machine_init_new) hrun
  have happlied : watched.applyOutput following clearing false =
      some ((watched.applyOutput following clearing false).getD World.new) := rfl
  have hplain : ∀ t, t ≠ 6 → ¬ following.IsInverse t := by
    rintro t hne ⟨edge, hrole⟩
    simp only [following] at hrole
    split_ifs at hrole
  obtain ⟨howners, hslots⟩ := applyOutput_moves hreached rfl happlied
  refine ⟨_, happlied, rfl, ?_, ?_, ?_, hslots ⟨1, [4]⟩⟩
  · rw [Ne, howners ⟨0, [2]⟩ 5 2 (hplain 5 (by decide))]
    decide
  · rw [Ne, howners ⟨1, [4]⟩ 7 4 (hplain 7 (by decide))]
    decide
  · rw [howners ⟨1, [4]⟩ 8 4 (hplain 8 (by decide))]
    decide

end Outputs

end World
end Porridge
