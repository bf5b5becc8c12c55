import Porridge.Lib.Machine
import Porridge.World.Retire

/-! The worlds the engine can reach, and the completeness of their ownership index. -/
namespace Porridge

/-- One use the engine makes of its live world. -/
inductive WorldOp (α : Type) where
  | base (command : BaseCommand α)
  | flush
  | output (output : SystemOutput α) (deferInserts : Bool)
  | commands (owner : SystemInvocation) (commands : List (Command α))
  | update (component : TypeId) (entity : Entity) (value : Value α)
  | writeInPlace (component : TypeId) (entity : Entity) (value : Value α)
  | reconcileWritten (writes : List (TypeId × Entity))
  | retireTouched (keys : List Entity) (systems : Option (List SystemId))
  | retireOwner (owner : SystemInvocation)
  | drainRemovals
  | rollPlanEpoch
  | spawnEmpty
  | reserveSingleton (key : TypeId)
deriving DecidableEq

/-- The use may change a value in its cell, or the fingerprint stamped for it. -/
def WorldOp.amending {α : Type} : WorldOp α → Bool
  | .update .. | .writeInPlace .. | .reconcileWritten .. => true
  | _ => false

namespace World

variable {α : Type} (C : Components α)

/-- Hand the removal lists over, leaving them empty. -/
def drainRemovals (w : World α) : World α :=
  { w with removedEntities := [], removedOwners := [], removedComponentOwners := [] }

/-- The log length above which the next evaluation starts a new plan epoch. -/
def planLogBudget : Nat := 4096

/-- Retire a write log above its budget; the unread rows are the caller's to preserve. -/
def maybeRollPlanEpoch (w : World α) : Option (Nat × List (TypeId × Entity)) × World α :=
  if w.writeLog.length ≤ planLogBudget then (none, w)
  else (some (w.planEpoch, w.writeLog), { w with planEpoch := w.planEpoch + 1, writeLog := [] })

def apply (w : World α) : WorldOp α → Option (World α)
  | .base c => c.apply C w
  | .flush => w.flushDerivedFrom C
  | .output o deferInserts => w.applyOutput C o deferInserts
  | .commands o commands => w.applyCommands C o commands
  | .update t e v => some (w.updateComponent C t e v)
  | .writeInPlace t e v => some (w.writeInPlace t e v)
  | .reconcileWritten writes => some (w.reconcileWritten C writes)
  | .retireTouched keys systems => some (w.removeDerivedTouchedBySystems C keys systems).1
  | .retireOwner o => some (w.removeDerivedOwned C o)
  | .drainRemovals => some w.drainRemovals
  | .rollPlanEpoch => some w.maybeRollPlanEpoch.2
  | .spawnEmpty => some w.spawnEmpty.2
  | .reserveSingleton key => some (w.singletonEntityOrSpawn key).2

/-- The live world as a machine over the engine's uses of it. -/
def machine : Machine (World α) (WorldOp α) where
  init w := ∃ schema, w = World.ofSchema schema
  step := World.apply C

abbrev Reachable : World α → Prop := (machine C).Reachable

variable (w : World α)

theorem cell?_amendEntry (t t' : TypeId) (e e' : Entity) (x : Entry α) (mark : Revision) :
    (w.amendEntry t e x mark).cell? t' e' =
      if t' = t ∧ e' = e then some x else w.cell? t' e' := by
  by_cases ht : t' = t
  · subst ht
    simp [cell?, store, amendEntry, Dict.getD_insert, Dict.lookup_insert]
  · simp [cell?, store, amendEntry, Dict.getD_insert, ht]

theorem cell?_restampEntry_ne (w : World α) {t t' : TypeId} {e e' : Entity} (v : Value α)
    (hne : ¬ (t' = t ∧ e' = e)) : (w.restampEntry C t e v).cell? t' e' = w.cell? t' e' := by
  unfold restampEntry
  split
  · rfl
  · split_ifs
    · exact (cell?_amendEntry ..).trans (if_neg hne)
    · exact (cell?_amendEntry ..).trans (if_neg hne)

theorem cell?_reconcileWritten (w : World α) {writes : List (TypeId × Entity)} {t : TypeId}
    {e : Entity} (hnot : (t, e) ∉ writes) :
    (w.reconcileWritten C writes).cell? t e = w.cell? t e := by
  refine List.foldlRecOn writes _ (motive := fun u : World α => u.cell? t e = w.cell? t e) rfl
    fun (u : World α) hu p hp => ?_
  have hne : ¬ (t = p.1 ∧ e = p.2) := by
    rintro ⟨rfl, rfl⟩
    exact hnot hp
  dsimp only
  split_ifs
  · refine Eq.trans ?_ hu
    show (u.reconcileEntry C p.1 p.2).cell? t e = u.cell? t e
    unfold reconcileEntry
    split
    · rfl
    · exact cell?_restampEntry_ne C u _ hne
  · exact hu

theorem owner?_amendEntry {t : TypeId} {e : Entity} {x x' : Entry α}
    (hx : w.cell? t e = some x) (ho : x'.owner = x.owner) (mark : Revision) (t' : TypeId)
    (e' : Entity) : (w.amendEntry t e x' mark).owner? t' e' = w.owner? t' e' := by
  rw [owner?, cell?_amendEntry]
  split_ifs with hte
  · simp [owner?, hte.1, hte.2, hx, ho]
  · rfl

theorem owner?_writeInPlace (t t' : TypeId) (e e' : Entity) (v : Value α) :
    (w.writeInPlace t e v).owner? t' e' = w.owner? t' e' := by
  unfold writeInPlace
  split
  · rfl
  · rename_i x hx
    exact owner?_amendEntry w hx (by rfl) 0 t' e'

@[simp] theorem writeInPlace_derivedOwners (t : TypeId) (e : Entity) (v : Value α) :
    (w.writeInPlace t e v).derivedOwners = w.derivedOwners := by
  unfold writeInPlace
  split <;> rfl

theorem owner?_restampEntry (t t' : TypeId) (e e' : Entity) (v : Value α) :
    (w.restampEntry C t e v).owner? t' e' = w.owner? t' e' := by
  unfold restampEntry
  split
  · rfl
  · rename_i x hx
    split_ifs
    · exact owner?_amendEntry w hx (by rfl) _ t' e'
    · exact owner?_amendEntry w hx (by rfl) _ t' e'

@[simp] theorem restampEntry_derivedOwners (t : TypeId) (e : Entity) (v : Value α) :
    (w.restampEntry C t e v).derivedOwners = w.derivedOwners := by
  unfold restampEntry
  split
  · rfl
  · split_ifs <;> rfl

def SameOwnership (w w' : World α) : Prop :=
  (∀ t e, w'.owner? t e = w.owner? t e) ∧ w'.derivedOwners = w.derivedOwners

variable {w}

theorem SameOwnership.trans {a b c : World α} (hab : SameOwnership a b)
    (hbc : SameOwnership b c) : SameOwnership a c :=
  ⟨fun t e => (hbc.1 t e).trans (hab.1 t e), hbc.2.trans hab.2⟩

theorem SameOwnership.indexed {w' : World α} (h : SameOwnership w w')
    {loose : SystemInvocation → TypeId × Entity → Prop} (hi : w.Indexed loose) :
    w'.Indexed loose := by
  intro t e o ho
  rw [h.1] at ho
  rw [outputs_congr h.2]
  exact hi t e o ho

variable (w)

theorem sameOwnership_restampEntry (t : TypeId) (e : Entity) (v : Value α) :
    SameOwnership w (w.restampEntry C t e v) :=
  ⟨fun t' e' => owner?_restampEntry C w t t' e e' v, restampEntry_derivedOwners C w t e v⟩

theorem sameOwnership_updateComponent (t : TypeId) (e : Entity) (v : Value α) :
    SameOwnership w (w.updateComponent C t e v) := by
  unfold updateComponent
  split_ifs <;> exact sameOwnership_restampEntry C w t e v

theorem sameOwnership_reconcileWritten (writes : List (TypeId × Entity)) :
    SameOwnership w (w.reconcileWritten C writes) := by
  refine List.foldlRecOn writes _ (motive := SameOwnership w) ⟨fun _ _ => rfl, rfl⟩
    fun u hu p _ => hu.trans ?_
  dsimp only
  split_ifs
  · unfold reconcileEntry
    split
    · exact ⟨fun _ _ => rfl, rfl⟩
    · exact sameOwnership_restampEntry C u p.1 p.2 _
  · exact ⟨fun _ _ => rfl, rfl⟩

variable {w} {C}

/-- Every engine use of the world keeps the ownership index complete. -/
theorem Indexed.apply {w' : World α} (h : w.Indexed fun _ _ => False) {op : WorldOp α}
    (ha : w.apply C op = some w') : w'.Indexed fun _ _ => False := by
  cases op with
  | base c => exact (closed_indexed C _).baseCommand ha (fun _ _ => trivial) (fun _ => trivial) trivial h
  | flush => exact (closed_indexed C _).flushDerivedFrom ha (fun _ _ => trivial) trivial h
  | output o deferInserts => exact h.applyOutput C ha
  | commands o commands => exact (closed_indexed C _).applyCommands ha (Permits.grants_all o) h
  | update t e v => cases ha; exact (sameOwnership_updateComponent C w t e v).indexed h
  | writeInPlace t e v =>
    cases ha
    exact SameOwnership.indexed ⟨fun t' e' => owner?_writeInPlace w t t' e e' v, by simp⟩ h
  | reconcileWritten writes => cases ha; exact (sameOwnership_reconcileWritten C w writes).indexed h
  | retireTouched keys systems => cases ha; exact h.retireOwners C _
  | retireOwner o => cases ha; exact h.removeDerivedOwned C o
  | drainRemovals => cases ha; exact SameOwnership.indexed ⟨fun _ _ => rfl, rfl⟩ h
  | rollPlanEpoch =>
    cases ha
    refine SameOwnership.indexed ?_ h
    unfold maybeRollPlanEpoch
    split_ifs <;> exact ⟨fun _ _ => rfl, rfl⟩
  | spawnEmpty => cases ha; exact SameOwnership.indexed ⟨fun _ _ => rfl, rfl⟩ h
  | reserveSingleton key =>
    cases ha
    refine SameOwnership.indexed ?_ h
    unfold singletonEntityOrSpawn
    split <;> exact ⟨fun _ _ => rfl, rfl⟩

theorem machine_init_new : (machine C).init World.new := ⟨none, rfl⟩

theorem indexed_over (schema : Option (List TypeId)) :
    (World.ofSchema schema : World α).Indexed fun _ _ => False := by
  intro t e o ho
  simp [owner?, cell?, store, World.ofSchema, World.new, Dict.getD] at ho

/-- In every reachable world each derived entry is listed under its owner. -/
theorem Reachable.indexed (h : Reachable C w) : w.Indexed fun _ _ => False :=
  Machine.ReachableUnder.invariant h (fun w => w.Indexed fun _ _ => False)
    (fun w hw => by
      obtain ⟨schema, rfl⟩ := hw
      exact indexed_over schema)
    fun _ _ _ hi _ hs => hi.apply hs

end World
end Porridge
