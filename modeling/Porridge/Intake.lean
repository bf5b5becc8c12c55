import Mathlib.Data.List.Perm.Basic
import Porridge.World.Reachable

/-! Inputs between acceptance and application, for any interleaving of callers and evaluations. -/
namespace Porridge

/-- The live world with the inputs that have been accepted and not applied. -/
structure Intake (α : Type) where
  world : World α
  /-- Inputs queued for this evaluation or a later one. -/
  queued : List (List (BaseCommand α))
  /-- Inputs of preempting callers that wait for a boundary. -/
  waiting : List (List (BaseCommand α))
deriving DecidableEq

/-- One critical section of a caller or of an evaluation. -/
inductive IntakeOp (α : Type) where
  /-- A bundle, for the entity named or for the one its singleton marker routes it to. -/
  | insert (bundle : List (TypeId × Value α)) (target : Option Entity) (waits : Bool)
  | remove (component : TypeId) (entity : Entity) (waits : Bool)
  | despawn (entity : Entity) (waits : Bool)
  /-- A waiting input reaches its boundary. -/
  | deliver (index : Nat)
  /-- The caller of a waiting input is dropped. -/
  | abandon (index : Nat)
  /-- An evaluation applies a queued input. -/
  | apply (index : Nat)
  | world (op : WorldOp α)
deriving DecidableEq

namespace WorldOp

variable {α : Type}

/-- Component writes and singleton reservations of callers go through the accepted inputs. -/
def direct : WorldOp α → Bool
  | base (.insert ..) | reserveSingleton _ => false
  | _ => true

end WorldOp

namespace Intake

variable {α : Type} (C : Components α)

def queueBundle (e : Entity) (bundle : List (TypeId × Value α)) : List (BaseCommand α) :=
  bundle.map fun p => .insert p.1 e p.2

/-- The entity that an insert is for: a singleton bundle shares one, any other gets a new one. -/
def insertTarget (w : World α) (bundle : List (TypeId × Value α)) :
    Option Entity → Option (Entity × World α)
  | some e => some (e, w)
  | none => (World.bundleSingletonKey C bundle).map fun
    | none => w.spawnEmpty
    | some key => w.singletonEntityOrSpawn key

def submit (s : Intake α) (commands : List (BaseCommand α)) (waits : Bool) : Intake α :=
  if waits then { s with waiting := s.waiting ++ [commands] }
  else { s with queued := s.queued ++ [commands] }

def step (s : Intake α) : IntakeOp α → Option (Intake α)
  | .insert bundle target waits => do
    let (e, world) ← insertTarget C s.world bundle target
    some ({ s with world }.submit (queueBundle e bundle) waits)
  | .remove t e waits => some (s.submit [.removeComponent t e] waits)
  | .despawn e waits => some (s.submit [.despawn e] waits)
  | .deliver i => do
    let commands ← s.waiting[i]?
    some { s with queued := s.queued ++ [commands], waiting := s.waiting.eraseIdx i }
  | .abandon i => do
    let _ ← s.waiting[i]?
    some { s with waiting := s.waiting.eraseIdx i }
  | .apply i => do
    let commands ← s.queued[i]?
    let world ← s.world.applyBase C commands
    some { s with world, queued := s.queued.eraseIdx i }
  | .world op =>
    if op.direct then do
      let world ← s.world.apply C op
      some { s with world }
    else none

def machine : Machine (Intake α) (IntakeOp α) where
  init s := (World.machine C).init s.world ∧ s.queued = [] ∧ s.waiting = []
  step := step C

def inputs (s : Intake α) : List (List (BaseCommand α)) := s.queued ++ s.waiting

end Intake

def Awaits {α : Type} (C : Components α) (commands : List (BaseCommand α)) (key : TypeId)
    (e : Entity) : Prop :=
  ∃ c ∈ commands, ∃ t v, c = .insert t e v ∧ C.singletonKey t = some key

namespace Intake

variable {α : Type} {C : Components α} {s s' : Intake α}

/-- An accepted input is still to write the marker of the key on the entity. -/
def Awaited (C : Components α) (s : Intake α) (key : TypeId) (e : Entity) : Prop :=
  ∃ commands ∈ s.inputs, Awaits C commands key e

theorem mem_inputs_submit {commands commands' : List (BaseCommand α)} {waits : Bool} :
    commands' ∈ (s.submit commands waits).inputs ↔ commands' ∈ s.inputs ∨ commands' = commands := by
  unfold submit inputs
  cases waits with
  | true => simp only [if_true, List.mem_append, List.mem_singleton, or_assoc]
  | false =>
    simp only [Bool.false_eq_true, if_false, List.mem_append, List.mem_singleton]
    tauto

theorem submit_world {commands : List (BaseCommand α)} {waits : Bool} :
    (s.submit commands waits).world = s.world := by
  unfold submit
  split_ifs
  · rfl
  · rfl

theorem awaited_submit {commands : List (BaseCommand α)} {waits : Bool} {key : TypeId}
    {e : Entity} : (s.submit commands waits).Awaited C key e ↔
      s.Awaited C key e ∨ Awaits C commands key e := by
  unfold Awaited
  simp only [mem_inputs_submit]
  constructor
  · rintro ⟨input, hmem | rfl, hawaits⟩
    · exact Or.inl ⟨input, hmem, hawaits⟩
    · exact Or.inr hawaits
  · rintro (⟨input, hmem, hawaits⟩ | hawaits)
    · exact ⟨input, Or.inl hmem, hawaits⟩
    · exact ⟨commands, Or.inr rfl, hawaits⟩

/-- What a bundle awaits is its markers, on its entity. -/
theorem awaits_queueBundle {bundle : List (TypeId × Value α)} {key : TypeId} {e e' : Entity} :
    Awaits C (queueBundle e bundle) key e' ↔
      e' = e ∧ ∃ p ∈ bundle, C.singletonKey p.1 = some key := by
  unfold Awaits queueBundle
  constructor
  · rintro ⟨c, hc, t, v, rfl, hkey⟩
    obtain ⟨p, hp, heq⟩ := List.mem_map.mp hc
    cases heq
    exact ⟨rfl, p, hp, hkey⟩
  · rintro ⟨rfl, p, hp, hkey⟩
    exact ⟨_, List.mem_map_of_mem hp, p.1, p.2, rfl, hkey⟩

/-- A removal awaits nothing. -/
theorem not_awaits_of_removal {c : BaseCommand α} (hc : ∀ t e v, c ≠ .insert t e v) {key : TypeId}
    {e : Entity} : ¬ Awaits C [c] key e := by
  rintro ⟨c', hmem, t, v, rfl, -⟩
  exact hc t e v (List.mem_singleton.mp hmem).symm

theorem mem_inputs_deliver {i : Nat} {commands input : List (BaseCommand α)}
    (hi : s.waiting[i]? = some commands) :
    input ∈ s.queued ++ [commands] ++ s.waiting.eraseIdx i ↔ input ∈ s.inputs := by
  have hperm : (commands :: s.waiting.eraseIdx i).Perm s.waiting := by
    obtain ⟨hlt, rfl⟩ := List.getElem?_eq_some_iff.mp hi
    exact (List.getElem_cons_eraseIdx_perm hlt)
  rw [List.append_assoc, List.singleton_append, inputs, List.mem_append, List.mem_append,
    hperm.mem_iff]

/-- Where a bundle goes: to the entity named, to a new one, or to the one registered for its
key, which is registered if there was none. -/
theorem insertTarget_spec {w w' : World α} {bundle : List (TypeId × Value α)}
    {target : Option Entity} {e : Entity} (h : insertTarget C w bundle target = some (e, w')) :
    w'.stores = w.stores ∧ w'.pendingDerivedFrom = w.pendingDerivedFrom ∧
      ((w'.singletonEntities = w.singletonEntities ∧
          (target = none → ∀ p ∈ bundle, C.singletonKey p.1 = none)) ∨
        ∃ key, target = none ∧ World.bundleSingletonKey C bundle = some (some key) ∧
          (w.singletonEntities.lookup key = none ∨ w.singletonEntities.lookup key = some e) ∧
          ∀ own, w'.singletonEntities.lookup own =
            if own = key then some e else w.singletonEntities.lookup own) := by
  unfold insertTarget at h
  cases target with
  | some e' =>
    cases h
    exact ⟨rfl, rfl, Or.inl ⟨rfl, nofun⟩⟩
  | none =>
    obtain ⟨bundleKey, hbundle, heq⟩ := Option.map_eq_some_iff.mp h
    cases bundleKey with
    | none =>
      cases heq
      refine ⟨rfl, rfl, Or.inl ⟨rfl, fun _ p hp => ?_⟩⟩
      unfold World.bundleSingletonKey at hbundle
      split at hbundle
      · rename_i hnone
        exact List.filterMap_eq_nil_iff.mp hnone p hp
      · cases hbundle
      · cases hbundle
    | some key =>
      unfold World.singletonEntityOrSpawn at heq
      dsimp only at heq
      cases hlookup : w.singletonEntities.lookup key with
      | none =>
        rw [hlookup] at heq
        cases heq
        exact ⟨rfl, rfl, Or.inr ⟨key, rfl, hbundle, Or.inl hlookup, fun own => Dict.lookup_insert ..⟩⟩
      | some existing =>
        rw [hlookup] at heq
        cases heq
        refine ⟨rfl, rfl, Or.inr ⟨key, rfl, hbundle, Or.inr hlookup, fun own => ?_⟩⟩
        split_ifs with hown
        · rw [hown, hlookup]
        · rfl

end Intake
end Porridge
